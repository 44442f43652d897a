import BoundaryTag.Proofs.Damage
import BoundaryTag.Proofs.Finishing
import BoundaryTag.Proofs.Halting
import BoundaryTag.Proofs.Reclaiming

/-!
# Releasing a block twice

Nothing tells a release that a block is free already. What it does then depends on what became of the
block when it was released first (`World.TookBack`).

If the block is the first on the free list, it is put in front of itself and linked back to itself.
If the block before it took it in, its header still stands there and leads to the same neighbours as
before. The block is listed and joined to the one before it again, which puts the free list in order
but leaves this block too long (`Memory.rejoined`), and a thread that goes by its forward offset
contradicts the headers that it passes over (`Placed.forward_le`). Either way a check finds
something, unless the region has been given back.

Where a second release faults it is no walk without an end that it got into: the terminators of all
regions still lead nowhere (`World.Relists.last`), so that every check comes to its end.
-/

namespace BoundaryTag

variable {σ : Type} {w w' : World σ} {s : Site} {m : Memory} {c : Block} {h x : Nat}

/-! ### Putting a block on the free list again -/

/-- The memory after a release has put `x` in front of a free list that starts with `h`. -/
def Memory.relisted (m : Memory) (x h : Nat) : Memory :=
  (((m.markFree x).setPrev x none).setNext x (some h)).setPrev h (some x)

namespace Memory

theorem changesOnly_relinked : ChangesOnly (fun v => v = x + 16 ∨ v = x + 32 ∨ v = x + 40) m
    (((m.markFree x).setPrev x none).setNext x (some h)) :=
  (changesOnly_markFree.trans (changesOnly_setPrev.mono fun _ hv => .inr (.inr hv))).trans
    (changesOnly_setNext.mono fun _ hv => .inr (.inl hv))

theorem tag_relinked : (((m.markFree x).setPrev x none).setNext x (some h)).tag x = .free := by
  rw [changesOnly_setNext.tag (by omega), changesOnly_setPrev.tag (by omega), tag_markFree]

/-- Putting the block on the list changes none of its offsets. -/
theorem changesOnly_relisted :
    ChangesOnly (fun v => v = x + 16 ∨ v = x + 32 ∨ v = x + 40 ∨ v = h + 40) m (m.relisted x h) :=
  (changesOnly_relinked.mono fun _ hv => by omega).trans
    (changesOnly_setPrev.mono fun _ hv => .inr (.inr (.inr hv)))

/-- A block that is put in front of itself is linked back to itself. -/
theorem link_relisted_self (hword : 0 < x ∧ x < Word.limit) :
    (m.relisted x x).link (x + 40) = some x := by
  refine link_setPrev ?_
  rintro _ ⟨⟩
  exact hword

theorem links_relisted (hal : x % 16 = 0) (hapart : Apart x h) (hword : 0 < h ∧ h < Word.limit) :
    (m.relisted x h).links x = .ok { next := some h, prev := none } := by
  rw [apart_iff] at hapart
  have hlast : ChangesOnly (· = h + 40) (((m.markFree x).setPrev x none).setNext x (some h))
      (m.relisted x h) := changesOnly_setPrev
  have htag : (m.relisted x h).tag x = .free := (hlast.tag (by omega)).trans tag_relinked
  have hnext : (m.relisted x h).link (x + 32) = some h := by
    refine (hlast.link (by omega)).trans (link_setNext ?_)
    rintro _ ⟨⟩
    exact hword
  have hprev : (m.relisted x h).link (x + 40) = none :=
    (hlast.link (by omega)).trans ((changesOnly_setNext.link (by omega)).trans
      (link_setPrev (l := none) nofun))
  rw [links_run hal htag, hnext, hprev]

end Memory

theorem FreeList.pushFront_again (hal : x % 16 = 0) (hhal : h % 16 = 0) (hfree : m.tag h = .free)
    (hh : h = x ∨ Apart x h) :
    pushFront ⟨some h⟩ x (m.markFree x) = .ok ⟨some x⟩ (m.relisted x h) := by
  refine pushFront_eq (Memory.requireFree_run hal Memory.tag_markFree) ?_
  rintro n ⟨⟩
  refine Memory.requireFree_run hhal ?_
  rcases hh with rfl | happart
  · exact Memory.tag_relinked
  · rw [apart_iff] at happart
    exact (Memory.changesOnly_relinked.tag (by omega)).trans hfree

namespace World.Loose

/-- An entry of the free list is the block of the site or lies before it or after it. -/
theorem apart_of_mem (hw : w.Loose s) (hh : h ∈ s.free) :
    h = s.block.addr ∨ h + 48 ≤ s.block.addr ∨ s.block.addr + s.block.span ≤ h := by
  obtain ⟨d, hd, rfl, -⟩ := hw.has.sound.listed h hh
  obtain ⟨-, -, -, -, hroom⟩ := hw.has.block_sound hd
  by_cases hds : d = s.block
  · exact .inl (congrArg Block.addr hds)
  · have hapart := hw.has.sound.laid.apart_of_ne hd s.mem_blocks hds
    omega

/-- A block that was taken in has nothing in common with an entry of the free list. -/
theorem apart_of_tail (hw : w.Loose s) (ht : s.block.Tail m x) (hh : h ∈ s.free) : Apart x h := by
  have hstart := ht.start
  have hroom := ht.room
  have happart := hw.apart_of_mem hh
  rw [apart_iff]
  omega

/-- The entry with which the free list starts is the released block or has nothing in common with
it. -/
theorem head_cases (hw : w.Loose s) (ht : w.TookBack s x) :
    ∃ h ∈ s.free, s.free.head? = some h ∧
      ((s.block.addr = x ∧ h = x) ∨ (s.block.Tail w.memory x ∧ Apart x h)) := by
  rcases ht with ⟨haddr, hhead⟩ | htail
  · exact ⟨x, List.mem_of_mem_head? hhead, hhead, .inl ⟨haddr, rfl⟩⟩
  · cases hfree : s.free with
    | nil =>
      have hlisted := hw.listed
      rw [hfree] at hlisted
      nomatch hlisted
    | cons h xs =>
      have hh : h ∈ s.free := hfree ▸ List.mem_cons_self
      exact ⟨h, List.mem_cons_self, rfl, .inr ⟨htail, hw.apart_of_tail htail hh⟩⟩

theorem tag_of_mem (hw : w.Loose s) (hh : h ∈ s.free) : w.memory.tag h = .free := by
  obtain ⟨d, hd, rfl, htag⟩ := hw.has.sound.listed h hh
  exact (hw.has.marked hd).tag.trans htag

/-- A link of an entry of the free list is in no header. -/
theorem marked_setPrev (hw : w.Loose s) (hh : h ∈ s.free) {l : Option Nat}
    (hm : ∀ t ∈ s.shape.tracts, t.Marked m) : ∀ t ∈ s.shape.tracts, t.Marked (m.setPrev h l) := by
  obtain ⟨d, hd, haddr, -⟩ := hw.has.sound.listed h hh
  have hlinks : Memory.ChangesOnly (LinkWord [h]) m (m.setPrev h l) :=
    Memory.changesOnly_setPrev.mono fun v hv => ⟨h, List.mem_singleton.mpr rfl, .inr hv⟩
  exact hw.has.sound.laid.marked_of_links hm hlinks (List.forall_mem_singleton.mpr ⟨d, hd, haddr⟩)

/-- Putting the released block on the list leaves all headers as they are. -/
theorem marked_relisted (hw : w.Loose s) (hh : h ∈ s.free)
    (hx : s.block.addr = x ∨ s.block.Tail w.memory x) :
    ∀ t ∈ s.shape.tracts, t.Marked (w.memory.relisted x h) := by
  have hp := hw.has.sound.laid.placed_single
  have hmem := s.mem_blocks
  have hm := hw.has.marked hmem
  obtain ⟨-, -, -, -, hroom⟩ := hw.has.block_sound hmem
  have hrange : s.block.addr ≤ x ∧ x + 48 ≤ s.block.addr + s.block.span := by
    rcases hx with haddr | htail
    · omega
    · have := htail.start
      have := htail.room
      omega
  have hc := Memory.changesOnly_relinked (m := w.memory) (x := x) (h := h)
  have htag : (((w.memory.markFree x).setPrev x none).setNext x (some h)).tag s.block.addr =
      s.block.tag := by
    rw [hw.free]
    rcases hx with haddr | htail
    · rw [haddr]
      exact Memory.tag_relinked
    · have := htail.start
      exact (hc.tag (by omega)).trans (hm.tag.trans hw.free)
  exact hw.marked_setPrev hh (hp.refill_marked hw.has.inMemory.marked
    (hc.mono fun v hv => .inl (by omega)) (List.forall_mem_singleton.mpr
      ⟨(hc.forward (by omega)).trans hm.forward, htag, (hc.backward (by omega)).trans hm.backward⟩))

/-- The header of the released block still leads to the end of the block that it is in. -/
theorem next_relisted (hw : w.Loose s)
    (hx : (s.block.addr = x ∧ h = x) ∨ (s.block.Tail w.memory x ∧ Apart x h)) :
    (w.memory.relisted x h).next x = s.block.addr + s.block.span := by
  have hmem := s.mem_blocks
  have hlt := (hw.has.block_sound hmem).2.1
  have hc := Memory.changesOnly_relisted (m := w.memory) (x := x) (h := h)
  have hforward : x + (w.memory.relisted x h).forward x = s.block.addr + s.block.span := by
    rcases hx with ⟨rfl, rfl⟩ | ⟨htail, happart⟩
    · rw [hc.forward (by omega), (hw.has.marked hmem).forward]
    · rw [apart_iff] at happart
      rw [hc.forward (by omega), htail.forward]
  unfold Memory.next
  rw [Word.addWrap_of_lt (by omega), hforward]

/-- The header of a block that was taken in still leads back to the start of the block. -/
theorem header_relisted (hw : w.Loose s) (hh : h ∈ s.free) (ht : s.block.Tail w.memory x) :
    (w.memory.relisted x h).forward x = w.memory.forward x ∧
      (w.memory.relisted x h).isSentinel x = false ∧
      (w.memory.relisted x h).previous x = s.block.addr := by
  have hmem := s.mem_blocks
  have hlt := (hw.has.block_sound hmem).2.1
  have hstart := ht.start
  have hroom := ht.room
  have hback := ht.backward
  have happart := hw.apart_of_tail ht hh
  have hc := Memory.changesOnly_relisted (m := w.memory) (x := x) (h := h)
  rw [apart_iff] at happart
  have hbackward : (w.memory.relisted x h).backward x = w.memory.backward x :=
    hc.backward (by omega)
  refine ⟨hc.forward (by omega), ?_, ?_⟩
  · unfold Memory.isSentinel
    rw [hbackward]
    exact decide_eq_false (by omega)
  · unfold Memory.previous
    rw [hbackward, Word.subWrap_of_le (by omega) (by omega)]
    omega

/-- Taking the block off again puts the free list back in order. -/
theorem remove_relisted (hw : w.Loose s) (hh : h ∈ s.free) (ht : s.block.Tail w.memory x)
    (hal : x % 16 = 0) :
    FreeList.remove ⟨some x⟩ x (w.memory.relisted x h) =
      .ok ⟨some h⟩ ((w.memory.relisted x h).setPrev h none) := by
  have hmarked := hw.marked_relisted hh (.inr ht)
  have hlistable := hw.has.sound.laid.listable hmarked hw.has.sound.nodup hw.has.sound.listed
  rw [FreeList.remove_eq (Memory.links_relisted hal (hw.apart_of_tail ht hh)
    (hlistable.word h hh)) nofun, if_pos rfl]
  · rfl
  · rintro _ ⟨⟩
    exact hlistable.requireFree_run hh

theorem mem_regions (hw : w.Loose s) : s.context.region ∈ w.heap.regions := by
  rw [hw.has.regions]
  exact List.mem_map_of_mem Site.mem_tracts

/-- A region whose first header is that of the block is one of the heap's. -/
theorem exists_region (hw : w.Loose s) (hnil : s.context.left = []) :
    ∃ r ∈ w.heap.regions, r.base = s.block.addr := by
  have htiles := hw.has.sound.laid.placed_single.left
  rw [hnil] at htiles
  exact ⟨s.context.region, hw.mem_regions, htiles⟩

end World.Loose

/-! ### What is left after it -/

namespace Check.Passes

variable {rs : List Region}

/-- The first entry of a free list in order has none before it. -/
theorem link_head (hpasses : Check.Passes m rs (some x)) : m.link (x + 40) = none := by
  obtain ⟨xs, hlisted, -⟩ := hpasses.free
  obtain ⟨xs, rfl⟩ := List.head?_eq_some_iff.mp hlisted.head.symm
  exact hlisted.linked.1

end Check.Passes

/-- The memory after the block at `x` was listed and joined to the block `c` before it again. -/
def Memory.rejoined (m : Memory) (c : Block) (x h : Nat) : Memory :=
  let span := c.span + m.forward x
  (((m.relisted x h).setPrev h none).setForward c.addr span).setBackward (c.addr + c.span) span

/-- Joining the block writes a link and the two ends of the longer block. -/
theorem Memory.changesOnly_rejoined :
    ChangesOnly (fun v => v = h + 40 ∨ v = c.addr ∨ v = c.addr + c.span + 8) (m.relisted x h)
      (m.rejoined c x h) :=
  ((changesOnly_setPrev.mono fun _ hv => .inl hv).trans
    (changesOnly_setForward.mono fun _ hv => .inr (.inl hv))).trans
      (changesOnly_setBackward.mono fun _ hv => .inr (.inr hv))

namespace World.Loose

variable {head : Option Nat}

/-- A block that took in the same bytes twice is too long for its region. -/
theorem not_passes_rejoined (hw : w.Loose s) (hh : h ∈ s.free) (ht : s.block.Tail w.memory x)
    (hlt : s.block.span + w.memory.forward x < Word.limit) :
    ¬ Check.Passes (w.memory.rejoined s.block x h) w.heap.regions head := by
  intro hpasses
  have hp := hw.has.sound.laid.placed_single
  obtain ⟨-, hspan, -⟩ := hp.bounds
  have hmarked := hw.marked_setPrev (l := none) hh (hw.marked_relisted hh (.inr ht))
  have hends : Memory.ChangesOnly (Territory s.block.addr (s.block.addr + s.block.span))
      ((w.memory.relisted x h).setPrev h none) (w.memory.rejoined s.block x h) :=
    (Memory.changesOnly_setForward.mono fun v hv => .inl (by omega)).trans
      (Memory.changesOnly_setBackward.mono fun v hv => .inr hv)
  have hothers : ∀ d ∈ s.context.others, d.Marked (w.memory.rejoined s.block x h) := by
    intro d hd
    obtain ⟨t, ht, hdt⟩ := mem_blocksOf.mp (Context.mem_blocksOf_fill.mpr (.inr hd))
    exact hp.others_marked hd ((hmarked t ht).blocks d hdt) hends
  obtain ⟨bs, hbs⟩ := hpasses.regions _ hw.mem_regions
  have hle := hp.forward_le hothers hbs.threaded
  have hforward : (w.memory.rejoined s.block x h).forward s.block.addr =
      s.block.span + w.memory.forward x :=
    (Memory.changesOnly_setBackward.forward (by omega)).trans (Memory.forward_setForward hlt)
  have hend := ht.forward
  have hroom := ht.room
  omega

/-- Whether the block is the first of its region stays as it is. -/
theorem isSentinel_rejoined (hw : w.Loose s) (hh : h ∈ s.free) :
    (w.memory.rejoined s.block x h).isSentinel s.block.addr =
      (w.memory.relisted x h).isSentinel s.block.addr := by
  obtain ⟨-, -, -, -, hroom⟩ := hw.has.block_sound s.mem_blocks
  have happart := hw.apart_of_mem hh
  unfold Memory.isSentinel
  rw [Memory.changesOnly_rejoined.backward (by omega)]

/-- The terminators stay as they are. -/
theorem forward_terminator_rejoined (hw : w.Loose s) (hh : h ∈ s.free)
    (ht : s.block.Tail w.memory x) {t : Tract} (htr : t ∈ s.shape.tracts) :
    (w.memory.rejoined s.block x h).forward t.region.terminator = 0 := by
  have hp := hw.has.sound.laid.placed_single
  have hroom := hp.bounds.2.1
  obtain ⟨d, hd, rfl, -⟩ := hw.has.sound.listed h hh
  have hplace := hp.ends_not_territory htr (.inr (.inl rfl))
  refine (Memory.changesOnly_rejoined.forward ?_).trans
    (hw.marked_relisted hh (.inr ht) t htr).lastForward
  rintro (hv | hv | hv)
  · exact (hw.has.sound.laid.linkWord_ne_ends hd (.inr hv) htr).2.1 rfl
  · exact hplace (.inl (by omega))
  · exact hplace (.inr hv)

/-- The links of the block still lead to entries of the free list, or nowhere. -/
theorem mem_of_link_rejoined (hw : w.Loose s) (hh : h ∈ s.free) (ht : s.block.Tail w.memory x)
    {y : Nat} (hy : (w.memory.rejoined s.block x h).link (s.block.addr + 32) = some y ∨
      (w.memory.rejoined s.block x h).link (s.block.addr + 40) = some y) : y ∈ s.free := by
  have hlinked : Linked w.memory none s.free none := hw.has.inMemory.linked
  have hstart := ht.start
  have hroom := ht.room
  have happart := hw.apart_of_mem hh
  rcases hy with hnext | hprev
  · rw [Memory.changesOnly_rejoined.link (by omega), Memory.changesOnly_relisted.link (by omega)]
      at hnext
    exact (hlinked.prev_of_next hw.listed hnext).1
  · by_cases hself : h = s.block.addr
    · have hnone : (w.memory.rejoined s.block x h).link (s.block.addr + 40) = none := by
        unfold Memory.rejoined
        rw [Memory.changesOnly_setBackward.link (by omega),
          Memory.changesOnly_setForward.link (by omega), hself]
        exact Memory.link_setPrev (l := none) nofun
      nomatch hnone.symm.trans hprev
    · rw [Memory.changesOnly_rejoined.link (by omega), Memory.changesOnly_relisted.link (by omega)]
        at hprev
      exact (hlinked.next_of_prev hw.listed hprev).1

end World.Loose

/-- In the world `v` a block of the site was put on the list again, and joined to `b`, the block of
the site, if that is another. What becomes of the region is still open. -/
structure World.Relists (w : World σ) (s : Site) (b : Nat) (v : World σ) : Prop where
  source : v.heap.source = w.heap.source
  regions : v.heap.regions = w.heap.regions
  /-- If the block is the first of a region, this is one of the heap's. -/
  first : v.memory.isSentinel b = true → ∃ r ∈ v.heap.regions, r.base = b
  last : ∀ t ∈ s.shape.tracts, v.memory.forward t.region.terminator = 0
  /-- The links of the block lead to blocks that were listed before, or nowhere. -/
  links : ∀ y, v.memory.link (b + 32) = some y ∨ v.memory.link (b + 40) = some y → y ∈ s.free
  broken : ¬ Check.Passes v.memory v.heap.regions v.heap.free.head

namespace World.Loose

variable {v : World σ}

/-- A block that is first on the list is linked to itself. -/
theorem relists_self (hw : w.Loose s)
    (hmemory : v.memory = w.memory.relisted s.block.addr s.block.addr)
    (hheap : v.heap = { w.heap with free := ⟨some s.block.addr⟩ }) :
    w.Relists s s.block.addr v := by
  have hlisted := hw.listed
  have hword := (hw.has.sound.listable hw.has.inMemory).word _ hlisted
  have hm := hw.marked_relisted hlisted (.inl rfl)
  have hprev := Memory.link_relisted_self (m := w.memory) hword
  have hnext : (w.memory.relisted s.block.addr s.block.addr).link (s.block.addr + 32) =
      some s.block.addr := by
    refine (Memory.changesOnly_setPrev.link (by omega)).trans (Memory.link_setNext ?_)
    rintro _ ⟨⟩
    exact hword
  refine ⟨by rw [hheap], by rw [hheap], fun hsentinel => ?_, fun t ht => ?_, ?_, fun hpasses => ?_⟩
  · rw [hmemory, (hm _ Site.mem_tracts).isSentinel_eq hw.has.sound.laid.placed_single] at hsentinel
    rw [hheap]
    exact hw.exists_region (List.isEmpty_iff.mp hsentinel)
  · rw [hmemory]
    exact (hm t ht).lastForward
  · rw [hmemory, hnext, hprev]
    rintro _ (⟨⟨⟩⟩ | ⟨⟨⟩⟩) <;> exact hlisted
  · rw [hmemory, hheap] at hpasses
    nomatch hpasses.link_head.symm.trans hprev

/-- A block that was taken in is taken in again. -/
theorem relists_rejoined (hw : w.Loose s) (hh : h ∈ s.free) (ht : s.block.Tail w.memory x)
    (hlt : s.block.span + w.memory.forward x < Word.limit)
    (hmemory : v.memory = w.memory.rejoined s.block x h)
    (hheap : v.heap = { w.heap with free := ⟨some h⟩ }) : w.Relists s s.block.addr v := by
  have hm := hw.marked_relisted hh (.inr ht)
  refine ⟨by rw [hheap], by rw [hheap], fun hsentinel => ?_, fun t htr => ?_, fun y hy => ?_, ?_⟩
  · rw [hmemory, hw.isSentinel_rejoined hh,
      (hm _ Site.mem_tracts).isSentinel_eq hw.has.sound.laid.placed_single] at hsentinel
    rw [hheap]
    exact hw.exists_region (List.isEmpty_iff.mp hsentinel)
  · rw [hmemory]
    exact hw.forward_terminator_rejoined hh ht htr
  · rw [hmemory] at hy
    exact hw.mem_of_link_rejoined hh ht hy
  · rw [hmemory, hheap]
    exact hw.not_passes_rejoined hh ht hlt

end World.Loose

/-- Taking a block off the list, if that returns, writes links of the blocks to which its own
lead. -/
theorem FreeList.remove_eq_ok {l l' : FreeList} {m' : Memory} {b : Nat}
    (hrun : l.remove b m = .ok l' m') : Memory.ChangesOnly (fun a => ∃ y,
      (m.link (b + 32) = some y ∨ m.link (b + 40) = some y) ∧ (a = y + 32 ∨ a = y + 40)) m m' := by
  unfold remove at hrun
  rw [run_bind_ok (run_get m)] at hrun
  obtain ⟨⟨next, prev⟩, hlinks, hrun⟩ := ofExcept_bind_eq_ok_iff.mp hrun
  obtain ⟨_, -, hlinks⟩ := except_bind_eq_ok_iff.mp hlinks
  obtain ⟨rfl, rfl⟩ := Links.mk.inj (Except.ok.inj hlinks)
  have hedit {k : EStateM Fault Memory FreeList} {c : Nat} {f : Memory → Memory} {m₁ : Memory}
      (h : (do ofExcept ((← get).requireFree c); modify f; k : EStateM Fault Memory FreeList) m₁ =
        .ok l' m') : k (f m₁) = .ok l' m' := by
    rw [run_bind_ok (run_get m₁)] at h
    obtain ⟨_, -, h⟩ := ofExcept_bind_eq_ok_iff.mp h
    rwa [run_bind_ok (run_modify _ m₁)] at h
  cases hprev : m.link (b + 40) with
  | none =>
    cases hnext : m.link (b + 32) with
    | none =>
      rw [hprev, hnext] at hrun
      cases hrun
      exact .refl _ _
    | some n =>
      rw [hprev, hnext] at hrun
      cases hedit hrun
      exact Memory.changesOnly_setPrev.mono fun _ ha => ⟨n, .inl rfl, .inr ha⟩
  | some q =>
    cases hnext : m.link (b + 32) with
    | none =>
      rw [hprev, hnext] at hrun
      cases hedit hrun
      exact Memory.changesOnly_setNext.mono fun _ ha => ⟨q, .inr rfl, .inl ha⟩
    | some n =>
      rw [hprev, hnext] at hrun
      cases hedit (hedit hrun)
      exact (Memory.changesOnly_setNext.mono fun _ ha => ⟨q, .inr rfl, .inl ha⟩).trans
        (Memory.changesOnly_setPrev.mono fun _ ha => ⟨n, .inl rfl, .inr ha⟩)

namespace HeapM

variable {b : Nat}

theorem world_of_shouldReclaim {go : Bool} (hrun : shouldReclaim b w = .ok go w') : w' = w := by
  unfold shouldReclaim at hrun
  rw [heap_bind] at hrun
  dsimp only at hrun
  cases hpolicy : w.heap.config.reclaim with
  | always | never =>
    rw [hpolicy] at hrun
    cases hrun
    rfl
  | keepLastFree =>
    rw [hpolicy] at hrun
    dsimp only at hrun
    split at hrun
    · cases hrun
      rfl
    · obtain ⟨links, w₁, hinspect, hreturn⟩ := bind_eq_ok_iff.mp hrun
      cases hreturn
      exact (ofExcept_eq_ok_iff.mp hinspect).2

/-- Joining a block that was taken in to the block before it again, unless the sum of both spans is
no word. -/
theorem mergePrevious_again (hw : w.Loose s) (hh : h ∈ s.free) (ht : s.block.Tail w.memory x)
    (hal : x % 16 = 0) {v : World σ} (hmemory : v.memory = w.memory.relisted x h)
    (hheap : v.heap = { w.heap with free := ⟨some x⟩ }) :
    mergePrevious x v = .error .addOverflow v ∨
      s.block.span + w.memory.forward x < Word.limit ∧
        ∃ v', mergePrevious x v = .ok s.block.addr v' ∧
          v'.memory = w.memory.rejoined s.block x h ∧
          v'.heap = { w.heap with free := ⟨some h⟩ } := by
  have hp := hw.has.sound.laid.placed_single
  have hmarked := hw.marked_relisted hh (.inr ht)
  obtain ⟨t, htr, hbt⟩ := mem_blocksOf.mp s.mem_blocks
  have hbm := (hmarked t htr).blocks _ hbt
  -- the header still leads where it did
  have hnext := hw.next_relisted (.inr ⟨ht, hw.apart_of_tail ht hh⟩)
  obtain ⟨hforward, hsentinel, hprevious⟩ := hw.header_relisted hh ht
  have hedit : editFree (·.remove x) v = .ok () { v with
      memory := (w.memory.relisted x h).setPrev h none
      heap := { v.heap with free := ⟨some h⟩ } } :=
    run_editFree_ok (by rw [hheap, hmemory, hw.remove_relisted hh ht hal])
  unfold mergePrevious merge
  rw [memory_bind, hmemory, hsentinel, if_neg Bool.false_ne_true, hprevious,
    requireAligned_bind hp.start_aligned, hbm.isAllocated_eq, hw.free, if_neg (by decide)]
  by_cases hlt : s.block.span + w.memory.forward x < Word.limit
  · have hadd : Word.add s.block.span (w.memory.forward x) =
        .ok (s.block.span + w.memory.forward x) := Word.add_eq_ok_iff.mpr ⟨hlt, rfl⟩
    refine .inr ⟨hlt, ?_⟩
    rw [run_bind, memory_bind, hmemory, hbm.forward, hforward, hnext, hadd,
      run_bind_ok (run_ofExcept_ok _ v), run_bind_ok hedit, store_bind,
      requireAligned_bind hp.stop_aligned, store_bind, run_emit]
    exact ⟨_, rfl, rfl, by rw [hheap]⟩
  · have hadd : Word.add s.block.span (w.memory.forward x) = .error .addOverflow := if_neg hlt
    refine .inl (run_bind_error ?_)
    rw [memory_bind, hmemory, hbm.forward, hforward, hadd]
    exact run_bind_error (run_ofExcept_error _ v)

variable [Source σ]

/-- What a return from the last part of a release says: nothing happened, or the region went back to
the source. No terminator of the regions that are left leads on. -/
theorem reclaim_eq_ok {v : World σ} (hw : w.Loose s) (hv : w.Relists s b v)
    (hrun : reclaim b v = .ok () w') :
    (w' = v ∨ ∃ r : Region, w'.heap.source = Source.unmap w.heap.source r.base r.size) ∧
      ∀ r ∈ w'.heap.regions, r ∈ w.heap.regions ∧ w'.memory.forward r.terminator = 0 := by
  have hlast : ∀ r ∈ w.heap.regions, ∃ t ∈ s.shape.tracts, t.region = r := fun r hr => by
    rw [hw.has.regions] at hr
    exact List.mem_map.mp hr
  have hsame : ∀ r ∈ v.heap.regions, r ∈ w.heap.regions ∧ v.memory.forward r.terminator = 0 := by
    intro r hr
    rw [hv.regions] at hr
    obtain ⟨t, ht, rfl⟩ := hlast r hr
    exact ⟨hr, hv.last t ht⟩
  unfold reclaim at hrun
  rw [memory_bind] at hrun
  split at hrun
  swap
  · cases hrun
    exact ⟨.inl rfl, hsame⟩
  rename_i hsentinel
  obtain ⟨_, -, hrun⟩ := ofExcept_bind_eq_ok_iff.mp hrun
  split at hrun
  swap
  · cases hrun
    exact ⟨.inl rfl, hsame⟩
  obtain ⟨go, w₁, hshould, hgo⟩ := bind_eq_ok_iff.mp hrun
  obtain rfl := world_of_shouldReclaim hshould
  split at hgo
  swap
  · cases hgo
    exact ⟨.inl rfl, hsame⟩
  obtain ⟨_, w₂, hremove, hrelease⟩ := bind_eq_ok_iff.mp hgo
  obtain ⟨l, m₂, hedit, rfl⟩ := editFree_eq_ok hremove
  obtain ⟨hmemory, hcases⟩ := releaseRegion_eq_ok hrelease
  obtain ⟨r, hr, hbase⟩ := hv.first hsentinel
  rcases hcases with ⟨hnone, -⟩ | ⟨r', -, heq⟩
  · exact absurd (decide_eq_true hbase) (List.find?_eq_none.mp hnone r hr)
  · refine ⟨.inr ⟨r', by rw [heq, ← hv.source]⟩, fun q hq => ?_⟩
    rw [heq] at hq
    obtain ⟨hqr, hq0⟩ := hsame q (mem_of_mem_swapRemove hq)
    refine ⟨hqr, ?_⟩
    rw [hmemory]
    refine ((FreeList.remove_eq_ok hedit).forward ?_).trans hq0
    rintro ⟨y, hy, hword⟩
    obtain ⟨d, hd, rfl, -⟩ := hw.has.sound.listed y (hv.links y hy)
    obtain ⟨t, ht, rfl⟩ := hlast q hqr
    exact (hw.has.sound.laid.linkWord_ne_ends hd hword ht).2.1 rfl

/-- Up to the question what becomes of the region, a second release leaves words that are not in
order. It stops before at most if the joined block is too long for a word. -/
theorem relist_again (hw : w.Loose s) (hleft : ∀ y ∈ s.context.left.getLast?, y.tag = .allocated)
    (hright : ∀ y ∈ s.context.right.head?, y.tag = .allocated) (ht : w.TookBack s x)
    (hal : x % 16 = 0) :
    (∃ v, release (payloadOf x) w = .error .addOverflow v) ∨
      ∃ v, release (payloadOf x) w =
          (do reclaim s.block.addr; checkAfter .release : HeapM σ Unit) v ∧
        w.Relists s s.block.addr v := by
  have hp := hw.has.sound.laid.placed_single
  obtain ⟨h, hh, hhead, hx⟩ := hw.head_cases ht
  have hfree : w.heap.free = ⟨some h⟩ := hw.has.free.trans (congrArg _ hhead)
  have hhal := (hw.has.sound.listable hw.has.inMemory).aligned h hh
  have hm := hw.marked_relisted hh (hx.imp (·.1) (·.1)) _ Site.mem_tracts
  let v : World σ := { w with
    memory := w.memory.relisted x h
    log := w.log ++ [.released (payloadOf x)]
    heap := { w.heap with free := ⟨some x⟩ } }
  have hpush : editFree (·.pushFront x) { w with
      memory := w.memory.markFree x, log := w.log ++ [.released (payloadOf x)] } = .ok () v := by
    refine run_editFree_ok ?_
    rw [hfree]
    exact FreeList.pushFront_again hal hhal (hw.tag_of_mem hh) (hx.imp (·.2) (·.2))
  have hend := hw.next_relisted hx
  have hnext : mergeNext x v = .ok () v := by
    refine mergeNext_of_allocated ?_ ?_ <;> rw [hend]
    · exact hp.stop_aligned
    · exact hm.next_allocated hp hright
  have hrelease : release (payloadOf x) w = (do
      let b ← mergePrevious x
      reclaim b
      checkAfter .release : HeapM σ Unit) v := by
    unfold release
    rw [emit_bind, blockOf_payloadOf, requireAligned_bind hal, store_bind, run_bind_ok hpush,
      run_bind_ok hnext]
  rcases hx with ⟨rfl, rfl⟩ | ⟨htail, -⟩
  · have hself : mergePrevious s.block.addr v = .ok s.block.addr v :=
      mergePrevious_of_allocated (hm.previous_allocated hp hleft)
    exact .inr ⟨v, hrelease.trans (run_bind_ok hself), hw.relists_self rfl rfl⟩
  · rcases mergePrevious_again (v := v) hw hh htail hal rfl rfl with
      hfault | ⟨hlt, v', hprevious, hmemory, hheap⟩
    · exact .inl ⟨v, hrelease.trans (run_bind_error hfault)⟩
    · exact .inr ⟨v', hrelease.trans (run_bind_ok hprevious),
        hw.relists_rejoined hh htail hlt hmemory hheap⟩

/-- A block that is released again, right after it was released, is no block to the heap any more:
a fault that is no endless walk stops the release, or a region goes back to the source, or the words
are not in order. -/
theorem release_again (hw : w.Loose s) (hleft : ∀ y ∈ s.context.left.getLast?, y.tag = .allocated)
    (hright : ∀ y ∈ s.context.right.head?, y.tag = .allocated) (ht : w.TookBack s x)
    (hal : x % 16 = 0) :
    (∃ fault w', release (payloadOf x) w = .error fault w' ∧ fault ≠ .endlessWalk) ∨
      ∃ w', release (payloadOf x) w = .ok () w' ∧
        ((∃ r : Region, w'.heap.source = Source.unmap w.heap.source r.base r.size) ∨
          (w'.heap.regions = w.heap.regions ∧
            ¬ Check.Passes w'.memory w.heap.regions w'.heap.free.head)) := by
  rcases relist_again hw hleft hright ht hal with ⟨v, hfault⟩ | ⟨v, hrelease, hv⟩
  · exact .inl ⟨_, v, hfault, nofun⟩
  rw [hrelease]
  cases hreclaim : reclaim s.block.addr v with
  | error fault v' =>
    refine .inl ⟨fault, v', run_bind_error hreclaim, ?_⟩
    rintro rfl
    exact halts_reclaim v v' hreclaim
  | ok _ v' =>
  rw [run_bind_ok hreclaim]
  obtain ⟨hcases, hlast⟩ := reclaim_eq_ok hw hv hreclaim
  cases hafter : checkAfter .release v' with
  | error fault w' =>
    refine .inl ⟨fault, w', rfl, ?_⟩
    rintro rfl
    refine Check.check_ne_endlessWalk (fun r hr => ?_) _ (check_of_checkAfter_eq_error hafter)
    obtain ⟨hr, hlast⟩ := hlast r hr
    rw [hw.has.regions] at hr
    obtain ⟨t, ht, rfl⟩ := List.mem_map.mp hr
    have hsound := hw.has.sound.laid.sound t ht
    exact ⟨hsound.room, hsound.bounded, hlast⟩
  | ok _ w' =>
    obtain ⟨hmemory, hheap⟩ := checkAfter_eq_ok hafter
    refine .inr ⟨w', rfl, ?_⟩
    rw [hmemory, hheap]
    rcases hcases with rfl | hunmap
    · exact .inr ⟨hv.regions, hv.regions ▸ hv.broken⟩
    · exact .inl hunmap

/-- After a block was released it is in a free block of the heap, or its region is gone. -/
theorem release_tookBack {A : Shape} (H : w.Has A) (hs : A.Settled) (hc : A.Uses c) :
    ∃ w' A', release (payloadOf c.addr) w = .ok () w' ∧ w'.Has A' ∧ A'.Settled ∧
      ((∃ s, A' = s.shape ∧ w'.Loose s ∧ w'.TookBack s c.addr ∧
        (∀ y ∈ s.context.left.getLast?, y.tag = .allocated) ∧
        ∀ y ∈ s.context.right.head?, y.tag = .allocated) ∨
      ∀ r ∈ A'.regions, ¬(r.base ≤ payloadOf c.addr ∧ payloadOf c.addr < r.base + r.size)) := by
  obtain ⟨ts, L⟩ := A
  obtain ⟨C, rfl⟩ := Context.exists_of_mem hc.1
  obtain ⟨w₁, hrelease, hloose, htook, -, -⟩ := release_eq H hs hc.2
  obtain ⟨hleft, hright⟩ := Site.joined_between (s := Site.freed C c L)
    (Shape.coalesced_fill_iff.mp hs.coalesced).1
  obtain ⟨w₂, A', hreclaim, H₂, hs₂, -, -, -, hregion⟩ := reclaim_run hloose hleft hright
  refine ⟨w₂, A', ?_, H₂, hs₂, ?_⟩
  · rw [hrelease, run_bind_ok hreclaim]
    exact checkAfter_run H₂ hs₂ .release
  · rcases hregion with ⟨rfl, rfl⟩ | hapart
    · exact .inl ⟨_, rfl, hloose, htook, hleft, hright⟩
    · refine .inr fun r hr hin => ?_
      have hout := hapart r hr
      rw [Site.joined_context] at hout
      obtain ⟨hlo, hroom, hhi, hadd, -⟩ := hs.laid.placed_single.bounds
      have hlo' : C.region.base ≤ c.addr := hlo
      have hout' : C.region.Apart r := hout
      unfold Region.Apart at hout'
      unfold payloadOf headerSize at hin
      omega

end HeapM

namespace Session

variable [Source σ] {After : σ → List Call → Prop} {acts : List Act}

/-- After any run, and whatever the live blocks contain, releasing a live block returns. If its
region is still mapped then and the block is released again at once, this faults, but not for a walk
without an end, or gives a region back, or leaves a heap in which no check that returns finds
nothing. -/
theorem release_twice (hc : Source.Contract After) {config : Config} {source : σ}
    {memory : Memory} {s : Session (Recorder σ)} (hs : After source [])
    (hrun : (start config { inner := source } memory).Run acts s)
    (hm : Memory.ChangesOnly s.InPayload s.world.memory m) {g : Grant} (hg : g ∈ s.live) :
    ∃ w, HeapM.release g.payload { s.world with memory := m } = .ok () w ∧
      ∀ r ∈ Call.live w.heap.source.calls, r.base ≤ g.payload → g.payload < r.base + r.size →
        (∃ fault w', HeapM.release g.payload w = .error fault w' ∧ fault ≠ .endlessWalk) ∨
        ∃ w', HeapM.release g.payload w = .ok () w' ∧
          ((∃ r', w'.heap.source.calls = .unmapped r' :: w.heap.source.calls) ∨
            ∀ w'', HeapM.check w' ≠ .ok [] w'') := by
  have hc' := Recorder.contract hc
  obtain ⟨A, h⟩ := (inOrder_start ⟨rfl, hs⟩).run hc' hrun
  have h' := h.of_payloads hm
  obtain ⟨b, hb, hnames⟩ := h'.grants.names g hg
  obtain ⟨cs, hbooked⟩ := h'.booked
  obtain ⟨w, A', hfirst, H, hsettled, htook⟩ := HeapM.release_tookBack h'.has h'.settled hb
  rw [hnames.payload]
  refine ⟨w, hfirst, fun r hr hlo hhi => ?_⟩
  have hregions : w.heap.regions = A'.regions := H.regions
  obtain ⟨cs', hbooked'⟩ := HeapM.release_booked hc'.toDisjoint hbooked hfirst
  rw [hbooked'.tracked.after.1] at hr
  have hmem : r ∈ A'.regions := hregions ▸ hbooked'.tracked.live.mem_iff.mp hr
  rcases htook with ⟨t, rfl, hloose, htook, hleft, hright⟩ | hgone
  · rcases HeapM.release_again hloose hleft hright htook (h'.has.block_sound hb.1).2.2.1 with
      hfault | ⟨w', hsecond, ⟨r', hunmap⟩ | ⟨hsame, hnot⟩⟩
    · exact .inl hfault
    · exact .inr ⟨w', hsecond, .inl ⟨r', congrArg Recorder.calls hunmap⟩⟩
    · refine .inr ⟨w', hsecond, .inr fun w'' hcheck => hnot (Check.passes_of_check ?_ ?_)⟩
      · rw [hregions]
        exact hsettled.bounded
      · rw [← hsame]
        exact (HeapM.check_eq_ok_iff.mp hcheck).1
  · exact absurd ⟨hlo, hhi⟩ (hgone r hmem)

/-- The second of three neighbours is taken in by the first, and released again. The first reaches
over the third then, which is live. -/
theorem release_twice_of_taken_in :
    ∃ (s : Session (Recorder Arena)) (w w' : World (Recorder Arena)),
    (start {} { inner := { base := 0x10000 } } ∅).Run
      [.allocate 100, .allocate 100, .allocate 100, .release 0x10020] s ∧
      HeapM.release 0x100b0 s.world = .ok () w ∧ HeapM.release 0x100b0 w = .ok () w' ∧
      w'.heap.source.calls = w.heap.source.calls ∧ w'.memory.forward 0x10000 = 0x1b0 ∧
      ∀ w'', HeapM.check w' ≠ .ok [] w'' := by
  have hserves : Arena.Serves { base := 0x10000 } [] :=
    Arena.serves_new ⟨12, by decide, by decide, rfl⟩ rfl (by decide) (by decide) rfl rfl
  have heval : ∃ (s : Session (Recorder Arena)) (w w' : World (Recorder Arena)),
      (start {} { inner := { base := 0x10000 } } ∅).Run
        [.allocate 100, .allocate 100, .allocate 100, .release 0x10020] s ∧
      s.live = [⟨0x10140, 100⟩, ⟨0x100b0, 100⟩] ∧
      HeapM.release 0x100b0 s.world = .ok () w ∧
      Call.live w.heap.source.calls = [⟨0x10000, 0x1000⟩] ∧
      HeapM.release 0x100b0 w = .ok () w' ∧
      w'.heap.source.calls = w.heap.source.calls ∧ w'.memory.forward 0x10000 = 0x1b0 :=
    ⟨_, _, _, .cons (.intro trivial rfl) (.cons (.intro trivial rfl) (.cons (.intro trivial rfl)
      (.cons (.intro (by exact ⟨⟨0x10020, 100⟩, .tail _ (.tail _ (.head _)), rfl⟩) rfl)
        (.nil _)))), rfl, rfl, rfl, rfl, rfl, by decide +kernel⟩
  obtain ⟨s, w, w', hrun, hlive, hfirst, hmapped, hsecond, hcalls, hforward⟩ := heval
  refine ⟨s, w, w', hrun, hfirst, hsecond, hcalls, hforward, ?_⟩
  obtain ⟨w₁, hfirst', htrace⟩ := release_twice Arena.contract hserves hrun (.refl _ _)
    (g := ⟨0x100b0, 100⟩) (hlive ▸ .tail _ (.head _))
  obtain ⟨-, rfl⟩ := EStateM.Result.ok.inj (hfirst'.symm.trans hfirst)
  rcases htrace ⟨0x10000, 0x1000⟩ (by rw [hmapped]; exact .head _) (by decide) (by decide) with
    ⟨fault, w₂, hfault, -⟩ | ⟨w₂, hsecond', htrace⟩
  · nomatch hfault.symm.trans hsecond
  · obtain ⟨-, rfl⟩ := EStateM.Result.ok.inj (hsecond'.symm.trans hsecond)
    rcases htrace with ⟨r, hunmapped⟩ | hcheck
    · exact absurd (hcalls.symm.trans hunmapped).symm (List.cons_ne_self _ _)
    · exact hcheck

end Session

end BoundaryTag
