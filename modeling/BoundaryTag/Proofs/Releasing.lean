import BoundaryTag.Proofs.Checking
import BoundaryTag.Proofs.Merging
import BoundaryTag.Proofs.Regions

/-!
# Releasing a block

Releasing a block in use of a heap in order always returns, leaves a heap in order with one block
less in use, and changes no word of the payloads that stay in use (`release_run`).
-/

namespace BoundaryTag

variable {m m' m'' : Memory} {C : Context} {ts ts' : List Tract} {t : Tract} {L L' : List Nat}
  {b c d : Block} {A A' : Shape}

/-- The payload of `d` holds the same words. -/
def Memory.SamePayload (m m' : Memory) (d : Block) : Prop :=
  ∀ a, d.addr + 32 ≤ a → a < d.addr + d.span → m'.read a = m.read a

theorem Memory.SamePayload.trans (h : m.SamePayload m' d) (h' : m'.SamePayload m'' d) :
    m.SamePayload m'' d := fun a hlo hhi => (h' a hlo hhi).trans (h a hlo hhi)

/-- What changes in reserved words only leaves the payloads in use as they are. -/
theorem Shape.Uses.samePayload (hd : A.Uses d) (hc : Memory.ChangesOnly A.Reserved m m') :
    m.SamePayload m' d := fun a hlo hhi => hc a fun hres => hres.2 d hd.1 hd.2 ⟨hlo, hhi⟩

theorem Laid.addr_ne_of_cons (h : Laid (t :: ts)) (hb : b ∈ t.blocks) (hc : c ∈ blocksOf ts) :
    b.addr ≠ c.addr := by
  obtain ⟨u, hu, hcu⟩ := mem_blocksOf.mp hc
  have hts := h.sound t List.mem_cons_self
  have hus := h.sound u (List.mem_cons_of_mem t hu)
  have hapart : t.Apart u := (List.pairwise_cons.mp h.apart).1 u hu
  have htw := hts.within hb
  have huw := hus.within hcu
  have htadd := hts.terminator_add
  have huadd := hus.terminator_add
  rw [Tract.apart_iff] at hapart
  have := htw.lo
  have := htw.hi
  have := htw.room
  have := huw.lo
  have := huw.hi
  have := huw.room
  omega

theorem blocksOf_perm (h : ts.Perm ts') : b ∈ blocksOf ts ↔ b ∈ blocksOf ts' := by
  simp only [mem_blocksOf, h.mem_iff]

namespace Shape

/-- What is left of a settled heap without the region of the free block `d`. -/
theorem Settled.less (hs : Settled ⟨ts, L⟩) (hp : (t :: ts').Perm ts) (hblocks : t.blocks = [d])
    (hs' : Sound ⟨ts', L.erase d.addr⟩) : Settled ⟨ts', L.erase d.addr⟩ where
  toSound := hs'
  complete b hb hfree := by
    have hd : d ∈ t.blocks := hblocks ▸ List.mem_singleton.mpr rfl
    have hne := (hs.laid.of_perm hp.symm).addr_ne_of_cons hd hb
    have hb' : b ∈ blocksOf (t :: ts') := by
      obtain ⟨u, hu, hbu⟩ := mem_blocksOf.mp hb
      exact mem_blocksOf.mpr ⟨u, List.mem_cons_of_mem t hu, hbu⟩
    exact (List.mem_erase_of_ne (Ne.symm hne)).mpr
      (hs.complete b ((blocksOf_perm hp).mp hb') hfree)
  coalesced u hu := hs.coalesced u (hp.mem_iff.mp (List.mem_cons_of_mem t hu))

/-- The regions that are left do not overlap the one that is gone. -/
theorem Sound.apart_of_perm (hs : A.Sound) {q r : Region} (hp : (r :: A'.regions).Perm A.regions)
    (hq : q ∈ A'.regions) : r.Apart q := by
  have hpairs : A.regions.Pairwise Region.Apart := List.pairwise_map.mpr hs.laid.apart
  exact (List.pairwise_cons.mp (hpairs.perm hp.symm Or.symm)).1 q hq

theorem uses_less_iff (hp : (t :: ts').Perm ts) (hblocks : t.blocks = [d]) (hfree : d.tag = .free) :
    Uses ⟨ts', L'⟩ b ↔ Uses ⟨ts, L⟩ b := by
  show b ∈ blocksOf ts' ∧ _ ↔ b ∈ blocksOf ts ∧ _
  rw [← blocksOf_perm hp]
  show b ∈ blocksOf ts' ∧ _ ↔ b ∈ t.blocks ++ blocksOf ts' ∧ _
  rw [hblocks]
  constructor
  · exact fun ⟨hb, htag⟩ => ⟨List.mem_append_right _ hb, htag⟩
  · rintro ⟨hb, htag⟩
    rcases List.mem_append.mp hb with hb | hb
    · rw [List.mem_singleton.mp hb, hfree] at htag
      nomatch htag
    · exact ⟨hb, htag⟩

end Shape

variable {σ : Type} {w : World σ} {s : Site}

theorem World.Loose.listed (h : w.Loose s) : s.block.addr ∈ s.free :=
  (Shape.complete_fill_iff.mp h.complete).1 s.block List.mem_cons_self h.free

/-- A free block between allocated blocks, or at the ends of its region, leaves nothing to join. -/
theorem World.Loose.settled (h : w.Loose s)
    (hleft : ∀ x ∈ s.context.left.getLast?, x.tag = .allocated)
    (hright : ∀ y ∈ s.context.right.head?, y.tag = .allocated) : s.shape.Settled where
  toSound := h.has.sound
  complete := h.complete
  coalesced := by
    exact Shape.coalesced_fill_iff.mpr ⟨h.around, fun x hx => .of_left (hleft x hx),
      fun y hy => .of_right (hright y hy)⟩

/-! ### What a release does -/

/-- Whether the policy lets a region go that is one free block, where the free list has this many
entries. -/
def ReclaimPolicy.letsGo : ReclaimPolicy → Nat → Bool
  | .always, _ => true
  | .never, _ => false
  | .keepLastFree, entries => 1 < entries

namespace Site

/-- The block is all of its region. -/
def isSole (s : Site) : Bool := s.context.left.isEmpty && s.context.right.isEmpty

/-- The block in `C` once it is free and listed. -/
def freed (C : Context) (b : Block) (L : List Nat) : Site :=
  ⟨C, { b with tag := .free }, b.addr :: L⟩

theorem regions_freed (C : Context) (b : Block) (L : List Nat) :
    (freed C b L).shape.regions = (C.fill [b]).map Tract.region :=
  Context.map_region_fill _ _

/-- Joined with the block after it, a freed block still is the first on the free list. -/
theorem head_joinNext_freed (hs : (freed C b L).shape.Sound) :
    (freed C b L).joinNext.free.head? = some b.addr := by
  rcases (freed C b L).next_cases with h | ⟨y, ys, hright, hy⟩
  · rw [joinNext_eq_self h]
    rfl
  · have hp := hs.laid.placed_single
    have hroom := hp.bounds.2.1
    have hright' : C.right = y :: ys := hright
    have hne : y.addr ≠ b.addr := hp.addr_ne (x := (freed C b L).block.addr)
      (by simp [freed, Context.others, hright']) (Nat.le_refl _) (by omega)
    rw [joinNext_eq_join hright hy]
    show ((b.addr :: L).erase y.addr).head? = _
    rw [List.erase_cons_tail (by simpa using hne.symm)]
    rfl

end Site

/-- The block that was released at `x` is in the block of the site: it is the start of it, and the
first entry of the free list, or its header still stands in it. -/
def World.TookBack (w : World σ) (s : Site) (x : Nat) : Prop :=
  (s.block.addr = x ∧ s.free.head? = some x) ∨ s.block.Tail w.memory x

section
variable [Source σ]

/-- The region of a free block is given back if it has no other block and the policy lets it go. -/
def Outline.reclaim (o : Outline σ) (s : Site) : Outline σ :=
  if s.isSole && o.config.reclaim.letsGo s.free.length then
    { o with
      source := Source.unmap o.source s.context.region.base s.context.region.size
      shape := ⟨s.context.without [s.block], s.free.erase s.block.addr⟩
      unmaps := o.unmaps + 1 }
  else { o with shape := s.shape }

theorem Outline.reclaim_cases (o : Outline σ) (s : Site) :
    (s.isSole = true ∧ o.config.reclaim.letsGo s.free.length = true ∧ o.reclaim s = { o with
      source := Source.unmap o.source s.context.region.base s.context.region.size
      shape := ⟨s.context.without [s.block], s.free.erase s.block.addr⟩
      unmaps := o.unmaps + 1 }) ∨
    ((s.isSole = true → o.config.reclaim.letsGo s.free.length = false) ∧
      o.reclaim s = { o with shape := s.shape }) := by
  unfold reclaim
  split
  · rename_i hgone
    obtain ⟨hsole, hgo⟩ := Bool.and_eq_true_iff.mp hgone
    exact .inl ⟨hsole, hgo, rfl⟩
  · rename_i hstays
    refine .inr ⟨fun hsole => ?_, rfl⟩
    rw [hsole, Bool.true_and] at hstays
    exact Bool.eq_false_iff.mpr hstays

/-- What becomes of a heap that takes back the block with the given payload, if it has this
block. -/
def Outline.release (o : Outline σ) (payload : Nat) : Option (Outline σ) :=
  (Context.at? o.shape.tracts (blockOf payload)).map fun (C, b) =>
    o.reclaim (Site.freed C b o.shape.free).joined

theorem Outline.release_of_mem {o : Outline σ} (ho : o.shape = ⟨C.fill [b], L⟩)
    (hs : o.shape.Sound) :
    o.release (payloadOf b.addr) = some (o.reclaim (Site.freed C b L).joined) := by
  have hat : Context.at? o.shape.tracts b.addr = some (C, b) := by
    rw [ho] at hs ⊢
    exact hs.laid.at?_eq
  unfold release
  rw [blockOf_payloadOf, hat, ho]
  rfl

end

/-- From the shape `A` of `w` to the shape `A'` of `w'` the block `b` was taken out of use. -/
structure World.Releases [Source σ] (w : World σ) (A : Shape) (b : Block) (w' : World σ)
    (A' : Shape) : Prop where
  has : w'.Has A'
  settled : A'.Settled
  uses : ∀ c, A'.Uses c ↔ A.Uses c ∧ c ≠ b
  payloads : ∀ c, A'.Uses c → w.memory.SamePayload w'.memory c
  changes : Memory.ChangesOnly A.Spans w.memory w'.memory
  outline : (w.outline A).release (payloadOf b.addr) = some (w'.outline A')

namespace HeapM

/-- A block in use becomes a listed free block, and whatever free neighbours it has stay apart for
the moment. -/
theorem free_run (H : w.Has ⟨C.fill [b], L⟩) (hs : Shape.Settled ⟨C.fill [b], L⟩)
    (hb : b.tag = .allocated) :
    ∃ w', editFree (·.pushFront b.addr) { w with memory := w.memory.markFree b.addr } = .ok () w' ∧
      w'.Loose (.freed C b L) ∧ w.Edit (Site.freed C b L).shape.Reserved w' := by
  have hmem : b ∈ Shape.blocks ⟨C.fill [b], L⟩ := World.Has.mem_fill List.mem_cons_self
  have hL : b.addr ∉ L := by
    intro hin
    obtain ⟨c, hc, haddr, hfree⟩ := H.sound.listed _ hin
    rw [H.sound.laid.eq_of_addr hc hmem haddr, hb] at hfree
    nomatch hfree
  have hc := Memory.changesOnly_markFree (m := w.memory) (b := b.addr)
  have H₁ : World.Has { w with memory := w.memory.markFree b.addr }
      ⟨C.fill [{ b with tag := .free }], L⟩ :=
    H.retag hL Memory.tag_markFree (hc.mono fun a ha => by omega)
  obtain ⟨w', hrun, H₂, he⟩ := H₁.list (b := { b with tag := .free })
    (Context.mem_blocksOf_fill.mpr (.inl List.mem_cons_self)) rfl hL
  obtain ⟨haround, -, -⟩ := Shape.coalesced_fill_iff.mp hs.coalesced
  obtain ⟨-, hothers⟩ := Shape.complete_fill_iff.mp hs.complete
  have hp := H₂.sound.laid.placed_single
  obtain ⟨-, -, -, hwhole, hroom⟩ := H.block_sound hmem
  refine ⟨w', hrun, ⟨H₂, rfl, Shape.complete_fill_iff.mpr ⟨?_, ?_⟩, haround⟩,
    ⟨(hc.mono fun a ha => ?_).trans he.memory, he.heap⟩⟩
  · exact List.forall_mem_singleton.mpr fun _ => List.mem_cons_self
  · exact fun c hc htag => List.mem_cons_of_mem _ (hothers c hc htag)
  · refine Shape.reserved_of_territory hp (List.forall_mem_singleton.mpr rfl) (.inl ?_)
    dsimp only
    omega

/-- The policy goes by the length of the free list, although only its first entries are looked at:
the block is one of them, so that it is the only one if it is the first and has none after it. -/
theorem shouldReclaim_run (h : w.Loose s) :
    shouldReclaim s.block.addr w = .ok (w.heap.config.reclaim.letsGo s.free.length) w := by
  have hlinks := (h.has.sound.listable h.has.inMemory).links_run h.listed
  have hlinked := h.has.inMemory.linked
  have hlisted := h.listed
  have hhead := h.has.free
  unfold Site.shape at hlinked hhead
  dsimp only at hlinked hhead
  unfold shouldReclaim
  rw [heap_bind]
  dsimp only
  cases hpolicy : w.heap.config.reclaim with
  | always => rfl
  | never => rfl
  | keepLastFree =>
    dsimp only
    rw [hhead]
    cases hL : s.free with
    | nil =>
      rw [hL] at hlisted
      nomatch hlisted
    | cons x xs =>
      rw [hL] at hlisted hlinked
      by_cases hx : x = s.block.addr
      · rw [if_neg (by simp [hx]), run_bind_ok (run_inspect_ok hlinks), ← hx]
        dsimp only
        rw [hlinked.2.1, Option.or_none]
        cases xs <;> simp [ReclaimPolicy.letsGo]
      · have hlength : 1 < (x :: xs).length := by
          rcases List.mem_cons.mp hlisted with heq | hmem
          · exact absurd heq.symm hx
          · have := List.length_pos_of_mem hmem
            rw [List.length_cons]
            omega
        rw [if_pos (by simp [hx])]
        show _ = EStateM.Result.ok (decide (1 < (x :: xs).length)) w
        rw [decide_eq_true hlength]
        rfl

variable [Source σ]

/-- A block is given back only if it is the first one of its region and the last one. -/
theorem reclaim_eq {b : Nat} (hal : w.memory.next b % 16 = 0) : reclaim b w =
    (if w.memory.isSentinel b && w.memory.isTerminator (w.memory.next b) then do
      if ← shouldReclaim b then
        editFree (·.remove b)
        releaseRegion b
    else pure () : HeapM σ Unit) w := by
  unfold reclaim
  rw [memory_bind]
  dsimp only
  cases w.memory.isSentinel b with
  | false => rfl
  | true =>
    rw [if_pos rfl, requireAligned_bind hal, Bool.true_and]

theorem reclaim_run (h : w.Loose s) (hleft : ∀ x ∈ s.context.left.getLast?, x.tag = .allocated)
    (hright : ∀ y ∈ s.context.right.head?, y.tag = .allocated) :
    ∃ w' A', reclaim s.block.addr w = .ok () w' ∧ w'.Has A' ∧ A'.Settled ∧
      (∀ b, A'.Uses b ↔ s.shape.Uses b) ∧
      Memory.ChangesOnly s.shape.Reserved w.memory w'.memory ∧
      (w.outline s.shape).reclaim s = w'.outline A' ∧
      (w' = w ∧ A' = s.shape ∨ ∀ r ∈ A'.regions, s.context.region.Apart r) := by
  have hsettled := h.settled hleft hright
  have hp := h.has.sound.laid.placed_single
  have hm := h.has.inMemory.marked _ (Context.mem_fill.mpr (.inl rfl))
  have hmem := s.mem_blocks
  have hnext := (h.has.marked hmem).next_eq (h.has.block_sound hmem).2.1
  have hal : w.memory.next s.block.addr % 16 = 0 := hnext ▸ hp.stop_aligned
  unfold Outline.reclaim
  rw [reclaim_eq hal, hnext, hm.isSentinel_eq hp, hm.isTerminator_eq hp,
    show (s.context.left.isEmpty && s.context.right.isEmpty) = s.isSole from rfl,
    show (w.outline s.shape).config = w.heap.config from rfl]
  cases hsole : s.isSole with
  | false =>
    exact ⟨w, _, rfl, h.has, hsettled, fun _ => Iff.rfl, .refl _ _, rfl, .inl ⟨rfl, rfl⟩⟩
  | true =>
  rw [if_pos rfl, run_bind_ok (shouldReclaim_run h), Bool.true_and]
  cases hgo : w.heap.config.reclaim.letsGo s.free.length with
  | false =>
    exact ⟨w, _, rfl, h.has, hsettled, fun _ => Iff.rfl, .refl _ _, rfl, .inl ⟨rfl, rfl⟩⟩
  | true =>
    obtain ⟨hnil, hnil'⟩ : s.context.left = [] ∧ s.context.right = [] := by
      simpa [Site.isSole] using hsole
    obtain ⟨w₁, hunlist, H₁, he₁⟩ := h.has.unlist h.listed
    obtain ⟨w₂, hregion, H₂, hmem, hout⟩ := releaseRegion_run H₁ hnil hnil'
      h.has.sound.nodup.not_mem_erase
    have hperm := s.context.perm_without [s.block]
    have hblocks : s.context.left ++ [s.block] ++ s.context.right = [s.block] := by
      rw [hnil, hnil']
      rfl
    refine ⟨w₂, _, (run_bind_ok hunlist).trans hregion, H₂, hsettled.less hperm hblocks H₂.sound,
      fun _ => Shape.uses_less_iff hperm hblocks h.free, ?_, ?_, .inr ?_⟩
    · rw [hmem]
      exact (h.has.edit_reserved he₁).memory
    · rw [hout, he₁.outline s.shape, he₁.heap]
      rfl
    · have hregions : (s.context.region :: Shape.regions ⟨s.context.without [s.block],
          s.free.erase s.block.addr⟩).Perm s.shape.regions := hperm.map Tract.region
      exact fun r hr => hsettled.apart_of_perm hregions hr

/-- A release comes down to what becomes of the region of the joined block. -/
theorem release_eq (H : w.Has ⟨C.fill [b], L⟩) (hs : Shape.Settled ⟨C.fill [b], L⟩)
    (hb : b.tag = .allocated) :
    ∃ w', release (payloadOf b.addr) w = (do
        reclaim (Site.freed C b L).joined.block.addr
        checkAfter .release : HeapM σ Unit) w' ∧
      w'.Loose (Site.freed C b L).joined ∧ w'.TookBack (Site.freed C b L).joined b.addr ∧
      (Site.freed C b L).shape.Alike (Site.freed C b L).joined.shape ∧
      w.Edit (Site.freed C b L).shape.Reserved w' := by
  obtain ⟨w₁, hfree, hloose₁, he₁⟩ :=
    free_run (H.logged (w.log ++ [.released (payloadOf b.addr)])) hs hb
  obtain ⟨w₂, w₃, hnext, hprevious, hloose, htail, halike, he⟩ := coalesce_run hloose₁
  refine ⟨w₃, ?_, hloose, ?_, halike, he₁.memory.trans he.memory, (he₁.trans he).heap⟩
  · have hal : b.addr % 16 = 0 := H.sound.laid.placed_single.start_aligned
    unfold release
    rw [emit_bind, blockOf_payloadOf, requireAligned_bind hal, store_bind, run_bind_ok hfree]
    rw [show b.addr = (Site.freed C b L).block.addr from rfl, run_bind_ok hnext,
      run_bind_ok hprevious]
  · rcases htail with heq | htail
    · left
      rw [heq, Site.joinNext_addr]
      exact ⟨rfl, Site.head_joinNext_freed hloose₁.has.sound⟩
    · exact .inr htail

theorem release_run (H : w.Has A) (hs : A.Settled) (hb : A.Uses b) :
    ∃ w' A', release (payloadOf b.addr) w = .ok () w' ∧ w.Releases A b w' A' := by
  obtain ⟨ts, L⟩ := A
  obtain ⟨C, rfl⟩ := Context.exists_of_mem hb.1
  obtain ⟨w₃, hrelease, hloose, -, halike, he⟩ := release_eq H hs hb.2
  obtain ⟨hleft, hright⟩ := Site.joined_between (s := Site.freed C b L)
    (Shape.coalesced_fill_iff.mp hs.coalesced).1
  obtain ⟨w₄, A', hreclaim, H₄, hs₄, huses, hc₄, hout, -⟩ := reclaim_run hloose hleft hright
  have hchange := he.memory.trans (hc₄.mono fun _ => halike.reserved)
  have hothers : ∀ d, A'.Uses d ↔ d ∈ C.others ∧ d.tag = .allocated := fun d =>
    ((huses d).trans (halike.uses d)).trans
      (Shape.uses_fill_iff (List.forall_mem_singleton.mpr rfl))
  refine ⟨w₄, A', ?_, H₄, hs₄, fun d => ?_, fun d hd => ?_, hchange.mono fun a ha => ?_, ?_⟩
  · rw [hrelease, run_bind_ok hreclaim]
    exact checkAfter_run H₄ hs₄ .release
  · rw [hothers]
    show _ ↔ (d ∈ blocksOf (C.fill [b]) ∧ _) ∧ _
    rw [Context.mem_blocksOf_fill, List.mem_singleton]
    constructor
    · rintro ⟨hd, htag⟩
      refine ⟨⟨.inr hd, htag⟩, ?_⟩
      have hroom := H.sound.laid.placed_single.bounds.2.1
      have haddr := H.sound.laid.placed_single.addr_ne hd (Nat.le_refl _) (by omega)
      exact fun hdb => haddr (congrArg Block.addr hdb)
    · rintro ⟨⟨hd | hd, htag⟩, hne⟩
      · exact absurd hd hne
      · exact ⟨hd, htag⟩
  · exact (((halike.uses d).mp ((huses d).mp hd))).samePayload hchange
  · exact Shape.spans_fill [b] L ha.1
  · rw [Outline.release_of_mem rfl H.sound, ← hout, he.outline ⟨C.fill [b], L⟩]
    rfl

end HeapM

end BoundaryTag
