import BoundaryTag.Proofs.Arenas
import BoundaryTag.Proofs.Consistency
import BoundaryTag.Proofs.Payloads

/-!
# Damage that a check detects

The words that describe a heap say everything twice. The distance between two headers is in both of
them, the order of the free list is in the links onward and in the links back, and a tag says what
being on the free list says. So one damaged word contradicts another, whatever it says now, and a
check reports something (`Session.check_of_damage`).

A damaged forward offset may lead into a payload that looks like headers. But the false thread has to
meet a header of the region again, the last one if no other, and from there the backward offsets lead
back along the thread that was there (`Memory.Threaded.step_le`).
-/

namespace BoundaryTag

variable {σ : Type}

/-- The header is that of a block or the last one of a region. -/
def World.HasHeader (w : World σ) (x : Nat) : Prop :=
  w.HasBlock x ∨ ∃ r ∈ w.heap.regions, x = r.terminator

/-- One word that describes the blocks or the free list of the heap says something else. -/
inductive World.Damage (w : World σ) : Memory → FreeList → Prop
  | forward {x v : Nat} : w.HasBlock x → v < Word.limit → v ≠ w.memory.forward x →
    Damage w (w.memory.setForward x v) w.heap.free
  | backward {x v : Nat} : w.HasHeader x → v < Word.limit → v ≠ w.memory.backward x →
    Damage w (w.memory.setBackward x v) w.heap.free
  | tag {x : Nat} {t : Tag} : w.HasBlock x → t ≠ w.memory.tag x →
    Damage w (w.memory.setTag x t) w.heap.free
  /-- The link back may name anything. -/
  | prev {x : Nat} {l : Option Nat} : w.HasBlock x → w.memory.tag x = .free →
    (∀ y ∈ l, 0 < y ∧ y < Word.limit) → l ≠ w.memory.link (x + 40) →
    Damage w (w.memory.setPrev x l) w.heap.free
  /-- The link onward names no header or some other one. -/
  | next {x : Nat} {l : Option Nat} : w.HasBlock x → w.memory.tag x = .free →
    (∀ y ∈ l, w.HasHeader y) → l ≠ w.memory.link (x + 32) →
    Damage w (w.memory.setNext x l) w.heap.free
  | head {l : Option Nat} : (∀ y ∈ l, w.HasHeader y) → l ≠ w.heap.free.head →
    Damage w w.memory ⟨l⟩

variable {A : Shape} {C : Context} {b : Block} {m m' : Memory} {bs xs : List Nat} {a e x y : Nat}
  {head l : Option Nat}

/-! ### Threads around a block -/

namespace Placed

/-- A thread through the region comes to the place if the blocks before it are as they were. -/
theorem threaded_at (hp : Placed C [b] a e) (hleft : ∀ d ∈ C.left, d.Marked m)
    (h : m.Threaded C.region.terminator C.region.base bs) :
    a ∈ bs ∧ 32 ≤ m.forward a ∧ m.backward (a + m.forward a) = m.forward a ∧
      ∃ ds, m.Threaded C.region.terminator (a + m.forward a) ds := by
  obtain ⟨-, hroom, hend, -⟩ := hp.bounds
  obtain ⟨ds, rfl, hds⟩ :=
    (Memory.Threaded.of_tiles hp.left hleft).common_front h (by omega)
  cases ds with
  | nil =>
    have hnil : a = C.region.terminator := hds
    omega
  | cons d ds =>
    obtain ⟨rfl, -, hheader, hback, htail⟩ := hds
    exact ⟨by simp, hheader, hback, ds, htail⟩

/-- A forward offset that leads a thread into the blocks after it leads no further than to the first
of them. -/
theorem forward_le (hp : Placed C [b] a e) (hothers : ∀ d ∈ C.others, d.Marked m)
    (h : m.Threaded C.region.terminator C.region.base bs) : m.forward a ≤ b.span := by
  obtain ⟨rfl, -, hroom, rfl⟩ := Tiles.single_iff.mp hp.middle
  have hleft : ∀ d ∈ C.left, d.Marked m := fun d hd => hothers d (by simp [Context.others, hd])
  have hright : ∀ d ∈ C.right, d.Marked m := fun d hd => hothers d (by simp [Context.others, hd])
  obtain ⟨-, -, hstep, ds, hds⟩ := hp.threaded_at hleft h
  have hle := hds.step_le hstep (Memory.Threaded.of_tiles hp.right hright) (by omega)
  omega

/-- If the header after the block is as it was, so is the forward offset of the block. -/
theorem forward_eq (hp : Placed C [b] a e) (hothers : ∀ d ∈ C.others, d.Marked m)
    (hback : m.backward e = b.span) (h : m.Threaded C.region.terminator C.region.base bs) :
    m.forward a = b.span := by
  have hle := hp.forward_le hothers h
  obtain ⟨rfl, -, -, rfl⟩ := Tiles.single_iff.mp hp.middle
  have hleft : ∀ d ∈ C.left, d.Marked m := fun d hd => hothers d (by simp [Context.others, hd])
  have hright : ∀ d ∈ C.right, d.Marked m := fun d hd => hothers d (by simp [Context.others, hd])
  obtain ⟨-, hheader, -, ds, hds⟩ := hp.threaded_at hleft h
  have hge := (Memory.Threaded.of_tiles hp.right hright).step_le hback hds (by omega)
  omega

/-- If the forward offset of the block is as it was, so is the header after the block. -/
theorem backward_eq (hp : Placed C [b] a e) (hothers : ∀ d ∈ C.others, d.Marked m)
    (hforward : m.forward a = b.span) (h : m.Threaded C.region.terminator C.region.base bs) :
    m.backward e = b.span := by
  obtain ⟨rfl, -, -, rfl⟩ := Tiles.single_iff.mp hp.middle
  have hleft : ∀ d ∈ C.left, d.Marked m := fun d hd => hothers d (by simp [Context.others, hd])
  obtain ⟨-, -, hback, -⟩ := hp.threaded_at hleft h
  rwa [hforward] at hback

end Placed

/-! ### What a check that finds nothing says of damaged memory -/

/-- Blocks that fill a range have one that ends with it. -/
theorem Tiles.end_cases {xs : List Block} (h : Tiles a xs e) :
    a = e ∨ ∃ c ∈ xs, c.addr + c.span = e := by
  rcases xs.eq_nil_or_concat' with rfl | ⟨xs, c, rfl⟩
  · exact .inl h
  · obtain ⟨_, -, hlast⟩ := Tiles.append_iff.mp h
    obtain ⟨rfl, -, -, hend⟩ := Tiles.single_iff.mp hlast
    exact .inr ⟨c, by simp, hend⟩

namespace Shape

/-- A header is the first of its region, or comes after a block. -/
theorem Sound.header_cases (hs : A.Sound)
    (hx : (∃ b ∈ A.blocks, b.addr = x) ∨ ∃ t ∈ A.tracts, x = t.region.terminator) :
    (∃ t ∈ A.tracts, x = t.region.base) ∨ ∃ c ∈ A.blocks, c.addr + c.span = x := by
  obtain ⟨t, ht, xs, htiles, hsub⟩ :
      ∃ t ∈ A.tracts, ∃ xs, Tiles t.region.base xs x ∧ xs ⊆ t.blocks := by
    rcases hx with ⟨b, hb, rfl⟩ | ⟨t, ht, rfl⟩
    · obtain ⟨t, ht, hbt⟩ := mem_blocksOf.mp hb
      obtain ⟨xs, ys, hblocks⟩ := List.append_of_mem hbt
      have htiles := (hs.laid.sound t ht).tiles
      rw [hblocks] at htiles
      obtain ⟨c, hxs, rfl, -⟩ := Tiles.append_iff.mp htiles
      exact ⟨t, ht, xs, hxs, by simp [hblocks]⟩
    · exact ⟨t, ht, t.blocks, (hs.laid.sound t ht).tiles, List.Subset.refl _⟩
  rcases htiles.end_cases with hbase | ⟨c, hc, hend⟩
  · exact .inl ⟨t, ht, hbase.symm⟩
  · exact .inr ⟨c, mem_blocksOf.mpr ⟨t, ht, hsub hc⟩, hend⟩

/-- If memory was changed at one block only, the block and the header after it agree on how far it
reaches, and the block is on the free list if it is tagged free. -/
theorem Settled.at_block (hs : A.Settled) (hi : A.In m) (hb : b ∈ A.blocks)
    (hc : Memory.ChangesOnly (Territory b.addr (b.addr + b.span)) m m')
    (h : Check.Passes m' A.regions head) :
    (m'.forward b.addr = b.span ↔ m'.backward (b.addr + b.span) = b.span) ∧
      (m'.tag b.addr = .free → Check.FreeBlock m' A.regions b.addr) := by
  obtain ⟨ts, L⟩ := A
  obtain ⟨C, rfl⟩ := Context.exists_of_mem hb
  have hp := hs.laid.placed_single
  have hothers : ∀ d ∈ C.others, d.Marked m' := by
    intro d hd
    have hd' : d ∈ blocksOf (C.fill [b]) := Context.mem_blocksOf_fill.mpr (.inr hd)
    obtain ⟨t, ht, hdt⟩ := mem_blocksOf.mp hd'
    exact hp.others_marked hd ((hi.marked t ht).blocks d hdt) hc
  have hregion : C.region ∈ Shape.regions ⟨C.fill [b], L⟩ :=
    List.mem_map.mpr ⟨_, Context.mem_fill.mpr (.inl rfl), rfl⟩
  obtain ⟨bs, hbs⟩ := h.regions _ hregion
  have hleft : ∀ d ∈ C.left, d.Marked m' := fun d hd => hothers d (by simp [Context.others, hd])
  exact ⟨⟨fun hforward => hp.backward_eq hothers hforward hbs.threaded,
      fun hback => hp.forward_eq hothers hback hbs.threaded⟩,
    fun htag => ⟨_, hregion, bs, hbs, (hp.threaded_at hleft hbs.threaded).1, htag⟩⟩

/-- If the headers are as they were, every free block is on the free list. -/
theorem Settled.listed_of_passes (hs : A.Settled) (hm : ∀ t ∈ A.tracts, t.Marked m)
    (h : Check.Passes m A.regions head) :
    ∃ xs, Check.Listed m A.regions [] head xs ∧ ∀ x ∈ A.free, x ∈ xs := by
  obtain ⟨xs, hlisted, hcomplete⟩ := h.free
  refine ⟨xs, hlisted, fun x hx => hcomplete x ?_⟩
  obtain ⟨b, hb, rfl, htag⟩ := hs.listed x hx
  obtain ⟨t, ht, hbt⟩ := mem_blocksOf.mp hb
  have hregion : t.region ∈ A.regions := List.mem_map_of_mem ht
  obtain ⟨bs, hbs⟩ := h.regions _ hregion
  have hthere := Memory.Threaded.of_tiles (hs.laid.sound t ht).tiles (hm t ht).blocks
  refine ⟨_, hregion, bs, hbs, ?_, ((hm t ht).blocks b hbt).tag.trans htag⟩
  rw [hbs.threaded.unique hthere]
  exact List.mem_map_of_mem hbt

/-- A header that is tagged free is that of a block on the free list. -/
theorem Settled.mem_free_of_tag (hs : A.Settled) (hm : ∀ t ∈ A.tracts, t.Marked m)
    (hx : (∃ b ∈ A.blocks, b.addr = x) ∨ ∃ t ∈ A.tracts, x = t.region.terminator)
    (htag : m.tag x = .free) : x ∈ A.free := by
  rcases hx with ⟨b, hb, rfl⟩ | ⟨t, ht, rfl⟩
  · obtain ⟨t, ht, hbt⟩ := mem_blocksOf.mp hb
    exact hs.complete b hb (((hm t ht).blocks b hbt).tag.symm.trans htag)
  · rw [(hm t ht).lastTag] at htag
    nomatch htag

/-! ### Damage to a header -/

theorem Settled.not_passes_of_forward (hs : A.Settled) (hi : A.In m) (hb : b ∈ A.blocks)
    (hc : Memory.ChangesOnly (· = b.addr) m m') (hne : m'.forward b.addr ≠ b.span) :
    ¬ Check.Passes m' A.regions head := by
  intro h
  obtain ⟨t, ht, hbt⟩ := mem_blocksOf.mp hb
  have hback := ((hi.marked t ht).blocks b hbt).backward
  obtain ⟨-, -, -, -, hroom⟩ := hs.laid.sound_of_mem hb
  refine hne ((hs.at_block hi hb (hc.mono ?_) h).1.mpr ((hc.backward (by omega)).trans hback))
  rintro w rfl
  exact .inl (by omega)

theorem Settled.not_passes_of_backward (hs : A.Settled) (hi : A.In m) (hb : b ∈ A.blocks)
    (hc : Memory.ChangesOnly (· = b.addr + b.span + 8) m m')
    (hne : m'.backward (b.addr + b.span) ≠ b.span) : ¬ Check.Passes m' A.regions head := by
  intro h
  obtain ⟨t, ht, hbt⟩ := mem_blocksOf.mp hb
  have hforward := ((hi.marked t ht).blocks b hbt).forward
  refine hne ((hs.at_block hi hb (hc.mono ?_) h).1.mp ((hc.forward (by omega)).trans hforward))
  rintro w rfl
  exact .inr rfl

theorem not_passes_of_first {t : Tract} (ht : t ∈ A.tracts)
    (hne : m'.backward t.region.base ≠ 0) : ¬ Check.Passes m' A.regions head := by
  intro h
  obtain ⟨bs, hbs⟩ := h.regions _ (List.mem_map_of_mem ht)
  exact hne hbs.first

theorem Settled.not_passes_of_tag (hs : A.Settled) (hi : A.In m) (hb : b ∈ A.blocks)
    (hc : Memory.ChangesOnly (· = b.addr + 16) m m') (hne : m'.tag b.addr ≠ b.tag) :
    ¬ Check.Passes m' A.regions A.free.head? := by
  intro h
  obtain ⟨-, -, -, -, hroom⟩ := hs.laid.sound_of_mem hb
  obtain ⟨xs, hlisted, hcomplete⟩ := h.free
  obtain rfl : A.free = xs := by
    refine hi.linked.eq_of_next hlisted.linked hlisted.head fun x hx => hc.link ?_
    obtain ⟨c, hcmem, rfl, -⟩ := hs.listed x hx
    exact (hs.laid.linkWord_ne hcmem (.inl rfl) hb).2.1
  cases htag : b.tag with
  | free => exact hne ((hlisted.free _ (hs.complete b hb htag)).trans htag.symm)
  | allocated =>
    have hfree : m'.tag b.addr = .free := by
      cases hfree : m'.tag b.addr with
      | free => rfl
      | allocated => exact absurd (hfree.trans htag.symm) hne
    have hmem : b.addr ∈ A.free := hcomplete _ ((hs.at_block hi hb (hc.mono ?_) h).2 hfree)
    · obtain ⟨c, hcmem, haddr, hcfree⟩ := hs.listed _ hmem
      rw [hs.laid.eq_of_addr hcmem hb haddr, htag] at hcfree
      nomatch hcfree
    · rintro w rfl
      exact .inl (by omega)

/-! ### Damage to the free list -/

theorem Settled.not_passes_of_prev (hs : A.Settled) (hi : A.In m) (hx : x ∈ A.free)
    (hc : Memory.ChangesOnly (· = x + 40) m m') (hne : m'.link (x + 40) ≠ m.link (x + 40)) :
    ¬ Check.Passes m' A.regions A.free.head? := by
  intro h
  obtain ⟨xs, hlisted, -⟩ := h.free
  have happart := (hs.listable hi).apart
  obtain rfl : A.free = xs := by
    refine hi.linked.eq_of_next hlisted.linked hlisted.head fun y hy => hc.link ?_
    by_cases hxy : x = y
    · omega
    · have := apart_iff.mp (happart.forall hx hy hxy)
      omega
  exact hne (hi.linked.prev_eq hlisted.linked hx)

/-- The block that the link should name, or names now, says otherwise with its link back. -/
theorem Settled.not_passes_of_next (hs : A.Settled) (hi : A.In m) (hx : x ∈ A.free)
    (hc : Memory.ChangesOnly (· = x + 32) m m')
    (hheader : ∀ y ∈ m'.link (x + 32),
      (∃ b ∈ A.blocks, b.addr = y) ∨ ∃ t ∈ A.tracts, y = t.region.terminator)
    (hne : m'.link (x + 32) ≠ m.link (x + 32)) : ¬ Check.Passes m' A.regions head := by
  intro h
  obtain ⟨b, hb, hbx, -⟩ := hs.listed x hx
  have hlinks : Memory.ChangesOnly (LinkWord [x]) m m' :=
    hc.mono fun w hw => ⟨x, List.mem_singleton.mpr rfl, .inl hw⟩
  have hm : ∀ t ∈ A.tracts, t.Marked m' :=
    hs.laid.marked_of_links hi.marked hlinks (List.forall_mem_singleton.mpr ⟨b, hb, hbx⟩)
  obtain ⟨xs, hlisted, hcomplete⟩ := hs.listed_of_passes hm h
  have hback : ∀ y ∈ A.free, m'.link (y + 40) = m.link (y + 40) := by
    intro y hy
    refine hc.link ?_
    by_cases hxy : x = y
    · omega
    · have := apart_iff.mp ((hs.listable hi).apart.forall hx hy hxy)
      omega
  cases hnext : m'.link (x + 32) with
  | none =>
    obtain ⟨y, hy⟩ := Option.ne_none_iff_exists'.mp (hnext ▸ hne).symm
    obtain ⟨hmem, hprev⟩ := hi.linked.prev_of_next hx hy
    have hnext' := (hlisted.linked.next_of_prev (hcomplete y hmem) ((hback y hmem).trans hprev)).2
    rw [hnext] at hnext'
    nomatch hnext'
  | some y =>
    obtain ⟨hmem, hprev⟩ := hlisted.linked.prev_of_next (hcomplete x hx) hnext
    have hfree := hs.mem_free_of_tag hm (hheader y hnext) (hlisted.free y hmem)
    have hnext' := (hi.linked.next_of_prev hfree ((hback y hfree).symm.trans hprev)).2
    exact hne (hnext.trans hnext'.symm)

theorem Settled.not_passes_of_head (hs : A.Settled) (hi : A.In m)
    (hheader : ∀ y ∈ head,
      (∃ b ∈ A.blocks, b.addr = y) ∨ ∃ t ∈ A.tracts, y = t.region.terminator)
    (hne : head ≠ A.free.head?) : ¬ Check.Passes m A.regions head := by
  intro h
  obtain ⟨xs, hlisted, hcomplete⟩ := hs.listed_of_passes hi.marked h
  cases hhead : head with
  | none =>
    obtain ⟨y, hy⟩ := Option.ne_none_iff_exists'.mp (hhead ▸ hne).symm
    have hmem := hcomplete y (List.mem_of_mem_head? hy)
    rw [List.head?_eq_none_iff.mp (hlisted.head.symm.trans hhead)] at hmem
    nomatch hmem
  | some y =>
    obtain ⟨xs, rfl⟩ := List.head?_eq_some_iff.mp (hlisted.head.symm.trans hhead)
    have hfree := hs.mem_free_of_tag hi.marked (hheader y hhead) (hlisted.free y List.mem_cons_self)
    exact hne (hhead.trans (hi.linked.head_of_prev hfree hlisted.linked.1).symm)

end Shape

/-! ### Damage to a heap that is in order -/

namespace World.Holds

variable {w : World σ}

theorem hasHeader_iff (h : w.Holds A) : w.HasHeader x ↔
    (∃ b ∈ A.blocks, b.addr = x) ∨ ∃ t ∈ A.tracts, x = t.region.terminator := by
  have hregions : (∃ r ∈ w.heap.regions, x = r.terminator) ↔
      ∃ t ∈ A.tracts, x = t.region.terminator := by
    rw [h.regions]
    constructor
    · rintro ⟨r, hr, rfl⟩
      obtain ⟨t, ht, rfl⟩ := List.mem_map.mp hr
      exact ⟨t, ht, rfl⟩
    · rintro ⟨t, ht, rfl⟩
      exact ⟨_, List.mem_map_of_mem ht, rfl⟩
  unfold HasHeader
  rw [h.hasBlock_iff, hregions]

theorem word_of_hasHeader (h : w.Holds A) (hx : w.HasHeader x) : 0 < x ∧ x < Word.limit := by
  rcases h.hasHeader_iff.mp hx with ⟨b, hb, rfl⟩ | ⟨t, ht, rfl⟩
  · have hb' := h.settled.laid.sound_of_mem hb
    omega
  · have ht' := h.settled.laid.sound t ht
    have hadd := ht'.terminator_add
    have hlt := ht'.bounded
    have hle := ht'.tiles.le
    have hpos := ht'.positive
    omega

theorem mem_free (h : w.Holds A) (hx : w.HasBlock x) (htag : w.memory.tag x = .free) :
    x ∈ A.free := by
  obtain ⟨b, hb, rfl⟩ := h.hasBlock_iff.mp hx
  exact h.settled.complete b hb ((h.tag_eq hb).symm.trans htag)

theorem not_passes_of_backward (h : w.Holds A) (hx : w.HasHeader x) {v : Nat}
    (hv : v < Word.limit) (hne : v ≠ w.memory.backward x) :
    ¬ Check.Passes (w.memory.setBackward x v) A.regions head := by
  have hset : (w.memory.setBackward x v).backward x = v := Memory.backward_setBackward hv
  rcases h.settled.header_cases (h.hasHeader_iff.mp hx) with ⟨t, ht, rfl⟩ | ⟨c, hc, rfl⟩
  · rw [(h.inMemory.marked t ht).first] at hne
    exact Shape.not_passes_of_first ht (by rwa [hset])
  · obtain ⟨t, ht, hct⟩ := mem_blocksOf.mp hc
    rw [((h.inMemory.marked t ht).blocks c hct).backward] at hne
    exact h.settled.not_passes_of_backward h.inMemory hc Memory.changesOnly_setBackward
      (by rwa [hset])

/-- Whichever word is damaged, the words are in order no more. -/
theorem not_passes_of_damage (h : w.Holds A) {free : FreeList} (hd : w.Damage m' free) :
    ¬ Check.Passes m' A.regions free.head := by
  have hs := h.settled
  have hi := h.inMemory
  cases hd with
  | forward hx hv hne =>
    obtain ⟨b, hb, rfl⟩ := h.hasBlock_iff.mp hx
    obtain ⟨t, ht, hbt⟩ := mem_blocksOf.mp hb
    rw [((hi.marked t ht).blocks b hbt).forward] at hne
    exact hs.not_passes_of_forward hi hb Memory.changesOnly_setForward
      (by rwa [Memory.forward_setForward hv])
  | backward hx hv hne => exact h.not_passes_of_backward hx hv hne
  | tag hx hne =>
    obtain ⟨b, hb, rfl⟩ := h.hasBlock_iff.mp hx
    rw [h.tag_eq hb] at hne
    rw [h.free]
    exact hs.not_passes_of_tag hi hb Memory.changesOnly_setTag (by rwa [Memory.tag_setTag])
  | prev hx htag hl hne =>
    rw [h.free]
    exact hs.not_passes_of_prev hi (h.mem_free hx htag) Memory.changesOnly_setPrev
      (by rwa [Memory.link_setPrev hl])
  | next hx htag hl hne =>
    have hword : ∀ y ∈ _, 0 < y ∧ y < Word.limit := fun y hy => h.word_of_hasHeader (hl y hy)
    refine hs.not_passes_of_next hi (h.mem_free hx htag) Memory.changesOnly_setNext ?_ ?_
    · rw [Memory.link_setNext hword]
      exact fun y hy => h.hasHeader_iff.mp (hl y hy)
    · rwa [Memory.link_setNext hword]
  | head hl hne =>
    rw [h.free] at hne
    exact hs.not_passes_of_head hi (fun y hy => h.hasHeader_iff.mp (hl y hy)) hne

end World.Holds

namespace Session

variable [Source σ] {After : σ → List Call → Prop}

/-- Whatever the live blocks of a heap contain, a check finds nothing; and once one word that
describes the blocks or the free list says something else, a check that returns finds
something. -/
theorem check_of_damage (hc : Source.Contract After) {config : Config} {source : σ}
    {memory : Memory} {acts : List Act} {s : Session σ} (hs : After source [])
    (hrun : (start config source memory).Run acts s)
    (hm : Memory.ChangesOnly s.InPayload s.world.memory m) :
    HeapM.check { s.world with memory := m } = .ok [] { s.world with memory := m } ∧
      ∀ m' free, World.Damage { s.world with memory := m } m' free →
        ∀ w', HeapM.check { s.world with memory := m', heap := { s.world.heap with free } } ≠
          .ok [] w' := by
  obtain ⟨A, h⟩ := (inOrder_start hs).run hc hrun
  have h' := h.of_payloads hm
  refine ⟨HeapM.check_run h'.has h'.settled, fun m' free hd w' hrun' => ?_⟩
  refine (h'.has.holds h'.settled).not_passes_of_damage hd ?_
  have hregions : s.world.heap.regions = A.regions := h.has.regions
  rw [← hregions]
  refine Check.passes_of_check ?_ (HeapM.check_eq_ok_iff.mp hrun').1
  rw [hregions]
  exact h.settled.bounded

/-- The payload of a block imitates a header, to which the block leads then and from which it is as
far to the next block as the forged header says. -/
theorem check_of_forged_header : ∃ (s : Session Arena) (m : Memory),
    (start {} { base := 0x10000 } ∅).Run [.allocate 100] s ∧
      m = (s.world.memory.write 0x10040 0x50).write 0x10048 0x40 ∧
      Memory.ChangesOnly s.InPayload s.world.memory m ∧ m.forward 0x10000 = 0x90 ∧
      ∀ w', HeapM.check { s.world with memory := m.setForward 0x10000 0x40 } ≠ .ok [] w' := by
  have hserves : Arena.Serves { base := 0x10000 } [] :=
    Arena.serves_new ⟨12, by decide, by decide, rfl⟩ rfl (by decide) (by decide) rfl rfl
  have heval : ∃ s : Session Arena, (start {} { base := 0x10000 } ∅).Run [.allocate 100] s ∧
      s.live = [{ payload := 0x10020, size := 100 }] ∧
      s.HasSize { payload := 0x10020, size := 100 } 112 ∧
      s.world.heap.regions = [⟨0x10000, 0x1000⟩] ∧
      ((s.world.memory.write 0x10040 0x50).write 0x10048 0x40).forward 0x10000 = 0x90 ∧
      ((s.world.memory.write 0x10040 0x50).write 0x10048 0x40).Chain 0x10fe0 0x10000 0
        [0x10000, 0x10090] :=
    ⟨_, .cons (.intro trivial rfl) (.nil _), rfl, by exact rfl, rfl, rfl, rfl, rfl, rfl, by decide,
      rfl, rfl, rfl, by decide, rfl, rfl, rfl, rfl⟩
  obtain ⟨s, hrun, hlive, hsize, hregions, hforward, hchain⟩ := heval
  have hpayload : ∀ a, 0x10020 ≤ a → a < 0x10090 → s.InPayload a := fun a hlo hhi =>
    ⟨_, hlive ▸ List.mem_cons_self, 112, hsize, hlo, hhi⟩
  have hm : Memory.ChangesOnly s.InPayload s.world.memory
      ((s.world.memory.write 0x10040 0x50).write 0x10048 0x40) :=
    (Memory.changesOnly_write.mono fun a ha => hpayload a (by omega) (by omega)).trans
      (Memory.changesOnly_write.mono fun a ha => hpayload a (by omega) (by omega))
  refine ⟨s, _, hrun, rfl, hm, hforward, (check_of_damage Arena.contract hserves hrun hm).2 _ _ ?_⟩
  refine .forward ⟨⟨0x10000, 0x1000⟩, ?_, [0x10000, 0x10090], hchain, List.mem_cons_self⟩
    (by decide) ?_
  · dsimp only
    rw [hregions]
    exact List.mem_singleton.mpr rfl
  · dsimp only
    rw [hforward]
    decide

end Session

end BoundaryTag
