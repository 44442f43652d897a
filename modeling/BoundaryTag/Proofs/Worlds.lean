import BoundaryTag.Proofs.Shape

/-!
# Worlds with a heap in order

`w.Has A` says that the heap of the world `w` has the shape `A`: its memory holds `A`, and its list
of regions and its counts are those of `A`. The state of the heap outside its blocks changes only in
the head of the free list during an `Edit`.

An `Outline` is a heap without its memory. Together with what the source answers it decides all
that the heap does, which is stated operation by operation: each run of a program is a step of the
outline.
-/

namespace BoundaryTag

variable {σ : Type}

/-- The heap of the world has the shape `A`. -/
structure World.Has (w : World σ) (A : Shape) : Prop where
  sound : A.Sound
  inMemory : A.In w.memory
  regions : w.heap.regions = A.regions
  free : w.heap.free = ⟨A.free.head?⟩
  heapSize : w.heap.heapSize = Region.totalSize A.regions
  heapSize_lt : w.heap.heapSize < Word.limit
  maps : w.heap.maps = w.heap.unmaps + A.regions.length
  maps_lt : w.heap.maps < Word.limit

/-- The blocks of the heap are in order, whatever it has counted. -/
structure World.Holds (w : World σ) (A : Shape) : Prop where
  settled : A.Settled
  inMemory : A.In w.memory
  regions : w.heap.regions = A.regions
  free : w.heap.free = ⟨A.free.head?⟩

/-- A heap without its memory. -/
structure Outline (σ : Type) where
  config : Config
  source : σ
  shape : Shape
  /-- The number of regions that were given back. -/
  unmaps : Nat

/-- The outline of a heap of the shape `A`. -/
def World.outline (w : World σ) (A : Shape) : Outline σ where
  config := w.heap.config
  source := w.heap.source
  shape := A
  unmaps := w.heap.unmaps

/-- From `w` to `w'` memory changes at words in `P` only, and of the heap only the free list. -/
structure World.Edit (P : Nat → Prop) (w w' : World σ) : Prop where
  memory : Memory.ChangesOnly P w.memory w'.memory
  heap : w'.heap = { w.heap with free := w'.heap.free }

variable {w w' w'' : World σ} {A A' : Shape} {P Q : Nat → Prop} {C : Context}
  {mid mid' : List Block} {ts : List Tract} {L : List Nat} {b c d : Block} {a e x : Nat}
  {m m' : Memory}

namespace World.Edit

theorem refl (P : Nat → Prop) (w : World σ) : w.Edit P w := ⟨.refl _ _, rfl⟩

theorem trans (h : w.Edit P w') (h' : w'.Edit P w'') : w.Edit P w'' where
  memory := h.memory.trans h'.memory
  heap := by rw [h'.heap, h.heap]

theorem mono (h : w.Edit P w') (hPQ : ∀ a, P a → Q a) : w.Edit Q w' :=
  ⟨h.memory.mono hPQ, h.heap⟩

/-- An edit changes the shape alone. -/
theorem outline (h : w.Edit P w') (A A' : Shape) :
    w'.outline A' = { w.outline A with shape := A' } := by
  unfold World.outline
  rw [h.heap]

end World.Edit

/-! ### Going from block to block -/

namespace Block.Marked

theorem isTerminator_eq (h : b.Marked m) (hroom : 48 ≤ b.span) :
    m.isTerminator b.addr = false := by
  unfold Memory.isTerminator
  rw [h.forward]
  exact decide_eq_false (by omega)

theorem isAllocated_eq (h : b.Marked m) : m.isAllocated b.addr = decide (b.tag = .allocated) := by
  unfold Memory.isAllocated
  rw [h.tag]

theorem next_eq (h : b.Marked m) (hlt : b.addr + b.span < Word.limit) :
    m.next b.addr = b.addr + b.span := by
  unfold Memory.next
  rw [h.forward, Word.addWrap_of_lt hlt]

theorem previous_eq (h : b.Marked m) (hlt : b.addr + b.span < Word.limit) :
    m.previous (b.addr + b.span) = b.addr := by
  unfold Memory.previous
  rw [h.backward, Word.subWrap_of_le (Nat.le_add_left _ _) hlt, Nat.add_sub_cancel]

theorem isSentinel_eq (h : b.Marked m) (hroom : 48 ≤ b.span) :
    m.isSentinel (b.addr + b.span) = false := by
  unfold Memory.isSentinel
  rw [h.backward]
  exact decide_eq_false (by omega)

theorem payloadSize_eq (h : b.Marked m) (hroom : 48 ≤ b.span) :
    m.payloadSize b.addr = .ok (b.span - 32) := by
  unfold Memory.payloadSize
  rw [h.forward]
  exact Word.sub_eq_ok_iff.mpr ⟨by unfold headerSize; omega, rfl⟩

end Block.Marked

namespace World.Has

theorem holds (H : w.Has A) (hs : A.Settled) : w.Holds A := ⟨hs, H.inMemory, H.regions, H.free⟩

/-- The outline tells all of the heap that is not in memory. -/
theorem heap_eq (H : w.Has A) (H' : w'.Has A) (ho : w'.outline A = w.outline A) :
    w'.heap = w.heap := by
  have hconfig : w'.heap.config = w.heap.config := congrArg Outline.config ho
  have hsource : w'.heap.source = w.heap.source := congrArg Outline.source ho
  have hunmaps : w'.heap.unmaps = w.heap.unmaps := congrArg Outline.unmaps ho
  have hregions : w'.heap.regions = w.heap.regions := H'.regions.trans H.regions.symm
  have hsize : w'.heap.heapSize = w.heap.heapSize := H'.heapSize.trans H.heapSize.symm
  have hmaps : w'.heap.maps = w.heap.maps := by rw [H'.maps, H.maps, hunmaps]
  have hfree : w'.heap.free = w.heap.free := H'.free.trans H.free.symm
  show Heap.mk w'.heap.config w'.heap.source w'.heap.regions w'.heap.heapSize w'.heap.maps
    w'.heap.unmaps w'.heap.free = w.heap
  rw [hconfig, hsource, hregions, hsize, hmaps, hunmaps, hfree]

theorem marked (H : w.Has A) (hb : b ∈ A.blocks) : b.Marked w.memory := by
  obtain ⟨t, ht, hbt⟩ := mem_blocksOf.mp hb
  exact (H.inMemory.marked t ht).blocks b hbt

theorem block_sound (H : w.Has A) (hb : b ∈ A.blocks) :
    0 < b.addr ∧ b.addr + b.span < Word.limit ∧ b.addr % 16 = 0 ∧ b.span % 16 = 0 ∧
      48 ≤ b.span := H.sound.laid.sound_of_mem hb

theorem mem_fill (hb : b ∈ mid) : b ∈ Shape.blocks ⟨C.fill mid, L⟩ :=
  Context.mem_blocksOf_fill.mpr (.inl hb)

/-- The heap keeps its books while blocks change. -/
theorem edit (H : w.Has A) (he : w.Edit P w') (hregions : A'.regions = A.regions)
    (hsound : A'.Sound) (hin : A'.In w'.memory) (hfree : w'.heap.free = ⟨A'.free.head?⟩) :
    w'.Has A' where
  sound := hsound
  inMemory := hin
  regions := by rw [he.heap, hregions]; exact H.regions
  free := hfree
  heapSize := by rw [he.heap, hregions]; exact H.heapSize
  heapSize_lt := by rw [he.heap]; exact H.heapSize_lt
  maps := by rw [he.heap, hregions]; exact H.maps
  maps_lt := by rw [he.heap]; exact H.maps_lt

theorem logged (H : w.Has A) (log : List Event) : World.Has { w with log } A :=
  ⟨H.sound, H.inMemory, H.regions, H.free, H.heapSize, H.heapSize_lt, H.maps, H.maps_lt⟩

theorem unlist (H : w.Has ⟨ts, L⟩) (hx : x ∈ L) :
    ∃ w', HeapM.editFree (·.remove x) w = .ok () w' ∧ w'.Has ⟨ts, L.erase x⟩ ∧
      w.Edit (LinkWord (L.erase x)) w' := by
  obtain ⟨m', hrun, hin, hc⟩ := H.inMemory.unlist H.sound hx
  have he : w.Edit (LinkWord (L.erase x))
      { w with memory := m', heap := { w.heap with free := ⟨(L.erase x).head?⟩ } } := ⟨hc, rfl⟩
  refine ⟨_, HeapM.run_editFree_ok ?_, H.edit he rfl (H.sound.erase x) hin rfl, he⟩
  rw [H.free]
  exact hrun

/-- What changes when a block is taken off the free list is the heap's. -/
theorem edit_reserved (H : w.Has ⟨ts, L⟩) (he : w.Edit (LinkWord (L.erase x)) w') :
    w.Edit (Shape.Reserved ⟨ts, L⟩) w' :=
  he.mono fun _ hw => (H.sound.erase x).reserved_of_linkWord hw

theorem list (H : w.Has ⟨ts, L⟩) (hb : b ∈ blocksOf ts) (hfree : b.tag = .free)
    (hL : b.addr ∉ L) :
    ∃ w', HeapM.editFree (·.pushFront b.addr) w = .ok () w' ∧ w'.Has ⟨ts, b.addr :: L⟩ ∧
      w.Edit (Shape.Reserved ⟨ts, L⟩) w' := by
  have hsound := H.sound.cons hb hfree hL
  obtain ⟨m', hrun, hin, hc⟩ := H.inMemory.list hsound
  have he : w.Edit (Shape.Reserved ⟨ts, L⟩)
      { w with memory := m', heap := { w.heap with free := ⟨some b.addr⟩ } } :=
    ⟨hc.mono fun _ hw => hsound.reserved_of_linkWord hw, rfl⟩
  refine ⟨_, HeapM.run_editFree_ok ?_, H.edit he rfl hsound hin rfl, he⟩
  rw [H.free]
  exact hrun

theorem refill (H : w.Has ⟨C.fill mid, L⟩) (hp : Placed C mid a e) (htiles : Tiles a mid' e)
    (hne : mid' ≠ []) (hc : Memory.ChangesOnly (Territory a e) w.memory m')
    (hmid : ∀ b ∈ mid', b.Marked m')
    (hlisted : ∀ b ∈ mid, b.addr ∈ L → ∃ b' ∈ mid', b'.addr = b.addr ∧ b'.tag = .free)
    (hlinks : ∀ b ∈ mid, b.addr ∈ L →
      m'.link (b.addr + 32) = w.memory.link (b.addr + 32) ∧
        m'.link (b.addr + 40) = w.memory.link (b.addr + 40)) :
    World.Has { w with memory := m' } ⟨C.fill mid', L⟩ := by
  have hin := H.inMemory.refill H.sound hp hc hmid hlinks
  have he : w.Edit (Territory a e) { w with memory := m' } := ⟨hc, rfl⟩
  have hsound := H.sound.refill hp htiles hne hlisted
  exact H.edit he (Context.map_region_fill mid' mid) hsound hin H.free

/-- Giving the only block in a place another tag. -/
theorem retag (H : w.Has ⟨C.fill [b], L⟩) (hL : b.addr ∉ L) {t : Tag} (htag : m'.tag b.addr = t)
    (hc : Memory.ChangesOnly (fun a => b.addr + 16 ≤ a ∧ a ≤ b.addr + 40) w.memory m') :
    World.Has { w with memory := m' } ⟨C.fill [{ b with tag := t }], L⟩ := by
  have hp := H.sound.laid.placed_single
  have hm := H.marked (mem_fill List.mem_cons_self)
  obtain ⟨-, -, -, hwhole, hroom⟩ := H.block_sound (b := b) (mem_fill List.mem_cons_self)
  have hnot : ∀ c ∈ [b], c.addr ∉ L := List.forall_mem_singleton.mpr hL
  refine H.refill hp ?_ (List.cons_ne_nil _ _) (hc.mono fun w hw => .inl (by omega)) ?_
    (fun c hc' hcL => absurd hcL (hnot c hc')) (fun c hc' hcL => absurd hcL (hnot c hc'))
  · exact Tiles.single_iff.mpr ⟨rfl, hwhole, hroom, rfl⟩
  · exact List.forall_mem_singleton.mpr ⟨(hc.forward (by dsimp only; omega)).trans hm.forward, htag,
      (hc.backward (by dsimp only; omega)).trans hm.backward⟩

end World.Has

end BoundaryTag
