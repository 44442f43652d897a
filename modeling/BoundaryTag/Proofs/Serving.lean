import BoundaryTag.Proofs.Rounding
import BoundaryTag.Proofs.Worlds

/-!
# Serving a request from a free block

A free block that is long enough is taken off the free list and allocated, as a whole or after what
is not needed was split off as a free block (`place_run`).
-/

namespace BoundaryTag

namespace Block

/-- The first part of a block, with `needed` bytes of payload. -/
def front (b : Block) (needed : Nat) (t : Tag) : Block := ⟨b.addr, needed + 32, t⟩

/-- What is left of a block after a part with `needed` bytes of payload was cut off. -/
def rest (b : Block) (needed : Nat) : Block := ⟨b.addr + 32 + needed, b.span - 32 - needed, .free⟩

end Block

/-- The shape after the free block `b` in `C` served a request for `needed` bytes, where `L` is the
free list without `b`. -/
def Shape.serve (C : Context) (b : Block) (needed : Nat) (L : List Nat) : Shape :=
  if needed + 64 < b.span then
    ⟨C.fill [b.front needed .allocated, b.rest needed], (b.rest needed).addr :: L⟩
  else ⟨C.fill [{ b with tag := .allocated }], L⟩

theorem Shape.regions_serve {A : Shape} {C : Context} {b : Block} {needed : Nat} {L : List Nat}
    (htracts : A.tracts = C.fill [b]) : (Shape.serve C b needed L).regions = A.regions := by
  unfold Shape.serve Shape.regions
  rw [htracts]
  split <;> exact Context.map_region_fill _ _

theorem Context.fill_cons (C : Context) (b : Block) (mid : List Block) :
    C.fill (b :: mid) = { C with right := mid ++ C.right }.fill [b] := by
  simp [fill]

/-- The memory after `b` was cut into a first part with `needed` bytes of payload and the rest,
before either is on the free list. -/
def Memory.cut (m : Memory) (b : Block) (needed : Nat) : Memory :=
  (((m.pack (b.rest needed).addr (b.rest needed).span (needed + 32) .free).markFree
    (b.rest needed).addr).setBackward (b.addr + b.span) (b.rest needed).span).setForward
      b.addr (needed + 32)

section
variable {m : Memory} {b : Block} {needed : Nat}

theorem Memory.changesOnly_cut (hwhole : b.span % 16 = 0) (hal : needed % 16 = 0)
    (hmin : 16 ≤ needed) (hcut : needed + 64 < b.span) :
    Memory.ChangesOnly (Territory b.addr (b.addr + b.span)) m (m.cut b needed) := by
  unfold Memory.cut Block.rest
  refine (((changesOnly_pack.mono ?_).trans (changesOnly_markFree.mono ?_)).trans
    (changesOnly_setBackward.mono ?_)).trans (changesOnly_setForward.mono ?_)
  · rintro a (rfl | rfl | rfl) <;> unfold Territory <;> dsimp only <;> omega
  · rintro a (rfl | rfl | rfl) <;> unfold Territory <;> dsimp only <;> omega
  · rintro a rfl
    unfold Territory
    omega
  · rintro a rfl
    unfold Territory
    omega

theorem Memory.marked_cut_front (hm : m.tag b.addr = .free) (hlt : b.addr + b.span < Word.limit)
    (haligned : b.addr % 16 = 0) (hwhole : b.span % 16 = 0) (hal : needed % 16 = 0)
    (hcut : needed + 64 < b.span) : (b.front needed .free).Marked (m.cut b needed) := by
  unfold Memory.cut Block.rest Block.front
  refine ⟨forward_setForward (by omega), ?_, ?_⟩
  · dsimp only
    rw [changesOnly_setForward.tag (by omega), changesOnly_setBackward.tag (by omega),
      changesOnly_markFree.tag (by omega), changesOnly_pack.tag (by omega), hm]
  · dsimp only
    rw [changesOnly_setForward.backward (by omega), changesOnly_setBackward.backward (by omega),
      changesOnly_markFree.backward (by omega),
      show b.addr + (needed + 32) = b.addr + 32 + needed by omega, backward_pack (by omega)]

theorem Memory.marked_cut_rest (hlt : b.addr + b.span < Word.limit)
    (haligned : b.addr % 16 = 0) (hwhole : b.span % 16 = 0) (hal : needed % 16 = 0)
    (hcut : needed + 64 < b.span) : (b.rest needed).Marked (m.cut b needed) := by
  have hend : b.addr + 32 + needed + (b.span - 32 - needed) = b.addr + b.span := by omega
  unfold Memory.cut Block.rest
  refine ⟨?_, ?_, ?_⟩
  · dsimp only
    rw [changesOnly_setForward.forward (by omega), changesOnly_setBackward.forward (by omega),
      changesOnly_markFree.forward (by omega), forward_pack (by omega)]
  · dsimp only
    rw [changesOnly_setForward.tag (by omega), changesOnly_setBackward.tag (by omega), tag_markFree]
  · dsimp only
    rw [changesOnly_setForward.backward (by omega), hend, backward_setBackward (by omega)]

end

namespace HeapM

variable {σ : Type} {w : World σ} {C : Context} {b : Block} {L : List Nat} {needed : Nat}

theorem split_run (H : w.Has ⟨C.fill [b], L⟩) (hL : b.addr ∉ L) (hfree : b.tag = .free)
    (hal : needed % 16 = 0) (hmin : 16 ≤ needed) (hcut : needed + 64 < b.span) :
    ∃ w', split b.addr needed (b.span - 32 - needed) w = .ok () w' ∧
      w'.Has ⟨C.fill [b.front needed .free, b.rest needed], (b.rest needed).addr :: L⟩ ∧
      w.Edit (Shape.Reserved ⟨C.fill [b], L⟩) w' := by
  have hp := H.sound.laid.placed_single
  have hm := H.marked (World.Has.mem_fill List.mem_cons_self)
  obtain ⟨-, hlt, haligned, hwhole, hroom⟩ :=
    H.block_sound (b := b) (World.Has.mem_fill List.mem_cons_self)
  have hspan : Word.add needed headerSize = .ok (needed + 32) :=
    Word.add_eq_ok_iff.mpr ⟨by unfold headerSize; omega, rfl⟩
  have hnext : w.memory.next b.addr = b.addr + b.span := hm.next_eq hlt
  have hfree' : ∀ c ∈ [b], c.tag = .free := List.forall_mem_singleton.mpr hfree
  have hnot : ∀ c ∈ [b], c.addr ∉ L := List.forall_mem_singleton.mpr hL
  have hc := Memory.changesOnly_cut (m := w.memory) hwhole hal hmin hcut
  -- the headers of the two parts
  have H₁ : World.Has { w with memory := w.memory.cut b needed }
      ⟨C.fill [b.front needed .free, b.rest needed], L⟩ := by
    refine H.refill hp ?_ (List.cons_ne_nil _ _) hc ?_ (fun c hcm hcL => absurd hcL (hnot c hcm))
      (fun c hcm hcL => absurd hcL (hnot c hcm))
    · refine ⟨rfl, ?_, ?_, ?_⟩
      · show (needed + 32) % 16 = 0
        omega
      · show 48 ≤ needed + 32
        omega
      · rw [Tiles.single_iff]
        unfold Block.rest Block.front
        dsimp only
        omega
    · intro c hc
      rcases List.mem_pair.mp hc with rfl | rfl
      · exact Memory.marked_cut_front (hm.tag.trans hfree) hlt haligned hwhole hal hcut
      · exact Memory.marked_cut_rest hlt haligned hwhole hal hcut
  -- the rest is no block that is listed
  have hrest : (b.rest needed).addr ∉ L := by
    intro hin
    obtain ⟨c, hcm, haddr, -⟩ := H.sound.listed _ hin
    rcases Context.mem_blocksOf_fill.mp hcm with hcm | hcm
    · cases List.mem_singleton.mp hcm
      exact hL (haddr ▸ hin)
    · refine hp.addr_ne hcm ?_ ?_ haddr <;> unfold Block.rest <;> dsimp only <;> omega
  obtain ⟨w₂, hpush, H₂, he₂⟩ := H₁.list (b := b.rest needed)
    (Context.mem_blocksOf_fill.mpr (.inl (by simp))) rfl hrest
  have he₁ : w.Edit (Shape.Reserved ⟨C.fill [b], L⟩) { w with memory := w.memory.cut b needed } :=
    ⟨hc.mono fun _ hw => Shape.reserved_of_territory hp hfree' hw, rfl⟩
  refine ⟨{ w₂ with log := w₂.log ++ [.split b.addr needed (b.span - 32 - needed - headerSize)] },
    ?_, H₂.logged _, (he₁.trans (he₂.mono fun _ hw => .of_refill hfree' hw)).trans ⟨.refl _ _, rfl⟩⟩
  have hend : (b.addr + b.span) % 16 = 0 := by omega
  unfold split
  rw [hspan, run_bind_ok (run_ofExcept_ok _ w), memory_bind, store_bind, store_bind, hnext,
    requireAligned_bind hend, store_bind, store_bind]
  exact (run_bind_ok hpush).trans (run_emit _ w₂)

theorem place_run (H : w.Has ⟨C.fill [b], L⟩) (hL : b.addr ∈ L) (hfree : b.tag = .free)
    (hal : needed % 16 = 0) (hmin : 16 ≤ needed) (hfit : needed + 32 ≤ b.span) :
    ∃ w', place b.addr needed w = .ok (payloadOf b.addr) w' ∧
      w'.Has (.serve C b needed (L.erase b.addr)) ∧
      w.Edit (Shape.Reserved ⟨C.fill [b], L⟩) w' := by
  have hp := H.sound.laid.placed_single
  have hfree' : ∀ c ∈ [b], c.tag = .free := List.forall_mem_singleton.mpr hfree
  obtain ⟨w₁, hunlist, H₁, he₁⟩ := H.unlist hL
  have hL₁ : b.addr ∉ L.erase b.addr := H.sound.nodup.not_mem_erase
  obtain ⟨-, -, -, -, hroom⟩ := H.block_sound (b := b) (World.Has.mem_fill List.mem_cons_self)
  have hsize : w₁.memory.payloadSize b.addr = .ok (b.span - 32) :=
    (H₁.marked (World.Has.mem_fill List.mem_cons_self)).payloadSize_eq hroom
  have hrest : Word.sub (b.span - 32) needed = .ok (b.span - 32 - needed) :=
    Word.sub_eq_ok_iff.mpr ⟨by omega, rfl⟩
  have htag : ∀ w₂ : World σ, w₂.Edit (Shape.Reserved ⟨C.fill [b], L⟩)
      { w₂ with memory := w₂.memory.markAllocated b.addr } := fun w₂ =>
    ⟨Memory.changesOnly_markAllocated.mono fun a (ha : a = b.addr + 16) =>
      Shape.reserved_of_territory hp hfree' (.inl (by omega)), rfl⟩
  have hchange : ∀ m : Memory, Memory.ChangesOnly
      (fun a => b.addr + 16 ≤ a ∧ a ≤ b.addr + 40) m (m.markAllocated b.addr) := fun m =>
    Memory.changesOnly_markAllocated.mono fun a (ha : a = b.addr + 16) => by omega
  unfold place Shape.serve
  rw [run_bind_ok hunlist, run_bind_ok (run_inspect_ok hsize), hrest,
    run_bind_ok (run_ofExcept_ok _ w₁)]
  by_cases hcut : needed + 64 < b.span
  · rw [if_pos (show headerSize < _ by unfold headerSize; omega), if_pos hcut]
    obtain ⟨w₂, hsplit, H₂, he₂⟩ := split_run H₁ hL₁ hfree hal hmin hcut
    rw [Context.fill_cons] at H₂
    refine ⟨_, (run_bind_ok hsplit).trans rfl, ?_,
      ((H.edit_reserved he₁).trans he₂).trans (htag w₂)⟩
    rw [Context.fill_cons]
    refine H₂.retag (b := b.front needed .free) ?_ Memory.tag_markAllocated (hchange _)
    rw [List.mem_cons, not_or]
    refine ⟨?_, hL₁⟩
    unfold Block.front Block.rest
    dsimp only
    omega
  · rw [if_neg (show ¬ headerSize < _ by unfold headerSize; omega), if_neg hcut]
    exact ⟨_, rfl, H₁.retag hL₁ Memory.tag_markAllocated (hchange _),
      (H.edit_reserved he₁).trans (htag w₁)⟩

end HeapM

end BoundaryTag
