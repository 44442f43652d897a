import BoundaryTag.Proofs.Verdicts
import BoundaryTag.Proofs.Worlds

/-!
# Checking a heap that is in order

The words of a settled heap are in order (`Settled.passes`), so a check of it finds nothing and
cannot fault (`check_run`). What the last headers of the regions say does not matter to this: it is
enough that memory is `Legible`.
-/

namespace BoundaryTag

variable {m : Memory} {t : Tract} {bs : List Block} {a stop x : Nat} {A : Shape}

/-- Marked blocks that tile what is before a header form a thread. -/
theorem Memory.Threaded.of_tiles (htiles : Tiles a bs stop) (hm : ∀ b ∈ bs, b.Marked m) :
    m.Threaded stop a (bs.map Block.addr) := by
  induction bs generalizing a with
  | nil => exact htiles
  | cons b bs ih =>
    obtain ⟨rfl, hwhole, hroom, htail⟩ := htiles
    obtain ⟨hb, hbs⟩ := List.forall_mem_cons.mp hm
    have hspan := hb.forward
    refine ⟨rfl, by omega, by omega, ?_, ?_⟩
    · rw [hspan]
      exact hb.backward
    · rw [hspan]
      exact ih htail hbs

namespace Shape

/-- Memory describes the blocks and links the free list, whatever the last headers say. -/
structure Legible (A : Shape) (m : Memory) : Prop where
  first : ∀ t ∈ A.tracts, m.backward t.region.base = 0
  blocks : ∀ t ∈ A.tracts, ∀ b ∈ t.blocks, b.Marked m
  linked : Linked m none A.free none

theorem In.legible (hi : A.In m) : A.Legible m :=
  ⟨fun t ht => (hi.marked t ht).first, fun t ht => (hi.marked t ht).blocks, hi.linked⟩

/-- The headers of a region are in order. -/
theorem Settled.ordered (hs : A.Settled) (hl : A.Legible m) (ht : t ∈ A.tracts) :
    Check.Ordered m t.region (t.blocks.map Block.addr) where
  aligned := (hs.laid.sound t ht).aligned
  first := hl.first t ht
  threaded := .of_tiles (hs.laid.sound t ht).tiles (hl.blocks t ht)
  parted := by
    rw [List.isChain_map]
    apply (hs.coalesced t ht).imp_of_mem_imp
    intro b c hb hc hparted
    unfold Memory.Parted
    rw [(hl.blocks t ht b hb).tag, (hl.blocks t ht c hc).tag]
    exact hparted

/-- The free blocks are on the free list. -/
theorem Settled.mem_free (hs : A.Settled) (hl : A.Legible m)
    (hx : Check.FreeBlock m A.regions x) : x ∈ A.free := by
  obtain ⟨r, hr, bs, hbs, hx, hfree⟩ := hx
  obtain ⟨t, ht, rfl⟩ := List.mem_map.mp hr
  rw [hbs.threaded.unique (hs.ordered hl ht).threaded] at hx
  obtain ⟨b, hb, rfl⟩ := List.mem_map.mp hx
  have htag := (hl.blocks t ht b hb).tag
  exact hs.complete b (mem_blocksOf.mpr ⟨t, ht, hb⟩) (htag.symm.trans hfree)

theorem Settled.listed_free (hs : A.Settled) (hl : A.Legible m) :
    Check.Listed m A.regions [] A.free.head? A.free where
  head := rfl
  aligned x hx := by
    obtain ⟨b, hb, rfl, -⟩ := hs.listed x hx
    have haligned := hs.laid.sound_of_mem hb
    omega
  linked := hl.linked
  nodup := hs.nodup
  fresh _ _ := List.not_mem_nil
  spanned x hx := by
    obtain ⟨b, hb, rfl, -⟩ := hs.listed x hx
    have hroom := hs.laid.sound_of_mem hb
    exact hs.spans_of_mem hb (Nat.le_refl _) (by omega)
  free x hx := by
    obtain ⟨b, hb, rfl, htag⟩ := hs.listed x hx
    obtain ⟨t, ht, hbt⟩ := mem_blocksOf.mp hb
    exact (hl.blocks t ht b hbt).tag.trans htag

/-- The words of a settled heap are in order. -/
theorem Settled.passes (hs : A.Settled) (hl : A.Legible m) :
    Check.Passes m A.regions A.free.head? where
  regions r hr := by
    obtain ⟨t, ht, rfl⟩ := List.mem_map.mp hr
    exact ⟨_, hs.ordered hl ht⟩
  free := ⟨A.free, hs.listed_free hl, fun _ hx => hs.mem_free hl hx⟩

theorem Sound.bounded (hs : A.Sound) : ∀ r ∈ A.regions, r.base + r.size < Word.limit := by
  intro r hr
  obtain ⟨t, ht, rfl⟩ := List.mem_map.mp hr
  exact (hs.laid.sound t ht).bounded

/-- The check of a settled heap finds nothing. -/
theorem Settled.check_run (hs : A.Settled) (hl : A.Legible m) :
    check m A.regions ⟨A.free.head?⟩ = .ok [] :=
  (hs.passes hl).check_eq hs.bounded

end Shape

namespace HeapM

variable {σ : Type} {w w' : World σ}

theorem check_eq_ok_iff {violations : List Violation} :
    check w = .ok violations w' ↔
      BoundaryTag.check w.memory w.heap.regions w.heap.free = .ok violations ∧ w' = w := by
  unfold check
  rw [heap_bind]
  exact ofExcept_eq_ok_iff

theorem check_eq {violations : List Violation}
    (h : BoundaryTag.check w.memory w.heap.regions w.heap.free = .ok violations) :
    check w = .ok violations w := check_eq_ok_iff.mpr ⟨h, rfl⟩

theorem check_run (H : w.Has A) (hs : A.Settled) : check w = .ok [] w := by
  apply check_eq
  rw [H.regions, H.free]
  exact hs.check_run H.inMemory.legible

theorem checkAfter_run (H : w.Has A) (hs : A.Settled) (op : CheckedOp) :
    checkAfter op w = .ok () w := by
  unfold checkAfter
  rw [heap_bind]
  split
  · rw [run_bind_ok (check_run H hs)]
    rfl
  · rfl

theorem forM_emit (vs : List Violation) (f : Violation → Event) :
    (vs.forM fun v => emit (f v) : HeapM σ Unit) w =
      .ok () { w with log := w.log ++ vs.map f } := by
  induction vs generalizing w with
  | nil => simp
  | cons v vs ih =>
    refine (emit_bind (f v) _ w).trans (ih.trans ?_)
    simp

/-- A check that is made after an operation only logs what it finds. -/
theorem checkAfter_eq_ok {op : CheckedOp} (hrun : checkAfter op w = .ok () w') :
    w'.memory = w.memory ∧ w'.heap = w.heap := by
  unfold checkAfter at hrun
  rw [heap_bind] at hrun
  split at hrun
  · obtain ⟨violations, w₁, hcheck, hlog⟩ := bind_eq_ok_iff.mp hrun
    obtain ⟨-, rfl⟩ := check_eq_ok_iff.mp hcheck
    cases (forM_emit violations _).symm.trans hlog
    exact ⟨rfl, rfl⟩
  · cases hrun
    exact ⟨rfl, rfl⟩

/-- After an operation, only the check itself can fault. -/
theorem check_of_checkAfter_eq_error {op : CheckedOp} {fault : Fault}
    (hrun : checkAfter op w = .error fault w') :
    BoundaryTag.check w.memory w.heap.regions w.heap.free = .error fault := by
  unfold checkAfter at hrun
  rw [heap_bind] at hrun
  split at hrun
  · unfold check at hrun
    rw [run_bind, heap_bind, run_inspect] at hrun
    cases hcheck : BoundaryTag.check w.memory w.heap.regions w.heap.free with
    | ok violations =>
      rw [hcheck] at hrun
      cases (forM_emit violations _).symm.trans hrun
    | error fault =>
      rw [hcheck] at hrun
      cases hrun
      rfl
  · cases hrun

theorem freeBlocks_run (H : w.Has A) : freeBlocks w = .ok A.free.length w := by
  have hlist := H.sound.listable H.inMemory
  unfold freeBlocks
  rw [heap_bind, H.free]
  exact run_inspect_ok
    (FreeList.lengthFrom_run hlist H.inMemory.linked (FreeList.length_le_maxLength hlist))

end HeapM

end BoundaryTag
