import BoundaryTag.Proofs.Program

/-!
# Programs without walks

Only a walk through memory can fail to end. A program that walks nowhere faults for other reasons
(`Halts`), and so do programs that are put together of such ones. Giving back a region is one of
them: it reads the links and the headers of the block and of its neighbours.
-/

namespace BoundaryTag

variable {τ σ α β : Type} {p : EStateM Fault τ α} {k : α → EStateM Fault τ β} {m : Memory}
  {b n : Nat}

/-- A fault of the program is not that a walk has no end. -/
def Halts (p : EStateM Fault τ α) : Prop := ∀ x x', p x ≠ .error .endlessWalk x'

theorem Halts.bind (hp : Halts p) (hk : ∀ a, Halts (k a)) : Halts (p >>= k) := by
  intro x x' hrun
  rw [run_bind] at hrun
  split at hrun
  · exact hk _ _ _ hrun
  · cases hrun
    exact hp _ _ ‹_›

theorem halts_pure (a : α) : Halts (pure a : EStateM Fault τ α) := fun _ _ => nofun

theorem halts_throw {fault : Fault} (hfault : fault ≠ .endlessWalk) :
    Halts (throw fault : EStateM Fault τ α) := by
  intro x x' hrun
  cases hrun
  exact hfault rfl

theorem halts_get : Halts (get : EStateM Fault τ τ) := fun _ _ => nofun

theorem halts_modify (f : τ → τ) : Halts (modify f : EStateM Fault τ Unit) := fun _ _ => nofun

theorem halts_ofExcept {e : Except Fault α} (he : e ≠ .error .endlessWalk) :
    Halts (ofExcept e : EStateM Fault τ α) := by
  intro x x' hrun
  cases e with
  | ok a => nomatch hrun
  | error fault =>
    cases hrun
    exact he rfl

/-! ### Reading -/

theorem add_ne_endlessWalk : Word.add b n ≠ .error .endlessWalk := by
  unfold Word.add
  split <;> nofun

theorem sub_ne_endlessWalk : Word.sub b n ≠ .error .endlessWalk := by
  unfold Word.sub
  split <;> nofun

theorem requireAligned_ne_endlessWalk : requireAligned b ≠ .error .endlessWalk := by
  unfold requireAligned
  split <;> nofun

namespace Memory

theorem requireFree_ne_endlessWalk : m.requireFree b ≠ .error .endlessWalk := by
  unfold requireFree requireAligned
  split
  · show (if m.isAllocated b then _ else _) ≠ _
    split <;> nofun
  · nofun

theorem links_ne_endlessWalk : m.links b ≠ .error .endlessWalk := by
  have hfree : m.requireFree b ≠ .error .endlessWalk := requireFree_ne_endlessWalk
  unfold links
  cases hrun : m.requireFree b with
  | ok _ => nofun
  | error fault =>
    rw [hrun] at hfree
    rintro ⟨⟩
    exact hfree rfl

end Memory

theorem FreeList.halts_remove (l : FreeList) : Halts (l.remove b) := by
  have hedit {k : EStateM Fault Memory FreeList} (c : Nat) (f : Memory → Memory) (hk : Halts k) :
      Halts (do
        ofExcept ((← get).requireFree c)
        modify f
        k) :=
    halts_get.bind fun _ => (halts_ofExcept Memory.requireFree_ne_endlessWalk).bind fun _ =>
      (halts_modify f).bind fun _ => hk
  refine halts_get.bind fun m => (halts_ofExcept Memory.links_ne_endlessWalk).bind ?_
  rintro ⟨next, prev⟩
  cases prev with
  | none =>
    cases next with
    | none => exact halts_pure _
    | some n => exact hedit n _ (halts_pure _)
  | some q =>
    cases next with
    | none => exact hedit q _ (halts_pure _)
    | some n => exact hedit q _ (hedit n _ (halts_pure _))

namespace HeapM

theorem halts_memory : Halts (memory : HeapM σ Memory) := fun _ _ => nofun

theorem halts_heap : Halts (heap : HeapM σ (Heap σ)) := fun _ _ => nofun

theorem halts_update (f : Heap σ → Heap σ) : Halts (update f : HeapM σ Unit) := fun _ _ => nofun

theorem halts_emit (e : Event) : Halts (emit e : HeapM σ Unit) := fun _ _ => nofun

theorem halts_editFree {edit : FreeList → EStateM Fault Memory FreeList} (h : ∀ l, Halts (edit l)) :
    Halts (editFree edit : HeapM σ Unit) := by
  intro w w' hrun
  unfold editFree at hrun
  split at hrun
  · nomatch hrun
  · cases hrun
    exact h _ _ _ ‹_›

theorem halts_shouldReclaim : Halts (shouldReclaim b : HeapM σ Bool) := by
  refine halts_heap.bind fun h => ?_
  dsimp only
  cases h.config.reclaim with
  | always | never => exact halts_pure _
  | keepLastFree =>
    dsimp only
    split
    · exact halts_pure _
    · exact (halts_memory.bind fun _ => halts_ofExcept Memory.links_ne_endlessWalk).bind fun _ =>
        halts_pure _

variable [Source σ]

theorem halts_releaseRegion : Halts (releaseRegion b : HeapM σ Unit) := by
  have hcount : Halts (countUnmap : HeapM σ Unit) :=
    halts_heap.bind fun _ => (halts_ofExcept add_ne_endlessWalk).bind fun _ => halts_update _
  have hunmap : ∀ r : Region, Halts (do
      unmapRange r
      let heapSize ← ofExcept (Word.sub (← heap).heapSize r.size)
      update fun h => { h with heapSize }
      countUnmap
      emit (.unmapped r.base r.size heapSize) : HeapM σ Unit) := fun r =>
    (halts_update _).bind fun _ => halts_heap.bind fun _ =>
      (halts_ofExcept sub_ne_endlessWalk).bind fun _ => (halts_update _).bind fun _ =>
        hcount.bind fun _ => halts_emit _
  refine halts_heap.bind fun h => ?_
  dsimp only
  cases h.regions.find? (·.sentinel = b) with
  | none => exact halts_emit _
  | some r =>
  refine (halts_update _).bind fun _ => halts_memory.bind fun m =>
    (halts_ofExcept add_ne_endlessWalk).bind fun span => ?_
  split
  · have hmismatch : Fault.spanMismatch span r.size ≠ .endlessWalk := nofun
    exact (halts_throw hmismatch).bind fun _ => hunmap r
  · exact hunmap r

theorem halts_reclaim : Halts (reclaim b : HeapM σ Unit) := by
  refine halts_memory.bind fun m => ?_
  split
  · refine (halts_ofExcept requireAligned_ne_endlessWalk).bind fun _ => ?_
    split
    · refine halts_shouldReclaim.bind fun go => ?_
      cases go with
      | false => exact halts_pure _
      | true => exact (halts_editFree FreeList.halts_remove).bind fun _ => halts_releaseRegion
    · exact halts_pure _
  · exact halts_pure _

end HeapM

end BoundaryTag
