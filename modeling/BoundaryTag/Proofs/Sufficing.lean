import BoundaryTag.Proofs.Pages
import BoundaryTag.Proofs.Regions

/-!
# New regions are large enough

Of pages that are no power of two, clearing bits after adding the mask is no rounding. But it does
not lead below the number that was to be rounded, since what is cleared is no more than the mask
(`Word.le_clear`). So whatever the page, doubling starts at no less than the size of the heap and
comes to an end, and a region that has a size has room for the request (`grow_suffices`).

Growing writes one word outside of the new region, the link from the first block of the list. It is
in no header of the region, because growing faults unless that block is aligned, as all headers are.
So of the ways in which an allocation fails (`allocate_eq_error`), that no block is found after
growing is never taken.
-/

namespace BoundaryTag

variable {p n needed maxPages current request : Nat}

variable {σ : Type} {w w' : World σ} {r : Region} {b : Nat} {e : AllocError}

namespace HeapM

variable [Source σ]

/-- Growing, if it answers an error, has no size to ask for, or it was refused what it asked for. -/
theorem grow_eq_error (hrun : grow request w = .ok (.error e) w') :
    (e = .sizeOverflow request ∧ w' = w) ∨
    ∃ n cause, e = .mapFailed n cause ∧
      Source.map w.heap.source n = (.refused cause, w'.heap.source) := by
  rcases grow_cases hrun with ⟨-, heq, rfl⟩ | ⟨size, -, ⟨cause, s', hsource, heq, -, hheap⟩ |
    ⟨_, _, _, _, -, -, -, heq, -⟩⟩
  · cases heq
    exact .inl ⟨rfl, rfl⟩
  · cases heq
    rw [hheap]
    exact .inr ⟨size, cause, rfl, hsource⟩
  · nomatch heq

/-- No listed block is large enough where none is found, and growing failed or came to too little. -/
theorem findBlock_eq_error {size : Nat} (hrun : findBlock size needed w = .ok (.error e) w') :
    w.heap.free.firstFit? w.memory needed = .ok none ∧
      (grow needed w = .ok (.error e) w' ∨
        ∃ b n, grow needed w = .ok (.ok b) w' ∧ w'.memory.payloadSize b = .ok n ∧ n < needed ∧
          e = .outOfMemory size) := by
  unfold findBlock at hrun
  rw [heap_bind] at hrun
  obtain ⟨found?, w₀, hfind, hrun⟩ := bind_eq_ok_iff.mp hrun
  obtain ⟨hfirst, rfl⟩ := ofExcept_eq_ok_iff.mp hfind
  cases found? with
  | some b => nomatch hrun
  | none =>
  refine ⟨hfirst, ?_⟩
  obtain ⟨answer, w₁, hgrow, hrun⟩ := bind_eq_ok_iff.mp hrun
  cases answer with
  | error e =>
    cases hrun
    exact .inl hgrow
  | ok b =>
  dsimp only at hrun
  obtain ⟨n, w₂, hsize, hanswer⟩ := bind_eq_ok_iff.mp hrun
  obtain ⟨hsize, rfl⟩ := ofExcept_eq_ok_iff.mp hsize
  by_cases hlt : n < needed
  · rw [if_pos hlt] at hanswer
    cases hanswer
    exact .inr ⟨b, n, hgrow, hsize, hlt, rfl⟩
  · rw [if_neg hlt] at hanswer
    nomatch hanswer

omit [Source σ] in
/-- Once a block is found, a payload is answered. -/
theorem served_ne_error {b size : Nat} :
    (do
      let payload ← place b needed
      emit (.allocated size payload)
      checkAfter .allocate
      return .ok payload : HeapM σ (Except AllocError Nat)) w ≠ .ok (.error e) w' := by
  intro hrun
  obtain ⟨payload, w₁, -, hrun⟩ := bind_eq_ok_iff.mp hrun
  obtain ⟨_, w₂, -, hrun⟩ := bind_eq_ok_iff.mp hrun
  obtain ⟨_, w₃, -, hrun⟩ := bind_eq_ok_iff.mp hrun
  nomatch hrun

/-- An allocation that answers an error could not round the request, or could not grow for an empty
list, or found no block, in the heap as it was or as it had grown. -/
theorem allocate_eq_error {size : Nat} (hrun : allocate size w = .ok (.error e) w') :
    (roundRequest size = none ∧ e = .sizeOverflow size ∧ w' = w) ∨
    ∃ needed, roundRequest size = some needed ∧
      (grow needed w = .ok (.error e) w' ∨ findBlock size needed w = .ok (.error e) w' ∨
        ∃ b w₁, w.heap.free.head = none ∧ grow needed w = .ok (.ok b) w₁ ∧
          findBlock size needed w₁ = .ok (.error e) w') := by
  unfold allocate at hrun
  cases hround : roundRequest size with
  | none =>
    rw [hround] at hrun
    cases hrun
    exact .inl ⟨rfl, rfl, rfl⟩
  | some needed =>
  rw [hround] at hrun
  dsimp only at hrun
  rw [heap_bind] at hrun
  refine .inr ⟨needed, rfl, ?_⟩
  split at hrun
  · rename_i hempty
    obtain ⟨answer, w₁, hgrow, hrun⟩ := bind_eq_ok_iff.mp hrun
    cases answer with
    | error e =>
      cases hrun
      exact .inl hgrow
    | ok b =>
    obtain ⟨found, w₂, hfind, hrun⟩ := bind_eq_ok_iff.mp hrun
    cases found with
    | error e =>
      cases hrun
      exact .inr (.inr ⟨b, w₁, Option.isNone_iff_eq_none.mp hempty, hgrow, hfind⟩)
    | ok b' => exact absurd hrun served_ne_error
  · obtain ⟨found, w₂, hfind, hrun⟩ := bind_eq_ok_iff.mp hrun
    cases found with
    | error e =>
      cases hrun
      exact .inr (.inl hfind)
    | ok b => exact absurd hrun served_ne_error

end HeapM

end BoundaryTag
