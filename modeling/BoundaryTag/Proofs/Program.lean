import BoundaryTag.Heap.Release

/-!
# Running programs

How a program with faults runs from a given state. A program that returns is followed step by step
with `run_bind_ok`; what is known of a program that did return is taken apart with
`bind_eq_ok_iff`.
-/

namespace BoundaryTag

section
variable {s α β : Type} {x x' : s}

theorem ok_bind (a : α) (k : α → Except Fault β) : (Except.ok a >>= k) = k a := rfl

theorem except_bind_eq_ok_iff {e : Except Fault α} {k : α → Except Fault β} {b : β} :
    (e >>= k) = .ok b ↔ ∃ a, e = .ok a ∧ k a = .ok b := by
  cases e with
  | ok a => exact ⟨fun h => ⟨a, rfl, h⟩, fun ⟨_, e, h⟩ => by cases e; exact h⟩
  | error f => exact ⟨nofun, fun ⟨_, e, _⟩ => nomatch e⟩

theorem run_bind (p : EStateM Fault s α) (k : α → EStateM Fault s β) (x : s) :
    (p >>= k) x = match p x with
      | .ok a x' => k a x'
      | .error f x' => .error f x' := by
  show EStateM.bind p k x = _
  unfold EStateM.bind
  cases p x <;> rfl

theorem run_bind_ok {p : EStateM Fault s α} {k : α → EStateM Fault s β} {a : α}
    (h : p x = .ok a x') : (p >>= k) x = k a x' := by
  rw [run_bind, h]

theorem run_bind_error {p : EStateM Fault s α} {k : α → EStateM Fault s β} {f : Fault}
    (h : p x = .error f x') : (p >>= k) x = .error f x' := by
  rw [run_bind, h]

theorem bind_eq_ok_iff {p : EStateM Fault s α} {k : α → EStateM Fault s β} {b : β} :
    (p >>= k) x = .ok b x' ↔ ∃ a x₁, p x = .ok a x₁ ∧ k a x₁ = .ok b x' := by
  rw [run_bind]
  cases p x with
  | ok a x₁ => exact ⟨fun hk => ⟨a, x₁, rfl, hk⟩, fun ⟨_, _, e, hk⟩ => by cases e; exact hk⟩
  | error f x₁ => exact ⟨nofun, fun ⟨_, _, e, _⟩ => nomatch e⟩

@[simp] theorem run_pure (a : α) (x : s) : (pure a : EStateM Fault s α) x = .ok a x := rfl

@[simp] theorem run_get (x : s) : (get : EStateM Fault s s) x = .ok x x := rfl

@[simp] theorem run_modify (f : s → s) (x : s) :
    (modify f : EStateM Fault s Unit) x = .ok () (f x) := rfl

@[simp] theorem run_ofExcept_ok (a : α) (x : s) :
    (ofExcept (.ok a : Except Fault α) : EStateM Fault s α) x = .ok a x := rfl

@[simp] theorem run_ofExcept_error (f : Fault) (x : s) :
    (ofExcept (.error f : Except Fault α) : EStateM Fault s α) x = .error f x := rfl

theorem ofExcept_eq_ok_iff {e : Except Fault α} {a : α} :
    (ofExcept e : EStateM Fault s α) x = .ok a x' ↔ e = .ok a ∧ x' = x := by
  cases e with
  | ok b =>
    rw [run_ofExcept_ok]
    exact ⟨fun h => by cases h; exact ⟨rfl, rfl⟩, fun ⟨h, e⟩ => by cases h; rw [e]⟩
  | error f => exact ⟨nofun, fun h => nomatch h.1⟩

theorem ofExcept_bind_eq_ok_iff {e : Except Fault α} {k : α → EStateM Fault s β} {b : β} :
    (ofExcept e >>= k) x = .ok b x' ↔ ∃ a, e = .ok a ∧ k a x = .ok b x' := by
  rw [bind_eq_ok_iff]
  constructor
  · rintro ⟨a, x₁, hrun, hk⟩
    obtain ⟨he, rfl⟩ := ofExcept_eq_ok_iff.mp hrun
    exact ⟨a, he, hk⟩
  · rintro ⟨a, he, hk⟩
    exact ⟨a, x, ofExcept_eq_ok_iff.mpr ⟨he, rfl⟩, hk⟩

end

namespace HeapM

variable {σ α : Type} {w : World σ}

@[simp] theorem run_emit (e : Event) (w : World σ) :
    emit e w = .ok () { w with log := w.log ++ [e] } := rfl

/-! A step that cannot fault only hands the world on. -/

theorem memory_bind (k : Memory → HeapM σ α) (w : World σ) :
    (memory >>= k) w = k w.memory w := rfl

theorem heap_bind (k : Heap σ → HeapM σ α) (w : World σ) : (heap >>= k) w = k w.heap w := rfl

theorem store_bind (f : Memory → Memory) (k : Unit → HeapM σ α) (w : World σ) :
    (store f >>= k) w = k () { w with memory := f w.memory } := rfl

theorem update_bind (f : Heap σ → Heap σ) (k : Unit → HeapM σ α) (w : World σ) :
    (update f >>= k) w = k () { w with heap := f w.heap } := rfl

/-- Where there can be a header, it is gone on. -/
theorem requireAligned_bind {a : Nat} (h : a % 16 = 0) (k : Unit → HeapM σ α) (w : World σ) :
    (ofExcept (requireAligned a) >>= k) w = k () w := by
  rw [requireAligned_run h]
  rfl

theorem emit_bind (e : Event) (k : Unit → HeapM σ α) (w : World σ) :
    (emit e >>= k) w = k () { w with log := w.log ++ [e] } := rfl

theorem run_inspect (f : Memory → Except Fault α) (w : World σ) :
    inspect f w = match f w.memory with
      | .ok a => .ok a w
      | .error fault => .error fault w := by
  show (ofExcept (f w.memory) : HeapM σ α) w = _
  cases f w.memory <;> rfl

theorem run_inspect_ok {f : Memory → Except Fault α} {a : α} (h : f w.memory = .ok a) :
    inspect f w = .ok a w := by
  rw [run_inspect, h]

theorem run_editFree_ok {edit : FreeList → EStateM Fault Memory FreeList} {l : FreeList}
    {m : Memory} (h : edit w.heap.free w.memory = .ok l m) :
    editFree edit w = .ok () { w with memory := m, heap := { w.heap with free := l } } := by
  unfold editFree
  rw [h]

theorem editFree_eq_ok {edit : FreeList → EStateM Fault Memory FreeList} {w' : World σ}
    (h : editFree edit w = .ok () w') : ∃ l m, edit w.heap.free w.memory = .ok l m ∧
      w' = { w with memory := m, heap := { w.heap with free := l } } := by
  unfold editFree at h
  split at h
  · cases h
    exact ⟨_, _, ‹_›, rfl⟩
  · nomatch h

end HeapM

end BoundaryTag
