import BoundaryTag.Proofs.Program

/-!
# Programs that leave the books alone

Most programs work on memory and on the free list, and of the rest of the heap they read the
configuration and the regions at most. Such a program is `Plain`: with other books it does the same,
and leaves them as they are, whether it returns or faults. What else an operation does is to grow or
to give regions back, so a property of all its parts needs a proof for these only (`Compositional`).
-/

namespace BoundaryTag

variable {σ α β : Type}

/-- The world with the heap `h` for its own, but for the free list. -/
def World.withBooks (w : World σ) (h : Heap σ) : World σ :=
  { w with heap := { h with free := w.heap.free } }

namespace HeapM

/-- What comes of a program, in a world that was changed. -/
def onWorld (f : World σ → World σ) :
    EStateM.Result Fault (World σ) α → EStateM.Result Fault (World σ) α
  | .ok a w => .ok a (f w)
  | .error fault w => .error fault (f w)

/-- The program does the same if the heap has another source and other counts, and leaves these as
they are. -/
def Plain (p : HeapM σ α) : Prop :=
  ∀ w h, h.config = w.heap.config → h.regions = w.heap.regions →
    p (w.withBooks h) = onWorld (·.withBooks h) (p w)

variable {p : HeapM σ α} {w w' : World σ} {a : α} {fault : Fault}

namespace Plain

/-- Of the heap such a program changes the head of the free list only. -/
theorem heap_of_ok (hp : p.Plain) (h : p w = .ok a w') :
    w'.heap = { w.heap with free := w'.heap.free } := by
  have hown : p w = onWorld (·.withBooks w.heap) (p w) := hp w w.heap rfl rfl
  rw [h] at hown
  exact congrArg World.heap (EStateM.Result.ok.inj hown).2

theorem heap_of_error (hp : p.Plain) (h : p w = .error fault w') :
    w'.heap = { w.heap with free := w'.heap.free } := by
  have hown : p w = onWorld (·.withBooks w.heap) (p w) := hp w w.heap rfl rfl
  rw [h] at hown
  exact congrArg World.heap (EStateM.Result.error.inj hown).2

theorem bind {k : α → HeapM σ β} (hp : p.Plain) (hk : ∀ a, (k a).Plain) : (p >>= k).Plain := by
  intro w h hconfig hregions
  rw [run_bind, run_bind, hp w h hconfig hregions]
  cases hrun : p w with
  | error fault w₁ => rfl
  | ok a w₁ =>
    have hheap := hp.heap_of_ok hrun
    exact hk a w₁ h (by rw [hheap, hconfig]) (by rw [hheap, hregions])

end Plain

theorem plain_pure (a : α) : (pure a : HeapM σ α).Plain := fun _ _ _ _ => rfl

theorem plain_throw (fault : Fault) : (throw fault : HeapM σ α).Plain := fun _ _ _ _ => rfl

theorem plain_ofExcept (e : Except Fault α) : (ofExcept e : HeapM σ α).Plain :=
  fun _ _ _ _ => by cases e <;> rfl

theorem plain_memory : (memory : HeapM σ Memory).Plain := fun _ _ _ _ => rfl

theorem plain_clear : (update fun h => { h with free := {} } : HeapM σ Unit).Plain :=
  fun _ _ _ _ => rfl

theorem plain_memory_bind {k : Memory → HeapM σ α} (hk : ∀ m, (k m).Plain) :
    (memory >>= k).Plain := fun w => hk w.memory w

/-- Of the heap such a program may read what is not in the books. -/
theorem plain_heap_bind {k : Heap σ → HeapM σ α} (hk : ∀ h, (k h).Plain)
    (hsame : ∀ h h', h'.config = h.config → h'.regions = h.regions → h'.free = h.free →
      k h' = k h) : (heap >>= k).Plain := by
  intro w h hconfig hregions
  rw [heap_bind, heap_bind, hsame w.heap (w.withBooks h).heap hconfig hregions rfl]
  exact hk w.heap w h hconfig hregions

theorem plain_store (f : Memory → Memory) : (store f : HeapM σ Unit).Plain := fun _ _ _ _ => rfl

theorem plain_emit (e : Event) : (emit e : HeapM σ Unit).Plain := fun _ _ _ _ => rfl

theorem plain_inspect (f : Memory → Except Fault α) : (inspect f : HeapM σ α).Plain :=
  plain_memory_bind fun _ => plain_ofExcept _

theorem plain_editFree (edit : FreeList → EStateM Fault Memory FreeList) :
    (editFree edit : HeapM σ Unit).Plain := by
  intro w h _ _
  unfold editFree World.withBooks
  dsimp only
  cases edit w.heap.free w.memory <;> rfl

theorem plain_forM {l : List α} {f : α → HeapM σ Unit} (hf : ∀ a, (f a).Plain) :
    (l.forM f).Plain := by
  induction l with
  | nil => exact plain_pure ()
  | cons a l ih => exact (hf a).bind fun _ => ih

theorem plain_check : (check : HeapM σ (List Violation)).Plain := by
  refine plain_heap_bind (fun _ => plain_inspect _) ?_
  intro h h' _ hregions hfree
  rw [hregions, hfree]

theorem plain_checkAfter (op : CheckedOp) : (checkAfter op : HeapM σ Unit).Plain := by
  refine plain_heap_bind (fun h => ?_) fun h h' hconfig _ _ => by rw [hconfig]
  split
  · exact plain_check.bind fun _ => plain_forM fun _ => plain_emit _
  · exact plain_pure _

theorem plain_freeBlocks : (freeBlocks : HeapM σ Nat).Plain :=
  plain_heap_bind (fun _ => plain_inspect _) fun _ _ _ _ hfree => by rw [hfree]

theorem plain_split (b needed rest : Nat) : (split b needed rest : HeapM σ Unit).Plain :=
  (plain_ofExcept _).bind fun _ => plain_memory_bind fun _ => (plain_store _).bind fun _ =>
    (plain_store _).bind fun _ => (plain_ofExcept _).bind fun _ => (plain_store _).bind fun _ =>
      (plain_store _).bind fun _ => (plain_editFree _).bind fun _ => plain_emit _

theorem plain_place (b needed : Nat) : (place b needed : HeapM σ Nat).Plain := by
  refine (plain_editFree _).bind fun _ => (plain_inspect _).bind fun size =>
    (plain_ofExcept _).bind fun rest => ?_
  have hmark : (do store (·.markAllocated b); return payloadOf b : HeapM σ Nat).Plain :=
    (plain_store _).bind fun _ => plain_pure _
  dsimp only
  split
  · exact (plain_split _ _ _).bind fun _ => hmark
  · exact hmark

theorem plain_merge (survivor absorbed : Nat) : (merge survivor absorbed : HeapM σ Unit).Plain :=
  plain_memory_bind fun _ => (plain_ofExcept _).bind fun _ => (plain_editFree _).bind fun _ =>
    (plain_store _).bind fun _ => (plain_ofExcept _).bind fun _ => (plain_store _).bind fun _ =>
      plain_emit _

theorem plain_mergeNext (b : Nat) : (mergeNext b : HeapM σ Unit).Plain := by
  refine plain_memory_bind fun m => (plain_ofExcept _).bind fun _ => ?_
  split
  · exact plain_merge _ _
  · exact plain_pure _

theorem plain_mergePrevious (b : Nat) : (mergePrevious b : HeapM σ Nat).Plain := by
  apply plain_memory_bind
  intro m
  dsimp only
  split
  · exact plain_pure _
  refine (plain_ofExcept _).bind fun _ => ?_
  split
  · exact plain_pure _
  · exact (plain_merge _ _).bind fun _ => plain_pure _

theorem plain_shouldReclaim (b : Nat) : (shouldReclaim b : HeapM σ Bool).Plain := by
  refine plain_heap_bind (fun h => ?_) fun h h' hconfig _ hfree => by rw [hconfig, hfree]
  dsimp only
  split
  · exact plain_pure _
  · exact plain_pure _
  · split
    · exact plain_pure _
    · exact (plain_inspect _).bind fun _ => plain_pure _

theorem plain_layOut (r : Region) : (layOut r : HeapM σ Unit).Plain :=
  (plain_ofExcept _).bind fun _ => (plain_store _).bind fun _ => (plain_ofExcept _).bind fun _ =>
    (plain_store _).bind fun _ => (plain_store _).bind fun _ => plain_editFree _

/-! ### Properties of operations -/

/-- A property that plain programs have, and that a program has if its parts have it. -/
structure Compositional (S : {α : Type} → HeapM σ α → Prop) : Prop where
  plain {α : Type} {p : HeapM σ α} : p.Plain → S p
  bind {α β : Type} {p : HeapM σ α} {k : α → HeapM σ β} : S p → (∀ a, S (k a)) → S (p >>= k)
  heap_bind {α : Type} {k : Heap σ → HeapM σ α} : (∀ h, S (k h)) →
    (∀ h h', h'.config = h.config → h'.regions = h.regions → h'.free = h.free → k h' = k h) →
    S (heap >>= k)

namespace Compositional

variable {S : {α : Type} → HeapM σ α → Prop}

theorem plain_bind (hS : Compositional S) {k : α → HeapM σ β} (hp : p.Plain)
    (hk : ∀ a, S (k a)) : S (p >>= k) := hS.bind (hS.plain hp) hk

variable [Source σ]

theorem findBlock (hS : Compositional S) {size needed : Nat} (hgrow : S (grow needed)) :
    S (findBlock size needed) := by
  refine hS.heap_bind (fun h => hS.plain_bind (plain_inspect _) fun found => ?_)
    fun h h' _ _ hfree => by rw [hfree]
  cases found with
  | some b => exact hS.plain (plain_pure _)
  | none =>
  refine hS.bind hgrow fun grown => hS.plain ?_
  cases grown with
  | error e => exact plain_pure _
  | ok b =>
    refine (plain_inspect _).bind fun n => ?_
    split <;> exact plain_pure _

/-- An allocation does nothing to the books but grow. -/
theorem allocate (hS : Compositional S) (hgrow : ∀ request, S (grow request)) (size : Nat) :
    S (allocate size) := by
  -- after a block was looked for, the rest is plain
  have hfind : ∀ {needed : Nat} {k : Except AllocError Nat → HeapM σ (Except AllocError Nat)},
      (∀ e, (k (.error e)).Plain) → (∀ b, (k (.ok b)).Plain) →
      S (HeapM.findBlock size needed >>= k) := by
    intro needed k herror hok
    refine hS.bind (hS.findBlock (hgrow needed)) fun found => hS.plain ?_
    cases found with
    | error e => exact herror e
    | ok b => exact hok b
  have hserve : ∀ b needed, (do
      let payload ← place b needed
      emit (.allocated size payload)
      checkAfter .allocate
      return .ok payload : HeapM σ (Except AllocError Nat)).Plain := fun b needed =>
    (plain_place b needed).bind fun _ => (plain_emit _).bind fun _ =>
      (plain_checkAfter .allocate).bind fun _ => plain_pure _
  unfold HeapM.allocate
  cases roundRequest size with
  | none => exact hS.plain (plain_pure _)
  | some needed =>
  refine hS.heap_bind (fun h => ?_) fun h h' _ _ hfree => by rw [hfree]
  dsimp only
  split
  · refine hS.bind (hgrow needed) fun grown => ?_
    cases grown with
    | error e => exact hS.plain (plain_pure _)
    | ok b => exact hfind (fun _ => plain_pure _) (hserve · needed)
  · exact hfind (fun _ => plain_pure _) (hserve · needed)

/-- A release does nothing to the books but give back a region. -/
theorem release (hS : Compositional S) (hregion : ∀ sentinel, S (releaseRegion sentinel))
    (payload : Nat) : S (release payload) := by
  have hreclaim : ∀ b, S (reclaim b) := by
    intro b
    refine hS.plain_bind plain_memory fun m => ?_
    split
    · refine hS.plain_bind (plain_ofExcept _) fun _ => ?_
      split
      · refine hS.plain_bind (plain_shouldReclaim b) fun go => ?_
        cases go with
        | false => exact hS.plain (plain_pure _)
        | true => exact hS.plain_bind (plain_editFree _) fun _ => hregion b
      · exact hS.plain (plain_pure _)
    · exact hS.plain (plain_pure _)
  exact hS.plain_bind (plain_emit _) fun _ => hS.plain_bind (plain_ofExcept _) fun _ =>
    hS.plain_bind (plain_store _) fun _ => hS.plain_bind (plain_editFree _) fun _ =>
      hS.plain_bind (plain_mergeNext _) fun _ => hS.plain_bind (plain_mergePrevious _) fun b =>
        hS.bind (hreclaim b) fun _ => hS.plain (plain_checkAfter _)

theorem reset (hS : Compositional S) (hall : S releaseAll) : S reset :=
  hS.bind hall fun _ => hS.plain (.bind plain_clear fun _ => plain_emit _)

end Compositional

end HeapM

end BoundaryTag
