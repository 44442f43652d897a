import Mathlib.Logic.Relation
import BoundaryTag.Proofs.Arenas
import BoundaryTag.Proofs.Books

/-!
# Accounting for regions

Nothing that a caller does to memory, and no release of what was never allocated, gets the books of
a heap wrong. A `Disturbed` step is any operation that returns, or any change of memory. After any
number of them, what the heap counts and lists is what the source was asked for (`Accounts`), and
giving up all regions leaves nothing mapped.
-/

namespace BoundaryTag

variable {σ : Type} [Source σ]

/-- One step of a world in which nothing is held to a rule. -/
inductive Disturbed : World σ → World σ → Prop
  | allocate {w w' : World σ} {size : Nat} {answer : Except AllocError Nat} :
    HeapM.allocate size w = .ok answer w' → Disturbed w w'
  /-- Any address is released. -/
  | release {w w' : World σ} {payload : Nat} : HeapM.release payload w = .ok () w' → Disturbed w w'
  | reset {w w' : World σ} : HeapM.reset w = .ok () w' → Disturbed w w'
  /-- Memory changes, headers and all. -/
  | overwrite {w : World σ} (memory : Memory) : Disturbed w { w with memory }

/-- The books of the heap agree with the calls that its source has answered. -/
structure Accounts (w : World (Recorder σ)) : Prop where
  /-- A range that was given back was the one range with its base that was mapped then. -/
  unmapped : ∀ r pre, (.unmapped r :: pre) <:+ w.heap.source.calls →
    (Call.live pre).filter (·.base = r.base) = [r]
  /-- No range was given back more often than it was mapped. -/
  once : ∀ r, w.heap.source.calls.count (.unmapped r) +
    (Call.live w.heap.source.calls).count r = w.heap.source.calls.count (.mapped r)
  regions : w.heap.regions.Perm (Call.live w.heap.source.calls)
  nodup : w.heap.regions.Nodup
  stats : w.heap.stats = {
    heapSize := Region.totalSize (Call.live w.heap.source.calls)
    regions := Call.maps w.heap.source.calls - Call.unmaps w.heap.source.calls
    maps := Call.maps w.heap.source.calls
    unmaps := Call.unmaps w.heap.source.calls }

variable {After : σ → List Call → Prop} {cs : List Call}

theorem Disturbed.booked (hd : Source.Disjoint After) {w w' : World σ} (h : Disturbed w w')
    (hb : w.heap.Booked After cs) : ∃ cs', w'.heap.Booked After cs' := by
  cases h with
  | allocate hrun => exact HeapM.allocate_booked hd hb hrun
  | release hrun => exact HeapM.release_booked hd hb hrun
  | reset hrun =>
    obtain ⟨cs', hb', -⟩ := HeapM.reset_booked hd hb hrun
    exact ⟨cs', hb'⟩
  | overwrite memory => exact ⟨cs, hb⟩

omit [Source σ] in
theorem Accounts.of_booked {w : World (Recorder σ)}
    (hb : w.heap.Booked (Recorder.Wrote After) cs) : Accounts w := by
  have hcalls : w.heap.source.calls = cs := hb.tracked.after.1
  have hlength := hb.tracked.orderly.length_live
  have hlive := hb.tracked.live.length_eq
  refine ⟨fun r pre hpre => ?_, fun r => ?_, ?_, ?_, ?_⟩ <;> try rw [hcalls]
  · rw [hcalls] at hpre
    exact (hb.tracked.orderly.of_suffix hpre).1
  · exact (hb.tracked.orderly.count_mapped r).symm
  · exact hb.tracked.live.symm
  · exact Region.nodup_of_apart hb.tracked.positive hb.tracked.apart
  · unfold Heap.stats
    rw [hb.heapSize, hb.tracked.maps, hb.tracked.unmaps, Region.totalSize_perm hb.tracked.live,
      ← hlive, ← hlength, Nat.add_sub_cancel]

/-- However a heap is used and its memory is overwritten, each range that it gives back is mapped
and is the only one with its base, its regions are what is mapped, its counts are those of its
source's calls, and starting over and being dropped return and leave nothing mapped. -/
theorem accounts_of_disturbed (hd : Source.Disjoint After) {config : Config} {source : σ}
    {memory : Memory} {w : World (Recorder σ)} (hs : After source [])
    (h : Relation.ReflTransGen Disturbed (World.fresh config { inner := source } memory) w) :
    Accounts w ∧
      (∃ w', HeapM.reset w = .ok () w' ∧ Accounts w' ∧ Call.live w'.heap.source.calls = []) ∧
      ∃ w', HeapM.releaseAll w = .ok () w' ∧ Accounts w' ∧
        Call.live w'.heap.source.calls = [] := by
  have hd' := Recorder.disjoint hd
  have hbooked : ∃ cs, w.heap.Booked (Recorder.Wrote After) cs := by
    induction h with
    | refl => exact ⟨[], Heap.booked_new ⟨rfl, hs⟩⟩
    | tail _ hstep ih =>
      obtain ⟨cs, hb⟩ := ih
      exact hstep.booked hd' hb
  obtain ⟨cs, hb⟩ := hbooked
  refine ⟨.of_booked hb, ?_, ?_⟩
  · have hrun := HeapM.reset_run hb.countable
    obtain ⟨cs', hb', hnone⟩ := HeapM.reset_booked hd' hb hrun
    have haccounts := Accounts.of_booked hb'
    exact ⟨_, hrun, haccounts, (hnone ▸ haccounts.regions).nil_eq.symm⟩
  · have hrun := HeapM.releaseAll_run hb.countable
    obtain ⟨cs', hb', hnone⟩ := HeapM.releaseAll_booked hd' hb hrun
    have haccounts := Accounts.of_booked hb'
    exact ⟨_, hrun, haccounts, (hnone ▸ haccounts.regions).nil_eq.symm⟩

/-- A block that is released twice takes its region out of the heap once. -/
theorem accounts_after_double_release : ∃ w : World (Recorder Arena),
    Relation.ReflTransGen Disturbed (World.fresh {} { inner := { base := 0x10000 } } ∅) w ∧
      w.heap.source.calls = [.unmapped { base := 0x10000, size := 0x1000 },
        .mapped { base := 0x10000, size := 0x1000 }] ∧ Accounts w := by
  have hserves : Arena.Serves { base := 0x10000 } [] :=
    Arena.serves_new ⟨12, by decide, by decide, rfl⟩ rfl (by decide) (by decide) rfl rfl
  obtain ⟨w, hrun, hcalls⟩ : ∃ w : World (Recorder Arena),
      Relation.ReflTransGen Disturbed (World.fresh {} { inner := { base := 0x10000 } } ∅) w ∧
        w.heap.source.calls = [.unmapped { base := 0x10000, size := 0x1000 },
          .mapped { base := 0x10000, size := 0x1000 }] :=
    ⟨_, .tail (.tail (.tail .refl
      (.allocate (rfl : HeapM.allocate 100 _ = .ok _ _)))
      (.release (rfl : HeapM.release 0x10020 _ = .ok () _)))
      (.release (rfl : HeapM.release 0x10020 _ = .ok () _)), rfl⟩
  exact ⟨w, hrun, hcalls, (accounts_of_disturbed Arena.contract.toDisjoint hserves hrun).1⟩

end BoundaryTag
