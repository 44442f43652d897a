import Mathlib.Algebra.Group.Nat.Defs
import BoundaryTag.Proofs.Tiling
import BoundaryTag.Source.Basic

/-!
# Calls to a source

What a source promises is stated over the calls made to it: `After s cs` says that `s` is the state
of a source after the calls `cs`, the latest of which is first. `Source.Disjoint` is what keeping
books needs, `Source.Contract` is all that a heap relies on. A `Recorder` writes the calls down.
-/

namespace BoundaryTag

/-- A call to a source that was answered. -/
inductive Call where
  | mapped (r : Region)
  | refused (size : Nat)
  | unmapped (r : Region)
deriving DecidableEq, Repr

namespace Call

/-- The ranges that were handed out and not given back. -/
def live : List Call → List Region
  | [] => []
  | mapped r :: cs => r :: live cs
  | refused _ :: cs => live cs
  | unmapped r :: cs => (live cs).erase r

def maps : List Call → Nat
  | [] => 0
  | mapped _ :: cs => maps cs + 1
  | refused _ :: cs | unmapped _ :: cs => maps cs

def unmaps : List Call → Nat
  | [] => 0
  | unmapped _ :: cs => unmaps cs + 1
  | mapped _ :: cs | refused _ :: cs => unmaps cs

/-- Whatever was given back was out at that time, as the only range with its base. -/
def Orderly : List Call → Prop
  | [] => True
  | mapped _ :: cs | refused _ :: cs => Orderly cs
  | unmapped r :: cs => (live cs).filter (·.base = r.base) = [r] ∧ Orderly cs

variable {cs pre : List Call} {r : Region}

theorem mem_live_of_filter (h : (live cs).filter (·.base = r.base) = [r]) : r ∈ live cs :=
  (List.mem_filter.mp (h ▸ List.mem_singleton.mpr rfl : r ∈ (live cs).filter _)).1

theorem Orderly.of_suffix (h : Orderly cs) (hs : pre <:+ cs) : Orderly pre := by
  induction cs with
  | nil => exact List.suffix_nil.mp hs ▸ h
  | cons c cs ih =>
    rcases List.suffix_cons_iff.mp hs with rfl | htail
    · exact h
    · cases c with
      | mapped r => exact ih h htail
      | refused size => exact ih h htail
      | unmapped r => exact ih h.2 htail

theorem Orderly.length_live (h : Orderly cs) : (live cs).length + unmaps cs = maps cs := by
  induction cs with
  | nil => rfl
  | cons c cs ih =>
    cases c with
    | mapped r =>
      have := ih h
      simp only [live, maps, unmaps, List.length_cons]
      omega
    | refused size => exact ih h
    | unmapped r =>
      have hmem := mem_live_of_filter h.1
      have hpos := List.length_pos_of_mem hmem
      have := ih h.2
      simp only [live, maps, unmaps, List.length_erase_of_mem hmem]
      omega

/-- Each range was handed out as often as it was given back, and once more where it is out. -/
theorem Orderly.count_mapped (h : Orderly cs) (r : Region) :
    cs.count (mapped r) = cs.count (unmapped r) + (live cs).count r := by
  induction cs with
  | nil => rfl
  | cons c cs ih =>
    cases c with
    | mapped s =>
      have := ih h
      simp only [live, List.count_cons, beq_iff_eq, mapped.injEq, reduceCtorEq, if_false]
      omega
    | refused size => simpa [live, List.count_cons] using ih h
    | unmapped s =>
      have := ih h.2
      simp only [live, List.count_cons, List.count_erase, beq_iff_eq, unmapped.injEq, reduceCtorEq,
        if_false]
      by_cases hsr : s = r
      · subst hsr
        have hpos := List.count_pos_iff.mpr (mem_live_of_filter h.1)
        simp only [if_true]
        omega
      · simp only [hsr, if_false]
        omega

end Call

variable {σ : Type} [Source σ]

/-- The source has pages of a power of two, and what it hands out overlaps nothing that is out. -/
structure Source.Disjoint (After : σ → List Call → Prop) : Prop where
  page {s cs} : After s cs → ∃ k, 4 ≤ k ∧ k < 64 ∧ pageSize s = 2 ^ k
  mapped {s cs size base contents s'} : After s cs → 0 < size → pageSize s ∣ size →
    map s size = (.mapped base contents, s') →
    (∀ r ∈ Call.live cs, r.Apart ⟨base, size⟩) ∧ After s' (.mapped ⟨base, size⟩ :: cs)
  refused {s cs size cause s'} : After s cs → 0 < size → pageSize s ∣ size →
    map s size = (.refused cause, s') → After s' (.refused size :: cs)
  unmapped {s cs r} : After s cs → r ∈ Call.live cs →
    After (unmap s r.base r.size) (.unmapped r :: cs)

/-- Moreover the source answers every request for whole pages, and what it hands out is aligned and
does not reach the last address. It may turn down any request. -/
structure Source.Contract (After : σ → List Call → Prop) : Prop extends Source.Disjoint After where
  placed {s cs size base contents s'} : After s cs → 0 < size → pageSize s ∣ size →
    map s size = (.mapped base contents, s') →
    base % alignment = 0 ∧ 0 < base ∧ base + size < Word.limit
  answers {s cs size fault s'} : After s cs → 0 < size → pageSize s ∣ size →
    map s size ≠ (.rejected fault, s')

/-- A source with the calls that it answered, the latest first. -/
structure Recorder (σ : Type) where
  inner : σ
  calls : List Call := []

namespace Recorder

/-- Asks the source, and writes the answer down unless the source stopped. -/
def map (s : Recorder σ) (size : Nat) : MapAnswer × Recorder σ :=
  match Source.map s.inner size with
  | (.mapped base contents, inner) =>
    (.mapped base contents, { inner, calls := .mapped { base, size } :: s.calls })
  | (.refused cause, inner) => (.refused cause, { inner, calls := .refused size :: s.calls })
  | (.rejected fault, inner) => (.rejected fault, { s with inner })

instance : Source (Recorder σ) where
  pageSize s := Source.pageSize s.inner
  map := map
  unmap s base size :=
    { inner := Source.unmap s.inner base size, calls := .unmapped { base, size } :: s.calls }

/-- What was written down are the calls that the source has answered. -/
def Wrote (After : σ → List Call → Prop) (s : Recorder σ) (cs : List Call) : Prop :=
  s.calls = cs ∧ After s.inner cs

variable {After : σ → List Call → Prop} {s s' : Recorder σ} {size base : Nat} {contents : Memory}
  {cause : String} {fault : Fault}

theorem map_eq_mapped (h : Source.map s size = (.mapped base contents, s')) :
    Source.map s.inner size = (.mapped base contents, s'.inner) ∧
      s'.calls = .mapped ⟨base, size⟩ :: s.calls := by
  change Recorder.map s size = _ at h
  unfold Recorder.map at h
  split at h <;> cases h
  exact ⟨‹_›, rfl⟩

theorem map_eq_refused (h : Source.map s size = (.refused cause, s')) :
    Source.map s.inner size = (.refused cause, s'.inner) ∧
      s'.calls = .refused size :: s.calls := by
  change Recorder.map s size = _ at h
  unfold Recorder.map at h
  split at h <;> cases h
  exact ⟨‹_›, rfl⟩

theorem map_eq_rejected (h : Source.map s size = (.rejected fault, s')) :
    Source.map s.inner size = (.rejected fault, s'.inner) := by
  change Recorder.map s size = _ at h
  unfold Recorder.map at h
  split at h <;> cases h
  exact ‹_›

/-- What was written down is kept. -/
theorem calls_suffix_map (s : Recorder σ) (size : Nat) :
    s.calls <:+ (Source.map s size).2.calls := by
  show s.calls <:+ (Recorder.map s size).2.calls
  unfold Recorder.map
  split
  · exact List.suffix_cons _ _
  · exact List.suffix_cons _ _
  · exact List.suffix_rfl

/-- Writing calls down does not change what a source promises. -/
theorem disjoint (h : Source.Disjoint After) : Source.Disjoint (Wrote After) where
  page hs := h.page hs.2
  mapped hs hpos hpage hmap := by
    obtain ⟨hinner, hcalls⟩ := map_eq_mapped hmap
    obtain ⟨hapart, hafter⟩ := h.mapped hs.2 hpos hpage hinner
    exact ⟨hapart, by rw [hcalls, hs.1], hafter⟩
  refused hs hpos hpage hmap := by
    obtain ⟨hinner, hcalls⟩ := map_eq_refused hmap
    exact ⟨by rw [hcalls, hs.1], h.refused hs.2 hpos hpage hinner⟩
  unmapped {s cs r} hs hr := ⟨congrArg (Call.unmapped r :: ·) hs.1, h.unmapped hs.2 hr⟩

theorem contract (h : Source.Contract After) : Source.Contract (Wrote After) where
  toDisjoint := disjoint h.toDisjoint
  placed hs hpos hpage hmap := h.placed hs.2 hpos hpage (map_eq_mapped hmap).1
  answers hs hpos hpage hmap := h.answers hs.2 hpos hpage (map_eq_rejected hmap)

end Recorder

end BoundaryTag
