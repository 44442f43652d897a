import Mathlib.Algebra.Order.Ring.Nat
import BoundaryTag.Proofs.Program
import BoundaryTag.Proofs.Rounding

/-!
# Growth by whole pages

For a page size that is a power of two, sizing a new region never faults, whatever the size of the
heap, the bound and the request are. A size that it answers is a number of whole pages, has room for
the request and two headers, and keeps the size of the heap a word (`regionSize_run`).

What doubling does is said without a number of steps (`RegionSize.Doubles`), and what is known of it
is known by induction on this. The steps that may be taken are always enough
(`RegionSize.doubles_run`).

The bound is meant to limit how much a heap grows, not which requests it serves. That is so if the
bound is a word when counted in bytes (`regionSize_eq_some_iff`). If not, no region has a size.
-/

namespace BoundaryTag

variable {k n page current needed maxPages request start target cap growth : Nat}

namespace RegionSize

/-- What a heap aims at first is no word if its double is none, or leaves no room to round it. -/
theorem firstTarget_eq (hpos : 0 < page) (current : Nat) : firstTarget page current =
    .ok (if current = 0 then some page
      else if current * 2 + (page - 1) < Word.limit then
        some (Word.clear (current * 2 + (page - 1)) (page - 1))
      else none) := by
  unfold firstTarget
  by_cases hzero : current = 0
  · rw [if_pos hzero, if_pos hzero]
    rfl
  rw [if_neg hzero, if_neg hzero]
  by_cases hdouble : current * 2 < Word.limit
  · rw [Word.mul?_eq_some_iff.mpr ⟨hdouble, rfl⟩]
    dsimp only
    rw [Word.sub_eq_ok_iff.mpr ⟨hpos, rfl⟩, ok_bind]
    by_cases hsum : current * 2 + (page - 1) < Word.limit
    · rw [if_pos hsum, Word.add?_eq_some_iff.mpr ⟨hsum, rfl⟩]
      rfl
    · rw [if_neg hsum, show Word.add? (current * 2) (page - 1) = none from if_neg hsum]
      rfl
  · rw [if_neg (by omega), Word.mul?_eq_none_iff.mpr (Nat.le_of_not_lt hdouble)]
    rfl

/-- Whatever the page is, a heap aims at a number that is not zero and not below its size. -/
theorem firstTarget_le (hpos : 0 < page) (current : Nat) :
    ∃ start?, firstTarget page current = .ok start? ∧
      ∀ start ∈ start?, 0 < start ∧ current ≤ start := by
  refine ⟨_, firstTarget_eq hpos current, fun start hstart => ?_⟩
  split at hstart
  · cases hstart
    omega
  split at hstart
  · rename_i hlt
    cases hstart
    have := Word.le_clear hlt
    omega
  · cases hstart

theorem firstTarget_two_pow (hk : k < 64) (h : firstTarget (2 ^ k) current = .ok (some target)) :
    2 ^ k ∣ target ∧ target < Word.limit := by
  rw [firstTarget_eq (Nat.two_pow_pos k)] at h
  have h := Except.ok.inj h
  split at h
  · cases h
    exact ⟨dvd_refl _, Nat.pow_lt_pow_right (by decide) hk⟩
  split at h
  · rename_i hlt
    cases h
    rw [Word.clear_two_pow hlt (Nat.le_of_lt hk)]
    exact ⟨Nat.dvd_mul_left _ _, Nat.lt_of_le_of_lt (Nat.div_mul_le_self _ _) hlt⟩
  · cases h

/-- Doubling of a target until it exceeds `current` by `needed`, in any number of steps, and what it
ends in, which is nothing where the next target is no word. In each step `current` is subtracted
from the target. -/
inductive Doubles (current needed : Nat) : Nat → Option Nat → Prop
  | fits {target d : Nat} (hsub : Word.sub target current = .ok d) (hfits : needed ≤ d) :
    Doubles current needed target (some target)
  | overflows {target d : Nat} (hsub : Word.sub target current = .ok d) (hmore : d < needed)
      (hdouble : Word.mul? target 2 = none) : Doubles current needed target none
  | again {target d double : Nat} {answer : Option Nat} (hsub : Word.sub target current = .ok d)
      (hmore : d < needed) (hdouble : Word.mul? target 2 = some double)
      (hrest : Doubles current needed double answer) : Doubles current needed target answer

theorem doubleUntil_of_fits (hle : current ≤ target) (hfits : needed ≤ target - current) :
    doubleUntil current needed n target = .ok (some target) := by
  cases n <;>
  · unfold doubleUntil
    rw [Word.sub_eq_ok_iff.mpr ⟨hle, rfl⟩, ok_bind, if_pos hfits]
    rfl

/-- Doubling ends, and within the steps that take the target out of the words. -/
theorem doubles_run (needed : Nat) (hle : current ≤ target) (hn : Word.limit ≤ target * 2 ^ n) :
    ∃ answer, Doubles current needed target answer ∧
      doubleUntil current needed n target = .ok answer := by
  have hsub : Word.sub target current = .ok (target - current) := Word.sub_eq_ok_iff.mpr ⟨hle, rfl⟩
  induction n generalizing target with
  | zero =>
    by_cases hfits : needed ≤ target - current
    · exact ⟨some target, .fits hsub hfits, doubleUntil_of_fits hle hfits⟩
    have hdouble : Word.mul? target 2 = none := Word.mul?_eq_none_iff.mpr (by omega)
    refine ⟨none, .overflows hsub (Nat.lt_of_not_le hfits) hdouble, ?_⟩
    unfold doubleUntil
    rw [hsub, ok_bind, if_neg hfits, hdouble]
    rfl
  | succ n ih =>
    by_cases hfits : needed ≤ target - current
    · exact ⟨some target, .fits hsub hfits, doubleUntil_of_fits hle hfits⟩
    unfold doubleUntil
    rw [hsub, ok_bind, if_neg hfits]
    cases hdouble : Word.mul? target 2 with
    | none => exact ⟨none, .overflows hsub (Nat.lt_of_not_le hfits) hdouble, rfl⟩
    | some double =>
      obtain ⟨-, rfl⟩ := Word.mul?_eq_some_iff.mp hdouble
      have hn' : Word.limit ≤ target * 2 * 2 ^ n := by rwa [Nat.mul_assoc, ← Nat.pow_succ']
      have hle' : current ≤ target * 2 := by omega
      obtain ⟨answer, hdoubles, hrun⟩ := ih hle' hn' (Word.sub_eq_ok_iff.mpr ⟨hle', rfl⟩)
      exact ⟨answer, .again hsub (Nat.lt_of_not_le hfits) hdouble hdoubles, hrun⟩

/-- Steps that end in a target are steps of the doubling, however many may be taken. -/
theorem doubles_of_eq_some (h : doubleUntil current needed n start = .ok (some target)) :
    Doubles current needed start (some target) := by
  induction n generalizing start with
  | zero =>
    unfold doubleUntil at h
    obtain ⟨d, hsub, h⟩ := except_bind_eq_ok_iff.mp h
    split at h
    · cases h
      exact .fits hsub ‹_›
    · cases hdouble : Word.mul? start 2 with
      | none | some _ =>
        rw [hdouble] at h
        cases h
  | succ n ih =>
    unfold doubleUntil at h
    obtain ⟨d, hsub, h⟩ := except_bind_eq_ok_iff.mp h
    split at h
    · cases h
      exact .fits hsub ‹_›
    rename_i hmore
    cases hdouble : Word.mul? start 2 with
    | none =>
      rw [hdouble] at h
      cases h
    | some double =>
      rw [hdouble] at h
      exact .again hsub (Nat.lt_of_not_le hmore) hdouble (ih h)

/-- Doubling ends in a multiple of what it starts with that exceeds `current` by enough. -/
theorem Doubles.of_some (h : Doubles current needed start (some target)) :
    start ∣ target ∧ current ≤ target ∧ needed ≤ target - current ∧
      (start < Word.limit → target < Word.limit) := by
  generalize hanswer : some target = answer at h
  induction h with
  | fits hsub hfits =>
    cases hanswer
    obtain ⟨hle, rfl⟩ := Word.sub_eq_ok_iff.mp hsub
    exact ⟨dvd_refl _, hle, hfits, id⟩
  | overflows => cases hanswer
  | again _ _ hdouble _ ih =>
    obtain ⟨hlt, rfl⟩ := Word.mul?_eq_some_iff.mp hdouble
    obtain ⟨hdvd, hle, hfits, hword⟩ := ih hanswer
    exact ⟨(Nat.dvd_mul_right _ 2).trans hdvd, hle, hfits, fun _ => hword hlt⟩

/-- The size of the region for a heap that is to grow by `growth`, if `needed` bytes are needed and
the bound is `cap`. -/
def bounded (page cap needed growth : Nat) : Except Fault (Option Nat) := do
  if growth < cap then return some (← roundUp growth page)
  if needed ≤ cap then return some cap
  let mask ← Word.sub page 1
  return (Word.add? needed mask).map (Word.clear · mask)

/-- The size is the bound, or what is needed at least is rounded to it. -/
theorem bounded_eq_some (hpos : 0 < page) (hfits : needed ≤ growth)
    (h : bounded page cap needed growth = .ok (some n)) : needed ≤ cap ∧ n = cap ∨
      ∃ v, needed ≤ v ∧ v + (page - 1) < Word.limit ∧
        n = Word.clear (v + (page - 1)) (page - 1) := by
  unfold bounded at h
  split at h
  · obtain ⟨m, hround, h⟩ := except_bind_eq_ok_iff.mp h
    cases h
    obtain ⟨hlt, rfl⟩ := (roundUp_eq_ok_iff hpos).mp hround
    exact .inr ⟨_, hfits, by omega, rfl⟩
  split at h
  · cases h
    exact .inl ⟨‹_›, rfl⟩
  · rw [Word.sub_eq_ok_iff.mpr ⟨hpos, rfl⟩, ok_bind] at h
    obtain ⟨sum, hsum, rfl⟩ := Option.map_eq_some_iff.mp (Except.ok.inj h)
    obtain ⟨hlt, rfl⟩ := Word.add?_eq_some_iff.mp hsum
    exact .inr ⟨_, Nat.le_refl _, hlt, rfl⟩

/-- Where pages are a power of two, clearing bits rounds to them, and nothing on the way is too
large. -/
theorem bounded_two_pow (hk : k < 64) (hcap : 2 ^ k ∣ cap) (hcaplt : cap < Word.limit)
    (hneeded : needed + 2 ^ k ≤ Word.limit) : bounded (2 ^ k) cap needed growth =
      .ok (some (if growth < cap then roundedUp growth (2 ^ k)
        else if needed ≤ cap then cap else roundedUp needed (2 ^ k))) := by
  have hpos := Nat.two_pow_pos k
  have hcaproom := add_two_pow_le_limit hk hcap hcaplt
  unfold bounded
  split
  · rw [roundUp_two_pow (Nat.le_of_lt hk) (by omega), ok_bind]
    rfl
  split
  · rfl
  · rw [Word.sub_eq_ok_iff.mpr ⟨hpos, rfl⟩, ok_bind, Word.add?_eq_some_iff.mpr ⟨by omega, rfl⟩,
      Option.map_some, Word.clear_two_pow (by omega) (Nat.le_of_lt hk)]
    rfl

end RegionSize

/-- There is no size if what is needed or what the heap is to grow to is no word. -/
theorem regionSize_eq_none (maxPages : Nat) (h : Word.limit ≤ request + 64 ∨
    RegionSize.firstTarget page current = .ok none ∨
    ∃ start, RegionSize.firstTarget page current = .ok (some start) ∧
      RegionSize.doubleUntil current (request + 64) RegionSize.maxDoublings start = .ok none) :
    regionSize page current maxPages request = .ok none := by
  unfold regionSize
  cases hneeded : Word.add? request (2 * headerSize) with
  | none => rfl
  | some needed =>
    obtain ⟨hlt, rfl⟩ := Word.add?_eq_some_iff.mp hneeded
    rcases h with hge | hstart | ⟨start, hstart, htarget⟩
    · exact absurd hlt (Nat.not_lt_of_le hge)
    · dsimp only
      rw [hstart]
      rfl
    · dsimp only
      rw [hstart, ok_bind]
      dsimp only
      rw [show RegionSize.doubleUntil current (request + 2 * headerSize) _ start = _ from htarget]
      rfl

/-- What size a region has once it is known what the heap is to grow to. -/
theorem regionSize_eq_of_target (maxPages : Nat) (hneeded : request + 64 < Word.limit)
    (hstart : RegionSize.firstTarget page current = .ok (some start))
    (htarget : RegionSize.doubleUntil current (request + 64) RegionSize.maxDoublings start =
      .ok (some target))
    (hle : current ≤ target) : regionSize page current maxPages request =
      if maxPages * page < Word.limit then
        RegionSize.bounded page (maxPages * page) (request + 64) (target - current)
      else .ok none := by
  have hneeded' : Word.add? request (2 * headerSize) = some (request + 64) :=
    Word.add?_eq_some_iff.mpr ⟨hneeded, rfl⟩
  unfold regionSize
  rw [hneeded']
  dsimp only
  rw [hstart, ok_bind]
  dsimp only
  rw [htarget, ok_bind]
  dsimp only
  rw [Word.sub_eq_ok_iff.mpr ⟨hle, rfl⟩]
  by_cases hcap : maxPages * page < Word.limit
  · rw [if_pos hcap, Word.mul?_eq_some_iff.mpr ⟨hcap, rfl⟩]
    rfl
  · rw [if_neg hcap, Word.mul?_eq_none_iff.mpr (Nat.le_of_not_lt hcap)]
    rfl

/-- There is a size only if the heap has something to grow to and the bound is a word of bytes. -/
theorem regionSize_eq_some_cases (h : regionSize page current maxPages request = .ok (some n)) :
    ∃ start target, request + 64 < Word.limit ∧
      RegionSize.firstTarget page current = .ok (some start) ∧
      RegionSize.doubleUntil current (request + 64) RegionSize.maxDoublings start =
        .ok (some target) ∧
      current ≤ target ∧ request + 64 ≤ target - current ∧ maxPages * page < Word.limit ∧
      RegionSize.bounded page (maxPages * page) (request + 64) (target - current) =
        .ok (some n) := by
  have hrun := h
  unfold regionSize at h
  cases hneeded : Word.add? request (2 * headerSize) with
  | none =>
    rw [hneeded] at h
    nomatch h
  | some needed =>
  rw [hneeded] at h
  obtain ⟨hlt, rfl⟩ := Word.add?_eq_some_iff.mp hneeded
  obtain ⟨start?, hstart, h⟩ := except_bind_eq_ok_iff.mp h
  cases start? with
  | none => nomatch h
  | some start =>
  obtain ⟨target?, htarget, h⟩ := except_bind_eq_ok_iff.mp h
  cases target? with
  | none => nomatch h
  | some target =>
  cases hcap : Word.mul? maxPages page with
  | none =>
    rw [hcap] at h
    nomatch h
  | some cap =>
  rw [hcap] at h
  obtain ⟨hcaplt, rfl⟩ := Word.mul?_eq_some_iff.mp hcap
  obtain ⟨growth, hgrowth, -⟩ := except_bind_eq_ok_iff.mp h
  obtain ⟨hle, -⟩ := Word.sub_eq_ok_iff.mp hgrowth
  rw [regionSize_eq_of_target maxPages hlt hstart htarget hle, if_pos hcaplt] at hrun
  obtain ⟨-, -, hfits, -⟩ := (RegionSize.doubles_of_eq_some htarget).of_some
  exact ⟨start, target, hlt, hstart, htarget, hle, hfits, hcaplt, hrun⟩

/-- Where pages are a power of two, sizing a region never faults, and the bound does not decide
whether there is a size, as long as it is a word of bytes. -/
theorem regionSize_cases (hk : k < 64) (current request : Nat) :
    (∀ maxPages, regionSize (2 ^ k) current maxPages request = .ok none) ∨
    ∀ maxPages,
      (maxPages * 2 ^ k < Word.limit ∧ ∃ n,
        regionSize (2 ^ k) current maxPages request = .ok (some n) ∧
          2 ^ k ∣ n ∧ request + 64 ≤ n ∧ current + n < Word.limit) ∨
      (Word.limit ≤ maxPages * 2 ^ k ∧
        regionSize (2 ^ k) current maxPages request = .ok none) := by
  by_cases hneeded : request + 64 < Word.limit
  swap
  · exact .inl fun _ => regionSize_eq_none _ (.inl (Nat.le_of_not_lt hneeded))
  obtain ⟨start?, hstart, hstartOk⟩ := RegionSize.firstTarget_le (Nat.two_pow_pos k) current
  cases start? with
  | none => exact .inl fun _ => regionSize_eq_none _ (.inr (.inl hstart))
  | some start =>
  obtain ⟨hspos, hsle⟩ := hstartOk start rfl
  obtain ⟨hsd, hslt⟩ := RegionSize.firstTarget_two_pow hk hstart
  obtain ⟨target?, hdoubles, htarget⟩ := RegionSize.doubles_run (request + 64) hsle
    (Nat.le_mul_of_pos_left (2 ^ RegionSize.maxDoublings) hspos)
  cases target? with
  | none => exact .inl fun _ => regionSize_eq_none _ (.inr (.inr ⟨start, hstart, htarget⟩))
  | some target =>
  obtain ⟨htd, htle, hfits, htlt⟩ := hdoubles.of_some
  have hroom := add_two_pow_le_limit hk (hsd.trans htd) (htlt hslt)
  refine .inr fun maxPages => ?_
  have heq := regionSize_eq_of_target maxPages hneeded hstart htarget htle
  by_cases hcap : maxPages * 2 ^ k < Word.limit
  swap
  · exact .inr ⟨Nat.le_of_not_lt hcap, heq.trans (if_neg hcap)⟩
  have hcaproom := add_two_pow_le_limit hk (dvd_mul_left (2 ^ k) maxPages) hcap
  rw [if_pos hcap, RegionSize.bounded_two_pow hk (dvd_mul_left _ _) hcap (by omega)] at heq
  refine .inl ⟨hcap, _, heq, ?_⟩
  obtain ⟨hgrowth, hgrowthle⟩ := (isLeast_roundedUp (target - current) k).1
  obtain ⟨hneededdvd, hneededle⟩ := (isLeast_roundedUp (request + 64) k).1
  have hgrowthlt : roundedUp (target - current) (2 ^ k) < _ := roundedUp_lt (target - current) k
  have hneededlt : roundedUp (request + 64) (2 ^ k) < _ := roundedUp_lt (request + 64) k
  split
  · exact ⟨hgrowth, by omega, by omega⟩
  split
  · exact ⟨dvd_mul_left _ _, by omega, by omega⟩
  · exact ⟨hneededdvd, by omega, by omega⟩

/-- Sizing a region never faults where pages are a power of two. -/
theorem regionSize_run (hk : k < 64) (current maxPages request : Nat) :
    ∃ o, regionSize (2 ^ k) current maxPages request = .ok o ∧
      ∀ n, o = some n → 2 ^ k ∣ n ∧ request + 64 ≤ n ∧ current + n < Word.limit := by
  rcases regionSize_cases hk current request with hnone | hcases
  · exact ⟨none, hnone maxPages, nofun⟩
  · rcases hcases maxPages with ⟨-, n, hrun, hn⟩ | ⟨-, hrun⟩
    · exact ⟨some n, hrun, by rintro _ ⟨⟩; exact hn⟩
    · exact ⟨none, hrun, nofun⟩

/-! ### The bound -/

/-- What size a region has depends on the bound, but not whether there is a size, unless the bound
is no word of bytes: then there is none for any request. -/
theorem regionSize_eq_some_iff {maxPages' : Nat} (hk : k < 64)
    (hcap : maxPages * 2 ^ k < Word.limit) :
    (∃ n, regionSize (2 ^ k) current maxPages' request = .ok (some n)) ↔
      maxPages' * 2 ^ k < Word.limit ∧
        ∃ n, regionSize (2 ^ k) current maxPages request = .ok (some n) := by
  rcases regionSize_cases hk current request with hnone | hcases
  · simp [hnone]
  · obtain ⟨-, n, hrun, -⟩ := (hcases maxPages).resolve_right fun h => Nat.not_le_of_lt hcap h.1
    rcases hcases maxPages' with ⟨hcap', n', hrun', -⟩ | ⟨hcap', hrun'⟩
    · exact ⟨fun _ => ⟨hcap', n, hrun⟩, fun _ => ⟨n', hrun'⟩⟩
    · refine ⟨fun ⟨n', hn'⟩ => ?_, fun h => absurd h.1 (Nat.not_lt_of_le hcap')⟩
      nomatch hrun'.symm.trans hn'

/-- The least bound and one near the end of the words leave a size for a request, since one page
does. -/
theorem regionSize_some_of_bounds :
    (∃ n, regionSize (2 ^ 12) 0x2000 0 1 = .ok (some n)) ∧
      ∃ n, regionSize (2 ^ 12) 0x2000 0xfffffffffffff 1 = .ok (some n) := by
  have hone : 1 * 2 ^ 12 < Word.limit := by decide
  have hsize : ∃ n, regionSize (2 ^ 12) 0x2000 1 1 = .ok (some n) := ⟨0x1000, by decide +kernel⟩
  exact ⟨(regionSize_eq_some_iff (by decide) hone).mpr ⟨by decide, hsize⟩,
    (regionSize_eq_some_iff (by decide) hone).mpr ⟨by decide, hsize⟩⟩

/-- With the largest bound there is no size for a request that has one with the default bound. -/
theorem regionSize_none_of_bound : regionSize 4096 0 (2 ^ 64 - 1) 16 = .ok none ∧
    regionSize 4096 0 32 16 = .ok (some 4096) := ⟨rfl, by decide +kernel⟩

namespace HeapM

variable {σ : Type} [Source σ] {w : World σ}

/-- Where the bound is no word of bytes, a heap without free blocks serves no request at all. -/
theorem allocate_of_bound (hk : k < 64) (hpage : Source.pageSize w.heap.source = 2 ^ k)
    (hbound : Word.limit ≤ w.heap.config.maxRegionPages * 2 ^ k) (hfree : w.heap.free.head = none)
    (size : Nat) : ∃ n, allocate size w = .ok (.error (.sizeOverflow n)) w := by
  unfold allocate
  cases hround : roundRequest size with
  | none => exact ⟨size, rfl⟩
  | some needed =>
    have hnone : BoundaryTag.regionSize (Source.pageSize w.heap.source) w.heap.heapSize
        w.heap.config.maxRegionPages needed = .ok none := by
      rw [hpage]
      rcases regionSize_cases hk w.heap.heapSize needed with hnone | hcases
      · exact hnone _
      · rcases hcases w.heap.config.maxRegionPages with ⟨hlt, -⟩ | ⟨-, hnone⟩
        · omega
        · exact hnone
    have hgrow : grow needed w = .ok (.error (.sizeOverflow needed)) w := by
      unfold grow regionSize
      rw [run_bind_ok (by rw [heap_bind, hnone]; rfl)]
      rfl
    have hempty : w.heap.free.isEmpty = true := by
      unfold FreeList.isEmpty
      rw [hfree]
      rfl
    refine ⟨needed, ?_⟩
    dsimp only
    rw [heap_bind, if_pos hempty, run_bind_ok hgrow]
    rfl

end HeapM

end BoundaryTag
