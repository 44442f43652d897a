import Mathlib.Data.Nat.Find
import BoundaryTag.Proofs.Growth

/-!
# The sizes of regions in closed form

A heap that needs memory aims at one page or at twice its size, and doubles this until it is enough.
So it grows by the least of the numbers `RegionSize.Growths`. The bound takes the place of this
growth where it is less, and what is needed takes its place, in whole pages, where the bound is too
small for it (`RegionSize.dueSize`). All of this is as in the whole numbers: where pages are a power
of two, no number on the way leaves the words if those that are checked do not
(`regionSize_closed`).
-/

namespace BoundaryTag

variable {k n i current needed maxPages request target cap growth v : Nat}

namespace RegionSize

/-- What a heap of `current` bytes aims at first. -/
def aim (page current : Nat) : Nat := if current = 0 then page else 2 * current

/-- What a heap grows by if it doubles its aim some number of times and that is enough. -/
def Growths (page current needed : Nat) : Set Nat :=
  {n | needed ≤ n ∧ ∃ i, n = aim page current * 2 ^ i - current}

/-- The size of the region for a heap that is to grow by `growth`, if `needed` bytes are needed and
the bound is `cap`. -/
def dueSize (page cap needed growth : Nat) : Nat :=
  if needed ≤ cap then min growth cap else roundedUp needed page

theorem aim_pos (hpage : 0 < v) (current : Nat) : 0 < aim v current := by
  unfold aim
  split <;> omega

theorem le_aim (page current : Nat) : current ≤ aim page current := by
  unfold aim
  split <;> omega

theorem dvd_aim (hcurrent : v ∣ current) : v ∣ aim v current := by
  unfold aim
  split
  · exact dvd_refl v
  · exact Dvd.dvd.mul_left hcurrent 2

/-! ### Doubling -/

/-- Some number of doublings is enough, and one is the least. -/
theorem exists_isLeast_doublings (hpos : 0 < target) (current needed : Nat) :
    ∃ i, IsLeast {i | needed ≤ target * 2 ^ i - current} i := by
  have hsome : ∃ i, needed ≤ target * 2 ^ i - current := by
    refine ⟨needed + current, ?_⟩
    have hpow : needed + current < 2 ^ (needed + current) := Nat.lt_two_pow_self
    have hmul : 2 ^ (needed + current) ≤ target * 2 ^ (needed + current) :=
      Nat.le_mul_of_pos_left _ hpos
    omega
  exact ⟨Nat.find hsome, Nat.find_spec hsome, fun _ => Nat.find_min' hsome⟩

/-- The least number of doublings leads to the least growth. -/
theorem isLeast_growths (hi : IsLeast {i | needed ≤ aim v current * 2 ^ i - current} i) :
    IsLeast (Growths v current needed) (aim v current * 2 ^ i - current) := by
  refine ⟨⟨hi.1, i, rfl⟩, ?_⟩
  rintro _ ⟨hneeded, j, rfl⟩
  have hpow : 2 ^ i ≤ 2 ^ j := Nat.pow_le_pow_right Nat.two_pos (hi.2 hneeded)
  exact Nat.sub_le_sub_right (Nat.mul_le_mul_left _ hpow) current

/-- Where the target is not enough, one step is taken, and one less is left to take. -/
theorem isLeast_doublings_succ (hmore : target - current < needed)
    (hi : IsLeast {i | needed ≤ target * 2 ^ i - current} i) :
    ∃ j, target * 2 ^ i = target * 2 * 2 ^ j ∧
      IsLeast {i | needed ≤ target * 2 * 2 ^ i - current} j := by
  have hstep : ∀ j, target * 2 ^ (j + 1) = target * 2 * 2 ^ j := fun j => by
    rw [Nat.pow_succ, Nat.mul_comm (2 ^ j), Nat.mul_assoc]
  obtain ⟨j, rfl⟩ : ∃ j, i = j + 1 := by
    refine Nat.exists_eq_succ_of_ne_zero fun hzero => ?_
    have hnow : needed ≤ target * 2 ^ i - current := hi.1
    rw [hzero, Nat.pow_zero, Nat.mul_one] at hnow
    omega
  refine ⟨j, hstep j, ?_⟩
  simp only [← hstep]
  exact ⟨hi.1, fun j hj => Nat.le_of_succ_le_succ (hi.2 hj)⟩

/-- Doubling ends after the least number of steps that is enough, unless the words end before. -/
theorem Doubles.eq_of_isLeast {answer : Option Nat} (h : Doubles current needed target answer)
    (hlt : target < Word.limit) (hi : IsLeast {i | needed ≤ target * 2 ^ i - current} i) :
    answer = if target * 2 ^ i < Word.limit then some (target * 2 ^ i) else none := by
  induction h generalizing i with
  | @fits target _ hsub hfits =>
    obtain ⟨-, rfl⟩ := Word.sub_eq_ok_iff.mp hsub
    obtain rfl : i = 0 := Nat.le_zero.mp (hi.2 (show needed ≤ target * 2 ^ 0 - current by simpa))
    rw [Nat.pow_zero, Nat.mul_one, if_pos hlt]
  | @overflows target _ hsub hmore hdouble =>
    obtain ⟨-, rfl⟩ := Word.sub_eq_ok_iff.mp hsub
    obtain ⟨j, heq, -⟩ := isLeast_doublings_succ hmore hi
    have hle : target * 2 ≤ target * 2 * 2 ^ j := Nat.le_mul_of_pos_right _ (Nat.two_pow_pos j)
    have hout : Word.limit ≤ target * 2 := Word.mul?_eq_none_iff.mp hdouble
    rw [heq, if_neg (by omega)]
  | again hsub hmore hdouble _ ih =>
    obtain ⟨-, rfl⟩ := Word.sub_eq_ok_iff.mp hsub
    obtain ⟨hdlt, rfl⟩ := Word.mul?_eq_some_iff.mp hdouble
    obtain ⟨j, heq, hj⟩ := isLeast_doublings_succ hmore hi
    rw [heq]
    exact ih hdlt hj

theorem firstTarget_eq_aim (hk : k < 64) (hcurrent : 2 ^ k ∣ current) :
    firstTarget (2 ^ k) current =
      .ok (if aim (2 ^ k) current < Word.limit then some (aim (2 ^ k) current) else none) := by
  have hpos := Nat.two_pow_pos k
  rw [firstTarget_eq hpos]
  unfold aim
  by_cases hzero : current = 0
  · have hpage : 2 ^ k < Word.limit := Nat.pow_lt_pow_right (by decide) hk
    rw [if_pos hzero, if_pos hzero, if_pos hpage]
  rw [if_neg hzero, if_neg hzero, Nat.mul_comm]
  by_cases hdouble : 2 * current < Word.limit
  · have hd : 2 ^ k ∣ 2 * current := Dvd.dvd.mul_left hcurrent 2
    have hroom := add_two_pow_le_limit hk hd hdouble
    have hclear : Word.clear (2 * current + (2 ^ k - 1)) (2 ^ k - 1) = 2 * current :=
      (Word.clear_two_pow (by omega) (Nat.le_of_lt hk)).trans (roundedUp_of_dvd hd)
    rw [if_pos hdouble, if_pos (by omega), hclear]
  · rw [if_neg hdouble, if_neg (by omega)]

/-! ### The bound -/

/-- In whole pages, the three ways to bound the growth are two. -/
theorem bounded_eq_dueSize (hk : k < 64) (hcap : 2 ^ k ∣ cap) (hcaplt : cap < Word.limit)
    (hgrowth : 2 ^ k ∣ growth) (hlt : growth < Word.limit) (hfits : needed ≤ growth) :
    bounded (2 ^ k) cap needed growth = .ok (some (dueSize (2 ^ k) cap needed growth)) := by
  have hroom := add_two_pow_le_limit hk hgrowth hlt
  rw [bounded_two_pow hk hcap hcaplt (by omega), roundedUp_of_dvd hgrowth]
  unfold dueSize
  by_cases hless : growth < cap
  · rw [if_pos hless, if_pos (Nat.le_of_lt (Nat.lt_of_le_of_lt hfits hless)),
      min_eq_left (Nat.le_of_lt hless)]
  · rw [if_neg hless, min_eq_right (Nat.le_of_not_lt hless)]

theorem dueSize_cases (hcap : 2 ^ k ∣ cap) (hgrowth : 2 ^ k ∣ growth) (hfits : needed ≤ growth) :
    2 ^ k ∣ dueSize (2 ^ k) cap needed growth ∧ needed ≤ dueSize (2 ^ k) cap needed growth ∧
      dueSize (2 ^ k) cap needed growth ≤ max cap (roundedUp needed (2 ^ k)) ∧
      dueSize (2 ^ k) cap needed growth ≤ growth := by
  obtain ⟨⟨hdvd, hle⟩, hleast⟩ := isLeast_roundedUp needed k
  unfold dueSize
  split
  · refine ⟨?_, le_min hfits ‹_›, (min_le_right _ _).trans (le_max_left _ _), min_le_left _ _⟩
    rcases min_choice growth cap with h | h <;> rw [h] <;> assumption
  · exact ⟨hdvd, hle, le_max_right _ _, hleast ⟨hgrowth, hfits⟩⟩

/-- More that is needed makes no smaller region. -/
theorem dueSize_mono {needed' growth' : Nat} (hneeded : needed' ≤ needed)
    (hgrowth : growth' ≤ growth) :
    dueSize (2 ^ k) cap needed' growth' ≤ dueSize (2 ^ k) cap needed growth := by
  unfold dueSize
  by_cases hcap : needed ≤ cap
  · rw [if_pos (hneeded.trans hcap), if_pos hcap]
    exact min_le_min_right cap hgrowth
  rw [if_neg hcap]
  split
  · have hle : needed ≤ roundedUp needed (2 ^ k) := le_roundedUp needed k
    exact (min_le_right _ _).trans (Nat.le_of_lt (Nat.lt_of_not_le hcap) |>.trans hle)
  · exact roundedUp_mono hneeded

/-- The size of a region, given the least number of doublings that is enough. -/
theorem regionSize_eq (hk : k < 64) (hcurrent : 2 ^ k ∣ current)
    (hcap : maxPages * 2 ^ k < Word.limit)
    (hi : IsLeast {i | request + 64 ≤ aim (2 ^ k) current * 2 ^ i - current} i) :
    regionSize (2 ^ k) current maxPages request =
      .ok (if request + 64 < Word.limit ∧ aim (2 ^ k) current < Word.limit ∧
          aim (2 ^ k) current * 2 ^ i < Word.limit
        then some (dueSize (2 ^ k) (maxPages * 2 ^ k) (request + 64)
          (aim (2 ^ k) current * 2 ^ i - current))
        else none) := by
  have hpos := aim_pos (Nat.two_pow_pos k) current
  have hle := le_aim (2 ^ k) current
  have hstart := firstTarget_eq_aim hk hcurrent
  by_cases hneeded : request + 64 < Word.limit
  swap
  · rw [if_neg fun h => hneeded h.1]
    exact regionSize_eq_none maxPages (.inl (Nat.le_of_not_lt hneeded))
  by_cases haim : aim (2 ^ k) current < Word.limit
  swap
  · rw [if_neg haim] at hstart
    rw [if_neg fun h => haim h.2.1]
    exact regionSize_eq_none maxPages (.inr (.inl hstart))
  rw [if_pos haim] at hstart
  obtain ⟨target?, hdoubles, htarget⟩ :=
    doubles_run (request + 64) hle (Nat.le_mul_of_pos_left (2 ^ maxDoublings) hpos)
  rw [hdoubles.eq_of_isLeast haim hi] at htarget
  by_cases hlast : aim (2 ^ k) current * 2 ^ i < Word.limit
  swap
  · rw [if_neg hlast] at htarget
    rw [if_neg fun h => hlast h.2.2]
    exact regionSize_eq_none maxPages (.inr (.inr ⟨_, hstart, htarget⟩))
  rw [if_pos hlast] at htarget
  have hfits : request + 64 ≤ aim (2 ^ k) current * 2 ^ i - current := hi.1
  have hgrowth : 2 ^ k ∣ aim (2 ^ k) current * 2 ^ i - current :=
    Nat.dvd_sub (Dvd.dvd.mul_right (dvd_aim hcurrent) _) hcurrent
  rw [if_pos ⟨hneeded, haim, hlast⟩,
    regionSize_eq_of_target maxPages hneeded hstart htarget (by omega), if_pos hcap,
    bounded_eq_dueSize hk (dvd_mul_left _ _) hcap hgrowth (by omega) hfits]

end RegionSize

open RegionSize in
/-- Where pages are a power of two, the size of a region is that of the least growth, unless what is
needed, the first aim or the last one is no word. It is in whole pages, enough, and bounded; the
heap has a size with it, and a smaller request has a size that is no larger. -/
theorem regionSize_closed (hk : k < 64) (hcurrent : 2 ^ k ∣ current)
    (hcap : maxPages * 2 ^ k < Word.limit) (request : Nat) :
    (∃ i, IsLeast (Growths (2 ^ k) current (request + 64)) (aim (2 ^ k) current * 2 ^ i - current) ∧
      regionSize (2 ^ k) current maxPages request =
        .ok (if request + 64 < Word.limit ∧ aim (2 ^ k) current < Word.limit ∧
            aim (2 ^ k) current * 2 ^ i < Word.limit
          then some (dueSize (2 ^ k) (maxPages * 2 ^ k) (request + 64)
            (aim (2 ^ k) current * 2 ^ i - current))
          else none)) ∧
      ∀ n, regionSize (2 ^ k) current maxPages request = .ok (some n) →
        2 ^ k ∣ n ∧ request + 64 ≤ n ∧
          n ≤ max (maxPages * 2 ^ k) (roundedUp (request + 64) (2 ^ k)) ∧
          Word.add current n = .ok (current + n) ∧
          ∀ request' ≤ request, ∃ n' ≤ n,
            regionSize (2 ^ k) current maxPages request' = .ok (some n') := by
  have hpos := aim_pos (Nat.two_pow_pos k) current
  obtain ⟨i, hi⟩ := exists_isLeast_doublings hpos current (request + 64)
  have heq := regionSize_eq hk hcurrent hcap hi
  refine ⟨⟨i, isLeast_growths hi, heq⟩, fun n hn => ?_⟩
  rw [heq] at hn
  split at hn
  swap
  · nomatch hn
  rename_i hwords
  cases hn
  obtain ⟨hneeded, haim, hlast⟩ := hwords
  have hfits : request + 64 ≤ aim (2 ^ k) current * 2 ^ i - current := hi.1
  have hgrowth : 2 ^ k ∣ aim (2 ^ k) current * 2 ^ i - current :=
    Nat.dvd_sub (Dvd.dvd.mul_right (dvd_aim hcurrent) _) hcurrent
  obtain ⟨hdvd, henough, hbound, hle⟩ :=
    dueSize_cases (dvd_mul_left (2 ^ k) maxPages) hgrowth hfits
  refine ⟨hdvd, henough, hbound, Word.add_eq_ok_iff.mpr ⟨by omega, rfl⟩, fun request' hless => ?_⟩
  -- fewer doublings are enough for less
  obtain ⟨i', hi'⟩ := exists_isLeast_doublings hpos current (request' + 64)
  have hpow : aim (2 ^ k) current * 2 ^ i' ≤ aim (2 ^ k) current * 2 ^ i :=
    Nat.mul_le_mul_left _ (Nat.pow_le_pow_right Nat.two_pos
      (hi'.2 ((Nat.add_le_add_right hless 64).trans hfits)))
  refine ⟨_, dueSize_mono (Nat.add_le_add_right hless 64) (Nat.sub_le_sub_right hpow current), ?_⟩
  rw [regionSize_eq hk hcurrent hcap hi', if_pos ⟨by omega, haim, by omega⟩]

/-- A heap of two pages that needs more than a page doubles, and grows by no more for less. -/
theorem regionSize_closed_two_pages :
    regionSize (2 ^ 12) 0x2000 32 0x1000 = .ok (some 0x2000) ∧
      Word.add 0x2000 0x2000 = .ok 0x4000 ∧
      ∀ request' ≤ 0x1000, ∃ n' ≤ 0x2000,
        regionSize (2 ^ 12) 0x2000 32 request' = .ok (some n') := by
  have hsize : regionSize (2 ^ 12) 0x2000 32 0x1000 = .ok (some 0x2000) := by decide +kernel
  obtain ⟨-, -, -, hroom, hless⟩ :=
    (regionSize_closed (by decide) (by decide) (by decide) 0x1000).2 0x2000 hsize
  exact ⟨hsize, hroom, hless⟩

end BoundaryTag
