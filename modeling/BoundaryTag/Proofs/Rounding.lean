import Mathlib.Algebra.Group.Nat.Defs
import Mathlib.Order.Bounds.Basic
import BoundaryTag.Proofs.Program

/-!
# Rounding

What is cleared of a word and what is kept make up the word (`Word.clear_add_and`). So clearing low
bits rounds down to a multiple of a power of two (`Word.clear_two_pow`), and `align?` and `roundUp`
answer the least multiple that is not below their argument. They differ at one place, the last
multiple before the end of the words, where `roundUp` faults (`roundings_isLeast`). Clearing any
other mask that was added does at least not lead below what it was added to (`Word.le_clear`).
-/

namespace BoundaryTag

variable {v w k r : Nat}

/-! ### Clearing bits -/

namespace Word

variable {mask : Nat}

theorem limit_eq : limit = 2 ^ 64 := rfl

theorem testBit_clear (hmask : mask < limit) (i : Nat) :
    (clear v mask).testBit i = (v.testBit i && (decide (i < 64) && !mask.testBit i)) := by
  have hsub : limit - 1 - mask = 2 ^ 64 - (mask + 1) := by rw [limit_eq]; omega
  rw [clear, Nat.testBit_and, hsub, Nat.testBit_two_pow_sub_succ hmask]

theorem clear_le (v mask : Nat) : clear v mask ≤ v := Nat.and_le_left

theorem clear_and (hmask : mask < limit) : clear v mask &&& mask = 0 := by
  apply Nat.eq_of_testBit_eq
  intro i
  rw [Nat.testBit_and, testBit_clear hmask]
  cases mask.testBit i <;> simp

/-- What is cleared of a word and what is kept of it make up the word. -/
theorem clear_add_and (hv : v < limit) (hmask : mask < limit) :
    clear v mask + (v &&& mask) = v := by
  have hdisjoint : (BitVec.ofNat 64 v &&& ~~~BitVec.ofNat 64 mask) &&&
      (BitVec.ofNat 64 v &&& BitVec.ofNat 64 mask) = 0#64 := by
    ext i
    simp only [BitVec.getElem_and, BitVec.getElem_not, BitVec.getElem_zero]
    cases (BitVec.ofNat 64 mask)[i] <;> simp
  have hjoin : (BitVec.ofNat 64 v &&& ~~~BitVec.ofNat 64 mask) |||
      (BitVec.ofNat 64 v &&& BitVec.ofNat 64 mask) = BitVec.ofNat 64 v := by
    ext i
    simp only [BitVec.getElem_and, BitVec.getElem_or, BitVec.getElem_not]
    cases (BitVec.ofNat 64 mask)[i] <;> simp
  have hsum := BitVec.toNat_add_of_and_eq_zero hdisjoint
  rw [BitVec.add_eq_or_of_and_eq_zero _ _ hdisjoint, hjoin, BitVec.toNat_and, BitVec.toNat_and,
    BitVec.toNat_not, BitVec.toNat_ofNat, BitVec.toNat_ofNat, Nat.mod_eq_of_lt hv,
    Nat.mod_eq_of_lt hmask] at hsum
  exact hsum.symm

/-- Clearing the bits of what was added leaves no less than there was before. -/
theorem le_clear (h : v + mask < limit) : v ≤ clear (v + mask) mask := by
  have hsum := clear_add_and h (Nat.lt_of_le_of_lt (Nat.le_add_left _ _) h)
  have hkept : (v + mask) &&& mask ≤ mask := Nat.and_le_right
  omega

/-- Only what is not above the mask may be cleared to nothing. -/
theorem clear_pos (hv : v < limit) (hlt : mask < v) : 0 < clear v mask := by
  have hsum := clear_add_and hv (Nat.lt_trans hlt hv)
  have hkept : v &&& mask ≤ mask := Nat.and_le_right
  omega

/-- Clearing the low `k` bits leaves the greatest multiple of `2 ^ k` that is not above. -/
theorem clear_two_pow (hv : v < limit) (hk : k ≤ 64) :
    clear v (2 ^ k - 1) = v / 2 ^ k * 2 ^ k := by
  have hmask : 2 ^ k - 1 < limit :=
    Nat.lt_of_lt_of_le (Nat.sub_lt (Nat.two_pow_pos k) Nat.one_pos)
      (Nat.pow_le_pow_right Nat.two_pos hk)
  have hsum := clear_add_and hv hmask
  have hdiv := Nat.div_add_mod v (2 ^ k)
  rw [Nat.and_two_pow_sub_one_eq_mod] at hsum
  rw [Nat.mul_comm]
  omega

/-- A power of two above the mask is not touched. -/
theorem clear_pow (hk : k < 64) (hmask : mask < 2 ^ k) : clear (2 ^ k) mask = 2 ^ k := by
  have hlt : 2 ^ k < limit := Nat.pow_lt_pow_right (by decide) hk
  have hsum := clear_add_and hlt (Nat.lt_trans hmask hlt)
  have hkept : 2 ^ k &&& mask = 0 := by
    apply Nat.eq_of_testBit_eq
    intro i
    rw [Nat.testBit_and, Nat.testBit_two_pow, Nat.zero_testBit]
    by_cases hi : k = i
    · rw [← hi, Nat.testBit_lt_two_pow hmask, Bool.and_false]
    · rw [decide_eq_false hi, Bool.false_and]
  omega

end Word

/-! ### Rounding up -/

/-- Rounded down, `v + 2 ^ k - 1` is the least multiple of `2 ^ k` that is not below `v`. -/
theorem le_roundedUp (v k : Nat) : v ≤ (v + (2 ^ k - 1)) / 2 ^ k * 2 ^ k := by
  have hpos := Nat.two_pow_pos k
  have hdiv := Nat.div_add_mod (v + (2 ^ k - 1)) (2 ^ k)
  have hmod := Nat.mod_lt (v + (2 ^ k - 1)) hpos
  rw [Nat.mul_comm] at hdiv
  omega

theorem roundedUp_lt (v k : Nat) : (v + (2 ^ k - 1)) / 2 ^ k * 2 ^ k < v + 2 ^ k := by
  have hpos := Nat.two_pow_pos k
  have hle := Nat.div_mul_le_self (v + (2 ^ k - 1)) (2 ^ k)
  omega

/-- A multiple of a power of two leaves room for one more unit before the end of the words. -/
theorem add_two_pow_le_limit {v : Nat} (hk : k < 64) (hd : 2 ^ k ∣ v) (hv : v < Word.limit) :
    v + 2 ^ k ≤ Word.limit := by
  have hlimit : 2 ^ k ∣ Word.limit := Nat.pow_dvd_pow 2 (Nat.le_of_lt hk)
  have hle := Nat.le_of_dvd (Nat.sub_pos_of_lt hv) (Nat.dvd_sub hlimit hd)
  omega

/-- `v` rounded up to a multiple of `unit`. -/
def roundedUp (v unit : Nat) : Nat := (v + (unit - 1)) / unit * unit

/-- The least multiple that is not below `v`. -/
theorem isLeast_roundedUp (v k : Nat) : IsLeast {n | 2 ^ k ∣ n ∧ v ≤ n} (roundedUp v (2 ^ k)) := by
  refine ⟨⟨Nat.dvd_mul_left _ _, le_roundedUp v k⟩, fun n hn => ?_⟩
  obtain ⟨⟨c, rfl⟩, hv⟩ := hn
  have hlt : v + (2 ^ k - 1) < 2 ^ k * (c + 1) := by
    have := Nat.two_pow_pos k
    rw [Nat.mul_succ]
    omega
  rw [roundedUp, Nat.mul_comm]
  exact Nat.mul_le_mul_left _ (Nat.le_of_lt_succ (Nat.div_lt_of_lt_mul hlt))

theorem roundedUp_of_dvd (hd : 2 ^ k ∣ v) : roundedUp v (2 ^ k) = v :=
  (isLeast_roundedUp v k).unique ⟨⟨hd, Nat.le_refl v⟩, fun _ hn => hn.2⟩

theorem roundedUp_mono (h : v ≤ w) : roundedUp v (2 ^ k) ≤ roundedUp w (2 ^ k) :=
  (isLeast_roundedUp v k).2 ⟨(isLeast_roundedUp w k).1.1, h.trans (isLeast_roundedUp w k).1.2⟩

/-- The least multiple is a word where there is room for a unit after `v`. -/
theorem roundedUp_lt_limit_iff (hk : k < 64) :
    roundedUp v (2 ^ k) < Word.limit ↔ v + 2 ^ k ≤ Word.limit := by
  obtain ⟨hdvd, hle⟩ := (isLeast_roundedUp v k).1
  constructor
  · intro hlt
    have hroom := add_two_pow_le_limit hk hdvd hlt
    omega
  · intro hroom
    have hlt : roundedUp v (2 ^ k) < v + 2 ^ k := roundedUp_lt v k
    omega

theorem roundUp_eq_ok_iff {unit : Nat} (hpos : 0 < unit) : roundUp v unit = .ok r ↔
    v + unit < Word.limit ∧ r = Word.clear (v + (unit - 1)) (unit - 1) := by
  have hmask : Word.sub unit 1 = .ok (unit - 1) := Word.sub_eq_ok_iff.mpr ⟨hpos, rfl⟩
  have htop : Word.sub (v + unit) 1 = .ok (v + (unit - 1)) :=
    Word.sub_eq_ok_iff.mpr ⟨by omega, by omega⟩
  unfold roundUp
  constructor
  · intro h
    obtain ⟨sum, hsum, h⟩ := except_bind_eq_ok_iff.mp h
    obtain ⟨hlt, rfl⟩ := Word.add_eq_ok_iff.mp hsum
    rw [htop, ok_bind, hmask, ok_bind] at h
    cases h
    exact ⟨hlt, rfl⟩
  · rintro ⟨hlt, rfl⟩
    rw [Word.add_eq_ok_iff.mpr ⟨hlt, rfl⟩, ok_bind, htop, ok_bind, hmask, ok_bind]
    rfl

theorem roundUp_two_pow (hk : k ≤ 64) (h : v + 2 ^ k < Word.limit) :
    roundUp v (2 ^ k) = .ok ((v + (2 ^ k - 1)) / 2 ^ k * 2 ^ k) := by
  have hpos := Nat.two_pow_pos k
  rw [← Word.clear_two_pow (by omega) hk]
  exact (roundUp_eq_ok_iff hpos).mpr ⟨h, rfl⟩

/-- Where the sum is no word, rounding up faults. -/
theorem roundUp_eq_error {unit : Nat} (h : Word.limit ≤ v + unit) :
    roundUp v unit = .error .addOverflow := by
  unfold roundUp
  rw [Word.add, if_neg (Nat.not_lt_of_le h)]
  rfl

/-- The payload size that serves a request for `size` bytes: `size` rounded up to the alignment,
but no less than the smallest payload. -/
def servedSize (size : Nat) : Nat := max minPayload ((size + 15) / 16 * 16)

theorem align?_eq_some_iff : align? v = some r ↔ v + 15 < Word.limit ∧ r = (v + 15) / 16 * 16 := by
  unfold align?
  rw [Option.map_eq_some_iff]
  constructor
  · rintro ⟨s, hs, rfl⟩
    obtain ⟨hlt, rfl⟩ := Word.add?_eq_some_iff.mp hs
    exact ⟨hlt, Word.clear_two_pow (k := 4) hlt (by decide)⟩
  · rintro ⟨hlt, rfl⟩
    exact ⟨v + 15, Word.add?_eq_some_iff.mpr ⟨hlt, rfl⟩,
      Word.clear_two_pow (k := 4) hlt (by decide)⟩

theorem roundRequest_eq_some_iff :
    roundRequest v = some r ↔ v + 15 < Word.limit ∧ r = servedSize v := by
  unfold roundRequest servedSize
  rw [Option.map_eq_some_iff]
  constructor
  · rintro ⟨s, hs, rfl⟩
    obtain ⟨hlt, rfl⟩ := align?_eq_some_iff.mp hs
    exact ⟨hlt, rfl⟩
  · rintro ⟨hlt, rfl⟩
    exact ⟨_, align?_eq_some_iff.mpr ⟨hlt, rfl⟩, rfl⟩

theorem roundRequest_eq_none_iff : roundRequest v = none ↔ Word.limit ≤ v + 15 := by
  rw [← Nat.not_lt]
  constructor
  · intro hnone hlt
    nomatch hnone.symm.trans (roundRequest_eq_some_iff.mpr ⟨hlt, rfl⟩)
  · intro hge
    cases hround : roundRequest v with
    | none => rfl
    | some needed => exact absurd (roundRequest_eq_some_iff.mp hround).1 hge

/-- Just the multiples of the alignment that make a payload are not changed by rounding. -/
theorem servedSize_eq_self_iff (size : Nat) : servedSize size = size ↔ 16 ≤ size ∧ 16 ∣ size := by
  unfold servedSize minPayload
  omega

theorem servedSize_mod (size : Nat) : servedSize size % 16 = 0 := by
  unfold servedSize minPayload; omega

theorem minPayload_le_servedSize (size : Nat) : 16 ≤ servedSize size := by
  unfold servedSize minPayload; omega

/-! ### The least multiple -/

/-- No multiple that is not below `v` is a word where there is no room for a unit after `v`. -/
theorem forall_limit_le_iff (hk : k < 64) :
    (∀ n, 2 ^ k ∣ n → v ≤ n → Word.limit ≤ n) ↔ Word.limit < v + 2 ^ k := by
  obtain ⟨⟨hdvd, hle⟩, hleast⟩ := isLeast_roundedUp v k
  rw [← Nat.not_le, ← roundedUp_lt_limit_iff hk, Nat.not_lt]
  exact ⟨fun h => h _ hdvd hle, fun h n hn hvn => h.trans (hleast ⟨hn, hvn⟩)⟩

/-- Rounding up answers the least multiple that is not below `v` if this is a word, unless `v`
itself is the last multiple before the end of the words. -/
theorem roundUp_eq_ok_iff_isLeast (hk : k < 64) : roundUp v (2 ^ k) = .ok r ↔
    IsLeast {n | 2 ^ k ∣ n ∧ v ≤ n} r ∧ r < Word.limit ∧ v + 2 ^ k ≠ Word.limit := by
  have hleast := isLeast_roundedUp v k
  have hword := roundedUp_lt_limit_iff (v := v) hk
  constructor
  · intro hrun
    obtain ⟨hlt, -⟩ := (roundUp_eq_ok_iff (Nat.two_pow_pos k)).mp hrun
    rw [roundUp_two_pow (Nat.le_of_lt hk) hlt] at hrun
    cases hrun
    exact ⟨hleast, hword.mpr (Nat.le_of_lt hlt), Nat.ne_of_lt hlt⟩
  · rintro ⟨hr, hlt, hne⟩
    obtain rfl := hr.unique hleast
    exact roundUp_two_pow (Nat.le_of_lt hk) (Nat.lt_of_le_of_ne (hword.mp hlt) hne)

theorem align?_eq_some_iff_isLeast :
    align? v = some r ↔ IsLeast {n | 16 ∣ n ∧ v ≤ n} r ∧ r < Word.limit := by
  have hleast := isLeast_roundedUp v 4
  have hword := roundedUp_lt_limit_iff (v := v) (k := 4) (by decide)
  rw [align?_eq_some_iff]
  constructor
  · rintro ⟨hlt, rfl⟩
    exact ⟨hleast, hword.mpr hlt⟩
  · rintro ⟨hr, hlt⟩
    obtain rfl := hr.unique hleast
    exact ⟨hword.mp hlt, rfl⟩

theorem align?_eq_none_iff_forall :
    align? v = none ↔ ∀ n, 16 ∣ n → v ≤ n → Word.limit ≤ n := by
  rw [show (∀ n, 16 ∣ n → v ≤ n → Word.limit ≤ n) ↔ Word.limit < v + 16 from
    forall_limit_le_iff (k := 4) (by decide)]
  constructor
  · intro hnone
    refine Nat.lt_of_not_le fun hle => ?_
    have hsome : align? v = some _ := align?_eq_some_iff.mpr ⟨by omega, rfl⟩
    nomatch hnone.symm.trans hsome
  · intro hlt
    cases hround : align? v with
    | none => rfl
    | some r =>
      obtain ⟨hword, -⟩ := align?_eq_some_iff.mp hround
      omega

/-- Rounding up answers the least multiple of a power of two that is not below `v`, and faults if no
such multiple is a word, but also if `v` is itself the last one that is. For the alignment, `align?`
answers the least multiple in this case too, and so the two roundings differ in this case alone. -/
theorem roundings_isLeast (hk : k < 64) (v : Nat) :
    (∀ r, roundUp v (2 ^ k) = .ok r ↔
      IsLeast {n | 2 ^ k ∣ n ∧ v ≤ n} r ∧ r < Word.limit ∧ v + 2 ^ k ≠ Word.limit) ∧
    (∀ fault, roundUp v (2 ^ k) = .error fault ↔ fault = .addOverflow ∧
      ((∀ n, 2 ^ k ∣ n → v ≤ n → Word.limit ≤ n) ∨ v + 2 ^ k = Word.limit)) ∧
    (∀ r, align? v = some r ↔ IsLeast {n | 16 ∣ n ∧ v ≤ n} r ∧ r < Word.limit) ∧
    (align? v = none ↔ ∀ n, 16 ∣ n → v ≤ n → Word.limit ≤ n) ∧
    ∀ r, align v = .ok r ↔ align? v = some r ∧ v + 16 ≠ Word.limit := by
  refine ⟨fun r => roundUp_eq_ok_iff_isLeast hk, fun fault => ?_,
    fun r => align?_eq_some_iff_isLeast, align?_eq_none_iff_forall, fun r => ?_⟩
  · rw [forall_limit_le_iff hk, ← eq_comm (a := Word.limit), ← Nat.le_iff_lt_or_eq]
    by_cases hlt : v + 2 ^ k < Word.limit
    · simp [roundUp_two_pow (Nat.le_of_lt hk) hlt, hlt]
    · have hle : Word.limit ≤ v + 2 ^ k := Nat.le_of_not_lt hlt
      simp [roundUp_eq_error hle, hle, eq_comm]
  · rw [show align v = .ok r ↔ _ from roundUp_eq_ok_iff_isLeast (k := 4) (by decide),
      align?_eq_some_iff_isLeast, and_assoc]
    exact Iff.rfl

/-- Of pages of 4096 bytes, the first byte after the start of the second one is rounded up to the
third, and rounding the start of the last one faults. -/
theorem roundings_isLeast_of_pages :
    roundUp 0x1001 (2 ^ 12) = .ok 0x2000 ∧ IsLeast {n | 2 ^ 12 ∣ n ∧ 0x1001 ≤ n} 0x2000 ∧
      roundUp (2 ^ 64 - 2 ^ 12) (2 ^ 12) = .error .addOverflow := by
  have hround : roundUp 0x1001 (2 ^ 12) = .ok 0x2000 := rfl
  obtain ⟨hleast, -⟩ := ((roundings_isLeast (k := 12) (by decide) 0x1001).1 0x2000).mp hround
  have hfault : roundUp (2 ^ 64 - 2 ^ 12) (2 ^ 12) = .error .addOverflow :=
    ((roundings_isLeast (by decide) _).2.1 _).mpr ⟨rfl, .inr rfl⟩
  exact ⟨hround, hleast, hfault⟩

/-- The last multiple of the alignment is the least one not below itself. The one rounding answers
it, the other faults. -/
theorem align_of_last_multiple :
    IsLeast {n | 16 ∣ n ∧ 2 ^ 64 - 16 ≤ n} (2 ^ 64 - 16) ∧ 2 ^ 64 - 16 < Word.limit ∧
      align? (2 ^ 64 - 16) = some (2 ^ 64 - 16) ∧
      align (2 ^ 64 - 16) = .error .addOverflow :=
  ⟨⟨⟨by decide, Nat.le_refl _⟩, fun _ hn => hn.2⟩, by decide, rfl, rfl⟩

end BoundaryTag
