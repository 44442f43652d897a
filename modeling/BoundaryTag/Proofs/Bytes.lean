import Mathlib.Algebra.Group.Nat.Defs
import BoundaryTag.Proofs.Changes

/-!
# Bytes

Storing a byte replaces one digit of a word to the base 256 and leaves the other digits alone
(`byte_writeByte`).
-/

namespace BoundaryTag.Memory

variable {m : Memory} {a b v d p q i j : Nat}

/-- The number `v` with `d` for the digit of weight `p`. -/
def setDigit (v p d : Nat) : Nat := v - v / p % 256 * p + d * p

theorem setDigit_eq : setDigit v p d = (v / (p * 256) * 256 + d) * p + v % p := by
  have hlow := Nat.div_add_mod' v p
  have hhigh := Nat.div_add_mod' (v / p) 256
  rw [Nat.div_div_eq_div_mul] at hhigh
  have hsplit : v = v / (p * 256) * 256 * p + v / p % 256 * p + v % p := by
    rw [← Nat.add_mul, hhigh, hlow]
  unfold setDigit
  rw [Nat.add_mul]
  omega

theorem setDigit_div (hp : 0 < p) : setDigit v p d / p = v / (p * 256) * 256 + d := by
  rw [setDigit_eq, Nat.add_comm, Nat.add_mul_div_right _ _ hp, Nat.div_eq_of_lt (Nat.mod_lt v hp),
    Nat.zero_add]

/-- The digit that was set. -/
theorem setDigit_digit (hp : 0 < p) (hd : d < 256) : setDigit v p d / p % 256 = d := by
  rw [setDigit_div hp, Nat.mul_add_mod', Nat.mod_eq_of_lt hd]

/-- Higher digits are as they were. -/
theorem setDigit_high (hp : 0 < p) (hd : d < 256) (hq : p * 256 ∣ q) :
    setDigit v p d / q = v / q := by
  obtain ⟨r, rfl⟩ := hq
  rw [← Nat.div_div_eq_div_mul, ← Nat.div_div_eq_div_mul, setDigit_div hp, Nat.add_comm,
    Nat.add_mul_div_right _ _ (by decide), Nat.div_eq_of_lt hd, Nat.zero_add,
    Nat.div_div_eq_div_mul v]

/-- Lower digits are as they were. -/
theorem setDigit_low (hq : q * 256 ∣ p) : setDigit v p d / q % 256 = v / q % 256 := by
  have hmod : setDigit v p d % (q * 256) = v % (q * 256) := by
    rw [← Nat.mod_mod_of_dvd (setDigit v p d) hq, ← Nat.mod_mod_of_dvd v hq, setDigit_eq,
      Nat.mul_add_mod', Nat.mod_mod]
  rw [← Nat.mod_mul_right_div_self, ← Nat.mod_mul_right_div_self v, hmod]

theorem byte_eq : m.byte a = m.read (a / 8 * 8) / 2 ^ (8 * (a % 8)) % 256 := by
  unfold byte
  rw [Nat.shiftRight_eq_div_pow]

theorem writeByte_eq :
    m.writeByte a v = m.write (a / 8 * 8)
      (setDigit (m.read (a / 8 * 8)) (2 ^ (8 * (a % 8))) (v % 256)) := by
  unfold writeByte setDigit
  dsimp only
  rw [byte_eq, Nat.shiftLeft_eq, Nat.shiftLeft_eq]

/-- Storing a byte changes one word only. -/
theorem changesOnly_writeByte : ChangesOnly (· = a / 8 * 8) m (m.writeByte a v) :=
  changesOnly_write

theorem weight_dvd (h : i < j) : 2 ^ (8 * i) * 256 ∣ 2 ^ (8 * j) := by
  rw [show (256 : Nat) = 2 ^ 8 from rfl, ← Nat.pow_add]
  exact Nat.pow_dvd_pow 2 (by omega)

theorem setDigit_lt (hv : v < Word.limit) (hi : i < 8) (hd : d < 256) :
    setDigit v (2 ^ (8 * i)) d < Word.limit := by
  have hlimit : 2 ^ (8 * i) * 256 ∣ Word.limit := weight_dvd hi
  have hhigh := setDigit_high (v := v) (Nat.two_pow_pos (8 * i)) hd hlimit
  rw [Nat.div_eq_of_lt hv] at hhigh
  exact Nat.lt_of_div_eq_zero (by decide) hhigh

/-- Storing a byte changes no other byte. -/
theorem byte_writeByte : (m.writeByte a v).byte b = if a = b then v % 256 else m.byte b := by
  have hd : v % 256 < 256 := Nat.mod_lt _ (by decide)
  have hlt := setDigit_lt (m.read_lt_limit (a / 8 * 8)) (Nat.mod_lt a (by decide : 0 < 8)) hd
  rw [byte_eq, byte_eq, writeByte_eq]
  by_cases hword : a / 8 = b / 8
  · rw [hword] at hlt ⊢
    rw [read_write_self hlt]
    rcases Nat.lt_trichotomy (a % 8) (b % 8) with h | h | h
    · rw [if_neg (by omega), setDigit_high (Nat.two_pow_pos _) hd (weight_dvd h)]
    · rw [if_pos (by omega), h, setDigit_digit (Nat.two_pow_pos _) hd]
    · rw [if_neg (by omega), setDigit_low (weight_dvd h)]
  · rw [read_write_of_ne (by omega), if_neg (by omega)]

end BoundaryTag.Memory
