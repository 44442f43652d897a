import BoundaryTag.Fault

/-!
# Arithmetic on 64-bit words

Words are natural numbers below `Word.limit`. Where the result is no word, `add` and `sub` fault,
`add?` and `mul?` answer `none`, and `addWrap` and `subWrap` go on from the other end of the words.
-/

namespace BoundaryTag.Word

/-- One more than the largest word. -/
abbrev limit : Nat := 0x10000000000000000

def add (v w : Nat) : Except Fault Nat :=
  if v + w < limit then .ok (v + w) else .error .addOverflow

def sub (v w : Nat) : Except Fault Nat :=
  if w ≤ v then .ok (v - w) else .error .subOverflow

/-- The sum of two words, if it is a word. -/
def add? (v w : Nat) : Option Nat :=
  if v + w < limit then some (v + w) else none

/-- The product of two words, if it is a word. -/
def mul? (v w : Nat) : Option Nat :=
  if v * w < limit then some (v * w) else none

/-- The word `w` places after `v`, where zero follows the largest word. -/
def addWrap (v w : Nat) : Nat := (v + w) % limit

/-- The word `w` places before `v`, where the largest word precedes zero. -/
def subWrap (v w : Nat) : Nat := (v + (limit - w)) % limit

/-- Clears in `v` the bits that are set in the word `mask`. -/
def clear (v mask : Nat) : Nat := v &&& (limit - 1 - mask)

variable {v w r : Nat}

theorem add_eq_ok_iff : add v w = .ok r ↔ v + w < limit ∧ r = v + w := by
  unfold add; split <;> simp [*, eq_comm]

theorem sub_eq_ok_iff : sub v w = .ok r ↔ w ≤ v ∧ r = v - w := by
  unfold sub; split <;> simp [*, eq_comm]

theorem add?_eq_some_iff : add? v w = some r ↔ v + w < limit ∧ r = v + w := by
  unfold add?; split <;> simp [*, eq_comm]

theorem mul?_eq_some_iff : mul? v w = some r ↔ v * w < limit ∧ r = v * w := by
  unfold mul?; split <;> simp [*, eq_comm]

theorem mul?_eq_none_iff : mul? v w = none ↔ limit ≤ v * w := by
  unfold mul?; split <;> simp <;> omega

theorem addWrap_of_lt (h : v + w < limit) : addWrap v w = v + w := Nat.mod_eq_of_lt h

theorem subWrap_of_le (h : w ≤ v) (hv : v < limit) : subWrap v w = v - w := by
  have split : v + (limit - w) = v - w + limit := by omega
  rw [subWrap, split, Nat.add_mod_right, Nat.mod_eq_of_lt (by omega)]

theorem addWrap_lt (v w : Nat) : addWrap v w < limit := Nat.mod_lt _ (by decide)

theorem subWrap_lt (v w : Nat) : subWrap v w < limit := Nat.mod_lt _ (by decide)

/-- Going back and then on by the same distance leads to where it started. -/
theorem addWrap_subWrap (hv : v < limit) (hw : w ≤ limit) : addWrap (subWrap v w) w = v := by
  have whole : v + (limit - w) + w = v + limit := by omega
  rw [addWrap, subWrap, Nat.mod_add_mod, whole, Nat.add_mod_right, Nat.mod_eq_of_lt hv]

end BoundaryTag.Word
