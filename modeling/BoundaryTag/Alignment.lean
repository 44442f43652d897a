import BoundaryTag.Word

/-!
# Alignment

Every header, block and payload starts at a multiple of `alignment`. Sizes are rounded up to a
unit by adding one less than the unit and clearing the low bits, which is rounding up when the
unit is a power of two.
-/

namespace BoundaryTag

/-- The unit in which blocks are placed and payload sizes are counted. -/
def alignment : Nat := 16

/-- `v` rounded up to a multiple of the power of two `unit`. The sum `v + unit` is formed first,
so it has to be a word even where the rounded value would be one. -/
def roundUp (v unit : Nat) : Except Fault Nat := do
  let sum ← Word.add v unit
  let top ← Word.sub sum 1
  let mask ← Word.sub unit 1
  return Word.clear top mask

/-- `v` rounded up to the alignment. -/
def align (v : Nat) : Except Fault Nat := roundUp v alignment

/-- `v` rounded up to the alignment, or `none` if the rounded value is no word. -/
def align? (v : Nat) : Option Nat :=
  (Word.add? v (alignment - 1)).map (Word.clear · (alignment - 1))

end BoundaryTag
