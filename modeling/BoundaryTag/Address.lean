/-!
# Addresses

An address counts bytes from the start of the address space. Addresses are plain natural numbers;
what is stored in memory is always below `2 ^ 64`, and so is every address that a stored offset
leads to.
-/

namespace BoundaryTag

/-- The written form of an address: lowercase hexadecimal after `0x`. -/
def hex (a : Nat) : String := "0x" ++ String.ofList (Nat.toDigits 16 a)

/-- A number in uppercase hexadecimal after `0x`. -/
def hexUpper (v : Nat) : String := "0x" ++ (String.ofList (Nat.toDigits 16 v)).toUpper

/-- The written form of an address that may be absent, with the address in decimal. -/
def optionText : Option Nat → String
  | none => "None"
  | some a => s!"Some({a})"

end BoundaryTag
