import BoundaryTag.Address

/-!
# Faults

A fault is a broken assumption that stops an operation half way: what the operation wrote before
it stays written. Failures that an operation reports as a result are `AllocError`s instead.
-/

namespace BoundaryTag

/-- Why an operation stopped half way. -/
inductive Fault where
  | addOverflow
  | subOverflow
  /-- The links of a free block were asked of a block that is tagged allocated. -/
  | linksOfAllocated (block : Nat)
  /-- The first block of a region about to be unmapped does not span the region: with the
  terminator it covers `span` of `size` bytes. -/
  | spanMismatch (span size : Nat)
  /-- A region was mapped `offset` bytes past a multiple of the alignment. -/
  | misplacedRegion (offset : Nat)
  /-- A source was asked for `size` bytes, `rest` more than a whole number of pages. -/
  | partialPage (size rest : Nat)
  | endlessWalk
  /-- A header was to be read or written at an address that is no multiple of the alignment. -/
  | misalignedHeader (address : Nat)
deriving DecidableEq, Repr

namespace Fault

/-- The text of a failed comparison of two numbers, with an explanation or none. -/
def unequal (left right : Nat) (explanation : String) : String :=
  s!"assertion `left == right` failed{explanation}\n  left: {left}\n right: {right}"

def message : Fault → String
  | addOverflow => "attempt to add with overflow"
  | subOverflow => "attempt to subtract with overflow"
  | linksOfAllocated block =>
    "internal error: entered unreachable code: free node read from allocated block " ++ hex block
  | spanMismatch span size => unequal span size ""
  | misplacedRegion offset => unequal offset 0 ""
  | partialPage size rest => unequal rest 0 s!": region of {size} bytes is not page sized"
  | endlessWalk => "the walk has no end"
  | misalignedHeader address =>
    "misaligned pointer dereference: address must be a multiple of 0x10 but is " ++ hex address

/-- Whether a fault ends the whole program, and not only the operation that met it. -/
def isFatal : Fault → Bool
  | misalignedHeader _ => true
  | _ => false

end Fault

end BoundaryTag
