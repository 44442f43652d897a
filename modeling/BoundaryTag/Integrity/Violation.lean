import BoundaryTag.Address

/-!
# Violations of the heap's invariants
-/

namespace BoundaryTag

/-- A way in which the blocks of the regions and the free list fail to be in order. -/
inductive Violation where
  /-- The first block of the region has a predecessor, or the way back does not end at it. -/
  | missingSentinel (region : Nat)
  /-- The forward offset of a block is no multiple of the alignment, or shorter than a header. -/
  | badForward (block : Nat) (forward : Nat)
  /-- The backward offset of a block is not its distance from its predecessor. -/
  | brokenBackLink (block : Nat) (expected found : Nat)
  /-- Going back from a block and forward again does not lead to the block. -/
  | brokenForwardLink (block previous : Nat)
  | adjacentFree (first second : Nat)
  /-- The blocks of a region do not lead to its terminator. -/
  | badTerminator (region expected found : Nat)
  /-- The link of a free list entry to the entry before it is wrong. -/
  | brokenFreeLink (block : Nat) (expected found : Option Nat)
  | freeListCycle (block : Nat)
  | allocatedOnFreeList (block : Nat)
  | foreignFreeEntry (block : Nat)
  | unlistedFreeBlock (block : Nat)
  /-- The free list has different lengths in the two directions. -/
  | freeListLength (forward backward : Nat)
deriving DecidableEq, Repr

namespace Violation

def message : Violation → String
  | missingSentinel region => s!"region {hex region} does not start with a sentinel"
  | badForward block forward =>
    s!"block {hex block} has forward offset {forward}, " ++
      "not a 16 byte multiple of at least one header"
  | brokenBackLink block expected found =>
    s!"block {hex block} has backward offset {found} instead of {expected}"
  | brokenForwardLink block previous =>
    s!"block {hex block} is not reached again from its predecessor {hex previous}"
  | adjacentFree first second =>
    s!"blocks {hex first} and {hex second} are adjacent and both free"
  | badTerminator region expected found =>
    s!"region {hex region} chain ends at {hex found} instead of its terminator {hex expected}"
  | brokenFreeLink block expected found =>
    s!"free list entry {hex block} links back to {optionText found} " ++
      s!"instead of {optionText expected}"
  | freeListCycle block => s!"free list visits {hex block} twice"
  | allocatedOnFreeList block => s!"free list entry {hex block} is allocated"
  | foreignFreeEntry block => s!"free list entry {hex block} lies outside every region"
  | unlistedFreeBlock block => s!"free block {hex block} is missing from the free list"
  | freeListLength forward backward =>
    s!"free list has {forward} entries walking forward but {backward} walking backward"

/-- Whether walking the free list may not end, or may leave the regions. -/
def isUnsafeToWalk : Violation → Bool
  | freeListCycle _ | foreignFreeEntry _ => true
  | _ => false

end Violation

end BoundaryTag
