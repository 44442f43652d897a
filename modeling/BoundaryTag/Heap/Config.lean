/-!
# Heap configuration
-/

namespace BoundaryTag

/-- When an empty region goes back to its source. -/
inductive ReclaimPolicy where
  /-- An empty region is unmapped unless it holds the only free block of the heap. -/
  | keepLastFree
  /-- Every region is unmapped as soon as it is empty. -/
  | always
  /-- Regions stay mapped until the heap is reset or dropped. -/
  | never
deriving DecidableEq, Repr, Inhabited

/-- What can be tuned about a heap. -/
structure Config where
  /-- Upper bound, in pages, of the memory added by one growth step. -/
  maxRegionPages : Nat := 32
  reclaim : ReclaimPolicy := .keepLastFree
  /-- Whether the heap is checked after every operation and what is found is logged. -/
  checkEachOp : Bool := false
deriving DecidableEq, Repr, Inhabited

namespace Config

/-- Sets the bound of a growth step, which is at least one page. -/
def withMaxRegionPages (c : Config) (pages : Nat) : Config :=
  { c with maxRegionPages := max pages 1 }

def withReclaim (c : Config) (policy : ReclaimPolicy) : Config := { c with reclaim := policy }

def withCheckEachOp (c : Config) (check : Bool) : Config := { c with checkEachOp := check }

end Config

end BoundaryTag
