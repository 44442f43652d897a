import BoundaryTag.Memory.Block

/-!
# Regions

A region is a mapped range of memory that is tiled by blocks. Its first header is the sentinel,
which has no predecessor; its last header is the terminator, which has no payload.
-/

namespace BoundaryTag

/-- A mapped range of memory. -/
structure Region where
  base : Nat
  size : Nat
deriving DecidableEq, Repr

namespace Region

def sentinel (r : Region) : Nat := r.base

def terminator (r : Region) : Nat := r.base + (r.size - headerSize)

/-- The address just past the last byte. -/
def stop (r : Region) : Except Fault Nat := Word.add r.base r.size

def contains (r : Region) (b : Nat) : Except Fault Bool := do
  let stop ← r.stop
  return r.base ≤ b && b < stop

/-- The number of bytes in some regions. -/
def totalSize : List Region → Nat
  | [] => 0
  | r :: rs => r.size + totalSize rs

end Region

end BoundaryTag
