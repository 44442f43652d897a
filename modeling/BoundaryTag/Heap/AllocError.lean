/-!
# Allocation errors
-/

namespace BoundaryTag

/-- Why a request for memory was not served. -/
inductive AllocError where
  /-- The source refused to map a region of `size` bytes, for the stated cause. -/
  | mapFailed (size : Nat) (cause : String)
  /-- No block of `size` bytes was found even in a new region. -/
  | outOfMemory (size : Nat)
  /-- The request cannot be rounded, or no region for it can be sized, within the address space. -/
  | sizeOverflow (size : Nat)
deriving DecidableEq, Repr

namespace AllocError

def size : AllocError → Nat
  | mapFailed size _ | outOfMemory size | sizeOverflow size => size

/-- The cause given by the source, if there is one. -/
def cause? : AllocError → Option String
  | mapFailed _ cause => some cause
  | outOfMemory _ | sizeOverflow _ => none

def message : AllocError → String
  | mapFailed size _ => s!"failed to map a {size} byte region"
  | outOfMemory size => s!"out of memory: no block of {size} bytes after growing the heap"
  | sizeOverflow size => s!"allocation of {size} bytes overflows the address space"

end AllocError

end BoundaryTag
