import BoundaryTag.Workbench.Basic

/-!
# Views of a heap

What a workbench shows of a heap after a step: the blocks of each region as they are linked by
their forward offsets, in order or not, and the free list.
-/

namespace BoundaryTag.Workbench

/-- A block as it stands in memory. -/
structure BlockView where
  offset : Nat
  forward : Nat
  backward : Nat
  /-- The tag, if the forward offset or the place of the block is right. -/
  tag : Option Tag
  /-- The links, if the block is free and has room for them. -/
  links : Option Links

structure RegionView where
  region : Region
  blocks : List BlockView

/-- Whether an offset leads from a header to another. -/
def isSpan (forward : Nat) : Bool := forward % alignment = 0 && headerSize ≤ forward

def viewBlock (m : Memory) (r : Region) (b : Nat) : BlockView :=
  let forward := m.forward b
  let tag := if isSpan forward || b = r.terminator then some (m.tag b) else none
  { offset := b - r.base
    forward
    backward := m.backward b
    tag
    links :=
      if headerSize + minPayload ≤ forward && tag = some .free then
        some { next := m.link (b + 32), prev := m.link (b + 40) }
      else none }

/-- The blocks of a region from `b` on, as far as they are linked by forward offsets. -/
def viewFrom (m : Memory) (r : Region) (b : Nat) : List BlockView :=
  let view := viewBlock m r b
  if _h : isSpan (m.forward b) ∧ m.forward b < farOffset ∧ b + m.forward b ≤ r.terminator then
    view :: viewFrom m r (b + m.forward b)
  else [view]
termination_by r.terminator - b
decreasing_by
  obtain ⟨span, _, inside⟩ := _h
  have long : 32 ≤ m.forward b := of_decide_eq_true (Bool.and_eq_true_iff.mp span).2
  omega

def viewRegion (m : Memory) (r : Region) : RegionView where
  region := r
  blocks := viewFrom m r r.sentinel

variable {σ : Type}

structure HeapView where
  stats : Stats
  violations : Except Fault Nat
  /-- The number of free blocks, unless the walk along them may not end. -/
  freeBlocks : Option (Except Fault Nat)

def viewHeap (m : Memory) (h : Heap σ) : HeapView :=
  let violations := check m h.regions h.free
  let isUnsafe := match violations with
    | .ok vs => vs.any Violation.isUnsafeToWalk
    | .error _ => false
  { stats := h.stats
    violations := violations.map List.length
    freeBlocks := if isUnsafe then none else some (h.free.length m) }

def shownEntries : Nat := 64

end BoundaryTag.Workbench
