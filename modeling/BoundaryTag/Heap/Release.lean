import BoundaryTag.Heap.Allocate

/-!
# Release

A released block is joined with its free neighbours. A region that is left as one free block goes
back to the source if the reclaim policy says so.
-/

namespace BoundaryTag.HeapM

variable {σ : Type} [Source σ]

/-- Joins a free block to the block before it. -/
def merge (survivor absorbed : Nat) : HeapM σ Unit := do
  let m ← memory
  let span ← ofExcept (Word.add (m.forward survivor) (m.forward absorbed))
  let after := m.next absorbed
  editFree (·.remove absorbed)
  store fun m => m.setForward survivor span
  ofExcept (requireAligned after)
  store fun m => m.setBackward after span
  emit (.coalesced absorbed survivor)

/-- Joins a free block with the block after it, if that is free too. -/
def mergeNext (b : Nat) : HeapM σ Unit := do
  let m ← memory
  let next := m.next b
  ofExcept (requireAligned next)
  if !m.isTerminator next && !m.isAllocated next then merge b next

/-- Joins a free block to the block before it, if that is free too. Answers the block that the
bytes of `b` belong to then. -/
def mergePrevious (b : Nat) : HeapM σ Nat := do
  let m ← memory
  if m.isSentinel b then return b
  let previous := m.previous b
  ofExcept (requireAligned previous)
  if m.isAllocated previous then return b
  merge previous b
  return previous

/-- Whether the policy lets a region go whose only block is the free block `b`. -/
def shouldReclaim (b : Nat) : HeapM σ Bool := do
  let h ← heap
  match h.config.reclaim with
  | .always => return true
  | .never => return false
  | .keepLastFree =>
    if h.free.head ≠ some b then return true
    let { next, .. } ← inspect (·.links b)
    return next.isSome

/-- Gives back the region of the free block `b` if it has no other block and the policy lets it
go. -/
def reclaim (b : Nat) : HeapM σ Unit := do
  let m ← memory
  if m.isSentinel b then
    let next := m.next b
    ofExcept (requireAligned next)
    if m.isTerminator next then
      if ← shouldReclaim b then
        editFree (·.remove b)
        releaseRegion b

/-- Takes back the block with the given payload. -/
def release (payload : Nat) : HeapM σ Unit := do
  emit (.released payload)
  let b := blockOf payload
  ofExcept (requireAligned b)
  store fun m => m.markFree b
  editFree (·.pushFront b)
  mergeNext b
  let b ← mergePrevious b
  reclaim b
  checkAfter .release

/-- Gives up all regions and starts over. -/
def reset : HeapM σ Unit := do
  releaseAll
  update fun h => { h with free := {} }
  emit .reset

end BoundaryTag.HeapM
