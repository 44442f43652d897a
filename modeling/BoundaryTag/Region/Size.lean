import BoundaryTag.Memory.Block

/-!
# The size of a new region

A heap that needs memory doubles, or doubles repeatedly until the request fits. The growth is
bounded by a number of pages, except for a request that alone is larger than the bound.
-/

namespace BoundaryTag.RegionSize

/-- The heap size to aim at first: one page for an empty heap, else twice the present size. -/
def firstTarget (page current : Nat) : Except Fault (Option Nat) := do
  if current = 0 then return some page
  let some double := Word.mul? current 2 | return none
  let mask ← Word.sub page 1
  return (Word.add? double mask).map (Word.clear · mask)

/-- The number of doublings that take any positive number out of the words. -/
def maxDoublings : Nat := 64

/-- Doubles `target` until it exceeds `current` by `needed`. Faults where `n` doublings neither come
to this nor lead out of the words, as they never do from zero. -/
def doubleUntil (current needed : Nat) : Nat → Nat → Except Fault (Option Nat)
  | n, target => do
    if needed ≤ (← Word.sub target current) then return some target
    match n, Word.mul? target 2 with
    | n + 1, some double => doubleUntil current needed n double
    | 0, some _ => throw .endlessWalk
    | _, none => return none

end RegionSize

/-- The size of the region to map for a payload of `request` bytes, for a heap of `current` bytes
with the given page size and bound; `none` if the size is no word. -/
def regionSize (page current maxPages request : Nat) : Except Fault (Option Nat) := do
  let some needed := Word.add? request (2 * headerSize) | return none
  let some start ← RegionSize.firstTarget page current | return none
  let some target ← RegionSize.doubleUntil current needed RegionSize.maxDoublings start
    | return none
  let some cap := Word.mul? maxPages page | return none
  let growth ← Word.sub target current
  if growth < cap then return some (← roundUp growth page)
  if needed ≤ cap then return some cap
  let mask ← Word.sub page 1
  return (Word.add? needed mask).map (Word.clear · mask)

end BoundaryTag
