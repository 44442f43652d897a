import BoundaryTag.Memory.FreeList
import BoundaryTag.Region.Basic
import BoundaryTag.Integrity.Violation

/-!
# Checking a heap

`check` walks the blocks of every region forwards and back, then the free list forwards and back,
and reports everything that is not in order. It only reads.

Each walk ends. Forwards the addresses of a region rise. Backwards a walk stays in the region, so
that one of more steps than the region has bytes comes back to a header and would never end. The
free list may visit each address of the regions once.

There is a word in memory at each address that a check reads, also where a header or links reach
over the end of a region. But a header is read at multiples of the alignment only. A walk forwards
stops before it leaves them. A walk back and the walk along the free list go where offsets and links
lead, as long as that is in a region, and fault where there can be no header.
-/

namespace BoundaryTag.Check

/-! ### Blocks of a region -/

/-- What a walk through the blocks of a region found. -/
structure Walk where
  /-- The violations, in the order in which they were met. -/
  violations : List Violation
  freeBlocks : List Nat
  complete : Bool

/-- A walk that found a violation and went no further. -/
def Walk.broken (v : Violation) : Walk := { violations := [v], freeBlocks := [], complete := false }

/-- The violation in the backward offset of `b`, whose predecessor `previous` is before it. -/
def backLink (m : Memory) (previous b : Nat) : List Violation :=
  if m.backward b = b - previous then []
  else [.brokenBackLink b (b - previous) (m.backward b)]

/-- The violations in how `b` follows `previous`. -/
def adjacency (m : Memory) (previous b : Nat) : List Violation :=
  backLink m previous b ++
    if m.isAllocated previous || m.isAllocated b then [] else [.adjacentFree previous b]

/-- Whether a walk that comes from `previous`, if from any block, has gone forwards to `b`. -/
def isForward (previous : Option Nat) (b : Nat) : Bool := previous.all (· < b)

/-- Walks forwards from `b` to the terminator of the region `r`, which ends at `stop`. Faults where
a header in order is before the one that leads to it. -/
def walkForward (m : Memory) (r : Region) (stop : Nat) (previous : Option Nat) (b : Nat) :
    Except Fault Walk := do
  if b = r.terminator then
    if !isForward previous b then throw .subOverflow
    return { violations := previous.elim [] (backLink m · b), freeBlocks := [], complete := true }
  if _inside : r.base ≤ b ∧ b < stop ∧ m.forward b ≠ 0 then
    if m.forward b % alignment = 0 ∧ headerSize ≤ m.forward b then
      if _onwards : isForward previous b then
        let rest ← walkForward m r stop (some b) (m.next b)
        return {
          violations := previous.elim [] (adjacency m · b) ++ rest.violations
          freeBlocks := if m.isAllocated b then rest.freeBlocks else b :: rest.freeBlocks
          complete := rest.complete }
      else throw .subOverflow
    else return .broken (.badForward b (m.forward b))
  else return .broken (.badTerminator r.base r.terminator b)
termination_by previous.elim (stop - r.base + 1) (stop - ·)
decreasing_by
  cases previous with
  | none => exact Nat.lt_succ_of_le (Nat.sub_le_sub_left _inside.1 stop)
  | some p =>
    have after : p < b := of_decide_eq_true _onwards
    exact Nat.sub_lt_sub_left (Nat.lt_trans after _inside.2.1) after

/-- Whether the header at `p` is in the region and leads forwards to `b`. Faults where it is in the
region and there can be none. -/
def leadsTo (m : Memory) (r : Region) (stop p b : Nat) : Except Fault Bool := do
  if r.base ≤ p ∧ p < stop then
    requireAligned p
    return m.next p = b
  else return false

/-- Walks back from `b` to the first header without a predecessor. The walk takes at most `n`
steps. -/
def walkBack (m : Memory) (r : Region) (stop : Nat) : Nat → Nat → Except Fault (List Violation)
  | 0, _ => throw .endlessWalk
  | n + 1, b => do
    if m.isSentinel b then
      return if b = r.sentinel then [] else [.missingSentinel r.base]
    else
      let p := m.previous b
      if ← leadsTo m r stop p b then walkBack m r stop n p else return [.brokenForwardLink b p]

def region (m : Memory) (r : Region) : Except Fault Walk := do
  requireAligned r.sentinel
  if !m.isSentinel r.sentinel then return .broken (.missingSentinel r.base)
  let stop ← r.stop
  let there ← walkForward m r stop none r.sentinel
  if there.complete then
    let back ← walkBack m r stop (r.size + 1) r.terminator
    return { there with violations := there.violations ++ back }
  return there

/-- Checks the blocks of all regions. Answers the violations and the free blocks. -/
def regions (m : Memory) : List Region → Except Fault (List Violation × List Nat)
  | [] => return ([], [])
  | r :: rs => do
    let walk ← region m r
    let (violations, freeBlocks) ← regions m rs
    return (walk.violations ++ violations, walk.freeBlocks ++ freeBlocks)

/-! ### The free list -/

/-- Walks the free list from `b` on, after the entries `listed`, the latest of which is first.
Answers the violations and, if the walk came to the end of the list, all entries. The walk takes
at most `n` steps. -/
def walkFree (m : Memory) (rs : List Region) :
    Nat → List Nat → Option Nat → Except Fault (List Violation × Option (List Nat))
  | _, listed, none => return ([], some listed)
  | 0, _, some _ => throw .endlessWalk
  | n + 1, listed, some b => do
    if b ∈ listed then return ([.freeListCycle b], none)
    if !(← rs.anyM (·.contains b)) then return ([.foreignFreeEntry b], none)
    requireAligned b
    if m.isAllocated b then return ([.allocatedOnFreeList b], none)
    let { next, prev } ← m.links b
    let (rest, entries) ← walkFree m rs n (b :: listed) next
    let here := if prev = listed.head? then [] else [.brokenFreeLink b listed.head? prev]
    return (here ++ rest, entries)

/-- The number of entries on the way back from `b` as long as it stays on the list, but at most
one more than `n`. -/
def lengthBack (m : Memory) (listed : List Nat) : Nat → Option Nat → Except Fault Nat
  | _, none => return 0
  | 0, some _ => return 1
  | n + 1, some b => do
    let { prev, .. } ← m.links b
    return (← lengthBack m listed n (prev.filter (· ∈ listed))) + 1

/-- Checks the free list against the free blocks that the regions were found to have. -/
def freeList (m : Memory) (rs : List Region) (free : FreeList) (freeBlocks : List Nat) :
    Except Fault (List Violation) := do
  let steps := Region.totalSize rs + 1
  let (violations, entries) ← walkFree m rs steps [] free.head
  let some listed := entries | return violations
  let back ← lengthBack m listed listed.length listed.head?
  let lengths := if back = listed.length then [] else [.freeListLength listed.length back]
  let unlisted := (freeBlocks.filter (· ∉ listed)).eraseDups.mergeSort
  return violations ++ lengths ++ unlisted.map .unlistedFreeBlock

end Check

/-- The violations in the blocks of the regions and in the free list. -/
def check (m : Memory) (rs : List Region) (free : FreeList) : Except Fault (List Violation) := do
  let (violations, freeBlocks) ← Check.regions m rs
  return violations ++ (← Check.freeList m rs free freeBlocks)

end BoundaryTag
