import BoundaryTag.Heap.Basic
import BoundaryTag.Region.Size
import BoundaryTag.Heap.AllocError

/-!
# Growing and shrinking a heap by regions
-/

namespace BoundaryTag

variable {σ : Type} [Source σ]

/-- Takes the entry at `i` out of a list by moving the last entry to its place. -/
def swapRemove {α : Type} (l : List α) (i : Nat) : List α :=
  match l.getLast? with
  | some last => (l.set i last).dropLast
  | none => l

namespace HeapM

/-- The size of the region that a request for `request` bytes of payload calls for. -/
def regionSize (request : Nat) : HeapM σ (Option Nat) := do
  let h ← heap
  ofExcept (BoundaryTag.regionSize (Source.pageSize h.source) h.heapSize h.config.maxRegionPages
    request)

/-- Asks the source for `size` bytes, which then have the contents that the source gave them. -/
def mapRange (size : Nat) : HeapM σ (Except String Nat) := fun w =>
  let (answer, source) := Source.map w.heap.source size
  let w := { w with heap := { w.heap with source } }
  match answer with
  | .mapped base contents =>
    .ok (.ok base) { w with memory := w.memory.replace base size contents }
  | .refused cause => .ok (.error cause) w
  | .rejected fault => .error fault w

def unmapRange (r : Region) : HeapM σ Unit :=
  update fun h => { h with source := Source.unmap h.source r.base r.size }

/-- Lays out a new region as one free block and a terminator. The block is in front of the free
list afterwards. -/
def layOut (r : Region) : HeapM σ Unit := do
  let span ← ofExcept (Word.sub r.size headerSize)
  store fun m => m.pack r.sentinel span 0 .free
  ofExcept (requireAligned r.terminator)
  store fun m => m.pack r.terminator 0 span .allocated
  store fun m => m.markFree r.sentinel
  editFree (·.pushFront r.sentinel)

def addRegion (r : Region) : HeapM σ Unit := do
  update fun h => { h with regions := h.regions ++ [r] }
  let heapSize ← ofExcept (Word.add (← heap).heapSize r.size)
  update fun h => { h with heapSize }
  let maps ← ofExcept (Word.add (← heap).maps 1)
  update fun h => { h with maps }

/-- Maps a region for a request of `request` bytes of payload and answers its first block, which
is free and as long as the region allows. A refusal leaves the heap as it was. -/
def grow (request : Nat) : HeapM σ (Except AllocError Nat) := do
  let some size ← regionSize request | return .error (.sizeOverflow request)
  match ← mapRange size with
  | .error cause =>
    emit (.mapFailed size cause)
    return .error (.mapFailed size cause)
  | .ok base =>
    if base % alignment ≠ 0 then throw (.misplacedRegion (base % alignment))
    let r : Region := { base, size }
    layOut r
    addRegion r
    emit (.mapped base size request (← heap).heapSize)
    return .ok r.sentinel

def countUnmap : HeapM σ Unit := do
  let unmaps ← ofExcept (Word.add (← heap).unmaps 1)
  update fun h => { h with unmaps }

/-- Gives back the region whose first block is `sentinel`, which has to span it. -/
def releaseRegion (sentinel : Nat) : HeapM σ Unit := do
  let regions := (← heap).regions
  let some r := regions.find? (·.sentinel = sentinel) | emit (.unknownRegion sentinel)
  let i := regions.findIdx (·.sentinel = sentinel)
  update fun h => { h with regions := swapRemove regions i }
  let span ← ofExcept (Word.add ((← memory).forward sentinel) headerSize)
  if span ≠ r.size then throw (.spanMismatch span r.size)
  unmapRange r
  let heapSize ← ofExcept (Word.sub (← heap).heapSize r.size)
  update fun h => { h with heapSize }
  countUnmap
  emit (.unmapped r.base r.size heapSize)

/-- Gives back every region, in the order in which they are held. -/
def releaseAll : HeapM σ Unit := do
  let regions := (← heap).regions
  update fun h => { h with regions := [] }
  regions.forM fun r => do
    unmapRange r
    countUnmap
  update fun h => { h with heapSize := 0 }

end HeapM

end BoundaryTag
