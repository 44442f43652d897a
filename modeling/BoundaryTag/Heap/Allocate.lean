import BoundaryTag.Integrity.Check
import BoundaryTag.Heap.Regions

/-!
# Allocation

A request is served from the first free block that is large enough, or else from a new region.
What the request does not need becomes a free block of its own if it has room for one.
-/

namespace BoundaryTag

variable {σ : Type} [Source σ]

/-- The payload size that serves a request for `size` bytes, if it is a word. -/
def roundRequest (size : Nat) : Option Nat := (align? size).map (max minPayload)

namespace HeapM

def check : HeapM σ (List Violation) := do
  let h ← heap
  inspect fun m => BoundaryTag.check m h.regions h.free

def freeBlocks : HeapM σ Nat := do
  let h ← heap
  inspect h.free.length

/-- Checks the heap, where it is set to do so, and logs what is found. -/
def checkAfter (op : CheckedOp) : HeapM σ Unit := do
  if (← heap).config.checkEachOp then
    (← check).forM fun v => emit (.violated op v)

/-- Cuts a free block after `needed` bytes of payload; `rest` bytes become a free block. -/
def split (b needed rest : Nat) : HeapM σ Unit := do
  let span ← ofExcept (Word.add needed headerSize)
  let next := (← memory).next b
  let remainder := payloadOf b + needed
  store fun m => m.pack remainder rest span .free
  store fun m => m.markFree remainder
  ofExcept (requireAligned next)
  store fun m => m.setBackward next rest
  store fun m => m.setForward b span
  editFree (·.pushFront remainder)
  emit (.split b needed (rest - headerSize))

/-- Takes a free block for a request of `needed` bytes and answers its payload. -/
def place (b needed : Nat) : HeapM σ Nat := do
  editFree (·.remove b)
  let size ← inspect (·.payloadSize b)
  let rest ← ofExcept (Word.sub size needed)
  if headerSize < rest then split b needed rest
  store fun m => m.markAllocated b
  return payloadOf b

/-- Answers the payload of a free block of at least `needed` bytes, taken from a new region if
the free list has none. -/
def findBlock (size needed : Nat) : HeapM σ (Except AllocError Nat) := do
  let h ← heap
  match ← inspect (h.free.firstFit? · needed) with
  | some b => return .ok b
  | none =>
    match ← grow needed with
    | .error e => return .error e
    | .ok b =>
      if (← inspect (·.payloadSize b)) < needed then return .error (.outOfMemory size)
      return .ok b

/-- Serves a request for `size` bytes: answers the payload of a block, or why there is none. -/
def allocate (size : Nat) : HeapM σ (Except AllocError Nat) := do
  let some needed := roundRequest size | return .error (.sizeOverflow size)
  if (← heap).free.isEmpty then
    if let .error e ← grow needed then return .error e
  match ← findBlock size needed with
  | .error e => return .error e
  | .ok b =>
    let payload ← place b needed
    emit (.allocated size payload)
    checkAfter .allocate
    return .ok payload

end HeapM

end BoundaryTag
