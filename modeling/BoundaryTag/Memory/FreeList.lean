import BoundaryTag.Memory.Block

/-!
# The free list

The free blocks of all regions form one doubly linked list through their own payloads. A
`FreeList` is its head; the links are in memory. An edit that meets a block tagged allocated stops
there: the links written before it stay written, and the caller keeps the old head.
-/

namespace BoundaryTag

/-- A list of free blocks, most recently added first. -/
structure FreeList where
  head : Option Nat := none
deriving DecidableEq, Repr, Inhabited

namespace FreeList

def isEmpty (l : FreeList) : Bool := l.head.isNone

def pushFront (l : FreeList) (b : Nat) : EStateM Fault Memory FreeList := do
  ofExcept ((← get).requireFree b)
  modify fun m => (m.setPrev b none).setNext b l.head
  if let some head := l.head then
    ofExcept ((← get).requireFree head)
    modify fun m => m.setPrev head (some b)
  return { head := some b }

/-- Takes a block out, wherever in the list it stands, by joining its neighbours. -/
def remove (l : FreeList) (b : Nat) : EStateM Fault Memory FreeList := do
  let { next, prev } ← ofExcept ((← get).links b)
  if let some p := prev then
    ofExcept ((← get).requireFree p)
    modify fun m => m.setNext p next
  if let some n := next then
    ofExcept ((← get).requireFree n)
    modify fun m => m.setPrev n prev
  return if l.head = some b then { head := next } else l

/-! ### Walks

Blocks lie at multiples of the alignment, so a list that repeats none of them has at most
`maxLength` entries, and a walk that goes on for longer never ends. -/

/-- The length beyond which a walk is given up. -/
def maxLength : Nat := Word.limit / alignment

/-- The first `n` blocks from `b` on, or fewer if the list ends before. -/
def takeFrom (m : Memory) : Nat → Option Nat → Except Fault (List Nat)
  | 0, _ | _, none => return []
  | n + 1, some b => do
    let { next, .. } ← m.links b
    return b :: (← takeFrom m n next)

def take (l : FreeList) (m : Memory) (n : Nat) : Except Fault (List Nat) := takeFrom m n l.head

/-- The number of blocks from `b` on, in a walk of at most `n` steps. -/
def lengthFrom (m : Memory) : Nat → Option Nat → Except Fault Nat
  | _, none => return 0
  | 0, some _ => throw .endlessWalk
  | n + 1, some b => do
    let { next, .. } ← m.links b
    return (← lengthFrom m n next) + 1

def length (l : FreeList) (m : Memory) : Except Fault Nat := lengthFrom m maxLength l.head

/-- The first block from `b` on with at least `needed` bytes of payload, in a walk of at most `n`
steps. -/
def firstFitFrom (m : Memory) (needed : Nat) : Nat → Option Nat → Except Fault (Option Nat)
  | _, none => return none
  | 0, some _ => throw .endlessWalk
  | n + 1, some b => do
    let { next, .. } ← m.links b
    if needed ≤ (← m.payloadSize b) then return some b
    firstFitFrom m needed n next

def firstFit? (l : FreeList) (m : Memory) (needed : Nat) : Except Fault (Option Nat) :=
  firstFitFrom m needed maxLength l.head

end FreeList

end BoundaryTag
