import BoundaryTag.Heap.AllocError
import BoundaryTag.Heap.Basic

/-!
# Steps on a workbench

A step is one operation on a block, a free list, the regions of a heap or a heap, and a reply is
what comes of it. A step may be given with parts missing, may name a block that is not there, or
may be one that would not end: the reply to it is then a refusal.

Blocks are named by the written form of a reference; operands that are missing are `none`.
-/

namespace BoundaryTag.Workbench

/-- An operation on one block. -/
inductive BlockOp where
  | header
  | pack (forward backward : Option Nat) (tag : Option Tag)
  | setForward (value : Option Nat)
  | setBackward (value : Option Nat)
  | setTag (tag : Option Tag)
  | size
  /-- Asks whether the block is the first or the last of its region, and whether it is in use. -/
  | flags
  | next
  | previous
  /-- Goes from the block to its payload and back. -/
  | payload
  | storage
  | links
  /-- Sets both links. A link may be left out, which stands for no block. -/
  | setLinks (next prev : Option (Option String))
  /-- Makes the block a free one without neighbours. -/
  | markFree
  | markAllocated
  | compare (other : Option String)

/-- An operation on the free list of a heap. -/
inductive ListOp where
  | push (block : Option String)
  | remove (block : Option String)
  | clear

/-- An operation on the regions of a heap. -/
inductive RegionOp where
  /-- Asks how large a region a request calls for. -/
  | regionSize (request : Option Nat)
  | grow (request : Option Nat)
  | releaseRegion (sentinel : Option String)
  | releaseAll
  | regions
  | contains (block : Option String)
  | check
  | figures
  | setFailing (value : Option Bool)

/-- An operation on a heap or on the payload of an allocated block. -/
inductive HeapOp where
  /-- Requests a block. A request that is not forced is refused if the free list is not safe to
  walk. -/
  | alloc (size : Option Nat) (force : Bool)
  | release (block : Option String)
  | reset
  | stats
  | config
  /-- Stores a byte throughout the payload of a block with a handle. -/
  | fill (handle byte : Option Nat)
  /-- Looks for another byte in the payload of a block with a handle. -/
  | verify (handle byte : Option Nat)
  | drop

/-- An operation. -/
inductive Op where
  | block (ref : Option String) (op : BlockOp)
  | list (op : ListOp)
  | region (op : RegionOp)
  | heap (op : HeapOp)
  | unknown

/-- An operation and the heaps that it is for. -/
structure Step where
  heap : Option Nat
  /-- The index of the heap whose regions are counted in references. -/
  origin : Option Nat
  op : Option Op

/-- Why a step was refused. -/
inductive Refusal where
  | badInput
  | badRef
  | dropped
  | endlessList
deriving DecidableEq, Repr

/-- The outcome of a step. -/
inductive Reply where
  | done
  | flag (b : Bool)
  | number (n : Option Nat)
  | address (a : Nat)
  | header (forward backward : Nat) (tag : Tag)
  | flags (isSentinel isTerminator isAllocated : Bool)
  /-- The address of a payload, and whether it leads back to its block. -/
  | payload (a : Nat) (leadsBack : Bool)
  | storage (tag : Tag) (payload : Nat)
  | links (l : Links)
  | order (o : Ordering)
  | violations (l : List Violation)
  | stats (s : Stats)
  | config (c : Config)
  | regions (l : List Region)
  | contains (l : List Bool)
  | figures (l : List Nat)
  | failed (e : AllocError)
  | faulted (f : Fault)
  /-- The step was refused and changed nothing. -/
  | refused (r : Refusal)

namespace Reply

/-- The reply to a question that may fault. -/
def ofOutcome {α : Type} (reply : α → Reply) : Except Fault α → Reply
  | .ok a => reply a
  | .error fault => faulted fault

/-- The reply to a request for memory. -/
def ofRequest : Except AllocError Nat → Reply
  | .ok a => address a
  | .error e => failed e

end Reply

end BoundaryTag.Workbench
