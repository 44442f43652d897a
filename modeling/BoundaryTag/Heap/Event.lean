import BoundaryTag.Integrity.Violation

/-!
# Events

What a heap reports to its log. An event is kept as data; `Event.level` and `Event.message` give
its written form.
-/

namespace BoundaryTag

/-- How much an event matters. -/
inductive Level where
  | trace | debug | warn | error
deriving DecidableEq, Repr

def Level.name : Level → String
  | trace => "TRACE"
  | debug => "DEBUG"
  | warn => "WARN"
  | error => "ERROR"

/-- The operations after which a heap may check itself. -/
inductive CheckedOp where
  | allocate | release
deriving DecidableEq, Repr

def CheckedOp.name : CheckedOp → String
  | allocate => "allocate"
  | release => "release"

/-- Something worth logging. -/
inductive Event where
  | allocated (size : Nat) (payload : Nat)
  /-- The block with this payload is about to be released. -/
  | released (payload : Nat)
  /-- A free block was cut after `needed` payload bytes; the rest has `remainder` of its own. -/
  | split (block : Nat) (needed remainder : Nat)
  | coalesced (absorbed survivor : Nat)
  /-- A region was added to the heap, which then has `heapSize` bytes. -/
  | mapped (base : Nat) (size request heapSize : Nat)
  | mapFailed (size : Nat) (cause : String)
  /-- A region was given back, which leaves `heapSize` bytes. -/
  | unmapped (base : Nat) (size heapSize : Nat)
  /-- A region was to be given back that the heap does not have. -/
  | unknownRegion (sentinel : Nat)
  | unmapFailed (base : Nat) (size : Nat) (cause : String)
  | reset
  | violated (op : CheckedOp) (violation : Violation)
deriving DecidableEq, Repr

namespace Event

def level : Event → Level
  | allocated .. | released .. => .trace
  | split .. | coalesced .. | mapped .. | unmapped .. | reset => .debug
  | unknownRegion .. | violated .. => .warn
  | mapFailed .. | unmapFailed .. => .error

def message : Event → String
  | allocated size payload => s!"allocate({size}) -> {hex payload}"
  | released payload => s!"release({hex payload})"
  | split block needed remainder =>
    s!"split {hex block}: {needed} byte block, {remainder} byte remainder"
  | coalesced absorbed survivor => s!"coalesced {hex absorbed} into {hex survivor}"
  | mapped base size request heapSize =>
    s!"mapped region {hex base} ({size} bytes) for {request} byte request, heap is {heapSize} bytes"
  | mapFailed size cause => s!"failed to map {size} byte region: {cause}"
  | unmapped base size heapSize =>
    s!"unmapped region {hex base} ({size} bytes), heap is {heapSize} bytes"
  | unknownRegion sentinel => s!"release of unknown region {hex sentinel}"
  | unmapFailed base size cause => s!"munmap({hex base}, {size}) failed: {cause}"
  | reset => "heap reset"
  | violated op violation => s!"heap check after {op.name}: {violation.message}"

def line (e : Event) : String := s!"{e.level.name} {e.message}"

end Event

end BoundaryTag
