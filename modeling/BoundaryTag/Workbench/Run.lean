import BoundaryTag.Workbench.Basic
import BoundaryTag.Workbench.Step

/-!
# Running steps

`Workbench.run` runs one step and answers the reply to it together with the workbench as it is
afterwards. A refusal leaves the heaps and the memory alone; a fault keeps what was done before it.
-/

namespace BoundaryTag.Workbench

variable {σ : Type} [Instrumented σ]

/-- Programs that work on a workbench. -/
abbrev BenchM (σ : Type) := ExceptT Refusal (StateM (Workbench σ))

namespace BenchM

/-- An operand, which has to be there. -/
def operand {α : Type} : Option α → BenchM σ α
  | some a => return a
  | none => throw .badInput

/-- The block with `n` bytes of memory that a written reference stands for. Regions are counted for
the heap at index `k`. -/
def block (k n : Nat) (ref : Option String) : BenchM σ Nat := do
  let some r := Reference.parse? (← operand ref) | throw .badRef
  let some b := (← get).block? k n r | throw .badRef
  return b

def memory : BenchM σ Memory := return (← get).memory

def store (f : Memory → Memory) : BenchM σ Unit :=
  modify fun w => { w with memory := f w.memory }

def onHeap {α : Type} (k : Nat) (program : HeapM σ α) (reply : α → Reply) : BenchM σ Reply := do
  let some h := (← get).heap? k | throw .badInput
  let (outcome, w) := (← get).onHeap k h program
  set w
  return .ofOutcome reply outcome

/-! ### Operations on a block -/

/-- The size of the smallest block, with room for the links of a free one. -/
def linkedSize : Nat := headerSize + minPayload

/-- The number of bytes that an operation on a block needs there. -/
def extent : BlockOp → Nat
  | .links | .setLinks .. | .markFree => linkedSize
  | _ => headerSize

def header (b : Nat) : BenchM σ Reply := do
  let m ← memory
  return .header (m.forward b) (m.backward b) (m.tag b)

/-- The address that lies a stored offset away. -/
def follow (offset a : Nat) : BenchM σ Reply :=
  if farOffset ≤ offset then throw .badRef else return .address a

/-- The reference to a neighbour on a free list, which may be absent. -/
def neighbour (k : Nat) : Option (Option String) → BenchM σ (Option Nat)
  | none => return none
  | some ref => return some (← block k linkedSize ref)

def blockOp (k : Nat) (ref : Option String) (op : BlockOp) : BenchM σ Reply := do
  let b ← block k (extent op) ref
  match op with
  | .header => header b
  | .pack forward backward tag =>
    let forward ← operand forward
    let backward ← operand backward
    let tag ← operand tag
    store (·.pack b forward backward tag)
    header b
  | .setForward value =>
    let value ← operand value
    store (·.setForward b value)
    header b
  | .setBackward value =>
    let value ← operand value
    store (·.setBackward b value)
    header b
  | .setTag tag =>
    let tag ← operand tag
    store (·.setTag b tag)
    header b
  | .size => return .ofOutcome (fun n => .number (some n)) ((← memory).payloadSize b)
  | .flags =>
    let m ← memory
    return .flags (m.isSentinel b) (m.isTerminator b) (m.isAllocated b)
  | .next =>
    let m ← memory
    follow (m.forward b) (m.next b)
  | .previous =>
    let m ← memory
    follow (m.backward b) (m.previous b)
  | .payload => return .payload (payloadOf b) (blockOf (payloadOf b) = b)
  | .storage => return .storage ((← memory).tag b) (payloadOf b)
  | .links => return .ofOutcome .links ((← memory).links b)
  | .setLinks next prev =>
    let next ← neighbour k next
    let prev ← neighbour k prev
    match (← memory).requireFree b with
    | .error fault => return .faulted fault
    | .ok () =>
      store (·.setLinks b { next, prev })
      return .done
  | .markFree =>
    store (·.markFree b)
    return .address (payloadOf b)
  | .markAllocated =>
    store (·.markAllocated b)
    return .address (payloadOf b)
  | .compare other =>
    let c ← block k headerSize other
    return .order (Ord.compare b c)

/-! ### Operations on a free list and on regions

The heap at index `k` is worked on; references count the regions of the heap at index `o`. -/

def listOp (k o : Nat) : ListOp → BenchM σ Reply
  | .push ref => do
    let b ← block o linkedSize ref
    onHeap k (HeapM.editFree (·.pushFront b)) fun _ => .done
  | .remove ref => do
    let b ← block o linkedSize ref
    onHeap k (HeapM.editFree (·.remove b)) fun _ => .done
  | .clear => onHeap k (HeapM.update fun h => { h with free := {} }) fun _ => .done

def regionOp (k o : Nat) : RegionOp → BenchM σ Reply
  | .regionSize request => do
    let request ← operand request
    onHeap k (HeapM.regionSize request) .number
  | .grow request => do
    let request ← operand request
    onHeap k (HeapM.grow request) .ofRequest
  | .releaseRegion ref => do
    let b ← block o headerSize ref
    onHeap k (HeapM.releaseRegion b) fun _ => .done
  | .releaseAll => onHeap k HeapM.releaseAll fun _ => .done
  | .regions => onHeap k HeapM.heap fun h => .regions h.regions
  | .contains ref => do
    let some r := Reference.parse? (← operand ref) | throw .badRef
    let some a := (← get).address? o r | throw .badRef
    onHeap k (do ofExcept ((← HeapM.heap).regions.mapM (·.contains a))) .contains
  | .check => onHeap k HeapM.check .violations
  | .figures => onHeap k HeapM.heap fun h => .figures (Instrumented.figures h.source)
  | .setFailing value => do
    let value ← operand value
    onHeap k (HeapM.update fun h => { h with source := Instrumented.setFailing h.source value })
      fun _ => .done

/-! ### Operations on a heap -/

/-- Checks the heap at index `k` before a request. Refuses if walking its free list may not end, and
answers the fault if the check itself stops half way. -/
def requireWalkable (k : Nat) : BenchM σ (Except Fault Unit) := do
  let some h := (← get).heap? k | throw .badInput
  match BoundaryTag.check (← memory) h.regions h.free with
  | .error fault => return .error fault
  | .ok vs => if vs.any Violation.isUnsafeToWalk then throw .endlessList else return .ok ()

def maxFill : Nat := 0x100000

/-- The payload and the size of a block with a handle, if its payload is mapped. -/
def filled (id : Nat) : BenchM σ (Nat × Nat) := do
  let w ← get
  let some h := w.handles[id]?.join | throw .badRef
  let payload := payloadOf h.block
  if maxFill < h.size || !w.covers payload h.size then throw .badRef
  return (payload, h.size)

def heapOp (k o : Nat) : HeapOp → BenchM σ Reply
  | .alloc size force => do
    if !force then
      if let .error fault ← requireWalkable k then return .faulted fault
    let size ← operand size
    onHeap k (HeapM.allocate size) .ofRequest
  | .release ref => do
    let b ← block o linkedSize ref
    onHeap k (HeapM.release (payloadOf b)) fun _ => .done
  | .reset => onHeap k HeapM.reset fun _ => .done
  | .stats => onHeap k HeapM.heap fun h => .stats h.stats
  | .config => onHeap k HeapM.heap fun h => .config h.config
  | .fill id byte => do
    let id ← operand id
    let byte ← operand byte
    let (payload, size) ← filled id
    store (·.fill payload size byte)
    return .done
  | .verify id byte => do
    let id ← operand id
    let byte ← operand byte
    let (payload, size) ← filled id
    return .number ((← memory).firstOther payload (byte % 256) 0 size)
  | .drop => do
    let (any, w) := (← get).drop k
    set w
    return .flag any

/-! ### Steps -/

/-- Runs an operation. Of a dropped heap only blocks can be worked on, and it may be dropped
again. -/
def op (k o : Nat) (op : Op) : BenchM σ Reply := do
  let some slot := (← get).slots[k]? | throw .badInput
  match op with
  | .block ref op => blockOp o ref op
  | .heap .drop => heapOp k o .drop
  | .list op => do requireKept slot; listOp k o op
  | .region op => do requireKept slot; regionOp k o op
  | .heap op => do requireKept slot; heapOp k o op
  | .unknown => do requireKept slot; throw .badInput
where
  requireKept (s : Slot σ) : BenchM σ Unit := if s.dropped then throw .dropped else return

/-- Runs a step, which has to have all of its parts. -/
def step (s : Step) : BenchM σ Reply := do
  op (← operand s.heap) (← operand s.origin) (← operand s.op)

end BenchM

/-- The handle that an operation leaves behind, if it is a request for a block. -/
def handleOf : Op → Reply → Option (Option Handle)
  | .heap (.alloc (some size) _), .address payload =>
    some (some { block := blockOf payload, size })
  | .heap (.alloc ..), _ => some none
  | _, _ => none

def run (w : Workbench σ) (s : Step) : Reply × Workbench σ :=
  let (outcome, w) := StateT.run (BenchM.step s).run { w with log := [] }
  let reply := match outcome with
    | .ok reply => reply
    | .error refusal => .refused refusal
  (reply, { w with handles := w.handles ++ (s.op.bind (handleOf · reply)).toList })

end BoundaryTag.Workbench
