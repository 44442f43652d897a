import BoundaryTag.Heap.Release
import BoundaryTag.Workbench.Reference

/-!
# Workbenches

A workbench is a memory with several heaps in it, and a stretch of scratch memory that belongs to
none of them. Blocks that were allocated on it have handles.
-/

namespace BoundaryTag

/-- A block that was allocated on a workbench. -/
structure Handle where
  block : Nat
  size : Nat
deriving DecidableEq, Repr

/-- A heap on a workbench, even after it was dropped. -/
structure Slot (σ : Type) where
  heap : Heap σ
  dropped : Bool := false

/-- Heaps that share one memory. -/
structure Workbench (σ : Type) where
  memory : Memory := ∅
  slots : List (Slot σ)
  /-- The outcomes of all requests for a block, oldest first. -/
  handles : List (Option Handle) := []
  /-- What the heaps logged in the latest step, oldest first. -/
  log : List Event := []

namespace Workbench

def scratch : Region := { base := 0x180000000000, size := 65536 }

/-- Offsets from here on are not followed. -/
def farOffset : Nat := 0x10000000000

variable {σ : Type} [Instrumented σ]

/-- A workbench with heaps over the given sources and settings. -/
def ofHeaps (l : List (Config × σ)) : Workbench σ where
  slots := l.map fun (config, source) => { heap := { config, source } }

def heap? (w : Workbench σ) (k : Nat) : Option (Heap σ) := w.slots[k]?.map Slot.heap

def live (w : Workbench σ) : List Region :=
  w.slots.flatMap fun s => Instrumented.live s.heap.source

def covers (w : Workbench σ) (a n : Nat) : Bool :=
  (scratch :: w.live).any fun r => r.base ≤ a && a + n ≤ r.base + r.size

/-- The address that an anchor stands for, with regions counted for the heap at index `k`. -/
def anchorAddress? (w : Workbench σ) (k : Nat) : Anchor → Option Nat
  | .scratch => some scratch.base
  | .handle n => (w.handles[n]?.join).map Handle.block
  | .sentinel n => (region? n).map Region.sentinel
  | .terminator n => (region? n).map Region.terminator
where
  /-- The `n`-th region ever mapped for the heap. -/
  region? (n : Nat) : Option Region := do
    (Instrumented.history (← w.heap? k).source)[n]?

/-- The address that a reference stands for, if it is one. -/
def address? (w : Workbench σ) (k : Nat) (r : Reference) : Option Nat := do
  let a ← ((← w.anchorAddress? k r.anchor) + r.offset : Int).toNat?
  if a < Word.limit then some a else none

/-- The block that a reference stands for, if it is aligned and has `n` bytes of memory. -/
def block? (w : Workbench σ) (k n : Nat) (r : Reference) : Option Nat := do
  let a ← w.address? k r
  if a % alignment = 0 && w.covers a n then some a else none

/-- The position of an address as the index of a heap, the number of a region mapped for it, and
an offset in the region, if the region is still mapped. -/
def position? (w : Workbench σ) (a : Nat) : Option (Nat × Nat × Nat) :=
  w.slots.zipIdx.findSome? fun (s, k) =>
    let live := Instrumented.live s.heap.source
    (Instrumented.history s.heap.source).zipIdx.findSome? fun (r, n) =>
      if r ∈ live && r.base ≤ a && a < r.base + r.size then some (k, n, a - r.base) else none

/-- Keeps what became of the heap at index `k` and of its world. -/
def keep (w : Workbench σ) (k : Nat) (world : World σ) : Workbench σ :=
  { w with
    memory := world.memory
    slots := w.slots.modify k fun s => { s with heap := world.heap }
    log := w.log ++ world.log }

/-- Runs a program on the heap at index `k`. A fault is an outcome like others: what was changed
before it stays changed. -/
def onHeap {α : Type} (w : Workbench σ) (k : Nat) (h : Heap σ) (program : HeapM σ α) :
    Except Fault α × Workbench σ :=
  match program.run { memory := w.memory, heap := h } with
  | .ok a world => (.ok a, w.keep k world)
  | .error fault world => (.error fault, w.keep k world)

/-- Drops the heap at index `k`, which gives all of its regions back. Answers whether there was
anything to drop. -/
def drop (w : Workbench σ) (k : Nat) : Bool × Workbench σ :=
  match w.slots[k]? with
  | some { heap, dropped := false } =>
    let (_, w) := w.onHeap k heap HeapM.releaseAll
    (true, { w with slots := w.slots.modify k fun s => { s with dropped := true } })
  | _ => (false, w)

def dropAll (w : Workbench σ) : Workbench σ :=
  (List.range w.slots.length).foldl (fun w k => (w.drop k).2) w

end Workbench

end BoundaryTag
