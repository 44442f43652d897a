import BoundaryTag.Heap.Config
import BoundaryTag.Heap.Event
import BoundaryTag.Memory.FreeList
import BoundaryTag.Source.Basic

/-!
# Heaps

A heap is a set of regions with one free list through all of them. Its blocks are in memory, which
it may share with other heaps; a `World` is a heap together with the memory and a log.

Operations are programs in `HeapM`. A fault stops a program and keeps the world as it was changed
up to there.
-/

namespace BoundaryTag

/-- Counts of what a heap holds and of what it asked of its source. -/
structure Stats where
  heapSize : Nat
  regions : Nat
  /-- The number of regions mapped so far. -/
  maps : Nat
  unmaps : Nat
deriving DecidableEq, Repr

/-- The state of a heap outside its blocks. -/
structure Heap (σ : Type) where
  config : Config
  source : σ
  /-- The regions, in no particular order. -/
  regions : List Region := []
  heapSize : Nat := 0
  /-- The number of regions mapped so far. -/
  maps : Nat := 0
  unmaps : Nat := 0
  free : FreeList := {}

def Heap.stats {σ : Type} (h : Heap σ) : Stats where
  heapSize := h.heapSize
  regions := h.regions.length
  maps := h.maps
  unmaps := h.unmaps

/-- A heap and its surroundings. -/
structure World (σ : Type) where
  memory : Memory
  heap : Heap σ
  /-- What was logged, oldest first. -/
  log : List Event := []

/-- Programs that work on a heap. -/
abbrev HeapM (σ : Type) := EStateM Fault (World σ)

namespace HeapM

variable {σ : Type}

def memory : HeapM σ Memory := return (← get).memory

def heap : HeapM σ (Heap σ) := return (← get).heap

/-- Reads memory, which may fault. -/
def inspect {α : Type} (f : Memory → Except Fault α) : HeapM σ α := do
  ofExcept (f (← memory))

def store (f : Memory → Memory) : HeapM σ Unit :=
  modify fun w => { w with memory := f w.memory }

def update (f : Heap σ → Heap σ) : HeapM σ Unit :=
  modify fun w => { w with heap := f w.heap }

def emit (e : Event) : HeapM σ Unit :=
  modify fun w => { w with log := w.log ++ [e] }

/-- Edits the free list. A fault keeps what was written and the old head. -/
def editFree (edit : FreeList → EStateM Fault Memory FreeList) : HeapM σ Unit := fun w =>
  match edit w.heap.free w.memory with
  | .ok free memory => .ok () { w with memory, heap := { w.heap with free } }
  | .error fault memory => .error fault { w with memory }

end HeapM

end BoundaryTag
