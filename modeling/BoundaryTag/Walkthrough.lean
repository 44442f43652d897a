import BoundaryTag.Heap.Release
import BoundaryTag.Source.PageMapper

/-!
# A walkthrough

A heap that grows and shrinks while its counts are shown. The walkthrough is a list of scenes; the
reader is asked to go on after each scene but the last.
-/

namespace BoundaryTag.Walkthrough

/-- Programs on the heap of the walkthrough. -/
abbrev TourM := ExceptT AllocError (HeapM PageMapper)

def onHeap {α : Type} (program : HeapM PageMapper α) : TourM α := liftM program

def obtain (size : Nat) : TourM Nat := do
  match ← onHeap (HeapM.allocate size) with
  | .ok payload => return payload
  | .error e => throw e

/-- The counts of the heap in one line. -/
def counts (pid label : String) : TourM String := do
  let stats := (← onHeap HeapM.heap).stats
  let free ← onHeap HeapM.freeBlocks
  return s!"[{label}] PID = {pid}, heap = {stats.heapSize} bytes in {stats.regions} region(s), " ++
    s!"maps = {stats.maps}, unmaps = {stats.unmaps}, free blocks = {free}"

/-- The scenes, for a process with the given number and with addresses written by `written`. -/
def tour (pid : String) (written : Nat → String) : TourM (List (List String)) := do
  let start ← counts pid "start"
  -- the first allocation maps the first region
  let first ← obtain 4
  onHeap (HeapM.store fun m => m.write first 0xDEADBEEF)
  let value := (← onHeap HeapM.memory).read first % 0x100000000
  let one ← counts pid "1"
  -- sizes are rounded up to the alignment
  let second ← obtain 12
  onHeap (HeapM.store fun m => m.fill second 12 0xAB)
  let third ← obtain 8
  -- the first fit for a smaller request is the block released last
  onHeap (HeapM.release first)
  let fourth ← obtain 2
  let reused :=
    if fourth = first then "Yes, it reused the freed block" else "No, it allocated somewhere else"
  -- a large request maps another region, which goes back when it is empty
  let before ← counts pid "before large alloc"
  let big ← obtain (64 * 1024)
  let after ← counts pid "after large alloc"
  onHeap (HeapM.release big)
  let released ← counts pid "after release"
  let violations ← onHeap HeapM.check
  onHeap HeapM.reset
  let last ← counts pid "end"
  return [
    [start],
    ["", s!"[1] Allocate u32 at {written first}", s!"[1] Value written = {hexUpper value}", one],
    ["", s!"[2] Allocate [u8; 12] at {written second}",
      s!"[2] Distance from first block = {second - first} bytes"],
    ["", s!"[3] Allocate u64 at {written third}, addr % 16 = {third % 16}"],
    ["", s!"[4] Released first_block at {written first}",
      s!"[4] fourth_block == first_block? {reused}"],
    [before, "", s!"[5] Allocate 64 KiB at {written big}", after],
    ["", "[6] Released the 64 KiB block", released,
      s!"[6] Heap check: {violations.length} violation(s)"],
    ["", "[7] Heap reset", last]]

/-- The heap of the walkthrough, whose empty regions go back at once. -/
def world : World PageMapper where
  memory := ∅
  heap := {
    config := { reclaim := .always }
    source := { floor := 0x7f0000000000, limit := 0x10000000000 } }

/-- The scenes, or why the walkthrough came to an end. -/
def scenes (pid : String) (written : Nat → String) : List (List String) :=
  match (tour pid written).run.run world with
  | .ok (.ok scenes) _ => scenes
  | .ok (.error e) _ => [[e.message]]
  | .error fault _ => [[fault.message]]

/-- What asks the reader to go on. -/
def prompt : List String := ["", ">>> Press ENTER to continue..."]

def lines (scenes : List (List String)) : List String := List.intercalate prompt scenes

/-- How many bytes of the reader's input are left: each prompt takes one, whatever it is. -/
def unread (scenes : List (List String)) (input : String) : Nat :=
  input.utf8ByteSize - (scenes.length - 1)

end BoundaryTag.Walkthrough
