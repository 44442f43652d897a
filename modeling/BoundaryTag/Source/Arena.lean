import BoundaryTag.Source.Basic

/-!
# Arenas

An arena is a source that hands out parts of one fixed range of memory, at places that a layout
determines and with failures on demand. It writes down every request.
-/

namespace BoundaryTag

/-- Where an arena puts the next range. -/
inductive Layout where
  /-- Each range starts where the one before it ends. -/
  | up
  /-- As `up`, with an unused gap after each range. -/
  | gap
  /-- Each range ends where the one before it starts, from the end of the arena on. -/
  | down
  /-- Each range takes the lowest place where nothing is mapped. -/
  | reuse
deriving DecidableEq, Repr, Inhabited

/-- A request made to an arena. -/
inductive Request where
  /-- A range of `size` bytes was asked for, and handed out at `base` or not at all. -/
  | map (size : Nat) (base : Option Nat)
  | unmap (size base : Nat)
  /-- A range was given back that was not handed out. -/
  | unmapUnknown (size base : Nat)
deriving DecidableEq, Repr

/-- A source over the `Arena.extent` bytes from `base` on. -/
structure Arena where
  base : Nat
  page : Nat := 4096
  layout : Layout := .up
  /-- The number of bytes that may be mapped at a time. -/
  limit : Nat := 0x1000000000
  /-- The attempts that fail, counted from zero. -/
  failAt : List Nat := []
  cause : String := "out of memory"
  failing : Bool := false
  /-- The number of bytes that were used up by the ranges handed out so far. -/
  used : Nat := 0
  attempts : Nat := 0
  /-- Every range ever handed out, oldest first. -/
  history : List Region := []
  live : List Region := []
  requests : List Request := []

namespace Arena

def extent : Nat := 0x4000000000

def liveBytes (s : Arena) : Nat := Region.totalSize s.live

/-- The bytes used up by a range of `size` bytes. -/
def consumption (s : Arena) (size : Nat) : Nat :=
  match s.layout with
  | .gap => size + max s.page alignment
  | .up | .down | .reuse => size

/-- Whether `size` bytes from `base` on overlap a mapped range. -/
def overlapsLive (s : Arena) (base size : Nat) : Bool :=
  s.live.any fun r => base < r.base + r.size && r.base < base + size

/-- Where the next range of `size` bytes starts, if the arena has room for it. -/
def nextBase? (s : Arena) (size : Nat) : Option Nat :=
  let stop := s.base + extent
  match s.layout with
  | .up | .gap => if s.used + s.consumption size ≤ extent then some (s.base + s.used) else none
  | .down => if s.used + size ≤ extent then some (stop - (s.used + size)) else none
  | .reuse =>
    let candidates := (s.base :: s.live.map fun r => r.base + r.size).mergeSort
    candidates.find? fun base => base + size ≤ stop && !s.overlapsLive base size

/-- Whether the next attempt to map `size` bytes fails wherever they would be put. -/
def refuses (s : Arena) (size : Nat) : Bool :=
  s.failing || s.failAt.contains s.attempts || size % alignment ≠ 0 ||
    s.limit < s.liveBytes + size

/-- Hands out a range of zeros, or turns the request down. A request for part of a page is no
attempt and is not written down. -/
def map (s : Arena) (size : Nat) : MapAnswer × Arena :=
  if size % s.page ≠ 0 then (.rejected (.partialPage size (size % s.page)), s)
  else
    let next := { s with attempts := s.attempts + 1 }
    match if s.refuses size then none else s.nextBase? size with
    | none => (.refused s.cause, { next with requests := s.requests ++ [.map size none] })
    | some base =>
      (.mapped base ∅, { next with
        used := s.used + s.consumption size
        history := s.history ++ [{ base, size }]
        live := s.live ++ [{ base, size }]
        requests := s.requests ++ [.map size (some base)] })

def unmap (s : Arena) (base size : Nat) : Arena :=
  let r : Region := { base, size }
  if r ∈ s.live then
    { s with live := s.live.erase r, requests := s.requests ++ [.unmap size base] }
  else { s with requests := s.requests ++ [.unmapUnknown size base] }

instance : Source Arena where
  pageSize s := s.page
  map := map
  unmap := unmap

instance : Instrumented Arena where
  history s := s.history
  live s := s.live
  figures s := [s.page, s.liveBytes, s.attempts]
  setFailing s failing := { s with failing }

end Arena

end BoundaryTag
