import BoundaryTag.Heap.Event
import BoundaryTag.Source.Basic

/-!
# Page mappers

A page mapper hands out whole pages of the address space and never the same ones twice. It turns
down requests for nothing and for more than the system has.
-/

namespace BoundaryTag

/-- Why the system did not do as it was asked. -/
inductive SystemError where
  | invalidArgument
  | outOfMemory
deriving DecidableEq, Repr

def SystemError.message : SystemError → String
  | invalidArgument => "Invalid argument (os error 22)"
  | outOfMemory => "Cannot allocate memory (os error 12)"

/-- A source of whole pages from `floor` on. -/
structure PageMapper where
  floor : Nat
  /-- The least size that is turned down. -/
  limit : Nat
  used : Nat := 0
  history : List Region := []
  live : List Region := []
  log : List Event := []

namespace PageMapper

def pageSize : Nat := 4096

/-- Hands out the next `size` bytes, which need not fill their last page. -/
def map? (s : PageMapper) (size : Nat) : Except SystemError (Region × PageMapper) :=
  if size = 0 then .error .invalidArgument
  else if s.limit ≤ size then .error .outOfMemory
  else
    let r : Region := { base := s.floor + s.used, size }
    .ok (r, { s with
      used := s.used + (size + pageSize - 1) / pageSize * pageSize
      history := s.history ++ [r]
      live := s.live ++ [r] })

def refusesUnmap (base size : Nat) : Bool := base % pageSize ≠ 0 || size = 0

def unmap (s : PageMapper) (base size : Nat) : PageMapper :=
  if refusesUnmap base size then
    { s with log := s.log ++ [.unmapFailed base size SystemError.invalidArgument.message] }
  else { s with live := s.live.erase { base, size } }

instance : Source PageMapper where
  pageSize _ := pageSize
  map s size :=
    match s.map? size with
    | .ok (r, s) => (.mapped r.base ∅, s)
    | .error e => (.refused e.message, s)
  unmap := unmap

instance : Instrumented PageMapper where
  history s := s.history
  live s := s.live
  figures _ := [pageSize]
  setFailing s _ := s

end PageMapper

end BoundaryTag
