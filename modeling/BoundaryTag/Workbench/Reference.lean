/-!
# References to blocks

A step on a workbench names a block by a reference: an anchor and an offset in bytes. The written
form of an anchor is `s`, or one of `p`, `r` and `t` with a number; an offset follows with its
sign.
-/

namespace BoundaryTag.Workbench

/-- What a reference starts from. -/
inductive Anchor where
  | scratch
  /-- The block that was allocated as the `n`-th. -/
  | handle (n : Nat)
  /-- The sentinel of the region that was mapped as the `n`-th. -/
  | sentinel (n : Nat)
  /-- The terminator of the region that was mapped as the `n`-th. -/
  | terminator (n : Nat)
deriving DecidableEq, Repr

structure Reference where
  anchor : Anchor
  offset : Int := 0
deriving DecidableEq, Repr

namespace Reference

/-- The number that is written in decimal digits. -/
def number? (ds : List Char) : Option Nat :=
  if ds.isEmpty || !ds.all Char.isDigit then none
  else some (ds.foldl (fun n d => 10 * n + (d.toNat - '0'.toNat)) 0)

def offset? : List Char → Option Int
  | [] => some 0
  | '+' :: ds => (number? ds).map Int.ofNat
  | '-' :: ds => (number? ds).map fun n => -Int.ofNat n
  | _ => none

/-- A reference to an anchor that is written with a number. -/
def numbered? (anchor : Nat → Anchor) (cs : List Char) : Option Reference := do
  let n ← number? (cs.takeWhile Char.isDigit)
  let offset ← offset? (cs.dropWhile Char.isDigit)
  return { anchor := anchor n, offset }

def parse? (s : String) : Option Reference :=
  match s.toList with
  | 's' :: cs => (offset? cs).map fun offset => { anchor := .scratch, offset }
  | 'p' :: cs => numbered? .handle cs
  | 'r' :: cs => numbered? .sentinel cs
  | 't' :: cs => numbered? .terminator cs
  | _ => none

end Reference

end BoundaryTag.Workbench
