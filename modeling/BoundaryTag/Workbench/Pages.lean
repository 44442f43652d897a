import BoundaryTag.Source.PageMapper
import BoundaryTag.Workbench.Step

/-!
# Steps on a page mapper

Mapping and unmapping alone, without a heap. Every attempt to map has a number, also a failed one.
-/

namespace BoundaryTag.Workbench

/-- A page mapper at work. -/
structure Pages where
  mapper : PageMapper
  /-- The outcomes of all attempts to map, oldest first; a range that was unmapped is gone. -/
  ranges : List (Option Region) := []

/-- An operation on a page mapper. Missing operands are `none`. -/
inductive PageOp where
  | pageSize
  | map (size : Option Nat)
  | unmap (id : Option Nat)
  | unmapInvalid (base size : Option Nat)
  | unknown

/-- The outcome of an operation on a page mapper. -/
inductive PageReply where
  | done
  | pageSize (n : Nat)
  /-- A range was mapped: its offset in its page, its first byte and its last byte. -/
  | mapped (pageOffset first last : Nat)
  | failed (e : SystemError)
  | refused (r : Refusal)

/-- Runs an operation. The mapper's log starts afresh. -/
def Pages.run (p : Pages) (op : PageOp) : PageReply × Pages :=
  let p := { p with mapper := { p.mapper with log := [] } }
  match op with
  | .pageSize => (.pageSize (Source.pageSize p.mapper), p)
  | .map (some size) =>
    match p.mapper.map? size with
    | .ok (r, mapper) =>
      let contents : Memory := ∅
      (.mapped (r.base % PageMapper.pageSize) (contents.byte r.base)
        (contents.byte (r.base + size - 1)), { p with mapper, ranges := p.ranges ++ [some r] })
    | .error e => (.failed e, { p with ranges := p.ranges ++ [none] })
  | .map none => (.refused .badInput, { p with ranges := p.ranges ++ [none] })
  | .unmap (some id) =>
    match p.ranges[id]?.join with
    | some r =>
      (.done, { p with mapper := p.mapper.unmap r.base r.size, ranges := p.ranges.set id none })
    | none => (.refused .badRef, p)
  | .unmapInvalid (some base) (some size) =>
    if base ≠ 0 && PageMapper.refusesUnmap base size then
      (.done, { p with mapper := p.mapper.unmap base size })
    else (.refused .badRef, p)
  | .unmap none | .unmapInvalid .. | .unknown => (.refused .badInput, p)

end BoundaryTag.Workbench
