import BoundaryTag.Region.Basic

/-!
# Sources of memory

A heap gets its regions from a source. What a source promises, where a promise is needed, is stated
as a hypothesis on its runs; the operations themselves work with any source.
-/

namespace BoundaryTag

/-- A source's answer to a request for memory. -/
inductive MapAnswer where
  /-- The range that starts at `base` is the caller's, with the given contents. -/
  | mapped (base : Nat) (contents : Memory)
  | refused (cause : String)
  /-- The request was none that a caller may make. -/
  | rejected (fault : Fault)
deriving Inhabited

/-- Where regions come from and go back to. -/
class Source (σ : Type) where
  pageSize : σ → Nat
  map (source : σ) (size : Nat) : MapAnswer × σ
  unmap (source : σ) (base : Nat) (size : Nat) : σ

/-- Sources that can be looked into and disturbed from outside. -/
class Instrumented (σ : Type) extends Source σ where
  /-- Every range ever handed out, oldest first. -/
  history : σ → List Region
  /-- The ranges that were not given back. -/
  live : σ → List Region
  /-- What the source reports about itself, the page size first. -/
  figures : σ → List Nat
  /-- Makes the source turn down every request, or stop doing so. -/
  setFailing : σ → Bool → σ

end BoundaryTag
