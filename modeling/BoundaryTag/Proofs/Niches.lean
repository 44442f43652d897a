import BoundaryTag.Proofs.Pictures

/-!
# Niches in pictures

A niche is a place in a picture that some headers can be put into (`Niche.fill`). All other headers
stay as they are, but for the one right after the niche, which says how far back the one before it
is. What an operation does to a heap in order is seen as other headers in one niche
(`Context.map_strip_fill`).
-/

namespace BoundaryTag

/-- How far the last of some headers leads, or `previous` where there is none. -/
def Header.reach {α : Type} (previous : Nat) (hs : List (Header α)) : Nat :=
  (hs.getLast?.map Header.forward).getD previous

theorem Header.reach_cons {α : Type} {previous : Nat} {h : Header α} {hs : List (Header α)} :
    reach previous (h :: hs) = reach h.forward hs := by
  unfold reach
  rw [List.getLast?_cons]
  cases hs.getLast? <;> rfl

/-- All that is seen of the regions apart from some neighbouring headers, in front of `next`. -/
structure Niche (α : Type) where
  before : List (Strip α)
  base : α
  size : Nat
  left : List (Header α)
  next : Header α
  right : List (Header α)
  after : List (Strip α)

/-- The regions with the headers `mid` in the niche. -/
def Niche.fill {α : Type} (N : Niche α) (mid : List (Header α)) : List (Strip α) :=
  N.before ++ ⟨N.base, N.size, N.left ++ mid ++
    { N.next with backward := Header.reach 0 (N.left ++ mid) } :: N.right⟩ :: N.after

/-! ### Headers of blocks -/

/-- The header of a block whose predecessor is `previous` bytes before it. -/
def Block.header (b : Block) (previous : Nat) : Header Nat := ⟨b.addr, b.span, previous, b.tag⟩

/-- The headers of neighbouring blocks, without what is after them. -/
def chained (previous : Nat) : List Block → List (Header Nat)
  | [] => []
  | b :: bs => b.header previous :: chained b.span bs

/-- The header at the start of some blocks that end at `stop`, except for how far back it leads. -/
def startHeader (stop : Nat) : List Block → Header Nat
  | [] => ⟨stop, 0, 0, .allocated⟩
  | b :: _ => b.header 0

/-- The headers after the first one. -/
def laterHeaders (stop : Nat) : List Block → List (Header Nat)
  | [] => []
  | b :: bs => headersOf stop b.span bs

/-- What is seen around a place. -/
def Context.niche (C : Context) : Niche Nat where
  before := C.before.map Tract.strip
  base := C.region.base
  size := C.region.size
  left := chained 0 C.left
  next := startHeader C.region.terminator C.right
  right := laterHeaders C.region.terminator C.right
  after := C.after.map Tract.strip

variable {C : Context} {bs cs mid : List Block} {b : Block} {stop previous : Nat}

theorem headersOf_eq : headersOf stop previous bs =
    { startHeader stop bs with backward := previous } :: laterHeaders stop bs := by
  cases bs <;> rfl

theorem headersOf_append : headersOf stop previous (bs ++ cs) =
    chained previous bs ++ headersOf stop (Header.reach previous (chained previous bs)) cs := by
  induction bs generalizing previous with
  | nil => rfl
  | cons b bs ih =>
    rw [chained, Header.reach_cons]
    exact congrArg (List.cons _) ih

theorem chained_append : chained previous (bs ++ cs) =
    chained previous bs ++ chained (Header.reach previous (chained previous bs)) cs := by
  induction bs generalizing previous with
  | nil => rfl
  | cons b bs ih =>
    rw [chained, Header.reach_cons]
    exact congrArg (List.cons _) ih

/-- The last of the headers is tagged as its block. -/
theorem tag_getLast?_chained {h : Header Nat} (hh : h ∈ (chained previous bs).getLast?) :
    ∃ b ∈ bs.getLast?, h.tag = b.tag := by
  rcases bs.eq_nil_or_concat' with rfl | ⟨bs, b, rfl⟩
  · nomatch hh
  · rw [chained_append] at hh
    refine ⟨b, by rw [List.getLast?_concat]; rfl, ?_⟩
    change h ∈ (_ ++ [b.header _]).getLast? at hh
    rw [List.getLast?_concat] at hh
    cases hh
    rfl

namespace Context

/-- How far back the first header of the place leads. -/
def reach (C : Context) : Nat := Header.reach 0 (chained 0 C.left)

/-- What is seen of the regions with some blocks in a place are their headers in its niche. -/
theorem map_strip_fill (mid : List Block) :
    (C.fill mid).map Tract.strip = C.niche.fill (chained C.reach mid) := by
  have hheaders : headersOf C.region.terminator 0 (C.left ++ mid ++ C.right) =
      chained 0 C.left ++ chained C.reach mid ++ { startHeader C.region.terminator C.right with
        backward := Header.reach 0 (chained 0 C.left ++ chained C.reach mid) } ::
          laterHeaders C.region.terminator C.right := by
    rw [headersOf_append, chained_append, headersOf_eq]
    rfl
  have hstrip : Tract.strip ⟨C.region, C.left ++ mid ++ C.right⟩ =
      ⟨C.region.base, C.region.size, _⟩ :=
    congrArg (Strip.mk C.region.base C.region.size) hheaders
  unfold fill Niche.fill
  rw [List.map_append, List.map_cons, hstrip]
  rfl

end Context

/-- With the same regions the heap has the same counts. -/
theorem Outline.picture_reshaped {σ : Type} {o : Outline σ} {A : Shape}
    (hregions : A.regions = o.shape.regions) :
    Outline.picture { o with shape := A } =
      { o.picture with regions := A.tracts.map Tract.strip, free := .ok A.free } := by
  unfold picture stats
  rw [hregions]

end BoundaryTag
