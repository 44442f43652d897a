import BoundaryTag.Proofs.Allocating

/-!
# Heaps at other places

`A.move f` is the shape `A` with every address `a` in it moved to `f a`. Where a block is put and
which blocks are joined does not depend on addresses, except that they tell blocks apart: an `f`
that maps no two blocks to one address moves the result of an operation along with the shape that it
starts from. The one address that an operation computes is that of the rest of a block, and an `f`
that keeps distances within a region moves it along too.
-/

namespace BoundaryTag

section
variable (f : Nat → Nat)

def Region.move (r : Region) : Region := { r with base := f r.base }

def Block.move (b : Block) : Block := { b with addr := f b.addr }

def Tract.move (t : Tract) : Tract := ⟨t.region.move f, t.blocks.map (Block.move f)⟩

def Context.move (C : Context) : Context where
  before := C.before.map (Tract.move f)
  region := C.region.move f
  left := C.left.map (Block.move f)
  right := C.right.map (Block.move f)
  after := C.after.map (Tract.move f)

def Shape.move (A : Shape) : Shape := ⟨A.tracts.map (Tract.move f), A.free.map f⟩

def Site.move (t : Site) : Site := ⟨t.context.move f, t.block.move f, t.free.map f⟩

end

variable {f g : Nat → Nat} {A : Shape} {C : Context} {mid : List Block} {ts : List Tract}
  {rs : List Region} {b : Block} {t : Site} {r : Region} {L : List Nat} {a x needed : Nat}

@[simp] theorem Tract.region_move {u : Tract} : (u.move f).region = u.region.move f := rfl

@[simp] theorem Tract.blocks_move {u : Tract} : (u.move f).blocks = u.blocks.map (Block.move f) :=
  rfl

@[simp] theorem Context.fill_move :
    (C.move f).fill (mid.map (Block.move f)) = (C.fill mid).map (Tract.move f) := by
  simp [Context.fill, Context.move, Tract.move]

@[simp] theorem Shape.move_fill :
    Shape.move f ⟨C.fill mid, L⟩ = ⟨(C.move f).fill (mid.map (Block.move f)), L.map f⟩ := by
  simp [Shape.move]

@[simp] theorem Shape.regions_move : (A.move f).regions = A.regions.map (Region.move f) := by
  simp [Shape.regions, Shape.move]

@[simp] theorem Region.totalSize_move :
    Region.totalSize (rs.map (Region.move f)) = Region.totalSize rs := by
  induction rs with
  | nil => rfl
  | cons r rs ih => exact congrArg (r.size + ·) ih

theorem blocksOf_move : blocksOf (ts.map (Tract.move f)) = (blocksOf ts).map (Block.move f) := by
  simp [blocksOf, List.flatMap_map, List.map_flatMap]

/-- No two blocks are moved to one place. -/
theorem Laid.addr_of_move (h : Laid (ts.map (Tract.move f))) {c : Block} (hb : b ∈ blocksOf ts)
    (hc : c ∈ blocksOf ts) (heq : f b.addr = f c.addr) : b.addr = c.addr := by
  have hnodup := h.nodup_addr
  rw [blocksOf_move, List.map_map] at hnodup
  have heq' : b = c := List.inj_on_of_nodup_map hnodup hb hc heq
  rw [heq']

/-- No listed block is moved to the place of another block. -/
theorem Shape.Sound.addr_of_move (hs : A.Sound) (hs' : (A.move f).Sound) (hx : x ∈ A.free)
    (hb : b ∈ A.blocks) (heq : f x = f b.addr) : x = b.addr := by
  obtain ⟨c, hc, rfl, -⟩ := hs.listed x hx
  exact hs'.laid.addr_of_move hc hb heq

/-- A list without the entry that alone is moved to `f a`. -/
theorem map_erase_of_inj {l : List Nat} (h : ∀ x ∈ l, f x = f a → x = a) :
    (l.erase a).map f = (l.map f).erase (f a) := by
  induction l with
  | nil => rfl
  | cons x l ih =>
    by_cases hx : x = a
    · subst hx
      simp
    · have hfx : f x ≠ f a := fun heq => hx (h x List.mem_cons_self heq)
      rw [List.erase_cons_tail (by simpa using hx), List.map_cons, List.map_cons,
        List.erase_cons_tail (by simpa using hfx)]
      rw [ih fun y hy => h y (List.mem_cons_of_mem x hy)]

/-! ### Finding a block -/

theorem Laid.at?_move (h : Laid (ts.map (Tract.move f))) (hat : Context.at? ts x = some (C, b)) :
    Context.at? (ts.map (Tract.move f)) (f x) = some (C.move f, b.move f) := by
  obtain ⟨rfl, rfl⟩ := Context.at?_eq_some hat
  rw [← Context.fill_move] at h ⊢
  exact h.at?_eq

/-- A request that a block serves is served by the same block in its new place. -/
theorem Shape.Sound.fit?_move (hs : A.Sound) (hs' : (A.move f).Sound) :
    (A.move f).fit? needed = (A.fit? needed).map f := by
  unfold Shape.fit?
  rw [show (A.move f).free = A.free.map f from rfl, List.find?_map]
  congr 1
  refine List.find?_congr fun x hx => ?_
  obtain ⟨b, hb, rfl, -⟩ := hs.listed x hx
  obtain ⟨C, hC⟩ := Context.exists_of_mem hb
  have hat : Context.at? A.tracts b.addr = some (C, b) := by
    have hlaid := hs.laid
    rw [hC] at hlaid ⊢
    exact hlaid.at?_eq
  have hat' : Context.at? (A.move f).tracts (f b.addr) = some (C.move f, b.move f) :=
    hs'.laid.at?_move hat
  rw [Function.comp_apply, hat, hat']
  rfl

/-! ### Taking a block into use -/

theorem Shape.serve_move
    (h : needed + 64 < b.span → f (b.addr + 32 + needed) = f b.addr + 32 + needed) :
    (Shape.serve C b needed L).move f = .serve (C.move f) (b.move f) needed (L.map f) := by
  unfold Shape.serve
  rw [show (b.move f).span = b.span from rfl]
  split
  · rename_i hcut
    rw [Shape.move_fill]
    simp [Block.move, Block.front, Block.rest, h hcut]
  · rw [Shape.move_fill]
    rfl

theorem Shape.grown_move : (A.grown r).move f = (A.move f).grown (r.move f) := by
  simp [Shape.grown, Shape.move, Tract.blank, Tract.move, Block.move, Region.move]

/-! ### Taking a block out of use -/

namespace Site

@[simp] theorem shape_move : (t.move f).shape = t.shape.move f := by
  simp [Site.shape, Site.move]

@[simp] theorem isSole_move : (t.move f).isSole = t.isSole := by
  simp [isSole, Site.move, Context.move]

@[simp] theorem freed_move : (freed C b L).move f = freed (C.move f) (b.move f) (L.map f) := rfl

theorem joinNext_move (h : ∀ y ∈ t.context.right, ∀ x ∈ t.free, f x = f y.addr → x = y.addr) :
    (t.move f).joinNext = t.joinNext.move f := by
  rcases t.next_cases with hnext | ⟨y, ys, hright, hy⟩
  · rw [joinNext_eq_self hnext]
    refine joinNext_eq_self fun y hy => ?_
    rw [show (t.move f).context.right = t.context.right.map (Block.move f) from rfl,
      List.head?_map] at hy
    obtain ⟨z, hz, rfl⟩ := Option.map_eq_some_iff.mp hy
    exact hnext z hz
  · have hright' : (t.move f).context.right = y.move f :: ys.map (Block.move f) :=
      congrArg (List.map (Block.move f)) hright
    rw [joinNext_eq_join hright hy, joinNext_eq_join hright' hy]
    show Site.mk _ _ ((t.free.map f).erase (f y.addr)) = Site.mk _ _ ((t.free.erase y.addr).map f)
    rw [map_erase_of_inj (h y (hright ▸ List.mem_cons_self))]
    rfl

theorem joinPrevious_move (h : ∀ x ∈ t.free, f x = f t.block.addr → x = t.block.addr) :
    (t.move f).joinPrevious = t.joinPrevious.move f := by
  rcases t.previous_cases with hprevious | ⟨xs, x, hleft, hx⟩
  · rw [joinPrevious_eq_self hprevious]
    refine joinPrevious_eq_self fun x hx => ?_
    rw [show (t.move f).context.left = t.context.left.map (Block.move f) from rfl,
      List.getLast?_map] at hx
    obtain ⟨z, hz, rfl⟩ := Option.map_eq_some_iff.mp hx
    exact hprevious z hz
  · have hleft' : (t.move f).context.left = xs.map (Block.move f) ++ [x.move f] := by
      rw [show (t.move f).context.left = t.context.left.map (Block.move f) from rfl, hleft]
      simp
    rw [joinPrevious_eq_join hleft hx, joinPrevious_eq_join hleft' hx]
    show Site.mk _ _ ((t.free.map f).erase (f t.block.addr)) =
      Site.mk _ _ ((t.free.erase t.block.addr).map f)
    rw [map_erase_of_inj h]
    rfl

/-! Joining takes entries off the free list, and leaves the block where it is or where one before it
is. -/

theorem free_joinNext_subset (t : Site) : t.joinNext.free ⊆ t.free := by
  rcases t.next_cases with hnext | ⟨y, ys, hright, hy⟩
  · rw [joinNext_eq_self hnext]
    exact fun _ hx => hx
  · rw [joinNext_eq_join hright hy]
    exact List.erase_subset

theorem free_joinPrevious_subset (t : Site) : t.joinPrevious.free ⊆ t.free := by
  rcases t.previous_cases with hprevious | ⟨xs, x, hleft, hx⟩
  · rw [joinPrevious_eq_self hprevious]
    exact fun _ hx => hx
  · rw [joinPrevious_eq_join hleft hx]
    exact List.erase_subset

theorem addr_joinPrevious (t : Site) :
    ∃ c ∈ t.block :: t.context.left, t.joinPrevious.block.addr = c.addr := by
  rcases t.previous_cases with hprevious | ⟨xs, x, hleft, hx⟩
  · exact ⟨t.block, List.mem_cons_self, by rw [joinPrevious_eq_self hprevious]⟩
  · exact ⟨x, by simp [hleft], by rw [joinPrevious_eq_join hleft hx]; rfl⟩

theorem free_joined_subset (t : Site) : t.joined.free ⊆ t.free := fun _ hx =>
  t.free_joinNext_subset (t.joinNext.free_joinPrevious_subset hx)

theorem addr_joined (t : Site) : ∃ c ∈ t.block :: t.context.left, t.joined.block.addr = c.addr := by
  obtain ⟨c, hc, haddr⟩ := t.joinNext.addr_joinPrevious
  rw [joinNext_context] at hc
  rcases List.mem_cons.mp hc with rfl | hc
  · exact ⟨t.block, List.mem_cons_self, haddr.trans t.joinNext_addr⟩
  · exact ⟨c, List.mem_cons_of_mem _ hc, haddr⟩

theorem joined_move (hright : ∀ y ∈ t.context.right, ∀ x ∈ t.free, f x = f y.addr → x = y.addr)
    (hblock : ∀ x ∈ t.free, f x = f t.block.addr → x = t.block.addr) :
    (t.move f).joined = t.joined.move f := by
  unfold joined
  rw [joinNext_move hright, joinPrevious_move]
  rw [joinNext_addr]
  exact fun x hx => hblock x (t.free_joinNext_subset hx)

end Site

theorem Context.without_move :
    (C.move f).without (mid.map (Block.move f)) = (C.without mid).map (Tract.move f) := by
  unfold Context.without
  rw [Context.fill_move, show (C.move f).before.length = C.before.length from List.length_map _]
  exact (map_swapRemove _ _ _).symm

/-! ### Moving by other maps -/

theorem Shape.move_congr (hs : A.Sound) (h : ∀ a, A.Spans a → f a = g a) : A.move f = A.move g := by
  have hblock : ∀ b ∈ A.blocks, f b.addr = g b.addr := by
    intro b hb
    obtain ⟨-, -, -, -, hroom⟩ := hs.laid.sound_of_mem hb
    exact h _ (hs.spans_of_mem hb (Nat.le_refl _) (by omega))
  have htract : ∀ u ∈ A.tracts, u.move f = u.move g := by
    intro u hu
    have hadd := (hs.laid.sound u hu).terminator_add
    have hle := (hs.laid.sound u hu).tiles.le
    have hbase : f u.region.base = g u.region.base :=
      h _ ⟨u.region, List.mem_map_of_mem hu, Nat.le_refl _, by omega⟩
    have hblocks : u.blocks.map (Block.move f) = u.blocks.map (Block.move g) :=
      List.map_congr_left fun b hb => by
        unfold Block.move
        rw [hblock b (mem_blocksOf.mpr ⟨u, hu, hb⟩)]
    unfold Tract.move Region.move
    rw [hbase, hblocks]
  have hfree : A.free.map f = A.free.map g := List.map_congr_left fun x hx => by
    obtain ⟨b, hb, rfl, -⟩ := hs.listed x hx
    exact hblock b hb
  unfold Shape.move
  rw [List.map_congr_left htract, hfree]

end BoundaryTag
