import BoundaryTag.Proofs.Serving

/-!
# Joining free neighbours

While a block is released it may have free neighbours, in a heap that is in order otherwise
(`World.Loose`). Joining it with the block after it (`mergeNext_run`) and to the one before it
(`mergePrevious_run`) leaves it between allocated blocks or at the ends of its region, and the heap
is coalesced again.
-/

namespace BoundaryTag

variable {m : Memory} {C C' : Context} {mid : List Block} {L L' : List Nat} {a e : Nat}
  {b d s : Block} {t : Tract}

/-! ### Neighbours -/

/-- No two blocks around the place are neighbours and free. -/
structure Context.Coalesced (C : Context) : Prop where
  elsewhere : ∀ t, t ∈ C.before ∨ t ∈ C.after → t.blocks.IsChain Shape.Parted
  left : C.left.IsChain Shape.Parted
  right : C.right.IsChain Shape.Parted

namespace Shape

theorem coalesced_fill_iff : Coalesced ⟨C.fill [b], L⟩ ↔ C.Coalesced ∧
    (∀ x ∈ C.left.getLast?, Parted x b) ∧ ∀ y ∈ C.right.head?, Parted b y := by
  unfold Coalesced
  constructor
  · intro h
    have here := h _ (Context.mem_fill.mpr (.inl rfl))
    dsimp only at here
    rw [List.append_assoc, List.isChain_append, List.isChain_append] at here
    obtain ⟨hleft, ⟨-, hright, hnext⟩, hprevious⟩ := here
    refine ⟨⟨fun t ht => h t (Context.mem_fill.mpr (.inr ht)), hleft, hright⟩, fun x hx => ?_,
      fun y hy => ?_⟩
    · exact hprevious x hx b rfl
    · exact hnext b rfl y hy
  · rintro ⟨⟨helse, hleft, hright⟩, hprevious, hnext⟩ t ht
    rcases Context.mem_fill.mp ht with rfl | ht
    · dsimp only
      rw [List.append_assoc, List.isChain_append, List.isChain_append]
      refine ⟨hleft, ⟨List.isChain_singleton _, hright, ?_⟩, ?_⟩
      · rintro x ⟨⟩ y hy
        exact hnext y hy
      · rintro x hx y ⟨⟩
        exact hprevious x hx
    · exact helse t ht

theorem complete_fill_iff : Complete ⟨C.fill mid, L⟩ ↔
    (∀ b ∈ mid, b.tag = .free → b.addr ∈ L) ∧ ∀ b ∈ C.others, b.tag = .free → b.addr ∈ L := by
  constructor
  · exact fun h => ⟨fun b hb => h b (Context.mem_blocksOf_fill.mpr (.inl hb)),
      fun b hb => h b (Context.mem_blocksOf_fill.mpr (.inr hb))⟩
  · rintro ⟨hmid, hothers⟩ b hb
    exact (Context.mem_blocksOf_fill.mp hb).elim (hmid b) (hothers b)

theorem uses_fill_iff (hfree : ∀ b ∈ mid, b.tag = .free) :
    Uses ⟨C.fill mid, L⟩ d ↔ d ∈ C.others ∧ d.tag = .allocated := by
  unfold Uses blocks
  rw [Context.mem_blocksOf_fill]
  constructor
  · rintro ⟨hd | hd, htag⟩
    · rw [hfree d hd] at htag
      nomatch htag
    · exact ⟨hd, htag⟩
  · exact fun ⟨hd, htag⟩ => ⟨.inr hd, htag⟩

/-- The same regions and the same blocks in use. -/
structure Alike (A A' : Shape) : Prop where
  regions : A'.regions = A.regions
  uses : ∀ b, A'.Uses b ↔ A.Uses b

namespace Alike

variable {A A' A'' : Shape}

theorem refl (A : Shape) : A.Alike A := ⟨rfl, fun _ => Iff.rfl⟩

theorem trans (h : A.Alike A') (h' : A'.Alike A'') : A.Alike A'' :=
  ⟨h'.regions.trans h.regions, fun b => (h'.uses b).trans (h.uses b)⟩

theorem of_fill {mid' : List Block} (hfree : ∀ b ∈ mid, b.tag = .free)
    (hfree' : ∀ b ∈ mid', b.tag = .free) : Alike ⟨C.fill mid, L⟩ ⟨C.fill mid', L'⟩ :=
  ⟨Context.map_region_fill mid' mid, fun _ =>
    (uses_fill_iff hfree').trans (uses_fill_iff hfree).symm⟩

theorem spans (h : A.Alike A') {w : Nat} (hw : A'.Spans w) : A.Spans w := by
  unfold Spans at hw ⊢
  rwa [h.regions] at hw

theorem reserved (h : A.Alike A') {w : Nat} (hw : A'.Reserved w) : A.Reserved w :=
  ⟨h.spans hw.1, fun b hb htag => hw.2 b ((h.uses b).mpr ⟨hb, htag⟩).1 htag⟩

end Alike

end Shape

/-- The first header of a region is where no block is to the left. -/
theorem Tract.Marked.isSentinel_eq (hp : Placed C [b] a e)
    (hm : Tract.Marked m ⟨C.region, C.left ++ [b] ++ C.right⟩) :
    m.isSentinel a = C.left.isEmpty := by
  have htiles := hp.left
  rcases C.left.eq_nil_or_concat' with hnil | ⟨xs, x, hconcat⟩
  · rw [hnil] at htiles ⊢
    unfold Memory.isSentinel
    rw [← show C.region.base = a from htiles, hm.first]
    rfl
  · rw [hconcat, Tiles.append_iff] at htiles
    obtain ⟨c, -, hx⟩ := htiles
    obtain ⟨rfl, -, hroom, rfl⟩ := Tiles.single_iff.mp hx
    have hxm : x.Marked m := hm.blocks x (by simp [hconcat])
    rw [hxm.isSentinel_eq hroom, hconcat]
    simp

/-- The last header of a region is where no block is to the right. -/
theorem Tract.Marked.isTerminator_eq (hp : Placed C [b] a e)
    (hm : Tract.Marked m ⟨C.region, C.left ++ [b] ++ C.right⟩) :
    m.isTerminator e = C.right.isEmpty := by
  have htiles := hp.right
  cases hright : C.right with
  | nil =>
    rw [hright] at htiles
    unfold Memory.isTerminator
    rw [show e = C.region.terminator from htiles, hm.lastForward]
    rfl
  | cons y ys =>
    rw [hright] at htiles
    obtain ⟨rfl, -, hroom, -⟩ := htiles
    have hym : y.Marked m := hm.blocks y (by simp [hright])
    exact hym.isTerminator_eq hroom

/-- What is after a block is the last header or a block in use. -/
theorem Tract.Marked.next_allocated (hp : Placed C [b] a e)
    (hm : Tract.Marked m ⟨C.region, C.left ++ [b] ++ C.right⟩)
    (hright : ∀ y ∈ C.right.head?, y.tag = .allocated) :
    m.isTerminator e = true ∨ m.isAllocated e = true := by
  have htiles := hp.right
  cases hcons : C.right with
  | nil =>
    left
    rw [hm.isTerminator_eq hp, hcons]
    rfl
  | cons y ys =>
    rw [hcons] at htiles hright
    obtain ⟨rfl, -⟩ := htiles
    have hym : y.Marked m := hm.blocks y (by simp [hcons])
    right
    rw [hym.isAllocated_eq, hright y rfl]
    rfl

/-- What is before a block is the start of its region or a block in use. -/
theorem Tract.Marked.previous_allocated (hp : Placed C [b] a e)
    (hm : Tract.Marked m ⟨C.region, C.left ++ [b] ++ C.right⟩)
    (hleft : ∀ x ∈ C.left.getLast?, x.tag = .allocated) :
    m.isSentinel a = true ∨ m.previous a % 16 = 0 ∧ m.isAllocated (m.previous a) = true := by
  have htiles := hp.left
  obtain ⟨-, hroom, hend, hadd, hlt, -⟩ := hp.bounds
  rcases C.left.eq_nil_or_concat' with hnil | ⟨xs, x, hconcat⟩
  · left
    rw [hm.isSentinel_eq hp, hnil]
    rfl
  · rw [hconcat] at htiles hleft
    obtain ⟨c, hxs, hx⟩ := Tiles.append_iff.mp htiles
    obtain ⟨rfl, -, -, rfl⟩ := Tiles.single_iff.mp hx
    have hxm : x.Marked m := hm.blocks x (by simp [hconcat])
    right
    rw [hxm.previous_eq (by omega), hxm.isAllocated_eq, hleft x (by rw [List.getLast?_concat]; rfl)]
    exact ⟨hxs.aligned hp.sound.aligned, rfl⟩

/-! ### Joining two blocks -/

/-- Two neighbours as one block. -/
def Block.join (s b : Block) : Block := ⟨s.addr, s.span + b.span, s.tag⟩

/-- The memory after `s` was given the bytes of the block `b` after it. -/
def Memory.joined (m : Memory) (s b : Block) : Memory :=
  (m.setForward s.addr (s.span + b.span)).setBackward (b.addr + b.span) (s.span + b.span)

theorem Memory.changesOnly_joined (hs : 48 ≤ s.span) (hb : b.addr = s.addr + s.span)
    (hroom : 48 ≤ b.span) : Memory.ChangesOnly (fun w => Territory s.addr (b.addr + b.span) w ∧
      w ≠ s.addr + 16 ∧ w ≠ s.addr + 32 ∧ w ≠ s.addr + 40) m (m.joined s b) := by
  unfold Memory.joined
  refine (changesOnly_setForward.mono ?_).trans (changesOnly_setBackward.mono ?_)
  · rintro w rfl
    unfold Territory
    omega
  · rintro w rfl
    unfold Territory
    omega

theorem Block.Marked.joined (hs : s.Marked m) (hroom : 48 ≤ s.span)
    (haddr : b.addr = s.addr + s.span) (hroom' : 48 ≤ b.span)
    (hlt : b.addr + b.span < Word.limit) : (s.join b).Marked (m.joined s b) := by
  have hend : b.addr + b.span = s.addr + (s.span + b.span) := by omega
  unfold Memory.joined Block.join
  refine ⟨?_, ?_, ?_⟩
  · dsimp only
    rw [Memory.changesOnly_setBackward.forward (by omega), Memory.forward_setForward (by omega)]
  · dsimp only
    rw [Memory.changesOnly_setBackward.tag (by omega), Memory.changesOnly_setForward.tag (by omega),
      hs.tag]
  · dsimp only
    rw [hend, Memory.backward_setBackward (by omega)]

/-- The block `c` took in a block at `x`, whose header still leads to the end of `c` and back to its
start. -/
structure Block.Tail (m : Memory) (c : Block) (x : Nat) : Prop where
  start : c.addr + 48 ≤ x
  room : x + 48 ≤ c.addr + c.span
  forward : x + m.forward x = c.addr + c.span
  backward : m.backward x + c.addr = x

/-- The header of a block that was taken in stays where it was. -/
theorem Block.Marked.tail (hs : s.Marked m) (hb : b.Marked m) (hroom : 48 ≤ s.span)
    (haddr : b.addr = s.addr + s.span) (hroom' : 48 ≤ b.span) : (s.join b).Tail m b.addr := by
  have hback := hs.backward
  rw [← haddr] at hback
  unfold Block.join
  refine ⟨?_, ?_, ?_, ?_⟩ <;> dsimp only
  · omega
  · omega
  · rw [hb.forward]
    omega
  · rw [hback]
    omega

theorem Block.Tail.of_changesOnly {m' : Memory} {P : Nat → Prop} {c : Block} {x : Nat}
    (h : c.Tail m x) (hc : Memory.ChangesOnly P m m') (hforward : ¬P x) (hbackward : ¬P (x + 8)) :
    c.Tail m' x where
  start := h.start
  room := h.room
  forward := by rw [hc.forward hforward, h.forward]
  backward := by rw [hc.backward hbackward, h.backward]

namespace HeapM

variable {σ : Type} {w : World σ}

theorem merge_run (H : w.Has ⟨C.fill [s, b], L⟩) (hs : s.tag = .free) (hb : b.tag = .free)
    (hbL : b.addr ∈ L) :
    ∃ w', merge s.addr b.addr w = .ok () w' ∧ w'.Has ⟨C.fill [s.join b], L.erase b.addr⟩ ∧
      (s.join b).Tail w'.memory b.addr ∧ w.Edit (Shape.Reserved ⟨C.fill [s, b], L⟩) w' := by
  obtain ⟨hp, haddr⟩ := H.sound.laid.placed_pair
  have hsmem : s ∈ [s, b] := List.mem_cons_self
  have hbmem : b ∈ [s, b] := List.mem_cons_of_mem s List.mem_cons_self
  obtain ⟨-, -, hal, hwhole, hroom⟩ := H.block_sound (World.Has.mem_fill hsmem)
  obtain ⟨-, hlt, -, hwhole', hroom'⟩ := H.block_sound (World.Has.mem_fill hbmem)
  have hsm := H.marked (World.Has.mem_fill hsmem)
  have hbm := H.marked (World.Has.mem_fill hbmem)
  have hspan : Word.add (w.memory.forward s.addr) (w.memory.forward b.addr) =
      .ok (s.span + b.span) := by
    rw [hsm.forward, hbm.forward]
    exact Word.add_eq_ok_iff.mpr ⟨by omega, rfl⟩
  obtain ⟨w₁, hunlist, H₁, he₁⟩ := H.unlist hbL
  have hsm₁ := H₁.marked (World.Has.mem_fill hsmem)
  have hc := Memory.changesOnly_joined (m := w₁.memory) hroom haddr hroom'
  have hnot : b.addr ∉ L.erase b.addr := H.sound.nodup.not_mem_erase
  have H₂ : World.Has { w₁ with memory := w₁.memory.joined s b }
      ⟨C.fill [s.join b], L.erase b.addr⟩ := by
    refine H₁.refill hp ?_ (List.cons_ne_nil _ _) (hc.mono fun w hw => hw.1) ?_ ?_ ?_
    · refine Tiles.single_iff.mpr ⟨rfl, ?_, ?_, ?_⟩ <;> unfold Block.join <;> dsimp only <;> omega
    · exact List.forall_mem_singleton.mpr (hsm₁.joined hroom haddr hroom' hlt)
    · intro c hc hcL
      rcases List.mem_pair.mp hc with rfl | rfl
      · exact ⟨c.join b, List.mem_singleton.mpr rfl, rfl, hs⟩
      · exact absurd hcL hnot
    · intro c hcm hcL
      rcases List.mem_pair.mp hcm with rfl | rfl
      · exact ⟨hc.link fun hw => hw.2.2.1 rfl, hc.link fun hw => hw.2.2.2 rfl⟩
      · exact absurd hcL hnot
  have hfree : ∀ c ∈ [s, b], c.tag = .free := by
    intro c hc
    rcases List.mem_pair.mp hc with rfl | rfl <;> assumption
  have he₂ : w₁.Edit (Shape.Reserved ⟨C.fill [s, b], L⟩)
      { w₁ with memory := w₁.memory.joined s b } :=
    ⟨hc.mono fun _ hw => Shape.reserved_of_territory hp hfree hw.1, rfl⟩
  have hwords : Memory.ChangesOnly (fun v => v = s.addr ∨ v = b.addr + b.span + 8) w₁.memory
      (w₁.memory.joined s b) :=
    (Memory.changesOnly_setForward.mono fun _ => .inl).trans
      (Memory.changesOnly_setBackward.mono fun _ => .inr)
  have htail : (s.join b).Tail (w₁.memory.joined s b) b.addr :=
    (hsm₁.tail (H₁.marked (World.Has.mem_fill hbmem)) hroom haddr hroom').of_changesOnly hwords
      (by omega) (by omega)
  refine ⟨_, ?_, H₂.logged (w₁.log ++ [.coalesced b.addr s.addr]), htail,
    ((H.edit_reserved he₁).trans he₂).trans ⟨.refl _ _, rfl⟩⟩
  unfold merge
  rw [memory_bind, hspan, run_bind_ok (run_ofExcept_ok _ w), run_bind_ok hunlist, store_bind,
    hbm.next_eq hlt, requireAligned_bind hp.stop_aligned, store_bind]
  rfl

end HeapM

/-! ### Joining a block with its neighbours -/

/-- A block in its place, with the free list. -/
structure Site where
  context : Context
  block : Block
  free : List Nat

namespace Site

/-- The heap around the block. -/
def shape (s : Site) : Shape := ⟨s.context.fill [s.block], s.free⟩

theorem mem_blocks (s : Site) : s.block ∈ s.shape.blocks :=
  Context.mem_blocksOf_fill.mpr (.inl List.mem_cons_self)

/-- The block is joined with the one after it, if that is free. -/
def joinNext (s : Site) : Site :=
  match s.context.right with
  | [] => s
  | y :: ys =>
    if y.tag = .free then
      ⟨{ s.context with right := ys }, s.block.join y, s.free.erase y.addr⟩
    else s

/-- The block is joined to the one before it, if that is free. -/
def joinPrevious (s : Site) : Site :=
  match s.context.left.getLast? with
  | none => s
  | some x =>
    if x.tag = .free then
      ⟨{ s.context with left := s.context.left.dropLast }, x.join s.block,
        s.free.erase s.block.addr⟩
    else s

/-- The block is joined with its free neighbours. -/
def joined (s : Site) : Site := s.joinNext.joinPrevious

variable {s : Site} {x y : Block} {xs ys : List Block}

theorem joinNext_eq_self (h : ∀ y ∈ s.context.right.head?, y.tag = .allocated) :
    s.joinNext = s := by
  unfold joinNext
  cases hright : s.context.right with
  | nil => rfl
  | cons y ys => simp [h y (by rw [hright]; rfl)]

theorem joinNext_eq_join (hright : s.context.right = y :: ys) (hy : y.tag = .free) :
    s.joinNext = ⟨{ s.context with right := ys }, s.block.join y, s.free.erase y.addr⟩ := by
  unfold joinNext
  rw [hright]
  exact if_pos hy

theorem joinPrevious_eq_self (h : ∀ x ∈ s.context.left.getLast?, x.tag = .allocated) :
    s.joinPrevious = s := by
  unfold joinPrevious
  cases hleft : s.context.left.getLast? with
  | none => rfl
  | some x => simp [h x hleft]

theorem joinPrevious_eq_join (hleft : s.context.left = xs ++ [x]) (hx : x.tag = .free) :
    s.joinPrevious =
      ⟨{ s.context with left := xs }, x.join s.block, s.free.erase s.block.addr⟩ := by
  unfold joinPrevious
  rw [hleft, List.getLast?_concat, List.dropLast_concat]
  exact if_pos hx

/-- There is a free block after the block to join it with, or there is none. -/
theorem next_cases (s : Site) : (∀ y ∈ s.context.right.head?, y.tag = .allocated) ∨
    ∃ y ys, s.context.right = y :: ys ∧ y.tag = .free := by
  cases hright : s.context.right with
  | nil => exact .inl nofun
  | cons y ys =>
    cases hy : y.tag with
    | free => exact .inr ⟨y, ys, rfl, hy⟩
    | allocated => exact .inl fun z hz => by cases hz; exact hy

theorem previous_cases (s : Site) : (∀ x ∈ s.context.left.getLast?, x.tag = .allocated) ∨
    ∃ xs x, s.context.left = xs ++ [x] ∧ x.tag = .free := by
  rcases s.context.left.eq_nil_or_concat' with hleft | ⟨xs, x, hleft⟩
  · exact .inl (by rw [hleft]; nofun)
  · cases hx : x.tag with
    | free => exact .inr ⟨xs, x, hleft, hx⟩
    | allocated =>
      refine .inl fun z hz => ?_
      rw [hleft, List.getLast?_concat] at hz
      cases hz
      exact hx

/-- The block and the free one after it. -/
theorem fill_next (hright : s.context.right = y :: ys) :
    s.context.fill [s.block] = { s.context with right := ys }.fill [s.block, y] := by
  unfold Context.fill
  rw [hright]
  simp

/-- The block and the free one before it. -/
theorem fill_previous (hleft : s.context.left = xs ++ [x]) :
    s.context.fill [s.block] = { s.context with left := xs }.fill [x, s.block] := by
  unfold Context.fill
  rw [hleft]
  simp

/-! Both joins keep the place in its region, and each leaves no free neighbour on its side. -/

theorem joinNext_addr (s : Site) : s.joinNext.block.addr = s.block.addr := by
  rcases s.next_cases with h | ⟨y, ys, hright, hy⟩
  · rw [joinNext_eq_self h]
  · rw [joinNext_eq_join hright hy]
    rfl

theorem joinNext_context (s : Site) :
    s.joinNext.context = { s.context with right := s.joinNext.context.right } := by
  rcases s.next_cases with h | ⟨y, ys, hright, hy⟩
  · rw [joinNext_eq_self h]
  · rw [joinNext_eq_join hright hy]

theorem joinPrevious_context (s : Site) :
    s.joinPrevious.context = { s.context with left := s.joinPrevious.context.left } := by
  rcases s.previous_cases with h | ⟨xs, x, hleft, hx⟩
  · rw [joinPrevious_eq_self h]
  · rw [joinPrevious_eq_join hleft hx]

theorem allocated_after_joinNext (h : s.context.right.IsChain Shape.Parted) :
    ∀ y ∈ s.joinNext.context.right.head?, y.tag = .allocated := by
  rcases s.next_cases with hnext | ⟨y, ys, hright, hy⟩
  · rwa [joinNext_eq_self hnext]
  · rw [joinNext_eq_join hright hy]
    intro z hz
    rw [hright] at h
    exact ((List.isChain_cons.mp h).1 z hz).right hy

theorem allocated_before_joinPrevious (h : s.context.left.IsChain Shape.Parted) :
    ∀ x ∈ s.joinPrevious.context.left.getLast?, x.tag = .allocated := by
  rcases s.previous_cases with hprevious | ⟨xs, x, hleft, hx⟩
  · rwa [joinPrevious_eq_self hprevious]
  · rw [joinPrevious_eq_join hleft hx]
    intro z hz
    rw [hleft] at h
    exact ((List.isChain_append.mp h).2.2 z hz x rfl).left hx

theorem joined_context (s : Site) : s.joined.context =
    { s.context with left := s.joined.context.left, right := s.joined.context.right } := by
  unfold joined
  rw [joinPrevious_context, joinNext_context]

theorem regions_joined (s : Site) : s.joined.shape.regions = s.shape.regions := by
  unfold shape Shape.regions
  rw [joined_context]
  simp [Context.fill]

/-- A free block that was joined with its neighbours is between allocated blocks, or at the ends of
its region. -/
theorem joined_between (h : s.context.Coalesced) :
    (∀ x ∈ s.joined.context.left.getLast?, x.tag = .allocated) ∧
      ∀ y ∈ s.joined.context.right.head?, y.tag = .allocated := by
  unfold joined
  refine ⟨allocated_before_joinPrevious (by rw [joinNext_context]; exact h.left), ?_⟩
  rw [joinPrevious_context]
  exact allocated_after_joinNext h.right

theorem joined_tag (hs : s.block.tag = .free) : s.joined.block.tag = .free := by
  have hnext : s.joinNext.block.tag = .free := by
    rcases s.next_cases with h | ⟨y, ys, hright, hy⟩
    · rwa [joinNext_eq_self h]
    · rwa [joinNext_eq_join hright hy]
  unfold joined
  rcases s.joinNext.previous_cases with h | ⟨xs, x, hleft, hx⟩
  · rwa [joinPrevious_eq_self h]
  · rwa [joinPrevious_eq_join hleft hx]

end Site

/-- The heap has the free block of the site, and is in order but for neighbours of this block that
may be free too. -/
structure World.Loose {σ : Type} (w : World σ) (s : Site) : Prop where
  has : w.Has s.shape
  free : s.block.tag = .free
  complete : s.shape.Complete
  around : s.context.Coalesced

namespace HeapM

variable {σ : Type} {w : World σ} {s : Site}

theorem merge_loose {x : Block} (H : w.Has ⟨C.fill [x, b], L⟩) (hx : x.tag = .free)
    (hb : b.tag = .free) (hcomplete : Shape.Complete ⟨C.fill [x, b], L⟩) (haround : C.Coalesced) :
    ∃ w', merge x.addr b.addr w = .ok () w' ∧ w'.Loose ⟨C, x.join b, L.erase b.addr⟩ ∧
      (x.join b).Tail w'.memory b.addr ∧
      Shape.Alike ⟨C.fill [x, b], L⟩ ⟨C.fill [x.join b], L.erase b.addr⟩ ∧
      w.Edit (Shape.Reserved ⟨C.fill [x, b], L⟩) w' := by
  obtain ⟨hmid, hothers⟩ := Shape.complete_fill_iff.mp hcomplete
  have hbmem : b ∈ [x, b] := List.mem_cons_of_mem x List.mem_cons_self
  obtain ⟨hp, haddr⟩ := H.sound.laid.placed_pair
  obtain ⟨-, -, -, -, hroom⟩ := H.block_sound (b := x) (World.Has.mem_fill List.mem_cons_self)
  obtain ⟨-, -, -, -, hroom'⟩ := H.block_sound (World.Has.mem_fill hbmem)
  have hne : x.addr ≠ b.addr := by omega
  obtain ⟨w', hrun, H', htail, he⟩ := merge_run H hx hb (hmid b hbmem hb)
  refine ⟨w', hrun, ⟨H', hx, Shape.complete_fill_iff.mpr ⟨?_, ?_⟩, haround⟩, htail, .of_fill ?_ ?_,
    he⟩
  · exact List.forall_mem_singleton.mpr fun _ =>
      (List.mem_erase_of_ne hne).mpr (hmid x List.mem_cons_self hx)
  · intro c hc htag
    have hcb : c.addr ≠ b.addr := hp.addr_ne hc (by omega) (by omega)
    exact (List.mem_erase_of_ne hcb).mpr (hothers c hc htag)
  · intro c hc
    rcases List.mem_pair.mp hc with rfl | rfl <;> assumption
  · exact List.forall_mem_singleton.mpr hx

theorem mergeNext_of_allocated {x : Nat} (hal : w.memory.next x % 16 = 0)
    (h : w.memory.isTerminator (w.memory.next x) = true ∨
      w.memory.isAllocated (w.memory.next x) = true) : mergeNext x w = .ok () w := by
  unfold mergeNext
  rw [memory_bind, requireAligned_bind hal]
  rcases h with h | h <;> simp [h]

theorem mergePrevious_of_allocated {x : Nat} (h : w.memory.isSentinel x = true ∨
    w.memory.previous x % 16 = 0 ∧ w.memory.isAllocated (w.memory.previous x) = true) :
    mergePrevious x w = .ok x w := by
  unfold mergePrevious
  rw [memory_bind]
  rcases h with h | ⟨hal, h⟩
  · rw [if_pos h]
    rfl
  · split
    · rfl
    · rw [requireAligned_bind hal, if_pos h]
      rfl

theorem mergeNext_run (h : w.Loose s) :
    ∃ w', mergeNext s.block.addr w = .ok () w' ∧ w'.Loose s.joinNext ∧
      s.shape.Alike s.joinNext.shape ∧ w.Edit s.shape.Reserved w' := by
  have hp := h.has.sound.laid.placed_single
  have hm := h.has.inMemory.marked _ (Context.mem_fill.mpr (.inl rfl))
  have hmem := s.mem_blocks
  have hnext := (h.has.marked hmem).next_eq (h.has.block_sound hmem).2.1
  rcases s.next_cases with hallocated | ⟨y, ys, hright, hy⟩
  · rw [Site.joinNext_eq_self hallocated]
    refine ⟨w, mergeNext_of_allocated ?_ ?_, h, .refl _, .refl _ _⟩
    · rw [hnext]
      exact hp.stop_aligned
    · rw [hnext]
      exact hm.next_allocated hp hallocated
  · have htiles := hp.right
    rw [hright] at htiles
    have hym : y.Marked w.memory :=
      h.has.marked (Context.mem_blocksOf_fill.mpr (.inr (by simp [Context.others, hright])))
    have H := h.has
    have hcomplete := h.complete
    have haround := h.around.right
    unfold Site.shape at H hcomplete
    rw [Site.fill_next hright] at H hcomplete
    rw [hright] at haround
    obtain ⟨w', hrun, hloose, -, halike, he⟩ := merge_loose H h.free hy hcomplete
      ⟨h.around.elsewhere, h.around.left, (List.isChain_cons.mp haround).2⟩
    unfold mergeNext
    rw [memory_bind, hnext, requireAligned_bind hp.stop_aligned, hm.isTerminator_eq hp, ← htiles.1,
      hym.isAllocated_eq, Site.joinNext_eq_join hright hy, hright, hy]
    unfold Site.shape
    rw [Site.fill_next hright]
    exact ⟨w', hrun, hloose, halike, he⟩

theorem mergePrevious_run (h : w.Loose s) :
    ∃ w', mergePrevious s.block.addr w = .ok s.joinPrevious.block.addr w' ∧
      w'.Loose s.joinPrevious ∧
      (s.joinPrevious = s ∨ s.joinPrevious.block.Tail w'.memory s.block.addr) ∧
      s.shape.Alike s.joinPrevious.shape ∧ w.Edit s.shape.Reserved w' := by
  have hp := h.has.sound.laid.placed_single
  have hm := h.has.inMemory.marked _ (Context.mem_fill.mpr (.inl rfl))
  rcases s.previous_cases with hallocated | ⟨xs, x, hleft, hx⟩
  · rw [Site.joinPrevious_eq_self hallocated]
    exact ⟨w, mergePrevious_of_allocated (hm.previous_allocated hp hallocated), h, .inl rfl,
      .refl _, .refl _ _⟩
  · have htiles := hp.left
    rw [hleft] at htiles
    obtain ⟨c, -, hlast⟩ := Tiles.append_iff.mp htiles
    obtain ⟨rfl, -, -, haddr⟩ := Tiles.single_iff.mp hlast
    have hxmem : x ∈ s.shape.blocks :=
      Context.mem_blocksOf_fill.mpr (.inr (by simp [Context.others, hleft]))
    have hxm := h.has.marked hxmem
    have hprevious : w.memory.previous s.block.addr = x.addr :=
      haddr ▸ hxm.previous_eq (h.has.block_sound hxmem).2.1
    have H := h.has
    have hcomplete := h.complete
    have haround := h.around.left
    unfold Site.shape at H hcomplete
    rw [Site.fill_previous hleft] at H hcomplete
    rw [hleft] at haround
    obtain ⟨w', hrun, hloose, htail, halike, he⟩ := merge_loose H hx h.free hcomplete
      ⟨h.around.elsewhere, (List.isChain_append.mp haround).1, h.around.right⟩
    have hal : x.addr % 16 = 0 := (h.has.block_sound hxmem).2.2.1
    unfold mergePrevious
    rw [memory_bind]
    dsimp only
    rw [hm.isSentinel_eq hp, hprevious, hxm.isAllocated_eq, Site.joinPrevious_eq_join hleft hx, hx,
      hleft, if_neg (show ¬ (xs ++ [x]).isEmpty = true by simp), requireAligned_bind hal]
    unfold Site.shape
    rw [Site.fill_previous hleft]
    exact ⟨w', (run_bind_ok hrun).trans rfl, hloose, .inr htail, halike, he⟩

/-- Joining a free block with its neighbours. -/
theorem coalesce_run (h : w.Loose s) :
    ∃ w₁ w₂, mergeNext s.block.addr w = .ok () w₁ ∧
      mergePrevious s.block.addr w₁ = .ok s.joined.block.addr w₂ ∧ w₂.Loose s.joined ∧
      (s.joined = s.joinNext ∨ s.joined.block.Tail w₂.memory s.block.addr) ∧
      s.shape.Alike s.joined.shape ∧ w.Edit s.shape.Reserved w₂ := by
  obtain ⟨w₁, hnext, h₁, halike₁, he₁⟩ := mergeNext_run h
  obtain ⟨w₂, hprevious, h₂, htail, halike₂, he₂⟩ := mergePrevious_run h₁
  rw [Site.joinNext_addr] at hprevious htail
  exact ⟨w₁, w₂, hnext, hprevious, h₂, htail, halike₁.trans halike₂,
    he₁.trans (he₂.mono fun _ => halike₁.reserved)⟩

end HeapM

end BoundaryTag
