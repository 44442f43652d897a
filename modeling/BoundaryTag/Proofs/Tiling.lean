import Mathlib.Data.List.Basic
import Mathlib.Data.List.Pairwise
import BoundaryTag.Proofs.Changes
import BoundaryTag.Region.Basic

/-!
# Regions tiled by blocks

A `Tract` is a region with the blocks that tile it. Every block owns a `Territory`: its bytes
without the backward offset at its start, and the backward offset of the header after it. The
territories of blocks that do not overlap are disjoint, so memory that changes only in the territory
of some neighbouring blocks still describes all others. `Placed.refill` and `Placed.refill_marked`
state this for any blocks that are put in place of the old ones: splitting, joining and tagging
blocks are cases of it.
-/

namespace BoundaryTag

/-- A block, as its header describes it. -/
structure Block where
  addr : Nat
  /-- The distance to the next header. -/
  span : Nat
  tag : Tag
deriving DecidableEq, Repr

/-- The headers of the block and of the one after it say what `b` is. -/
structure Block.Marked (m : Memory) (b : Block) : Prop where
  forward : m.forward b.addr = b.span
  tag : m.tag b.addr = b.tag
  backward : m.backward (b.addr + b.span) = b.span

/-- The block lies at a multiple of the alignment between `a` and `e`, and is whole. -/
structure Block.Within (a e : Nat) (b : Block) : Prop where
  lo : a ≤ b.addr
  hi : b.addr + b.span ≤ e
  aligned : b.addr % 16 = 0
  whole : b.span % 16 = 0
  room : 48 ≤ b.span

/-- The blocks follow each other from `a` to `e` without a gap. Each has a span of whole alignment
units with room for a header and two links. -/
def Tiles (a : Nat) : List Block → Nat → Prop
  | [], e => a = e
  | b :: bs, e => b.addr = a ∧ b.span % 16 = 0 ∧ 48 ≤ b.span ∧ Tiles (a + b.span) bs e

namespace Tiles

variable {a e : Nat} {b c : Block} {xs ys : List Block}

theorem cons_iff : Tiles a (b :: xs) e ↔
    b.addr = a ∧ b.span % 16 = 0 ∧ 48 ≤ b.span ∧ Tiles (a + b.span) xs e := Iff.rfl

theorem append_iff : Tiles a (xs ++ ys) e ↔ ∃ c, Tiles a xs c ∧ Tiles c ys e := by
  induction xs generalizing a with
  | nil => exact ⟨fun h => ⟨a, rfl, h⟩, fun ⟨_, h, hs⟩ => by cases h; exact hs⟩
  | cons x xs ih =>
    rw [List.cons_append, cons_iff, ih]
    exact ⟨fun ⟨h1, h2, h3, c, h4, h5⟩ => ⟨c, ⟨h1, h2, h3, h4⟩, h5⟩,
      fun ⟨c, ⟨h1, h2, h3, h4⟩, h5⟩ => ⟨h1, h2, h3, c, h4, h5⟩⟩

theorem single_iff : Tiles a [b] e ↔
    b.addr = a ∧ b.span % 16 = 0 ∧ 48 ≤ b.span ∧ a + b.span = e := Iff.rfl

theorem le (h : Tiles a xs e) : a ≤ e := by
  induction xs generalizing a with
  | nil => exact Nat.le_of_eq h
  | cons x xs ih => exact Nat.le_of_add_right_le (ih h.2.2.2)

theorem lt (h : Tiles a xs e) (hne : xs ≠ []) : a + 48 ≤ e := by
  cases xs with
  | nil => exact absurd rfl hne
  | cons x xs =>
    have := Tiles.le h.2.2.2
    have := h.2.2.1
    omega

theorem eq_nil_iff (h : Tiles a xs e) : xs = [] ↔ a = e := by
  constructor
  · rintro rfl
    exact h
  · intro heq
    by_contra hne
    have := h.lt hne
    omega

theorem base_le (h : Tiles a xs e) (hb : b ∈ xs) : a ≤ b.addr := by
  induction xs generalizing a with
  | nil => nomatch hb
  | cons x xs ih =>
    obtain ⟨haddr, -, -, hrest⟩ := h
    rcases List.mem_cons.mp hb with rfl | hb
    · omega
    · exact Nat.le_of_add_right_le (ih hrest hb)

theorem aligned (h : Tiles a xs e) (ha : a % 16 = 0) : e % 16 = 0 := by
  induction xs generalizing a with
  | nil => exact h ▸ ha
  | cons x xs ih =>
    have := h.2.1
    exact ih h.2.2.2 (by omega)

theorem within (h : Tiles a xs e) (ha : a % 16 = 0) (hb : b ∈ xs) : b.Within a e := by
  induction xs generalizing a with
  | nil => nomatch hb
  | cons x xs ih =>
    obtain ⟨haddr, hwhole, hroom, hrest⟩ := h
    have hle := Tiles.le hrest
    rcases List.mem_cons.mp hb with rfl | hb
    · exact ⟨by omega, by omega, by omega, hwhole, hroom⟩
    · obtain ⟨hlo, hhi, hal, hw, hr⟩ := ih hrest (by omega) hb
      exact ⟨by omega, hhi, hal, hw, hr⟩

theorem pairwise_addr (h : Tiles a xs e) : xs.Pairwise fun b c => b.addr ≠ c.addr := by
  induction xs generalizing a with
  | nil => exact .nil
  | cons x xs ih =>
    obtain ⟨haddr, -, hroom, hrest⟩ := h
    refine List.pairwise_cons.mpr ⟨fun c hc => ?_, ih hrest⟩
    have := hrest.base_le hc
    omega

/-- Each block fits 48 bytes into the tiled range. -/
theorem length_le (h : Tiles a xs e) : 48 * xs.length + a ≤ e := by
  induction xs generalizing a with
  | nil => have := Tiles.le h; simpa using this
  | cons x xs ih =>
    have := ih h.2.2.2
    have := h.2.2.1
    rw [List.length_cons]
    omega

end Tiles

/-- The words of the blocks from `a` to `e`: their bytes without the backward offset at `a`, and the
backward offset of the header at `e`. -/
def Territory (a e : Nat) (w : Nat) : Prop := (a ≤ w ∧ w < e ∧ w ≠ a + 8) ∨ w = e + 8

/-- Two regions have no byte in common. -/
def Region.Apart (r s : Region) : Prop := r.base + r.size ≤ s.base ∨ s.base + s.size ≤ r.base

/-- A region and the blocks that tile it. -/
structure Tract where
  region : Region
  blocks : List Block

/-- The region is aligned and does not reach the last address, and the blocks tile it up to its
terminator. -/
structure Tract.Sound (t : Tract) : Prop where
  aligned : t.region.base % 16 = 0
  positive : 0 < t.region.base
  bounded : t.region.base + t.region.size < Word.limit
  tiles : Tiles t.region.base t.blocks t.region.terminator
  nonempty : t.blocks ≠ []

/-- The headers in the region say what its blocks are. The first has no predecessor, and the
terminator has no successor and is tagged allocated. -/
structure Tract.Marked (m : Memory) (t : Tract) : Prop where
  first : m.backward t.region.base = 0
  blocks : ∀ b ∈ t.blocks, b.Marked m
  lastForward : m.forward t.region.terminator = 0
  lastTag : m.tag t.region.terminator = .allocated

def Tract.Apart (t u : Tract) : Prop := t.region.Apart u.region

theorem Tract.apart_iff {t u : Tract} : t.Apart u ↔
    t.region.base + t.region.size ≤ u.region.base ∨
      u.region.base + u.region.size ≤ t.region.base := Iff.rfl

instance : Std.Symm Tract.Apart := ⟨fun _ _ h => Or.symm h⟩

theorem Tract.Sound.terminator_add {t : Tract} (h : t.Sound) :
    t.region.terminator + 32 = t.region.base + t.region.size := by
  have := h.tiles.lt h.nonempty
  unfold Region.terminator headerSize at *
  omega

/-- A region has room for its last header. -/
theorem Tract.Sound.room {t : Tract} (h : t.Sound) : headerSize ≤ t.region.size := by
  have := h.tiles.lt h.nonempty
  unfold Region.terminator headerSize at *
  omega

theorem Tract.Sound.within {t : Tract} (h : t.Sound) {b : Block} (hb : b ∈ t.blocks) :
    b.Within t.region.base t.region.terminator :=
  h.tiles.within h.aligned hb

/-- A block starts in its region. -/
theorem Tract.Sound.addr_mem {t : Tract} (h : t.Sound) {b : Block} (hb : b ∈ t.blocks) :
    t.region.base ≤ b.addr ∧ b.addr < t.region.base + t.region.size := by
  obtain ⟨hlo, hhi, -, -, hroom⟩ := h.within hb
  have hadd := h.terminator_add
  omega

def blocksOf (ts : List Tract) : List Block := ts.flatMap Tract.blocks

theorem mem_blocksOf {ts : List Tract} {b : Block} :
    b ∈ blocksOf ts ↔ ∃ t ∈ ts, b ∈ t.blocks := List.mem_flatMap

/-- The regions do not overlap, and each is tiled. -/
structure Laid (ts : List Tract) : Prop where
  sound : ∀ t ∈ ts, t.Sound
  apart : ts.Pairwise Tract.Apart

/-- A place in some regions: all that is there apart from some neighbouring blocks. -/
structure Context where
  before : List Tract
  region : Region
  left : List Block
  right : List Block
  after : List Tract

namespace Context

variable (C : Context) {b : Block} {mid : List Block} {ts : List Tract}

/-- The regions with the blocks `mid` in their place. -/
def fill (mid : List Block) : List Tract :=
  C.before ++ ⟨C.region, C.left ++ mid ++ C.right⟩ :: C.after

/-- The blocks around the place. -/
def others : List Block := blocksOf C.before ++ (C.left ++ C.right) ++ blocksOf C.after

variable {C}

theorem mem_fill {t : Tract} :
    t ∈ C.fill mid ↔ t = ⟨C.region, C.left ++ mid ++ C.right⟩ ∨ t ∈ C.before ∨ t ∈ C.after := by
  unfold fill
  rw [List.mem_append, List.mem_cons]
  tauto

theorem mem_blocksOf_fill : b ∈ blocksOf (C.fill mid) ↔ b ∈ mid ∨ b ∈ C.others := by
  unfold fill others blocksOf
  simp only [List.flatMap_append, List.flatMap_cons, List.mem_append]
  tauto

theorem map_region_fill (mid mid' : List Block) :
    (C.fill mid).map Tract.region = (C.fill mid').map Tract.region := by
  simp [fill]

theorem exists_of_mem (h : b ∈ blocksOf ts) : ∃ C : Context, ts = C.fill [b] := by
  obtain ⟨t, ht, hb⟩ := mem_blocksOf.mp h
  obtain ⟨before, after, rfl⟩ := List.append_of_mem ht
  obtain ⟨left, right, hblocks⟩ := List.append_of_mem hb
  refine ⟨⟨before, t.region, left, right, after⟩, ?_⟩
  rw [fill, List.append_assoc, List.singleton_append, ← hblocks]

end Context

/-- The blocks `mid` fill the place `C` from `a` to `e`. -/
structure Placed (C : Context) (mid : List Block) (a e : Nat) : Prop where
  laid : Laid (C.fill mid)
  left : Tiles C.region.base C.left a
  middle : Tiles a mid e
  right : Tiles e C.right C.region.terminator
  nonempty : mid ≠ []

variable {C : Context} {mid mid' : List Block} {a e : Nat} {b c d : Block} {m m' : Memory}

theorem Laid.placed (h : Laid (C.fill mid)) (hne : mid ≠ []) : ∃ a e, Placed C mid a e := by
  have htiles := (h.sound _ (Context.mem_fill.mpr (.inl rfl))).tiles
  obtain ⟨e, hleft, hright⟩ := Tiles.append_iff.mp htiles
  obtain ⟨a, hleft, hmid⟩ := Tiles.append_iff.mp hleft
  exact ⟨a, e, h, hleft, hmid, hright, hne⟩

theorem Laid.placed_single (h : Laid (C.fill [b])) :
    Placed C [b] b.addr (b.addr + b.span) := by
  obtain ⟨a, e, hp⟩ := h.placed (List.cons_ne_nil _ _)
  obtain ⟨rfl, -, -, rfl⟩ := Tiles.single_iff.mp hp.middle
  exact hp

theorem Laid.placed_pair (h : Laid (C.fill [b, c])) :
    Placed C [b, c] b.addr (c.addr + c.span) ∧ c.addr = b.addr + b.span := by
  obtain ⟨a, e, hp⟩ := h.placed (List.cons_ne_nil _ _)
  obtain ⟨rfl, -, -, hc⟩ := hp.middle
  obtain ⟨hcb, -, -, rfl⟩ := Tiles.single_iff.mp hc
  rw [← hcb] at hp
  exact ⟨hp, hcb⟩

namespace Laid

theorem sound_of_mem {ts : List Tract} (h : Laid ts) (hb : b ∈ blocksOf ts) :
    0 < b.addr ∧ b.addr + b.span < Word.limit ∧ b.addr % 16 = 0 ∧ b.span % 16 = 0 ∧
      48 ≤ b.span := by
  obtain ⟨t, ht, hbt⟩ := mem_blocksOf.mp hb
  have hs := h.sound t ht
  have hadd := hs.terminator_add
  have hpos := hs.positive
  have hlt := hs.bounded
  obtain ⟨hlo, hhi, hal, hwh, hroom⟩ := hs.within hbt
  exact ⟨by omega, by omega, hal, hwh, hroom⟩

end Laid

namespace Placed

theorem sound (h : Placed C mid a e) : Tract.Sound ⟨C.region, C.left ++ mid ++ C.right⟩ :=
  h.laid.sound _ (Context.mem_fill.mpr (.inl rfl))

theorem start_aligned (h : Placed C mid a e) : a % 16 = 0 := h.left.aligned h.sound.aligned

theorem stop_aligned (h : Placed C mid a e) : e % 16 = 0 := h.middle.aligned h.start_aligned

/-- The place lies between the start of its region and the terminator. -/
theorem bounds (h : Placed C mid a e) :
    C.region.base ≤ a ∧ a + 48 ≤ e ∧ e ≤ C.region.terminator ∧
      C.region.terminator + 32 = C.region.base + C.region.size ∧
      C.region.base + C.region.size < Word.limit ∧ 0 < C.region.base ∧
      C.region.base % 16 = 0 ∧ C.region.terminator % 16 = 0 :=
  ⟨h.left.le, h.middle.lt h.nonempty, h.right.le, h.sound.terminator_add, h.sound.bounded,
    h.sound.positive, h.sound.aligned, h.right.aligned h.stop_aligned⟩

theorem region_apart (h : Placed C mid a e) {t : Tract} (ht : t ∈ C.before ∨ t ∈ C.after) :
    t.region.base + t.region.size ≤ C.region.base ∨
      C.region.base + C.region.size ≤ t.region.base := by
  obtain ⟨-, hcons, hcross⟩ := List.pairwise_append.mp h.laid.apart
  rcases ht with ht | ht
  · exact hcross t ht _ List.mem_cons_self
  · exact Or.symm ((List.pairwise_cons.mp hcons).1 t ht)

theorem sound_of_mem (h : Placed C mid a e) {t : Tract} (ht : t ∈ C.before ∨ t ∈ C.after) :
    t.Sound := h.laid.sound _ (Context.mem_fill.mpr (.inr ht))

/-- Any other block is before the place or after it. -/
theorem others_apart (h : Placed C mid a e) (hd : d ∈ C.others) :
    (d.addr + d.span ≤ a ∨ e ≤ d.addr) ∧ d.addr % 16 = 0 ∧ d.span % 16 = 0 ∧ 48 ≤ d.span := by
  obtain ⟨hlo, -, hhi, hterm, -, -, -, -⟩ := h.bounds
  have outside : ∀ t, t ∈ C.before ∨ t ∈ C.after → d ∈ t.blocks →
      (d.addr + d.span ≤ a ∨ e ≤ d.addr) ∧ d.addr % 16 = 0 ∧ d.span % 16 = 0 ∧ 48 ≤ d.span := by
    intro t ht hdt
    have hapart := h.region_apart ht
    have hts := h.sound_of_mem ht
    have hw := hts.within hdt
    have hadd := hts.terminator_add
    obtain ⟨hdlo, hdhi, hal, hwh, hroom⟩ := hw
    exact ⟨by omega, hal, hwh, hroom⟩
  unfold Context.others at hd
  rcases List.mem_append.mp hd with hd | hd
  · rcases List.mem_append.mp hd with hd | hd
    · obtain ⟨t, ht, hdt⟩ := mem_blocksOf.mp hd
      exact outside t (.inl ht) hdt
    · rcases List.mem_append.mp hd with hd | hd
      · obtain ⟨-, hdhi, hal, hwh, hroom⟩ := h.left.within h.sound.aligned hd
        exact ⟨.inl hdhi, hal, hwh, hroom⟩
      · obtain ⟨hdlo, -, hal, hwh, hroom⟩ := h.right.within h.stop_aligned hd
        exact ⟨.inr hdlo, hal, hwh, hroom⟩
  · obtain ⟨t, ht, hdt⟩ := mem_blocksOf.mp hd
    exact outside t (.inr ht) hdt

/-- No other block starts in the place. -/
theorem addr_ne (h : Placed C mid a e) (hd : d ∈ C.others) {x : Nat} (hlo : a ≤ x) (hhi : x < e) :
    d.addr ≠ x := by
  obtain ⟨hapart, -, -, hroom⟩ := h.others_apart hd
  omega

/-- Other blocks that tile the same bytes fit into the place. -/
theorem refill (h : Placed C mid a e) (htiles : Tiles a mid' e) (hne : mid' ≠ []) :
    Placed C mid' a e := by
  refine ⟨⟨fun t ht => ?_, ?_⟩, h.left, htiles, h.right, hne⟩
  · rcases Context.mem_fill.mp ht with rfl | ht
    · refine ⟨h.sound.aligned, h.sound.positive, h.sound.bounded, ?_, by simp [hne]⟩
      exact Tiles.append_iff.mpr ⟨e, Tiles.append_iff.mpr ⟨a, h.left, htiles⟩, h.right⟩
    · exact h.sound_of_mem ht
  · obtain ⟨hbefore, hcons, hcross⟩ := List.pairwise_append.mp h.laid.apart
    obtain ⟨hfirst, hafter⟩ := List.pairwise_cons.mp hcons
    refine List.pairwise_append.mpr ⟨hbefore, List.pairwise_cons.mpr ⟨hfirst, hafter⟩, ?_⟩
    intro t ht u hu
    rcases List.mem_cons.mp hu with rfl | hu
    · exact hcross t ht ⟨C.region, C.left ++ mid ++ C.right⟩ List.mem_cons_self
    · exact hcross t ht u (List.mem_cons_of_mem _ hu)

/-- The territory of another block is outside the territory of the place. -/
theorem not_territory (h : Placed C mid a e) (hd : d ∈ C.others) {w : Nat}
    (hw : Territory d.addr (d.addr + d.span) w) : ¬ Territory a e w := by
  obtain ⟨hapart, hal, hwh, hroom⟩ := h.others_apart hd
  have ha := h.start_aligned
  have he := h.stop_aligned
  have hae := h.bounds.2.1
  unfold Territory at hw ⊢
  omega

theorem others_marked (h : Placed C mid a e) (hd : d ∈ C.others) (hm : d.Marked m)
    (hc : Memory.ChangesOnly (Territory a e) m m') : d.Marked m' := by
  have hroom := (h.others_apart hd).2.2.2
  refine ⟨?_, ?_, ?_⟩
  · exact (hc.forward (h.not_territory hd (.inl (by omega)))).trans hm.forward
  · exact (hc.tag (h.not_territory hd (.inl (by omega)))).trans hm.tag
  · exact (hc.backward (h.not_territory hd (.inr rfl))).trans hm.backward

/-- The ends of a region are outside of the territory of the place: the backward offset of its first
header, and the forward offset and the tag of its last one. -/
theorem ends_not_territory (h : Placed C mid a e) {t : Tract} (ht : t ∈ C.fill mid') {w : Nat}
    (hw : w = t.region.base + 8 ∨ w = t.region.terminator ∨ w = t.region.terminator + 16) :
    ¬Territory a e w := by
  obtain ⟨hlo, hroom, hhi, -, -, -, hba, hta⟩ := h.bounds
  have ha := h.start_aligned
  have he := h.stop_aligned
  rcases Context.mem_fill.mp ht with rfl | ht
  · unfold Territory
    dsimp only at hw
    omega
  · have hs := h.sound_of_mem ht
    have hapart := h.region_apart ht
    have hadd := hs.terminator_add
    have hin := h.sound.terminator_add
    have hlt := hs.tiles.lt hs.nonempty
    have htal := hs.aligned
    have htend := hs.tiles.aligned htal
    unfold Territory
    dsimp only at hin
    omega

/-- Memory that changes in the territory of the place only, and there describes the blocks
`mid'`, describes the regions with these blocks in the place. -/
theorem refill_marked (h : Placed C mid a e) (hm : ∀ t ∈ C.fill mid, t.Marked m)
    (hc : Memory.ChangesOnly (Territory a e) m m') (hmid : ∀ b ∈ mid', b.Marked m') :
    ∀ t ∈ C.fill mid', t.Marked m' := by
  have marked : ∀ t ∈ C.fill mid, ∀ d ∈ t.blocks, d.Marked m := fun t ht => (hm t ht).blocks
  have here := hm _ (Context.mem_fill.mpr (.inl rfl))
  have around : ∀ d ∈ C.others, d.Marked m' := by
    intro d hd
    have hmem : d ∈ blocksOf (C.fill mid) := Context.mem_blocksOf_fill.mpr (.inr hd)
    obtain ⟨t, ht, hdt⟩ := mem_blocksOf.mp hmem
    exact h.others_marked hd (marked t ht d hdt) hc
  intro t ht
  have hends : ∀ w, w = t.region.base + 8 ∨ w = t.region.terminator ∨
      w = t.region.terminator + 16 → ¬Territory a e w := fun _ => h.ends_not_territory ht
  have hfirst := hends _ (.inl rfl)
  have hlast := hends _ (.inr (.inl rfl))
  have htag := hends _ (.inr (.inr rfl))
  rcases Context.mem_fill.mp ht with rfl | ht
  · refine ⟨(hc.backward hfirst).trans here.first, fun d hd => ?_,
      (hc.forward hlast).trans here.lastForward, (hc.tag htag).trans here.lastTag⟩
    rcases List.mem_append.mp hd with hd | hd
    · rcases List.mem_append.mp hd with hd | hd
      · exact around d (by simp [Context.others, hd])
      · exact hmid d hd
    · exact around d (by simp [Context.others, hd])
  · have hmt := hm t (Context.mem_fill.mpr (.inr ht))
    refine ⟨(hc.backward hfirst).trans hmt.first, fun d hd => around d ?_,
      (hc.forward hlast).trans hmt.lastForward, (hc.tag htag).trans hmt.lastTag⟩
    unfold Context.others
    rcases ht with ht | ht
    · exact List.mem_append_left _ (List.mem_append_left _ (mem_blocksOf.mpr ⟨t, ht, hd⟩))
    · exact List.mem_append_right _ (mem_blocksOf.mpr ⟨t, ht, hd⟩)

end Placed

namespace Laid

variable {ts : List Tract}

theorem apart_of_ne (h : Laid ts) (hb : b ∈ blocksOf ts) (hc : c ∈ blocksOf ts) (hne : b ≠ c) :
    b.addr + b.span ≤ c.addr ∨ c.addr + c.span ≤ b.addr := by
  obtain ⟨C, rfl⟩ := Context.exists_of_mem hb
  rcases Context.mem_blocksOf_fill.mp hc with hc | hc
  · exact absurd (List.mem_singleton.mp hc).symm hne
  · exact (h.placed_single.others_apart hc).1.symm

/-- An address is the address of one block at most. -/
theorem eq_of_addr (h : Laid ts) (hb : b ∈ blocksOf ts) (hc : c ∈ blocksOf ts)
    (haddr : b.addr = c.addr) : b = c := by
  by_contra hne
  have hapart := h.apart_of_ne hb hc hne
  have hbs := h.sound_of_mem hb
  have hcs := h.sound_of_mem hc
  omega

theorem nodup_addr (h : Laid ts) : ((blocksOf ts).map Block.addr).Nodup := by
  refine List.pairwise_map.mpr (List.pairwise_flatMap.mpr
    ⟨fun t ht => (h.sound t ht).tiles.pairwise_addr, ?_⟩)
  apply h.apart.imp_of_mem
  intro t u ht hu hapart b hb c hc
  have htw := (h.sound t ht).within hb
  have huw := (h.sound u hu).within hc
  have htadd := (h.sound t ht).terminator_add
  have huadd := (h.sound u hu).terminator_add
  obtain ⟨htlo, hthi, -, -, htroom⟩ := htw
  obtain ⟨hulo, huhi, -, -, huroom⟩ := huw
  rw [Tract.apart_iff] at hapart
  omega

/-- A block that starts in a region is a block of no other region. -/
theorem eq_of_base_le (h : Laid ts) {t u : Tract} (ht : t ∈ ts) (hu : u ∈ ts) (hb : b ∈ u.blocks)
    (hlo : t.region.base ≤ b.addr) (hhi : b.addr < t.region.base + t.region.size) : t = u := by
  by_contra htu
  have hapart : t.Apart u := h.apart.forall ht hu htu
  obtain ⟨hlo', hhi', -, -, hroom⟩ := (h.sound u hu).within hb
  have hadd := (h.sound u hu).terminator_add
  rw [Tract.apart_iff] at hapart
  omega

end Laid

/-! ### Finding a block -/

/-- No block of the region is at the address `x`. -/
def Tract.lacks (x : Nat) (t : Tract) : Bool := t.blocks.all (·.addr ≠ x)

/-- The block at the address `x`, if there is one, and its place. -/
def Context.at? (ts : List Tract) (x : Nat) : Option (Context × Block) :=
  match ts.dropWhile (Tract.lacks x) with
  | [] => none
  | t :: after =>
    match t.blocks.dropWhile fun b => b.addr ≠ x with
    | [] => none
    | b :: right =>
      let left := t.blocks.takeWhile fun b => b.addr ≠ x
      let before := ts.takeWhile (Tract.lacks x)
      some ({ before, region := t.region, left, right, after }, b)

/-- A block is found in its place. -/
theorem Laid.at?_eq (h : Laid (C.fill [b])) : Context.at? (C.fill [b]) b.addr = some (C, b) := by
  have hp := h.placed_single
  have hroom := hp.bounds.2.1
  have hne : ∀ d ∈ C.others, d.addr ≠ b.addr := fun d hd =>
    hp.addr_ne hd (Nat.le_refl _) (by omega)
  have hbefore : ∀ t ∈ C.before, Tract.lacks b.addr t = true := by
    intro t ht
    refine List.all_eq_true.mpr fun d hd => decide_eq_true (hne d ?_)
    exact List.mem_append_left _ (List.mem_append_left _ (mem_blocksOf.mpr ⟨t, ht, hd⟩))
  have hleft : ∀ d ∈ C.left, decide (d.addr ≠ b.addr) = true := fun d hd =>
    decide_eq_true (hne d (by simp [Context.others, hd]))
  have hhere : ¬Tract.lacks b.addr ⟨C.region, C.left ++ [b] ++ C.right⟩ = true := by
    simp [Tract.lacks]
  unfold Context.at? Context.fill
  rw [List.dropWhile_append_of_pos hbefore, List.takeWhile_append_of_pos hbefore,
    List.dropWhile_cons_of_neg hhere, List.takeWhile_cons_of_neg hhere]
  dsimp only
  rw [List.append_assoc, List.dropWhile_append_of_pos hleft, List.takeWhile_append_of_pos hleft]
  simp

/-- What is found is in its place. -/
theorem Context.at?_eq_some {ts : List Tract} {x : Nat} (h : Context.at? ts x = some (C, b)) :
    ts = C.fill [b] ∧ b.addr = x := by
  have hts := List.takeWhile_append_dropWhile (p := Tract.lacks x) (l := ts)
  unfold Context.at? at h
  cases hdrop : ts.dropWhile (Tract.lacks x) with
  | nil =>
    rw [hdrop] at h
    nomatch h
  | cons t after =>
    rw [hdrop] at h hts
    dsimp only at h
    have hbs := List.takeWhile_append_dropWhile (p := fun b : Block => b.addr ≠ x) (l := t.blocks)
    have hhead := List.head?_dropWhile_not (fun b : Block => b.addr ≠ x) t.blocks
    cases hdrop' : t.blocks.dropWhile (fun b => b.addr ≠ x) with
    | nil =>
      rw [hdrop'] at h
      nomatch h
    | cons c right =>
      rw [hdrop'] at h hbs hhead
      cases h
      refine ⟨?_, by simpa using hhead⟩
      unfold Context.fill
      dsimp only
      rw [List.append_assoc, List.singleton_append, hbs, hts]

end BoundaryTag
