import Mathlib.Data.List.Chain
import BoundaryTag.Proofs.Links
import BoundaryTag.Proofs.Tiling

/-!
# The shape of a heap

A `Shape` is all that matters about the memory of a heap: the tiled regions and the order of the
free list. `A.In m` says that the memory `m` holds the shape `A`. The words that a heap may change
are those `A.Reserved`: what is in its regions and not in the payload of an allocated block.

Edits of the free list (`In.unlist`, `In.list`) and of neighbouring blocks (`In.refill`) lead
from memory of one shape to memory of another.
-/

namespace BoundaryTag

/-- The blocks and the free list of a heap. -/
structure Shape where
  tracts : List Tract
  free : List Nat

namespace Shape

variable (A : Shape)

def regions : List Region := A.tracts.map Tract.region

def blocks : List Block := blocksOf A.tracts

/-- The regions are tiled, and the free list has free blocks, each once. -/
structure Sound : Prop where
  laid : Laid A.tracts
  nodup : A.free.Nodup
  listed : ∀ x ∈ A.free, ∃ b ∈ A.blocks, b.addr = x ∧ b.tag = .free

/-- Every free block is on the free list. -/
def Complete : Prop := ∀ b ∈ A.blocks, b.tag = .free → b.addr ∈ A.free

/-- Of two neighbours at most one is free. -/
def Parted (b c : Block) : Prop := ¬(b.tag = .free ∧ c.tag = .free)

namespace Parted

variable {b c : Block}

theorem of_left (hb : b.tag = .allocated) : Parted b c := fun h => nomatch hb.symm.trans h.1

theorem of_right (hc : c.tag = .allocated) : Parted b c := fun h => nomatch hc.symm.trans h.2

theorem left (h : Parted b c) (hc : c.tag = .free) : b.tag = .allocated := by
  cases hb : b.tag with
  | allocated => rfl
  | free => exact absurd ⟨hb, hc⟩ h

theorem right (h : Parted b c) (hb : b.tag = .free) : c.tag = .allocated := by
  cases hc : c.tag with
  | allocated => rfl
  | free => exact absurd ⟨hb, hc⟩ h

end Parted

/-- No two neighbours are free. -/
def Coalesced : Prop := ∀ t ∈ A.tracts, t.blocks.IsChain Parted

/-- The shape of a heap between operations. -/
structure Settled : Prop extends A.Sound where
  complete : A.Complete
  coalesced : A.Coalesced

structure In (m : Memory) : Prop where
  marked : ∀ t ∈ A.tracts, t.Marked m
  linked : Linked m none A.free none

/-- The block is one that is in use. -/
def Uses (A : Shape) (b : Block) : Prop := b ∈ A.blocks ∧ b.tag = .allocated

/-- The address is in a region of the heap. -/
def Spans (a : Nat) : Prop := ∃ r ∈ A.regions, r.base ≤ a ∧ a < r.base + r.size

/-- The words that belong to the heap: those in its regions outside the payloads of allocated
blocks. -/
def Reserved (w : Nat) : Prop :=
  A.Spans w ∧
    ∀ b ∈ A.blocks, b.tag = .allocated → ¬(b.addr + 32 ≤ w ∧ w < b.addr + b.span)

end Shape

variable {ts : List Tract} {m m' : Memory} {L xs : List Nat} {x w : Nat} {b d : Block}
  {C : Context} {mid mid' : List Block} {a e : Nat}

/-! ### Link words -/

/-- The links of a block are in no word that describes blocks. -/
theorem Laid.linkWord_ne (h : Laid ts) (hb : b ∈ blocksOf ts)
    (hw : w = b.addr + 32 ∨ w = b.addr + 40) (hd : d ∈ blocksOf ts) :
    w ≠ d.addr ∧ w ≠ d.addr + 16 ∧ w ≠ d.addr + d.span + 8 := by
  have hbs := h.sound_of_mem hb
  have hds := h.sound_of_mem hd
  by_cases hbd : b = d
  · subst hbd
    omega
  · have hapart := h.apart_of_ne hb hd hbd
    omega

/-- The links of a block are in no word that describes the ends of a region. -/
theorem Laid.linkWord_ne_ends (h : Laid ts) (hb : b ∈ blocksOf ts)
    (hw : w = b.addr + 32 ∨ w = b.addr + 40) {t : Tract} (ht : t ∈ ts) :
    w ≠ t.region.base + 8 ∧ w ≠ t.region.terminator ∧ w ≠ t.region.terminator + 16 := by
  obtain ⟨u, hu, hbu⟩ := mem_blocksOf.mp hb
  have hts := h.sound t ht
  have hus := h.sound u hu
  obtain ⟨hlo, hhi, -, -, hroom⟩ := hus.within hbu
  have htlt := hts.tiles.lt hts.nonempty
  have htadd := hts.terminator_add
  have huadd := hus.terminator_add
  by_cases htu : t = u
  · subst htu
    omega
  · have hapart : t.Apart u := h.apart.forall ht hu htu
    rw [Tract.apart_iff] at hapart
    omega

/-- Changing links leaves the blocks as they are. -/
theorem Laid.marked_of_links (h : Laid ts) (hm : ∀ t ∈ ts, t.Marked m)
    (hc : Memory.ChangesOnly (LinkWord xs) m m')
    (hxs : ∀ x ∈ xs, ∃ b ∈ blocksOf ts, b.addr = x) : ∀ t ∈ ts, t.Marked m' := by
  have keep : ∀ w, LinkWord xs w → ∃ b ∈ blocksOf ts, w = b.addr + 32 ∨ w = b.addr + 40 := by
    rintro w ⟨x, hx, hw⟩
    obtain ⟨b, hb, rfl⟩ := hxs x hx
    exact ⟨b, hb, hw⟩
  intro t ht
  have hends : ∀ w, LinkWord xs w →
      w ≠ t.region.base + 8 ∧ w ≠ t.region.terminator ∧ w ≠ t.region.terminator + 16 :=
    fun w hw => let ⟨_, hb, hbw⟩ := keep w hw; h.linkWord_ne_ends hb hbw ht
  refine ⟨?_, fun d hd => ?_, ?_, ?_⟩
  · exact (hc.backward fun hw => (hends _ hw).1 rfl).trans (hm t ht).first
  · have hne : ∀ w, LinkWord xs w → w ≠ d.addr ∧ w ≠ d.addr + 16 ∧ w ≠ d.addr + d.span + 8 :=
      fun w hw => let ⟨_, hb, hbw⟩ := keep w hw
        h.linkWord_ne hb hbw (mem_blocksOf.mpr ⟨t, ht, hd⟩)
    have hdm := (hm t ht).blocks d hd
    exact ⟨(hc.forward fun hw => (hne _ hw).1 rfl).trans hdm.forward,
      (hc.tag fun hw => (hne _ hw).2.1 rfl).trans hdm.tag,
      (hc.backward fun hw => (hne _ hw).2.2 rfl).trans hdm.backward⟩
  · exact (hc.forward fun hw => (hends _ hw).2.1 rfl).trans (hm t ht).lastForward
  · exact (hc.tag fun hw => (hends _ hw).2.2 rfl).trans (hm t ht).lastTag

/-- Distinct free blocks may be on a free list. -/
theorem Laid.listable (h : Laid ts) (hm : ∀ t ∈ ts, t.Marked m) (hxs : xs.Nodup)
    (hfree : ∀ x ∈ xs, ∃ b ∈ blocksOf ts, b.addr = x ∧ b.tag = .free) : Listable m xs where
  aligned x hx := by
    obtain ⟨b, hb, rfl, -⟩ := hfree x hx
    have hbs := h.sound_of_mem hb
    omega
  free x hx := by
    obtain ⟨b, hb, rfl, htag⟩ := hfree x hx
    obtain ⟨t, ht, hbt⟩ := mem_blocksOf.mp hb
    exact ((hm t ht).blocks b hbt).tag.trans htag
  word x hx := by
    obtain ⟨b, hb, rfl, -⟩ := hfree x hx
    have hbs := h.sound_of_mem hb
    omega
  apart := by
    apply hxs.imp_of_mem
    intro x y hx hy hne
    obtain ⟨b, hb, rfl, -⟩ := hfree x hx
    obtain ⟨c, hc, rfl, -⟩ := hfree y hy
    have hapart := h.apart_of_ne hb hc fun e => hne (congrArg Block.addr e)
    have hbs := h.sound_of_mem hb
    have hcs := h.sound_of_mem hc
    rw [apart_iff]
    omega

namespace Shape

variable {A : Shape}

theorem Sound.listable (hs : A.Sound) (hi : A.In m) : Listable m A.free :=
  hs.laid.listable hi.marked hs.nodup hs.listed

theorem Sound.erase (hs : Sound ⟨ts, L⟩) (x : Nat) : Sound ⟨ts, L.erase x⟩ where
  laid := hs.laid
  nodup := hs.nodup.erase x
  listed y hy := hs.listed y (List.mem_of_mem_erase hy)

theorem Sound.cons (hs : Sound ⟨ts, L⟩) (hb : b ∈ blocksOf ts) (hfree : b.tag = .free)
    (hL : b.addr ∉ L) : Sound ⟨ts, b.addr :: L⟩ where
  laid := hs.laid
  nodup := List.nodup_cons.mpr ⟨hL, hs.nodup⟩
  listed y hy := (List.mem_cons.mp hy).elim (fun h => ⟨b, hb, h.symm, hfree⟩) (hs.listed y)

/-- Blocks that are put in place of others keep a shape sound if what was listed of them still
is free. -/
theorem Sound.refill (hs : Sound ⟨C.fill mid, L⟩) (hp : Placed C mid a e)
    (htiles : Tiles a mid' e) (hne : mid' ≠ [])
    (hlisted : ∀ b ∈ mid, b.addr ∈ L → ∃ b' ∈ mid', b'.addr = b.addr ∧ b'.tag = .free) :
    Sound ⟨C.fill mid', L⟩ where
  laid := (hp.refill htiles hne).laid
  nodup := hs.nodup
  listed x hx := by
    obtain ⟨b, hb, rfl, htag⟩ := hs.listed x hx
    rcases Context.mem_blocksOf_fill.mp hb with hb | hb
    · obtain ⟨b', hb', haddr, htag'⟩ := hlisted b hb hx
      exact ⟨b', Context.mem_blocksOf_fill.mpr (.inl hb'), haddr, htag'⟩
    · exact ⟨b, Context.mem_blocksOf_fill.mpr (.inr hb), rfl, htag⟩

namespace In

/-- Taking a block off the free list. -/
theorem unlist (hi : In ⟨ts, L⟩ m) (hs : Sound ⟨ts, L⟩) (hx : x ∈ L) :
    ∃ m', FreeList.remove ⟨L.head?⟩ x m = .ok ⟨(L.erase x).head?⟩ m' ∧ In ⟨ts, L.erase x⟩ m' ∧
      Memory.ChangesOnly (LinkWord (L.erase x)) m m' := by
  have hlist := hs.listable hi
  obtain ⟨m', hrun, hlinked, hc⟩ := FreeList.remove_run hlist hi.linked hx
  have hc' : Memory.ChangesOnly (LinkWord (L.erase x)) m m' :=
    hc.mono fun w ⟨y, hy, hw⟩ => ⟨y, hy.mem_erase hlist.nodup, hw⟩
  refine ⟨m', hrun, ⟨hs.laid.marked_of_links hi.marked hc' fun y hy => ?_, hlinked⟩, hc'⟩
  obtain ⟨b, hb, haddr, -⟩ := hs.listed y (List.mem_of_mem_erase hy)
  exact ⟨b, hb, haddr⟩

/-- Putting a free block in front of the free list. -/
theorem list (hi : In ⟨ts, L⟩ m) (hs : Sound ⟨ts, b.addr :: L⟩) :
    ∃ m', FreeList.pushFront ⟨L.head?⟩ b.addr m = .ok ⟨some b.addr⟩ m' ∧
      In ⟨ts, b.addr :: L⟩ m' ∧ Memory.ChangesOnly (LinkWord (b.addr :: L)) m m' := by
  have hlist : Listable m (b.addr :: L) := hs.laid.listable hi.marked hs.nodup hs.listed
  obtain ⟨m', hrun, hlinked, hc⟩ := FreeList.pushFront_run hlist hi.linked
  have hc' : Memory.ChangesOnly (LinkWord (b.addr :: L)) m m' := hc.mono fun w ⟨y, hy, hw⟩ => by
    refine ⟨y, ?_, hw⟩
    rcases List.mem_cons.mp hy with rfl | hy
    · exact List.mem_cons_self
    · exact List.mem_cons_of_mem _ (List.mem_of_mem_head? (Option.mem_toList.mp hy))
  refine ⟨m', hrun, ⟨hs.laid.marked_of_links hi.marked hc' fun y hy => ?_, hlinked⟩, hc'⟩
  obtain ⟨c, hc, haddr, -⟩ := hs.listed y hy
  exact ⟨c, hc, haddr⟩

/-- Describing other blocks in the place of some. -/
theorem refill (hi : In ⟨C.fill mid, L⟩ m) (hs : Sound ⟨C.fill mid, L⟩) (hp : Placed C mid a e)
    (hc : Memory.ChangesOnly (Territory a e) m m') (hmid : ∀ b ∈ mid', b.Marked m')
    (hlinks : ∀ b ∈ mid, b.addr ∈ L →
      m'.link (b.addr + 32) = m.link (b.addr + 32) ∧
        m'.link (b.addr + 40) = m.link (b.addr + 40)) :
    In ⟨C.fill mid', L⟩ m' where
  marked := hp.refill_marked hi.marked hc hmid
  linked := by
    apply hi.linked.congr
    intro x hx
    obtain ⟨b, hb, rfl, -⟩ := hs.listed x hx
    rcases Context.mem_blocksOf_fill.mp hb with hb | hb
    · exact hlinks b hb hx
    · have hroom := (hp.others_apart hb).2.2.2
      exact ⟨hc.link (hp.not_territory hb (.inl (by omega))),
        hc.link (hp.not_territory hb (.inl (by omega)))⟩

end In

/-! ### Reserved words -/

/-- A block is in a region, up to the header after it. -/
theorem Sound.spans_of_mem {A : Shape} (hs : A.Sound) (hb : b ∈ A.blocks) (hlo : b.addr ≤ w)
    (hhi : w < b.addr + b.span + 32) : A.Spans w := by
  obtain ⟨t, ht, hbt⟩ := mem_blocksOf.mp hb
  have hts := hs.laid.sound t ht
  have hadd := hts.terminator_add
  obtain ⟨hlo', hhi', -, -, -⟩ := hts.within hbt
  exact ⟨t.region, List.mem_map_of_mem ht, by omega, by omega⟩

/-- Which addresses are in the regions does not depend on their blocks. -/
theorem spans_fill (mid' : List Block) (L' : List Nat) (h : Spans ⟨C.fill mid, L⟩ w) :
    Spans ⟨C.fill mid', L'⟩ w := by
  unfold Spans regions at h ⊢
  rwa [Context.map_region_fill mid' mid]

/-- The territory of free blocks is reserved. -/
theorem reserved_of_territory (hp : Placed C mid a e) (hfree : ∀ b ∈ mid, b.tag = .free)
    (hw : Territory a e w) : Reserved ⟨C.fill mid, L⟩ w := by
  obtain ⟨hlo, hroom, hhi, hterm, -, -, -, -⟩ := hp.bounds
  refine ⟨⟨C.region, List.mem_map.mpr ⟨_, Context.mem_fill.mpr (.inl rfl), rfl⟩, ?_⟩, ?_⟩
  · unfold Territory at hw
    omega
  · rintro d hd htag ⟨hlo', hhi'⟩
    rcases Context.mem_blocksOf_fill.mp hd with hd | hd
    · rw [hfree d hd] at htag
      cases htag
    · exact hp.not_territory hd (.inl ⟨by omega, hhi', by omega⟩) hw

/-- Link words of free blocks are reserved. -/
theorem Sound.reserved_of_linkWord (hs : Sound ⟨ts, L⟩) (hw : LinkWord L w) :
    Reserved ⟨ts, L⟩ w := by
  obtain ⟨x, hx, hw⟩ := hw
  obtain ⟨b, hb, rfl, htag⟩ := hs.listed x hx
  have hroom := hs.laid.sound_of_mem hb
  obtain ⟨C, rfl⟩ := Context.exists_of_mem hb
  exact reserved_of_territory hs.laid.placed_single (List.forall_mem_singleton.mpr htag)
    (.inl (by omega))

/-- Link words and what describes a block are in no payload of an allocated block. -/
theorem Sound.reserved_of_mem {A : Shape} (hs : A.Sound) (hb : b ∈ A.blocks)
    (hw : w = b.addr ∨ w = b.addr + 16 ∨ w = b.addr + b.span + 8) : A.Reserved w := by
  obtain ⟨t, ht, hbt⟩ := mem_blocksOf.mp hb
  have hts := hs.laid.sound t ht
  have hadd := hts.terminator_add
  obtain ⟨hlo, hhi, hal, hwh, hroom⟩ := hts.within hbt
  refine ⟨⟨t.region, List.mem_map_of_mem ht, by omega⟩, fun d hd _ hpayload => ?_⟩
  have hds := hs.laid.sound_of_mem hd
  by_cases hbd : b = d
  · subst hbd
    omega
  · have hapart := hs.laid.apart_of_ne hb hd hbd
    omega

/-- What describes the ends of a region is in no payload of an allocated block. -/
theorem Sound.reserved_ends {A : Shape} (hs : A.Sound) {t : Tract} (ht : t ∈ A.tracts)
    (hw : w = t.region.base + 8 ∨ w = t.region.terminator ∨ w = t.region.terminator + 16) :
    A.Reserved w := by
  have hts := hs.laid.sound t ht
  have hadd := hts.terminator_add
  have hlt := hts.tiles.lt hts.nonempty
  refine ⟨⟨t.region, List.mem_map_of_mem ht, by omega⟩, fun d hd _ hpayload => ?_⟩
  obtain ⟨u, hu, hdu⟩ := mem_blocksOf.mp hd
  have hus := hs.laid.sound u hu
  have huadd := hus.terminator_add
  obtain ⟨hlo, hhi, -, -, -⟩ := hus.within hdu
  by_cases htu : t = u
  · subst htu
    omega
  · have hapart : t.Apart u := hs.laid.apart.forall ht hu htu
    rw [Tract.apart_iff] at hapart
    omega

/-- What memory says of a shape is in reserved words only. -/
theorem In.of_changesOnly {A : Shape} (hi : A.In m) (hs : A.Sound) {P : Nat → Prop}
    (hc : Memory.ChangesOnly P m m') (hP : ∀ w, A.Reserved w → ¬ P w) : A.In m' where
  marked t ht := by
    have hm := hi.marked t ht
    refine ⟨?_, fun b hb => ?_, ?_, ?_⟩
    · exact (hc.backward (hP _ (hs.reserved_ends ht (.inl rfl)))).trans hm.first
    · have hb' : b ∈ A.blocks := mem_blocksOf.mpr ⟨t, ht, hb⟩
      have hbm := hm.blocks b hb
      exact ⟨(hc.forward (hP _ (hs.reserved_of_mem hb' (.inl rfl)))).trans hbm.forward,
        (hc.tag (hP _ (hs.reserved_of_mem hb' (.inr (.inl rfl))))).trans hbm.tag,
        (hc.backward (hP _ (hs.reserved_of_mem hb' (.inr (.inr rfl))))).trans hbm.backward⟩
    · exact (hc.forward (hP _ (hs.reserved_ends ht (.inr (.inl rfl))))).trans hm.lastForward
    · exact (hc.tag (hP _ (hs.reserved_ends ht (.inr (.inr rfl))))).trans hm.lastTag
  linked := hi.linked.of_changesOnly hc fun w hw => hP w (hs.reserved_of_linkWord hw)

/-- Of free blocks nothing but payloads of allocated blocks can be taken out of what is reserved,
and nothing be added. -/
theorem Reserved.of_refill (hfree : ∀ b ∈ mid, b.tag = .free) {L' : List Nat}
    (hw : Reserved ⟨C.fill mid', L'⟩ w) : Reserved ⟨C.fill mid, L⟩ w := by
  obtain ⟨hspans, hpayload⟩ := hw
  refine ⟨spans_fill mid L hspans, fun d hd htag => ?_⟩
  · rcases Context.mem_blocksOf_fill.mp hd with hd | hd
    · rw [hfree d hd] at htag
      cases htag
    · exact hpayload d (Context.mem_blocksOf_fill.mpr (.inr hd)) htag

end Shape

end BoundaryTag
