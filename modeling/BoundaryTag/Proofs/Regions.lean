import BoundaryTag.Proofs.Books
import BoundaryTag.Proofs.Worlds

/-!
# Regions that come and go

A new region is laid out as one free block at the head of the free list (`grow_run`), and a region
whose only block is free and unlisted can be given back (`releaseRegion_run`). Neither touches the
blocks of other regions. The one fault in growing is that the count of mapped regions is at its end,
and then the source has handed out more ranges than there are words.
-/

namespace BoundaryTag

/-- A new region, as one free block. -/
def Tract.blank (r : Region) : Tract := ⟨r, [⟨r.base, r.size - 32, .free⟩]⟩

/-- The shape with one more region. -/
def Shape.grown (A : Shape) (r : Region) : Shape := ⟨A.tracts ++ [.blank r], r.base :: A.free⟩

/-- The memory after a region was laid out as one block that is not on the free list. -/
def Memory.laidOut (m : Memory) (r : Region) : Memory :=
  ((m.pack r.base (r.size - 32) 0 .free).pack r.terminator 0 (r.size - 32) .allocated).markFree
    r.base

variable {m m' : Memory} {r : Region} {ts ts' : List Tract} {t : Tract} {L : List Nat} {A : Shape}
  {b : Block} {C : Context} {mid : List Block}

/-! ### A new region -/

theorem Memory.changesOnly_laidOut (hsize : 80 ≤ r.size) :
    Memory.ChangesOnly (fun a => r.base ≤ a ∧ a < r.base + r.size) m (m.laidOut r) := by
  unfold Memory.laidOut Region.terminator headerSize
  refine ((changesOnly_pack.mono ?_).trans (changesOnly_pack.mono ?_)).trans
    (changesOnly_markFree.mono ?_)
  · rintro a (rfl | rfl | rfl) <;> omega
  · rintro a (rfl | rfl | rfl) <;> omega
  · rintro a (rfl | rfl | rfl) <;> omega

theorem Tract.marked_laidOut (hsize : 80 ≤ r.size) (hlt : r.base + r.size < Word.limit) :
    (Tract.blank r).Marked (m.laidOut r) := by
  have hterm : r.terminator = r.base + (r.size - 32) := rfl
  unfold Memory.laidOut Tract.blank
  refine ⟨?_, fun b hb => ?_, ?_, ?_⟩
  · dsimp only
    rw [Memory.changesOnly_markFree.backward (by omega),
      Memory.changesOnly_pack.backward (by omega), Memory.backward_pack (Nat.two_pow_pos 64)]
  · cases List.mem_singleton.mp hb
    refine ⟨?_, Memory.tag_markFree, ?_⟩
    · dsimp only
      rw [Memory.changesOnly_markFree.forward (by omega),
        Memory.changesOnly_pack.forward (by omega), Memory.forward_pack (by omega)]
    · dsimp only
      rw [Memory.changesOnly_markFree.backward (by omega), hterm, Memory.backward_pack (by omega)]
  · dsimp only
    rw [Memory.changesOnly_markFree.forward (by omega), Memory.forward_pack (Nat.two_pow_pos 64)]
  · dsimp only
    rw [Memory.changesOnly_markFree.tag (by omega), Memory.tag_pack]

theorem Tract.sound_blank (hal : r.base % 16 = 0) (hpos : 0 < r.base) (hwhole : r.size % 16 = 0)
    (hsize : 80 ≤ r.size) (hlt : r.base + r.size < Word.limit) : (Tract.blank r).Sound where
  aligned := hal
  positive := hpos
  bounded := hlt
  tiles := Tiles.single_iff.mpr ⟨rfl, by dsimp only; omega, by dsimp only; omega, rfl⟩
  nonempty := List.cons_ne_nil _ _

theorem blocksOf_append : blocksOf (ts ++ ts') = blocksOf ts ++ blocksOf ts' :=
  List.flatMap_append

namespace Shape

theorem blocks_grown : (A.grown r).blocks = A.blocks ++ [⟨r.base, r.size - 32, .free⟩] :=
  blocksOf_append

theorem mem_blocks_grown : (⟨r.base, r.size - 32, .free⟩ : Block) ∈ (A.grown r).blocks := by
  rw [blocks_grown]
  exact List.mem_append_right _ (List.mem_singleton.mpr rfl)

theorem regions_grown : (A.grown r).regions = A.regions ++ [r] := by
  simp [regions, grown, Tract.blank]

theorem spans_grown {a : Nat} (h : A.Spans a) : (A.grown r).Spans a := by
  obtain ⟨s, hs, ha⟩ := h
  exact ⟨s, by rw [regions_grown]; exact List.mem_append_left _ hs, ha⟩

theorem Sound.grown (hs : A.Sound) (hr : (Tract.blank r).Sound)
    (hapart : ∀ s ∈ A.regions, s.Apart r) : (A.grown r).Sound := by
  have hlaid : Laid (A.grown r).tracts := by
    refine ⟨List.forall_mem_append.mpr ⟨hs.laid.sound, List.forall_mem_singleton.mpr hr⟩,
      List.pairwise_append.mpr ⟨hs.laid.apart, List.pairwise_singleton _ _, fun t ht => ?_⟩⟩
    exact List.forall_mem_singleton.mpr (hapart t.region (List.mem_map_of_mem ht))
  refine ⟨hlaid, List.nodup_cons.mpr ⟨fun hin => ?_, hs.nodup⟩, fun x hx => ?_⟩
  · -- a listed block with the base of the new region would be in an old one
    obtain ⟨b, hb, haddr, -⟩ := hs.listed _ hin
    obtain ⟨t, ht, hbt⟩ := mem_blocksOf.mp hb
    have hts := hs.laid.sound t ht
    have hw := hts.within hbt
    have hadd := hts.terminator_add
    have := hapart t.region (List.mem_map_of_mem ht)
    obtain ⟨hlo, hhi, -, -, hroom⟩ := hw
    have hroom' : (Tract.blank r).region.base + 48 ≤ (Tract.blank r).region.terminator :=
      hr.tiles.lt hr.nonempty
    have hadd' : r.terminator + 32 = r.base + r.size := hr.terminator_add
    unfold Region.Apart at this
    unfold Tract.blank at hroom'
    dsimp only at hroom'
    omega
  · rcases List.mem_cons.mp hx with rfl | hx
    · exact ⟨_, mem_blocks_grown, rfl, rfl⟩
    · obtain ⟨b, hb, haddr, htag⟩ := hs.listed x hx
      exact ⟨b, by rw [blocks_grown]; exact List.mem_append_left _ hb, haddr, htag⟩

/-- A new region overlaps none that was there. -/
theorem Sound.apart_of_grown (hs : (A.grown r).Sound) {s : Region} (hmem : s ∈ A.regions) :
    s.Apart r := by
  obtain ⟨t, ht, rfl⟩ := List.mem_map.mp hmem
  exact (List.pairwise_append.mp hs.laid.apart).2.2 t ht _ List.mem_cons_self

theorem uses_grown_iff : (A.grown r).Uses b ↔ A.Uses b := by
  unfold Uses
  rw [blocks_grown, List.mem_append]
  constructor
  · rintro ⟨hb | hb, htag⟩
    · exact ⟨hb, htag⟩
    · cases List.mem_singleton.mp hb
      nomatch htag
  · exact fun ⟨hb, htag⟩ => ⟨.inl hb, htag⟩

theorem Settled.grown (hs : A.Settled) (hs' : (A.grown r).Sound) : (A.grown r).Settled where
  toSound := hs'
  complete := by
    unfold Complete
    rw [blocks_grown]
    refine List.forall_mem_append.mpr ⟨fun b hb htag => ?_, List.forall_mem_singleton.mpr fun _ => ?_⟩
    · exact List.mem_cons_of_mem _ (hs.complete b hb htag)
    · exact List.mem_cons_self
  coalesced := List.forall_mem_append.mpr
    ⟨hs.coalesced, List.forall_mem_singleton.mpr (List.isChain_singleton _)⟩

/-- What is in the new region is reserved. -/
theorem reserved_grown (hapart : ∀ s ∈ A.regions, s.Apart r) (hs : A.Sound) {w : Nat}
    (hw : r.base ≤ w ∧ w < r.base + r.size) : (A.grown r).Reserved w := by
  refine ⟨⟨r, by rw [regions_grown]; simp, hw⟩, fun b hb htag hpayload => ?_⟩
  rw [blocks_grown] at hb
  rcases List.mem_append.mp hb with hb | hb
  · obtain ⟨t, ht, hbt⟩ := mem_blocksOf.mp hb
    have hts := hs.laid.sound t ht
    obtain ⟨hlo, hhi, -, -, -⟩ := hts.within hbt
    have hadd := hts.terminator_add
    have := hapart t.region (List.mem_map_of_mem ht)
    unfold Region.Apart at this
    omega
  · cases List.mem_singleton.mp hb
    nomatch htag

/-- Memory that changes in the new region only holds the shape with this region once it is laid
out and in front of the free list. -/
theorem In.laidOut (hi : A.In m) (hs : A.Sound) (hr : (Tract.blank r).Sound)
    (hapart : ∀ s ∈ A.regions, s.Apart r)
    (hc : Memory.ChangesOnly (fun a => r.base ≤ a ∧ a < r.base + r.size) m m') :
    ∃ m'', FreeList.pushFront ⟨A.free.head?⟩ r.base (m'.laidOut r) = .ok ⟨some r.base⟩ m'' ∧
      (A.grown r).In m'' ∧ Memory.ChangesOnly (A.grown r).Reserved m m'' := by
  have hroom : r.base + 48 ≤ r.terminator := hr.tiles.lt hr.nonempty
  have hsize : 80 ≤ r.size := by unfold Region.terminator headerSize at hroom; omega
  have hc' := hc.trans (Memory.changesOnly_laidOut (m := m') hsize)
  have hs' := hs.grown hr hapart
  have hold : A.In (m'.laidOut r) := hi.of_changesOnly hs hc' fun w hw hwr => by
    obtain ⟨⟨s, hsr, hws⟩, -⟩ := hw
    have := hapart s hsr
    unfold Region.Apart at this
    omega
  have hin : In ⟨A.tracts ++ [.blank r], A.free⟩ (m'.laidOut r) := by
    refine ⟨List.forall_mem_append.mpr ⟨hold.marked, ?_⟩, hold.linked⟩
    exact List.forall_mem_singleton.mpr (Tract.marked_laidOut hsize hr.bounded)
  obtain ⟨m'', hrun, hin'', hc''⟩ := hin.list (b := ⟨r.base, r.size - 32, .free⟩) hs'
  exact ⟨m'', hrun, hin'', (hc'.mono fun w hw => reserved_grown hapart hs hw).trans
    (hc''.mono fun w hw => hs'.reserved_of_linkWord hw)⟩

end Shape

variable {σ : Type} {w w' : World σ} {request size : Nat} {After : σ → List Call → Prop}
  {cs : List Call}

/-- How a heap grows for a request, by what its source answers. There is no outcome where the source
stops, or where the regions mapped so far can no longer be counted. -/
def Outline.grow [Source σ] (o : Outline σ) (request : Nat) :
    Option (Except AllocError Nat × Outline σ) :=
  match BoundaryTag.regionSize (Source.pageSize o.source) (Region.totalSize o.shape.regions)
    o.config.maxRegionPages request with
  | .error _ => none
  | .ok none => some (.error (.sizeOverflow request), o)
  | .ok (some size) =>
    match Source.map o.source size with
    | (.mapped base _, source) =>
      if o.unmaps + o.shape.regions.length + 1 < Word.limit then
        some (.ok base, { o with source, shape := o.shape.grown { base, size } })
      else none
    | (.refused cause, source) => some (.error (.mapFailed size cause), { o with source })
    | (.rejected _, _) => none

/-- Growing asks the source once at most, and adds the region that was mapped. -/
theorem Outline.grow_cases [Source σ] {o o' : Outline σ} {answer : Except AllocError Nat}
    (h : o.grow request = some (answer, o')) :
    (answer = .error (.sizeOverflow request) ∧ o' = o) ∨
    (∃ size cause source, Source.map o.source size = (.refused cause, source) ∧
      answer = .error (.mapFailed size cause) ∧ o' = { o with source }) ∨
    ∃ r contents source, Source.map o.source r.size = (.mapped r.base contents, source) ∧
      answer = .ok r.base ∧ o' = { o with source, shape := o.shape.grown r } := by
  unfold Outline.grow at h
  split at h
  · nomatch h
  · cases h
    exact .inl ⟨rfl, rfl⟩
  · rename_i size _
    split at h
    · rename_i base contents source hmap
      split at h
      · cases h
        exact .inr (.inr ⟨⟨base, size⟩, contents, source, hmap, rfl, rfl⟩)
      · nomatch h
    · rename_i cause source hmap
      cases h
      exact .inr (.inl ⟨size, cause, source, hmap, rfl, rfl⟩)
    · nomatch h

/-- A region that is laid out in memory and was added to the books is one of the heap. -/
theorem World.Has.grown (H : w.Has A) (hs : (A.grown r).Sound) (hin : (A.grown r).In m')
    (hsize : w.heap.heapSize + r.size < Word.limit) (hmaps : w.heap.maps + 1 < Word.limit)
    {source : σ} {log : List Event} : World.Has { w with
      memory := m'
      heap := { w.heap with
        source
        free := ⟨some r.base⟩
        regions := w.heap.regions ++ [r]
        heapSize := w.heap.heapSize + r.size
        maps := w.heap.maps + 1 }
      log } (A.grown r) where
  sound := hs
  inMemory := hin
  regions := by rw [Shape.regions_grown, ← H.regions]
  free := rfl
  heapSize := by
    rw [Shape.regions_grown, Region.totalSize_append, ← H.heapSize]
    rfl
  heapSize_lt := hsize
  maps := by
    have hcount := H.maps
    rw [Shape.regions_grown, List.length_append, List.length_singleton]
    dsimp only
    omega
  maps_lt := hmaps

/-- More ranges were handed out than a word can count. -/
def World.Exhausted (After : σ → List Call → Prop) (w : World σ) : Prop :=
  ∃ cs, After w.heap.source cs ∧ Word.limit ≤ Call.maps cs

namespace HeapM

theorem layOut_run (hsize : 32 ≤ r.size) (hend : r.terminator % 16 = 0) {l : FreeList}
    (hpush : FreeList.pushFront w.heap.free r.base (w.memory.laidOut r) = .ok l m') :
    layOut r w = .ok () { w with memory := m', heap := { w.heap with free := l } } := by
  have hspan : Word.sub r.size headerSize = .ok (r.size - 32) := Word.sub_eq_ok_iff.mpr ⟨hsize, rfl⟩
  unfold layOut
  rw [hspan, run_bind_ok (run_ofExcept_ok _ w), store_bind, requireAligned_bind hend, store_bind,
    store_bind]
  exact run_editFree_ok hpush

/-- A range that was just mapped is laid out. -/
theorem layOut_mapped (H : w.Has A) (hr : (Tract.blank r).Sound)
    (hapart : ∀ s ∈ A.regions, s.Apart r) (contents : Memory) (source : σ) :
    ∃ m', layOut r { w with
        memory := w.memory.replace r.base r.size contents, heap := { w.heap with source } } =
      .ok () { w with memory := m', heap := { w.heap with source, free := ⟨some r.base⟩ } } ∧
      (A.grown r).In m' ∧ Memory.ChangesOnly (A.grown r).Reserved w.memory m' := by
  have hreplace : Memory.ChangesOnly (fun a => r.base ≤ a ∧ a < r.base + r.size) w.memory
      (w.memory.replace r.base r.size contents) := by
    intro a ha
    rw [Memory.read_replace, if_neg ha]
  have hroom : r.base + 48 ≤ r.terminator := hr.tiles.lt hr.nonempty
  have hend : r.terminator + 32 = r.base + r.size := hr.terminator_add
  obtain ⟨m', hpush, hin, hchange⟩ := H.inMemory.laidOut H.sound hr hapart hreplace
  rw [← H.free] at hpush
  have haligned : r.terminator % 16 = 0 := hr.tiles.aligned hr.aligned
  exact ⟨m', layOut_run (by omega) haligned hpush, hin, hchange⟩

theorem addRegion_run (hsize : w.heap.heapSize + r.size < Word.limit) :
    (w.heap.maps + 1 < Word.limit → addRegion r w = .ok () { w with heap := { w.heap with
      regions := w.heap.regions ++ [r]
      heapSize := w.heap.heapSize + r.size
      maps := w.heap.maps + 1 } }) ∧
    (Word.limit ≤ w.heap.maps + 1 → addRegion r w = .error .addOverflow { w with heap :=
      { w.heap with
        regions := w.heap.regions ++ [r]
        heapSize := w.heap.heapSize + r.size } }) := by
  refine ⟨fun hlt => addRegion_eq_ok_iff.mpr ⟨hsize, hlt, rfl⟩, fun hge => ?_⟩
  have hadd : Word.add w.heap.heapSize r.size = .ok (w.heap.heapSize + r.size) :=
    Word.add_eq_ok_iff.mpr ⟨hsize, rfl⟩
  have hfault : Word.add w.heap.maps 1 = .error .addOverflow := if_neg (by omega)
  unfold addRegion
  rw [update_bind, heap_bind]
  dsimp only
  rw [hadd, run_bind_ok (run_ofExcept_ok _ _), update_bind, heap_bind]
  dsimp only
  rw [hfault, run_bind_error (run_ofExcept_error _ _)]

variable [Source σ]

theorem mapRange_mapped {base : Nat} {contents : Memory} {s' : σ}
    (h : Source.map w.heap.source size = (.mapped base contents, s')) :
    mapRange size w = .ok (.ok base) { w with
      memory := w.memory.replace base size contents, heap := { w.heap with source := s' } } := by
  unfold mapRange
  rw [h]

theorem mapRange_refused {cause : String} {s' : σ}
    (h : Source.map w.heap.source size = (.refused cause, s')) :
    mapRange size w = .ok (.error cause) { w with heap := { w.heap with source := s' } } := by
  unfold mapRange
  rw [h]

/-- Growing answers an error and changes no block, or adds a region with room for the request at the
head of the free list. It adds the region too where the regions mapped so far can no longer be
counted, and stops there. -/
theorem grow_run (hc : Source.Contract After) (hb : w.heap.Booked After cs) (H : w.Has A)
    (hs : A.Settled) (hmin : 16 ≤ request) :
    (∃ e w', grow request w = .ok (.error e) w' ∧ w'.Has A ∧ w'.memory = w.memory ∧
      (w.outline A).grow request = some (.error e, w'.outline A)) ∨
    (∃ r w', grow request w = .ok (.ok r.base) w' ∧ request + 64 ≤ r.size ∧
      w'.Has (A.grown r) ∧ Memory.ChangesOnly (A.grown r).Reserved w.memory w'.memory ∧
      (w.outline A).grow request = some (.ok r.base, w'.outline (A.grown r))) ∨
    ∃ r w', grow request w = .error .addOverflow w' ∧ w'.Exhausted After ∧
      w'.Holds (A.grown r) ∧ (w.outline A).grow request = none := by
  obtain ⟨size?, hsize, hpure, hsizeOk⟩ := regionSize_run hc.toDisjoint hb.tracked.after request
  rw [H.heapSize] at hpure
  unfold grow Outline.grow
  rw [run_bind_ok hsize, show BoundaryTag.regionSize (Source.pageSize (w.outline A).source)
    (Region.totalSize (w.outline A).shape.regions) (w.outline A).config.maxRegionPages request =
      .ok size? from hpure]
  cases size? with
  | none => exact .inl ⟨.sizeOverflow request, w, rfl, H, rfl, rfl⟩
  | some size =>
  obtain ⟨hpos, hpage, hroom, hlt⟩ := hsizeOk size rfl
  have hwhole : size % 16 = 0 := by
    obtain ⟨k, hk, -, hpow⟩ := hc.page hb.tracked.after
    exact Nat.mod_eq_zero_of_dvd ((Nat.pow_dvd_pow 2 hk).trans (hpow ▸ hpage))
  dsimp only
  rcases hsrc : Source.map w.heap.source size with ⟨answer, s'⟩
  rw [show Source.map (w.outline A).source size = (answer, s') from hsrc]
  cases answer with
  | rejected fault => exact absurd hsrc (hc.answers hb.tracked.after hpos hpage)
  | refused cause =>
    rw [run_bind_ok (mapRange_refused hsrc)]
    exact .inl ⟨.mapFailed size cause, _, rfl,
      ⟨H.sound, H.inMemory, H.regions, H.free, H.heapSize, H.heapSize_lt, H.maps, H.maps_lt⟩, rfl,
      rfl⟩
  | mapped base contents =>
  obtain ⟨hlive, hafter⟩ := hc.mapped hb.tracked.after hpos hpage hsrc
  obtain ⟨hal, hbase, hstop⟩ := hc.placed hb.tracked.after hpos hpage hsrc
  let r : Region := ⟨base, size⟩
  have hapart : ∀ s ∈ A.regions, s.Apart r := fun s hs =>
    hlive s (hb.tracked.live.mem_iff.mpr (H.regions ▸ hs))
  have hr : (Tract.blank r).Sound :=
    Tract.sound_blank hal hbase hwhole (show 80 ≤ size by omega) hstop
  obtain ⟨m', hlay, hin, hchange⟩ := layOut_mapped H hr hapart contents s'
  rw [run_bind_ok (mapRange_mapped hsrc)]
  dsimp only
  rw [if_neg (show ¬ base % alignment ≠ 0 from not_not_intro hal), run_bind_ok hlay]
  obtain ⟨hok, hfault⟩ := addRegion_run (r := r)
    (w := { w with memory := m', heap := { w.heap with source := s', free := ⟨some r.base⟩ } }) hlt
  have hcount : w.heap.maps = (w.outline A).unmaps + (w.outline A).shape.regions.length := H.maps
  refine .inr ?_
  by_cases hmaps : w.heap.maps + 1 < Word.limit
  · exact .inl ⟨r, _, (run_bind_ok (hok hmaps)).trans rfl, hroom,
      H.grown (H.sound.grown hr hapart) hin hlt hmaps, hchange, if_pos (hcount ▸ hmaps)⟩
  · refine .inr ⟨r, _, run_bind_error (hfault (Nat.le_of_not_lt hmaps)),
      ⟨.mapped r :: cs, hafter, ?_⟩, ⟨hs.grown (H.sound.grown hr hapart), hin, ?_, rfl⟩,
      if_neg (hcount ▸ hmaps)⟩
    · have := hb.tracked.maps
      show _ ≤ Call.maps cs + 1
      omega
    · rw [Shape.regions_grown, ← H.regions]

end HeapM

/-! ### A region less -/

namespace Laid

theorem of_perm (h : Laid ts) (hp : ts.Perm ts') : Laid ts' :=
  ⟨fun t ht => h.sound t (hp.mem_iff.mpr ht), hp.pairwise h.apart fun h => Or.symm h⟩

theorem of_cons (h : Laid (t :: ts)) : Laid ts :=
  ⟨fun u hu => h.sound u (List.mem_cons_of_mem t hu), h.apart.of_cons⟩

end Laid

theorem Shape.Sound.less (hs : Sound ⟨ts, L⟩) (hp : (t :: ts').Perm ts)
    (hL : ∀ b ∈ t.blocks, b.addr ∉ L) : Sound ⟨ts', L⟩ where
  laid := (hs.laid.of_perm hp.symm).of_cons
  nodup := hs.nodup
  listed x hx := by
    obtain ⟨b, hb, rfl, htag⟩ := hs.listed x hx
    obtain ⟨u, hu, hbu⟩ := mem_blocksOf.mp hb
    rcases List.mem_cons.mp (hp.mem_iff.mpr hu) with rfl | hu'
    · exact absurd hx (hL b hbu)
    · exact ⟨b, mem_blocksOf.mpr ⟨u, hu', hbu⟩, rfl, htag⟩

/-- The regions that are left when the one around the place is taken out. -/
def Context.without (C : Context) (mid : List Block) : List Tract :=
  swapRemove (C.fill mid) C.before.length

theorem Context.perm_without (C : Context) (mid : List Block) :
    (⟨C.region, C.left ++ mid ++ C.right⟩ :: C.without mid).Perm (C.fill mid) :=
  swapRemove_perm (by simp [fill])

/-- The first address of a region leads to its place in the list of regions. -/
theorem World.Has.find_region (H : w.Has ⟨C.fill mid, L⟩) (hne : mid ≠ []) {x : Nat}
    (hx : x = C.region.base) : w.heap.regions.find? (·.sentinel = x) = some C.region ∧
      w.heap.regions.findIdx (·.sentinel = x) = C.before.length := by
  obtain ⟨a, e, hp⟩ := H.sound.laid.placed hne
  obtain ⟨hlo, hroom, hhi, hterm, -, -, -, -⟩ := hp.bounds
  have hbefore : ∀ r ∈ C.before.map Tract.region, decide (r.sentinel = x) = false := by
    intro r hr
    obtain ⟨t, ht, rfl⟩ := List.mem_map.mp hr
    have hts := hp.sound_of_mem (.inl ht)
    have hapart := hp.region_apart (.inl ht)
    have hadd := hts.terminator_add
    have htl := hts.tiles.le
    refine decide_eq_false fun (hbase : t.region.base = x) => ?_
    omega
  have hregions : w.heap.regions =
      C.before.map Tract.region ++ C.region :: C.after.map Tract.region := by
    rw [H.regions]
    simp [Shape.regions, Context.fill]
  have hhere : decide (C.region.sentinel = x) = true := decide_eq_true hx.symm
  rw [hregions]
  refine ⟨?_, ?_⟩
  · rw [List.find?_append, List.find?_eq_none.mpr fun r hr => by simp [hbefore r hr]]
    simp [hhere]
  · rw [List.findIdx_append, List.findIdx_eq_length_of_false hbefore]
    simp [List.findIdx_cons, hhere]

/-- A region that is one free block, which is not listed, is given back. -/
theorem HeapM.releaseRegion_run [Source σ] (H : w.Has ⟨C.fill [b], L⟩) (hleft : C.left = [])
    (hright : C.right = []) (hL : b.addr ∉ L) :
    ∃ w', releaseRegion b.addr w = .ok () w' ∧ w'.Has ⟨C.without [b], L⟩ ∧
      w'.memory = w.memory ∧ w'.outline ⟨C.without [b], L⟩ = { w.outline ⟨C.fill [b], L⟩ with
        source := Source.unmap w.heap.source C.region.base C.region.size
        shape := ⟨C.without [b], L⟩
        unmaps := w.heap.unmaps + 1 } := by
  have hp := H.sound.laid.placed_single
  obtain ⟨-, -, -, hterm, hbounded, -, -, -⟩ := hp.bounds
  have hmarked := H.marked (b := b) (World.Has.mem_fill List.mem_cons_self)
  obtain ⟨-, -, -, -, hroom⟩ := H.block_sound (b := b) (World.Has.mem_fill List.mem_cons_self)
  have hbase : C.region.base = b.addr := by
    have := hp.left
    rwa [hleft] at this
  have hend : b.addr + b.span = C.region.terminator := by
    have := hp.right
    rwa [hright] at this
  obtain ⟨hfind, hi⟩ := H.find_region (List.cons_ne_nil _ _) hbase.symm
  have hperm := C.perm_without [b]
  have hregions : swapRemove w.heap.regions C.before.length = Shape.regions ⟨C.without [b], L⟩ := by
    rw [H.regions]
    exact (map_swapRemove Tract.region _ _).symm
  have hregionsPerm : (C.region :: Shape.regions ⟨C.without [b], L⟩).Perm
      (Shape.regions ⟨C.fill [b], L⟩) := hperm.map Tract.region
  have hsize : C.region.size + Region.totalSize (Shape.regions ⟨C.without [b], L⟩) =
      w.heap.heapSize := H.heapSize ▸ Region.totalSize_perm hregionsPerm
  have hmaps : w.heap.maps =
      w.heap.unmaps + ((Shape.regions ⟨C.without [b], L⟩).length + 1) := by
    rw [H.maps, ← hregionsPerm.length_eq, List.length_cons]
  have hmapsLt := H.maps_lt
  have hsizeLt := H.heapSize_lt
  have hspan : Word.add (w.memory.forward b.addr) headerSize = .ok (b.span + 32) :=
    Word.add_eq_ok_iff.mpr ⟨by rw [hmarked.forward]; unfold headerSize; omega,
      by rw [hmarked.forward]; rfl⟩
  have hsub : Word.sub w.heap.heapSize C.region.size =
      .ok (Region.totalSize (Shape.regions ⟨C.without [b], L⟩)) :=
    Word.sub_eq_ok_iff.mpr ⟨by omega, by omega⟩
  have hnot : ∀ c ∈ C.left ++ [b] ++ C.right, c.addr ∉ L := by
    rw [hleft, hright]
    exact List.forall_mem_singleton.mpr hL
  unfold releaseRegion unmapRange
  rw [heap_bind, hfind]
  dsimp only
  rw [update_bind, memory_bind]
  dsimp only
  rw [hspan, run_bind_ok (run_ofExcept_ok _ _),
    if_neg (show ¬ b.span + 32 ≠ C.region.size by omega), update_bind, heap_bind]
  dsimp only
  rw [hsub, run_bind_ok (run_ofExcept_ok _ _), update_bind,
    run_bind_ok (countUnmap_eq_ok_iff.mpr ⟨by dsimp only; omega, rfl⟩), hi]
  exact ⟨_, rfl, ⟨H.sound.less hperm hnot,
    ⟨fun v hv => H.inMemory.marked v (hperm.mem_iff.mp (List.mem_cons_of_mem _ hv)),
      H.inMemory.linked⟩,
    hregions, H.free, rfl, by dsimp only; omega, by dsimp only; omega, hmapsLt⟩, rfl, rfl⟩

end BoundaryTag
