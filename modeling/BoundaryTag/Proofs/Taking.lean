import BoundaryTag.Proofs.Arenas
import BoundaryTag.Proofs.Charts
import BoundaryTag.Proofs.Niches

/-!
# What an allocation does

An allocation that is served takes the first entry of the free list that is large enough, or else
the one block of a new region (`World.Finds`). The block is taken whole or cut in two, and nothing
else is seen to change (`Picture.taken`).
-/

namespace BoundaryTag

namespace Header

/-- A free block of which `needed` bytes of payload are taken. -/
def front (h : Header Nat) (needed : Nat) : Header Nat :=
  { h with forward := needed + headerSize, tag := .allocated }

/-- What is left of a free block of which `needed` bytes of payload are taken. -/
def rest (h : Header Nat) (needed : Nat) : Header Nat where
  place := h.place + headerSize + needed
  forward := h.forward - headerSize - needed
  backward := needed + headerSize
  tag := .free

end Header

namespace Picture

/-- The heap after a region was mapped, which is one free block and is listed first. -/
def grown (p : Picture Nat) (r : Region) : Picture Nat where
  stats := { p.stats with
    heapSize := p.stats.heapSize + r.size
    regions := p.stats.regions + 1
    maps := p.stats.maps + 1 }
  regions := p.regions ++ [⟨r.base, r.size,
    [⟨r.base, r.size - headerSize, 0, .free⟩, ⟨r.terminator, 0, r.size - headerSize, .allocated⟩]⟩]
  free := p.free.map (r.base :: ·)
  check := p.check

/-- The heap after the free block `h` in the niche was taken for a request of `needed` bytes, where
`L` was the free list. What is left of the block is listed first, if there is room for a block. -/
def taken (p : Picture Nat) (N : Niche Nat) (h : Header Nat) (L : List Nat) (needed : Nat) :
    Picture Nat :=
  if 48 ≤ h.forward - headerSize - needed then
    { p with
      regions := N.fill [h.front needed, h.rest needed]
      free := .ok ((h.rest needed).place :: L.erase h.place) }
  else
    { p with
      regions := N.fill [{ h with tag := .allocated }]
      free := .ok (L.erase h.place) }

end Picture

variable {σ : Type} {After : σ → List Call → Prop}

/-- A request of `needed` bytes is served from the first listed block `h` that has as many, with no
call to the source, or else from all of a region of the due size that the source was asked for. The
heap then looks as the picture says before the block is taken. -/
inductive World.Finds [Source σ] (w : World (Recorder σ)) (needed : Nat) :
    Header Nat → Picture Nat → Recorder σ → Prop
  | listed {h : Header Nat} {L : List Nat} : w.picture.free = .ok L →
    L.find? (fun x => needed + headerSize ≤ w.memory.forward x) = some h.place →
    Finds w needed h w.picture w.heap.source
  | mapped {r : Region} {L : List Nat} {source : Recorder σ} : w.picture.free = .ok L →
    L.find? (fun x => needed + headerSize ≤ w.memory.forward x) = none →
    regionSize (Source.pageSize w.heap.source) w.heap.heapSize w.heap.config.maxRegionPages needed =
      .ok (some r.size) →
    source.calls = .mapped r :: w.heap.source.calls →
    Finds w needed ⟨r.base, r.size - headerSize, 0, .free⟩ (w.picture.grown r) source

/-- A heap finds a free block of at least `needed` bytes as it is, or else once it has grown by a
region of the due size. -/
inductive Outline.Finds [Source σ] (o : Outline (Recorder σ)) (needed : Nat) :
    Outline (Recorder σ) → Context → Block → Prop
  | listed {C : Context} {b : Block} : o.shape.tracts = C.fill [b] → b.tag = .free →
    needed + 32 ≤ b.span → o.shape.fit? needed = some b.addr → Finds o needed o C b
  | mapped {r : Region} {source : Recorder σ} : o.shape.fit? needed = none →
    regionSize (Source.pageSize o.source) (Region.totalSize o.shape.regions)
      o.config.maxRegionPages needed = .ok (some r.size) →
    needed + 64 ≤ r.size → source.calls = .mapped r :: o.source.calls →
    Finds o needed { o with source, shape := o.shape.grown r } (o.shape.lastPlace r)
      ⟨r.base, r.size - 32, .free⟩

namespace Outline

variable {o o₁ : Outline σ} {C : Context} {b : Block} {r : Region} {needed : Nat}

/-- The block that is found is free and large enough. -/
theorem Finds.block [Source σ] {o o' : Outline (Recorder σ)} (h : o.Finds needed o' C b) :
    o'.shape.tracts = C.fill [b] ∧ b.tag = .free ∧ needed + 32 ≤ b.span := by
  cases h with
  | listed htracts htag hroom => exact ⟨htracts, htag, hroom⟩
  | mapped _ _ hroom _ => exact ⟨Shape.tracts_grown, rfl, by dsimp only; omega⟩

theorem picture_grown (o : Outline σ) (source : σ) (r : Region) :
    Outline.picture { o with source, shape := o.shape.grown r } = o.picture.grown r := by
  unfold picture Picture.grown stats
  rw [Shape.regions_grown, Region.totalSize_append, List.length_append]
  show Picture.mk _ ((o.shape.tracts ++ [Tract.blank r]).map Tract.strip) _ _ = _
  rw [List.map_append]
  rfl

/-- A block that serves a request is taken in its niche, with no call to the source. -/
theorem picture_serve (hs : o.shape.Sound) (htracts : o.shape.tracts = C.fill [b])
    (hal : needed % 16 = 0) (hserve : o.serve b.addr needed = some o₁) :
    o₁.source = o.source ∧ o.picture.regions = C.niche.fill [b.header C.reach] ∧
      o₁.picture = o.picture.taken C.niche (b.header C.reach) o.shape.free needed := by
  have hat := hs.laid
  rw [htracts] at hat
  unfold Outline.serve at hserve
  rw [htracts, hat.at?_eq] at hserve
  cases hserve
  have hniche : o.picture.regions = C.niche.fill [b.header C.reach] := by
    show o.shape.tracts.map Tract.strip = _
    rw [htracts]
    exact C.map_strip_fill [b]
  obtain ⟨-, -, -, hwhole, -⟩ :=
    hat.sound_of_mem (b := b) (Context.mem_blocksOf_fill.mpr (.inl List.mem_cons_self))
  have hcut : 48 ≤ (b.header C.reach).forward - headerSize - needed ↔ needed + 64 < b.span := by
    unfold Block.header headerSize
    dsimp only
    omega
  refine ⟨rfl, hniche, ?_⟩
  refine (picture_reshaped (Shape.regions_serve htracts)).trans ?_
  unfold Picture.taken Shape.serve
  by_cases h : needed + 64 < b.span
  · rw [if_pos h, if_pos (hcut.mpr h), C.map_strip_fill]
    rfl
  · rw [if_neg h, if_neg (mt hcut.mp h), C.map_strip_fill]
    rfl

/-- A heap grows by a region of the due size, which the source was asked for. -/
theorem grow_eq_ok [Source σ] {o o₁ : Outline (Recorder σ)} {x : Nat}
    (h : o.grow needed = some (.ok x, o₁)) : ∃ (r : Region) (source : Recorder σ), r.base = x ∧
      BoundaryTag.regionSize (Source.pageSize o.source) (Region.totalSize o.shape.regions)
        o.config.maxRegionPages needed = .ok (some r.size) ∧
      source.calls = .mapped r :: o.source.calls ∧
      o₁ = { o with source, shape := o.shape.grown r } := by
  obtain ⟨size?, hsize, hnone⟩ := size_of_grow h
  cases size? with
  | none => nomatch (hnone rfl).1
  | some size =>
    rcases grow_of_size hsize h with ⟨_, _, -, heq, -⟩ | ⟨_, source, hcalls, heq, rfl⟩
    · nomatch heq
    · cases heq
      exact ⟨⟨x, size⟩, source, rfl, hsize, hcalls, rfl⟩

end Outline

variable [Source σ]

/-- A region of the due size has room for the request. -/
theorem Session.InOrder.room_of_due (hd : Source.Disjoint After) {A : Shape} {s : Session σ}
    (h : s.InOrder After A) {needed size : Nat}
    (hdue : regionSize (Source.pageSize s.world.heap.source) s.world.heap.heapSize
      s.world.heap.config.maxRegionPages needed = .ok (some size)) : needed + 64 ≤ size := by
  obtain ⟨cs, hbooked⟩ := h.booked
  obtain ⟨_, -, hdue', hroom⟩ := HeapM.regionSize_run hd hbooked.tracked.after needed
  exact (hroom size (Except.ok.inj (hdue'.symm.trans hdue))).2.2.1

/-- A request that is served has found a free block that is large enough, listed or of a new
region. -/
theorem Session.InOrder.finds (hc : Source.Contract After) {A : Shape} {s : Session (Recorder σ)}
    (h : s.InOrder (Recorder.Wrote After) A) {size payload : Nat} {o₁ : Outline (Recorder σ)}
    (hout : (s.world.outline A).allocate size = some (.ok payload, o₁)) :
    ∃ (o : Outline (Recorder σ)) (C : Context) (b : Block),
      (s.world.outline A).Finds (servedSize size) o C b ∧ o.shape.Settled ∧
      payload = payloadOf b.addr ∧ o.serve b.addr (servedSize size) = some o₁ := by
  cases hround : roundRequest size with
  | none =>
    unfold Outline.allocate at hout
    rw [hround] at hout
    nomatch hout
  | some needed =>
  obtain ⟨-, rfl⟩ := roundRequest_eq_some_iff.mp hround
  cases hfit : A.fit? (servedSize size) with
  | some x =>
    obtain ⟨hpayload, hserve⟩ := Outline.allocate_of_fit hround hfit hout
    cases hpayload
    obtain ⟨b, hb, rfl, htag, hroom⟩ := h.has.sound.fit hfit
    obtain ⟨C, htracts⟩ := Context.exists_of_mem hb
    exact ⟨_, C, b, .listed htracts htag hroom hfit, h.settled, rfl, hserve⟩
  | none =>
    obtain ⟨grown, o, hgrow, -, ⟨_, -, heq, -⟩ | ⟨x, rfl, hpayload, hserve⟩⟩ :=
      Outline.allocate_of_unfit hround hfit hout
    · nomatch heq
    cases hpayload
    have hs := h.sound_of_grow (Recorder.contract hc) (minPayload_le_servedSize size) hgrow
    obtain ⟨r, source', rfl, hsize, hcalls, rfl⟩ := Outline.grow_eq_ok hgrow
    have hroom : servedSize size + 64 ≤ r.size :=
      h.room_of_due (Recorder.disjoint hc.toDisjoint) (h.has.heapSize ▸ hsize)
    exact ⟨_, _, _, .mapped hfit hsize hroom hcalls, h.settled.grown hs, rfl, hserve⟩

/-- What a heap finds is what can be seen to be found. -/
theorem Outline.Finds.world {A : Shape} {w : World (Recorder σ)} (H : w.Has A) (hs : A.Settled)
    {needed : Nat} {o : Outline (Recorder σ)} {C : Context} {b : Block}
    (h : (w.outline A).Finds needed o C b) :
    w.Finds needed (b.header C.reach) o.picture o.source := by
  have hpicture := H.picture_eq hs
  have hfree : w.picture.free = .ok A.free := by rw [hpicture]; rfl
  have hfirst := H.find?_eq needed
  cases h with
  | listed _ _ _ hfit =>
    rw [← hpicture]
    exact .listed hfree (hfirst.trans hfit)
  | mapped hfit hsize _ hcalls =>
    rw [Outline.picture_grown, ← hpicture]
    exact .mapped hfree (hfirst.trans hfit) (H.heapSize ▸ hsize) hcalls

/-- After any run an allocation that is served takes the first listed block that is large enough,
without a call to the source, or else the one block of a new region. The block becomes allocated, as
a whole or cut in two, and is no longer listed, and its payload is answered. All other blocks,
entries, regions and counts stay as they are. -/
theorem Session.takes_of_run (hc : Source.Contract After) {config : Config} {source : σ}
    {memory : Memory} {acts : List Act} {s : Session (Recorder σ)} (hs : After source [])
    (hrun : (start config { inner := source } memory).Run acts s) {size payload : Nat}
    {w' : World (Recorder σ)} (hallocate : HeapM.allocate size s.world = .ok (.ok payload) w') :
    ∃ (h : Header Nat) (p : Picture Nat) (N : Niche Nat) (L : List Nat),
      s.world.Finds (servedSize size) h p w'.heap.source ∧ payload = payloadOf h.place ∧
      p.regions = N.fill [h] ∧ h.tag = .free ∧ servedSize size + headerSize ≤ h.forward ∧
      p.free = .ok L ∧ w'.picture = p.taken N h L (servedSize size) := by
  obtain ⟨A, h⟩ := (inOrder_start ⟨rfl, hs⟩).run (Recorder.contract hc) hrun
  have hpermits : s.Permits (.allocate size) := trivial
  obtain ⟨A', h', hout, -, -⟩ :=
    h.of_perform (Recorder.contract hc) hpermits ((run_bind_ok hallocate).trans rfl)
  obtain ⟨⟨_, o₁⟩, hout, heq⟩ := Option.map_eq_some_iff.mp hout
  cases heq
  obtain ⟨o, C, b, hfinds, hsettled, rfl, hserve⟩ := h.finds hc hout
  obtain ⟨htracts, htag, hroom⟩ := hfinds.block
  obtain ⟨hsource, hniche, htaken⟩ :=
    Outline.picture_serve hsettled.toSound htracts (servedSize_mod size) hserve
  have hsource' : w'.heap.source = o.source := hsource
  rw [h'.has.picture_eq h'.settled, hsource']
  exact ⟨_, o.picture, C.niche, o.shape.free, hfinds.world h.has h.settled, rfl, hniche, htag,
    hroom, rfl, htaken⟩

/-- A request for 50 bytes is served from the block that was given back before. -/
theorem Session.takes_released : ∃ (s : Session (Recorder Arena)) (w' : World (Recorder Arena)),
    (start {} { inner := { base := 0x10000 } } ∅).Run
        [.allocate 100, .allocate 200, .release 0x10020] s ∧
      HeapM.allocate 50 s.world = .ok (.ok 0x10020) w' ∧
      ∃ (h : Header Nat) (p : Picture Nat) (N : Niche Nat) (L : List Nat),
        s.world.Finds 64 h p w'.heap.source ∧ 0x10020 = payloadOf h.place ∧
        p.regions = N.fill [h] ∧ h.tag = .free ∧ 64 + headerSize ≤ h.forward ∧
        p.free = .ok L ∧ w'.picture = p.taken N h L 64 := by
  have hserves : Arena.Serves { base := 0x10000 } [] :=
    Arena.serves_new ⟨12, by decide, by decide, rfl⟩ rfl (by decide) (by decide) rfl rfl
  obtain ⟨s, w', hrun, hallocate⟩ :
      ∃ (s : Session (Recorder Arena)) (w' : World (Recorder Arena)),
        (start {} { inner := { base := 0x10000 } } ∅).Run
            [.allocate 100, .allocate 200, .release 0x10020] s ∧
          HeapM.allocate 50 s.world = .ok (.ok 0x10020) w' :=
    ⟨_, _, .cons (.intro trivial rfl) (.cons (.intro trivial rfl) (.cons
      (.intro (by exact ⟨⟨0x10020, 100⟩, .tail _ (.head _), rfl⟩) rfl) (.nil _))), rfl⟩
  exact ⟨s, w', hrun, hallocate, takes_of_run Arena.contract hserves hrun hallocate⟩

end BoundaryTag
