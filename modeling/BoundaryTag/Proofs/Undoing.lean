import BoundaryTag.Proofs.Reclaiming
import BoundaryTag.Proofs.Taking

/-!
# A release right after an allocation

What an allocation cuts off its block is the free block after it, so that a release at once joins
the two again into the block that was found (`Outline.release_serve`). The heap is then as it was
when the block was found, but that the block is listed first. What is left to decide is whether its
region stays, and of the regions that there were before no policy lets one go that it had kept.
-/

namespace BoundaryTag

variable {σ : Type} {o o₁ : Outline σ} {C : Context} {b : Block} {A : Shape} {L : List Nat}
  {r : Region} {needed : Nat}

namespace Picture

/-- The heap with `x` in front of its free list. -/
def movedToFront (p : Picture Nat) (x : Nat) : Picture Nat :=
  { p with free := p.free.map fun L => x :: L.erase x }

/-- The heap when one more region was mapped and given back. -/
def passed (p : Picture Nat) : Picture Nat :=
  { p with stats := { p.stats with maps := p.stats.maps + 1, unmaps := p.stats.unmaps + 1 } }

/-- What a heap with the regions `rs` has become, in `p'`, once the block at `x` was taken and given
back at once. The region `mapped` was mapped for it, if any, and the region `gone` was given back,
if any. -/
structure Undone (p : Picture Nat) (policy : ReclaimPolicy) (rs : List Region) (x : Nat)
    (mapped gone : Option Region) (p' : Picture Nat) : Prop where
  moved : mapped = none → gone = none →
    (∃ L, p.free = .ok L ∧ x ∈ L) ∧ p' = p.movedToFront x
  kept : policy = .always → ∀ r ∈ rs, gone ≠ some r
  passed : policy = .always → ∀ r, mapped = some r → gone = some r ∧ p' = p.passed
  never : policy = .never → gone = none

end Picture

/-! ### Joining what was cut -/

namespace Block

/-- The two parts of a block make up the block. -/
theorem join_front_rest (hfree : b.tag = .free) (hcut : needed + 64 < b.span) :
    join { b.front needed .allocated with tag := .free } (b.rest needed) = b := by
  have hspan : needed + 32 + (b.span - 32 - needed) = b.span := by omega
  unfold join front rest
  dsimp only
  rw [hspan, ← hfree]

end Block

namespace Site

/-- A free block whose neighbours are in use has nothing to be joined with. -/
theorem joined_eq_self {s : Site} (hleft : ∀ x ∈ s.context.left.getLast?, x.tag = .allocated)
    (hright : ∀ y ∈ s.context.right.head?, y.tag = .allocated) : s.joined = s := by
  unfold joined
  rw [joinNext_eq_self hright, joinPrevious_eq_self hleft]

/-- A block that was just cut off is joined with what was left. -/
theorem joined_front (hfree : b.tag = .free) (hcut : needed + 64 < b.span)
    (hleft : ∀ x ∈ C.left.getLast?, x.tag = .allocated) :
    (freed { C with right := b.rest needed :: C.right } (b.front needed .allocated)
      ((b.rest needed).addr :: L)).joined = ⟨C, b, b.addr :: L⟩ := by
  have hne : b.addr ≠ (b.rest needed).addr := by
    unfold Block.rest
    dsimp only
    omega
  have herase : (b.addr :: (b.rest needed).addr :: L).erase (b.rest needed).addr = b.addr :: L := by
    rw [List.erase_cons_tail (by simpa using hne), List.erase_cons_head]
  have hnext : (freed { C with right := b.rest needed :: C.right } (b.front needed .allocated)
      ((b.rest needed).addr :: L)).joinNext = ⟨C, b, b.addr :: L⟩ := by
    rw [joinNext_eq_join rfl rfl]
    show Site.mk C (Block.join { b.front needed .allocated with tag := .free } (b.rest needed))
      ((b.addr :: (b.rest needed).addr :: L).erase (b.rest needed).addr) = _
    rw [Block.join_front_rest hfree hcut, herase]
  unfold joined
  rw [hnext]
  exact joinPrevious_eq_self hleft

end Site

/-- The block that served a request is found again in one piece, and is listed first. -/
theorem Outline.release_serve [Source σ] (hs : o.shape.Settled)
    (htracts : o.shape.tracts = C.fill [b]) (hfree : b.tag = .free)
    (hserve : o.serve b.addr needed = some o₁) (hs₁ : o₁.shape.Sound) :
    o₁.release (payloadOf b.addr) =
      some (o.reclaim ⟨C, b, b.addr :: o.shape.free.erase b.addr⟩) := by
  obtain ⟨config, source, ⟨ts, L⟩, unmaps⟩ := o
  obtain rfl : ts = C.fill [b] := htracts
  have hlaid := hs.laid
  obtain ⟨-, hprevious, hnext⟩ := Shape.coalesced_fill_iff.mp hs.coalesced
  have hleft : ∀ x ∈ C.left.getLast?, x.tag = .allocated := fun x hx => (hprevious x hx).left hfree
  have hright : ∀ y ∈ C.right.head?, y.tag = .allocated := fun y hy => (hnext y hy).right hfree
  unfold serve at hserve
  rw [show Context.at? _ b.addr = some (C, b) from hlaid.at?_eq] at hserve
  cases hserve
  dsimp only at hs₁ ⊢
  unfold Shape.serve at hs₁ ⊢
  by_cases hcut : needed + 64 < b.span
  · -- the first part is in use, and the rest is the block after it
    rw [if_pos hcut, Context.fill_cons] at hs₁ ⊢
    refine (release_of_mem (b := b.front needed .allocated) rfl hs₁).trans ?_
    rw [show [b.rest needed] ++ C.right = b.rest needed :: C.right from rfl,
      Site.joined_front hfree hcut hleft]
    rfl
  · -- all of the block is in use, between blocks in use
    rw [if_neg hcut] at hs₁ ⊢
    refine (release_of_mem (b := { b with tag := .allocated }) rfl hs₁).trans ?_
    have hfreed : Site.freed C { b with tag := .allocated } (L.erase b.addr) =
        ⟨C, b, b.addr :: L.erase b.addr⟩ := by
      show Site.mk C ⟨b.addr, b.span, .free⟩ _ = _
      rw [← hfree]
    rw [hfreed, Site.joined_eq_self hleft hright]
    rfl

/-! ### What becomes of the region -/

namespace Shape

/-- A free block without neighbours leaves its region vacant. -/
theorem vacant_of_nil (hlaid : Laid (C.fill [b])) (hfree : b.tag = .free) (hleft : C.left = [])
    (hright : C.right = []) : Vacant ⟨C.fill [b], L⟩ C.region := by
  intro c hc hin
  obtain ⟨u, hu, hcu⟩ := mem_blocksOf.mp hc.1
  have hmem : (⟨C.region, C.left ++ [b] ++ C.right⟩ : Tract) ∈ C.fill [b] :=
    Context.mem_fill.mpr (.inl rfl)
  obtain rfl := hlaid.eq_of_base_le hmem hu hcu hin.1 hin.2
  rw [hleft, hright] at hcu
  obtain rfl : c = b := List.mem_singleton.mp hcu
  exact nomatch hfree.symm.trans hc.2

theorem Sound.not_mem_of_grown (hs : (A.grown r).Sound) : r ∉ A.regions := by
  have hnodup := hs.nodup_regions
  rw [regions_grown] at hnodup
  exact fun hr => (List.nodup_append.mp hnodup).2.2 r hr r (List.mem_singleton_self r) rfl

theorem erase_grown : (A.grown r).free.erase r.base = A.free := List.erase_cons_head _ _

/-- Giving back the region that was mapped last leaves the others in place. -/
theorem without_lastPlace : (A.lastPlace r).without [b] = A.tracts :=
  swapRemove_concat A.tracts _

end Shape

namespace Outline

variable [Source σ] {o : Outline (Recorder σ)} {source : Recorder σ}

/-- No policy gives back the region of a listed block that it has seen to, but that the last of them
may go once the block is listed again. -/
theorem reclaim_listed (hs : o.shape.Sound) (htracts : o.shape.tracts = C.fill [b])
    (hfree : b.tag = .free) (hkeeps : o.config.reclaim.Keeps o.shape) :
    o.reclaim ⟨C, b, L⟩ = { o with shape := ⟨o.shape.tracts, L⟩ } ∨
      o.config.reclaim = .keepLastFree ∧
        (o.reclaim ⟨C, b, L⟩).source.calls = .unmapped C.region :: o.source.calls := by
  rcases o.reclaim_cases ⟨C, b, L⟩ with ⟨hsole, hgo, heq⟩ | ⟨-, heq⟩ <;> rw [heq]
  · refine .inr ⟨?_, rfl⟩
    obtain ⟨hleft, hright⟩ : C.left = [] ∧ C.right = [] := by simpa [Site.isSole] using hsole
    obtain ⟨config, source, ⟨ts, L'⟩, unmaps⟩ := o
    obtain rfl : ts = C.fill [b] := htracts
    cases hpolicy : config.reclaim with
    | always =>
      have hvacant := Shape.vacant_of_nil (L := L') hs.laid hfree hleft hright
      dsimp only at hkeeps
      rw [hpolicy] at hkeeps
      exact absurd hvacant (hkeeps _ (List.mem_map_of_mem (Context.mem_fill.mpr (.inl rfl))))
    | keepLastFree => rfl
    | never =>
      dsimp only at hgo
      rw [hpolicy] at hgo
      cases hgo
  · exact .inl (by rw [htracts]; rfl)

/-- A region that was mapped for a request goes again, unless the policy keeps it. -/
theorem reclaim_grown (o : Outline (Recorder σ)) (source : Recorder σ) (r : Region) :
    (o.config.reclaim.letsGo (o.shape.free.length + 1) = true ∧
      Outline.reclaim { o with source, shape := o.shape.grown r }
          ⟨o.shape.lastPlace r, ⟨r.base, r.size - 32, .free⟩, r.base :: o.shape.free⟩ =
        { o with source := Source.unmap source r.base r.size, unmaps := o.unmaps + 1 }) ∨
    (o.config.reclaim.letsGo (o.shape.free.length + 1) = false ∧
      Outline.reclaim { o with source, shape := o.shape.grown r }
          ⟨o.shape.lastPlace r, ⟨r.base, r.size - 32, .free⟩, r.base :: o.shape.free⟩ =
        { o with source, shape := o.shape.grown r }) := by
  rcases Outline.reclaim_cases { o with source, shape := o.shape.grown r }
    ⟨o.shape.lastPlace r, ⟨r.base, r.size - 32, .free⟩, r.base :: o.shape.free⟩ with
    ⟨-, hgo, heq⟩ | ⟨hstays, heq⟩
  · refine .inl ⟨hgo, heq.trans ?_⟩
    dsimp only
    rw [Shape.without_lastPlace, List.erase_cons_head]
    rfl
  · exact .inr ⟨hstays rfl, heq⟩

omit [Source σ] in
theorem picture_passed :
    Outline.picture { o with source, unmaps := o.unmaps + 1 } = o.picture.passed := by
  unfold picture stats Picture.passed
  rw [Nat.add_right_comm]

/-- A block that was found is given back, and its region with it where the policy says so. -/
theorem Finds.undone {o' : Outline (Recorder σ)} (h : o.Finds needed o' C b) (hs : o.shape.Settled)
    (hs' : o'.shape.Sound) (hkeeps : o.config.reclaim.Keeps o.shape) :
    ∃ mapped gone : Option Region,
      o'.source.calls = mapped.toList.map .mapped ++ o.source.calls ∧
      (o'.reclaim ⟨C, b, b.addr :: o'.shape.free.erase b.addr⟩).source.calls =
        gone.toList.map .unmapped ++ o'.source.calls ∧
      o.picture.Undone o.config.reclaim o.shape.regions b.addr mapped gone
        (o'.reclaim ⟨C, b, b.addr :: o'.shape.free.erase b.addr⟩).picture := by
  cases h with
  | listed htracts hfree _ _ =>
    rcases reclaim_listed hs' htracts hfree hkeeps with heq | ⟨hpolicy, hcalls⟩
    · -- the region stays, and only the order of the free list is new
      have hb : b ∈ o.shape.blocks := by
        show b ∈ blocksOf o.shape.tracts
        rw [htracts]
        exact Context.mem_blocksOf_fill.mpr (.inl List.mem_cons_self)
      refine ⟨none, none, rfl, by rw [heq]; rfl, ⟨fun _ _ => ⟨?_, by rw [heq]; rfl⟩, ?_, ?_, ?_⟩⟩
      · exact ⟨o.shape.free, rfl, hs.complete b hb hfree⟩
      · exact fun _ _ _ => nofun
      · exact fun _ _ => nofun
      · exact fun _ => rfl
    · -- the region goes, as another free block is left
      refine ⟨none, some C.region, rfl, hcalls, ⟨fun _ => nofun, ?_, fun _ _ => nofun, ?_⟩⟩
      · exact fun halways => nomatch hpolicy.symm.trans halways
      · exact fun hnever => nomatch hpolicy.symm.trans hnever
  | @mapped r source _ _ _ hcalls =>
    dsimp only
    rw [Shape.erase_grown]
    rcases reclaim_grown o source r with ⟨hgo, heq⟩ | ⟨hgo, heq⟩ <;> rw [heq]
    · -- the new region is none of the others
      refine ⟨some r, some r, hcalls, rfl, ⟨nofun, ?_, ?_, ?_⟩⟩
      · rintro - q hq ⟨⟩
        exact hs'.not_mem_of_grown hq
      · rintro - q ⟨⟩
        exact ⟨rfl, picture_passed⟩
      · intro hnever
        rw [hnever] at hgo
        nomatch hgo
    · -- under `always` it would go
      refine ⟨some r, none, hcalls, rfl, ⟨nofun, fun _ _ _ => nofun, ?_, fun _ => rfl⟩⟩
      intro halways
      rw [halways] at hgo
      nomatch hgo

end Outline

variable [Source σ] {After : σ → List Call → Prop} {size payload : Nat} {s : Session (Recorder σ)}
  {w₁ : World (Recorder σ)}

/-- A release right after an allocation asks the policy about the region of the block that was
found. -/
theorem Session.InOrder.release_allocated (hc : Source.Contract After)
    (h : s.InOrder (Recorder.Wrote After) A)
    (hallocate : HeapM.allocate size s.world = .ok (.ok payload) w₁) :
    ∃ (o : Outline (Recorder σ)) (C : Context) (b : Block) (w₂ : World (Recorder σ)) (A₂ : Shape),
      (s.world.outline A).Finds (servedSize size) o C b ∧ payload = payloadOf b.addr ∧
      w₁.heap.source = o.source ∧ o.shape.Sound ∧ HeapM.release payload w₁ = .ok () w₂ ∧
      w₂.Has A₂ ∧ A₂.Settled ∧
      w₂.outline A₂ = o.reclaim ⟨C, b, b.addr :: o.shape.free.erase b.addr⟩ := by
  have hpermits : s.Permits (.allocate size) := trivial
  obtain ⟨A₁, h₁, hout, -, -⟩ :=
    h.of_perform (Recorder.contract hc) hpermits ((run_bind_ok hallocate).trans rfl)
  obtain ⟨⟨_, o₁⟩, hout, heq⟩ := Option.map_eq_some_iff.mp hout
  cases heq
  obtain ⟨o, C, b, hfinds, hsettled, rfl, hserve⟩ := h.finds hc hout
  obtain ⟨htracts, hfree, -⟩ := hfinds.block
  obtain ⟨hsource, -, -⟩ :=
    Outline.picture_serve hsettled.toSound htracts (servedSize_mod size) hserve
  obtain ⟨d, hd, hnames⟩ := h₁.grants.names ⟨payloadOf b.addr, size⟩ List.mem_cons_self
  have hpayload : payloadOf b.addr = payloadOf d.addr := hnames.payload
  obtain ⟨w₂, A₂, hrelease, hreleases⟩ := HeapM.release_run h₁.has h₁.settled hd
  have hout₂ := hreleases.outline
  rw [← hpayload] at hrelease hout₂
  exact ⟨o, C, b, w₂, A₂, hfinds, rfl, hsource, hsettled.toSound, hrelease, hreleases.has,
    hreleases.settled, Option.some.inj (hout₂.symm.trans
      (Outline.release_serve hsettled htracts hfree hserve h₁.has.sound))⟩

/-- After any run an allocation is undone by a release of what it answered. If no region was mapped
for it and none is given back then, the heap is as it was, but that the block is listed first. If
one was mapped, `always` has it given back, and the heap is as it was, but for the counts. No region
that was there goes under `always`, and none at all under `never`. -/
theorem Session.undoes_of_run (hc : Source.Contract After) {config : Config} {source : σ}
    {memory : Memory} {acts : List Act} (hs : After source [])
    (hrun : (start config { inner := source } memory).Run acts s)
    (hallocate : HeapM.allocate size s.world = .ok (.ok payload) w₁) :
    ∃ (w₂ : World (Recorder σ)) (mapped gone : Option Region),
      HeapM.release payload w₁ = .ok () w₂ ∧
      w₁.heap.source.calls = mapped.toList.map .mapped ++ s.world.heap.source.calls ∧
      w₂.heap.source.calls = gone.toList.map .unmapped ++ w₁.heap.source.calls ∧
      s.world.picture.Undone config.reclaim s.world.heap.regions (blockOf payload) mapped gone
        w₂.picture := by
  have hc' := Recorder.contract hc
  have hs' : Recorder.Wrote After ⟨source, []⟩ [] := ⟨rfl, hs⟩
  obtain ⟨A, h⟩ := (inPolicy_start hs').run hc' hrun
  have hconfig : s.world.heap.config = config := config_of_run hc' (inOrder_start hs') hrun
  obtain ⟨o, C, b, w₂, A₂, hfinds, rfl, hsource, hsound, hrelease, H₂, hs₂, hout⟩ :=
    h.toInOrder.release_allocated hc hallocate
  obtain ⟨mapped, gone, hmapped, hgone, hundone⟩ := hfinds.undone h.settled hsound h.keeps
  refine ⟨w₂, mapped, gone, hrelease, hsource ▸ hmapped, ?_, ?_⟩
  · rw [hsource, ← hgone, ← hout]
    rfl
  · rw [← hconfig, h.has.picture_eq h.settled, H₂.picture_eq hs₂, hout, h.has.regions,
      blockOf_payloadOf]
    exact hundone

/-- A block of 50 bytes is cut off one that was given back before, and is joined with the rest. -/
theorem Session.undoes_cut : ∃ (s : Session (Recorder Arena)) (w₁ w₂ : World (Recorder Arena))
    (mapped gone : Option Region),
      (start {} { inner := { base := 0x10000 } } ∅).Run
        [.allocate 200, .allocate 100, .release 0x10020] s ∧
      HeapM.allocate 50 s.world = .ok (.ok 0x10020) w₁ ∧
      HeapM.release 0x10020 w₁ = .ok () w₂ ∧
      w₁.heap.source.calls = mapped.toList.map .mapped ++ s.world.heap.source.calls ∧
      w₂.heap.source.calls = gone.toList.map .unmapped ++ w₁.heap.source.calls ∧
      s.world.picture.Undone .keepLastFree s.world.heap.regions (blockOf 0x10020) mapped gone
        w₂.picture := by
  have hserves : Arena.Serves { base := 0x10000 } [] :=
    Arena.serves_new ⟨12, by decide, by decide, rfl⟩ rfl (by decide) (by decide) rfl rfl
  obtain ⟨s, w₁, hrun, hallocate⟩ :
      ∃ (s : Session (Recorder Arena)) (w₁ : World (Recorder Arena)),
        (start {} { inner := { base := 0x10000 } } ∅).Run
            [.allocate 200, .allocate 100, .release 0x10020] s ∧
          HeapM.allocate 50 s.world = .ok (.ok 0x10020) w₁ :=
    ⟨_, _, .cons (.intro trivial rfl) (.cons (.intro trivial rfl) (.cons
      (.intro (by exact ⟨⟨0x10020, 200⟩, .tail _ (.head _), rfl⟩) rfl) (.nil _))), rfl⟩
  obtain ⟨w₂, mapped, gone, hundoes⟩ := undoes_of_run Arena.contract hserves hrun hallocate
  exact ⟨s, w₁, w₂, mapped, gone, hrun, hallocate, hundoes⟩

end BoundaryTag
