import Mathlib.Data.List.Find
import BoundaryTag.Proofs.Releasing

/-!
# Allocating a block

A request to a heap in order is served from a free block or from a new region, or it is answered
with an error and changes no block (`allocate_run`). The only fault is that the count of mapped
regions is at its end.
-/

namespace BoundaryTag

variable {σ : Type} {w w₁ w' : World σ} {C : Context} {L : List Nat} {A A₁ A' : Shape}
  {b c d : Block} {needed size x : Nat} {r : Region} {After : σ → List Call → Prop} {cs : List Call}

/-! ### What an allocation does -/

/-- The listed block that serves a request for `needed` bytes, if there is one. -/
def Shape.fit? (A : Shape) (needed : Nat) : Option Nat :=
  A.free.find? fun x => (Context.at? A.tracts x).any fun (_, b) => needed + 32 ≤ b.span

/-- The free block at `x` is taken for a request of `needed` bytes. -/
def Outline.serve (o : Outline σ) (x needed : Nat) : Option (Outline σ) :=
  (Context.at? o.shape.tracts x).map fun (C, b) =>
    { o with shape := .serve C b needed (o.shape.free.erase x) }

/-- How a heap serves a request for `size` bytes, by what its source answers. -/
def Outline.allocate [Source σ] (o : Outline σ) (size : Nat) :
    Option (Except AllocError Nat × Outline σ) :=
  match roundRequest size with
  | none => some (.error (.sizeOverflow size), o)
  | some needed =>
    match o.shape.fit? needed with
    | some x => (o.serve x needed).map fun o => (.ok (payloadOf x), o)
    | none =>
      match o.grow needed with
      | none => none
      | some (.error e, o) => some (.error e, o)
      | some (.ok x, o) => (o.serve x needed).map fun o => (.ok (payloadOf x), o)

/-- An allocation fails as growing does, or a block serves it that was listed or is a new region. -/
theorem Outline.allocate_cases [Source σ] {o o' : Outline σ} {answer : Except AllocError Nat}
    (h : o.allocate size = some (answer, o')) :
    (∃ e, answer = .error e ∧ (o' = o ∨ ∃ needed, o.grow needed = some (.error e, o'))) ∨
    ∃ needed o₁ C b, (o₁ = o ∨ o.grow needed = some (.ok b.addr, o₁)) ∧
      o₁.shape.tracts = C.fill [b] ∧ answer = .ok (payloadOf b.addr) ∧
      o' = { o₁ with shape := .serve C b needed (o₁.shape.free.erase b.addr) } := by
  -- the block that is taken is where it was found
  have served : ∀ {o₁ : Outline σ} {x needed : Nat},
      (o₁.serve x needed).map (fun o => (Except.ok (payloadOf x), o)) = some (answer, o') →
      ∃ C b, b.addr = x ∧ o₁.shape.tracts = C.fill [b] ∧ answer = .ok (payloadOf b.addr) ∧
        o' = { o₁ with shape := .serve C b needed (o₁.shape.free.erase b.addr) } := by
    intro o₁ x needed h₁
    unfold Outline.serve at h₁
    rw [Option.map_map, Option.map_eq_some_iff] at h₁
    obtain ⟨⟨C, b⟩, hat, heq⟩ := h₁
    obtain ⟨htracts, rfl⟩ := Context.at?_eq_some hat
    cases heq
    exact ⟨C, b, rfl, htracts, rfl, rfl⟩
  unfold Outline.allocate at h
  split at h
  · cases h
    exact .inl ⟨_, rfl, .inl rfl⟩
  · rename_i needed _
    split at h
    · obtain ⟨C, b, -, hserve⟩ := served h
      exact .inr ⟨needed, o, C, b, .inl rfl, hserve⟩
    · split at h
      · nomatch h
      · rename_i e o₁ hgrow
        cases h
        exact .inl ⟨_, rfl, .inr ⟨needed, hgrow⟩⟩
      · rename_i x o₁ hgrow
        obtain ⟨C, b, rfl, hserve⟩ := served h
        exact .inr ⟨needed, o₁, C, b, .inr hgrow, hserve⟩

/-- From the shape `A` of `w` to the shape `A'` of `w'` the block `d` was taken into use, which has
a payload of at least `needed` bytes and not so much more that it could have been split. -/
structure World.Serves (w : World σ) (A : Shape) (needed : Nat) (d : Block) (w' : World σ)
    (A' : Shape) : Prop where
  has : w'.Has A'
  settled : A'.Settled
  uses : ∀ c, A'.Uses c ↔ c = d ∨ A.Uses c
  fresh : ∀ c, A.Uses c → c ≠ d
  room : needed + 32 ≤ d.span
  slack : d.span ≤ needed + 64
  payloads : ∀ c, A.Uses c → w.memory.SamePayload w'.memory c
  spans : ∀ a, A.Spans a → A'.Spans a
  changes : Memory.ChangesOnly A'.Spans w.memory w'.memory

/-- What is served from a new region is served from the heap that grew by it. -/
theorem World.Serves.of_grown (h : w₁.Serves (A.grown r) needed d w' A')
    (hchange : Memory.ChangesOnly (A.grown r).Reserved w.memory w₁.memory) :
    w.Serves A needed d w' A' where
  has := h.has
  settled := h.settled
  uses c := (h.uses c).trans (or_congr_right Shape.uses_grown_iff)
  fresh c hc := h.fresh c (Shape.uses_grown_iff.mpr hc)
  room := h.room
  slack := h.slack
  payloads c hc := ((Shape.uses_grown_iff.mpr hc).samePayload hchange).trans
    (h.payloads c (Shape.uses_grown_iff.mpr hc))
  spans a ha := h.spans a (Shape.spans_grown ha)
  changes := (hchange.mono fun a ha => h.spans a ha.1).trans h.changes

namespace Shape

/-- Taking a free block into use leaves the heap settled, since its neighbours were allocated. -/
theorem Settled.serve (hs : Settled ⟨C.fill [b], L⟩) (hfree : b.tag = .free)
    (hs' : Sound (.serve C b needed (L.erase b.addr))) :
    Settled (.serve C b needed (L.erase b.addr)) := by
  have hp := hs.laid.placed_single
  obtain ⟨-, hothers⟩ := complete_fill_iff.mp hs.complete
  obtain ⟨haround, hprevious, hnext⟩ := coalesced_fill_iff.mp hs.coalesced
  have hlisted : ∀ c ∈ C.others, c.tag = .free → c.addr ∈ L.erase b.addr := by
    intro c hc htag
    have hroom := hp.bounds.2.1
    have hcb : c.addr ≠ b.addr := hp.addr_ne hc (Nat.le_refl _) (by omega)
    exact (List.mem_erase_of_ne hcb).mpr (hothers c hc htag)
  refine ⟨hs', ?_, ?_⟩ <;> unfold Shape.serve <;> split
  · refine complete_fill_iff.mpr ⟨fun c hc htag => ?_, fun c hc htag =>
      List.mem_cons_of_mem _ (hlisted c hc htag)⟩
    rcases List.mem_pair.mp hc with rfl | rfl
    · nomatch htag
    · exact List.mem_cons_self
  · exact complete_fill_iff.mpr ⟨List.forall_mem_singleton.mpr nofun, hlisted⟩
  · rw [Context.fill_cons]
    refine coalesced_fill_iff.mpr ⟨⟨haround.elsewhere, haround.left, ?_⟩,
      fun _ _ => .of_right rfl, fun _ _ => .of_left rfl⟩
    exact List.isChain_cons.mpr ⟨fun y hy => .of_right ((hnext y hy).right hfree), haround.right⟩
  · exact coalesced_fill_iff.mpr ⟨haround, fun _ _ => .of_right rfl, fun _ _ => .of_left rfl⟩

theorem uses_serve_iff (hfree : b.tag = .free) :
    Uses (.serve C b needed L) c ↔
      c = (if needed + 64 < b.span then b.front needed .allocated
        else { b with tag := .allocated }) ∨ Uses ⟨C.fill [b], L⟩ c := by
  rw [uses_fill_iff (List.forall_mem_singleton.mpr hfree)]
  unfold Shape.serve Uses blocks
  split <;> rw [Context.mem_blocksOf_fill]
  · rw [List.mem_pair]
    constructor
    · rintro ⟨(rfl | rfl) | hc, htag⟩
      · exact .inl rfl
      · nomatch htag
      · exact .inr ⟨hc, htag⟩
    · rintro (rfl | ⟨hc, htag⟩)
      · exact ⟨.inl (.inl rfl), rfl⟩
      · exact ⟨.inr hc, htag⟩
  · rw [List.mem_singleton]
    constructor
    · rintro ⟨rfl | hc, htag⟩
      · exact .inl rfl
      · exact .inr ⟨hc, htag⟩
    · rintro (rfl | ⟨hc, htag⟩)
      · exact ⟨.inl rfl, rfl⟩
      · exact ⟨.inr hc, htag⟩

theorem spans_serve (h : Spans ⟨C.fill [b], L⟩ x) (L' : List Nat) :
    Spans (.serve C b needed L') x := by
  unfold Shape.serve
  split <;> exact spans_fill _ _ h

/-- A block that fits a request is free and long enough. -/
theorem Sound.fit (hs : A.Sound) (hx : A.fit? needed = some x) :
    ∃ b ∈ A.blocks, b.addr = x ∧ b.tag = .free ∧ needed + 32 ≤ b.span := by
  obtain ⟨b, hb, rfl, hfree⟩ := hs.listed x (List.mem_of_find?_eq_some hx)
  have hlong := List.find?_some hx
  obtain ⟨ts, L⟩ := A
  obtain ⟨C, rfl⟩ := Context.exists_of_mem hb
  rw [hs.laid.at?_eq] at hlong
  exact ⟨b, hb, rfl, hfree, of_decide_eq_true hlong⟩

/-- The place of the block that a new region consists of. -/
def lastPlace (A : Shape) (r : Region) : Context := ⟨A.tracts, r, [], [], []⟩

theorem tracts_grown :
    (A.grown r).tracts = (A.lastPlace r).fill [⟨r.base, r.size - 32, .free⟩] := rfl

/-- A new region is the first choice for the request that it was mapped for. -/
theorem Sound.fit?_grown (hs : (A.grown r).Sound) (hroom : needed + 64 ≤ r.size) :
    (A.grown r).fit? needed = some r.base := by
  have hat := hs.laid
  rw [tracts_grown] at hat
  unfold fit?
  rw [tracts_grown, show (A.grown r).free = r.base :: A.free from rfl, List.find?_cons,
    show Context.at? _ r.base = _ from hat.at?_eq]
  have hlong : needed + 32 ≤ r.size - 32 := by omega
  simp [hlong]

end Shape

/-- What fits a request is what has a header that says so. -/
theorem World.Has.find?_eq (H : w.Has A) (needed : Nat) :
    A.free.find? (fun x => needed + headerSize ≤ w.memory.forward x) = A.fit? needed := by
  refine List.find?_congr fun x hx => ?_
  obtain ⟨b, hb, rfl, -⟩ := H.sound.listed x hx
  have hforward := (H.marked hb).forward
  obtain ⟨ts, L⟩ := A
  obtain ⟨C, rfl⟩ := Context.exists_of_mem hb
  rw [H.sound.laid.at?_eq, hforward]
  rfl

namespace HeapM

theorem place_serves (H : w.Has A) (hs : A.Settled) (hb : b ∈ A.blocks) (hfree : b.tag = .free)
    (hal : needed % 16 = 0) (hmin : 16 ≤ needed) (hfit : needed + 32 ≤ b.span) :
    ∃ d w' A', place b.addr needed w = .ok (payloadOf b.addr) w' ∧ w.Serves A needed d w' A' ∧
      d.addr = b.addr ∧ (w.outline A).serve b.addr needed = some (w'.outline A') := by
  obtain ⟨ts, L⟩ := A
  obtain ⟨C, rfl⟩ := Context.exists_of_mem hb
  obtain ⟨w', hrun, H', he⟩ := place_run H (hs.complete b hb hfree) hfree hal hmin hfit
  let d : Block := if needed + 64 < b.span then b.front needed .allocated
    else { b with tag := .allocated }
  have haddr : d.addr = b.addr := by
    show Block.addr (if _ then _ else _) = _
    split <;> rfl
  refine ⟨d, w', _, hrun, ⟨H', hs.serve hfree H'.sound, fun c => ?_, fun c hc hcd => ?_, ?_, ?_,
    fun c hc => hc.samePayload he.memory, fun a ha => Shape.spans_serve ha _,
    he.memory.mono fun a ha => Shape.spans_serve ha.1 _⟩, haddr, ?_⟩
  · rw [Shape.uses_serve_iff hfree]
    exact Iff.rfl
  · have hcb : c = b := H.sound.laid.eq_of_addr hc.1 hb (hcd ▸ haddr)
    have htag := hc.2
    rw [hcb, hfree] at htag
    nomatch htag
  · show needed + 32 ≤ Block.span (if _ then _ else _)
    split
    · exact Nat.le_refl _
    · exact hfit
  · show Block.span (if _ then _ else _) ≤ needed + 64
    split
    · unfold Block.front
      dsimp only
      omega
    · dsimp only
      omega
  · unfold Outline.serve
    rw [he.outline ⟨C.fill [b], L⟩]
    show Option.map _ (Context.at? (C.fill [b]) b.addr) = _
    rw [H.sound.laid.at?_eq]
    rfl

/-- Once a block is found, the request is served. -/
theorem place_found (H : w.Has A) (hs : A.Settled) (hb : b ∈ A.blocks) (hfree : b.tag = .free)
    (hfit : servedSize size + 32 ≤ b.span) : ∃ d w' A',
    (do
      let payload ← place b.addr (servedSize size)
      emit (.allocated size payload)
      checkAfter .allocate
      return .ok payload : HeapM σ (Except AllocError Nat)) w = .ok (.ok (payloadOf b.addr)) w' ∧
    w.Serves A (servedSize size) d w' A' ∧ d.addr = b.addr ∧
      (w.outline A).serve b.addr (servedSize size) = some (w'.outline A') := by
  obtain ⟨d, w₁, A₁, hplace, h₁, haddr, hout⟩ :=
    place_serves H hs hb hfree (servedSize_mod size) (minPayload_le_servedSize size) hfit
  have H₂ := h₁.has.logged (w₁.log ++ [.allocated size (payloadOf b.addr)])
  refine ⟨d, _, A₁, ?_, ⟨H₂, h₁.settled, h₁.uses, h₁.fresh, h₁.room, h₁.slack, h₁.payloads,
    h₁.spans, h₁.changes⟩, haddr, hout⟩
  rw [run_bind_ok hplace, emit_bind, run_bind_ok (checkAfter_run H₂ h₁.settled .allocate)]
  rfl

/-- First fit goes by the spans of the listed blocks. -/
theorem firstFit_run (H : w.Has A) (needed : Nat) :
    inspect (w.heap.free.firstFit? · needed) w = .ok (A.fit? needed) w := by
  have hlist := H.sound.listable H.inMemory
  rw [H.free, ← H.find?_eq]
  refine run_inspect_ok (FreeList.firstFitFrom_run hlist H.inMemory.linked
    (FreeList.length_le_maxLength hlist) needed fun x hx => ?_)
  obtain ⟨b, hb, rfl, -⟩ := H.sound.listed x hx
  obtain ⟨-, -, -, -, hroom⟩ := H.block_sound hb
  rw [(H.marked hb).forward]
  unfold headerSize
  omega

/-- A region that was mapped for a request serves it. -/
theorem place_grown (H : w.Has (A.grown r)) (hs : A.Settled)
    (hroom : servedSize size + 64 ≤ r.size) : ∃ d w' A',
    (do
      let payload ← place r.base (servedSize size)
      emit (.allocated size payload)
      checkAfter .allocate
      return .ok payload : HeapM σ (Except AllocError Nat)) w = .ok (.ok (payloadOf r.base)) w' ∧
    w.Serves (A.grown r) (servedSize size) d w' A' ∧ d.addr = r.base ∧
      (w.outline (A.grown r)).serve r.base (servedSize size) = some (w'.outline A') :=
  place_found (b := ⟨r.base, r.size - 32, .free⟩) H (hs.grown H.sound) Shape.mem_blocks_grown rfl
    (by dsimp only; omega)

variable [Source σ]

theorem findBlock_found (H : w.Has A) (hx : A.fit? needed = some x) :
    findBlock size needed w = .ok (.ok x) w := by
  unfold findBlock
  rw [heap_bind, run_bind_ok (firstFit_run H needed), hx]
  rfl

/-- Where no listed block fits the request, the heap has to grow. -/
theorem findBlock_eq_grow (H : w.Has A) (hfit : A.fit? needed = none) :
    findBlock size needed w = (do
      match ← grow needed with
      | .error e => return .error e
      | .ok b =>
        if (← inspect (·.payloadSize b)) < needed then return .error (.outOfMemory size)
        return .ok b : HeapM σ (Except AllocError Nat)) w := by
  have hfirst := firstFit_run H needed
  rw [hfit] at hfirst
  unfold findBlock
  rw [heap_bind]
  exact (run_bind_ok hfirst).trans rfl

theorem findBlock_grown (H : w.Has A) (hfit : A.fit? needed = none)
    (hrun : grow needed w = .ok (.ok r.base) w₁) (H₁ : w₁.Has (A.grown r))
    (hroom : needed + 64 ≤ r.size) : findBlock size needed w = .ok (.ok r.base) w₁ := by
  have hblank := Shape.mem_blocks_grown (A := A) (r := r)
  obtain ⟨-, -, -, -, hspan⟩ := H₁.block_sound hblank
  have hsize := (H₁.marked hblank).payloadSize_eq hspan
  rw [findBlock_eq_grow H hfit, run_bind_ok hrun]
  dsimp only
  rw [run_bind_ok (run_inspect_ok hsize), if_neg (by dsimp only; omega)]
  rfl

/-- A request to a heap in order is answered with an error that changes no block, or is served; a
fault means that the regions mapped so far can no longer be counted. -/
theorem allocate_run (hc : Source.Contract After) (hb : w.heap.Booked After cs) (H : w.Has A)
    (hs : A.Settled) (size : Nat) :
    (∃ e w', allocate size w = .ok (.error e) w' ∧ w'.Has A ∧ w'.memory = w.memory ∧
      (w.outline A).allocate size = some (.error e, w'.outline A)) ∨
    (∃ d w' A', allocate size w = .ok (.ok (payloadOf d.addr)) w' ∧
      w.Serves A (servedSize size) d w' A' ∧
      (w.outline A).allocate size = some (.ok (payloadOf d.addr), w'.outline A')) ∨
    ∃ w' A', allocate size w = .error .addOverflow w' ∧ w'.Exhausted After ∧ w'.Holds A' ∧
      (∀ c, A'.Uses c ↔ A.Uses c) ∧ (w.outline A).allocate size = none := by
  unfold allocate Outline.allocate
  cases hround : roundRequest size with
  | none => exact .inl ⟨.sizeOverflow size, w, rfl, H, rfl, rfl⟩
  | some needed =>
  obtain ⟨-, rfl⟩ := roundRequest_eq_some_iff.mp hround
  have hmin := minPayload_le_servedSize size
  dsimp only
  rw [heap_bind, show (w.outline A).shape = A from rfl]
  have hempty : w.heap.free.isEmpty = A.free.isEmpty := by
    rw [H.free]
    cases A.free <;> rfl
  rw [hempty]
  cases hfit : A.fit? (servedSize size) with
  | some x =>
    have hne : ¬A.free.isEmpty = true := by
      have hx : x ∈ A.free := List.mem_of_find?_eq_some hfit
      cases hL : A.free with
      | nil => rw [hL] at hx; nomatch hx
      | cons => exact Bool.false_ne_true
    obtain ⟨b, hmem, rfl, hfree, hlong⟩ := H.sound.fit hfit
    obtain ⟨d, w', A', hrun, hserve, haddr, hout⟩ := place_found H hs hmem hfree hlong
    rw [if_neg hne, run_bind_ok (findBlock_found H hfit)]
    refine .inr (.inl ⟨d, w', A', ?_, hserve, ?_⟩)
    · rw [haddr]
      exact hrun
    · rw [haddr]
      dsimp only
      rw [hout]
      rfl
  | none =>
  dsimp only
  rcases grow_run hc hb H hs hmin with ⟨e, w', hrun, H', hmem, hout⟩ |
    ⟨r, w₁, hrun, hroom, H₁, hchange, hout⟩ | ⟨r, w', hrun, hexhausted, hholds, hout⟩
  · refine .inl ⟨e, w', ?_, H', hmem, by rw [hout]⟩
    split
    · exact (run_bind_ok hrun).trans rfl
    · have hfind : findBlock size (servedSize size) w = .ok (.error e) w' :=
        (findBlock_eq_grow H hfit).trans ((run_bind_ok hrun).trans rfl)
      exact (run_bind_ok hfind).trans rfl
  · obtain ⟨d, w', A', hplace, hserve, haddr, hout'⟩ := place_grown H₁ hs hroom
    refine .inr (.inl ⟨d, w', A', ?_, hserve.of_grown hchange, ?_⟩)
    · rw [haddr]
      split
      · rw [run_bind_ok hrun]
        dsimp only
        rw [run_bind_ok (findBlock_found H₁ (H₁.sound.fit?_grown hroom))]
        exact hplace
      · exact (run_bind_ok (findBlock_grown H hfit hrun H₁ hroom)).trans hplace
    · rw [hout, haddr]
      dsimp only
      rw [hout']
      rfl
  · refine .inr (.inr ⟨w', _, ?_, hexhausted, hholds, fun _ => Shape.uses_grown_iff, by rw [hout]⟩)
    split
    · exact run_bind_error hrun
    · exact run_bind_error ((findBlock_eq_grow H hfit).trans (run_bind_error hrun))

end HeapM

end BoundaryTag
