import BoundaryTag.Proofs.Dialogues

/-!
# Charts

A chart says where each region of a heap is in another heap (`Chart`): it keeps distances within a
region, and whatever it relates is at the same distance from the base of the same mapping. Two
heaps whose outlines are related by a chart (`Outline.Mirrors`) stay so when both are asked for the
same and their sources answer alike: a region that is mapped is added to the chart.
-/

namespace BoundaryTag

/-- Where the regions `rs` are in another heap, after the calls `cs` there were the calls `cs'`
here. Bases are as `Q` says. -/
structure Chart (Q : Nat → Nat → Prop) (f : Nat → Nat) (rs : List Region) (cs cs' : List Call) :
    Prop where
  positive : ∀ r ∈ rs, 0 < r.size
  rigid : ∀ r ∈ rs, ∀ n, n < r.size → f (r.base + n) = f r.base + n
  bases : ∀ r ∈ rs, Q r.base (f r.base)
  calls : List.Forall₂ (Call.Like Q) cs cs'
  located : ∀ r ∈ rs, ∀ n, n < r.size → ∃ q, Call.position? cs (r.base + n) = some q ∧
    Call.position? cs' (f r.base + n) = some q

/-- The range `r` goes to `base`, and all else where `f` says. -/
def relocate (f : Nat → Nat) (r : Region) (base : Nat) (a : Nat) : Nat :=
  if r.base ≤ a ∧ a < r.base + r.size then base + (a - r.base) else f a

section
variable {f : Nat → Nat} {r s : Region} {base a n : Nat}

theorem relocate_of_apart (h : s.Apart r) (hlo : s.base ≤ a) (hhi : a < s.base + s.size) :
    relocate f r base a = f a := by
  unfold Region.Apart at h
  exact if_neg (by omega)

theorem relocate_base_add (hn : n < r.size) : relocate f r base (r.base + n) = base + n := by
  unfold relocate
  rw [if_pos (by omega), Nat.add_sub_cancel_left]

end

namespace Chart

variable {Q : Nat → Nat → Prop} {f : Nat → Nat} {rs rs' : List Region} {cs cs' : List Call}
  {r : Region} {a base n size : Nat}

theorem subset (h : Chart Q f rs cs cs') (hsub : ∀ r ∈ rs', r ∈ rs) : Chart Q f rs' cs cs' where
  positive r hr := h.positive r (hsub r hr)
  rigid r hr := h.rigid r (hsub r hr)
  bases r hr := h.bases r (hsub r hr)
  calls := h.calls
  located r hr := h.located r (hsub r hr)

/-- Distances are kept from any address of a region on. -/
theorem move_add (h : Chart Q f rs cs cs') (hr : r ∈ rs) (hlo : r.base ≤ a)
    (hhi : a + n < r.base + r.size) : f (a + n) = f a + n := by
  obtain ⟨k, rfl⟩ := Nat.exists_eq_add_of_le hlo
  rw [Nat.add_assoc, h.rigid r hr (k + n) (by omega), h.rigid r hr k (by omega), Nat.add_assoc]

theorem terminator_move (h : Chart Q f rs cs cs') (hr : r ∈ rs) :
    f r.terminator = (r.move f).terminator := by
  have hpos := h.positive r hr
  exact h.rigid r hr _ (by unfold headerSize; omega)

theorem refused (h : Chart Q f rs cs cs') (size : Nat) :
    Chart Q f rs (.refused size :: cs) (.refused size :: cs') where
  positive := h.positive
  rigid := h.rigid
  bases := h.bases
  calls := .cons (.refused size) h.calls
  located := h.located

theorem unmapped (h : Chart Q f rs cs cs') (hr : r ∈ rs) :
    Chart Q f rs (.unmapped r :: cs) (.unmapped (r.move f) :: cs') where
  positive := h.positive
  rigid := h.rigid
  bases := h.bases
  calls := .cons (.unmapped r.size (h.bases r hr)) h.calls
  located := h.located

/-- A range that both sources have mapped is added to the chart. -/
theorem mapped (h : Chart Q f rs cs cs') (hQ : Q r.base base) (hapart : ∀ s ∈ rs, s.Apart r)
    (hapart' : ∀ s ∈ rs, (s.move f).Apart ⟨base, r.size⟩) (hpos : 0 < r.size) :
    Chart Q (relocate f r base) (rs ++ [r]) (.mapped r :: cs) (.mapped ⟨base, r.size⟩ :: cs') := by
  have hold : ∀ s ∈ rs, ∀ n, n < s.size → relocate f r base (s.base + n) = f s.base + n := by
    intro s hs n hn
    rw [relocate_of_apart (hapart s hs) (Nat.le_add_right _ _) (by omega), h.rigid s hs n hn]
  have hbase : ∀ s ∈ rs, relocate f r base s.base = f s.base := fun s hs =>
    hold s hs 0 (h.positive s hs)
  have hbase' : relocate f r base r.base = base := relocate_base_add hpos
  refine ⟨?_, ?_, ?_, .cons (.mapped r.size hQ) h.calls, ?_⟩ <;>
    refine List.forall_mem_append.mpr ⟨fun s hs => ?_, List.forall_mem_singleton.mpr ?_⟩
  · exact h.positive s hs
  · exact hpos
  · rw [hbase s hs]
    exact hold s hs
  · rw [hbase']
    exact fun n hn => relocate_base_add hn
  · rw [hbase s hs]
    exact h.bases s hs
  · rw [hbase']
    exact hQ
  · intro n hn
    obtain ⟨q, hq, hq'⟩ := h.located s hs n hn
    have hout := hapart s hs
    have hout' := hapart' s hs
    unfold Region.Apart at hout hout'
    unfold Region.move at hout'
    refine ⟨q, ?_, ?_⟩
    · rw [Call.position?, if_neg (by omega), hq]
    · rw [hbase s hs, Call.position?, if_neg (by dsimp only at hout' ⊢; omega), hq']
  · intro n hn
    refine ⟨(Call.maps cs, n), ?_, ?_⟩
    · rw [Call.position?, if_pos (by omega), Nat.add_sub_cancel_left]
    · rw [hbase', Call.position?, if_pos (by dsimp only; omega), Call.maps_eq h.calls]
      dsimp only
      rw [Nat.add_sub_cancel_left]

/-- Ranges that both sources are given back. -/
theorem unmapAll {σ τ : Type} [Source σ] [Source τ] (h : Chart Q f rs cs cs') (s : Recorder σ)
    (s' : Recorder τ) (hsub : ∀ r ∈ rs', r ∈ rs) (hs : s.calls = cs) (hs' : s'.calls = cs') :
    Chart Q f rs (Source.unmapAll s rs').calls
      (Source.unmapAll s' (rs'.map (Region.move f))).calls := by
  subst hs
  subst hs'
  induction rs' generalizing s s' with
  | nil => exact h
  | cons r rs' ih =>
    exact ih _ _ (fun q hq => hsub q (List.mem_cons_of_mem r hq))
      (h.unmapped (hsub r List.mem_cons_self))

end Chart

/-! ### Outlines -/

/-- The heap `o'` is the heap `o` at the places that `f` says. -/
structure Outline.Mirrors {σ τ : Type} (Q : Nat → Nat → Prop) (f : Nat → Nat)
    (o : Outline (Recorder σ)) (o' : Outline (Recorder τ)) : Prop where
  shape : o'.shape = o.shape.move f
  config : o'.config = o.config
  unmaps : o'.unmaps = o.unmaps
  chart : Chart Q f o.shape.regions o.source.calls o'.source.calls

/-- Growing starts with the size of the region, and ends there if none is due. -/
theorem Outline.size_of_grow {σ : Type} [Source σ] {o o₁ : Outline σ} {needed : Nat}
    {answer : Except AllocError Nat} (h : o.grow needed = some (answer, o₁)) :
    ∃ size? : Option Nat, BoundaryTag.regionSize (Source.pageSize o.source)
      (Region.totalSize o.shape.regions) o.config.maxRegionPages needed = .ok size? ∧
      (size? = none → answer = .error (.sizeOverflow needed) ∧ o₁ = o) := by
  unfold Outline.grow at h
  split at h
  · nomatch h
  · cases h
    exact ⟨none, ‹_›, fun _ => ⟨rfl, rfl⟩⟩
  · exact ⟨some _, ‹_›, nofun⟩

/-- Growing by a known size asks the source for it, and the answer is written down. -/
theorem Outline.grow_of_size {σ : Type} [Source σ] {o o₁ : Outline (Recorder σ)}
    {needed size : Nat} {answer : Except AllocError Nat}
    (hsize : BoundaryTag.regionSize (Source.pageSize o.source) (Region.totalSize o.shape.regions)
      o.config.maxRegionPages needed = .ok (some size))
    (h : o.grow needed = some (answer, o₁)) :
    (∃ cause source, source.calls = .refused size :: o.source.calls ∧
      answer = .error (.mapFailed size cause) ∧ o₁ = { o with source }) ∨
    ∃ base source, source.calls = .mapped ⟨base, size⟩ :: o.source.calls ∧ answer = .ok base ∧
      o₁ = { o with source, shape := o.shape.grown ⟨base, size⟩ } := by
  unfold Outline.grow at h
  rw [hsize] at h
  dsimp only at h
  split at h
  · rename_i base contents source hmap
    split at h
    · cases h
      exact .inr ⟨base, source, (Recorder.map_eq_mapped hmap).2, rfl, rfl⟩
    · nomatch h
  · rename_i cause source hmap
    cases h
    exact .inl ⟨cause, source, (Recorder.map_eq_refused hmap).2, rfl, rfl⟩
  · nomatch h

/-- A request that a listed block can serve is served from the first such block. -/
theorem Outline.allocate_of_fit {σ : Type} [Source σ] {o o₁ : Outline σ} {size needed x : Nat}
    {answer : Except AllocError Nat} (hround : roundRequest size = some needed)
    (hfit : o.shape.fit? needed = some x) (h : o.allocate size = some (answer, o₁)) :
    answer = .ok (payloadOf x) ∧ o.serve x needed = some o₁ := by
  unfold Outline.allocate at h
  rw [hround] at h
  dsimp only at h
  rw [hfit] at h
  obtain ⟨o₂, hserve, heq⟩ := Option.map_eq_some_iff.mp h
  cases heq
  exact ⟨rfl, hserve⟩

/-- A request that no listed block can serve is answered as growing is, or served from what was
grown. -/
theorem Outline.allocate_of_unfit {σ : Type} [Source σ] {o o₁ : Outline σ} {size needed : Nat}
    {answer : Except AllocError Nat} (hround : roundRequest size = some needed)
    (hfit : o.shape.fit? needed = none) (h : o.allocate size = some (answer, o₁)) :
    ∃ grown o₂, o.grow needed = some (grown, o₂) ∧ o₁.source = o₂.source ∧
      ((∃ e, grown = .error e ∧ answer = .error e ∧ o₁ = o₂) ∨
      ∃ x, grown = .ok x ∧ answer = .ok (payloadOf x) ∧ o₂.serve x needed = some o₁) := by
  unfold Outline.allocate at h
  rw [hround] at h
  dsimp only at h
  rw [hfit] at h
  dsimp only at h
  split at h
  · nomatch h
  · cases h
    exact ⟨_, _, ‹_›, rfl, .inl ⟨_, rfl, rfl, rfl⟩⟩
  · rename_i x o₂ hgrow
    obtain ⟨o₁, hserve, heq⟩ := Option.map_eq_some_iff.mp h
    cases heq
    refine ⟨_, o₂, hgrow, ?_, .inr ⟨x, rfl, rfl, hserve⟩⟩
    obtain ⟨_, -, rfl⟩ := Option.map_eq_some_iff.mp hserve
    rfl

namespace Outline.Mirrors

variable {σ τ : Type} [Source σ] [Source τ] {Q : Nat → Nat → Prop} {f : Nat → Nat}
  {o o₁ : Outline (Recorder σ)} {o' o₁' : Outline (Recorder τ)} {size needed x p : Nat} {b : Block}
  {answer answer' : Except AllocError Nat}

omit [Source σ] [Source τ] in
/-- The picture of the one heap is that of the other with its addresses moved. -/
theorem picture_eq (h : o.Mirrors Q f o') : o'.picture = o.picture.map f :=
  Outline.picture_move h.shape h.unmaps fun _ hr => h.chart.terminator_move hr

omit [Source σ] [Source τ] in
/-- A new region of the same size in both heaps. -/
theorem grown (h : o.Mirrors Q f o') (hs : o.shape.Sound) {r : Region} {base : Nat}
    {source : Recorder σ} {source' : Recorder τ} (hQ : Q r.base base)
    (hcalls : source.calls = .mapped r :: o.source.calls)
    (hcalls' : source'.calls = .mapped ⟨base, r.size⟩ :: o'.source.calls)
    (hs₁ : (o.shape.grown r).Sound) (hs₁' : (o'.shape.grown ⟨base, r.size⟩).Sound) :
    Mirrors Q (relocate f r base) { o with source, shape := o.shape.grown r }
      { o' with source := source', shape := o'.shape.grown ⟨base, r.size⟩ } ∧
    relocate f r base r.base = base ∧ ∀ a, o.shape.Spans a → relocate f r base a = f a := by
  have hblank : (Tract.blank r).Sound := hs₁.laid.sound _ (List.mem_append_right _ (by simp))
  have hpos : 0 < r.size := by
    have hroom : r.base + 48 ≤ r.terminator := hblank.tiles.lt hblank.nonempty
    have hend : r.terminator + 32 = r.base + r.size := hblank.terminator_add
    omega
  have hapart : ∀ s ∈ o.shape.regions, s.Apart r := fun s hs => hs₁.apart_of_grown hs
  have hapart' : ∀ s ∈ o.shape.regions, (s.move f).Apart ⟨base, r.size⟩ := fun s hs =>
    hs₁'.apart_of_grown (by rw [h.shape, Shape.regions_move]; exact List.mem_map_of_mem hs)
  have hsame : ∀ a, o.shape.Spans a → relocate f r base a = f a := by
    rintro a ⟨s, hs, hlo, hhi⟩
    exact relocate_of_apart (hapart s hs) hlo hhi
  have hbase : relocate f r base r.base = base := relocate_base_add (n := 0) hpos
  refine ⟨⟨?_, h.config, h.unmaps, ?_⟩, hbase, hsame⟩
  · show o'.shape.grown ⟨base, r.size⟩ = (o.shape.grown r).move (relocate f r base)
    rw [Shape.grown_move, Shape.move_congr hs hsame, h.shape]
    unfold Region.move
    rw [hbase]
  · show Chart Q _ (o.shape.grown r).regions source.calls source'.calls
    rw [Shape.regions_grown, hcalls, hcalls']
    exact h.chart.mapped hQ hapart hapart' hpos

/-- Both heaps grow, or neither. -/
theorem grow (h : o.Mirrors Q f o') (hs : o.shape.Sound)
    (hpage : Source.pageSize o.source = Source.pageSize o'.source)
    (hgrow : o.grow needed = some (answer, o₁)) (hgrow' : o'.grow needed = some (answer', o₁'))
    (halike : Call.Alike Q o₁.source.calls o₁'.source.calls) (hs₁ : o₁.shape.Sound)
    (hs₁' : o₁'.shape.Sound) :
    (∃ e e', answer = .error e ∧ answer' = .error e' ∧ e'.plain = e.plain ∧
      o₁.Mirrors Q f o₁') ∨
    ∃ x f₁, answer = .ok x ∧ answer' = .ok (f₁ x) ∧ o₁.Mirrors Q f₁ o₁' ∧
      ∀ a, o.shape.Spans a → f₁ a = f a := by
  have hsizes : BoundaryTag.regionSize (Source.pageSize o'.source)
      (Region.totalSize o'.shape.regions) o'.config.maxRegionPages needed =
      BoundaryTag.regionSize (Source.pageSize o.source) (Region.totalSize o.shape.regions)
        o.config.maxRegionPages needed := by
    rw [h.shape, Shape.regions_move, Region.totalSize_move, h.config, hpage]
  obtain ⟨size?, hsize, hnone⟩ := Outline.size_of_grow hgrow
  obtain ⟨size?', hsize', hnone'⟩ := Outline.size_of_grow hgrow'
  obtain rfl : size? = size?' := Except.ok.inj (hsize.symm.trans (hsizes.symm.trans hsize'))
  cases size? with
  | none =>
    obtain ⟨rfl, rfl⟩ := hnone rfl
    obtain ⟨rfl, rfl⟩ := hnone' rfl
    exact .inl ⟨_, _, rfl, rfl, rfl, h⟩
  | some size =>
  -- a request that one source refuses and the other serves is not answered alike
  rcases Outline.grow_of_size hsize hgrow with ⟨cause, source, hcalls, rfl, rfl⟩ |
    ⟨base, source, hcalls, rfl, rfl⟩ <;>
  rcases Outline.grow_of_size hsize' hgrow' with ⟨cause', source', hcalls', rfl, rfl⟩ |
    ⟨base', source', hcalls', rfl, rfl⟩ <;>
  dsimp only at halike <;> rw [hcalls, hcalls'] at halike
  · refine .inl ⟨_, _, rfl, rfl, rfl, ⟨h.shape, h.config, h.unmaps, ?_⟩⟩
    dsimp only
    rw [hcalls, hcalls']
    exact h.chart.refused size
  · nomatch halike.last h.chart.calls rfl rfl
  · nomatch halike.last h.chart.calls rfl rfl
  · obtain ⟨hQ⟩ : Option.Rel Q (some base) (some base') := halike.last h.chart.calls rfl rfl
    obtain ⟨hmirrors, hbase, hsame⟩ :=
      h.grown hs (r := ⟨base, size⟩) hQ hcalls hcalls' hs₁ hs₁'
    exact .inr ⟨base, _, rfl, by rw [hbase], hmirrors, hsame⟩

omit [Source σ] [Source τ] in
/-- Distances in a block are kept. -/
theorem move_add (h : o.Mirrors Q f o') (hs : o.shape.Sound) (hb : b ∈ o.shape.blocks) {n : Nat}
    (hn : n < b.span) : f (b.addr + n) = f b.addr + n := by
  obtain ⟨u, hu, hbu⟩ := mem_blocksOf.mp hb
  obtain ⟨hlo, hhi, -, -, -⟩ := (hs.laid.sound u hu).within hbu
  have hadd := (hs.laid.sound u hu).terminator_add
  exact h.chart.move_add (List.mem_map_of_mem hu) hlo (by omega)

omit [Source σ] [Source τ] in
theorem payload_move (h : o.Mirrors Q f o') (hs : o.shape.Sound) (hb : b ∈ o.shape.blocks) :
    f (payloadOf b.addr) = payloadOf (f b.addr) := by
  obtain ⟨-, -, -, -, hroom⟩ := hs.laid.sound_of_mem hb
  exact h.move_add hs hb (by unfold headerSize; omega)

omit [Source σ] [Source τ] in
/-- The same block is taken in both heaps. -/
theorem serve (h : o.Mirrors Q f o') (hs : o.shape.Sound) (hs' : o'.shape.Sound)
    (hserve : o.serve x needed = some o₁) : ∃ o₁', o'.serve (f x) needed = some o₁' ∧
      o₁.Mirrors Q f o₁' ∧ f (payloadOf x) = payloadOf (f x) := by
  obtain ⟨⟨C, b⟩, hat, rfl⟩ := Option.map_eq_some_iff.mp hserve
  have hlaid := hs'.laid
  rw [h.shape] at hlaid
  have hat' : Context.at? o'.shape.tracts (f x) = some (C.move f, b.move f) := by
    rw [h.shape]
    exact hlaid.at?_move hat
  obtain ⟨htracts, rfl⟩ := Context.at?_eq_some hat
  have hb : b ∈ o.shape.blocks := by
    show b ∈ blocksOf o.shape.tracts
    rw [htracts]
    exact Context.mem_blocksOf_fill.mpr (.inl List.mem_cons_self)
  have hfree : (o.shape.free.erase b.addr).map f = o'.shape.free.erase (f b.addr) := by
    rw [map_erase_of_inj fun x hx => hs.addr_of_move (h.shape ▸ hs') hx hb, h.shape]
    rfl
  have hrest : needed + 64 < b.span → f (b.addr + 32 + needed) = f b.addr + 32 + needed := by
    intro hcut
    rw [Nat.add_assoc, h.move_add hs hb (by omega), Nat.add_assoc]
  refine ⟨_, Option.map_eq_some_iff.mpr ⟨_, hat', rfl⟩, ⟨?_, h.config, h.unmaps, ?_⟩,
    h.payload_move hs hb⟩
  · dsimp only
    rw [Shape.serve_move hrest, hfree]
  · dsimp only
    rw [Shape.regions_serve htracts]
    exact h.chart

/-- The same requests are served, from the same blocks. -/
theorem allocate (h : o.Mirrors Q f o') (hs : o.shape.Sound) (hs' : o'.shape.Sound)
    (hpage : Source.pageSize o.source = Source.pageSize o'.source)
    (hgrown : ∀ needed answer o₁, 16 ≤ needed → o.grow needed = some (answer, o₁) →
      o₁.shape.Sound)
    (hgrown' : ∀ needed answer o₁, 16 ≤ needed → o'.grow needed = some (answer, o₁) →
      o₁.shape.Sound)
    (hallocate : o.allocate size = some (answer, o₁))
    (hallocate' : o'.allocate size = some (answer', o₁'))
    (halike : Call.Alike Q o₁.source.calls o₁'.source.calls) :
    (∃ e e', answer = .error e ∧ answer' = .error e' ∧ e'.plain = e.plain ∧
      o₁.Mirrors Q f o₁') ∨
    ∃ p f₁, answer = .ok p ∧ answer' = .ok (f₁ p) ∧ o₁.Mirrors Q f₁ o₁' ∧
      ∀ a, o.shape.Spans a → f₁ a = f a := by
  cases hround : roundRequest size with
  | none =>
    unfold Outline.allocate at hallocate hallocate'
    rw [hround] at hallocate hallocate'
    cases hallocate
    cases hallocate'
    exact .inl ⟨_, _, rfl, rfl, rfl, h⟩
  | some needed =>
  have hfit' : o'.shape.fit? needed = (o.shape.fit? needed).map f := by
    rw [h.shape]
    exact hs.fit?_move (h.shape ▸ hs')
  cases hfit : o.shape.fit? needed with
  | some x =>
    rw [hfit] at hfit'
    obtain ⟨rfl, hserve⟩ := Outline.allocate_of_fit hround hfit hallocate
    obtain ⟨rfl, hserve'⟩ := Outline.allocate_of_fit hround hfit' hallocate'
    obtain ⟨o₂', hserve₂, hmirrors, hpayload⟩ := h.serve hs hs' hserve
    cases hserve'.symm.trans hserve₂
    exact .inr ⟨_, f, rfl, by rw [hpayload], hmirrors, fun _ _ => rfl⟩
  | none =>
    rw [hfit] at hfit'
    have hmin : 16 ≤ needed := by
      obtain ⟨-, rfl⟩ := roundRequest_eq_some_iff.mp hround
      exact minPayload_le_servedSize size
    obtain ⟨grown, o₂, hgrow, hsource, hcases⟩ :=
      Outline.allocate_of_unfit hround hfit hallocate
    obtain ⟨grown', o₂', hgrow', hsource', hcases'⟩ :=
      Outline.allocate_of_unfit hround hfit' hallocate'
    rw [hsource, hsource'] at halike
    have hs₂ := hgrown needed grown o₂ hmin hgrow
    have hs₂' := hgrown' needed grown' o₂' hmin hgrow'
    rcases h.grow hs hpage hgrow hgrow' halike hs₂ hs₂' with
      ⟨e, e', rfl, rfl, hplain, hmirrors⟩ | ⟨x, f₁, rfl, rfl, hmirrors, hsame⟩
    · obtain ⟨_, heq, rfl, rfl⟩ | ⟨_, heq, -⟩ := hcases <;> cases heq
      obtain ⟨_, heq, rfl, rfl⟩ | ⟨_, heq, -⟩ := hcases' <;> cases heq
      exact .inl ⟨e, e', rfl, rfl, hplain, hmirrors⟩
    · obtain ⟨_, heq, -⟩ | ⟨_, heq, rfl, hserve⟩ := hcases <;> cases heq
      obtain ⟨_, heq, -⟩ | ⟨_, heq, rfl, hserve'⟩ := hcases' <;> cases heq
      obtain ⟨o₁', hserve₁, hmirrors₁, hpayload⟩ := hmirrors.serve hs₂ hs₂' hserve
      cases hserve'.symm.trans hserve₁
      exact .inr ⟨_, f₁, rfl, by rw [hpayload], hmirrors₁, hsame⟩

/-- The same region is given back, or none. -/
theorem reclaim (h : o.Mirrors Q f o') {t : Site} (hregions : t.shape.regions = o.shape.regions)
    (hinj : ∀ x ∈ t.free, f x = f t.block.addr → x = t.block.addr) :
    (o.reclaim t).Mirrors Q f (o'.reclaim (t.move f)) := by
  have hregion : t.context.region ∈ o.shape.regions := by
    rw [← hregions]
    exact List.mem_map_of_mem (f := Tract.region) (Context.mem_fill.mpr (.inl rfl))
  unfold Outline.reclaim
  rw [Site.isSole_move, h.config, show (t.move f).free.length = t.free.length from
    List.length_map _]
  split
  · refine ⟨?_, rfl, congrArg (· + 1) h.unmaps, ?_⟩
    · show Shape.mk ((t.context.move f).without ([t.block].map (Block.move f)))
        ((t.free.map f).erase (f t.block.addr)) = _
      rw [Context.without_move, ← map_erase_of_inj hinj]
      rfl
    · refine (h.chart.unmapped hregion).subset fun r hr => ?_
      rw [← hregions]
      exact ((t.context.perm_without [t.block]).map Tract.region).mem_iff.mp
        (List.mem_cons_of_mem _ hr)
  · refine ⟨Site.shape_move, rfl, h.unmaps, ?_⟩
    dsimp only
    rw [hregions]
    exact h.chart

omit [Source σ] [Source τ] in
/-- A released block is joined with the same neighbours. -/
theorem joined (h : o.Mirrors Q f o') (hs : o.shape.Sound) (hs' : o'.shape.Sound) {C : Context}
    {c : Block} {a : Nat} (hat : Context.at? o.shape.tracts a = some (C, c)) :
    (Site.freed (C.move f) (c.move f) (o.shape.free.map f)).joined =
        (Site.freed C c o.shape.free).joined.move f ∧
      ∀ x ∈ (Site.freed C c o.shape.free).joined.free,
        f x = f (Site.freed C c o.shape.free).joined.block.addr →
          x = (Site.freed C c o.shape.free).joined.block.addr := by
  rw [h.shape] at hs'
  obtain ⟨htracts, rfl⟩ := Context.at?_eq_some hat
  have hmem : ∀ {d}, d ∈ [c] ∨ d ∈ C.others → d ∈ o.shape.blocks := by
    intro d hd
    show d ∈ blocksOf o.shape.tracts
    rw [htracts]
    exact Context.mem_blocksOf_fill.mpr hd
  have hleft : ∀ d ∈ c :: C.left, d ∈ o.shape.blocks := by
    intro d hd
    rcases List.mem_cons.mp hd with rfl | hd
    · exact hmem (.inl List.mem_cons_self)
    · exact hmem (.inr (by simp [Context.others, hd]))
  have hright : ∀ d ∈ C.right, d ∈ o.shape.blocks := by
    intro d hd
    exact hmem (.inr (by simp [Context.others, hd]))
  -- all addresses that are told apart are those of blocks
  have hinj : ∀ d ∈ o.shape.blocks, ∀ x ∈ c.addr :: o.shape.free, f x = f d.addr → x = d.addr := by
    intro d hd x hx heq
    rcases List.mem_cons.mp hx with rfl | hx
    · exact hs'.laid.addr_of_move (hleft c List.mem_cons_self) hd heq
    · exact hs.addr_of_move hs' hx hd heq
  constructor
  · rw [← Site.freed_move]
    apply Site.joined_move
    · intro y hy
      exact hinj y (hright y hy)
    · exact hinj c (hleft c List.mem_cons_self)
  · intro x hx heq
    obtain ⟨d, hd, haddr⟩ := (Site.freed C c o.shape.free).addr_joined
    have hx' := (Site.freed C c o.shape.free).free_joined_subset hx
    rw [haddr] at heq ⊢
    rcases List.mem_cons.mp hd with rfl | hd
    · exact hinj c (hleft c List.mem_cons_self) x hx' heq
    · exact hinj d (hleft d (List.mem_cons_of_mem c hd)) x hx' heq

/-- The same block is released. -/
theorem release (h : o.Mirrors Q f o') (hs : o.shape.Sound) (hs' : o'.shape.Sound)
    (hrelease : o.release (payloadOf b.addr) = some o₁)
    (hrelease' : o'.release (payloadOf (f b.addr)) = some o₁') : o₁.Mirrors Q f o₁' := by
  unfold Outline.release at hrelease hrelease'
  rw [blockOf_payloadOf] at hrelease hrelease'
  obtain ⟨⟨C, c⟩, hat, rfl⟩ := Option.map_eq_some_iff.mp hrelease
  have hat' : Context.at? o'.shape.tracts (f b.addr) = some (C.move f, c.move f) := by
    rw [h.shape] at hs' ⊢
    exact hs'.laid.at?_move hat
  rw [hat'] at hrelease'
  cases hrelease'
  obtain ⟨hjoined, hinj⟩ := h.joined hs hs' hat
  obtain ⟨htracts, -⟩ := Context.at?_eq_some hat
  show (o.reclaim (Site.freed C c o.shape.free).joined).Mirrors Q f
    (o'.reclaim (Site.freed (C.move f) (c.move f) o'.shape.free).joined)
  rw [h.shape, show (o.shape.move f).free = o.shape.free.map f from rfl, hjoined]
  refine h.reclaim ?_ hinj
  rw [Site.regions_joined, Site.regions_freed, ← htracts]
  rfl

/-- Both heaps start over. -/
theorem reset (h : o.Mirrors Q f o') : o.reset.Mirrors Q f o'.reset where
  shape := rfl
  config := h.config
  unmaps := by
    show o'.unmaps + _ = o.unmaps + _
    rw [h.unmaps, h.shape, Shape.regions_move, List.length_map]
  chart := by
    have hcalls := h.chart.unmapAll o.source o'.source (fun _ hr => hr) rfl rfl
    rw [← Shape.regions_move, ← h.shape] at hcalls
    exact hcalls.subset nofun

end Outline.Mirrors

end BoundaryTag
