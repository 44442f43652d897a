import BoundaryTag.Proofs.Consistency

/-!
# Which regions stay mapped

A region is vacant if no block of it is in use, and in a settled heap it is one free block then. A
release is the only act that can leave a region vacant, and it asks the policy about this region at
once: what a policy sees to (`ReclaimPolicy.Keeps`) holds after every run, in whatever order blocks
are released. The policy decides by the length of the free list, which at that moment has an entry
for the region and for each other vacant one.
-/

namespace BoundaryTag

/-- All of the region is one free block. -/
def Memory.Vacant (m : Memory) (r : Region) : Prop :=
  m.Chain r.terminator r.base 0 [r.base] ∧ m.tag r.base = .free

/-- No block of the region is in use. -/
def Shape.Vacant (A : Shape) (r : Region) : Prop :=
  ∀ b, A.Uses b → ¬(r.base ≤ b.addr ∧ b.addr < r.base + r.size)

/-- What a policy sees to: which regions may be vacant. -/
def ReclaimPolicy.Keeps (A : Shape) : ReclaimPolicy → Prop
  | .always => ∀ r ∈ A.regions, ¬A.Vacant r
  | .keepLastFree => ∀ r ∈ A.regions, ∀ r' ∈ A.regions, A.Vacant r → A.Vacant r' → r = r'
  | .never => True

variable {σ : Type} {A A' : Shape} {b : Block} {r r' : Region} {policy : ReclaimPolicy} {t : Site}

/-- A policy is content if no region becomes vacant that was not. -/
theorem ReclaimPolicy.Keeps.of_vacant (h : policy.Keeps A)
    (hvacant : ∀ r ∈ A'.regions, A'.Vacant r → r ∈ A.regions ∧ A.Vacant r) : policy.Keeps A' := by
  cases policy with
  | always => exact fun r hr hv => h r (hvacant r hr hv).1 (hvacant r hr hv).2
  | keepLastFree =>
    intro r hr r' hr' hv hv'
    obtain ⟨hr, hv⟩ := hvacant r hr hv
    obtain ⟨hr', hv'⟩ := hvacant r' hr' hv'
    exact h r hr r' hr' hv hv'
  | never => trivial

/-! ### Vacant regions -/

namespace Shape

theorem Sound.regions_apart (hs : A.Sound) (hr : r ∈ A.regions) (hr' : r' ∈ A.regions)
    (hne : r ≠ r') : r.Apart r' := by
  obtain ⟨t, ht, rfl⟩ := List.mem_map.mp hr
  obtain ⟨u, hu, rfl⟩ := List.mem_map.mp hr'
  exact hs.laid.apart.forall ht hu fun htu => hne (congrArg Tract.region htu)

theorem Sound.nodup_regions (hs : A.Sound) : A.regions.Nodup := by
  refine Region.nodup_of_apart (fun r hr => ?_) (List.pairwise_map.mpr hs.laid.apart)
  obtain ⟨t, ht, rfl⟩ := List.mem_map.mp hr
  have hadd := (hs.laid.sound t ht).terminator_add
  have hle := (hs.laid.sound t ht).tiles.le
  omega

theorem Sound.length_regions_le_one (hs : A.Sound)
    (h : ∀ r ∈ A.regions, ∀ r' ∈ A.regions, r = r') : A.regions.length ≤ 1 := by
  have hnodup := hs.nodup_regions
  match hregions : A.regions with
  | [] | [_] => simp
  | r :: r' :: rs =>
    rw [hregions] at h hnodup
    have heq : r = r' := h r List.mem_cons_self r' (by simp)
    exact absurd (heq ▸ List.mem_cons_self) (List.nodup_cons.mp hnodup).1

/-- The blocks of a vacant region are free. -/
theorem Vacant.free (h : A.Vacant r) (hs : A.Sound) {u : Tract} (hu : u ∈ A.tracts)
    (hur : u.region = r) (hb : b ∈ u.blocks) : b.tag = .free := by
  subst hur
  have hin := (hs.laid.sound u hu).addr_mem hb
  cases htag : b.tag with
  | free => rfl
  | allocated => exact absurd hin (h b ⟨mem_blocksOf.mpr ⟨u, hu, hb⟩, htag⟩)

/-- A vacant region of a settled heap is one block. -/
theorem Vacant.single (h : A.Vacant r) (hs : A.Settled) {u : Tract} (hu : u ∈ A.tracts)
    (hur : u.region = r) : ∃ b, u.blocks = [b] := by
  have hfree := fun b => h.free hs.toSound hu hur (b := b)
  have hchain := hs.coalesced u hu
  have hne := (hs.laid.sound u hu).nonempty
  cases hblocks : u.blocks with
  | nil => exact absurd hblocks hne
  | cons b bs =>
    cases bs with
    | nil => exact ⟨b, rfl⟩
    | cons c cs =>
      rw [hblocks] at hchain hfree
      have hparted : Parted b c := (List.isChain_cons_cons.mp hchain).1
      exact absurd ⟨hfree b List.mem_cons_self, hfree c (by simp)⟩ hparted

theorem vacant_of_memory {w : World σ} (H : w.Has A) (hr : r ∈ A.regions)
    (h : w.memory.Vacant r) (hs : A.Settled) : A.Vacant r := by
  obtain ⟨u, hu, rfl⟩ := List.mem_map.mp hr
  obtain ⟨hchain, htag⟩ := h
  have hblocks := (H.holds hs).chain hu
  have haddrs := hblocks.unique hchain
  intro b hb hin
  obtain ⟨v, hv, hbv⟩ := mem_blocksOf.mp hb.1
  have hbu : b ∈ u.blocks := hs.laid.eq_of_base_le hu hv hbv hin.1 hin.2 ▸ hbv
  have haddr : b.addr ∈ u.blocks.map Block.addr := List.mem_map_of_mem hbu
  rw [haddrs, List.mem_singleton] at haddr
  have hfree := (H.holds hs).tag_eq hb.1
  rw [haddr, htag, hb.2] at hfree
  nomatch hfree

/-- Where nothing is in use, every region has one entry on the free list. -/
theorem Settled.length_free (hs : A.Settled) (hnone : ∀ b, ¬A.Uses b) :
    A.free.length = A.regions.length := by
  have hvacant : ∀ r, A.Vacant r := fun r b hb => absurd hb (hnone b)
  have hperm : A.free.Perm (A.blocks.map Block.addr) := by
    refine (List.perm_ext_iff_of_nodup hs.nodup hs.laid.nodup_addr).mpr fun x => ?_
    constructor
    · intro hx
      obtain ⟨b, hb, rfl, -⟩ := hs.listed x hx
      exact List.mem_map_of_mem hb
    · intro hx
      obtain ⟨b, hb, rfl⟩ := List.mem_map.mp hx
      obtain ⟨u, hu, hbu⟩ := mem_blocksOf.mp hb
      exact hs.complete b hb ((hvacant u.region).free hs.toSound hu rfl hbu)
  have hone : ∀ u ∈ A.tracts, u.blocks.length = 1 := by
    intro u hu
    obtain ⟨b, hb⟩ := (hvacant u.region).single hs hu rfl
    rw [hb]
    rfl
  calc A.free.length
    _ = (A.tracts.flatMap Tract.blocks).length := by
      rw [hperm.length_eq, List.length_map]
      rfl
    _ = (A.tracts.map fun u => u.blocks.length).sum := List.length_flatMap
    _ = (A.tracts.map fun _ => 1).sum := by rw [List.map_congr_left hone]
    _ = A.regions.length := by simp [regions]

end Shape

/-! ### Taking a block into use -/

namespace Outline

variable [Source σ] {o o' : Outline σ} {size p : Nat} {e : AllocError}

/-- Where a request is served, a new region is the one that serves it. -/
theorem regions_of_allocate (h : o.allocate size = some (.ok p, o')) :
    o'.shape.regions = o.shape.regions ∨
      ∃ r, o'.shape.regions = o.shape.regions ++ [r] ∧ p = payloadOf r.base := by
  rcases allocate_cases h with ⟨e, hanswer, -⟩ |
    ⟨needed, o₁, C, b, hgrow, htracts, hanswer, rfl⟩
  · nomatch hanswer
  rw [show Shape.regions (.serve C b needed (o₁.shape.free.erase b.addr)) = _ from
    Shape.regions_serve htracts]
  rcases hgrow with rfl | hgrow
  · exact .inl rfl
  rcases grow_cases hgrow with ⟨hanswer', -⟩ | ⟨_, _, _, -, hanswer', -⟩ |
    ⟨r, _, _, -, hanswer', rfl⟩
  · nomatch hanswer'
  · nomatch hanswer'
  · cases hanswer
    refine .inr ⟨r, Shape.regions_grown, ?_⟩
    rw [Except.ok.inj hanswer']

theorem of_allocate_error (h : o.allocate size = some (.error e, o')) :
    o'.shape = o.shape ∧ o'.unmaps = o.unmaps := by
  rcases allocate_cases h with ⟨e', -, rfl | ⟨needed, hgrow⟩⟩ | ⟨_, _, _, _, -, -, hanswer, -⟩
  · exact ⟨rfl, rfl⟩
  · rcases grow_cases hgrow with ⟨-, rfl⟩ | ⟨_, _, _, -, -, rfl⟩ | ⟨_, _, _, -, hanswer, -⟩
    · exact ⟨rfl, rfl⟩
    · exact ⟨rfl, rfl⟩
    · nomatch hanswer
  · nomatch hanswer

end Outline

/-! ### Taking a block out of use -/

namespace Site

/-- The region of the site, with all its blocks. -/
def tract (t : Site) : Tract := ⟨t.context.region, t.context.left ++ [t.block] ++ t.context.right⟩

theorem mem_tracts : t.tract ∈ t.shape.tracts := Context.mem_fill.mpr (.inl rfl)

/-- Between allocated blocks a block is all of its region or has one of them as a neighbour. -/
theorem exists_allocated (hleft : ∀ x ∈ t.context.left.getLast?, x.tag = .allocated)
    (hright : ∀ y ∈ t.context.right.head?, y.tag = .allocated) (hsole : t.isSole = false) :
    ∃ x ∈ t.tract.blocks, x.tag = .allocated := by
  unfold tract
  rcases t.context.left.eq_nil_or_concat' with hnil | ⟨xs, x, hconcat⟩
  · cases hcons : t.context.right with
    | nil =>
      unfold isSole at hsole
      rw [hnil, hcons] at hsole
      nomatch hsole
    | cons y ys => exact ⟨y, by simp, hright y (by rw [hcons]; rfl)⟩
  · exact ⟨x, by simp [hconcat], hleft x (by rw [hconcat, List.getLast?_concat]; rfl)⟩

end Site

/-- The site `t` is what becomes of the block `b` of the shape `A` once it is free. -/
structure Site.Frees (t : Site) (A : Shape) (b : Block) : Prop where
  uses : A.Uses b
  inside : t.context.region.base ≤ b.addr ∧
    b.addr < t.context.region.base + t.context.region.size
  regions : t.shape.regions = A.regions
  free : t.block.tag = .free
  left : ∀ x ∈ t.context.left.getLast?, x.tag = .allocated
  right : ∀ y ∈ t.context.right.head?, y.tag = .allocated

theorem Site.frees_freed {C : Context} {L : List Nat} (hs : Shape.Settled ⟨C.fill [b], L⟩)
    (hb : b.tag = .allocated) : (Site.freed C b L).joined.Frees ⟨C.fill [b], L⟩ b where
  uses := ⟨Context.mem_blocksOf_fill.mpr (.inl List.mem_cons_self), hb⟩
  inside := by
    rw [Site.joined_context]
    obtain ⟨hlo, hroom, hhi, hterm, -⟩ := hs.laid.placed_single.bounds
    exact ⟨hlo, show b.addr < C.region.base + C.region.size by omega⟩
  regions := (Site.regions_joined _).trans (Site.regions_freed C b L)
  free := Site.joined_tag rfl
  left := (Site.joined_between (Shape.coalesced_fill_iff.mp hs.coalesced).1).1
  right := (Site.joined_between (Shape.coalesced_fill_iff.mp hs.coalesced).1).2

/-- A release frees a block in use, and asks the policy about its region. -/
theorem Outline.release_cases [Source σ] {o o' : Outline σ} (hs : o.shape.Settled)
    (hb : o.shape.Uses b) (h : o.release (payloadOf b.addr) = some o') :
    ∃ t : Site, t.Frees o.shape b ∧ o' = o.reclaim t := by
  obtain ⟨config, source, ⟨ts, L⟩, unmaps⟩ := o
  obtain ⟨C, rfl⟩ := Context.exists_of_mem hb.1
  unfold Outline.release at h
  rw [blockOf_payloadOf, show Context.at? _ b.addr = _ from hs.laid.at?_eq] at h
  exact ⟨_, Site.frees_freed hs hb.2, (Option.some.inj h).symm⟩

namespace Site.Frees

/-- Of the regions that stay, at most that of the freed block becomes vacant. -/
theorem vacant_of_uses (h : t.Frees A b) (hs : A.Sound) (hr : r ∈ A.regions)
    (hne : r ≠ t.context.region) (huses : ∀ c, A.Uses c → c ≠ b → A'.Uses c)
    (hvacant : A'.Vacant r) : A.Vacant r := by
  intro c hc hin
  by_cases hcb : c = b
  · subst hcb
    have hregion : t.context.region ∈ A.regions := by
      rw [← h.regions]
      exact List.mem_map_of_mem Site.mem_tracts
    have hapart := hs.regions_apart hr hregion hne
    have hinside := h.inside
    unfold Region.Apart at hapart
    omega
  · exact hvacant c (huses c hc hcb) hin

/-- If the region of the freed block stays, it becomes vacant only where the block is all of it. -/
theorem isSole_of_vacant (h : t.Frees A b) (hs : t.shape.Sound)
    (hvacant : t.shape.Vacant t.context.region) : t.isSole = true := by
  by_contra hsole
  obtain ⟨x, hx, htag⟩ := Site.exists_allocated h.left h.right (Bool.eq_false_iff.mpr hsole)
  have hfree := hvacant.free hs Site.mem_tracts rfl hx
  rw [hfree] at htag
  nomatch htag

/-- If the freed block is alone on the free list, no other region is vacant. -/
theorem eq_region_of_vacant (h : t.Frees A b) (hs : t.shape.Settled)
    (hlength : ¬1 < t.free.length) (hr : r ∈ t.shape.regions) (hvacant : t.shape.Vacant r) :
    r = t.context.region := by
  obtain ⟨u, hu, rfl⟩ := List.mem_map.mp hr
  obtain ⟨c, hc⟩ := hvacant.single hs hu rfl
  have hcu : c ∈ u.blocks := hc ▸ List.mem_singleton.mpr rfl
  have hbt : t.block ∈ t.tract.blocks := by simp [Site.tract]
  have hcmem : c ∈ t.shape.blocks := mem_blocksOf.mpr ⟨u, hu, hcu⟩
  have hbmem : t.block ∈ t.shape.blocks := mem_blocksOf.mpr ⟨_, Site.mem_tracts, hbt⟩
  have hclisted : c.addr ∈ t.free := hs.complete c hcmem (hvacant.free hs.toSound hu rfl hcu)
  have hblisted : t.block.addr ∈ t.free := hs.complete _ hbmem h.free
  have haddr : c.addr = t.block.addr := by
    cases hL : t.free with
    | nil =>
      rw [hL] at hblisted
      nomatch hblisted
    | cons x xs =>
      rw [hL] at hlength hblisted hclisted
      have hnil : xs = [] := by
        apply List.eq_nil_of_length_eq_zero
        rw [List.length_cons] at hlength
        omega
      rw [hnil] at hblisted hclisted
      rw [List.mem_singleton.mp hclisted, List.mem_singleton.mp hblisted]
  obtain rfl : c = t.block := hs.laid.eq_of_addr hcmem hbmem haddr
  have hin := (hs.laid.sound u hu).addr_mem hcu
  exact congrArg Tract.region (hs.laid.eq_of_base_le hu Site.mem_tracts hbt hin.1 hin.2)

end Site.Frees

/-- A release leaves the policy content. -/
theorem ReclaimPolicy.Keeps.reclaim [Source σ] {o : Outline σ} (h : o.config.reclaim.Keeps A)
    (ht : t.Frees A b) (hs : A.Sound) (hs' : (o.reclaim t).shape.Settled)
    (huses : ∀ c, A.Uses c → c ≠ b → (o.reclaim t).shape.Uses c) :
    o.config.reclaim.Keeps (o.reclaim t).shape := by
  rcases o.reclaim_cases t with ⟨-, -, heq⟩ | ⟨hstays, heq⟩ <;> rw [heq] at hs' huses ⊢
  · -- the region is gone, and no other region had the block
    have hperm : (t.context.region :: Shape.regions ⟨t.context.without [t.block],
        t.free.erase t.block.addr⟩).Perm A.regions :=
      ht.regions ▸ (t.context.perm_without [t.block]).map Tract.region
    refine h.of_vacant fun r hr hvacant => ?_
    have hmem : r ∈ A.regions := hperm.mem_iff.mp (List.mem_cons_of_mem _ hr)
    have hne : r ≠ t.context.region := by
      rintro rfl
      exact (List.nodup_cons.mp (hperm.nodup_iff.mpr hs.nodup_regions)).1 hr
    exact ⟨hmem, ht.vacant_of_uses hs hmem hne huses hvacant⟩
  cases hsole : t.isSole with
  | false =>
    refine h.of_vacant fun r hr hvacant => ?_
    have hmem : r ∈ A.regions := ht.regions ▸ hr
    have hne : r ≠ t.context.region := by
      rintro rfl
      have := ht.isSole_of_vacant hs'.toSound hvacant
      rw [hsole] at this
      nomatch this
    exact ⟨hmem, ht.vacant_of_uses hs hmem hne huses hvacant⟩
  | true =>
    have hkept := hstays hsole
    cases hpolicy : o.config.reclaim with
    | always =>
      rw [hpolicy] at hkept
      nomatch hkept
    | keepLastFree =>
      rw [hpolicy] at hkept
      have hlength : ¬1 < t.free.length := of_decide_eq_false hkept
      intro r hr r' hr' hvacant hvacant'
      rw [ht.eq_region_of_vacant hs' hlength hr hvacant,
        ht.eq_region_of_vacant hs' hlength hr' hvacant']
    | never => trivial

/-! ### Sessions -/

namespace Session

variable [Source σ] {After : σ → List Call → Prop} {s s' : Session σ} {act : Act}
  {acts : List Act} {w' : World σ} {reply : Reply} {p : Nat}

/-- A session in which the policy has been seen to. -/
structure InPolicy (After : σ → List Call → Prop) (s : Session σ) (A : Shape) : Prop
    extends s.InOrder After A where
  keeps : s.world.heap.config.reclaim.Keeps A

namespace InOrder

theorem release_cases (h : s.InOrder After A) (hp : s.Permits (.release p)) {o' : Outline σ}
    (hout : (s.world.outline A).step (.release p) = some (reply, o')) :
    ∃ t b, p = payloadOf b.addr ∧ t.Frees A b ∧ o' = (s.world.outline A).reclaim t := by
  obtain ⟨g, hg, rfl⟩ := hp
  obtain ⟨b, hb, hnames⟩ := h.grants.names g hg
  obtain ⟨o₁, hrelease, heq⟩ := Option.map_eq_some_iff.mp hout
  cases heq
  rw [hnames.payload] at hrelease
  obtain ⟨t, ht, rfl⟩ := Outline.release_cases h.settled hb hrelease
  exact ⟨t, b, hnames.payload, ht, rfl⟩

end InOrder

/-- A region in which a block was taken into use is not vacant. -/
theorem keeps_allocate {size : Nat}
    (h' : InOrder After ⟨w', (Act.allocate size).grants s.live reply⟩ A')
    (hout : (s.world.outline A).step (.allocate size) = some (reply, w'.outline A'))
    (huses : ∀ c, A.Uses c → A'.Uses c) (hkeeps : policy.Keeps A) : policy.Keeps A' := by
  obtain ⟨⟨answer, o'⟩, hallocate, heq⟩ := Option.map_eq_some_iff.mp hout
  cases heq
  cases answer with
  | error e =>
    have hshape : A' = A := (Outline.of_allocate_error hallocate).1
    rwa [hshape]
  | ok p =>
    obtain ⟨d, hd, hnames⟩ := h'.grants.names ⟨p, size⟩ List.mem_cons_self
    refine hkeeps.of_vacant fun r hr hvacant => ?_
    have hold : A.Vacant r := fun c hc hin => hvacant c (huses c hc) hin
    rcases Outline.regions_of_allocate hallocate with hregions | ⟨q, hregions, hpq⟩
    · exact ⟨hregions ▸ hr, hold⟩
    rw [show A'.regions = A.regions ++ [q] from hregions, List.mem_append] at hr
    refine ⟨hr.resolve_right fun hrq => ?_, hold⟩
    obtain rfl := List.mem_singleton.mp hrq
    have haddr : d.addr = r.base := payloadOf_inj.mp (hnames.payload.symm.trans hpq)
    obtain ⟨u, hu, hdu⟩ := mem_blocksOf.mp hd.1
    obtain ⟨v, hv, rfl⟩ := List.mem_map.mp (show r ∈ A'.regions by
      rw [show A'.regions = A.regions ++ [r] from hregions]
      simp)
    have hadd := (h'.has.sound.laid.sound v hv).terminator_add
    have hle := (h'.has.sound.laid.sound v hv).tiles.le
    exact hvacant d hd ⟨by omega, by omega⟩

/-- An act keeps the policy content. -/
theorem InPolicy.of_step (hc : Source.Contract After) (h : s.InPolicy After A)
    (hstep : s.Step act s') : ∃ A', s'.InPolicy After A' := by
  obtain ⟨reply, A', h', hlive, hout, hkeep⟩ := h.toInOrder.of_step hc hstep
  have hp : s.Permits act := by
    cases hstep
    assumption
  have hconfig : s'.world.heap.config = s.world.heap.config := Outline.config_of_step hout
  refine ⟨A', h', ?_⟩
  rw [hconfig]
  have hkeeps := h.keeps
  obtain ⟨w', live'⟩ := s'
  cases hlive
  cases act with
  | allocate size =>
    exact keeps_allocate h' hout (fun c hc => (hkeep c hc ⟨nofun, nofun⟩).1) hkeeps
  | release p =>
    obtain ⟨t, b, rfl, ht, ho⟩ := h.toInOrder.release_cases hp hout
    obtain rfl : A' = ((s.world.outline A).reclaim t).shape := congrArg Outline.shape ho
    refine hkeeps.reclaim ht h.settled.toSound h'.settled fun c huses hne =>
      (hkeep c huses ⟨fun heq => hne ?_, nofun⟩).1
    refine h.has.sound.laid.eq_of_addr huses.1 ht.uses.1 ?_
    exact payloadOf_inj.mp (Act.release.inj heq).symm
  | reset =>
    rw [show A' = ⟨[], []⟩ from congrArg (fun answer => answer.2.shape) (Option.some.inj hout).symm]
    exact hkeeps.of_vacant nofun
  | write | check | freeBlocks =>
    rw [show A' = A from congrArg (fun answer => answer.2.shape) (Option.some.inj hout).symm]
    exact hkeeps

/-- A run keeps the policy content. -/
theorem InPolicy.run (hc : Source.Contract After) (h : s.InPolicy After A)
    (hrun : s.Run acts s') : ∃ A', s'.InPolicy After A' := by
  induction hrun generalizing A with
  | nil s => exact ⟨A, h⟩
  | cons hstep _ ih =>
    obtain ⟨A', h'⟩ := h.of_step hc hstep
    exact ih h'

omit [Source σ] in
theorem inPolicy_start {config : Config} {source : σ} {memory : Memory} (hs : After source []) :
    (start config source memory).InPolicy After ⟨[], []⟩ where
  toInOrder := inOrder_start hs
  keeps := by
    unfold ReclaimPolicy.Keeps
    split
    · exact nofun
    · exact nofun
    · trivial

theorem config_of_run (hc : Source.Contract After) (h : s.InOrder After A) (hrun : s.Run acts s') :
    s'.world.heap.config = s.world.heap.config := by
  induction hrun generalizing A with
  | nil s => rfl
  | cons hstep _ ih =>
    obtain ⟨reply, A', h', -, hout, -⟩ := h.of_step hc hstep
    exact (ih h').trans (Outline.config_of_step hout)

namespace InOrder

omit [Source σ] in
/-- Where nothing is live, no block is in use. -/
theorem not_uses (h : s.InOrder After A) (hlive : s.live = []) (b : Block) : ¬A.Uses b := by
  intro hb
  obtain ⟨g, hg, -⟩ := h.grants.named b hb
  rw [hlive] at hg
  nomatch hg

omit [Source σ] in
/-- A heap without a region has no block. -/
theorem not_mem_blocks (h : s.InOrder After A) (hnil : s.world.heap.regions = []) (b : Block) :
    b ∉ A.blocks := by
  intro hb
  obtain ⟨u, hu, -⟩ := mem_blocksOf.mp hb
  have hregion : u.region ∈ A.regions := List.mem_map_of_mem hu
  rw [← h.has.regions, hnil] at hregion
  nomatch hregion

omit [Source σ] in
/-- Heaps of the same regions that have given back equally many have mapped equally many. -/
theorem maps_eq (h : s.InOrder After A) (h' : s'.InOrder After A') (hregions : A'.regions = A.regions)
    (hunmaps : s'.world.heap.unmaps = s.world.heap.unmaps) :
    s'.world.heap.regions = s.world.heap.regions ∧
      s'.world.heap.maps = s.world.heap.maps := by
  constructor
  · rw [h'.has.regions, h.has.regions, hregions]
  · rw [h'.has.maps, h.has.maps, hunmaps, hregions]

/-- Under a policy that keeps a last region, only starting over leaves a heap without a region that
had one. -/
theorem regions_of_step (hc : Source.Contract After) (h : s.InOrder After A)
    (hstep : s.Step act s') (hpolicy : s.world.heap.config.reclaim = .keepLastFree)
    (hreset : act ≠ .reset) (hnil : s'.world.heap.regions = []) :
    s.world.heap.regions = [] ∧ s'.world.heap.maps = s.world.heap.maps := by
  obtain ⟨reply, A', h', hlive, hout, -⟩ := h.of_step hc hstep
  have hp : s.Permits act := by
    cases hstep
    assumption
  have hsame : ∀ reply' o', (s.world.outline A).step act = some (reply', o') →
      o'.shape.regions = A.regions → o'.unmaps = s.world.heap.unmaps →
        s.world.heap.regions = [] ∧ s'.world.heap.maps = s.world.heap.maps := by
    intro reply' o' ho hregions hunmaps
    obtain rfl : s'.world.outline A' = o' :=
      congrArg Prod.snd (Option.some.inj (hout.symm.trans ho))
    obtain ⟨heq, hmaps⟩ := h.maps_eq h' hregions hunmaps
    exact ⟨heq.symm.trans hnil, hmaps⟩
  cases act with
  | allocate size =>
    obtain ⟨⟨answer, o'⟩, hallocate, heq⟩ := Option.map_eq_some_iff.mp hout
    cases heq
    cases answer with
    | error e =>
      obtain ⟨hshape, hunmaps⟩ := Outline.of_allocate_error hallocate
      exact hsame _ _ hout (congrArg Shape.regions hshape) hunmaps
    | ok p =>
      obtain ⟨d, hd, -⟩ := h'.grants.names ⟨p, size⟩ (hlive ▸ List.mem_cons_self)
      exact absurd hd.1 (h'.not_mem_blocks hnil d)
  | release p =>
    obtain ⟨t, b, rfl, ht, ho⟩ := h.release_cases hp hout
    rw [ho] at hout
    rcases (s.world.outline A).reclaim_cases t with ⟨-, hgo, heq⟩ | ⟨-, heq⟩ <;> rw [heq] at hout ho
    · -- another free block is left, so that a region is
      rw [show (s.world.outline A).config.reclaim = .keepLastFree from hpolicy] at hgo
      have hlength : 1 < t.free.length := of_decide_eq_true hgo
      have hfree : A'.free = t.free.erase t.block.addr :=
        congrArg (fun o => o.shape.free) ho
      have hpos : 0 < A'.free.length := by
        rw [hfree]
        have := List.le_length_erase (a := t.block.addr) (l := t.free)
        omega
      obtain ⟨x, hx⟩ := List.exists_mem_of_length_pos hpos
      obtain ⟨c, hc, -⟩ := h'.settled.listed x hx
      exact absurd hc (h'.not_mem_blocks hnil c)
    · exact hsame _ _ hout ht.regions rfl
  | reset => exact absurd rfl hreset
  | write | check | freeBlocks => exact hsame _ (s.world.outline A) rfl rfl rfl

theorem regions_of_run (hc : Source.Contract After) (h : s.InOrder After A) (hrun : s.Run acts s')
    (hpolicy : s.world.heap.config.reclaim = .keepLastFree) (hreset : Act.reset ∉ acts)
    (hnil : s'.world.heap.regions = []) : s'.world.heap.maps = s.world.heap.maps := by
  have key : s.world.heap.regions = [] ∧ s'.world.heap.maps = s.world.heap.maps := by
    induction hrun generalizing A with
    | nil s => exact ⟨hnil, rfl⟩
    | cons hstep _ ih =>
      obtain ⟨reply, A', h', -, hout, -⟩ := h.of_step hc hstep
      obtain ⟨hregions, hmaps⟩ := ih h' ((congrArg Config.reclaim
        (Outline.config_of_step hout)).trans hpolicy) (fun hmem => hreset (List.mem_cons_of_mem _ hmem))
        hnil
      obtain ⟨hregions', hmaps'⟩ := h.regions_of_step hc hstep hpolicy
        (fun heq => hreset (heq ▸ List.mem_cons_self)) hregions
      exact ⟨hregions', hmaps.trans hmaps'⟩
  exact key.2

omit [Source σ] in
/-- A region that is not vacant has a live block. -/
theorem exists_grant (h : s.InOrder After A) (hr : r ∈ A.regions) (hnot : ¬A.Vacant r) :
    ∃ g ∈ s.live, ∃ n, s.HasSize g n ∧ r.base + 32 ≤ g.payload ∧ g.payload + n ≤ r.terminator := by
  obtain ⟨b, hb, hin⟩ : ∃ b, A.Uses b ∧ r.base ≤ b.addr ∧ b.addr < r.base + r.size := by
    unfold Shape.Vacant at hnot
    push Not at hnot
    exact hnot
  obtain ⟨u, hu, rfl⟩ := List.mem_map.mp hr
  obtain ⟨v, hv, hbv⟩ := mem_blocksOf.mp hb.1
  obtain rfl := h.has.sound.laid.eq_of_base_le hu hv hbv hin.1 hin.2
  obtain ⟨hlo, hhi, -, -, hroom⟩ := (h.has.sound.laid.sound u hu).within hbv
  obtain ⟨g, hg, hpayload⟩ := h.grants.named b hb
  obtain ⟨c, hc, hnames⟩ := h.grants.names g hg
  obtain rfl : c = b := h.has.sound.laid.eq_of_addr hc.1 hb.1
    (payloadOf_inj.mp (hnames.payload.symm.trans hpayload))
  refine ⟨g, hg, _, (h.hasSize_iff hb hnames).mpr rfl, ?_, ?_⟩ <;> rw [hpayload] <;>
    unfold payloadOf headerSize <;> omega

omit [Source σ] in
/-- Where nothing is live, every region is vacant. -/
theorem vacant (h : s.InOrder After A) (hlive : s.live = []) (r : Region) : A.Vacant r :=
  fun b hb _ => h.not_uses hlive b hb

/-- Once a range was mapped, a region stays until all are given up. -/
theorem length_live_pos (hc : Source.Contract After) {s s' : Session (Recorder σ)}
    (h : s.InOrder (Recorder.Wrote After) A) (hrun : s.Run acts s')
    (hpolicy : s.world.heap.config.reclaim = .keepLastFree) (hreset : Act.reset ∉ acts)
    (hlt : Call.maps s.world.heap.source.calls < Call.maps s'.world.heap.source.calls) :
    0 < (Call.live s'.world.heap.source.calls).length := by
  apply Nat.pos_of_ne_zero
  intro hzero
  obtain ⟨A', h'⟩ := h.run (Recorder.contract hc) hrun
  have hnone : s'.world.heap.regions = [] := by
    rw [h'.has.regions]
    exact List.eq_nil_of_length_eq_zero (h'.recorded.1.length_eq ▸ hzero)
  have hsame := h.regions_of_run (Recorder.contract hc) hrun hpolicy hreset hnone
  have hmaps := h.recorded.2
  have hmaps' := h'.recorded.2
  omega

end InOrder

namespace InPolicy

variable {s s' : Session (Recorder σ)}

omit [Source σ] in
/-- Every region has a live block. -/
theorem always (h : s.InPolicy (Recorder.Wrote After) A)
    (hpolicy : s.world.heap.config.reclaim = .always) :
    (∀ r ∈ Call.live s.world.heap.source.calls, ∃ g ∈ s.live, ∃ n, s.HasSize g n ∧
      r.base + 32 ≤ g.payload ∧ g.payload + n ≤ r.terminator) ∧
    (s.live = [] → s.world.heap.stats.heapSize = 0 ∧ s.world.heap.stats.regions = 0) := by
  have hkeeps := h.keeps
  rw [hpolicy] at hkeeps
  constructor
  · intro r hr
    have hmem : r ∈ A.regions := h.recorded.1.mem_iff.mp hr
    exact h.exists_grant hmem (hkeeps r hmem)
  · intro hnil
    have hnone : A.regions = [] :=
      List.eq_nil_iff_forall_not_mem.mpr fun r hr => hkeeps r hr (h.vacant hnil r)
    have hsize := h.has.heapSize
    have hregions := h.has.regions
    rw [hnone] at hsize hregions
    exact ⟨hsize, congrArg List.length hregions⟩

omit [Source σ] in
/-- At most one region is one free block. -/
theorem keepLastFree (h : s.InPolicy (Recorder.Wrote After) A)
    (hpolicy : s.world.heap.config.reclaim = .keepLastFree) :
    (∀ r ∈ Call.live s.world.heap.source.calls, ∀ r' ∈ Call.live s.world.heap.source.calls,
      s.world.memory.Vacant r → s.world.memory.Vacant r' → r = r') ∧
    (s.live = [] → (Call.live s.world.heap.source.calls).length ≤ 1) := by
  have hkeeps := h.keeps
  rw [hpolicy] at hkeeps
  constructor
  · intro r hr r' hr' hv hv'
    have hmem : r ∈ A.regions := h.recorded.1.mem_iff.mp hr
    have hmem' : r' ∈ A.regions := h.recorded.1.mem_iff.mp hr'
    exact hkeeps r hmem r' hmem' (Shape.vacant_of_memory h.has hmem hv h.settled)
      (Shape.vacant_of_memory h.has hmem' hv' h.settled)
  · intro hnil
    rw [h.recorded.1.length_eq]
    apply h.has.sound.length_regions_le_one
    intro r hr r' hr'
    exact hkeeps r hr r' hr' (h.vacant hnil r) (h.vacant hnil r')

/-- No release gives a range back. -/
theorem never (hc : Source.Contract After) (h : s.InPolicy (Recorder.Wrote After) A)
    (hpolicy : s.world.heap.config.reclaim = .never) :
    (∀ payload s', s.Step (.release payload) s' →
      s'.world.heap.source.calls = s.world.heap.source.calls) ∧
    (s.live = [] → HeapM.freeBlocks s.world = .ok s.world.heap.stats.regions s.world) := by
  constructor
  · intro payload s' hstep
    obtain ⟨reply, A', h', -, hout, -⟩ := h.toInOrder.of_step (Recorder.contract hc) hstep
    have hp : s.Permits (.release payload) := by
      cases hstep
      assumption
    obtain ⟨t, b, -, -, ho⟩ := h.toInOrder.release_cases hp hout
    rcases (s.world.outline A).reclaim_cases t with ⟨-, hgo, -⟩ | ⟨-, heq⟩
    · rw [show (s.world.outline A).config.reclaim = .never from hpolicy] at hgo
      nomatch hgo
    · exact congrArg (fun o => o.source.calls) (ho.trans heq)
  · intro hnil
    rw [HeapM.freeBlocks_run h.has, h.settled.length_free (h.not_uses hnil), ← h.has.regions]
    rfl

end InPolicy

/-- In every run, the policy decides which regions stay mapped. Under `always` every mapped region
has a live block. Under `keepLastFree` at most one mapped region is one free block, and once a range
was mapped that was not given back by starting over, a region stays. Under `never` no release gives a
range back. So where nothing is live, there is no region, at most one, or one for each free block. -/
theorem reclaim_of_run (hc : Source.Contract After) {config : Config} {source : σ}
    {memory : Memory} {s : Session (Recorder σ)} (hs : After source [])
    (hrun : (start config { inner := source } memory).Run acts s) :
    (config.reclaim = .always →
      (∀ r ∈ Call.live s.world.heap.source.calls, ∃ g ∈ s.live, ∃ n, s.HasSize g n ∧
        r.base + 32 ≤ g.payload ∧ g.payload + n ≤ r.terminator) ∧
      (s.live = [] → s.world.heap.stats.heapSize = 0 ∧ s.world.heap.stats.regions = 0)) ∧
    (config.reclaim = .keepLastFree →
      (∀ r ∈ Call.live s.world.heap.source.calls, ∀ r' ∈ Call.live s.world.heap.source.calls,
        s.world.memory.Vacant r → s.world.memory.Vacant r' → r = r') ∧
      (s.live = [] → (Call.live s.world.heap.source.calls).length ≤ 1) ∧
      ∀ acts₁ s₁ acts₂, (start config { inner := source } memory).Run acts₁ s₁ →
        s₁.Run acts₂ s → .reset ∉ acts₂ →
        Call.maps s₁.world.heap.source.calls < Call.maps s.world.heap.source.calls →
        s.live = [] → (Call.live s.world.heap.source.calls).length = 1) ∧
    (config.reclaim = .never →
      (∀ payload s', s.Step (.release payload) s' →
        s'.world.heap.source.calls = s.world.heap.source.calls) ∧
      (s.live = [] →
        HeapM.freeBlocks s.world = .ok s.world.heap.stats.regions s.world)) := by
  have hc' := Recorder.contract hc
  have hs' : Recorder.Wrote After ⟨source, []⟩ [] := ⟨rfl, hs⟩
  obtain ⟨A, h⟩ := (inPolicy_start hs').run hc' hrun
  have hconfig : s.world.heap.config = config := config_of_run hc' (inOrder_start hs') hrun
  rw [← hconfig]
  refine ⟨h.always, ?_, h.never hc⟩
  intro hpolicy
  obtain ⟨hone, hlength⟩ := h.keepLastFree hpolicy
  refine ⟨hone, hlength, ?_⟩
  intro acts₁ s₁ acts₂ hrun₁ hrun₂ hreset hlt hnil
  obtain ⟨A₁, h₁⟩ := (inOrder_start hs').run hc' hrun₁
  have hpolicy₁ : s₁.world.heap.config.reclaim = .keepLastFree := by
    rw [config_of_run hc' (inOrder_start hs') hrun₁]
    exact hpolicy
  exact Nat.le_antisymm (hlength hnil) (h₁.length_live_pos hc hrun₂ hpolicy₁ hreset hlt)

/-- A region that was mapped stays when its only block is released. -/
theorem reclaim_after_release : ∃ s : Session (Recorder Arena),
    (start {} { inner := { base := 0x10000 } } ∅).Run [.allocate 100, .release 0x10020] s ∧
      s.live = [] ∧ (Call.live s.world.heap.source.calls).length = 1 := by
  have hserves : Arena.Serves { base := 0x10000 } [] :=
    Arena.serves_new ⟨12, by decide, by decide, rfl⟩ rfl (by decide) (by decide) rfl rfl
  obtain ⟨s, hrun, hlive, hmaps⟩ : ∃ s : Session (Recorder Arena),
      (start {} { inner := { base := 0x10000 } } ∅).Run [.allocate 100, .release 0x10020] s ∧
        s.live = [] ∧ Call.maps s.world.heap.source.calls = 1 :=
    ⟨_, .cons (.intro trivial rfl) (.cons
      (.intro (by exact ⟨⟨0x10020, 100⟩, .head _, rfl⟩) rfl) (.nil _)), rfl, rfl⟩
  refine ⟨s, hrun, hlive, ?_⟩
  exact ((reclaim_of_run Arena.contract hserves hrun).2.1 rfl).2.2 [] _ _ (.nil _) hrun (by simp)
    (by rw [hmaps]; decide) hlive

end Session

end BoundaryTag
