import BoundaryTag.Proofs.Pictures
import BoundaryTag.Proofs.Reclaiming

/-!
# Releases in any order

Blocks that are released one after the other are joined with different neighbours in a different
order. What comes of it is the same: no two neighbours of a settled heap are free, so its regions and
the blocks in use determine all other blocks (`Tiles.eq_of_uses`) and with them the entries of the
free list. Which regions are left does not depend on the order either, if the policy does not
(`ReclaimPolicy.Clears`).
-/

namespace BoundaryTag

variable {σ : Type} {policy : ReclaimPolicy} {A A' A'' : Shape} {b x y : Block}
  {xs ys : List Block} {ps qs : List Nat} {t u : Tract} {r : Region} {w w' : World σ} {a e : Nat}

/-! ### What the blocks in use determine -/

namespace Tiles

/-- Where the blocks in use are the same, a free block reaches up to the next of them. -/
theorem eq_or_span_le (h : Tiles a (x :: xs) e) (h' : Tiles a (y :: ys) e)
    (hparted : (x :: xs).IsChain Shape.Parted)
    (huses : ∀ b ∈ x :: xs, b.tag = .allocated → b ∈ y :: ys) :
    x = y ∨ (x.tag = .free ∧ y.span ≤ x.span) := by
  obtain ⟨hx, -, hroom, htail⟩ := h
  obtain ⟨hy, -, hroom', htail'⟩ := h'
  cases htag : x.tag with
  | allocated =>
    rcases List.mem_cons.mp (huses x List.mem_cons_self htag) with rfl | hmem
    · exact .inl rfl
    · have hle := htail'.base_le hmem
      omega
  | free =>
    refine .inr ⟨rfl, ?_⟩
    cases xs with
    | nil =>
      have hend : a + x.span = e := htail
      have hle := htail'.le
      omega
    | cons z zs =>
      have hz : z.tag = .allocated := (List.isChain_cons_cons.mp hparted).1.right htag
      obtain ⟨haddr, -⟩ := htail
      rcases List.mem_cons.mp (huses z (by simp) hz) with rfl | hmem
      · omega
      · have hle := htail'.base_le hmem
        omega

/-- Blocks that tile a range without free neighbours are determined by those in use. -/
theorem eq_of_uses (h : Tiles a xs e) (h' : Tiles a ys e) (hparted : xs.IsChain Shape.Parted)
    (hparted' : ys.IsChain Shape.Parted)
    (huses : ∀ b : Block, b.tag = .allocated → (b ∈ xs ↔ b ∈ ys)) : xs = ys := by
  induction xs generalizing a ys with
  | nil =>
    cases ys with
    | nil => rfl
    | cons y ys =>
      have hlt := h'.lt (List.cons_ne_nil _ _)
      have hend : a = e := h
      omega
  | cons x xs ih =>
    cases ys with
    | nil =>
      have hlt := h.lt (List.cons_ne_nil _ _)
      have hend : a = e := h'
      omega
    | cons y ys =>
      have hxy : x = y := by
        rcases h.eq_or_span_le h' hparted fun b hb htag => (huses b htag).mp hb with
          heq | ⟨hfree, hle⟩
        · exact heq
        rcases h'.eq_or_span_le h hparted' fun b hb htag => (huses b htag).mpr hb with
          heq | ⟨hfree', hle'⟩
        · exact heq.symm
        have haddr : x.addr = y.addr := h.1.trans h'.1.symm
        cases x
        cases y
        simp only [Block.mk.injEq]
        exact ⟨haddr, Nat.le_antisymm hle' hle, hfree.trans hfree'.symm⟩
      subst hxy
      obtain ⟨haddr, -, hroom, htail⟩ := h
      obtain ⟨-, -, -, htail'⟩ := h'
      have hnot : ∀ {zs}, Tiles (a + x.span) zs e → x ∉ zs := fun htiles hmem => by
        have hle := htiles.base_le hmem
        omega
      refine congrArg _ (ih htail htail' (List.isChain_cons.mp hparted).2
        (List.isChain_cons.mp hparted').2 fun b htag => ?_)
      have hboth := huses b htag
      rw [List.mem_cons, List.mem_cons] at hboth
      by_cases hbx : b = x
      · subst hbx
        exact iff_of_false (hnot htail) (hnot htail')
      · simpa [hbx] using hboth

end Tiles

namespace Shape

/-- Of two settled heaps with the same blocks in use, a region that both have has the same blocks
in both. -/
theorem Settled.tract_eq (hs : A.Settled) (hs' : A'.Settled) (huses : ∀ b, A.Uses b ↔ A'.Uses b)
    (ht : t ∈ A.tracts) (hu : u ∈ A'.tracts) (hregion : t.region = u.region) : t = u := by
  have hts := hs.laid.sound t ht
  have hus := hs'.laid.sound u hu
  have htiles := hus.tiles
  rw [← hregion] at htiles
  have hblocks : t.blocks = u.blocks := by
    refine hts.tiles.eq_of_uses htiles (hs.coalesced t ht) (hs'.coalesced u hu) fun b htag => ?_
    constructor
    · intro hb
      obtain ⟨v, hv, hbv⟩ := mem_blocksOf.mp ((huses b).mp ⟨mem_blocksOf.mpr ⟨t, ht, hb⟩, htag⟩).1
      have hin := hts.addr_mem hb
      rw [hregion] at hin
      rwa [hs'.laid.eq_of_base_le hu hv hbv hin.1 hin.2]
    · intro hb
      obtain ⟨v, hv, hbv⟩ := mem_blocksOf.mp ((huses b).mpr ⟨mem_blocksOf.mpr ⟨u, hu, hb⟩, htag⟩).1
      have hin := hus.addr_mem hb
      rw [← hregion] at hin
      rwa [hs.laid.eq_of_base_le ht hv hbv hin.1 hin.2]
  cases t
  cases u
  exact congr (congrArg Tract.mk hregion) hblocks

theorem Sound.nodup_tracts (hs : A.Sound) : A.tracts.Nodup := hs.nodup_regions.of_map _

/-- The regions and the blocks in use determine a settled heap, but for the order in which the
regions are held and the free blocks listed. -/
theorem Settled.perm_of_uses (hs : A.Settled) (hs' : A'.Settled)
    (hregions : A.regions.Perm A'.regions) (huses : ∀ b, A.Uses b ↔ A'.Uses b) :
    A.tracts.Perm A'.tracts ∧ A.free.Perm A'.free := by
  have htracts : A.tracts.Perm A'.tracts := by
    refine (List.perm_ext_iff_of_nodup hs.nodup_tracts hs'.nodup_tracts).mpr fun t => ?_
    constructor
    · intro ht
      obtain ⟨u, hu, hregion⟩ := List.mem_map.mp (hregions.mem_iff.mp (List.mem_map_of_mem ht))
      rwa [hs.tract_eq hs' huses ht hu hregion.symm]
    · intro ht
      obtain ⟨u, hu, hregion⟩ := List.mem_map.mp (hregions.mem_iff.mpr (List.mem_map_of_mem ht))
      rwa [← hs.tract_eq hs' huses hu ht hregion]
  refine ⟨htracts, (List.perm_ext_iff_of_nodup hs.nodup hs'.nodup).mpr fun x => ?_⟩
  constructor
  · intro hx
    obtain ⟨b, hb, rfl, hfree⟩ := hs.listed x hx
    exact hs'.complete b ((blocksOf_perm htracts).mp hb) hfree
  · intro hx
    obtain ⟨b, hb, rfl, hfree⟩ := hs'.listed x hx
    exact hs.complete b ((blocksOf_perm htracts).mpr hb) hfree

end Shape

/-! ### What releases do -/

/-- From `A` to `A'` the blocks with the payloads `ps` were taken out of use. Regions are gone only
if the policy lets any go, and if no block of them is left in use. -/
structure ReclaimPolicy.Clears (policy : ReclaimPolicy) (A : Shape) (ps : List Nat) (A' : Shape) :
    Prop where
  uses : ∀ b, A'.Uses b ↔ A.Uses b ∧ payloadOf b.addr ∉ ps
  regions : A'.regions ⊆ A.regions
  gone : ∀ r ∈ A.regions, r ∉ A'.regions → policy ≠ .never ∧ A'.Vacant r

namespace ReclaimPolicy.Clears

theorem refl (policy : ReclaimPolicy) (A : Shape) : policy.Clears A [] A where
  uses b := by simp
  regions := List.Subset.refl _
  gone _ hr hnot := absurd hr hnot

theorem trans (h : policy.Clears A ps A') (h' : policy.Clears A' qs A'') :
    policy.Clears A (ps ++ qs) A'' where
  uses b := by rw [h'.uses, h.uses, List.mem_append, not_or, and_assoc]
  regions := List.Subset.trans h'.regions h.regions
  gone r hr hnot := by
    by_cases hr' : r ∈ A'.regions
    · exact h'.gone r hr' hnot
    · obtain ⟨hpolicy, hvacant⟩ := h.gone r hr hr'
      exact ⟨hpolicy, fun b hb => hvacant b ((h'.uses b).mp hb).1⟩

/-- Under a policy that goes by the region alone, the regions that are left are those that have a
block left in use, or all. -/
theorem regions_subset (h : policy.Clears A ps A') (h' : policy.Clears A qs A'')
    (hkeeps : policy.Keeps A') (hpolicy : policy ≠ .keepLastFree)
    (huses : ∀ b, A'.Uses b ↔ A''.Uses b) : A'.regions ⊆ A''.regions := by
  intro r hr
  by_contra hnot
  obtain ⟨hsome, hvacant⟩ := h'.gone r (h.regions hr) hnot
  cases policy with
  | always => exact hkeeps r hr fun b hb => hvacant b ((huses b).mp hb)
  | keepLastFree => exact hpolicy rfl
  | never => exact hsome rfl

end ReclaimPolicy.Clears

/-- A region that is not there any more has no block in use. -/
theorem Shape.Sound.vacant_of_perm (hs : A.Sound) (hs' : A'.Sound)
    (hperm : (r :: A'.regions).Perm A.regions) : A'.Vacant r := by
  intro b hb hin
  obtain ⟨u, hu, hbu⟩ := mem_blocksOf.mp hb.1
  have hapart := hs.apart_of_perm hperm (List.mem_map_of_mem hu)
  have hin' := (hs'.laid.sound u hu).addr_mem hbu
  unfold Region.Apart at hapart
  omega

namespace World.Releases

variable [Source σ]

/-- A release keeps all regions or gives one back. -/
theorem regions_cases (h : w.Releases A b w' A') (hs : A.Settled) (hb : A.Uses b) :
    (A'.regions = A.regions ∧ w'.heap.unmaps = w.heap.unmaps) ∨
      w.heap.config.reclaim ≠ .never ∧ w'.heap.unmaps = w.heap.unmaps + 1 ∧
        ∃ r, (r :: A'.regions).Perm A.regions := by
  obtain ⟨t, ht, ho⟩ := Outline.release_cases hs hb h.outline
  rcases (w.outline A).reclaim_cases t with ⟨-, hgo, heq⟩ | ⟨-, heq⟩ <;> rw [heq] at ho
  · obtain rfl : A' = _ := congrArg Outline.shape ho
    refine .inr ⟨?_, congrArg Outline.unmaps ho, t.context.region, ?_⟩
    · intro hnever
      rw [show (w.outline A).config.reclaim = .never from hnever] at hgo
      nomatch hgo
    · exact ht.regions ▸ (t.context.perm_without [t.block]).map Tract.region
  · obtain rfl : A' = _ := congrArg Outline.shape ho
    exact .inl ⟨ht.regions, congrArg Outline.unmaps ho⟩

theorem config_eq (h : w.Releases A b w' A') (hs : A.Settled) (hb : A.Uses b) :
    w'.heap.config = w.heap.config := by
  obtain ⟨t, -, ho⟩ := Outline.release_cases hs hb h.outline
  rcases (w.outline A).reclaim_cases t with ⟨-, -, heq⟩ | ⟨-, heq⟩ <;>
    exact congrArg Outline.config (ho.trans heq)

theorem maps_eq (h : w.Releases A b w' A') (H : w.Has A) (hs : A.Settled) (hb : A.Uses b) :
    w'.heap.maps = w.heap.maps := by
  rw [H.maps, h.has.maps]
  rcases h.regions_cases hs hb with ⟨hregions, hunmaps⟩ | ⟨-, hunmaps, r, hperm⟩
  · rw [hregions, hunmaps]
  · have hlength := hperm.length_eq
    rw [List.length_cons] at hlength
    omega

theorem clears (h : w.Releases A b w' A') (hs : A.Settled) (hb : A.Uses b) :
    w.heap.config.reclaim.Clears A [payloadOf b.addr] A' where
  uses c := by
    rw [h.uses, List.mem_singleton, payloadOf_inj]
    refine and_congr_right fun hc => not_congr ⟨congrArg _, fun haddr => ?_⟩
    exact hs.laid.eq_of_addr hc.1 hb.1 haddr
  regions := by
    rcases h.regions_cases hs hb with ⟨hregions, -⟩ | ⟨-, -, r, hperm⟩
    · exact hregions ▸ List.Subset.refl _
    · exact fun s hs => hperm.mem_iff.mp (List.mem_cons_of_mem _ hs)
  gone s hmem hnot := by
    rcases h.regions_cases hs hb with ⟨hregions, -⟩ | ⟨hpolicy, -, r, hperm⟩
    · exact absurd (hregions ▸ hmem) hnot
    · obtain rfl : s = r := (List.mem_cons.mp (hperm.mem_iff.mpr hmem)).resolve_right hnot
      exact ⟨hpolicy, hs.vacant_of_perm h.has.sound hperm⟩

theorem keeps (h : w.Releases A b w' A') (hs : A.Settled) (hb : A.Uses b)
    (hkeeps : w.heap.config.reclaim.Keeps A) : w'.heap.config.reclaim.Keeps A' := by
  rw [h.config_eq hs hb]
  obtain ⟨t, ht, ho⟩ := Outline.release_cases hs hb h.outline
  obtain rfl : A' = ((w.outline A).reclaim t).shape := congrArg Outline.shape ho
  exact ReclaimPolicy.Keeps.reclaim hkeeps ht hs.toSound h.settled fun c hc hne =>
    (h.uses c).mpr ⟨hc, hne⟩

end World.Releases

/-! ### Releases one after the other -/

/-- The pictures are the same but for the order of the regions and of the free list. -/
structure Picture.Reordered {α : Type} (p q : Picture α) : Prop where
  stats : p.stats = q.stats
  regions : p.regions.Perm q.regions
  free : ∃ xs ys, p.free = .ok xs ∧ q.free = .ok ys ∧ xs.Perm ys
  check : p.check = q.check

namespace Session

variable [Source σ] {After : σ → List Call → Prop} {s s₁ s₂ : Session σ} {A₁ A₂ : Shape}

/-- Live blocks can be released, each once, in any order. -/
theorem InPolicy.releases (hd : Source.Disjoint After) (h : s.InPolicy After A) (hps : ps.Nodup)
    (hlive : ∀ p ∈ ps, s.Permits (.release p)) :
    ∃ s' A', s.Run (ps.map Act.release) s' ∧ s'.InPolicy After A' ∧
      s'.world.heap.config = s.world.heap.config ∧ s'.world.heap.maps = s.world.heap.maps ∧
      s.world.heap.config.reclaim.Clears A ps A' := by
  induction ps generalizing s A with
  | nil => exact ⟨s, A, .nil s, h, rfl, rfl, .refl _ _⟩
  | cons p ps ih =>
    have hpermits := hlive p List.mem_cons_self
    obtain ⟨hp, hrest⟩ := List.nodup_cons.mp hps
    obtain ⟨b, w', A', rfl, hb, hrun, h', hreleases⟩ := h.release hd hpermits
    have hlive' : ∀ q ∈ ps, Permits ⟨w', (Act.release (payloadOf b.addr)).grants s.live .done⟩
        (.release q) := by
      intro q hq
      obtain ⟨g, hg, rfl⟩ := hlive q (List.mem_cons_of_mem _ hq)
      refine ⟨g, List.mem_filter.mpr ⟨hg, decide_eq_true ?_⟩, rfl⟩
      rintro heq
      exact hp (heq ▸ hq)
    obtain ⟨s'', A'', hrun', h'', hconfig, hmaps, hclears⟩ :=
      ih ⟨h', hreleases.keeps h.settled hb h.keeps⟩ hrest hlive'
    refine ⟨s'', A'', .cons (.intro hpermits hrun) hrun', h'',
      hconfig.trans (hreleases.config_eq h.settled hb),
      hmaps.trans (hreleases.maps_eq h.has h.settled hb), ?_⟩
    have hfirst := hreleases.clears h.settled hb
    dsimp only at hclears
    rw [hreleases.config_eq h.settled hb] at hclears
    exact hfirst.trans hclears

omit [Source σ] in
/-- Sessions in order with the same blocks in use and the same regions look the same, but for the
order. -/
theorem InOrder.picture_reordered (h₁ : s₁.InOrder After A₁) (h₂ : s₂.InOrder After A₂)
    (hmaps : s₁.world.heap.maps = s₂.world.heap.maps) (hregions : A₁.regions.Perm A₂.regions)
    (huses : ∀ b, A₁.Uses b ↔ A₂.Uses b) : s₁.world.picture.Reordered s₂.world.picture := by
  obtain ⟨htracts, hfree⟩ := h₁.settled.perm_of_uses h₂.settled hregions huses
  have hlength := hregions.length_eq
  have hunmaps : s₁.world.heap.unmaps = s₂.world.heap.unmaps := by
    have := h₁.has.maps
    have := h₂.has.maps
    omega
  rw [h₁.has.picture_eq h₁.settled, h₂.has.picture_eq h₂.settled]
  refine ⟨?_, htracts.map _, ⟨_, _, rfl, rfl, hfree⟩, rfl⟩
  show (s₁.world.outline A₁).stats = (s₂.world.outline A₂).stats
  unfold Outline.stats World.outline
  rw [Region.totalSize_perm hregions, hlength, hunmaps]

/-- After any run under `never` or `always`, live blocks can be released in any order, and the order
makes no difference to what can be seen of the heap: to its counts, its regions with all their
headers, the entries of its free list and what a check finds. Only the order of the regions and of
the free list may be another. -/
theorem releases_commute (hc : Source.Contract After) {config : Config} {source : σ}
    {memory : Memory} {acts : List Act} (hs : After source [])
    (hrun : (start config source memory).Run acts s) (hpolicy : config.reclaim ≠ .keepLastFree)
    (hps : ps.Nodup) (hlive : ∀ p ∈ ps, ∃ g ∈ s.live, g.payload = p) (hperm : ps.Perm qs) :
    ∃ s₁ s₂, s.Run (ps.map Act.release) s₁ ∧ s.Run (qs.map Act.release) s₂ ∧
      s₁.world.picture.Reordered s₂.world.picture := by
  obtain ⟨A, h⟩ := (inPolicy_start hs).run hc hrun
  have hd := hc.toDisjoint
  have hconfig : s.world.heap.config = config := config_of_run hc (inOrder_start hs) hrun
  rw [← hconfig] at hpolicy
  obtain ⟨s₁, A₁, hrun₁, h₁, hconfig₁, hmaps₁, hclears₁⟩ := h.releases hd hps hlive
  obtain ⟨s₂, A₂, hrun₂, h₂, hconfig₂, hmaps₂, hclears₂⟩ :=
    h.releases hd (hperm.nodup_iff.mp hps) fun q hq => hlive q (hperm.mem_iff.mpr hq)
  have hkeeps₁ := h₁.keeps
  have hkeeps₂ := h₂.keeps
  rw [hconfig₁] at hkeeps₁
  rw [hconfig₂] at hkeeps₂
  have huses : ∀ b, A₁.Uses b ↔ A₂.Uses b := fun b => by
    rw [hclears₁.uses, hclears₂.uses, hperm.mem_iff]
  have hregions : A₁.regions.Perm A₂.regions :=
    (List.perm_ext_iff_of_nodup h₁.has.sound.nodup_regions h₂.has.sound.nodup_regions).mpr fun r =>
      ⟨fun hr => hclears₁.regions_subset hclears₂ hkeeps₁ hpolicy huses hr,
        fun hr => hclears₂.regions_subset hclears₁ hkeeps₂ hpolicy (fun b => (huses b).symm) hr⟩
  exact ⟨s₁, s₂, hrun₁, hrun₂,
    h₁.picture_reordered h₂.toInOrder (hmaps₁.trans hmaps₂.symm) hregions huses⟩

/-- The first and the last of three neighbours are released, and then the one between them, or the
other way round. -/
theorem releases_commute_of_neighbours : ∃ s s₁ s₂ : Session Arena,
    (start { reclaim := .never } { base := 0x10000 } ∅).Run
      [.allocate 100, .allocate 100, .allocate 100, .allocate 100] s ∧
      s.Run [.release 0x10020, .release 0x10140, .release 0x100b0] s₁ ∧
      s.Run [.release 0x100b0, .release 0x10140, .release 0x10020] s₂ ∧
      s₁.world.picture.Reordered s₂.world.picture := by
  have hserves : Arena.Serves { base := 0x10000 } [] :=
    Arena.serves_new ⟨12, by decide, by decide, rfl⟩ rfl (by decide) (by decide) rfl rfl
  obtain ⟨s, hrun, hlive⟩ : ∃ s : Session Arena,
      (start { reclaim := .never } { base := 0x10000 } ∅).Run
        [.allocate 100, .allocate 100, .allocate 100, .allocate 100] s ∧
        s.live.map Grant.payload = [0x101d0, 0x10140, 0x100b0, 0x10020] :=
    ⟨_, .cons (.intro trivial rfl) (.cons (.intro trivial rfl) (.cons (.intro trivial rfl)
      (.cons (.intro trivial rfl) (.nil _)))), rfl⟩
  have hps : ∀ p ∈ [0x10020, 0x10140, 0x100b0], ∃ g ∈ s.live, g.payload = p := by
    intro p hp
    refine List.mem_map.mp ?_
    rw [hlive]
    revert p
    decide
  obtain ⟨s₁, s₂, hrun₁, hrun₂, hsame⟩ := releases_commute Arena.contract hserves hrun nofun
    (by decide) hps (show List.Perm _ [0x100b0, 0x10140, 0x10020] by decide)
  exact ⟨s, s₁, s₂, hrun, hrun₁, hrun₂, hsame⟩

end Session

end BoundaryTag
