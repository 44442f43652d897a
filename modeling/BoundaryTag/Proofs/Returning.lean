import BoundaryTag.Proofs.Arenas
import BoundaryTag.Proofs.Sessions
import BoundaryTag.Proofs.Niches

/-!
# What a release does

A block that is released becomes one free block with whatever free blocks are beside it
(`Cluster.joined`). It is listed first, or in the place of the free block before it, and the free
block after it is no longer listed (`Cluster.relisted`). If it then is all of its region, the policy
decides whether the region is given back (`Picture.reclaimed`). Nothing else is seen to change.
-/

namespace BoundaryTag

/-- A block and the free blocks beside it. -/
structure Cluster (α : Type) where
  previous : Option (Header α)
  block : Header α
  next : Option (Header α)

namespace Cluster

section
variable {α : Type} (c : Cluster α)

def headers : List (Header α) := c.previous.toList ++ c.block :: c.next.toList

/-- The free block that is made of all of them. -/
def joined : Header α :=
  { c.previous.getD c.block with forward := (c.headers.map Header.forward).sum, tag := .free }

/-- Only the block in the middle is in use, the last header of the region is not among them, and
there is no free block beside them. -/
structure Fits (N : Niche α) : Prop where
  block : c.block.tag = .allocated
  previous : ∀ h ∈ c.previous, h.tag = .free
  next : ∀ h ∈ c.next, h.tag = .free ∧ h.forward ≠ 0
  before : ∀ h ∈ N.left.getLast?, h.tag = .allocated
  after : N.next.tag = .allocated

end

/-- The free list once the block is free, where it was `L`. -/
def relisted (c : Cluster Nat) (L : List Nat) : List Nat :=
  let rest := match c.next with
    | none => L
    | some h => L.erase h.place
  match c.previous with
  | none => c.block.place :: rest
  | some _ => rest

end Cluster

namespace Picture

/-- The heap after the block of the cluster in the niche was joined with the free blocks beside it,
where `L` was the free list. -/
def coalesced (p : Picture Nat) (N : Niche Nat) (c : Cluster Nat) (L : List Nat) : Picture Nat :=
  { p with regions := N.fill [c.joined], free := .ok (c.relisted L) }

/-- The heap without the region of the niche, all of which is the free block `h`, where `L` was the
free list. -/
def reclaimed (p : Picture Nat) (N : Niche Nat) (h : Header Nat) (L : List Nat) : Picture Nat where
  stats := { p.stats with
    heapSize := p.stats.heapSize - N.size
    regions := p.stats.regions - 1
    unmaps := p.stats.unmaps + 1 }
  regions := swapRemove p.regions N.before.length
  free := .ok (L.erase h.place)
  check := p.check

end Picture

/-- The block is all of the region of the niche, but for the last header. -/
def Niche.IsWhole (N : Niche Nat) (h : Header Nat) : Prop :=
  h.place = N.base ∧ h.forward + headerSize = N.size

instance (N : Niche Nat) (h : Header Nat) : Decidable (N.IsWhole h) :=
  inferInstanceAs (Decidable (_ ∧ _))

/-! ### Joining -/

variable {C : Context} {b : Block} {L M : List Nat}

namespace Site

/-- The block after a freed one is joined with it and no longer listed, if it is free. -/
theorem joinNext_freed (hne : ∀ y ∈ C.right.head?, y.addr ≠ b.addr) :
    ∃ (right : List Block) (y? : Option Block), C.right = y?.toList ++ right ∧
      (∀ y ∈ y?, y.tag = .free) ∧ (freed C b L).joinNext =
        ⟨{ C with right }, ⟨b.addr, b.span + (y?.toList.map Block.span).sum, .free⟩,
          b.addr :: y?.elim L (L.erase ·.addr)⟩ := by
  rcases (freed C b L).next_cases with h | ⟨y, ys, hright, hy⟩
  · refine ⟨C.right, none, rfl, nofun, ?_⟩
    rw [joinNext_eq_self h]
    rfl
  · refine ⟨ys, some y, hright, by rintro _ ⟨⟩; exact hy, ?_⟩
    have hyb : y.addr ≠ b.addr := hne y (by rw [show C.right = y :: ys from hright]; rfl)
    rw [joinNext_eq_join hright hy]
    show Site.mk _ _ ((b.addr :: L).erase y.addr) = _
    rw [List.erase_cons_tail (by simpa using hyb.symm)]
    rfl

/-- The block before one that is listed first is joined with it, and is listed for both, if it is
free. -/
theorem joinPrevious_of_first {a n : Nat} :
    ∃ (left : List Block) (x? : Option Block), C.left = left ++ x?.toList ∧
      (∀ x ∈ x?, x.tag = .free) ∧ (Site.mk C ⟨a, n, .free⟩ (a :: M)).joinPrevious =
        ⟨{ C with left }, ⟨(x?.map Block.addr).getD a, (x?.toList.map Block.span).sum + n, .free⟩,
          x?.elim (a :: M) fun _ => M⟩ := by
  rcases (Site.mk C ⟨a, n, .free⟩ (a :: M)).previous_cases with h | ⟨xs, x, hleft, hx⟩
  · refine ⟨C.left, none, (List.append_nil _).symm, nofun, ?_⟩
    rw [joinPrevious_eq_self h]
    simp
  · refine ⟨xs, some x, hleft, by rintro _ ⟨⟩; exact hx, ?_⟩
    rw [joinPrevious_eq_join hleft hx, List.erase_cons_head]
    simp [Block.join, hx]

/-- A freed block is joined with the free blocks beside it. -/
theorem joined_freed (hne : ∀ y ∈ C.right.head?, y.addr ≠ b.addr) :
    ∃ (C' : Context) (x? y? : Option Block),
      C.fill [b] = C'.fill (x?.toList ++ b :: y?.toList) ∧
      (∀ x ∈ x?, x.tag = .free) ∧ (∀ y ∈ y?, y.tag = .free) ∧ (freed C b L).joined =
        ⟨C', ⟨(x?.map Block.addr).getD b.addr,
          ((x?.toList ++ b :: y?.toList).map Block.span).sum, .free⟩,
          x?.elim (b.addr :: y?.elim L (L.erase ·.addr)) fun _ => y?.elim L (L.erase ·.addr)⟩ := by
  obtain ⟨right, y?, hright, hy, hnext⟩ := joinNext_freed (L := L) hne
  obtain ⟨left, x?, hleft, hx, hprevious⟩ := joinPrevious_of_first (C := { C with right })
    (a := b.addr) (n := b.span + (y?.toList.map Block.span).sum) (M := y?.elim L (L.erase ·.addr))
  refine ⟨{ C with left, right }, x?, y?, ?_, hx, hy, ?_⟩
  · unfold Context.fill
    rw [hright, show C.left = left ++ x?.toList from hleft]
    simp
  · unfold joined
    rw [hnext, hprevious]
    simp

/-- What is seen of a freed block that is joined with the free blocks beside it. -/
theorem exists_cluster (hs : Shape.Sound ⟨C.fill [b], L⟩) (hb : b.tag = .allocated)
    (hs' : C.Coalesced) : ∃ c : Cluster Nat, c.block.place = b.addr ∧
      (C.fill [b]).map Tract.strip = (freed C b L).joined.context.niche.fill c.headers ∧
      c.Fits (freed C b L).joined.context.niche ∧
      (freed C b L).joined.block.header (freed C b L).joined.context.reach = c.joined ∧
      (freed C b L).joined.free = c.relisted L := by
  have hp := hs.laid.placed_single
  have hne : ∀ y ∈ C.right.head?, y.addr ≠ b.addr := fun y hy =>
    hp.addr_ne (by simp [Context.others, List.mem_of_mem_head? hy]) (Nat.le_refl _)
      (by have := hp.bounds; omega)
  obtain ⟨hleft, hright⟩ := joined_between (s := freed C b L) hs'
  obtain ⟨C', x?, y?, hfill, hx, hy, hjoined⟩ := joined_freed (L := L) hne
  rw [hjoined] at hleft hright ⊢
  have hblocks : ∀ y ∈ y?, 48 ≤ y.span := by
    intro y hmem
    have hy' : y ∈ blocksOf (C.fill [b]) := by
      rw [hfill]
      refine Context.mem_blocksOf_fill.mpr (.inl (List.mem_append_right _ (.tail _ ?_)))
      exact Option.mem_toList.mpr hmem
    exact (hs.laid.sound_of_mem hy').2.2.2.2
  let c : Cluster Nat := ⟨x?.map (·.header C'.reach), b.header (x?.elim C'.reach Block.span),
    y?.map (·.header b.span)⟩
  refine ⟨c, rfl, ?_, ⟨hb, fun h hh => ?_, fun h hh => ?_, fun h hh => ?_, ?_⟩, ?_, ?_⟩
  · rw [hfill, C'.map_strip_fill]
    refine congrArg C'.niche.fill ?_
    cases x? <;> cases y? <;> rfl
  · obtain ⟨x, hxmem, rfl⟩ := Option.map_eq_some_iff.mp hh
    exact hx x hxmem
  · obtain ⟨y, hymem, rfl⟩ := Option.map_eq_some_iff.mp hh
    have hroom := hblocks y hymem
    exact ⟨hy y hymem, fun hzero => absurd hzero (by unfold Block.header; dsimp only; omega)⟩
  · obtain ⟨x, hxmem, htag⟩ := tag_getLast?_chained hh
    exact htag.trans (hleft x hxmem)
  · show (startHeader _ C'.right).tag = _
    cases hcons : C'.right with
    | nil => rfl
    | cons y ys => exact hright y (by rw [hcons]; rfl)
  · cases x? <;> cases y? <;> rfl
  · cases x? <;> cases y? <;> rfl

/-- A block is all of its region if no block is beside it. -/
theorem isSole_iff {s : Site} (hs : s.shape.Sound) :
    s.isSole = true ↔ s.context.niche.IsWhole (s.block.header s.context.reach) := by
  have hp : Placed s.context [s.block] _ _ := hs.laid.placed_single
  have hadd := hp.bounds.2.2.2.1
  unfold isSole Niche.IsWhole
  rw [Bool.and_eq_true, List.isEmpty_iff, List.isEmpty_iff, hp.left.eq_nil_iff, hp.right.eq_nil_iff]
  show _ ↔ s.block.addr = s.context.region.base ∧ s.block.span + headerSize = s.context.region.size
  unfold headerSize
  omega

end Site

namespace Outline

variable {σ : Type} {o : Outline σ} {s : Site}

/-- Giving back the region of a block. -/
theorem picture_without (source : σ) :
    Outline.picture { o with
        source
        shape := ⟨s.context.without [s.block], s.free.erase s.block.addr⟩
        unmaps := o.unmaps + 1 } =
      (Outline.picture { o with shape := s.shape }).reclaimed s.context.niche
        (s.block.header s.context.reach) s.free := by
  have hperm : (s.context.region :: (s.context.without [s.block]).map Tract.region).Perm
      (s.shape.tracts.map Tract.region) := (s.context.perm_without [s.block]).map Tract.region
  have hsize : s.context.niche.size + Region.totalSize _ = Region.totalSize _ :=
    Region.totalSize_perm hperm
  have hlength := hperm.length_eq
  rw [List.length_cons] at hlength
  have hstrips : (s.context.without [s.block]).map Tract.strip =
      swapRemove (s.shape.tracts.map Tract.strip) s.context.niche.before.length := by
    unfold Context.without Context.niche
    rw [map_swapRemove, List.length_map]
    rfl
  unfold picture Picture.reclaimed stats Shape.regions
  dsimp only
  rw [hstrips, ← hlength, ← hsize, Nat.add_sub_cancel_left, Nat.add_sub_cancel,
    Nat.add_right_comm, Nat.add_assoc]
  rfl

/-- What is seen of the region of a joined block that is given back or kept. -/
theorem picture_reclaim {ρ : Type} [Source ρ] {o : Outline (Recorder ρ)} {p : Picture Nat}
    {h : Header Nat} (hs : s.shape.Sound) (hh : s.block.header s.context.reach = h)
    (hp : Outline.picture { o with shape := s.shape } = p) :
    if s.context.niche.IsWhole h ∧ o.config.reclaim.letsGo s.free.length then
      (o.reclaim s).picture = p.reclaimed s.context.niche h s.free ∧
        (o.reclaim s).source.calls =
          .unmapped ⟨s.context.niche.base, s.context.niche.size⟩ :: o.source.calls
    else (o.reclaim s).picture = p ∧ (o.reclaim s).source = o.source := by
  have hwhole := hh ▸ Site.isSole_iff hs
  rcases o.reclaim_cases s with ⟨hsole, hgo, heq⟩ | ⟨hstays, heq⟩
  · rw [if_pos ⟨hwhole.mp hsole, hgo⟩, heq, picture_without, hp, hh]
    exact ⟨rfl, rfl⟩
  · rw [if_neg fun ⟨hsole, hgo⟩ => Bool.eq_false_iff.mp (hstays (hwhole.mpr hsole)) hgo, heq]
    exact ⟨hp, rfl⟩

/-- What is seen of a block that is released. -/
theorem picture_release {ρ : Type} [Source ρ] {o : Outline (Recorder ρ)}
    (ho : o.shape = ⟨C.fill [b], L⟩) (hs : o.shape.Sound) (hs' : o.shape.Settled)
    (ht : (Site.freed C b L).joined.shape.Sound) (hb : b.tag = .allocated) :
    ∃ (o' : Outline (Recorder ρ)) (N : Niche Nat) (c : Cluster Nat),
      o.release (payloadOf b.addr) = some o' ∧ c.block.place = b.addr ∧
      o.picture.regions = N.fill c.headers ∧ c.Fits N ∧
      if N.IsWhole c.joined ∧ o.config.reclaim.letsGo (c.relisted L).length then
        o'.picture = (o.picture.coalesced N c L).reclaimed N c.joined (c.relisted L) ∧
          o'.source.calls = .unmapped ⟨N.base, N.size⟩ :: o.source.calls
      else o'.picture = o.picture.coalesced N c L ∧ o'.source = o.source := by
  have hreleased := release_of_mem ho hs
  obtain ⟨config, source, A, unmaps⟩ := o
  obtain rfl : A = ⟨C.fill [b], L⟩ := ho
  obtain ⟨c, hplace, hniche, hfits, hheader, hlist⟩ :=
    Site.exists_cluster hs hb (Shape.coalesced_fill_iff.mp hs'.coalesced).1
  have hregions := (Site.freed C b L).regions_joined.trans (Site.regions_freed C b L)
  generalize (Site.freed C b L).joined = t at *
  refine ⟨_, t.context.niche, c, hreleased, hplace, hniche, hfits, ?_⟩
  rw [← hlist]
  refine picture_reclaim ht hheader ?_
  rw [Outline.picture_reshaped hregions]
  show Picture.mk _ ((t.context.fill [t.block]).map Tract.strip) (.ok t.free) _ = _
  rw [Context.map_strip_fill, hlist, show chained _ [t.block] = [t.block.header _] from rfl,
    hheader]
  rfl

end Outline

variable {σ : Type} [Source σ] {After : σ → List Call → Prop}

/-- After any run a live block is released, with the free blocks beside it, into one free block. It
takes the place of the free block before it in the free list, or is listed first, and the free block
after it is no longer listed. If it is all of its region and the policy lets the region go, then
that region is given back, and nothing is otherwise. All other blocks, entries, regions and counts
stay as they are. -/
theorem Session.coalesces_of_run (hc : Source.Contract After) {config : Config} {source : σ}
    {memory : Memory} {acts : List Act} {s : Session (Recorder σ)} (hs : After source [])
    (hrun : (start config { inner := source } memory).Run acts s) {g : Grant} (hg : g ∈ s.live) :
    ∃ (w' : World (Recorder σ)) (N : Niche Nat) (c : Cluster Nat) (L : List Nat),
      HeapM.release g.payload s.world = .ok () w' ∧ c.block.place = blockOf g.payload ∧
      s.world.picture.regions = N.fill c.headers ∧ c.Fits N ∧ s.world.picture.free = .ok L ∧
      if N.IsWhole c.joined ∧ s.world.heap.config.reclaim.letsGo (c.relisted L).length then
        w'.picture = (s.world.picture.coalesced N c L).reclaimed N c.joined (c.relisted L) ∧
          w'.heap.source.calls = .unmapped ⟨N.base, N.size⟩ :: s.world.heap.source.calls
      else
        w'.picture = s.world.picture.coalesced N c L ∧ w'.heap.source = s.world.heap.source := by
  obtain ⟨A, h⟩ := (inOrder_start ⟨rfl, hs⟩).run (Recorder.contract hc) hrun
  obtain ⟨b, hb, hnames⟩ := h.grants.names g hg
  obtain ⟨w', A', hrelease, hreleases⟩ := HeapM.release_run h.has h.settled hb
  have hpicture := h.has.picture_eq h.settled
  have hpicture' := hreleases.has.picture_eq hreleases.settled
  have hout := hreleases.outline
  obtain ⟨ts, L⟩ := A
  obtain ⟨C, rfl⟩ := Context.exists_of_mem hb.1
  obtain ⟨w₁, -, hjoined, -⟩ := HeapM.release_eq h.has h.settled hb.2
  obtain ⟨o', N, c, hreleased, hplace, hniche, hfits, heffect⟩ :=
    Outline.picture_release (o := s.world.outline ⟨C.fill [b], L⟩) rfl h.has.sound h.settled
      hjoined.has.sound hb.2
  obtain rfl : o' = w'.outline A' := Option.some.inj (hreleased.symm.trans hout)
  rw [← hpicture, ← hpicture'] at heffect
  rw [← hpicture] at hniche
  exact ⟨w', N, c, L, hnames.payload ▸ hrelease, hplace.trans hnames.blockOf_eq.symm, hniche, hfits,
    by rw [hpicture]; rfl, heffect⟩

/-- A block of 200 bytes is released between two free blocks, and the region goes with it. -/
theorem Session.coalesces_between :
    ∃ (s : Session (Recorder Arena)) (w' : World (Recorder Arena)) (N : Niche Nat)
      (c : Cluster Nat) (L : List Nat),
      (start { reclaim := .always } { inner := { base := 0x10000 } } ∅).Run
        [.allocate 100, .allocate 200, .release 0x10020] s ∧
      HeapM.release 0x100b0 s.world = .ok () w' ∧ c.block.place = 0x10090 ∧
      s.world.picture.regions = N.fill c.headers ∧ c.Fits N ∧ s.world.picture.free = .ok L ∧
      if N.IsWhole c.joined ∧ s.world.heap.config.reclaim.letsGo (c.relisted L).length then
        w'.picture = (s.world.picture.coalesced N c L).reclaimed N c.joined (c.relisted L) ∧
          w'.heap.source.calls = .unmapped ⟨N.base, N.size⟩ :: s.world.heap.source.calls
      else
        w'.picture = s.world.picture.coalesced N c L ∧ w'.heap.source = s.world.heap.source := by
  have hserves : Arena.Serves { base := 0x10000 } [] :=
    Arena.serves_new ⟨12, by decide, by decide, rfl⟩ rfl (by decide) (by decide) rfl rfl
  obtain ⟨s, hrun, hlive⟩ : ∃ s : Session (Recorder Arena),
      (start { reclaim := .always } { inner := { base := 0x10000 } } ∅).Run
        [.allocate 100, .allocate 200, .release 0x10020] s ∧ s.live = [⟨0x100b0, 200⟩] :=
    ⟨_, .cons (.intro trivial rfl) (.cons (.intro trivial rfl) (.cons
      (.intro (by exact ⟨⟨0x10020, 100⟩, .tail _ (.head _), rfl⟩) rfl) (.nil _))), rfl⟩
  obtain ⟨w', N, c, L, heffect⟩ := coalesces_of_run Arena.contract hserves hrun
    (g := ⟨0x100b0, 200⟩) (by rw [hlive]; exact .head _)
  exact ⟨s, w', N, c, L, hrun, heffect⟩

end BoundaryTag
