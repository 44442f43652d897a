import BoundaryTag.Proofs.Arenas
import BoundaryTag.Proofs.Pictures
import BoundaryTag.Proofs.Sessions

/-!
# Heaps that share a memory

Two heaps may have their blocks in one memory, as long as no range belongs to both. What one of them
does changes no word outside its own ranges (`Tenant.Keeps.does`), and a heap does not notice what
becomes of other words (`Tenant.Keeps.of_changesOnly`). So in every interleaving each heap does what
it does alone.
-/

namespace BoundaryTag

/-- A heap that has its blocks in a memory with others, and what it has handed out. -/
structure Tenant (σ : Type) where
  heap : Heap (Recorder σ)
  live : List Grant := []
  dropped : Bool := false

/-- What may be done with a heap. -/
inductive Deed where
  | act (act : Act)
  /-- The heap gives up all regions and is gone. -/
  | drop
deriving DecidableEq, Repr

namespace Tenant

variable {σ τ : Type}

def start (config : Config) (source : σ) : Tenant σ where
  heap := { config, source := { inner := source } }

def world (t : Tenant σ) (m : Memory) : World (Recorder σ) where
  memory := m
  heap := t.heap

def session (t : Tenant σ) (m : Memory) : Session (Recorder σ) where
  world := t.world m
  live := t.live

/-- The address is in a range that the source has handed out and not got back. -/
def Owns (t : Tenant σ) (a : Nat) : Prop :=
  ∃ r ∈ Call.live t.heap.source.calls, r.base ≤ a ∧ a < r.base + r.size

/-- No range of the one heap overlaps a range of the other. -/
def Apart (t : Tenant σ) (u : Tenant τ) : Prop :=
  ∀ r ∈ Call.live t.heap.source.calls, ∀ s ∈ Call.live u.heap.source.calls, r.Apart s

variable [Source σ] [Source τ]

/-- A deed that is permitted and returns, with its reply, what it makes of memory and of the heap. -/
inductive Does (m : Memory) (t : Tenant σ) : Deed × Reply → Memory → Tenant σ → Prop
  | act {act : Act} {reply : Reply} {w : World (Recorder σ)} : t.dropped = false →
    (t.session m).Permits act → act.perform (t.world m) = .ok reply w →
    Does m t (.act act, reply) w.memory { heap := w.heap, live := act.grants t.live reply }
  | drop {w : World (Recorder σ)} : t.dropped = false →
    HeapM.releaseAll (t.world m) = .ok () w →
    Does m t (.drop, .done) w.memory { heap := w.heap, dropped := true }

/-- A heap that is alone in its memory. -/
inductive Run : Memory → Tenant σ → List (Deed × Reply) → Memory → Tenant σ → Prop
  | nil (m : Memory) (t : Tenant σ) : Run m t [] m t
  | cons {m m' m'' : Memory} {t t' t'' : Tenant σ} {deed : Deed × Reply}
    {deeds : List (Deed × Reply)} : t.Does m deed m' t' → Run m' t' deeds m'' t'' →
    Run m t (deed :: deeds) m'' t''

/-- Two heaps in one memory, each of which may do something at any time. Whatever they do, no range
comes to belong to both. -/
inductive Interleaving : Memory → Tenant σ → Tenant τ → List ((Deed × Reply) ⊕ (Deed × Reply)) →
    Memory → Tenant σ → Tenant τ → Prop
  | nil (m : Memory) (t : Tenant σ) (u : Tenant τ) : Interleaving m t u [] m t u
  | left {m m' m'' : Memory} {t t' t'' : Tenant σ} {u u'' : Tenant τ} {deed : Deed × Reply}
    {deeds : List ((Deed × Reply) ⊕ (Deed × Reply))} : t.Does m deed m' t' → t'.Apart u →
    Interleaving m' t' u deeds m'' t'' u'' →
    Interleaving m t u (.inl deed :: deeds) m'' t'' u''
  | right {m m' m'' : Memory} {t t'' : Tenant σ} {u u' u'' : Tenant τ} {deed : Deed × Reply}
    {deeds : List ((Deed × Reply) ⊕ (Deed × Reply))} : u.Does m deed m' u' → t.Apart u' →
    Interleaving m' t u' deeds m'' t'' u'' →
    Interleaving m t u (.inr deed :: deeds) m'' t'' u''

end Tenant

variable {σ τ : Type} {After : σ → List Call → Prop} {After' : τ → List Call → Prop} {A : Shape}
  {m m' m₁ m₁' : Memory} {t t' : Tenant σ} {u u' : Tenant τ} {deed : Deed × Reply}

namespace Session.InOrder

/-- What was logged makes no difference. -/
theorem of_world {w : World σ} {live : List Grant} (h : InOrder After ⟨w, live⟩ A) :
    InOrder After ⟨{ memory := w.memory, heap := w.heap }, live⟩ A :=
  ⟨h.has.logged [], h.settled, h.booked, h.grants⟩

/-- What is permitted is seen from the shape and from what is live. -/
theorem permits {s s' : Session σ} {act : Act} (h : s.InOrder After A) (h' : s'.InOrder After A)
    (hlive : s'.live = s.live) (hp : s.Permits act) : s'.Permits act := by
  cases act with
  | release payload =>
    show ∃ g ∈ s'.live, _
    rw [hlive]
    exact hp
  | write address value =>
    obtain ⟨g, hg, n, hsize, hbounds⟩ := hp
    obtain ⟨b, hb, hnames⟩ := h.grants.names g hg
    refine ⟨g, hlive ▸ hg, n, ?_, hbounds⟩
    exact (h'.hasSize_iff hb hnames).mpr ((h.hasSize_iff hb hnames).mp hsize)
  | allocate | reset | check | freeBlocks => trivial

end Session.InOrder

namespace Tenant

/-- The addresses that the one heap has are not those that the other has. -/
theorem Apart.not_owns {a : Nat} (h : t.Apart u) (ha : t.Owns a) : ¬u.Owns a := by
  rintro ⟨s, hs, hlo, hhi⟩
  obtain ⟨r, hr, hlo', hhi'⟩ := ha
  have hrs := h r hr s hs
  unfold Region.Apart at hrs
  omega

theorem Apart.symm (h : t.Apart u) : u.Apart t := fun s hs r hr => (h r hr s hs).symm

/-- Unless it is gone, the heap is in order in both memories and has the same blocks there. -/
def Keeps (After : σ → List Call → Prop) (t : Tenant σ) (m m₁ : Memory) : Prop :=
  t.dropped = false → ∃ A, (t.session m).InOrder (Recorder.Wrote After) A ∧
    (t.session m₁).InOrder (Recorder.Wrote After) A

/-- The regions of a heap in order are what it has from its source. -/
theorem owns_iff (h : (t.session m).InOrder (Recorder.Wrote After) A) {a : Nat} :
    t.Owns a ↔ A.Spans a := by
  have hperm := h.recorded.1
  constructor
  · rintro ⟨r, hr, ha⟩
    exact ⟨r, hperm.mem_iff.mp hr, ha⟩
  · rintro ⟨r, hr, ha⟩
    exact ⟨r, hperm.mem_iff.mpr hr, ha⟩

/-- What the outline says comes of an act is what does, in whatever memory the heap is. -/
theorem exists_does [Source σ] (hc : Source.Contract After) {act : Act} {reply : Reply}
    {o : Outline (Recorder σ)} (h : (t.session m).InOrder (Recorder.Wrote After) A)
    (hd : t.dropped = false) (hp : (t.session m).Permits act)
    (hout : ((t.world m).outline A).step act = some (reply, o)) :
    ∃ m' heap, t.Does m (.act act, reply) m' { heap, live := act.grants t.live reply } ∧
      Session.InOrder (Recorder.Wrote After)
        ⟨{ memory := m', heap }, act.grants t.live reply⟩ o.shape ∧
      World.outline { memory := m', heap } o.shape = o := by
  obtain ⟨w, hperform, hw, hout⟩ := h.perform_of_outline (Recorder.contract hc) hp hout
  exact ⟨w.memory, w.heap, .act hd hp hperform, hw.of_world, hout⟩

namespace Keeps

theorem start {config : Config} {source : σ} (hs : After source []) :
    (start config source).Keeps After m m₁ := by
  intro _
  exact ⟨⟨[], []⟩, Session.inOrder_start ⟨rfl, hs⟩, Session.inOrder_start ⟨rfl, hs⟩⟩

/-- The heap looks the same in both memories. -/
theorem picture_eq (h : t.Keeps After m m₁) (hd : t.dropped = false) :
    (t.world m₁).picture = (t.world m).picture := by
  obtain ⟨A, hm, hm₁⟩ := h hd
  exact (hm₁.has.picture_eq hm₁.settled).trans (hm.has.picture_eq hm.settled).symm

/-- Words that are not the heap's may change. -/
theorem of_changesOnly (h : t.Keeps After m m₁) {P : Nat → Prop} (hc : Memory.ChangesOnly P m m')
    (hP : ∀ a, t.Owns a → ¬P a) : t.Keeps After m' m₁ := by
  intro hd
  obtain ⟨A, hm, hm₁⟩ := h hd
  refine ⟨A, hm.of_changesOnly hc ?_, hm₁⟩
  intro a ha
  exact hP a ((owns_iff hm).mpr ha.1)

variable [Source σ]

/-- What the heap does in one memory it does in the other, and it changes no word outside its
ranges. -/
theorem does (hc : Source.Contract After) (h : t.Keeps After m m₁) (hdoes : t.Does m deed m' t') :
    (∃ m₁', t.Does m₁ deed m₁' t' ∧ t'.Keeps After m' m₁') ∧
      Memory.ChangesOnly (fun a => t.Owns a ∨ t'.Owns a) m m' := by
  cases hdoes with
  | @act act reply w hd hp hperform =>
    obtain ⟨A, hm, hm₁⟩ := h hd
    obtain ⟨A', hw, hout, hchanges, -⟩ := hm.of_perform (Recorder.contract hc) hp hperform
    obtain ⟨m₁', heap, hdoes₁, hw₁, hout₁⟩ :=
      exists_does hc hm₁ hd (hm.permits hm₁ rfl hp) hout
    obtain rfl : heap = w.heap := hw.has.heap_eq hw₁.has hout₁
    refine ⟨⟨m₁', hdoes₁, ?_⟩, ?_⟩
    · intro _
      exact ⟨A', hw.of_world, hw₁⟩
    · apply hchanges.mono
      intro a ha
      rw [owns_iff hm, owns_iff hw.of_world]
      exact ha
  | @drop w hd hrun =>
    obtain ⟨A, hm, -⟩ := h hd
    obtain ⟨cs, hbooked⟩ := hm.booked
    cases hrun.symm.trans (HeapM.releaseAll_run hbooked.countable)
    refine ⟨⟨m₁, .drop hd (HeapM.releaseAll_run (w := t.world m₁) hbooked.countable), ?_⟩, .refl _ _⟩
    intro hgone
    nomatch hgone

end Keeps

/-- The heap is in the memory `m`, which it shares, as it is in `m₁`: it looks the same, the same may be
done with it and comes to the same, and no word of `m` changes then outside its ranges. -/
structure Isolated [Source σ] (t : Tenant σ) (m m₁ : Memory) : Prop where
  picture : t.dropped = false → (t.world m₁).picture = (t.world m).picture
  does : ∀ deed t', (∃ m', t.Does m deed m' t') ↔ ∃ m₁', t.Does m₁ deed m₁' t'
  changes : ∀ deed m' t', t.Does m deed m' t' →
    Memory.ChangesOnly (fun a => t.Owns a ∨ t'.Owns a) m m'

theorem Keeps.symm (h : t.Keeps After m m₁) : t.Keeps After m₁ m := by
  intro hd
  obtain ⟨A, hm, hm₁⟩ := h hd
  exact ⟨A, hm₁, hm⟩

variable [Source σ] [Source τ]

theorem Keeps.isolated (hc : Source.Contract After) (h : t.Keeps After m m₁) :
    t.Isolated m m₁ where
  picture := h.picture_eq
  does deed t' := by
    constructor
    · rintro ⟨m', hdoes⟩
      obtain ⟨⟨m₁', hdoes₁, -⟩, -⟩ := h.does hc hdoes
      exact ⟨m₁', hdoes₁⟩
    · rintro ⟨m₁', hdoes₁⟩
      obtain ⟨⟨m', hdoes, -⟩, -⟩ := h.symm.does hc hdoes₁
      exact ⟨m', hdoes⟩
  changes _ _ _ hdoes := (h.does hc hdoes).2

/-- Each heap does alone what it does among others. -/
theorem Interleaving.keeps {m₂ : Memory} {deeds : List ((Deed × Reply) ⊕ (Deed × Reply))}
    (hc : Source.Contract After) (hc' : Source.Contract After')
    (hrun : Interleaving m t u deeds m' t' u') (hapart : t.Apart u) (ht : t.Keeps After m m₁)
    (hu : u.Keeps After' m m₂) :
    (∃ m₁', t.Run m₁ (deeds.filterMap Sum.getLeft?) m₁' t' ∧ t'.Keeps After m' m₁') ∧
      ∃ m₂', u.Run m₂ (deeds.filterMap Sum.getRight?) m₂' u' ∧ u'.Keeps After' m' m₂' := by
  induction hrun generalizing m₁ m₂ with
  | nil m t u => exact ⟨⟨m₁, .nil m₁ t, ht⟩, m₂, .nil m₂ u, hu⟩
  | left hdoes hapart' _ ih =>
    obtain ⟨⟨n₁, hdoes₁, ht'⟩, hchanges⟩ := ht.does hc hdoes
    have hu' := hu.of_changesOnly hchanges fun a ha =>
      not_or.mpr ⟨hapart.symm.not_owns ha, hapart'.symm.not_owns ha⟩
    obtain ⟨⟨m₁', hrun₁, hlast⟩, hright⟩ := ih hapart' ht' hu'
    exact ⟨⟨m₁', .cons hdoes₁ hrun₁, hlast⟩, hright⟩
  | right hdoes hapart' _ ih =>
    obtain ⟨⟨n₂, hdoes₂, hu'⟩, hchanges⟩ := hu.does hc' hdoes
    have ht' := ht.of_changesOnly hchanges fun a ha =>
      not_or.mpr ⟨hapart.not_owns ha, hapart'.not_owns ha⟩
    obtain ⟨hleft, m₂', hrun₂, hlast⟩ := ih hapart' ht' hu'
    exact ⟨hleft, m₂', .cons hdoes₂ hrun₂, hlast⟩

/-- Two heaps share a memory, and no range is ever out to both. Then whatever is done with them in
whatever order, each comes to be what it is when the same is done with it alone, in any memory, with
the same replies, and it looks the same. What is done next with one of them may be done with it alone
and comes to the same, and changes no word outside its own ranges. -/
theorem isolated_of_interleaving (hc : Source.Contract After) (hc' : Source.Contract After')
    {config config' : Config} {source : σ} {source' : τ}
    {deeds : List ((Deed × Reply) ⊕ (Deed × Reply))} (hs : After source [])
    (hs' : After' source' [])
    (hrun : Interleaving m (start config source) (start config' source') deeds m' t u)
    (memory : Memory) :
    (∃ m₁, (start config source).Run memory (deeds.filterMap Sum.getLeft?) m₁ t ∧
      t.Isolated m' m₁) ∧
    ∃ m₂, (start config' source').Run memory (deeds.filterMap Sum.getRight?) m₂ u ∧
      u.Isolated m' m₂ := by
  obtain ⟨⟨m₁, hrun₁, ht⟩, m₂, hrun₂, hu⟩ :=
    hrun.keeps hc hc' nofun (.start hs) (.start hs')
  exact ⟨⟨m₁, hrun₁, ht.isolated hc⟩, m₂, hrun₂, hu.isolated hc'⟩

/-- Of two heaps in one memory, one is dropped while the other has a live block. -/
theorem isolated_after_drop : ∃ (m : Memory) (t u : Tenant Arena),
    Interleaving ∅ (start {} { base := 0x10000 }) (start {} { base := 0x5000000000 })
      [.inl (.act (.allocate 100), .allocated (.ok 0x10020)),
        .inr (.act (.allocate 50), .allocated (.ok 0x5000000020)), .inl (.drop, .done),
        .inr (.act .check, .violations [])] m t u ∧ t.dropped = true ∧
      ∃ m₂, (start {} { base := 0x5000000000 }).Run ∅
        [(.act (.allocate 50), .allocated (.ok 0x5000000020)), (.act .check, .violations [])]
        m₂ u ∧ u.Isolated m m₂ := by
  have hleft : Arena.Serves { base := 0x10000 } [] :=
    Arena.serves_new ⟨12, by decide, by decide, rfl⟩ rfl (by decide) (by decide) rfl rfl
  have hright : Arena.Serves { base := 0x5000000000 } [] :=
    Arena.serves_new ⟨12, by decide, by decide, rfl⟩ rfl (by decide) (by decide) rfl rfl
  obtain ⟨A, source, hregions, hcalls, hout⟩ : ∃ (A : Shape) (source : Recorder Arena),
      A.regions = [⟨0x10000, 4096⟩] ∧ source.calls = [.mapped ⟨0x10000, 4096⟩] ∧
      Outline.step ⟨{}, { inner := { base := 0x10000 } }, ⟨[], []⟩, 0⟩ (.allocate 100) =
        some (.allocated (.ok 0x10020), ⟨{}, source, A, 0⟩) :=
    ⟨_, _, by exact rfl, by exact rfl, rfl⟩
  obtain ⟨B, source', hcalls', hout'⟩ : ∃ (B : Shape) (source' : Recorder Arena),
      source'.calls = [.mapped ⟨0x5000000000, 4096⟩] ∧
      Outline.step ⟨{}, { inner := { base := 0x5000000000 } }, ⟨[], []⟩, 0⟩ (.allocate 50) =
        some (.allocated (.ok 0x5000000020), ⟨{}, source', B, 0⟩) :=
    ⟨_, _, by exact rfl, rfl⟩
  obtain ⟨m₁, heap, hdoes₁, ht₁, hout₁⟩ := exists_does Arena.contract
    (show ((start {} { base := 0x10000 }).session ∅).InOrder _ ⟨[], []⟩ from
      Session.inOrder_start ⟨rfl, hleft⟩) rfl (by exact trivial) hout
  obtain ⟨m₂, heap', hdoes₂, hu₂, hout₂⟩ := exists_does Arena.contract
    (show ((start {} { base := 0x5000000000 }).session m₁).InOrder _ ⟨[], []⟩ from
      Session.inOrder_start ⟨rfl, hright⟩) rfl (by exact trivial) hout'
  have hcheck := HeapM.check_run hu₂.has hu₂.settled
  obtain ⟨cs, hbooked⟩ := ht₁.booked
  have hdrop := HeapM.releaseAll_run (w := ⟨m₂, heap, []⟩) hbooked.countable
  have hsource : heap.source = source := congrArg Outline.source hout₁
  have hsource' : heap'.source = source' := congrArg Outline.source hout₂
  have hheld : heap.regions = [⟨0x10000, 4096⟩] := ht₁.has.regions.trans hregions
  have hlive : Call.live heap.source.calls = [⟨0x10000, 4096⟩] := by
    rw [hsource, hcalls]
    rfl
  have hlive' : Call.live heap'.source.calls = [⟨0x5000000000, 4096⟩] := by
    rw [hsource', hcalls']
    rfl
  have hnone : Call.live (Source.unmapAll heap.source heap.regions).calls = [] := by
    rw [hheld, hsource]
    show (Call.live source.calls).erase _ = []
    rw [hcalls]
    rfl
  obtain ⟨m, t, u, hrun, hdropped⟩ : ∃ (m : Memory) (t u : Tenant Arena),
      Interleaving ∅ (start {} { base := 0x10000 }) (start {} { base := 0x5000000000 })
        [.inl (.act (.allocate 100), .allocated (.ok 0x10020)),
          .inr (.act (.allocate 50), .allocated (.ok 0x5000000020)), .inl (.drop, .done),
          .inr (.act .check, .violations [])] m t u ∧ t.dropped = true := by
    refine ⟨_, _, _, .left hdoes₁ nofun <| .right hdoes₂ ?_ <| .left (.drop rfl hdrop) ?_ <|
      .right (.act rfl trivial ((run_bind_ok hcheck).trans rfl)) ?_ <| .nil _ _ _, rfl⟩
    · simp [Apart, hlive, hlive', Region.Apart]
    · simp [Apart, hnone]
    · simp [Apart, hnone]
  exact ⟨m, t, u, hrun, hdropped,
    (isolated_of_interleaving Arena.contract Arena.contract hleft hright hrun ∅).2⟩

end Tenant

end BoundaryTag
