import BoundaryTag.Proofs.Arenas
import BoundaryTag.Proofs.Sessions

/-!
# Payloads of live blocks

While a block is live, its payload belongs to the caller: it is aligned, large enough, of one size,
apart from all other live blocks, and nothing but the caller's own writes changes a byte of it.
-/

namespace BoundaryTag

variable {σ : Type} {After : σ → List Call → Prop} {A A' : Shape} {live : List Grant} {b : Block}
  {g g' : Grant} {s s' : Session σ} {act : Act} {acts : List Act} {reply : Reply} {a n v : Nat}

/-- A block stays live through acts that spare it. -/
theorem Act.mem_grants (hg : g ∈ live) (hspares : act.Spares g.payload) :
    g ∈ act.grants live reply := by
  cases act with
  | allocate size =>
    unfold grants
    split
    · exact List.mem_cons_of_mem _ hg
    all_goals first | exact hg | simp_all
  | release payload =>
    refine List.mem_filter.mpr ⟨hg, decide_eq_true fun heq => hspares.1 ?_⟩
    rw [heq]
  | reset => exact absurd rfl hspares.2
  | write address value => exact hg
  | check => exact hg
  | freeBlocks => exact hg

/-- The address is in the payload of a live block. -/
def Session.InPayload (s : Session σ) (a : Nat) : Prop :=
  ∃ g ∈ s.live, ∃ n, s.HasSize g n ∧ g.payload ≤ a ∧ a < g.payload + n

/-- A byte of a payload is in a word of the payload. -/
theorem Memory.SamePayload.byte_eq {m m' : Memory} (h : m.SamePayload m' b) (hal : b.addr % 16 = 0)
    (hlo : b.addr + 32 ≤ a) (hhi : a < b.addr + b.span) : m'.byte a = m.byte a := by
  rw [Memory.byte_eq, Memory.byte_eq, h (a / 8 * 8) (by omega) (by omega)]

namespace Session.InOrder

/-- Where a live block is. -/
theorem region_of_uses (h : s.InOrder After A) (hb : A.Uses b) :
    ∃ r ∈ s.world.heap.regions, r.base ≤ b.addr ∧ b.addr + b.span ≤ r.terminator := by
  obtain ⟨t, ht, hbt⟩ := mem_blocksOf.mp hb.1
  have hw := (h.has.sound.laid.sound t ht).within hbt
  exact ⟨t.region, by rw [h.has.regions]; exact List.mem_map_of_mem ht, hw.lo, hw.hi⟩

/-- The heap has no word of its own in a payload. -/
theorem not_inPayload (h : s.InOrder After A) (ha : A.Reserved a) : ¬ s.InPayload a := by
  rintro ⟨g, hg, n, hn, hlo, hhi⟩
  obtain ⟨b, hb, hnames⟩ := h.grants.names g hg
  obtain rfl := (h.hasSize_iff hb hnames).mp hn
  obtain ⟨-, -, -, -, hroom⟩ := h.has.block_sound hb.1
  rw [hnames.payload] at hlo hhi
  unfold payloadOf headerSize at hlo hhi
  exact ha.2 b hb.1 hb.2 ⟨hlo, by omega⟩

/-- The heap is in order whatever its live blocks contain. -/
theorem of_payloads (h : s.InOrder After A) {m : Memory}
    (hc : Memory.ChangesOnly s.InPayload s.world.memory m) :
    InOrder After ⟨{ s.world with memory := m }, s.live⟩ A :=
  h.of_changesOnly hc fun _ ha => h.not_inPayload ha

/-- The regions are mapped. -/
theorem mapped (h : s.InOrder After A) :
    ∃ cs, After s.world.heap.source cs ∧ ∀ r ∈ s.world.heap.regions, r ∈ Call.live cs := by
  obtain ⟨cs, hbooked⟩ := h.booked
  exact ⟨cs, hbooked.tracked.after, fun r hr => hbooked.tracked.live.mem_iff.mpr hr⟩

/-- Live blocks do not overlap. -/
theorem live_apart (h : s.InOrder After A) : s.live.Pairwise fun g g' =>
    ∀ n n', s.HasSize g n → s.HasSize g' n' →
      g.payload + n + 32 ≤ g'.payload ∨ g'.payload + n' + 32 ≤ g.payload := by
  have hdistinct : s.live.Pairwise fun g g' => g.payload ≠ g'.payload :=
    List.pairwise_map.mp h.grants.distinct
  apply hdistinct.imp_of_mem
  intro g g' hg hg' hne n n' hn hn'
  obtain ⟨b, hb, hnames⟩ := h.grants.names g hg
  obtain ⟨c, hc, hnames'⟩ := h.grants.names g' hg'
  obtain rfl := (h.hasSize_iff hb hnames).mp hn
  obtain rfl := (h.hasSize_iff hc hnames').mp hn'
  have hbc : b ≠ c := by
    rintro rfl
    exact hne (hnames.payload.trans hnames'.payload.symm)
  have hapart := h.has.sound.laid.apart_of_ne hb.1 hc.1 hbc
  obtain ⟨-, -, -, -, hroom⟩ := h.has.block_sound hb.1
  obtain ⟨-, -, -, -, hroom'⟩ := h.has.block_sound hc.1
  rw [hnames.payload, hnames'.payload]
  unfold payloadOf headerSize
  omega

variable [Source σ]

/-- A step changes a byte of a payload that it spares only by a write to this very byte. -/
theorem byte_of_step (h : s.InOrder After A) (hstep : s.Step act s') (hb : A.Uses b)
    (hsame : act.Quiet → s.world.memory.SamePayload s'.world.memory b) (hlo : b.addr + 32 ≤ a)
    (hhi : a < b.addr + b.span) (hwrite : ∀ v, act ≠ .write a v) :
    s'.world.memory.byte a = s.world.memory.byte a := by
  obtain ⟨-, -, hal, -, -⟩ := h.has.block_sound hb.1
  by_cases hquiet : act.Quiet
  · exact (hsame hquiet).byte_eq hal hlo hhi
  · obtain ⟨c, v, rfl⟩ : ∃ c v, act = .write c v := by
      unfold Act.Quiet at hquiet
      push Not at hquiet
      exact hquiet
    obtain ⟨-, hrun⟩ := hstep
    cases hrun
    have hne : c ≠ a := fun hca => hwrite v (hca ▸ rfl)
    exact Memory.byte_writeByte.trans (if_neg hne)

/-- Through a run that spares it, a live block stays what it is, and so does every byte of its
payload that the run does not write. -/
theorem run_spares (hc : Source.Contract After) (h : s.InOrder After A) (hb : A.Uses b)
    (hg : g ∈ s.live) (hnames : g.Names b) (hrun : s.Run acts s')
    (hspares : ∀ act ∈ acts, act.Spares g.payload) :
    (∃ A', s'.InOrder After A' ∧ A'.Uses b) ∧ g ∈ s'.live ∧
      ∀ a, b.addr + 32 ≤ a → a < b.addr + b.span → (∀ v, .write a v ∉ acts) →
        s'.world.memory.byte a = s.world.memory.byte a := by
  induction hrun generalizing A with
  | nil s => exact ⟨⟨A, h, hb⟩, hg, fun _ _ _ _ => rfl⟩
  | @cons s s₁ s' act acts hstep _ ih =>
    have hfirst := hspares act List.mem_cons_self
    obtain ⟨-, A₁, h₁, -, -, hkeep⟩ := h.of_step hc hstep
    obtain ⟨hb₁, hsame⟩ := hkeep b hb (hnames.payload ▸ hfirst)
    have hg₁ : g ∈ s₁.live := by
      cases hstep
      exact Act.mem_grants hg hfirst
    obtain ⟨huses, hlive, hbytes⟩ :=
      ih h₁ hb₁ hg₁ fun c hc => hspares c (List.mem_cons_of_mem act hc)
    refine ⟨huses, hlive, fun a hlo hhi hwrite => ?_⟩
    rw [hbytes a hlo hhi fun v hv => hwrite v (List.mem_cons_of_mem act hv)]
    exact h.byte_of_step hstep hb hsame hlo hhi fun v hv => hwrite v (hv ▸ List.mem_cons_self)

end Session.InOrder

variable [Source σ]

/-- In every run, the payload of a live block is aligned, has room for what was asked for and at
most 32 bytes more, and lies with its header in a region that is mapped, before the terminator and
apart from all other live blocks. No act that spares the block changes its size, nor, but for a
write, a word of its payload. So after any further acts that spare the block a byte of it reads as
it did, or as it was last written. -/
theorem Session.payloads_of_run (hc : Source.Contract After) {config : Config} {source : σ}
    {memory : Memory} (hs : After source []) (hrun : (start config source memory).Run acts s) :
    (∃ cs, After s.world.heap.source cs ∧ ∀ r ∈ s.world.heap.regions, r ∈ Call.live cs) ∧
    (∀ g ∈ s.live, ∃ n, s.HasSize g n ∧ g.payload % 16 = 0 ∧ servedSize g.size ≤ n ∧
      n ≤ servedSize g.size + 32 ∧ ∃ r ∈ s.world.heap.regions,
        r.base + 32 ≤ g.payload ∧ g.payload + n ≤ r.terminator) ∧
    (s.live.Pairwise fun g g' => ∀ n n', s.HasSize g n → s.HasSize g' n' →
      g.payload + n + 32 ≤ g'.payload ∨ g'.payload + n' + 32 ≤ g.payload) ∧
    (∀ g ∈ s.live, ∀ n, s.HasSize g n → ∀ act s', s.Step act s' → act.Spares g.payload → act.Quiet →
      ∀ a, g.payload ≤ a → a < g.payload + n → s'.world.memory.read a = s.world.memory.read a) ∧
    ∀ g ∈ s.live, ∀ n, s.HasSize g n → ∀ acts' s', s.Run acts' s' →
      (∀ act ∈ acts', act.Spares g.payload) → g ∈ s'.live ∧ s'.HasSize g n ∧
        ∀ a, g.payload ≤ a → a < g.payload + n → (∀ v, .write a v ∉ acts') →
          s'.world.memory.byte a = s.world.memory.byte a ∧
            ∀ (s₁ : Session σ) (v : Nat), s₁.Step (.write a v) s →
              s'.world.memory.byte a = v % 256 := by
  obtain ⟨A, h⟩ := (inOrder_start hs).run hc hrun
  refine ⟨h.mapped, fun g hg => ?_, h.live_apart,
    fun g hg n hn act s' hstep hspares hquiet a hlo hhi => ?_,
    fun g hg n hn acts' s' hrun' hspares => ?_⟩ <;>
    obtain ⟨b, hb, hnames⟩ := h.grants.names g hg <;>
    obtain ⟨-, -, hal, -, hroom⟩ := h.has.block_sound hb.1
  · obtain ⟨r, hr, hbase, hend⟩ := h.region_of_uses hb
    have hfits := hnames.room
    have hslack := hnames.slack
    refine ⟨b.span - 32, (h.hasSize_iff hb hnames).mpr rfl, ?_, by omega, by omega, r, hr, ?_,
      ?_⟩ <;> rw [hnames.payload] <;> unfold payloadOf headerSize <;> omega
  · obtain rfl := (h.hasSize_iff hb hnames).mp hn
    obtain ⟨-, A', -, -, -, hkeep⟩ := h.of_step hc hstep
    rw [hnames.payload] at hlo hhi hspares
    unfold payloadOf headerSize at hlo hhi
    exact (hkeep b hb hspares).2 hquiet a hlo (by omega)
  · obtain rfl := (h.hasSize_iff hb hnames).mp hn
    obtain ⟨⟨A', h', hb'⟩, hlive, hbytes⟩ := h.run_spares hc hb hg hnames hrun' hspares
    refine ⟨hlive, (h'.hasSize_iff hb' hnames).mpr rfl, fun a hlo hhi hwrite => ?_⟩
    rw [hnames.payload] at hlo hhi
    unfold payloadOf headerSize at hlo hhi
    have hbyte := hbytes a hlo (by omega) hwrite
    refine ⟨hbyte, fun s₁ v hstep => hbyte.trans ?_⟩
    obtain ⟨-, hwritten⟩ := hstep
    cases hwritten
    exact Memory.byte_writeByte.trans (if_pos rfl)

theorem Session.payload_after_write : ∃ s : Session Arena,
    (start {} { base := 0x10000 } ∅).Run [.allocate 100, .write 0x10022 7] s ∧
      s.live = [{ payload := 0x10020, size := 100 }] ∧
      s.HasSize { payload := 0x10020, size := 100 } 112 ∧
      ∀ acts' s', s.Run acts' s' → (∀ act ∈ acts', act.Spares 0x10020) →
        (∀ v, .write 0x10022 v ∉ acts') →
          s'.HasSize { payload := 0x10020, size := 100 } 112 ∧
            s'.world.memory.byte 0x10022 = s.world.memory.byte 0x10022 := by
  have hserves : Arena.Serves { base := 0x10000 } [] :=
    Arena.serves_new ⟨12, by decide, by decide, rfl⟩ rfl (by decide) (by decide) rfl rfl
  obtain ⟨s, hrun, hlive, hsize⟩ : ∃ s : Session Arena,
      (start {} { base := 0x10000 } ∅).Run [.allocate 100, .write 0x10022 7] s ∧
        s.live = [{ payload := 0x10020, size := 100 }] ∧
        s.HasSize { payload := 0x10020, size := 100 } 112 :=
    ⟨_, .cons (.intro trivial rfl) (.cons (.intro
      (by exact ⟨⟨0x10020, 100⟩, List.mem_cons_self, 112, rfl, by decide, by decide⟩) rfl)
      (.nil _)), rfl, by exact rfl⟩
  refine ⟨s, hrun, hlive, hsize, fun acts' s' hrun' hspares hwrite => ?_⟩
  obtain ⟨-, hsize', hbytes⟩ := (payloads_of_run Arena.contract hserves hrun).2.2.2.2 _
    (hlive ▸ List.mem_cons_self) _ hsize _ _ hrun' hspares
  exact ⟨hsize', (hbytes 0x10022 (by decide) (by decide) hwrite).1⟩

end BoundaryTag
