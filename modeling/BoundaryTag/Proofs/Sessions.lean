import BoundaryTag.Proofs.Allocating
import BoundaryTag.Proofs.Bytes

/-!
# Sessions

A session is a heap together with the blocks that were handed out and not taken back. Its callers
may ask for anything, but they release only what was handed out, and write only into such blocks
(`Session.Permits`). Whatever they do then, the heap is in order and has exactly the blocks in use
that were handed out (`Session.InOrder`): each act keeps it so (`InOrder.step`), and so does every
run (`InOrder.run`).

What is replied and what becomes of the heap is what its outline says (`Outline.step`), in whatever
memory the heap is (`InOrder.perform_of_outline`).
-/

namespace BoundaryTag

/-- A block that was handed out. -/
structure Grant where
  payload : Nat
  /-- The number of bytes that were asked for. -/
  size : Nat
deriving DecidableEq, Repr

/-- What a caller may do. -/
inductive Act where
  | allocate (size : Nat)
  | release (payload : Nat)
  | reset
  | write (address value : Nat)
  | check
  | freeBlocks
deriving DecidableEq, Repr

/-- What comes of an act. -/
inductive Reply where
  /-- A payload, or why there is none. -/
  | allocated (answer : Except AllocError Nat)
  | done
  | violations (found : List Violation)
  | count (n : Nat)

/-- A heap and what it has handed out. -/
structure Session (σ : Type) where
  world : World σ
  live : List Grant := []

namespace Act

/-- The blocks that are live after an act. -/
def grants (live : List Grant) : Act → Reply → List Grant
  | allocate size, .allocated (.ok payload) => { payload, size } :: live
  | release payload, _ => live.filter (·.payload ≠ payload)
  | reset, _ => []
  | _, _ => live

/-- The act leaves a block live that has this payload. -/
def Spares (act : Act) (payload : Nat) : Prop := act ≠ .release payload ∧ act ≠ .reset

/-- The act stores no byte. -/
def Quiet (act : Act) : Prop := ∀ address value, act ≠ .write address value

variable {σ : Type} [Source σ]

def perform : Act → HeapM σ Reply
  | allocate size => return .allocated (← HeapM.allocate size)
  | release payload => do
    HeapM.release payload
    return .done
  | reset => do
    HeapM.reset
    return .done
  | write address value => do
    HeapM.store (·.writeByte address value)
    return .done
  | check => return .violations (← HeapM.check)
  | freeBlocks => return .count (← HeapM.freeBlocks)

end Act

/-- What is so of growing and of giving back regions is so of every act. -/
theorem HeapM.Compositional.perform {σ : Type} [Source σ] {S : {α : Type} → HeapM σ α → Prop}
    (hS : Compositional S) (hgrow : ∀ request, S (grow request))
    (hregion : ∀ sentinel, S (releaseRegion sentinel)) (hall : S releaseAll) (act : Act) :
    S act.perform := by
  cases act with
  | allocate size => exact hS.bind (hS.allocate hgrow size) fun _ => hS.plain (plain_pure _)
  | release payload => exact hS.bind (hS.release hregion payload) fun _ => hS.plain (plain_pure _)
  | reset => exact hS.bind (hS.reset hall) fun _ => hS.plain (plain_pure _)
  | write => exact hS.plain ((plain_store _).bind fun _ => plain_pure _)
  | check => exact hS.plain (plain_check.bind fun _ => plain_pure _)
  | freeBlocks => exact hS.plain (plain_freeBlocks.bind fun _ => plain_pure _)

namespace Session

variable {σ : Type}

/-- A session with a new heap, whatever is in memory. -/
def start (config : Config) (source : σ) (memory : Memory) : Session σ where
  world := .fresh config source memory

/-- The payload of a live block has `n` bytes. -/
def HasSize (s : Session σ) (g : Grant) (n : Nat) : Prop :=
  s.world.memory.payloadSize (blockOf g.payload) = .ok n

/-- Callers give back what is live, and write into payloads of live blocks. -/
def Permits (s : Session σ) : Act → Prop
  | .release payload => ∃ g ∈ s.live, g.payload = payload
  | .write address _ => ∃ g ∈ s.live, ∃ n, s.HasSize g n ∧
      g.payload ≤ address ∧ address < g.payload + n
  | _ => True

variable [Source σ]

/-- An act that is permitted and returns. -/
inductive Step : Session σ → Act → Session σ → Prop
  | intro {s : Session σ} {act : Act} {reply : Reply} {w' : World σ} : s.Permits act →
    act.perform s.world = .ok reply w' → Step s act ⟨w', act.grants s.live reply⟩

inductive Run : Session σ → List Act → Session σ → Prop
  | nil (s : Session σ) : Run s [] s
  | cons {s s' s'' : Session σ} {act : Act} {acts : List Act} : s.Step act s' → Run s' acts s'' →
    Run s (act :: acts) s''

end Session

/-! ### What an act does -/

section
variable {σ : Type} [Source σ]

/-- A heap that gives up all regions and starts over. -/
def Outline.reset (o : Outline σ) : Outline σ :=
  { o with
    source := Source.unmapAll o.source o.shape.regions
    shape := ⟨[], []⟩
    unmaps := o.unmaps + o.shape.regions.length }

/-- What comes of an act and what becomes of the heap, by what its source answers. -/
def Outline.step (o : Outline σ) : Act → Option (Reply × Outline σ)
  | .allocate size => (o.allocate size).map fun (answer, o) => (.allocated answer, o)
  | .release payload => (o.release payload).map fun o => (.done, o)
  | .reset => some (.done, o.reset)
  | .write _ _ => some (.done, o)
  | .check => some (.violations [], o)
  | .freeBlocks => some (.count o.shape.free.length, o)

theorem Outline.config_of_step {o o' : Outline σ} {act : Act} {reply : Reply}
    (h : o.step act = some (reply, o')) : o'.config = o.config := by
  cases act with
  | allocate size =>
    obtain ⟨⟨answer, o₁⟩, hallocate, heq⟩ := Option.map_eq_some_iff.mp h
    cases heq
    have hgrow : ∀ {needed : Nat} {answer : Except AllocError Nat} {o₁ : Outline σ},
        o.grow needed = some (answer, o₁) → o₁.config = o.config := by
      intro needed answer o₁ hgrow
      rcases grow_cases hgrow with ⟨-, rfl⟩ | ⟨_, _, _, -, -, rfl⟩ | ⟨_, _, _, -, -, rfl⟩ <;> rfl
    rcases allocate_cases hallocate with ⟨_, -, rfl | ⟨_, h₁⟩⟩ | ⟨_, o₁, _, _, h₁, -, -, rfl⟩
    · rfl
    · exact hgrow h₁
    · rcases h₁ with rfl | h₁
      · rfl
      · exact (hgrow h₁ :)
  | release payload =>
    obtain ⟨o₁, hrelease, heq⟩ := Option.map_eq_some_iff.mp h
    cases heq
    obtain ⟨⟨C, b⟩, -, rfl⟩ := Option.map_eq_some_iff.mp hrelease
    show (o.reclaim (Site.freed C b o.shape.free).joined).config = o.config
    rcases o.reclaim_cases (Site.freed C b o.shape.free).joined with ⟨-, -, h₁⟩ | ⟨-, h₁⟩ <;>
      rw [h₁]
  | reset | write | check | freeBlocks =>
    cases h
    rfl

end

/-! ### The invariant -/

/-- The grant names the block: it has its payload, which is as large as the request needs and not
so much larger that it could have been split. -/
structure Grant.Names (g : Grant) (b : Block) : Prop where
  payload : g.payload = payloadOf b.addr
  room : servedSize g.size + 32 ≤ b.span
  slack : b.span ≤ servedSize g.size + 64

/-- The blocks in use are those that were handed out, each once. -/
structure Shape.Grants (A : Shape) (live : List Grant) : Prop where
  names : ∀ g ∈ live, ∃ b, A.Uses b ∧ g.Names b
  named : ∀ b, A.Uses b → ∃ g ∈ live, g.payload = payloadOf b.addr
  distinct : (live.map Grant.payload).Nodup

variable {σ : Type} {After : σ → List Call → Prop} {A A' : Shape} {live : List Grant}
  {b c d : Block} {g : Grant} {w w' : World σ} {s s' : Session σ} {act : Act} {acts : List Act}

/-- The heap is in order, its books are right, and it has the blocks in use that are live. -/
structure Session.InOrder (After : σ → List Call → Prop) (s : Session σ) (A : Shape) : Prop where
  has : s.world.Has A
  settled : A.Settled
  booked : ∃ cs, s.world.heap.Booked After cs
  grants : A.Grants s.live

theorem payloadOf_inj {x y : Nat} : payloadOf x = payloadOf y ↔ x = y := by
  unfold payloadOf
  omega

theorem Grant.Names.blockOf_eq (h : g.Names b) : blockOf g.payload = b.addr := by
  rw [h.payload, blockOf_payloadOf]

namespace Shape.Grants

theorem of_uses (h : A.Grants live) (huses : ∀ c, A'.Uses c ↔ A.Uses c) : A'.Grants live where
  names g hg := by
    obtain ⟨b, hb, hnames⟩ := h.names g hg
    exact ⟨b, (huses b).mpr hb, hnames⟩
  named b hb := h.named b ((huses b).mp hb)
  distinct := h.distinct

theorem allocate (h : A.Grants live) (hs : A'.Sound) (huses : ∀ c, A'.Uses c ↔ c = d ∨ A.Uses c)
    (hfresh : ∀ c, A.Uses c → c ≠ d) {size : Nat} (hroom : servedSize size + 32 ≤ d.span)
    (hslack : d.span ≤ servedSize size + 64) :
    A'.Grants ({ payload := payloadOf d.addr, size } :: live) where
  names g hg := by
    rcases List.mem_cons.mp hg with rfl | hg
    · exact ⟨d, (huses d).mpr (.inl rfl), rfl, hroom, hslack⟩
    · obtain ⟨b, hb, hnames⟩ := h.names g hg
      exact ⟨b, (huses b).mpr (.inr hb), hnames⟩
  named b hb := by
    rcases (huses b).mp hb with rfl | hb
    · exact ⟨_, List.mem_cons_self, rfl⟩
    · obtain ⟨g, hg, hpayload⟩ := h.named b hb
      exact ⟨g, List.mem_cons_of_mem _ hg, hpayload⟩
  distinct := by
    refine List.nodup_cons.mpr ⟨fun hin => ?_, h.distinct⟩
    obtain ⟨g, hg, hpayload⟩ := List.mem_map.mp hin
    obtain ⟨b, hb, hnames⟩ := h.names g hg
    have haddr : b.addr = d.addr := payloadOf_inj.mp (hnames.payload.symm.trans hpayload)
    exact hfresh b hb (hs.laid.eq_of_addr ((huses b).mpr (.inr hb)).1 ((huses d).mpr (.inl rfl)).1
      haddr)

theorem release (h : A.Grants live) (hs : A.Sound) (hb : A.Uses b)
    (huses : ∀ c, A'.Uses c ↔ A.Uses c ∧ c ≠ b) :
    A'.Grants (live.filter (·.payload ≠ payloadOf b.addr)) where
  names g hg := by
    obtain ⟨hg, hne⟩ := List.mem_filter.mp hg
    obtain ⟨c, hc, hnames⟩ := h.names g hg
    refine ⟨c, (huses c).mpr ⟨hc, ?_⟩, hnames⟩
    rintro rfl
    exact of_decide_eq_true hne hnames.payload
  named c hc := by
    obtain ⟨hc, hne⟩ := (huses c).mp hc
    obtain ⟨g, hg, hpayload⟩ := h.named c hc
    refine ⟨g, List.mem_filter.mpr ⟨hg, decide_eq_true fun heq => hne ?_⟩, hpayload⟩
    exact hs.laid.eq_of_addr hc.1 hb.1 (payloadOf_inj.mp (hpayload.symm.trans heq))
  distinct := h.distinct.sublist (List.filter_sublist.map _)

theorem nil : Grants ⟨[], []⟩ [] := ⟨nofun, fun _ hb => (nomatch hb.1), .nil⟩

end Shape.Grants

/-! ### Starting -/

theorem Shape.settled_nil : Settled ⟨[], []⟩ where
  laid := ⟨nofun, .nil⟩
  nodup := .nil
  listed := nofun
  complete := nofun
  coalesced := nofun

namespace Session

theorem inOrder_start {config : Config} {source : σ} {memory : Memory} (hs : After source []) :
    (start config source memory).InOrder After ⟨[], []⟩ where
  has := ⟨Shape.settled_nil.toSound, ⟨nofun, trivial⟩, rfl, rfl, rfl, Nat.two_pow_pos 64, rfl,
    Nat.two_pow_pos 64⟩
  settled := Shape.settled_nil
  booked := ⟨[], Heap.booked_new hs⟩
  grants := .nil

/-! ### Steps -/

namespace InOrder

theorem hasSize_iff (h : s.InOrder After A) (hb : A.Uses b) (hg : g.Names b) {n : Nat} :
    s.HasSize g n ↔ n = b.span - 32 := by
  obtain ⟨-, -, -, -, hroom⟩ := h.has.block_sound hb.1
  unfold HasSize
  rw [hg.blockOf_eq, (h.has.marked hb.1).payloadSize_eq hroom]
  exact ⟨fun h => (Except.ok.inj h).symm, fun h => congrArg _ h.symm⟩

/-- What was written down of the source are the regions and their number. -/
theorem recorded {s : Session (Recorder σ)} (h : s.InOrder (Recorder.Wrote After) A) :
    (Call.live s.world.heap.source.calls).Perm A.regions ∧
      Call.maps s.world.heap.source.calls = s.world.heap.maps := by
  obtain ⟨cs, hbooked⟩ := h.booked
  rw [hbooked.tracked.after.1, ← h.has.regions]
  exact ⟨hbooked.tracked.live, hbooked.tracked.maps.symm⟩

/-- Memory may change where the heap has no word of its own. -/
theorem of_changesOnly (h : s.InOrder After A) {P : Nat → Prop} {m : Memory}
    (hc : Memory.ChangesOnly P s.world.memory m) (hP : ∀ a, A.Reserved a → ¬P a) :
    InOrder After ⟨{ s.world with memory := m }, s.live⟩ A where
  has :=
    have H := h.has
    ⟨H.sound, H.inMemory.of_changesOnly H.sound hc hP, H.regions, H.free, H.heapSize,
      H.heapSize_lt, H.maps, H.maps_lt⟩
  settled := h.settled
  booked := h.booked
  grants := h.grants

/-- Storing a byte in the payload of a block in use. -/
theorem write (h : s.InOrder After A) (hb : A.Uses b) {a v : Nat} (hlo : b.addr + 32 ≤ a)
    (hhi : a < b.addr + b.span) :
    InOrder After ⟨{ s.world with memory := s.world.memory.writeByte a v }, s.live⟩ A := by
  obtain ⟨-, -, hal, -, -⟩ := h.has.block_sound hb.1
  refine h.of_changesOnly Memory.changesOnly_writeByte fun w hw hwa => ?_
  have hword : w = a / 8 * 8 := hwa
  exact hw.2 b hb.1 hb.2 ⟨by omega, by omega⟩

variable [Source σ]

/-- Starting over returns and leaves no block live. -/
theorem reset (hc : Source.Disjoint After) (h : s.InOrder After A) :
    ∃ w', HeapM.reset s.world = .ok () w' ∧ InOrder After ⟨w', []⟩ ⟨[], []⟩ ∧
      w'.memory = s.world.memory ∧ w'.outline ⟨[], []⟩ = (s.world.outline A).reset := by
  obtain ⟨cs, hbooked⟩ := h.booked
  have hrun := HeapM.reset_run hbooked.countable
  obtain ⟨cs', hbooked', -⟩ := HeapM.reset_booked hc hbooked hrun
  have hmaps := h.has.maps
  rw [← h.has.regions] at hmaps
  refine ⟨_, hrun, ⟨⟨Shape.settled_nil.toSound, ⟨nofun, trivial⟩, rfl, rfl, rfl, Nat.two_pow_pos 64,
    hmaps, h.has.maps_lt⟩, Shape.settled_nil, ⟨cs', hbooked'⟩, .nil⟩, rfl, ?_⟩
  rw [h.has.regions]
  rfl

/-- Releasing a live block returns. -/
theorem release (hd : Source.Disjoint After) (h : s.InOrder After A) {p : Nat}
    (hp : s.Permits (.release p)) :
    ∃ b w' A', p = payloadOf b.addr ∧ A.Uses b ∧ (Act.release p).perform s.world = .ok .done w' ∧
      InOrder After ⟨w', (Act.release p).grants s.live .done⟩ A' ∧ s.world.Releases A b w' A' := by
  obtain ⟨cs, hbooked⟩ := h.booked
  obtain ⟨g, hg, rfl⟩ := hp
  obtain ⟨b, hb, hnames⟩ := h.grants.names g hg
  obtain ⟨w', A', hrun, hreleases⟩ := HeapM.release_run h.has h.settled hb
  rw [hnames.payload]
  refine ⟨b, w', A', rfl, hb, (run_bind_ok hrun).trans rfl, ?_, hreleases⟩
  exact ⟨hreleases.has, hreleases.settled, HeapM.release_booked hd hbooked hrun,
    h.grants.release h.has.sound hb hreleases.uses⟩

/-- A permitted act returns and keeps the session in order. Blocks that it spares stay in use, and
but for a write their payloads stay as they are. No word changes outside the regions that the heap
had or then has. The only fault is that the regions mapped so far can no longer be counted, and it
leaves the blocks in order. -/
theorem step (hc : Source.Contract After) (h : s.InOrder After A) (hp : s.Permits act) :
    (∃ reply w' A', act.perform s.world = .ok reply w' ∧
      InOrder After ⟨w', act.grants s.live reply⟩ A' ∧
      (s.world.outline A).step act = some (reply, w'.outline A') ∧
      Memory.ChangesOnly (fun a => A.Spans a ∨ A'.Spans a) s.world.memory w'.memory ∧
      ∀ b, A.Uses b → act.Spares (payloadOf b.addr) →
        A'.Uses b ∧ (act.Quiet → s.world.memory.SamePayload w'.memory b)) ∨
    ∃ w' A', act.perform s.world = .error .addOverflow w' ∧ w'.Exhausted After ∧ w'.Holds A' ∧
      A'.Grants s.live ∧ (s.world.outline A).step act = none := by
  obtain ⟨cs, hbooked⟩ := h.booked
  cases act with
  | allocate size =>
    rcases HeapM.allocate_run hc hbooked h.has h.settled size with ⟨e, w', hrun, H', hmem, hout⟩ |
      ⟨d, w', A', hrun, hserves, hout⟩ | ⟨w', A', hrun, hexhausted, hholds, huses, hout⟩
    · refine .inl ⟨_, w', A, (run_bind_ok hrun).trans rfl,
        ⟨H', h.settled, HeapM.allocate_booked hc.toDisjoint hbooked hrun, h.grants⟩, ?_,
        fun a _ => by rw [hmem], fun b hb _ => ⟨hb, fun _ a _ _ => by rw [hmem]⟩⟩
      exact congrArg (Option.map _) hout
    · exact .inl ⟨_, w', A', (run_bind_ok hrun).trans rfl,
        ⟨hserves.has, hserves.settled, HeapM.allocate_booked hc.toDisjoint hbooked hrun,
          h.grants.allocate hserves.has.sound hserves.uses hserves.fresh hserves.room
            hserves.slack⟩,
        congrArg (Option.map _) hout, hserves.changes.mono fun _ => .inr,
        fun b hb _ => ⟨(hserves.uses b).mpr (.inr hb), fun _ => hserves.payloads b hb⟩⟩
    · exact .inr ⟨w', A', run_bind_error hrun, hexhausted, hholds, h.grants.of_uses huses,
        congrArg (Option.map _) hout⟩
  | release payload =>
    obtain ⟨b, w', A', rfl, -, hrun, h', hreleases⟩ := h.release hc.toDisjoint hp
    refine .inl ⟨_, w', A', hrun, h', congrArg (Option.map _) hreleases.outline,
      hreleases.changes.mono fun _ => .inl, fun c hc hspares => ?_⟩
    have hc' : A'.Uses c := (hreleases.uses c).mpr ⟨hc, by
      rintro rfl
      exact hspares.1 rfl⟩
    exact ⟨hc', fun _ => hreleases.payloads c hc'⟩
  | reset =>
    obtain ⟨w', hrun, h', hmem, hout⟩ := h.reset hc.toDisjoint
    exact .inl ⟨_, w', _, (run_bind_ok hrun).trans rfl, h', by rw [hout]; rfl,
      fun a _ => by rw [hmem], fun _ _ hspares => absurd rfl hspares.2⟩
  | write a v =>
    obtain ⟨g, hg, n, hsize, hlo, hhi⟩ := hp
    obtain ⟨b, hb, hnames⟩ := h.grants.names g hg
    obtain rfl := (h.hasSize_iff hb hnames).mp hsize
    obtain ⟨-, -, hal, -, hroom⟩ := h.has.block_sound hb.1
    rw [hnames.payload] at hlo hhi
    unfold payloadOf headerSize at hlo hhi
    refine .inl ⟨.done, _, A, rfl, h.write hb hlo (by omega), rfl,
      Memory.changesOnly_writeByte.mono fun w hw => .inl ?_,
      fun c hc _ => ⟨hc, fun hquiet => absurd rfl (hquiet a v)⟩⟩
    have hword : w = a / 8 * 8 := hw
    exact h.has.sound.spans_of_mem hb.1 (by omega) (by omega)
  | check =>
    exact .inl ⟨_, s.world, A, (run_bind_ok (HeapM.check_run h.has h.settled)).trans rfl, h, rfl,
      .refl _ _, fun b hb _ => ⟨hb, fun _ _ _ _ => rfl⟩⟩
  | freeBlocks =>
    exact .inl ⟨_, s.world, A, (run_bind_ok (HeapM.freeBlocks_run h.has)).trans rfl, h, rfl,
      .refl _ _, fun b hb _ => ⟨hb, fun _ _ _ _ => rfl⟩⟩

/-- What is known of an act that has returned. -/
theorem of_perform (hc : Source.Contract After) (h : s.InOrder After A) (hp : s.Permits act)
    {reply : Reply} (hperform : act.perform s.world = .ok reply w') :
    ∃ A', InOrder After ⟨w', act.grants s.live reply⟩ A' ∧
      (s.world.outline A).step act = some (reply, w'.outline A') ∧
      Memory.ChangesOnly (fun a => A.Spans a ∨ A'.Spans a) s.world.memory w'.memory ∧
      ∀ b, A.Uses b → act.Spares (payloadOf b.addr) →
        A'.Uses b ∧ (act.Quiet → s.world.memory.SamePayload w'.memory b) := by
  rcases h.step hc hp with ⟨reply, w', A', hrun, h'⟩ | ⟨w', A', hrun, -⟩
  · cases hperform.symm.trans hrun
    exact ⟨A', h'⟩
  · cases hperform.symm.trans hrun

/-- What the outline says comes of an act is what does. -/
theorem perform_of_outline (hc : Source.Contract After) (h : s.InOrder After A)
    (hp : s.Permits act) {reply : Reply} {o : Outline σ}
    (hout : (s.world.outline A).step act = some (reply, o)) :
    ∃ w', act.perform s.world = .ok reply w' ∧
      InOrder After ⟨w', act.grants s.live reply⟩ o.shape ∧ w'.outline o.shape = o := by
  rcases h.step hc hp with ⟨reply', w', A', hrun, h', hout', -⟩ | ⟨w', A', -, -, -, -, hnone⟩
  · obtain ⟨rfl, rfl⟩ := Prod.mk.inj (Option.some.inj (hout'.symm.trans hout))
    exact ⟨w', hrun, h', rfl⟩
  · nomatch hnone.symm.trans hout

theorem of_step (hc : Source.Contract After) (h : s.InOrder After A) (hstep : s.Step act s') :
    ∃ reply A', s'.InOrder After A' ∧ s'.live = act.grants s.live reply ∧
      (s.world.outline A).step act = some (reply, s'.world.outline A') ∧
      ∀ b, A.Uses b → act.Spares (payloadOf b.addr) →
        A'.Uses b ∧ (act.Quiet → s.world.memory.SamePayload s'.world.memory b) := by
  obtain ⟨hp, hrun⟩ := hstep
  obtain ⟨A', h', hout, -, hsame⟩ := h.of_perform hc hp hrun
  exact ⟨_, A', h', rfl, hout, hsame⟩

/-- What a heap grows into is in order. -/
theorem sound_of_grow (hc : Source.Contract After) (h : s.InOrder After A) {needed : Nat}
    (hmin : 16 ≤ needed) {answer : Except AllocError Nat} {o : Outline σ}
    (hgrow : (s.world.outline A).grow needed = some (answer, o)) : o.shape.Sound := by
  obtain ⟨cs, hbooked⟩ := h.booked
  rcases HeapM.grow_run hc hbooked h.has h.settled hmin with ⟨e, w', -, H', -, hout⟩ |
    ⟨r, w', -, -, H', -, hout⟩ | ⟨r, w', -, -, -, hout⟩
  · cases hgrow.symm.trans hout
    exact H'.sound
  · cases hgrow.symm.trans hout
    exact H'.sound
  · cases hgrow.symm.trans hout

/-- A run keeps the session in order. -/
theorem run (hc : Source.Contract After) (h : s.InOrder After A) (hrun : s.Run acts s') :
    ∃ A', s'.InOrder After A' := by
  induction hrun generalizing A with
  | nil s => exact ⟨A, h⟩
  | cons hstep _ ih =>
    obtain ⟨-, A', h', -⟩ := h.of_step hc hstep
    exact ih h'

end InOrder

end Session

end BoundaryTag
