import BoundaryTag.Proofs.Arenas
import BoundaryTag.Proofs.Sessions

/-!
# Consistent heaps

What being in order means for the words in memory (`World.Consistent`): the headers of every region
form a chain from its base to its terminator, the free list threads exactly the blocks that are
tagged free, and the blocks that are tagged allocated are exactly those that are live.
-/

namespace BoundaryTag

/-- The headers of the blocks `bs` follow each other from `a` to `stop`, where the last header is.
Each says how far the one before it is, which for the first is `previous`. -/
def Memory.Chain (m : Memory) (stop : Nat) (a previous : Nat) : List Nat → Prop
  | [] => a = stop ∧ m.backward a = previous ∧ m.forward a = 0 ∧ m.tag a = .allocated
  | b :: bs => b = a ∧ m.backward a = previous ∧ m.forward a % 16 = 0 ∧ 48 ≤ m.forward a ∧
    Chain m stop (a + m.forward a) (m.forward a) bs

variable {σ : Type} {m : Memory}

/-- The chain of a region leads to the block. -/
def World.HasBlock (w : World σ) (x : Nat) : Prop :=
  ∃ r ∈ w.heap.regions, ∃ bs, w.memory.Chain r.terminator r.base 0 bs ∧ x ∈ bs

/-- The words of the heap are in order, and it has the blocks `live` in use. -/
structure World.Consistent (w : World σ) (live : List Grant) : Prop where
  /-- The headers of a region lead to its terminator, and no two neighbours are free. -/
  regions : ∀ r ∈ w.heap.regions, ∃ bs, bs ≠ [] ∧ w.memory.Chain r.terminator r.base 0 bs ∧
    bs.IsChain fun b c => ¬(w.memory.tag b = .free ∧ w.memory.tag c = .free)
  /-- The free list links the free blocks, each once. -/
  free : ∃ xs, w.heap.free.head = xs.head? ∧ Linked w.memory none xs none ∧ xs.Nodup ∧
    ∀ x, x ∈ xs ↔ w.HasBlock x ∧ w.memory.tag x = .free
  /-- What is live are the payloads of the allocated blocks. -/
  live : ∀ p, (∃ g ∈ live, g.payload = p) ↔
    ∃ x, w.HasBlock x ∧ w.memory.tag x = .allocated ∧ p = payloadOf x

namespace Memory.Chain

variable {stop a previous : Nat} {bs cs : List Nat}

/-- There is one chain at most. -/
theorem unique (h : m.Chain stop a previous bs) (h' : m.Chain stop a previous cs) : bs = cs := by
  induction bs generalizing a previous cs with
  | nil =>
    cases cs with
    | nil => rfl
    | cons c cs =>
      obtain ⟨-, -, hzero, -⟩ := h
      obtain ⟨-, -, -, hroom, -⟩ := h'
      omega
  | cons b bs ih =>
    obtain ⟨rfl, -, -, hroom, htail⟩ := h
    cases cs with
    | nil =>
      obtain ⟨-, -, hzero, -⟩ := h'
      omega
    | cons c cs =>
      obtain ⟨rfl, -, -, -, htail'⟩ := h'
      rw [ih htail htail']

/-- Marked blocks that tile what is before a last header form a chain. -/
theorem of_tiles {blocks : List Block} (htiles : Tiles a blocks stop)
    (hm : ∀ b ∈ blocks, b.Marked m) (hprevious : m.backward a = previous)
    (hforward : m.forward stop = 0) (htag : m.tag stop = .allocated) :
    m.Chain stop a previous (blocks.map Block.addr) := by
  induction blocks generalizing a previous with
  | nil =>
    cases htiles
    exact ⟨rfl, hprevious, hforward, htag⟩
  | cons b blocks ih =>
    obtain ⟨rfl, hwhole, hroom, htail⟩ := htiles
    have hb := hm b List.mem_cons_self
    have hspan := hb.forward
    refine ⟨rfl, hprevious, by rw [hspan]; exact hwhole, by rw [hspan]; exact hroom, ?_⟩
    rw [hspan]
    exact ih htail (fun c hc => hm c (List.mem_cons_of_mem b hc)) hb.backward

end Memory.Chain

namespace World.Holds

variable {w : World σ} {A : Shape} {t : Tract} {live : List Grant}

theorem chain (h : w.Holds A) (ht : t ∈ A.tracts) :
    w.memory.Chain t.region.terminator t.region.base 0 (t.blocks.map Block.addr) :=
  have hm := h.inMemory.marked t ht
  .of_tiles (h.settled.laid.sound t ht).tiles hm.blocks hm.first hm.lastForward hm.lastTag

theorem hasBlock_iff (h : w.Holds A) {x : Nat} : w.HasBlock x ↔ ∃ b ∈ A.blocks, b.addr = x := by
  unfold HasBlock
  rw [h.regions]
  constructor
  · rintro ⟨r, hr, bs, hchain, hx⟩
    obtain ⟨t, ht, rfl⟩ := List.mem_map.mp hr
    rw [hchain.unique (h.chain ht)] at hx
    obtain ⟨b, hb, haddr⟩ := List.mem_map.mp hx
    exact ⟨b, mem_blocksOf.mpr ⟨t, ht, hb⟩, haddr⟩
  · rintro ⟨b, hb, rfl⟩
    obtain ⟨t, ht, hbt⟩ := mem_blocksOf.mp hb
    exact ⟨t.region, List.mem_map_of_mem ht, _, h.chain ht, List.mem_map_of_mem hbt⟩

theorem tag_eq (h : w.Holds A) {b : Block} (hb : b ∈ A.blocks) : w.memory.tag b.addr = b.tag := by
  obtain ⟨t, ht, hbt⟩ := mem_blocksOf.mp hb
  exact ((h.inMemory.marked t ht).blocks b hbt).tag

/-- Memory that holds a settled shape is consistent. -/
theorem consistent (h : w.Holds A) (hlive : A.Grants live) : w.Consistent live where
  regions r hr := by
    rw [h.regions] at hr
    obtain ⟨t, ht, rfl⟩ := List.mem_map.mp hr
    refine ⟨_, ?_, h.chain ht, ?_⟩
    · simpa using (h.settled.laid.sound t ht).nonempty
    · rw [List.isChain_map]
      apply (h.settled.coalesced t ht).imp_of_mem_imp
      intro b c hb hc hparted
      rw [h.tag_eq (mem_blocksOf.mpr ⟨t, ht, hb⟩), h.tag_eq (mem_blocksOf.mpr ⟨t, ht, hc⟩)]
      exact hparted
  free := by
    refine ⟨A.free, by rw [h.free], h.inMemory.linked, h.settled.nodup, fun x => ?_⟩
    rw [h.hasBlock_iff]
    constructor
    · intro hx
      obtain ⟨b, hb, rfl, htag⟩ := h.settled.listed x hx
      exact ⟨⟨b, hb, rfl⟩, (h.tag_eq hb).trans htag⟩
    · rintro ⟨⟨b, hb, rfl⟩, htag⟩
      exact h.settled.complete b hb ((h.tag_eq hb).symm.trans htag)
  live p := by
    constructor
    · rintro ⟨g, hg, rfl⟩
      obtain ⟨b, hb, hnames⟩ := hlive.names g hg
      exact ⟨b.addr, h.hasBlock_iff.mpr ⟨b, hb.1, rfl⟩, (h.tag_eq hb.1).trans hb.2, hnames.payload⟩
    · rintro ⟨x, hx, htag, rfl⟩
      obtain ⟨b, hb, rfl⟩ := h.hasBlock_iff.mp hx
      exact hlive.named b ⟨hb, (h.tag_eq hb).symm.trans htag⟩

end World.Holds

variable [Source σ] {After : σ → List Call → Prop}

/-- After any run the heap is consistent, and so it is after any further act that callers may do,
whether it is served or not. No act faults unless more regions were mapped than a word can count,
and then too the heap is left consistent. -/
theorem Session.consistent_of_run (hc : Source.Contract After) {config : Config} {source : σ}
    {memory : Memory} {acts : List Act} {s : Session σ} (hs : After source [])
    (hrun : (start config source memory).Run acts s) :
    s.world.Consistent s.live ∧ ∀ act, s.Permits act →
      (∃ reply w', act.perform s.world = .ok reply w' ∧
        w'.Consistent (act.grants s.live reply)) ∨
      ∃ w', act.perform s.world = .error .addOverflow w' ∧ w'.Exhausted After ∧
        w'.Consistent s.live := by
  obtain ⟨A, h⟩ := (inOrder_start hs).run hc hrun
  refine ⟨(h.has.holds h.settled).consistent h.grants, fun act hp => ?_⟩
  rcases h.step hc hp with ⟨reply, w', A', hperform, h', -⟩ |
    ⟨w', A', hperform, hexhausted, hholds, hgrants, -⟩
  · exact .inl ⟨reply, w', hperform, (h'.has.holds h'.settled).consistent h'.grants⟩
  · exact .inr ⟨w', hperform, hexhausted, hholds.consistent hgrants⟩

theorem Session.consistent_after_write : ∃ s : Session Arena,
    (start {} { base := 0x10000 } ∅).Run [.allocate 100, .write 0x10022 7] s ∧
      s.live = [{ payload := 0x10020, size := 100 }] ∧ s.world.Consistent s.live := by
  have hserves : Arena.Serves { base := 0x10000 } [] :=
    Arena.serves_new ⟨12, by decide, by decide, rfl⟩ rfl (by decide) (by decide) rfl rfl
  obtain ⟨s, hrun, hlive⟩ : ∃ s : Session Arena,
      (start {} { base := 0x10000 } ∅).Run [.allocate 100, .write 0x10022 7] s ∧
        s.live = [{ payload := 0x10020, size := 100 }] :=
    ⟨_, .cons (.intro trivial rfl) (.cons (.intro
      (by exact ⟨⟨0x10020, 100⟩, List.mem_cons_self, 112, rfl, by decide, by decide⟩) rfl)
      (.nil _)), rfl⟩
  exact ⟨s, hrun, hlive, (consistent_of_run Arena.contract hserves hrun).1⟩

end BoundaryTag
