import BoundaryTag.Proofs.Arenas
import BoundaryTag.Proofs.Sessions

/-!
# What a check does not detect

A check that finds nothing says that every free block is on the free list. The converse it does not
say: an entry may also lie inside a block, with its links in a payload (`entries_of_check`), as the
entry does that a release of an address inside a block makes (`stray_entry_after_release`).

Of the last header of a region a check reads the backward offset alone. The forward offset and the
tag, which the release of the block before it goes by, may be anything
(`Session.check_of_terminator_write`).
-/

namespace BoundaryTag

variable {m m' : Memory} {rs : List Region} {bs xs found : List Nat} {a b stop x : Nat}

/-! ### Entries that are no blocks -/

namespace Memory.Threaded

/-- The blocks of a thread leave no gap. -/
theorem exists_of_mem_range (h : m.Threaded stop a bs) (hlo : a ≤ x) (hhi : x < stop) :
    ∃ b ∈ bs, b ≤ x ∧ x < b + m.forward b := by
  induction bs generalizing a with
  | nil =>
    have hend : a = stop := h
    omega
  | cons b bs ih =>
    obtain ⟨rfl, -, -, -, htail⟩ := h
    by_cases hx : x < b + m.forward b
    · exact ⟨b, List.mem_cons_self, hlo, hx⟩
    · obtain ⟨c, hc, hin⟩ := ih htail (by omega)
      exact ⟨c, List.mem_cons_of_mem b hc, hin⟩

theorem bounds (h : m.Threaded stop a bs) (hb : b ∈ bs) :
    a ≤ b ∧ 32 ≤ m.forward b ∧ b + m.forward b ≤ stop := by
  induction bs generalizing a with
  | nil => nomatch hb
  | cons c bs ih =>
    obtain ⟨rfl, -, hroom, -, htail⟩ := h
    have hle := htail.le
    rcases List.mem_cons.mp hb with rfl | hb
    · exact ⟨Nat.le_refl _, hroom, hle⟩
    · obtain ⟨hlo, hin⟩ := ih htail hb
      exact ⟨by omega, hin⟩

theorem single (hforward : m.forward b = x) (hwhole : x % 16 = 0) (hroom : 32 ≤ x)
    (hback : m.backward (b + x) = x) : m.Threaded (b + x) b [b] := by
  subst hforward
  exact ⟨rfl, hwhole, hroom, hback, rfl⟩

/-- No block of a thread starts inside another. -/
theorem not_inside (h : m.Threaded stop a bs) (hx : x ∈ bs) (hb : b ∈ bs) :
    ¬(b < x ∧ x < b + m.forward b) := by
  induction bs generalizing a with
  | nil => nomatch hb
  | cons c bs ih =>
    obtain ⟨rfl, -, -, -, htail⟩ := h
    rcases List.mem_cons.mp hx with rfl | hxs
    · rcases List.mem_cons.mp hb with rfl | hbs
      · omega
      · have hlater := htail.bounds hbs
        omega
    · rcases List.mem_cons.mp hb with rfl | hbs
      · have hlater := htail.bounds hxs
        omega
      · exact ih htail hxs hbs

end Memory.Threaded

namespace Check

/-- The address is in a region, but past the first byte of one of its blocks or in its last
header. -/
def Inside (m : Memory) (rs : List Region) (x : Nat) : Prop :=
  ∃ r ∈ rs, ∃ bs, Ordered m r bs ∧
    ((∃ b ∈ bs, b < x ∧ x < b + m.forward b) ∨ (r.terminator ≤ x ∧ x < r.base + r.size))

/-- A free address in a region whose headers are in order is either a block or inside one. -/
theorem freeBlock_or_inside (hregions : ∀ r ∈ rs, ∃ bs, Ordered m r bs) (hfree : m.tag x = .free)
    (hx : ∃ r ∈ rs, r.base ≤ x ∧ x < r.base + r.size) : FreeBlock m rs x ∨ Inside m rs x := by
  obtain ⟨r, hr, hlo, hhi⟩ := hx
  obtain ⟨bs, hbs⟩ := hregions r hr
  by_cases hend : r.terminator ≤ x
  · exact .inr ⟨r, hr, bs, hbs, .inr ⟨hend, hhi⟩⟩
  · obtain ⟨b, hb, hle, hlt⟩ := hbs.threaded.exists_of_mem_range hlo (Nat.lt_of_not_le hend)
    rcases Nat.eq_or_lt_of_le hle with rfl | hin
    · exact .inl ⟨r, hr, bs, hbs, hb, hfree⟩
    · exact .inr ⟨r, hr, bs, hbs, .inl ⟨b, hb, hin, hlt⟩⟩

/-- In regions that do not overlap no block starts inside another. -/
theorem FreeBlock.not_inside (hapart : rs.Pairwise Region.Apart) (hx : FreeBlock m rs x) :
    ¬ Inside m rs x := by
  rintro ⟨s, hs, cs, hcs, hinside⟩
  obtain ⟨r, hr, bs, hbs, hmem, -⟩ := hx
  have hrange := hbs.threaded.bounds hmem
  have hterminator : s.terminator = s.base + (s.size - 32) := rfl
  have hend : r.terminator = r.base + (r.size - 32) := rfl
  by_cases hrs : r = s
  · subst hrs
    rcases hinside with ⟨b, hb, hin⟩ | hlast
    · exact hbs.threaded.not_inside hmem (hbs.threaded.unique hcs.threaded ▸ hb) hin
    · omega
  · have happart : r.Apart s := hapart.forall hr hs hrs
    unfold Region.Apart at happart
    rcases hinside with ⟨b, hb, hin⟩ | hlast
    · have hother := hcs.threaded.bounds hb
      omega
    · omega

/-- What a check that finds nothing says of the free list. It has every free block, so it is longer
than they are by the entries that lie inside blocks; that there are none of these it does not
say. -/
theorem entries_of_check {free : FreeList} (hlt : ∀ r ∈ rs, r.base + r.size < Word.limit)
    (hapart : rs.Pairwise Region.Apart) (hrun : check m rs free = .ok []) (hfound : found.Nodup)
    (hfree : ∀ x, x ∈ found ↔ FreeBlock m rs x) :
    ∃ xs, Listed m rs [] free.head xs ∧ found ⊆ xs ∧ (∀ x ∈ xs, x ∈ found ↔ ¬ Inside m rs x) ∧
      (found.length = xs.length ↔ ∀ x ∈ xs, ¬ Inside m rs x) := by
  obtain ⟨hregions, xs, hlisted, hcomplete⟩ := passes_of_check hlt hrun
  have hsub : found ⊆ xs := fun x hx => hcomplete x ((hfree x).mp hx)
  have hentry : ∀ x ∈ xs, x ∈ found ↔ ¬ Inside m rs x := by
    intro x hx
    rw [hfree]
    refine ⟨fun hblock => hblock.not_inside hapart, fun hout => ?_⟩
    exact (freeBlock_or_inside hregions (hlisted.free x hx) (hlisted.spanned x hx)).resolve_right
      hout
  refine ⟨xs, hlisted, hsub, hentry, fun hlength x hx => ?_, fun hnone => ?_⟩
  · have hperm : found.Perm xs :=
      (List.subperm_of_subset hfound hsub).perm_of_length_le (Nat.le_of_eq hlength.symm)
    exact (hentry x hx).mp (hperm.mem_iff.mpr hx)
  · have hback : xs ⊆ found := fun x hx => (hentry x hx).mpr (hnone x hx)
    exact Nat.le_antisymm (hfound.length_le_of_subset hsub)
      (hlisted.nodup.length_le_of_subset hback)

/-- The one block of a region is in use. -/
theorem not_freeBlock_of_single {r : Region} (h : m.Threaded r.terminator r.base [b])
    (htag : m.tag b = .allocated) : ¬ FreeBlock m [r] x := by
  rintro ⟨s, hs, bs, hbs, hx, hfree⟩
  obtain rfl : s = r := List.mem_singleton.mp hs
  rw [hbs.threaded.unique h] at hx
  obtain rfl : x = b := List.mem_singleton.mp hx
  rw [htag] at hfree
  cases hfree

/-- The one entry of the free list lies in the payload of the one block. -/
theorem entries_of_check_single : ∃ m rs, check m rs ⟨some 0x10020⟩ = .ok [] ∧
    ∃ xs, Listed m rs [] (some 0x10020) xs ∧ [] ⊆ xs ∧ (∀ x ∈ xs, x ∈ [] ↔ ¬ Inside m rs x) ∧
      (0 = xs.length ↔ ∀ x ∈ xs, ¬ Inside m rs x) := by
  let m := ((Memory.setForward ∅ 0x10000 96).setBackward 0x10060 96).setTag 0x10000 .allocated
  have hrun : check m [⟨0x10000, 128⟩] ⟨some 0x10020⟩ = .ok [] := by decide +kernel
  have hthreaded : m.Threaded (0x10000 + 96) 0x10000 [0x10000] := .single rfl rfl (by decide) rfl
  have hnone : ∀ x, ¬ FreeBlock m [⟨0x10000, 128⟩] x := fun _ =>
    not_freeBlock_of_single hthreaded rfl
  exact ⟨m, [⟨0x10000, 128⟩], hrun, entries_of_check (by decide) (List.pairwise_singleton _ _) hrun
    .nil fun x => ⟨nofun, fun h => absurd h (hnone x)⟩⟩

/-- A release of an address inside a block puts what is before the address on the free list. The
check finds nothing then, though no block of the region is free. -/
theorem stray_entry_after_release : ∃ w₁ w₂ : World Arena,
    HeapM.allocate 4032 (.fresh {} { base := 0x10000 } ∅) = .ok (.ok 0x10020) w₁ ∧
      HeapM.release 0x10050 w₁ = .ok () w₂ ∧ HeapM.check w₂ = .ok [] w₂ ∧
      w₂.heap.regions = [⟨0x10000, 0x1000⟩] ∧ w₂.heap.free.head = some 0x10030 ∧
      ∀ x, ¬ FreeBlock w₂.memory w₂.heap.regions x := by
  obtain ⟨w₁, w₂, hallocate, hrelease, hcheck, hregions, hhead, hforward, hback, htag⟩ :
      ∃ w₁ w₂ : World Arena,
        HeapM.allocate 4032 (.fresh {} { base := 0x10000 } ∅) = .ok (.ok 0x10020) w₁ ∧
        HeapM.release 0x10050 w₁ = .ok () w₂ ∧
        BoundaryTag.check w₂.memory w₂.heap.regions w₂.heap.free = .ok [] ∧
        w₂.heap.regions = [⟨0x10000, 0x1000⟩] ∧ w₂.heap.free.head = some 0x10030 ∧
        w₂.memory.forward 0x10000 = 0xfe0 ∧ w₂.memory.backward 0x10fe0 = 0xfe0 ∧
        w₂.memory.tag 0x10000 = .allocated :=
    ⟨_, _, rfl, rfl, by decide +kernel, rfl, rfl, rfl, rfl, rfl⟩
  refine ⟨w₁, w₂, hallocate, hrelease, HeapM.check_eq hcheck, hregions, hhead, fun x => ?_⟩
  have hthreaded : w₂.memory.Threaded (0x10000 + 0xfe0) 0x10000 [0x10000] :=
    .single hforward rfl (by decide) hback
  rw [hregions]
  exact not_freeBlock_of_single hthreaded htag

end Check

/-! ### Last headers -/

variable {A : Shape} {t : Tract} {w : Nat} {σ : Type} {After : σ → List Call → Prop}

/-- What describes a block is in no last header, apart from its backward offset. -/
theorem Laid.terminator_ne {ts : List Tract} {b : Block} (h : Laid ts) (hb : b ∈ blocksOf ts)
    (hw : w = b.addr ∨ w = b.addr + 16 ∨ w = b.addr + b.span + 8) (ht : t ∈ ts) :
    w ≠ t.region.terminator ∧ w ≠ t.region.terminator + 16 := by
  obtain ⟨u, hu, hbu⟩ := mem_blocksOf.mp hb
  have hts := h.sound t ht
  have hus := h.sound u hu
  obtain ⟨hlo, hhi, haligned, hwhole, hroom⟩ := hus.within hbu
  have hend := hts.tiles.aligned hts.aligned
  have htadd := hts.terminator_add
  have huadd := hus.terminator_add
  by_cases htu : t = u
  · subst htu
    omega
  · have hapart : t.Apart u := h.apart.forall ht hu htu
    rw [Tract.apart_iff] at hapart
    have htlt := hts.tiles.lt hts.nonempty
    omega

/-- Memory stays legible if the forward offset and the tag of a last header change. -/
theorem Shape.Sound.legible_of_changesOnly (hs : A.Sound) (hi : A.In m) (ht : t ∈ A.tracts)
    (hc : Memory.ChangesOnly (fun a => a = t.region.terminator ∨ a = t.region.terminator + 16)
      m m') : A.Legible m' where
  first u hu := by
    have hts := hs.laid.sound t ht
    have hus := hs.laid.sound u hu
    have hend := hts.tiles.aligned hts.aligned
    have hbase := hus.aligned
    exact (hc.backward (by omega)).trans (hi.marked u hu).first
  blocks u hu b hb := by
    have hb' : b ∈ blocksOf A.tracts := mem_blocksOf.mpr ⟨u, hu, hb⟩
    have hbm := (hi.marked u hu).blocks b hb
    have hne := fun w hw => not_or.mpr (hs.laid.terminator_ne (w := w) hb' hw ht)
    exact ⟨(hc.forward (hne _ (.inl rfl))).trans hbm.forward,
      (hc.tag (hne _ (.inr (.inl rfl)))).trans hbm.tag,
      (hc.backward (hne _ (.inr (.inr rfl)))).trans hbm.backward⟩
  linked := by
    refine hi.linked.of_changesOnly hc ?_
    rintro w ⟨x, hx, hw⟩
    obtain ⟨b, hb, rfl, -⟩ := hs.listed x hx
    exact not_or.mpr (hs.laid.linkWord_ne_ends hb hw ht).2

namespace Session

variable [Source σ]

/-- After any run, the last header of a region has no successor and is tagged allocated. Whatever
is written over these, a check finds nothing. -/
theorem check_of_terminator_write (hc : Source.Contract After) {config : Config} {source : σ}
    {memory : Memory} {acts : List Act} {s : Session σ} (hs : After source [])
    (hrun : (start config source memory).Run acts s) {r : Region}
    (hr : r ∈ s.world.heap.regions) :
    s.world.memory.forward r.terminator = 0 ∧ s.world.memory.tag r.terminator = .allocated ∧
      ∀ m, Memory.ChangesOnly (fun a => a = r.terminator ∨ a = r.terminator + 16)
          s.world.memory m →
        HeapM.check { s.world with memory := m } = .ok [] { s.world with memory := m } := by
  obtain ⟨A, h⟩ := (inOrder_start hs).run hc hrun
  rw [h.has.regions] at hr
  obtain ⟨t, ht, rfl⟩ := List.mem_map.mp hr
  have hm := h.has.inMemory.marked t ht
  refine ⟨hm.lastForward, hm.lastTag, fun m hchange => HeapM.check_eq ?_⟩
  dsimp only
  rw [h.has.regions, h.has.free]
  exact h.settled.check_run (h.settled.legible_of_changesOnly h.has.inMemory ht hchange)

/-- After one allocation the last header is made to lead on, and then to be free as well. -/
theorem check_of_terminator_write_twice : ∃ s : Session Arena,
    (start {} { base := 0x10000 } ∅).Run [.allocate 100] s ∧
      ⟨0x10000, 0x1000⟩ ∈ s.world.heap.regions ∧
      ∃ m, m = (s.world.memory.setForward 0x10fe0 16).setTag 0x10fe0 .free ∧
        HeapM.check { s.world with memory := m } = .ok [] { s.world with memory := m } := by
  have hserves : Arena.Serves { base := 0x10000 } [] :=
    Arena.serves_new ⟨12, by decide, by decide, rfl⟩ rfl (by decide) (by decide) rfl rfl
  obtain ⟨s, hrun, hr⟩ : ∃ s : Session Arena,
      (start {} { base := 0x10000 } ∅).Run [.allocate 100] s ∧
        ⟨0x10000, 0x1000⟩ ∈ s.world.heap.regions :=
    ⟨_, .cons (.intro trivial rfl) (.nil _), List.mem_singleton.mpr rfl⟩
  have hchange := (Memory.changesOnly_setForward (m := s.world.memory) (b := 0x10fe0)
    (v := 16)).mono (Q := fun a => a = 0x10fe0 ∨ a = 0x10fe0 + 16) (fun _ => .inl)
  have hchange' := hchange.trans
    ((Memory.changesOnly_setTag (b := 0x10fe0) (t := .free)).mono fun _ => .inr)
  exact ⟨s, hrun, hr, _, rfl,
    (check_of_terminator_write Arena.contract hserves hrun hr).2.2 _ hchange'⟩

/-- A last header that leads on is not reported, nor is one that is tagged free. -/
theorem damaged_terminator_passes : ∃ s : Session Arena,
    (start {} { base := 0x10000 } ∅).Run [.allocate 100] s ∧
      ⟨0x10000, 0x1000⟩ ∈ s.world.heap.regions ∧ s.world.memory.forward 0x10fe0 = 0 ∧
      s.world.memory.tag 0x10fe0 = .allocated ∧
      (∃ w, HeapM.check { s.world with memory := s.world.memory.setForward 0x10fe0 16 } =
        .ok [] w) ∧
      ∃ w, HeapM.check { s.world with memory := s.world.memory.setTag 0x10fe0 .free } =
        .ok [] w :=
  ⟨_, .cons (.intro trivial rfl) (.nil _), List.mem_singleton.mpr rfl, rfl, rfl,
    ⟨_, HeapM.check_eq (by decide +kernel)⟩, ⟨_, HeapM.check_eq (by decide +kernel)⟩⟩

end Session

end BoundaryTag
