import Mathlib.Data.List.Nodup
import Mathlib.Data.List.Perm.Basic
import BoundaryTag.Proofs.Calls
import BoundaryTag.Proofs.Frames
import BoundaryTag.Proofs.Growth

/-!
# Keeping books

The books of a heap are its list of regions and its counts. They agree with the calls to the source
(`Heap.Booked`), and every operation that returns keeps it so (`HeapM.KeepsBooks`), whatever is in
memory. Only growing and giving back regions change the books, and are taken apart step by step.
-/

namespace BoundaryTag

/-! ### Lists of regions -/

section
variable {α : Type} {l l' : List α} {i : Nat} {x : α}

theorem swapRemove_perm (h : l[i]? = some x) : (x :: swapRemove l i).Perm l := by
  unfold swapRemove
  rcases l.eq_nil_or_concat' with rfl | ⟨xs, last, rfl⟩
  · nomatch h
  rw [List.getLast?_concat]
  dsimp only
  by_cases hi : i < xs.length
  · rw [List.set_append_left _ _ hi, List.dropLast_concat]
    rw [List.getElem?_append_left hi, List.getElem?_eq_some_iff] at h
    obtain ⟨_, rfl⟩ := h
    calc xs[i] :: xs.set i last
      _ |>.Perm (xs[i] :: last :: xs.eraseIdx i) := (List.set_perm_cons_eraseIdx hi last).cons _
      _ |>.Perm (last :: xs[i] :: xs.eraseIdx i) := .swap _ _ _
      _ |>.Perm (last :: xs) := (List.getElem_cons_eraseIdx_perm hi).cons _
      _ |>.Perm (xs ++ [last]) := (List.perm_append_singleton _ _).symm
  · obtain ⟨hlt, rfl⟩ := List.getElem?_eq_some_iff.mp h
    rw [List.length_append, List.length_singleton] at hlt
    obtain rfl : i = xs.length := by omega
    simpa using (List.perm_append_singleton last xs).symm

/-- What is left when an entry is taken out was there before. -/
theorem mem_of_mem_swapRemove {y : α} (h : y ∈ swapRemove l i) : y ∈ l := by
  unfold swapRemove at h
  split at h
  · rename_i last hlast
    exact (List.mem_or_eq_of_mem_set (List.dropLast_subset _ h)).elim id
      fun heq => heq ▸ List.mem_of_getLast? hlast
  · exact h

/-- The last entry is taken out where it is. -/
theorem swapRemove_concat (l : List α) (x : α) : swapRemove (l ++ [x]) l.length = l := by
  unfold swapRemove
  rw [List.getLast?_concat]
  simp

theorem map_swapRemove {β : Type} (f : α → β) (l : List α) (i : Nat) :
    (swapRemove l i).map f = swapRemove (l.map f) i := by
  unfold swapRemove
  rw [List.getLast?_map]
  cases l.getLast? with
  | none => rfl
  | some last => simp [List.map_dropLast, List.map_set]

end

namespace Region

instance : Std.Symm Region.Apart := ⟨fun _ _ h => Or.symm h⟩

variable {rs rs' : List Region} {r s : Region}

theorem totalSize_append : totalSize (rs ++ rs') = totalSize rs + totalSize rs' := by
  induction rs with
  | nil => simp [totalSize]
  | cons r rs ih => simp only [List.cons_append, totalSize, ih]; omega

theorem totalSize_perm (h : rs.Perm rs') : totalSize rs = totalSize rs' := by
  induction h with
  | nil => rfl
  | cons r _ ih => simp only [totalSize, ih]
  | swap r s rs => simp only [totalSize]; omega
  | trans _ _ ih₁ ih₂ => exact ih₁.trans ih₂

/-- Regions that are not empty and do not overlap are told apart by their bases. -/
theorem eq_of_base (hpos : ∀ r ∈ rs, 0 < r.size) (hapart : rs.Pairwise Region.Apart) (hr : r ∈ rs)
    (hs : s ∈ rs) (hbase : s.base = r.base) : s = r := by
  by_contra hne
  have hsr : s.Apart r := hapart.forall hs hr hne
  have := hpos r hr
  have := hpos s hs
  unfold Region.Apart at hsr
  omega

theorem nodup_of_apart (hpos : ∀ r ∈ rs, 0 < r.size) (hapart : rs.Pairwise Region.Apart) :
    rs.Nodup := by
  apply hapart.imp_of_mem
  intro r s hr _ hrs heq
  subst heq
  have := hpos r hr
  unfold Region.Apart at hrs
  omega

theorem filter_base (hpos : ∀ r ∈ rs, 0 < r.size) (hapart : rs.Pairwise Region.Apart)
    (hr : r ∈ rs) : rs.filter (·.base = r.base) = [r] := by
  have heq : ∀ s ∈ rs, decide (s.base = r.base) = (s == r) := fun s hs =>
    Bool.eq_iff_iff.mpr
      ⟨fun h => beq_iff_eq.mpr (eq_of_base hpos hapart hr hs (of_decide_eq_true h)),
        fun h => decide_eq_true (congrArg Region.base (beq_iff_eq.mp h))⟩
  rw [List.filter_congr heq, List.filter_beq,
    List.count_eq_one_of_mem (nodup_of_apart hpos hapart) hr]
  rfl

end Region

/-! ### Books -/

variable {σ : Type}

/-- The source after it was given these ranges back, one by one. -/
def Source.unmapAll [Source σ] (s : σ) (rs : List Region) : σ :=
  rs.foldl (fun s r => unmap s r.base r.size) s

theorem Recorder.calls_unmapAll [Source σ] (s : Recorder σ) (rs : List Region) :
    (Source.unmapAll s rs).calls = (rs.map Call.unmapped).reverse ++ s.calls := by
  induction rs generalizing s with
  | nil => rfl
  | cons r rs ih =>
    rw [List.map_cons, List.reverse_cons, List.append_assoc]
    exact ih (Source.unmap s r.base r.size)

/-- After the calls `cs`, the ranges `rs` are out, and as many were handed out and given back as the
heap has counted. -/
structure Heap.Tracked (After : σ → List Call → Prop) (h : Heap σ) (cs : List Call)
    (rs : List Region) : Prop where
  after : After h.source cs
  orderly : Call.Orderly cs
  live : (Call.live cs).Perm rs
  positive : ∀ r ∈ rs, 0 < r.size
  apart : rs.Pairwise Region.Apart
  maps : h.maps = Call.maps cs
  maps_lt : h.maps < Word.limit
  unmaps : h.unmaps = Call.unmaps cs

/-- After the calls `cs` the books of the heap are right. -/
structure Heap.Booked (After : σ → List Call → Prop) (h : Heap σ) (cs : List Call) : Prop where
  tracked : h.Tracked After cs h.regions
  heapSize : h.heapSize = Region.totalSize h.regions

variable {After : σ → List Call → Prop} {h h' : Heap σ} {cs : List Call} {rs rs' : List Region}
  {r : Region}

namespace Heap

theorem Tracked.perm (ht : h.Tracked After cs rs) (hp : rs.Perm rs') : h.Tracked After cs rs' where
  after := ht.after
  orderly := ht.orderly
  live := ht.live.trans hp
  positive r hr := ht.positive r (hp.mem_iff.mpr hr)
  apart := hp.pairwise ht.apart fun h => Or.symm h
  maps := ht.maps
  maps_lt := ht.maps_lt
  unmaps := ht.unmaps

theorem Tracked.of_eq (ht : h.Tracked After cs rs) (hsource : h'.source = h.source)
    (hmaps : h'.maps = h.maps) (hunmaps : h'.unmaps = h.unmaps) : h'.Tracked After cs rs where
  after := hsource ▸ ht.after
  orderly := ht.orderly
  live := ht.live
  positive := ht.positive
  apart := ht.apart
  maps := hmaps.trans ht.maps
  maps_lt := hmaps ▸ ht.maps_lt
  unmaps := hunmaps.trans ht.unmaps

theorem Tracked.counts (ht : h.Tracked After cs rs) : h.unmaps + rs.length = h.maps := by
  have hlength := ht.orderly.length_live
  rw [ht.live.length_eq] at hlength
  rw [ht.maps, ht.unmaps, ← hlength, Nat.add_comm]

theorem Tracked.unmapped [Source σ] (hd : Source.Disjoint After) (ht : h.Tracked After cs (r :: rs))
    (hsource : h'.source = Source.unmap h.source r.base r.size) (hmaps : h'.maps = h.maps)
    (hunmaps : h'.unmaps = h.unmaps + 1) : h'.Tracked After (.unmapped r :: cs) rs := by
  have hr : r ∈ Call.live cs := ht.live.mem_iff.mpr List.mem_cons_self
  have hpos : ∀ s ∈ Call.live cs, 0 < s.size := fun s hs => ht.positive s (ht.live.mem_iff.mp hs)
  have hapart : (Call.live cs).Pairwise Region.Apart :=
    ht.live.symm.pairwise ht.apart fun h => Or.symm h
  refine ⟨?_, ⟨Region.filter_base hpos hapart hr, ht.orderly⟩, ?_,
    fun s hs => ht.positive s (List.mem_cons_of_mem _ hs), ht.apart.of_cons, ?_, ?_, ?_⟩
  · rw [hsource]
    exact hd.unmapped ht.after hr
  · have := ht.live.erase r
    rwa [List.erase_cons_head] at this
  · exact hmaps.trans ht.maps
  · exact hmaps ▸ ht.maps_lt
  · rw [hunmaps, ht.unmaps]
    rfl

theorem Tracked.mapped (ht : h.Tracked After cs rs) (hafter : After h'.source (.mapped r :: cs))
    (hapart : ∀ s ∈ Call.live cs, s.Apart r) (hpos : 0 < r.size) (hmaps : h'.maps = h.maps + 1)
    (hlt : h.maps + 1 < Word.limit) (hunmaps : h'.unmaps = h.unmaps) :
    h'.Tracked After (.mapped r :: cs) (rs ++ [r]) where
  after := hafter
  orderly := ht.orderly
  live := (ht.live.cons r).trans (List.perm_append_singleton r rs).symm
  positive := List.forall_mem_append.mpr ⟨ht.positive, List.forall_mem_singleton.mpr hpos⟩
  apart := by
    refine List.pairwise_append.mpr ⟨ht.apart, List.pairwise_singleton _ _, fun s hs => ?_⟩
    exact List.forall_mem_singleton.mpr (hapart s (ht.live.mem_iff.mpr hs))
  maps := by rw [hmaps, ht.maps]; rfl
  maps_lt := hmaps ▸ hlt
  unmaps := hunmaps.trans ht.unmaps

/-- There are numbers left to count the regions with when they are given back. -/
theorem Booked.countable (hb : h.Booked After cs) : h.unmaps + h.regions.length < Word.limit :=
  hb.tracked.counts ▸ hb.tracked.maps_lt

theorem Booked.refused {size : Nat} {s' : σ} (hb : h.Booked After cs)
    (hafter : After s' (.refused size :: cs)) :
    Booked After { h with source := s' } (.refused size :: cs) :=
  ⟨⟨hafter, hb.tracked.orderly, hb.tracked.live, hb.tracked.positive, hb.tracked.apart,
    hb.tracked.maps, hb.tracked.maps_lt, hb.tracked.unmaps⟩, hb.heapSize⟩

/-- What else is in a heap is not in its books. -/
theorem Booked.of_eq (hb : h.Booked After cs) (heq : h' = { h with free := h'.free }) :
    h'.Booked After cs := by
  rw [heq]
  exact ⟨hb.tracked.of_eq rfl rfl rfl, hb.heapSize⟩

theorem booked_new {config : Config} {source : σ} (hs : After source []) :
    Booked After { config, source } [] :=
  ⟨⟨hs, trivial, .nil, nofun, .nil, rfl, Nat.two_pow_pos 64, rfl⟩, rfl⟩

end Heap

/-- A new heap, whatever is in memory. -/
def World.fresh (config : Config) (source : σ) (memory : Memory) : World σ where
  memory := memory
  heap := { config, source }

namespace HeapM

/-! ### Steps that change the books -/

section
variable {w w' : World σ} {size request sentinel : Nat}

theorem countUnmap_eq_ok_iff : countUnmap w = .ok () w' ↔
    w.heap.unmaps + 1 < Word.limit ∧
      w' = { w with heap := { w.heap with unmaps := w.heap.unmaps + 1 } } := by
  unfold countUnmap
  rw [heap_bind, ofExcept_bind_eq_ok_iff]
  constructor
  · rintro ⟨n, hadd, h⟩
    obtain ⟨hlt, rfl⟩ := Word.add_eq_ok_iff.mp hadd
    cases h
    exact ⟨hlt, rfl⟩
  · rintro ⟨hlt, rfl⟩
    exact ⟨_, Word.add_eq_ok_iff.mpr ⟨hlt, rfl⟩, rfl⟩

theorem addRegion_eq_ok_iff {r : Region} : addRegion r w = .ok () w' ↔
    w.heap.heapSize + r.size < Word.limit ∧ w.heap.maps + 1 < Word.limit ∧
      w' = { w with heap := { w.heap with
        regions := w.heap.regions ++ [r]
        heapSize := w.heap.heapSize + r.size
        maps := w.heap.maps + 1 } } := by
  unfold addRegion
  rw [update_bind, heap_bind, ofExcept_bind_eq_ok_iff]
  constructor
  · rintro ⟨heapSize, hsize, h⟩
    obtain ⟨hroom, rfl⟩ := Word.add_eq_ok_iff.mp hsize
    rw [update_bind, heap_bind, ofExcept_bind_eq_ok_iff] at h
    obtain ⟨maps, hmaps, h⟩ := h
    obtain ⟨hlt, rfl⟩ := Word.add_eq_ok_iff.mp hmaps
    cases h
    exact ⟨hroom, hlt, rfl⟩
  · rintro ⟨hroom, hlt, rfl⟩
    refine ⟨_, Word.add_eq_ok_iff.mpr ⟨hroom, rfl⟩, ?_⟩
    rw [update_bind, heap_bind, ofExcept_bind_eq_ok_iff]
    exact ⟨_, Word.add_eq_ok_iff.mpr ⟨hlt, rfl⟩, rfl⟩

variable [Source σ]

theorem mapRange_eq_ok {o : Except String Nat} (h : mapRange size w = .ok o w') :
    (∃ base contents s', Source.map w.heap.source size = (.mapped base contents, s') ∧
      o = .ok base ∧ w' = { w with
        memory := w.memory.replace base size contents
        heap := { w.heap with source := s' } }) ∨
    (∃ cause s', Source.map w.heap.source size = (.refused cause, s') ∧
      o = .error cause ∧ w' = { w with heap := { w.heap with source := s' } }) := by
  unfold mapRange at h
  generalize Source.map w.heap.source size = answer at h ⊢
  obtain ⟨answer, s'⟩ := answer
  cases answer with
  | mapped base contents => cases h; exact .inl ⟨base, contents, s', rfl, rfl, rfl⟩
  | refused cause => cases h; exact .inr ⟨cause, s', rfl, rfl, rfl⟩
  | rejected fault => nomatch h

/-- Growing has no size to ask for, or is refused what it asked for, or lays out a region and adds
it to the books. -/
theorem grow_cases {o : Except AllocError Nat} (h : grow request w = .ok o w') :
    (BoundaryTag.regionSize (Source.pageSize w.heap.source) w.heap.heapSize
        w.heap.config.maxRegionPages request = .ok none ∧
      o = .error (.sizeOverflow request) ∧ w' = w) ∨
    ∃ size, BoundaryTag.regionSize (Source.pageSize w.heap.source) w.heap.heapSize
        w.heap.config.maxRegionPages request = .ok (some size) ∧
      ((∃ cause s', Source.map w.heap.source size = (.refused cause, s') ∧
          o = .error (.mapFailed size cause) ∧ w'.memory = w.memory ∧
          w'.heap = { w.heap with source := s' }) ∨
        ∃ base contents s' w₁, Source.map w.heap.source size = (.mapped base contents, s') ∧
          base % alignment = 0 ∧
          layOut ⟨base, size⟩ { w with
            memory := w.memory.replace base size contents
            heap := { w.heap with source := s' } } = .ok () w₁ ∧
          o = .ok base ∧ w'.memory = w₁.memory ∧ w₁.heap.maps + 1 < Word.limit ∧
          w'.heap = { w₁.heap with
            regions := w₁.heap.regions ++ [⟨base, size⟩]
            heapSize := w₁.heap.heapSize + size
            maps := w₁.heap.maps + 1 }) := by
  unfold grow at h
  obtain ⟨size?, w₀, hsize, h⟩ := bind_eq_ok_iff.mp h
  unfold regionSize at hsize
  rw [heap_bind] at hsize
  obtain ⟨hsize, rfl⟩ := ofExcept_eq_ok_iff.mp hsize
  cases size? with
  | none =>
    cases h
    exact .inl ⟨hsize, rfl, rfl⟩
  | some size =>
  refine .inr ⟨size, hsize, ?_⟩
  obtain ⟨answer, w₁, hmap, h⟩ := bind_eq_ok_iff.mp h
  rcases mapRange_eq_ok hmap with ⟨base, contents, s', hsrc, rfl, rfl⟩ | ⟨cause, s', hsrc, rfl, rfl⟩
  · dsimp only at h
    split at h
    · nomatch h
    rename_i haligned
    obtain ⟨_, w₂, hlay, h⟩ := bind_eq_ok_iff.mp h
    obtain ⟨_, w₃, hadd, h⟩ := bind_eq_ok_iff.mp h
    obtain ⟨-, hlt, rfl⟩ := addRegion_eq_ok_iff.mp hadd
    cases h
    exact .inr ⟨base, contents, s', w₂, hsrc, not_not.mp haligned, hlay, rfl, rfl, hlt, rfl⟩
  · cases h
    exact .inl ⟨cause, s', hsrc, rfl, rfl, rfl⟩

variable {After : σ → List Call → Prop} {cs : List Call}

/-- A source is only ever asked for whole pages, and for no more of them than the heap can count. -/
theorem regionSize_run (hd : Source.Disjoint After) (ha : After w.heap.source cs) (request : Nat) :
    ∃ o, regionSize request w = .ok o w ∧
      BoundaryTag.regionSize (Source.pageSize w.heap.source) w.heap.heapSize
        w.heap.config.maxRegionPages request = .ok o ∧
      ∀ n, o = some n → 0 < n ∧ Source.pageSize w.heap.source ∣ n ∧ request + 64 ≤ n ∧
        w.heap.heapSize + n < Word.limit := by
  obtain ⟨k, -, hk, hpage⟩ := hd.page ha
  obtain ⟨o, hrun, ho⟩ :=
    BoundaryTag.regionSize_run hk w.heap.heapSize w.heap.config.maxRegionPages request
  refine ⟨o, ?_, hpage ▸ hrun, fun n hn => ?_⟩
  · unfold regionSize
    rw [heap_bind, hpage, hrun]
    rfl
  · obtain ⟨hdvd, hroom, hlt⟩ := ho n hn
    exact ⟨by omega, hpage ▸ hdvd, hroom, hlt⟩

/-- Where the program returns, the books are right if they were so before. -/
def KeepsBooks {α : Type} (After : σ → List Call → Prop) (p : HeapM σ α) : Prop :=
  ∀ w cs a w', w.heap.Booked After cs → p w = .ok a w' → ∃ cs', w'.heap.Booked After cs'

omit [Source σ] in
theorem compositional_keepsBooks :
    Compositional fun {α : Type} (p : HeapM σ α) => p.KeepsBooks After where
  plain hp w cs a w' hb h := ⟨cs, hb.of_eq (hp.heap_of_ok h)⟩
  bind hp hk w cs b w' hb h := by
    obtain ⟨a, w₁, hrun, h⟩ := bind_eq_ok_iff.mp h
    obtain ⟨cs₁, hb₁⟩ := hp w cs a w₁ hb hrun
    exact hk a w₁ cs₁ b w' hb₁ h
  heap_bind hk _ w cs a w' hb h := hk w.heap w cs a w' hb h

theorem keepsBooks_grow (hd : Source.Disjoint After) (request : Nat) :
    (grow request : HeapM σ (Except AllocError Nat)).KeepsBooks After := by
  intro w cs o w' hb h
  obtain ⟨size?, -, hsize, hsizeOk⟩ := regionSize_run hd hb.tracked.after request
  rcases grow_cases h with ⟨-, -, rfl⟩ | ⟨size, hsome, hgrow⟩
  · exact ⟨cs, hb⟩
  cases hsize.symm.trans hsome
  obtain ⟨hpos, hpage, -, -⟩ := hsizeOk size rfl
  rcases hgrow with ⟨cause, s', hsrc, -, -, hheap⟩ |
    ⟨base, contents, s', w₁, hsrc, -, hlay, -, -, hlt, hheap⟩
  · rw [hheap]
    exact ⟨_, hb.refused (hd.refused hb.tracked.after hpos hpage hsrc)⟩
  · obtain ⟨hapart, hafter⟩ := hd.mapped hb.tracked.after hpos hpage hsrc
    rw [(plain_layOut _).heap_of_ok hlay] at hlt hheap
    rw [hheap]
    refine ⟨.mapped ⟨base, size⟩ :: cs, hb.tracked.mapped hafter hapart hpos rfl hlt rfl, ?_⟩
    show w.heap.heapSize + size = Region.totalSize (w.heap.regions ++ [⟨base, size⟩])
    rw [Region.totalSize_append, hb.heapSize]
    rfl

/-- Giving back a region that the heap does not have changes nothing of it. -/
theorem releaseRegion_eq_ok {u : Unit} (h : releaseRegion sentinel w = .ok u w') :
    w'.memory = w.memory ∧
      ((w.heap.regions.find? (·.sentinel = sentinel) = none ∧ w'.heap = w.heap) ∨
        ∃ r, w.heap.regions.find? (·.sentinel = sentinel) = some r ∧ w'.heap = { w.heap with
          source := Source.unmap w.heap.source r.base r.size
          regions := swapRemove w.heap.regions (w.heap.regions.findIdx (·.sentinel = sentinel))
          heapSize := w.heap.heapSize - r.size
          unmaps := w.heap.unmaps + 1 }) := by
  unfold releaseRegion at h
  rw [heap_bind] at h
  cases hfind : w.heap.regions.find? (·.sentinel = sentinel) with
  | none =>
    rw [hfind] at h
    cases h
    exact ⟨rfl, .inl ⟨rfl, rfl⟩⟩
  | some r =>
  rw [hfind] at h
  dsimp only at h
  rw [update_bind, memory_bind, ofExcept_bind_eq_ok_iff] at h
  obtain ⟨span, -, h⟩ := h
  split at h
  · nomatch h
  unfold unmapRange at h
  rw [update_bind, heap_bind, ofExcept_bind_eq_ok_iff] at h
  obtain ⟨heapSize, hsub, h⟩ := h
  obtain ⟨-, rfl⟩ := Word.sub_eq_ok_iff.mp hsub
  rw [update_bind] at h
  obtain ⟨_, w₁, hcount, h⟩ := bind_eq_ok_iff.mp h
  cases h
  obtain ⟨-, rfl⟩ := countUnmap_eq_ok_iff.mp hcount
  exact ⟨rfl, .inr ⟨r, rfl, rfl⟩⟩

theorem keepsBooks_releaseRegion (hd : Source.Disjoint After) (sentinel : Nat) :
    (releaseRegion sentinel : HeapM σ Unit).KeepsBooks After := by
  intro w cs u w' hb h
  rcases (releaseRegion_eq_ok h).2 with ⟨-, heq⟩ | ⟨r, hfind, heq⟩ <;> rw [heq]
  · exact ⟨cs, hb⟩
  · have hperm := swapRemove_perm (List.find?_eq_getElem?_findIdx ▸ hfind)
    refine ⟨.unmapped r :: cs, (hb.tracked.perm hperm.symm).unmapped hd rfl rfl rfl, ?_⟩
    show w.heap.heapSize - r.size = _
    rw [hb.heapSize, ← Region.totalSize_perm hperm]
    exact Nat.add_sub_cancel_left _ _

theorem allocate_booked (hd : Source.Disjoint After) (hb : w.heap.Booked After cs)
    {o : Except AllocError Nat} (h : allocate size w = .ok o w') :
    ∃ cs', w'.heap.Booked After cs' :=
  compositional_keepsBooks.allocate (keepsBooks_grow hd) size w cs o w' hb h

theorem release_booked (hd : Source.Disjoint After) (hb : w.heap.Booked After cs) {payload : Nat}
    {u : Unit} (h : release payload w = .ok u w') : ∃ cs', w'.heap.Booked After cs' :=
  compositional_keepsBooks.release (keepsBooks_releaseRegion hd) payload w cs u w' hb h

/-- Giving back ranges returns while there are numbers to count it with. -/
theorem unmapAll_run {rs : List Region} (hlt : w.heap.unmaps + rs.length < Word.limit) :
    (rs.forM fun r => (do unmapRange r; countUnmap : HeapM σ Unit)) w =
      .ok () { w with heap := { w.heap with
        source := Source.unmapAll w.heap.source rs, unmaps := w.heap.unmaps + rs.length } } := by
  induction rs generalizing w with
  | nil => rfl
  | cons r rs ih =>
    rw [List.length_cons] at hlt
    have hone : (do unmapRange r; countUnmap : HeapM σ Unit) w = .ok () { w with heap :=
        { w.heap with
          source := Source.unmap w.heap.source r.base r.size, unmaps := w.heap.unmaps + 1 } } := by
      unfold unmapRange
      rw [update_bind]
      exact countUnmap_eq_ok_iff.mpr ⟨by dsimp only; omega, rfl⟩
    refine (run_bind_ok hone).trans ((ih (by dsimp only; omega)).trans ?_)
    rw [List.length_cons, Nat.add_assoc, Nat.add_comm 1]
    rfl

theorem releaseAll_run (hlt : w.heap.unmaps + w.heap.regions.length < Word.limit) :
    releaseAll w = .ok () { w with heap := { w.heap with
      source := Source.unmapAll w.heap.source w.heap.regions, regions := [], heapSize := 0
      unmaps := w.heap.unmaps + w.heap.regions.length } } := by
  have hall := unmapAll_run (w := { w with heap := { w.heap with regions := [] } }) hlt
  unfold releaseAll
  rw [heap_bind, update_bind, run_bind_ok hall]
  rfl

theorem reset_run (hlt : w.heap.unmaps + w.heap.regions.length < Word.limit) :
    reset w = .ok () { w with
      heap := { w.heap with
        source := Source.unmapAll w.heap.source w.heap.regions, regions := [], heapSize := 0
        unmaps := w.heap.unmaps + w.heap.regions.length, free := {} }
      log := w.log ++ [.reset] } :=
  (run_bind_ok (releaseAll_run hlt)).trans rfl

theorem unmapAll_tracked (hd : Source.Disjoint After) {rs : List Region}
    (ht : w.heap.Tracked After cs rs) {u : Unit}
    (h : (rs.forM fun r => (do unmapRange r; countUnmap : HeapM σ Unit)) w = .ok u w') :
    ∃ cs', w'.heap.Tracked After cs' [] ∧ w'.heap.regions = w.heap.regions := by
  induction rs generalizing w cs with
  | nil => cases h; exact ⟨cs, ht, rfl⟩
  | cons r rs ih =>
    obtain ⟨_, w₁, hone, h⟩ := bind_eq_ok_iff.mp h
    change (unmapRange r >>= fun _ => countUnmap) w = _ at hone
    unfold unmapRange at hone
    rw [update_bind] at hone
    have ht₁ : w₁.heap.Tracked After (.unmapped r :: cs) rs := by
      rw [(countUnmap_eq_ok_iff.mp hone).2]
      exact ht.unmapped hd rfl rfl rfl
    obtain ⟨cs', ht', hregions⟩ := ih ht₁ h
    exact ⟨cs', ht', hregions.trans (by rw [(countUnmap_eq_ok_iff.mp hone).2])⟩

/-- All that was handed out is given back. -/
theorem releaseAll_booked (hd : Source.Disjoint After) (hb : w.heap.Booked After cs) {u : Unit}
    (h : releaseAll w = .ok u w') : ∃ cs', w'.heap.Booked After cs' ∧ w'.heap.regions = [] := by
  unfold releaseAll at h
  rw [heap_bind, update_bind] at h
  obtain ⟨_, w₁, hall, h⟩ := bind_eq_ok_iff.mp h
  cases h
  have ht : Heap.Tracked After { w.heap with regions := [] } cs w.heap.regions :=
    hb.tracked.of_eq rfl rfl rfl
  obtain ⟨cs', ht', hregions⟩ := unmapAll_tracked hd ht hall
  refine ⟨cs', ⟨?_, ?_⟩, hregions⟩
  · show Heap.Tracked After _ cs' w₁.heap.regions
    rw [hregions]
    exact ht'.of_eq rfl rfl rfl
  · show 0 = Region.totalSize w₁.heap.regions
    rw [hregions]
    rfl

theorem reset_booked (hd : Source.Disjoint After) (hb : w.heap.Booked After cs) {u : Unit}
    (h : reset w = .ok u w') : ∃ cs', w'.heap.Booked After cs' ∧ w'.heap.regions = [] := by
  obtain ⟨_, w₁, hall, h⟩ := bind_eq_ok_iff.mp h
  cases h
  obtain ⟨cs', hb', hregions⟩ := releaseAll_booked hd hb hall
  exact ⟨cs', hb'.of_eq rfl, hregions⟩

end

end HeapM

end BoundaryTag
