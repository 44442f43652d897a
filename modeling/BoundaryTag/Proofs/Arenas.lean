import BoundaryTag.Proofs.Calls
import BoundaryTag.Source.Arena

/-!
# Arenas keep the contract

An arena with a page size that is a power of two hands out aligned ranges that overlap nothing that
is out, whatever its layout is and whichever requests it turns down (`Arena.contract`).
-/

namespace BoundaryTag

/-- The range is inside the arena that starts at `start`, and aligned. -/
structure Arena.Inside (start : Nat) (r : Region) : Prop where
  lo : start ≤ r.base
  hi : r.base + r.size ≤ start + extent
  aligned : r.base % alignment = 0
  whole : r.size % alignment = 0

/-- All that is out is on the side of the arena that is used up. -/
def Arena.UsedUp (s : Arena) (rs : List Region) : Prop :=
  match s.layout with
  | .up | .gap => s.used % alignment = 0 ∧ ∀ r ∈ rs, r.base + r.size ≤ s.base + s.used
  | .down => s.used % alignment = 0 ∧ ∀ r ∈ rs, s.base + extent ≤ r.base + s.used
  | .reuse => True

/-- The state of an arena after the calls `cs`. -/
structure Arena.Serves (s : Arena) (cs : List Call) : Prop where
  page : ∃ k, 4 ≤ k ∧ k < 64 ∧ s.page = 2 ^ k
  aligned : s.base % alignment = 0
  positive : 0 < s.base
  bounded : s.base + extent < Word.limit
  live : s.live.Perm (Call.live cs)
  inside : ∀ r ∈ s.live, Inside s.base r
  usedUp : s.UsedUp s.live

namespace Arena

variable {s s' : Arena} {cs : List Call} {size base : Nat} {contents : Memory} {cause : String}
  {fault : Fault} {r : Region}

theorem Serves.page_aligned (h : s.Serves cs) : s.page % alignment = 0 := by
  obtain ⟨k, hk, -, hpage⟩ := h.page
  rw [hpage]
  exact Nat.mod_eq_zero_of_dvd (Nat.pow_dvd_pow 2 hk)

theorem UsedUp.mono {rs rs' : List Region} (h : s.UsedUp rs) (hsub : ∀ r ∈ rs', r ∈ rs) :
    s.UsedUp rs' := by
  unfold UsedUp at h ⊢
  cases hlayout : s.layout <;> simp only [hlayout] at h ⊢ <;>
    exact ⟨h.1, fun r hr => h.2 r (hsub r hr)⟩

theorem apart_of_overlapsLive (h : s.overlapsLive base size = false) :
    ∀ r ∈ s.live, r.Apart ⟨base, size⟩ := by
  intro r hr
  have hnot := List.any_eq_false.mp h r hr
  simp only [Bool.and_eq_true, decide_eq_true_eq, not_and] at hnot
  unfold Region.Apart
  dsimp only
  omega

/-- Where the arena starts and where mapped ranges end is aligned. -/
theorem Serves.place_aligned (h : s.Serves cs)
    (hbase : base ∈ s.base :: s.live.map fun r => r.base + r.size) :
    s.base ≤ base ∧ base % alignment = 0 := by
  rcases List.mem_cons.mp hbase with rfl | hmem
  · exact ⟨Nat.le_refl _, h.aligned⟩
  · obtain ⟨r, hr, rfl⟩ := List.mem_map.mp hmem
    obtain ⟨hlo, hhi, hal, hwhole⟩ := h.inside r hr
    unfold alignment at hal hwhole ⊢
    exact ⟨by omega, by omega⟩

/-- The place of the next range is aligned, free, and inside the arena. -/
theorem nextBase?_eq_some (h : s.Serves cs) (hsize : size % alignment = 0)
    (hbase : s.nextBase? size = some base) :
    Inside s.base ⟨base, size⟩ ∧ (∀ r ∈ s.live, r.Apart ⟨base, size⟩) ∧
      UsedUp { s with used := s.used + s.consumption size } (s.live ++ [⟨base, size⟩]) := by
  have hal := h.aligned
  have hpage := h.page_aligned
  have hused := h.usedUp
  unfold nextBase? at hbase
  unfold UsedUp at hused ⊢
  unfold Region.Apart
  unfold alignment at *
  cases hlayout : s.layout
  case up | gap =>
    simp only [hlayout, consumption, alignment, Option.ite_none_right_eq_some,
      Option.some.injEq] at hbase hused ⊢
    obtain ⟨hfits, rfl⟩ := hbase
    obtain ⟨hmod, hbelow⟩ := hused
    refine ⟨⟨by dsimp only; omega, by dsimp only; omega, ?_, hsize⟩, fun r hr => .inl (hbelow r hr),
      by omega, List.forall_mem_append.mpr ⟨fun r hr => ?_, List.forall_mem_singleton.mpr ?_⟩⟩
    · unfold alignment
      dsimp only
      omega
    · have := hbelow r hr
      omega
    · dsimp only
      omega
  case down =>
    simp only [hlayout, consumption, Option.ite_none_right_eq_some,
      Option.some.injEq] at hbase hused ⊢
    obtain ⟨hfits, rfl⟩ := hbase
    obtain ⟨hmod, habove⟩ := hused
    have hextent : extent % 16 = 0 := by decide
    refine ⟨⟨by dsimp only; omega, by dsimp only; omega, ?_, hsize⟩, fun r hr => ?_,
      by omega, List.forall_mem_append.mpr ⟨fun r hr => ?_, List.forall_mem_singleton.mpr ?_⟩⟩
    · unfold alignment
      dsimp only
      omega
    · have := habove r hr
      omega
    · have := habove r hr
      omega
    · dsimp only
      omega
  case reuse =>
    simp only [hlayout] at hbase hused ⊢
    have hfound := List.find?_some hbase
    have hmem := List.mem_mergeSort.mp (List.mem_of_find?_eq_some hbase)
    rw [Bool.and_eq_true, decide_eq_true_eq, Bool.not_eq_true'] at hfound
    obtain ⟨hfits, hfree⟩ := hfound
    obtain ⟨hlo, hplaced⟩ := h.place_aligned hmem
    exact ⟨⟨hlo, hfits, hplaced, hsize⟩, apart_of_overlapsLive hfree, trivial⟩

theorem map_eq_mapped (h : Source.map s size = (.mapped base contents, s')) :
    size % alignment = 0 ∧ s.nextBase? size = some base ∧ s' = { s with
      attempts := s.attempts + 1
      used := s.used + s.consumption size
      history := s.history ++ [⟨base, size⟩]
      live := s.live ++ [⟨base, size⟩]
      requests := s.requests ++ [.map size (some base)] } := by
  change Arena.map s size = _ at h
  unfold Arena.map at h
  split at h
  · nomatch h
  dsimp only at h
  split at h
  · nomatch h
  · rename_i hnext
    cases h
    split at hnext
    · nomatch hnext
    · rename_i hrefuses
      unfold refuses at hrefuses
      simp only [Bool.or_eq_true, decide_eq_true_eq, not_or] at hrefuses
      exact ⟨Decidable.not_not.mp hrefuses.1.2, hnext, rfl⟩

theorem map_eq_refused (h : Source.map s size = (.refused cause, s')) :
    s' = { s with
      attempts := s.attempts + 1
      requests := s.requests ++ [.map size none] } := by
  change Arena.map s size = _ at h
  unfold Arena.map at h
  split at h
  · nomatch h
  dsimp only at h
  split at h
  · cases h
    rfl
  · nomatch h

theorem map_ne_rejected (h : s.page ∣ size) : Source.map s size ≠ (.rejected fault, s') := by
  change Arena.map s size ≠ _
  unfold Arena.map
  rw [if_neg (not_not_intro (Nat.mod_eq_zero_of_dvd h))]
  dsimp only
  split <;> nofun

theorem serves_new {s : Arena} (hpage : ∃ k, 4 ≤ k ∧ k < 64 ∧ s.page = 2 ^ k)
    (hal : s.base % alignment = 0) (hpos : 0 < s.base) (hlt : s.base + extent < Word.limit)
    (hused : s.used = 0) (hlive : s.live = []) : s.Serves [] where
  page := hpage
  aligned := hal
  positive := hpos
  bounded := hlt
  live := hlive ▸ .nil
  inside := by rw [hlive]; nofun
  usedUp := by
    unfold UsedUp
    rw [hlive, hused]
    cases s.layout <;> first | exact ⟨rfl, nofun⟩ | trivial

/-- An arena keeps the contract of a source. -/
theorem contract : Source.Contract Serves where
  page h := h.page
  mapped {s cs size base contents s'} h _ _ hmap := by
    obtain ⟨hsize, hbase, rfl⟩ := map_eq_mapped hmap
    obtain ⟨hinside, hapart, hused⟩ := nextBase?_eq_some h hsize hbase
    refine ⟨fun r hr => hapart r (h.live.mem_iff.mpr hr), h.page, h.aligned, h.positive, h.bounded,
      (List.perm_append_singleton _ _).trans (h.live.cons _), ?_, hused⟩
    exact List.forall_mem_append.mpr ⟨h.inside, List.forall_mem_singleton.mpr hinside⟩
  refused h _ _ hmap := by
    rw [map_eq_refused hmap]
    exact ⟨h.page, h.aligned, h.positive, h.bounded, h.live, h.inside, h.usedUp⟩
  unmapped {s cs r} h hr := by
    have hmem : r ∈ s.live := h.live.mem_iff.mpr hr
    have hunmap : Source.unmap s r.base r.size = { s with
        live := s.live.erase r, requests := s.requests ++ [.unmap r.size r.base] } := if_pos hmem
    rw [hunmap]
    have hsub : ∀ q ∈ s.live.erase r, q ∈ s.live := fun q hq => List.mem_of_mem_erase hq
    exact ⟨h.page, h.aligned, h.positive, h.bounded, h.live.erase r,
      fun q hq => h.inside q (hsub q hq), h.usedUp.mono hsub⟩
  placed {s cs size base contents s'} h _ _ hmap := by
    obtain ⟨hsize, hbase, -⟩ := map_eq_mapped hmap
    obtain ⟨hinside, -, -⟩ := nextBase?_eq_some h hsize hbase
    have hpos := h.positive
    have hlt := h.bounded
    have hlo := hinside.lo
    have hhi := hinside.hi
    dsimp only at hlo hhi
    exact ⟨hinside.aligned, by omega, by omega⟩
  answers h _ hpage := map_ne_rejected hpage

end Arena

end BoundaryTag
