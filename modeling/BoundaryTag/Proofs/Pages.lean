import Mathlib.Data.Nat.Prime.Basic
import BoundaryTag.Proofs.Books
import BoundaryTag.Proofs.Growth
import BoundaryTag.Source.Arena

/-!
# Requests for whole pages

Sizes of regions are rounded to pages by clearing bits, which is rounding for powers of two only.
So a source with such pages is asked for whole pages, whatever the heap and the request are, and no
other source is sure of it: of any other page some heap asks for a part, but for pages so large that
nothing can be rounded to them (`wholePages_iff`). If a page has room for two headers, it is the
first region of a heap already that is no whole page (`regionSize_of_empty`).
-/

namespace BoundaryTag

/-! ### The sizes of regions -/

variable {p n current needed maxPages request target : Nat}

/-- A region is as large as the bound, or what is needed at least is rounded to its size. -/
theorem regionSize_eq_some (hpos : 0 < p)
    (h : regionSize p current maxPages request = .ok (some n)) :
    request + 64 ≤ maxPages * p ∧ maxPages * p < Word.limit ∧ n = maxPages * p ∨
      ∃ v, request + 64 ≤ v ∧ v + (p - 1) < Word.limit ∧ n = Word.clear (v + (p - 1)) (p - 1) := by
  obtain ⟨start, target, -, -, -, -, hfits, hcap, hbounded⟩ := regionSize_eq_some_cases h
  exact (RegionSize.bounded_eq_some hpos hfits hbounded).imp_left fun ⟨hle, hn⟩ => ⟨hle, hcap, hn⟩

/-- The first region of a heap, for a request that one page has room for: it has at least one byte
and less than two pages, and is a whole page just where pages are a power of two. -/
theorem regionSize_of_empty (hroom : request + 64 ≤ p) (htwo : 2 ≤ maxPages)
    (hcap : maxPages * p < Word.limit) : ∃ n, regionSize p 0 maxPages request = .ok (some n) ∧
      0 < n ∧ n < 2 * p ∧ (p ∣ n ↔ p.isPowerOfTwo) := by
  have hpages : 2 * p ≤ maxPages * p := Nat.mul_le_mul_right p htwo
  have htarget : RegionSize.doubleUntil 0 (request + 64) RegionSize.maxDoublings p = .ok (some p) :=
    RegionSize.doubleUntil_of_fits (Nat.zero_le p) hroom
  have hrun : regionSize p 0 maxPages request =
      .ok (some (Word.clear (p + (p - 1)) (p - 1))) := by
    rw [regionSize_eq_of_target maxPages (by omega) rfl htarget (Nat.zero_le p), if_pos hcap,
      RegionSize.bounded, Nat.sub_zero, if_pos (by omega),
      (roundUp_eq_ok_iff (by omega)).mpr ⟨by omega, rfl⟩]
    rfl
  have hpos : 0 < Word.clear (p + (p - 1)) (p - 1) := Word.clear_pos (by omega) (by omega)
  have hle := Word.clear_le (p + (p - 1)) (p - 1)
  refine ⟨_, hrun, hpos, by omega, fun hdvd => ?_, ?_⟩
  · -- the only multiple in reach is the page itself, which then has no bit below its highest
    have heq : Word.clear (p + (p - 1)) (p - 1) = p :=
      Nat.eq_of_dvd_of_lt_two_mul (Nat.ne_of_gt hpos) hdvd (by omega)
    have hand : Word.clear (p + (p - 1)) (p - 1) &&& (p - 1) = 0 := Word.clear_and (by omega)
    rw [heq] at hand
    exact (Nat.and_sub_one_eq_zero_iff_isPowerOfTwo (by omega)).mp hand
  · rintro ⟨k, rfl⟩
    rw [Word.clear_two_pow (by omega) ?_]
    · exact Nat.dvd_mul_left _ _
    · have : 2 ^ k < 2 ^ 64 := by rw [← Word.limit_eq]; omega
      exact Nat.le_of_lt ((Nat.pow_lt_pow_iff_right Nat.one_lt_two).mp this)

/-- An empty heap doubles out of the words only for more than half of them. -/
theorem RegionSize.Doubles.lt_of_none (h : Doubles 0 needed target none) : 2 ^ 63 < needed := by
  generalize hanswer : none = answer at h
  induction h with
  | fits => cases hanswer
  | overflows hsub hmore hdouble =>
    obtain ⟨-, rfl⟩ := Word.sub_eq_ok_iff.mp hsub
    have hout : 2 ^ 64 ≤ _ * 2 := Word.mul?_eq_none_iff.mp hdouble
    omega
  | again _ _ _ _ ih => exact ih hanswer

/-- With no page for a bound, a region is as large as what is needed, rounded. -/
theorem regionSize_of_no_bound (hpos : 0 < p) (hneeded : request + 64 ≤ 2 ^ 63)
    (hsum : request + 64 + (p - 1) < Word.limit) : regionSize p 0 0 request =
      .ok (some (Word.clear (request + 64 + (p - 1)) (p - 1))) := by
  obtain ⟨target?, hdoubles, htarget⟩ := RegionSize.doubles_run (request + 64) (Nat.zero_le p)
    (Nat.le_mul_of_pos_left (2 ^ RegionSize.maxDoublings) hpos)
  cases target? with
  | none => exact absurd hneeded (Nat.not_le_of_lt hdoubles.lt_of_none)
  | some target =>
  rw [regionSize_eq_of_target 0 (by omega) rfl htarget (Nat.zero_le target), if_pos (by omega),
    RegionSize.bounded, if_neg (by omega), if_neg (by omega), Word.sub_eq_ok_iff.mpr ⟨hpos, rfl⟩,
    ok_bind, Word.add?_eq_some_iff.mpr ⟨hsum, rfl⟩]
  rfl

/-- Of a page that is no power of two some request of an empty heap asks for a part. -/
theorem exists_regionSize_not_dvd (hpos : 0 < p) (hlt : p + 63 < Word.limit)
    (hp : ¬p.isPowerOfTwo) : ∃ maxPages request n,
      regionSize p 0 maxPages request = .ok (some n) ∧ ¬p ∣ n := by
  by_cases hsmall : p < 64
  · -- the size comes to 128
    have hrun : regionSize p 0 0 (65 - p) = _ :=
      regionSize_of_no_bound hpos (by omega) (by rw [Word.limit_eq]; omega)
    rw [show 65 - p + 64 + (p - 1) = 2 ^ 7 by omega, Word.clear_pow (by decide) (by omega)] at hrun
    refine ⟨0, _, _, hrun, fun hdvd => hp ?_⟩
    obtain ⟨k, -, hk⟩ := (Nat.dvd_prime_pow Nat.prime_two).mp hdvd
    exact ⟨k, hk⟩
  by_cases hmid : p < 2 ^ 63
  · have hroom : 0 + 64 ≤ p := by omega
    obtain ⟨n, hrun, -, -, hiff⟩ :=
      regionSize_of_empty hroom (Nat.le_refl 2) (by rw [Word.limit_eq]; omega)
    exact ⟨2, 0, n, hrun, fun hdvd => hp (hiff.mp hdvd)⟩
  · -- half of the words have no place for a page, so that the size is less than one
    have hne : p ≠ 2 ^ 63 := fun h => hp ⟨63, h⟩
    have hrun : regionSize p 0 0 0 = _ := regionSize_of_no_bound hpos (by omega) (by omega)
    have hn : 0 < Word.clear (0 + 64 + (p - 1)) (p - 1) := Word.clear_pos (by omega) (by omega)
    have hle : Word.clear (0 + 64 + (p - 1)) (p - 1) ≤ Word.limit - 1 - (p - 1) := Nat.and_le_right
    refine ⟨0, 0, _, hrun, fun hdvd => ?_⟩
    have := Nat.le_of_dvd hn hdvd
    rw [Word.limit_eq] at hle
    omega

/-! ### What is asked of a source -/

/-- A source with the sizes that were asked of it, the latest first. -/
structure Asked (σ : Type) where
  inner : σ
  sizes : List Nat := []

instance {σ : Type} [Source σ] : Source (Asked σ) where
  pageSize s := Source.pageSize s.inner
  map s size :=
    let (answer, inner) := Source.map s.inner size
    (answer, { inner, sizes := size :: s.sizes })
  unmap s base size := { s with inner := Source.unmap s.inner base size }

namespace HeapM

variable {σ α β : Type}

/-- The world after a program, which may have stopped with a fault. -/
def leave (p : HeapM σ α) (w : World σ) : World σ :=
  match p w with
  | .ok _ w' => w'
  | .error _ w' => w'

/-- The program does not call the source. -/
def KeepsSource (p : HeapM σ α) : Prop := ∀ w, (p.leave w).heap.source = w.heap.source

variable {p : HeapM σ α}

theorem leave_bind (k : α → HeapM σ β) (w : World σ) : (p >>= k).leave w =
    match p w with
    | .ok a w' => (k a).leave w'
    | .error _ w' => w' := by
  unfold leave
  rw [run_bind]
  cases p w <;> rfl

theorem Plain.keepsSource (hp : p.Plain) : p.KeepsSource := by
  intro w
  unfold leave
  cases hrun : p w with
  | ok a w' =>
    dsimp only
    rw [hp.heap_of_ok hrun]
  | error fault w' =>
    dsimp only
    rw [hp.heap_of_error hrun]

namespace KeepsSource

/-- The source is as it was left before what does not call it. -/
theorem after {k : α → HeapM σ β} (hk : ∀ a, (k a).KeepsSource) (w : World σ) :
    ((p >>= k).leave w).heap.source = (p.leave w).heap.source := by
  rw [leave_bind]
  unfold leave
  cases p w with
  | ok a w' => exact hk a w'
  | error fault w' => rfl

theorem bind {k : α → HeapM σ β} (hp : p.KeepsSource) (hk : ∀ a, (k a).KeepsSource) :
    (p >>= k).KeepsSource := fun w => (after hk w).trans (hp w)

theorem update {f : Heap σ → Heap σ} (hf : ∀ h, (f h).source = h.source) :
    (HeapM.update f).KeepsSource := fun w => hf w.heap

theorem heap_bind {k : Heap σ → HeapM σ α} (hk : ∀ h, (k h).KeepsSource) :
    (heap >>= k).KeepsSource := fun w => hk w.heap w

theorem addRegion (r : Region) : (addRegion r : HeapM σ Unit).KeepsSource := by
  refine (update ?_).bind fun _ => heap_bind fun _ => (plain_ofExcept _).keepsSource.bind fun _ =>
    (update ?_).bind fun _ => heap_bind fun _ => (plain_ofExcept _).keepsSource.bind fun _ =>
      update ?_ <;> exact fun _ => rfl

end KeepsSource

variable [Source σ]

theorem source_mapRange (size : Nat) (w : World σ) :
    ((mapRange size).leave w).heap.source = (Source.map w.heap.source size).2 := by
  unfold leave mapRange
  cases hmap : Source.map w.heap.source size with
  | mk answer source => cases answer <;> rfl

/-- Growing asks the source once, for a region of the size that there is, or not at all. -/
theorem source_grow (request : Nat) (w : World σ) : ((grow request).leave w).heap.source =
    match BoundaryTag.regionSize (Source.pageSize w.heap.source) w.heap.heapSize
      w.heap.config.maxRegionPages request with
    | .ok (some size) => (Source.map w.heap.source size).2
    | _ => w.heap.source := by
  have hsize : regionSize request w = (ofExcept (BoundaryTag.regionSize
      (Source.pageSize w.heap.source) w.heap.heapSize w.heap.config.maxRegionPages request) :
      HeapM σ (Option Nat)) w := rfl
  unfold grow
  rw [leave_bind, hsize]
  cases BoundaryTag.regionSize (Source.pageSize w.heap.source) w.heap.heapSize
    w.heap.config.maxRegionPages request with
  | error fault => rfl
  | ok size? =>
  cases size? with
  | none => rfl
  | some size =>
  refine (KeepsSource.after (fun answer => ?_) w).trans (source_mapRange size w)
  cases answer with
  | error cause => exact (plain_emit _).keepsSource.bind fun _ => (plain_pure _).keepsSource
  | ok base =>
    have hlay : ∀ r : Region, (do
        layOut r
        addRegion r
        emit (.mapped base size request (← heap).heapSize)
        return .ok r.sentinel : HeapM σ (Except AllocError Nat)).KeepsSource := fun r =>
      (plain_layOut r).keepsSource.bind fun _ => (KeepsSource.addRegion r).bind fun _ =>
        KeepsSource.heap_bind fun _ => (plain_emit _).keepsSource.bind fun _ =>
          (plain_pure _).keepsSource
    dsimp only
    split
    · exact (plain_throw _).keepsSource
    · exact hlay _

end HeapM

/-- All that growing asks of a source with pages of `p` bytes are whole pages, whatever source it is
and whatever the heap and the request are. -/
def WholePages (p : Nat) : Prop :=
  ∀ (σ : Type) [Source σ] (w : World (Asked σ)) (request : Nat),
    Source.pageSize w.heap.source = p →
    ∃ sizes, ((HeapM.grow request).leave w).heap.source.sizes = sizes ++ w.heap.source.sizes ∧
      ∀ n ∈ sizes, p ∣ n

theorem HeapM.sizes_grow {σ : Type} [Source σ] {w : World (Asked σ)}
    (h : BoundaryTag.regionSize (Source.pageSize w.heap.source) w.heap.heapSize
      w.heap.config.maxRegionPages request = .ok (some n)) :
    ((grow request).leave w).heap.source.sizes = n :: w.heap.source.sizes := by
  rw [source_grow, h]
  rfl

theorem wholePages_of_regionSize
    (h : ∀ current maxPages request n, regionSize p current maxPages request = .ok (some n) →
      p ∣ n) : WholePages p := by
  intro σ _ w request hpage
  rw [HeapM.source_grow, hpage]
  split
  · rename_i size hsize
    exact ⟨[size], rfl, List.forall_mem_singleton.mpr (h _ _ _ _ hsize)⟩
  · exact ⟨[], rfl, nofun⟩

/-- Whole pages are asked for, if pages are a power of two, and else only if they are so large that
no size can be rounded to one. -/
theorem wholePages_iff (hpos : 0 < p) (hlt : p < Word.limit) :
    WholePages p ↔ p.isPowerOfTwo ∨ Word.limit ≤ p + 63 := by
  constructor
  · intro h
    by_cases hroom : p + 63 < Word.limit
    · refine .inl (of_not_not fun hp => ?_)
      obtain ⟨maxPages, request, n, hrun, hn⟩ := exists_regionSize_not_dvd hpos hroom hp
      let source : Asked Arena := { inner := { base := 0, page := p } }
      let w : World (Asked Arena) := .fresh { maxRegionPages := maxPages } source ∅
      obtain ⟨sizes, hsizes, hall⟩ := h Arena w request rfl
      have hasked : [n] = sizes ++ [] := (HeapM.sizes_grow hrun).symm.trans hsizes
      rw [List.append_nil] at hasked
      exact hn (hall n (hasked ▸ List.mem_singleton_self n))
    · exact .inr (Nat.le_of_not_lt hroom)
  · intro h
    refine wholePages_of_regionSize fun current maxPages request n hrun => ?_
    rcases regionSize_eq_some hpos hrun with ⟨-, -, rfl⟩ | ⟨v, hv, hsum, rfl⟩
    · exact Nat.dvd_mul_left p maxPages
    · rcases h with ⟨k, rfl⟩ | hlarge
      · have hk : 2 ^ k < 2 ^ 64 := hlt
        rw [Word.clear_two_pow hsum
          (Nat.le_of_lt ((Nat.pow_lt_pow_iff_right Nat.one_lt_two).mp hk))]
        exact Nat.dvd_mul_left _ _
      · omega

/-- Of a page of 4096 bytes no part is asked for, but of one of 12288 bytes. -/
theorem wholePages_4096 : WholePages 4096 ∧ ¬WholePages 12288 := by
  refine ⟨(wholePages_iff (by decide) (by decide)).mpr (.inl ⟨12, rfl⟩), fun h => ?_⟩
  rcases (wholePages_iff (by decide) (by decide)).mp h with hpower | hlarge
  · exact absurd ((Nat.and_sub_one_eq_zero_iff_isPowerOfTwo (by decide)).mpr hpower) (by decide)
  · exact absurd hlarge (by decide)

/-- The first region of a heap, with pages of 12288 bytes and the default bound, comes to one page
and two thirds, so that an arena stops the heap. -/
theorem partialPage_of_first_region :
    ((HeapM.grow 112).leave (.fresh {}
        { inner := { base := 0x100000000000, page := 12288 } : Asked Arena } ∅)).heap.source.sizes =
      [20480] ∧ ¬12288 ∣ 20480 ∧
    HeapM.allocate 100 (.fresh {} { base := 0x100000000000, page := 12288 : Arena } ∅) =
      .error (.partialPage 20480 8192)
        (.fresh {} { base := 0x100000000000, page := 12288 : Arena } ∅) :=
  ⟨HeapM.sizes_grow (by decide +kernel), by decide, rfl⟩

end BoundaryTag
