import BoundaryTag.Proofs.Alongside
import BoundaryTag.Proofs.Arenas
import BoundaryTag.Proofs.Sufficing

/-!
# Requests that fail

A request fails if no free block is large enough for it and no region can be had
(`World.Declines`). Of the heap only the source is not what it was, and it was asked once at most.
So nothing that is asked of the heap afterwards depends on the request that failed. The error names
the size that was refused or that of the request, but for one case, in which it names what the
request was rounded to (`HeapM.size_of_allocate_error`).
-/

namespace BoundaryTag

variable {σ : Type} {After : σ → List Call → Prop} {A : Shape} {size : Nat} {e : AllocError}
  {w w' : World (Recorder σ)}

/-- Why a request for `size` bytes fails: it cannot be rounded to a word, or there is no region due
for it, or the source refused such a region. -/
inductive World.Declines [Source σ] (w : World (Recorder σ)) (size : Nat) :
    AllocError → Recorder σ → Prop
  | unrounded : roundRequest size = none → Declines w size (.sizeOverflow size) w.heap.source
  | unsized {needed : Nat} : roundRequest size = some needed →
    regionSize (Source.pageSize w.heap.source) w.heap.heapSize w.heap.config.maxRegionPages needed =
      .ok none →
    Declines w size (.sizeOverflow needed) w.heap.source
  | refused {needed n : Nat} {cause : String} {source : Recorder σ} :
    roundRequest size = some needed →
    regionSize (Source.pageSize w.heap.source) w.heap.heapSize w.heap.config.maxRegionPages needed =
      .ok (some n) →
    source.calls = .refused n :: w.heap.source.calls →
    Declines w size (.mapFailed n cause) source

namespace World.Has

/-- A request that cannot be rounded is for more than any block has. -/
theorem forward_lt_of_unrounded (H : w.Has A) (hround : roundRequest size = none) :
    ∀ x ∈ A.free, w.memory.forward x < servedSize size + headerSize := by
  intro x hx
  obtain ⟨b, hb, rfl, -⟩ := H.sound.listed x hx
  obtain ⟨-, hlt, -⟩ := H.block_sound hb
  rw [(H.marked hb).forward]
  have hlarge := roundRequest_eq_none_iff.mp hround
  unfold servedSize headerSize
  omega

/-- What is known of a request that fails. -/
theorem declines [Source σ] {o : Outline (Recorder σ)} (H : w.Has A)
    (h : (w.outline A).allocate size = some (.error e, o)) :
    w.Declines size e o.source ∧ o = { w.outline A with source := o.source } ∧
      ∀ x ∈ A.free, w.memory.forward x < servedSize size + headerSize := by
  cases hround : roundRequest size with
  | none =>
    unfold Outline.allocate at h
    rw [hround] at h
    cases h
    exact ⟨.unrounded hround, rfl, H.forward_lt_of_unrounded hround⟩
  | some needed =>
  obtain ⟨-, rfl⟩ := roundRequest_eq_some_iff.mp hround
  cases hfit : A.fit? (servedSize size) with
  | some x => nomatch (Outline.allocate_of_fit hround hfit h).1
  | none =>
  obtain ⟨_, o₂, hgrow, -, ⟨_, rfl, heq, rfl⟩ | ⟨_, -, heq, -⟩⟩ :=
    Outline.allocate_of_unfit hround hfit h
  swap
  · nomatch heq
  cases heq
  have hlisted : ∀ x ∈ A.free, w.memory.forward x < servedSize size + headerSize := by
    intro x hx
    have hnot := List.find?_eq_none.mp ((H.find?_eq _).trans hfit) x hx
    exact Nat.not_le.mp fun hle => hnot (decide_eq_true hle)
  obtain ⟨size?, hsize, hnone⟩ := Outline.size_of_grow hgrow
  have hdue : regionSize (Source.pageSize w.heap.source) w.heap.heapSize
      w.heap.config.maxRegionPages (servedSize size) = .ok size? := H.heapSize ▸ hsize
  cases size? with
  | none =>
    obtain ⟨heq, rfl⟩ := hnone rfl
    cases heq
    exact ⟨.unsized hround hdue, rfl, hlisted⟩
  | some n =>
    rcases Outline.grow_of_size hsize hgrow with ⟨cause, source, hcalls, heq, rfl⟩ |
      ⟨_, _, -, heq, -⟩
    · cases heq
      exact ⟨.refused hround hdue hcalls, rfl, hlisted⟩
    · nomatch heq

/-- What is so of the listed blocks is seen of all free blocks. -/
theorem forward_lt_of_free {n : Nat} (H : w.Has A) (hs : A.Settled)
    (hlisted : ∀ x ∈ A.free, w.memory.forward x < n) :
    ∀ r ∈ w.picture.regions, ∀ h ∈ r.headers, h.tag = .free → h.forward < n := by
  rw [H.picture_eq hs]
  intro r hr h hh hfree
  obtain ⟨t, ht, rfl⟩ := List.mem_map.mp hr
  obtain ⟨b, hbt, hforward, hb⟩ := exists_of_mem_headersOf hh hfree
  have hmem : b ∈ A.blocks := mem_blocksOf.mpr ⟨t, ht, hbt⟩
  rw [hforward, ← (H.marked hmem).forward]
  exact hlisted _ (hs.complete b hmem hb)

end World.Has

variable [Source σ]

/-- After any run a request fails only if every free block is too small for it, and then all words
of memory stay as they are, and all of the heap but for its source. The source was not called, or it
was asked for one region and refused it. No difference is seen later on. -/
theorem Session.unchanged_of_error (hc : Source.Contract After) {config : Config} {source : σ}
    {memory : Memory} {acts : List Act} {s : Session (Recorder σ)} (hs : After source [])
    (hrun : (start config { inner := source } memory).Run acts s)
    (hallocate : HeapM.allocate size s.world = .ok (.error e) w') :
    w'.memory = s.world.memory ∧ w'.heap = { s.world.heap with source := w'.heap.source } ∧
      w'.picture = s.world.picture ∧ s.world.Declines size e w'.heap.source ∧
      (∀ r ∈ s.world.picture.regions, ∀ h ∈ r.headers, h.tag = .free →
        h.forward < servedSize size + headerSize) ∧
      ∀ handles, Dialogue.Agree ⟨s, handles⟩ ⟨⟨w', s.live⟩, handles⟩ := by
  obtain ⟨A, h⟩ := (inOrder_start ⟨rfl, hs⟩).run (Recorder.contract hc) hrun
  obtain ⟨cs, hbooked⟩ := h.booked
  rcases HeapM.allocate_run (Recorder.contract hc) hbooked h.has h.settled size with
    ⟨e', w₁, hrun', H', hmem, hout⟩ | ⟨_, _, _, hrun', -⟩ | ⟨_, _, hrun', -⟩
  · cases hallocate.symm.trans hrun'
    obtain ⟨hdeclines, heq, hlisted⟩ := h.has.declines hout
    have h' : InOrder (Recorder.Wrote After) ⟨w', s.live⟩ A :=
      ⟨H', h.settled, HeapM.allocate_booked (Recorder.disjoint hc.toDisjoint) hbooked hallocate,
        h.grants⟩
    have H₁ : World.Has { s.world with heap := { s.world.heap with source := w'.heap.source } } A :=
      ⟨h.has.sound, h.has.inMemory, h.has.regions, h.has.free, h.has.heapSize, h.has.heapSize_lt,
        h.has.maps, h.has.maps_lt⟩
    have hpicture := h.has.picture_eq h.settled
    refine ⟨hmem, H₁.heap_eq H' heq, ?_, hdeclines, h.has.forward_lt_of_free h.settled hlisted,
      fun handles => Dialogue.Alongside.agree (A := A) hc ⟨h, h', ?_, rfl, rfl⟩⟩
    · rw [hpicture, H'.picture_eq h.settled, heq]
      rfl
    · exact ⟨w'.heap.source, [], heq, rfl, rfl⟩
  · nomatch hallocate.symm.trans hrun'
  · nomatch hallocate.symm.trans hrun'

/-- The source refuses its second region, and the request for 5000 bytes fails. -/
theorem Session.unchanged_after_refusal :
    ∃ (s : Session (Recorder Arena)) (w' : World (Recorder Arena)),
      (start {} { inner := { base := 0x10000, failAt := [1] } } ∅).Run [.allocate 100] s ∧
      HeapM.allocate 5000 s.world = .ok (.error (.mapFailed 12288 "out of memory")) w' ∧
      w'.memory = s.world.memory ∧ w'.heap = { s.world.heap with source := w'.heap.source } ∧
      w'.picture = s.world.picture ∧
      s.world.Declines 5000 (.mapFailed 12288 "out of memory") w'.heap.source ∧
      (∀ r ∈ s.world.picture.regions, ∀ h ∈ r.headers, h.tag = .free →
        h.forward < servedSize 5000 + headerSize) ∧
      ∀ handles, Dialogue.Agree ⟨s, handles⟩ ⟨⟨w', s.live⟩, handles⟩ := by
  have hserves : Arena.Serves { base := 0x10000, failAt := [1] } [] :=
    Arena.serves_new ⟨12, by decide, by decide, rfl⟩ rfl (by decide) (by decide) rfl rfl
  have hc := Recorder.contract Arena.contract
  obtain ⟨A, source, o, hout, hout₂⟩ :
      ∃ (A : Shape) (source : Recorder Arena) (o : Outline (Recorder Arena)),
        Outline.step ⟨{}, { inner := { base := 0x10000, failAt := [1] } }, ⟨[], []⟩, 0⟩
          (.allocate 100) = some (.allocated (.ok 0x10020), ⟨{}, source, A, 0⟩) ∧
        Outline.step ⟨{}, source, A, 0⟩ (.allocate 5000) =
          some (.allocated (.error (.mapFailed 12288 "out of memory")), o) := ⟨_, _, _, rfl, rfl⟩
  have h₀ : InOrder (Recorder.Wrote Arena.Serves)
      (start {} { inner := { base := 0x10000, failAt := [1] } } ∅) ⟨[], []⟩ :=
    inOrder_start ⟨rfl, hserves⟩
  obtain ⟨w₁, hperform₁, h₁, ho₁⟩ := h₀.perform_of_outline hc (by exact trivial) hout
  rw [← ho₁] at hout₂
  obtain ⟨w', hperform₂, -⟩ := h₁.perform_of_outline hc (by exact trivial) hout₂
  obtain ⟨_, _, hallocate, heq⟩ := bind_eq_ok_iff.mp hperform₂
  cases heq
  have hrun : Run _ [.allocate 100] _ := .cons (.intro trivial hperform₁) (.nil _)
  exact ⟨_, w', hrun, hallocate, unchanged_of_error Arena.contract hserves hrun hallocate⟩

/-! ### The sizes that errors name -/

/-- The size in an error of a request for `size` bytes is that of the request, as far as it was
rounded, or what a source, after the calls `cs` and maybe others, was asked for last and refused. -/
inductive AllocError.Names [Source σ] (size : Nat) (cs : List Call) (source : Recorder σ) :
    AllocError → Prop
  | request : Names size cs source (.outOfMemory size)
  | rounded : Names size cs source (.sizeOverflow ((roundRequest size).getD size))
  | refused {n : Nat} {cause : String} {s : Recorder σ} : cs <:+ s.calls →
    Source.map s n = (.refused cause, source) → Names size cs source (.mapFailed n cause)

namespace HeapM

variable {needed : Nat} {cs : List Call} {w w' : World (Recorder σ)}

theorem calls_suffix_grow {answer : Except AllocError Nat} (hrun : grow needed w = .ok answer w') :
    w.heap.source.calls <:+ w'.heap.source.calls := by
  have hsource := source_grow needed w
  unfold leave at hsource
  rw [hrun] at hsource
  dsimp only at hsource
  rw [hsource]
  split
  · exact Recorder.calls_suffix_map _ _
  · exact List.suffix_rfl

theorem names_of_grow (hround : roundRequest size = some needed)
    (hcalls : cs <:+ w.heap.source.calls) (hrun : grow needed w = .ok (.error e) w') :
    e.Names size cs w'.heap.source := by
  rcases grow_eq_error hrun with ⟨rfl, -⟩ | ⟨n, cause, rfl, hsource⟩
  · have hnames : AllocError.Names size cs w'.heap.source _ := .rounded
    rwa [hround] at hnames
  · exact .refused hcalls hsource

theorem names_of_findBlock (hround : roundRequest size = some needed)
    (hcalls : cs <:+ w.heap.source.calls) (hrun : findBlock size needed w = .ok (.error e) w') :
    e.Names size cs w'.heap.source := by
  rcases (findBlock_eq_error hrun).2 with hgrow | ⟨_, _, -, -, -, rfl⟩
  · exact names_of_grow hround hcalls hgrow
  · exact .request

theorem names_of_allocate (hrun : allocate size w = .ok (.error e) w') :
    e.Names size w.heap.source.calls w'.heap.source := by
  rcases allocate_eq_error hrun with
    ⟨hround, rfl, rfl⟩ | ⟨needed, hround, hgrow | hfind | ⟨b, w₁, -, hgrow, hfind⟩⟩
  · have hnames : AllocError.Names size w'.heap.source.calls w'.heap.source _ := .rounded
    rwa [hround] at hnames
  · exact names_of_grow hround List.suffix_rfl hgrow
  · exact names_of_findBlock hround List.suffix_rfl hfind
  · exact names_of_findBlock hround (calls_suffix_grow hgrow) hfind

/-- In whatever state a heap is, an error names the bytes that the source was asked for last and
refused, or the bytes of the request. But where the request was rounded and there is no size for a
region, it names what the request was rounded to. So it names the request itself just if this could
not be rounded, or is not changed by that. -/
theorem size_of_allocate_error (hrun : allocate size w = .ok (.error e) w') :
    (∀ n cause, e = .mapFailed n cause → ∃ s : Recorder σ, w.heap.source.calls <:+ s.calls ∧
      Source.map s n = (.refused cause, w'.heap.source) ∧
      w'.heap.source.calls = .refused n :: s.calls) ∧
    (∀ n, e = .outOfMemory n → n = size) ∧
    ∀ n, e = .sizeOverflow n → n = (roundRequest size).getD size ∧
      (n = size ↔ Word.limit ≤ size + 15 ∨ 16 ≤ size ∧ 16 ∣ size) := by
  cases names_of_allocate hrun with
  | request =>
    refine ⟨nofun, ?_, nofun⟩
    rintro _ ⟨⟩
    rfl
  | rounded =>
    refine ⟨nofun, nofun, ?_⟩
    rintro _ ⟨⟩
    refine ⟨rfl, ?_⟩
    cases hround : roundRequest size with
    | none => exact iff_of_true rfl (.inl (roundRequest_eq_none_iff.mp hround))
    | some needed =>
      obtain ⟨hlt, rfl⟩ := roundRequest_eq_some_iff.mp hround
      rw [Option.getD_some, servedSize_eq_self_iff]
      exact (or_iff_right (Nat.not_le_of_lt hlt)).symm
  | @refused n cause s hcalls hsource =>
    refine ⟨?_, nofun, nofun⟩
    rintro _ _ ⟨⟩
    exact ⟨s, hcalls, hsource, (Recorder.map_eq_refused hsource).2⟩

/-- The request for 100 bytes fails with the size of the page that is refused. -/
theorem size_of_refused_page : ∃ w' : World (Recorder Arena),
    allocate 100 (.fresh {} { inner := { base := 0x10000, failAt := [0] } } ∅) =
      .ok (.error (.mapFailed 0x1000 "out of memory")) w' ∧
    ∃ s : Recorder Arena, [] <:+ s.calls ∧
      Source.map s 0x1000 = (.refused "out of memory", w'.heap.source) ∧
      w'.heap.source.calls = .refused 0x1000 :: s.calls := by
  obtain ⟨w', hrun⟩ : ∃ w' : World (Recorder Arena),
      allocate 100 (.fresh {} { inner := { base := 0x10000, failAt := [0] } } ∅) =
        .ok (.error (.mapFailed 0x1000 "out of memory")) w' := ⟨_, rfl⟩
  exact ⟨w', hrun, (size_of_allocate_error hrun).1 _ _ rfl⟩

/-- There is no region for so large a request, and the error names a size that is larger by one. -/
theorem sizeOverflow_of_rounded :
    allocate (2 ^ 64 - 16385) (.fresh {} { base := 0x100000000000 : Arena } ∅) =
      .ok (.error (.sizeOverflow (2 ^ 64 - 16384)))
        (.fresh {} { base := 0x100000000000 : Arena } ∅) := rfl

end HeapM

end BoundaryTag
