import BoundaryTag.Proofs.Ageing
import BoundaryTag.Proofs.Misuse

/-!
# Starting over

Starting over gives back the regions of a heap, whatever has become of its memory and of its free
list, and leaves a heap like a new one, but for its counts and for the calls that its source has
answered (`World.StartsOver`). These are the past of the heap, and with a past it does what it does
without. A new heap over the same source does the same in any memory (`Tenant.Keeps.run`), since a
source that keeps to its contract does so from any time on (`Source.Contract.since`).
-/

namespace BoundaryTag

variable {σ : Type} {After : σ → List Call → Prop}

/-! ### Sources that were used before -/

/-- The state of a source after some calls that it answered after the calls `past`. -/
def Source.Since (After : σ → List Call → Prop) (past : List Call) (s : σ) (cs : List Call) :
    Prop := After s (cs ++ past)

/-- What was handed out since then and not given back is out. -/
theorem Call.live_subperm_append (cs past : List Call) :
    (Call.live cs).Subperm (Call.live (cs ++ past)) := by
  induction cs with
  | nil => exact List.nil_subperm
  | cons c cs ih =>
    cases c with
    | mapped r => exact (List.subperm_cons r).mpr ih
    | refused size => exact ih
    | unmapped r => exact ih.erase r

theorem Source.Contract.since [Source σ] (hc : Source.Contract After) (past : List Call) :
    Source.Contract (Source.Since After past) where
  page hs := hc.page hs
  mapped {_ cs _ _ _ _} hs hpos hpage hmap := by
    obtain ⟨hapart, hafter⟩ := hc.mapped hs hpos hpage hmap
    exact ⟨fun r hr => hapart r ((Call.live_subperm_append cs past).subset hr), hafter⟩
  refused hs hpos hpage hmap := hc.refused hs hpos hpage hmap
  unmapped {_ cs _} hs hr := hc.unmapped hs ((Call.live_subperm_append cs past).subset hr)
  placed hs hpos hpage hmap := hc.placed hs hpos hpage hmap
  answers hs hpos hpage := hc.answers hs hpos hpage

/-! ### Tenants with a past -/

/-- The picture of a heap with a past. -/
def Picture.aged {α : Type} (past : Past) (p : Picture α) : Picture α :=
  { p with stats := { p.stats with
    maps := p.stats.maps + past.maps
    unmaps := p.stats.unmaps + past.unmaps } }

namespace Tenant

variable {past : Past} {m m' m₁ : Memory} {t t' u : Tenant σ} {deeds : List (Deed × Reply)}

/-- The heap in `m` is the one in `m₁` with a past, and it looks so, unless it is gone. -/
structure Ages (past : Past) (t : Tenant σ) (m : Memory) (u : Tenant σ) (m₁ : Memory) : Prop where
  tenant : t = u.aged past
  picture : t.dropped = false → (t.world m).picture = (u.world m₁).picture.aged past

theorem Keeps.ages (h : u.Keeps After m m₁) : (u.aged past).Ages past m u m₁ where
  tenant := rfl
  picture hd := by
    rw [h.picture_eq hd]
    rfl

/-- What a heap does in one memory, deed by deed, it does in the other. -/
theorem Keeps.run [Source σ] (hc : Source.Contract After) (h : t.Keeps After m m₁)
    (hrun : t.Run m deeds m' t') : ∃ m₁', t.Run m₁ deeds m₁' t' ∧ t'.Keeps After m' m₁' := by
  induction hrun generalizing m₁ with
  | nil m t => exact ⟨m₁, .nil m₁ t, h⟩
  | cons hdoes _ ih =>
    obtain ⟨⟨n₁, hdoes₁, hkeeps⟩, -⟩ := h.does hc hdoes
    obtain ⟨m₁', hrun₁, hlast⟩ := ih hkeeps
    exact ⟨m₁', .cons hdoes₁ hrun₁, hlast⟩

end Tenant

/-! ### Starting over -/

namespace World

variable [Source σ] {w w' : World (Recorder σ)}

/-- The heap starts over in `w`, and is as new in `w'` but for its counts. -/
structure StartsOver (w w' : World (Recorder σ)) : Prop where
  run : HeapM.reset w = .ok () w'
  memory : w'.memory = w.memory
  /-- Neither memory nor the free list nor the size is looked at. -/
  blind (memory : Memory) (free : FreeList) (heapSize : Nat) :
    HeapM.reset { w with memory, heap := { w.heap with free, heapSize } } =
      .ok () { w' with memory }
  /-- It has no region, no byte and no free block left. -/
  heap : w'.heap = {
    config := w.heap.config
    source := w'.heap.source
    maps := w.heap.maps
    unmaps := w.heap.unmaps + w.heap.regions.length }
  /-- The regions were out as they were mapped. -/
  out : w.heap.regions.Subperm (Call.live w.heap.source.calls)
  /-- Each of them is given back, in their order, and nothing else. -/
  calls : w'.heap.source.calls =
    (w.heap.regions.map Call.unmapped).reverse ++ w.heap.source.calls
  again : HeapM.reset w' = .ok () { w' with log := w'.log ++ [.reset] }

/-- Whatever is done with the heap may be done with a new heap over the same source, in any memory,
and the other way round as long as the counts are words. -/
structure LikeNew (w : World (Recorder σ)) : Prop where
  young {deeds : List (Deed × Reply)} {m' : Memory} {t : Tenant σ} :
    Tenant.Run w.memory { heap := w.heap } deeds m' t → ∀ m, ∃ m₁ u,
      (Tenant.start w.heap.config w.heap.source.inner).Run m deeds m₁ u ∧
        t.Ages w.heap.past m' u m₁
  aged {deeds : List (Deed × Reply)} {m m₁ : Memory} {u : Tenant σ} :
    (Tenant.start w.heap.config w.heap.source.inner).Run m deeds m₁ u →
      w.heap.past.Fits u.heap → ∃ m' t,
        Tenant.Run w.memory { heap := w.heap } deeds m' t ∧ t.Ages w.heap.past m' u m₁

theorem startsOver_of_backed (hb : w.heap.Backed After [])
    (hcount : w.heap.unmaps + w.heap.regions.length < Word.limit) : ∃ w', w.StartsOver w' := by
  have hrun := HeapM.reset_run hcount
  refine ⟨_, hrun, rfl, fun memory free heapSize => ?_, rfl, hb.out, ?_, ?_⟩
  · exact HeapM.reset_run (w := { w with memory, heap := { w.heap with free, heapSize } }) hcount
  · exact Recorder.calls_unmapAll w.heap.source w.heap.regions
  · exact HeapM.reset_run hcount

/-- A heap without regions and blocks is a new one with a past. -/
theorem likeNew_of_eq (hc : Source.Contract After)
    (hafter : After w.heap.source.inner w.heap.source.calls)
    (hheap : w.heap = {
      config := w.heap.config
      source := w.heap.source
      maps := w.heap.maps
      unmaps := w.heap.unmaps }) : w.LikeNew := by
  have hc' := hc.since w.heap.source.calls
  have hafter' : Source.Since After w.heap.source.calls w.heap.source.inner [] := hafter
  have hkeeps : ∀ m m₁, (Tenant.start w.heap.config w.heap.source.inner).Keeps
      (Source.Since After w.heap.source.calls) m m₁ := fun _ _ => .start hafter'
  have hold : ({ heap := w.heap } : Tenant σ) =
      (Tenant.start w.heap.config w.heap.source.inner).aged w.heap.past := by
    unfold Tenant.aged Heap.aged Heap.past Tenant.start Recorder.aged
    dsimp only
    rw [Nat.zero_add, Nat.zero_add, List.nil_append]
    exact congrArg (fun h => ({ heap := h } : Tenant σ)) hheap
  refine ⟨fun hrun m => ?_, fun hrun hfits => ?_⟩
  -- the past is left behind first, in the memory at hand, and then the memory
  · rw [hold] at hrun
    obtain ⟨u, hyoung, rfl⟩ := hrun.young
    obtain ⟨m₁, hrun₁, hlast⟩ := (hkeeps w.memory m).run hc' hyoung
    exact ⟨m₁, u, hrun₁, hlast.ages⟩
  · obtain ⟨m', hrun', hlast⟩ := (hkeeps _ w.memory).run hc' hrun
    rw [hold]
    exact ⟨m', _, hrun'.aged hfits, hlast.symm.ages⟩

/-- Whatever has happened to a heap and its memory, it may start over. That gives back the regions,
each once, reads no memory, and leaves no region, no byte and no free block. Starting over again
changes nothing. And from then on the heap is like a new one with its source and configuration: the
same may be done with either, with the same replies, and it comes to the same but for the past
counts. -/
theorem startsOver_of_suffers (hc : Source.Contract After) {config : Config} {source : σ}
    {memory : Memory} (hs : After source [])
    (h : Relation.ReflTransGen (Suffers After) (fresh config { inner := source } memory) w)
    (hcount : w.heap.unmaps + w.heap.regions.length < Word.limit) :
    ∃ w', w.StartsOver w' ∧ w'.LikeNew := by
  have hb := backed_of_suffers hc hs h
  obtain ⟨w', hover⟩ := startsOver_of_backed hb hcount
  have hreset : Act.reset.perform w = .ok .done w' := run_bind_ok hover.run
  have hb' := HeapM.upholds_perform hc .reset w hb
  rw [hreset] at hb'
  refine ⟨w', hover, likeNew_of_eq hc hb'.after ?_⟩
  rw [hover.heap]

/-- Memory is wiped and the free list made to start at a block in use, so that an allocation faults.
After the heap has started over it returns. -/
theorem startsOver_after_fault : ∃ w w' : World (Recorder Arena),
    Relation.ReflTransGen (Suffers Arena.Serves)
      (fresh {} { inner := { base := 0x10000 } } ∅) w ∧
    HeapM.allocate 100 w = .error .subOverflow w ∧ w.StartsOver w' ∧ w'.LikeNew ∧
      w'.heap.source.calls = [.unmapped ⟨0x10000, 0x1000⟩, .mapped ⟨0x10000, 0x1000⟩] ∧
      ∃ m t, Tenant.Run w'.memory { heap := w'.heap }
        [(.act (.allocate 100), .allocated (.ok 0x11020))] m t := by
  have hserves : Arena.Serves { base := 0x10000 } [] :=
    Arena.serves_new ⟨12, by decide, by decide, rfl⟩ rfl (by decide) (by decide) rfl rfl
  obtain ⟨source, hsource⟩ : ∃ source : Recorder Arena, source = {
      inner := {
        base := 0x10000
        used := 0x1000
        attempts := 1
        history := [⟨0x10000, 0x1000⟩]
        live := [⟨0x10000, 0x1000⟩]
        requests := [.map 0x1000 (some 0x10000)] }
      calls := [.mapped ⟨0x10000, 0x1000⟩] } := ⟨_, rfl⟩
  obtain ⟨w, hrun, hfault, hheap⟩ : ∃ w : World (Recorder Arena),
      Relation.ReflTransGen (Suffers Arena.Serves)
        (fresh {} { inner := { base := 0x10000 } } ∅) w ∧
      HeapM.allocate 100 w = .error .subOverflow w ∧ w.heap = {
        config := {}
        source
        regions := [⟨0x10000, 0x1000⟩]
        heapSize := 7
        free := ⟨some 0x10000⟩ } := by
    subst hsource
    exact ⟨_, .tail (.tail (.tail .refl
      (.returned (show (Act.allocate 100).perform _ = .ok _ _ from rfl)))
      (.overwritten ∅ ⟨some 0x10000⟩ 7 0 0))
      (.faulted (show (Act.allocate 100).perform _ = .error _ _ from rfl)), rfl, rfl⟩
  have hcount : w.heap.unmaps + w.heap.regions.length < Word.limit := by
    rw [hheap]
    show 1 < Word.limit
    decide
  obtain ⟨w', hover, hnew⟩ := startsOver_of_suffers Arena.contract hserves hrun hcount
  have hheap' : w'.heap = {
      config := {}
      source := Source.unmap source 0x10000 0x1000
      unmaps := 1 } := by
    cases hover.run.symm.trans (HeapM.reset_run hcount)
    rw [hheap]
    rfl
  obtain ⟨m₁, u, hnext, hfits⟩ : ∃ m₁ u,
      (Tenant.start w'.heap.config w'.heap.source.inner).Run ∅
        [(.act (.allocate 100), .allocated (.ok 0x11020))] m₁ u ∧ w'.heap.past.Fits u.heap := by
    rw [hheap', hsource]
    refine ⟨_, _, .cons (.act rfl trivial (show (Act.allocate 100).perform _ = .ok _ _ from rfl))
      (.nil _ _), ?_, ?_⟩
    · show 1 < Word.limit
      decide
    · show 1 < Word.limit
      decide
  obtain ⟨m, t, hrun', -⟩ := hnew.aged hnext hfits
  refine ⟨w, w', hrun, hfault, hover, hnew, ?_, m, t, hrun'⟩
  rw [hheap', hsource]
  rfl

end World

end BoundaryTag
