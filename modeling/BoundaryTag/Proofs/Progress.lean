import BoundaryTag.Proofs.Arenas
import BoundaryTag.Proofs.Sessions

/-!
# Acts return

No act that callers may do faults: sums and differences stay words, links are only asked of free
blocks, a region that is given back is spanned by its first block, and every walk ends. The one
exception is out of reach: the count of mapped regions is at its end after as many mappings as there
are words.
-/

namespace BoundaryTag

variable {σ : Type} [Source σ] {After : σ → List Call → Prop}

/-- In every run the regions have room for a terminator, and a permitted act returns, unless with it
the source has handed out `Word.limit` ranges, and then it is their count that faults. -/
theorem Session.returns_of_run (hc : Source.Contract After) {config : Config} {source : σ}
    {memory : Memory} {acts : List Act} {s : Session (Recorder σ)} (hs : After source [])
    (hrun : (start config { inner := source } memory).Run acts s) :
    (∀ r ∈ s.world.heap.regions, headerSize ≤ r.size) ∧ ∀ act, s.Permits act →
      (∃ reply w', act.perform s.world = .ok reply w') ∨
      ∃ w', act.perform s.world = .error .addOverflow w' ∧
        Word.limit ≤ Call.maps w'.heap.source.calls := by
  obtain ⟨A, h⟩ := (inOrder_start ⟨rfl, hs⟩).run (Recorder.contract hc) hrun
  refine ⟨fun r hr => ?_, fun act hp => ?_⟩
  · rw [h.has.regions] at hr
    obtain ⟨t, ht, rfl⟩ := List.mem_map.mp hr
    have hroom := (h.has.sound.laid.sound t ht).tiles.le
    have hadd := (h.has.sound.laid.sound t ht).terminator_add
    unfold headerSize
    omega
  rcases h.step (Recorder.contract hc) hp with ⟨reply, w', -, hperform, -⟩ |
    ⟨w', -, hperform, ⟨cs, ⟨hcalls, -⟩, hmaps⟩, -⟩
  · exact .inl ⟨reply, w', hperform⟩
  · exact .inr ⟨w', hperform, hcalls ▸ hmaps⟩

theorem Session.release_returns : ∃ s : Session (Recorder Arena),
    (start {} { inner := { base := 0x10000 } } ∅).Run [.allocate 100] s ∧
      ((∃ reply w', (Act.release 0x10020).perform s.world = .ok reply w') ∨
      ∃ w', (Act.release 0x10020).perform s.world = .error .addOverflow w' ∧
        Word.limit ≤ Call.maps w'.heap.source.calls) := by
  have hserves : Arena.Serves { base := 0x10000 } [] :=
    Arena.serves_new ⟨12, by decide, by decide, rfl⟩ rfl (by decide) (by decide) rfl rfl
  obtain ⟨s, hrun, hlive⟩ : ∃ s : Session (Recorder Arena),
      (start {} { inner := { base := 0x10000 } } ∅).Run [.allocate 100] s ∧
        s.live = [{ payload := 0x10020, size := 100 }] :=
    ⟨_, .cons (.intro trivial rfl) (.nil _), rfl⟩
  exact ⟨s, hrun, (returns_of_run Arena.contract hserves hrun).2 _
    ⟨_, hlive ▸ List.mem_cons_self, rfl⟩⟩

end BoundaryTag
