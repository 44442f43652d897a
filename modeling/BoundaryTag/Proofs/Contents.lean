import BoundaryTag.Proofs.Mirroring
import BoundaryTag.Proofs.Payloads

/-!
# Contents of memory

Neither what callers write to their blocks nor what is in a range when it is mapped has any
influence on a heap: it is in order, and all that it goes by are words that it has written itself.
Two heaps that are asked for the same and get the same ranges mirror each other in place.
-/

namespace BoundaryTag

variable {σ τ : Type} {After : σ → List Call → Prop} {After' : τ → List Call → Prop}
  {f : Nat → Nat} {A : Shape} {e e' : Entry}

/-- If both replies give a cause of a failure, they give the same. -/
def Entry.SameCause (e e' : Entry) : Prop :=
  ∀ c c', e.reply.cause? = some c → e'.reply.cause? = some c' → c = c'

theorem Call.eq_of_like {cs cs' : List Call} (h : List.Forall₂ (Like Eq) cs cs') : cs' = cs := by
  induction h with
  | nil => rfl
  | cons hlike _ ih => cases hlike <;> simp_all

namespace Dialogue

namespace Mirrors

variable {d : Dialogue (Recorder σ)} {d' : Dialogue (Recorder τ)}

/-- A chart of bases that are the same leaves all addresses where they are. -/
theorem move_eq (h : Mirrors After After' Eq f A d d') {a : Nat} (ha : A.Spans a) : f a = a := by
  obtain ⟨r, hr, hlo, hhi⟩ := ha
  obtain ⟨n, rfl⟩ := Nat.exists_eq_add_of_le hlo
  rw [h.outline.chart.rigid r hr n (by omega), ← h.outline.chart.bases r hr]

theorem picture_eq (h : Mirrors After After' Eq f A d d') :
    d'.session.world.picture = d.session.world.picture := by
  rw [h.left.has.picture_eq h.left.settled, h.right.has.picture_eq h.right.settled,
    h.outline.picture_eq, Outline.picture_map_congr h.left.has.sound fun a ha => h.move_eq ha]
  exact Picture.map_id

end Mirrors

end Dialogue

/-- Where bases are the same, so is all else. -/
theorem Entry.Mirrors.eq (h : Entry.Mirrors After After' Eq e e') (hcause : e.SameCause e') :
    e = e' := by
  obtain ⟨hmirrors, hplain, hspans⟩ := h
  rename_i command page reply reply' f A d d'
  have hmove : reply.move f = reply := by
    match reply with
    | .allocated (.ok p) =>
      show Reply.allocated (.ok (f p)) = .allocated (.ok p)
      rw [hmirrors.move_eq (hspans p rfl)]
    | .allocated (.error _) | .done | .violations _ | .count _ => rfl
  have hcalls : d'.session.world.heap.source.calls = d.session.world.heap.source.calls :=
    Call.eq_of_like hmirrors.outline.chart.calls
  rw [hmove] at hplain
  unfold Dialogue.entry
  rw [Reply.eq_of_plain hplain hcause, hmirrors.picture_eq, hcalls]

variable [Source σ] [Source τ]

/-- If two heaps are asked for the same and their sources answer with the same ranges and failures,
then whatever these ranges contain and whatever is written to live blocks, each command has the same
reply, the sources have had the same calls, and both heaps look the same. Then the same may be asked
of both again. -/
theorem Dialogue.entries_eq_of_runs (hc : Source.Contract After) (hc' : Source.Contract After')
    {config : Config} {source : σ} {source' : τ} {memory memory' : Memory}
    {entries entries' : List Entry} {d : Dialogue (Recorder σ)} {d' : Dialogue (Recorder τ)}
    (hs : After source []) (hs' : After' source' [])
    (hrun : (start config { inner := source } memory).Run entries d)
    (hrun' : (start config { inner := source' } memory').Run entries' d')
    (halike : List.Forall₂ (fun e e' => e.Alike Eq e' ∧ e.SameCause e') entries entries') :
    entries = entries' ∧ d.session.world.picture = d'.session.world.picture ∧
      ∀ command, d.Admits command ↔ d'.Admits command := by
  obtain ⟨⟨f, A, hlast⟩, hentries⟩ := (mirrors_start hs hs').run hc hc' hrun hrun'
    (halike.imp fun _ _ h => h.1)
  refine ⟨?_, hlast.picture_eq.symm, fun _ => hlast.admits_iff⟩
  clear hrun hrun'
  induction hentries with
  | nil => rfl
  | cons hentry _ ih =>
    obtain ⟨⟩ | ⟨hhere, hothers⟩ := halike
    rw [hentry.eq hhere.2, ih hothers]

/-- What is in the entries but for the pictures. -/
def Entry.exchange (e : Entry) : Command × Nat × Reply × List Call :=
  (e.command, e.page, e.reply, e.calls)

theorem Entry.alike_of_exchange {entries entries' : List Entry}
    (h : entries.map exchange = entries'.map exchange) :
    List.Forall₂ (fun e e' => e.Alike Eq e' ∧ e.SameCause e') entries entries' := by
  refine (List.forall₂_map_left_iff.mp (List.forall₂_map_right_iff.mp
    (List.forall₂_eq_eq_eq ▸ h))).imp fun e e' heq => ?_
  obtain ⟨hcommand, hpage, hreply, hcalls⟩ : _ ∧ _ ∧ _ ∧ _ := by simpa [exchange] using heq
  refine ⟨⟨hcommand, hpage, fun k x y hx hy => ?_⟩, fun c c' hc hc' => ?_⟩
  · rw [hcalls, hy] at hx
    cases hx
    cases x <;> constructor
    rfl
  · rw [hreply, hc'] at hc
    exact (Option.some.inj hc).symm

/-- A heap whose caller writes `v` to its block. -/
theorem Dialogue.run_writing (v : Nat) (hv : v < 256) :
    ∃ (entries : List Entry) (d : Dialogue (Recorder Arena)),
      (start {} { inner := { base := 0x10000 } } ∅).Run entries d ∧
      entries.map Entry.exchange =
        [(.allocate 100, 4096, .allocated (.ok 0x10020), [.mapped ⟨0x10000, 4096⟩]),
         (.allocate 50, 4096, .allocated (.ok 0x100b0), [.mapped ⟨0x10000, 4096⟩])] ∧
      d.session.world.memory.byte 0x10040 = v := by
  have hserves : Arena.Serves { base := 0x10000 } [] :=
    Arena.serves_new ⟨12, by decide, by decide, rfl⟩ rfl (by decide) (by decide) rfl rfl
  have hc := Recorder.contract Arena.contract
  obtain ⟨A, source, o, hout, hout₂, huses, hcalls, hpage, hsame⟩ :
      ∃ (A : Shape) (source : Recorder Arena) (o : Outline (Recorder Arena)),
        Outline.step ⟨{}, { inner := { base := 0x10000 } }, ⟨[], []⟩, 0⟩ (.allocate 100) =
          some (.allocated (.ok 0x10020), ⟨{}, source, A, 0⟩) ∧
        Outline.step ⟨{}, source, A, 0⟩ (.allocate 50) = some (.allocated (.ok 0x100b0), o) ∧
        A.Uses ⟨0x10000, 144, .allocated⟩ ∧ source.calls = [.mapped ⟨0x10000, 4096⟩] ∧
        Source.pageSize source = 4096 ∧ o.source = source :=
    ⟨_, _, _, rfl, rfl, ⟨.head _, rfl⟩, rfl, rfl, rfl⟩
  have h₀ : Session.InOrder (Recorder.Wrote Arena.Serves)
      (.start {} { inner := { base := 0x10000 } } ∅) ⟨[], []⟩ :=
    Session.inOrder_start ⟨rfl, hserves⟩
  obtain ⟨w₁, hperform₁, h₁, ho₁⟩ := h₀.perform_of_outline hc (by exact trivial) hout
  have hnames : Grant.Names ⟨0x10020, 100⟩ ⟨0x10000, 144, .allocated⟩ :=
    ⟨rfl, by decide, by decide⟩
  have hpermits : Session.Permits ⟨w₁, [⟨0x10020, 100⟩]⟩ (.write 0x10040 v) :=
    ⟨⟨0x10020, 100⟩, .head _, 112, (h₁.hasSize_iff huses hnames).mpr rfl, by decide, by decide⟩
  have h₂ : Session.InOrder _ ⟨{ w₁ with memory := w₁.memory.writeByte 0x10040 v },
      [⟨0x10020, 100⟩]⟩ A := h₁.write huses (by decide) (by decide)
  rw [← ho₁] at hout₂
  obtain ⟨w₃, hperform₃, -, ho₃⟩ := h₂.perform_of_outline hc (by exact trivial) hout₂
  have hsource : w₁.heap.source = source := congrArg Outline.source ho₁
  have hsource₃ : w₃.heap.source = source := (congrArg Outline.source ho₃).trans hsame
  refine ⟨_, _, .cons .refl (show Step _ (.allocate 100) _ _ from .intro rfl trivial hperform₁)
    (.cons (.tail .refl ⟨0x10040, v, .intro hpermits rfl⟩)
      (show Step _ (.allocate 50) _ _ from .intro rfl trivial hperform₃) (.nil .refl)), ?_, ?_⟩
  · simp only [List.map_cons, List.map_nil, Entry.exchange, entry, hsource, hsource₃, hcalls, hpage]
    rfl
  · obtain ⟨_, -, -, -, hkeep⟩ := h₂.of_perform hc (by exact trivial) hperform₃
    have hpayload := (hkeep _ huses ⟨nofun, nofun⟩).2 nofun
    rw [hpayload.byte_eq rfl (by decide) (by decide), Memory.byte_writeByte, if_pos rfl,
      Nat.mod_eq_of_lt hv]

/-- Two heaps whose callers write different bytes to the block that was handed out to them. -/
theorem Dialogue.entries_eq_after_write :
    ∃ (entries entries' : List Entry) (d d' : Dialogue (Recorder Arena)),
      (start {} { inner := { base := 0x10000 } } ∅).Run entries d ∧
      (start {} { inner := { base := 0x10000 } } ∅).Run entries' d' ∧
      d.session.world.memory.byte 0x10040 = 7 ∧ d'.session.world.memory.byte 0x10040 = 9 ∧
      entries = entries' ∧ d.session.world.picture = d'.session.world.picture := by
  have hserves : Arena.Serves { base := 0x10000 } [] :=
    Arena.serves_new ⟨12, by decide, by decide, rfl⟩ rfl (by decide) (by decide) rfl rfl
  obtain ⟨entries, d, hrun, hentries, hbyte⟩ := run_writing 7 (by decide)
  obtain ⟨entries', d', hrun', hentries', hbyte'⟩ := run_writing 9 (by decide)
  obtain ⟨heq, hpicture, -⟩ := entries_eq_of_runs Arena.contract Arena.contract hserves hserves hrun
    hrun' (Entry.alike_of_exchange (hentries.trans hentries'.symm))
  exact ⟨entries, entries', d, d', hrun, hrun', hbyte, hbyte', heq, hpicture⟩

end BoundaryTag
