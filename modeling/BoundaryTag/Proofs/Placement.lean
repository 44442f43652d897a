import BoundaryTag.Proofs.Arenas
import BoundaryTag.Proofs.Mirroring

/-!
# Placement of ranges

Where a source puts its ranges makes no difference to a heap. An address is named by the number of
the mapping that it came with and its distance from the base of that range: in these terms, two heaps
that are asked for the same look the same, wherever their ranges are, as long as their sources refuse
the same requests. That two ranges touch is nothing that a heap could notice.
-/

namespace BoundaryTag

/-- A way to name addresses. -/
abbrev Naming := Nat → Option (Nat × Nat)

/-- The replies are the same but for the names of what was handed out, and for the cause that a source
gives of a failure. -/
def Reply.Corresponds (name name' : Naming) : Reply → Reply → Prop
  | .allocated (.ok p), .allocated (.ok p') => ∃ q, name p = some q ∧ name' p' = some q
  | reply, reply' => reply'.plain = reply.plain

/-- All addresses in both pictures have names, and by these the pictures are the same. -/
def Picture.Corresponds (name name' : Naming) (p p' : Picture Nat) : Prop :=
  ∃ q : Picture (Nat × Nat), p.map name = q.map some ∧ p'.map name' = q.map some

/-- The entries are the same but for the places of the ranges that the sources have handed out. -/
structure Entry.Corresponds (e e' : Entry) : Prop where
  command : e.command = e'.command
  reply : e.reply.Corresponds (Call.position? e.calls) (Call.position? e'.calls) e'.reply
  calls : List.Forall₂ (Call.Like fun _ _ => True) e.calls e'.calls
  picture : e.picture.Corresponds (Call.position? e.calls) (Call.position? e'.calls) e'.picture

variable {σ τ : Type} {After : σ → List Call → Prop} {After' : τ → List Call → Prop}
  {Q : Nat → Nat → Prop} {f : Nat → Nat} {A : Shape} {a : Nat}

theorem Reply.corresponds_of_plain {name name' : Naming} {reply reply' : Reply}
    (hplain : reply'.plain = (reply.move f).plain)
    (hname : ∀ p, reply = .allocated (.ok p) → ∃ q, name p = some q ∧ name' (f p) = some q) :
    reply.Corresponds name name' reply' := by
  match reply, reply' with
  | .allocated (.ok p), .allocated (.ok p') =>
    obtain rfl : p' = f p := Except.ok.inj (Reply.allocated.inj hplain)
    exact hname p rfl
  | .allocated (.error _), _ | .done, _ | .violations _, _ | .count _, _ => exact hplain

/-- An address in a region has a name, by which it can be found in the other heap. -/
theorem Outline.Mirrors.located {o : Outline (Recorder σ)} {o' : Outline (Recorder τ)}
    (h : o.Mirrors Q f o') (ha : o.shape.Spans a) :
    ∃ q, Call.position? o.source.calls a = some q ∧
      Call.position? o'.source.calls (f a) = some q := by
  obtain ⟨r, hr, hlo, hhi⟩ := ha
  obtain ⟨n, rfl⟩ := Nat.exists_eq_add_of_le hlo
  have hn : n < r.size := by omega
  rw [h.chart.rigid r hr n hn]
  exact h.chart.located r hr n hn

/-- Heaps that mirror each other look the same. -/
theorem Outline.Mirrors.picture_corresponds {o : Outline (Recorder σ)} {o' : Outline (Recorder τ)}
    (h : o.Mirrors Q f o') (hs : o.shape.Sound) :
    o.picture.Corresponds (Call.position? o.source.calls) (Call.position? o'.source.calls)
      o'.picture := by
  let name (a : Nat) : Nat × Nat := (Call.position? o.source.calls a).getD (0, 0)
  refine ⟨o.picture.map name, ?_, ?_⟩
  · rw [Picture.map_map]
    apply Outline.picture_map_congr hs
    intro a ha
    obtain ⟨q, hq, -⟩ := h.located ha
    simp [name, hq]
  · rw [h.picture_eq, Picture.map_map, Picture.map_map]
    apply Outline.picture_map_congr hs
    intro a ha
    obtain ⟨q, hq, hq'⟩ := h.located ha
    simp [name, hq, hq']

namespace Dialogue.Mirrors

variable {d : Dialogue (Recorder σ)} {d' : Dialogue (Recorder τ)}

theorem picture_corresponds (h : Mirrors After After' Q f A d d') :
    d.session.world.picture.Corresponds (Call.position? d.session.world.heap.source.calls)
      (Call.position? d'.session.world.heap.source.calls) d'.session.world.picture := by
  rw [h.left.has.picture_eq h.left.settled, h.right.has.picture_eq h.right.settled]
  exact h.outline.picture_corresponds h.left.has.sound

end Dialogue.Mirrors

theorem Session.InOrder.confined {s : Session σ} (h : s.InOrder After A) :
    s.world.picture.Confined := by
  rw [h.has.picture_eq h.settled]
  exact Outline.confined_picture h.has.sound

namespace Entry.Mirrors

variable {e e' : Entry}

theorem corresponds (h : Entry.Mirrors After After' (fun _ _ => True) e e') :
    e.Corresponds e' := by
  obtain ⟨hmirrors, hplain, hspans⟩ := h
  refine ⟨rfl, ?_, hmirrors.outline.chart.calls, hmirrors.picture_corresponds⟩
  apply Reply.corresponds_of_plain hplain
  intro p hp
  exact hmirrors.outline.located (hspans p hp)

theorem confined (h : Entry.Mirrors After After' Q e e') :
    e.picture.Confined ∧ e'.picture.Confined := by
  obtain ⟨hmirrors, -, -⟩ := h
  exact ⟨hmirrors.left.confined, hmirrors.right.confined⟩

end Entry.Mirrors

variable [Source σ] [Source τ]

/-- If two heaps are asked for the same and their sources have pages of the same size and refuse the
same requests, then wherever the ranges are that they hand out, each command has the same reply, the
sources have had the same calls, and both heaps look the same, with addresses named by the number of
a mapping and a distance from its base. Then the same may be asked of both again. In neither heap does
a block ever reach beyond the terminator of its region. -/
theorem Dialogue.corresponds_of_runs (hc : Source.Contract After) (hc' : Source.Contract After')
    {config : Config} {source : σ} {source' : τ} {memory memory' : Memory}
    {entries entries' : List Entry} {d : Dialogue (Recorder σ)} {d' : Dialogue (Recorder τ)}
    (hs : After source []) (hs' : After' source' [])
    (hrun : (start config { inner := source } memory).Run entries d)
    (hrun' : (start config { inner := source' } memory').Run entries' d')
    (halike : List.Forall₂ (Entry.Alike fun _ _ => True) entries entries') :
    List.Forall₂ Entry.Corresponds entries entries' ∧
      d.session.world.picture.Corresponds (Call.position? d.session.world.heap.source.calls)
        (Call.position? d'.session.world.heap.source.calls) d'.session.world.picture ∧
      (∀ command, d.Admits command ↔ d'.Admits command) ∧
      List.Forall₂ (fun e e' => e.picture.Confined ∧ e'.picture.Confined) entries entries' := by
  obtain ⟨⟨f, A, hlast⟩, hentries⟩ := (mirrors_start hs hs').run hc hc' hrun hrun' halike
  refine ⟨?_, hlast.picture_corresponds, fun _ => hlast.admits_iff, ?_⟩
  · exact hentries.imp fun _ _ h => h.corresponds
  · exact hentries.imp fun _ _ h => h.confined

/-- Two blocks are allocated in a region each, and the first one is released. -/
theorem Dialogue.run_releasing {a : Arena} {x y : Nat} {s₁ s₂ s₃ : Recorder Arena}
    (ha : a.Serves [])
    (h₁ : Outline.step ⟨{}, { inner := a }, ⟨[], []⟩, 0⟩ (.allocate 4000) =
      some (.allocated (.ok (x + 32)), ⟨{}, s₁, ⟨[⟨⟨x, 4096⟩, [⟨x, 4064, .allocated⟩]⟩], []⟩, 0⟩))
    (h₂ : Outline.step ⟨{}, s₁, ⟨[⟨⟨x, 4096⟩, [⟨x, 4064, .allocated⟩]⟩], []⟩, 0⟩ (.allocate 4000) =
      some (.allocated (.ok (y + 32)), ⟨{}, s₂, ⟨[⟨⟨x, 4096⟩, [⟨x, 4064, .allocated⟩]⟩,
        ⟨⟨y, 4096⟩, [⟨y, 4064, .allocated⟩]⟩], []⟩, 0⟩))
    (h₃ : Outline.step ⟨{}, s₂, ⟨[⟨⟨x, 4096⟩, [⟨x, 4064, .allocated⟩]⟩,
        ⟨⟨y, 4096⟩, [⟨y, 4064, .allocated⟩]⟩], []⟩, 0⟩ (.release (x + 32)) =
      some (.done, ⟨{}, s₃, ⟨[⟨⟨x, 4096⟩, [⟨x, 4064, .free⟩]⟩,
        ⟨⟨y, 4096⟩, [⟨y, 4064, .allocated⟩]⟩], [x]⟩, 0⟩)) :
    ∃ (e₁ e₂ e₃ : Entry) (d : Dialogue (Recorder Arena)),
      (start {} { inner := a } ∅).Run [e₁, e₂, e₃] d ∧
      (e₁.command = .allocate 4000 ∧ e₁.page = a.page ∧ e₁.reply = .allocated (.ok (x + 32)) ∧
        e₁.calls = s₁.calls) ∧
      (e₂.command = .allocate 4000 ∧ e₂.page = Source.pageSize s₁ ∧
        e₂.reply = .allocated (.ok (y + 32)) ∧ e₂.calls = s₂.calls) ∧
      e₃.command = .release 0 ∧ e₃.page = Source.pageSize s₂ ∧ e₃.reply = .done ∧
        e₃.calls = s₃.calls := by
  have hc := Recorder.contract Arena.contract
  have hstart : Session.InOrder (Recorder.Wrote Arena.Serves) (.start {} { inner := a } ∅)
      ⟨[], []⟩ := Session.inOrder_start ⟨rfl, ha⟩
  obtain ⟨w₁, hrun₁, horder₁, hout₁⟩ := hstart.perform_of_outline hc (by exact trivial) h₁
  rw [← hout₁] at h₂
  obtain ⟨w₂, hrun₂, horder₂, hout₂⟩ := horder₁.perform_of_outline hc (by exact trivial) h₂
  rw [← hout₂] at h₃
  obtain ⟨w₃, hrun₃, -, hout₃⟩ := horder₂.perform_of_outline hc
    (by exact ⟨⟨x + 32, 4000⟩, .tail _ (.head _), rfl⟩) h₃
  have hsource₁ : w₁.heap.source = s₁ := congrArg Outline.source hout₁
  have hsource₂ : w₂.heap.source = s₂ := congrArg Outline.source hout₂
  have hsource₃ : w₃.heap.source = s₃ := congrArg Outline.source hout₃
  refine ⟨_, _, _, _,
    .cons .refl (show Step _ (.allocate 4000) _ _ from .intro rfl trivial hrun₁)
      (.cons .refl (show Step _ (.allocate 4000) _ _ from .intro rfl trivial hrun₂)
        (.cons .refl (show Step _ (.release 0) _ _ from
          .intro rfl (by exact ⟨⟨x + 32, 4000⟩, .tail _ (.head _), rfl⟩) hrun₃) (.nil .refl))),
    ⟨rfl, rfl, rfl, ?_⟩, ⟨rfl, ?_, rfl, ?_⟩, rfl, ?_, rfl, ?_⟩ <;> simp [entry, *]

/-- Of two heaps, one grows upwards and the other downwards. -/
theorem Dialogue.corresponds_up_down :
    ∃ (entries entries' : List Entry) (d d' : Dialogue (Recorder Arena)),
      (start {} { inner := { base := 0x10000 } } ∅).Run entries d ∧
      (start {} { inner := { base := 0x10000, layout := .down } } ∅).Run entries' d' ∧
      entries.map Entry.command = [.allocate 4000, .allocate 4000, .release 0] ∧
      entries.map Entry.reply = [.allocated (.ok 0x10020), .allocated (.ok 0x11020), .done] ∧
      entries'.map Entry.reply =
        [.allocated (.ok 0x400000f020), .allocated (.ok 0x400000e020), .done] ∧
      List.Forall₂ Entry.Corresponds entries entries' := by
  have hup : Arena.Serves { base := 0x10000 } [] :=
    Arena.serves_new ⟨12, by decide, by decide, rfl⟩ rfl (by decide) (by decide) rfl rfl
  have hdown : Arena.Serves { base := 0x10000, layout := .down } [] :=
    Arena.serves_new ⟨12, by decide, by decide, rfl⟩ rfl (by decide) (by decide) rfl rfl
  obtain ⟨e₁, e₂, e₃, d, hrun, ⟨hcommand₁, hpage₁, hreply₁, hcalls₁⟩,
      ⟨hcommand₂, hpage₂, hreply₂, hcalls₂⟩, hcommand₃, hpage₃, hreply₃, hcalls₃⟩ :=
    run_releasing (x := 0x10000) (y := 0x11000) hup rfl rfl rfl
  obtain ⟨e₁', e₂', e₃', d', hrun', ⟨hcommand₁', hpage₁', hreply₁', hcalls₁'⟩,
      ⟨hcommand₂', hpage₂', hreply₂', hcalls₂'⟩, hcommand₃', hpage₃', hreply₃', hcalls₃'⟩ :=
    run_releasing (x := 0x400000f000) (y := 0x400000e000) hdown rfl rfl rfl
  refine ⟨_, _, d, d', hrun, hrun', ?_, ?_, ?_, ?_⟩
  · simp [hcommand₁, hcommand₂, hcommand₃]
  · simp [hreply₁, hreply₂, hreply₃]
  · simp [hreply₁', hreply₂', hreply₃']
  · refine (corresponds_of_runs Arena.contract Arena.contract hup hdown hrun hrun'
      (.cons ⟨hcommand₁.trans hcommand₁'.symm, hpage₁.trans hpage₁'.symm, ?_⟩
      (.cons ⟨hcommand₂.trans hcommand₂'.symm, hpage₂.trans hpage₂'.symm, ?_⟩
      (.cons ⟨hcommand₃.trans hcommand₃'.symm, hpage₃.trans hpage₃'.symm, ?_⟩ .nil)))).1
    · rw [hcalls₁, hcalls₁']
      exact Call.alike_of_forall₂ (.cons (.some trivial) .nil)
    · rw [hcalls₂, hcalls₂']
      exact Call.alike_of_forall₂ (.cons (.some trivial) (.cons (.some trivial) .nil))
    · rw [hcalls₃, hcalls₃']
      exact Call.alike_of_forall₂ (.cons (.some trivial) (.cons (.some trivial) .nil))

end BoundaryTag
