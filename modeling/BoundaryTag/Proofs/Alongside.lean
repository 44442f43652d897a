import Mathlib.Data.List.DropRight
import BoundaryTag.Proofs.Contents

/-!
# Heaps with different sources

Two heaps that are the same but for their sources (`Outline.Alongside`) stay so after each act
(`Alongside.step`) and after whole runs (`Dialogue.Alongside.run`), as long as both sources answer
alike from then on, whatever they were asked before. So the heaps cannot be told apart
(`Dialogue.Agree`).
-/

namespace BoundaryTag

variable {σ : Type} {After : σ → List Call → Prop} {cs cs' : List Call} {A : Shape}
  {handles handles' : List (Option Nat)} {command : Command} {reply reply' : Reply}

namespace Call

theorem like_refl (cs : List Call) : List.Forall₂ (Like Eq) cs cs :=
  List.forall₂_same.mpr fun c _ => by cases c <;> constructor <;> rfl

theorem rdrop_append (new cs : List Call) : (new ++ cs).rdrop cs.length = new := by
  simp [List.rdrop]

end Call

/-! ### Heaps with different sources -/

/-- The heaps are the same, and their sources had the same calls after the calls `cs` to the one and
`cs'` to the other. -/
def Outline.Alongside (cs cs' : List Call) (o o' : Outline (Recorder σ)) : Prop :=
  ∃ source' new, o' = { o with source := source' } ∧ o.source.calls = new ++ cs ∧
    source'.calls = new ++ cs'

namespace Outline.Alongside

variable [Source σ] {o o₁ o' o₁' : Outline (Recorder σ)} {needed size x : Nat}
  {answer answer' : Except AllocError Nat}

omit [Source σ] in
theorem picture_eq (h : o.Alongside cs cs' o') : o'.picture = o.picture := by
  obtain ⟨source', new, rfl, -, -⟩ := h
  rfl

/-- Both heaps grow by the same region, or neither grows. -/
theorem grow (h : o.Alongside cs cs' o')
    (hpage : Source.pageSize o.source = Source.pageSize o'.source)
    (hgrow : o.grow needed = some (answer, o₁)) (hgrow' : o'.grow needed = some (answer', o₁'))
    (halike : Call.Alike Eq (o₁.source.calls.rdrop cs.length)
      (o₁'.source.calls.rdrop cs'.length)) :
    o₁.Alongside cs cs' o₁' ∧
      (Reply.allocated answer').plain = (Reply.allocated answer).plain := by
  obtain ⟨source', new, rfl, hcalls, hcalls'⟩ := h
  dsimp only at hpage
  obtain ⟨size?, hsize, hnone⟩ := Outline.size_of_grow hgrow
  obtain ⟨size?', hsize', hnone'⟩ := Outline.size_of_grow hgrow'
  obtain rfl : size? = size?' := by
    dsimp only at hsize'
    rw [← hpage, hsize] at hsize'
    exact Except.ok.inj hsize'
  cases size? with
  | none =>
    obtain ⟨rfl, rfl⟩ := hnone rfl
    obtain ⟨rfl, rfl⟩ := hnone' rfl
    exact ⟨⟨_, new, rfl, hcalls, hcalls'⟩, rfl⟩
  | some size =>
  -- a request that one source refuses and the other serves is not answered alike
  rcases Outline.grow_of_size hsize hgrow with ⟨cause, source₁, hlast, rfl, rfl⟩ |
    ⟨base, source₁, hlast, rfl, rfl⟩ <;>
  rcases Outline.grow_of_size hsize' hgrow' with ⟨cause', source₁', hlast', rfl, rfl⟩ |
    ⟨base', source₁', hlast', rfl, rfl⟩ <;>
  dsimp only at hlast hlast' halike <;>
  rw [hcalls, ← List.cons_append] at hlast <;> rw [hcalls', ← List.cons_append] at hlast' <;>
  rw [hlast, hlast', Call.rdrop_append, Call.rdrop_append] at halike
  · exact ⟨⟨_, _, rfl, hlast, hlast'⟩, rfl⟩
  · nomatch halike.last (Call.like_refl new) rfl rfl
  · nomatch halike.last (Call.like_refl new) rfl rfl
  · obtain ⟨rfl⟩ : Option.Rel Eq (some base) (some base') :=
      halike.last (Call.like_refl new) rfl rfl
    exact ⟨⟨_, _, rfl, hlast, hlast'⟩, rfl⟩

omit [Source σ] in
/-- The same block is taken in both heaps. -/
theorem serve (h : o.Alongside cs cs' o') (hserve : o.serve x needed = some o₁)
    (hserve' : o'.serve x needed = some o₁') : o₁.Alongside cs cs' o₁' := by
  obtain ⟨source', new, rfl, hcalls⟩ := h
  obtain ⟨⟨C, b⟩, hat, rfl⟩ := Option.map_eq_some_iff.mp hserve
  obtain ⟨⟨C', b'⟩, hat', rfl⟩ := Option.map_eq_some_iff.mp hserve'
  obtain ⟨rfl, rfl⟩ := Prod.mk.inj (Option.some.inj (hat.symm.trans hat'))
  exact ⟨source', new, rfl, hcalls⟩

/-- Both requests are served, or both fail. -/
theorem allocate (h : o.Alongside cs cs' o')
    (hpage : Source.pageSize o.source = Source.pageSize o'.source)
    (hallocate : o.allocate size = some (answer, o₁))
    (hallocate' : o'.allocate size = some (answer', o₁'))
    (halike : Call.Alike Eq (o₁.source.calls.rdrop cs.length)
      (o₁'.source.calls.rdrop cs'.length)) :
    o₁.Alongside cs cs' o₁' ∧
      (Reply.allocated answer').plain = (Reply.allocated answer).plain := by
  have hshape : o'.shape = o.shape := by
    obtain ⟨_, _, rfl, -⟩ := h
    rfl
  cases hround : roundRequest size with
  | none =>
    unfold Outline.allocate at hallocate hallocate'
    rw [hround] at hallocate hallocate'
    cases hallocate
    cases hallocate'
    exact ⟨h, rfl⟩
  | some needed =>
  cases hfit : o.shape.fit? needed with
  | some x =>
    obtain ⟨rfl, hserve⟩ := Outline.allocate_of_fit hround hfit hallocate
    obtain ⟨rfl, hserve'⟩ := Outline.allocate_of_fit hround (hshape ▸ hfit) hallocate'
    exact ⟨h.serve hserve hserve', rfl⟩
  | none =>
    obtain ⟨grown, o₂, hgrow, hsource, hcases⟩ := Outline.allocate_of_unfit hround hfit hallocate
    obtain ⟨grown', o₂', hgrow', hsource', hcases'⟩ :=
      Outline.allocate_of_unfit hround (hshape ▸ hfit) hallocate'
    rw [hsource, hsource'] at halike
    obtain ⟨h₂, hplain⟩ := h.grow hpage hgrow hgrow' halike
    obtain ⟨e, rfl, rfl, rfl⟩ | ⟨x, rfl, rfl, hserve⟩ := hcases <;>
    obtain ⟨e', rfl, rfl, rfl⟩ | ⟨x', rfl, rfl, hserve'⟩ := hcases'
    · exact ⟨h₂, hplain⟩
    · nomatch hplain
    · nomatch hplain
    · cases hplain
      exact ⟨h₂.serve hserve hserve', rfl⟩

/-- The same block is released in both heaps, with the same region or none. -/
theorem release {p : Nat} (h : o.Alongside cs cs' o') (hrelease : o.release p = some o₁)
    (hrelease' : o'.release p = some o₁') : o₁.Alongside cs cs' o₁' := by
  obtain ⟨source', new, rfl, hcalls, hcalls'⟩ := h
  obtain ⟨⟨C, b⟩, hat, rfl⟩ := Option.map_eq_some_iff.mp hrelease
  obtain ⟨⟨C', b'⟩, hat', rfl⟩ := Option.map_eq_some_iff.mp hrelease'
  obtain ⟨rfl, rfl⟩ := Prod.mk.inj (Option.some.inj (hat.symm.trans hat'))
  dsimp only
  generalize (Site.freed C b o.shape.free).joined = t
  unfold Outline.reclaim
  split
  · exact ⟨_, .unmapped t.context.region :: new, rfl,
      congrArg (Call.unmapped t.context.region :: ·) hcalls,
      congrArg (Call.unmapped t.context.region :: ·) hcalls'⟩
  · exact ⟨source', new, rfl, hcalls, hcalls'⟩

/-- Both heaps start over. -/
theorem reset (h : o.Alongside cs cs' o') : o.reset.Alongside cs cs' o'.reset := by
  obtain ⟨source', new, rfl, hcalls, hcalls'⟩ := h
  refine ⟨_, (o.shape.regions.map Call.unmapped).reverse ++ new, rfl, ?_, ?_⟩
  · rw [List.append_assoc, ← hcalls]
    exact Recorder.calls_unmapAll _ _
  · rw [List.append_assoc, ← hcalls']
    exact Recorder.calls_unmapAll _ _

/-- After the same act both heaps are still the same but for their sources, and have replied the
same but for what the sources say of a failure. -/
theorem step {act : Act} (h : o.Alongside cs cs' o')
    (hpage : Source.pageSize o.source = Source.pageSize o'.source)
    (hstep : o.step act = some (reply, o₁)) (hstep' : o'.step act = some (reply', o₁'))
    (halike : Call.Alike Eq (o₁.source.calls.rdrop cs.length)
      (o₁'.source.calls.rdrop cs'.length)) :
    o₁.Alongside cs cs' o₁' ∧ reply'.plain = reply.plain := by
  cases act with
  | allocate size =>
    obtain ⟨⟨answer, o₂⟩, hallocate, heq⟩ := Option.map_eq_some_iff.mp hstep
    obtain ⟨⟨answer', o₂'⟩, hallocate', heq'⟩ := Option.map_eq_some_iff.mp hstep'
    cases heq
    cases heq'
    exact h.allocate hpage hallocate hallocate' halike
  | release p =>
    obtain ⟨o₂, hrelease, heq⟩ := Option.map_eq_some_iff.mp hstep
    obtain ⟨o₂', hrelease', heq'⟩ := Option.map_eq_some_iff.mp hstep'
    cases heq
    cases heq'
    exact ⟨h.release hrelease hrelease', rfl⟩
  | reset =>
    cases hstep
    cases hstep'
    exact ⟨h.reset, rfl⟩
  | write | check =>
    cases hstep
    cases hstep'
    exact ⟨h, rfl⟩
  | freeBlocks =>
    cases hstep
    cases hstep'
    obtain ⟨source', new, rfl, hcalls⟩ := h
    exact ⟨⟨source', new, rfl, hcalls⟩, rfl⟩

end Outline.Alongside

/-! ### Dialogues with different sources -/

/-- Replies are the same but for the cause of a failure. -/
theorem Reply.eq_or_error (h : reply'.plain = reply.plain) : reply' = reply ∨
    ∃ e e', reply = .allocated (.error e) ∧ reply' = .allocated (.error e') := by
  match reply, reply' with
  | .allocated (.error e), .allocated (.error e') => exact .inr ⟨e, e', rfl, rfl⟩
  | .allocated (.ok _), .allocated (.ok _) | .done, .done | .violations _, .violations _
  | .count _, .count _ => exact .inl h

theorem Act.grants_congr {act : Act} {live : List Grant} (h : reply'.plain = reply.plain) :
    act.grants live reply' = act.grants live reply := by
  rcases Reply.eq_or_error h with rfl | ⟨e, e', rfl, rfl⟩
  · rfl
  · cases act <;> rfl

theorem Act.handles_congr {act : Act} (h : reply'.plain = reply.plain) :
    act.handles handles reply' = act.handles handles reply := by
  rcases Reply.eq_or_error h with rfl | ⟨e, e', rfl, rfl⟩
  · rfl
  · cases act <;> rfl

/-- The entry without the first `n` calls. -/
def Entry.since (n : Nat) (e : Entry) : Entry := { e with calls := e.calls.rdrop n }

namespace Dialogue

/-- The number of calls that the source has answered. -/
def asked (d : Dialogue (Recorder σ)) : Nat := d.session.world.heap.source.calls.length

/-- The same is live in both dialogues, and their heaps are the same but for their sources. -/
structure Alongside (After : σ → List Call → Prop) (cs cs' : List Call) (A : Shape)
    (d d' : Dialogue (Recorder σ)) : Prop where
  left : d.session.InOrder (Recorder.Wrote After) A
  right : d'.session.InOrder (Recorder.Wrote After) A
  outline : (d.session.world.outline A).Alongside cs cs' (d'.session.world.outline A)
  live : d'.session.live = d.session.live
  handles : d'.handles = d.handles

namespace Alongside

theorem picture_eq {d d' : Dialogue (Recorder σ)} (h : Alongside After cs cs' A d d') :
    d'.session.world.picture = d.session.world.picture := by
  rw [h.left.has.picture_eq h.left.settled, h.right.has.picture_eq h.right.settled,
    h.outline.picture_eq]

theorem rdrop_calls {d d' : Dialogue (Recorder σ)} (h : Alongside After cs cs' A d d') :
    d'.session.world.heap.source.calls.rdrop cs'.length =
      d.session.world.heap.source.calls.rdrop cs.length := by
  obtain ⟨source', new, heq, hcalls, hcalls'⟩ := h.outline
  have hsource : d'.session.world.heap.source = source' := congrArg Outline.source heq
  change d.session.world.heap.source.calls = _ at hcalls
  rw [hsource, hcalls, hcalls', Call.rdrop_append, Call.rdrop_append]

/-- What may be asked depends on what is live only. -/
theorem admits_iff {d d' : Dialogue (Recorder σ)} (h : Alongside After cs cs' A d d') :
    d.Admits command ↔ d'.Admits command := by
  refine exists_congr fun act => ?_
  rw [h.handles]
  refine and_congr_right fun hact => ?_
  cases command with
  | release ordinal =>
    obtain ⟨p, -, rfl⟩ := Option.map_eq_some_iff.mp hact
    unfold Session.Permits
    rw [h.live]
  | allocate | reset | check | freeBlocks =>
    cases hact
    exact Iff.rfl

variable [Source σ] {s s' t t' : Session (Recorder σ)}

theorem writes (hc : Source.Contract After)
    (h : Alongside After cs cs' A ⟨s, handles⟩ ⟨t, handles'⟩) (hs : s.Writes s')
    (ht : t.Writes t') : Alongside After cs cs' A ⟨s', handles⟩ ⟨t', handles'⟩ := by
  obtain ⟨hleft, hout, hlive⟩ := h.left.writes (Recorder.contract hc) hs
  obtain ⟨hright, hout', hlive'⟩ := h.right.writes (Recorder.contract hc) ht
  refine ⟨hleft, hright, ?_, (hlive'.trans h.live).trans hlive.symm, h.handles⟩
  show (s'.world.outline A).Alongside cs cs' (t'.world.outline A)
  rw [hout, hout']
  exact h.outline

/-- A command that both dialogues are given. -/
theorem step (hc : Source.Contract After) {d d' : Dialogue (Recorder σ)}
    (h : Alongside After cs cs' A ⟨s, handles⟩ ⟨t, handles'⟩)
    (hstep : Step ⟨s, handles⟩ command reply d) (hstep' : Step ⟨t, handles'⟩ command reply' d')
    (hpage : Source.pageSize s.world.heap.source = Source.pageSize t.world.heap.source)
    (halike : Call.Alike Eq (d.session.world.heap.source.calls.rdrop cs.length)
      (d'.session.world.heap.source.calls.rdrop cs'.length)) :
    (∃ A₁, d.Alongside After cs cs' A₁ d') ∧ reply'.plain = reply.plain := by
  obtain ⟨hact, hp, hperform⟩ := hstep
  obtain ⟨hact', hp', hperform'⟩ := hstep'
  obtain rfl : handles' = handles := h.handles
  cases hact.symm.trans hact'
  have hlive : t.live = s.live := h.live
  obtain ⟨A₁, h₁, hout, -, -⟩ := h.left.of_perform (Recorder.contract hc) hp hperform
  obtain ⟨A₁', h₁', hout', -, -⟩ := h.right.of_perform (Recorder.contract hc) hp' hperform'
  obtain ⟨houtline, hplain⟩ := h.outline.step hpage hout hout' halike
  obtain rfl : A₁' = A₁ := by
    obtain ⟨_, _, heq, -⟩ := houtline
    exact congrArg Outline.shape heq
  refine ⟨⟨A₁', h₁, h₁', houtline, ?_, Act.handles_congr hplain⟩, hplain⟩
  show Act.grants t.live _ reply' = _
  rw [hlive]
  exact Act.grants_congr hplain

/-- Commands that both dialogues are given. -/
theorem run (hc : Source.Contract After) {d d' e e' : Dialogue (Recorder σ)}
    {entries entries' : List Entry} (h : Alongside After cs cs' A d d') (hrun : d.Run entries e)
    (hrun' : d'.Run entries' e')
    (halike : List.Forall₂ (fun x x' => (x.since cs.length).Alike Eq (x'.since cs'.length) ∧
      x.SameCause x') entries entries') :
    (∃ A₁, Alongside After cs cs' A₁ e e') ∧
      entries.map (Entry.since cs.length) = entries'.map (Entry.since cs'.length) := by
  induction hrun generalizing A d' entries' with
  | nil hwrites =>
    cases halike
    cases hrun' with
    | nil hwrites' => exact ⟨⟨A, h.writes hc hwrites hwrites'⟩, rfl⟩
  | @cons s s₁ handles command reply d₁ e entries hwrites hstep _ ih =>
    cases hrun' with
    | nil => nomatch halike
    | @cons t t₁ handles' command' reply' d₁' e' entries' hwrites' hstep' hrest' =>
    obtain ⟨⟩ | ⟨⟨hentry, hcause⟩, hentries⟩ := halike
    obtain rfl : command = command' := hentry.command
    have hpage : Source.pageSize s₁.world.heap.source = Source.pageSize t₁.world.heap.source :=
      hentry.page
    obtain ⟨⟨A₁, h₁⟩, hplain⟩ :=
      (h.writes hc hwrites hwrites').step hc hstep hstep' hpage hentry.answers
    obtain ⟨hlast, hothers⟩ := ih h₁ hrest' hentries
    refine ⟨hlast, ?_⟩
    rw [List.map_cons, List.map_cons, hothers, Reply.eq_of_plain hplain hcause]
    unfold Entry.since Dialogue.entry
    dsimp only
    rw [hpage, h₁.picture_eq, h₁.rdrop_calls]

end Alongside

end Dialogue

/-! ### Heaps that cannot be told apart -/

variable [Source σ]

/-- The command returns, unless with it the source has handed out `Word.limit` ranges. -/
def Dialogue.Proceeds (d : Dialogue (Recorder σ)) (command : Command) : Prop :=
  (∃ reply e, d.Step command reply e) ∨ ∃ act w', command.act? d.handles = some act ∧
    act.perform d.session.world = .error .addOverflow w' ∧
    Word.limit ≤ Call.maps w'.heap.source.calls

/-- The two heaps cannot be told apart: whatever is asked of both from now on, as long as their
sources answer alike from now on, they reply the same, call their sources for the same and look the
same. Then the same may be asked of both again, and both go on. -/
def Dialogue.Agree (d d' : Dialogue (Recorder σ)) : Prop :=
  ∀ (entries entries' : List Entry) (e e' : Dialogue (Recorder σ)), d.Run entries e →
    d'.Run entries' e' →
    List.Forall₂ (fun x x' => (x.since d.asked).Alike Eq (x'.since d'.asked) ∧ x.SameCause x')
      entries entries' →
    entries.map (Entry.since d.asked) = entries'.map (Entry.since d'.asked) ∧
      e.session.world.picture = e'.session.world.picture ∧
      ∀ command, (e.Admits command ↔ e'.Admits command) ∧
        (e.Admits command → e.Proceeds command ∧ e'.Proceeds command)

theorem Session.InOrder.proceeds {s : Session (Recorder σ)} (hc : Source.Contract After)
    (h : s.InOrder (Recorder.Wrote After) A) (hadmits : Dialogue.Admits ⟨s, handles⟩ command) :
    Dialogue.Proceeds ⟨s, handles⟩ command := by
  obtain ⟨act, hact, hp⟩ := hadmits
  rcases h.step (Recorder.contract hc) hp with ⟨reply, w', -, hperform, -⟩ |
    ⟨w', -, hperform, ⟨cs, ⟨hcalls, -⟩, hmaps⟩, -⟩
  · exact .inl ⟨reply, _, .intro hact hp hperform⟩
  · exact .inr ⟨act, w', hact, hperform, hcalls ▸ hmaps⟩

theorem Dialogue.Alongside.agree (hc : Source.Contract After) {d d' : Dialogue (Recorder σ)}
    (h : Alongside After d.session.world.heap.source.calls d'.session.world.heap.source.calls A
      d d') : d.Agree d' := by
  intro entries entries' e e' hrun hrun' halike
  obtain ⟨⟨A₁, hlast⟩, hentries⟩ := h.run hc hrun hrun' halike
  refine ⟨hentries, hlast.picture_eq.symm, fun command => ⟨hlast.admits_iff, fun hadmits => ?_⟩⟩
  exact ⟨hlast.left.proceeds hc hadmits, hlast.right.proceeds hc (hlast.admits_iff.mp hadmits)⟩

end BoundaryTag
