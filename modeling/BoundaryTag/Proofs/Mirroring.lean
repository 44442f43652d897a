import BoundaryTag.Proofs.Charts

/-!
# Heaps that mirror each other

Two dialogues mirror each other if both are in order, the one heap is the other at places that a
chart gives, and so is what is live (`Dialogue.Mirrors`). Writes to live blocks do not disturb this
(`Mirrors.writes`), and a command that both are given keeps it, with replies that correspond
(`Mirrors.step`), as long as the sources answer alike.
-/

namespace BoundaryTag

section
variable (f : Nat → Nat)

def Grant.move (g : Grant) : Grant := { g with payload := f g.payload }

def Act.move : Act → Act
  | .release payload => .release (f payload)
  | act => act

def Reply.move : Reply → Reply
  | .allocated (.ok payload) => .allocated (.ok (f payload))
  | reply => reply

end

variable {σ τ : Type} {After : σ → List Call → Prop} {After' : τ → List Call → Prop}
  {Q : Nat → Nat → Prop} {f g : Nat → Nat} {A : Shape} {handles : List (Option Nat)}
  {live : List Grant} {command : Command} {reply : Reply}

/-- The same commands stand for acts at moved places. -/
theorem Command.act?_move : command.act? (handles.map (Option.map f)) =
    (command.act? handles).map (Act.move f) := by
  cases command with
  | release ordinal =>
    simp only [act?, List.getElem?_map]
    rcases handles[ordinal]? with _ | _ | p <;> rfl
  | _ => rfl

/-- What is live after an act at moved places. -/
theorem Act.grants_move {act : Act} {reply' : Reply}
    (hinj : ∀ p, act = .release p → ∀ g ∈ live, f g.payload = f p → g.payload = p)
    (hplain : reply'.plain = (reply.move f).plain) :
    (act.move f).grants (live.map (Grant.move f)) reply' =
      (act.grants live reply).map (Grant.move f) := by
  cases act with
  | allocate size =>
    match reply, reply' with
    | .allocated (.error _), .allocated (.error _) | .done, .done
    | .violations _, .violations _ | .count _, .count _ => rfl
    | .allocated (.ok p), .allocated (.ok p') =>
      obtain rfl : p' = f p := Except.ok.inj (Reply.allocated.inj hplain)
      rfl
  | release p =>
    show (live.map (Grant.move f)).filter (·.payload ≠ f p) =
      (live.filter (·.payload ≠ p)).map (Grant.move f)
    rw [List.filter_map]
    refine congrArg _ (List.filter_congr fun g hg => decide_eq_decide.mpr (not_congr ?_))
    exact ⟨hinj p rfl g hg, congrArg f⟩
  | _ => rfl

/-- What the requests were answered with after an act at moved places. -/
theorem Act.handles_move {act : Act} {reply' : Reply}
    (hinj : ∀ p, act = .release p → ∀ q, some q ∈ handles → f q = f p → q = p)
    (hplain : reply'.plain = (reply.move f).plain) :
    (act.move f).handles (handles.map (Option.map f)) reply' =
      (act.handles handles reply).map (Option.map f) := by
  cases act with
  | allocate size =>
    match reply, reply' with
    | .done, .done | .violations _, .violations _ | .count _, .count _ => rfl
    | .allocated (.error _), .allocated (.error _) =>
      simp [Act.move, Act.handles, Except.toOption]
    | .allocated (.ok p), .allocated (.ok p') =>
      obtain rfl : p' = f p := Except.ok.inj (Reply.allocated.inj hplain)
      simp [Act.move, Act.handles, Except.toOption]
  | release p =>
    show (handles.map (Option.map f)).map (Option.filter (· ≠ f p)) =
      (handles.map (Option.filter (· ≠ p))).map (Option.map f)
    rw [List.map_map, List.map_map]
    refine List.map_congr_left fun handle hmem => ?_
    cases handle with
    | none => rfl
    | some q =>
      by_cases hq : q = p
      · simp [Option.filter, hq]
      · have hfq : f q ≠ f p := fun heq => hq (hinj p rfl q hmem heq)
        simp [Option.filter, hq, hfq]
  | reset =>
    show (handles.map (Option.map f)).map (fun _ => none) =
      (handles.map fun _ => none).map (Option.map f)
    rw [List.map_map, List.map_map]
    rfl
  | _ => rfl

/-- Only a request for a block is answered with one. -/
theorem Outline.allocate_of_allocated [Source σ] {o o' : Outline σ} {act : Act}
    {answer : Except AllocError Nat} (h : o.step act = some (.allocated answer, o')) :
    ∃ size, act = .allocate size := by
  cases act with
  | allocate size => exact ⟨size, rfl⟩
  | release p =>
    obtain ⟨_, -, heq⟩ := Option.map_eq_some_iff.mp h
    nomatch heq
  | _ => nomatch h

/-- What a request was answered with stays live with its handle. -/
theorem Act.handled {act : Act} (h : ∀ p, some p ∈ handles → ∃ g ∈ live, g.payload = p) :
    ∀ p, some p ∈ act.handles handles reply → ∃ g ∈ act.grants live reply, g.payload = p := by
  intro p hp
  cases act with
  | allocate size =>
    match reply with
    | .allocated (.error _) =>
      have hmem : some p ∈ handles := by simpa [Act.handles, Except.toOption] using hp
      exact h p hmem
    | .allocated (.ok q) =>
      have hmem : some p ∈ handles ∨ p = q := by simpa [Act.handles, Except.toOption] using hp
      rcases hmem with hmem | rfl
      · obtain ⟨g, hg, hgp⟩ := h p hmem
        exact ⟨g, List.mem_cons_of_mem _ hg, hgp⟩
      · exact ⟨_, List.mem_cons_self, rfl⟩
    | .done | .violations _ | .count _ => exact h p hp
  | release q =>
    obtain ⟨handle, hmem, heq⟩ := List.mem_map.mp hp
    obtain ⟨rfl, hne⟩ := Option.filter_eq_some_iff.mp heq
    obtain ⟨g, hg, rfl⟩ := h p hmem
    exact ⟨g, List.mem_filter.mpr ⟨hg, hne⟩, rfl⟩
  | reset =>
    obtain ⟨handle, -, heq⟩ := List.mem_map.mp hp
    nomatch heq
  | write | check | freeBlocks => exact h p hp

/-- Heaps that mirror each other still do so after both were asked for the same. -/
theorem Outline.Mirrors.step [Source σ] [Source τ] {o o₁ : Outline (Recorder σ)}
    {o' o₁' : Outline (Recorder τ)} {act : Act} {reply' : Reply} (h : o.Mirrors Q f o')
    (hs : o.shape.Sound) (hs' : o'.shape.Sound)
    (hpage : Source.pageSize o.source = Source.pageSize o'.source)
    (hgrown : ∀ needed answer o₁, 16 ≤ needed → o.grow needed = some (answer, o₁) →
      o₁.shape.Sound)
    (hgrown' : ∀ needed answer o₁, 16 ≤ needed → o'.grow needed = some (answer, o₁) →
      o₁.shape.Sound)
    (hnamed : ∀ p, act = .release p → ∃ b ∈ o.shape.blocks, p = payloadOf b.addr)
    (hstep : o.step act = some (reply, o₁)) (hstep' : o'.step (act.move f) = some (reply', o₁'))
    (halike : Call.Alike Q o₁.source.calls o₁'.source.calls) :
    ∃ f₁, o₁.Mirrors Q f₁ o₁' ∧ reply'.plain = (reply.move f₁).plain ∧
      (∀ a, o.shape.Spans a → f₁ a = f a) ∧ act.move f₁ = act.move f := by
  cases act with
  | allocate size =>
    obtain ⟨⟨answer, o₂⟩, hallocate, heq⟩ := Option.map_eq_some_iff.mp hstep
    obtain ⟨⟨answer', o₂'⟩, hallocate', heq'⟩ := Option.map_eq_some_iff.mp hstep'
    cases heq
    cases heq'
    rcases h.allocate hs hs' hpage hgrown hgrown' hallocate hallocate' halike with
      ⟨e, e', rfl, rfl, hplain, hmirrors⟩ | ⟨p, f₁, rfl, rfl, hmirrors, hsame⟩
    · refine ⟨f, hmirrors, ?_, fun _ _ => rfl, rfl⟩
      exact congrArg (fun e => Reply.allocated (.error e)) hplain
    · exact ⟨f₁, hmirrors, rfl, hsame, rfl⟩
  | release p =>
    obtain ⟨b, hb, rfl⟩ := hnamed p rfl
    obtain ⟨o₂, hrelease, heq⟩ := Option.map_eq_some_iff.mp hstep
    obtain ⟨o₂', hrelease', heq'⟩ := Option.map_eq_some_iff.mp hstep'
    cases heq
    cases heq'
    rw [h.payload_move hs hb] at hrelease'
    exact ⟨f, h.release hs hs' hrelease hrelease', rfl, fun _ _ => rfl, rfl⟩
  | reset =>
    cases hstep
    cases hstep'
    exact ⟨f, h.reset, rfl, fun _ _ => rfl, rfl⟩
  | write | check =>
    cases hstep
    cases hstep'
    exact ⟨f, h, rfl, fun _ _ => rfl, rfl⟩
  | freeBlocks =>
    cases hstep
    cases hstep'
    refine ⟨f, h, ?_, fun _ _ => rfl, rfl⟩
    rw [h.shape]
    exact congrArg Reply.count (List.length_map _)

/-- The dialogue `d'` is `d` at the places that `f` says. -/
structure Dialogue.Mirrors (After : σ → List Call → Prop) (After' : τ → List Call → Prop)
    (Q : Nat → Nat → Prop) (f : Nat → Nat) (A : Shape) (d : Dialogue (Recorder σ))
    (d' : Dialogue (Recorder τ)) : Prop where
  left : d.session.InOrder (Recorder.Wrote After) A
  right : d'.session.InOrder (Recorder.Wrote After') (A.move f)
  outline : (d.session.world.outline A).Mirrors Q f (d'.session.world.outline (A.move f))
  live : d'.session.live = d.session.live.map (Grant.move f)
  handles : d'.handles = d.handles.map (Option.map f)
  handled : ∀ p, some p ∈ d.handles → ∃ g ∈ d.session.live, g.payload = p

/-- New heaps mirror each other. -/
theorem Dialogue.mirrors_start {config : Config} {source : σ} {source' : τ}
    {memory memory' : Memory} (hs : After source []) (hs' : After' source' []) :
    Mirrors After After' Q id ⟨[], []⟩ (start config { inner := source } memory)
      (start config { inner := source' } memory') where
  left := Session.inOrder_start ⟨rfl, hs⟩
  right := Session.inOrder_start ⟨rfl, hs'⟩
  outline := ⟨rfl, rfl, rfl, ⟨nofun, nofun, nofun, .nil, nofun⟩⟩
  live := rfl
  handles := rfl
  handled := nofun

/-- Entries of dialogues that mirror each other, after replies that correspond. -/
inductive Entry.Mirrors (After : σ → List Call → Prop) (After' : τ → List Call → Prop)
    (Q : Nat → Nat → Prop) : Entry → Entry → Prop
  | intro {command : Command} {page : Nat} {reply reply' : Reply} {f : Nat → Nat} {A : Shape}
    {d : Dialogue (Recorder σ)} {d' : Dialogue (Recorder τ)} :
    d.Mirrors After After' Q f A d' → reply'.plain = (reply.move f).plain →
    (∀ p, reply = .allocated (.ok p) → A.Spans p) →
    Entry.Mirrors After After' Q (d.entry command page reply) (d'.entry command page reply')

namespace Session.InOrder

/-- A live payload is in a region. -/
theorem spans_payload {s : Session σ} (h : s.InOrder After A) {g : Grant} (hg : g ∈ s.live) :
    A.Spans g.payload := by
  obtain ⟨b, hb, hnames⟩ := h.grants.names g hg
  obtain ⟨-, -, -, -, hroom⟩ := h.has.block_sound hb.1
  rw [hnames.payload]
  exact h.has.sound.spans_of_mem hb.1 (Nat.le_add_right _ _) (by unfold payloadOf headerSize; omega)

/-- Live blocks are where they were as long as no address of a region is moved. -/
theorem live_move_congr {s : Session σ} (h : s.InOrder After A)
    (hfg : ∀ a, A.Spans a → f a = g a) :
    s.live.map (Grant.move f) = s.live.map (Grant.move g) := by
  apply List.map_congr_left
  intro l hl
  simp [Grant.move, hfg _ (h.spans_payload hl)]

/-- Writes change nothing that is in the outline. -/
theorem writes [Source σ] (hc : Source.Contract After) {s s' : Session σ} (h : s.InOrder After A)
    (hwrites : s.Writes s') :
    s'.InOrder After A ∧ s'.world.outline A = s.world.outline A ∧ s'.live = s.live := by
  induction hwrites with
  | refl => exact ⟨h, rfl, rfl⟩
  | tail _ hstep ih =>
    obtain ⟨address, value, hstep⟩ := hstep
    obtain ⟨h₁, hout₁, hlive₁⟩ := ih
    obtain ⟨reply, A', h', hlive, hout, -⟩ := h₁.of_step hc hstep
    obtain ⟨rfl, ho⟩ := Prod.mk.inj (Option.some.inj hout)
    obtain rfl : A = A' := congrArg Outline.shape ho
    exact ⟨h', ho.symm.trans hout₁, hlive.trans hlive₁⟩

end Session.InOrder

/-- The acts that commands stand for are permitted as long as handles are live. -/
theorem Dialogue.admits_iff {d : Dialogue σ}
    (h : ∀ p, some p ∈ d.handles → ∃ g ∈ d.session.live, g.payload = p) :
    d.Admits command ↔ (command.act? d.handles).isSome := by
  constructor
  · rintro ⟨act, hact, -⟩
    rw [hact]
    rfl
  · intro hsome
    obtain ⟨act, hact⟩ := Option.isSome_iff_exists.mp hsome
    refine ⟨act, hact, ?_⟩
    cases command with
    | release ordinal =>
      obtain ⟨p, hp, rfl⟩ := Option.map_eq_some_iff.mp hact
      exact h p (List.mem_of_getElem? (Option.join_eq_some_iff.mp hp))
    | allocate | reset | check | freeBlocks =>
      cases hact
      trivial

/-- The same may be asked of dialogues that mirror each other. -/
theorem Dialogue.Mirrors.admits_iff {d : Dialogue (Recorder σ)} {d' : Dialogue (Recorder τ)}
    (h : Mirrors After After' Q f A d d') : d.Admits command ↔ d'.Admits command := by
  have hhandled : ∀ p, some p ∈ d'.handles → ∃ g ∈ d'.session.live, g.payload = p := by
    rw [h.handles, h.live]
    intro p hp
    obtain ⟨handle, hmem, heq⟩ := List.mem_map.mp hp
    obtain ⟨q, rfl, rfl⟩ := Option.map_eq_some_iff.mp heq
    obtain ⟨g, hg, rfl⟩ := h.handled q hmem
    exact ⟨g.move f, List.mem_map_of_mem hg, rfl⟩
  rw [Dialogue.admits_iff h.handled, Dialogue.admits_iff hhandled, h.handles, Command.act?_move,
    Option.isSome_map]

namespace Dialogue.Mirrors

variable [Source σ] [Source τ] {s s' : Session (Recorder σ)} {t t' : Session (Recorder τ)}
  {handles' : List (Option Nat)}

theorem writes (hc : Source.Contract After) (hc' : Source.Contract After')
    (h : Mirrors After After' Q f A ⟨s, handles⟩ ⟨t, handles'⟩) (hs : s.Writes s')
    (ht : t.Writes t') : Mirrors After After' Q f A ⟨s', handles⟩ ⟨t', handles'⟩ := by
  obtain ⟨hleft, hout, hlive⟩ := h.left.writes (Recorder.contract hc) hs
  obtain ⟨hright, hout', hlive'⟩ := h.right.writes (Recorder.contract hc') ht
  refine ⟨hleft, hright, ?_, ?_, h.handles, ?_⟩
  · show (s'.world.outline A).Mirrors Q f (t'.world.outline (A.move f))
    rw [hout, hout']
    exact h.outline
  · show t'.live = s'.live.map _
    rw [hlive, hlive']
    exact h.live
  · show ∀ p, _ → ∃ g ∈ s'.live, _
    rw [hlive]
    exact h.handled

omit [Source σ] [Source τ] in
/-- No two live payloads are at one place. -/
theorem payload_inj {d : Dialogue (Recorder σ)} {d' : Dialogue (Recorder τ)}
    (h : Mirrors After After' Q f A d d') {g g' : Grant} (hg : g ∈ d.session.live)
    (hg' : g' ∈ d.session.live) (heq : f g.payload = f g'.payload) : g.payload = g'.payload := by
  have hdistinct := h.right.grants.distinct
  rw [h.live, List.map_map, show Grant.payload ∘ Grant.move f = f ∘ Grant.payload from rfl,
    ← List.map_map] at hdistinct
  exact List.inj_on_of_nodup_map hdistinct (List.mem_map_of_mem hg) (List.mem_map_of_mem hg') heq

omit [Source σ] [Source τ] in
/-- What requests were answered with is where it was as long as no address of a region is moved. -/
theorem handles_move_congr {d : Dialogue (Recorder σ)} {d' : Dialogue (Recorder τ)}
    (h : Mirrors After After' Q f A d d') (hfg : ∀ a, A.Spans a → f a = g a) :
    d.handles.map (Option.map f) = d.handles.map (Option.map g) := by
  apply List.map_congr_left
  intro handle hmem
  cases handle with
  | none => rfl
  | some p =>
    obtain ⟨l, hl, rfl⟩ := h.handled p hmem
    simp [hfg _ (h.left.spans_payload hl)]

/-- A command that both dialogues are given. -/
theorem step (hc : Source.Contract After) (hc' : Source.Contract After')
    {d : Dialogue (Recorder σ)} {d' : Dialogue (Recorder τ)} {reply' : Reply}
    (h : Mirrors After After' Q f A ⟨s, handles⟩ ⟨t, handles'⟩)
    (hstep : Step ⟨s, handles⟩ command reply d) (hstep' : Step ⟨t, handles'⟩ command reply' d')
    (hpage : Source.pageSize s.world.heap.source = Source.pageSize t.world.heap.source)
    (halike : Call.Alike Q d.session.world.heap.source.calls
      d'.session.world.heap.source.calls) :
    ∃ f₁ A₁, d.Mirrors After After' Q f₁ A₁ d' ∧ reply'.plain = (reply.move f₁).plain ∧
      ∀ p, reply = .allocated (.ok p) → A₁.Spans p := by
  obtain ⟨hact, hp, hperform⟩ := hstep
  obtain ⟨hact', hp', hperform'⟩ := hstep'
  rename_i act w₁ act' w₁'
  have hhandles : handles' = handles.map (Option.map f) := h.handles
  have hlive : t.live = s.live.map (Grant.move f) := h.live
  obtain rfl : act.move f = act' := by
    rw [hhandles, Command.act?_move, hact] at hact'
    exact Option.some.inj hact'
  obtain ⟨A₁, h₁, hout, -, -⟩ := h.left.of_perform (Recorder.contract hc) hp hperform
  obtain ⟨A₁', h₁', hout', -, -⟩ := h.right.of_perform (Recorder.contract hc') hp' hperform'
  have hreleased : ∀ p, act = .release p → ∃ g ∈ s.live, g.payload = p := by
    rintro p rfl
    exact hp
  have hnamed : ∀ p, act = .release p → ∃ b ∈ A.blocks, p = payloadOf b.addr := by
    intro p hact
    obtain ⟨g, hg, rfl⟩ := hreleased p hact
    obtain ⟨b, hb, hnames⟩ := h.left.grants.names g hg
    exact ⟨b, hb.1, hnames.payload⟩
  obtain ⟨f₁, hmirrors, hplain, hsame, hmove⟩ := h.outline.step h.left.has.sound
    h.right.has.sound hpage
    (fun _ _ _ hmin hgrow => h.left.sound_of_grow (Recorder.contract hc) hmin hgrow)
    (fun _ _ _ hmin hgrow => h.right.sound_of_grow (Recorder.contract hc') hmin hgrow)
    hnamed hout hout' halike
  obtain rfl : A₁' = A₁.move f₁ := hmirrors.shape
  -- `f₁` still maps what was live before as `f` does
  have hlive₁ : s.live.map (Grant.move f) = s.live.map (Grant.move f₁) :=
    h.left.live_move_congr fun a ha => (hsame a ha).symm
  have hhandles₁ : handles.map (Option.map f) = handles.map (Option.map f₁) :=
    h.handles_move_congr fun a ha => (hsame a ha).symm
  have hinj : ∀ g ∈ s.live, ∀ g' ∈ s.live, f₁ g.payload = f₁ g'.payload →
      g.payload = g'.payload := by
    intro g hg g' hg' heq
    rw [hsame _ (h.left.spans_payload hg), hsame _ (h.left.spans_payload hg')] at heq
    exact h.payload_inj hg hg' heq
  refine ⟨f₁, A₁, ⟨h₁, h₁', hmirrors, ?_, ?_, Act.handled h.handled⟩, hplain, ?_⟩
  · show (act.move f).grants t.live reply' = (act.grants s.live reply).map (Grant.move f₁)
    rw [← hmove, hlive, hlive₁]
    apply Act.grants_move _ hplain
    intro p hact g hg heq
    obtain ⟨g', hg', rfl⟩ := hreleased p hact
    exact hinj g hg g' hg' heq
  · show (act.move f).handles handles' reply' = (act.handles handles reply).map (Option.map f₁)
    rw [← hmove, hhandles, hhandles₁]
    apply Act.handles_move _ hplain
    intro p hact q hq heq
    obtain ⟨g, hg, rfl⟩ := h.handled q hq
    obtain ⟨g', hg', rfl⟩ := hreleased p hact
    exact hinj g hg g' hg' heq
  · rintro p rfl
    obtain ⟨size, rfl⟩ := Outline.allocate_of_allocated hout
    exact h₁.spans_payload (g := ⟨p, size⟩) List.mem_cons_self

/-- Commands that both dialogues are given. -/
theorem run (hc : Source.Contract After) (hc' : Source.Contract After')
    {d e : Dialogue (Recorder σ)} {d' e' : Dialogue (Recorder τ)} {entries entries' : List Entry}
    (h : Mirrors After After' Q f A d d') (hrun : d.Run entries e) (hrun' : d'.Run entries' e')
    (halike : List.Forall₂ (Entry.Alike Q) entries entries') :
    (∃ f₁ A₁, Mirrors After After' Q f₁ A₁ e e') ∧
      List.Forall₂ (Entry.Mirrors After After' Q) entries entries' := by
  induction hrun generalizing f A d' entries' with
  | nil hwrites =>
    cases halike
    cases hrun' with
    | nil hwrites' => exact ⟨⟨f, A, h.writes hc hc' hwrites hwrites'⟩, .nil⟩
  | @cons s s₁ handles command reply d₁ e entries hwrites hstep _ ih =>
    cases hrun' with
    | nil => nomatch halike
    | @cons t t₁ handles' command' reply' d₁' e' entries' hwrites' hstep' hrest' =>
    obtain ⟨⟩ | ⟨hentry, hentries⟩ := halike
    obtain rfl : command = command' := hentry.command
    have hpage : Source.pageSize s₁.world.heap.source = Source.pageSize t₁.world.heap.source :=
      hentry.page
    obtain ⟨f₁, A₁, hmirrors, hplain, hspans⟩ :=
      (h.writes hc hc' hwrites hwrites').step hc hc' hstep hstep' hpage hentry.answers
    obtain ⟨hlast, hothers⟩ := ih hmirrors hrest' hentries
    refine ⟨hlast, .cons ?_ hothers⟩
    rw [← hpage]
    exact .intro hmirrors hplain hspans

end Dialogue.Mirrors

end BoundaryTag
