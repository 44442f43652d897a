import Mathlib.Data.Option.Defs
import Mathlib.Logic.Relation
import BoundaryTag.Proofs.Pictures
import BoundaryTag.Proofs.Sessions

/-!
# Dialogues

To compare two heaps, they are asked for the same: blocks are named by the number of the request
that they were handed out for, not by their addresses, which may differ (`Command`). A run of such
commands, with any writes to live blocks in between, leaves an `Entry` for each: the reply, the calls
that the source has answered by then, and a picture of the heap. Two sources answer alike if their
`k`-th answers are alike for every `k` (`Call.Alike`), and addresses in two heaps correspond if they
are as far from the base of the `k`-th range that was mapped for one `k` (`Call.position?`).
-/

namespace BoundaryTag

/-- What a caller asks for. -/
inductive Command where
  | allocate (size : Nat)
  /-- Gives back what was handed out for a request, where requests are counted from zero. -/
  | release (ordinal : Nat)
  | reset
  | check
  | freeBlocks
deriving DecidableEq, Repr

/-- A session and the payloads that were handed out in it, one for each request, oldest first. There
is none where the request was turned down or the block is no longer live. -/
structure Dialogue (σ : Type) where
  session : Session σ
  handles : List (Option Nat) := []

/-- The act that a command stands for, unless it names what is not live. -/
def Command.act? (handles : List (Option Nat)) : Command → Option Act
  | allocate size => some (.allocate size)
  | release ordinal => handles[ordinal]?.join.map .release
  | reset => some .reset
  | check => some .check
  | freeBlocks => some .freeBlocks

/-- The payloads by requests after an act. -/
def Act.handles (handles : List (Option Nat)) : Act → Reply → List (Option Nat)
  | allocate _, .allocated answer => handles ++ [answer.toOption]
  | release payload, _ => handles.map (Option.filter (· ≠ payload))
  | reset, _ => handles.map fun _ => none
  | _, _ => handles

namespace AllocError

/-- The error without what the source says of its cause. -/
def plain : AllocError → AllocError
  | mapFailed size _ => mapFailed size ""
  | outOfMemory size => outOfMemory size
  | sizeOverflow size => sizeOverflow size

theorem eq_of_plain {e e' : AllocError} (h : e'.plain = e.plain)
    (hcause : ∀ c c', e.cause? = some c → e'.cause? = some c' → c = c') : e' = e := by
  cases e <;> cases e' <;> simp_all [plain, cause?]

end AllocError

namespace Reply

def plain : Reply → Reply
  | allocated (.error e) => allocated (.error e.plain)
  | reply => reply

/-- The cause of a failure, if the source gave one. -/
def cause? : Reply → Option String
  | allocated (.error e) => e.cause?
  | _ => none

theorem eq_of_plain {reply reply' : Reply} (h : reply'.plain = reply.plain)
    (hcause : ∀ c c', reply.cause? = some c → reply'.cause? = some c' → c = c') :
    reply' = reply := by
  match reply, reply' with
  | allocated (.error e), allocated (.error e') =>
    rw [AllocError.eq_of_plain (Except.error.inj (Reply.allocated.inj h)) hcause]
  | allocated (.ok _), allocated (.ok _) | done, done | violations _, violations _
  | count _, count _ => exact h

end Reply

/-! ### Calls -/

namespace Call

/-- What the source has answered to requests for memory, oldest first. -/
def answers : List Call → List (Option Nat)
  | [] => []
  | mapped r :: cs => answers cs ++ [some r.base]
  | refused _ :: cs => answers cs ++ [none]
  | unmapped _ :: cs => answers cs

/-- As far as both sources were asked, they have refused the same requests, and the bases of what
they have handed out are as `Q` says. -/
def Alike (Q : Nat → Nat → Prop) (cs cs' : List Call) : Prop :=
  ∀ (k : Nat) (x y : Option Nat), (answers cs)[k]? = some x →
    (answers cs')[k]? = some y → Option.Rel Q x y

/-- The calls are of one kind and about equally many bytes, at bases that are as `Q` says. -/
inductive Like (Q : Nat → Nat → Prop) : Call → Call → Prop
  | mapped {base base' : Nat} (size : Nat) : Q base base' →
    Like Q (.mapped ⟨base, size⟩) (.mapped ⟨base', size⟩)
  | refused (size : Nat) : Like Q (.refused size) (.refused size)
  | unmapped {base base' : Nat} (size : Nat) : Q base base' →
    Like Q (.unmapped ⟨base, size⟩) (.unmapped ⟨base', size⟩)

/-- The number of the mapping, counted from zero, that an address was handed out with last, and how
far it is from the base of that range. -/
def position? : List Call → Nat → Option (Nat × Nat)
  | [], _ => none
  | mapped r :: cs, a =>
    if r.base ≤ a ∧ a < r.base + r.size then some (maps cs, a - r.base) else position? cs a
  | refused _ :: cs, a | unmapped _ :: cs, a => position? cs a

variable {Q : Nat → Nat → Prop} {cs cs' : List Call}

theorem alike_of_forall₂ (h : List.Forall₂ (Option.Rel Q) (answers cs) (answers cs')) :
    Alike Q cs cs' := by
  intro k x y hx hy
  obtain ⟨hk, rfl⟩ := List.getElem?_eq_some_iff.mp hx
  obtain ⟨hk', rfl⟩ := List.getElem?_eq_some_iff.mp hy
  exact (List.forall₂_iff_get.mp h).2 k hk hk'

theorem length_answers (h : List.Forall₂ (Like Q) cs cs') :
    (answers cs).length = (answers cs').length := by
  induction h with
  | nil => rfl
  | cons hlike _ ih => cases hlike <;> simp [answers, ih]

theorem maps_eq (h : List.Forall₂ (Like Q) cs cs') : maps cs = maps cs' := by
  induction h with
  | nil => rfl
  | cons hlike _ ih => cases hlike <;> simp [maps, ih]

/-- Of sources that have answered alike, the next answers are alike too. -/
theorem Alike.last {c c' : Call} {x y : Option Nat} (h : Alike Q (c :: cs) (c' :: cs'))
    (hcs : List.Forall₂ (Like Q) cs cs') (hx : answers (c :: cs) = answers cs ++ [x])
    (hy : answers (c' :: cs') = answers cs' ++ [y]) : Option.Rel Q x y := by
  refine h (answers cs).length x y ?_ ?_
  · rw [hx, List.getElem?_concat_length]
  · rw [hy, length_answers hcs, List.getElem?_concat_length]

end Call

/-! ### Runs -/

/-- Callers write to live blocks. -/
def Session.Writes {σ : Type} [Source σ] : Session σ → Session σ → Prop :=
  Relation.ReflTransGen fun s s' => ∃ address value, s.Step (.write address value) s'

/-- A command and what came of it. -/
structure Entry where
  command : Command
  /-- The page size of the source before the command. -/
  page : Nat
  reply : Reply
  /-- The calls that the source has answered by then, the latest first. -/
  calls : List Call
  picture : Picture Nat

namespace Dialogue

variable {σ : Type}

def start (config : Config) (source : σ) (memory : Memory) : Dialogue σ where
  session := .start config source memory

/-- The command names nothing but what is live. -/
def Admits (d : Dialogue σ) (command : Command) : Prop :=
  ∃ act, command.act? d.handles = some act ∧ d.session.Permits act

variable [Source σ]

/-- A command that stands for a permitted act, which returns. -/
inductive Step : Dialogue σ → Command → Reply → Dialogue σ → Prop
  | intro {s : Session σ} {handles : List (Option Nat)} {command : Command} {act : Act}
    {reply : Reply} {w' : World σ} : command.act? handles = some act → s.Permits act →
    act.perform s.world = .ok reply w' →
    Step ⟨s, handles⟩ command reply ⟨⟨w', act.grants s.live reply⟩, act.handles handles reply⟩

/-- What is noted of a command after which the heap is that of `d`. -/
def entry (d : Dialogue (Recorder σ)) (command : Command) (page : Nat) (reply : Reply) : Entry where
  command
  page
  reply
  calls := d.session.world.heap.source.calls
  picture := d.session.world.picture

/-- Commands with writes before, between and after them. -/
inductive Run : Dialogue (Recorder σ) → List Entry → Dialogue (Recorder σ) → Prop
  | nil {s s' : Session (Recorder σ)} {handles : List (Option Nat)} : s.Writes s' →
    Run ⟨s, handles⟩ [] ⟨s', handles⟩
  | cons {s s' : Session (Recorder σ)} {handles : List (Option Nat)} {command : Command}
    {reply : Reply} {d d' : Dialogue (Recorder σ)} {entries : List Entry} : s.Writes s' →
    Step ⟨s', handles⟩ command reply d → Run d entries d' →
    Run ⟨s, handles⟩
      (d.entry command (Source.pageSize s'.world.heap.source) reply :: entries) d'

end Dialogue

/-- The same was asked for, of sources with pages of the same size that have answered alike so
far. -/
structure Entry.Alike (Q : Nat → Nat → Prop) (e e' : Entry) : Prop where
  command : e.command = e'.command
  page : e.page = e'.page
  answers : Call.Alike Q e.calls e'.calls

end BoundaryTag
