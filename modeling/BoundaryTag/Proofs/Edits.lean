import BoundaryTag.Proofs.Links

/-!
# Edits of the free list

Blocks are put on a free list and taken off it in any order, and it may be cleared. A block that
was taken off keeps its old links, and may be put on again with them. What is on the list after such
edits are the entries of a list of numbers (`FreeList.entries`), in the same order, to all that a
list can be asked (`FreeList.Shows`). No edit faults, and each writes links of the block that is
put on, of the one it is put before, or of those beside the block that is taken off.
-/

namespace BoundaryTag.FreeList

/-- What may be done to a free list. -/
inductive Edit where
  | pushFront (b : Nat)
  | remove (b : Nat)
  | clear
deriving DecidableEq, Repr

namespace Edit

def perform : Edit → FreeList → EStateM Fault Memory FreeList
  | pushFront b, l => l.pushFront b
  | remove b, l => l.remove b
  | clear, _ => return {}

/-- What an edit makes of the entries `xs`. -/
def apply (xs : List Nat) : Edit → List Nat
  | pushFront b => b :: xs
  | remove b => xs.erase b
  | clear => []

/-- Of the blocks `bs`, those that are not on the list with the entries `xs` may be put on it, and
what is on it may be taken off. -/
def Fits (bs xs : List Nat) : Edit → Prop
  | pushFront b => b ∈ bs ∧ b ∉ xs
  | remove b => b ∈ xs
  | clear => True

/-- A word that an edit of the list with the entries `xs` may change. -/
def Writes (xs : List Nat) : Edit → Nat → Prop
  | pushFront b, a => LinkWord (b :: xs.head?.toList) a
  | remove b, a => ∃ y, Beside xs b y ∧ (a = y + 32 ∨ a = y + 40)
  | clear, _ => False

end Edit

/-- The entries of a new list after some edits, of which the last is first. -/
def entries : List Edit → List Nat
  | [] => []
  | e :: es => e.apply (entries es)

/-- Each of these edits was one that fits the entries at that time. -/
def Permitted (bs : List Nat) : List Edit → Prop
  | [] => True
  | e :: es => Permitted bs es ∧ e.Fits bs (entries es)

/-- A new list, edited. -/
def replay : List Edit → EStateM Fault Memory FreeList
  | [] => return {}
  | e :: es => do e.perform (← replay es)

/-- All that can be asked of the list is answered as for the entries `xs`: its head, whether it is
empty, its first blocks in a walk of any length, how many there are, and the links of each. -/
structure Shows (l : FreeList) (m : Memory) (xs : List Nat) : Prop where
  head : l.head = xs.head?
  isEmpty : l.isEmpty = xs.isEmpty
  take (n : Nat) : l.take m n = .ok (xs.take n)
  length : l.length m = .ok xs.length
  links {us vs : List Nat} {x : Nat} : xs = us ++ x :: vs →
    m.links x = .ok { next := vs.head?, prev := us.getLast? }

/-- The list in memory is that of the entries `xs`, which are distinct blocks of `bs`. -/
structure Holds (l : FreeList) (m : Memory) (bs xs : List Nat) : Prop where
  listable : Listable m bs
  subset : xs ⊆ bs
  nodup : xs.Nodup
  head : l = ⟨xs.head?⟩
  linked : Linked m none xs none

variable {m : Memory} {l : FreeList} {bs xs : List Nat} {es : List Edit} {e : Edit}

namespace Holds

theorem new (h : Listable m bs) : Holds {} m bs [] where
  listable := h
  subset := List.nil_subset bs
  nodup := .nil
  head := rfl
  linked := trivial

theorem listable_entries (h : l.Holds m bs xs) : Listable m xs :=
  h.listable.of_subset h.subset h.nodup

theorem shows (h : l.Holds m bs xs) : l.Shows m xs := by
  have hlist := h.listable_entries
  obtain ⟨-, -, -, rfl, hlinked⟩ := h
  refine ⟨rfl, ?_, takeFrom_run hlist hlinked,
    lengthFrom_run hlist hlinked (length_le_maxLength hlist), ?_⟩
  · cases xs <;> rfl
  · rintro us vs x rfl
    obtain ⟨hprev, hnext⟩ := hlinked.links_append
    rw [hlist.links_run (by simp), hprev, hnext]

/-- An edit that fits returns, and the list then has the entries that it makes. -/
theorem perform (h : l.Holds m bs xs) (he : e.Fits bs xs) :
    ∃ l' m', e.perform l m = .ok l' m' ∧ l'.Holds m' bs (e.apply xs) ∧
      Memory.ChangesOnly (e.Writes xs) m m' := by
  obtain ⟨hlistable, hsubset, hnodup, rfl, hlinked⟩ := id h
  cases e with
  | pushFront b =>
    obtain ⟨hb, hnew⟩ := he
    have hsubset' : b :: xs ⊆ bs := List.cons_subset.mpr ⟨hb, hsubset⟩
    have hnodup' : (b :: xs).Nodup := List.nodup_cons.mpr ⟨hnew, hnodup⟩
    obtain ⟨m', hrun, hlinked', hc⟩ :=
      pushFront_run (hlistable.of_subset hsubset' hnodup') hlinked
    have htouched : b :: xs.head?.toList ⊆ bs := by
      refine List.cons_subset.mpr ⟨hb, fun y hy => hsubset ?_⟩
      exact List.mem_of_mem_head? (Option.mem_toList.mp hy)
    exact ⟨_, m', hrun, ⟨hlistable.of_linkWord htouched hc, hsubset', hnodup', rfl, hlinked'⟩, hc⟩
  | remove b =>
    have hb : b ∈ xs := he
    obtain ⟨m', hrun, hlinked', hc⟩ := remove_run h.listable_entries hlinked hb
    have hsubset' : xs.erase b ⊆ bs := fun y hy => hsubset (List.mem_of_mem_erase hy)
    have hc' : Memory.ChangesOnly (LinkWord (xs.erase b)) m m' :=
      hc.mono fun a ⟨y, hy, ha⟩ => ⟨y, hy.mem_erase hnodup, ha⟩
    exact ⟨_, m', hrun, ⟨hlistable.of_linkWord hsubset' hc', hsubset', hnodup.erase b, rfl,
      hlinked'⟩, hc⟩
  | clear => exact ⟨_, m, rfl, new hlistable, .refl _ m⟩

end Holds

/-- Edits that fit return, and the list then has the entries that they make. -/
theorem replay_run (h : Listable m bs) (hes : Permitted bs es) :
    ∃ l m', replay es m = .ok l m' ∧ l.Holds m' bs (entries es) := by
  induction es with
  | nil => exact ⟨{}, m, rfl, .new h⟩
  | cons e es ih =>
    obtain ⟨hes, he⟩ := hes
    obtain ⟨l, m₁, hrun, hholds⟩ := ih hes
    obtain ⟨l', m', hperform, hholds', -⟩ := hholds.perform he
    exact ⟨l', m', (run_bind_ok hrun).trans hperform, hholds'⟩

/-- Aligned blocks that are tagged free and do not overlap are put on a new list and taken off it, in any
order. This returns, the list shows the entries that a list of numbers then has, and so it does
after any further edit, which changes no other words than it may write. -/
theorem shows_entries (h : Listable m bs) (hes : Permitted bs es) :
    ∃ l m₁, replay es m = .ok l m₁ ∧ l.Shows m₁ (entries es) ∧
      ∀ e : Edit, e.Fits bs (entries es) → ∃ l' m₂, e.perform l m₁ = .ok l' m₂ ∧
        l'.Shows m₂ (e.apply (entries es)) ∧
        Memory.ChangesOnly (e.Writes (entries es)) m₁ m₂ := by
  obtain ⟨l, m₁, hrun, hholds⟩ := replay_run h hes
  refine ⟨l, m₁, hrun, hholds.shows, fun e he => ?_⟩
  obtain ⟨l', m₂, hperform, hholds', hc⟩ := hholds.perform he
  exact ⟨l', m₂, hperform, hholds'.shows, hc⟩

/-- The second of three blocks is taken off and put on again with the links that it still has. -/
theorem shows_entries_of_stale_links :
    ∃ l m₁ l' m₂,
      replay [.remove 0x1040, .pushFront 0x1080, .pushFront 0x1040, .pushFront 0x1000] ∅ =
        .ok l m₁ ∧
      l.Shows m₁ [0x1080, 0x1000] ∧
      (Edit.pushFront 0x1040).perform l m₁ = .ok l' m₂ ∧
      l'.Shows m₂ [0x1040, 0x1080, 0x1000] ∧
      Memory.ChangesOnly (LinkWord [0x1040, 0x1080]) m₁ m₂ := by
  have hlistable : Listable ∅ [0x1000, 0x1040, 0x1080] := by
    refine ⟨by decide, fun _ _ => rfl, by decide, ?_⟩
    simp [Apart]
  have hpermitted : Permitted [0x1000, 0x1040, 0x1080]
      [.remove 0x1040, .pushFront 0x1080, .pushFront 0x1040, .pushFront 0x1000] := by
    simp [Permitted, Edit.Fits, entries, Edit.apply]
  obtain ⟨l, m₁, hrun, hshows, hnext⟩ := shows_entries hlistable hpermitted
  obtain ⟨l', m₂, hperform, hshows', hc⟩ := hnext (.pushFront 0x1040) ⟨by decide, by decide⟩
  exact ⟨l, m₁, l', m₂, hrun, hshows, hperform, hshows', hc⟩

end BoundaryTag.FreeList
