import BoundaryTag.Memory.Block

/-!
# What a change of memory leaves alone

`ChangesOnly P m m'` says that `m'` differs from `m` at words in `P` only. Every writer of a header
or of links changes only the words that it names, and what is read from other words stays as it
was.
-/

namespace BoundaryTag.Memory

variable {m m' m'' : Memory} {P Q : Nat → Prop} {a b v : Nat}

/-- `m'` differs from `m` at addresses in `P` only. -/
def ChangesOnly (P : Nat → Prop) (m m' : Memory) : Prop := ∀ a, ¬ P a → m'.read a = m.read a

namespace ChangesOnly

theorem refl (P : Nat → Prop) (m : Memory) : ChangesOnly P m m := fun _ _ => rfl

theorem trans (h : ChangesOnly P m m') (h' : ChangesOnly P m' m'') : ChangesOnly P m m'' :=
  fun a ha => (h' a ha).trans (h a ha)

theorem mono (h : ChangesOnly P m m') (hPQ : ∀ a, P a → Q a) : ChangesOnly Q m m' :=
  fun a ha => h a fun hp => ha (hPQ a hp)

theorem forward (h : ChangesOnly P m m') (hb : ¬ P b) : m'.forward b = m.forward b := h b hb

theorem backward (h : ChangesOnly P m m') (hb : ¬ P (b + 8)) : m'.backward b = m.backward b :=
  h _ hb

theorem tag (h : ChangesOnly P m m') (hb : ¬ P (b + 16)) : m'.tag b = m.tag b := by
  unfold Memory.tag
  rw [h _ hb]

theorem link (h : ChangesOnly P m m') (ha : ¬ P a) : m'.link a = m.link a := by
  unfold Memory.link
  rw [h _ ha]

end ChangesOnly

/-! ### Writers -/

theorem changesOnly_write : ChangesOnly (· = a) m (m.write a v) :=
  fun _ h => read_write_of_ne (Ne.symm h)

theorem changesOnly_setForward : ChangesOnly (· = b) m (m.setForward b v) := changesOnly_write

theorem changesOnly_setBackward : ChangesOnly (· = b + 8) m (m.setBackward b v) :=
  changesOnly_write

theorem changesOnly_setTag {t : Tag} : ChangesOnly (· = b + 16) m (m.setTag b t) :=
  changesOnly_write

theorem changesOnly_setNext {l : Option Nat} : ChangesOnly (· = b + 32) m (m.setNext b l) :=
  changesOnly_write

theorem changesOnly_setPrev {l : Option Nat} : ChangesOnly (· = b + 40) m (m.setPrev b l) :=
  changesOnly_write

theorem changesOnly_pack {f g : Nat} {t : Tag} :
    ChangesOnly (fun a => a = b ∨ a = b + 8 ∨ a = b + 16) m (m.pack b f g t) :=
  ((changesOnly_setForward.mono fun _ h => .inl h).trans
    (changesOnly_setBackward.mono fun _ h => .inr (.inl h))).trans
    (changesOnly_setTag.mono fun _ h => .inr (.inr h))

theorem changesOnly_setLinks {l : Links} :
    ChangesOnly (fun a => a = b + 32 ∨ a = b + 40) m (m.setLinks b l) :=
  (changesOnly_setNext.mono fun _ h => .inl h).trans (changesOnly_setPrev.mono fun _ h => .inr h)

theorem changesOnly_markFree :
    ChangesOnly (fun a => a = b + 16 ∨ a = b + 32 ∨ a = b + 40) m (m.markFree b) :=
  (changesOnly_setTag.mono fun _ h => .inl h).trans
    (changesOnly_setLinks.mono fun _ h => .inr h)

theorem changesOnly_markAllocated : ChangesOnly (· = b + 16) m (m.markAllocated b) :=
  changesOnly_setTag

/-! ### What was written -/

theorem forward_setForward (h : v < Word.limit) : (m.setForward b v).forward b = v :=
  read_write_self h

theorem backward_setBackward (h : v < Word.limit) : (m.setBackward b v).backward b = v :=
  read_write_self h

theorem forward_pack {f g : Nat} {t : Tag} (hf : f < Word.limit) :
    (m.pack b f g t).forward b = f := by
  unfold pack
  rw [changesOnly_setTag.forward (by omega), changesOnly_setBackward.forward (by omega),
    forward_setForward hf]

theorem backward_pack {f g : Nat} {t : Tag} (hg : g < Word.limit) :
    (m.pack b f g t).backward b = g := by
  unfold pack
  rw [changesOnly_setTag.backward (by omega), backward_setBackward hg]

@[simp] theorem tag_pack {f g : Nat} {t : Tag} : (m.pack b f g t).tag b = t := tag_setTag

@[simp] theorem tag_markFree : (m.markFree b).tag b = .free := by
  unfold markFree
  rw [changesOnly_setLinks.tag (by omega), tag_setTag]

@[simp] theorem tag_markAllocated : (m.markAllocated b).tag b = .allocated := tag_setTag

/-- A stored link names a block that is at no zero address. -/
theorem link_write {l : Option Nat} (h : ∀ x ∈ l, 0 < x ∧ x < Word.limit) :
    (m.write a (l.getD 0)).link a = l := by
  unfold link
  cases l with
  | none => simp
  | some x =>
    obtain ⟨hpos, hlt⟩ := h x rfl
    rw [Option.getD_some, read_write_self hlt]
    exact if_neg (Nat.ne_of_gt hpos)

theorem link_setNext {l : Option Nat} (h : ∀ x ∈ l, 0 < x ∧ x < Word.limit) :
    (m.setNext b l).link (b + 32) = l := link_write h

theorem link_setPrev {l : Option Nat} (h : ∀ x ∈ l, 0 < x ∧ x < Word.limit) :
    (m.setPrev b l).link (b + 40) = l := link_write h

end BoundaryTag.Memory
