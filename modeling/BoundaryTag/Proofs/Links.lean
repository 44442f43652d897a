import Mathlib.Data.List.Basic
import Mathlib.Data.List.Pairwise
import BoundaryTag.Proofs.Changes
import BoundaryTag.Proofs.Program

/-!
# The free list as a list

`Linked m prev xs next` says that the links in memory join the blocks `xs` in this order, between a
block `prev` before the first and a block `next` after the last. On blocks that are tagged free and
do not overlap (`Listable`), adding in front is `List.cons`, taking out is `List.erase`, and both
change link words of the block and its neighbours only.
-/

namespace BoundaryTag

/-- The blocks `xs` are linked in this order. The block before the first is `prev`, and the one
after the last is `next`. -/
def Linked (m : Memory) : Option Nat → List Nat → Option Nat → Prop
  | _, [], _ => True
  | prev, x :: xs, next =>
    m.link (x + 40) = prev ∧ m.link (x + 32) = xs.head?.or next ∧ Linked m (some x) xs next

/-- A word in which a block of `xs` keeps a link. -/
def LinkWord (xs : List Nat) (a : Nat) : Prop := ∃ x ∈ xs, a = x + 32 ∨ a = x + 40

/-- `y` is the entry right before or right after `x` in the list `xs`. -/
def Beside (xs : List Nat) (x y : Nat) : Prop :=
  ∃ us vs, xs = us ++ x :: vs ∧ (y ∈ us.getLast? ∨ y ∈ vs.head?)

/-- Two blocks do not overlap in what is header and links of a free block. -/
def Apart (x y : Nat) : Prop := x + 48 ≤ y ∨ y + 48 ≤ x

theorem apart_iff {x y : Nat} : Apart x y ↔ x + 48 ≤ y ∨ y + 48 ≤ x := Iff.rfl

instance : Std.Symm Apart := ⟨fun _ _ h => Or.symm h⟩

/-- Blocks that may be on a free list: they are aligned, tagged free and apart. -/
structure Listable (m : Memory) (xs : List Nat) : Prop where
  aligned : ∀ x ∈ xs, x % 16 = 0
  free : ∀ x ∈ xs, m.tag x = .free
  word : ∀ x ∈ xs, 0 < x ∧ x < Word.limit
  apart : xs.Pairwise Apart

variable {m m' : Memory} {P : Nat → Prop} {prev prev' next : Option Nat} {us vs xs ys : List Nat}
  {b x y : Nat}

/-- A list in which nothing is twice loses the one place of an entry that is erased. -/
theorem erase_of_nodup_append (h : (us ++ x :: vs).Nodup) : (us ++ x :: vs).erase x = us ++ vs := by
  have hnot : x ∉ us := fun hu => (List.nodup_append.mp h).2.2 x hu x List.mem_cons_self rfl
  rw [List.erase_append_right _ hnot, List.erase_cons_head]

theorem Beside.mem_erase (h : Beside xs x y) (hn : xs.Nodup) : y ∈ xs.erase x := by
  obtain ⟨us, vs, rfl, hy⟩ := h
  rw [erase_of_nodup_append hn]
  exact List.mem_append.mpr (hy.imp List.mem_of_mem_getLast? List.mem_of_mem_head?)

namespace Memory

/-- The links of an aligned block that is tagged free can be read. -/
theorem requireFree_run (hal : x % 16 = 0) (h : m.tag x = .free) : m.requireFree x = .ok () := by
  unfold requireFree isAllocated
  rw [requireAligned_run hal, h]
  rfl

theorem links_run (hal : x % 16 = 0) (h : m.tag x = .free) :
    m.links x = .ok { next := m.link (x + 32), prev := m.link (x + 40) } := by
  unfold links
  rw [requireFree_run hal h]
  rfl

end Memory

namespace Linked

theorem cons_iff : Linked m prev (x :: xs) next ↔
    m.link (x + 40) = prev ∧ m.link (x + 32) = xs.head?.or next ∧ Linked m (some x) xs next :=
  Iff.rfl

theorem congr (h : Linked m prev xs next)
    (hm : ∀ x ∈ xs, m'.link (x + 32) = m.link (x + 32) ∧ m'.link (x + 40) = m.link (x + 40)) :
    Linked m' prev xs next := by
  induction xs generalizing prev with
  | nil => trivial
  | cons x xs ih =>
    obtain ⟨hprev, hnext, hrest⟩ := h
    obtain ⟨h32, h40⟩ := hm x List.mem_cons_self
    exact ⟨h40.trans hprev, h32.trans hnext, ih hrest fun y hy => hm y (List.mem_cons_of_mem _ hy)⟩

theorem of_changesOnly (h : Linked m prev xs next) (hm : Memory.ChangesOnly P m m')
    (hP : ∀ a, LinkWord xs a → ¬ P a) : Linked m' prev xs next :=
  h.congr fun x hx => ⟨hm.link (hP _ ⟨x, hx, .inl rfl⟩), hm.link (hP _ ⟨x, hx, .inr rfl⟩)⟩

/-- Writing the links of blocks that are apart from these leaves these linked. -/
theorem of_apart (h : Linked m prev xs next) (hm : Memory.ChangesOnly (LinkWord ys) m m')
    (hapart : ∀ x ∈ xs, ∀ y ∈ ys, Apart x y) : Linked m' prev xs next := by
  refine h.of_changesOnly hm ?_
  rintro a ⟨x, hx, hxa⟩ ⟨y, hy, hya⟩
  have := hapart x hx y hy
  rw [apart_iff] at this
  omega

theorem append_iff : Linked m prev (xs ++ ys) next ↔
    Linked m prev xs (ys.head?.or next) ∧ Linked m (xs.getLast?.or prev) ys next := by
  induction xs generalizing prev with
  | nil => simp [Linked]
  | cons x xs ih =>
    rw [List.cons_append, cons_iff, cons_iff, ih, List.head?_append, List.getLast?_cons,
      Option.or_assoc]
    cases xs.getLast? <;> simp [and_assoc]

/-- The links of an entry lead to what stands beside it. -/
theorem links_append (h : Linked m none (us ++ x :: vs) none) :
    m.link (x + 40) = us.getLast? ∧ m.link (x + 32) = vs.head? := by
  obtain ⟨-, hprev, hnext, -⟩ := append_iff.mp h
  rw [Option.or_none] at hprev hnext
  exact ⟨hprev, hnext⟩

theorem relink_prev {l : Option Nat} (h : Linked m prev (x :: xs) next)
    (hx : m'.link (x + 40) = l)
    (h32 : m'.link (x + 32) = m.link (x + 32))
    (hm : ∀ z ∈ xs, m'.link (z + 32) = m.link (z + 32) ∧ m'.link (z + 40) = m.link (z + 40)) :
    Linked m' l (x :: xs) next :=
  ⟨hx, h32.trans h.2.1, h.2.2.congr hm⟩

theorem relink_next {l : Option Nat} (h : Linked m prev (xs ++ [x]) next)
    (hx : m'.link (x + 32) = l)
    (h40 : m'.link (x + 40) = m.link (x + 40))
    (hm : ∀ z ∈ xs, m'.link (z + 32) = m.link (z + 32) ∧ m'.link (z + 40) = m.link (z + 40)) :
    Linked m' prev (xs ++ [x]) l := by
  rw [append_iff] at h ⊢
  exact ⟨h.1.congr hm, h40.trans h.2.1, hx, trivial⟩

/-- Where the links onward agree, two lists from one block are the same. -/
theorem eq_of_next (h : Linked m prev xs none) (h' : Linked m' prev' ys none)
    (hhead : xs.head? = ys.head?) (hm : ∀ x ∈ xs, m'.link (x + 32) = m.link (x + 32)) :
    xs = ys := by
  induction xs generalizing prev prev' ys with
  | nil => exact (List.head?_eq_none_iff.mp hhead.symm).symm
  | cons x xs ih =>
    obtain ⟨ys, rfl⟩ := List.head?_eq_some_iff.mp hhead.symm
    obtain ⟨-, hnext, htail⟩ := h
    obtain ⟨-, hnext', htail'⟩ := h'
    rw [Option.or_none] at hnext hnext'
    have hhead' : xs.head? = ys.head? :=
      hnext.symm.trans ((hm x List.mem_cons_self).symm.trans hnext')
    rw [ih htail htail' hhead' fun z hz => hm z (List.mem_cons_of_mem x hz)]

theorem prev_eq (h : Linked m prev xs next) (h' : Linked m' prev xs next) (hx : x ∈ xs) :
    m'.link (x + 40) = m.link (x + 40) := by
  induction xs generalizing prev with
  | nil => nomatch hx
  | cons y xs ih =>
    rcases List.mem_cons.mp hx with rfl | hx
    · exact h'.1.trans h.1.symm
    · exact ih h.2.2 h'.2.2 hx

/-- A block has the one before it, if there is one, as its predecessor, and is what comes after it. -/
theorem next_of_prev (h : Linked m none xs none) (hy : y ∈ xs) (hprev : m.link (y + 40) = some x) :
    x ∈ xs ∧ m.link (x + 32) = some y := by
  obtain ⟨us, vs, rfl⟩ := List.append_of_mem hy
  obtain ⟨hus, hback, -⟩ := append_iff.mp h
  rw [Option.or_none, hprev] at hback
  obtain ⟨us, rfl⟩ := List.getLast?_eq_some_iff.mp hback.symm
  obtain ⟨-, -, hnext, -⟩ := append_iff.mp hus
  exact ⟨by simp, hnext⟩

theorem prev_of_next (h : Linked m none xs none) (hx : x ∈ xs) (hnext : m.link (x + 32) = some y) :
    y ∈ xs ∧ m.link (y + 40) = some x := by
  obtain ⟨us, vs, rfl⟩ := List.append_of_mem hx
  obtain ⟨-, -, honward, hvs⟩ := append_iff.mp h
  rw [Option.or_none, hnext] at honward
  obtain ⟨vs, rfl⟩ := List.head?_eq_some_iff.mp honward.symm
  exact ⟨by simp, hvs.1⟩

theorem head_of_prev (h : Linked m none xs none) (hx : x ∈ xs) (hprev : m.link (x + 40) = none) :
    xs.head? = some x := by
  obtain ⟨us, vs, rfl⟩ := List.append_of_mem hx
  obtain ⟨-, hback, -⟩ := append_iff.mp h
  rw [Option.or_none, hprev] at hback
  rw [List.getLast?_eq_none_iff.mp hback.symm]
  rfl

end Linked

namespace Listable

theorem of_sublist (h : Listable m ys) (hs : xs.Sublist ys) : Listable m xs where
  aligned x hx := h.aligned x (hs.subset hx)
  free x hx := h.free x (hs.subset hx)
  word x hx := h.word x (hs.subset hx)
  apart := h.apart.sublist hs

theorem of_tags (h : Listable m xs) (hm : ∀ x ∈ xs, m'.tag x = m.tag x) : Listable m' xs where
  aligned := h.aligned
  free x hx := (hm x hx).trans (h.free x hx)
  word := h.word
  apart := h.apart

theorem nodup (h : Listable m xs) : xs.Nodup :=
  h.apart.imp fun {x y} (hxy : x + 48 ≤ y ∨ y + 48 ≤ x) => by omega

theorem apart_of_ne (h : Listable m xs) (hx : x ∈ xs) (hy : y ∈ xs) (hne : x ≠ y) : Apart x y :=
  h.apart.forall hx hy hne

theorem of_subset (h : Listable m ys) (hs : xs ⊆ ys) (hn : xs.Nodup) : Listable m xs where
  aligned x hx := h.aligned x (hs hx)
  free x hx := h.free x (hs hx)
  word x hx := h.word x (hs hx)
  apart := hn.imp_of_mem fun hx hy hne => h.apart_of_ne (hs hx) (hs hy) hne

/-- No block's tag is where others have their links. -/
theorem of_linkWord (h : Listable m xs) (hs : ys ⊆ xs)
    (hm : Memory.ChangesOnly (LinkWord ys) m m') : Listable m' xs := by
  refine h.of_tags fun x hx => hm.tag ?_
  rintro ⟨y, hy, hxy⟩
  by_cases hne : x = y
  · omega
  · have := h.apart_of_ne hx (hs hy) hne
    rw [apart_iff] at this
    omega

theorem requireFree_run (h : Listable m xs) (hx : x ∈ xs) : m.requireFree x = .ok () :=
  Memory.requireFree_run (h.aligned x hx) (h.free x hx)

theorem links_run (h : Listable m xs) (hx : x ∈ xs) :
    m.links x = .ok { next := m.link (x + 32), prev := m.link (x + 40) } :=
  Memory.links_run (h.aligned x hx) (h.free x hx)

theorem head_word (h : Listable m xs) : ∀ x ∈ xs.head?, 0 < x ∧ x < Word.limit :=
  fun x hx => h.word x (List.mem_of_mem_head? hx)

theorem getLast_word (h : Listable m xs) : ∀ x ∈ xs.getLast?, 0 < x ∧ x < Word.limit :=
  fun x hx => h.word x (List.mem_of_mem_getLast? hx)

end Listable

namespace FreeList

/-- The memory in which the block `p`, if there is one, is followed by `l`. -/
def linkNext (m : Memory) : Option Nat → Option Nat → Memory
  | some p, l => m.setNext p l
  | none, _ => m

/-- The memory in which the block `n`, if there is one, is preceded by `l`. -/
def linkPrev (m : Memory) : Option Nat → Option Nat → Memory
  | some n, l => m.setPrev n l
  | none, _ => m

theorem changesOnly_linkNext : Memory.ChangesOnly (fun a => ∃ p ∈ prev, a = p + 32) m
    (linkNext m prev next) := by
  cases prev with
  | none => exact .refl _ _
  | some p => exact Memory.changesOnly_setNext.mono fun a ha => ⟨p, rfl, ha⟩

theorem changesOnly_linkPrev : Memory.ChangesOnly (fun a => ∃ n ∈ next, a = n + 40) m
    (linkPrev m next prev) := by
  cases next with
  | none => exact .refl _ _
  | some n => exact Memory.changesOnly_setPrev.mono fun a ha => ⟨n, rfl, ha⟩

theorem changesOnly_linkNext_getLast {l : Option Nat} :
    Memory.ChangesOnly (LinkWord xs) m (linkNext m xs.getLast? l) :=
  changesOnly_linkNext.mono fun _ ⟨p, hp, ha⟩ => ⟨p, List.mem_of_mem_getLast? hp, .inl ha⟩

theorem changesOnly_linkPrev_head {l : Option Nat} :
    Memory.ChangesOnly (LinkWord xs) m (linkPrev m xs.head? l) :=
  changesOnly_linkPrev.mono fun _ ⟨n, hn, ha⟩ => ⟨n, List.mem_of_mem_head? hn, .inr ha⟩

/-- The last of these blocks, if there is one, takes another successor. -/
theorem linked_linkNext {l : Option Nat} (h : Linked m prev xs next) (hapart : xs.Pairwise Apart)
    (hword : ∀ y ∈ l, 0 < y ∧ y < Word.limit) : Linked (linkNext m xs.getLast? l) prev xs l := by
  rcases xs.eq_nil_or_concat' with rfl | ⟨us, p, rfl⟩
  · trivial
  rw [List.getLast?_concat]
  have hc : Memory.ChangesOnly (· = p + 32) m (linkNext m (some p) l) := Memory.changesOnly_setNext
  refine h.relink_next (Memory.link_setNext hword) (hc.link (by omega)) ?_
  intro z hz
  have hzp : Apart z p := hapart.rel_of_mem_append hz List.mem_cons_self
  rw [apart_iff] at hzp
  exact ⟨hc.link (by omega), hc.link (by omega)⟩

/-- The first of these blocks, if there is one, takes another predecessor. -/
theorem linked_linkPrev {l : Option Nat} (h : Linked m prev xs next) (hapart : xs.Pairwise Apart)
    (hword : ∀ y ∈ l, 0 < y ∧ y < Word.limit) : Linked (linkPrev m xs.head? l) l xs next := by
  cases xs with
  | nil => trivial
  | cons n vs =>
    have hc : Memory.ChangesOnly (· = n + 40) m (linkPrev m (some n) l) :=
      Memory.changesOnly_setPrev
    refine h.relink_prev (Memory.link_setPrev hword) (hc.link (by omega)) ?_
    intro z hz
    have hnz : Apart n z := (List.pairwise_cons.mp hapart).1 z hz
    rw [apart_iff] at hnz
    exact ⟨hc.link (by omega), hc.link (by omega)⟩

theorem pushFront_eq {head : Option Nat} (hb : m.requireFree b = .ok ())
    (hn : ∀ n ∈ head, ((m.setPrev b none).setNext b head).requireFree n = .ok ()) :
    pushFront ⟨head⟩ b m =
      .ok ⟨some b⟩ (linkPrev ((m.setPrev b none).setNext b head) head (some b)) := by
  cases head with
  | none =>
    simp only [pushFront, run_bind, run_get, hb, run_ofExcept_ok, run_modify]
    rfl
  | some n =>
    have hn' : ((m.setPrev b none).setNext b (some n)).requireFree n = .ok () := hn n rfl
    simp only [pushFront, run_bind, run_get, hb, run_ofExcept_ok, run_modify, hn']
    rfl

theorem pushFront_run (h : Listable m (b :: xs)) (hl : Linked m none xs none) :
    ∃ m', pushFront ⟨xs.head?⟩ b m = .ok ⟨some b⟩ m' ∧ Linked m' none (b :: xs) none ∧
      Memory.ChangesOnly (LinkWord (b :: xs.head?.toList)) m m' := by
  have hxs := h.of_sublist (List.sublist_cons_self b xs)
  have hbx : ∀ y ∈ xs, Apart b y := (List.pairwise_cons.mp h.apart).1
  -- the links of `b`
  let m₁ := (m.setPrev b none).setNext b xs.head?
  have hm₁ : Memory.ChangesOnly (LinkWord [b]) m m₁ :=
    (Memory.changesOnly_setPrev.mono fun _ ha => ⟨b, List.mem_singleton_self b, .inr ha⟩).trans
      (Memory.changesOnly_setNext.mono fun _ ha => ⟨b, List.mem_singleton_self b, .inl ha⟩)
  have hnext : m₁.link (b + 32) = xs.head? := Memory.link_setNext hxs.head_word
  have hprev : m₁.link (b + 40) = none :=
    (Memory.changesOnly_setNext.link (by omega)).trans (Memory.link_setPrev (l := none) nofun)
  have hlist₁ : Listable m₁ (b :: xs) :=
    h.of_linkWord (List.cons_subset.mpr ⟨List.mem_cons_self, List.nil_subset _⟩) hm₁
  have hl₁ : Linked m₁ none xs none := hl.of_apart hm₁ fun y hy z hz => by
    rw [List.mem_singleton.mp hz]
    exact (hbx y hy).symm
  -- and the link to it
  let m₂ := linkPrev m₁ xs.head? (some b)
  have hm₂ : Memory.ChangesOnly (fun a => ∃ n ∈ xs.head?, a = n + 40) m₁ m₂ :=
    changesOnly_linkPrev
  have hl₂ : Linked m₂ (some b) xs none := linked_linkPrev hl₁ hxs.apart fun y hy => by
    cases hy
    exact h.word b List.mem_cons_self
  have hkeep : ∀ a, a = b + 32 ∨ a = b + 40 → m₂.link a = m₁.link a := by
    intro a ha
    refine hm₂.link ?_
    rintro ⟨n, hn, hna⟩
    have := hbx n (List.mem_of_mem_head? hn)
    rw [apart_iff] at this
    omega
  refine ⟨m₂, pushFront_eq (h.requireFree_run List.mem_cons_self) ?_, ⟨?_, ?_, hl₂⟩, ?_⟩
  · exact fun n hn =>
      hlist₁.requireFree_run (List.mem_cons_of_mem b (List.mem_of_mem_head? hn))
  · exact (hkeep _ (.inr rfl)).trans hprev
  · rw [Option.or_none]
    exact (hkeep _ (.inl rfl)).trans hnext
  · refine (hm₁.mono ?_).trans (hm₂.mono ?_)
    · rintro a ⟨x, hx, ha⟩
      exact ⟨x, List.mem_cons.mpr (.inl (List.mem_singleton.mp hx)), ha⟩
    · rintro a ⟨n, hn, hna⟩
      exact ⟨n, List.mem_cons_of_mem b (Option.mem_toList.mpr hn), .inr hna⟩

theorem remove_eq {l : FreeList} (hb : m.links b = .ok { next, prev })
    (hp : ∀ p ∈ prev, m.requireFree p = .ok ())
    (hn : ∀ n ∈ next, (linkNext m prev next).requireFree n = .ok ()) :
    remove l b m = .ok (if l.head = some b then { head := next } else l)
      (linkPrev (linkNext m prev next) next prev) := by
  cases prev with
  | none =>
    cases next with
    | none =>
      simp only [remove, run_bind, run_get, hb, run_ofExcept_ok]
      rfl
    | some n =>
      have hn' : m.requireFree n = .ok () := hn n rfl
      simp only [remove, run_bind, run_get, hb, run_ofExcept_ok, hn', run_modify]
      rfl
  | some p =>
    have hp' := hp p rfl
    cases next with
    | none =>
      simp only [remove, run_bind, run_get, hb, run_ofExcept_ok, hp', run_modify]
      rfl
    | some n =>
      have hn' : (m.setNext p (some n)).requireFree n = .ok () := hn n rfl
      simp only [remove, run_bind, run_get, hb, run_ofExcept_ok, hp', run_modify, hn']
      rfl

/-- The list starts with what comes after an entry that was the first, and else as before. -/
theorem head_of_nodup_append (h : (us ++ b :: vs).Nodup) :
    (if (us ++ b :: vs).head? = some b then { head := vs.head? }
      else ⟨(us ++ b :: vs).head?⟩ : FreeList) = ⟨(us ++ vs).head?⟩ := by
  cases us with
  | nil => simp
  | cons x us =>
    have hne : x ≠ b := fun e =>
      (List.nodup_cons.mp h).1 (e ▸ List.mem_append_right us List.mem_cons_self)
    simp [hne]

/-- The blocks before and after an entry are linked once each of them has the link that the entry
had to the other. -/
theorem linked_join (h : Listable m (us ++ b :: vs)) (hl : Linked m none (us ++ b :: vs) none) :
    Linked (linkPrev (linkNext m us.getLast? vs.head?) vs.head? us.getLast?) none (us ++ vs)
      none := by
  obtain ⟨hus, -, -, hvs⟩ := Linked.append_iff.mp hl
  obtain ⟨hapartUs, hapartVs, -⟩ := List.pairwise_append.mp h.apart
  have huw := (h.of_sublist (List.sublist_append_left us _)).getLast_word
  have hvw := (h.of_sublist ((List.sublist_cons_self b vs).trans
    (List.sublist_append_right us _))).head_word
  have happart : ∀ x ∈ us, ∀ y ∈ vs, Apart x y := fun x hx y hy =>
    h.apart.rel_of_mem_append hx (List.mem_cons_of_mem b hy)
  have hus₁ := linked_linkNext hus hapartUs hvw
  have hvs₁ : Linked (linkNext m us.getLast? vs.head?) (some b) vs none :=
    hvs.of_apart changesOnly_linkNext_getLast fun y hy x hx => (happart x hx y hy).symm
  rw [Linked.append_iff, Option.or_none, Option.or_none]
  exact ⟨hus₁.of_apart changesOnly_linkPrev_head happart,
    linked_linkPrev hvs₁ hapartVs.of_cons huw⟩

/-- Taking a block out, wherever it stands. -/
theorem remove_run (h : Listable m xs) (hl : Linked m none xs none) (hb : b ∈ xs) :
    ∃ m', remove ⟨xs.head?⟩ b m = .ok ⟨(xs.erase b).head?⟩ m' ∧
      Linked m' none (xs.erase b) none ∧
      Memory.ChangesOnly (fun a => ∃ y, Beside xs b y ∧ (a = y + 32 ∨ a = y + 40)) m m' := by
  have hlinks := h.links_run hb
  obtain ⟨us, vs, rfl⟩ := List.append_of_mem hb
  rw [erase_of_nodup_append h.nodup]
  obtain ⟨hprev, hnext⟩ := hl.links_append
  rw [hprev, hnext] at hlinks
  refine ⟨_, (remove_eq hlinks ?_ ?_).trans ?_, linked_join h hl, ?_⟩
  · exact fun p hp => h.requireFree_run (List.mem_append_left _ (List.mem_of_mem_getLast? hp))
  · -- the tag of the block after `b` is read once the block before it is linked
    intro n hn
    have hlist := h.of_linkWord (List.subset_append_left us _)
      (changesOnly_linkNext_getLast (l := vs.head?))
    exact hlist.requireFree_run
      (List.mem_append_right _ (List.mem_cons_of_mem _ (List.mem_of_mem_head? hn)))
  · rw [head_of_nodup_append h.nodup]
  · refine (changesOnly_linkNext.mono ?_).trans (changesOnly_linkPrev.mono ?_)
    · rintro a ⟨p, hp, e⟩
      exact ⟨p, ⟨us, vs, rfl, .inl hp⟩, .inl e⟩
    · rintro a ⟨n, hn, e⟩
      exact ⟨n, ⟨us, vs, rfl, .inr hn⟩, .inr e⟩

/-! ### Walks -/

/-- A walk of `n` steps sees the first `n` blocks. -/
theorem takeFrom_run (h : Listable m xs) (hl : Linked m prev xs none) (n : Nat) :
    takeFrom m n xs.head? = .ok (xs.take n) := by
  induction xs generalizing prev n with
  | nil => cases n <;> rfl
  | cons x xs ih =>
    cases n with
    | zero => rfl
    | succ n =>
      have hnext : m.link (x + 32) = xs.head? := hl.2.1.trans (Option.or_none ..)
      rw [List.head?_cons, takeFrom, h.links_run List.mem_cons_self, ok_bind]
      dsimp only
      rw [hnext, ih (h.of_sublist (List.sublist_cons_self x xs)) hl.2.2]
      rfl

theorem lengthFrom_run (h : Listable m xs) (hl : Linked m prev xs none) {n : Nat}
    (hn : xs.length ≤ n) : lengthFrom m n xs.head? = .ok xs.length := by
  induction xs generalizing prev n with
  | nil => cases n <;> rfl
  | cons x xs ih =>
    obtain ⟨n, rfl⟩ := Nat.exists_eq_add_of_le' (Nat.le_trans (Nat.succ_pos _) hn)
    have hnext : m.link (x + 32) = xs.head? := hl.2.1.trans (Option.or_none ..)
    rw [List.head?_cons, lengthFrom, h.links_run List.mem_cons_self, ok_bind]
    dsimp only
    rw [hnext, ih (h.of_sublist (List.sublist_cons_self x xs)) hl.2.2 (Nat.le_of_succ_le_succ hn)]
    rfl

/-- First fit finds the first block of a list that is long enough. -/
theorem firstFitFrom_run (h : Listable m xs) (hl : Linked m prev xs none) {n : Nat}
    (hn : xs.length ≤ n) (needed : Nat) (hspan : ∀ x ∈ xs, headerSize ≤ m.forward x) :
    firstFitFrom m needed n xs.head? =
      .ok (xs.find? fun x => needed + headerSize ≤ m.forward x) := by
  induction xs generalizing prev n with
  | nil => cases n <;> rfl
  | cons x xs ih =>
    obtain ⟨n, rfl⟩ := Nat.exists_eq_add_of_le' (Nat.le_trans (Nat.succ_pos _) hn)
    have hnext : m.link (x + 32) = xs.head? := hl.2.1.trans (Option.or_none ..)
    have hx := hspan x List.mem_cons_self
    have hsize : m.payloadSize x = .ok (m.forward x - headerSize) :=
      Word.sub_eq_ok_iff.mpr ⟨hx, rfl⟩
    rw [List.head?_cons, firstFitFrom, h.links_run List.mem_cons_self, ok_bind]
    dsimp only
    rw [hsize, ok_bind, hnext, ih (h.of_sublist (List.sublist_cons_self x xs)) hl.2.2
      (Nat.le_of_succ_le_succ hn) fun y hy => hspan y (List.mem_cons_of_mem x hy),
      List.find?_cons]
    by_cases hfit : needed + headerSize ≤ m.forward x
    · rw [if_pos (by omega), decide_eq_true hfit]
      rfl
    · rw [if_neg (by omega), decide_eq_false hfit]

/-- Blocks that do not overlap are fewer than a walk may visit. -/
theorem length_le_maxLength (h : Listable m xs) : xs.length ≤ maxLength := by
  have hnodup : (xs.map (· / 48)).Nodup := List.pairwise_map.mpr <| h.apart.imp fun {x y} hxy => by
    rw [apart_iff] at hxy
    omega
  have hsub : xs.map (· / 48) ⊆ List.range (Word.limit / 48 + 1) := by
    intro q hq
    obtain ⟨x, hx, rfl⟩ := List.mem_map.mp hq
    have := (h.word x hx).2
    exact List.mem_range.mpr (by omega)
  have hle := hnodup.length_le_of_subset hsub
  rw [List.length_map, List.length_range] at hle
  exact Nat.le_trans hle (by decide)

end FreeList

end BoundaryTag
