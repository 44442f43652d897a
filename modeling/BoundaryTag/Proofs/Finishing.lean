import BoundaryTag.Proofs.Verdicts

/-!
# Checks of any memory

A check reads some headers without a test that there can be one: those to which backward offsets and
the links of the free list lead (`Reads`). As long as the offsets that it follows lead to no address
out of the words, it comes to its end exactly if these headers are aligned, whatever else the words
in memory are (`check_returns_iff`). No block needs to be where the headers say, and no link needs to
lead to a block.

Each walk has its own reason to end. Forwards the rest of the region shrinks. Back the addresses
fall, though the headers on the way may be none that the walk forwards came to. Along the free list
each entry is another address of the regions, and the count back takes no more steps than there are
entries. An entry whose links cannot be read, or that leads nowhere new, ends the walk along the
list, and nothing is reported after it.

Where offsets may lead out of the words, the walk back ends if the terminator leads nowhere: each
header on the way leads forwards to the one before, so that the walk could come to a header again
only through the terminator (`check_ne_endlessWalk`).
-/

namespace BoundaryTag

/-- Whether the walk along the free list stops at what it found. -/
def Violation.endsWalk : Violation → Bool
  | freeListCycle _ | foreignFreeEntry _ | allocatedOnFreeList _ => true
  | _ => false

namespace Check

/-- The walk forwards goes on from the header at `b`. -/
def GoesForth (m : Memory) (r : Region) (b : Nat) : Prop :=
  b ≠ r.terminator ∧ (r.base ≤ b ∧ b < r.base + r.size) ∧ m.forward b % 16 = 0 ∧ 32 ≤ m.forward b

/-- The walk back goes on from the header at `b`. -/
def GoesBack (m : Memory) (r : Region) (b : Nat) : Prop :=
  m.backward b ≠ 0 ∧ (r.base ≤ m.previous b ∧ m.previous b < r.base + r.size) ∧
    m.next (m.previous b) = b

/-- The headers that the walk forwards comes to. -/
inductive Ahead (m : Memory) (r : Region) : Nat → Prop
  | first (h : m.backward r.base = 0) : Ahead m r r.base
  | next {b : Nat} (hb : Ahead m r b) (h : GoesForth m r b) : Ahead m r (m.next b)

/-- The headers that the walk back comes to, which starts where the walk forwards has to end. -/
inductive Behind (m : Memory) (r : Region) : Nat → Prop
  | last (h : Ahead m r r.terminator) : Behind m r r.terminator
  | previous {b : Nat} (hb : Behind m r b) (h : GoesBack m r b) : Behind m r (m.previous b)

/-- The headers that the walks through a region read without a test that there can be one: the first
one, and those in the region to which the walk back comes or would go. -/
inductive ReadsIn (m : Memory) (r : Region) : Nat → Prop
  | first : ReadsIn m r r.base
  | previous {b : Nat} (hb : Behind m r b) (h : m.backward b ≠ 0)
      (hinside : r.base ≤ m.previous b ∧ m.previous b < r.base + r.size) :
      ReadsIn m r (m.previous b)

/-- The walk along the free list goes on from the entry at `b`. -/
def GoesOn (m : Memory) (rs : List Region) (b : Nat) : Prop :=
  (∃ r ∈ rs, r.base ≤ b ∧ b < r.base + r.size) ∧ m.tag b = .free

/-- The entries that the walk along the free list from `head` on comes to. -/
inductive Entry (m : Memory) (rs : List Region) (head : Option Nat) : Nat → Prop
  | first {b : Nat} (h : head = some b) : Entry m rs head b
  | next {b c : Nat} (hb : Entry m rs head b) (h : GoesOn m rs b) (hc : m.link (b + 32) = some c) :
      Entry m rs head c

/-- The headers that a check reads without a test that there can be one. Entries outside of the
regions are not read. -/
inductive Reads (m : Memory) (rs : List Region) (head : Option Nat) : Nat → Prop
  | region {r : Region} {a : Nat} (hr : r ∈ rs) (ha : ReadsIn m r a) : Reads m rs head a
  | entry {a : Nat} (ha : Entry m rs head a)
      (hinside : ∃ r ∈ rs, r.base ≤ a ∧ a < r.base + r.size) : Reads m rs head a

/-- The offsets that the walks through a region follow lead to no address out of the words. -/
structure Unwrapped (m : Memory) (r : Region) : Prop where
  forth : ∀ b, Ahead m r b → GoesForth m r b → b + m.forward b < Word.limit
  back : ∀ b, Behind m r b → m.backward b ≤ b

variable {m : Memory} {r : Region} {rs : List Region} {listed found : List Nat} {b n stop p : Nat}
  {previous head : Option Nat}

/-! ### Ends of a check -/

section
variable {α β : Type} {F G : Fault → Prop} {P Q : α → Prop} {R : β → Prop} {e : Except Fault α}
  {k : α → Except Fault β}

/-- What comes of a part of a check: a result of which `P` holds, or a fault of which `F` holds. -/
def Ends (F : Fault → Prop) (P : α → Prop) : Except Fault α → Prop
  | .ok a => P a
  | .error fault => F fault

theorem Ends.bind (he : Ends F P e) (hk : ∀ a, P a → Ends F R (k a)) : Ends F R (e >>= k) := by
  cases e with
  | ok a => exact hk a he
  | error fault => exact he

theorem Ends.mono (he : Ends F P e) (hF : ∀ fault, F fault → G fault) (hP : ∀ a, P a → Q a) :
    Ends G Q e := by
  cases e with
  | ok a => exact hP a he
  | error fault => exact hF fault he

theorem Ends.ne_error {fault : Fault} (he : Ends (· ≠ fault) P e) : e ≠ .error fault := by
  rintro rfl
  exact he rfl

/-- The fault of a read of one of the addresses `A`, where there can be no header. -/
def Misread (A : Nat → Prop) (fault : Fault) : Prop :=
  ∃ a, A a ∧ a % 16 ≠ 0 ∧ fault = .misalignedHeader a

theorem Misread.mono {A B : Nat → Prop} {fault : Fault} (h : Misread A fault)
    (hsub : ∀ a, A a → B a) : Misread B fault :=
  let ⟨a, ha, hal, hfault⟩ := h
  ⟨a, hsub a ha, hal, hfault⟩

theorem Misread.ne_endlessWalk {A : Nat → Prop} {fault : Fault} (h : Misread A fault) :
    fault ≠ .endlessWalk := by
  obtain ⟨_, -, -, rfl⟩ := h
  nofun

theorem requireAligned_ends {A : Nat → Prop} (hb : A b) :
    Ends (Misread A) (fun _ => b % 16 = 0) (requireAligned b) := by
  unfold requireAligned
  split
  · assumption
  · exact ⟨b, hb, ‹_›, rfl⟩

end

/-! ### Blocks of a region -/

/-- What is looked at in one place is in order, or else one violation that stops nothing. -/
theorem endsWalk_of_ite {P : Prop} [Decidable P] {found : Violation} (h : found.endsWalk = false) :
    ∀ v ∈ (if P then [] else [found]), v.endsWalk = false := by
  split
  · exact List.forall_mem_nil _
  · exact List.forall_mem_singleton.mpr h

theorem endsWalk_of_backLink {p : Nat} : ∀ v ∈ backLink m p b, v.endsWalk = false :=
  endsWalk_of_ite rfl

theorem endsWalk_of_adjacency {p : Nat} : ∀ v ∈ adjacency m p b, v.endsWalk = false :=
  List.forall_mem_append.mpr ⟨endsWalk_of_backLink, endsWalk_of_ite rfl⟩

/-- The walk forwards ends, and at the terminator only if that is ahead. -/
theorem walkForward_returns (hu : Unwrapped m r) (hb : Ahead m r b)
    (hforward : isForward previous b = true) :
    ∃ walk, walkForward m r (r.base + r.size) previous b = .ok walk ∧
      (walk.complete = true → Ahead m r r.terminator) ∧
      ∀ v ∈ walk.violations, v.endsWalk = false := by
  induction previous, b using walkForward.induct m r (r.base + r.size) with
  | case1 previous hback =>
    rw [hforward] at hback
    cases hback
  | case2 previous _ =>
    rw [walkForward, if_pos rfl, hforward]
    refine ⟨_, rfl, fun _ => hb, ?_⟩
    cases previous with
    | none => exact List.forall_mem_nil _
    | some p => exact endsWalk_of_backLink
  | case3 previous b hne hinside hgood hforward' ih =>
    have hgoes : GoesForth m r b := ⟨hne, ⟨hinside.1, hinside.2.1⟩, hgood⟩
    have hnext : m.next b = b + m.forward b := Word.addWrap_of_lt (hu.forth b hb hgoes)
    have hroom : 32 ≤ m.forward b := hgood.2
    obtain ⟨rest, hrest, hcomplete, hquiet⟩ := ih (hb.next hgoes)
      (isForward_iff.mpr fun p hp => by cases hp; omega)
    rw [walkForward, if_neg hne, dif_pos hinside, if_pos hgood, dif_pos hforward', hrest]
    refine ⟨_, rfl, hcomplete, List.forall_mem_append.mpr ⟨?_, hquiet⟩⟩
    cases previous with
    | none => exact List.forall_mem_nil _
    | some p => exact endsWalk_of_adjacency
  | case4 previous b hne hinside hgood hback => exact absurd hforward hback
  | case5 previous b hne hinside hbad =>
    rw [walkForward, if_neg hne, dif_pos hinside, if_neg hbad]
    exact ⟨_, rfl, (absurd · Bool.false_ne_true), List.forall_mem_singleton.mpr rfl⟩
  | case6 previous b hne houtside =>
    rw [walkForward, if_neg hne, dif_neg houtside]
    exact ⟨_, rfl, (absurd · Bool.false_ne_true), List.forall_mem_singleton.mpr rfl⟩

theorem leadsTo_ends {A : Nat → Prop} (hread : r.base ≤ p ∧ p < r.base + r.size → A p) :
    Ends (Misread A)
      (fun goes => goes = true → (r.base ≤ p ∧ p < r.base + r.size) ∧ m.next p = b)
      (leadsTo m r (r.base + r.size) p b) := by
  unfold leadsTo
  split
  · rename_i hinside
    exact (requireAligned_ends (hread hinside)).bind fun _ _ hgoes =>
      ⟨hinside, of_decide_eq_true hgoes⟩
  · nofun

/-- The walk back ends, since each header on the way is at a lower address. -/
theorem walkBack_ends (hu : Unwrapped m r) (hlt : r.base + r.size < Word.limit)
    (hb : Behind m r b) (hbase : r.base ≤ b) (hstop : b ≤ r.base + r.size) (hn : b < r.base + n) :
    Ends (Misread (ReadsIn m r)) (∀ v ∈ ·, v.endsWalk = false)
      (walkBack m r (r.base + r.size) n b) := by
  induction n generalizing b with
  | zero => omega
  | succ n ih =>
    rw [walkBack]
    split
    · exact endsWalk_of_ite rfl
    rename_i hsentinel
    have hnonzero : m.backward b ≠ 0 := fun hzero => hsentinel (decide_eq_true hzero)
    have hle := hu.back b hb
    have hprevious : m.previous b = b - m.backward b := Word.subWrap_of_le hle (by omega)
    refine (leadsTo_ends (.previous hb hnonzero)).bind fun goes hgoes => ?_
    cases goes with
    | false => exact List.forall_mem_singleton.mpr rfl
    | true =>
      have hback := hgoes rfl
      exact ih (hb.previous ⟨hnonzero, hback⟩) hback.1.1 (by omega) (by omega)

theorem region_ends (hu : Unwrapped m r) (hlt : r.base + r.size < Word.limit) :
    Ends (Misread (ReadsIn m r)) (∀ v ∈ ·.violations, v.endsWalk = false) (region m r) := by
  have hend : r.terminator ≤ r.base + r.size := by
    unfold Region.terminator
    omega
  refine (requireAligned_ends .first).bind fun _ _ => ?_
  cases hfirst : m.isSentinel r.sentinel with
  | false => exact List.forall_mem_singleton.mpr rfl
  | true =>
  obtain ⟨there, hthere, hcomplete, hquiet⟩ :=
    walkForward_returns hu (.first (of_decide_eq_true hfirst))
      (show isForward none r.sentinel = true from rfl)
  rw [stop_run hlt]
  show Ends _ _ (walkForward m r _ none r.base >>= _)
  rw [hthere]
  show Ends _ _ (if there.complete = true then _ else _)
  split
  · rename_i hthrough
    exact (walkBack_ends hu hlt (.last (hcomplete hthrough)) (Nat.le_add_right _ _) hend
      (by omega)).bind fun back hback => List.forall_mem_append.mpr ⟨hquiet, hback⟩
  · exact hquiet

theorem regions_ends {F : Fault → Prop} {P : Violation → Prop}
    (h : ∀ r ∈ rs, Ends F (∀ v ∈ ·.violations, P v) (region m r)) :
    Ends F (∀ v ∈ ·.1, P v) (regions m rs) := by
  induction rs with
  | nil => exact List.forall_mem_nil P
  | cons r rs ih =>
    obtain ⟨hr, hrs⟩ := List.forall_mem_cons.mp h
    exact hr.bind fun walk hwalk => (ih hrs).bind fun rest hrest =>
      List.forall_mem_append.mpr ⟨hwalk, hrest⟩

/-! ### The free list -/

theorem anyContains_returns (hlt : ∀ r ∈ rs, r.base + r.size < Word.limit) (b : Nat) :
    ∃ inside, rs.anyM (·.contains b) = .ok inside := by
  induction rs with
  | nil => exact ⟨false, rfl⟩
  | cons r rs ih =>
    obtain ⟨hr, hrs⟩ := List.forall_mem_cons.mp hlt
    rw [List.anyM_cons, contains_run hr, ok_bind]
    split
    · exact ⟨true, rfl⟩
    · exact ih hrs

/-- Of some violations at most the last one stops the walk along the free list. -/
def EndAtMost (vs : List Violation) : Prop := ∀ v ∈ vs.dropLast, v.endsWalk = false

theorem EndAtMost.append {vs ws : List Violation} (hws : EndAtMost ws)
    (hvs : ∀ v ∈ vs, v.endsWalk = false) : EndAtMost (vs ++ ws) := by
  rcases ws.eq_nil_or_concat' with rfl | ⟨ws, w, rfl⟩
  · rw [List.append_nil]
    exact fun v hv => hvs v (List.dropLast_subset _ hv)
  · unfold EndAtMost at *
    rw [← List.append_assoc, List.dropLast_concat]
    rw [List.dropLast_concat] at hws
    exact List.forall_mem_append.mpr ⟨hvs, hws⟩

/-- The walk along the free list ends, since the entries are distinct addresses of the regions. It
comes to the end of the list only if they are aligned and tagged free. -/
theorem walkFree_ends {next : Option Nat} (hlt : ∀ r ∈ rs, r.base + r.size < Word.limit)
    (hnext : ∀ b ∈ next, Entry m rs head b) (hnodup : listed.Nodup)
    (hspanned : ∀ x ∈ listed, ∃ r ∈ rs, r.base ≤ x ∧ x < r.base + r.size)
    (hfree : ∀ x ∈ listed, x % 16 = 0 ∧ m.tag x = .free)
    (hn : Region.totalSize rs < listed.length + n) :
    Ends (Misread (Reads m rs head)) (fun found => EndAtMost found.1 ∧
        ∀ xs, found.2 = some xs → (∀ v ∈ found.1, v.endsWalk = false) ∧
          ∀ x ∈ xs, x % 16 = 0 ∧ m.tag x = .free)
      (walkFree m rs n listed next) := by
  induction n generalizing listed next with
  | zero =>
    have := length_le_totalSize hnodup hspanned
    omega
  | succ n ih =>
    cases next with
    | none =>
      refine ⟨List.forall_mem_nil _, ?_⟩
      rintro _ ⟨⟩
      exact ⟨List.forall_mem_nil _, hfree⟩
    | some b =>
    have hstop (v : Violation) : EndAtMost [v] ∧ ∀ xs, (none : Option (List Nat)) = some xs →
        (∀ w ∈ [v], w.endsWalk = false) ∧ ∀ x ∈ xs, x % 16 = 0 ∧ m.tag x = .free := by
      refine ⟨List.forall_mem_nil _, ?_⟩
      rintro _ ⟨⟩
    rw [walkFree]
    by_cases hmem : b ∈ listed
    · rw [if_pos hmem]
      exact hstop _
    rw [if_neg hmem]
    obtain ⟨inside, hcontains⟩ := anyContains_returns hlt b
    rw [hcontains, ok_bind]
    cases inside with
    | false => exact hstop _
    | true =>
    have hinside := exists_of_anyContains hcontains
    have hb := hnext b rfl
    refine (requireAligned_ends (.entry hb hinside)).bind fun _ hal => ?_
    cases htag : m.tag b with
    | allocated =>
      rw [show m.isAllocated b = true from decide_eq_true htag]
      exact hstop _
    | free =>
    rw [isAllocated_eq_false_iff.mpr htag, Memory.links_run hal htag]
    refine (ih (fun c hc => hb.next ⟨hinside, htag⟩ hc) (List.nodup_cons.mpr ⟨hmem, hnodup⟩)
      (List.forall_mem_cons.mpr ⟨hinside, hspanned⟩)
      (List.forall_mem_cons.mpr ⟨⟨hal, htag⟩, hfree⟩)
      (by rw [List.length_cons]; omega)).bind ?_
    rintro ⟨vs, entries⟩ ⟨hend, hentries⟩
    have hhere : ∀ v ∈ (if m.link (b + 40) = listed.head? then []
        else [Violation.brokenFreeLink b listed.head? (m.link (b + 40))]), v.endsWalk = false :=
      endsWalk_of_ite rfl
    refine ⟨hend.append hhere, fun xs hxs => ?_⟩
    obtain ⟨hquiet, hxsfree⟩ := hentries xs hxs
    exact ⟨List.forall_mem_append.mpr ⟨hhere, hquiet⟩, hxsfree⟩

/-- The count back ends, and reads the links of entries only. -/
theorem lengthBack_returns (hfree : ∀ x ∈ listed, x % 16 = 0 ∧ m.tag x = .free) (n : Nat) :
    ∀ last : Option Nat, (∀ x ∈ last, x ∈ listed) → ∃ k, lengthBack m listed n last = .ok k := by
  induction n with
  | zero => rintro (_ | b) - <;> exact ⟨_, rfl⟩
  | succ n ih =>
    rintro (_ | b) hlast
    · exact ⟨0, rfl⟩
    obtain ⟨k, hk⟩ := ih ((m.link (b + 40)).filter (· ∈ listed)) fun x hx =>
      of_decide_eq_true (Option.filter_eq_some_iff.mp hx).2
    obtain ⟨hal, htag⟩ := hfree b (hlast b rfl)
    rw [lengthBack, Memory.links_run hal htag, ok_bind]
    dsimp only
    rw [hk]
    exact ⟨k + 1, rfl⟩

theorem freeList_ends (m : Memory) (hlt : ∀ r ∈ rs, r.base + r.size < Word.limit)
    (free : FreeList) (found : List Nat) :
    Ends (Misread (Reads m rs free.head)) EndAtMost (freeList m rs free found) := by
  have hsteps : Region.totalSize rs < ([] : List Nat).length + (Region.totalSize rs + 1) := by simp
  unfold freeList
  refine (walkFree_ends hlt (fun b hb => .first hb) .nil nofun nofun hsteps).bind ?_
  rintro ⟨vs, entries⟩ ⟨hend, hentries⟩
  cases entries with
  | none => exact hend
  | some listed =>
    obtain ⟨hquiet, hfree⟩ := hentries listed rfl
    obtain ⟨back, hback⟩ := lengthBack_returns hfree listed.length listed.head?
      fun x hx => List.mem_of_mem_head? hx
    dsimp only
    rw [hback]
    refine EndAtMost.append ?_ (List.forall_mem_append.mpr ⟨hquiet, endsWalk_of_ite rfl⟩)
    intro v hv
    obtain ⟨x, -, rfl⟩ := List.mem_map.mp (List.dropLast_subset _ hv)
    rfl

/-! ### What a check that returns has read -/

theorem leadsTo_eq_ok {goes : Bool} (hinside : r.base ≤ p ∧ p < stop)
    (hrun : leadsTo m r stop p b = .ok goes) : p % 16 = 0 ∧ goes = decide (m.next p = b) := by
  unfold leadsTo at hrun
  rw [if_pos hinside] at hrun
  obtain ⟨⟨⟩, hrequire, hgoes⟩ := except_bind_eq_ok_iff.mp hrun
  exact ⟨requireAligned_eq_ok_iff.mp hrequire, (Except.ok.inj hgoes).symm⟩

/-- The walk back looks at what is before a header that is not the first. -/
theorem walkBack_eq_ok {vs : List Violation} (h : m.backward b ≠ 0)
    (hrun : walkBack m r stop n b = .ok vs) :
    ∃ k goes, leadsTo m r stop (m.previous b) b = .ok goes ∧
      (goes = true → walkBack m r stop k (m.previous b) = .ok vs) := by
  cases n with
  | zero => cases hrun
  | succ k =>
    rw [walkBack, show m.isSentinel b = false from decide_eq_false h] at hrun
    obtain ⟨goes, hleads, hrun⟩ := except_bind_eq_ok_iff.mp hrun
    exact ⟨k, goes, hleads, fun hgoes => by rwa [if_pos hgoes] at hrun⟩

/-- There is nothing ahead in a region that does not start with its first header. -/
theorem Ahead.backward_base (h : Ahead m r b) : m.backward r.base = 0 := by
  induction h with
  | first h => exact h
  | next _ _ ih => exact ih

/-- The walk forwards comes to each header that is ahead. -/
theorem walkForward_of_ahead {walk : Walk} (hu : Unwrapped m r)
    (hrun : walkForward m r (r.base + r.size) none r.base = .ok walk) (hb : Ahead m r b) :
    ∃ previous rest, walkForward m r (r.base + r.size) previous b = .ok rest ∧
      isForward previous b = true ∧ rest.complete = walk.complete := by
  induction hb with
  | first => exact ⟨none, walk, hrun, rfl, rfl⟩
  | @next b hb h ih =>
    obtain ⟨previous, rest, hrest, hforward, hcomplete⟩ := ih
    have hnext : m.next b = b + m.forward b := Word.addWrap_of_lt (hu.forth b hb h)
    obtain ⟨hne, hinside, hgood⟩ := h
    have hroom : 32 ≤ m.forward b := hgood.2
    rw [walkForward, if_neg hne, dif_pos ⟨hinside.1, hinside.2, by omega⟩,
      if_pos (show m.forward b % alignment = 0 ∧ headerSize ≤ m.forward b from hgood),
      dif_pos hforward] at hrest
    obtain ⟨rest', hrest', hend⟩ := except_bind_eq_ok_iff.mp hrest
    cases hend
    exact ⟨some b, rest', hrest', isForward_iff.mpr fun p hp => by cases hp; omega, hcomplete⟩

/-- A check of a region that returns has come to each header that is behind, on its walk back. -/
theorem walkBack_of_behind {walk : Walk} (hu : Unwrapped m r) (hrun : region m r = .ok walk)
    (hb : Behind m r b) : ∃ n vs, walkBack m r (r.base + r.size) n b = .ok vs := by
  induction hb with
  | last hend =>
    unfold region at hrun
    obtain ⟨_, -, hrun⟩ := except_bind_eq_ok_iff.mp hrun
    rw [show m.isSentinel r.sentinel = true from decide_eq_true hend.backward_base] at hrun
    obtain ⟨stop, hstop, hrun⟩ := except_bind_eq_ok_iff.mp hrun
    obtain ⟨-, rfl⟩ := Word.add_eq_ok_iff.mp hstop
    obtain ⟨there, hthere, hrun⟩ := except_bind_eq_ok_iff.mp hrun
    obtain ⟨previous, rest, hrest, hforward, hcomplete⟩ := walkForward_of_ahead hu hthere hend
    rw [walkForward, if_pos rfl, hforward] at hrest
    cases hrest
    rw [← hcomplete] at hrun
    obtain ⟨back, hback, -⟩ := except_bind_eq_ok_iff.mp hrun
    exact ⟨_, back, hback⟩
  | previous _ h ih =>
    obtain ⟨n, vs, hback⟩ := ih
    obtain ⟨k, goes, hleads, hrest⟩ := walkBack_eq_ok h.1 hback
    obtain ⟨-, rfl⟩ := leadsTo_eq_ok h.2.1 hleads
    exact ⟨k, vs, hrest (decide_eq_true h.2.2)⟩

theorem region_aligned {walk : Walk} {a : Nat} (hu : Unwrapped m r)
    (hrun : region m r = .ok walk) (ha : ReadsIn m r a) : a % 16 = 0 := by
  cases ha with
  | first =>
    obtain ⟨⟨⟩, hrequire, -⟩ := except_bind_eq_ok_iff.mp hrun
    exact requireAligned_eq_ok_iff.mp hrequire
  | previous hb h hinside =>
    obtain ⟨n, vs, hback⟩ := walkBack_of_behind hu hrun hb
    obtain ⟨k, goes, hleads, -⟩ := walkBack_eq_ok h hback
    exact (leadsTo_eq_ok hinside hleads).1

theorem regions_eq_ok {res : List Violation × List Nat} (hrun : regions m rs = .ok res) :
    ∀ r ∈ rs, ∃ walk, region m r = .ok walk := by
  induction rs generalizing res with
  | nil => exact nofun
  | cons r rs ih =>
    obtain ⟨walk, hwalk, hrun⟩ := except_bind_eq_ok_iff.mp hrun
    obtain ⟨rest, hrest, -⟩ := except_bind_eq_ok_iff.mp hrun
    exact List.forall_mem_cons.mpr ⟨⟨walk, hwalk⟩, ih hrest⟩

/-- Some aligned entries in the regions among which the list stays as long as it is in them. -/
structure Closed (m : Memory) (rs : List Region) (F : List Nat) : Prop where
  aligned : ∀ x ∈ F, x % 16 = 0
  next : ∀ x ∈ F, m.tag x = .free → ∀ c, m.link (x + 32) = some c →
    (∃ r ∈ rs, r.base ≤ c ∧ c < r.base + r.size) → c ∈ F

/-- Entries from which no link leads to a further one in the regions are closed under the links. -/
theorem Closed.of_listed {next : Option Nat} (haligned : ∀ x ∈ listed, x % 16 = 0)
    (hnext : ∀ x ∈ listed, m.tag x = .free → ∀ c, m.link (x + 32) = some c →
      c ∈ listed ∨ next = some c)
    (hstop : ∀ b ∈ next, (∃ r ∈ rs, r.base ≤ b ∧ b < r.base + r.size) → b ∈ listed) :
    Closed m rs listed where
  aligned := haligned
  next x hx hfree c hc hinside := (hnext x hx hfree c hc).elim id fun h => hstop c h hinside

theorem Closed.of_end (haligned : ∀ x ∈ listed, x % 16 = 0)
    (hnext : ∀ x ∈ listed, m.tag x = .free → ∀ c, m.link (x + 32) = some c →
      c ∈ listed ∨ none = some c) : Closed m rs listed :=
  .of_listed haligned hnext fun b hb => absurd hb (Option.not_mem_none b)

/-- The walk stops at an entry that it has come to before. So it returns from entries that are closed
under the links, although it follows no link twice. -/
theorem closed_of_walkFree {next : Option Nat} {res : List Violation × Option (List Nat)}
    (hlt : ∀ r ∈ rs, r.base + r.size < Word.limit) (haligned : ∀ x ∈ listed, x % 16 = 0)
    (hnext : ∀ x ∈ listed, m.tag x = .free → ∀ c, m.link (x + 32) = some c →
      c ∈ listed ∨ next = some c)
    (hrun : walkFree m rs n listed next = .ok res) :
    ∃ F, Closed m rs F ∧ listed ⊆ F ∧
      ∀ b ∈ next, (∃ r ∈ rs, r.base ≤ b ∧ b < r.base + r.size) → b ∈ F := by
  induction n generalizing listed next res with
  | zero =>
    cases next with
    | none =>
      exact ⟨listed, .of_end haligned hnext, List.Subset.refl _, fun b hb =>
        absurd hb (Option.not_mem_none b)⟩
    | some b => cases hrun
  | succ n ih =>
    cases next with
    | none =>
      exact ⟨listed, .of_end haligned hnext, List.Subset.refl _, fun b hb =>
        absurd hb (Option.not_mem_none b)⟩
    | some b =>
    rw [walkFree] at hrun
    by_cases hmem : b ∈ listed
    · have hstop : ∀ c ∈ some b, (∃ r ∈ rs, r.base ≤ c ∧ c < r.base + r.size) → c ∈ listed := by
        rintro _ ⟨⟩ -
        exact hmem
      exact ⟨listed, .of_listed haligned hnext hstop, List.Subset.refl _, hstop⟩
    rw [if_neg hmem] at hrun
    obtain ⟨inside, hcontains, hrun⟩ := except_bind_eq_ok_iff.mp hrun
    cases inside with
    | false =>
      have hstop : ∀ c ∈ some b, (∃ r ∈ rs, r.base ≤ c ∧ c < r.base + r.size) → c ∈ listed := by
        rintro _ ⟨⟩ hinside
        cases hcontains.symm.trans (anyContains_run hlt hinside)
      exact ⟨listed, .of_listed haligned hnext hstop, List.Subset.refl _, hstop⟩
    | true =>
    obtain ⟨⟨⟩, hrequire, hrun⟩ := except_bind_eq_ok_iff.mp hrun
    have hal := requireAligned_eq_ok_iff.mp hrequire
    -- whether the walk goes on or not, the entry is one of those that it has come to
    suffices h : ∃ F, Closed m rs F ∧ b :: listed ⊆ F by
      obtain ⟨F, hF, hsub⟩ := h
      refine ⟨F, hF, (List.cons_subset.mp hsub).2, ?_⟩
      rintro _ ⟨⟩ -
      exact (List.cons_subset.mp hsub).1
    have haligned' : ∀ x ∈ b :: listed, x % 16 = 0 := List.forall_mem_cons.mpr ⟨hal, haligned⟩
    have hlisted : ∀ x ∈ listed, m.tag x = .free → ∀ c, m.link (x + 32) = some c →
        c ∈ b :: listed := fun x hx hfree c hc => by
      rcases hnext x hx hfree c hc with hc | ⟨⟨⟩⟩
      · exact List.mem_cons_of_mem b hc
      · exact List.mem_cons_self
    cases htag : m.tag b with
    | allocated =>
      have hnone : ∀ x ∈ b :: listed, m.tag x = .free → ∀ c, m.link (x + 32) = some c →
          c ∈ b :: listed ∨ none = some c := by
        refine List.forall_mem_cons.mpr ⟨fun hfree => ?_, fun x hx hfree c hc => ?_⟩
        · cases htag.symm.trans hfree
        · exact .inl (hlisted x hx hfree c hc)
      exact ⟨b :: listed, .of_end haligned' hnone, List.Subset.refl _⟩
    | free =>
      rw [isAllocated_eq_false_iff.mpr htag, Memory.links_run hal htag] at hrun
      obtain ⟨_, ⟨⟩, hrun⟩ := except_bind_eq_ok_iff.mp hrun
      obtain ⟨rest, hrest, -⟩ := except_bind_eq_ok_iff.mp hrun
      obtain ⟨F, hF, hsub, -⟩ := ih haligned' (List.forall_mem_cons.mpr
        ⟨fun _ c hc => .inr hc, fun x hx hfree c hc => .inl (hlisted x hx hfree c hc)⟩) hrest
      exact ⟨F, hF, hsub⟩

/-- All entries in the regions are among those that are closed under the links, if the first is. -/
theorem Closed.mem_of_entry {F : List Nat} (hF : Closed m rs F)
    (hhead : ∀ b ∈ head, (∃ r ∈ rs, r.base ≤ b ∧ b < r.base + r.size) → b ∈ F)
    (hb : Entry m rs head b) (hinside : ∃ r ∈ rs, r.base ≤ b ∧ b < r.base + r.size) : b ∈ F := by
  induction hb with
  | first h => exact hhead _ h hinside
  | next _ h hc ih => exact hF.next _ (ih h.1) h.2 _ hc hinside

theorem freeList_aligned {free : FreeList} {vs : List Violation} {a : Nat}
    (hlt : ∀ r ∈ rs, r.base + r.size < Word.limit) (hrun : freeList m rs free found = .ok vs)
    (ha : Entry m rs free.head a) (hinside : ∃ r ∈ rs, r.base ≤ a ∧ a < r.base + r.size) :
    a % 16 = 0 := by
  obtain ⟨walk, hwalk, -⟩ := except_bind_eq_ok_iff.mp hrun
  obtain ⟨F, hF, -, hhead⟩ := closed_of_walkFree hlt (List.forall_mem_nil _) nofun hwalk
  exact hF.aligned a (hF.mem_of_entry hhead ha hinside)

/-! ### The whole heap -/

theorem check_ends (h : ∀ r ∈ rs, r.base + r.size < Word.limit ∧ Unwrapped m r) (free : FreeList) :
    Ends (Misread (Reads m rs free.head)) EndAtMost (check m rs free) := by
  have hregions : Ends (Misread (Reads m rs free.head)) (∀ v ∈ ·.1, v.endsWalk = false)
      (regions m rs) := regions_ends fun r hr =>
    (region_ends (h r hr).2 (h r hr).1).mono
      (fun _ hfault => hfault.mono fun _ ha => .region hr ha) fun _ hquiet => hquiet
  exact hregions.bind fun found hquiet =>
    (freeList_ends m (fun r hr => (h r hr).1) free found.2).bind fun ws hend =>
      hend.append hquiet

/-- If no offset that it follows leads out of the words, a check of any memory comes to its end
without a fault exactly if all headers that it reads untested are aligned; of those that are not it
faults at one. What stops the walk along the free list is the last that it reports. -/
theorem check_returns_iff
    (h : ∀ r ∈ rs, 64 ≤ r.size ∧ r.base + r.size < Word.limit ∧ Unwrapped m r) (free : FreeList) :
    ((∃ vs, check m rs free = .ok vs) ↔ ∀ a, Reads m rs free.head a → a % 16 = 0) ∧
      (∀ vs, check m rs free = .ok vs → ∀ v ∈ vs.dropLast, v.endsWalk = false) ∧
      ∀ fault, check m rs free = .error fault →
        ∃ a, Reads m rs free.head a ∧ a % 16 ≠ 0 ∧ fault = .misalignedHeader a := by
  have hends := check_ends (fun r hr => (h r hr).2) free
  refine ⟨⟨?_, fun haligned => ?_⟩, fun vs hrun => ?_, fun fault hrun => ?_⟩
  · rintro ⟨vs, hrun⟩ a ha
    obtain ⟨res, hregions, hrun⟩ := except_bind_eq_ok_iff.mp hrun
    obtain ⟨ws, hlist, -⟩ := except_bind_eq_ok_iff.mp hrun
    cases ha with
    | region hr ha =>
      obtain ⟨walk, hwalk⟩ := regions_eq_ok hregions _ hr
      exact region_aligned (h _ hr).2.2 hwalk ha
    | entry ha hinside => exact freeList_aligned (fun r hr => (h r hr).2.1) hlist ha hinside
  · cases hrun : check m rs free with
    | ok vs => exact ⟨vs, rfl⟩
    | error fault =>
      rw [hrun] at hends
      obtain ⟨a, ha, hal, -⟩ := hends
      exact absurd (haligned a ha) hal
  · rw [hrun] at hends
    exact hends
  · rw [hrun] at hends
    exact hends

/-- In a region of one block, no other header than the first one and the terminator is ahead. -/
theorem Ahead.of_single (hnext : m.next r.base = r.terminator) (hb : Ahead m r b) :
    b = r.base ∨ b = r.terminator := by
  induction hb with
  | first => exact .inl rfl
  | next _ h ih =>
    rcases ih with rfl | rfl
    · exact .inr hnext
    · exact absurd rfl h.1

/-- The walk back comes to a header that is none of the region's, and from there to the first one,
which leads somewhere else. The only entry of the free list is the next after itself. -/
theorem check_returns_of_forged_header : ∃ (m : Memory) (r : Region),
    (64 ≤ r.size ∧ r.base + r.size < Word.limit ∧ Unwrapped m r) ∧
      check m [r] ⟨some 0x10000⟩ = .ok [.brokenBackLink 0x10060 96 48,
        .brokenForwardLink 0x10030 0x10000, .freeListCycle 0x10000] ∧
      ∀ a, Reads m [r] (some 0x10000) a → a % 16 = 0 := by
  obtain ⟨m, hm⟩ : ∃ m, m = ((((Memory.setForward ∅ 0x10000 96).setBackward 0x10060 48).setForward
      0x10030 48).setBackward 0x10030 48).setNext 0x10000 (some 0x10000) := ⟨_, rfl⟩
  have hnext : m.next 0x10000 = 0x10060 := by rw [hm]; decide +kernel
  have hback : m.backward 0x10060 = 48 ∧ m.previous 0x10060 = 0x10030 := by rw [hm]; decide +kernel
  have hback' : m.backward 0x10030 = 48 ∧ m.previous 0x10030 = 0x10000 := by
    rw [hm]
    decide +kernel
  have hbehind : ∀ b, Behind m ⟨0x10000, 128⟩ b → b = 0x10060 ∨ b = 0x10030 := by
    intro b hb
    induction hb with
    | last => exact .inl rfl
    | previous _ h ih =>
      rcases ih with rfl | rfl
      · exact .inr hback.2
      · have hleads := h.2.2
        rw [hback'.2, hnext] at hleads
        nomatch hleads
  have hu : Unwrapped m ⟨0x10000, 128⟩ := by
    refine ⟨fun b hb h => ?_, fun b hb => ?_⟩
    · rcases hb.of_single hnext with rfl | rfl
      · rw [hm]
        decide +kernel
      · exact absurd rfl h.1
    · rcases hbehind b hb with rfl | rfl
      · rw [hback.1]
        decide
      · rw [hback'.1]
        decide
  have hregion : 64 ≤ 128 ∧ 0x10000 + 128 < Word.limit ∧ Unwrapped m ⟨0x10000, 128⟩ :=
    ⟨by decide, by decide, hu⟩
  have hrun : check m [⟨0x10000, 128⟩] ⟨some 0x10000⟩ = .ok [.brokenBackLink 0x10060 96 48,
      .brokenForwardLink 0x10030 0x10000, .freeListCycle 0x10000] := by
    rw [hm]
    decide +kernel
  exact ⟨m, ⟨0x10000, 128⟩, hregion, hrun,
    (check_returns_iff (List.forall_mem_singleton.mpr hregion) _).1.mp ⟨_, hrun⟩⟩

/-- The backward offset of a terminator leads into the block before it, to an address at which there
can be no header. -/
theorem check_misreads_of_backward_offset : ∃ (m : Memory) (r : Region),
    (64 ≤ r.size ∧ r.base + r.size < Word.limit ∧ Unwrapped m r) ∧
      check m [r] {} = .error (.misalignedHeader 0x10038) := by
  obtain ⟨m, hm⟩ : ∃ m, m = (Memory.setForward ∅ 0x10000 96).setBackward 0x10060 40 := ⟨_, rfl⟩
  have hnext : m.next 0x10000 = 0x10060 := by rw [hm]; decide +kernel
  have hback : m.backward 0x10060 = 40 := by rw [hm]; decide +kernel
  have hleads : m.next (m.previous 0x10060) = 0x10038 := by rw [hm]; decide +kernel
  have hbehind : ∀ b, Behind m ⟨0x10000, 128⟩ b → b = 0x10060 := by
    intro b hb
    induction hb with
    | last => rfl
    | previous _ h ih =>
      subst ih
      nomatch hleads.symm.trans h.2.2
  have hu : Unwrapped m ⟨0x10000, 128⟩ := by
    refine ⟨fun b hb h => ?_, fun b hb => ?_⟩
    · rcases hb.of_single hnext with rfl | rfl
      · rw [hm]
        decide +kernel
      · exact absurd rfl h.1
    · rw [hbehind b hb, hback]
      decide
  refine ⟨m, ⟨0x10000, 128⟩, ⟨by decide, by decide, hu⟩, ?_⟩
  rw [hm]
  decide +kernel

/-! ### Walks that do not go round -/

theorem walkForward_ends_of_any :
    Ends (· = .subOverflow) (fun _ => True) (walkForward m r stop previous b) := by
  induction previous, b using walkForward.induct m r stop with
  | case1 previous hback =>
    rw [walkForward, if_pos rfl, if_pos hback]
    rfl
  | case2 previous hforward =>
    rw [walkForward, if_pos rfl, if_neg hforward]
    trivial
  | case3 previous b hne hinside hgood hforward ih =>
    rw [walkForward, if_neg hne, dif_pos hinside, if_pos hgood, dif_pos hforward]
    exact ih.bind fun _ _ => trivial
  | case4 previous b hne hinside hgood hback =>
    rw [walkForward, if_neg hne, dif_pos hinside, if_pos hgood, dif_neg hback]
    rfl
  | case5 previous b hne hinside hbad =>
    rw [walkForward, if_neg hne, dif_pos hinside, if_neg hbad]
    trivial
  | case6 previous b hne houtside =>
    rw [walkForward, if_neg hne, dif_neg houtside]
    trivial

/-- A backward offset leads to another header, also where it leads out of the words. -/
theorem previous_ne (h : m.backward b ≠ 0) : m.previous b ≠ b := by
  have hback : m.backward b < Word.limit := m.read_lt_limit (b + 8)
  unfold Memory.previous Word.subWrap
  unfold Word.limit at *
  omega

/-- The walk back has come from the headers `after`, and they lead forwards to the terminator one by
one. If the terminator leads nowhere, the header that is next on the way is none of them. -/
theorem walkBack_ends_of_last (after : List Nat) (hlast : m.forward r.terminator = 0)
    (hlt : r.base + r.size < Word.limit) (hnodup : (b :: after).Nodup)
    (hinside : ∀ x ∈ b :: after, r.base ≤ x ∧ x < r.base + r.size)
    (htrail : ∀ x ∈ b :: after, x = r.terminator ∨ m.next x ∈ after)
    (hn : r.size < after.length + n) :
    Ends (· ≠ .endlessWalk) (fun _ => True) (walkBack m r (r.base + r.size) n b) := by
  induction n generalizing b after with
  | zero =>
    have hle : (b :: after).length ≤ r.size := length_le_totalSize hnodup fun x hx =>
      ⟨r, List.mem_singleton.mpr rfl, hinside x hx⟩
    rw [List.length_cons] at hle
    omega
  | succ n ih =>
    rw [walkBack]
    split
    · trivial
    rename_i hsentinel
    have hnonzero : m.backward b ≠ 0 := fun hzero => hsentinel (decide_eq_true hzero)
    have hb := hinside b List.mem_cons_self
    refine ((leadsTo_ends (A := fun _ => True) fun _ => trivial).mono
      (fun _ h => h.ne_endlessWalk) fun _ h => h).bind fun goes hgoes => ?_
    cases goes with
    | false => trivial
    | true =>
    obtain ⟨hin, hleads⟩ := hgoes rfl
    have hfresh : m.previous b ∉ b :: after := by
      intro hmem
      rcases htrail _ hmem with hend | hafter
      · have hstay : m.next r.terminator = r.terminator := by
          unfold Memory.next
          rw [hlast, Word.addWrap_of_lt (by omega), Nat.add_zero]
        rw [hend, hstay, ← hend] at hleads
        exact previous_ne hnonzero hleads
      · rw [hleads] at hafter
        exact (List.nodup_cons.mp hnodup).1 hafter
    refine ih (b :: after) (List.nodup_cons.mpr ⟨hfresh, hnodup⟩)
      (List.forall_mem_cons.mpr ⟨hin, hinside⟩)
      (List.forall_mem_cons.mpr ⟨.inr ?_, fun x hx => ?_⟩) (by rw [List.length_cons]; omega)
    · rw [hleads]
      exact List.mem_cons_self
    · exact (htrail x hx).imp_right (List.mem_cons_of_mem b)

theorem region_ends_of_last (hroom : headerSize ≤ r.size) (hlt : r.base + r.size < Word.limit)
    (hlast : m.forward r.terminator = 0) :
    Ends (· ≠ .endlessWalk) (fun _ => True) (region m r) := by
  have hstart : r.base ≤ r.terminator := Nat.le_add_right _ _
  have hend : r.terminator < r.base + r.size := by
    unfold Region.terminator headerSize at *
    omega
  refine ((requireAligned_ends (A := fun _ => True) trivial).mono
    (fun _ h => h.ne_endlessWalk) fun _ h => h).bind fun _ _ => ?_
  split
  · trivial
  rw [stop_run hlt]
  refine (walkForward_ends_of_any.mono (fun _ h => h ▸ nofun) fun _ h => h).bind fun there _ => ?_
  split
  · exact (walkBack_ends_of_last [] hlast hlt (List.pairwise_singleton _ _)
      (List.forall_mem_singleton.mpr ⟨hstart, hend⟩) (List.forall_mem_singleton.mpr (.inl rfl))
      (by rw [List.length_nil]; omega)).bind fun _ _ => trivial
  · trivial

/-- A check goes round on no way, whatever the headers and the links say, if no terminator leads
on. -/
theorem check_ne_endlessWalk
    (h : ∀ r ∈ rs, headerSize ≤ r.size ∧ r.base + r.size < Word.limit ∧ m.forward r.terminator = 0)
    (free : FreeList) : check m rs free ≠ .error .endlessWalk := by
  have hregions : Ends (· ≠ .endlessWalk) (∀ v ∈ ·.1, (fun _ => True) v) (regions m rs) :=
    regions_ends fun r hr =>
      (region_ends_of_last (h r hr).1 (h r hr).2.1 (h r hr).2.2).mono (fun _ h => h)
        fun _ _ _ _ => trivial
  refine Ends.ne_error (P := fun _ => True) (hregions.bind fun found _ => ?_)
  exact ((freeList_ends m (fun r hr => (h r hr).2.1) free found.2).mono
    (fun _ h => h.ne_endlessWalk) fun _ _ => trivial).bind fun _ _ => trivial

end Check

end BoundaryTag
