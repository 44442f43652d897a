import Mathlib.Data.List.Chain
import BoundaryTag.Integrity.Check
import BoundaryTag.Proofs.Links

/-!
# What a check decides

A check finds nothing exactly if the words in memory are in order (`Check.Passes`): the headers of
every region thread its blocks to its terminator and back, no two neighbours are free, the free
list links distinct free entries in the regions, and every free block of a region is among them.

For each walk of the check there is a lemma on what it does where the words are in order
(`walkForward_run`, `walkBack_run`, `walkFree_run`, `lengthBack_run`) and, where the walk alone
ensures something, one on what is known if it found nothing (`walkForward_clean`, `walkFree_clean`).
The walk back through a region and the count back along the free list find nothing that the walks
forward had not found.
-/

namespace BoundaryTag

namespace Memory

/-- The forward offsets lead from `a` through the blocks `bs` to the header at `stop`, and the
header after each block says how far the block is. -/
def Threaded (m : Memory) (stop a : Nat) : List Nat → Prop
  | [] => a = stop
  | b :: bs => b = a ∧ m.forward a % 16 = 0 ∧ 32 ≤ m.forward a ∧
    m.backward (a + m.forward a) = m.forward a ∧ Threaded m stop (a + m.forward a) bs

/-- Of two blocks at most one is tagged free. -/
def Parted (m : Memory) (b c : Nat) : Prop := ¬(m.tag b = .free ∧ m.tag c = .free)

end Memory

namespace Check

/-- The blocks of the region are `bs`, and their headers are in order. -/
structure Ordered (m : Memory) (r : Region) (bs : List Nat) : Prop where
  aligned : r.base % 16 = 0
  first : m.backward r.base = 0
  threaded : m.Threaded r.terminator r.base bs
  parted : bs.IsChain m.Parted

/-- The free list from `head` on has the entries `xs`, which are in order. Before `head` it has the
entries `listed`, the latest of which is first. -/
structure Listed (m : Memory) (rs : List Region) (listed : List Nat) (head : Option Nat)
    (xs : List Nat) : Prop where
  head : head = xs.head?
  aligned : ∀ x ∈ xs, x % 16 = 0
  linked : Linked m listed.head? xs none
  nodup : xs.Nodup
  fresh : ∀ x ∈ xs, x ∉ listed
  spanned : ∀ x ∈ xs, ∃ r ∈ rs, r.base ≤ x ∧ x < r.base + r.size
  free : ∀ x ∈ xs, m.tag x = .free

/-- The block is one to which the headers of a region lead, and it is tagged free. -/
def FreeBlock (m : Memory) (rs : List Region) (x : Nat) : Prop :=
  ∃ r ∈ rs, ∃ bs, Ordered m r bs ∧ x ∈ bs ∧ m.tag x = .free

/-- The words in memory are in order. -/
structure Passes (m : Memory) (rs : List Region) (head : Option Nat) : Prop where
  regions : ∀ r ∈ rs, ∃ bs, Ordered m r bs
  free : ∃ xs, Listed m rs [] head xs ∧ ∀ x, FreeBlock m rs x → x ∈ xs

end Check

variable {m : Memory} {r : Region} {rs : List Region} {bs cs xs listed found : List Nat}
  {a b c e stop n v x y : Nat} {previous head : Option Nat}

/-! ### Threads of blocks -/

namespace Memory.Threaded

theorem append_iff :
    m.Threaded stop a (bs ++ cs) ↔ ∃ e, m.Threaded e a bs ∧ m.Threaded stop e cs := by
  induction bs generalizing a with
  | nil => exact ⟨fun h => ⟨a, rfl, h⟩, fun ⟨_, h, hcs⟩ => by cases h; exact hcs⟩
  | cons b bs ih =>
    rw [List.cons_append]
    constructor
    · rintro ⟨rfl, hwhole, hroom, hback, htail⟩
      obtain ⟨e, hbs, hcs⟩ := ih.mp htail
      exact ⟨e, ⟨rfl, hwhole, hroom, hback, hbs⟩, hcs⟩
    · rintro ⟨e, ⟨rfl, hwhole, hroom, hback, htail⟩, hcs⟩
      exact ⟨rfl, hwhole, hroom, hback, ih.mpr ⟨e, htail, hcs⟩⟩

/-- From a header that is aligned a thread leads to such a header. -/
theorem aligned (h : m.Threaded stop a bs) (ha : a % 16 = 0) : stop % 16 = 0 := by
  induction bs generalizing a with
  | nil =>
    cases h
    exact ha
  | cons b bs ih =>
    obtain ⟨-, hwhole, -, -, htail⟩ := h
    exact ih htail (by omega)

/-- Each block of a thread has room for a header at least. -/
theorem length_le (h : m.Threaded stop a bs) : 32 * bs.length + a ≤ stop := by
  induction bs generalizing a with
  | nil =>
    have hend : a = stop := h
    rw [List.length_nil]
    omega
  | cons b bs ih =>
    obtain ⟨-, -, hroom, -, htail⟩ := h
    have hle := ih htail
    rw [List.length_cons]
    omega

theorem le (h : m.Threaded stop a bs) : a ≤ stop := Nat.le_of_add_left_le h.length_le

/-- There is one thread at most. -/
theorem unique (h : m.Threaded stop a bs) (h' : m.Threaded stop a cs) : bs = cs := by
  induction bs generalizing a cs with
  | nil =>
    cases cs with
    | nil => rfl
    | cons c cs =>
      cases h
      obtain ⟨-, -, hroom, -, htail⟩ := h'
      have hle := htail.le
      omega
  | cons b bs ih =>
    obtain ⟨rfl, -, hroom, -, htail⟩ := h
    cases cs with
    | nil =>
      cases h'
      have hle := htail.le
      omega
    | cons c cs =>
      obtain ⟨rfl, -, -, -, htail'⟩ := h'
      rw [ih htail htail']

/-- Threads from one header have in common what the shorter one passes. -/
theorem common_front (h : m.Threaded e a bs) (h' : m.Threaded stop a cs) (hle : e ≤ stop) :
    ∃ ds, cs = bs ++ ds ∧ m.Threaded stop e ds := by
  induction bs generalizing a cs with
  | nil =>
    obtain rfl : a = e := h
    exact ⟨cs, rfl, h'⟩
  | cons b bs ih =>
    obtain ⟨rfl, -, hroom, -, htail⟩ := h
    have hlt := htail.le
    cases cs with
    | nil =>
      have hend : b = stop := h'
      omega
    | cons c cs =>
      obtain ⟨rfl, -, -, -, htail'⟩ := h'
      obtain ⟨ds, rfl, hds⟩ := ih htail htail'
      exact ⟨ds, rfl, hds⟩

/-- Threads to one header have in common what is after both their starts, because the backward
offsets lead back along both. -/
theorem common_end (h : m.Threaded stop a bs) (h' : m.Threaded stop c cs) (hle : a ≤ c) :
    ∃ ds, bs = ds ++ cs ∧ m.Threaded c a ds := by
  induction cs using List.reverseRecOn generalizing stop bs with
  | nil =>
    obtain rfl : c = stop := h'
    exact ⟨bs, (List.append_nil bs).symm, h⟩
  | append_singleton cs d ih =>
    obtain ⟨e, hcs, rfl, -, hroom, hback, hend⟩ := append_iff.mp h'
    have hend' : d + m.forward d = stop := hend
    have hled := hcs.le
    rcases bs.eq_nil_or_concat' with rfl | ⟨bs, b, rfl⟩
    · have hnil : a = stop := h
      omega
    · obtain ⟨e', hbs, rfl, -, -, hback', hlast⟩ := append_iff.mp h
      have hlast' : b + m.forward b = stop := hlast
      rw [hend'] at hback
      rw [hlast'] at hback'
      obtain rfl : b = d := by omega
      obtain ⟨ds, rfl, hds⟩ := ih hbs hcs
      exact ⟨ds, (List.append_assoc ..), hds⟩

/-- A step into a thread leads no further than to any later start of a thread to the same
header: the backward offset at its end would lead past that start. -/
theorem step_le (h : m.Threaded stop (x + v) bs) (hback : m.backward (x + v) = v)
    (h' : m.Threaded stop y cs) (hlt : x < y) : x + v ≤ y := by
  by_contra hpast
  obtain ⟨ds, -, hds⟩ := h'.common_end h (Nat.le_of_not_le hpast)
  rcases ds.eq_nil_or_concat' with rfl | ⟨ds, d, rfl⟩
  · have hnil : y = x + v := hds
    omega
  · obtain ⟨e, hds, rfl, -, -, hback', hend⟩ := append_iff.mp hds
    have hend' : d + m.forward d = x + v := hend
    have hle := hds.le
    rw [hend'] at hback'
    omega

end Memory.Threaded

namespace Check

/-! ### Blocks of a region -/

/-- The header at `a`, that of the first of the blocks `bs` if there are any, follows the one at
`previous`, if there is one, at the distance it says. -/
structure Follows (m : Memory) (bs : List Nat) (previous : Option Nat) (a : Nat) : Prop where
  lt : ∀ p ∈ previous, p < a
  backward : ∀ p ∈ previous, m.backward a = a - p
  parted : ∀ p ∈ previous, ∀ b ∈ bs.head?, m.Parted p b

theorem isForward_iff : isForward previous a = true ↔ ∀ p ∈ previous, p < a := by
  cases previous <;> simp [isForward]

theorem backLink_eq_nil_iff : backLink m x a = [] ↔ m.backward a = a - x := by
  unfold backLink
  split <;> simp [*]

theorem adjacency_eq_nil_iff : adjacency m x a = [] ↔ m.backward a = a - x ∧ m.Parted x a := by
  unfold adjacency Memory.isAllocated Memory.Parted
  rw [List.append_eq_nil_iff, backLink_eq_nil_iff]
  cases m.tag x <;> cases m.tag a <;> simp

/-- What the walk tests at the terminator. -/
theorem follows_nil_iff : Follows m [] previous a ↔
    isForward previous a = true ∧ previous.elim [] (backLink m · a) = [] := by
  rw [isForward_iff]
  cases previous with
  | none => exact ⟨fun _ => ⟨nofun, rfl⟩, fun _ => ⟨nofun, nofun, nofun⟩⟩
  | some p =>
    have hback : (some p).elim [] (backLink m · a) = [] ↔ m.backward a = a - p :=
      backLink_eq_nil_iff
    rw [hback]
    refine ⟨fun h => ⟨h.lt, h.backward p rfl⟩, fun h => ⟨h.1, ?_, nofun⟩⟩
    rintro _ ⟨⟩
    exact h.2

/-- What the walk tests at a block. -/
theorem follows_cons_iff : Follows m (b :: bs) previous b ↔
    isForward previous b = true ∧ previous.elim [] (adjacency m · b) = [] := by
  rw [isForward_iff]
  cases previous with
  | none => exact ⟨fun _ => ⟨nofun, rfl⟩, fun _ => ⟨nofun, nofun, nofun⟩⟩
  | some p =>
    have hadjacency : (some p).elim [] (adjacency m · b) = [] ↔
        m.backward b = b - p ∧ m.Parted p b := adjacency_eq_nil_iff
    rw [hadjacency]
    refine ⟨fun h => ⟨h.lt, h.backward p rfl, h.parted p rfl b rfl⟩, fun h => ⟨h.1, ?_, ?_⟩⟩
    · rintro _ ⟨⟩
      exact h.2.1
    · rintro _ ⟨⟩ _ ⟨⟩
      exact h.2.2

/-- The free ones among some blocks. -/
def freeOf (m : Memory) (bs : List Nat) : List Nat := bs.filter (!m.isAllocated ·)

theorem isAllocated_eq_false_iff : m.isAllocated x = false ↔ m.tag x = .free := by
  unfold Memory.isAllocated
  cases m.tag x <;> simp

theorem mem_freeOf : x ∈ freeOf m bs ↔ x ∈ bs ∧ m.tag x = .free := by
  unfold freeOf
  rw [List.mem_filter, Bool.not_eq_true', isAllocated_eq_false_iff]

theorem freeOf_cons : freeOf m (b :: bs) =
    if m.isAllocated b then freeOf m bs else b :: freeOf m bs := by
  unfold freeOf
  cases h : m.isAllocated b <;> simp [h]

/-- What a walk finds that has nothing to report. -/
def Walk.clean (m : Memory) (bs : List Nat) : Walk :=
  { violations := [], freeBlocks := freeOf m bs, complete := true }

theorem walkForward_run (h : m.Threaded r.terminator a bs) (hparted : bs.IsChain m.Parted)
    (hbase : r.base ≤ a) (hstop : r.terminator ≤ stop) (hlt : stop < Word.limit)
    (hfollows : Follows m bs previous a) :
    walkForward m r stop previous a = .ok (.clean m bs) := by
  induction bs generalizing a previous with
  | nil =>
    cases h
    obtain ⟨hforward, hback⟩ := follows_nil_iff.mp hfollows
    rw [walkForward, if_pos rfl, hforward, hback]
    rfl
  | cons b bs ih =>
    obtain ⟨rfl, hwhole, hroom, hback, htail⟩ := h
    obtain ⟨hforward, hadjacency⟩ := follows_cons_iff.mp hfollows
    have hle := htail.le
    have hinside : r.base ≤ b ∧ b < stop ∧ m.forward b ≠ 0 := ⟨hbase, by omega, by omega⟩
    have hnext : m.next b = b + m.forward b := Word.addWrap_of_lt (by omega)
    have hlater : Follows m bs (some b) (b + m.forward b) := by
      refine ⟨?_, ?_, ?_⟩
      · rintro p ⟨⟩
        omega
      · rintro p ⟨⟩
        rw [hback]
        omega
      · rintro p ⟨⟩
        exact (List.isChain_cons.mp hparted).1
    have hrest := ih htail (List.isChain_cons.mp hparted).2 (by omega) hlater
    rw [walkForward, if_neg (by omega), dif_pos hinside, if_pos ⟨hwhole, hroom⟩,
      dif_pos hforward, hnext, hrest, ok_bind, hadjacency]
    unfold Walk.clean
    rw [freeOf_cons]
    rfl

/-- A step to a higher address has not gone past the last one. -/
theorem next_eq_of_lt (hb : b < Word.limit) (h : b < m.next b) : m.next b = b + m.forward b := by
  have hforward : m.forward b < Word.limit := m.read_lt_limit b
  unfold Memory.next Word.addWrap at *
  unfold Word.limit at *
  omega

/-- A walk that found nothing has gone through all blocks of the region, which are in order. -/
theorem walkForward_clean {walk : Walk} (hlt : stop < Word.limit)
    (hrun : walkForward m r stop previous a = .ok walk) (hclean : walk.violations = []) :
    ∃ bs, m.Threaded r.terminator a bs ∧ bs.IsChain m.Parted ∧ Follows m bs previous a := by
  induction previous, a using walkForward.induct m r stop generalizing walk with
  | case1 previous hback =>
    rw [walkForward, if_pos rfl, if_pos hback] at hrun
    cases hrun
  | case2 previous hforward =>
    rw [walkForward, if_pos rfl, if_neg hforward] at hrun
    cases hrun
    exact ⟨[], rfl, .nil, follows_nil_iff.mpr ⟨by simpa using hforward, hclean⟩⟩
  | case3 previous b hne hinside hgood hforward ih =>
    rw [walkForward, if_neg hne, dif_pos hinside, if_pos hgood, dif_pos hforward,
      except_bind_eq_ok_iff] at hrun
    obtain ⟨rest, hrest, hwalk⟩ := hrun
    cases hwalk
    obtain ⟨hadjacency, hclean⟩ := List.append_eq_nil_iff.mp hclean
    obtain ⟨bs, hthreaded, hparted, hfollows⟩ := ih hrest hclean
    have hnext := next_eq_of_lt (by omega) (hfollows.lt b rfl)
    have hback := hfollows.backward b rfl
    rw [hnext] at hthreaded hback
    refine ⟨b :: bs, ⟨rfl, hgood.1, hgood.2, by omega, hthreaded⟩, ?_, ?_⟩
    · exact List.isChain_cons.mpr ⟨hfollows.parted b rfl, hparted⟩
    · exact follows_cons_iff.mpr ⟨hforward, hadjacency⟩
  | case4 previous b hne hinside hgood hback =>
    rw [walkForward, if_neg hne, dif_pos hinside, if_pos hgood, dif_neg hback] at hrun
    cases hrun
  | case5 previous b hne hinside hbad =>
    rw [walkForward, if_neg hne, dif_pos hinside, if_neg hbad] at hrun
    cases hrun
    cases hclean
  | case6 previous b hne houtside =>
    rw [walkForward, if_neg hne, dif_neg houtside] at hrun
    cases hrun
    cases hclean

/-- The way back is the way there. -/
theorem walkBack_run (h : m.Threaded e r.base bs) (hbase : r.base % 16 = 0)
    (hfirst : m.backward r.base = 0) (hstop : e ≤ stop) (hlt : stop < Word.limit)
    (hn : bs.length < n) :
    walkBack m r stop n e = .ok [] := by
  induction n generalizing bs e with
  | zero => exact absurd hn (Nat.not_lt_zero _)
  | succ n ih =>
    rcases bs.eq_nil_or_concat' with rfl | ⟨cs, b, rfl⟩
    · cases h
      have hsentinel : m.isSentinel r.base = true := decide_eq_true hfirst
      rw [walkBack, if_pos hsentinel, if_pos (show r.base = r.sentinel from rfl)]
      rfl
    · obtain ⟨_, hcs, rfl, -, hroom, hback, hend⟩ := Memory.Threaded.append_iff.mp h
      cases hend
      have hle := hcs.le
      have hsentinel : m.isSentinel (b + m.forward b) = false :=
        decide_eq_false (by rw [hback]; omega)
      have hprevious : m.previous (b + m.forward b) = b := by
        unfold Memory.previous
        rw [hback, Word.subWrap_of_le (Nat.le_add_left _ _) (by omega), Nat.add_sub_cancel]
      have hnext : m.next b = b + m.forward b := Word.addWrap_of_lt (by omega)
      have hleads : leadsTo m r stop b (b + m.forward b) = .ok true := by
        unfold leadsTo
        rw [if_pos ⟨hle, by omega⟩, requireAligned_run (hcs.aligned hbase), hnext]
        exact congrArg Except.ok (decide_eq_true rfl)
      rw [List.length_append, List.length_singleton] at hn
      rw [walkBack, hsentinel, if_neg Bool.false_ne_true, hprevious]
      dsimp only
      rw [hleads, ok_bind, if_pos rfl]
      exact ih hcs (by omega) (by omega)

theorem stop_run (hlt : r.base + r.size < Word.limit) : r.stop = .ok (r.base + r.size) :=
  Word.add_eq_ok_iff.mpr ⟨hlt, rfl⟩

theorem region_run (h : Ordered m r bs) (hlt : r.base + r.size < Word.limit) :
    region m r = .ok (.clean m bs) := by
  have haligned : requireAligned r.sentinel = .ok () := requireAligned_run h.aligned
  have hsentinel : m.isSentinel r.sentinel = true := decide_eq_true h.first
  have hend : r.terminator ≤ r.base + r.size := by
    unfold Region.terminator
    omega
  have hlength := h.threaded.length_le
  have hforward := walkForward_run h.threaded h.parted (Nat.le_refl _) hend hlt
    (show Follows m bs none r.base from ⟨nofun, nofun, nofun⟩)
  have hback := walkBack_run h.threaded h.aligned h.first hend hlt (n := r.size + 1) (by omega)
  unfold region
  rw [haligned, ok_bind, hsentinel, stop_run hlt, ok_bind]
  show (walkForward m r _ none r.base >>= _) = _
  rw [hforward, ok_bind]
  show (walkBack m r _ _ r.terminator >>= _) = _
  rw [hback]
  rfl

theorem region_clean {walk : Walk} (hrun : region m r = .ok walk) (hclean : walk.violations = []) :
    ∃ bs, Ordered m r bs := by
  unfold region at hrun
  obtain ⟨⟨⟩, haligned, hrun⟩ := except_bind_eq_ok_iff.mp hrun
  cases hfirst : m.isSentinel r.sentinel with
  | false =>
    rw [hfirst] at hrun
    cases hrun
    cases hclean
  | true =>
    rw [hfirst] at hrun
    obtain ⟨stop, hstop, hrun⟩ := except_bind_eq_ok_iff.mp hrun
    obtain ⟨there, hthere, hrun⟩ := except_bind_eq_ok_iff.mp hrun
    obtain ⟨hlt, rfl⟩ := Word.add_eq_ok_iff.mp hstop
    have hnothing : there.violations = [] := by
      split at hrun
      · obtain ⟨back, -, hwalk⟩ := except_bind_eq_ok_iff.mp hrun
        cases hwalk
        exact (List.append_eq_nil_iff.mp hclean).1
      · cases hrun
        exact hclean
    obtain ⟨bs, hthreaded, hparted, -⟩ := walkForward_clean hlt hthere hnothing
    exact ⟨bs, requireAligned_eq_ok_iff.mp haligned, of_decide_eq_true hfirst, hthreaded, hparted⟩

theorem regions_run (h : ∀ r ∈ rs, ∃ bs, Ordered m r bs)
    (hlt : ∀ r ∈ rs, r.base + r.size < Word.limit) :
    ∃ found, regions m rs = .ok ([], found) ∧ ∀ x, x ∈ found ↔ FreeBlock m rs x := by
  induction rs with
  | nil => exact ⟨[], rfl, fun x => ⟨nofun, fun ⟨_, hr, _⟩ => nomatch hr⟩⟩
  | cons r rs ih =>
    obtain ⟨bs, hordered⟩ := h r List.mem_cons_self
    obtain ⟨found, hrun, hfound⟩ := ih (fun s hs => h s (List.mem_cons_of_mem r hs))
      (fun s hs => hlt s (List.mem_cons_of_mem r hs))
    refine ⟨freeOf m bs ++ found, ?_, fun x => ?_⟩
    · rw [regions, region_run hordered (hlt r List.mem_cons_self), ok_bind, hrun]
      rfl
    · rw [List.mem_append, mem_freeOf, hfound]
      constructor
      · rintro (⟨hx, hfree⟩ | ⟨s, hs, cs, hcs, hx⟩)
        · exact ⟨r, List.mem_cons_self, bs, hordered, hx, hfree⟩
        · exact ⟨s, List.mem_cons_of_mem r hs, cs, hcs, hx⟩
      · rintro ⟨s, hs, cs, hcs, hx⟩
        rcases List.mem_cons.mp hs with rfl | hs
        · exact .inl (hcs.threaded.unique hordered.threaded ▸ hx)
        · exact .inr ⟨s, hs, cs, hcs, hx⟩

theorem regions_clean (hrun : regions m rs = .ok ([], found)) :
    ∀ r ∈ rs, ∃ bs, Ordered m r bs := by
  induction rs generalizing found with
  | nil => exact fun _ hr => nomatch hr
  | cons r rs ih =>
    rw [regions] at hrun
    obtain ⟨walk, hwalk, hrun⟩ := except_bind_eq_ok_iff.mp hrun
    obtain ⟨⟨violations, rest⟩, hrest, hrun⟩ := except_bind_eq_ok_iff.mp hrun
    obtain ⟨hnothing, -⟩ := Prod.mk.inj (Except.ok.inj hrun)
    obtain ⟨hclean, rfl⟩ := List.append_eq_nil_iff.mp hnothing
    exact List.forall_mem_cons.mpr ⟨region_clean hwalk hclean, ih hrest⟩

/-! ### The free list -/

theorem contains_run (hlt : r.base + r.size < Word.limit) :
    r.contains x = .ok (decide (r.base ≤ x ∧ x < r.base + r.size)) := by
  unfold Region.contains
  rw [stop_run hlt, ok_bind, Bool.decide_and]
  rfl

theorem anyContains_run (hlt : ∀ r ∈ rs, r.base + r.size < Word.limit)
    (hx : ∃ r ∈ rs, r.base ≤ x ∧ x < r.base + r.size) : rs.anyM (·.contains x) = .ok true := by
  induction rs with
  | nil =>
    obtain ⟨_, hr, -⟩ := hx
    nomatch hr
  | cons r rs ih =>
    rw [List.anyM_cons, contains_run (hlt r List.mem_cons_self), ok_bind]
    by_cases hin : r.base ≤ x ∧ x < r.base + r.size
    · rw [decide_eq_true hin]
      rfl
    · rw [decide_eq_false hin]
      refine ih (fun s hs => hlt s (List.mem_cons_of_mem r hs)) ?_
      obtain ⟨s, hs, hsx⟩ := hx
      rcases List.mem_cons.mp hs with rfl | hs
      · exact absurd hsx hin
      · exact ⟨s, hs, hsx⟩

theorem exists_of_anyContains (h : rs.anyM (·.contains x) = .ok true) :
    ∃ r ∈ rs, r.base ≤ x ∧ x < r.base + r.size := by
  induction rs with
  | nil => cases h
  | cons r rs ih =>
    rw [List.anyM_cons] at h
    obtain ⟨inside, hcontains, h⟩ := except_bind_eq_ok_iff.mp h
    obtain ⟨stop, hstop, hinside⟩ := except_bind_eq_ok_iff.mp hcontains
    obtain ⟨-, rfl⟩ := Word.add_eq_ok_iff.mp hstop
    cases inside with
    | true =>
      have hx : (decide (r.base ≤ x) && decide (x < r.base + r.size)) = true :=
        Except.ok.inj hinside
      rw [Bool.and_eq_true, decide_eq_true_iff, decide_eq_true_iff] at hx
      exact ⟨r, List.mem_cons_self, hx⟩
    | false =>
      obtain ⟨s, hs, hx⟩ := ih h
      exact ⟨s, List.mem_cons_of_mem r hs, hx⟩

theorem Listed.nil : Listed m rs listed none [] :=
  ⟨rfl, nofun, trivial, .nil, nofun, nofun, nofun⟩

theorem Listed.cons_iff : Listed m rs listed (some x) (x :: xs) ↔
    (x ∉ listed ∧ (∃ r ∈ rs, r.base ≤ x ∧ x < r.base + r.size) ∧ x % 16 = 0 ∧
      m.tag x = .free ∧ m.link (x + 40) = listed.head?) ∧
        Listed m rs (x :: listed) (m.link (x + 32)) xs := by
  constructor
  · intro h
    obtain ⟨hprev, hnext, htail⟩ := h.linked
    obtain ⟨hx, hnodup⟩ := List.nodup_cons.mp h.nodup
    obtain ⟨hxfresh, hfresh⟩ := List.forall_mem_cons.mp h.fresh
    obtain ⟨hxspanned, hspanned⟩ := List.forall_mem_cons.mp h.spanned
    obtain ⟨hxfree, hfree⟩ := List.forall_mem_cons.mp h.free
    obtain ⟨hxaligned, haligned⟩ := List.forall_mem_cons.mp h.aligned
    refine ⟨⟨hxfresh, hxspanned, hxaligned, hxfree, hprev⟩, hnext.trans (Option.or_none ..),
      haligned, htail, hnodup, fun y hy hmem => ?_, hspanned, hfree⟩
    rcases List.mem_cons.mp hmem with rfl | hmem
    · exact hx hy
    · exact hfresh y hy hmem
  · rintro ⟨⟨hxfresh, hxspanned, hxaligned, hxfree, hprev⟩, h⟩
    have hnext : m.link (x + 32) = xs.head?.or none := h.head.trans (Option.or_none ..).symm
    have hx : x ∉ xs := fun hmem => h.fresh x hmem List.mem_cons_self
    have hfresh : ∀ y ∈ xs, y ∉ listed := fun y hy hmem =>
      h.fresh y hy (List.mem_cons_of_mem x hmem)
    exact ⟨rfl, List.forall_mem_cons.mpr ⟨hxaligned, h.aligned⟩, ⟨hprev, hnext, h.linked⟩,
      List.nodup_cons.mpr ⟨hx, h.nodup⟩, List.forall_mem_cons.mpr ⟨hxfresh, hfresh⟩,
      List.forall_mem_cons.mpr ⟨hxspanned, h.spanned⟩, List.forall_mem_cons.mpr ⟨hxfree, h.free⟩⟩

/-- The walk finds nothing from an entry on if it finds nothing at the entry and nothing after. -/
theorem walkFree_succ_iff {entries : Option (List Nat)} :
    walkFree m rs (n + 1) listed (some x) = .ok ([], entries) ↔
      (x ∉ listed ∧ rs.anyM (·.contains x) = .ok true ∧ x % 16 = 0 ∧ m.tag x = .free ∧
        m.link (x + 40) = listed.head?) ∧
      walkFree m rs n (x :: listed) (m.link (x + 32)) = .ok ([], entries) := by
  rw [walkFree]
  by_cases hfresh : x ∈ listed
  · rw [if_pos hfresh]
    exact ⟨nofun, fun h => absurd hfresh h.1.1⟩
  rw [if_neg hfresh]
  by_cases haligned : x % 16 = 0
  swap
  · refine ⟨fun h => ?_, fun h => absurd h.1.2.2.1 haligned⟩
    obtain ⟨inside, -, h⟩ := except_bind_eq_ok_iff.mp h
    cases inside with
    | false => cases h
    | true =>
      obtain ⟨⟨⟩, hrequire, -⟩ := except_bind_eq_ok_iff.mp h
      exact absurd (requireAligned_eq_ok_iff.mp hrequire) haligned
  rw [requireAligned_run haligned, ok_bind]
  cases hfree : m.tag x with
  | allocated =>
    rw [show m.isAllocated x = true from decide_eq_true hfree]
    refine ⟨fun h => ?_, fun h => nomatch h.1.2.2.2.1⟩
    obtain ⟨inside, -, h⟩ := except_bind_eq_ok_iff.mp h
    cases inside <;> cases h
  | free =>
    rw [isAllocated_eq_false_iff.mpr hfree, Memory.links_run haligned hfree]
    constructor
    · intro h
      obtain ⟨inside, hinside, h⟩ := except_bind_eq_ok_iff.mp h
      cases inside with
      | false => cases h
      | true =>
        have hstep : (walkFree m rs n (x :: listed) (m.link (x + 32)) >>= fun rest => .ok
          ((if m.link (x + 40) = listed.head? then []
            else [.brokenFreeLink x listed.head? (m.link (x + 40))]) ++ rest.1, rest.2)) =
              .ok ([], entries) := h
        obtain ⟨⟨violations, _⟩, hrest, hend⟩ := except_bind_eq_ok_iff.mp hstep
        obtain ⟨hclean, rfl⟩ := Prod.mk.inj (Except.ok.inj hend)
        obtain ⟨hhere, rfl⟩ := List.append_eq_nil_iff.mp hclean
        refine ⟨⟨hfresh, hinside, haligned, rfl, ?_⟩, hrest⟩
        by_contra hprev
        rw [if_neg hprev] at hhere
        cases hhere
    · rintro ⟨⟨-, hinside, -, -, hprev⟩, hrest⟩
      rw [hinside, ok_bind]
      show (walkFree m rs n (x :: listed) (m.link (x + 32)) >>= _) = _
      rw [hrest, ok_bind, if_pos hprev]
      rfl

theorem walkFree_run (h : Listed m rs listed head xs)
    (hlt : ∀ r ∈ rs, r.base + r.size < Word.limit) (hn : xs.length ≤ n) :
    walkFree m rs n listed head = .ok ([], some (xs.reverse ++ listed)) := by
  induction xs generalizing listed head n with
  | nil =>
    rw [h.head, List.head?_nil]
    cases n <;> rfl
  | cons x xs ih =>
    obtain ⟨n, rfl⟩ := Nat.exists_eq_add_of_le' (Nat.le_trans (Nat.succ_pos _) hn)
    obtain rfl : head = some x := h.head
    obtain ⟨⟨hfresh, hspanned, hrest⟩, htail⟩ := Listed.cons_iff.mp h
    rw [List.reverse_cons, List.append_assoc]
    exact walkFree_succ_iff.mpr ⟨⟨hfresh, anyContains_run hlt hspanned, hrest⟩,
      ih htail (Nat.le_of_succ_le_succ hn)⟩

/-- A walk that found nothing has come to the end of a list that is in order. -/
theorem walkFree_clean {entries : Option (List Nat)}
    (hrun : walkFree m rs n listed head = .ok ([], entries)) :
    ∃ xs, Listed m rs listed head xs ∧ entries = some (xs.reverse ++ listed) := by
  induction n generalizing listed head entries with
  | zero =>
    cases head with
    | none =>
      cases hrun
      exact ⟨[], .nil, rfl⟩
    | some x => cases hrun
  | succ n ih =>
    cases head with
    | none =>
      cases hrun
      exact ⟨[], .nil, rfl⟩
    | some x =>
      obtain ⟨⟨hfresh, hinside, hhere⟩, hrest⟩ := walkFree_succ_iff.mp hrun
      obtain ⟨xs, hlisted, rfl⟩ := ih hrest
      refine ⟨x :: xs, ?_, ?_⟩
      · exact Listed.cons_iff.mpr ⟨⟨hfresh, exists_of_anyContains hinside, hhere⟩, hlisted⟩
      · rw [List.reverse_cons, List.append_assoc]
        rfl

/-- The way back along the list is as long as the list. -/
theorem lengthBack_run {next : Option Nat} (hl : Linked m none xs next)
    (haligned : ∀ x ∈ xs, x % 16 = 0) (hfree : ∀ x ∈ xs, m.tag x = .free) (hsub : xs ⊆ listed)
    (hn : xs.length ≤ n) :
    lengthBack m listed n xs.getLast? = .ok xs.length := by
  induction n generalizing xs next with
  | zero =>
    rw [List.eq_nil_of_length_eq_zero (Nat.le_zero.mp hn)]
    rfl
  | succ n ih =>
    rcases xs.eq_nil_or_concat' with rfl | ⟨ys, x, rfl⟩
    · rfl
    · obtain ⟨hys, hprev, -⟩ := Linked.append_iff.mp hl
      rw [Option.or_none] at hprev
      have hkeep : ys.getLast?.filter (· ∈ listed) = ys.getLast? := by
        cases hlast : ys.getLast? with
        | none => rfl
        | some y =>
          have hy : y ∈ listed := hsub (List.mem_append_left _ (List.mem_of_getLast? hlast))
          exact Option.filter_some_pos (decide_eq_true hy)
      have hrest := ih hys (fun y hy => haligned y (List.mem_append_left _ hy))
        (fun y hy => hfree y (List.mem_append_left _ hy))
        (fun y hy => hsub (List.mem_append_left _ hy))
      have hx : x ∈ ys ++ [x] := List.mem_concat_self
      rw [List.length_append, List.length_singleton] at hn ⊢
      rw [List.getLast?_concat, lengthBack, Memory.links_run (haligned x hx) (hfree x hx), ok_bind]
      dsimp only
      rw [hprev, hkeep, hrest (by omega)]
      rfl

/-- Distinct addresses in some regions are not more than the bytes of the regions. -/
theorem length_le_totalSize (hnodup : xs.Nodup)
    (hspanned : ∀ x ∈ xs, ∃ r ∈ rs, r.base ≤ x ∧ x < r.base + r.size) :
    xs.length ≤ Region.totalSize rs := by
  have hsub : xs ⊆ rs.flatMap fun r => List.range' r.base r.size := by
    intro x hx
    obtain ⟨r, hr, hin⟩ := hspanned x hx
    exact List.mem_flatMap.mpr ⟨r, hr, List.mem_range'_1.mpr hin⟩
  have hlength : (rs.flatMap fun r => List.range' r.base r.size).length = Region.totalSize rs := by
    clear hspanned hsub
    induction rs with
    | nil => rfl
    | cons r rs ih => rw [List.flatMap_cons, List.length_append, List.length_range', ih]; rfl
  exact hlength ▸ hnodup.length_le_of_subset hsub

theorem freeList_run (h : Listed m rs [] head xs) (hlt : ∀ r ∈ rs, r.base + r.size < Word.limit)
    (hfound : ∀ x ∈ found, x ∈ xs) : freeList m rs ⟨head⟩ found = .ok [] := by
  have hlength := length_le_totalSize h.nodup h.spanned
  have hwalk := walkFree_run h hlt (Nat.le_succ_of_le hlength)
  have hsub : xs ⊆ xs.reverse := fun x hx => List.mem_reverse.mpr hx
  have hback := lengthBack_run h.linked h.aligned h.free hsub (Nat.le_refl _)
  have hunlisted : found.filter (· ∉ xs.reverse) = [] :=
    List.filter_eq_nil_iff.mpr fun x hx => by simpa using hfound x hx
  unfold freeList
  dsimp only
  rw [hwalk, List.append_nil, ok_bind]
  dsimp only
  rw [List.head?_reverse, List.length_reverse, hback, ok_bind, if_pos rfl, hunlisted,
    List.eraseDups_nil, List.mergeSort_nil]
  rfl

theorem freeList_clean {free : FreeList} (hrun : freeList m rs free found = .ok []) :
    ∃ xs, Listed m rs [] free.head xs ∧ ∀ x ∈ found, x ∈ xs := by
  unfold freeList at hrun
  obtain ⟨⟨violations, entries⟩, hwalk, hrun⟩ := except_bind_eq_ok_iff.mp hrun
  cases entries with
  | none =>
    have hclean : violations = [] := Except.ok.inj hrun
    subst hclean
    obtain ⟨_, -, hsome⟩ := walkFree_clean hwalk
    cases hsome
  | some listed =>
    obtain ⟨back, -, hend⟩ := except_bind_eq_ok_iff.mp hrun
    obtain ⟨hclean, hunlisted⟩ := List.append_eq_nil_iff.mp (Except.ok.inj hend)
    obtain ⟨rfl, -⟩ := List.append_eq_nil_iff.mp hclean
    obtain ⟨xs, hlisted, hentries⟩ := walkFree_clean hwalk
    obtain rfl : listed = xs.reverse ++ [] := Option.some.inj hentries
    refine ⟨xs, hlisted, fun x hx => ?_⟩
    by_contra hnot
    have hmem : x ∈ (found.filter (· ∉ xs.reverse ++ [])).eraseDups.mergeSort :=
      List.mem_mergeSort.mpr (List.mem_eraseDups.mpr (List.mem_filter.mpr
        ⟨hx, by simpa using hnot⟩))
    rw [List.map_eq_nil_iff.mp hunlisted] at hmem
    cases hmem

/-! ### The whole heap -/

/-- Where the words are in order a check finds nothing. -/
theorem Passes.check_eq {free : FreeList} (h : Passes m rs free.head)
    (hlt : ∀ r ∈ rs, r.base + r.size < Word.limit) : check m rs free = .ok [] := by
  obtain ⟨found, hregions, hfound⟩ := regions_run h.regions hlt
  obtain ⟨xs, hlisted, hcomplete⟩ := h.free
  unfold check
  rw [hregions, ok_bind]
  show (freeList m rs ⟨free.head⟩ found >>= _) = _
  rw [freeList_run hlisted hlt fun x hx => hcomplete x ((hfound x).mp hx)]
  rfl

/-- Where a check finds nothing the words are in order. -/
theorem passes_of_check {free : FreeList} (hlt : ∀ r ∈ rs, r.base + r.size < Word.limit)
    (hrun : check m rs free = .ok []) : Passes m rs free.head := by
  unfold check at hrun
  obtain ⟨⟨violations, found⟩, hregions, hrun⟩ := except_bind_eq_ok_iff.mp hrun
  obtain ⟨listing, hlist, hend⟩ := except_bind_eq_ok_iff.mp hrun
  obtain ⟨rfl, rfl⟩ := List.append_eq_nil_iff.mp (Except.ok.inj hend)
  have hordered := regions_clean hregions
  obtain ⟨found', hregions', hfound⟩ := regions_run hordered hlt
  obtain rfl : found = found' :=
    (Prod.mk.inj (Except.ok.inj (hregions.symm.trans hregions'))).2
  obtain ⟨xs, hlisted, hcomplete⟩ := freeList_clean hlist
  exact ⟨hordered, xs, hlisted, fun x hx => hcomplete x ((hfound x).mpr hx)⟩

/-- A check decides whether the words in memory are in order. The memory and the free list are
arbitrary; of the regions nothing is needed but that they end at an address. -/
theorem check_eq_nil_iff {free : FreeList} (hlt : ∀ r ∈ rs, r.base + r.size < Word.limit) :
    check m rs free = .ok [] ↔ Passes m rs free.head :=
  ⟨passes_of_check hlt, fun h => h.check_eq hlt⟩

/-- A region of 96 bytes with one free block in it. -/
theorem passes_single :
    Passes ((Memory.setForward ∅ 0x10000 64).setBackward 0x10040 64) [⟨0x10000, 96⟩]
      (some 0x10000) := by
  have hrun : check ((Memory.setForward ∅ 0x10000 64).setBackward 0x10040 64) [⟨0x10000, 96⟩]
      ⟨some 0x10000⟩ = .ok [] := by decide +kernel
  exact (check_eq_nil_iff (by decide)).mp hrun

end Check

end BoundaryTag
