import Mathlib.Data.List.Perm.Subperm
import Mathlib.Logic.Relation
import BoundaryTag.Proofs.Frames
import BoundaryTag.Proofs.Sessions

/-!
# Misuse

A caller may release what it does not have and write where it should not, and may go on after an
operation has faulted. Then nothing is known of memory, of the free list and of what the heap has
counted (`World.Suffers`). Still each region of the heap is a range that the source has handed out
and not got back (`Heap.Backed`). For this to be so after a program, it has to be looked at up to
wherever it may fault (`HeapM.Leads`).
-/

namespace BoundaryTag

variable {σ α β : Type}

/-- Besides the regions of the heap, the ranges `rs` are out. -/
structure Heap.Backed (After : σ → List Call → Prop) (h : Heap (Recorder σ)) (rs : List Region) :
    Prop where
  after : After h.source.inner h.source.calls
  out : (rs ++ h.regions).Subperm (Call.live h.source.calls)

variable {After : σ → List Call → Prop} {h h' : Heap (Recorder σ)} {rs : List Region} {r : Region}

namespace Heap.Backed

theorem of_eq (hb : h.Backed After rs) (hsource : h'.source = h.source)
    (hregions : h'.regions = h.regions) : h'.Backed After rs where
  after := hsource ▸ hb.after
  out := hsource ▸ hregions ▸ hb.out

theorem nil (hb : h.Backed After rs) : h.Backed After [] where
  after := hb.after
  out := (List.sublist_append_right rs h.regions).subperm.trans hb.out

/-- A range may be out besides the regions that was one of them. -/
theorem of_perm (hb : h.Backed After []) (hsource : h'.source = h.source)
    (hperm : (rs ++ h'.regions).Perm h.regions) : h'.Backed After rs where
  after := hsource ▸ hb.after
  out := hsource ▸ hperm.subperm.trans hb.out

theorem mapped (hb : h.Backed After []) (hafter : After h'.source.inner h'.source.calls)
    (hcalls : h'.source.calls = .mapped r :: h.source.calls) (hregions : h'.regions = h.regions) :
    h'.Backed After [r] where
  after := hafter
  out := by
    rw [hcalls, hregions]
    exact (List.subperm_cons r).mpr hb.out

theorem unmapped [Source σ] (hd : Source.Disjoint After) (hb : h.Backed After (r :: rs))
    (hsource : h'.source = Source.unmap h.source r.base r.size)
    (hregions : h'.regions = h.regions) : h'.Backed After rs where
  after := by
    rw [hsource]
    exact hd.unmapped hb.after (hb.out.subset List.mem_cons_self)
  out := by
    have hout := hb.out.erase r
    rw [List.cons_append, List.erase_cons_head] at hout
    rw [hsource, hregions]
    exact hout

end Heap.Backed

namespace HeapM

/-! ### Programs that may fault -/

/-- From a heap with `P` the program leads to one with `Q` where it returns. Where it faults, all
regions of the heap still are out. -/
def Leads (After : σ → List Call → Prop) (P : Heap (Recorder σ) → Prop)
    (p : HeapM (Recorder σ) α) (Q : α → Heap (Recorder σ) → Prop) : Prop :=
  ∀ w, P w.heap → match p w with
    | .ok a w' => Q a w'.heap
    | .error _ w' => w'.heap.Backed After []

/-- The program leads from backed heaps to backed heaps. -/
abbrev Upholds (After : σ → List Call → Prop) (p : HeapM (Recorder σ) α) : Prop :=
  Leads After (·.Backed After []) p fun _ h => h.Backed After []

variable {p : HeapM (Recorder σ) α} {P P' : Heap (Recorder σ) → Prop}
  {Q : α → Heap (Recorder σ) → Prop} {R : β → Heap (Recorder σ) → Prop}

namespace Leads

theorem of_imp (hp : Leads After P p Q) (himp : ∀ h, P' h → P h) : Leads After P' p Q :=
  fun w hw => hp w (himp w.heap hw)

theorem bind {k : α → HeapM (Recorder σ) β} (hp : Leads After P p Q)
    (hk : ∀ a, Leads After (Q a) (k a) R) : Leads After P (p >>= k) R := by
  intro w hw
  have hpw := hp w hw
  rw [run_bind]
  cases hrun : p w with
  | ok a w' =>
    rw [hrun] at hpw
    exact hk a w' hpw
  | error fault w' =>
    rw [hrun] at hpw
    exact hpw

theorem heap_bind {k : Heap (Recorder σ) → HeapM (Recorder σ) α}
    (hk : ∀ h, Leads After P (k h) Q) : Leads After P (heap >>= k) Q :=
  fun w hw => hk w.heap w hw

/-- Until the heap changes it is as it was read. -/
theorem heap_bind_eq {k : Heap (Recorder σ) → HeapM (Recorder σ) α}
    (hk : ∀ h, P h → Leads After (· = h) (k h) Q) : Leads After P (heap >>= k) Q :=
  fun w hw => hk w.heap hw w rfl

end Leads

theorem leads_update {f : Heap (Recorder σ) → Heap (Recorder σ)}
    {Q : Heap (Recorder σ) → Prop} (h : ∀ h, P h → Q (f h)) :
    Leads After P (update f) fun _ => Q := fun w hw => h w.heap hw

/-- Programs that leave the books alone leave what is out alone. -/
theorem Plain.leads (hp : p.Plain) :
    Leads After (·.Backed After rs) p fun _ h => h.Backed After rs := by
  intro w hw
  cases hrun : p w with
  | ok a w' =>
    have hheap := hp.heap_of_ok hrun
    exact hw.of_eq (by rw [hheap]) (by rw [hheap])
  | error fault w' =>
    have hheap := hp.heap_of_error hrun
    exact hw.nil.of_eq (by rw [hheap]) (by rw [hheap])

theorem compositional_upholds :
    Compositional fun {α : Type} (p : HeapM (Recorder σ) α) => Upholds After p where
  plain := Plain.leads
  bind := .bind
  heap_bind hk _ := .heap_bind hk

/-- What else is in a heap is not out. -/
theorem leads_update_of_eq {f : Heap (Recorder σ) → Heap (Recorder σ)}
    (hsource : ∀ h, (f h).source = h.source := by exact fun _ => rfl)
    (hregions : ∀ h, (f h).regions = h.regions := by exact fun _ => rfl) :
    Leads After (·.Backed After rs) (update f) fun _ h => h.Backed After rs :=
  leads_update fun h hb => hb.of_eq (hsource h) (hregions h)

/-! ### Operations -/

theorem leads_countUnmap :
    Leads After (·.Backed After rs) countUnmap fun _ h => h.Backed After rs :=
  .heap_bind fun _ => (plain_ofExcept _).leads.bind fun _ => leads_update_of_eq

/-- Even where counting it faults, the region is one of the heap's. -/
theorem leads_addRegion (r : Region) :
    Leads After (·.Backed After [r]) (addRegion r) fun _ h => h.Backed After [] := by
  refine (leads_update (Q := (·.Backed After [])) fun h hb => ⟨hb.after, ?_⟩).bind fun _ => ?_
  · exact (List.perm_append_singleton r h.regions).subperm.trans hb.out
  · exact .heap_bind fun _ => (plain_ofExcept _).leads.bind fun _ =>
      .bind leads_update_of_eq fun _ => .heap_bind fun _ => (plain_ofExcept _).leads.bind fun _ =>
        leads_update_of_eq

variable [Source σ]

theorem leads_unmapRange (hd : Source.Disjoint After) (r : Region) :
    Leads After (·.Backed After (r :: rs)) (unmapRange r) fun _ h => h.Backed After rs :=
  leads_update fun _ hb => hb.unmapped hd rfl rfl

/-- Whatever the heap has counted, it asks for whole pages. -/
theorem leads_regionSize (hd : Source.Disjoint After) (request : Nat) :
    Leads After (·.Backed After []) (regionSize request) fun size? h =>
      h.Backed After [] ∧ ∀ size ∈ size?, 0 < size ∧ Source.pageSize h.source ∣ size := by
  intro w hb
  have hwrote : Recorder.Wrote After w.heap.source w.heap.source.calls := ⟨rfl, hb.after⟩
  obtain ⟨size?, hrun, -, hsize⟩ := regionSize_run (Recorder.disjoint hd) hwrote request
  rw [hrun]
  refine ⟨hb, fun size hmem => ?_⟩
  obtain ⟨hpos, hpage, -⟩ := hsize size hmem
  exact ⟨hpos, hpage⟩

/-- A source that is asked for whole pages answers. -/
theorem leads_mapRange (hc : Source.Contract After) (size : Nat) :
    Leads After (fun h => h.Backed After [] ∧ 0 < size ∧ Source.pageSize h.source ∣ size)
      (mapRange size) fun answer h => match answer with
        | .ok base => h.Backed After [⟨base, size⟩]
        | .error _ => h.Backed After [] := by
  rintro w ⟨hb, hpos, hpage⟩
  have hc' := Recorder.contract hc
  have hwrote : Recorder.Wrote After w.heap.source w.heap.source.calls := ⟨rfl, hb.after⟩
  unfold mapRange
  rcases hmap : Source.map w.heap.source size with ⟨answer, source⟩
  cases answer with
  | mapped base contents =>
    obtain ⟨-, hcalls, hafter⟩ := hc'.mapped hwrote hpos hpage hmap
    exact hb.mapped (hcalls ▸ hafter) hcalls rfl
  | refused cause =>
    obtain ⟨hcalls, hafter⟩ := hc'.refused hwrote hpos hpage hmap
    exact ⟨hcalls ▸ hafter, hcalls ▸ hb.out⟩
  | rejected fault => exact absurd hmap (hc'.answers hwrote hpos hpage)

theorem upholds_grow (hc : Source.Contract After) (request : Nat) :
    Upholds After (grow request : HeapM (Recorder σ) (Except AllocError Nat)) := by
  have hadd : ∀ r : Region, Leads After (·.Backed After [r]) (do
      layOut r
      addRegion r
      emit (.mapped r.base r.size request (← heap).heapSize)
      return .ok r.sentinel : HeapM (Recorder σ) (Except AllocError Nat))
      fun _ h => h.Backed After [] := fun r =>
    (plain_layOut r).leads.bind fun _ => (leads_addRegion r).bind fun _ =>
      .heap_bind fun _ => (plain_emit _).leads.bind fun _ => (plain_pure _).leads
  refine (leads_regionSize hc.toDisjoint request).bind fun size? => ?_
  cases size? with
  | none => exact (plain_pure _).leads.of_imp fun _ h => h.1
  | some size =>
  refine ((leads_mapRange hc size).of_imp fun _ h => ⟨h.1, h.2 size rfl⟩).bind fun answer => ?_
  cases answer with
  | error cause => exact (plain_emit _).leads.bind fun _ => (plain_pure _).leads
  | ok base =>
    dsimp only
    split
    · exact (plain_throw _).leads.bind fun _ => hadd ⟨base, size⟩
    · exact hadd ⟨base, size⟩

/-- The region that is to go is out until it is given back, even where the operation faults. -/
theorem upholds_releaseRegion (hd : Source.Disjoint After) (sentinel : Nat) :
    Upholds After (releaseRegion sentinel : HeapM (Recorder σ) Unit) := by
  have hgive : ∀ r : Region, Leads After (·.Backed After [r]) (do
      unmapRange r
      let heapSize ← ofExcept (Word.sub (← heap).heapSize r.size)
      update fun h => { h with heapSize }
      countUnmap
      emit (.unmapped r.base r.size heapSize) : HeapM (Recorder σ) Unit)
      fun _ h => h.Backed After [] := fun r =>
    (leads_unmapRange hd r).bind fun _ => .heap_bind fun _ => (plain_ofExcept _).leads.bind fun _ =>
      .bind leads_update_of_eq fun _ => leads_countUnmap.bind fun _ => (plain_emit _).leads
  refine .heap_bind_eq fun h hb => ?_
  dsimp only
  split
  · rename_i r hfind
    have hperm : (r :: swapRemove h.regions (h.regions.findIdx (·.sentinel = sentinel))).Perm
        h.regions := swapRemove_perm (List.find?_eq_getElem?_findIdx ▸ hfind)
    refine (leads_update (Q := (·.Backed After [r])) ?_).bind fun _ => ?_
    · rintro _ rfl
      exact hb.of_perm rfl hperm
    -- a fault from here on loses the region, which then stays out
    refine plain_memory.leads.bind fun m => (plain_ofExcept _).leads.bind fun span => ?_
    split
    · exact (plain_throw _).leads.bind fun _ => hgive r
    · exact hgive r
  · exact (plain_emit _).leads.of_imp fun _ heq => heq ▸ hb

theorem upholds_releaseAll (hd : Source.Disjoint After) :
    Upholds After (releaseAll : HeapM (Recorder σ) Unit) := by
  have hforM : ∀ rs : List Region, Leads After (·.Backed After rs) (rs.forM fun r => (do
      unmapRange r
      countUnmap : HeapM (Recorder σ) Unit)) fun _ h => h.Backed After [] := by
    intro rs
    induction rs with
    | nil => exact (plain_pure ()).leads
    | cons r rs ih =>
      exact ((leads_unmapRange hd r).bind fun _ => leads_countUnmap).bind fun _ => ih
  refine .heap_bind_eq fun h hb => (leads_update (Q := (·.Backed After h.regions)) ?_).bind
    fun _ => (hforM h.regions).bind fun _ => leads_update_of_eq
  rintro _ rfl
  exact hb.of_perm rfl (List.append_nil _ ▸ .refl _)

/-- Whatever is asked of a heap, its regions are out afterwards. -/
theorem upholds_perform (hc : Source.Contract After) (act : Act) :
    Upholds After (act.perform : HeapM (Recorder σ) Reply) :=
  compositional_upholds.perform (upholds_grow hc) (upholds_releaseRegion hc.toDisjoint)
    (upholds_releaseAll hc.toDisjoint) act

end HeapM

/-! ### Worlds -/

namespace World

variable [Source σ] {w w' : World (Recorder σ)}

/-- What may happen to a heap when nothing is held to a rule but its source. -/
inductive Suffers (After : σ → List Call → Prop) :
    World (Recorder σ) → World (Recorder σ) → Prop
  /-- Any act returns, with any argument. -/
  | returned {w w' : World (Recorder σ)} {act : Act} {reply : Reply} :
    act.perform w = .ok reply w' → Suffers After w w'
  /-- An act faults, and the heap stays as the fault left it. -/
  | faulted {w w' : World (Recorder σ)} {act : Act} {fault : Fault} :
    act.perform w = .error fault w' → Suffers After w w'
  /-- Memory, the free list and the counts change to what they may. -/
  | overwritten {w : World (Recorder σ)} (memory : Memory) (free : FreeList)
    (heapSize maps unmaps : Nat) :
    Suffers After w { w with memory, heap := { w.heap with free, heapSize, maps, unmaps } }
  /-- The source changes, as long as it keeps to what it promises after its calls. -/
  | tended {w : World (Recorder σ)} (inner : σ) : After inner w.heap.source.calls →
    Suffers After w { w with heap := { w.heap with source := { w.heap.source with inner } } }

theorem Suffers.backed (hc : Source.Contract After) (h : w.Suffers After w')
    (hb : w.heap.Backed After []) : w'.heap.Backed After [] := by
  cases h with
  | @returned _ act reply hrun =>
    have hleads := HeapM.upholds_perform hc act w hb
    rw [hrun] at hleads
    exact hleads
  | @faulted _ act fault hrun =>
    have hleads := HeapM.upholds_perform hc act w hb
    rw [hrun] at hleads
    exact hleads
  | overwritten => exact hb.of_eq rfl rfl
  | tended inner hafter => exact ⟨hafter, hb.out⟩

/-- Whatever has happened to a heap, its regions are out. -/
theorem backed_of_suffers (hc : Source.Contract After) {config : Config} {source : σ}
    {memory : Memory} (hs : After source [])
    (h : Relation.ReflTransGen (Suffers After) (fresh config { inner := source } memory) w) :
    w.heap.Backed After [] := by
  induction h with
  | refl => exact ⟨hs, .refl []⟩
  | tail _ hstep ih => exact hstep.backed hc ih

end World

end BoundaryTag
