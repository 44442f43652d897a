import BoundaryTag.Proofs.Sharing

/-!
# Heaps with a past

A heap counts the regions that it has mapped and given back, and its source the calls that it has
answered. No operation goes by these numbers, except that it faults where they would be no words
any more. So with a `Past`, which is to say with larger counts and more calls from the beginning, a
heap does what it does without (`Ageless`), as long as the counts stay words.
-/

namespace BoundaryTag

/-- What a heap has counted, and which calls its source has answered. -/
structure Past where
  maps : Nat
  unmaps : Nat
  calls : List Call

variable {σ α β : Type}

def Recorder.aged (past : Past) (s : Recorder σ) : Recorder σ :=
  { s with calls := s.calls ++ past.calls }

namespace Heap

/-- The past of a heap that has all its counts and calls from then. -/
def past (h : Heap (Recorder σ)) : Past where
  maps := h.maps
  unmaps := h.unmaps
  calls := h.source.calls

/-- The heap as it is with a past. -/
def aged (past : Past) (h : Heap (Recorder σ)) : Heap (Recorder σ) :=
  { h with
    source := h.source.aged past
    maps := h.maps + past.maps
    unmaps := h.unmaps + past.unmaps }

end Heap

/-- With the past the counts of the heap still are words. -/
structure Past.Fits (past : Past) (h : Heap (Recorder σ)) : Prop where
  maps : h.maps + past.maps < Word.limit
  unmaps : h.unmaps + past.unmaps < Word.limit

/-- The counts of the one heap are not above those of the other. -/
structure Heap.Before (h h' : Heap (Recorder σ)) : Prop where
  maps : h.maps ≤ h'.maps
  unmaps : h.unmaps ≤ h'.unmaps

variable {past : Past} {h h' h'' : Heap (Recorder σ)}

theorem Heap.Before.of_eq (hmaps : h'.maps = h.maps) (hunmaps : h'.unmaps = h.unmaps) :
    h.Before h' := ⟨Nat.le_of_eq hmaps.symm, Nat.le_of_eq hunmaps.symm⟩

theorem Heap.Before.trans (h₁ : h.Before h') (h₂ : h'.Before h'') : h.Before h'' :=
  ⟨h₁.maps.trans h₂.maps, h₁.unmaps.trans h₂.unmaps⟩

theorem Past.Fits.of_before (hfits : past.Fits h') (hb : h.Before h') : past.Fits h where
  maps := Nat.lt_of_le_of_lt (Nat.add_le_add_right hb.maps _) hfits.maps
  unmaps := Nat.lt_of_le_of_lt (Nat.add_le_add_right hb.unmaps _) hfits.unmaps

def World.aged (past : Past) (w : World (Recorder σ)) : World (Recorder σ) :=
  { w with heap := w.heap.aged past }

namespace HeapM

/-! ### Programs -/

/-- Where the program returns it returns the same with any past, as long as the counts are words. -/
structure Ageless (p : HeapM (Recorder σ) α) : Prop where
  before {w w' : World (Recorder σ)} {a : α} : p w = .ok a w' → w.heap.Before w'.heap
  aged {past : Past} {w w' : World (Recorder σ)} {a : α} : past.Fits w'.heap → p w = .ok a w' →
    p (w.aged past) = .ok a (w'.aged past)
  young {past : Past} {w v : World (Recorder σ)} {a : α} : p (w.aged past) = .ok a v →
    ∃ w', p w = .ok a w' ∧ v = w'.aged past

variable {p : HeapM (Recorder σ) α}

namespace Ageless

/-- Programs that do the same with a past even where they fault. -/
theorem of_onWorld (hover : ∀ past w, p (w.aged past) = onWorld (·.aged past) (p w))
    (hbefore : ∀ {w w' a}, p w = .ok a w' → w.heap.Before w'.heap) : p.Ageless where
  before := hbefore
  aged {past w w' a} _ h := by rw [hover, h]; rfl
  young {past w v a} h := by
    rw [hover] at h
    cases hrun : p w with
    | ok b w' =>
      rw [hrun] at h
      cases h
      exact ⟨w', rfl, rfl⟩
    | error fault w' =>
      rw [hrun] at h
      cases h

theorem bind {k : α → HeapM (Recorder σ) β} (hp : p.Ageless) (hk : ∀ a, (k a).Ageless) :
    (p >>= k).Ageless where
  before h := by
    obtain ⟨a, w₁, hrun, h⟩ := bind_eq_ok_iff.mp h
    exact (hp.before hrun).trans ((hk a).before h)
  aged hfits h := by
    obtain ⟨a, w₁, hrun, h⟩ := bind_eq_ok_iff.mp h
    have hfits₁ := hfits.of_before ((hk a).before h)
    exact (run_bind_ok (hp.aged hfits₁ hrun)).trans ((hk a).aged hfits h)
  young h := by
    obtain ⟨a, v, hrun, h⟩ := bind_eq_ok_iff.mp h
    obtain ⟨w₁, hrun₁, rfl⟩ := hp.young hrun
    obtain ⟨w', hrun', rfl⟩ := (hk a).young h
    exact ⟨w', (run_bind_ok hrun₁).trans hrun', rfl⟩

/-- Of the heap an ageless program may read what does not age. -/
theorem heap_bind {k : Heap (Recorder σ) → HeapM (Recorder σ) α} (hk : ∀ h, (k h).Ageless)
    (hsame : ∀ past h, k (h.aged past) = k h) : (heap >>= k).Ageless where
  before {w w' a} h := (hk w.heap).before h
  aged {past w w' a} hfits h := by
    rw [HeapM.heap_bind]
    show k (w.heap.aged past) _ = _
    rw [hsame]
    exact (hk w.heap).aged hfits h
  young {past w v a} h := by
    rw [HeapM.heap_bind] at h
    change k (w.heap.aged past) _ = _ at h
    rw [hsame] at h
    exact (hk w.heap).young h

end Ageless

theorem withBooks_aged {w w' : World (Recorder σ)}
    (h : w'.heap = { w.heap with free := w'.heap.free }) :
    w'.withBooks (w.heap.aged past) = w'.aged past := by
  unfold World.withBooks World.aged
  rw [h]
  rfl

theorem Plain.ageless (hp : p.Plain) : p.Ageless := by
  refine .of_onWorld (fun past w => ?_) fun h => ?_
  · have hover : p (w.aged past) = onWorld (·.withBooks (w.heap.aged past)) (p w) :=
      hp w (w.heap.aged past) rfl rfl
    rw [hover]
    cases hrun : p w with
    | ok a w' => exact congrArg _ (withBooks_aged (hp.heap_of_ok hrun))
    | error fault w' => exact congrArg _ (withBooks_aged (hp.heap_of_error hrun))
  · have hheap := hp.heap_of_ok h
    exact .of_eq (by rw [hheap]) (by rw [hheap])

theorem compositional_ageless :
    Compositional fun {α : Type} (p : HeapM (Recorder σ) α) => p.Ageless where
  plain := Plain.ageless
  bind := .bind
  heap_bind hk hsame := .heap_bind hk fun _ _ => hsame _ _ rfl rfl rfl

theorem ageless_update {f : Heap (Recorder σ) → Heap (Recorder σ)}
    (hf : ∀ past h, f (h.aged past) = (f h).aged past := by exact fun _ _ => rfl)
    (hmaps : ∀ h, (f h).maps = h.maps := by exact fun _ => rfl)
    (hunmaps : ∀ h, (f h).unmaps = h.unmaps := by exact fun _ => rfl) : (update f).Ageless := by
  refine .of_onWorld (fun past w => ?_) fun {w _ _} h => ?_
  · exact congrArg (fun h => EStateM.Result.ok () { w with heap := h }) (hf past w.heap)
  · cases h
    exact .of_eq (hmaps w.heap) (hunmaps w.heap)

theorem ageless_countUnmap : (countUnmap : HeapM (Recorder σ) Unit).Ageless where
  before h := by
    rw [(countUnmap_eq_ok_iff.mp h).2]
    exact ⟨Nat.le_refl _, Nat.le_succ _⟩
  aged {past w w' _} hfits h := by
    obtain ⟨-, rfl⟩ := countUnmap_eq_ok_iff.mp h
    have hlt : w.heap.unmaps + 1 + past.unmaps < Word.limit := hfits.unmaps
    refine countUnmap_eq_ok_iff.mpr ⟨?_, ?_⟩
    · show w.heap.unmaps + past.unmaps + 1 < Word.limit
      omega
    · unfold World.aged Heap.aged
      dsimp only
      rw [Nat.add_right_comm]
  young {past w v _} h := by
    obtain ⟨hlt, rfl⟩ := countUnmap_eq_ok_iff.mp h
    refine ⟨_, countUnmap_eq_ok_iff.mpr ⟨?_, rfl⟩, ?_⟩
    · have hlt' : w.heap.unmaps + past.unmaps + 1 < Word.limit := hlt
      omega
    · unfold World.aged Heap.aged
      dsimp only
      rw [Nat.add_right_comm]

theorem ageless_addRegion (r : Region) : (addRegion r : HeapM (Recorder σ) Unit).Ageless where
  before h := by
    rw [(addRegion_eq_ok_iff.mp h).2.2]
    exact ⟨Nat.le_succ _, Nat.le_refl _⟩
  aged {past w w' _} hfits h := by
    obtain ⟨hroom, -, rfl⟩ := addRegion_eq_ok_iff.mp h
    have hlt : w.heap.maps + 1 + past.maps < Word.limit := hfits.maps
    refine addRegion_eq_ok_iff.mpr ⟨hroom, ?_, ?_⟩
    · show w.heap.maps + past.maps + 1 < Word.limit
      omega
    · unfold World.aged Heap.aged
      dsimp only
      rw [Nat.add_right_comm]
  young {past w v _} h := by
    obtain ⟨hroom, hlt, rfl⟩ := addRegion_eq_ok_iff.mp h
    refine ⟨_, addRegion_eq_ok_iff.mpr ⟨hroom, ?_, rfl⟩, ?_⟩
    · have hlt' : w.heap.maps + past.maps + 1 < Word.limit := hlt
      omega
    · unfold World.aged Heap.aged
      dsimp only
      rw [Nat.add_right_comm]

variable [Source σ]

theorem ageless_mapRange (size : Nat) :
    (mapRange size : HeapM (Recorder σ) (Except String Nat)).Ageless := by
  refine .of_onWorld (fun past w => ?_) fun {w w' a} h => ?_
  · have hmap : Source.map (w.aged past).heap.source size =
        ((Source.map w.heap.source size).1, (Source.map w.heap.source size).2.aged past) := by
      show Recorder.map (w.heap.source.aged past) size =
        ((Recorder.map w.heap.source size).1, (Recorder.map w.heap.source size).2.aged past)
      unfold Recorder.map Recorder.aged
      dsimp only
      split <;> rfl
    unfold mapRange
    rw [hmap]
    obtain ⟨answer, source⟩ := Source.map w.heap.source size
    cases answer <;> rfl
  · rcases mapRange_eq_ok h with ⟨_, _, _, -, -, rfl⟩ | ⟨_, _, -, -, rfl⟩ <;> exact .of_eq rfl rfl

theorem ageless_unmapRange (r : Region) : (unmapRange r : HeapM (Recorder σ) Unit).Ageless :=
  ageless_update

theorem ageless_grow (request : Nat) :
    (grow request : HeapM (Recorder σ) (Except AllocError Nat)).Ageless := by
  have hsize : (regionSize request : HeapM (Recorder σ) (Option Nat)).Ageless :=
    .heap_bind (fun _ => (plain_ofExcept _).ageless) fun _ _ => rfl
  refine hsize.bind fun size? => ?_
  cases size? with
  | none => exact (plain_pure _).ageless
  | some size =>
  refine (ageless_mapRange size).bind fun answer => ?_
  cases answer with
  | error cause => exact (plain_emit _).ageless.bind fun _ => (plain_pure _).ageless
  | ok base =>
    dsimp only
    split
    · exact (plain_throw _).ageless
    · exact (plain_layOut _).ageless.bind fun _ => (ageless_addRegion _).bind fun _ =>
        .heap_bind (fun _ => (plain_emit _).ageless.bind fun _ => (plain_pure _).ageless)
          fun _ _ => rfl

theorem ageless_releaseRegion (sentinel : Nat) :
    (releaseRegion sentinel : HeapM (Recorder σ) Unit).Ageless := by
  have hgive : ∀ r : Region, (do
      unmapRange r
      let heapSize ← ofExcept (Word.sub (← heap).heapSize r.size)
      update fun h => { h with heapSize }
      countUnmap
      emit (.unmapped r.base r.size heapSize) : HeapM (Recorder σ) Unit).Ageless := fun r =>
    (ageless_unmapRange r).bind fun _ => .heap_bind (fun h =>
      (plain_ofExcept _).ageless.bind fun _ => .bind ageless_update fun _ =>
        ageless_countUnmap.bind fun _ => (plain_emit _).ageless) fun _ _ => rfl
  refine .heap_bind (fun h => ?_) fun _ _ => rfl
  dsimp only
  split
  · refine .bind ageless_update fun _ => plain_memory.ageless.bind fun m =>
      (plain_ofExcept _).ageless.bind fun span => ?_
    split
    · exact (plain_throw _).ageless.bind fun _ => hgive _
    · exact hgive _
  · exact (plain_emit _).ageless

theorem ageless_releaseAll : (releaseAll : HeapM (Recorder σ) Unit).Ageless := by
  have hforM : ∀ rs : List Region, (rs.forM fun r => (do
      unmapRange r
      countUnmap : HeapM (Recorder σ) Unit)).Ageless := by
    intro rs
    induction rs with
    | nil => exact (plain_pure ()).ageless
    | cons r rs ih =>
      exact ((ageless_unmapRange r).bind fun _ => ageless_countUnmap).bind fun _ => ih
  exact .heap_bind (fun h => .bind ageless_update fun _ => (hforM _).bind fun _ => ageless_update)
    fun _ _ => rfl

theorem ageless_perform (act : Act) : (act.perform : HeapM (Recorder σ) Reply).Ageless :=
  compositional_ageless.perform ageless_grow ageless_releaseRegion ageless_releaseAll act

end HeapM

/-! ### Tenants -/

namespace Tenant

def aged (past : Past) (t : Tenant σ) : Tenant σ := { t with heap := t.heap.aged past }

variable {m m' : Memory} {t t' v : Tenant σ} {deed : Deed × Reply} {deeds : List (Deed × Reply)}

theorem permits_aged_iff {act : Act} :
    ((t.aged past).session m).Permits act ↔ (t.session m).Permits act := by
  cases act <;> exact Iff.rfl

variable [Source σ]

namespace Does

theorem before (h : t.Does m deed m' t') : t.heap.Before t'.heap := by
  cases h with
  | act _ _ hrun => exact (HeapM.ageless_perform _).before hrun
  | drop _ hrun => exact HeapM.ageless_releaseAll.before hrun

theorem aged (hfits : past.Fits t'.heap) (h : t.Does m deed m' t') :
    (t.aged past).Does m deed m' (t'.aged past) := by
  cases h with
  | act hd hp hrun =>
    have hrun' := (HeapM.ageless_perform _).aged hfits hrun
    exact .act (t := t.aged past) hd (permits_aged_iff.mpr hp) hrun'
  | drop hd hrun =>
    have hrun' := HeapM.ageless_releaseAll.aged hfits hrun
    exact .drop (t := t.aged past) hd hrun'

theorem young (h : (t.aged past).Does m deed m' v) :
    ∃ t', t.Does m deed m' t' ∧ v = t'.aged past := by
  cases h with
  | act hd hp hrun =>
    obtain ⟨w, hrun', hw⟩ := (HeapM.ageless_perform _).young (w := t.world m) hrun
    subst hw
    exact ⟨_, .act (w := w) hd (permits_aged_iff.mp hp) hrun', rfl⟩
  | drop hd hrun =>
    obtain ⟨w, hrun', hw⟩ := HeapM.ageless_releaseAll.young (w := t.world m) hrun
    subst hw
    exact ⟨_, .drop (w := w) hd hrun', rfl⟩

end Does

namespace Run

theorem before (h : t.Run m deeds m' t') : t.heap.Before t'.heap := by
  induction h with
  | nil m t => exact .of_eq rfl rfl
  | cons hdoes _ ih => exact hdoes.before.trans ih

/-- A heap may do with a past what it does without, as long as its counts are words. -/
theorem aged (hfits : past.Fits t'.heap) (h : t.Run m deeds m' t') :
    (t.aged past).Run m deeds m' (t'.aged past) := by
  induction h with
  | nil m t => exact .nil m _
  | cons hdoes hrun ih => exact .cons (hdoes.aged (hfits.of_before hrun.before)) (ih hfits)

/-- What a heap does with a past it may do without. -/
theorem young (h : (t.aged past).Run m deeds m' v) :
    ∃ t', t.Run m deeds m' t' ∧ v = t'.aged past := by
  generalize hu : t.aged past = u at h
  induction h generalizing t with
  | nil m u => exact ⟨t, .nil m t, hu.symm⟩
  | cons hdoes _ ih =>
    subst hu
    obtain ⟨t₁, hdoes₁, rfl⟩ := hdoes.young
    obtain ⟨t', hrun, hv⟩ := ih rfl
    exact ⟨t', .cons hdoes₁ hrun, hv⟩

end Run

end Tenant

end BoundaryTag
