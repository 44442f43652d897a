import BoundaryTag.Proofs.Moving

/-!
# Pictures of a heap

A picture is all that can be seen of a heap: its counts, the headers of its regions, its free list
and what a check finds. For a heap in order the outline tells it (`World.Has.picture_eq`), so that
payloads have no part in it. Addresses in a picture may be put into other terms, such as the number
of a mapping and a distance from its base.
-/

namespace BoundaryTag

/-- A header as it stands in memory. -/
structure Header (α : Type) where
  place : α
  forward : Nat
  backward : Nat
  tag : Tag
deriving DecidableEq, Repr

/-- A region and its headers, from the first to the terminator. -/
structure Strip (α : Type) where
  base : α
  size : Nat
  headers : List (Header α)
deriving DecidableEq, Repr

/-- What can be seen of a heap, where `α` stands for addresses. -/
structure Picture (α : Type) where
  stats : Stats
  regions : List (Strip α)
  free : Except Fault (List α)
  check : Except Fault (List Violation)

section
variable {α β : Type} (f : α → β)

def Header.map (h : Header α) : Header β := ⟨f h.place, h.forward, h.backward, h.tag⟩

def Strip.map (s : Strip α) : Strip β := ⟨f s.base, s.size, s.headers.map (Header.map f)⟩

def Picture.map (p : Picture α) : Picture β :=
  ⟨p.stats, p.regions.map (Strip.map f), p.free.map (List.map f), p.check⟩

end

/-- No block reaches over the terminator of its region or lies outside it. -/
def Picture.Confined (p : Picture Nat) : Prop :=
  ∀ s ∈ p.regions, ∀ h ∈ s.headers,
    s.base ≤ h.place ∧ h.place + h.forward + headerSize ≤ s.base + s.size

/-- The headers from `a` on, each as far after the one before it as that says, up to the one at
`stop`, but `n` at most. -/
def Memory.headersFrom (m : Memory) (stop : Nat) : Nat → Nat → List (Header Nat)
  | 0, _ => []
  | n + 1, a =>
    ⟨a, m.forward a, m.backward a, m.tag a⟩ ::
      if a = stop then [] else m.headersFrom stop n (a + m.forward a)

def Memory.strip (m : Memory) (r : Region) : Strip Nat :=
  ⟨r.base, r.size, m.headersFrom r.terminator r.size r.base⟩

def World.picture {σ : Type} (w : World σ) : Picture Nat where
  stats := w.heap.stats
  regions := w.heap.regions.map w.memory.strip
  free := w.heap.free.take w.memory FreeList.maxLength
  check := check w.memory w.heap.regions w.heap.free

/-! ### Pictures of outlines -/

/-- The headers of the blocks `bs` and of the terminator at `stop`, where the first block has its
predecessor `previous` bytes before it. -/
def headersOf (stop : Nat) (previous : Nat) : List Block → List (Header Nat)
  | [] => [⟨stop, 0, previous, .allocated⟩]
  | b :: bs => ⟨b.addr, b.span, previous, b.tag⟩ :: headersOf stop b.span bs

def Tract.strip (t : Tract) : Strip Nat :=
  ⟨t.region.base, t.region.size, headersOf t.region.terminator 0 t.blocks⟩

namespace Outline

variable {σ : Type} (o : Outline σ)

def stats : Stats where
  heapSize := Region.totalSize o.shape.regions
  regions := o.shape.regions.length
  maps := o.unmaps + o.shape.regions.length
  unmaps := o.unmaps

def picture : Picture Nat where
  stats := o.stats
  regions := o.shape.tracts.map Tract.strip
  free := .ok o.shape.free
  check := .ok []

end Outline

section
variable {σ : Type} {m : Memory} {w : World σ} {A : Shape} {t : Tract} {bs : List Block}
  {a n stop previous : Nat} {xs : List Nat} {prev : Option Nat}

theorem Memory.headersFrom_eq (htiles : Tiles a bs stop) (hm : ∀ b ∈ bs, b.Marked m)
    (hprevious : m.backward a = previous) (hforward : m.forward stop = 0)
    (htag : m.tag stop = .allocated) (hn : bs.length < n) :
    m.headersFrom stop n a = headersOf stop previous bs := by
  induction bs generalizing a previous n with
  | nil =>
    obtain ⟨n, rfl⟩ : ∃ k, n = k + 1 := Nat.exists_eq_add_one.mpr hn
    cases htiles
    rw [headersFrom, if_pos rfl, hprevious, hforward, htag]
    rfl
  | cons b bs ih =>
    obtain ⟨n, rfl⟩ : ∃ k, n = k + 1 := Nat.exists_eq_add_one.mpr (Nat.zero_lt_of_lt hn)
    obtain ⟨rfl, -, hroom, htail⟩ := htiles
    have hb := hm b List.mem_cons_self
    have hne : b.addr ≠ stop := by
      have := htail.le
      omega
    rw [headersFrom, if_neg hne, hb.forward, hprevious, hb.tag]
    rw [ih htail (fun c hc => hm c (List.mem_cons_of_mem b hc)) hb.backward (Nat.lt_of_succ_lt_succ hn)]
    rfl

theorem Tract.Sound.strip_eq (hs : t.Sound) (hm : t.Marked m) : m.strip t.region = t.strip := by
  have hlength := hs.tiles.length_le
  have hadd := hs.terminator_add
  unfold Memory.strip Tract.strip
  rw [Memory.headersFrom_eq hs.tiles hm.blocks hm.first hm.lastForward hm.lastTag (by omega)]

/-- What can be seen of a heap in order is in its outline. -/
theorem World.Has.picture_eq (H : w.Has A) (hs : A.Settled) :
    w.picture = (w.outline A).picture := by
  have hlist := H.sound.listable H.inMemory
  have hstats : w.heap.stats = (w.outline A).stats := by
    unfold Heap.stats
    rw [H.heapSize, H.maps, H.regions]
    rfl
  have hstrips : w.heap.regions.map w.memory.strip = A.tracts.map Tract.strip := by
    rw [H.regions]
    show (A.tracts.map Tract.region).map w.memory.strip = _
    rw [List.map_map]
    exact List.map_congr_left fun t ht =>
      (H.sound.laid.sound t ht).strip_eq (H.inMemory.marked t ht)
  have hfree : w.heap.free.take w.memory FreeList.maxLength = .ok A.free := by
    rw [H.free, FreeList.take, FreeList.takeFrom_run hlist H.inMemory.linked,
      List.take_of_length_le (FreeList.length_le_maxLength hlist)]
  have hcheck : BoundaryTag.check w.memory w.heap.regions w.heap.free = .ok [] := by
    rw [H.regions, H.free]
    exact hs.check_run H.inMemory.legible
  unfold World.picture Outline.picture
  rw [hstats, hstrips, hfree, hcheck]
  rfl

end

/-! ### Addresses in a picture -/

section
variable {σ τ : Type} {α β γ : Type} {f g : Nat → α} {o : Outline σ} {o' : Outline τ} {t : Tract}
  {bs : List Block} {h : Header Nat} {a stop previous : Nat}

theorem Picture.map_map {p : Picture α} {f : α → β} {g : β → γ} :
    (p.map f).map g = p.map (g ∘ f) := by
  have hheader : Header.map g ∘ Header.map f = Header.map (g ∘ f) := rfl
  have hstrip : Strip.map g ∘ Strip.map f = Strip.map (g ∘ f) := by
    funext s
    simp [Strip.map, hheader]
  unfold Picture.map
  cases p.free <;> simp [hstrip, Except.map]

theorem Picture.map_id {p : Picture α} : p.map id = p := by
  have hheader : Header.map (id : α → α) = id := rfl
  have hstrip : Strip.map (id : α → α) = id := by
    funext s
    simp [Strip.map, hheader]
  unfold Picture.map
  cases p with
  | mk stats regions free check => cases free <;> simp [hstrip, Except.map]

/-- A header that says that its block is free is that of a free block. -/
theorem exists_of_mem_headersOf (hh : h ∈ headersOf stop previous bs) (hfree : h.tag = .free) :
    ∃ b ∈ bs, h.forward = b.span ∧ b.tag = .free := by
  induction bs generalizing previous with
  | nil =>
    cases List.mem_singleton.mp hh
    nomatch hfree
  | cons b bs ih =>
    rcases List.mem_cons.mp hh with rfl | hh
    · exact ⟨b, List.mem_cons_self, rfl, hfree⟩
    · obtain ⟨c, hc, hforward, htag⟩ := ih hh
      exact ⟨c, List.mem_cons_of_mem b hc, hforward, htag⟩

theorem Tiles.bounds_of_mem (htiles : Tiles a bs stop) (hh : h ∈ headersOf stop previous bs) :
    a ≤ h.place ∧ h.place + h.forward ≤ stop := by
  induction bs generalizing a previous with
  | nil =>
    cases htiles
    cases List.mem_singleton.mp hh
    exact ⟨Nat.le_refl _, Nat.le_refl _⟩
  | cons b bs ih =>
    obtain ⟨rfl, -, -, htail⟩ := htiles
    rcases List.mem_cons.mp hh with rfl | hh
    · exact ⟨Nat.le_refl _, htail.le⟩
    · obtain ⟨hlo, hhi⟩ := ih htail hh
      exact ⟨Nat.le_of_add_right_le hlo, hhi⟩

/-- The headers of a region are in it. -/
theorem Tract.Sound.bounds_of_mem (hs : t.Sound) (hh : h ∈ t.strip.headers) :
    t.region.base ≤ h.place ∧
      h.place + h.forward + headerSize ≤ t.region.base + t.region.size := by
  obtain ⟨hlo, hhi⟩ := hs.tiles.bounds_of_mem hh
  have hadd := hs.terminator_add
  unfold headerSize
  omega

namespace Outline

theorem confined_picture (hs : o.shape.Sound) : o.picture.Confined := by
  intro s hs' h hh
  obtain ⟨t, ht, rfl⟩ := List.mem_map.mp hs'
  exact (hs.laid.sound t ht).bounds_of_mem hh

/-- All addresses in a picture are in the regions. -/
theorem picture_map_congr (hs : o.shape.Sound) (h : ∀ a, o.shape.Spans a → f a = g a) :
    o.picture.map f = o.picture.map g := by
  have hstrip : ∀ t ∈ o.shape.tracts, t.strip.map f = t.strip.map g := by
    intro t ht
    have hadd := (hs.laid.sound t ht).terminator_add
    have hle := (hs.laid.sound t ht).tiles.le
    have hregion : t.region ∈ o.shape.regions := List.mem_map_of_mem ht
    have hbase : f t.strip.base = g t.strip.base :=
      h _ ⟨t.region, hregion, Nat.le_refl _, show t.region.base < _ by omega⟩
    have hheaders : t.strip.headers.map (Header.map f) = t.strip.headers.map (Header.map g) :=
      List.map_congr_left fun d hd => by
        obtain ⟨hlo, hhi⟩ := (hs.laid.sound t ht).bounds_of_mem hd
        unfold headerSize at hhi
        unfold Header.map
        rw [h d.place ⟨t.region, hregion, hlo, by omega⟩]
    unfold Strip.map
    rw [hbase, hheaders]
  have hfree : o.shape.free.map f = o.shape.free.map g := List.map_congr_left fun x hx => by
    obtain ⟨b, hb, rfl, -⟩ := hs.listed x hx
    obtain ⟨-, -, -, -, hroom⟩ := hs.laid.sound_of_mem hb
    exact h _ (hs.spans_of_mem hb (Nat.le_refl _) (by omega))
  unfold Picture.map picture
  dsimp only
  rw [List.map_map, List.map_map]
  rw [show o.shape.tracts.map (Strip.map f ∘ Tract.strip) =
    o.shape.tracts.map (Strip.map g ∘ Tract.strip) from List.map_congr_left hstrip]
  simp [Except.map, hfree]

end Outline

end

section
variable {σ τ : Type} {f : Nat → Nat} {o : Outline σ} {o' : Outline τ} {bs : List Block}
  {stop previous : Nat}

theorem headersOf_move : headersOf (f stop) previous (bs.map (Block.move f)) =
    (headersOf stop previous bs).map (Header.map f) := by
  induction bs generalizing previous with
  | nil => rfl
  | cons b bs ih => exact congrArg (List.cons _) ih

/-- The picture of a heap at another place. -/
theorem Outline.picture_move (hshape : o'.shape = o.shape.move f) (hunmaps : o'.unmaps = o.unmaps)
    (hterm : ∀ r ∈ o.shape.regions, f r.terminator = (r.move f).terminator) :
    o'.picture = o.picture.map f := by
  have hstrip : ∀ t ∈ o.shape.tracts, (t.move f).strip = t.strip.map f := by
    intro t ht
    unfold Tract.strip Strip.map
    rw [Tract.region_move, Tract.blocks_move, ← hterm t.region (List.mem_map_of_mem ht),
      headersOf_move]
    rfl
  unfold picture Outline.stats Picture.map
  rw [hshape, hunmaps, Shape.regions_move, Region.totalSize_move, List.length_map]
  unfold Shape.move
  dsimp only
  rw [List.map_map, List.map_map]
  rw [show o.shape.tracts.map (Tract.strip ∘ Tract.move f) =
    o.shape.tracts.map (Strip.map f ∘ Tract.strip) from List.map_congr_left hstrip]
  rfl

end

end BoundaryTag
