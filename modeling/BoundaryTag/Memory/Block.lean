import BoundaryTag.Memory.Basic
import BoundaryTag.Alignment

/-!
# Blocks

A block is named by the address of its header. The header holds the distances to the next header
and to the previous one (its boundary tags) and a tag that tells free blocks from allocated ones.
The payload follows the header; in a free block it starts with the links of the free list.

A header is read and written at multiples of the alignment only. An operation that follows an offset
or a link to any other address faults there (`requireAligned`).

| offset | contents                                |
|-------:|-----------------------------------------|
|      0 | forward offset, 0 at the last header    |
|      8 | backward offset, 0 at the first header  |
|     16 | tag, in the low byte                    |
|     32 | link to the next free block, 0 for none |
|     40 | link to the previous free block         |
-/

namespace BoundaryTag

def headerSize : Nat := 32

/-- The size of the smallest payload: it has room for the two links of a free block. -/
def minPayload : Nat := 16

/-- Whether a block is in use. -/
inductive Tag where
  | free | allocated
deriving DecidableEq, Repr, Inhabited

namespace Tag

/-- The stored form of a tag. -/
def code : Tag → Nat
  | free => 0
  | allocated => 1

/-- The tag that a byte stands for. -/
def ofByte (v : Nat) : Tag := if v = 0 then free else allocated

theorem code_lt (t : Tag) : t.code < 256 := by cases t <;> decide

@[simp] theorem ofByte_code (t : Tag) : ofByte t.code = t := by cases t <;> rfl

end Tag

/-- The neighbours of a free block on the free list. -/
structure Links where
  next : Option Nat
  prev : Option Nat
deriving DecidableEq, Repr

/-- The address of a block's payload. -/
def payloadOf (b : Nat) : Nat := b + headerSize

/-- The block with a given payload. -/
def blockOf (payload : Nat) : Nat := payload - headerSize

@[simp] theorem blockOf_payloadOf (b : Nat) : blockOf (payloadOf b) = b := Nat.add_sub_cancel _ _

/-- Faults unless there can be a header at `b`. -/
def requireAligned (b : Nat) : Except Fault Unit :=
  if b % alignment = 0 then .ok () else .error (.misalignedHeader b)

theorem requireAligned_run {b : Nat} (h : b % alignment = 0) : requireAligned b = .ok () := if_pos h

theorem requireAligned_eq_ok_iff {b : Nat} : requireAligned b = .ok () ↔ b % alignment = 0 := by
  unfold requireAligned
  split <;> simp [*]

namespace Memory

variable (m : Memory) (b : Nat)

/-! ### The header -/

/-- The distance from a header to the next one. -/
def forward : Nat := m.read b

/-- The distance from a header to the previous one. -/
def backward : Nat := m.read (b + 8)

/-- Whether a block is free or allocated. -/
def tag : Tag := .ofByte (m.read (b + 16) % 256)

def isAllocated : Bool := m.tag b = .allocated

/-- Whether a header is the last one of its region. -/
def isTerminator : Bool := m.forward b = 0

/-- Whether a header is the first one of its region. -/
def isSentinel : Bool := m.backward b = 0

/-- The block after a block. An offset that leads past the last address goes on from address
zero. -/
def next : Nat := Word.addWrap b (m.forward b)

/-- The block before a block. An offset that leads past address zero goes on from the last
address. -/
def previous : Nat := Word.subWrap b (m.backward b)

/-- The number of bytes in a block's payload. -/
def payloadSize : Except Fault Nat := Word.sub (m.forward b) headerSize

def setForward (v : Nat) : Memory := m.write b v

def setBackward (v : Nat) : Memory := m.write (b + 8) v

/-- Sets the tag and leaves the other bytes of its word alone. -/
def setTag (t : Tag) : Memory :=
  m.write (b + 16) (m.read (b + 16) / 256 * 256 + t.code)

def pack (forward backward : Nat) (t : Tag) : Memory :=
  ((m.setForward b forward).setBackward b backward).setTag b t

/-! ### The links of a free block -/

/-- The block that a stored link names; no block is at address zero. -/
def link (a : Nat) : Option Nat :=
  let v := m.read a
  if v = 0 then none else some v

/-- Faults unless a block is tagged free. -/
def requireFree : Except Fault Unit := do
  requireAligned b
  if m.isAllocated b then throw (.linksOfAllocated b)

def links : Except Fault Links := do
  m.requireFree b
  return { next := m.link (b + 32), prev := m.link (b + 40) }

/-- Stores the link to the next free block. -/
def setNext (a : Option Nat) : Memory := m.write (b + 32) (a.getD 0)

/-- Stores the link to the previous free block. -/
def setPrev (a : Option Nat) : Memory := m.write (b + 40) (a.getD 0)

def setLinks (l : Links) : Memory := (m.setNext b l.next).setPrev b l.prev

/-- Tags a block free and clears its links. -/
def markFree : Memory := (m.setTag b .free).setLinks b { next := none, prev := none }

/-- Tags a block allocated. Its links stay where they are, as the first words of the payload. -/
def markAllocated : Memory := m.setTag b .allocated

/-! ### Reading after a change -/

variable {m b} {a v : Nat} {t : Tag} {l : Option Nat}

theorem read_setForward :
    (m.setForward b v).read a = if b = a then v % Word.limit else m.read a := read_write

theorem read_setBackward :
    (m.setBackward b v).read a = if b + 8 = a then v % Word.limit else m.read a := read_write

theorem read_setTag :
    (m.setTag b t).read a =
      if b + 16 = a then m.read (b + 16) / 256 * 256 + t.code else m.read a := by
  have old := m.read_lt_limit (b + 16)
  have code := t.code_lt
  unfold setTag
  rw [read_write, Nat.mod_eq_of_lt (by unfold Word.limit at *; omega)]

@[simp] theorem tag_setTag : (m.setTag b t).tag b = t := by
  unfold tag
  rw [read_setTag, if_pos rfl, Nat.mul_comm, Nat.mul_add_mod, Nat.mod_eq_of_lt t.code_lt,
    Tag.ofByte_code]

theorem read_setNext :
    (m.setNext b l).read a = if b + 32 = a then l.getD 0 % Word.limit else m.read a := read_write

theorem read_setPrev :
    (m.setPrev b l).read a = if b + 40 = a then l.getD 0 % Word.limit else m.read a := read_write

theorem link_eq_some_iff : m.link a = some v ↔ v ≠ 0 ∧ m.read a = v := by
  unfold link
  dsimp only
  split <;> rename_i h
  · exact ⟨nofun, fun ⟨ne, eq⟩ => absurd (eq ▸ h) ne⟩
  · exact ⟨fun eq => Option.some.inj eq ▸ ⟨h, rfl⟩, fun ⟨_, eq⟩ => congrArg some eq⟩

end Memory

end BoundaryTag
