import Std.Data.TreeMap
import BoundaryTag.Word

/-!
# Memory

Memory is a sparse table of 64-bit words, each under the address of its first byte. A word that
was never written reads zero. Operations on memory are seen through `Memory.read`.
-/

namespace BoundaryTag

/-- The contents of the address space, as far as they differ from zero. -/
structure Memory where
  /-- The words that were written, under their addresses. -/
  words : Std.TreeMap Nat UInt64 := ∅
deriving Inhabited

namespace Memory

instance : EmptyCollection Memory := ⟨{}⟩

def read (m : Memory) (a : Nat) : Nat := (m.words.getD a 0).toNat

/-- Stores a word at an address. Of a larger number the low 64 bits are stored. -/
def write (m : Memory) (a : Nat) (v : Nat) : Memory := ⟨m.words.insert a (.ofNat v)⟩

/-- Takes the words of the range of `size` bytes from `base` over from `contents`. -/
def replace (m : Memory) (base : Nat) (size : Nat) (contents : Memory) : Memory :=
  ⟨m.words.filter (fun a _ => a < base || base + size ≤ a) ∪
    contents.words.filter (fun a _ => base ≤ a && a < base + size)⟩

variable {m c : Memory} {a b : Nat} {v : Nat}

theorem read_lt_limit (m : Memory) (a : Nat) : m.read a < Word.limit :=
  UInt64.toNat_lt _

@[simp] theorem read_empty : (∅ : Memory).read a = 0 := rfl

theorem read_write : (m.write a v).read b = if a = b then v % Word.limit else m.read b := by
  unfold read write
  rw [Std.TreeMap.getD_insert]
  simp only [Std.LawfulEqCmp.compare_eq_iff_eq]
  split
  · exact UInt64.toNat_ofNat'
  · rfl

@[simp] theorem read_write_self (h : v < Word.limit) : (m.write a v).read a = v := by
  rw [read_write, if_pos rfl, Nat.mod_eq_of_lt h]

theorem read_write_of_ne (h : a ≠ b) : (m.write a v).read b = m.read b := by
  rw [read_write, if_neg h]

theorem read_replace {base size : Nat} :
    (m.replace base size c).read a =
      if base ≤ a ∧ a < base + size then c.read a else m.read a := by
  unfold read replace
  simp only [Std.TreeMap.getD_eq_getD_getElem?, Std.TreeMap.getElem?_union,
    Std.TreeMap.getElem?_filter', Option.filter]
  by_cases h : base ≤ a ∧ a < base + size
  · have h' : ¬(a < base ∨ base + size ≤ a) := by omega
    cases c.words[a]? <;> cases m.words[a]? <;> simp [h, h']
  · have h' : a < base ∨ base + size ≤ a := by omega
    cases c.words[a]? <;> cases m.words[a]? <;> simp [h, h']

/-! ### Bytes

The bytes of a word are numbered from the least significant one. -/

def byte (m : Memory) (a : Nat) : Nat := m.read (a / 8 * 8) >>> (8 * (a % 8)) % 256

def writeByte (m : Memory) (a : Nat) (v : Nat) : Memory :=
  let shift := 8 * (a % 8)
  m.write (a / 8 * 8) (m.read (a / 8 * 8) - m.byte a <<< shift + (v % 256) <<< shift)

def fillWords (m : Memory) (a : Nat) (v : Nat) : Nat → Memory
  | 0 => m
  | n + 1 => (m.write a v).fillWords (a + 8) v n

/-- Stores the same byte `n` times, from `a` on. -/
def fillBytes (m : Memory) (a : Nat) (v : Nat) : Nat → Memory
  | 0 => m
  | n + 1 => (m.writeByte a v).fillBytes (a + 1) v n

/-- Stores a byte throughout the range of `size` bytes from `a`, a multiple of the word size:
first whole words, then the bytes of the last word. -/
def fill (m : Memory) (a : Nat) (size v : Nat) : Memory :=
  (m.fillWords a (v % 256 * 0x0101010101010101) (size / 8)).fillBytes
    (a + size / 8 * 8) v (size % 8)

/-- The index of the first of `n` bytes from `a` that is not `v`, where `i` bytes came before. -/
def firstOther (m : Memory) (a : Nat) (v i : Nat) : Nat → Option Nat
  | 0 => none
  | n + 1 => if m.byte a = v then m.firstOther (a + 1) v (i + 1) n else some i

end Memory

end BoundaryTag
