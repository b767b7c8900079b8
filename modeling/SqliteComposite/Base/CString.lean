import Mathlib.Data.List.GetD
import SqliteComposite.Base.Heap

/-!
# NUL-terminated strings

A C string is its characters, none of them NUL, followed by the terminator. Reading beyond
the terminator is out of bounds. A block holds a string when it starts with its bytes.
-/

namespace SqliteComposite.Base

/-- The characters of a C string, without the terminator. -/
structure CStr where
  chars : List UInt8
  noNul : 0 ∉ chars
  deriving DecidableEq

namespace CStr

/-- Number of characters before the terminator. -/
def length (z : CStr) : Nat := z.chars.length

/-- The byte at an index: a character, or the terminator. -/
def byte (z : CStr) (i : Nat) : UInt8 := z.chars.getD i 0

/-- `z[i]`. -/
def read (z : CStr) (i : Nat) : Except Fault UInt8 :=
  if i ≤ z.length then .ok (z.byte i) else .error .outOfBounds

/-- The first `n` characters. -/
def take (z : CStr) (n : Nat) : CStr where
  chars := z.chars.take n
  noNul h := z.noNul (List.mem_of_mem_take h)

/-- The string that repeats one character. -/
def replicate (n : Nat) (c : UInt8) (hc : c ≠ 0) : CStr where
  chars := List.replicate n c
  noNul h := hc (List.eq_of_mem_replicate h).symm

/-- Reading up to the terminator succeeds. -/
theorem read_eq {z : CStr} {i : Nat} (h : i ≤ z.length) : z.read i = .ok (z.byte i) :=
  if_pos h

/-- Strings with the same characters are equal. -/
theorem ext {a b : CStr} (h : a.chars = b.chars) : a = b := by
  cases a
  cases b
  congr 1

/-- The terminator is the only NUL. -/
theorem byte_eq_zero_iff (z : CStr) (i : Nat) : z.byte i = 0 ↔ z.length ≤ i := by
  unfold byte length
  constructor
  · intro h
    by_contra hi
    have hl : i < z.chars.length := by omega
    rw [List.getD_eq_getElem _ _ hl] at h
    exact z.noNul (h ▸ List.getElem_mem hl)
  · intro h
    exact List.getD_eq_default _ _ h

/-- The length of a prefix. -/
theorem length_take (z : CStr) (n : Nat) : (z.take n).length = min n z.length :=
  List.length_take

/-- A prefix has the characters of the string. -/
theorem byte_take (z : CStr) (n i : Nat) :
    (z.take n).byte i = if i < n then z.byte i else 0 := by
  simp only [byte, take, List.getD_eq_getElem?_getD, List.getElem?_take]
  split <;> rfl

/-- A prefix at least as long as the string is the string. -/
theorem take_of_le (z : CStr) (n : Nat) (h : z.length ≤ n) : z.take n = z :=
  ext (List.take_of_length_le h)

/-- Strings are equal when they agree up to and including the terminator of one. -/
theorem eq_of_byte_eq {a b : CStr} (h : ∀ i ≤ a.length, a.byte i = b.byte i) : a = b := by
  have hz : b.byte a.length = 0 := by
    rw [← h a.length le_rfl, byte_eq_zero_iff]
  have hb : b.length ≤ a.length := (byte_eq_zero_iff b _).mp hz
  have ha : a.length ≤ b.length := by
    rw [← byte_eq_zero_iff, h b.length hb, byte_eq_zero_iff]
  apply ext
  apply List.ext_getElem
  · exact le_antisymm ha hb
  · intro i hi hj
    have he := h i (Nat.le_of_lt hi)
    unfold byte at he
    rwa [List.getD_eq_getElem _ _ hi, List.getD_eq_getElem _ _ hj] at he

end CStr

/-- The block starts with the string and its terminator. -/
def Holds (c : Chars) (z : CStr) : Prop :=
  z.length < c.size ∧ ∀ i ≤ z.length, c.data i = z.byte i

/-- A block holds at most one string. -/
theorem Holds.unique {c : Chars} {a b : CStr} (ha : Holds c a) (hb : Holds c b) : a = b := by
  rcases le_total a.length b.length with h | h
  · exact CStr.eq_of_byte_eq fun i hi ↦ by rw [← ha.2 i hi, hb.2 i (hi.trans h)]
  · exact (CStr.eq_of_byte_eq fun i hi ↦ by rw [← hb.2 i hi, ha.2 i (hi.trans h)]).symm

end SqliteComposite.Base
