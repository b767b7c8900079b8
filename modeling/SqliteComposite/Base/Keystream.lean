import Mathlib.GroupTheory.Perm.Basic
import Mathlib.Tactic

/-!
# Key streams from a permutation

The state of the cipher is a permutation of the values and two indices into it. A round moves
the indices on and exchanges two values, so that the state is a permutation always; the value it
puts out is looked up at the sum of the two. The key stream of a state is the same however it is
cut into pieces.
-/

namespace SqliteComposite.Base

variable {α : Type} [One α] [Add α] [DecidableEq α]

/-- Two indices into a permutation of the values. -/
@[ext] structure Cipher (α : Type) where
  i : α
  j : α
  s : Equiv.Perm α

namespace Cipher

/-- A round. -/
def next (c : Cipher α) : Cipher α :=
  let i := c.i + 1
  let j := c.j + c.s i
  ⟨i, j, c.s * Equiv.swap i j⟩

/-- The value a state puts out. -/
def output (c : Cipher α) : α := c.s (c.s c.j + c.s c.i)

/-- The first values that the rounds from a state on put out. -/
def stream (c : Cipher α) (n : Nat) : List α := (List.range n).map fun k ↦ (next^[k + 1] c).output

/-- One value of the key is mixed into the permutation. -/
def mix (key : α → α) (c : Cipher α) (i : α) : Cipher α :=
  let j := c.j + (c.s i + key i)
  ⟨c.i, j, c.s * Equiv.swap i j⟩

/-- The state once the key is mixed in at some indices, in order. -/
def schedule [Zero α] (key : α → α) (order : List α) : Cipher α :=
  order.foldl (mix key) ⟨0, 0, 1⟩

variable {c : Cipher α}

/-- The first value and the others. -/
theorem stream_succ (c : Cipher α) (n : Nat) :
    c.stream (n + 1) = c.next.output :: c.next.stream n := by
  simp only [stream, List.range_succ_eq_map, List.map_cons, List.map_map]
  rfl

/-- A key stream goes on where it was left. -/
theorem stream_add (m : Nat) : ∀ (n : Nat) (c : Cipher α),
    c.stream (m + n) = c.stream m ++ (next^[m] c).stream n := by
  induction m with
  | zero =>
    intro n c
    rw [Nat.zero_add]
    rfl
  | succ m ih =>
    intro n c
    rw [Nat.add_right_comm, stream_succ, ih, stream_succ]
    rfl

/-- As many values as are asked for. -/
@[simp] theorem length_stream (c : Cipher α) (n : Nat) : (c.stream n).length = n := by
  rw [stream, List.length_map, List.length_range]

end Cipher
end SqliteComposite.Base
