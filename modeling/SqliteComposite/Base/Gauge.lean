import Mathlib.Order.Bounds.Basic
import Mathlib.Tactic

/-!
# Gauges with a high-water mark

A gauge shows a current value and a mark. Its record is the list of values it has shown since
the mark was last reset, the last one first. The mark is the greatest value on record as long as
the gauge is moved, dropped, noted and reset with the record kept along.
-/

namespace SqliteComposite.Base

/-- A current value and a high-water mark. -/
@[ext] structure Gauge (α : Type) where
  now : α
  high : α

namespace Gauge

section Order

variable {α : Type} [LinearOrder α] {g : Gauge α} {past : List α}

/-- The mark alone is raised. -/
def note (g : Gauge α) (a : α) : Gauge α := ⟨g.now, max a g.high⟩

/-- The mark is set back to the value. -/
def reset (g : Gauge α) : Gauge α := ⟨g.now, g.now⟩

/-- The value is on record and the mark is the greatest one there. -/
structure Records (g : Gauge α) (past : List α) : Prop where
  now : g.now ∈ past
  high : IsGreatest {a | a ∈ past} g.high

/-- The greatest value on record once another is. -/
theorem isGreatest_cons {m : α} (a : α) (h : IsGreatest {b | b ∈ past} m) :
    IsGreatest {b | b ∈ a :: past} (max a m) := by
  have hset : {b | b ∈ a :: past} = insert a {b | b ∈ past} := by
    ext b
    simp
  rw [hset]
  exact h.insert a

/-- No value on record exceeds the mark. -/
theorem Records.le_high (h : g.Records past) : g.now ≤ g.high := h.high.2 h.now

/-- A value that does not exceed the mark goes on record without it. -/
theorem Records.cons {a : α} (h : g.Records past) (hle : a ≤ g.high) : g.Records (a :: past) where
  now := List.mem_cons_of_mem _ h.now
  high := by
    have hg := isGreatest_cons a h.high
    rwa [max_eq_right hle] at hg

/-- Reading the gauge leaves it on record. -/
theorem Records.stay (h : g.Records past) : g.Records (g.now :: past) := h.cons h.le_high

/-- Raising the mark puts it on record. -/
theorem Records.note (h : g.Records past) (a : α) : (g.note a).Records (a :: past) where
  now := List.mem_cons_of_mem _ h.now
  high := isGreatest_cons _ h.high

/-- A mark that is reset has one value on record. -/
theorem records_reset (g : Gauge α) : g.reset.Records [g.now] where
  now := List.mem_singleton_self _
  high := by simp [reset, IsGreatest, upperBounds]

end Order

section Group

variable {α : Type} [AddCommGroup α] [LinearOrder α] {g : Gauge α} {past : List α}

/-- The value changes, and the mark goes with it when it is exceeded. -/
def move (g : Gauge α) (d : α) : Gauge α := ⟨g.now + d, max (g.now + d) g.high⟩

/-- The value falls. -/
def drop (g : Gauge α) (d : α) : Gauge α := ⟨g.now - d, g.high⟩

/-- Moving the gauge puts the new value on record. -/
theorem Records.move (h : g.Records past) (d : α) :
    (g.move d).Records ((g.now + d) :: past) where
  now := List.mem_cons_self
  high := isGreatest_cons _ h.high

/-- Dropping the gauge puts the new value on record. -/
theorem Records.drop [IsOrderedAddMonoid α] (h : g.Records past) {d : α} (hd : 0 ≤ d) :
    (g.drop d).Records ((g.now - d) :: past) where
  now := List.mem_cons_self
  high := (h.cons ((sub_le_self _ hd).trans h.le_high)).high

end Group

end Gauge
end SqliteComposite.Base
