import SqliteComposite.Inmemfs.Functions

/-!
# String and copy loops

The comparison loop decides equality of names shorter than its bound and nothing else; the
bounded copy stores a prefix; a copy into an array stores its bytes when they fit and goes
out of bounds when they do not.
-/

namespace SqliteComposite.Inmemfs

open Base

/-- What a reader of a string returns up to its terminator. -/
def Reads (s : Nat → Except Fault UInt8) (z : CStr) : Prop := ∀ i ≤ z.length, s i = .ok (z.byte i)

/-- A caller's string reads as itself. -/
theorem reads_readName (z : CStr) : Reads (readName (some z)) z := fun _ hi ↦ CStr.read_eq hi

/-- A block that holds a string reads as that string. -/
theorem reads_block {m : FsMem} {p : Addr} {c : Chars} {z : CStr}
    (hp : m.heap[p]? = some (.chars c)) (hc : Holds c z) : Reads (fun i ↦ m.readChar p i) z := by
  intro i hi
  change m.readChar p i = _
  rw [Memory.readChar_eq hp (Nat.lt_of_le_of_lt hi hc.1), hc.2 i hi]

private theorem strequals_from {s1 s2 : Nat → Except Fault UInt8} {a b : CStr}
    (h1 : Reads s1 a) (h2 : Reads s2 b) (rounds : Nat) :
    ∀ i, i ≤ a.length → i ≤ b.length → (∀ j < i, a.byte j = b.byte j) →
      fsStrequals s1 s2 i rounds = .ok (decide (a = b ∧ a.length < i + rounds)) := by
  induction rounds with
  | zero =>
    intro i ha hb hp
    have hn : ¬ (a = b ∧ a.length < i + 0) := by omega
    simp only [fsStrequals, hn, decide_false]
  | succ rounds ih =>
    intro i ha hb hp
    rw [fsStrequals, h1 i ha, h2 i hb]
    simp only [ok_bind]
    split
    · next hz =>
      have hla := (a.byte_eq_zero_iff i).mp hz.1
      have he : a = b := CStr.eq_of_byte_eq fun j hj ↦ by
        rcases Nat.lt_or_eq_of_le (hj.trans hla) with hlt | rfl
        · exact hp j hlt
        · rw [hz.1, hz.2]
      have hy : a = b ∧ a.length < i + (rounds + 1) := ⟨he, by omega⟩
      rw [decide_eq_true hy]
    · next hz =>
      split
      · next hne =>
        have hn : ¬ (a = b ∧ a.length < i + (rounds + 1)) := fun h ↦ hne (by rw [h.1])
        simp only [hn, decide_false]
      · next heq =>
        have heq : a.byte i = b.byte i := not_not.mp heq
        have hnz : a.byte i ≠ 0 := fun h0 ↦ hz ⟨h0, heq ▸ h0⟩
        have hia : i < a.length := by
          rw [Ne, a.byte_eq_zero_iff] at hnz
          omega
        have hib : i < b.length := by
          rw [heq, Ne, b.byte_eq_zero_iff] at hnz
          omega
        rw [ih (i + 1) hia hib, Nat.add_right_comm, Nat.add_assoc]
        intro j hj
        rcases Nat.lt_or_eq_of_le (Nat.le_of_lt_succ hj) with hlt | rfl
        · exact hp j hlt
        · exact heq

/-- The comparison finds two strings equal when they are, and end within its bound. -/
theorem fsStrequals_eq {s1 s2 : Nat → Except Fault UInt8} {a b : CStr} (h1 : Reads s1 a)
    (h2 : Reads s2 b) (n : Nat) :
    fsStrequals s1 s2 0 n = .ok (decide (a = b ∧ a.length < n)) := by
  have h := strequals_from h1 h2 n 0 (Nat.zero_le _) (Nat.zero_le _) (fun j hj ↦ by omega)
  rwa [Nat.zero_add] at h

/-- The length loop stops at the terminator or at its bound. -/
theorem boundedLen_eq {s : Nat → Except Fault UInt8} {z : CStr} (hs : Reads s z)
    (rounds : Nat) : ∀ len, len ≤ z.length →
      boundedLen s len rounds = .ok (min z.length (len + rounds)) := by
  induction rounds with
  | zero =>
    intro len hl
    rw [boundedLen, hs len hl]
    simp only [ok_bind, Nat.add_zero, Nat.min_eq_right hl]
  | succ rounds ih =>
    intro len hl
    rw [boundedLen, hs len hl]
    simp only [ok_bind]
    split
    · next hz =>
      have hz := (z.byte_eq_zero_iff len).mp hz
      rw [Nat.min_eq_left (by omega), le_antisymm hl hz]
    · next hz =>
      rw [z.byte_eq_zero_iff] at hz
      rw [ih (len + 1) (by omega), Nat.add_right_comm, Nat.add_assoc]

/-! ### Copies -/

/-- Copying bytes that fit into an array stores them there. -/
theorem copy_chars {p : Addr} {w : FsMem → Nat → UInt8 → Except Fault FsMem}
    {src : Nat → Except Fault UInt8} {f : Nat → UInt8} {off : Nat}
    (hw : ∀ m i b, w m i b = m.writeChar p ((off + i : Nat) : Int) b) (rounds : Nat) :
    ∀ (i : Nat) (m : FsMem) (c : Chars), m.heap[p]? = some (.chars c) →
      (∀ j, i ≤ j → j < i + rounds → src j = .ok (f j)) → off + i + rounds ≤ c.size →
      fsCopydata w src i rounds m = .ok
        ⟨m.heap.insert p (.chars (c.blit (off + i) rounds fun j ↦ f (i + j))), m.answers⟩ := by
  induction rounds with
  | zero =>
    intro i m c hp _ _
    rw [fsCopydata, Chars.blit_zero, insert_same hp]
  | succ rounds ih =>
    intro i m c hp hs hb
    rw [fsCopydata, hs i le_rfl (by omega)]
    simp only [ok_bind]
    rw [hw, Memory.writeChar_eq hp (by omega)]
    simp only [ok_bind]
    rw [ih (i + 1) _ (c.set (off + i) (f i)) (get_insert_self _ _ _)
      (fun j hj hj' ↦ hs j (by omega) (by omega)) (by simp only [Chars.set]; omega)]
    simp only [insert_insert]
    have hc := c.blit_set (off + i) rounds fun j ↦ f (i + j)
    simp only [Nat.add_zero, Nat.add_comm _ 1, ← Nat.add_assoc] at hc ⊢
    rw [← hc]

/-- Copying bytes that do not fit goes out of bounds. -/
theorem copy_past {p : Addr} {w : FsMem → Nat → UInt8 → Except Fault FsMem}
    {src : Nat → Except Fault UInt8} {f : Nat → UInt8} {off : Nat}
    (hw : ∀ m i b, w m i b = m.writeChar p ((off + i : Nat) : Int) b)
    (hs : ∀ j, src j = .ok (f j)) (rounds : Nat) :
    ∀ (i : Nat) (m : FsMem) (c : Chars), m.heap[p]? = some (.chars c) →
      c.size < off + i + (rounds + 1) →
      fsCopydata w src i (rounds + 1) m = .error .outOfBounds := by
  induction rounds with
  | zero =>
    intro i m c hp hb
    rw [fsCopydata, hs i]
    simp only [ok_bind]
    rw [hw, Memory.writeChar_past hp (by omega)]
    rfl
  | succ rounds ih =>
    intro i m c hp hb
    rw [fsCopydata, hs i]
    simp only [ok_bind]
    rw [hw]
    by_cases hi : off + i < c.size
    · rw [Memory.writeChar_eq hp hi]
      exact ih (i + 1) _ (c.set (off + i) (f i)) (get_insert_self _ _ _)
        (by simp only [Chars.set]; omega)
    · rw [Memory.writeChar_past hp (by omega)]
      rfl

/-- Copying into the caller's buffer stores each byte at its index. -/
theorem copy_stores {src : Nat → Except Fault UInt8} {f : Nat → UInt8} (rounds : Nat) :
    ∀ (i : Nat) (t : Stores), (∀ j, i ≤ j → j < i + rounds → src j = .ok (f j)) →
      fsCopydata (fun (t : Stores) i c ↦ .ok (t.put i c)) src i rounds t =
        .ok fun j ↦ if i ≤ j ∧ j < i + rounds then some (f j.toNat) else t j := by
  induction rounds with
  | zero =>
    intro i t _
    have hn (j : Int) : ¬ ((i : Int) ≤ j ∧ j < i + (0 : Nat)) := by omega
    simp only [fsCopydata, hn, ↓reduceIte]
  | succ rounds ih =>
    intro i t hs
    rw [fsCopydata, hs i le_rfl (by omega)]
    simp only [ok_bind]
    rw [ih (i + 1) _ fun j hj hj' ↦ hs j (by omega) (by omega)]
    congr 1
    funext j
    push_cast
    by_cases hj : j = i
    · subst j
      rw [if_neg (by omega), if_pos (by omega)]
      simp [Stores.put]
    · have he : ((i : Int) + 1 ≤ j ∧ j < i + 1 + rounds) ↔
          ((i : Int) ≤ j ∧ j < i + (rounds + 1)) := by omega
      simp only [he, Stores.put, hj, ↓reduceIte]

end SqliteComposite.Inmemfs
