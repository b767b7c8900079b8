import SqliteComposite.Base.CInt
import SqliteComposite.Inmemfs.Strings
import SqliteComposite.Vfs.Methods

/-!
# Full path names

`cFullPathname` copies at most `MAX_PATHNAME` characters of a name and the terminator, and
refuses only when those characters, without the terminator, do not fit. A name that is longer
is cut off, and one that fills the buffer exactly is terminated behind its end.
-/

namespace SqliteComposite.Vfs

open Base Inmemfs

/-- The stores that leave exactly the string and its terminator at the buffer. -/
def stored (z : CStr) : Stores := fun j ↦
  if 0 ≤ j ∧ j ≤ z.length then some (z.byte j.toNat) else none

/-- `cFullPathname` stores exactly the name, or refuses and stores nothing, and leaves alone
what lies behind a buffer of `n` bytes. -/
def CopiesOrRefuses (z : CStr) (n : Int32) : Prop :=
  ∃ rc t, cFullPathname (some z) n = .ok (rc, t) ∧
    ((rc = .ok ∧ t = stored z) ∨ (rc = .cantopen ∧ t = fun _ ↦ none)) ∧
    ∀ j : Int, n.toInt ≤ j → t j = none

/-- Two names get the same full path. -/
def SamePath (z : CStr) (n : Int32) (z' : CStr) (n' : Int32) : Prop :=
  ∃ t, cFullPathname (some z) n = .ok (.ok, t) ∧ cFullPathname (some z') n' = .ok (.ok, t)

/-- Each name is copied or refused, and different names get different paths. -/
def KeepsApart (z : CStr) (n : Int32) (z' : CStr) (n' : Int32) : Prop :=
  CopiesOrRefuses z n ∧ CopiesOrRefuses z' n' ∧ (z ≠ z' → ¬ SamePath z n z' n')

/-- The buffer has no room for the characters that are looked at, or room for the whole name
with its terminator. -/
def RoomDecides (z : CStr) (n : Int32) : Prop :=
  n.toInt < min z.length maxPathname ∨ (z.length ≤ maxPathname ∧ (z.length : Int) < n.toInt)

section

variable {z z' : CStr} {n n' : Int32}

/-- The stores determine the string. -/
theorem stored_injective (h : stored z = stored z') : z = z' := by
  apply CStr.eq_of_byte_eq
  intro i hi
  have hat := congrFun h i
  rw [stored, stored, if_pos ⟨Int.natCast_nonneg i, by exact_mod_cast hi⟩] at hat
  split at hat
  · injection hat
  · cases hat

/-- The terminator is stored behind the characters. -/
theorem stored_length (z : CStr) : stored z z.length = some 0 := by
  rw [stored, if_pos ⟨Int.natCast_nonneg _, le_rfl⟩, Int.toNat_natCast,
    (z.byte_eq_zero_iff _).mpr le_rfl]

/-- The copy loop stores the characters it reads. -/
theorem copyName_eq (z : CStr) (rounds : Nat) : ∀ (i : Nat) (t : Stores),
    i + rounds ≤ z.length → copyName (some z) i rounds t = .ok fun j ↦
      if (i : Int) ≤ j ∧ j < i + rounds then some (z.byte j.toNat) else t j := by
  induction rounds with
  | zero =>
    intro i t _
    rw [copyName]
    congr 1
    funext j
    rw [if_neg (by omega)]
  | succ rounds ih =>
    intro i t hi
    rw [copyName, reads_readName z i (by omega), ok_bind, ih (i + 1) _ (by omega)]
    congr 1
    funext j
    simp only [Stores.put]
    by_cases hj : j = i
    · subst hj
      rw [if_neg (by omega), if_pos rfl, if_pos (by omega), Int.toNat_natCast]
    · rw [if_neg hj]
      by_cases hr : ((i + 1 : Nat) : Int) ≤ j ∧ j < (i + 1 : Nat) + rounds
      · rw [if_pos hr, if_pos (by omega)]
      · rw [if_neg hr, if_neg (by omega)]

/-- A name is refused when the characters that are looked at do not fit, and otherwise they
are stored with a terminator. -/
theorem cFullPathname_eq (z : CStr) (n : Int32) : cFullPathname (some z) n =
    if n.toInt < min z.length maxPathname then .ok (.cantopen, fun _ ↦ none)
    else .ok (.ok, stored (z.take maxPathname)) := by
  have hlen := boundedLen_eq (reads_readName z) maxPathname 0 (Nat.zero_le _)
  have hlt : min z.length maxPathname < 2 ^ 31 :=
    (Nat.min_le_right _ _).trans_lt (by decide)
  have hcmp : n < Int32.ofNat (min z.length maxPathname) ↔
      n.toInt < min z.length maxPathname := by
    rw [Int32.lt_iff_toInt_lt, toInt_ofNat32 _ hlt]
  rw [Nat.zero_add] at hlen
  rw [cFullPathname, hlen, ok_bind]
  by_cases hn : n.toInt < min z.length maxPathname
  · rw [if_pos hn, if_pos (hcmp.mpr hn)]
  · rw [if_neg hn, if_neg (mt hcmp.mp hn), copyName_eq _ _ _ _ (by omega), ok_bind]
    congr 2
    funext j
    have hcut := z.length_take maxPathname
    simp only [Stores.put, stored, hcut, CStr.byte_take, Nat.min_comm maxPathname]
    by_cases hj : j = (min z.length maxPathname : Nat)
    · subst hj
      rw [if_pos rfl, if_pos ⟨by omega, le_rfl⟩, Int.toNat_natCast]
      split
      · next hlt =>
        rw [(z.byte_eq_zero_iff _).mpr (by omega)]
      · rfl
    · rw [if_neg hj]
      by_cases hr : 0 ≤ j ∧ j ≤ (min z.length maxPathname : Nat)
      · rw [if_pos hr, if_pos (by omega), if_pos (by omega)]
      · rw [if_neg hr, if_neg (by omega)]

/-- A name that is not refused is copied as it should be exactly when it is not cut off and
there is room for its terminator. -/
private theorem copied_iff (hn : ¬ n.toInt < min z.length maxPathname) :
    CopiesOrRefuses z n ↔ z.length ≤ maxPathname ∧ (z.length : Int) < n.toInt := by
  rw [CopiesOrRefuses, cFullPathname_eq, if_neg hn]
  constructor
  · rintro ⟨rc, t, he, ⟨rfl, rfl⟩ | ⟨rfl, rfl⟩, hout⟩
    · injection he with he
      have hz : z.take maxPathname = z := stored_injective (congrArg Prod.snd he)
      have hlen := z.length_take maxPathname
      rw [hz] at hlen
      refine ⟨by omega, ?_⟩
      by_contra hge
      have hend := hout z.length (not_lt.mp hge)
      rw [stored_length] at hend
      cases hend
    · cases he
  · rintro ⟨hle, hlt⟩
    rw [z.take_of_le _ hle]
    refine ⟨.ok, stored z, rfl, .inl ⟨rfl, rfl⟩, fun j hj ↦ ?_⟩
    rw [stored, if_neg (by omega)]

/-- A name is copied or refused as it should be exactly when the room decides it. -/
theorem copiesOrRefuses_iff : CopiesOrRefuses z n ↔ RoomDecides z n := by
  by_cases hn : n.toInt < min z.length maxPathname
  · have he : cFullPathname (some z) n = .ok (.cantopen, fun _ ↦ none) := by
      rw [cFullPathname_eq, if_pos hn]
    exact iff_of_true ⟨_, _, he, .inr ⟨rfl, rfl⟩, fun _ _ ↦ rfl⟩ (.inl hn)
  · rw [copied_iff hn]
    exact ⟨.inr, fun h ↦ h.resolve_left hn⟩

/-- Names that are copied as they should be get different paths when they differ. -/
private theorem eq_of_samePath (h : CopiesOrRefuses z n) (h' : CopiesOrRefuses z' n')
    (hs : SamePath z n z' n') : z = z' := by
  obtain ⟨t, he, he'⟩ := hs
  obtain ⟨rc, u, hu, hc, _⟩ := h
  obtain ⟨rc', u', hu', hc', _⟩ := h'
  rw [he] at hu
  rw [he'] at hu'
  cases hu
  cases hu'
  rcases hc with ⟨_, ht⟩ | ⟨hrc, _⟩
  · rcases hc' with ⟨_, ht'⟩ | ⟨hrc, _⟩
    · exact stored_injective (ht.symm.trans ht')
    · cases hrc
  · cases hrc

/-- Two names are each copied or refused, and kept apart, exactly when the room decides it for
both. -/
theorem keepsApart_iff (z : CStr) (n : Int32) (z' : CStr) (n' : Int32) :
    KeepsApart z n z' n' ↔ RoomDecides z n ∧ RoomDecides z' n' := by
  rw [KeepsApart, copiesOrRefuses_iff, copiesOrRefuses_iff]
  constructor
  · exact fun ⟨h, h', _⟩ ↦ ⟨h, h'⟩
  · intro ⟨h, h'⟩
    exact ⟨h, h', fun hne hs ↦
      hne (eq_of_samePath (copiesOrRefuses_iff.mpr h) (copiesOrRefuses_iff.mpr h') hs)⟩

end

/-- A name of 513 characters is cut off when the buffer has the 513 bytes SQLite allocates. -/
theorem not_keepsApart : ¬ ∀ z n z' n', 0 ≤ n.toInt → 0 ≤ n'.toInt → KeepsApart z n z' n' := by
  intro hall
  let z := CStr.replicate 513 97 (by decide)
  have hroom := copiesOrRefuses_iff.mp (hall z 513 z 513 (by decide) (by decide)).1
  have hlen : z.length = 513 := List.length_replicate
  have hn : (513 : Int32).toInt = 513 := rfl
  have hmax : maxPathname = 512 := rfl
  rw [RoomDecides, hlen, hn, hmax] at hroom
  omega

end SqliteComposite.Vfs
