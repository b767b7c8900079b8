import Mathlib.Algebra.Group.Hom.End
import Mathlib.Dynamics.PeriodicPts.Defs
import Mathlib.RingTheory.Nilpotent.Basic
import SqliteComposite.Base.Residues

/-!
# Machine words under exclusive or

The words of `w` bits are a group under exclusive or, and shifts are endomorphisms of it. A
word xored with its own shift can be recovered, because shifts are nilpotent. Two endomorphisms
that agree on the words of a single bit are the same, which makes a period of one computable.
-/

namespace SqliteComposite.Base

/-- The words of `w` bits, with exclusive or as addition. -/
@[ext] structure Word (w : Nat) where
  bits : BitVec w

namespace Word

variable {w : Nat}

instance : Zero (Word w) := ⟨⟨0#w⟩⟩

instance : Add (Word w) := ⟨fun x y ↦ ⟨x.bits ^^^ y.bits⟩⟩

instance : Neg (Word w) := ⟨id⟩

/-- The bits of a sum. -/
@[simp] theorem bits_add (x y : Word w) : (x + y).bits = x.bits ^^^ y.bits := rfl

instance : AddCommGroup (Word w) where
  add_assoc x y z := Word.ext (BitVec.xor_assoc x.bits y.bits z.bits)
  zero_add _ := Word.ext BitVec.zero_xor
  add_zero _ := Word.ext BitVec.xor_zero
  neg_add_cancel _ := Word.ext BitVec.xor_self
  add_comm x y := Word.ext (BitVec.xor_comm x.bits y.bits)
  nsmul := nsmulRec
  zsmul := zsmulRec

/-- A function that commutes with exclusive or, as an endomorphism. -/
def ofXor (f : BitVec w → BitVec w) (hf : ∀ x y, f (x ^^^ y) = f x ^^^ f y) :
    AddMonoid.End (Word w) :=
  AddMonoidHom.mk' (fun x ↦ ⟨f x.bits⟩) fun x y ↦ Word.ext (hf x.bits y.bits)

/-- What the endomorphism does to a word. -/
@[simp] theorem bits_ofXor (f : BitVec w → BitVec w)
    (hf : ∀ x y, f (x ^^^ y) = f x ^^^ f y) (x : Word w) :
    (ofXor f hf x).bits = f x.bits := rfl

/-- The shift to the right. -/
def shiftRight (k : Nat) : AddMonoid.End (Word w) :=
  ofXor (fun x ↦ x >>> k) fun x y ↦ BitVec.ushiftRight_xor_distrib x y k

/-- The shift to the left. -/
def shiftLeft (k : Nat) : AddMonoid.End (Word w) :=
  ofXor (fun x ↦ x <<< k) fun x y ↦ BitVec.shiftLeft_xor_distrib x y k

/-- A word xored with its image. -/
theorem bits_one_add (f : AddMonoid.End (Word w)) (x : Word w) :
    ((1 + f : AddMonoid.End (Word w)) x).bits = x.bits ^^^ (f x).bits := rfl

/-- Every endomorphism is its own negative. -/
theorem end_add_self (f : AddMonoid.End (Word w)) : f + f = 0 :=
  AddMonoid.End.ext _ fun _ ↦ Word.ext BitVec.xor_self

/-! ### Shifts -/

/-- Shifts to the right add up. -/
theorem shiftRight_pow (k n : Nat) (x : Word w) :
    ((shiftRight k ^ n : AddMonoid.End (Word w)) x).bits = x.bits >>> (k * n) := by
  induction n with
  | zero => rfl
  | succ n ih =>
    rw [pow_succ', AddMonoid.End.coe_mul, Function.comp_apply, shiftRight, bits_ofXor,
      ← shiftRight, ih]
    exact (BitVec.shiftRight_add x.bits (k * n) k).symm

/-- Shifts to the left add up. -/
theorem shiftLeft_pow (k n : Nat) (x : Word w) :
    ((shiftLeft k ^ n : AddMonoid.End (Word w)) x).bits = x.bits <<< (k * n) := by
  induction n with
  | zero => exact (BitVec.shiftLeft_zero x.bits).symm
  | succ n ih =>
    rw [pow_succ', AddMonoid.End.coe_mul, Function.comp_apply, shiftLeft, bits_ofXor,
      ← shiftLeft, ih]
    exact (BitVec.shiftLeft_add x.bits (k * n) k).symm

/-- Xoring a word with its shift to the right loses nothing. -/
theorem isUnit_shiftRight {k : Nat} (hk : 0 < k) :
    IsUnit (1 + shiftRight k : AddMonoid.End (Word w)) := by
  apply IsNilpotent.isUnit_one_add
  refine ⟨w, AddMonoid.End.ext _ fun x ↦ Word.ext ?_⟩
  rw [shiftRight_pow, BitVec.ushiftRight_eq_zero (Nat.le_mul_of_pos_left w hk)]
  rfl

/-- Xoring a word with its shift to the left loses nothing. -/
theorem isUnit_shiftLeft {k : Nat} (hk : 0 < k) :
    IsUnit (1 + shiftLeft k : AddMonoid.End (Word w)) := by
  apply IsNilpotent.isUnit_one_add
  refine ⟨w, AddMonoid.End.ext _ fun x ↦ Word.ext ?_⟩
  rw [shiftLeft_pow, BitVec.shiftLeft_eq_zero (Nat.le_mul_of_pos_left w hk)]
  rfl

/-- An invertible endomorphism is a bijection. -/
theorem bijective_of_isUnit {f : AddMonoid.End (Word w)} (hf : IsUnit f) :
    Function.Bijective f := by
  obtain ⟨u, rfl⟩ := hf
  apply Function.bijective_iff_has_inverse.mpr
  refine ⟨(u⁻¹ : (AddMonoid.End (Word w))ˣ).val, fun x ↦ ?_, fun x ↦ ?_⟩
  · change ((u⁻¹ : (AddMonoid.End (Word w))ˣ).val * u.val) x = x
    rw [Units.inv_mul]
    rfl
  · change (u.val * (u⁻¹ : (AddMonoid.End (Word w))ˣ).val) x = x
    rw [Units.mul_inv]
    rfl

/-! ### Single bits -/

/-- The lowest `k` bits of a word. -/
def low (x : BitVec w) (k : Nat) : BitVec w := BitVec.ofNat w (x.toNat % 2 ^ k)

/-- One more bit. -/
theorem low_succ (x : BitVec w) (k : Nat) :
    low x (k + 1) = low x k ^^^ if x.getLsbD k then BitVec.twoPow w k else 0#w := by
  apply BitVec.eq_of_getLsbD_eq
  intro i hi
  have hif : (if x.getLsbD k then BitVec.twoPow w k else 0#w).getLsbD i =
      (x.getLsbD k && decide (k = i)) := by
    cases x.getLsbD k
    · simp
    · rw [if_pos rfl, BitVec.getLsbD_twoPow, Bool.true_and]
      by_cases hk : k = i
      · simp [hk, hi]
      · simp [hk]
  rw [BitVec.getLsbD_xor, hif, low, low, BitVec.getLsbD_ofNat, BitVec.getLsbD_ofNat,
    Nat.testBit_mod_two_pow, Nat.testBit_mod_two_pow, BitVec.testBit_toNat]
  rcases Nat.lt_trichotomy i k with h | rfl | h
  · simp [hi, h, Nat.lt_succ_of_lt h, h.ne']
  · simp [hi]
  · simp [show ¬ i < k by omega, show ¬ i < k + 1 by omega, h.ne]

/-- Endomorphisms that agree on single bits agree. -/
theorem ext_bits {f g : AddMonoid.End (Word w)}
    (h : ∀ i < w, f ⟨BitVec.twoPow w i⟩ = g ⟨BitVec.twoPow w i⟩) : f = g := by
  have hlow (x : BitVec w) (k : Nat) (hk : k ≤ w) : f ⟨low x k⟩ = g ⟨low x k⟩ := by
    induction k with
    | zero =>
      have h0 : (⟨low x 0⟩ : Word w) = 0 := Word.ext (by rw [low, pow_zero, Nat.mod_one]; rfl)
      rw [h0, map_zero, map_zero]
    | succ k ih =>
      have hsum : (⟨low x (k + 1)⟩ : Word w) =
          ⟨low x k⟩ + ⟨if x.getLsbD k then BitVec.twoPow w k else 0#w⟩ :=
        Word.ext (low_succ x k)
      rw [hsum, map_add, map_add, ih (by omega)]
      congr 1
      split
      · exact h k hk
      · exact (map_zero f).trans (map_zero g).symm
  apply AddMonoid.End.ext
  intro x
  have hx : low x.bits w = x.bits := by
    rw [low, Nat.mod_eq_of_lt x.bits.isLt, BitVec.ofNat_toNat, BitVec.setWidth_eq]
  have hw := hlow x.bits w le_rfl
  rwa [hx] at hw

/-! ### Periods -/

/-- The value of the `n` lowest terms of a polynomial in a function, at a word. -/
def horner (f : BitVec w → BitVec w) : Nat → Nat → BitVec w → BitVec w
  | 0, _, _ => 0#w
  | n + 1, p, x => (if p.testBit 0 then x else 0#w) ^^^ horner f n (p >>> 1) (f x)

section

variable {f : BitVec w → BitVec w} {hf : ∀ x y, f (x ^^^ y) = f x ^^^ f y} {n c k e : Nat}

/-- Polynomials in an endomorphism are evaluated at words. -/
theorem bits_evalBits (n : Nat) : ∀ (p : Nat) (x : Word w),
    (evalBits (ofXor f hf) n p x).bits = horner f n p x.bits := by
  induction n with
  | zero => exact fun _ _ ↦ rfl
  | succ n ih =>
    intro p x
    rw [evalBits, horner, ← bits_ofXor f hf, ← ih]
    cases p.testBit 0 <;> rfl

/-- Iterates of an endomorphism are its powers. -/
theorem bits_pow (n : Nat) (x : Word w) : ((ofXor f hf ^ n) x).bits = f^[n] x.bits := by
  induction n with
  | zero => rfl
  | succ n ih =>
    rw [pow_succ', Function.iterate_succ_apply', ← ih]
    rfl

/-- A function that satisfies, on single bits, the polynomial of degree `n` with the lower
coefficients `c` has each period of the indeterminate modulo that polynomial. -/
theorem iterate_of_powX (hf : ∀ x y, f (x ^^^ y) = f x ^^^ f y) (hn : 0 < n)
    (hc : ∀ i < w, f^[n] (BitVec.twoPow w i) = horner f n c (BitVec.twoPow w i))
    (he : e < 2 ^ k) (h1 : powX n c k e = 1) (x : BitVec w) : f^[e] x = x := by
  have hroot : ofXor f hf ^ n = evalBits (ofXor f hf) n c := by
    apply ext_bits
    intro i hi
    apply Word.ext
    rw [bits_pow, bits_evalBits]
    exact hc i hi
  have hone := pow_eq_one_of_powX end_add_self hroot hn he h1
  have hx : ((ofXor f hf ^ e) ⟨x⟩).bits = f^[e] x := bits_pow e ⟨x⟩
  rw [hone] at hx
  exact hx.symm

end

end Word

/-- An orbit that closes after `n` steps misses one of any `n + 1` points. -/
theorem exists_not_reached {α : Type*} {f : α → α} {s : α} {n : Nat} (hn : 0 < n)
    (hs : f^[n] s = s) {g : Nat → α} (hg : Set.InjOn g (Set.Iic n)) :
    ∃ i ≤ n, ∀ k, f^[k] s ≠ g i := by
  by_contra hall
  push Not at hall
  choose! k hk using hall
  obtain ⟨i, hi, j, hj, hne, he⟩ := Finset.exists_ne_map_eq_of_card_lt_of_maps_to
    (s := Finset.range (n + 1)) (t := Finset.range n) (f := fun i ↦ k i % n) (by simp)
    fun i _ ↦ Finset.mem_coe.mpr (Finset.mem_range.mpr (Nat.mod_lt _ hn))
  rw [Finset.mem_range, Nat.lt_succ_iff] at hi hj
  apply hne
  apply hg hi hj
  have hper : Function.IsPeriodicPt f n s := hs
  rw [← hk i hi, ← hk j hj, ← hper.iterate_mod_apply (k i), ← hper.iterate_mod_apply (k j)]
  exact congrArg (fun m ↦ f^[m] s) he

end SqliteComposite.Base
