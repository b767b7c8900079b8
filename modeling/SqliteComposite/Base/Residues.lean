import Mathlib.Algebra.Ring.Basic
import Mathlib.Tactic

/-!
# Powers in a ring of characteristic two

A polynomial over the field of two elements is a natural number whose bits are its
coefficients, the low ones first. When an element is a root of a monic polynomial of degree
`n` with the lower coefficients `c`, its powers are polynomials of degree less than `n` in it,
and these can be computed.
-/

namespace SqliteComposite.Base

/-- Multiply by the indeterminate, modulo the polynomial. -/
def timesX (n c p : Nat) : Nat := (2 * p) % 2 ^ n ^^^ (if (2 * p).testBit n then c else 0)

/-- Multiply `q` by the `k` lowest terms of `p`, modulo the polynomial. -/
def times (n c : Nat) : Nat → Nat → Nat → Nat
  | 0, _, _ => 0
  | k + 1, p, q => (if p.testBit 0 then q else 0) ^^^ timesX n c (times n c k (p >>> 1) q)

/-- The power of the indeterminate with a `k`-bit exponent, by repeated squaring. -/
def powX (n c : Nat) : Nat → Nat → Nat
  | 0, _ => 1
  | k + 1, e =>
    let r := powX n c k (e / 2)
    let s := times n c n r r
    if e % 2 = 1 then timesX n c s else s

section

variable {R : Type*} [Ring R] {a : R} {n c k p q e : Nat}

/-- The value of the `n` lowest terms of a polynomial. -/
def evalBits (a : R) : Nat → Nat → R
  | 0, _ => 0
  | n + 1, p => (if p.testBit 0 then (1 : R) else 0) + evalBits a n (p >>> 1) * a

/-- The zero polynomial. -/
theorem evalBits_zero (a : R) (n : Nat) : evalBits a n 0 = 0 := by
  induction n with
  | zero => rfl
  | succ n ih => rw [evalBits, Nat.zero_testBit, Nat.zero_shiftRight, ih]; simp

/-- The polynomial one. -/
theorem evalBits_one (a : R) (hn : 0 < n) : evalBits a n 1 = 1 := by
  obtain ⟨n, rfl⟩ := Nat.exists_eq_succ_of_ne_zero hn.ne'
  have h0 : Nat.testBit 1 0 = true := rfl
  have h1 : 1 >>> 1 = 0 := rfl
  rw [evalBits, h0, h1, evalBits_zero, if_pos rfl, zero_mul, add_zero]

/-- Higher coefficients do not matter. -/
theorem evalBits_congr (a : R) (n : Nat) : ∀ {p q : Nat},
    (∀ i < n, p.testBit i = q.testBit i) → evalBits a n p = evalBits a n q := by
  induction n with
  | zero => exact fun _ ↦ rfl
  | succ n ih =>
    intro p q h
    rw [evalBits, evalBits, h 0 (Nat.succ_pos n), ih (p := p >>> 1) (q := q >>> 1)]
    intro i hi
    rw [Nat.testBit_shiftRight, Nat.testBit_shiftRight, h (1 + i) (by omega)]

/-- Multiplying by the indeterminate makes room for one more term. -/
theorem evalBits_double (a : R) (n p : Nat) : evalBits a (n + 1) (2 * p) = evalBits a n p * a := by
  have h0 : (2 * p).testBit 0 = false := by simp
  have h1 : (2 * p) >>> 1 = p := by
    rw [Nat.shiftRight_one]
    omega
  rw [evalBits, h0, h1, if_neg Bool.false_ne_true, zero_add]

/-- The highest of the terms. -/
theorem evalBits_succ (a : R) (n : Nat) : ∀ p, evalBits a (n + 1) p =
    evalBits a n p + if p.testBit n then a ^ n else 0 := by
  induction n with
  | zero =>
    intro p
    simp [evalBits]
  | succ n ih =>
    intro p
    rw [evalBits, ih (p >>> 1), evalBits, add_mul, ← add_assoc, Nat.testBit_shiftRight,
      Nat.add_comm 1 n, ite_mul, zero_mul, ← pow_succ]

section

variable (h2 : ∀ x : R, x + x = 0)
include h2

/-- The sum of polynomials. -/
theorem evalBits_xor (n : Nat) : ∀ p q,
    evalBits a n (p ^^^ q) = evalBits a n p + evalBits a n q := by
  induction n with
  | zero => exact fun _ _ ↦ (add_zero 0).symm
  | succ n ih =>
    intro p q
    have h1 : (1 : R) + 1 = 0 := h2 1
    rw [evalBits, evalBits, evalBits, Nat.shiftRight_xor_distrib, ih, Nat.testBit_xor, add_mul]
    cases p.testBit 0 <;> cases q.testBit 0
    · simp
    · simp [add_left_comm]
    · simp [add_assoc]
    · simp only [bne_self_eq_false, Bool.false_eq_true, ↓reduceIte]
      rw [add_add_add_comm, h1]

variable (hc : a ^ n = evalBits a n c)
include hc

/-- Multiplying by the indeterminate multiplies the value by the root. -/
theorem evalBits_timesX (p : Nat) : evalBits a n (timesX n c p) = evalBits a n p * a := by
  have hlow : evalBits a n (2 * p % 2 ^ n) = evalBits a n (2 * p) := by
    apply evalBits_congr
    intro i hi
    rw [Nat.testBit_mod_two_pow, decide_eq_true hi, Bool.true_and]
  rw [timesX, evalBits_xor h2, hlow, ← evalBits_double, evalBits_succ]
  congr 1
  split
  · exact hc.symm
  · exact evalBits_zero a n

/-- Multiplying polynomials multiplies their values. -/
theorem evalBits_times (q k : Nat) : ∀ p,
    evalBits a n (times n c k p q) = evalBits a n q * evalBits a k p := by
  induction k with
  | zero =>
    intro p
    rw [times, evalBits, evalBits_zero, mul_zero]
  | succ k ih =>
    intro p
    rw [times, evalBits_xor h2, evalBits_timesX h2 hc, ih, evalBits, mul_add, mul_assoc]
    congr 1
    split
    · rw [mul_one]
    · rw [evalBits_zero, mul_zero]

/-- The powers of the indeterminate have the powers of the root as their values. -/
theorem evalBits_powX (hn : 0 < n) (k : Nat) : ∀ {e : Nat}, e < 2 ^ k →
    evalBits a n (powX n c k e) = a ^ e := by
  induction k with
  | zero =>
    intro e he
    obtain rfl : e = 0 := by omega
    rw [powX, evalBits_one a hn, pow_zero]
  | succ k ih =>
    intro e he
    have hr := ih (e := e / 2) (by rw [pow_succ] at he; omega)
    have hs : evalBits a n (times n c n (powX n c k (e / 2)) (powX n c k (e / 2))) =
        a ^ (2 * (e / 2)) := by
      rw [evalBits_times h2 hc, hr, ← pow_add, two_mul]
    rw [powX]
    split
    · next hodd =>
      rw [evalBits_timesX h2 hc, hs, ← pow_succ]
      congr 1
      omega
    · next heven =>
      rw [hs]
      congr 1
      omega

/-- A power of the root is one when the power of the indeterminate is. -/
theorem pow_eq_one_of_powX (hn : 0 < n) (he : e < 2 ^ k) (h1 : powX n c k e = 1) :
    a ^ e = 1 := by
  rw [← evalBits_powX h2 hc hn k he, h1, evalBits_one a hn]

end

end

end SqliteComposite.Base
