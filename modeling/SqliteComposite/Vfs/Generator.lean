import SqliteComposite.Base.Run
import SqliteComposite.Base.Words
import SqliteComposite.Vfs.Random

/-!
# The states of the generator

`get_random` permutes the 64-bit states and fixes zero, and multiplies the new state by an odd
constant, so that from a state that is not zero no word is ever zero. As a map that commutes
with exclusive or it satisfies a polynomial of degree 64; its order is the order of the
indeterminate modulo that polynomial, and far below the number of states.
-/

namespace SqliteComposite.Vfs

open Base

/-- What `sqlite3_os_init` sets `prng_state` to; `os_composite.c:944`. -/
def osInitSeed : UInt64 := 4

/-- The word `get_random` returns for the new state. -/
def prngWord (state : UInt64) : UInt64 := state * magic

/-- The generator from `sqlite3_os_init` on, under calls of `cRandomness`. A call that overflows
its index has no successor. -/
def generator : System UInt64 Int32 where
  init s := s = osInitSeed
  step s nByte t := ∃ r zOut, cRandomness nByte s = .ok (r, t, zOut)

/-- From the state some number of steps leads to each state that is not zero. -/
def ReachesAll (s : UInt64) : Prop := ∀ t, t ≠ 0 → ∃ n, prngStep^[n] s = t

/-! ### The step as an endomorphism -/

/-- `get_random` on the bits of the state. -/
def stepBits (x : BitVec 64) : BitVec 64 :=
  let x := x ^^^ (x >>> 12)
  let x := x ^^^ (x <<< 25)
  x ^^^ (x >>> 17)

/-- The three assignments of `get_random` as endomorphisms, the last one first. -/
def stepEnd : AddMonoid.End (Word 64) :=
  (1 + Word.shiftRight 17) * (1 + Word.shiftLeft 25) * (1 + Word.shiftRight 12)

/-- The endomorphism is the step. -/
theorem bits_stepEnd (x : Word 64) : (stepEnd x).bits = stepBits x.bits := by
  simp only [stepEnd, AddMonoid.End.coe_mul, Function.comp_apply, Word.bits_one_add,
    Word.shiftRight, Word.shiftLeft, Word.bits_ofXor, stepBits]

/-- The step commutes with exclusive or. -/
theorem stepBits_xor (x y : BitVec 64) : stepBits (x ^^^ y) = stepBits x ^^^ stepBits y := by
  have hadd := congrArg Word.bits (map_add stepEnd ⟨x⟩ ⟨y⟩)
  rwa [Word.bits_add, bits_stepEnd, bits_stepEnd, bits_stepEnd, Word.bits_add] at hadd

/-- The step of the state is the step of its bits. -/
theorem toBitVec_prngStep (s : UInt64) : (prngStep s).toBitVec = stepBits s.toBitVec := rfl

/-- Some steps of the state are as many steps of its bits. -/
theorem toBitVec_iterate (n : Nat) (s : UInt64) :
    (prngStep^[n] s).toBitVec = stepBits^[n] s.toBitVec :=
  (Function.Semiconj.iterate_right toBitVec_prngStep n) s

/-! ### Nothing is lost -/

/-- The step of the bits is a bijection. -/
theorem stepBits_bijective : Function.Bijective stepBits := by
  have hunit : IsUnit stepEnd :=
    ((Word.isUnit_shiftRight (by decide)).mul (Word.isUnit_shiftLeft (by decide))).mul
      (Word.isUnit_shiftRight (by decide))
  obtain ⟨hinj, hsurj⟩ := Word.bijective_of_isUnit hunit
  constructor
  · intro x y h
    have hxy : stepEnd ⟨x⟩ = stepEnd ⟨y⟩ := Word.ext (by rw [bits_stepEnd, bits_stepEnd, h])
    exact congrArg Word.bits (hinj hxy)
  · intro y
    obtain ⟨x, hx⟩ := hsurj ⟨y⟩
    exact ⟨x.bits, by rw [← bits_stepEnd, hx]⟩

/-- The step is a bijection on all states. -/
theorem prngStep_bijective : Function.Bijective prngStep := by
  obtain ⟨hinj, hsurj⟩ := stepBits_bijective
  constructor
  · intro s t h
    exact UInt64.toBitVec_inj.mp (hinj (congrArg UInt64.toBitVec h))
  · intro t
    obtain ⟨x, hx⟩ := hsurj t.toBitVec
    exact ⟨UInt64.ofBitVec x, UInt64.toBitVec_inj.mp hx⟩

/-- The multiplier is odd and has an inverse. -/
theorem prngWord_bijective : Function.Bijective prngWord := by
  have hinv : magic * 6415128727920758069 = 1 := by decide
  have hinv' : 6415128727920758069 * magic = 1 := by decide
  apply Function.bijective_iff_has_inverse.mpr ⟨fun x ↦ x * 6415128727920758069, ?_, ?_⟩
  · intro s
    change s * magic * _ = s
    rw [UInt64.mul_assoc, hinv, UInt64.mul_one]
  · intro x
    change x * _ * magic = x
    rw [UInt64.mul_assoc, hinv', UInt64.mul_one]

/-- Different states give different words. -/
theorem getRandom_injective {s t : UInt64} (h : (getRandom s).1 = (getRandom t).1) : s = t :=
  prngStep_bijective.1 (prngWord_bijective.1 h)

/-- A state that is not zero is followed by one that is not, and gives a word that is not. -/
theorem getRandom_ne_zero {s : UInt64} (hs : s ≠ 0) : prngStep s ≠ 0 ∧ (getRandom s).1 ≠ 0 := by
  have hword : (getRandom 0).1 = 0 := by decide
  have hstep : prngStep 0 = 0 := by decide
  constructor
  · intro h
    exact hs (prngStep_bijective.1 (h.trans hstep.symm))
  · intro h
    exact hs (getRandom_injective (h.trans hword.symm))

/-- However many words are drawn from a state that is not zero, neither the state becomes zero
nor the next word. -/
theorem iterate_ne_zero {s : UInt64} (hs : s ≠ 0) (n : Nat) :
    prngStep^[n] s ≠ 0 ∧ (getRandom (prngStep^[n] s)).1 ≠ 0 := by
  have hstate : prngStep^[n] s ≠ 0 := by
    induction n with
    | zero => exact hs
    | succ n ih =>
      rw [Function.iterate_succ_apply']
      exact (getRandom_ne_zero ih).1
  exact ⟨hstate, (getRandom_ne_zero hstate).2⟩

/-- Stores from a state that is not zero leave one that is not, and take no word that is zero. -/
theorem Filled.ne_zero {i j : Int} {s t : UInt64} {zOut : List Store} (h : Filled i s zOut j t)
    (hs : s ≠ 0) : t ≠ 0 ∧ ∀ st ∈ zOut, st.rand ≠ 0 := by
  obtain ⟨hw, ht⟩ := h.words
  constructor
  · rw [ht]
    exact (iterate_ne_zero hs _).1
  · intro st hst
    have hmem : st.rand ∈ zOut.map Store.rand := List.mem_map_of_mem hst
    rw [hw] at hmem
    obtain ⟨k, _, hk⟩ := List.mem_map.mp hmem
    rw [← hk]
    exact (iterate_ne_zero hs k).2

/-- No run of the generator comes to the state zero. -/
theorem reach_ne_zero {ok : UInt64 → Int32 → Prop} {s : UInt64} (hr : generator.Reach ok s) :
    s ≠ 0 := by
  apply hr.invariant (P := fun s ↦ s ≠ 0)
  · rintro s rfl
    decide
  · rintro s nByte t hs _ ⟨r, zOut, h⟩
    exact ((cRandomness_ok h).2.ne_zero hs).1

/-- The step permutes the states and fixes zero, the words are a permutation of the new states,
and in no run from `sqlite3_os_init` on is the state zero or a word drawn that is. Neither is
any that a call draws before its index overflows. -/
theorem generator_nondegenerate :
    Function.Bijective prngStep ∧ prngStep 0 = 0 ∧
    (∀ s, (getRandom s).1 = prngWord (prngStep s)) ∧ Function.Bijective prngWord ∧
    (∀ s t, s ≠ t → (getRandom s).1 ≠ (getRandom t).1) ∧
    ∀ s, generator.Reach (fun _ _ ↦ True) s →
      s ≠ 0 ∧ (∀ n, (getRandom (prngStep^[n] s)).1 ≠ 0) ∧
      ∀ nByte r t zOut, cRandomness nByte s = .ok (r, t, zOut) → ∀ st ∈ zOut, st.rand ≠ 0 := by
  refine ⟨prngStep_bijective, by decide, fun _ ↦ rfl, prngWord_bijective, ?_, ?_⟩
  · exact fun _ _ hne h ↦ hne (getRandom_injective h)
  · intro s hr
    have hs := reach_ne_zero hr
    exact ⟨hs, fun n ↦ (iterate_ne_zero hs n).2,
      fun nByte r t zOut h ↦ ((cRandomness_ok h).2.ne_zero hs).2⟩

/-! ### How long the cycles are -/

/-- The lower coefficients of the polynomial of degree 64 that the step satisfies. -/
def stepPolynomial : Nat := 0x2cd6fd8536b0b0d1

/-- The order of the indeterminate modulo that polynomial, the product of 3, 2047, 2097151 and
8388607. -/
def stepOrder : Nat := 108033550105712637

/-- The step satisfies its polynomial on single bits. -/
theorem stepPolynomial_root : ∀ i < 64, stepBits^[64] (BitVec.twoPow 64 i) =
    Word.horner stepBits 64 stepPolynomial (BitVec.twoPow 64 i) := by decide +kernel

/-- The power of the indeterminate is one. -/
theorem powX_stepOrder : powX 64 stepPolynomial 57 stepOrder = 1 := by decide +kernel

/-- Every state returns after the same number of steps. -/
theorem prngStep_stepOrder (s : UInt64) : prngStep^[stepOrder] s = s := by
  apply UInt64.toBitVec_inj.mp
  rw [toBitVec_iterate]
  exact Word.iterate_of_powX stepBits_xor (by decide) stepPolynomial_root (by decide)
    powX_stepOrder s.toBitVec

/-- A cycle shorter than the number of states that are not zero misses one of them. -/
theorem not_reachesAll_of_cycle {s : UInt64} {n : Nat} (hn : 0 < n) (hlt : n < 2 ^ 64 - 1)
    (hs : prngStep^[n] s = s) : ¬ ReachesAll s := by
  intro hall
  have hnat (i : Nat) (hi : i ≤ n) : (UInt64.ofNat (i + 1)).toNat = i + 1 :=
    UInt64.toNat_ofNat_of_lt' (by change i + 1 < 2 ^ 64; omega)
  have hinj : Set.InjOn (fun i ↦ UInt64.ofNat (i + 1)) (Set.Iic n) := by
    intro i hi j hj h
    have hto := congrArg UInt64.toNat h
    dsimp only at hto
    rw [hnat i hi, hnat j hj] at hto
    omega
  obtain ⟨i, hi, hmiss⟩ := exists_not_reached hn hs hinj
  obtain ⟨k, hk⟩ := hall (UInt64.ofNat (i + 1)) fun h0 ↦ by
    have hto := hnat i hi
    rw [h0] at hto
    cases hto
  exact hmiss k hk

/-- No state leads to all states that are not zero: each is on a cycle of at most `stepOrder`
states. -/
theorem not_reachesAll (s : UInt64) :
    ¬ ReachesAll s ∧ ∃ n, 0 < n ∧ n ≤ stepOrder ∧ prngStep^[n] s = s := by
  have hpos : 0 < stepOrder := by decide
  have hlt : stepOrder < 2 ^ 64 - 1 := by decide
  exact ⟨not_reachesAll_of_cycle hpos hlt (prngStep_stepOrder s),
    stepOrder, hpos, le_rfl, prngStep_stepOrder s⟩

/-- The state 14272533075104451353 returns after three steps. -/
theorem not_fullPeriod : ¬ ∀ s, s ≠ 0 → ReachesAll s := by
  intro hall
  have hthree : prngStep^[3] 14272533075104451353 = 14272533075104451353 := by decide
  exact not_reachesAll_of_cycle (by decide) (by decide) hthree
    (hall 14272533075104451353 (by decide))

end SqliteComposite.Vfs
