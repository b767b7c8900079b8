import SqliteComposite.Base.CInt
import SqliteComposite.Base.Heap

/-!
# Randomness

Models `get_random` and `cRandomness`. The field `prng_state` is handed in and returned. What
`cRandomness` stores is the list of its stores, the first one first; each stores the low bytes
of a word, the lowest first, since the conversions to `int` and `char` keep the low bytes. The
index is an `int`, and a sum that no `int` holds is undefined.
-/

namespace SqliteComposite.Vfs

open Base

/-- Why a call does not return: a sum that no `int` holds, or a loop without end. -/
inductive Halt where
  | overflow
  | endless
  deriving DecidableEq, Repr

/-- `a + b` of two `int`s. -/
def addInt (a b : Int32) : Except Halt Int32 :=
  if -2 ^ 31 ≤ a.toInt + b.toInt ∧ a.toInt + b.toInt < 2 ^ 31 then .ok (a + b)
  else .error .overflow

/-- The multiplier of `get_random`. -/
def magic : UInt64 := 2685821657736338717

/-- `get_random`; `os_composite_vfs.c:251`. Returns the word and the new state. -/
def getRandom (state : UInt64) : UInt64 × UInt64 :=
  let state := state ^^^ (state >>> 12)
  let state := state ^^^ (state <<< 25)
  let state := state ^^^ (state >>> 17)
  (state * magic, state)

/-- What `get_random` does to the state. -/
def prngStep (state : UInt64) : UInt64 := (getRandom state).2

/-- A store through `zOut`: the index of the first byte, the number of bytes, and the word whose
low bytes they are. -/
structure Store where
  index : Int
  size : Nat
  rand : UInt64
  deriving DecidableEq

/-- The store writes the byte at an index. -/
def Store.covers (st : Store) (x : Int) : Bool := st.index ≤ x ∧ x < st.index + st.size

/-- A loop of `cRandomness` from index `i` on. It stops when `i + ahead` is `nByte` or more, and
stores `size` bytes a round. -/
def fillLoop (ahead size nByte : Int32) :
    Nat → Int32 → UInt64 → Except Halt (Int32 × UInt64 × List Store)
  | 0, _, _ => .error .endless
  | rounds + 1, i, state => do
    let bound ← addInt i ahead
    if bound < nByte then
      let (rand, state) := getRandom state
      let next ← addInt i size
      let (j, state, zOut) ← fillLoop ahead size nByte rounds next state
      .ok (j, state, ⟨i.toInt, size.toNatClampNeg, rand⟩ :: zOut)
    else .ok (i, state, [])

/-- `cRandomness`; `os_composite_vfs.c:262`. Its last loop compares `i` itself with `nByte`. A
loop gets one round for each byte, and one more. -/
def cRandomness (nByte : Int32) (prngState : UInt64) :
    Except Halt (Int32 × UInt64 × List Store) := do
  let rounds := nByte.toNatClampNeg + 1
  let (i, state, words) ← fillLoop 8 8 nByte rounds 0 prngState
  let (i, state, ints) ← fillLoop 4 4 nByte rounds i state
  let (_, state, chars) ← fillLoop 0 1 nByte rounds i state
  .ok (nByte, state, words ++ ints ++ chars)

/-- From index `i` and a state on, the stores lie one behind the other up to index `j`, and each
takes the next word of the generator. -/
inductive Filled : Int → UInt64 → List Store → Int → UInt64 → Prop
  | done {i : Int} {s : UInt64} : Filled i s [] i s
  | store {i j : Int} {s t : UInt64} {n : Nat} {zOut : List Store} : 0 < n →
      Filled (i + n) (prngStep s) zOut j t → Filled i s (⟨i, n, (getRandom s).1⟩ :: zOut) j t

/-- `cRandomness` returns `nByte`, having stored every byte of `zOut` before index `nByte` once
and no other one, each from the next word of the generator. -/
def Fills (nByte : Int32) (state : UInt64) : Prop :=
  ∃ state' zOut, cRandomness nByte state = .ok (nByte, state', zOut) ∧
    (∀ x : Int, zOut.countP (fun st ↦ st.covers x) =
      if 0 ≤ x ∧ x < nByte.toInt then 1 else 0) ∧
    zOut.map Store.rand =
      (List.range zOut.length).map (fun k ↦ (getRandom (prngStep^[k] state)).1) ∧
    state' = prngStep^[zOut.length] state

/-! ### Stores -/

namespace Filled

variable {i j k : Int} {s t u : UInt64} {xs ys : List Store}

/-- Stores one behind the other never go back. -/
theorem le (h : Filled i s xs j t) : i ≤ j := by
  induction h with
  | done => exact le_rfl
  | store _ _ ih => omega

/-- Stores can go on where others ended. -/
theorem append (h : Filled i s xs j t) (h' : Filled j t ys k u) : Filled i s (xs ++ ys) k u := by
  induction h with
  | done => exact h'
  | store hn _ ih => exact .store hn (ih h')

/-- Each byte in the range of the stores is stored once, and no other one is. -/
theorem countP (h : Filled i s xs j t) (x : Int) :
    xs.countP (fun st ↦ st.covers x) = if i ≤ x ∧ x < j then 1 else 0 := by
  induction h with
  | done => rw [List.countP_nil, if_neg (by omega)]
  | @store i j _ _ n _ hn h ih =>
    have hle := h.le
    rw [List.countP_cons, ih, Store.covers]
    simp only [decide_eq_true_eq]
    by_cases hx : i ≤ x ∧ x < i + n
    · rw [if_neg (by omega), if_pos hx, if_pos (by omega)]
    · rw [if_neg hx, Nat.add_zero]
      congr 1
      exact propext (by omega)

/-- The words of the stores are those of the generator, in order. -/
theorem words (h : Filled i s xs j t) :
    xs.map Store.rand = (List.range xs.length).map (fun k ↦ (getRandom (prngStep^[k] s)).1) ∧
      t = prngStep^[xs.length] s := by
  induction h with
  | done => exact ⟨rfl, rfl⟩
  | store _ _ ih =>
    obtain ⟨hw, ht⟩ := ih
    constructor
    · rw [List.map_cons, List.length_cons, List.range_succ_eq_map, List.map_cons, List.map_map, hw]
      rfl
    · exact ht

end Filled

/-! ### Loops -/

section

variable {ahead size nByte i j r : Int32} {s t : UInt64} {zOut : List Store}

/-- A sum that an `int` holds. -/
theorem addInt_eq (hl : -2 ^ 31 ≤ i.toInt + j.toInt) (hu : i.toInt + j.toInt < 2 ^ 31) :
    addInt i j = .ok (i + j) := if_pos ⟨hl, hu⟩

/-- A sum is exact. -/
theorem addInt_ok (h : addInt i j = .ok r) : r.toInt = i.toInt + j.toInt := by
  unfold addInt at h
  split at h
  · next hfit =>
    injection h with h
    rw [← h, toInt_add32 i j hfit.1 hfit.2]
  · cases h

/-- A loop that returns has stored from its index on, does not look beyond `nByte` any more, and
has not gone beyond it. -/
theorem fillLoop_ok (hs : 0 < size.toInt) (hle : size.toInt ≤ ahead.toInt + 1) (rounds : Nat) :
    ∀ {i : Int32} {s : UInt64} {zOut : List Store},
      fillLoop ahead size nByte rounds i s = .ok (j, t, zOut) →
      Filled i.toInt s zOut j.toInt t ∧ nByte.toInt ≤ j.toInt + ahead.toInt ∧
        j.toInt ≤ max i.toInt nByte.toInt := by
  induction rounds with
  | zero =>
    intro i s zOut h
    cases h
  | succ rounds ih =>
    intro i s zOut h
    obtain ⟨bound, hb, h⟩ := bind_ok h
    have hbound := addInt_ok hb
    split at h
    · next hlt =>
      rw [Int32.lt_iff_toInt_lt] at hlt
      obtain ⟨next, hn, h⟩ := bind_ok h
      obtain ⟨⟨j', t', rest⟩, hrest, h⟩ := bind_ok h
      cases h
      have hnext := addInt_ok hn
      obtain ⟨hf, hend, hmax⟩ := ih hrest
      have hsize : ((size.toNatClampNeg : Nat) : Int) = size.toInt :=
        Int.toNat_of_nonneg hs.le
      refine ⟨.store (by omega) ?_, hend, by omega⟩
      rw [hsize, ← hnext]
      exact hf
    · next hge =>
      rw [Int32.lt_iff_toInt_lt] at hge
      cases h
      exact ⟨.done, by omega, le_max_left _ _⟩

/-- A loop returns when `nByte` leaves room for one more round. -/
theorem fillLoop_returns (ahead size : Int32) (hs : 0 < size.toInt)
    (hle : size.toInt ≤ ahead.toInt + 1) (hfit : nByte.toInt + size.toInt ≤ 2 ^ 31)
    (rounds : Nat) : ∀ (i : Int32) (s : UInt64),
      0 ≤ i.toInt → i.toInt + ahead.toInt < 2 ^ 31 → (nByte.toInt - i.toInt).toNat < rounds →
      ∃ j t zOut, fillLoop ahead size nByte rounds i s = .ok (j, t, zOut) := by
  induction rounds with
  | zero => exact fun _ _ _ _ hr ↦ absurd hr (Nat.not_lt_zero _)
  | succ rounds ih =>
    intro i s h0 hi hr
    have hb : addInt i ahead = .ok (i + ahead) := addInt_eq (by omega) (by omega)
    have hbound := addInt_ok hb
    rw [fillLoop, hb, ok_bind]
    by_cases hlt : i + ahead < nByte
    · rw [if_pos hlt]
      rw [Int32.lt_iff_toInt_lt] at hlt
      have hn : addInt i size = .ok (i + size) := addInt_eq (by omega) (by omega)
      have hnext := addInt_ok hn
      obtain ⟨j, t, zOut, hrest⟩ := ih (i + size) (prngStep s) (by omega) (by omega) (by omega)
      have hstep : (getRandom s).2 = prngStep s := rfl
      simp only [hn, ok_bind, hstep, hrest]
      exact ⟨_, _, _, rfl⟩
    · rw [if_neg hlt]
      exact ⟨_, _, _, rfl⟩

/-- The first loop looks beyond the largest `int` when `nByte` is among the seven largest. -/
theorem fillLoop_overflow (hn : 2 ^ 31 - 8 < nByte.toInt) (rounds : Nat) :
    ∀ (i : Int32) (s : UInt64), 0 ≤ i.toInt → i.toInt % 8 = 0 →
      (nByte.toInt - i.toInt).toNat < rounds →
      fillLoop 8 8 nByte rounds i s = .error .overflow := by
  have h8 : (8 : Int32).toInt = 8 := rfl
  induction rounds with
  | zero => exact fun _ _ _ _ hr ↦ absurd hr (Nat.not_lt_zero _)
  | succ rounds ih =>
    intro i s h0 hmod hr
    rw [fillLoop]
    by_cases hi : i.toInt + 8 < 2 ^ 31
    · have hb : addInt i 8 = .ok (i + 8) := addInt_eq (by omega) (by omega)
      have hnext := addInt_ok hb
      have hlt : i + 8 < nByte := by
        rw [Int32.lt_iff_toInt_lt]
        omega
      have hrest := ih (i + 8) (prngStep s) (by omega) (by omega) (by omega)
      have hstep : (getRandom s).2 = prngStep s := rfl
      simp only [hb, ok_bind, if_pos hlt, hstep, hrest, error_bind]
    · have hb : addInt i 8 = .error .overflow := if_neg (by omega)
      rw [hb, error_bind]

/-- A call that returns has filled `zOut` from index 0 on, up to `nByte` if that is positive. -/
theorem cRandomness_ok (h : cRandomness nByte s = .ok (r, t, zOut)) :
    r = nByte ∧ Filled 0 s zOut (max 0 nByte.toInt) t := by
  have h8 : (8 : Int32).toInt = 8 := rfl
  have h4 : (4 : Int32).toInt = 4 := rfl
  have h1 : (1 : Int32).toInt = 1 := rfl
  have h0 : (0 : Int32).toInt = 0 := rfl
  obtain ⟨⟨i₁, s₁, words⟩, hw, h⟩ := bind_ok h
  obtain ⟨⟨i₂, s₂, ints⟩, hi, h⟩ := bind_ok h
  obtain ⟨⟨i₃, s₃, chars⟩, hc, h⟩ := bind_ok h
  cases h
  obtain ⟨hf₁, _, hmax₁⟩ := fillLoop_ok (by decide) (by decide) _ hw
  obtain ⟨hf₂, _, hmax₂⟩ := fillLoop_ok (by decide) (by decide) _ hi
  obtain ⟨hf₃, hend, hmax₃⟩ := fillLoop_ok (by decide) (by decide) _ hc
  have hall := (hf₁.append hf₂).append hf₃
  have hlast : i₃.toInt = max 0 nByte.toInt := by
    have hge := hall.le
    omega
  rw [hlast] at hall
  exact ⟨rfl, hall⟩

/-- The buffer is filled as it should be when the call returns. -/
theorem fills_of_ok (h : cRandomness nByte s = .ok (r, t, zOut)) : Fills nByte s := by
  obtain ⟨rfl, hf⟩ := cRandomness_ok h
  obtain ⟨hw, ht⟩ := hf.words
  refine ⟨t, zOut, h, fun x ↦ ?_, hw, ht⟩
  rw [hf.countP]
  congr 1
  exact propext (by omega)

/-- A call returns when `nByte` leaves room for one more word below the largest `int`. -/
theorem cRandomness_returns (hn : nByte.toInt ≤ 2 ^ 31 - 8) (s : UInt64) :
    ∃ r t zOut, cRandomness nByte s = .ok (r, t, zOut) := by
  have h8 : (8 : Int32).toInt = 8 := rfl
  have h4 : (4 : Int32).toInt = 4 := rfl
  have h1 : (1 : Int32).toInt = 1 := rfl
  have h0 : (0 : Int32).toInt = 0 := rfl
  have hrounds (i : Int32) (hi : 0 ≤ i.toInt) :
      (nByte.toInt - i.toInt).toNat < nByte.toNatClampNeg + 1 := by
    change _ < nByte.toInt.toNat + 1
    omega
  have hlt := nByte.toInt_lt
  obtain ⟨i₁, s₁, words, hw⟩ := fillLoop_returns 8 8 (by decide) (by decide) (by omega) _ 0 s
    le_rfl (by decide) (hrounds 0 le_rfl)
  obtain ⟨hf₁, _, hmax₁⟩ := fillLoop_ok (by decide) (by decide) _ hw
  have hle₁ := hf₁.le
  obtain ⟨i₂, s₂, ints, hi⟩ := fillLoop_returns 4 4 (by decide) (by decide) (by omega) _ i₁ s₁
    hle₁ (by omega) (hrounds i₁ hle₁)
  obtain ⟨hf₂, _, hmax₂⟩ := fillLoop_ok (by decide) (by decide) _ hi
  have hle₂ := hle₁.trans hf₂.le
  obtain ⟨i₃, s₃, chars, hc⟩ := fillLoop_returns 0 1 (by decide) (by decide) (by omega) _ i₂ s₂
    hle₂ (by omega) (hrounds i₂ hle₂)
  refine ⟨nByte, s₃, words ++ ints ++ chars, ?_⟩
  simp only [cRandomness, hw, hi, hc, ok_bind]

/-- For the seven largest values of `nByte` the call overflows its index. -/
theorem cRandomness_overflow (hn : 2 ^ 31 - 8 < nByte.toInt) (s : UInt64) :
    cRandomness nByte s = .error .overflow := by
  have hw : fillLoop 8 8 nByte (nByte.toNatClampNeg + 1) 0 s = .error .overflow := by
    apply fillLoop_overflow hn
    · exact le_rfl
    · rfl
    · rw [Int32.toInt_zero, Int.sub_zero]
      exact Nat.lt_succ_self _
  rw [cRandomness, hw, error_bind]

/-- `cRandomness` fills exactly the bytes asked for unless `nByte` is one of the seven largest
values. -/
theorem fills_iff (nByte : Int32) (s : UInt64) : Fills nByte s ↔ nByte.toInt ≤ 2 ^ 31 - 8 := by
  constructor
  · rintro ⟨t, zOut, h, _⟩
    by_contra hn
    rw [cRandomness_overflow (not_le.mp hn)] at h
    cases h
  · intro hn
    obtain ⟨r, t, zOut, h⟩ := cRandomness_returns hn s
    exact fills_of_ok h

end

/-- Thirteen bytes are a word, an `int` and a `char`. -/
example : (cRandomness 13 4).toOption.map (fun x ↦ x.2.2.map fun st ↦ (st.index, st.size)) =
    some [(0, 8), (8, 4), (12, 1)] := by decide +kernel

/-- With room for the largest `int` of bytes the index overflows. -/
theorem not_fills : ¬ ∀ nByte s, 0 ≤ nByte.toInt → Fills nByte s := by
  intro hall
  obtain ⟨t, zOut, h, _⟩ := hall 2147483647 4 (by decide)
  rw [cRandomness_overflow (by decide)] at h
  cases h

end SqliteComposite.Vfs
