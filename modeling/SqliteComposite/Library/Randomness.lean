import SqliteComposite.Base.Keystream
import SqliteComposite.Base.Traces
import SqliteComposite.Vfs.Generator
import Mathlib.Data.List.GetD
import Mathlib.Data.UInt

/-!
# The generator of SQLite

Models `sqlite3_randomness`, which takes 256 bytes from `cRandomness` the first time it is
called, and the first time after it was reset, and gives out the key stream of a cipher from
them. The library is initialized, and the VFS of this project is the default one. The arrays of
256 bytes are functions.
-/

namespace SqliteComposite.Library

open Base Vfs

/-- `sqlite3Prng`; `sqlite3.c:26349`. -/
structure PrngType where
  isInit : Bool
  i : UInt8
  j : UInt8
  s : UInt8 → UInt8

/-- The byte at an index of a buffer, `c` at first, once stores are made in order. -/
def storedByte (x : Int) : List Store → UInt8 → UInt8
  | [], c => c
  | st :: zOut, c => storedByte x zOut (
    if st.covers x then (st.rand >>> UInt64.ofNat (8 * (x - st.index).toNat)).toUInt8 else c)

/-- The loop that mixes `k` into `s`, from index `i` on. -/
def mixLoop (k : Int → UInt8) (i : Nat) : Nat → PrngType → PrngType
  | 0, p => p
  | rounds + 1, p =>
    let j := p.j + (p.s (UInt8.ofNat i) + k i)
    let t := p.s j
    let s := Function.update p.s j (p.s (UInt8.ofNat i))
    let s := Function.update s (UInt8.ofNat i) t
    mixLoop k (i + 1) rounds { p with j := j, s := s }

/-- The loop that gives out bytes. -/
def outputLoop : Nat → PrngType → List UInt8 × PrngType
  | 0, p => ([], p)
  | rounds + 1, p =>
    let i := p.i + 1
    let t := p.s i
    let j := p.j + t
    let s := Function.update p.s i (p.s j)
    let s := Function.update s j t
    let t := t + s i
    let (zBuf, p) := outputLoop rounds { p with i := i, j := j, s := s }
    (s t :: zBuf, p)

/-- The part of `sqlite3_randomness` that seeds the generator. The bytes of `k` are arbitrary at
first. -/
def seed (prng : PrngType) (prngState : UInt64) (k : Int → UInt8) :
    Except Halt (PrngType × UInt64) := do
  let (_, prngState, zOut) ← cRandomness 256 prngState
  let prng := mixLoop (fun x ↦ storedByte x zOut (k x)) 0 256 { prng with j := 0, i := 0, s := id }
  .ok ({ prng with isInit := true }, prngState)

/-- `sqlite3_randomness`; `sqlite3.c:26358`. Returns the bytes it stores through `pBuf`, if that
is not null, with the states of the two generators. -/
def sqlite3Randomness (n : Int32) (pBuf : Bool) (prng : PrngType) (prngState : UInt64)
    (k : Int → UInt8) : Except Halt (List UInt8 × PrngType × UInt64) := do
  if n ≤ 0 ∨ pBuf = false then .ok ([], { prng with isInit := false }, prngState)
  else
    let (prng, prngState) ← (
      if prng.isInit then .ok (prng, prngState) else seed prng prngState k)
    let (zBuf, prng) := outputLoop n.toNatClampNeg prng
    .ok (zBuf, prng, prngState)

/-! ### What is drawn -/

/-- The sizes of the stores of `cRandomness`, in order. -/
def storeSizes (n : Nat) : List Nat :=
  if n = 0 then []
  else List.replicate ((n - 1) / 8) 8 ++ List.replicate ((n - 1) % 8 / 4) 4 ++
    List.replicate ((n - 1) % 4 + 1) 1

/-- The low bytes of a word, the lowest first. -/
def lowBytes (w : UInt64) (n : Nat) : List UInt8 :=
  (List.range n).map fun b ↦ (w >>> UInt64.ofNat (8 * b)).toUInt8

/-- The bytes that stores of the given sizes take from the words after a state. -/
def drawn : List Nat → UInt64 → List UInt8
  | [], _ => []
  | n :: sizes, s => lowBytes (getRandom s).1 n ++ drawn sizes (prngStep s)

section

variable {ahead size nByte i j : Int32} {s t : UInt64} {zOut : List Store}

/-- A loop stops as soon as it may. -/
theorem fillLoop_sizes (rounds : Nat) :
    ∀ {i : Int32} {s : UInt64} {zOut : List Store},
      fillLoop ahead size nByte rounds i s = .ok (j, t, zOut) →
      zOut.map Store.size = List.replicate zOut.length size.toInt.toNat ∧
        j.toInt = i.toInt + zOut.length * size.toInt ∧
        (zOut ≠ [] → j.toInt + ahead.toInt < nByte.toInt + size.toInt) := by
  induction rounds with
  | zero =>
    intro i s zOut h
    cases h
  | succ rounds ih =>
    intro i s zOut h
    obtain ⟨bound, hb, h⟩ := bind_ok h
    have hbound := addInt_ok hb
    split at h
    · next hlt =>
      rw [Int32.lt_iff_toInt_lt] at hlt
      obtain ⟨next, hn, h⟩ := bind_ok h
      obtain ⟨⟨j', t', rest⟩, hrest, h⟩ := bind_ok h
      cases h
      have hnext := addInt_ok hn
      obtain ⟨hsizes, hj, hlast⟩ := ih hrest
      refine ⟨?_, ?_, fun _ ↦ ?_⟩
      · rw [List.map_cons, hsizes]
        rfl
      · rw [hj, hnext, List.length_cons, Nat.cast_succ]
        ring
      · by_cases hnil : rest = []
        · rw [hnil] at hj
          simp only [List.length_nil, Nat.cast_zero, zero_mul, add_zero] at hj
          omega
        · exact hlast hnil
    · cases h
      exact ⟨rfl, by simp, fun h ↦ absurd rfl h⟩

/-- The sizes of the stores of a call that returns. -/
theorem cRandomness_sizes {r : Int32} (h : cRandomness nByte s = .ok (r, t, zOut)) :
    zOut.map Store.size = storeSizes nByte.toInt.toNat := by
  have h8 : (8 : Int32).toInt = 8 := rfl
  have h4 : (4 : Int32).toInt = 4 := rfl
  have h1 : (1 : Int32).toInt = 1 := rfl
  have h0 : (0 : Int32).toInt = 0 := rfl
  obtain ⟨⟨i₁, s₁, words⟩, hw, h⟩ := bind_ok h
  obtain ⟨⟨i₂, s₂, ints⟩, hi, h⟩ := bind_ok h
  obtain ⟨⟨i₃, s₃, chars⟩, hc, h⟩ := bind_ok h
  cases h
  obtain ⟨_, hend₁, _⟩ := fillLoop_ok (by decide) (by decide) _ hw
  obtain ⟨_, hend₂, _⟩ := fillLoop_ok (by decide) (by decide) _ hi
  obtain ⟨_, hend₃, _⟩ := fillLoop_ok (by decide) (by decide) _ hc
  obtain ⟨hs₁, hi₁, hl₁⟩ := fillLoop_sizes _ hw
  obtain ⟨hs₂, hi₂, hl₂⟩ := fillLoop_sizes _ hi
  obtain ⟨hs₃, hi₃, hl₃⟩ := fillLoop_sizes _ hc
  rw [← List.length_pos_iff_ne_nil] at hl₁ hl₂ hl₃
  rw [h8] at hi₁ hl₁ hend₁
  rw [h4] at hi₂ hl₂ hend₂
  rw [h1, mul_one] at hi₃
  rw [h1] at hl₃
  rw [h0] at hi₁ hl₃ hend₃
  have hn : nByte.toInt.toNat = 0 ∧ words.length = 0 ∧ ints.length = 0 ∧ chars.length = 0 ∨
      nByte.toInt.toNat ≠ 0 ∧ words.length = (nByte.toInt.toNat - 1) / 8 ∧
        ints.length = (nByte.toInt.toNat - 1) % 8 / 4 ∧
        chars.length = (nByte.toInt.toNat - 1) % 4 + 1 := by
    omega
  rw [List.map_append, List.map_append, hs₁, hs₂, hs₃, h8, h4, h1, storeSizes]
  obtain ⟨hn, hw, hi, hc⟩ | ⟨hn, hw, hi, hc⟩ := hn
  · rw [if_pos hn, hw, hi, hc]
    rfl
  · rw [if_neg hn, hw, hi, hc]
    rfl

end

/-- The bytes of a word. -/
@[simp] theorem length_lowBytes (w : UInt64) (n : Nat) : (lowBytes w n).length = n := by
  rw [lowBytes, List.length_map, List.length_range]

/-- As many bytes as the stores have room for. -/
theorem length_drawn (sizes : List Nat) :
    ∀ s : UInt64, (drawn sizes s).length = sizes.sum := by
  induction sizes with
  | nil => exact fun _ ↦ rfl
  | cons n sizes ih =>
    intro s
    rw [drawn, List.length_append, length_lowBytes, ih, List.sum_cons]

/-- The stores of a call have room for the bytes it is asked for. -/
theorem sum_storeSizes (n : Nat) : (storeSizes n).sum = n := by
  rw [storeSizes]
  split
  · next hn => rw [hn, List.sum_nil]
  · simp only [List.sum_append, List.sum_replicate, smul_eq_mul]
    omega

/-- A byte of the low bytes of a word. -/
theorem lowBytes_getD (w : UInt64) {n b : Nat} (hb : b < n) (rest : List UInt8) :
    (lowBytes w n ++ rest).getD b 0 = (w >>> UInt64.ofNat (8 * b)).toUInt8 := by
  rw [List.getD_append _ _ _ _ (by rwa [length_lowBytes]), lowBytes, List.getD_eq_getElem?_getD,
    List.getElem?_map, List.getElem?_range hb]
  rfl

/-- A byte after the first store and the others. -/
theorem storedByte_cons (x i : Int) (n : Nat) (w : UInt64) (zOut : List Store) (c : UInt8) :
    storedByte x (⟨i, n, w⟩ :: zOut) c = storedByte x zOut (
      if i ≤ x ∧ x < i + n then (w >>> UInt64.ofNat (8 * (x - i).toNat)).toUInt8 else c) := by
  simp only [storedByte, Store.covers, decide_eq_true_eq]

/-- Stores beyond a byte leave it. -/
theorem storedByte_before {i j : Int} {s t : UInt64} {zOut : List Store}
    (h : Filled i s zOut j t) {x : Int} (hx : x < i) (c : UInt8) : storedByte x zOut c = c := by
  induction h generalizing c with
  | done => rfl
  | store hn _ ih =>
    rw [storedByte_cons, if_neg (by omega)]
    exact ih (by omega) c

/-- The stores leave what they take from the words, whatever was there before. -/
theorem storedByte_filled {i j : Int} {s t : UInt64} {zOut : List Store}
    (h : Filled i s zOut j t) {x : Int} (hi : i ≤ x) (hj : x < j) (c : UInt8) :
    storedByte x zOut c = (drawn (zOut.map Store.size) s).getD (x - i).toNat 0 := by
  induction h generalizing c with
  | done => omega
  | @store i j s t n zOut hn h ih =>
    rw [List.map_cons, drawn, storedByte_cons]
    by_cases hx : x < i + n
    · have hlt : (x - i).toNat < n := by omega
      rw [if_pos ⟨hi, hx⟩, storedByte_before h hx, lowBytes_getD _ hlt]
    · have hlen : (lowBytes (getRandom s).1 n).length ≤ (x - i).toNat := by
        rw [length_lowBytes]
        omega
      rw [if_neg (fun hin ↦ hx hin.2), ih (by omega) hj, List.getD_append_right _ _ _ _ hlen,
        length_lowBytes, ← Int.sub_sub, Int.toNat_sub']

/-- A call that returns leaves the bytes drawn, and the state behind the words they are from. -/
theorem cRandomness_drawn {nByte r : Int32} {s t : UInt64} {zOut : List Store}
    (h : cRandomness nByte s = .ok (r, t, zOut)) :
    t = prngStep^[(storeSizes nByte.toInt.toNat).length] s ∧
      ∀ x : Nat, x < nByte.toInt.toNat → ∀ c,
        storedByte x zOut c = (drawn (storeSizes nByte.toInt.toNat) s).getD x 0 := by
  obtain ⟨rfl, hf⟩ := cRandomness_ok h
  have hsizes := cRandomness_sizes h
  constructor
  · rw [← hsizes, List.length_map]
    exact hf.words.2
  · intro x hx c
    rw [storedByte_filled hf (by omega) (by omega), hsizes, Int.sub_zero, Int.toNat_natCast]

/-! ### The generator as a cipher -/

/-- The generator holds a state of the cipher. -/
def holding (isInit : Bool) (c : Cipher UInt8) : PrngType := ⟨isInit, c.i, c.j, c.s⟩

/-- The cipher under the key that is drawn from a state. -/
def keyed (s : UInt64) : Cipher UInt8 :=
  .schedule (fun x ↦ (drawn (storeSizes 256) s).getD x.toNat 0) ((List.range 256).map UInt8.ofNat)

/-- Two elements of the array exchanged. -/
theorem exchange (s : Equiv.Perm UInt8) (i j : UInt8) :
    Function.update (Function.update (⇑s) i (s j)) j (s i) = ⇑(s * Equiv.swap i j) := by
  rw [Equiv.Perm.coe_mul, Equiv.swap_comm, Equiv.comp_swap_eq_update]

/-- The loop that gives out bytes gives out the key stream. -/
theorem outputLoop_holding (isInit : Bool) (n : Nat) : ∀ c : Cipher UInt8,
    outputLoop n (holding isInit c) = (c.stream n, holding isInit (Cipher.next^[n] c)) := by
  induction n with
  | zero => exact fun _ ↦ rfl
  | succ n ih =>
    intro c
    have hx := exchange c.s (c.i + 1) (c.j + c.s (c.i + 1))
    -- what is added is the element that went to the second index
    have hj : c.next.s c.next.j = c.s (c.i + 1) :=
      congrArg c.s (Equiv.swap_apply_right (c.i + 1) (c.j + c.s (c.i + 1)))
    have hout : c.next.output = c.next.s (c.s (c.i + 1) + c.next.s (c.i + 1)) := by
      rw [Cipher.output, hj]
      rfl
    have hnext := ih c.next
    rw [Cipher.stream_succ, hout, outputLoop]
    simp only [holding, Cipher.next] at hnext
    simp only [holding, hx, hnext]
    rfl

/-- The loop that mixes the key in. -/
theorem mixLoop_holding (k : Int → UInt8) (key : UInt8 → UInt8) (isInit : Bool) (rounds : Nat) :
    ∀ (i : Nat) (c : Cipher UInt8),
      (∀ x : Nat, i ≤ x → x < i + rounds → k x = key (UInt8.ofNat x)) →
      mixLoop k i rounds (holding isInit c) = holding isInit
        (((List.range' i rounds).map UInt8.ofNat).foldl (Cipher.mix key) c) := by
  induction rounds with
  | zero => exact fun _ _ _ ↦ rfl
  | succ rounds ih =>
    intro i c hk
    have hi := hk i le_rfl (by omega)
    have hx := exchange c.s (c.j + (c.s (UInt8.ofNat i) + k i)) (UInt8.ofNat i)
    have hmix := ih (i + 1) (Cipher.mix key c (UInt8.ofNat i))
      fun x hl hu ↦ hk x (by omega) (by omega)
    rw [List.range'_succ, List.map_cons, List.foldl_cons, ← hmix, mixLoop]
    simp only [hi] at hx
    rw [Equiv.swap_comm] at hx
    simp only [holding, Cipher.mix, hi, hx]

/-- Seeding leaves the cipher under the key drawn from the state of the VFS. -/
theorem seed_eq (prng : PrngType) (prngState : UInt64) (k : Int → UInt8) :
    seed prng prngState k = .ok (holding true (keyed prngState), prngStep^[36] prngState) := by
  have hn : (256 : Int32).toInt ≤ 2 ^ 31 - 8 := by decide
  obtain ⟨r, t, zOut, h⟩ := cRandomness_returns hn prngState
  obtain ⟨ht, hbyte⟩ := cRandomness_drawn h
  have hkey (x : Nat) (hx : x < 256) : storedByte x zOut (k x) =
      (drawn (storeSizes 256) prngState).getD (UInt8.ofNat x).toNat 0 := by
    rw [UInt8.toNat_ofNat', Nat.mod_eq_of_lt hx]
    exact hbyte x hx (k x)
  have hmix := mixLoop_holding (fun x ↦ storedByte x zOut (k x))
    (fun x ↦ (drawn (storeSizes 256) prngState).getD x.toNat 0) prng.isInit 256 0 ⟨0, 0, 1⟩
    fun x _ hx ↦ hkey x (by omega)
  rw [← List.range_eq_range', ← Cipher.schedule, ← keyed] at hmix
  have hstart : ({ prng with j := 0, i := 0, s := id } : PrngType) =
    holding prng.isInit ⟨0, 0, 1⟩ := rfl
  have hlen : (storeSizes (256 : Int32).toInt.toNat).length = 36 := rfl
  rw [seed, h, ok_bind, ht, hlen]
  simp only [hstart, hmix]
  generalize keyed prngState = c
  rfl

section

variable {n : Int32} {p : PrngType} (prngState : UInt64) (k : Int → UInt8)

/-- A generator that is seeded goes on. -/
theorem sqlite3Randomness_holding (hn : 0 < n) (c : Cipher UInt8) :
    sqlite3Randomness n true (holding true c) prngState k =
      .ok (c.stream n.toNatClampNeg, holding true (Cipher.next^[n.toNatClampNeg] c),
        prngState) := by
  have hask : ¬ (n ≤ 0 ∨ true = false) := by
    simp only [Int32.not_le, reduceCtorEq, or_false, hn]
  have hinit : (holding true c).isInit = true := rfl
  rw [sqlite3Randomness, if_neg hask, if_pos hinit, ok_bind]
  simp only [outputLoop_holding]

/-- A generator that is not seeded is, and starts at the key drawn. -/
theorem sqlite3Randomness_fresh (hn : 0 < n) (hp : p.isInit = false) :
    sqlite3Randomness n true p prngState k =
      .ok ((keyed prngState).stream n.toNatClampNeg,
        holding true (Cipher.next^[n.toNatClampNeg] (keyed prngState)),
        prngStep^[36] prngState) := by
  have hask : ¬ (n ≤ 0 ∨ true = false) := by
    simp only [Int32.not_le, reduceCtorEq, or_false, hn]
  have hinit : ¬ p.isInit = true := by
    rw [hp]
    exact Bool.false_ne_true
  rw [sqlite3Randomness, if_neg hask, if_neg hinit, seed_eq, ok_bind]
  simp only [outputLoop_holding]

/-- A call that asks for nothing resets the generator. -/
theorem sqlite3Randomness_reset {pBuf : Bool} (h : n ≤ 0 ∨ pBuf = false) :
    sqlite3Randomness n pBuf p prngState k = .ok ([], { p with isInit := false }, prngState) :=
  if_pos h

end

/-! ### Runs -/

/-- The generator of the library, its saved copy, and the state of the one of the VFS. -/
structure Generators where
  prng : PrngType
  savedPrng : PrngType
  prngState : UInt64

/-- The calls that draw on the generators or set them: `sqlite3_randomness`, `xRandomness` by
another caller, `sqlite3PrngSaveState`, `sqlite3PrngRestoreState`, and `sqlite3_os_init` once the
library was shut down. -/
inductive RandomCall where
  | randomness (n : Int32) (pBuf : Bool)
  | osRandomness (nByte : Int32)
  | saveState
  | restoreState
  | osInit

/-- A call, with the bytes in the buffer that `cRandomness` fills. Answers the bytes stored for
the caller. -/
def Generators.step (g : Generators) (k : Int → UInt8) :
    RandomCall → Except Halt (List UInt8 × Generators)
  | .randomness n pBuf => do
    let (zBuf, prng, prngState) ← sqlite3Randomness n pBuf g.prng g.prngState k
    .ok (zBuf, { g with prng := prng, prngState := prngState })
  | .osRandomness nByte => do
    let (_, prngState, zOut) ← cRandomness nByte g.prngState
    .ok ((List.range nByte.toInt.toNat).map fun x : Nat ↦ storedByte x zOut (k x),
      { g with prngState := prngState })
  | .saveState => .ok ([], { g with savedPrng := g.prng })
  | .restoreState => .ok ([], { g with prng := g.savedPrng })
  | .osInit => .ok ([], { g with prngState := osInitSeed })

/-- The generators from the first `sqlite3_os_init` on. -/
def generators : Machine Generators RandomCall (List UInt8) where
  init g := g.prng.isInit = false ∧ g.savedPrng.isInit = false ∧ g.prngState = osInitSeed
  step g c zBuf g' := ∃ k, g.step k c = .ok (zBuf, g')

/-- What was given out under the key in force: the number of words drawn before that key, if
there is one, and the bytes. -/
structure Given where
  key : Option Nat
  bytes : List UInt8

/-- What the calls answered so far tell: the number of words drawn from the VFS since
`sqlite3_os_init`, what was given out, and what had been when the state was saved. -/
structure Drawing where
  words : Nat
  given : Given
  saved : Given

namespace Drawing

/-- A call that was answered. -/
def after (d : Drawing) : RandomCall × List UInt8 → Drawing
  | (.randomness n pBuf, zBuf) =>
    if n ≤ 0 ∨ pBuf = false then { d with given := ⟨none, []⟩ }
    else if d.given.key = none then
      { d with words := d.words + 36, given := ⟨some d.words, zBuf⟩ }
    else { d with given := ⟨d.given.key, d.given.bytes ++ zBuf⟩ }
  | (.osRandomness nByte, _) =>
    { d with words := d.words + (storeSizes nByte.toInt.toNat).length }
  | (.saveState, _) => { d with saved := d.given }
  | (.restoreState, _) => { d with given := d.saved }
  | (.osInit, _) => { d with words := 0 }

/-- The calls of a run, answered in order. -/
def of (tr : List (RandomCall × List UInt8)) : Drawing :=
  tr.foldl after ⟨0, ⟨none, []⟩, ⟨none, []⟩⟩

end Drawing

/-- The cipher of the key that is drawn after a number of words. -/
def cipherAfter (w : Nat) : Cipher UInt8 := keyed (prngStep^[w] osInitSeed)

/-- What was given out is the key stream of the key in force, and the generator is where that
leads. -/
structure Gave (p : PrngType) (d : Given) : Prop where
  key : p.isInit = d.key.isSome
  stream : ∀ w, d.key = some w → d.bytes = (cipherAfter w).stream d.bytes.length
  state : ∀ w, d.key = some w →
    p = holding true (Cipher.next^[d.bytes.length] (cipherAfter w))

/-- The generators are where the calls answered so far lead. -/
structure Drew (g : Generators) (d : Drawing) : Prop where
  words : g.prngState = prngStep^[d.words] osInitSeed
  given : Gave g.prng d.given
  saved : Gave g.savedPrng d.saved

section

variable {g g' : Generators} {d : Drawing} {c : RandomCall} {zBuf : List UInt8}

/-- Nothing is given out before the generator is seeded. -/
theorem gave_none {p : PrngType} (h : p.isInit = false) : Gave p ⟨none, []⟩ where
  key := h
  stream _ hw := nomatch hw
  state _ hw := nomatch hw

/-- The first bytes under a key. -/
theorem gave_first (w n : Nat) :
    Gave (holding true (Cipher.next^[n] (cipherAfter w))) ⟨some w, (cipherAfter w).stream n⟩ where
  key := rfl
  stream := by
    rintro _ ⟨⟩
    rw [Cipher.length_stream]
  state := by
    rintro _ ⟨⟩
    rw [Cipher.length_stream]

/-- More bytes under a key. -/
theorem gave_more {p : PrngType} {d : Given} (h : Gave p d) {w : Nat} (hw : d.key = some w)
    (n : Nat) :
    Gave (holding true (Cipher.next^[n] (Cipher.next^[d.bytes.length] (cipherAfter w))))
      ⟨some w, d.bytes ++ (Cipher.next^[d.bytes.length] (cipherAfter w)).stream n⟩ where
  key := rfl
  stream := by
    rintro _ ⟨⟩
    rw [List.length_append, Cipher.length_stream, Cipher.stream_add, ← h.stream w hw]
  state := by
    rintro _ ⟨⟩
    rw [List.length_append, Cipher.length_stream, Nat.add_comm, Function.iterate_add_apply]

/-- A call of `sqlite3_randomness` returns with as many bytes as it is asked for, and goes on in
the key stream. -/
theorem randomness_spec (h : Drew g d) (n : Int32) (pBuf : Bool) (k : Int → UInt8) :
    ∃ zBuf g', g.step k (.randomness n pBuf) = .ok (zBuf, g') ∧
      zBuf.length = (if pBuf then n.toNatClampNeg else 0) ∧
      Drew g' (d.after (.randomness n pBuf, zBuf)) := by
  obtain ⟨hwords, hgave, hsaved⟩ := h
  by_cases hask : n ≤ 0 ∨ pBuf = false
  · simp only [Drawing.after, if_pos hask]
    rw [Generators.step, sqlite3Randomness_reset _ _ hask, ok_bind]
    refine ⟨_, _, rfl, ?_, hwords, gave_none rfl, hsaved⟩
    rcases hask with hn | rfl
    · have hzero : n.toNatClampNeg = 0 := by
        rw [Int32.le_iff_toInt_le] at hn
        exact Int.toNat_of_nonpos hn
      rw [hzero, ite_self]
      rfl
    · rfl
  · obtain ⟨hn, hbuf⟩ := not_or.mp hask
    rw [Int32.not_le] at hn
    rw [Bool.not_eq_false] at hbuf
    subst hbuf
    simp only [Drawing.after, if_neg hask]
    cases hw : d.given.key with
    | none =>
      have hinit : g.prng.isInit = false := by
        rw [hgave.key, hw]
        rfl
      rw [Generators.step, sqlite3Randomness_fresh _ _ hn hinit, ok_bind, hwords]
      refine ⟨_, _, rfl, Cipher.length_stream _ _, ?_, gave_first _ _, hsaved⟩
      rw [if_pos rfl, Nat.add_comm, Function.iterate_add_apply]
    | some w =>
      rw [Generators.step, hgave.state w hw, sqlite3Randomness_holding _ _ hn, ok_bind]
      exact ⟨_, _, rfl, Cipher.length_stream _ _, hwords, gave_more hgave hw _, hsaved⟩

/-- A call of `xRandomness` that returns answers the bytes drawn. -/
theorem osRandomness_spec (h : Drew g d) {nByte : Int32} {k : Int → UInt8}
    (hs : g.step k (.osRandomness nByte) = .ok (zBuf, g')) :
    zBuf = drawn (storeSizes nByte.toInt.toNat) g.prngState ∧
      Drew g' (d.after (.osRandomness nByte, zBuf)) := by
  obtain ⟨⟨r, t, zOut⟩, hr, hs⟩ := bind_ok hs
  cases hs
  obtain ⟨ht, hbyte⟩ := cRandomness_drawn hr
  refine ⟨?_, ?_, h.given, h.saved⟩
  · apply List.ext_getElem
    · rw [List.length_map, List.length_range, length_drawn, sum_storeSizes]
    · intro x hx hx'
      rw [List.getElem_map, List.getElem_range]
      rw [List.length_map, List.length_range] at hx
      rw [hbyte x hx, List.getD_eq_getElem _ _ hx']
  · simp only [Drawing.after]
    rw [ht, h.words, Nat.add_comm, Function.iterate_add_apply]

/-- The calls lead the generators on. -/
theorem drew_step (h : Drew g d) (hs : generators.step g c zBuf g') :
    Drew g' (d.after (c, zBuf)) := by
  obtain ⟨k, hs⟩ := hs
  cases c with
  | randomness n pBuf =>
    obtain ⟨_, _, hr, _, hd⟩ := randomness_spec h n pBuf k
    cases hr.symm.trans hs
    exact hd
  | osRandomness nByte => exact (osRandomness_spec h hs).2
  | saveState =>
    cases hs
    exact ⟨h.words, h.given, h.given⟩
  | restoreState =>
    cases hs
    exact ⟨h.words, h.saved, h.saved⟩
  | osInit =>
    cases hs
    exact ⟨rfl, h.given, h.saved⟩

/-- In every run the generators are where the calls answered so far lead. -/
theorem run_drew {tr : List (RandomCall × List UInt8)}
    (hr : generators.Run (fun _ _ ↦ True) tr g) : Drew g (Drawing.of tr) := by
  induction hr with
  | start h => exact ⟨h.2.2, gave_none h.1, gave_none h.2.1⟩
  | next _ _ hs ih =>
    rw [Drawing.of, List.foldl_append]
    exact drew_step ih hs

/-- In every run, calls of other users of `xRandomness`, saves, restores and restarts included,
what `sqlite3_randomness` has given out since it was seeded is the key stream of the key drawn
then, and a call of it returns with as many bytes as it is asked for. -/
theorem randomness_run {tr : List (RandomCall × List UInt8)}
    (hr : generators.Run (fun _ _ ↦ True) tr g) :
    Drew g (Drawing.of tr) ∧
      (∀ n pBuf k, ∃ zBuf g', g.step k (.randomness n pBuf) = .ok (zBuf, g') ∧
        zBuf.length = if pBuf then n.toNatClampNeg else 0) ∧
      ∀ nByte k zBuf g', g.step k (.osRandomness nByte) = .ok (zBuf, g') →
        zBuf = drawn (storeSizes nByte.toInt.toNat) g.prngState := by
  have hd := run_drew hr
  refine ⟨hd, fun n pBuf k ↦ ?_, fun nByte k zBuf g' hs ↦ (osRandomness_spec hd hs).1⟩
  obtain ⟨zBuf, g', hs, hlen, _⟩ := randomness_spec hd n pBuf k
  exact ⟨zBuf, g', hs, hlen⟩

/-- The generators before the first call. -/
def generatorsInit : Generators := ⟨⟨false, 0, 0, id⟩, ⟨false, 0, 0, id⟩, osInitSeed⟩

/-- Calls of `sqlite3_randomness` can be answered one after the other. -/
theorem exists_run (calls : List (Int32 × Bool)) : ∃ tr g,
    generators.Run (fun _ _ ↦ True) tr g ∧
      tr.map Prod.fst = calls.map fun c ↦ .randomness c.1 c.2 := by
  induction calls using List.reverseRecOn with
  | nil => exact ⟨[], generatorsInit, .start ⟨rfl, rfl, rfl⟩, rfl⟩
  | append_singleton calls c ih =>
    obtain ⟨tr, g, hr, hc⟩ := ih
    obtain ⟨zBuf, g', hs, _, _⟩ := randomness_spec (run_drew hr) c.1 c.2 (fun _ ↦ 0)
    refine ⟨_, g', .next hr trivial ⟨_, hs⟩, ?_⟩
    rw [List.map_append, List.map_append, hc]
    rfl

/-- The result on a run of a call for five bytes, a reset and a call for two bytes. -/
theorem randomness_run_reset : ∃ tr g,
    tr.map Prod.fst = [.randomness 5 true, .randomness 0 false, .randomness 2 true] ∧
      Drew g (Drawing.of tr) := by
  obtain ⟨tr, g, hr, hc⟩ := exists_run [(5, true), (0, false), (2, true)]
  exact ⟨tr, g, hc, (randomness_run hr).1⟩

end

end SqliteComposite.Library
