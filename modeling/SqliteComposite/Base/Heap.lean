import Mathlib.Tactic

/-!
# A C heap and its allocator contract

A heap maps addresses to live blocks. A block is a struct of a type `σ` of the program, or
an array of `char`. The allocator is the contract of `malloc`, `realloc` and `free`: each
request is answered by the environment, which refuses it or offers an address with
arbitrary bytes, and an offer that no allocator could make counts as a refusal. Whatever C
leaves undefined is a `Fault` and has no successor state.
-/

namespace SqliteComposite.Base

/-- A pointer value; zero is the null pointer. -/
abbrev Addr := Nat

/-- Executions that C leaves undefined, or that never return. -/
inductive Fault where
  /-- A struct or array access through a pointer to no such live block. -/
  | wildAccess
  /-- An index outside a live array. -/
  | outOfBounds
  /-- `free`, `realloc` or a size query on a pointer that is not a live block. -/
  | badRelease
  /-- A list walk that visits more nodes than there are blocks. -/
  | endlessWalk
  deriving DecidableEq, Repr

/-- A call that returns goes on with what it returned. -/
@[simp] theorem ok_bind {ε α β : Type} (a : α) (f : α → Except ε β) :
    (Except.ok a >>= f) = f a := rfl

/-- A fault ends the call. -/
@[simp] theorem error_bind {ε α β : Type} (e : ε) (f : α → Except ε β) :
    ((Except.error e : Except ε α) >>= f) = .error e := rfl

/-- A call that returned returned from its first part. -/
theorem bind_ok {ε α β : Type} {x : Except ε α} {f : α → Except ε β} {b : β}
    (h : (x >>= f) = .ok b) : ∃ a, x = .ok a ∧ f a = .ok b := by
  cases x with
  | error e => cases h
  | ok a => exact ⟨a, rfl, h⟩

/-- A call that faulted did so in its first part or in its second. -/
theorem bind_error {α β : Type} {x : Except Fault α} {f : α → Except Fault β} {e : Fault}
    (h : (x >>= f) = .error e) : x = .error e ∨ ∃ a, x = .ok a ∧ f a = .error e := by
  cases x with
  | error e' =>
    injection h with h
    exact .inl (congrArg Except.error h)
  | ok a => exact .inr ⟨a, rfl, h⟩

/-- Whether a call returned a value that passes a check. -/
def passes {α : Type} (x : Except Fault α) (p : α → Bool) : Bool :=
  match x with
  | .ok a => p a
  | .error _ => false

/-- A call that passes a check returned such a value. -/
theorem passes_iff {α : Type} {x : Except Fault α} {p : α → Bool} :
    passes x p = true ↔ ∃ a, x = .ok a ∧ p a = true := by
  cases x with
  | ok a => simp [passes]
  | error e => simp [passes]

/-- Whether a call ended in a fault. -/
def faults {α : Type} (x : Except Fault α) (e : Fault) : Bool :=
  match x with
  | .ok _ => false
  | .error f => f = e

/-- A call that ended in a fault returned nothing. -/
theorem faults_iff {α : Type} {x : Except Fault α} {e : Fault} :
    faults x e = true ↔ x = .error e := by
  cases x with
  | ok a => simp [faults]
  | error f => simp [faults]

/-- An array of `char`. Indices at or beyond `size` are not part of it. -/
structure Chars where
  size : Nat
  size_lt : size < 2 ^ 31
  data : Nat → UInt8

/-- Store one byte. -/
def Chars.set (c : Chars) (i : Nat) (b : UInt8) : Chars :=
  { c with data := fun j ↦ if j = i then b else c.data j }

/-- Store the `n` bytes of `src` from index `off` on. -/
def Chars.blit (c : Chars) (off n : Nat) (src : Nat → UInt8) : Chars :=
  { c with data := fun j ↦ if off ≤ j ∧ j < off + n then src (j - off) else c.data j }

/-- Storing nothing changes nothing. -/
theorem Chars.blit_zero (c : Chars) (off : Nat) (src : Nat → UInt8) : c.blit off 0 src = c := by
  have he (j : Nat) : ¬ (off ≤ j ∧ j < off + 0) := by omega
  simp only [Chars.blit, he, ↓reduceIte]

/-- Storing the first byte and then the rest stores them all. -/
theorem Chars.blit_set (c : Chars) (off n : Nat) (src : Nat → UInt8) :
    (c.set off (src 0)).blit (off + 1) n (fun j ↦ src (j + 1)) = c.blit off (n + 1) src := by
  simp only [Chars.blit, Chars.set, Chars.mk.injEq, true_and]
  funext j
  by_cases hj : j = off
  · subst j
    simp
  · by_cases hr : off + 1 ≤ j ∧ j < off + 1 + n
    · rw [if_pos hr, if_pos (by omega), show j - (off + 1) + 1 = j - off by omega]
    · rw [if_neg hr, if_neg hj, if_neg (by omega)]

/-- The array `realloc` returns: the old bytes, then the new memory's own. -/
def Chars.resize (c : Chars) (n : Nat) (hn : n < 2 ^ 31) (fill : Nat → UInt8) : Chars :=
  { size := n, size_lt := hn, data := fun j ↦ if j < c.size then c.data j else fill j }

/-- A live block. -/
inductive Cell (σ : Type) where
  | record (r : σ)
  | chars (c : Chars)

/-- The live blocks by address. -/
abbrev Heap (σ : Type) := Std.ExtTreeMap Addr (Cell σ)

/-- An address and the bytes found there, as the environment offers them. -/
structure Grant where
  addr : Addr
  fill : Nat → UInt8

/-- The heap, and the answers the allocator is going to give; `none` refuses, and so does
an exhausted list. -/
structure Memory (σ : Type) where
  heap : Heap σ
  answers : List (Option Grant)

namespace Memory

variable {σ : Type}

/-- Take the allocator's next answer. -/
def nextAnswer (m : Memory σ) : Option Grant × Memory σ :=
  match m.answers with
  | [] => (none, m)
  | g :: rest => (g, { m with answers := rest })

/-- An `int` that is a size is below `2 ^ 31`. -/
theorem toNatClampNeg_lt (sz : Int32) : sz.toNatClampNeg < 2 ^ 31 := by
  have h := sz.toInt_lt
  change sz.toInt.toNat < 2 ^ 31
  omega

/-- `malloc`: null, or a live block that was not live before. -/
def xMalloc (m : Memory σ) (sz : Int32) : Addr × Memory σ :=
  match m.nextAnswer with
  | (none, m) => (0, m)
  | (some g, m) =>
    if 0 ≤ sz.toInt ∧ g.addr ≠ 0 ∧ g.addr ∉ m.heap then
      let c : Chars := ⟨sz.toNatClampNeg, toNatClampNeg_lt sz, g.fill⟩
      (g.addr, { m with heap := m.heap.insert g.addr (.chars c) })
    else (0, m)

/-- `realloc` of a live array: null with the old block as it was, or a block that replaces
it, at the old address or at one that was not live. Structs are never resized. -/
def xRealloc (m : Memory σ) (p : Addr) (sz : Int32) : Except Fault (Addr × Memory σ) :=
  match m.heap[p]? with
  | some (.chars c) =>
    match m.nextAnswer with
    | (none, m) => .ok (0, m)
    | (some g, m) =>
      if 0 ≤ sz.toInt ∧ g.addr ≠ 0 ∧ (g.addr = p ∨ g.addr ∉ m.heap) then
        let c := c.resize sz.toNatClampNeg (toNatClampNeg_lt sz) g.fill
        .ok (g.addr, { m with heap := (m.heap.erase p).insert g.addr (.chars c) })
      else .ok (0, m)
  | _ => .error .badRelease

/-- `free`; the null pointer is ignored. -/
def xFree (m : Memory σ) (p : Addr) : Except Fault (Memory σ) :=
  if p = 0 then .ok m
  else if p ∈ m.heap then .ok { m with heap := m.heap.erase p }
  else .error .badRelease

/-- The size a live array was last allocated with. -/
def xSize (m : Memory σ) (p : Addr) : Except Fault Int32 :=
  match m.heap[p]? with
  | some (.chars c) => .ok (Int32.ofNat c.size)
  | _ => .error .badRelease

/-- Read a struct. -/
def load (m : Memory σ) (p : Addr) : Except Fault σ :=
  match m.heap[p]? with
  | some (.record r) => .ok r
  | _ => .error .wildAccess

/-- Assign to the fields of a struct. -/
def store (m : Memory σ) (p : Addr) (r : σ) : Except Fault (Memory σ) :=
  match m.heap[p]? with
  | some (.record _) => .ok { m with heap := m.heap.insert p (.record r) }
  | _ => .error .wildAccess

/-- Assign every field of a struct placed in raw memory that has room for it. -/
def storeNew (m : Memory σ) (p : Addr) (sizeof : Nat) (r : σ) : Except Fault (Memory σ) :=
  match m.heap[p]? with
  | some (.chars c) =>
    if sizeof ≤ c.size then .ok { m with heap := m.heap.insert p (.record r) }
    else .error .outOfBounds
  | _ => .error .wildAccess

/-- `p[i]`. -/
def readChar (m : Memory σ) (p : Addr) (i : Int) : Except Fault UInt8 :=
  match m.heap[p]? with
  | some (.chars c) =>
    if 0 ≤ i ∧ i < c.size then .ok (c.data i.toNat) else .error .outOfBounds
  | _ => .error .wildAccess

/-- `p[i] = b`. -/
def writeChar (m : Memory σ) (p : Addr) (i : Int) (b : UInt8) : Except Fault (Memory σ) :=
  match m.heap[p]? with
  | some (.chars c) =>
    if 0 ≤ i ∧ i < c.size then
      .ok { m with heap := m.heap.insert p (.chars (c.set i.toNat b)) }
    else .error .outOfBounds
  | _ => .error .wildAccess

/-! ### What each operation returns -/

/-- A struct found at `p` is what a load returns. -/
theorem load_eq {m : Memory σ} {p : Addr} {r : σ} (h : m.heap[p]? = some (.record r)) :
    m.load p = .ok r := by
  simp only [load, h]

/-- Assigning to a live struct replaces it. -/
theorem store_eq {m : Memory σ} {p : Addr} {r r' : σ} (h : m.heap[p]? = some (.record r)) :
    m.store p r' = .ok { m with heap := m.heap.insert p (.record r') } := by
  simp only [store, h]

/-- Filling in raw memory turns it into the struct. -/
theorem storeNew_eq {m : Memory σ} {p : Addr} {c : Chars} {n : Nat} {r : σ}
    (h : m.heap[p]? = some (.chars c)) (hn : n ≤ c.size) :
    m.storeNew p n r = .ok { m with heap := m.heap.insert p (.record r) } := by
  simp only [storeNew, h, hn, ↓reduceIte]

/-- An index inside a live array reads its byte. -/
theorem readChar_eq {m : Memory σ} {p : Addr} {c : Chars} {i : Nat}
    (h : m.heap[p]? = some (.chars c)) (hi : i < c.size) :
    m.readChar p i = .ok (c.data i) := by
  simp [readChar, h, hi]

/-- An index inside a live array can be assigned. -/
theorem writeChar_eq {m : Memory σ} {p : Addr} {c : Chars} {i : Nat} {b : UInt8}
    (h : m.heap[p]? = some (.chars c)) (hi : i < c.size) :
    m.writeChar p i b = .ok { m with heap := m.heap.insert p (.chars (c.set i b)) } := by
  simp [writeChar, h, hi]

/-- An index past a live array cannot be assigned. -/
theorem writeChar_past {m : Memory σ} {p : Addr} {c : Chars} {i : Int} {b : UInt8}
    (h : m.heap[p]? = some (.chars c)) (hi : (c.size : Int) ≤ i) :
    m.writeChar p i b = .error .outOfBounds := by
  simp only [writeChar, h]
  rw [if_neg (by omega)]

/-- A live array reports its size. -/
theorem xSize_eq {m : Memory σ} {p : Addr} {c : Chars} (h : m.heap[p]? = some (.chars c)) :
    m.xSize p = .ok (Int32.ofNat c.size) := by
  simp only [xSize, h]

/-- A live block can be freed. -/
theorem xFree_eq {m : Memory σ} {p : Addr} (h0 : p ≠ 0) (h : p ∈ m.heap) :
    m.xFree p = .ok { m with heap := m.heap.erase p } := by
  simp only [xFree, h0, h, ↓reduceIte]

/-- Taking an answer leaves the blocks alone. -/
@[simp] theorem nextAnswer_heap (m : Memory σ) : m.nextAnswer.2.heap = m.heap := by
  unfold nextAnswer
  split <;> rfl

/-- An allocation is refused, or adds one block of the requested size. -/
theorem xMalloc_cases (m : Memory σ) (sz : Int32) :
    (∃ m', m.xMalloc sz = (0, m') ∧ m'.heap = m.heap) ∨
    ∃ g c m', m.xMalloc sz = (g, m') ∧ g ≠ 0 ∧ g ∉ m.heap ∧ (c.size : Int) = sz.toInt ∧
      m'.heap = m.heap.insert g (.chars c) := by
  have hh := m.nextAnswer_heap
  unfold xMalloc
  split
  · next m' he =>
    rw [he] at hh
    exact .inl ⟨m', rfl, hh⟩
  · next g m' he =>
    rw [he] at hh
    dsimp only at hh
    split
    · next hg =>
      rw [hh] at hg
      refine .inr ⟨_, _, _, rfl, hg.2.1, hg.2.2, ?_, by rw [hh]⟩
      change ((sz.toInt.toNat : Nat) : Int) = sz.toInt
      omega
    · exact .inl ⟨m', rfl, hh⟩

/-- A reallocation is refused with the old block as it was, or replaces it by a block of
the requested size that keeps the old bytes. -/
theorem xRealloc_cases {m : Memory σ} {p : Addr} {c : Chars}
    (h : m.heap[p]? = some (.chars c)) (sz : Int32) :
    (∃ m', m.xRealloc p sz = .ok (0, m') ∧ m'.heap = m.heap) ∨
    ∃ g c' m', m.xRealloc p sz = .ok (g, m') ∧ g ≠ 0 ∧ (g = p ∨ g ∉ m.heap) ∧
      (c'.size : Int) = sz.toInt ∧ (∀ i < c.size, c'.data i = c.data i) ∧
      m'.heap = (m.heap.erase p).insert g (.chars c') := by
  have hh := m.nextAnswer_heap
  simp only [xRealloc, h]
  split
  · next m' he =>
    rw [he] at hh
    exact .inl ⟨m', rfl, hh⟩
  · next g m' he =>
    rw [he] at hh
    dsimp only at hh
    split
    · next hg =>
      rw [hh] at hg
      refine .inr ⟨_, _, _, rfl, hg.2.1, hg.2.2, ?_, ?_, by rw [hh]⟩
      · change ((sz.toInt.toNat : Nat) : Int) = sz.toInt
        omega
      · intro i hi
        simp only [Chars.resize, hi, ↓reduceIte]
    · exact .inl ⟨m', rfl, hh⟩

/-- A reallocation that is not refused took one of the answers. -/
theorem xRealloc_granted {m m' : Memory σ} {p a : Addr} {c : Chars} {sz : Int32}
    (h : m.heap[p]? = some (.chars c)) (he : m.xRealloc p sz = .ok (a, m')) (ha : a ≠ 0) :
    ∃ g, some g ∈ m.answers ∧ m'.heap = (m.heap.erase p).insert a
      (.chars (c.resize sz.toNatClampNeg (toNatClampNeg_lt sz) g.fill)) := by
  simp only [xRealloc, h, nextAnswer] at he
  split at he
  · cases he
    exact absurd rfl ha
  · next g m₁ hnext =>
    split at hnext
    · cases hnext
    · next g' rest hans =>
      cases hnext
      split at he
      · cases he
        exact ⟨g, by rw [hans]; exact List.mem_cons_self, rfl⟩
      · cases he
        exact absurd rfl ha

end Memory

/-! ### Looking up a changed heap -/

variable {σ : Type}

/-- The block at an address after a block is written. -/
theorem get_insert (h : Heap σ) (a b : Addr) (c : Cell σ) :
    (h.insert a c)[b]? = if a = b then some c else h[b]? := by
  simp [Std.ExtTreeMap.getElem?_insert]

/-- The block at an address after a block is released. -/
theorem get_erase (h : Heap σ) (a b : Addr) :
    (h.erase a)[b]? = if a = b then none else h[b]? := by
  simp [Std.ExtTreeMap.getElem?_erase]

/-- The block just written. -/
theorem get_insert_self (h : Heap σ) (a : Addr) (c : Cell σ) :
    (h.insert a c)[a]? = some c := by
  rw [get_insert, if_pos rfl]

/-- A block other than the one just written. -/
theorem get_insert_ne (h : Heap σ) {a b : Addr} (c : Cell σ) (hn : a ≠ b) :
    (h.insert a c)[b]? = h[b]? := by
  simp [get_insert, hn]

/-- A block other than the one just released. -/
theorem get_erase_ne (h : Heap σ) {a b : Addr} (hn : a ≠ b) :
    (h.erase a)[b]? = h[b]? := by
  simp [get_erase, hn]

/-- Writing back what is there changes nothing. -/
theorem insert_same {h : Heap σ} {a : Addr} {c : Cell σ} (hc : h[a]? = some c) :
    h.insert a c = h := by
  apply Std.ExtTreeMap.ext_getElem?
  intro b
  rw [get_insert]
  split
  · next he => rw [← he, hc]
  · rfl

/-- The later of two writes to a block remains. -/
theorem insert_insert (h : Heap σ) (a : Addr) (c c' : Cell σ) :
    (h.insert a c).insert a c' = h.insert a c' := by
  apply Std.ExtTreeMap.ext_getElem?
  intro b
  simp only [get_insert]
  split <;> rfl

/-- Releasing a block that was not live before it was allocated restores the heap. -/
theorem erase_insert {h : Heap σ} {a : Addr} (c : Cell σ) (ha : a ∉ h) :
    (h.insert a c).erase a = h := by
  apply Std.ExtTreeMap.ext_getElem?
  intro b
  rw [get_erase, get_insert]
  split
  · next he => rw [← he, Std.ExtTreeMap.getElem?_eq_none ha]
  · rfl

/-- Writing a block overrides releasing it before. -/
theorem insert_erased (h : Heap σ) (a : Addr) (c : Cell σ) :
    (h.erase a).insert a c = h.insert a c := by
  apply Std.ExtTreeMap.ext_getElem?
  intro b
  rw [get_insert, get_insert]
  split
  · rfl
  · next hn => rw [get_erase_ne h hn]

/-- A block that is found is live. -/
theorem mem_of_get {h : Heap σ} {a : Addr} {c : Cell σ} (hc : h[a]? = some c) : a ∈ h := by
  rw [Std.ExtTreeMap.mem_iff_isSome_getElem?, hc]
  rfl

/-! ### The ledger of live blocks -/

/-- The live blocks are exactly those listed, each listed once. -/
def Owns (h : Heap σ) (bs : List Addr) : Prop :=
  ∀ a, bs.count a = if a ∈ h then 1 else 0

/-- Listed blocks are live and live blocks are listed. -/
theorem Owns.mem_iff {h : Heap σ} {bs : List Addr} (ho : Owns h bs) (a : Addr) :
    a ∈ bs ↔ a ∈ h := by
  have hc := ho a
  rw [← List.count_pos_iff]
  split at hc <;> simp_all

/-- No block is listed twice. -/
theorem Owns.nodup {h : Heap σ} {bs : List Addr} (ho : Owns h bs) : bs.Nodup := by
  rw [List.nodup_iff_count_le_one]
  intro a
  rw [ho a]
  split <;> omega

/-- The order of the list does not matter. -/
theorem Owns.perm {h : Heap σ} {bs bs' : List Addr} (hp : bs.Perm bs') (ho : Owns h bs) :
    Owns h bs' := fun a ↦ by rw [← hp.count_eq a, ho a]

/-- A new block joins the ledger. -/
theorem Owns.insert_new {h : Heap σ} {bs : List Addr} {a : Addr} (c : Cell σ)
    (ha : a ∉ h) (ho : Owns h bs) : Owns (h.insert a c) (a :: bs) := by
  intro b
  have hb := ho b
  by_cases he : a = b
  · subst b
    simp_all
  · simp_all

/-- Writing to a live block leaves the ledger as it is. -/
theorem Owns.insert_live {h : Heap σ} {bs : List Addr} {a : Addr} (c : Cell σ)
    (ha : a ∈ h) (ho : Owns h bs) : Owns (h.insert a c) bs := by
  intro b
  have hb := ho b
  by_cases he : a = b
  · subst b
    simp_all
  · simp_all

/-- A released block leaves the ledger. -/
theorem Owns.erase {h : Heap σ} {bs : List Addr} {a : Addr} (ho : Owns h (a :: bs)) :
    Owns (h.erase a) bs := by
  intro b
  have hb := ho b
  rw [List.count_cons] at hb
  by_cases he : a = b
  · subst b
    simp only [beq_self_eq_true, ↓reduceIte] at hb
    have hm : a ∈ h := (ho.mem_iff a).mp (by simp)
    rw [if_pos hm] at hb
    simp
    omega
  · simp_all

/-- Distinct addresses in use are no more than a map has. -/
theorem length_le_size {β : Type} {h : Std.ExtTreeMap Addr β} {as : List Addr} (hn : as.Nodup)
    (hl : ∀ a ∈ as, a ∈ h) : as.length ≤ h.size := by
  rw [← Std.ExtTreeMap.length_keys]
  exact (hn.subperm fun a ha ↦ Std.ExtTreeMap.mem_keys.mpr (hl a ha)).length_le

end SqliteComposite.Base
