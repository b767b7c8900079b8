import SqliteComposite.Vfs.Simulation

/-!
# Files as the methods show them

A file is seen through any `struct cFile` whose `fd` is its address: `cFileSize` reports its
size, and `cRead` stores its bytes. On a list of files these are the length field and the
bytes of the buffer.
-/

namespace SqliteComposite.Vfs

open Base Inmemfs

/-- A file at `fd` is in the list from the sentinel. -/
def Linked (w : World) (fd : Addr) : Prop :=
  ∃ l, Rep w.list w.mem.heap l [] ∧ fd ∈ l.map FileView.addr

/-- `cFileSize` through `file` reports `s`. -/
def HasSize (w : World) (file : CFile) (s : Int64) : Prop :=
  cFileSize w.mem file = .ok (.ok, s)

/-- Every `cRead` through `file` whose range covers position `p` returns with the byte `b`
stored for it. -/
def HasByte (w : World) (file : CFile) (p : Nat) (b : UInt8) : Prop :=
  ∀ (n : Int32) (o : Int64), 0 ≤ o.toInt → o.toInt ≤ p → (p : Int) < o.toInt + n.toInt →
    ∃ rc t, cRead w.mem file n o = .ok (rc, t) ∧ t (p - o.toInt) = some b

/-- Whether opening the name makes a new file. -/
def isNew (w : World) (z : CStr) : Bool :=
  match fsFindFile w.list w.mem (some z) with
  | .ok file => file = 0
  | .error _ => false

/-- The search for the name `z` finds the file at `a`. -/
def Found (w : World) (z : CStr) (a : Addr) : Prop :=
  a ≠ 0 ∧ fsFindFile w.list w.mem (some z) = .ok a

/-- Filling with zeros stores them from the first index on. -/
theorem zeroFill_eq (rounds : Nat) : ∀ (i : Int) (t : Stores) (j : Int),
    zeroFill i rounds t j = if i ≤ j ∧ j < i + rounds then some 0 else t j := by
  induction rounds with
  | zero =>
    intro i t j
    rw [zeroFill, if_neg (by omega)]
  | succ rounds ih =>
    intro i t j
    rw [zeroFill, ih (i + 1), Stores.put]
    by_cases hj : j = i
    · rw [if_neg (by omega), if_pos hj, if_pos (by omega)]
    · rw [if_neg hj]
      by_cases hr : i + 1 ≤ j ∧ j < i + 1 + rounds
      · rw [if_pos hr, if_pos (by omega)]
      · rw [if_neg hr, if_neg (by omega)]

section

variable {w : World} {l l₁ l₂ : List FileView} {v : FileView} {file : CFile}

/-- The linked files are the addresses of the list. -/
theorem linked_iff_mem (hr : Rep w.list w.mem.heap l []) {fd : Addr} :
    Linked w fd ↔ fd ∈ l.map FileView.addr := by
  constructor
  · rintro ⟨l', hr', hm⟩
    obtain rfl := hr'.unique hr
    exact hm
  · exact fun hm ↦ ⟨l, hr, hm⟩

/-- The linked files are those of the list. -/
theorem linked_iff (hr : Rep w.list w.mem.heap l []) {fd : Addr} :
    Linked w fd ↔ ∃ l₁ v l₂, l = l₁ ++ v :: l₂ ∧ v.addr = fd := by
  rw [linked_iff_mem hr, List.mem_map]
  constructor
  · rintro ⟨v, hv, ha⟩
    obtain ⟨l₁, l₂, he⟩ := List.append_of_mem hv
    exact ⟨l₁, v, l₂, he, ha⟩
  · rintro ⟨l₁, v, l₂, rfl, ha⟩
    exact ⟨v, by simp, ha⟩

/-- The file found under a name is the first of the list that the name finds. -/
theorem found_iff (hr : Rep w.list w.mem.heap l []) {z : CStr} {a : Addr} :
    Found w z a ↔ ∃ v, lookup l z = some v ∧ v.addr = a := by
  rw [Found, fsFindFile_eq hr]
  cases hf : lookup l z with
  | none =>
    constructor
    · rintro ⟨h0, he⟩
      cases he
      exact absurd rfl h0
    · rintro ⟨v, hv, _⟩
      cases hv
  | some v =>
    obtain ⟨_, l₁, l₂, rfl, _⟩ := lookup_some hf
    have h0 := hr.addr_ne_zero
    constructor
    · rintro ⟨_, he⟩
      cases he
      exact ⟨v, rfl, rfl⟩
    · rintro ⟨u, hu, rfl⟩
      cases hu
      exact ⟨h0, rfl⟩

/-- Opening makes a new file exactly when none is found. -/
theorem isNew_iff (hr : Rep w.list w.mem.heap l []) (z : CStr) :
    isNew w z = true ↔ lookup l z = none := by
  rw [isNew, fsFindFile_eq hr]
  cases hf : lookup l z with
  | none => simp [addrOf]
  | some v =>
    obtain ⟨_, l₁, l₂, rfl, _⟩ := lookup_some hf
    have h0 := hr.addr_ne_zero
    simp [addrOf, h0]

/-- An open handle whose struct can be loaded is on a linked file. -/
theorem linked_of_load (hs : Sound w l) {h : Nat} (hf : w.handle? h = some file)
    (hl : (w.mem.load file.fd).isOk = true) : Linked w file.fd := by
  rcases load_cases hs.rep (hs.handle hf).2 with h | h
  · exact (linked_iff hs.rep).mpr h
  · rw [h] at hl
    cases hl

/-- The size reported is the length field. -/
theorem hasSize_iff (hr : Rep w.list w.mem.heap (l₁ ++ v :: l₂) []) (ha : v.addr = file.fd)
    {s : Int64} : HasSize w file s ↔ s = v.len := by
  obtain ⟨nx, hl, _⟩ := counters_spec hr
  rw [HasSize, cFileSize, ← ha, hl, ok_bind, FileView.record_len]
  constructor
  · intro h
    injection h with h
    exact (congrArg Prod.snd h).symm
  · rintro rfl
    rfl

/-- The bytes read below the size of a covered file are those of its buffer. -/
theorem hasByte_iff (hr : Rep w.list w.mem.heap (l₁ ++ v :: l₂) []) (ha : v.addr = file.fd)
    (hc : v.len.toInt ≤ v.data.size) {p : Nat} (hp : (p : Int) < v.len.toInt) {b : UInt8} :
    HasByte w file p b ↔ b = v.data.data p := by
  have hread : HasByte w file p (v.data.data p) := by
    intro n o ho hop hpn
    obtain ⟨hk, he⟩ := fsRead_covered hr hc ho (n := n) (by omega) (by omega)
    have hpos : (0 : Int) ≤ p - o.toInt ∧ p - o.toInt < (v.bytesRead o n).toInt := by omega
    have hne : v.bytesRead o n ≠ -1 := by
      intro h
      rw [h] at hk
      have h1 : (-1 : Int32).toInt = -1 := rfl
      omega
    rw [cRead, ← ha, he, ok_bind]
    dsimp only
    rw [if_neg hne]
    split
    · refine ⟨_, _, rfl, ?_⟩
      rw [zeroFill_eq, if_neg (by omega), if_pos hpos]
      congr 2
      omega
    · refine ⟨_, _, rfl, ?_⟩
      rw [if_pos hpos]
      congr 2
      omega
  constructor
  · intro h
    have hsz := v.data.size_lt
    have hb : (Int64.ofInt p).toInt = p := by
      rw [Int64.toInt_ofInt]
      exact bmod_of_range (n := 2 ^ 63) (by norm_num) (by push_cast; omega) (by push_cast; omega)
    have h1 : (1 : Int32).toInt = 1 := rfl
    obtain ⟨rc, t, he, ht⟩ := h 1 (Int64.ofInt p) (by omega) (by omega) (by omega)
    obtain ⟨rc', t', he', ht'⟩ := hread 1 (Int64.ofInt p) (by omega) (by omega) (by omega)
    rw [he'] at he
    cases he
    rw [ht'] at ht
    injection ht with ht
    exact ht.symm
  · rintro rfl
    exact hread

end
end SqliteComposite.Vfs
