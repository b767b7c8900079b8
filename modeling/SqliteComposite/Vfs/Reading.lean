import SqliteComposite.Vfs.Files

/-!
# What a read returns

`fs_read` copies a number of bytes that it counts in 64 bits and narrows to `int`, and `cRead`
fills the rest of the buffer with zeros. A read is exact when this count is the number of
bytes there are; past the end of the file the count is negative, or whatever is left of it.
-/

namespace SqliteComposite.Vfs

open Base Inmemfs

/-- The array with no bytes from index `n` on. -/
def cut (c : Chars) (n : Nat) : Chars where
  size := min n c.size
  size_lt := lt_of_le_of_lt (Nat.min_le_right _ _) c.size_lt
  data := c.data

/-- The memory in which no byte of the array at `buf` from index `n` on can be accessed. -/
def cutAt (m : FsMem) (buf : Addr) (c : Chars) (n : Nat) : FsMem :=
  { m with heap := m.heap.insert buf (.chars (cut c n)) }

/-- A read of `n` bytes from position `o` of the file `f` with buffer `c` stores the bytes of
the file, and zeros past its end, at the indices of the caller's buffer and at no others. It
reports a short read exactly when the file ends before, and does the same in a memory in which
the buffer ends where the file does. -/
def ReadsExactly (m : FsMem) (file : CFile) (f : FsFile) (c : Chars) (n : Int32) (o : Int64) :
    Prop :=
  ∃ rc t, cRead m file n o = .ok (rc, t) ∧
    (∀ j : Int, t j = if 0 ≤ j ∧ j < n.toInt then
      some (if o.toInt + j < f.len.toInt then c.data (o.toInt + j).toNat else 0) else none) ∧
    rc = (if o.toInt + n.toInt ≤ f.len.toInt then .ok else .ioerrShortRead) ∧
    cRead (cutAt m f.buf c f.len.toInt.toNat) file n o = .ok (rc, t)

/-- The read starts in the file, or the end of the read is a 64-bit value and nothing is left
of the count of the bytes between the end of the file and the start of the read. -/
def CountsExactly (len o : Int64) (n : Int32) : Prop :=
  o.toInt ≤ len.toInt ∨ (o.toInt + n.toInt < 2 ^ 63 ∧ (2 : Int) ^ 32 ∣ o.toInt - len.toInt)

section

variable {m : FsMem} {file : CFile} {f : FsFile} {c : Chars} {n : Int32} {o len : Int64}

/-! ### The count -/

/-- Past the end of the file, the count is what narrowing leaves of a negative number. -/
theorem readCount_past (hlen : 0 ≤ len.toInt) (hn : 0 ≤ n.toInt) (hlt : len.toInt < o.toInt)
    (hend : o.toInt + n.toInt < 2 ^ 63) :
    (readCount len o n).toInt = (len.toInt - o.toInt).bmod (2 ^ 32) := by
  have ho := o.toInt_lt
  have hend := toInt_end (o := o) (by omega) hn hend
  have hgt : o + n.toInt64 > len := by
    apply Int64.lt_iff_toInt_lt.mpr
    omega
  rw [readCount, if_pos hgt, Int64.toInt_toInt32, toInt_sub64 len o (by omega) (by omega)]

/-- When the end of the read is no 64-bit value, the count is the number asked for. -/
theorem readCount_wraps (hlen : 0 ≤ len.toInt) (hn : 0 ≤ n.toInt)
    (hend : 2 ^ 63 ≤ o.toInt + n.toInt) : readCount len o n = n := by
  have ho := o.toInt_lt
  have hnlt := n.toInt_lt
  have hw : n.toInt64.toInt = n.toInt := Int32.toInt_toInt64 n
  have hsum : (o + n.toInt64).toInt = o.toInt + n.toInt - 2 ^ 64 := by
    have hmod : (o.toInt + n.toInt) % (2 ^ 64 : Nat) = o.toInt + n.toInt :=
      Int.emod_eq_of_lt (by omega) (by push_cast; omega)
    rw [Int64.toInt_add, hw, Int.bmod_eq_emod, hmod, if_pos (by push_cast; omega)]
    rfl
  have hle : ¬ o + n.toInt64 > len := by
    intro h
    have h := Int64.lt_iff_toInt_lt.mp h
    omega
  rw [readCount, if_neg hle, Int64.add_comm, Int64.add_sub_cancel]
  exact Int32.toInt32_toInt64 n

/-! ### The read -/

/-- A read that counts some of the bytes asked for stores those and then zeros. -/
theorem cRead_counted (hf : m.load file.fd = .ok f) (hc : m.heap[f.buf]? = some (.chars c))
    (ho : 0 ≤ o.toInt) (hk : 0 ≤ (readCount f.len o n).toInt)
    (hkn : (readCount f.len o n).toInt ≤ n.toInt)
    (hfit : 0 < (readCount f.len o n).toInt → o.toInt + (readCount f.len o n).toInt ≤ c.size) :
    cRead m file n o = .ok
      (if n.toInt ≤ (readCount f.len o n).toInt then .ok else .ioerrShortRead, fun j ↦
        if 0 ≤ j ∧ j < n.toInt then
          some (if j < (readCount f.len o n).toInt then c.data (o.toInt + j).toNat else 0)
        else none) := by
  rw [cRead, fsRead_stores hf hc ho (by omega) hfit, ok_bind]
  generalize readCount f.len o n = k at hk hkn
  have hne : k ≠ -1 := by
    rintro rfl
    exact absurd hk (by decide)
  simp only [if_neg hne]
  split
  · next hlt =>
    have hlt := Int32.lt_iff_toInt_lt.mp hlt
    rw [if_neg (by omega)]
    congr 2
    funext j
    rw [zeroFill_eq]
    by_cases hj : k.toInt ≤ j ∧ j < k.toInt + (n.toInt - k.toInt).toNat
    · rw [if_pos hj, if_pos (by omega), if_neg (by omega)]
    · rw [if_neg hj]
      by_cases hj' : 0 ≤ j ∧ j < k.toInt
      · rw [if_pos hj', if_pos (by omega), if_pos hj'.2]
      · rw [if_neg hj', if_neg (by omega)]
  · next hlt =>
    have hlt : ¬ k.toInt < n.toInt := fun h ↦ hlt (Int32.lt_iff_toInt_lt.mpr h)
    rw [if_pos (by omega)]
    congr 2
    funext j
    by_cases hj : 0 ≤ j ∧ j < k.toInt
    · rw [if_pos hj, if_pos (by omega), if_pos hj.2]
    · rw [if_neg hj, if_neg (by omega)]

/-- The file and its cut buffer in the memory that is cut. -/
private theorem cutAt_load {fd : Addr} (hf : m.load fd = .ok f)
    (hc : m.heap[f.buf]? = some (.chars c)) (k : Nat) :
    (cutAt m f.buf c k).load fd = .ok f ∧
      (cutAt m f.buf c k).heap[f.buf]? = some (.chars (cut c k)) := by
  refine ⟨?_, get_insert_self _ _ _⟩
  unfold Memory.load at hf ⊢
  split at hf
  · next r hr =>
    have hne : f.buf ≠ fd := (record_ne_chars hr hc).symm
    rw [cutAt, get_insert_ne _ _ hne, hr]
    exact hf
  · cases hf

/-- A read that counts the bytes there are is exact. -/
private theorem exact_of_count (hf : m.load file.fd = .ok f)
    (hc : m.heap[f.buf]? = some (.chars c)) (ho : 0 ≤ o.toInt) (hn : 0 < n.toInt)
    (h0 : 0 ≤ f.len.toInt) (hlen : f.len.toInt ≤ c.size)
    (hk : (readCount f.len o n).toInt = Max.max 0 (min n.toInt (f.len.toInt - o.toInt))) :
    ReadsExactly m file f c n o := by
  obtain ⟨hf', hc'⟩ := cutAt_load hf hc f.len.toInt.toNat
  have hcut : (cut c f.len.toInt.toNat).size = min f.len.toInt.toNat c.size := rfl
  refine ⟨_, _, cRead_counted hf hc ho (by omega) (by omega) (by omega), ?_, ?_,
    cRead_counted (c := cut c f.len.toInt.toNat) hf' hc' ho (by omega) (by omega) (by omega)⟩
  · intro j
    by_cases hj : 0 ≤ j ∧ j < n.toInt
    · rw [if_pos hj, if_pos hj]
      by_cases hin : o.toInt + j < f.len.toInt
      · rw [if_pos hin, if_pos (by omega)]
      · rw [if_neg hin, if_neg (by omega)]
    · rw [if_neg hj, if_neg hj]
  · by_cases hin : o.toInt + n.toInt ≤ f.len.toInt
    · rw [if_pos hin, if_pos (by omega)]
    · rw [if_neg hin, if_neg (by omega)]

/-- A read of bytes past the end of the file does more than it should, unless it counts none. -/
private theorem not_exact_of_count (hf : m.load file.fd = .ok f)
    (hc : m.heap[f.buf]? = some (.chars c)) (hn : 0 < n.toInt) (h0 : 0 ≤ f.len.toInt)
    (hlt : f.len.toInt < o.toInt) (hk : (readCount f.len o n).toInt ≠ 0) :
    ¬ ReadsExactly m file f c n o := by
  rintro ⟨rc, t, he, ht, hrc, hcut⟩
  obtain ⟨hf', hc'⟩ := cutAt_load hf hc f.len.toInt.toNat
  have hsize : (cut c f.len.toInt.toNat).size = min f.len.toInt.toNat c.size := rfl
  by_cases hpos : 0 < (readCount f.len o n).toInt
  · -- The first byte that is copied is past the cut.
    rw [cRead, fsRead_past hf' hc' (by omega) hn.le hpos, error_bind] at hcut
    cases hcut
  rw [cRead, fsRead_stores hf hc (by omega) hn.le (by omega), ok_bind] at he
  generalize readCount f.len o n = k at hk hpos he
  dsimp only at he
  split at he
  · -- The count is the value that `fs_read` reports errors by.
    cases he
    rw [if_neg (by omega)] at hrc
    cases hrc
  · next hne =>
    have hlt' : k < n := Int32.lt_iff_toInt_lt.mpr (by omega)
    have hneg : k.toInt ≠ -1 := fun h ↦ hne (Int32.toInt_inj.mp h)
    rw [if_pos hlt'] at he
    cases he
    -- The zeros start below the caller's buffer.
    have hbelow := ht (-1)
    rw [zeroFill_eq, if_pos (by omega), if_neg (by omega)] at hbelow
    cases hbelow

/-- For every file whose buffer covers it and every read of one byte or more, the read is exact
exactly when it starts in the file, or counts no byte past its end. -/
theorem reads_exactly_iff (hf : m.load file.fd = .ok f) (hc : m.heap[f.buf]? = some (.chars c))
    (h0 : 0 ≤ f.len.toInt) (hlen : f.len.toInt ≤ c.size) (hn : 0 < n.toInt) (ho : 0 ≤ o.toInt) :
    ReadsExactly m file f c n o ↔ CountsExactly f.len o n := by
  have hsize := c.size_lt
  have hnlt := n.toInt_lt
  by_cases hin : o.toInt ≤ f.len.toInt
  · have hk := readCount_inside ho hn.le hin (by omega)
    exact iff_of_true (exact_of_count hf hc ho hn h0 hlen (by omega)) (.inl hin)
  by_cases hend : o.toInt + n.toInt < 2 ^ 63
  · have hk := readCount_past h0 hn.le (by omega) hend
    have hdvd : (2 : Int) ^ 32 ∣ o.toInt - f.len.toInt ↔ (readCount f.len o n).toInt = 0 := by
      rw [hk, ← Int.dvd_iff_bmod_eq_zero, ← Int.dvd_neg, neg_sub]
      rfl
    by_cases hz : (readCount f.len o n).toInt = 0
    · exact iff_of_true (exact_of_count hf hc ho hn h0 hlen (by omega)) (.inr ⟨hend, hdvd.mpr hz⟩)
    · refine iff_of_false (not_exact_of_count hf hc hn h0 (by omega) hz) ?_
      rintro (h | ⟨_, h⟩)
      · exact hin h
      · exact hz (hdvd.mp h)
  · have hk := readCount_wraps h0 hn.le (by omega : 2 ^ 63 ≤ o.toInt + n.toInt)
    refine iff_of_false (not_exact_of_count hf hc hn h0 (by omega) (by rw [hk]; omega)) ?_
    rintro (h | ⟨h, _⟩)
    · exact hin h
    · exact hend h

end

/-! ### A new file -/

/-- A file without bytes. -/
def emptyFile : FsFile where
  next := 0
  zName := 3
  buf := 2
  len := 0
  ref := 1
  deleteOnClose := 0

/-- The buffer of a new file. -/
def emptyBuffer : Chars := ⟨8192, by decide, fun _ ↦ 0xAA⟩

/-- A memory with this file at address 1. -/
def oneFile : FsMem where
  heap := ((∅ : Heap FsFile).insert 1 (.record emptyFile)).insert 2 (.chars emptyBuffer)
  answers := []

private theorem oneFile_file : oneFile.load 1 = .ok emptyFile :=
  Memory.load_eq ((get_insert_ne _ _ (by decide)).trans (get_insert_self _ _ _))

private theorem oneFile_buffer : oneFile.heap[emptyFile.buf]? = some (.chars emptyBuffer) :=
  get_insert_self _ _ _

/-- One byte read at offset 1 of an empty file is counted as the error. -/
theorem not_reads_exactly : ¬ ∀ (m : FsMem) (file : CFile) (f : FsFile) (c : Chars) (n : Int32)
    (o : Int64), m.load file.fd = .ok f → m.heap[f.buf]? = some (.chars c) → 0 ≤ f.len.toInt →
    f.len.toInt ≤ c.size → 0 < n.toInt → 0 ≤ o.toInt → ReadsExactly m file f c n o := by
  intro hall
  have he := hall oneFile ⟨true, none, 1⟩ emptyFile emptyBuffer 1 1 oneFile_file oneFile_buffer
    (by decide) (by decide) (by decide) (by decide)
  exact not_exact_of_count oneFile_file oneFile_buffer (by decide) (by decide) (by decide)
    (by decide) he

/-- One byte read at offset 0 of an empty file is a zero. -/
theorem reads_exactly_iff_oneFile :
    ReadsExactly oneFile ⟨true, none, 1⟩ emptyFile emptyBuffer 1 0 ↔ CountsExactly 0 0 1 :=
  reads_exactly_iff oneFile_file oneFile_buffer (by decide) (by decide) (by decide) (by decide)

end SqliteComposite.Vfs
