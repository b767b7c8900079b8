import SqliteComposite.Inmemfs.Operations

/-!
# Buffers and what is read from them

Growth asks the allocator for a size that is an `int`, so it makes room for every end of
file an `int` can hold and for no other. A read inside a file whose buffer covers it stores
exactly the bytes of the file; any other read may only go out of bounds.
-/

namespace SqliteComposite.Inmemfs

open Base

/-- The length of a file is not negative and its buffer is as large. -/
def FileView.Covered (v : FileView) : Prop := 0 ≤ v.len.toInt ∧ v.len.toInt ≤ v.data.size

/-- A new file is covered. -/
theorem FileView.IsNew.covered {v : FileView} {z : CStr} (hv : v.IsNew z) : v.Covered := by
  have hs := hv.size
  have h8 : initialBufDataSize.toInt = 8192 := by decide
  rw [FileView.Covered, hv.len, Int64.toInt_zero]
  omega

/-- The file is the same but for its buffer, which is as large at least and starts with the
same bytes. -/
structure FileView.Kept (v u : FileView) : Prop where
  addr : u.addr = v.addr
  name : u.name = v.name
  len : u.len = v.len
  ref : u.ref = v.ref
  deleteOnClose : u.deleteOnClose = v.deleteOnClose
  size : v.data.size ≤ u.data.size
  data : ∀ i < v.data.size, u.data.data i = v.data.data i

/-- A file that is unchanged. -/
theorem FileView.Kept.refl (v : FileView) : v.Kept v :=
  ⟨rfl, rfl, rfl, rfl, rfl, le_rfl, fun _ _ ↦ rfl⟩

/-! ### Growth -/

/-- Doubling covers the request, or the request itself is asked for. -/
theorem growSize_ge {n : Nat} {sz : Int64} (hlt : (n : Int) < sz.toInt)
    (hsz : sz.toInt < 2 ^ 31) : sz.toInt ≤ (growSize (Int32.ofNat n) sz).toInt := by
  unfold growSize
  split
  · rw [toInt_narrow sz (by omega) hsz]
  · next h =>
    rw [toInt64_lt_iff] at h
    omega

namespace Grow

variable {v u : FileView} {sz : Int64} {grown : Bool}

/-- Growth up to an `int` never shrinks the buffer. -/
theorem size_le (hg : Grow v sz grown u) (hsz : sz.toInt < 2 ^ 31) :
    v.data.size ≤ u.data.size := by
  cases hg with
  | enough _ => rfl
  | refused _ => rfl
  | grown g c hlt hc _ =>
    have h := growSize_ge hlt hsz
    change v.data.size ≤ c.size
    omega

/-- Growth up to an `int` makes the room it reports. -/
theorem room (hg : Grow v sz true u) (hsz : sz.toInt < 2 ^ 31) : sz.toInt ≤ u.data.size := by
  cases hg with
  | enough h => exact h
  | grown g c hlt hc _ =>
    have h := growSize_ge hlt hsz
    change sz.toInt ≤ c.size
    omega

/-- Growth keeps the length of the file. -/
theorem len_eq (hg : Grow v sz grown u) : u.len = v.len := by
  cases hg <;> rfl

/-- Growth keeps the counters and the name of the file. -/
theorem same (hg : Grow v sz grown u) :
    u.ref = v.ref ∧ u.deleteOnClose = v.deleteOnClose ∧ u.name = v.name := by
  cases hg <;> exact ⟨rfl, rfl, rfl⟩

/-- Growth keeps the bytes of the buffer. -/
theorem data_eq (hg : Grow v sz grown u) {i : Nat} (hi : i < v.data.size) :
    u.data.data i = v.data.data i := by
  cases hg with
  | enough _ => rfl
  | refused _ => rfl
  | grown g c _ _ hk => exact hk i hi

/-- Growth up to an `int` keeps a file as it was. -/
theorem kept (hg : Grow v sz grown u) (hsz : sz.toInt < 2 ^ 31) : v.Kept u where
  addr := hg.addr_eq
  name := hg.same.2.2
  len := hg.len_eq
  ref := hg.same.1
  deleteOnClose := hg.same.2.1
  size := hg.size_le hsz
  data _ hi := hg.data_eq hi

/-- Growth up to an `int` keeps a file covered. -/
theorem covered (hg : Grow v sz grown u) (hsz : sz.toInt < 2 ^ 31) (hv : v.Covered) :
    u.Covered := by
  have h := hg.size_le hsz
  refine ⟨hg.len_eq ▸ hv.1, ?_⟩
  have hl := hv.2
  rw [hg.len_eq]
  omega

end Grow

/-- The allocator refuses the growth of the buffer of file `fd` to `sz` bytes. -/
def Refuses (m : FsMem) (fd : Addr) (sz : Int64) : Prop :=
  ∃ f c m', m.load fd = .ok f ∧ m.heap[f.buf]? = some (.chars c) ∧ (c.size : Int) < sz.toInt ∧
    m.xRealloc f.buf (growSize (Int32.ofNat c.size) sz) = .ok (0, m')

section Access

variable {list : Addr} {m : FsMem} {l l₁ l₂ : List FileView} {v : FileView}

/-- Growth fails exactly when the allocator refuses it. -/
theorem refuses_iff (hr : Rep list m.heap (l₁ ++ v :: l₂) []) (sz : Int64) :
    Refuses m v.addr sz ↔ ∃ m', fsDataEnsureCapacity m v.addr sz = .ok (false, m') := by
  obtain ⟨nx, hv, _⟩ := hr.focus
  obtain ⟨hd, _⟩ := hr.attached v (by simp)
  have hsz : (Int32.ofNat v.data.size).toInt = v.data.size := toInt_ofNat32 _ v.data.size_lt
  rw [fsDataEnsureCapacity, Memory.load_eq hv]
  simp only [ok_bind, fsMemsize, fsRealloc, FileView.record_buf, Memory.xSize_eq hd]
  constructor
  · rintro ⟨f, c, m', hf, hc, hlt, hx⟩
    rw [Memory.load_eq hv] at hf
    obtain rfl := Except.ok.inj hf
    rw [FileView.record_buf, hd] at hc
    obtain rfl : v.data = c := by
      injection hc with hc
      injection hc
    refine ⟨m', ?_⟩
    rw [if_pos (by rwa [toInt64_lt_iff, hsz])]
    change (m.xRealloc v.buf (growSize (Int32.ofNat v.data.size) sz) >>= _) = _
    rw [FileView.record_buf] at hx
    rw [hx]
    rfl
  · rintro ⟨m', he⟩
    by_cases hroom : (Int32.ofNat v.data.size).toInt64 < sz
    · rw [if_pos hroom] at he
      change (m.xRealloc v.buf (growSize (Int32.ofNat v.data.size) sz) >>= _) = _ at he
      obtain ⟨⟨g, m₁⟩, hx, he⟩ := bind_ok he
      by_cases g0 : g = 0
      · subst g0
        exact ⟨_, v.data, m₁, Memory.load_eq hv, hd, by rwa [toInt64_lt_iff, hsz] at hroom, hx⟩
      · rw [if_neg g0] at he
        obtain ⟨_, _, he⟩ := bind_ok he
        cases he
    · rw [if_neg hroom] at he
      cases he

/-- The array once room is made in it for `sz` bytes and new memory is filled with `b`. -/
def grownTo (c : Chars) (sz : Int64) (b : UInt8) : Chars :=
  if (c.size : Int) < sz.toInt then
    c.resize (growSize (Int32.ofNat c.size) sz).toNatClampNeg (Memory.toNatClampNeg_lt _) fun _ ↦ b
  else c

/-- Growth that is not refused, in memory filled with one byte, has only one outcome, but for
the place of the buffer. -/
theorem fsDataEnsureCapacity_filled (hr : Rep list m.heap (l₁ ++ v :: l₂) []) {sz : Int64}
    {b : UInt8} (hfill : ∀ g, some g ∈ m.answers → g.fill = fun _ ↦ b)
    (hgrant : ¬ Refuses m v.addr sz) :
    ∃ m' a, fsDataEnsureCapacity m v.addr sz = .ok (true, m') ∧
      Rep list m'.heap (l₁ ++ v.buffered a (grownTo v.data sz b) :: l₂) [] := by
  obtain ⟨grown, m', u, he, hg, hr'⟩ := fsDataEnsureCapacity_spec hr sz
  cases hg with
  | enough hle =>
    refine ⟨m', v.buf, he, ?_⟩
    rw [grownTo, if_neg (by omega)]
    exact hr'
  | refused _ => exact absurd ((refuses_iff hr sz).mpr ⟨m', he⟩) hgrant
  | grown a c hlt _ _ =>
    refine ⟨m', a, he, ?_⟩
    obtain ⟨nx, hv, _⟩ := hr.focus
    obtain ⟨hd, _⟩ := hr.attached v (by simp)
    have hsz : (Int32.ofNat v.data.size).toInt = v.data.size := toInt_ofNat32 _ v.data.size_lt
    rw [fsDataEnsureCapacity, Memory.load_eq hv] at he
    simp only [ok_bind, fsMemsize, fsRealloc, FileView.record_buf, Memory.xSize_eq hd] at he
    rw [if_pos (by rwa [toInt64_lt_iff, hsz])] at he
    change (m.xRealloc v.buf (growSize (Int32.ofNat v.data.size) sz) >>= _) = _ at he
    obtain ⟨⟨g, m₁⟩, hx, he⟩ := bind_ok he
    by_cases h0 : g = 0
    · rw [if_pos h0] at he
      cases he
    rw [if_neg h0] at he
    obtain ⟨m₂, hst, he⟩ := bind_ok he
    cases he
    obtain ⟨offer, hoffer, hheap⟩ := Memory.xRealloc_granted hd hx h0
    unfold Memory.store at hst
    split at hst
    · cases hst
      -- The struct leads to the new block, and the block is the one the allocator made.
      obtain ⟨nx', hu, _⟩ := hr'.focus
      obtain ⟨hc, _⟩ := hr'.attached (v.buffered a c) (by simp)
      have hne : v.addr ≠ a := record_ne_chars hu hc
      have hag : g = a := by
        change (m₁.heap.insert v.addr _)[v.addr]? = _ at hu
        rw [get_insert_self] at hu
        injection hu with hu
        injection hu with hu
        exact congrArg FsFile.buf hu
      change (m₁.heap.insert v.addr _)[a]? = some (.chars c) at hc
      rw [get_insert_ne _ _ hne, hheap, ← hag, get_insert_self] at hc
      injection hc with hc
      injection hc with hc
      rw [grownTo, if_pos hlt, ← hfill offer hoffer, hc]
      exact hr'
    · cases hst

/-- The end of an access is exact when it is a 64-bit value. -/
theorem toInt_end {o : Int64} {n : Int32} (ho : 0 ≤ o.toInt) (hn : 0 ≤ n.toInt)
    (hlt : o.toInt + n.toInt < 2 ^ 63) : (o + n.toInt64).toInt = o.toInt + n.toInt := by
  have hw : n.toInt64.toInt = n.toInt := Int32.toInt_toInt64 n
  rw [toInt_add64 _ _ (by omega) (by omega), hw]

/-! ### Reading -/

/-- A copy whose source is in place or out of bounds returns or goes out of bounds. -/
theorem copy_total {β : Type} (dst : β → Nat → UInt8 → Except Fault β)
    (src : Nat → Except Fault UInt8) (hd : ∀ b i c, ∃ b', dst b i c = .ok b')
    (hs : ∀ i, (∃ c, src i = .ok c) ∨ src i = .error .outOfBounds) (rounds : Nat) :
    ∀ (i : Nat) (b : β), (∃ b', fsCopydata dst src i rounds b = .ok b') ∨
      fsCopydata dst src i rounds b = .error .outOfBounds := by
  induction rounds with
  | zero => exact fun i b ↦ .inl ⟨b, rfl⟩
  | succ rounds ih =>
    intro i b
    rw [fsCopydata]
    rcases hs i with ⟨c, hc⟩ | hc
    · obtain ⟨b', hb⟩ := hd b i c
      rw [hc, ok_bind, hb, ok_bind]
      exact ih (i + 1) b'
    · exact .inr (by rw [hc, error_bind])

/-- What a copy from one source does it does from a source with the same bytes and more. -/
theorem copy_mono {β : Type} {dst : β → Nat → UInt8 → Except Fault β}
    {src src' : Nat → Except Fault UInt8} (hs : ∀ i c, src i = .ok c → src' i = .ok c)
    (rounds : Nat) : ∀ {i : Nat} {b b' : β}, fsCopydata dst src i rounds b = .ok b' →
      fsCopydata dst src' i rounds b = .ok b' := by
  induction rounds with
  | zero => exact fun he ↦ he
  | succ rounds ih =>
    intro i b b' he
    rw [fsCopydata] at he ⊢
    obtain ⟨c, hc, he⟩ := bind_ok he
    obtain ⟨b₁, hb, he⟩ := bind_ok he
    rw [hs i c hc, ok_bind, hb, ok_bind]
    exact ih he

/-- The number of bytes read from a file of length `len`, as `fs_read` computes it. -/
def readCount (len o : Int64) (n : Int32) : Int32 :=
  ((if o + n.toInt64 > len then len else o + n.toInt64) - o).toInt32

/-- The number of bytes a read asks for, as `fs_read` computes it. -/
def FileView.bytesRead (v : FileView) (o : Int64) (n : Int32) : Int32 :=
  readCount v.len o n

/-- In the file, the count is the number of bytes there are. -/
theorem readCount_inside {len o : Int64} {n : Int32} (ho : 0 ≤ o.toInt) (hn : 0 ≤ n.toInt)
    (hle : o.toInt ≤ len.toInt) (hlen : len.toInt < 2 ^ 31) :
    (readCount len o n).toInt = min n.toInt (len.toInt - o.toInt) := by
  have hnlt := n.toInt_lt
  have hend := toInt_end ho hn (by omega)
  unfold readCount
  split
  · next h =>
    have h := Int64.lt_iff_toInt_lt.mp h
    have hs := toInt_sub64 len o (by omega) (by omega)
    rw [toInt_narrow _ (by omega) (by omega), hs]
    omega
  · next h =>
    have h : ¬ len.toInt < (o + n.toInt64).toInt := fun h' ↦ h (Int64.lt_iff_toInt_lt.mpr h')
    have hs := toInt_sub64 (o + n.toInt64) o (by omega) (by omega)
    rw [toInt_narrow _ (by omega) (by omega), hs]
    omega

/-- A read of a file that can be loaded copies the bytes it counts. -/
theorem fsRead_load {fd : Addr} {f : FsFile} (hf : m.load fd = .ok f) {o : Int64} {n : Int32}
    (hneg : ¬ (o < 0 ∨ n < 0)) :
    fsRead m fd o n = if readCount f.len o n > 0 then do
      let stores ← fsCopydata (fun (t : Stores) i c ↦ .ok (t.put i c))
        (fun i ↦ m.readChar f.buf (o.toInt + i)) 0 (readCount f.len o n).toNatClampNeg fun _ ↦ none
      .ok (readCount f.len o n, stores)
    else .ok (readCount f.len o n, fun _ ↦ none) := by
  rw [fsRead, if_neg hneg, hf, ok_bind]
  rfl

/-- A read whose bytes are all in the buffer stores each of them. -/
theorem fsRead_stores {fd : Addr} {f : FsFile} {c : Chars} (hf : m.load fd = .ok f)
    (hc : m.heap[f.buf]? = some (.chars c)) {o : Int64} {n : Int32} (ho : 0 ≤ o.toInt)
    (hn : 0 ≤ n.toInt)
    (hfit : 0 < (readCount f.len o n).toInt → o.toInt + (readCount f.len o n).toInt ≤ c.size) :
    fsRead m fd o n = .ok (readCount f.len o n, fun j ↦
      if 0 ≤ j ∧ j < (readCount f.len o n).toInt then some (c.data (o.toInt + j).toNat)
      else none) := by
  rw [fsRead_load hf (not_rejected_iff.mpr ⟨ho, hn⟩)]
  generalize readCount f.len o n = k at hfit ⊢
  have hpos : k > 0 ↔ 0 < k.toInt := Int32.lt_iff_toInt_lt
  split
  · next hk =>
    rw [hpos] at hk
    have hnat : ((k.toNatClampNeg : Nat) : Int) = k.toInt := by
      change ((k.toInt.toNat : Nat) : Int) = k.toInt
      omega
    have hread : ∀ j, 0 ≤ j → j < 0 + k.toNatClampNeg →
        m.readChar f.buf (o.toInt + (j : Nat)) = .ok (c.data (o.toInt.toNat + j)) := by
      intro j _ hj
      have hi : o.toInt + (j : Int) = ((o.toInt.toNat + j : Nat) : Int) := by omega
      have hfit := hfit hk
      rw [hi]
      exact Memory.readChar_eq hc (by omega)
    rw [copy_stores (f := fun j ↦ c.data (o.toInt.toNat + j)) _ 0 _ hread, ok_bind]
    congr 2
    funext j
    simp only [Nat.cast_zero, Int.zero_add, hnat]
    by_cases hj : 0 ≤ j ∧ j < k.toInt
    · rw [if_pos hj, if_pos hj, show o.toInt.toNat + j.toNat = (o.toInt + j).toNat by omega]
    · rw [if_neg hj, if_neg hj]
  · next hk =>
    rw [hpos] at hk
    congr 2
    funext j
    rw [if_neg (by omega)]

/-- A read of bytes that start past the buffer goes out of bounds. -/
theorem fsRead_past {fd : Addr} {f : FsFile} {c : Chars} (hf : m.load fd = .ok f)
    (hc : m.heap[f.buf]? = some (.chars c)) {o : Int64} {n : Int32} (ho : (c.size : Int) ≤ o.toInt)
    (hn : 0 ≤ n.toInt) (hk : 0 < (readCount f.len o n).toInt) :
    fsRead m fd o n = .error .outOfBounds := by
  have hpos : readCount f.len o n > 0 := by
    apply Int32.lt_iff_toInt_lt.mpr
    rwa [Int32.toInt_zero]
  rw [fsRead_load hf (not_rejected_iff.mpr ⟨by omega, hn⟩), if_pos hpos]
  obtain ⟨k, hrounds⟩ : ∃ k, (readCount f.len o n).toNatClampNeg = k + 1 := by
    apply Nat.exists_eq_add_one_of_ne_zero
    change (readCount f.len o n).toInt.toNat ≠ 0
    omega
  have hread : m.readChar f.buf (o.toInt + (0 : Nat)) = .error .outOfBounds := by
    simp only [Memory.readChar, hc]
    rw [if_neg (by omega)]
  rw [hrounds, fsCopydata, hread]
  rfl

private theorem fsRead_eq (hr : Rep list m.heap (l₁ ++ v :: l₂) []) {o : Int64} {n : Int32}
    (hneg : ¬ (o < 0 ∨ n < 0)) :
    fsRead m v.addr o n = if v.bytesRead o n > 0 then do
      let stores ← fsCopydata (fun (t : Stores) i c ↦ .ok (t.put i c))
        (fun i ↦ m.readChar v.buf (o.toInt + i)) 0 (v.bytesRead o n).toNatClampNeg fun _ ↦ none
      .ok (v.bytesRead o n, stores)
    else .ok (v.bytesRead o n, fun _ ↦ none) := by
  obtain ⟨nx, hl, _⟩ := counters_spec hr
  exact fsRead_load hl hneg

/-- Reading a listed file returns or goes out of bounds. -/
theorem fsRead_total (hr : Rep list m.heap (l₁ ++ v :: l₂) []) (o : Int64) (n : Int32) :
    (∃ r, fsRead m v.addr o n = .ok r) ∨ fsRead m v.addr o n = .error .outOfBounds := by
  obtain ⟨hd, _⟩ := hr.attached v (by simp)
  by_cases hneg : o < 0 ∨ n < 0
  · exact .inl ⟨_, by rw [fsRead, if_pos hneg]⟩
  rw [fsRead_eq hr hneg]
  split
  · have hc := copy_total (fun (t : Stores) i c ↦ .ok (t.put i c))
      (fun i ↦ m.readChar v.buf (o.toInt + i)) (fun b i c ↦ ⟨_, rfl⟩) ?_
    · rcases hc (v.bytesRead o n).toNatClampNeg 0 fun _ ↦ none with ⟨t, ht⟩ | ht
      · exact .inl ⟨_, by rw [ht, ok_bind]⟩
      · exact .inr (by rw [ht, error_bind])
    · intro i
      simp only [Memory.readChar, hd]
      split
      · exact .inl ⟨_, rfl⟩
      · exact .inr rfl
  · exact .inl ⟨_, rfl⟩

/-- Handle counts do not matter to a read. -/
theorem fsRead_recounted {list' : Addr} {m' : FsMem} {l₃ l₄ : List FileView} {u : FileView}
    (hr : Rep list m.heap (l₁ ++ v :: l₂) []) (hr' : Rep list' m'.heap (l₃ ++ u :: l₄) [])
    (hvu : v.Recounted u) (o : Int64) (n : Int32) :
    fsRead m' u.addr o n = fsRead m v.addr o n := by
  by_cases hneg : o < 0 ∨ n < 0
  · rw [fsRead, fsRead, if_pos hneg, if_pos hneg]
  obtain ⟨hd, _⟩ := hr.attached v (by simp)
  obtain ⟨hd', _⟩ := hr'.attached u (by simp)
  obtain ⟨ref, deleteOnClose, rfl, _⟩ := hvu
  have hread (i : Int) : m'.readChar v.buf i = m.readChar v.buf i := by
    change m'.heap[v.buf]? = some (.chars v.data) at hd'
    simp only [Memory.readChar, hd, hd']
  rw [fsRead_eq hr hneg, fsRead_eq hr' hneg]
  simp only [FileView.counted, FileView.bytesRead, hread]
  rfl

/-- What a read of a file returns it returns once the buffer has grown. -/
theorem fsRead_kept {list' : Addr} {m' : FsMem} {l₃ l₄ : List FileView} {u : FileView}
    (hr : Rep list m.heap (l₁ ++ v :: l₂) []) (hr' : Rep list' m'.heap (l₃ ++ u :: l₄) [])
    (hk : v.Kept u) {o : Int64} {n : Int32} {x : Int32 × Stores}
    (he : fsRead m v.addr o n = .ok x) : fsRead m' u.addr o n = .ok x := by
  by_cases hneg : o < 0 ∨ n < 0
  · rw [fsRead, if_pos hneg] at he ⊢
    exact he
  obtain ⟨hd, _⟩ := hr.attached v (by simp)
  obtain ⟨hd', _⟩ := hr'.attached u (by simp)
  have hread (i : Int) (c : UInt8) (hc : m.readChar v.buf i = .ok c) :
      m'.readChar u.buf i = .ok c := by
    simp only [Memory.readChar, hd, hd'] at hc ⊢
    split at hc
    · next hi =>
      have hsize := hk.size
      rw [if_pos (by omega), hk.data _ (by omega)]
      exact hc
    · cases hc
  have hcount : u.bytesRead o n = v.bytesRead o n := by
    rw [FileView.bytesRead, FileView.bytesRead, hk.len]
  rw [fsRead_eq hr hneg] at he
  rw [fsRead_eq hr' hneg, hcount]
  split at he
  · next hpos =>
    rw [if_pos hpos]
    obtain ⟨t, ht, he⟩ := bind_ok he
    rw [copy_mono (fun i c ↦ hread _ c) _ ht, ok_bind]
    exact he
  · next hpos =>
    rw [if_neg hpos]
    exact he

/-- A read that starts inside a covered file stores the bytes of the file up to its end. -/
theorem fsRead_covered (hr : Rep list m.heap (l₁ ++ v :: l₂) [])
    (hc : v.len.toInt ≤ v.data.size) {o : Int64} {n : Int32} (ho : 0 ≤ o.toInt)
    (hn : 0 < n.toInt) (hlt : o.toInt < v.len.toInt) :
    (v.bytesRead o n).toInt = min n.toInt (v.len.toInt - o.toInt) ∧ fsRead m v.addr o n =
      .ok (v.bytesRead o n, fun j ↦ if 0 ≤ j ∧ j < (v.bytesRead o n).toInt
        then some (v.data.data (o.toInt + j).toNat) else none) := by
  obtain ⟨hd, _⟩ := hr.attached v (by simp)
  have hsz := v.data.size_lt
  have hk : (v.bytesRead o n).toInt = min n.toInt (v.len.toInt - o.toInt) :=
    readCount_inside ho hn.le hlt.le (by omega)
  obtain ⟨nx, hl, _⟩ := counters_spec hr
  refine ⟨hk, fsRead_stores hl hd ho hn.le fun _ ↦ ?_⟩
  change o.toInt + (v.bytesRead o n).toInt ≤ v.data.size
  omega

end Access
end SqliteComposite.Inmemfs
