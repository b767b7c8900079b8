import SqliteComposite.Inmemfs.FileList

/-!
# The operations on a list of files

What each function of the filesystem does to the list of files the heap represents, case by
case: the abstract filesystem. Every function refines its relation, and the only fault left
is a data index outside a file's buffer.
-/

namespace SqliteComposite.Inmemfs

open Base

namespace FileView

/-- The file with one more handle. -/
def opened (v : FileView) : FileView := v.counted v.len (v.ref + 1) v.deleteOnClose

/-- The file with one handle less. -/
def closed (v : FileView) : FileView := v.counted v.len (v.ref - 1) v.deleteOnClose

/-- The file marked for deletion. -/
def doomed (v : FileView) : FileView := v.counted v.len v.ref 1

/-- The file with another length. -/
def resized (v : FileView) (len : Int64) : FileView := v.counted len v.ref v.deleteOnClose

/-- The file after `n` bytes are stored from index `off` on and its length is set. -/
def written (v : FileView) (off n : Nat) (src : Nat → UInt8) (len : Int64) : FileView :=
  (v.buffered v.buf (v.data.blit off n src)).resized len

end FileView

/-- Opening a name: the first file found gains a handle, or a new file with one handle comes
first, or the allocator refuses. -/
inductive OpenTo (l : List FileView) (z : CStr) : Addr → List FileView → Prop
  | found {l₁ l₂ : List FileView} {v : FileView} : l = l₁ ++ v :: l₂ → lookup l z = some v →
      OpenTo l z v.addr (l₁ ++ v.opened :: l₂)
  | created {v : FileView} : lookup l z = none → v.IsNew z → v.addr ∉ l.map FileView.addr →
      OpenTo l z v.addr (v.opened :: l)
  | refused : lookup l z = none → OpenTo l z 0 l

/-- Closing a handle on a file: the file loses a handle, and is removed when that was the
last one and the file is marked for deletion. -/
inductive CloseTo (l : List FileView) (a : Addr) : List FileView → Prop
  | kept {l₁ l₂ : List FileView} {v : FileView} : l = l₁ ++ v :: l₂ → v.addr = a →
      ¬ (v.ref - 1 = 0 ∧ v.deleteOnClose ≠ 0) → CloseTo l a (l₁ ++ v.closed :: l₂)
  | removed {l₁ l₂ : List FileView} {v : FileView} : l = l₁ ++ v :: l₂ → v.addr = a →
      v.ref - 1 = 0 → v.deleteOnClose ≠ 0 → CloseTo l a (l₁ ++ l₂)

/-- Deleting a name: the first file found is removed if its count is zero and is marked for
deletion otherwise. -/
inductive DeleteTo (l : List FileView) (z : CStr) : List FileView → Prop
  | absent : lookup l z = none → DeleteTo l z l
  | removed {l₁ l₂ : List FileView} {v : FileView} : l = l₁ ++ v :: l₂ →
      lookup l z = some v → v.ref = 0 → DeleteTo l z (l₁ ++ l₂)
  | deferred {l₁ l₂ : List FileView} {v : FileView} : l = l₁ ++ v :: l₂ →
      lookup l z = some v → v.ref ≠ 0 → DeleteTo l z (l₁ ++ v.doomed :: l₂)

/-- The size asked of the allocator when a buffer of size `old` must hold `sz` bytes. -/
def growSize (old : Int32) (sz : Int64) : Int32 :=
  if (old * 2).toInt64 < sz then sz.toInt32 else old * 2

/-- Making room for `sz` bytes in a file's buffer: there is room, or the allocator refuses,
or the buffer is replaced by one of the size asked for that keeps the old bytes. -/
inductive Grow (v : FileView) (sz : Int64) : Bool → FileView → Prop
  | enough : sz.toInt ≤ v.data.size → Grow v sz true v
  | refused : (v.data.size : Int) < sz.toInt → Grow v sz false v
  | grown (g : Addr) (c : Chars) : (v.data.size : Int) < sz.toInt →
      (c.size : Int) = (growSize (Int32.ofNat v.data.size) sz).toInt →
      (∀ i < v.data.size, c.data i = v.data.data i) → Grow v sz true (v.buffered g c)

/-- Writing to a file: the arguments are rejected, or there is no room, or the bytes are
stored and the length becomes the end of the write. -/
inductive Write (v : FileView) (o : Int64) (n : Int32) (src : Nat → UInt8) :
    Int32 → FileView → Prop
  | rejected : o < 0 ∨ n < 0 → Write v o n src (-1) v
  | refused : 0 ≤ o.toInt → 0 ≤ n.toInt → (v.data.size : Int) < (o + n.toInt64).toInt →
      Write v o n src (-1) v
  | stored {u : FileView} : 0 ≤ o.toInt → 0 ≤ n.toInt → Grow v (o + n.toInt64) true u →
      (n.toInt = 0 ∨ o.toInt + n.toInt ≤ u.data.size) →
      Write v o n src n (u.written o.toInt.toNat n.toInt.toNat src (o + n.toInt64))

/-! ### Properties of every file -/

section Each

variable {P : FileView → Prop} {l l' l₁ l₂ : List FileView} {u v : FileView}

/-- What holds of every file holds of those left when one is removed. -/
theorem forall_remove (hp : ∀ x ∈ l₁ ++ v :: l₂, P x) : ∀ x ∈ l₁ ++ l₂, P x :=
  fun x hx ↦ hp x (mem_of_removed hx)

/-- What holds of every file and of the one put in a file's place holds of every file. -/
theorem forall_replace (hp : ∀ x ∈ l₁ ++ v :: l₂, P x) (hu : P u) :
    ∀ x ∈ l₁ ++ u :: l₂, P x :=
  forall_replaced (forall_remove hp) hu

/-- What no counter matters to, and holds of a new file, survives opening. -/
theorem OpenTo.forall {z : CStr} {a : Addr} (ht : OpenTo l z a l') (hp : ∀ x ∈ l, P x)
    (hcount : ∀ v ref deleteOnClose, P v → P (v.counted v.len ref deleteOnClose))
    (hnew : ∀ v, v.IsNew z → P v) : ∀ x ∈ l', P x := by
  cases ht with
  | found hl hf =>
    subst hl
    exact forall_replace hp (hcount _ _ _ (hp _ (by simp)))
  | created hf hn _ =>
    intro x hx
    rcases List.mem_cons.mp hx with rfl | hx
    · exact hcount _ _ _ (hnew _ hn)
    · exact hp x hx
  | refused _ => exact hp

/-- What no counter matters to survives closing. -/
theorem CloseTo.forall {a : Addr} (ht : CloseTo l a l') (hp : ∀ x ∈ l, P x)
    (hcount : ∀ v ref deleteOnClose, P v → P (v.counted v.len ref deleteOnClose)) :
    ∀ x ∈ l', P x := by
  cases ht with
  | kept hl _ _ =>
    subst hl
    exact forall_replace hp (hcount _ _ _ (hp _ (by simp)))
  | removed hl _ _ _ =>
    subst hl
    exact forall_remove hp

/-- What no counter matters to survives deletion. -/
theorem DeleteTo.forall {z : CStr} (ht : DeleteTo l z l') (hp : ∀ x ∈ l, P x)
    (hcount : ∀ v ref deleteOnClose, P v → P (v.counted v.len ref deleteOnClose)) :
    ∀ x ∈ l', P x := by
  cases ht with
  | absent _ => exact hp
  | removed hl _ _ =>
    subst hl
    exact forall_remove hp
  | deferred hl _ _ =>
    subst hl
    exact forall_replace hp (hcount _ _ _ (hp _ (by simp)))

end Each

/-! ### Files apart from their counters -/

/-- The file with another count of handles at most, and still marked if it was. -/
def FileView.Recounted (v u : FileView) : Prop :=
  ∃ ref deleteOnClose, u = v.counted v.len ref deleteOnClose ∧
    (v.deleteOnClose ≠ 0 → deleteOnClose ≠ 0)

section Recounted

variable {l l' l₁ l₂ : List FileView} {u v x y : FileView}

/-- A file that is unchanged. -/
theorem FileView.Recounted.refl (v : FileView) : v.Recounted v :=
  ⟨v.ref, v.deleteOnClose, rfl, id⟩

/-- Recounting twice is recounting. -/
theorem FileView.Recounted.trans (h : v.Recounted u) (h' : u.Recounted x) : v.Recounted x := by
  obtain ⟨ref, del, rfl, hdel⟩ := h
  obtain ⟨ref', del', rfl, hdel'⟩ := h'
  exact ⟨ref', del', rfl, fun h ↦ hdel' (hdel h)⟩

/-- No file is left at the address of one that is removed. -/
theorem not_mem_removed (hn : ((l₁ ++ v :: l₂).map FileView.addr).Nodup) :
    v.addr ∉ (l₁ ++ l₂).map FileView.addr := by
  rw [List.map_append, List.map_cons, List.nodup_middle, List.nodup_cons] at hn
  rw [List.map_append]
  exact hn.1

/-- When one file is put in another's place, the rest are the files at other addresses. -/
theorem mem_replace (hn : ((l₁ ++ x :: l₂).map FileView.addr).Nodup)
    (hu : u ∈ l₁ ++ y :: l₂) : u = y ∨ (u ∈ l₁ ++ x :: l₂ ∧ u.addr ≠ x.addr) := by
  refine forall_replaced (P := fun u ↦ u = y ∨ (u ∈ l₁ ++ x :: l₂ ∧ u.addr ≠ x.addr))
    (fun w hw ↦ ?_) (.inl rfl) u hu
  refine .inr ⟨mem_of_removed hw, fun he ↦ ?_⟩
  exact not_mem_removed hn (he ▸ List.mem_map_of_mem hw)

/-- A file at an address is then the one that was there, or the new one. -/
theorem replace_cases (hn : ((l₁ ++ x :: l₂).map FileView.addr).Nodup)
    (hv : v ∈ l₁ ++ x :: l₂) (hu : u ∈ l₁ ++ y :: l₂) (hy : y.addr = x.addr)
    (ha : u.addr = v.addr) : u = v ∨ (v = x ∧ u = y) := by
  rcases mem_replace hn hu with rfl | ⟨hmem, _⟩
  · exact .inr ⟨List.inj_on_of_nodup_map hn hv (by simp) (ha.symm.trans hy), rfl⟩
  · exact .inl (List.inj_on_of_nodup_map hn hmem hv ha)

/-- A list is split at an address in one way. -/
theorem split_eq {l₂ l₄ : List FileView} : ∀ {l₁ l₃ : List FileView},
    ((l₁ ++ v :: l₂).map FileView.addr).Nodup → l₁ ++ v :: l₂ = l₃ ++ u :: l₄ →
      u.addr = v.addr → l₃ = l₁ ∧ u = v ∧ l₄ = l₂ := by
  intro l₁
  induction l₁ with
  | nil =>
    intro l₃ hn he ha
    cases l₃ with
    | nil =>
      cases he
      exact ⟨rfl, rfl, rfl⟩
    | cons x l₃ =>
      cases he
      simp [ha] at hn
  | cons y l₁ ih =>
    intro l₃ hn he ha
    rw [List.cons_append, List.map_cons, List.nodup_cons] at hn
    cases l₃ with
    | nil =>
      cases he
      simp [ha] at hn
    | cons x l₃ =>
      rw [List.cons_append, List.cons_append, List.cons.injEq] at he
      obtain ⟨rfl, he⟩ := he
      obtain ⟨rfl, rfl, rfl⟩ := ih hn.2 he ha
      exact ⟨rfl, rfl, rfl⟩

/-- Opening only recounts the files there are. -/
theorem OpenTo.recounted {z : CStr} {a : Addr} (ht : OpenTo l z a l')
    (hn : (l.map FileView.addr).Nodup) :
    (l'.map FileView.addr).Nodup ∧ ∀ v ∈ l, ∃ u ∈ l', u.addr = v.addr ∧ v.Recounted u := by
  cases ht with
  | @found l₁ l₂ x hl hf =>
    subst hl
    refine ⟨by simpa [FileView.opened, FileView.counted] using hn, fun v hv ↦ ?_⟩
    simp only [List.mem_append, List.mem_cons] at hv
    rcases hv with hv | rfl | hv
    · exact ⟨v, by simp [hv], rfl, .refl v⟩
    · exact ⟨v.opened, by simp, rfl, _, _, rfl, id⟩
    · exact ⟨v, by simp [hv], rfl, .refl v⟩
  | created hf hv hfresh =>
    exact ⟨List.nodup_cons.mpr ⟨hfresh, hn⟩, fun v hv ↦ ⟨v, by simp [hv], rfl, .refl v⟩⟩
  | refused _ => exact ⟨hn, fun v hv ↦ ⟨v, hv, rfl, .refl v⟩⟩

/-- Deleting only recounts the files it leaves. -/
theorem DeleteTo.recounted {z : CStr} (ht : DeleteTo l z l')
    (hn : (l.map FileView.addr).Nodup) (hv : v ∈ l) (hu : u ∈ l') (ha : u.addr = v.addr) :
    v.Recounted u := by
  cases ht with
  | absent _ => exact List.inj_on_of_nodup_map hn hu hv ha ▸ .refl _
  | @removed l₁ l₂ x hl _ _ =>
    subst hl
    exact List.inj_on_of_nodup_map hn (mem_of_removed hu) hv ha ▸ .refl _
  | deferred hl _ _ =>
    subst hl
    rcases replace_cases hn hv hu rfl ha with rfl | ⟨rfl, rfl⟩
    · exact .refl _
    · exact ⟨_, _, rfl, fun _ ↦ by decide⟩

/-- Deleting the name of a file removes the file when its count is zero, and marks it
otherwise. -/
theorem DeleteTo.of_found {z : CStr} (ht : DeleteTo (l₁ ++ v :: l₂) z l')
    (hn : ((l₁ ++ v :: l₂).map FileView.addr).Nodup)
    (hf : lookup (l₁ ++ v :: l₂) z = some v) :
    (v.ref = 0 ∧ l' = l₁ ++ l₂) ∨ (v.ref ≠ 0 ∧ l' = l₁ ++ v.doomed :: l₂) := by
  cases ht with
  | absent hnone =>
    rw [hf] at hnone
    cases hnone
  | removed hl hx hz =>
    rw [hf] at hx
    cases hx
    obtain ⟨rfl, _, rfl⟩ := split_eq hn hl rfl
    exact .inl ⟨hz, rfl⟩
  | deferred hl hx hz =>
    rw [hf] at hx
    cases hx
    obtain ⟨rfl, _, rfl⟩ := split_eq hn hl rfl
    exact .inr ⟨hz, rfl⟩

/-- Deleting a name a file was just created under marks that file, or finds none when the name
is too long. -/
theorem DeleteTo.of_created {z : CStr} (ht : DeleteTo (v.opened :: l) z l')
    (hn : (l.map FileView.addr).Nodup) (hf : lookup l z = none) (hv : v.IsNew z)
    (hfresh : v.addr ∉ l.map FileView.addr) :
    l' = v.opened :: l ∨ l' = v.opened.doomed :: l := by
  by_cases hz : v.opened.Named z
  · have hx : lookup ([] ++ v.opened :: l) z = some v.opened :=
      List.find?_cons_of_pos (decide_eq_true hz)
    have hn' : (([] ++ v.opened :: l).map FileView.addr).Nodup :=
      List.nodup_cons.mpr ⟨hfresh, hn⟩
    rcases DeleteTo.of_found ht hn' hx with ⟨h0, _⟩ | ⟨_, rfl⟩
    · have h1 : v.ref + 1 = 0 := h0
      rw [hv.ref] at h1
      exact absurd h1 (by decide)
    · exact .inr rfl
  · have hx : lookup (v.opened :: l) z = none := by
      rw [lookup, List.find?_cons_of_neg (by simpa using hz)]
      exact hf
    cases ht with
    | absent _ => exact .inl rfl
    | removed _ hsome _ | deferred _ hsome _ =>
      rw [hx] at hsome
      cases hsome

/-- Closing only recounts the files it leaves. -/
theorem CloseTo.recounted {a : Addr} (ht : CloseTo l a l')
    (hn : (l.map FileView.addr).Nodup) (hv : v ∈ l) (hu : u ∈ l') (ha : u.addr = v.addr) :
    v.Recounted u := by
  cases ht with
  | kept hl _ _ =>
    subst hl
    rcases replace_cases hn hv hu rfl ha with rfl | ⟨rfl, rfl⟩
    · exact .refl _
    · exact ⟨_, _, rfl, id⟩
  | @removed l₁ l₂ x hl _ _ _ =>
    subst hl
    exact List.inj_on_of_nodup_map hn (mem_of_removed hu) hv ha ▸ .refl _

end Recounted

/-! ### Refinement -/

section Refinement

variable {list : Addr} {m : FsMem} {l l₁ l₂ : List FileView} {v : FileView}

/-- A file's counters can be loaded and assigned. -/
theorem counters_spec (hr : Rep list m.heap (l₁ ++ v :: l₂) []) :
    ∃ nx, m.load v.addr = .ok (v.record nx) ∧ ∀ len ref deleteOnClose, ∃ m',
      m.store v.addr ((v.counted len ref deleteOnClose).record nx) = .ok m' ∧
      Rep list m'.heap (l₁ ++ v.counted len ref deleteOnClose :: l₂) [] := by
  obtain ⟨nx, hv, hset⟩ := hr.focus
  refine ⟨nx, Memory.load_eq hv, fun len ref deleteOnClose ↦ ?_⟩
  exact ⟨_, Memory.store_eq hv, hset len ref deleteOnClose⟩

/-- In an empty heap the block for the sentinel is granted. -/
def GrantsSentinel (answers : List (Option Grant)) : Prop :=
  ∃ g rest, answers = some g :: rest ∧ g.addr ≠ 0

/-- The filesystem starts when the block for its sentinel is granted. -/
theorem fsInit_granted {answers : List (Option Grant)} (h : GrantsSentinel answers) :
    ∃ list m, fsInit ⟨∅, answers⟩ = .ok (list, m) := by
  obtain ⟨g, rest, rfl, h0⟩ := h
  have hsize : 0 ≤ (Mem.cMemRoundup (Int32.ofNat sizeofFsFile)).toInt := by decide
  have hfit : sizeofFsFile ≤ (Mem.cMemRoundup (Int32.ofNat sizeofFsFile)).toNatClampNeg := by
    decide
  have hnew : g.addr ∉ (∅ : Heap FsFile) := Std.ExtTreeMap.not_mem_empty
  simp only [fsInit, fsMalloc, Memory.xMalloc, Memory.nextAnswer]
  rw [if_pos ⟨hsize, h0, hnew⟩]
  dsimp only
  rw [Memory.storeNew_eq (get_insert_self _ _ _) hfit]
  exact ⟨_, _, rfl⟩

/-- When it is refused, the fields of the sentinel are assigned through the null pointer. -/
theorem fsInit_refused {answers : List (Option Grant)} (h : ¬ GrantsSentinel answers) :
    fsInit ⟨∅, answers⟩ = .error .wildAccess := by
  have hnull (m : FsMem) (hm : m.heap = ∅) (f : FsFile) :
      m.storeNew 0 sizeofFsFile f = .error .wildAccess := by
    simp only [Memory.storeNew, hm, Std.ExtTreeMap.getElem?_empty]
  rw [fsInit, fsMalloc, Memory.xMalloc]
  rcases answers with _ | ⟨_ | g, rest⟩
  -- A request beyond the answers is refused like one that is answered so.
  · simp only [Memory.nextAnswer]
    rw [hnull _ rfl]
    rfl
  · simp only [Memory.nextAnswer]
    rw [hnull _ rfl]
    rfl
  · have h0 : g.addr = 0 := by
      by_contra h0
      exact h ⟨g, rest, rfl, h0⟩
    simp only [Memory.nextAnswer]
    rw [if_neg fun hg ↦ hg.2.1 h0]
    dsimp only
    rw [hnull _ rfl]
    rfl

/-- The filesystem starts with no files in a heap that was empty. -/
theorem fsInit_spec {answers : List (Option Grant)}
    (he : fsInit ⟨∅, answers⟩ = .ok (list, m)) : Rep list m.heap [] [] := by
  rw [fsInit] at he
  rcases Memory.xMalloc_cases (⟨∅, answers⟩ : FsMem)
      (Mem.cMemRoundup (Int32.ofNat sizeofFsFile)) with
    ⟨m₁, e₁, h₁⟩ | ⟨g, c, m₁, e₁, g0, hg, hsz, h₁⟩
  · have hnone : m₁.heap[0]? = none := by simp [h₁]
    simp only [fsMalloc, e₁, Memory.storeNew, hnone, error_bind] at he
    cases he
  · have hget : m₁.heap[g]? = some (.chars c) := by rw [h₁, get_insert_self]
    have hsize : sizeofFsFile ≤ c.size := by
      have h48 : (Mem.cMemRoundup (Int32.ofNat sizeofFsFile)).toInt = (sizeofFsFile : Nat) := by
        decide
      omega
    simp only [fsMalloc, e₁, Memory.storeNew_eq hget hsize, ok_bind] at he
    cases he
    refine ⟨⟨_, get_insert_self _ _ _, rfl⟩, by simp, ?_, ?_, by simp⟩
    · have ho : Owns (∅ : Heap FsFile) [] := fun a ↦ by simp
      have ho₁ := (ho.insert_new (.chars c) hg).insert_live (a := list)
        (.record { next := 0, zName := 0, buf := 0, len := 0, ref := 0, deleteOnClose := 0 })
        (by simp)
      rw [← h₁] at ho₁
      exact ho₁
    · simp [h₁, g0]

/-- Opening refines its relation and faults on no name but null. -/
theorem fsOpen_spec (hr : Rep list m.heap l []) (z : CStr) :
    ∃ a m' l', fsOpen list m (some z) = .ok (a, m') ∧ OpenTo l z a l' ∧
      Rep list m'.heap l' [] := by
  rw [fsOpen, fsFindFile_eq hr]
  simp only [ok_bind]
  cases hf : lookup l z with
  | some v =>
    obtain ⟨_, l₁, l₂, rfl, _⟩ := lookup_some hf
    obtain ⟨_, _, _, _, h0, _⟩ := hr.split
    obtain ⟨nx, hl, hset⟩ := counters_spec hr
    obtain ⟨m', hm', hr'⟩ := hset v.len (v.ref + 1) v.deleteOnClose
    refine ⟨v.addr, m', _, ?_, .found rfl hf, hr'⟩
    rw [addrOf, if_neg h0, ok_bind]
    simp only [if_neg h0]
    rw [hl, ok_bind]
    change (m.store v.addr ((v.counted v.len (v.ref + 1) v.deleteOnClose).record nx) >>= _) = _
    rw [hm', ok_bind]
  | none =>
    simp only [addrOf, ↓reduceIte]
    rcases fsFileAlloc_spec hr z with ⟨m', he, hh⟩ | ⟨v, m₁, he, h0, _, hnew, hr₁⟩
    · exact ⟨0, m', l, by simp only [he, ok_bind, ↓reduceIte], .refused hf, hh ▸ hr⟩
    · obtain ⟨nx, hl, hset⟩ := counters_spec hr₁.atHead
      obtain ⟨m', hm', hr'⟩ := hset v.len (v.ref + 1) v.deleteOnClose
      have hfresh : v.addr ∉ l.map FileView.addr := (List.nodup_cons.mp hr₁.nodup_addr).1
      refine ⟨v.addr, m', _, ?_, .created hf hnew hfresh, hr'⟩
      simp only [he, ok_bind, if_neg h0, hl]
      change (m₁.store v.addr
        ((v.counted v.len (v.ref + 1) v.deleteOnClose).record nx) >>= _) = _
      rw [hm', ok_bind]

/-- Closing a handle on a listed file refines its relation. -/
theorem fsClose_spec (hr : Rep list m.heap (l₁ ++ v :: l₂) []) :
    ∃ m' l', fsClose list m v.addr = .ok m' ∧ CloseTo (l₁ ++ v :: l₂) v.addr l' ∧
      Rep list m'.heap l' [] := by
  obtain ⟨nx, hl, hset⟩ := counters_spec hr
  obtain ⟨m₁, hm₁, hr₁⟩ := hset v.len (v.ref - 1) v.deleteOnClose
  obtain ⟨nx₁, hl₁, _⟩ := counters_spec hr₁
  have hstep : fsClose list m v.addr = if v.ref - 1 = 0 ∧ v.deleteOnClose ≠ 0 then do
      let m ← fsFileUnlink list m₁ v.addr
      fsFileFree m v.addr
    else .ok m₁ := by
    rw [fsClose, hl, ok_bind]
    change (m.store v.addr ((v.counted v.len (v.ref - 1) v.deleteOnClose).record nx) >>= _) = _
    rw [hm₁, ok_bind]
    change (m₁.load (v.counted v.len (v.ref - 1) v.deleteOnClose).addr >>= _) = _
    rw [hl₁, ok_bind]
    rfl
  by_cases hlast : v.ref - 1 = 0 ∧ v.deleteOnClose ≠ 0
  · obtain ⟨m₂, m₃, h₂, h₃, hr₃⟩ := remove_spec hr₁
    refine ⟨m₃, _, ?_, .removed rfl rfl hlast.1 hlast.2, hr₃⟩
    rw [hstep, if_pos hlast]
    change (fsFileUnlink list m₁ (v.counted v.len (v.ref - 1) v.deleteOnClose).addr >>= _) = _
    rw [h₂, ok_bind]
    exact h₃
  · exact ⟨m₁, _, by rw [hstep, if_neg hlast], .kept rfl rfl hlast, hr₁⟩

/-- Deleting refines its relation and faults on no name but null. -/
theorem fsDelete_spec (hr : Rep list m.heap l []) (z : CStr) :
    ∃ m' l', fsDelete list m (some z) = .ok (true, m') ∧ DeleteTo l z l' ∧
      Rep list m'.heap l' [] := by
  rw [fsDelete, fsFindFile_eq hr]
  simp only [ok_bind]
  cases hf : lookup l z with
  | none => exact ⟨m, l, by simp only [addrOf, ↓reduceIte], .absent hf, hr⟩
  | some v =>
    obtain ⟨_, l₁, l₂, rfl, _⟩ := lookup_some hf
    obtain ⟨_, _, _, _, h0, _⟩ := hr.split
    obtain ⟨nx, hl, hset⟩ := counters_spec hr
    rw [addrOf, if_neg h0, hl, ok_bind]
    by_cases hz : (v.record nx).ref = 0
    · obtain ⟨m₁, m₂, h₁, h₂, hr₂⟩ := remove_spec hr
      exact ⟨m₂, _, by simp only [if_pos hz, h₁, h₂, ok_bind], .removed rfl hf hz, hr₂⟩
    · obtain ⟨m', hm', hr'⟩ := hset v.len v.ref 1
      refine ⟨m', _, ?_, .deferred rfl hf hz, hr'⟩
      rw [if_neg hz]
      change (m.store v.addr ((v.counted v.len v.ref 1).record nx) >>= _) = _
      rw [hm', ok_bind]

/-- A name exists when a file is found under it. -/
theorem fsExists_spec (hr : Rep list m.heap l []) (z : CStr) :
    fsExists list m (some z) = .ok (lookup l z).isSome := by
  rw [fsExists, fsFindFile_eq hr]
  cases hf : lookup l z with
  | none => rfl
  | some v =>
    obtain ⟨_, l₁, l₂, rfl, _⟩ := lookup_some hf
    obtain ⟨_, _, _, _, h0, _⟩ := hr.split
    simp [addrOf, h0]

/-- Opening the null pointer fails and changes nothing when no file is listed and the memory
for one is refused, and otherwise dereferences it. -/
theorem fsOpen_null (hr : Rep list m.heap l []) :
    ((l = [] ∧ ¬ RoomForFile m) ∧ ∃ m', fsOpen list m none = .ok (0, m') ∧ m'.heap = m.heap) ∨
    (¬ (l = [] ∧ ¬ RoomForFile m) ∧ fsOpen list m none = .error .wildAccess) := by
  rw [fsOpen, fsFindFile_null hr]
  by_cases hl : l = []
  · rw [if_pos hl, ok_bind, if_pos rfl]
    rcases fsFileAlloc_null list m with ⟨hroom, m', he, hh⟩ | ⟨hroom, he⟩
    · exact .inl ⟨⟨hl, hroom⟩, m', by simp only [he, ok_bind, ↓reduceIte], hh⟩
    · exact .inr ⟨fun h ↦ h.2 hroom, by rw [he, error_bind]⟩
  · rw [if_neg hl]
    exact .inr ⟨fun h ↦ hl h.1, rfl⟩

/-- Deleting the null pointer changes nothing, or dereferences it. -/
theorem fsDelete_null (hr : Rep list m.heap l []) :
    fsDelete list m none = .ok (true, m) ∨ fsDelete list m none = .error .wildAccess := by
  rw [fsDelete, fsFindFile_null hr]
  split
  · exact .inl (by rw [ok_bind, if_pos rfl])
  · exact .inr rfl

/-- The null pointer does not exist when no file is listed, and otherwise is dereferenced. -/
theorem fsExists_null (hr : Rep list m.heap l []) :
    fsExists list m none = if l = [] then .ok false else .error .wildAccess := by
  rw [fsExists, fsFindFile_null hr]
  split <;> rfl

/-- Truncation shortens a listed file, or leaves it alone. -/
theorem fsTruncate_spec (hr : Rep list m.heap (l₁ ++ v :: l₂) []) (size : Int64) :
    ∃ m', fsTruncate m v.addr size = .ok (true, m') ∧
      Rep list m'.heap (l₁ ++ v.resized (if size < v.len then size else v.len) :: l₂) [] := by
  obtain ⟨nx, hl, hset⟩ := counters_spec hr
  rw [fsTruncate, hl, ok_bind, FileView.record_len]
  split
  · obtain ⟨m', hm', hr'⟩ := hset size v.ref v.deleteOnClose
    refine ⟨m', ?_, hr'⟩
    change (m.store v.addr ((v.counted size v.ref v.deleteOnClose).record nx) >>= _) = _
    rw [hm', ok_bind]
  · exact ⟨m, rfl, hr⟩

/-- Making room refines its relation. -/
theorem fsDataEnsureCapacity_spec (hr : Rep list m.heap (l₁ ++ v :: l₂) []) (sz : Int64) :
    ∃ grown m' u, fsDataEnsureCapacity m v.addr sz = .ok (grown, m') ∧ Grow v sz grown u ∧
      Rep list m'.heap (l₁ ++ u :: l₂) [] := by
  obtain ⟨nx, hv, _⟩ := hr.focus
  obtain ⟨hd, _⟩ := hr.attached v (by simp)
  have hsz : (Int32.ofNat v.data.size).toInt = v.data.size := toInt_ofNat32 _ v.data.size_lt
  rw [fsDataEnsureCapacity, Memory.load_eq hv]
  simp only [ok_bind, fsMemsize, fsRealloc, FileView.record_buf, Memory.xSize_eq hd]
  by_cases hroom : (Int32.ofNat v.data.size).toInt64 < sz
  · have hlt : (v.data.size : Int) < sz.toInt := by rwa [toInt64_lt_iff, hsz] at hroom
    rw [if_pos hroom]
    change ∃ grown m' u,
      (m.xRealloc v.buf (growSize (Int32.ofNat v.data.size) sz) >>= _) = _ ∧ _
    rcases Memory.xRealloc_cases hd (growSize (Int32.ofNat v.data.size) sz) with
      ⟨m', he, hh⟩ | ⟨g, c, m', he, g0, hg, hc, hkeep, hh⟩
    · exact ⟨false, m', _, by rw [he, ok_bind]; rfl, .refused hlt, hh ▸ hr⟩
    · obtain ⟨nx', hv', hr'⟩ := hr.rebuffer g0 hg c
      rw [← hh] at hv' hr'
      have hnx : v.record nx' = v.record nx := by
        have hva : v.addr ≠ v.buf := record_ne_chars hv hd
        have hga : g ≠ v.addr := by
          rintro rfl
          rcases hg with hg | hg
          · exact hva hg
          · exact hg (mem_of_get hv)
        rw [hh, get_insert_ne _ _ hga, get_erase_ne _ hva.symm, hv] at hv'
        injection hv' with hv'
        injection hv' with hv'
        exact hv'.symm
      refine ⟨true, ⟨m'.heap.insert v.addr (.record ((v.buffered g c).record nx')), m'.answers⟩,
        _, ?_, .grown g c hlt hc hkeep, hr'⟩
      have hst : m'.store v.addr ((v.buffered g c).record nx') =
          .ok ⟨m'.heap.insert v.addr (.record ((v.buffered g c).record nx')), m'.answers⟩ :=
        Memory.store_eq hv'
      have hnext : nx' = nx := congrArg FsFile.next hnx
      rw [he, ok_bind]
      simp only [if_neg g0]
      change (m'.store v.addr ((v.buffered g c).record nx) >>= _) = _
      rw [← hnext, hst, ok_bind]
  · have hge : ¬ (v.data.size : Int) < sz.toInt := by rwa [toInt64_lt_iff, hsz] at hroom
    rw [if_neg hroom]
    exact ⟨true, m, _, rfl, .enough (by omega), hr⟩

/-- A size hint refines the growth it asks for. -/
theorem fsSizeHint_spec (hr : Rep list m.heap (l₁ ++ v :: l₂) []) (size : Int64) :
    ∃ grown m' u, fsSizeHint m v.addr size = .ok m' ∧ Grow v size grown u ∧
      Rep list m'.heap (l₁ ++ u :: l₂) [] := by
  obtain ⟨grown, m', u, he, hg, hr'⟩ := fsDataEnsureCapacity_spec hr size
  exact ⟨grown, m', u, by rw [fsSizeHint, he, ok_bind], hg, hr'⟩

/-- Growth keeps the file's place, name and counters. -/
theorem Grow.addr_eq {sz : Int64} {grown : Bool} {u : FileView} (hg : Grow v sz grown u) :
    u.addr = v.addr := by
  cases hg <;> rfl

/-- Reads and writes reject negative offsets and lengths. -/
theorem not_rejected_iff {o : Int64} {n : Int32} :
    ¬ (o < 0 ∨ n < 0) ↔ 0 ≤ o.toInt ∧ 0 ≤ n.toInt := by
  rw [Int64.lt_iff_toInt_lt, Int32.lt_iff_toInt_lt, Int64.toInt_zero, Int32.toInt_zero]
  omega

/-- A write whose growth fails reports an error. -/
theorem fsWrite_refused {m' : FsMem} {fd : Addr} {o : Int64} {n : Int32} (src : Nat → UInt8)
    (ho : 0 ≤ o.toInt) (hn : 0 ≤ n.toInt)
    (he : fsDataEnsureCapacity m fd (o + n.toInt64) = .ok (false, m')) :
    fsWrite m fd o n src = .ok (-1, m') := by
  have hneg : ¬ (o < 0 ∨ n < 0) := not_rejected_iff.mpr ⟨ho, hn⟩
  simp only [fsWrite, if_neg hneg, he, ok_bind, ↓reduceIte]

/-- Copying a caller's bytes into a file's buffer, where they fit, changes that file alone. -/
private theorem copy_buffer {u : FileView} (hr : Rep list m.heap (l₁ ++ u :: l₂) [])
    {w : FsMem → Nat → UInt8 → Except Fault FsMem} {off : Nat} (n : Nat) (src : Nat → UInt8)
    (hw : ∀ m i b, w m i b = m.writeChar u.buf ((off + i : Nat) : Int) b)
    (hfit : n = 0 ∨ off + n ≤ u.data.size) :
    ∃ m', fsCopydata w (fun i ↦ .ok (src i)) 0 n m = .ok m' ∧
      Rep list m'.heap (l₁ ++ u.buffered u.buf (u.data.blit off n src) :: l₂) [] := by
  obtain ⟨hd, _⟩ := hr.attached u (by simp)
  rcases hfit with rfl | hle
  · exact ⟨m, rfl, by rw [Chars.blit_zero]; exact hr⟩
  · refine ⟨_, copy_chars (f := src) hw n 0 m u.data hd (fun _ _ _ ↦ rfl) (by omega), ?_⟩
    simpa only [Nat.add_zero, Nat.zero_add] using hr.overwrite (u.data.blit off n src)

/-- A write whose growth succeeds stores its bytes and sets the length, unless a byte falls
outside the buffer made for it. -/
theorem fsWrite_granted {m₁ : FsMem} {u : FileView} {o : Int64} {n : Int32}
    (src : Nat → UInt8) (ho : 0 ≤ o.toInt) (hn : 0 ≤ n.toInt)
    (he : fsDataEnsureCapacity m u.addr (o + n.toInt64) = .ok (true, m₁))
    (hr : Rep list m₁.heap (l₁ ++ u :: l₂) []) :
    (∃ m', fsWrite m u.addr o n src = .ok (n, m') ∧
      (n.toInt = 0 ∨ o.toInt + n.toInt ≤ u.data.size) ∧
      Rep list m'.heap
        (l₁ ++ u.written o.toInt.toNat n.toInt.toNat src (o + n.toInt64) :: l₂) []) ∨
    (fsWrite m u.addr o n src = .error .outOfBounds ∧ 0 < n.toInt ∧
      (u.data.size : Int) < o.toInt + n.toInt) := by
  have hneg : ¬ (o < 0 ∨ n < 0) := not_rejected_iff.mpr ⟨ho, hn⟩
  obtain ⟨nx, hl, _⟩ := counters_spec hr
  obtain ⟨hd, _⟩ := hr.attached u (by simp)
  have hw : ∀ (m : FsMem) (i : Nat) (b : UInt8), m.writeChar u.buf (o.toInt + i) b =
      m.writeChar u.buf ((o.toInt.toNat + i : Nat) : Int) b := by
    intro m i b
    congr 1
    omega
  have hstep : fsWrite m u.addr o n src = (do
      let m ← fsCopydata (fun m i c ↦ m.writeChar u.buf (o.toInt + i) c) (fun i ↦ .ok (src i)) 0
        n.toInt.toNat m₁
      let f ← m.load u.addr
      let m ← m.store u.addr { f with len := o + n.toInt64 }
      .ok (n, m)) := by
    simp only [fsWrite, if_neg hneg, he, ok_bind, Bool.true_eq_false, ↓reduceIte, hl]
    rfl
  rw [hstep]
  by_cases hfit : n.toInt = 0 ∨ o.toInt + n.toInt ≤ u.data.size
  · left
    obtain ⟨m₂, hc, hr₂⟩ := copy_buffer hr n.toInt.toNat src hw (by omega)
    obtain ⟨x, hx⟩ : ∃ x, u.buffered u.buf (u.data.blit o.toInt.toNat n.toInt.toNat src) = x :=
      ⟨_, rfl⟩
    have hxa : u.addr = x.addr := by rw [← hx]; rfl
    rw [hx] at hr₂
    obtain ⟨nx', hl', hset⟩ := counters_spec hr₂
    obtain ⟨m', hm', hr'⟩ := hset (o + n.toInt64) x.ref x.deleteOnClose
    refine ⟨m', ?_, hfit, by rw [FileView.written, hx]; exact hr'⟩
    rw [hc, ok_bind, hxa, hl', ok_bind]
    change (m₂.store x.addr
      ((x.counted (o + n.toInt64) x.ref x.deleteOnClose).record nx') >>= _) = _
    rw [hm', ok_bind]
  · right
    obtain ⟨k, hk⟩ : ∃ k, n.toInt.toNat = k + 1 := ⟨n.toInt.toNat - 1, by omega⟩
    refine ⟨?_, by omega, by omega⟩
    rw [hk, copy_past hw (fun _ ↦ rfl) k 0 m₁ u.data hd (by omega)]
    rfl

/-- Writing refines its relation, unless a byte falls outside the buffer made for it. -/
theorem fsWrite_spec (hr : Rep list m.heap (l₁ ++ v :: l₂) []) (o : Int64) (n : Int32)
    (src : Nat → UInt8) :
    (∃ rc m' u, fsWrite m v.addr o n src = .ok (rc, m') ∧ Write v o n src rc u ∧
      Rep list m'.heap (l₁ ++ u :: l₂) []) ∨
    fsWrite m v.addr o n src = .error .outOfBounds := by
  by_cases hneg : o < 0 ∨ n < 0
  · exact .inl ⟨-1, m, v, by rw [fsWrite, if_pos hneg], .rejected hneg, hr⟩
  obtain ⟨ho, hn⟩ := not_rejected_iff.mp hneg
  obtain ⟨grown, m₁, u, he, hg, hr₁⟩ := fsDataEnsureCapacity_spec hr (o + n.toInt64)
  cases grown with
  | false =>
    cases hg with
    | refused hlt => exact .inl ⟨-1, m₁, v, fsWrite_refused src ho hn he, .refused ho hn hlt, hr₁⟩
  | true =>
    rw [← hg.addr_eq] at he ⊢
    rcases fsWrite_granted src ho hn he hr₁ with ⟨m', hw, hfit, hr'⟩ | ⟨hw, _⟩
    · exact .inl ⟨n, m', _, hw, .stored ho hn hg hfit, hr'⟩
    · exact .inr hw

end Refinement
end SqliteComposite.Inmemfs
