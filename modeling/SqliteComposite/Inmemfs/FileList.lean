import SqliteComposite.Base.CInt
import SqliteComposite.Inmemfs.Strings
import SqliteComposite.Inmemfs.View

/-!
# The file list

Searching, linking and unlinking walk or change the chain from the sentinel. Each function
is described on the list of files the heap represents: a search finds the first file the
name names, a successful allocation puts one new file at the head, and unlinking followed
by freeing removes one file and its three blocks.
-/

namespace SqliteComposite.Inmemfs

open Base

/-- The search finds the file under this name: it carries the name, and the name ends
within the bound of the comparison. -/
def FileView.Named (v : FileView) (z : CStr) : Prop := v.name = z ∧ z.length < maxPathname

instance (v : FileView) (z : CStr) : Decidable (v.Named z) := by
  unfold FileView.Named
  infer_instance

/-- The first file found under a name. -/
def lookup (l : List FileView) (z : CStr) : Option FileView := l.find? fun v ↦ v.Named z

/-- The address of a file that may be missing. -/
def addrOf : Option FileView → Addr
  | none => 0
  | some v => v.addr

/-! ### Searching -/

private theorem findLoop_eq {m : FsMem} (z : CStr) {l : List FileView} :
    ∀ {p : Addr} {rounds : Nat}, Files m.heap p l 0 → (∀ v ∈ l, Attached m.heap v) →
      l.length < rounds → findLoop m (some z) rounds p = .ok (addrOf (lookup l z)) := by
  induction l with
  | nil =>
    intro p rounds hc _ hr
    obtain ⟨k, rfl⟩ : ∃ k, rounds = k + 1 := ⟨rounds - 1, by simp at hr; omega⟩
    simp only [Chain.nil_iff] at hc
    simp only [findLoop, hc, ↓reduceIte]
    rfl
  | cons v l ih =>
    intro p rounds hc ha hr
    obtain ⟨k, rfl⟩ : ∃ k, rounds = k + 1 := ⟨rounds - 1, by omega⟩
    obtain ⟨hp, h0, nx, hv, hrest⟩ := hc
    obtain ⟨_, c, hcz, hh⟩ := ha v List.mem_cons_self
    rw [findLoop, if_neg h0, Memory.load_eq hv]
    simp only [ok_bind, FileView.record_zName, FileView.record_next]
    rw [fsStrequals_eq (reads_block (m := m) hcz hh) (reads_readName z)]
    simp only [ok_bind]
    by_cases hn : v.name = z ∧ v.name.length < maxPathname
    · have hnz : v.Named z := ⟨hn.1, hn.1 ▸ hn.2⟩
      have hf : lookup (v :: l) z = some v := List.find?_cons_of_pos (by simpa using hnz)
      rw [decide_eq_true hn, if_pos rfl, hf, hp]
      rfl
    · have hnz : ¬ v.Named z := fun h ↦ hn ⟨h.1, h.1 ▸ h.2⟩
      have hf : lookup (v :: l) z = lookup l z := List.find?_cons_of_neg (by simpa using hnz)
      rw [decide_eq_false hn, if_neg (by simp), hf]
      exact ih hrest (fun u hu ↦ ha u (List.mem_cons_of_mem _ hu))
        (by simp only [List.length_cons] at hr; omega)

/-- The search returns the first file found under the name, or null. -/
theorem fsFindFile_eq {list : Addr} {m : FsMem} {l : List FileView} {spare : List Addr}
    (hr : Rep list m.heap l spare) (z : CStr) :
    fsFindFile list m (some z) = .ok (addrOf (lookup l z)) := by
  obtain ⟨r, hl, hc⟩ := hr.sentinel
  rw [fsFindFile, Memory.load_eq hl]
  exact findLoop_eq z hc hr.attached hr.length_lt

/-- The search for the null pointer dereferences it unless the list is empty. -/
theorem fsFindFile_null {list : Addr} {m : FsMem} {l : List FileView} {spare : List Addr}
    (hr : Rep list m.heap l spare) :
    fsFindFile list m none = if l = [] then .ok 0 else .error .wildAccess := by
  obtain ⟨r, hl, hc⟩ := hr.sentinel
  rw [fsFindFile, Memory.load_eq hl, ok_bind]
  cases l with
  | nil =>
    have hnil : r.next = 0 := hc
    rw [findLoop, if_pos hnil, if_pos rfl]
  | cons v l =>
    obtain ⟨_, h0, nx, hv, _⟩ := hc
    obtain ⟨_, c, hz, hh⟩ := hr.attached v List.mem_cons_self
    have h512 : maxPathname = 511 + 1 := rfl
    have h1 : m.readChar v.zName (0 : Nat) = .ok (v.name.byte 0) :=
      reads_block hz hh 0 (Nat.zero_le _)
    rw [if_neg (List.cons_ne_nil v l), findLoop, if_neg h0, Memory.load_eq hv, ok_bind,
      FileView.record_zName, h512, fsStrequals, h1, ok_bind]
    rfl

/-- A file found under a name splits the list at its first bearer. -/
theorem lookup_some {l : List FileView} {z : CStr} {v : FileView} (h : lookup l z = some v) :
    v.Named z ∧ ∃ l₁ l₂, l = l₁ ++ v :: l₂ ∧ ∀ u ∈ l₁, ¬ u.Named z := by
  obtain ⟨hv, l₁, l₂, he, hn⟩ := List.find?_eq_some_iff_append.mp h
  exact ⟨of_decide_eq_true hv, l₁, l₂, he, fun u hu ↦ by simpa using hn u hu⟩

/-- No file is found exactly when no file is named so. -/
theorem lookup_none {l : List FileView} {z : CStr} :
    lookup l z = none ↔ ∀ u ∈ l, ¬ u.Named z := by
  simp [lookup]

/-! ### Unlinking -/

private theorem unlinkLoop_spec {v : FileView} {l₂ : List FileView} {nx : Addr}
    {l₁ : List FileView} :
    ∀ {m : FsMem} {prev : Addr} {p : FsFile} {rounds : Nat},
      m.heap[prev]? = some (.record p) → Files m.heap p.next l₁ v.addr → v.addr ≠ 0 →
      m.heap[v.addr]? = some (.record (v.record nx)) → Files m.heap nx l₂ 0 →
      (prev :: (l₁ ++ v :: l₂).map FileView.addr).Nodup → l₁.length + 1 < rounds + 1 →
      ∃ m', unlinkLoop v.addr rounds m prev p.next = .ok m' ∧
        (∃ q, m'.heap[prev]? = some (.record { p with next := q }) ∧
          Files m'.heap q (l₁ ++ l₂) 0) ∧
        m'.heap[v.addr]? = some (.record (v.record 0)) ∧
        (∀ b, b ≠ prev → b ≠ v.addr → (∀ u ∈ l₁, b ≠ u.addr) → m'.heap[b]? = m.heap[b]?) ∧
        ∀ b, b ∈ m'.heap ↔ b ∈ m.heap := by
  induction l₁ with
  | nil =>
    intro m prev p rounds hprev hc h0 hv h₂ hn hr
    obtain ⟨k, rfl⟩ : ∃ k, rounds = k + 1 := ⟨rounds - 1, by simp at hr; omega⟩
    replace hc : p.next = v.addr := hc
    simp only [List.nil_append, List.map_cons, List.nodup_cons, List.mem_cons, List.mem_map,
      not_or] at hn
    obtain ⟨⟨hpv, hpl⟩, hvl, _⟩ := hn
    rw [unlinkLoop, hc, if_neg h0, if_pos rfl, Memory.load_eq hv]
    simp only [ok_bind]
    rw [Memory.load_eq hprev]
    simp only [ok_bind]
    rw [Memory.store_eq hprev]
    simp only [ok_bind]
    have hv' : (m.heap.insert prev (.record { p with next := nx }))[v.addr]? =
        some (.record (v.record nx)) := (get_insert_ne _ _ hpv).trans hv
    change ∃ m', (do
      let f ← Memory.load ⟨m.heap.insert prev (.record { p with next := nx }), m.answers⟩ v.addr
      Memory.store ⟨m.heap.insert prev (.record { p with next := nx }), m.answers⟩ v.addr
        { f with next := 0 }) = .ok m' ∧ _
    rw [Memory.load_eq hv']
    simp only [ok_bind]
    rw [Memory.store_eq hv']
    refine ⟨_, rfl, ⟨nx, ?_, ?_⟩, get_insert_self _ _ _, ?_, ?_⟩
    · exact (get_insert_ne _ _ (Ne.symm hpv)).trans (get_insert_self _ _ _)
    · refine h₂.frame fun u hu ↦ ?_
      have hpu : prev ≠ u.addr := fun he ↦ hpl ⟨u, hu, he.symm⟩
      have hvu : v.addr ≠ u.addr := fun he ↦ hvl ⟨u, hu, he.symm⟩
      exact (get_insert_ne _ _ hvu).trans (get_insert_ne _ _ hpu)
    · intro b hb hbv _
      exact (get_insert_ne _ _ (Ne.symm hbv)).trans (get_insert_ne _ _ (Ne.symm hb))
    · intro b
      have h1 := mem_of_get hprev
      have h2 := mem_of_get hv
      simp only [Std.ExtTreeMap.mem_insert, Nat.compare_eq_eq]
      constructor
      · rintro (rfl | rfl | hb)
        · exact h2
        · exact h1
        · exact hb
      · exact fun hb ↦ .inr (.inr hb)
  | cons u l₁ ih =>
    intro m prev p rounds hprev hc h0 hv h₂ hn hr
    obtain ⟨k, rfl⟩ : ∃ k, rounds = k + 1 := ⟨rounds - 1, by simp at hr; omega⟩
    obtain ⟨hu, hu0, nu, hcell, hrest⟩ := hc
    have hn' := hn
    simp only [List.cons_append, List.map_cons, List.nodup_cons, List.mem_cons, List.mem_map,
      List.mem_append, not_or] at hn
    have hne : u.addr ≠ v.addr := by grind
    have hpu : prev ≠ u.addr := hn.1.1
    rw [unlinkLoop, if_neg hu0, hu, if_neg hne, ← hu, Memory.load_eq hcell]
    simp only [ok_bind]
    rw [hu] at hcell
    obtain ⟨m', hm', ⟨q, hq, hfiles⟩, hv', hframe, hmem⟩ :=
      @ih m u.addr (u.record nu) k hcell hrest h0 hv h₂
        (List.nodup_cons.mp hn').2 (by simp only [List.length_cons] at hr; omega)
    rw [hu]
    have hpv : prev ≠ v.addr := by grind
    have hpl : ∀ w ∈ l₁, prev ≠ w.addr := by grind
    refine ⟨m', hm', ⟨u.addr, ?_, rfl, hu ▸ hu0, q, hq, hfiles⟩, hv', ?_, hmem⟩
    · rw [hframe prev hpu hpv hpl, hprev, ← hu]
    · intro b hb hbv hbl
      exact hframe b (hbl u List.mem_cons_self) hbv
        fun w hw ↦ hbl w (List.mem_cons_of_mem _ hw)

/-- Unlinking takes a file out of the list and leaves its blocks to the caller. -/
theorem fsFileUnlink_spec {list : Addr} {m : FsMem} {l₁ l₂ : List FileView} {v : FileView}
    {spare : List Addr} (hr : Rep list m.heap (l₁ ++ v :: l₂) spare) :
    ∃ m', fsFileUnlink list m v.addr = .ok m' ∧
      Rep list m'.heap (l₁ ++ l₂) (v.blocks ++ spare) ∧
      m'.heap[v.addr]? = some (.record (v.record 0)) ∧ Attached m'.heap v := by
  obtain ⟨r, nx, hl, h₁, h0, hv, h₂⟩ := hr.split
  have hn := hr.nodup_addr
  have hls : list ∉ (l₁ ++ v :: l₂).map FileView.addr := by
    have hf := (List.nodup_cons.mp hr.nodup).1
    intro hm
    obtain ⟨u, hu, he⟩ := List.mem_map.mp hm
    apply hf
    exact List.mem_append_left _ (List.mem_flatMap.mpr ⟨u, hu, by simp [FileView.blocks, he]⟩)
  have hlen := hr.length_lt
  obtain ⟨m', hm', ⟨q, hq, hfiles⟩, hv', hframe, hmem⟩ :=
    @unlinkLoop_spec v l₂ nx l₁ m list r (m.heap.size + 1) hl h₁ h0 hv h₂
      (List.nodup_cons.mpr ⟨hls, hn⟩) (by simp at hlen; omega)
  -- The arrays are untouched: the walk only writes structs.
  have hchars : ∀ (b : Addr) (c : Chars), m.heap[b]? = some (.chars c) →
      m'.heap[b]? = some (.chars c) := by
    intro b c hb
    rw [hframe b (record_ne_chars hl hb).symm (record_ne_chars hv hb).symm, hb]
    intro u hu
    obtain ⟨_, nu, hcu⟩ := h₁.node hu
    exact (record_ne_chars hcu hb).symm
  have hatt : ∀ u ∈ l₁ ++ v :: l₂, Attached m'.heap u := by
    intro u hu
    obtain ⟨hd, c, hc, hh⟩ := hr.attached u hu
    exact ⟨hchars _ _ hd, c, hchars _ _ hc, hh⟩
  refine ⟨m', ?_, ⟨⟨_, hq, hfiles⟩, ?_, ?_, ?_, ?_⟩, hv', hatt v (by simp)⟩
  · rw [fsFileUnlink, Memory.load_eq hl]
    exact hm'
  · exact fun u hu ↦ hatt u (by simp only [List.mem_append, List.mem_cons] at hu ⊢; tauto)
  · intro b
    have hp := (footprint_perm list l₁ l₂ v spare).count_eq b
    have ho := hr.owns b
    simp only [footprint, List.count_append, List.count_cons, hmem] at hp ho ⊢
    omega
  · rw [hmem]
    exact hr.zero
  · exact fun u hu ↦ hr.names u (by simp only [List.mem_append, List.mem_cons] at hu ⊢; tauto)

/-! ### Freeing -/

/-- Freeing a file's struct, buffer and name gives those blocks back and no other. -/
theorem fsFileFree_owns {m : FsMem} {v : FileView} {nx : Addr} {bs : List Addr}
    (ho : Owns m.heap (v.blocks ++ bs)) (h0 : 0 ∉ m.heap)
    (hv : m.heap[v.addr]? = some (.record (v.record nx))) (ha : Attached m.heap v) :
    ∃ m', fsFileFree m v.addr = .ok m' ∧ Owns m'.heap bs ∧ 0 ∉ m'.heap ∧
      ∀ b ∈ bs, m'.heap[b]? = m.heap[b]? := by
  obtain ⟨hd, c, hz, _⟩ := ha
  have hnz {b : Addr} {cb : Cell FsFile} (hb : m.heap[b]? = some cb) : b ≠ 0 :=
    fun he ↦ h0 (he ▸ mem_of_get hb)
  have hza : v.zName ≠ v.addr := (record_ne_chars hv hz).symm
  have hba : v.buf ≠ v.addr := (record_ne_chars hv hd).symm
  have ho' : Owns m.heap (v.zName :: v.buf :: v.addr :: bs) := by
    refine ho.perm ?_
    rw [List.perm_iff_count]
    intro b
    simp only [FileView.blocks, List.count_append, List.count_cons, List.count_nil]
    omega
  have hzb : v.zName ≠ v.buf := by
    have hn := ho'.nodup
    simp only [List.nodup_cons, List.mem_cons, not_or] at hn
    exact hn.1.1
  -- The heap after each of the five changes.
  let r₁ : FsFile := { v.record nx with zName := 0 }
  let r₂ : FsFile := { r₁ with buf := 0 }
  let h₁ := m.heap.erase v.zName
  let h₂ := h₁.insert v.addr (.record r₁)
  let h₃ := h₂.erase v.buf
  let h₄ := h₃.insert v.addr (.record r₂)
  have hv₁ : h₁[v.addr]? = some (.record (v.record nx)) := (get_erase_ne _ hza).trans hv
  have hv₂ : h₂[v.addr]? = some (.record r₁) := get_insert_self _ _ _
  have hd₂ : h₂[v.buf]? = some (.chars v.data) :=
    (get_insert_ne _ _ hba.symm).trans ((get_erase_ne _ hzb).trans hd)
  have hv₃ : h₃[v.addr]? = some (.record r₁) := (get_erase_ne _ hba).trans hv₂
  have hv₄ : h₄[v.addr]? = some (.record r₂) := get_insert_self _ _ _
  have e₁ : m.xFree v.zName = .ok ⟨h₁, m.answers⟩ := Memory.xFree_eq (hnz hz) (mem_of_get hz)
  have e₂ : (⟨h₁, m.answers⟩ : FsMem).store v.addr r₁ = .ok ⟨h₂, m.answers⟩ :=
    Memory.store_eq hv₁
  have e₃ : (⟨h₂, m.answers⟩ : FsMem).load v.addr = .ok r₁ := Memory.load_eq hv₂
  have e₄ : (⟨h₂, m.answers⟩ : FsMem).xFree v.buf = .ok ⟨h₃, m.answers⟩ :=
    Memory.xFree_eq (hnz hd) (mem_of_get hd₂)
  have e₅ : (⟨h₃, m.answers⟩ : FsMem).store v.addr r₂ = .ok ⟨h₄, m.answers⟩ :=
    Memory.store_eq hv₃
  have e₆ : (⟨h₄, m.answers⟩ : FsMem).xFree v.addr = .ok ⟨h₄.erase v.addr, m.answers⟩ :=
    Memory.xFree_eq (hnz hv) (mem_of_get hv₄)
  refine ⟨⟨h₄.erase v.addr, m.answers⟩, ?_, ?_, ?_, ?_⟩
  · have hz0 : v.zName ≠ 0 := hnz hz
    have hd0 : r₁.buf ≠ 0 := hnz hd
    simp only [fsFileFree, fsFree, Memory.load_eq hv, ok_bind, if_pos hz0,
      FileView.record_zName, e₁]
    change ((⟨h₁, m.answers⟩ : FsMem).store v.addr r₁ >>= _) = _
    simp only [e₂, ok_bind, e₃, if_pos hd0]
    change (((⟨h₂, m.answers⟩ : FsMem).xFree v.buf >>= fun m ↦ m.store v.addr r₂) >>= _) = _
    simp only [e₄, ok_bind, e₅, e₆]
  · have o₂ : Owns h₂ _ := ho'.erase.insert_live (.record r₁) (mem_of_get hv₁)
    have o₄ : Owns h₄ _ := o₂.erase.insert_live (.record r₂) (mem_of_get hv₃)
    exact o₄.erase
  · simp [h₄, h₃, h₂, h₁, h0, hnz hv]
  · intro b hb
    have hn := ho'.nodup
    simp only [List.nodup_cons, List.mem_cons, not_or] at hn
    have hbz : v.zName ≠ b := fun he ↦ hn.1.2.2 (he ▸ hb)
    have hbb : v.buf ≠ b := fun he ↦ hn.2.1.2 (he ▸ hb)
    have hbv : v.addr ≠ b := fun he ↦ hn.2.2.1 (he ▸ hb)
    rw [get_erase_ne _ hbv, get_insert_ne _ _ hbv, get_erase_ne _ hbb, get_insert_ne _ _ hbv,
      get_erase_ne _ hbz]

/-- Freeing an unlinked file leaves the listed ones. -/
theorem fsFileFree_spec {list : Addr} {m : FsMem} {l : List FileView} {v : FileView}
    {nx : Addr} {spare : List Addr} (hr : Rep list m.heap l (v.blocks ++ spare))
    (hv : m.heap[v.addr]? = some (.record (v.record nx))) (ha : Attached m.heap v) :
    ∃ m', fsFileFree m v.addr = .ok m' ∧ Rep list m'.heap l spare := by
  have ho : Owns m.heap (v.blocks ++ footprint list l spare) := by
    refine hr.owns.perm ?_
    rw [List.perm_iff_count]
    intro b
    simp only [footprint, List.count_append, List.count_cons]
    omega
  obtain ⟨m', he, ho', hz, hk⟩ := fsFileFree_owns ho hr.zero hv ha
  refine ⟨m', he, hr.frame (fun b hb ↦ hk b ?_) ho' hz⟩
  simp only [footprint, List.append_nil, List.mem_cons, List.mem_append] at hb ⊢
  tauto

/-- Unlinking and freeing a file removes it and its blocks. -/
theorem remove_spec {list : Addr} {m : FsMem} {l₁ l₂ : List FileView} {v : FileView}
    {spare : List Addr} (hr : Rep list m.heap (l₁ ++ v :: l₂) spare) :
    ∃ m₁ m₂, fsFileUnlink list m v.addr = .ok m₁ ∧ fsFileFree m₁ v.addr = .ok m₂ ∧
      Rep list m₂.heap (l₁ ++ l₂) spare := by
  obtain ⟨m₁, h₁, hr₁, hv, ha⟩ := fsFileUnlink_spec hr
  obtain ⟨m₂, h₂, hr₂⟩ := fsFileFree_spec hr₁ hv ha
  exact ⟨m₁, m₂, h₁, h₂, hr₂⟩

/-! ### Allocating -/

/-- The bounded copy is refused, or returns a fresh block that holds the prefix. -/
theorem fsCopystring_spec (m : FsMem) (z : CStr) :
    (∃ m', fsCopystring m (readName (some z)) maxPathname = .ok (0, m') ∧ m'.heap = m.heap) ∨
    ∃ g c m', fsCopystring m (readName (some z)) maxPathname = .ok (g, m') ∧ g ≠ 0 ∧
      g ∉ m.heap ∧ Holds c (z.take maxPathname) ∧ m'.heap = m.heap.insert g (.chars c) := by
  have hlen := boundedLen_eq (reads_readName z) maxPathname 0 (Nat.zero_le _)
  rw [Nat.zero_add] at hlen
  have hmin : min z.length maxPathname ≤ 512 := Nat.min_le_right _ _
  rw [fsCopystring, hlen]
  simp only [ok_bind, fsMalloc, Mem.cMemRoundup]
  rcases m.xMalloc_cases (Int32.ofNat (min z.length maxPathname + 1)) with
    ⟨m', he, hh⟩ | ⟨g, c, m', he, h0, hg, hsz, hh⟩
  · exact .inl ⟨m', by simp only [he, ↓reduceIte], hh⟩
  · right
    rw [toInt_ofNat32 _ (by omega)] at hsz
    have hs : c.size = min z.length maxPathname + 1 := by omega
    have hget : m'.heap[g]? = some (.chars c) := by rw [hh, get_insert_self]
    have hw : ∀ (m : FsMem) (i : Nat) (b : UInt8),
        m.writeChar g i b = m.writeChar g ((0 + i : Nat) : Int) b := by simp
    have hcopy := copy_chars (f := z.byte) hw (min z.length maxPathname) 0 m' c hget
      (fun j _ hj ↦ reads_readName z j (by omega)) (by omega)
    simp only [Nat.zero_add] at hcopy
    simp only [he, if_neg h0, hcopy, ok_bind]
    rw [Memory.writeChar_eq (get_insert_self _ _ _) (by simp only [Chars.blit]; omega)]
    refine ⟨g, (c.blit 0 (min z.length maxPathname) z.byte).set (min z.length maxPathname) 0,
      _, rfl, h0, hg, ⟨?_, ?_⟩, ?_⟩
    · rw [CStr.length_take]
      simp only [Chars.set, Chars.blit]
      omega
    · intro i hi
      rw [CStr.length_take] at hi
      simp only [Chars.set, Chars.blit, Nat.zero_add, Nat.sub_zero, Nat.zero_le, true_and]
      by_cases he : i = min z.length maxPathname
      · rw [if_pos he, eq_comm, CStr.byte_eq_zero_iff, CStr.length_take]
        omega
      · rw [if_neg he, if_pos (by omega), CStr.byte_take, if_pos (by omega)]
    · simp only [insert_insert, hh]

/-- A new file: no bytes, no handles, under the first characters of the name asked for. -/
structure FileView.IsNew (v : FileView) (z : CStr) : Prop where
  name : v.name = z.take maxPathname
  size : (v.data.size : Int) = initialBufDataSize.toInt
  len : v.len = 0
  ref : v.ref = 0
  deleteOnClose : v.deleteOnClose = 0

/-- Linking puts the file described by a filled-in struct at the head of the list. -/
theorem fsFileLink_spec {list : Addr} {m : FsMem} {l : List FileView} {v : FileView}
    {spare : List Addr} (hr : Rep list m.heap l (v.blocks ++ spare))
    (hv : m.heap[v.addr]? = some (.record (v.record 0))) (ha : Attached m.heap v)
    (hname : v.name.length ≤ maxPathname) :
    ∃ m', fsFileLink list m v.addr = .ok m' ∧ Rep list m'.heap (v :: l) spare := by
  obtain ⟨r, hl, hc⟩ := hr.sentinel
  have hn := hr.nodup
  have hlv : list ≠ v.addr := by
    simp only [footprint, FileView.blocks, List.nodup_cons, List.mem_append,
      List.mem_cons] at hn
    grind
  have hlu : ∀ u ∈ l, list ≠ u.addr ∧ v.addr ≠ u.addr := by
    intro u hu
    simp only [footprint, FileView.blocks, List.nodup_cons, List.mem_append, List.nodup_append,
      List.mem_flatMap, List.mem_cons] at hn
    grind
  let h₁ := m.heap.insert v.addr (.record (v.record r.next))
  let h₂ := h₁.insert list (.record { r with next := v.addr })
  have hl₁ : h₁[list]? = some (.record r) := (get_insert_ne _ _ hlv.symm).trans hl
  have e₁ : m.store v.addr (v.record r.next) = .ok ⟨h₁, m.answers⟩ := Memory.store_eq hv
  have e₂ : (⟨h₁, m.answers⟩ : FsMem).load list = .ok r := Memory.load_eq hl₁
  have e₃ : (⟨h₁, m.answers⟩ : FsMem).store list { r with next := v.addr } =
      .ok ⟨h₂, m.answers⟩ := Memory.store_eq hl₁
  refine ⟨⟨h₂, m.answers⟩, ?_, ⟨⟨_, get_insert_self _ _ _, rfl, ?_, r.next, ?_, ?_⟩, ?_, ?_,
    ?_, ?_⟩⟩
  · rw [fsFileLink, Memory.load_eq hl, ok_bind, Memory.load_eq hv, ok_bind]
    change (m.store v.addr (v.record r.next) >>= _) = _
    rw [e₁, ok_bind, e₂, ok_bind, e₃]
  · exact fun h0 ↦ hr.zero (h0 ▸ mem_of_get hv)
  · exact (get_insert_ne _ _ hlv).trans (get_insert_self _ _ _)
  · refine hc.frame fun u hu ↦ ?_
    exact (get_insert_ne _ _ (hlu u hu).1).trans (get_insert_ne _ _ (hlu u hu).2)
  · intro u hu
    rcases List.mem_cons.mp hu with rfl | hu
    · exact (ha.insert_record hv).insert_record hl₁
    · exact ((hr.attached u hu).insert_record hv).insert_record hl₁
  · have ho : Owns h₂ _ := (hr.owns.insert_live (.record (v.record r.next))
      (mem_of_get hv)).insert_live (.record { r with next := v.addr }) (mem_of_get hl₁)
    refine ho.perm ?_
    rw [List.perm_iff_count]
    intro b
    simp only [footprint, List.flatMap_cons, List.count_append, List.count_cons]
    omega
  · have h1 := mem_of_get hv
    have h2 := mem_of_get hl
    have hz := hr.zero
    simp only [h₂, h₁, Std.ExtTreeMap.mem_insert, Nat.compare_eq_eq, not_or]
    exact ⟨fun h ↦ hz (h ▸ h2), fun h ↦ hz (h ▸ h1), hz⟩
  · intro u hu
    rcases List.mem_cons.mp hu with rfl | hu
    · exact hname
    · exact hr.names u hu

/-- Two fresh blocks that are given back leave the heap as it was. -/
private theorem xFree_fresh {m m' : FsMem} {file buf : Addr} {cf cb : Cell FsFile}
    (f0 : file ≠ 0) (b0 : buf ≠ 0) (hf : file ∉ m.heap) (hb : buf ∉ m.heap.insert file cf)
    (hh : m'.heap = (m.heap.insert file cf).insert buf cb) :
    ∃ m₁ m₂, m'.xFree file = .ok m₁ ∧ m₁.xFree buf = .ok m₂ ∧ m₂.heap = m.heap := by
  have hbf : buf ≠ file := fun he ↦ hb (by simp [he])
  have hx : m'.xFree file = .ok ⟨m'.heap.erase file, m'.answers⟩ :=
    Memory.xFree_eq f0 (by simp [hh])
  have hy : (⟨m'.heap.erase file, m'.answers⟩ : FsMem).xFree buf =
      .ok ⟨(m'.heap.erase file).erase buf, m'.answers⟩ :=
    Memory.xFree_eq b0 (by simp [hh, hbf.symm])
  refine ⟨_, _, hx, hy, ?_⟩
  apply Std.ExtTreeMap.ext_getElem?
  intro a
  simp only [hh, get_erase, get_insert]
  have ha (he : file = a) : m.heap[a]? = none := Std.ExtTreeMap.getElem?_eq_none (he ▸ hf)
  have hab (he : buf = a) : m.heap[a]? = none := by
    refine Std.ExtTreeMap.getElem?_eq_none fun hm ↦ hb ?_
    rw [he]
    simp [hm]
  grind

/-- The struct of a new file is filled in, once its buffer and its name have their blocks. -/
private theorem storeNew_spec {list : Addr} {m : FsMem} {l : List FileView} {v : FileView}
    {cf cn : Chars} (hr : Rep list m.heap l [v.zName, v.buf, v.addr])
    (hcell : m.heap[v.addr]? = some (.chars cf)) (hsize : sizeofFsFile ≤ cf.size)
    (hbuf : m.heap[v.buf]? = some (.chars v.data))
    (hnm : m.heap[v.zName]? = some (.chars cn)) (hold : Holds cn v.name) :
    ∃ m', m.storeNew v.addr sizeofFsFile (v.record 0) = .ok m' ∧
      Rep list m'.heap l (v.blocks ++ []) ∧
      m'.heap[v.addr]? = some (.record (v.record 0)) ∧ Attached m'.heap v := by
  have hn := hr.nodup
  simp only [footprint, List.nodup_cons, List.nodup_append, List.mem_cons] at hn
  refine ⟨⟨m.heap.insert v.addr (.record (v.record 0)), m.answers⟩,
    Memory.storeNew_eq hcell hsize, ?_, get_insert_self _ _ _, ?_, cn, ?_, hold⟩
  · refine (hr.write_spare (by simp) _).perm_spare ?_
    rw [List.perm_iff_count]
    intro a
    simp only [FileView.blocks, List.append_nil, List.count_cons, List.count_nil]
    omega
  · exact (get_insert_ne _ _ (by grind)).trans hbuf
  · exact (get_insert_ne _ _ (by grind)).trans hnm

/-- An allocation is refused with every block given back, or puts a new file, in blocks that
were not live, at the head of the list. -/
theorem fsFileAlloc_spec {list : Addr} {m : FsMem} {l : List FileView}
    (hr : Rep list m.heap l []) (z : CStr) :
    (∃ m', fsFileAlloc list m (some z) = .ok (0, m') ∧ m'.heap = m.heap) ∨
    ∃ v m', fsFileAlloc list m (some z) = .ok (v.addr, m') ∧ v.addr ≠ 0 ∧ v.addr ∉ m.heap ∧
      v.IsNew z ∧ Rep list m'.heap (v :: l) [] := by
  rw [fsFileAlloc]
  rcases m.xMalloc_cases (Mem.cMemRoundup (Int32.ofNat sizeofFsFile)) with
    ⟨m₁, e₁, h₁⟩ | ⟨file, cf, m₁, e₁, f0, hf, hsz, h₁⟩
  · exact .inl ⟨m₁, by simp only [fsMalloc, e₁, ↓reduceIte], h₁⟩
  have hfree : m₁.heap.erase file = m.heap := by rw [h₁, erase_insert _ hf]
  have hlive : file ∈ m₁.heap := by simp [h₁]
  have hr₁ : Rep list m₁.heap l [file] := h₁ ▸ hr.alloc f0 hf _
  simp only [fsMalloc, e₁, if_neg f0]
  rcases m₁.xMalloc_cases (Mem.cMemRoundup initialBufDataSize) with
    ⟨m₂, e₂, h₂⟩ | ⟨buf, cb, m₂, e₂, b0, hb, bsz, h₂⟩
  · left
    have hx : m₂.xFree file = .ok ⟨m₂.heap.erase file, m₂.answers⟩ :=
      Memory.xFree_eq f0 (by rw [h₂]; exact hlive)
    exact ⟨_, by simp only [e₂, ↓reduceIte, fsFree, hx, ok_bind]; rfl, by rw [h₂, hfree]⟩
  have hr₂ : Rep list m₂.heap l [buf, file] := h₂ ▸ hr₁.alloc b0 hb _
  have hbf : buf ≠ file := fun he ↦ hb (he ▸ hlive)
  simp only [e₂, if_neg b0]
  rcases fsCopystring_spec m₂ z with ⟨m₃, e₃, h₃⟩ | ⟨nm, cn, m₃, e₃, n0, hn, hold, h₃⟩
  · left
    rw [h₁] at hb h₂
    obtain ⟨m₄, m₅, hx, hy, hh⟩ := xFree_fresh f0 b0 hf hb (h₃.trans h₂)
    exact ⟨m₅, by simp only [e₃, ok_bind, ↓reduceIte, fsFree, hx, hy], hh⟩
  right
  have hr₃ : Rep list m₃.heap l [nm, buf, file] := h₃ ▸ hr₂.alloc n0 hn _
  let v : FileView := ⟨file, nm, buf, z.take maxPathname, cb, 0, 0, 0⟩
  have hnf : nm ≠ file := fun he ↦ hn (by rw [he, h₂]; simp [hlive])
  have hnb : nm ≠ buf := fun he ↦ hn (by rw [he, h₂]; simp)
  have hcell : m₃.heap[v.addr]? = some (.chars cf) := by
    rw [h₃, get_insert_ne _ _ hnf, h₂, get_insert_ne _ _ hbf, h₁, get_insert_self]
  have hbuf : m₃.heap[v.buf]? = some (.chars cb) := by
    rw [h₃, get_insert_ne _ _ hnb, h₂, get_insert_self]
  have hnm : m₃.heap[v.zName]? = some (.chars cn) := by rw [h₃, get_insert_self]
  have hsize : sizeofFsFile ≤ cf.size := by
    have h48 : (Mem.cMemRoundup (Int32.ofNat sizeofFsFile)).toInt = (sizeofFsFile : Nat) := by
      decide
    omega
  have hname : v.name.length ≤ maxPathname := by
    change (z.take maxPathname).length ≤ _
    rw [CStr.length_take]
    exact Nat.min_le_left _ _
  obtain ⟨m₄, e₄, hr₄, hv₄, hatt⟩ := storeNew_spec (v := v) hr₃ hcell hsize hbuf hnm hold
  obtain ⟨m₅, e₅, hr₅⟩ := fsFileLink_spec hr₄ hv₄ hatt hname
  refine ⟨v, m₅, ?_, f0, hf, ⟨rfl, bsz, rfl, rfl, rfl⟩, hr₅⟩
  simp only [e₃, ok_bind, if_neg n0]
  change (m₃.storeNew file sizeofFsFile (v.record 0) >>= _) = _
  rw [e₄, ok_bind]
  change (fsFileLink list m₄ v.addr >>= _) = _
  rw [e₅, ok_bind]

/-- The struct of a file and its first buffer are granted, one after the other. -/
def RoomForFile (m : FsMem) : Prop :=
  (fsMalloc m (Int32.ofNat sizeofFsFile)).1 ≠ 0 ∧
    (fsMalloc (fsMalloc m (Int32.ofNat sizeofFsFile)).2 initialBufDataSize).1 ≠ 0

/-- Allocating a file for the null pointer fails with every block given back when the struct or
the buffer is refused, and otherwise dereferences it. -/
theorem fsFileAlloc_null (list : Addr) (m : FsMem) :
    (¬ RoomForFile m ∧ ∃ m', fsFileAlloc list m none = .ok (0, m') ∧ m'.heap = m.heap) ∨
    (RoomForFile m ∧ fsFileAlloc list m none = .error .wildAccess) := by
  rw [fsFileAlloc, RoomForFile]
  rcases m.xMalloc_cases (Mem.cMemRoundup (Int32.ofNat sizeofFsFile)) with
    ⟨m₁, e₁, h₁⟩ | ⟨file, cf, m₁, e₁, f0, hf, _, h₁⟩
  · simp only [fsMalloc, e₁]
    exact .inl ⟨fun h ↦ h.1 rfl, m₁, by simp only [↓reduceIte], h₁⟩
  simp only [fsMalloc, e₁, if_neg f0]
  rcases m₁.xMalloc_cases (Mem.cMemRoundup initialBufDataSize) with
    ⟨m₂, e₂, h₂⟩ | ⟨buf, cb, m₂, e₂, b0, _, _, _⟩
  · left
    have hx : m₂.xFree file = .ok ⟨m₂.heap.erase file, m₂.answers⟩ :=
      Memory.xFree_eq f0 (by rw [h₂, h₁]; simp)
    simp only [e₂]
    refine ⟨fun h ↦ h.2 rfl, ⟨m₂.heap.erase file, m₂.answers⟩, ?_, ?_⟩
    · simp only [↓reduceIte, fsFree, hx, ok_bind]
    · rw [h₂, h₁, erase_insert _ hf]
  · right
    simp only [e₂, if_neg b0]
    exact ⟨⟨f0, b0⟩, rfl⟩

end SqliteComposite.Inmemfs
