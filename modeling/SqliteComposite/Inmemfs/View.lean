import SqliteComposite.Base.Chain
import SqliteComposite.Inmemfs.Functions

/-!
# The files in memory

A file is described without its next pointer: where its three blocks are, its name, its
buffer and its counters. A heap represents a list of files when the sentinel leads through
exactly those files, each with its buffer and its name, and when the live blocks are the
sentinel, the blocks of these files and the spare blocks of a call in progress.
-/

namespace SqliteComposite.Inmemfs

open Base

/-- A file: its blocks, and what they hold. -/
structure FileView where
  addr : Addr
  zName : Addr
  buf : Addr
  name : CStr
  data : Chars
  len : Int64
  ref : Int32
  deleteOnClose : Int32

namespace FileView

/-- The struct of the file once its next pointer is known. -/
def record (v : FileView) (next : Addr) : FsFile where
  next := next
  zName := v.zName
  buf := v.buf
  len := v.len
  ref := v.ref
  deleteOnClose := v.deleteOnClose

@[simp] theorem record_next (v : FileView) (nx : Addr) : (v.record nx).next = nx := rfl
@[simp] theorem record_zName (v : FileView) (nx : Addr) : (v.record nx).zName = v.zName := rfl
@[simp] theorem record_buf (v : FileView) (nx : Addr) : (v.record nx).buf = v.buf := rfl
@[simp] theorem record_len (v : FileView) (nx : Addr) : (v.record nx).len = v.len := rfl
@[simp] theorem record_ref (v : FileView) (nx : Addr) : (v.record nx).ref = v.ref := rfl
@[simp] theorem record_deleteOnClose (v : FileView) (nx : Addr) :
    (v.record nx).deleteOnClose = v.deleteOnClose := rfl

/-- The file with other counters. -/
def counted (v : FileView) (len : Int64) (ref deleteOnClose : Int32) : FileView :=
  { v with len := len, ref := ref, deleteOnClose := deleteOnClose }

/-- The file with another buffer. -/
def buffered (v : FileView) (buf : Addr) (data : Chars) : FileView :=
  { v with buf := buf, data := data }

/-- The blocks of the file. -/
def blocks (v : FileView) : List Addr := [v.addr, v.buf, v.zName]

end FileView

/-- The blocks of a filesystem. -/
def footprint (list : Addr) (l : List FileView) (spare : List Addr) : List Addr :=
  list :: (l.flatMap FileView.blocks ++ spare)

/-- The chain of the files from a pointer to a pointer. -/
abbrev Files (h : Heap FsFile) : Addr → List FileView → Addr → Prop :=
  Chain FileView.addr FileView.record h

/-- The buffer and the name of a file are in their blocks. -/
def Attached (h : Heap FsFile) (v : FileView) : Prop :=
  h[v.buf]? = some (.chars v.data) ∧ ∃ c, h[v.zName]? = some (.chars c) ∧ Holds c v.name

/-- The heap holds exactly the files of `l`, in list order, and the spare blocks. -/
structure Rep (list : Addr) (h : Heap FsFile) (l : List FileView) (spare : List Addr) :
    Prop where
  sentinel : ∃ r, h[list]? = some (.record r) ∧ Files h r.next l 0
  attached : ∀ v ∈ l, Attached h v
  owns : Owns h (footprint list l spare)
  zero : 0 ∉ h
  names : ∀ v ∈ l, v.name.length ≤ maxPathname

/-- A struct and an array are never the same block. -/
theorem record_ne_chars {h : Heap FsFile} {a b : Addr} {r : FsFile} {c : Chars}
    (ha : h[a]? = some (.record r)) (hb : h[b]? = some (.chars c)) : a ≠ b := by
  rintro rfl
  rw [ha] at hb
  cases hb

/-- Whatever is attached stays attached when its two blocks are unchanged. -/
theorem Attached.frame {h h' : Heap FsFile} {v : FileView} (ha : Attached h v)
    (hb : h'[v.buf]? = h[v.buf]?) (hz : h'[v.zName]? = h[v.zName]?) : Attached h' v := by
  obtain ⟨hd, c, hc, hn⟩ := ha
  exact ⟨hb.trans hd, c, hz.trans hc, hn⟩

/-- Writing a struct changes nothing attached to a file. -/
theorem Attached.insert_record {h : Heap FsFile} {v : FileView} {a : Addr} {r r' : FsFile}
    (ha : Attached h v) (hr : h[a]? = some (.record r)) :
    Attached (h.insert a (.record r')) v := by
  obtain ⟨hd, c, hc, _⟩ := id ha
  exact ha.frame (get_insert_ne _ _ (record_ne_chars hr hd))
    (get_insert_ne _ _ (record_ne_chars hr hc))

namespace Rep

variable {list : Addr} {h : Heap FsFile} {l l₁ l₂ : List FileView} {v : FileView}
  {spare : List Addr}

/-- No block is used twice. -/
theorem nodup (hr : Rep list h l spare) : (footprint list l spare).Nodup := hr.owns.nodup

/-- The chain of the files, split at one of them. -/
theorem split (hr : Rep list h (l₁ ++ v :: l₂) spare) :
    ∃ r nx, h[list]? = some (.record r) ∧ Files h r.next l₁ v.addr ∧ v.addr ≠ 0 ∧
      h[v.addr]? = some (.record (v.record nx)) ∧ Files h nx l₂ 0 := by
  obtain ⟨r, hl, hc⟩ := hr.sentinel
  obtain ⟨m, h₁, hm, h0, nx, hv, h₂⟩ := Chain.append_iff.mp hc
  subst hm
  exact ⟨r, nx, hl, h₁, h0, hv, h₂⟩

/-- A file's struct is apart from the sentinel and from the structs of the other files. -/
theorem addr_ne (hr : Rep list h (l₁ ++ v :: l₂) spare) :
    list ≠ v.addr ∧ (∀ u ∈ l₁, u.addr ≠ v.addr) ∧ ∀ u ∈ l₂, u.addr ≠ v.addr := by
  have hn := hr.nodup
  simp only [footprint, List.flatMap_append, List.flatMap_cons, List.nodup_cons,
    List.mem_append, List.nodup_append, FileView.blocks, List.mem_flatMap,
    List.mem_cons] at hn
  grind

/-- The first file of a list is one of its files. -/
theorem atHead (hr : Rep list h (v :: l) spare) : Rep list h ([] ++ v :: l) spare := hr

/-- A file's struct is not at the null pointer. -/
theorem addr_ne_zero (hr : Rep list h (l₁ ++ v :: l₂) spare) : v.addr ≠ 0 := by
  obtain ⟨_, _, _, _, h0, _⟩ := hr.split
  exact h0

/-- The addresses of the files are distinct. -/
theorem nodup_addr (hr : Rep list h l spare) : (l.map FileView.addr).Nodup := by
  have hn := hr.nodup
  have hs : (l.map FileView.addr).Sublist (footprint list l spare) := by
    refine .cons _ (.trans ?_ (List.sublist_append_left _ _))
    clear hn hr
    induction l with
    | nil => simp
    | cons v l ih => exact .cons_cons _ (.cons _ (.cons _ ih))
  exact hn.sublist hs

/-- A list of files is never longer than the heap. -/
theorem length_lt (hr : Rep list h l spare) : l.length < h.size + 1 := by
  have hl := length_le_size hr.nodup_addr fun a ha ↦ by
    obtain ⟨v, hv, rfl⟩ := List.mem_map.mp ha
    obtain ⟨r, _, hc⟩ := hr.sentinel
    obtain ⟨_, _, hn⟩ := hc.node hv
    exact mem_of_get hn
  rw [List.length_map] at hl
  omega

end Rep

/-- The files left when one is removed were there before. -/
theorem mem_of_removed {l₁ l₂ : List FileView} {u v : FileView} (hu : u ∈ l₁ ++ l₂) :
    u ∈ l₁ ++ v :: l₂ :=
  ((List.sublist_cons_self v l₂).append_left l₁).mem hu

/-- What holds of the other files and of the one put in a file's place holds of every file. -/
theorem forall_replaced {P : FileView → Prop} {l₁ l₂ : List FileView} {u : FileView}
    (hp : ∀ w ∈ l₁ ++ l₂, P w) (hu : P u) : ∀ w ∈ l₁ ++ u :: l₂, P w := by
  intro w hw
  simp only [List.mem_append, List.mem_cons] at hw hp
  rcases hw with hw | rfl | hw
  · exact hp w (.inl hw)
  · exact hu
  · exact hp w (.inr hw)

/-- The blocks of a file can be listed first. -/
theorem footprint_perm (list : Addr) (l₁ l₂ : List FileView) (v : FileView)
    (spare : List Addr) :
    (footprint list (l₁ ++ v :: l₂) spare).Perm
      (v.blocks ++ footprint list (l₁ ++ l₂) spare) := by
  rw [List.perm_iff_count]
  intro a
  simp only [footprint, List.flatMap_append, List.flatMap_cons, List.count_append,
    List.count_cons]
  omega

/-- The spare blocks can be listed first. -/
theorem footprint_spare (list : Addr) (l : List FileView) (a : Addr) (spare : List Addr) :
    (footprint list l (a :: spare)).Perm (a :: footprint list l spare) := by
  rw [List.perm_iff_count]
  intro b
  simp only [footprint, List.count_append, List.count_cons]
  omega

/-- The struct of a file that has left the list is no longer live. -/
theorem Rep.gone {list : Addr} {h h' : Heap FsFile} {l₁ l₂ : List FileView}
    {v : FileView} (hr : Rep list h (l₁ ++ v :: l₂) []) (hr' : Rep list h' (l₁ ++ l₂) []) :
    v.addr ∉ h' := by
  have hn := (footprint_perm list l₁ l₂ v []).nodup_iff.mp hr.nodup
  rw [← hr'.owns.mem_iff]
  intro hm
  exact (List.nodup_append.mp hn).2.2 v.addr (by simp [FileView.blocks]) v.addr hm rfl

/-- A heap that agrees on the blocks of the files represents them too. -/
theorem Rep.frame {list : Addr} {h h' : Heap FsFile} {l : List FileView}
    {spare spare' : List Addr} (hr : Rep list h l spare)
    (hk : ∀ b ∈ footprint list l [], h'[b]? = h[b]?)
    (ho : Owns h' (footprint list l spare')) (hz : 0 ∉ h') : Rep list h' l spare' := by
  have hb : ∀ v ∈ l, ∀ b ∈ v.blocks, h'[b]? = h[b]? := fun v hv b hbv ↦
    hk b (List.mem_cons_of_mem _ (List.mem_append_left _ (List.mem_flatMap.mpr ⟨v, hv, hbv⟩)))
  obtain ⟨r, hl, hc⟩ := hr.sentinel
  refine ⟨⟨r, ?_, ?_⟩, ?_, ho, hz, hr.names⟩
  · rw [hk list List.mem_cons_self, hl]
  · exact hc.frame fun v hv ↦ hb v hv _ (by simp [FileView.blocks])
  · exact fun v hv ↦ (hr.attached v hv).frame (hb v hv _ (by simp [FileView.blocks]))
      (hb v hv _ (by simp [FileView.blocks]))

/-! ### The files are determined by the heap -/

private theorem files_unique {h : Heap FsFile} {l : List FileView} :
    ∀ {p : Addr} {l' : List FileView}, Files h p l 0 → Files h p l' 0 →
      (∀ v ∈ l, Attached h v) → (∀ v ∈ l', Attached h v) → l = l' := by
  induction l with
  | nil =>
    intro p l' hc hc' _ _
    replace hc : p = 0 := hc
    cases l' with
    | nil => rfl
    | cons u l' => exact absurd hc hc'.2.1
  | cons v l ih =>
    intro p l' hc hc' ha ha'
    obtain ⟨hp, h0, nx, hv, hrest⟩ := hc
    cases l' with
    | nil => exact absurd hc' h0
    | cons u l' =>
      obtain ⟨hp', _, nx', hu, hrest'⟩ := hc'
      have hrec : v.record nx = u.record nx' := by
        rw [hv] at hu
        injection hu with hu
        injection hu
      obtain ⟨hd, c, hz, hh⟩ := ha v List.mem_cons_self
      obtain ⟨hd', c', hz', hh'⟩ := ha' u List.mem_cons_self
      have hnx : nx = nx' := congrArg FsFile.next hrec
      have hbuf : v.buf = u.buf := congrArg FsFile.buf hrec
      have hzn : v.zName = u.zName := congrArg FsFile.zName hrec
      have hdata : v.data = u.data := by
        rw [hbuf, hd'] at hd
        injection hd with hd
        injection hd with hd
        exact hd.symm
      have hname : v.name = u.name := by
        rw [hzn, hz'] at hz
        injection hz with hz
        injection hz with hz
        exact hh.unique (hz ▸ hh')
      have hvu : v = u := by
        cases v
        cases u
        simp only [FileView.record, FsFile.mk.injEq] at *
        grind
      subst hnx hvu
      rw [ih hrest hrest' (fun w hw ↦ ha w (List.mem_cons_of_mem _ hw))
        fun w hw ↦ ha' w (List.mem_cons_of_mem _ hw)]

/-- A heap holds at most one list of files. -/
theorem Rep.unique {list : Addr} {h : Heap FsFile} {l l' : List FileView}
    {spare spare' : List Addr} (hr : Rep list h l spare) (hr' : Rep list h l' spare') :
    l = l' := by
  obtain ⟨r, hl, hc⟩ := hr.sentinel
  obtain ⟨r', hl', hc'⟩ := hr'.sentinel
  obtain rfl : r = r' := by
    rw [hl] at hl'
    injection hl' with hl'
    injection hl'
  exact files_unique hc hc' hr.attached hr'.attached

/-- A struct that is not the sentinel is a listed file. -/
theorem load_cases {list : Addr} {m : FsMem} {l : List FileView} (hr : Rep list m.heap l [])
    {a : Addr} (ha : a ≠ list) :
    (∃ l₁ v l₂, l = l₁ ++ v :: l₂ ∧ v.addr = a) ∨ m.load a = .error .wildAccess := by
  unfold Memory.load
  split
  · next r hget =>
    left
    have hm := (hr.owns.mem_iff a).mpr (mem_of_get hget)
    simp only [footprint, List.append_nil, List.mem_cons, List.mem_flatMap] at hm
    obtain ⟨v, hv, hb⟩ := hm.resolve_left ha
    obtain ⟨hd, c, hz, _⟩ := hr.attached v hv
    obtain ⟨l₁, l₂, rfl⟩ := List.append_of_mem hv
    refine ⟨l₁, v, l₂, rfl, ?_⟩
    simp only [FileView.blocks, List.mem_cons, List.not_mem_nil, or_false] at hb
    rcases hb with rfl | rfl | rfl
    · rfl
    · exact absurd rfl (record_ne_chars hget hd)
    · exact absurd rfl (record_ne_chars hget hz)
  · exact .inr rfl

/-! ### Changing spare blocks -/

namespace Rep

variable {list : Addr} {h : Heap FsFile} {l l₁ l₂ : List FileView} {v : FileView}
  {spare : List Addr}

/-- Every block a file or the sentinel uses is live. -/
theorem footprint_live (hr : Rep list h l spare) {b : Addr} (hb : b ∈ footprint list l []) :
    b ∈ h := by
  rw [← hr.owns.mem_iff]
  simp only [footprint, List.append_nil, List.mem_cons, List.mem_append] at hb ⊢
  tauto

/-- A fresh block becomes a spare one. -/
theorem alloc (hr : Rep list h l spare) {g : Addr} (hg0 : g ≠ 0) (hg : g ∉ h)
    (c : Cell FsFile) : Rep list (h.insert g c) l (g :: spare) := by
  refine hr.frame (fun b hb ↦ get_insert_ne _ _ fun he ↦ hg (he ▸ hr.footprint_live hb)) ?_ ?_
  · exact (hr.owns.insert_new c hg).perm (footprint_spare list l g spare).symm
  · have hz := hr.zero
    simp [hz, hg0]

/-- Writing to a spare block changes no file. -/
theorem write_spare (hr : Rep list h l spare) {g : Addr} (hg : g ∈ spare) (c : Cell FsFile) :
    Rep list (h.insert g c) l spare := by
  have hn := hr.nodup
  have hm : g ∈ h := (hr.owns.mem_iff g).mp (by simp [footprint, hg])
  refine hr.frame (fun b hb ↦ get_insert_ne _ _ ?_) (hr.owns.insert_live c hm) ?_
  · rintro rfl
    simp only [footprint, List.append_nil, List.mem_cons, List.nodup_cons, List.nodup_append,
      List.mem_append] at hb hn
    grind
  · have hg0 : g ≠ 0 := fun he ↦ hr.zero (he ▸ hm)
    have hz := hr.zero
    simp [hz, hg0]

/-- The order of the spare blocks does not matter. -/
theorem perm_spare (hr : Rep list h l spare) {spare' : List Addr} (hp : spare.Perm spare') :
    Rep list h l spare' :=
  { hr with owns := hr.owns.perm ((hp.append_left _).cons _) }

end Rep

/-! ### Changing one file -/

namespace Rep

variable {list : Addr} {h : Heap FsFile} {l l₁ l₂ : List FileView} {v : FileView}
  {spare : List Addr}

/-- The blocks that are not those of a file are live, and elsewhere. -/
theorem others (hr : Rep list h (l₁ ++ v :: l₂) spare) {b : Addr}
    (hb : b ∈ footprint list (l₁ ++ l₂) spare) : b ∈ h ∧ ∀ a ∈ v.blocks, a ≠ b := by
  have hp := footprint_perm list l₁ l₂ v spare
  constructor
  · exact (hr.owns.mem_iff b).mp (hp.mem_iff.mpr (List.mem_append_right _ hb))
  · exact fun a ha ↦ (List.nodup_append.mp (hp.nodup_iff.mp hr.nodup)).2.2 a ha b hb

/-- A file can be put in another's place when all other blocks stay as they were. -/
theorem replace (hr : Rep list h (l₁ ++ v :: l₂) spare) {h' : Heap FsFile} {u : FileView}
    {nx : Addr} (ha : u.addr = v.addr) (hname : u.name = v.name)
    (hv : h[v.addr]? = some (.record (v.record nx)))
    (hu : h'[v.addr]? = some (.record (u.record nx))) (hatt : Attached h' u)
    (hk : ∀ b ∈ footprint list (l₁ ++ l₂) spare, h'[b]? = h[b]?)
    (ho : Owns h' (footprint list (l₁ ++ u :: l₂) spare)) (hz : 0 ∉ h') :
    Rep list h' (l₁ ++ u :: l₂) spare := by
  obtain ⟨r, nx', hl, h₁, h0, hv', h₂⟩ := hr.split
  obtain rfl : nx' = nx := by
    rw [hv] at hv'
    injection hv' with hv'
    injection hv' with hv'
    exact (congrArg FsFile.next hv').symm
  have hb : ∀ w ∈ l₁ ++ l₂, ∀ b ∈ w.blocks, h'[b]? = h[b]? := fun w hw b hbw ↦
    hk b (List.mem_cons_of_mem _ (List.mem_append_left _ (List.mem_flatMap.mpr ⟨w, hw, hbw⟩)))
  have hstays {w : FileView} (hw : w ∈ l₁ ++ l₂) : h'[w.addr]? = h[w.addr]? :=
    hb w hw _ (by simp [FileView.blocks])
  refine ⟨⟨r, (hk list List.mem_cons_self).trans hl, ?_⟩, ?_, ho, hz, ?_⟩
  · refine Chain.append_iff.mpr ⟨v.addr, ?_, ha.symm, h0, nx', hu, ?_⟩
    · exact h₁.frame fun w hw ↦ hstays (by simp [hw])
    · exact h₂.frame fun w hw ↦ hstays (by simp [hw])
  · refine forall_replaced (fun w hw ↦ ?_) hatt
    exact (hr.attached w (mem_of_removed hw)).frame (hb w hw _ (by simp [FileView.blocks]))
      (hb w hw _ (by simp [FileView.blocks]))
  · exact forall_replaced (fun w hw ↦ hr.names w (mem_of_removed hw))
      (hname ▸ hr.names v (by simp))

/-- A file's struct can be read, and assigning to its counters changes that file alone. -/
theorem focus (hr : Rep list h (l₁ ++ v :: l₂) spare) :
    ∃ nx, h[v.addr]? = some (.record (v.record nx)) ∧ ∀ len ref deleteOnClose,
      Rep list (h.insert v.addr (.record ((v.counted len ref deleteOnClose).record nx)))
        (l₁ ++ v.counted len ref deleteOnClose :: l₂) spare := by
  obtain ⟨r, nx, hl, h₁, h0, hv, h₂⟩ := hr.split
  refine ⟨nx, hv, fun len ref deleteOnClose ↦ ?_⟩
  refine hr.replace rfl rfl hv (get_insert_self _ _ _) ?_ ?_ ?_ ?_
  · exact (hr.attached v (by simp)).insert_record hv
  · intro b hb
    exact get_insert_ne _ _ ((hr.others hb).2 _ (by simp [FileView.blocks]))
  · have ho := hr.owns.insert_live
      (.record ((v.counted len ref deleteOnClose).record nx)) (mem_of_get hv)
    simpa [footprint, FileView.blocks, FileView.counted] using ho
  · have hz := hr.zero
    simp [hz, h0]

/-- A file's buffer can be replaced by an array at the same address or at a fresh one. -/
theorem rebuffer (hr : Rep list h (l₁ ++ v :: l₂) spare) {g : Addr} (hg0 : g ≠ 0)
    (hg : g = v.buf ∨ g ∉ h) (c : Chars) :
    ∃ nx, ((h.erase v.buf).insert g (.chars c))[v.addr]? = some (.record (v.record nx)) ∧
      Rep list (((h.erase v.buf).insert g (.chars c)).insert v.addr
        (.record ((v.buffered g c).record nx))) (l₁ ++ v.buffered g c :: l₂) spare := by
  obtain ⟨r, nx, hl, h₁, h0, hv, h₂⟩ := hr.split
  obtain ⟨hd, cz, hz, hname⟩ := hr.attached v (by simp)
  -- Every live block but the old buffer is still where it was.
  have hkeep {b : Addr} (hb : b ∈ h) (hne : b ≠ v.buf) :
      ((h.erase v.buf).insert g (.chars c))[b]? = h[b]? := by
    have hgb : g ≠ b := by
      rcases hg with rfl | hg
      · exact hne.symm
      · exact fun he ↦ hg (he ▸ hb)
    rw [get_insert_ne _ _ hgb, get_erase_ne _ hne.symm]
  have hva : v.addr ≠ v.buf := record_ne_chars hv hd
  have hvz : v.addr ≠ v.zName := record_ne_chars hv hz
  have hzb : v.zName ≠ v.buf := by
    have hn := (footprint_perm list l₁ l₂ v spare).nodup_iff.mp hr.nodup
    simp only [FileView.blocks, List.cons_append, List.nodup_cons, List.mem_cons] at hn
    grind
  have hga : v.addr ≠ g := by
    rintro rfl
    rcases hg with hg | hg
    · exact hva hg
    · exact hg (mem_of_get hv)
  refine ⟨nx, (hkeep (mem_of_get hv) hva).trans hv, ?_⟩
  refine hr.replace rfl rfl hv (get_insert_self _ _ _) ?_ ?_ ?_ ?_
  · refine ⟨?_, cz, ?_, hname⟩
    · exact (get_insert_ne _ _ hga).trans (get_insert_self _ _ _)
    · exact (get_insert_ne _ _ hvz).trans ((hkeep (mem_of_get hz) hzb).trans hz)
  · intro b hb
    obtain ⟨hlive, hne⟩ := hr.others hb
    rw [get_insert_ne _ _ (hne _ (by simp [FileView.blocks]))]
    exact hkeep hlive (hne _ (by simp [FileView.blocks])).symm
  · have hp := footprint_perm list l₁ l₂ v spare
    have hp' := footprint_perm list l₁ l₂ (v.buffered g c) spare
    have ho : Owns h (v.buf :: ([v.addr, v.zName] ++ footprint list (l₁ ++ l₂) spare)) :=
      hr.owns.perm (hp.trans (.swap _ _ _))
    have hfresh : g ∉ h.erase v.buf := by
      rcases hg with rfl | hg
      · simp
      · simp [hg]
    have ho' := ((ho.erase.insert_new (.chars c) hfresh).insert_live
      (.record ((v.buffered g c).record nx)) (a := v.addr) ?_)
    · exact ho'.perm ((List.Perm.swap _ _ _).trans hp'.symm)
    · exact mem_of_get ((hkeep (mem_of_get hv) hva).trans hv)
  · have hz := hr.zero
    simp [hz, h0, hg0]

/-- The bytes of a file's buffer can be replaced in place. -/
theorem overwrite (hr : Rep list h (l₁ ++ v :: l₂) spare) (c : Chars) :
    Rep list (h.insert v.buf (.chars c)) (l₁ ++ v.buffered v.buf c :: l₂) spare := by
  obtain ⟨hd, _⟩ := hr.attached v (by simp)
  have h0 : v.buf ≠ 0 := fun he ↦ hr.zero (he ▸ mem_of_get hd)
  obtain ⟨nx, hv, hr'⟩ := hr.rebuffer h0 (.inl rfl) c
  change Rep list (((h.erase v.buf).insert v.buf (.chars c)).insert v.addr
    (.record (v.record nx))) _ _ at hr'
  rw [insert_same hv, insert_erased] at hr'
  exact hr'

end Rep
end SqliteComposite.Inmemfs
