import SqliteComposite.Base.Run
import SqliteComposite.Inmemfs.Buffers

/-!
# The memory the filesystem owns

In every run of the filesystem's functions, whatever the allocator refuses, the live blocks
are the sentinel and the struct, buffer and name of each linked file. No block is released
or resized that is not live, and `fs_deinit` leaves none.
-/

namespace SqliteComposite.Inmemfs

open Base

/-! ### `fs_deinit` -/

private theorem deinitLoop_spec {bs : List Addr} {l : List FileView} :
    ∀ {m : FsMem} {p : Addr} {rounds : Nat}, Files m.heap p l 0 → (∀ v ∈ l, Attached m.heap v) →
      Owns m.heap (l.flatMap FileView.blocks ++ bs) → 0 ∉ m.heap → l.length < rounds →
      ∃ m', deinitLoop rounds m p = .ok m' ∧ Owns m'.heap bs ∧ 0 ∉ m'.heap := by
  induction l with
  | nil =>
    intro m p rounds hc _ ho h0 hr
    obtain ⟨k, rfl⟩ : ∃ k, rounds = k + 1 := ⟨rounds - 1, by simp at hr; omega⟩
    have hnil : p = 0 := hc
    exact ⟨m, by rw [deinitLoop, if_pos hnil], ho, h0⟩
  | cons v l ih =>
    intro m p rounds hc ha ho h0 hr
    obtain ⟨k, rfl⟩ : ∃ k, rounds = k + 1 := ⟨rounds - 1, by simp at hr; omega⟩
    obtain ⟨hp, hp0, nx, hv, hrest⟩ := hc
    rw [List.flatMap_cons, List.append_assoc] at ho
    obtain ⟨m₁, he, ho₁, h0₁, hk⟩ := fsFileFree_owns ho h0 (hp ▸ hv) (ha v List.mem_cons_self)
    have hkeep : ∀ u ∈ l, ∀ b ∈ u.blocks, m₁.heap[b]? = m.heap[b]? := fun u hu b hb ↦
      hk b (List.mem_append_left _ (List.mem_flatMap.mpr ⟨u, hu, hb⟩))
    have hrest₁ : Files m₁.heap nx l 0 :=
      hrest.frame fun u hu ↦ hkeep u hu _ (by simp [FileView.blocks])
    have ha₁ : ∀ u ∈ l, Attached m₁.heap u := fun u hu ↦
      (ha u (List.mem_cons_of_mem _ hu)).frame (hkeep u hu _ (by simp [FileView.blocks]))
        (hkeep u hu _ (by simp [FileView.blocks]))
    obtain ⟨m', he', hout⟩ := @ih m₁ nx k hrest₁ ha₁ ho₁ h0₁
      (by simp only [List.length_cons] at hr; omega)
    refine ⟨m', ?_, hout⟩
    rw [deinitLoop, if_neg hp0, Memory.load_eq hv, ok_bind, hp, he, ok_bind]
    exact he'

/-- `fs_deinit` releases every block. -/
theorem fsDeinit_spec {list : Addr} {m : FsMem} {l : List FileView}
    (hr : Rep list m.heap l []) :
    ∃ m', fsDeinit list m = .ok m' ∧ ∀ a, a ∉ m'.heap := by
  obtain ⟨r, hl, hc⟩ := hr.sentinel
  have ho : Owns m.heap (l.flatMap FileView.blocks ++ [list]) := by
    refine hr.owns.perm ?_
    rw [List.perm_iff_count]
    intro b
    simp only [footprint, List.append_nil, List.count_append, List.count_cons, List.count_nil]
    omega
  obtain ⟨m₁, he, ho₁, h0₁⟩ := deinitLoop_spec hc hr.attached ho hr.zero hr.length_lt
  have hmem : list ∈ m₁.heap := (ho₁.mem_iff list).mp (by simp)
  have hne : list ≠ 0 := fun h ↦ h0₁ (h ▸ hmem)
  refine ⟨⟨m₁.heap.erase list, m₁.answers⟩, ?_, fun a ha ↦ ?_⟩
  · rw [fsDeinit, Memory.load_eq hl, ok_bind, he, ok_bind]
    exact Memory.xFree_eq hne hmem
  · exact List.not_mem_nil ((ho₁.erase.mem_iff a).mpr ha)

/-! ### Runs of the functions -/

/-- The filesystem and the files its caller has open, each under a handle. -/
structure FsWorld where
  list : Addr
  mem : FsMem
  opened : List (Nat × Addr)

/-- The calls the caller makes. -/
inductive FsCall where
  | fsOpen (h : Nat) (zName : Option CStr)
  | fsClose (h : Nat)
  | fsRead (h : Nat) (offset : Int64) (len : Int32)
  | fsWrite (h : Nat) (offset : Int64) (len : Int32) (buf : Nat → UInt8)
  | fsTruncate (h : Nat) (size : Int64)
  | fsSizeHint (h : Nat) (size : Int64)
  | fsDelete (zName : Option CStr)

namespace FsWorld

/-- A call through handle `h`, made only when a file is open under it. -/
def through (w : FsWorld) (h : Nat) (f : Addr → Except Fault FsWorld) : Except Fault FsWorld :=
  match w.opened.lookup h with
  | none => .ok w
  | some file => f file

/-- One call with the allocator's answers to its requests. Opening under a handle in use is
not made. -/
def step (w : FsWorld) (q : FsCall × List (Option Grant)) : Except Fault FsWorld :=
  let m : FsMem := { w.mem with answers := q.2 }
  match q.1 with
  | .fsOpen h zName =>
    match w.opened.lookup h with
    | some _ => .ok w
    | none => do
      let (file, m) ← Inmemfs.fsOpen w.list m zName
      if file = 0 then .ok { w with mem := m }
      else .ok { w with mem := m, opened := (h, file) :: w.opened }
  | .fsClose h => w.through h fun file ↦ do
    let m ← Inmemfs.fsClose w.list m file
    .ok { w with mem := m, opened := w.opened.filter fun p ↦ p.1 ≠ h }
  | .fsRead h offset len => w.through h fun file ↦ do
    let _ ← Inmemfs.fsRead m file offset len
    .ok w
  | .fsWrite h offset len buf => w.through h fun file ↦ do
    let (_, m) ← Inmemfs.fsWrite m file offset len buf
    .ok { w with mem := m }
  | .fsTruncate h size => w.through h fun file ↦ do
    let (_, m) ← Inmemfs.fsTruncate m file size
    .ok { w with mem := m }
  | .fsSizeHint h size => w.through h fun file ↦ do
    let m ← Inmemfs.fsSizeHint m file size
    .ok { w with mem := m }
  | .fsDelete zName => do
    let (_, m) ← Inmemfs.fsDelete w.list m zName
    .ok { w with mem := m }

end FsWorld

/-- The filesystem from `fs_init` on: no block is live before it, and no file is open after. -/
def fsSystem : System FsWorld (FsCall × List (Option Grant)) where
  init w := w.opened = [] ∧ ∃ answers, fsInit ⟨∅, answers⟩ = .ok (w.list, w.mem)
  step w q w' := w.step q = .ok w'

/-! ### What every call preserves -/

/-- The heap holds exactly some list of files, and no handle is on the sentinel. -/
def Owned (w : FsWorld) : Prop :=
  (∃ l, Rep w.list w.mem.heap l []) ∧ ∀ p ∈ w.opened, p.2 ≠ w.list

/-- A call that returns leaves the memory owned, and one that does not has released nothing
badly. -/
def Owning : Except Fault FsWorld → Prop
  | .ok w => Owned w
  | .error e => e ≠ .badRelease

section

variable {w : FsWorld} {m : FsMem} {l : List FileView}

private theorem owned_mem (hw : Owned w) (hr : Rep w.list m.heap l []) :
    Owned { w with mem := m } := ⟨⟨l, hr⟩, hw.2⟩

private theorem owning_through {h : Nat} {f : Addr → Except Fault FsWorld} (hw : Owned w)
    (hf : ∀ file, file ≠ w.list → Owning (f file)) : Owning (w.through h f) := by
  unfold FsWorld.through
  split
  · exact hw
  · next file he =>
    obtain ⟨l₁, l₂, he, _⟩ := List.lookup_eq_some_iff.mp he
    exact hf file (hw.2 (h, file) (by simp [he]))

private theorem owning_wildAccess : Owning (.error .wildAccess) := by
  change Fault.wildAccess ≠ .badRelease
  decide

private theorem owning_outOfBounds : Owning (.error .outOfBounds) := by
  change Fault.outOfBounds ≠ .badRelease
  decide

private theorem owning_open (hw : Owned w) (hr : Rep w.list m.heap l []) (h : Nat)
    (zName : Option CStr) :
    Owning (do
      let (file, m) ← fsOpen w.list m zName
      if file = 0 then .ok { w with mem := m }
      else .ok { w with mem := m, opened := (h, file) :: w.opened }) := by
  cases zName with
  | none =>
    rcases fsOpen_null hr with ⟨_, m', he, hh⟩ | ⟨_, he⟩
    · rw [he, ok_bind]
      exact owned_mem hw (hh ▸ hr)
    · rw [he]
      exact owning_wildAccess
  | some z =>
    obtain ⟨a, m', l', he, hto, hr'⟩ := fsOpen_spec hr z
    rw [he, ok_bind]
    dsimp only
    split
    · exact owned_mem hw hr'
    · next h0 =>
      refine ⟨⟨l', hr'⟩, fun p hp ↦ ?_⟩
      rcases List.mem_cons.mp hp with rfl | hp
      · cases hto with
        | found _ _ => exact hr'.addr_ne.1.symm
        | created _ _ _ => exact hr'.atHead.addr_ne.1.symm
        | refused _ => exact absurd rfl h0
      · exact hw.2 p hp

private theorem owning_close (hw : Owned w) (hr : Rep w.list m.heap l []) {file : Addr}
    (hfile : file ≠ w.list) (h : Nat) :
    Owning (do
      let m ← fsClose w.list m file
      .ok { w with mem := m, opened := w.opened.filter fun p ↦ p.1 ≠ h }) := by
  rcases load_cases hr hfile with ⟨l₁, v, l₂, rfl, rfl⟩ | hl
  · obtain ⟨m', l', he, _, hr'⟩ := fsClose_spec hr
    rw [he, ok_bind]
    exact ⟨⟨l', hr'⟩, fun p hp ↦ hw.2 p (List.mem_filter.mp hp).1⟩
  · rw [fsClose, hl]
    exact owning_wildAccess

private theorem owning_read (hw : Owned w) (hr : Rep w.list m.heap l []) {file : Addr}
    (hfile : file ≠ w.list) (o : Int64) (n : Int32) :
    Owning (do
      let _ ← fsRead m file o n
      .ok w) := by
  rcases load_cases hr hfile with ⟨l₁, v, l₂, rfl, rfl⟩ | hl
  · rcases fsRead_total hr o n with ⟨x, he⟩ | he
    · rw [he]
      exact hw
    · rw [he]
      exact owning_outOfBounds
  · rw [fsRead]
    split
    · exact hw
    · rw [hl]
      exact owning_wildAccess

private theorem owning_write (hw : Owned w) (hr : Rep w.list m.heap l []) {file : Addr}
    (hfile : file ≠ w.list) (o : Int64) (n : Int32) (buf : Nat → UInt8) :
    Owning (do
      let (_, m) ← fsWrite m file o n buf
      .ok { w with mem := m }) := by
  rcases load_cases hr hfile with ⟨l₁, v, l₂, rfl, rfl⟩ | hl
  · rcases fsWrite_spec hr o n buf with ⟨_, m', u, he, _, hr'⟩ | he
    · rw [he]
      exact owned_mem hw hr'
    · rw [he]
      exact owning_outOfBounds
  · rw [fsWrite]
    split
    · exact owned_mem hw hr
    · simp only [fsDataEnsureCapacity, hl, error_bind]
      exact owning_wildAccess

private theorem owning_truncate (hw : Owned w) (hr : Rep w.list m.heap l []) {file : Addr}
    (hfile : file ≠ w.list) (size : Int64) :
    Owning (do
      let (_, m) ← fsTruncate m file size
      .ok { w with mem := m }) := by
  rcases load_cases hr hfile with ⟨l₁, v, l₂, rfl, rfl⟩ | hl
  · obtain ⟨m', he, hr'⟩ := fsTruncate_spec hr size
    rw [he]
    exact owned_mem hw hr'
  · rw [fsTruncate, hl]
    exact owning_wildAccess

private theorem owning_sizeHint (hw : Owned w) (hr : Rep w.list m.heap l []) {file : Addr}
    (hfile : file ≠ w.list) (size : Int64) :
    Owning (do
      let m ← fsSizeHint m file size
      .ok { w with mem := m }) := by
  rcases load_cases hr hfile with ⟨l₁, v, l₂, rfl, rfl⟩ | hl
  · obtain ⟨_, m', u, he, _, hr'⟩ := fsSizeHint_spec hr size
    rw [he]
    exact owned_mem hw hr'
  · rw [fsSizeHint, fsDataEnsureCapacity, hl]
    exact owning_wildAccess

private theorem owning_delete (hw : Owned w) (hr : Rep w.list m.heap l [])
    (zName : Option CStr) :
    Owning (do
      let (_, m) ← fsDelete w.list m zName
      .ok { w with mem := m }) := by
  cases zName with
  | none =>
    rcases fsDelete_null hr with he | he
    · rw [he]
      exact owned_mem hw hr
    · rw [he]
      exact owning_wildAccess
  | some z =>
    obtain ⟨m', l', he, _, hr'⟩ := fsDelete_spec hr z
    rw [he]
    exact owned_mem hw hr'

/-- Whatever one call does, the filesystem goes on owning its memory. -/
theorem owning_step (hw : Owned w) (q : FsCall × List (Option Grant)) : Owning (w.step q) := by
  obtain ⟨l, hr⟩ := id hw.1
  have hr' : Rep w.list (⟨w.mem.heap, q.2⟩ : FsMem).heap l [] := hr
  obtain ⟨c, answers⟩ := q
  cases c with
  | fsOpen h zName =>
    simp only [FsWorld.step]
    split
    · exact hw
    · exact owning_open hw hr' h zName
  | fsClose h => exact owning_through hw fun file hf ↦ owning_close hw hr' hf h
  | fsRead h o n => exact owning_through hw fun file hf ↦ owning_read hw hr' hf o n
  | fsWrite h o n buf => exact owning_through hw fun file hf ↦ owning_write hw hr' hf o n buf
  | fsTruncate h size => exact owning_through hw fun file hf ↦ owning_truncate hw hr' hf size
  | fsSizeHint h size => exact owning_through hw fun file hf ↦ owning_sizeHint hw hr' hf size
  | fsDelete zName => exact owning_delete hw hr' zName

/-- The memory is owned in every state of every run. -/
theorem reach_owned {ok : FsWorld → FsCall × List (Option Grant) → Prop}
    (hr : fsSystem.Reach ok w) : Owned w := by
  refine hr.invariant ?_ ?_
  · rintro w ⟨ho, answers, he⟩
    exact ⟨⟨[], fsInit_spec he⟩, by simp [ho]⟩
  · intro w q w' hw _ he
    have h := owning_step hw q
    rw [he] at h
    exact h

/-- From the sentinel a chain leads through some files; the sentinel and the struct, buffer
and name of each are distinct, and they are the live blocks. -/
def LedgerExact (w : FsWorld) : Prop :=
  ∃ l : List FileView,
    (∃ r, w.mem.heap[w.list]? = some (.record r) ∧ Files w.mem.heap r.next l 0) ∧
    (∀ v ∈ l, Attached w.mem.heap v) ∧
    (w.list :: l.flatMap FileView.blocks).Nodup ∧
    ∀ a, a ∈ w.mem.heap ↔ a ∈ w.list :: l.flatMap FileView.blocks

/-- In every state of every run the ledger is exact, the next call releases and resizes live
blocks only, and `fs_deinit` leaves no block. -/
theorem owns_exactly (hr : fsSystem.Reach (fun _ _ ↦ True) w) :
    LedgerExact w ∧ (∀ q, w.step q ≠ .error .badRelease) ∧
      ∃ m', fsDeinit w.list w.mem = .ok m' ∧ ∀ a, a ∉ m'.heap := by
  have hw := reach_owned hr
  obtain ⟨l, hrep⟩ := id hw.1
  refine ⟨⟨l, hrep.sentinel, hrep.attached, ?_, fun a ↦ ?_⟩, fun q he ↦ ?_, fsDeinit_spec hrep⟩
  · simpa [footprint] using hrep.nodup
  · simpa [footprint] using (hrep.owns.mem_iff a).symm
  · have h := owning_step hw q
    rw [he] at h
    exact h rfl

end

/-- The result after the file `a` is opened. -/
theorem owns_exactly_opened : ∃ w : FsWorld, w.opened.length = 1 ∧ LedgerExact w ∧
    (∀ q, w.step q ≠ .error .badRelease) ∧
      ∃ m', fsDeinit w.list w.mem = .ok m' ∧ ∀ a, a ∉ m'.heap := by
  let q : FsCall × List (Option Grant) := (.fsOpen 0 (some (.replicate 1 97 (by decide))),
    [some ⟨200, fun _ ↦ 0⟩, some ⟨300, fun _ ↦ 0⟩, some ⟨400, fun _ ↦ 0⟩])
  have hrun : passes (fsInit ⟨∅, [some ⟨100, fun _ ↦ 0⟩]⟩) (fun y ↦
      passes ((⟨y.1, y.2, []⟩ : FsWorld).step q) fun w ↦ w.opened.length = 1) = true := by
    decide +kernel
  obtain ⟨⟨list, mem⟩, hi, hrun⟩ := passes_iff.mp hrun
  obtain ⟨w, hs, hp⟩ := passes_iff.mp hrun
  have hstart : fsSystem.Reach (fun _ _ ↦ True) ⟨list, mem, []⟩ := .start ⟨rfl, _, hi⟩
  exact ⟨w, of_decide_eq_true hp, owns_exactly (.next hstart trivial hs)⟩

end SqliteComposite.Inmemfs
