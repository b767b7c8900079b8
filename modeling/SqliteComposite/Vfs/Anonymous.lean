import SqliteComposite.Vfs.Files

/-!
# Files without a name

SQLite opens a temporary file by passing the null pointer for its name. `cOpen` searches the
list of files for that name and copies it, and both dereference it: it returns only when there
is no file to compare it with and no memory for a new one.
-/

namespace SqliteComposite.Vfs

open Base Inmemfs

/-- The request does not close the handle. -/
def KeepsOpen (h : Nat) (_ : World) (q : Request) : Prop := q.call ≠ .xClose h

/-- As long as the handle is open, whatever else is done, no other handle is on its file and no
name finds it, and closing the handle removes the file and frees it. -/
def StaysPrivate (w : World) (h : Nat) (file : CFile) : Prop :=
  ∀ w₁, (system.startingAt w).Reach (KeepsOpen h) w₁ →
    (∀ k file', k ≠ h → w₁.handle? k = some file' → file'.fd ≠ file.fd) ∧
    (∀ z, ¬ Found w₁ z file.fd) ∧
    ∀ answers, ∃ w₂, w₁.step ⟨.xClose h, answers⟩ = .ok (.status .ok, w₂) ∧
      ¬ Linked w₂ file.fd ∧ file.fd ∉ w₂.mem.heap

/-- An open without a name returns, and with memory for a file the handle is on a new one that
is empty and stays its own. -/
def OpensAnonymous (w : World) (h : Nat) (flags : Int32) (answers : List (Option Grant)) : Prop :=
  ∃ r w', w.step ⟨.xOpen h none flags, answers⟩ = .ok (r, w') ∧
    (RoomForFile (w.begin answers) → r = .status .ok ∧ ∃ file, w'.handle? h = some file ∧
      ¬ Linked w file.fd ∧ HasSize w' file 0 ∧ StaysPrivate w' h file)

section

variable {w : World} {l : List FileView} {h : Nat} {flags : Int32}
  {answers : List (Option Grant)} {ok : World → Request → Prop}

/-- No file is linked when none is listed. -/
theorem linked_none_iff (hs : Sound w l) : (¬ ∃ a, Linked w a) ↔ l = [] := by
  constructor
  · intro hno
    cases l with
    | nil => rfl
    | cons v l => exact absurd ⟨v.addr, (linked_iff_mem hs.rep).mpr (by simp)⟩ hno
  · rintro rfl ⟨a, ha⟩
    cases (linked_iff_mem hs.rep).mp ha

/-- An open without a name fails when no file is listed and there is no memory for one, and
otherwise dereferences the null pointer. -/
theorem xOpen_null (hs : Sound w l) (hfree : w.handle? h = none) :
    ((l = [] ∧ ¬ RoomForFile (w.begin answers)) ∧
      ∃ w', w.step ⟨.xOpen h none flags, answers⟩ = .ok (.status .ioerr, w')) ∨
    (¬ (l = [] ∧ ¬ RoomForFile (w.begin answers)) ∧
      w.step ⟨.xOpen h none flags, answers⟩ = .error .wildAccess) := by
  have hr : Rep w.list (w.begin answers).heap l [] := hs.rep
  simp only [World.step, hfree]
  rcases cOpen_null hr ⟨false, none, 0⟩ flags with ⟨hwhen, file, out, m', ho, _⟩ | ⟨hwhen, ho⟩
  · exact .inl ⟨hwhen, { w with mem := m' }, by rw [ho]; rfl⟩
  · exact .inr ⟨hwhen, by rw [ho]; rfl⟩

/-- An open without a name works exactly when no file is linked and there is no memory for one,
so that it has nothing to do. -/
theorem opensAnonymous_iff (hr : system.Reach ok w) (hfree : w.handle? h = none) :
    OpensAnonymous w h flags answers ↔
      (¬ ∃ a, Linked w a) ∧ ¬ RoomForFile (w.begin answers) := by
  obtain ⟨l, hs⟩ := reach_sound hr
  rw [linked_none_iff hs]
  rcases xOpen_null hs hfree with ⟨hwhen, w', he⟩ | ⟨hwhen, he⟩
  · exact iff_of_true ⟨_, w', he, fun hroom ↦ absurd hroom hwhen.2⟩ hwhen
  · refine iff_of_false ?_ hwhen
    rintro ⟨r, w', hok, _⟩
    rw [he] at hok
    cases hok

end

/-- The flags of a temporary file. -/
def temporary : Int32 := sqliteOpenCreate ||| sqliteOpenDeleteonclose

/-- The first temporary file that memory is granted for is not opened: its name is
dereferenced. -/
theorem not_opensAnonymous : ¬ ∀ w, system.Reach (fun _ _ ↦ True) w → ∀ h flags answers,
    w.handle? h = none → flags &&& sqliteOpenCreate ≠ 0 →
    flags &&& sqliteOpenDeleteonclose ≠ 0 → OpensAnonymous w h flags answers := by
  intro hall
  obtain ⟨w, hr, hp⟩ := exists_of_checks (fun _ _ ↦ True) [filled 100 0] []
    (fun w ↦ (w.handle? 0).isNone &&
      faults (w.step ⟨.xOpen 0 none temporary, createA.answers⟩) .wildAccess)
    (by decide +kernel) fun _ _ _ ↦ trivial
  simp only [Bool.and_eq_true, Option.isNone_iff_eq_none, faults_iff] at hp
  obtain ⟨r, w', he, _⟩ := hall w hr 0 temporary createA.answers hp.1 (by decide) (by decide)
  rw [hp.2] at he
  cases he

/-- The first temporary file is refused when there is no memory. -/
theorem opensAnonymous_iff_refused : ∃ w, system.Reach (fun _ _ ↦ True) w ∧
    OpensAnonymous w 0 temporary [] := by
  obtain ⟨w, hr, hp⟩ := exists_of_checks (fun _ _ ↦ True) [filled 100 0] []
    (fun w ↦ (w.handle? 0).isNone && passes (fsFindFile w.list w.mem none) fun a ↦ a = 0)
    (by decide +kernel) fun _ _ _ ↦ trivial
  simp only [Bool.and_eq_true, Option.isNone_iff_eq_none, passes_iff] at hp
  obtain ⟨l, hs⟩ := reach_sound hr
  obtain ⟨hfree, a, hfind, _⟩ := hp
  refine ⟨w, hr, (opensAnonymous_iff hr hfree).mpr ⟨(linked_none_iff hs).mpr ?_, ?_⟩⟩
  · by_contra hl
    rw [fsFindFile_null hs.rep, if_neg hl] at hfind
    cases hfind
  · exact fun hroom ↦ hroom.1 rfl

end SqliteComposite.Vfs
