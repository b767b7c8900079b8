import SqliteComposite.Base.Run
import SqliteComposite.Vfs.Methods

/-!
# Runs of the VFS

SQLite holds any number of open handles and calls the methods on them in any order. A
request is one call together with the answers the allocator gives during it. A call through
a handle that is not open, and an open into a handle that is, are not made. A call that
faults has no successor.
-/

namespace SqliteComposite.Vfs

open Base Inmemfs

/-- The filesystem and the handles SQLite has open. -/
structure World where
  list : Addr
  mem : FsMem
  handles : List (Nat × CFile)

/-- The calls SQLite makes. -/
inductive Call where
  | xOpen (h : Nat) (zName : Option CStr) (flags : Int32)
  | xClose (h : Nat)
  | xRead (h : Nat) (iAmt : Int32) (iOfst : Int64)
  | xWrite (h : Nat) (buf : Nat → UInt8) (iAmt : Int32) (iOfst : Int64)
  | xTruncate (h : Nat) (size : Int64)
  | xFileSize (h : Nat)
  | xFileControl (h : Nat) (op arg : Int32)
  | xDelete (zName : Option CStr)
  | xAccess (zName : Option CStr)

/-- A call and the allocator's answers to the requests made during it. -/
structure Request where
  call : Call
  answers : List (Option Grant)

/-- What a call returns. -/
inductive Reply where
  | notMade
  | status (rc : Rc)
  | read (rc : Rc) (stores : Stores)
  | size (rc : Rc) (pSize : Int64)
  | access (rc : Rc) (pResOut : Bool)

/-- The call returned `SQLITE_OK` and nothing else. -/
def Reply.succeeded : Reply → Bool
  | .status .ok => true
  | _ => false

/-- A call that succeeded returned `SQLITE_OK`. -/
theorem Reply.succeeded_iff {r : Reply} : r.succeeded = true ↔ r = .status .ok := by
  constructor
  · intro h
    unfold succeeded at h
    split at h
    · rfl
    · cases h
  · rintro rfl
    rfl

namespace World

/-- The file structure of an open handle. -/
def handle? (w : World) (h : Nat) : Option CFile := w.handles.lookup h

/-- The memory at the start of a call. -/
def begin (w : World) (answers : List (Option Grant)) : FsMem := { w.mem with answers := answers }

/-- A call through handle `h`, made only when the handle is open. -/
def through (w : World) (h : Nat) (f : CFile → Except Fault (Reply × World)) :
    Except Fault (Reply × World) :=
  match w.handle? h with
  | none => .ok (.notMade, w)
  | some file => f file

/-- One call. -/
def step (w : World) (q : Request) : Except Fault (Reply × World) :=
  let m := w.begin q.answers
  match q.call with
  | .xOpen h zName flags =>
    match w.handle? h with
    | some _ => .ok (.notMade, w)
    | none => do
      let (rc, file, _, m) ← cOpen w.list m zName ⟨false, none, 0⟩ flags
      if rc = .ok then .ok (.status rc, { w with mem := m, handles := (h, file) :: w.handles })
      else .ok (.status rc, { w with mem := m })
  | .xClose h => w.through h fun file ↦ do
    let (rc, _, m) ← cClose w.list m file
    .ok (.status rc, { w with mem := m, handles := w.handles.filter fun p ↦ p.1 ≠ h })
  | .xRead h iAmt iOfst => w.through h fun file ↦ do
    let (rc, stores) ← cRead m file iAmt iOfst
    .ok (.read rc stores, w)
  | .xWrite h buf iAmt iOfst => w.through h fun file ↦ do
    let (rc, m) ← cWrite m file buf iAmt iOfst
    .ok (.status rc, { w with mem := m })
  | .xTruncate h size => w.through h fun file ↦ do
    let (rc, m) ← cTruncate m file size
    .ok (.status rc, { w with mem := m })
  | .xFileSize h => w.through h fun file ↦ do
    let (rc, size) ← cFileSize m file
    .ok (.size rc size, w)
  | .xFileControl h op arg => w.through h fun file ↦ do
    let (rc, m) ← cFileControl m file op arg
    .ok (.status rc, { w with mem := m })
  | .xDelete zName => do
    let (rc, m) ← cDelete w.list m zName
    .ok (.status rc, { w with mem := m })
  | .xAccess zName => do
    let (rc, found) ← cAccess w.list m zName
    .ok (.access rc found, w)

end World

/-- The VFS from `fs_init` on: no block is live before it, and no handle is open after. -/
def system : System World Request where
  init w := w.handles = [] ∧
    ∃ answers, fsInit { heap := ∅, answers := answers } = .ok (w.list, w.mem)
  step w q w' := ∃ reply, w.step q = .ok (reply, w')

/-! ### Concrete runs -/

section

variable {γ : Type} {upd : World → Request → World → γ → γ}

/-- Calls one after the other with a record of the past, up to the first that faults. -/
def World.run (upd : World → Request → World → γ → γ) (x : World × γ) :
    List Request → Except Fault (World × γ)
  | [] => .ok x
  | q :: qs => do
    let (_, w) ← x.1.step q
    World.run upd (w, upd x.1 q w x.2) qs

/-- Whether `P` holds after `fs_init` and these calls, none of which faults. -/
def World.checks (upd : World → Request → World → γ → γ) (past : γ)
    (answers : List (Option Grant)) (qs : List Request) (P : World × γ → Bool) : Bool :=
  passes (fsInit ⟨∅, answers⟩) fun y ↦ passes (World.run upd (⟨y.1, y.2, []⟩, past) qs) P

/-- A call opens one handle, or closes one, or leaves the table of handles alone. -/
theorem World.step_table {w w' : World} {q : Request} {r : Reply}
    (he : w.step q = .ok (r, w')) : w'.handles = w.handles ∨
      (∃ h file, w.handle? h = none ∧ w'.handles = (h, file) :: w.handles) ∨
      ∃ h, w'.handles = w.handles.filter fun p ↦ p.1 ≠ h := by
  have hthrough {h : Nat} {f : CFile → Except Fault (Reply × World)}
      (hf : ∀ file, f file = .ok (r, w') → w'.handles = w.handles ∨
        w'.handles = w.handles.filter fun p ↦ p.1 ≠ h)
      (he : w.through h f = .ok (r, w')) : w'.handles = w.handles ∨
        (∃ h file, w.handle? h = none ∧ w'.handles = (h, file) :: w.handles) ∨
        ∃ h, w'.handles = w.handles.filter fun p ↦ p.1 ≠ h := by
    unfold World.through at he
    split at he
    · cases he
      exact .inl rfl
    · next file _ => exact (hf file he).imp_right fun he ↦ .inr ⟨h, he⟩
  obtain ⟨c, answers⟩ := q
  cases c
  case xOpen h zName flags =>
    simp only [World.step] at he
    split at he
    · cases he
      exact .inl rfl
    · next hfree =>
      obtain ⟨_, _, he⟩ := bind_ok he
      split at he <;> cases he
      · exact .inr (.inl ⟨h, _, hfree, rfl⟩)
      · exact .inl rfl
  case xClose =>
    apply hthrough ?_ he
    intro file he
    obtain ⟨_, _, he⟩ := bind_ok he
    cases he
    exact .inr rfl
  case xRead | xWrite | xTruncate | xFileSize | xFileControl =>
    apply hthrough ?_ he
    intro file he
    obtain ⟨_, _, he⟩ := bind_ok he
    cases he
    exact .inl rfl
  case xDelete | xAccess =>
    obtain ⟨_, _, he⟩ := bind_ok he
    cases he
    exact .inl rfl

/-- A call opens at most one handle. -/
theorem World.step_handles {w w' : World} {q : Request} {r : Reply}
    (he : w.step q = .ok (r, w')) : w'.handles.length ≤ w.handles.length + 1 := by
  rcases World.step_table he with he | ⟨h, file, _, he⟩ | ⟨h, he⟩
  · rw [he]
    exact Nat.le_succ _
  · rw [he]
    exact le_rfl
  · rw [he]
    exact Nat.le_succ_of_le (List.length_filter_le _ _)

/-- Without the entries of one key, every other key is found as before. -/
theorem lookup_filter_ne {β : Type} (l : List (Nat × β)) (h k : Nat) :
    (l.filter fun p ↦ p.1 ≠ h).lookup k = if k = h then none else l.lookup k := by
  induction l with
  | nil => simp
  | cons p l ih =>
    by_cases hp : p.1 = h
    · rw [List.filter_cons_of_neg (by simpa using hp), ih, List.lookup_cons]
      by_cases hk : k = h
      · rw [if_pos hk, if_pos hk]
      · rw [if_neg hk, if_neg hk, beq_eq_false_iff_ne.mpr (hp ▸ hk)]
    · rw [List.filter_cons_of_pos (by simpa using hp), List.lookup_cons, List.lookup_cons, ih]
      by_cases hk : k = p.1
      · have hne : k ≠ h := hk ▸ hp
        rw [beq_iff_eq.mpr hk, if_neg hne, if_neg hne]
      · rw [beq_eq_false_iff_ne.mpr hk]

/-- A handle that is open after a call was open on the same file before it, or not at all. -/
theorem World.step_handle? {w w' : World} {q : Request} {r : Reply} {h : Nat} {file : CFile}
    (he : w.step q = .ok (r, w')) (hf : w'.handle? h = some file) :
    w.handle? h = some file ∨ w.handle? h = none := by
  unfold World.handle? at hf
  rcases World.step_table he with he | ⟨h', file', hfree, he⟩ | ⟨h', he⟩
  · rw [he] at hf
    exact .inl hf
  · rw [he, List.lookup_cons] at hf
    by_cases heq : h = h'
    · subst heq
      exact .inr hfree
    · rw [beq_eq_false_iff_ne.mpr heq] at hf
      exact .inl hf
  · rw [he, lookup_filter_ne] at hf
    split at hf
    · cases hf
    · exact .inl hf

private theorem run_reach {past : γ} {ok : World × γ → Request → Prop} {n : Nat}
    {qs : List Request} :
    ∀ {x y : World × γ}, (system.withPast past upd).Reach ok x → World.run upd x qs = .ok y →
      x.1.handles.length + qs.length ≤ n →
      (∀ q ∈ qs, ∀ z : World × γ, z.1.handles.length ≤ n → ok z q) →
      (system.withPast past upd).Reach ok y := by
  induction qs with
  | nil =>
    intro x y hr he _ _
    cases he
    exact hr
  | cons q qs ih =>
    intro x y hr he hn hok
    rw [List.length_cons] at hn
    obtain ⟨⟨r, w⟩, hs, he⟩ := bind_ok he
    have hw := World.step_handles hs
    apply ih _ he
    · change w.handles.length + qs.length ≤ n
      omega
    · exact fun q' hq ↦ hok q' (List.mem_cons_of_mem _ hq)
    · exact .next hr (hok q List.mem_cons_self x (by omega)) ⟨⟨r, hs⟩, rfl⟩

/-- What is found after calls that meet a condition, wherever they are made with no more
handles open than there are calls, holds in a state of a run of such calls. -/
theorem exists_of_checks_few (upd : World → Request → World → γ → γ) (past : γ)
    (ok : World × γ → Request → Prop) (answers : List (Option Grant)) (qs : List Request)
    (P : World × γ → Bool) (hc : World.checks upd past answers qs P = true)
    (hok : ∀ q ∈ qs, ∀ z : World × γ, z.1.handles.length ≤ qs.length → ok z q) :
    ∃ x, (system.withPast past upd).Reach ok x ∧ P x = true := by
  obtain ⟨⟨list, mem⟩, hi, hc⟩ := passes_iff.mp hc
  obtain ⟨x, he, hp⟩ := passes_iff.mp hc
  have hstart : (system.withPast past upd).Reach ok (⟨list, mem, []⟩, past) :=
    .start ⟨⟨rfl, answers, hi⟩, rfl⟩
  exact ⟨x, run_reach hstart he (by simp) hok, hp⟩

/-- The same for calls that meet the condition wherever they are made. -/
theorem exists_of_checks_past (upd : World → Request → World → γ → γ) (past : γ)
    (ok : World × γ → Request → Prop) (answers : List (Option Grant)) (qs : List Request)
    (P : World × γ → Bool)
    (hc : World.checks upd past answers qs P = true) (hok : ∀ q ∈ qs, ∀ z, ok z q) :
    ∃ x, (system.withPast past upd).Reach ok x ∧ P x = true :=
  exists_of_checks_few _ _ _ _ _ _ hc fun q hq z _ ↦ hok q hq z

/-- The same without a record of the past. -/
theorem exists_of_checks (ok : World → Request → Prop) (answers : List (Option Grant))
    (qs : List Request) (P : World → Bool)
    (hc : World.checks (fun _ _ _ _ ↦ ()) () answers qs (fun x ↦ P x.1) = true)
    (hok : ∀ q ∈ qs, ∀ w, ok w q) : ∃ w, system.Reach ok w ∧ P w = true := by
  obtain ⟨x, hr, hp⟩ := exists_of_checks_past _ _ (fun x q ↦ ok x.1 q) _ _ _ hc
    fun q hq z ↦ hok q hq z.1
  exact ⟨x.1, hr.forget, hp⟩

end

/-- The allocator offers memory filled with one byte. -/
def filled (a : Addr) (b : UInt8) : Option Grant := some ⟨a, fun _ ↦ b⟩

/-- The one-letter name `a`. -/
def nameA : CStr := ⟨[97], by decide⟩

/-- Handle 0 opens the file `a` for the first time, with every request granted. -/
def createA : Request := ⟨.xOpen 0 (some nameA) sqliteOpenCreate,
  [filled 200 0xAA, filled 300 0xAA, filled 400 0xAA]⟩

/-- The one-letter name `b`. -/
def nameB : CStr := ⟨[98], by decide⟩

/-- Handle 1 opens the file `b` for the first time, with every request granted. -/
def createB : Request := ⟨.xOpen 1 (some nameB) sqliteOpenCreate,
  [filled 500 0xAA, filled 600 0xAA, filled 700 0xAA]⟩

/-- Ten bytes are written at offset 0 through handle 0. -/
def writeTen : Request := ⟨.xWrite 0 (fun _ ↦ 1) 10 0, []⟩

end SqliteComposite.Vfs
