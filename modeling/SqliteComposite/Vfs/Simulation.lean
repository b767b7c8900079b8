import SqliteComposite.Inmemfs.Buffers
import SqliteComposite.Vfs.Client

/-!
# The VFS refines a list of files

A state of the VFS holds a list of files and a table of open handles. Every call that
returns moves this pair by one of a few steps, whatever the allocator answers; a call that
does not return has dereferenced null or a handle whose file is gone, or has gone out of
the bounds of a file's buffer.
-/

namespace SqliteComposite.Vfs

open Base Inmemfs

/-- The state holds the files of `l`, and no handle is on the sentinel. -/
structure Sound (w : World) (l : List FileView) : Prop where
  rep : Rep w.list w.mem.heap l []
  apart : ∀ p ∈ w.handles, p.2.fd ≠ 0 ∧ p.2.fd ≠ w.list

/-- What a successful call through an open handle does to its file. -/
inductive FileStep (h : Nat) (v : FileView) : Call → FileView → Prop
  | wrote {src : Nat → UInt8} {n : Int32} {o : Int64} {u : FileView} : 0 ≤ o.toInt →
      0 ≤ n.toInt → Grow v (o + n.toInt64) true u →
      (n.toInt = 0 ∨ o.toInt + n.toInt ≤ u.data.size) →
      FileStep h v (.xWrite h src n o)
        (u.written o.toInt.toNat n.toInt.toNat src (o + n.toInt64))
  | truncated {size : Int64} :
      FileStep h v (.xTruncate h size) (v.resized (if size < v.len then size else v.len))
  | hinted {arg : Int32} {grown : Bool} {u : FileView} : Grow v arg.toInt64 grown u →
      FileStep h v (.xFileControl h sqliteFcntlSizeHint arg) u

/-- What a call does to the files and the open handles. -/
inductive StepTo (l : List FileView) (hs : List (Nat × CFile)) :
    Call → Reply → List FileView → List (Nat × CFile) → Prop
  | idle {c : Call} {r : Reply} : r ≠ .status .ok → StepTo l hs c r l hs
  | rejected {h : Nat} {src : Nat → UInt8} {o : Int64} :
      StepTo l hs (.xWrite h src (-1) o) (.status .ok) l hs
  | opened {h : Nat} {z : CStr} {flags : Int32} {a : Addr} {l₁ l' : List FileView} :
      hs.lookup h = none → OpenTo l z a l₁ → a ≠ 0 →
      (if flags &&& sqliteOpenDeleteonclose ≠ 0 then DeleteTo l₁ z l' else l' = l₁) →
      StepTo l hs (.xOpen h (some z) flags) (.status .ok) l' ((h, ⟨true, some z, a⟩) :: hs)
  | closed {h : Nat} {file : CFile} {l' : List FileView} : hs.lookup h = some file →
      CloseTo l file.fd l' →
      StepTo l hs (.xClose h) (.status .ok) l' (hs.filter fun p ↦ p.1 ≠ h)
  | through {c : Call} {h : Nat} {file : CFile} {l₁ l₂ : List FileView} {v u : FileView} :
      hs.lookup h = some file → l = l₁ ++ v :: l₂ → v.addr = file.fd → FileStep h v c u →
      StepTo l hs c (.status .ok) (l₁ ++ u :: l₂) hs
  | deletedNull : StepTo l hs (.xDelete none) (.status .ok) l hs
  | deleted {z : CStr} {l' : List FileView} : DeleteTo l z l' →
      StepTo l hs (.xDelete (some z)) (.status .ok) l' hs

/-- What no counter matters to, holds of new files and survives the calls on one file holds
of every file after a step if it did before. -/
theorem StepTo.forall {P : FileView → Prop} {l l' : List FileView}
    {hs hs' : List (Nat × CFile)} {c : Call} {r : Reply} (ht : StepTo l hs c r l' hs')
    (hp : ∀ x ∈ l, P x)
    (hcount : ∀ v ref deleteOnClose, P v → P (v.counted v.len ref deleteOnClose))
    (hnew : ∀ h z flags v, c = .xOpen h (some z) flags → v.IsNew z → P v)
    (hfile : ∀ h file v u, hs.lookup h = some file → v ∈ l → v.addr = file.fd →
      FileStep h v c u → r = .status .ok → P v → P u) : ∀ x ∈ l', P x := by
  cases ht with
  | idle _ => exact hp
  | rejected => exact hp
  | opened _ ho _ hd =>
    have hp₁ := ho.forall hp hcount fun v hv ↦ hnew _ _ _ v rfl hv
    split at hd
    · exact hd.forall hp₁ hcount
    · exact hd ▸ hp₁
  | closed _ hc => exact hc.forall hp hcount
  | through hf hl ha hs =>
    subst hl
    exact forall_replace hp (hfile _ _ _ _ hf (by simp) ha hs rfl (hp _ (by simp)))
  | deletedNull => exact hp
  | deleted hd => exact hd.forall hp hcount

/-- The address of a file survives a call on it. -/
theorem FileStep.addr_eq {h : Nat} {v u : FileView} {c : Call} (hf : FileStep h v c u) :
    u.addr = v.addr := by
  cases hf with
  | wrote _ _ hg _ => exact hg.addr_eq
  | truncated => rfl
  | hinted hg => exact hg.addr_eq

/-- The handle counts of a file survive a call on it. -/
theorem FileStep.counters_eq {h : Nat} {v u : FileView} {c : Call} (hf : FileStep h v c u) :
    u.ref = v.ref ∧ u.deleteOnClose = v.deleteOnClose := by
  cases hf with
  | wrote _ _ hg _ => exact ⟨hg.same.1, hg.same.2.1⟩
  | truncated => exact ⟨rfl, rfl⟩
  | hinted hg => exact ⟨hg.same.1, hg.same.2.1⟩

/-- The name of a file survives a call on it. -/
theorem FileStep.name_eq {h : Nat} {v u : FileView} {c : Call} (hf : FileStep h v c u) :
    u.name = v.name := by
  cases hf with
  | wrote _ _ hg _ => exact hg.same.2.2
  | truncated => rfl
  | hinted hg => exact hg.same.2.2

/-- A successful write is one of no bytes rejected, or stores its bytes in a listed file. -/
theorem StepTo.write_cases {l l' : List FileView} {hs hs' : List (Nat × CFile)} {h : Nat}
    {src : Nat → UInt8} {n : Int32} {o : Int64}
    (ht : StepTo l hs (.xWrite h src n o) (.status .ok) l' hs') :
    (n = -1 ∧ l' = l) ∨ ∃ file l₁ v l₂ x, hs.lookup h = some file ∧ l = l₁ ++ v :: l₂ ∧
      v.addr = file.fd ∧ 0 ≤ o.toInt ∧ 0 ≤ n.toInt ∧ Grow v (o + n.toInt64) true x ∧
      (n.toInt = 0 ∨ o.toInt + n.toInt ≤ x.data.size) ∧
      l' = l₁ ++ x.written o.toInt.toNat n.toInt.toNat src (o + n.toInt64) :: l₂ := by
  cases ht with
  | idle hne => exact absurd rfl hne
  | rejected => exact .inl ⟨rfl, rfl⟩
  | through hf hl ha hfs =>
    right
    cases hfs with
    | wrote ho hn hg hfit => exact ⟨_, _, _, _, _, hf, hl, ha, ho, hn, hg, hfit, rfl⟩

/-- A file that is listed before and after a step is recounted at most, or it is the file of
the handle a successful write, truncation or hint went through. -/
theorem StepTo.file_cases {l l' : List FileView} {hs hs' : List (Nat × CFile)} {c : Call}
    {r : Reply} (ht : StepTo l hs c r l' hs') (hn : (l.map FileView.addr).Nodup)
    {v u : FileView} (hv : v ∈ l) (hu : u ∈ l') (ha : u.addr = v.addr) :
    v.Recounted u ∨ ∃ h file, hs.lookup h = some file ∧ file.fd = v.addr ∧ r = .status .ok ∧
      FileStep h v c u := by
  have hid (hu : u ∈ l) : v.Recounted u := List.inj_on_of_nodup_map hn hu hv ha ▸ .refl _
  cases ht with
  | idle _ => exact .inl (hid hu)
  | rejected => exact .inl (hid hu)
  | opened _ ho _ hd =>
    left
    obtain ⟨hn₁, hkeep⟩ := ho.recounted hn
    obtain ⟨x, hx, hxa, hvx⟩ := hkeep v hv
    split at hd
    · exact hvx.trans (hd.recounted hn₁ hx hu (ha.trans hxa.symm))
    · subst hd
      exact List.inj_on_of_nodup_map hn₁ hu hx (ha.trans hxa.symm) ▸ hvx
  | closed _ hc => exact .inl (hc.recounted hn hv hu ha)
  | through hf hl hx hs =>
    subst hl
    rcases replace_cases hn hv hu hs.addr_eq ha with rfl | ⟨rfl, rfl⟩
    · exact .inl (.refl _)
    · exact .inr ⟨_, _, hf, hx.symm, rfl, hs⟩
  | deletedNull => exact .inl (hid hu)
  | deleted hd => exact .inl (hd.recounted hn hv hu ha)

/-! ### The methods -/

section Methods

variable {list : Addr} {m : FsMem} {l : List FileView}

/-- `cOpen` fails and leaves the files as they were, which on a name that exists it does only
when asked to, or opens a file and then marks it. -/
theorem cOpen_spec (hr : Rep list m.heap l []) (z : CStr) (base : CFile) (flags : Int32) :
    ∃ rc file out m', cOpen list m (some z) base flags = .ok (rc, file, out, m') ∧
      ((rc = .ioerr ∧ (lookup l z = none ∨
          flags &&& sqliteOpenCreate ≠ 0 ∧ flags &&& sqliteOpenExclusive ≠ 0) ∧
          Rep list m'.heap l []) ∨
        rc = .ok ∧ ∃ a l₁ l', file = ⟨true, some z, a⟩ ∧ a ≠ 0 ∧ a ≠ list ∧ OpenTo l z a l₁ ∧
          (if flags &&& sqliteOpenDeleteonclose ≠ 0 then DeleteTo l₁ z l' else l' = l₁) ∧
          Rep list m'.heap l' []) := by
  simp only [cOpen, cAccess, fsExists_spec hr, ok_bind]
  split
  · next hx => exact ⟨_, _, _, _, rfl, .inl ⟨rfl, .inr ⟨hx.1, hx.2.1⟩, hr⟩⟩
  obtain ⟨a, m₁, l₁, he, hto, hr₁⟩ := fsOpen_spec hr z
  simp only [he, ok_bind]
  by_cases h0 : a = 0
  · have hl : lookup l z = none ∧ l₁ = l := by
      cases hto with
      | found hl _ =>
        subst hl
        exact absurd h0 hr.addr_ne_zero
      | created _ _ _ => exact absurd h0 hr₁.atHead.addr_ne_zero
      | refused hf => exact ⟨hf, rfl⟩
    exact ⟨_, _, _, _, by rw [if_pos h0], .inl ⟨rfl, .inl hl.1, hl.2 ▸ hr₁⟩⟩
  have hal : a ≠ list := by
    cases hto with
    | found _ _ => exact hr₁.addr_ne.1.symm
    | created _ _ _ => exact hr₁.atHead.addr_ne.1.symm
    | refused _ => exact absurd rfl h0
  simp only [if_neg h0]
  split
  · obtain ⟨m₂, l₂, he₂, hdel, hr₂⟩ := fsDelete_spec hr₁ z
    exact ⟨_, _, _, m₂, by rw [he₂, ok_bind], .inr ⟨rfl, a, l₁, l₂, rfl, h0, hal, hto, hdel, hr₂⟩⟩
  · exact ⟨_, _, _, m₁, rfl, .inr ⟨rfl, a, l₁, l₁, rfl, h0, hal, hto, rfl, hr₁⟩⟩

/-- `cOpen` of the null pointer fails and leaves the files as they were when no file is listed
and the memory for one is refused, and otherwise dereferences it. -/
theorem cOpen_null (hr : Rep list m.heap l []) (base : CFile) (flags : Int32) :
    ((l = [] ∧ ¬ RoomForFile m) ∧ ∃ file out m',
      cOpen list m none base flags = .ok (.ioerr, file, out, m') ∧ Rep list m'.heap l []) ∨
    (¬ (l = [] ∧ ¬ RoomForFile m) ∧ cOpen list m none base flags = .error .wildAccess) := by
  simp only [cOpen, cAccess, fsExists_null hr]
  by_cases hl : l = []
  · simp only [if_pos hl, ok_bind, Bool.false_eq_true, and_false, ↓reduceIte]
    rcases fsOpen_null hr with ⟨hwhen, m', ho, hh⟩ | ⟨hwhen, ho⟩
    · exact .inl ⟨hwhen, _, _, m', by rw [ho, ok_bind, if_pos rfl], hh ▸ hr⟩
    · exact .inr ⟨hwhen, by rw [ho, error_bind]⟩
  · simp only [if_neg hl]
    exact .inr ⟨fun h ↦ hl h.1, rfl⟩

end Methods

/-! ### The calls -/

/-- An open handle is in the table of handles. -/
theorem World.handle?_mem {w : World} {h : Nat} {file : CFile} (hf : w.handle? h = some file) :
    (h, file) ∈ w.handles := by
  obtain ⟨l₁, l₂, he, _⟩ := List.lookup_eq_some_iff.mp hf
  simp [he]

section Calls

variable {w w' : World} {l : List FileView} {answers : List (Option Grant)} {r : Reply}

/-- An open handle is not on the sentinel. -/
theorem Sound.handle (hs : Sound w l) {h : Nat} {file : CFile} (hf : w.handle? h = some file) :
    file.fd ≠ 0 ∧ file.fd ≠ w.list := hs.apart (h, file) (World.handle?_mem hf)

/-- A call whose new memory holds the files of `l'` keeps the handles off the sentinel. -/
theorem Sound.withMem (hs : Sound w l) {m' : FsMem} {l' : List FileView}
    (hr : Rep w.list m'.heap l' []) : Sound { w with mem := m' } l' := ⟨hr, hs.apart⟩

/-- The VFS starts with no files and no handles. -/
theorem init_spec (hi : system.init w) : Sound w [] := by
  obtain ⟨hh, answers, he⟩ := hi
  exact ⟨fsInit_spec he, by simp [hh]⟩

private theorem through_cases {h : Nat} {f : CFile → Except Fault (Reply × World)}
    (he : w.through h f = .ok (r, w')) :
    (r = .notMade ∧ w' = w) ∨ ∃ file, w.handle? h = some file ∧ f file = .ok (r, w') := by
  unfold World.through at he
  split at he
  · cases he
    exact .inl ⟨rfl, rfl⟩
  · next file hf => exact .inr ⟨file, hf, he⟩

private theorem xOpen_step (hs : Sound w l) {h : Nat} {zName : Option CStr} {flags : Int32}
    (he : w.step ⟨.xOpen h zName flags, answers⟩ = .ok (r, w')) :
    ∃ l', StepTo l w.handles (.xOpen h zName flags) r l' w'.handles ∧ Sound w' l' ∧
      w'.list = w.list := by
  have hr : Rep w.list (w.begin answers).heap l [] := hs.rep
  simp only [World.step] at he
  split at he
  · cases he
    exact ⟨l, .idle (by simp), hs, rfl⟩
  · next hfree =>
    cases zName with
    | none =>
      rcases cOpen_null hr ⟨false, none, 0⟩ flags with ⟨_, file, out, m', ho, hr'⟩ | ⟨_, ho⟩
      · rw [ho, ok_bind] at he
        cases he
        exact ⟨l, .idle (by simp), hs.withMem hr', rfl⟩
      · rw [ho, error_bind] at he
        cases he
    | some z =>
      obtain ⟨rc, file, out, m', ho, hcase⟩ := cOpen_spec hr z ⟨false, none, 0⟩ flags
      rw [ho, ok_bind] at he
      rcases hcase with ⟨rfl, _, hr'⟩ | ⟨rfl, a, l₁, l', rfl, h0, hal, hto, hdel, hr'⟩
      · cases he
        exact ⟨l, .idle (by simp), hs.withMem hr', rfl⟩
      · cases he
        refine ⟨l', .opened hfree hto h0 hdel, ⟨hr', ?_⟩, rfl⟩
        intro p hp
        rcases List.mem_cons.mp hp with rfl | hp
        · exact ⟨h0, hal⟩
        · exact hs.apart p hp

private theorem xClose_step (hs : Sound w l) {h : Nat}
    (he : w.step ⟨.xClose h, answers⟩ = .ok (r, w')) :
    ∃ l', StepTo l w.handles (.xClose h) r l' w'.handles ∧ Sound w' l' ∧ w'.list = w.list := by
  have hr : Rep w.list (w.begin answers).heap l [] := hs.rep
  rcases through_cases he with ⟨rfl, rfl⟩ | ⟨file, hf, he⟩
  · exact ⟨l, .idle (by simp), hs, rfl⟩
  rcases load_cases hr (hs.handle hf).2 with ⟨l₁, v, l₂, rfl, ha⟩ | hload
  · obtain ⟨m', l', hc, hto, hr'⟩ := fsClose_spec hr
    rw [ha] at hc hto
    simp only [cClose, hc, ok_bind] at he
    cases he
    exact ⟨l', .closed hf hto, ⟨hr', fun p hp ↦ hs.apart p (List.mem_filter.mp hp).1⟩, rfl⟩
  · simp only [cClose, fsClose, hload, error_bind] at he
    cases he

private theorem xWrite_step (hs : Sound w l) {h : Nat} {src : Nat → UInt8} {n : Int32}
    {o : Int64} (he : w.step ⟨.xWrite h src n o, answers⟩ = .ok (r, w')) :
    ∃ l', StepTo l w.handles (.xWrite h src n o) r l' w'.handles ∧ Sound w' l' ∧
      w'.list = w.list := by
  have hr : Rep w.list (w.begin answers).heap l [] := hs.rep
  rcases through_cases he with ⟨rfl, rfl⟩ | ⟨file, hf, he⟩
  · exact ⟨l, .idle (by simp), hs, rfl⟩
  by_cases hneg : o < 0 ∨ n < 0
  · simp only [cWrite, fsWrite, if_pos hneg, ok_bind] at he
    split at he
    · next hn =>
      cases he
      exact ⟨l, hn ▸ .rejected, hs.withMem hr, rfl⟩
    · cases he
      exact ⟨l, .idle (by simp), hs.withMem hr, rfl⟩
  rcases load_cases hr (hs.handle hf).2 with ⟨l₁, v, l₂, rfl, ha⟩ | hload
  · rcases fsWrite_spec hr o n src with ⟨rc, m', u, hw, hto, hr'⟩ | hw
    · rw [ha] at hw
      simp only [cWrite, hw, ok_bind] at he
      cases hto with
      | rejected h => exact absurd h hneg
      | refused ho hn hlt =>
        have hne : (-1 : Int32) ≠ n := by
          rintro rfl
          exact absurd hn (by decide)
        rw [if_neg hne] at he
        cases he
        exact ⟨_, .idle (by simp), hs.withMem hr', rfl⟩
      | stored ho hn hg hfit =>
        rw [if_pos rfl] at he
        cases he
        exact ⟨_, .through hf rfl ha (.wrote ho hn hg hfit), hs.withMem hr', rfl⟩
    · rw [ha] at hw
      simp only [cWrite, hw, error_bind] at he
      cases he
  · simp only [cWrite, fsWrite, if_neg hneg, fsDataEnsureCapacity, hload, error_bind] at he
    cases he

private theorem xTruncate_step (hs : Sound w l) {h : Nat} {size : Int64}
    (he : w.step ⟨.xTruncate h size, answers⟩ = .ok (r, w')) :
    ∃ l', StepTo l w.handles (.xTruncate h size) r l' w'.handles ∧ Sound w' l' ∧
      w'.list = w.list := by
  have hr : Rep w.list (w.begin answers).heap l [] := hs.rep
  rcases through_cases he with ⟨rfl, rfl⟩ | ⟨file, hf, he⟩
  · exact ⟨l, .idle (by simp), hs, rfl⟩
  rcases load_cases hr (hs.handle hf).2 with ⟨l₁, v, l₂, rfl, ha⟩ | hload
  · obtain ⟨m', ht, hr'⟩ := fsTruncate_spec hr size
    rw [ha] at ht
    simp only [cTruncate, ht, ok_bind, ↓reduceIte] at he
    cases he
    exact ⟨_, .through hf rfl ha .truncated, hs.withMem hr', rfl⟩
  · simp only [cTruncate, fsTruncate, hload, error_bind] at he
    cases he

private theorem xFileControl_step (hs : Sound w l) {h : Nat} {op arg : Int32}
    (he : w.step ⟨.xFileControl h op arg, answers⟩ = .ok (r, w')) :
    ∃ l', StepTo l w.handles (.xFileControl h op arg) r l' w'.handles ∧ Sound w' l' ∧
      w'.list = w.list := by
  have hr : Rep w.list (w.begin answers).heap l [] := hs.rep
  rcases through_cases he with ⟨rfl, rfl⟩ | ⟨file, hf, he⟩
  · exact ⟨l, .idle (by simp), hs, rfl⟩
  obtain ⟨h0, hl⟩ := hs.handle hf
  by_cases hop : op = sqliteFcntlSizeHint
  · subst hop
    simp only [cFileControl, ↓reduceIte, if_pos h0] at he
    rcases load_cases hr hl with ⟨l₁, v, l₂, rfl, ha⟩ | hload
    · obtain ⟨grown, m', u, hh, hg, hr'⟩ := fsSizeHint_spec hr arg.toInt64
      rw [ha] at hh
      simp only [hh, ok_bind] at he
      cases he
      exact ⟨_, .through hf rfl ha (.hinted hg), hs.withMem hr', rfl⟩
    · simp only [fsSizeHint, fsDataEnsureCapacity, hload, error_bind] at he
      cases he
  · simp only [cFileControl, if_neg hop, ok_bind] at he
    cases he
    exact ⟨l, .idle (by simp), hs.withMem hr, rfl⟩

private theorem xDelete_step (hs : Sound w l) {zName : Option CStr}
    (he : w.step ⟨.xDelete zName, answers⟩ = .ok (r, w')) :
    ∃ l', StepTo l w.handles (.xDelete zName) r l' w'.handles ∧ Sound w' l' ∧
      w'.list = w.list := by
  have hr : Rep w.list (w.begin answers).heap l [] := hs.rep
  cases zName with
  | none =>
    rcases fsDelete_null hr with hd | hd
    · simp only [World.step, cDelete, hd, ok_bind, ↓reduceIte] at he
      cases he
      exact ⟨l, .deletedNull, hs.withMem hr, rfl⟩
    · simp only [World.step, cDelete, hd, error_bind] at he
      cases he
  | some z =>
    obtain ⟨m', l', hd, hto, hr'⟩ := fsDelete_spec hr z
    simp only [World.step, cDelete, hd, ok_bind, ↓reduceIte] at he
    cases he
    exact ⟨l', .deleted hto, hs.withMem hr', rfl⟩

/-- Every call that returns refines a step of the list of files and the open handles. -/
theorem step_spec {q : Request} (hs : Sound w l) (he : w.step q = .ok (r, w')) :
    ∃ l', StepTo l w.handles q.call r l' w'.handles ∧ Sound w' l' ∧ w'.list = w.list := by
  obtain ⟨c, answers⟩ := q
  cases c with
  | xOpen h zName flags => exact xOpen_step hs he
  | xClose h => exact xClose_step hs he
  | xRead h n o =>
    rcases through_cases he with ⟨rfl, rfl⟩ | ⟨file, hf, he⟩
    · exact ⟨l, .idle (by simp), hs, rfl⟩
    · obtain ⟨⟨rc, t⟩, _, he⟩ := bind_ok he
      cases he
      exact ⟨l, .idle (by simp), hs, rfl⟩
  | xWrite h src n o => exact xWrite_step hs he
  | xTruncate h size => exact xTruncate_step hs he
  | xFileSize h =>
    rcases through_cases he with ⟨rfl, rfl⟩ | ⟨file, hf, he⟩
    · exact ⟨l, .idle (by simp), hs, rfl⟩
    · obtain ⟨⟨rc, size⟩, _, he⟩ := bind_ok he
      cases he
      exact ⟨l, .idle (by simp), hs, rfl⟩
  | xFileControl h op arg => exact xFileControl_step hs he
  | xDelete zName => exact xDelete_step hs he
  | xAccess zName =>
    obtain ⟨⟨rc, found⟩, _, he⟩ := bind_ok he
    cases he
    exact ⟨l, .idle (by simp), hs, rfl⟩

/-- Every state of every run holds a list of files. -/
theorem reach_sound {ok : World → Request → Prop} (hr : system.Reach ok w) : ∃ l, Sound w l :=
  hr.invariant (P := fun w ↦ ∃ l, Sound w l) (fun _ hi ↦ ⟨[], init_spec hi⟩)
    fun _ _ _ ⟨_, hs⟩ _ ⟨_, he⟩ ↦ by
      obtain ⟨l', _, hs', _⟩ := step_spec hs he
      exact ⟨l', hs'⟩

end Calls
end SqliteComposite.Vfs
