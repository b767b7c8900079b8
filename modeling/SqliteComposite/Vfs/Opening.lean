import SqliteComposite.Vfs.Deferral

/-!
# What an open does

`cOpen` looks the name up for `fileExists`, again in `fs_open`, and once more in `fs_delete`
when the file is to be deleted on close. When it fails, nothing has changed; when it succeeds,
one file counts one handle more. Only the counter itself, an `int`, can stand in the way.
-/

namespace SqliteComposite.Vfs

open Base Inmemfs

/-- `SQLITE_OPEN_CREATE` and `SQLITE_OPEN_EXCLUSIVE` are both set. -/
def CreatesOnly (flags : Int32) : Prop :=
  flags &&& sqliteOpenCreate ≠ 0 ∧ flags &&& sqliteOpenExclusive ≠ 0

/-- The file an open designates: one of the files before, found under the name, or a new one. -/
inductive Origin (l : List FileView) (z : CStr) (flags : Int32) :
    List FileView → FileView → List FileView → Prop
  | existing {k₁ k₂ : List FileView} {v : FileView} : l = k₁ ++ v :: k₂ →
      lookup l z = some v → ¬ CreatesOnly flags → Origin l z flags k₁ v k₂
  | fresh {v : FileView} : lookup l z = none → v.IsNew z → v.addr ∉ l.map FileView.addr →
      Origin l z flags [] v l

/-- One handle more is counted on the file at `fd`, which is one of the files before or a new,
empty one put first. Nothing else has changed, but for the mark asked for by
`SQLITE_OPEN_DELETEONCLOSE`. -/
def AddsOneRef (list : Addr) (h h' : Heap FsFile) (flags : Int32) (fd : Addr) : Prop :=
  ∃ l₁ v l₂ ref deleteOnClose, v.addr = fd ∧
    Rep list h' (l₁ ++ v.counted v.len ref deleteOnClose :: l₂) [] ∧
    ref.toInt = v.ref.toInt + 1 ∧
    (deleteOnClose = v.deleteOnClose ∨
      flags &&& sqliteOpenDeleteonclose ≠ 0 ∧ deleteOnClose = 1) ∧
    (Rep list h (l₁ ++ v :: l₂) [] ∨ l₁ = [] ∧ v.len = 0 ∧ v.ref = 0 ∧ Rep list h l₂ [])

/-- The open returns, and has changed nothing or has opened one file. -/
def AllOrNothing (w : World) (z : CStr) (base : CFile) (flags : Int32)
    (answers : List (Option Grant)) : Prop :=
  ∃ rc file out m', cOpen w.list (w.begin answers) (some z) base flags =
      .ok (rc, file, out, m') ∧
    (rc ≠ .ok → m'.heap = w.mem.heap ∧ file.compositeIoMethods = false) ∧
    (rc = .ok → AddsOneRef w.list w.mem.heap m'.heap flags file.fd)

/-- The open counts a handle on an existing file where the counter has no room for it: it is
the largest `int`, or so far beyond that one more makes it zero. -/
def Overflows (w : World) (z : CStr) (flags : Int32) : Prop :=
  ¬ CreatesOnly flags ∧ ∃ a f, Found w z a ∧ w.mem.load a = .ok f ∧
    (f.ref.toInt = 2 ^ 31 - 1 ∨ f.ref = -1 ∧ flags &&& sqliteOpenDeleteonclose ≠ 0)

section

variable {list : Addr} {m m' : FsMem} {l l' k₁ k₂ : List FileView} {v : FileView} {z : CStr}
  {a : Addr} {base file : CFile} {flags out : Int32} {rc : Rc} {w : World}
  {answers : List (Option Grant)}

/-! ### An open that fails -/

/-- `fs_open` returns null only when no file is found and none can be made. -/
theorem fsOpen_refused (hr : Rep list m.heap l [])
    (he : fsOpen list m (some z) = .ok (0, m')) :
    lookup l z = none ∧ fsFileAlloc list m (some z) = .ok (0, m') := by
  rw [fsOpen, fsFindFile_eq hr, ok_bind] at he
  cases hf : lookup l z with
  | some v =>
    obtain ⟨_, l₁, l₂, rfl, _⟩ := lookup_some hf
    have h0 := hr.addr_ne_zero
    simp only [hf, addrOf, if_neg h0, ok_bind] at he
    obtain ⟨_, _, he⟩ := bind_ok he
    obtain ⟨_, _, he⟩ := bind_ok he
    injection he with he
    exact absurd (congrArg Prod.fst he) h0
  | none =>
    simp only [hf, addrOf, ↓reduceIte] at he
    rcases fsFileAlloc_spec hr z with ⟨m₁, ha, _⟩ | ⟨v, m₁, ha, h0, _⟩
    · simp only [ha, ok_bind, ↓reduceIte] at he
      cases he
      exact ⟨rfl, ha⟩
    · simp only [ha, ok_bind, if_neg h0] at he
      obtain ⟨_, _, he⟩ := bind_ok he
      obtain ⟨_, _, he⟩ := bind_ok he
      injection he with he
      exact absurd (congrArg Prod.fst he) h0

/-- An open that fails leaves the handle without methods. It has done nothing on a name that
must not exist, or found no memory for a new file. -/
theorem cOpen_failed (hr : Rep list m.heap l [])
    (he : cOpen list m (some z) base flags = .ok (rc, file, out, m')) (hrc : rc ≠ .ok) :
    file.compositeIoMethods = false ∧
      (CreatesOnly flags ∧ (lookup l z).isSome ∧ m' = m ∨
        lookup l z = none ∧ fsFileAlloc list m (some z) = .ok (0, m')) := by
  simp only [cOpen, cAccess, fsExists_spec hr, ok_bind] at he
  split at he
  · next hc =>
    cases he
    exact ⟨rfl, .inl ⟨⟨hc.1, hc.2.1⟩, hc.2.2, rfl⟩⟩
  obtain ⟨⟨fd, m₁⟩, ho, he⟩ := bind_ok he
  by_cases h0 : fd = 0
  · subst h0
    simp only [↓reduceIte] at he
    cases he
    exact ⟨rfl, .inr (fsOpen_refused hr ho)⟩
  · simp only [if_neg h0] at he
    split at he
    · obtain ⟨_, _, he⟩ := bind_ok he
      cases he
      exact absurd rfl hrc
    · cases he
      exact absurd rfl hrc

/-- An open that fails leaves the heap as it was. -/
theorem cOpen_failed_heap (hr : Rep list m.heap l [])
    (he : cOpen list m (some z) base flags = .ok (rc, file, out, m')) (hrc : rc ≠ .ok) :
    m'.heap = m.heap := by
  obtain ⟨_, ⟨_, _, rfl⟩ | ⟨_, ha⟩⟩ := cOpen_failed hr he hrc
  · rfl
  · rcases fsFileAlloc_spec hr z with ⟨m₁, ha', hh⟩ | ⟨v, m₁, ha', h0, _⟩
    · rw [ha] at ha'
      cases ha'
      exact hh
    · rw [ha] at ha'
      injection ha' with ha'
      exact absurd (congrArg Prod.fst ha').symm h0

/-- A name that exists is not opened where it must be created. -/
theorem cOpen_exclusive (hr : Rep list m.heap l []) (hf : lookup l z = some v)
    (hc : CreatesOnly flags) : cOpen list m (some z) base flags =
      .ok (.ioerr, { base with compositeIoMethods := false }, flags, m) := by
  simp only [cOpen, cAccess, fsExists_spec hr, ok_bind, hf, Option.isSome_some, and_true]
  exact if_pos hc

/-! ### An open that succeeds -/

/-- A file that is found is found whatever its counters become. -/
theorem lookup_counted {len : Int64} {ref d : Int32}
    (hn : ((k₁ ++ v :: k₂).map FileView.addr).Nodup)
    (hf : lookup (k₁ ++ v :: k₂) z = some v) :
    lookup (k₁ ++ v.counted len ref d :: k₂) z = some (v.counted len ref d) := by
  obtain ⟨hz, l₁, l₂, he, hnot⟩ := lookup_some hf
  obtain ⟨rfl, _, rfl⟩ := split_eq hn he rfl
  rw [lookup, List.find?_eq_some_iff_append]
  refine ⟨decide_eq_true hz, l₁, l₂, rfl, fun u hu ↦ ?_⟩
  simpa using hnot u hu

/-- An open that succeeds counts one handle more on the file it designates, and marks that
file or no other; only when the count becomes zero is the file removed instead. -/
theorem cOpen_ok (hr : Rep list m.heap l [])
    (he : cOpen list m (some z) base flags = .ok (.ok, file, out, m')) :
    ∃ k₁ v k₂, v.addr = file.fd ∧ Origin l z flags k₁ v k₂ ∧
      ((∃ d, (d = v.deleteOnClose ∨ flags &&& sqliteOpenDeleteonclose ≠ 0 ∧ d = 1) ∧
        Rep list m'.heap (k₁ ++ v.counted v.len (v.ref + 1) d :: k₂) [] ∧
        (lookup l z = some v → flags &&& sqliteOpenDeleteonclose ≠ 0 → v.ref + 1 ≠ 0)) ∨
      lookup l z = some v ∧ flags &&& sqliteOpenDeleteonclose ≠ 0 ∧ v.ref + 1 = 0 ∧
        Rep list m'.heap (k₁ ++ k₂) []) := by
  have hn := hr.nodup_addr
  obtain ⟨rc', file', out', m₁, he', hto⟩ := cOpen_spec hr z base flags
  rw [he] at he'
  cases he'
  obtain ⟨hrc, _⟩ | ⟨_, a, l₁, l', rfl, h0, _, ho, hd, hr'⟩ := hto
  · cases hrc
  cases ho with
  | @found k₁ k₂ v hl hf =>
    have hc : ¬ CreatesOnly flags := by
      intro hc
      rw [cOpen_exclusive hr hf hc] at he
      cases he
    refine ⟨k₁, v, k₂, rfl, .existing hl hf hc, ?_⟩
    subst hl
    have hf' : lookup (k₁ ++ v.opened :: k₂) z = some v.opened := lookup_counted hn hf
    have hn' : ((k₁ ++ v.opened :: k₂).map FileView.addr).Nodup := by
      simpa [FileView.opened, FileView.counted] using hn
    split at hd
    · next hdel =>
      rcases hd.of_found hn' hf' with ⟨hz, rfl⟩ | ⟨hz, rfl⟩
      · exact .inr ⟨hf, hdel, hz, hr'⟩
      · exact .inl ⟨1, .inr ⟨hdel, rfl⟩, hr', fun _ _ ↦ hz⟩
    · next hdel =>
      subst hd
      exact .inl ⟨v.deleteOnClose, .inl rfl, hr', fun _ h ↦ absurd h hdel⟩
  | @created v hf hv hfresh =>
    refine ⟨[], v, l, rfl, .fresh hf hv hfresh, .inl ?_⟩
    have hnone : ¬ lookup l z = some v := by
      intro hx
      rw [hf] at hx
      cases hx
    split at hd
    · next hdel =>
      rcases hd.of_created hn hf hv hfresh with rfl | rfl
      · exact ⟨v.deleteOnClose, .inl rfl, hr', fun h ↦ absurd h hnone⟩
      · exact ⟨1, .inr ⟨hdel, rfl⟩, hr', fun h ↦ absurd h hnone⟩
    · subst hd
      exact ⟨v.deleteOnClose, .inl rfl, hr', fun h ↦ absurd h hnone⟩
  | refused _ => exact absurd rfl h0

/-! ### All or nothing -/

/-- The counter has no room on the file the name finds. -/
theorem overflows_iff (hr : Rep w.list w.mem.heap l []) : Overflows w z flags ↔
    ¬ CreatesOnly flags ∧ ∃ v, lookup l z = some v ∧
      (v.ref.toInt = 2 ^ 31 - 1 ∨ v.ref = -1 ∧ flags &&& sqliteOpenDeleteonclose ≠ 0) := by
  have hload {v : FileView} (hv : lookup l z = some v) :
      ∃ nx, w.mem.load v.addr = .ok (v.record nx) := by
    obtain ⟨_, l₁, l₂, rfl, _⟩ := lookup_some hv
    obtain ⟨nx, hl, _⟩ := counters_spec hr
    exact ⟨nx, hl⟩
  constructor
  · rintro ⟨hc, a, f, ha, hf, hover⟩
    obtain ⟨v, hv, rfl⟩ := (found_iff hr).mp ha
    obtain ⟨nx, hl⟩ := hload hv
    rw [hl] at hf
    cases hf
    exact ⟨hc, v, hv, hover⟩
  · rintro ⟨hc, v, hv, hover⟩
    obtain ⟨nx, hl⟩ := hload hv
    exact ⟨hc, v.addr, v.record nx, (found_iff hr).mpr ⟨v, hv, rfl⟩, hl, hover⟩

/-- A file counted once more is the one the open counted, and the counter had room for it. -/
private theorem addsOneRef_inv {h h' : Heap FsFile} {fd : Addr} {d : Int32}
    (hr : Rep list h (k₁ ++ v :: k₂) []) (hv : v.addr = fd)
    (hr' : Rep list h' (k₁ ++ v.counted v.len (v.ref + 1) d :: k₂) [])
    (hadds : AddsOneRef list h h' flags fd) : (v.ref + 1).toInt = v.ref.toInt + 1 := by
  obtain ⟨l₁, u, l₂, ref, d', hu, hru, href, _, horigin⟩ := hadds
  obtain ⟨rfl, hx, rfl⟩ := split_eq hr'.nodup_addr (hr'.unique hru) (hu.trans hv.symm)
  have hcount : ref = v.ref + 1 := congrArg FileView.ref hx
  rcases horigin with hro | ⟨rfl, _, _, hro⟩
  · obtain ⟨_, rfl, _⟩ := split_eq hr.nodup_addr (hr.unique hro) (hu.trans hv.symm)
    rw [← hcount, href]
  · have hlen := congrArg List.length (hr.unique hro)
    simp at hlen

/-- An open that counts a handle where the counter has no room for it does not add one. -/
private theorem overflows_fails (hs : Sound w l) (ha : AllOrNothing w z base flags answers) :
    ¬ Overflows w z flags := by
  have hrep : Rep w.list (w.begin answers).heap l [] := hs.rep
  obtain ⟨rc, file, out, m', he, _, hok⟩ := ha
  rw [overflows_iff hs.rep]
  rintro ⟨hc, v, hv, hover⟩
  obtain rfl : rc = .ok := by
    obtain ⟨_, _, _, _, he', hto⟩ := cOpen_spec hrep z base flags
    rw [he] at he'
    cases he'
    rcases hto with ⟨_, hnone | hcreate, _⟩ | ⟨hrc, _⟩
    · rw [hv] at hnone
      cases hnone
    · exact absurd hcreate hc
    · exact hrc
  have hadds := hok rfl
  obtain ⟨k₁, u, k₂, hu, ho, hres⟩ := cOpen_ok hrep he
  cases ho with
  | fresh hnone _ _ =>
    rw [hv] at hnone
    cases hnone
  | existing hl hx _ =>
    subst hl
    rw [hv] at hx
    cases hx
    rcases hres with ⟨d, _, hr', hnz⟩ | ⟨_, _, _, hr'⟩
    · have hroom := addsOneRef_inv hrep hu hr' hadds
      rcases hover with hmax | ⟨hneg, hdel⟩
      · have hlt := (v.ref + 1).toInt_lt
        omega
      · exact hnz hv hdel (by rw [hneg]; rfl)
    · obtain ⟨l₁, x, l₂, ref, d, hx, hrx, _⟩ := hadds
      apply not_mem_removed hrep.nodup_addr
      rw [hr'.unique hrx, hu, ← hx]
      simp [FileView.counted]

/-- In every state, every open returns and is all or nothing, unless it counts a handle where
the counter has no room for it. -/
theorem all_or_nothing_iff (hr : system.Reach (fun _ _ ↦ True) w) :
    AllOrNothing w z base flags answers ↔ ¬ Overflows w z flags := by
  obtain ⟨l, hs⟩ := reach_sound hr
  constructor
  · exact overflows_fails hs
  · rw [overflows_iff hs.rep]
    intro hroom
    have hrep : Rep w.list (w.begin answers).heap l [] := hs.rep
    obtain ⟨rc, file, out, m', he, _⟩ := cOpen_spec hrep z base flags
    have hheap := cOpen_failed_heap hrep he
    refine ⟨rc, file, out, m', he, fun hrc ↦ ⟨hheap hrc, (cOpen_failed hrep he hrc).1⟩, ?_⟩
    rintro rfl
    obtain ⟨k₁, v, k₂, hv, ho, hres⟩ := cOpen_ok hrep he
    have hlt : v.ref.toInt < 2 ^ 31 - 1 := by
      have hle := v.ref.toInt_lt
      cases ho with
      | existing _ hf hc =>
        by_contra hge
        exact hroom ⟨hc, v, hf, .inl (by omega)⟩
      | fresh _ hnew _ =>
        rw [hnew.ref]
        decide
    rcases hres with ⟨d, hd, hr', _⟩ | ⟨hf, hdel, hz, _⟩
    · have hadd : (v.ref + 1).toInt = v.ref.toInt + 1 :=
        toInt_add32 _ _ (by have := v.ref.le_toInt; change _ ≤ _ + 1; omega)
          (by change _ + 1 < _; omega)
      refine ⟨k₁, v, k₂, v.ref + 1, d, hv, hr', hadd, hd, ?_⟩
      cases ho with
      | existing hl _ _ => exact .inl (hl ▸ hs.rep)
      | fresh _ hnew _ => exact .inr ⟨rfl, hnew.len, hnew.ref, hs.rep⟩
    · cases ho with
      | existing _ _ hc =>
        exact absurd ⟨hc, v, hf, .inr ⟨by grind, hdel⟩⟩ hroom
      | fresh hnone _ _ =>
        rw [hf] at hnone
        cases hnone

end

/-! ### The counter at its limit -/

/-- The file `a` counts so many handles, and the handles from that number on are free. -/
def OpenedTimes (w : World) (n : Nat) : Prop :=
  (∃ a f, Found w nameA a ∧ w.mem.load a = .ok f ∧ f.ref.toInt = n) ∧ ∀ p ∈ w.handles, p.1 < n

/-- While the counter has room, the file `a` can be opened once more. -/
private theorem openedTimes_succ {w : World} {n : Nat} (hn : n < 2 ^ 31 - 1)
    (hr : system.Reach (fun _ _ ↦ True) w) (ho : OpenedTimes w n) :
    ∃ w', system.Reach (fun _ _ ↦ True) w' ∧ OpenedTimes w' (n + 1) := by
  obtain ⟨⟨a, f, ha, hf, href⟩, hfree⟩ := ho
  obtain ⟨l, hs⟩ := reach_sound hr
  obtain ⟨v, hv, rfl⟩ := (found_iff hs.rep).mp ha
  have hrep : Rep w.list (w.begin []).heap l [] := hs.rep
  have hnone : w.handle? n = none := by
    rw [World.handle?, List.lookup_eq_none_iff]
    intro p hp
    have hne : n ≠ p.1 := (hfree p hp).ne'
    simpa using hne
  obtain ⟨rc, file, out, m', he, hto⟩ := cOpen_spec hrep nameA ⟨false, none, 0⟩ 0
  obtain rfl : rc = .ok := by
    rcases hto with ⟨_, hl | hc, _⟩ | ⟨hrc, _⟩
    · rw [hv] at hl
      cases hl
    · exact absurd rfl hc.1
    · exact hrc
  have hstep : w.step ⟨.xOpen n (some nameA) 0, []⟩ =
      .ok (.status .ok, ⟨w.list, m', (n, file) :: w.handles⟩) := by
    simp only [World.step, hnone, he, ok_bind, ↓reduceIte]
  refine ⟨_, .next hr trivial ⟨_, hstep⟩, ?_, ?_⟩
  · obtain ⟨k₁, u, k₂, _, horigin, hres⟩ := cOpen_ok hrep he
    cases horigin with
    | fresh hl _ _ =>
      rw [hv] at hl
      cases hl
    | existing hl hx _ =>
      subst hl
      rw [hv] at hx
      cases hx
      obtain ⟨nx, hload, _⟩ := counters_spec hs.rep
      rw [hload] at hf
      cases hf
      rcases hres with ⟨d, _, hr', _⟩ | ⟨_, hdel, _⟩
      · obtain ⟨nx', hload', _⟩ := counters_spec hr'
        refine ⟨v.addr, _, (found_iff hr').mpr ⟨v.counted v.len (v.ref + 1) d, ?_, rfl⟩, hload', ?_⟩
        · exact lookup_counted hs.rep.nodup_addr hv
        · have hcount : v.ref.toInt = n := href
          change (v.ref + 1).toInt = _
          have h1 : (1 : Int32).toInt = 1 := rfl
          rw [toInt_add32 _ _ (by omega) (by omega), hcount]
          rfl
      · exact absurd rfl hdel
  · intro p hp
    rcases List.mem_cons.mp hp with rfl | hp
    · exact Nat.lt_succ_self n
    · exact Nat.lt_succ_of_lt (hfree p hp)

/-- The file `a` is open once. -/
private theorem openedTimes_one :
    ∃ w, system.Reach (fun _ _ ↦ True) w ∧ OpenedTimes w 1 := by
  obtain ⟨w, hr, hp⟩ := exists_of_checks (fun _ _ ↦ True) [filled 100 0] [createA]
    (fun w ↦ (w.handles.all fun p ↦ p.1 < 1) &&
      passes (fsFindFile w.list w.mem (some nameA)) fun a ↦
        a ≠ 0 && passes (w.mem.load a) fun f ↦ f.ref = 1) (by decide +kernel)
    fun _ _ _ ↦ trivial
  simp only [Bool.and_eq_true, decide_eq_true_eq, passes_iff, List.all_eq_true] at hp
  obtain ⟨hfree, a, hf, h0, f, hl, href⟩ := hp
  exact ⟨w, hr, ⟨a, f, ⟨h0, hf⟩, hl, by rw [href]; rfl⟩, hfree⟩

/-- The file `a` open `2 ^ 31 - 1` times has no room in its counter for another handle, and
the open that succeeds does not count it. -/
theorem not_all_or_nothing : ¬ ∀ w, system.Reach (fun _ _ ↦ True) w →
    ∀ z base flags answers, AllOrNothing w z base flags answers := by
  intro hall
  have hmany (n : Nat) (h1 : 1 ≤ n) : n ≤ 2 ^ 31 - 1 →
      ∃ w, system.Reach (fun _ _ ↦ True) w ∧ OpenedTimes w n := by
    induction n, h1 using Nat.le_induction with
    | base => exact fun _ ↦ openedTimes_one
    | succ n _ ih =>
      intro hn
      obtain ⟨w, hr, ho⟩ := ih (by omega)
      exact openedTimes_succ (by omega) hr ho
  obtain ⟨w, hr, ⟨a, f, ha, hf, href⟩, _⟩ := hmany (2 ^ 31 - 1) (by norm_num) le_rfl
  obtain ⟨l, hs⟩ := reach_sound hr
  apply overflows_fails hs (hall w hr nameA ⟨false, none, 0⟩ 0 [])
  exact ⟨fun hc ↦ hc.1 rfl, a, f, ha, hf, .inl (by rw [href]; norm_num)⟩

/-- With the file `a` open once, an open of it adds one handle or fails without a trace. -/
theorem all_or_nothing_iff_openA : ∃ w, system.Reach (fun _ _ ↦ True) w ∧
    ∀ answers, AllOrNothing w nameA ⟨false, none, 0⟩ sqliteOpenDeleteonclose answers := by
  obtain ⟨w, hr, ⟨a, f, ha, hf, href⟩, _⟩ := openedTimes_one
  refine ⟨w, hr, fun answers ↦ (all_or_nothing_iff hr).mpr ?_⟩
  rintro ⟨_, b, g, hb, hg, hover⟩
  have hab := ha.2.symm.trans hb.2
  cases hab
  rw [hf] at hg
  cases hg
  rcases hover with hmax | ⟨hneg, _⟩
  · omega
  · rw [hneg] at href
    exact absurd href (by decide)

end SqliteComposite.Vfs
