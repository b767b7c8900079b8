import SqliteComposite.Vfs.Opening

/-!
# Creating and exclusive opens

`cOpen` refuses a name that exists when it must be created. A name that does not exist is
created by every open, whether or not `SQLITE_OPEN_CREATE` is set.
-/

namespace SqliteComposite.Vfs

open Base Inmemfs

/-- A new file can be made: the requests for its struct, its buffer and its name are
granted, one after the other. -/
def RoomForNew (m : FsMem) (z : CStr) : Prop :=
  (fsMalloc m (Int32.ofNat sizeofFsFile)).1 ≠ 0 ∧
    (fsMalloc (fsMalloc m (Int32.ofNat sizeofFsFile)).2 initialBufDataSize).1 ≠ 0 ∧
    (fsMalloc (fsMalloc (fsMalloc m (Int32.ofNat sizeofFsFile)).2 initialBufDataSize).2
      (Int32.ofNat (min z.length maxPathname + 1))).1 ≠ 0

instance (m : FsMem) (z : CStr) : Decidable (RoomForNew m z) := by
  unfold RoomForNew
  infer_instance

/-- The open honours `SQLITE_OPEN_CREATE` and `SQLITE_OPEN_EXCLUSIVE`. -/
def Honours (w : World) (z : CStr) (base : CFile) (flags : Int32)
    (answers : List (Option Grant)) : Prop :=
  ∃ rc file out m', cOpen w.list (w.begin answers) (some z) base flags =
      .ok (rc, file, out, m') ∧
    (CreatesOnly flags ∧ (∃ a, Found w z a) → rc ≠ .ok) ∧
    (flags &&& sqliteOpenCreate = 0 ∧ (¬ ∃ a, Found w z a) → rc ≠ .ok ∧ m'.heap = w.mem.heap) ∧
    (¬ (CreatesOnly flags ∧ ∃ a, Found w z a) →
      (flags &&& sqliteOpenCreate ≠ 0 ∨ ∃ a, Found w z a) →
      rc = .ok ∧ Found { w with mem := m' } z file.fd ∧
      (∀ a, Found w z a → file.fd = a ∧ SameContents w { w with mem := m' } a) ∧
      ((¬ ∃ a, Found w z a) → ¬ Linked w file.fd ∧ HasSize { w with mem := m' } file 0))

section

variable {list : Addr} {m m' : FsMem} {l k₁ k₂ : List FileView} {v : FileView} {z : CStr}
  {base file : CFile} {flags out : Int32} {rc : Rc} {w : World} {answers : List (Option Grant)}

/-- No file is refused whose three blocks are granted. -/
theorem fsFileAlloc_granted (hroom : RoomForNew m z) :
    fsFileAlloc list m (some z) ≠ .ok (0, m') := by
  intro he
  obtain ⟨h₁, h₂, h₃⟩ := hroom
  rw [fsFileAlloc] at he
  generalize fsMalloc m (Int32.ofNat sizeofFsFile) = y₁ at he h₁ h₂ h₃
  obtain ⟨file, m₁⟩ := y₁
  simp only [if_neg h₁] at he
  generalize fsMalloc m₁ initialBufDataSize = y₂ at he h₂ h₃
  obtain ⟨buf, m₂⟩ := y₂
  simp only [if_neg h₂] at he
  obtain ⟨⟨nm, m₃⟩, hcopy, he⟩ := bind_ok he
  have hnm : nm ≠ 0 := by
    have hlen := boundedLen_eq (reads_readName z) maxPathname 0 (Nat.zero_le _)
    rw [Nat.zero_add] at hlen
    rw [fsCopystring, hlen] at hcopy
    simp only [ok_bind] at hcopy
    generalize fsMalloc m₂ (Int32.ofNat (min z.length maxPathname + 1)) = y₃ at hcopy h₃
    obtain ⟨newStr, m₄⟩ := y₃
    simp only [if_neg h₃] at hcopy
    obtain ⟨_, _, hcopy⟩ := bind_ok hcopy
    obtain ⟨_, _, hcopy⟩ := bind_ok hcopy
    cases hcopy
    exact h₃
  simp only [if_neg hnm] at he
  obtain ⟨_, _, he⟩ := bind_ok he
  obtain ⟨_, _, he⟩ := bind_ok he
  cases he
  exact h₁ rfl

/-- A name is found when a file of the list is. -/
private theorem exists_found_iff (hr : Rep w.list w.mem.heap l []) :
    (∃ a, Found w z a) ↔ ∃ v, lookup l z = some v := by
  constructor
  · rintro ⟨a, ha⟩
    obtain ⟨v, hv, _⟩ := (found_iff hr).mp ha
    exact ⟨v, hv⟩
  · rintro ⟨v, hv⟩
    exact ⟨v.addr, (found_iff hr).mpr ⟨v, hv, rfl⟩⟩

/-- An open that has its memory fails only on a name that exists and must be created. -/
private theorem cOpen_granted (hs : Sound w l)
    (hroom : (¬ ∃ a, Found w z a) → RoomForNew (w.begin answers) z)
    (he : cOpen w.list (w.begin answers) (some z) base flags = .ok (rc, file, out, m'))
    (hrc : rc ≠ .ok) : CreatesOnly flags ∧ ∃ a, Found w z a := by
  have hrep : Rep w.list (w.begin answers).heap l [] := hs.rep
  obtain ⟨_, ⟨hc, hsome, _⟩ | ⟨hnone, ha⟩⟩ := cOpen_failed hrep he hrc
  · exact ⟨hc, (exists_found_iff hs.rep).mpr (Option.isSome_iff_exists.mp hsome)⟩
  · refine absurd ha (fsFileAlloc_granted (hroom ?_))
    rw [exists_found_iff hs.rep, hnone]
    exact nofun

/-- An open that does not find the name creates it without being asked to. -/
private theorem not_honours_absent (hs : Sound w l) (hf : ¬ ∃ a, Found w z a)
    (hcreate : flags &&& sqliteOpenCreate = 0) (hroom : RoomForNew (w.begin answers) z) :
    ¬ Honours w z base flags answers := by
  rintro ⟨rc, file, out, m', he, _, habsent, _⟩
  have hfound := cOpen_granted hs (fun _ ↦ hroom) he (habsent ⟨hcreate, hf⟩).1
  exact hf hfound.2

/-- An open that makes the count zero and marks the file removes it. -/
private theorem not_honours_removed {a : Addr} {f : FsFile} (hs : Sound w l)
    (ha : Found w z a) (hl : w.mem.load a = .ok f) (hneg : f.ref = -1)
    (hc : ¬ CreatesOnly flags) (hdel : flags &&& sqliteOpenDeleteonclose ≠ 0) :
    ¬ Honours w z base flags answers := by
  have hrep : Rep w.list (w.begin answers).heap l [] := hs.rep
  rintro ⟨rc, file, out, m', he, _, _, hok⟩
  obtain ⟨rfl, hfound, _⟩ := hok (fun h ↦ hc h.1) (.inr ⟨a, ha⟩)
  obtain ⟨v, hv, rfl⟩ := (found_iff hs.rep).mp ha
  obtain ⟨k₁, u, k₂, hu, ho, hres⟩ := cOpen_ok hrep he
  cases ho with
  | fresh hnone _ _ =>
    rw [hv] at hnone
    cases hnone
  | existing hl₁ hx _ =>
    subst hl₁
    rw [hv] at hx
    cases hx
    obtain ⟨nx, hload, _⟩ := counters_spec hs.rep
    rw [hload] at hl
    cases hl
    rcases hres with ⟨d, _, _, hnz⟩ | ⟨_, _, _, hr'⟩
    · have href : v.ref = -1 := hneg
      exact hnz hv hdel (by rw [href]; rfl)
    · obtain ⟨x, hx, hxa⟩ := (found_iff (w := { w with mem := m' }) hr').mp hfound
      obtain ⟨_, l₁, l₂, he', _⟩ := lookup_some hx
      apply not_mem_removed hrep.nodup_addr
      rw [hu, ← hxa, he']
      simp

/-- An open that counts a handle on the file it finds leaves the contents of that file. -/
private theorem opens_existing {ref d : Int32} (hs : Sound w (k₁ ++ v :: k₂))
    (hf : lookup (k₁ ++ v :: k₂) z = some v) (hfd : v.addr = file.fd)
    (hd : d = v.deleteOnClose ∨ flags &&& sqliteOpenDeleteonclose ≠ 0 ∧ d = 1)
    (hr' : Rep w.list m'.heap (k₁ ++ v.counted v.len ref d :: k₂) []) :
    Found { w with mem := m' } z file.fd ∧
      (∀ a, Found w z a → file.fd = a ∧ SameContents w { w with mem := m' } a) ∧
      ((¬ ∃ a, Found w z a) → ¬ Linked w file.fd ∧ HasSize { w with mem := m' } file 0) := by
  refine ⟨?_, ?_, fun hno ↦ absurd ((exists_found_iff hs.rep).mpr ⟨v, hf⟩) hno⟩
  · exact (found_iff (w := { w with mem := m' }) hr').mpr
      ⟨_, lookup_counted hs.rep.nodup_addr hf, hfd⟩
  · intro a ha
    obtain ⟨u, hu, rfl⟩ := (found_iff hs.rep).mp ha
    rw [hf] at hu
    cases hu
    refine ⟨hfd.symm, sameContents_of_view hs.rep hr' rfl ⟨_, d, rfl, ?_⟩⟩
    rcases hd with rfl | ⟨_, rfl⟩
    · exact id
    · exact fun _ ↦ by decide

/-- An open that makes a new file makes an empty one, which is found under the name. -/
private theorem opens_fresh {ref d : Int32} (hs : Sound w l) (hz : z.length < maxPathname)
    (hf : lookup l z = none) (hv : v.IsNew z) (hfresh : v.addr ∉ l.map FileView.addr)
    (hfd : v.addr = file.fd)
    (hr' : Rep w.list m'.heap (v.counted v.len ref d :: l) []) :
    Found { w with mem := m' } z file.fd ∧
      (∀ a, Found w z a → file.fd = a ∧ SameContents w { w with mem := m' } a) ∧
      ((¬ ∃ a, Found w z a) → ¬ Linked w file.fd ∧ HasSize { w with mem := m' } file 0) := by
  have hname : v.Named z := ⟨hv.name.trans (z.take_of_le _ hz.le), hz⟩
  have hx : lookup (v.counted v.len ref d :: l) z = some (v.counted v.len ref d) :=
    List.find?_cons_of_pos (decide_eq_true hname)
  refine ⟨(found_iff (w := { w with mem := m' }) hr').mpr ⟨_, hx, hfd⟩, ?_, fun _ ↦ ⟨?_, ?_⟩⟩
  · intro a ha
    obtain ⟨u, hu, _⟩ := (found_iff hs.rep).mp ha
    rw [hf] at hu
    cases hu
  · exact fun hlink ↦ hfresh (hfd ▸ (linked_iff_mem hs.rep).mp hlink)
  · have hr₁ : Rep w.list m'.heap ([] ++ v.counted v.len ref d :: l) [] := hr'
    exact (hasSize_iff (w := { w with mem := m' }) hr₁ hfd).mpr hv.len.symm

/-- An open with memory for a new file honours `SQLITE_OPEN_CREATE` and
`SQLITE_OPEN_EXCLUSIVE` exactly if the name exists or may be created, and the open does not
remove the file because its count becomes zero. -/
theorem honours_iff (hr : system.Reach (fun _ _ ↦ True) w) (hz : z.length < maxPathname)
    (hroom : (¬ ∃ a, Found w z a) → RoomForNew (w.begin answers) z) :
    Honours w z base flags answers ↔
      (flags &&& sqliteOpenCreate ≠ 0 ∨ ∃ a, Found w z a) ∧
      ¬ (¬ CreatesOnly flags ∧ flags &&& sqliteOpenDeleteonclose ≠ 0 ∧
        ∃ a f, Found w z a ∧ w.mem.load a = .ok f ∧ f.ref = -1) := by
  obtain ⟨l, hs⟩ := reach_sound hr
  have hrep : Rep w.list (w.begin answers).heap l [] := hs.rep
  constructor
  · intro hh
    constructor
    · by_contra hno
      rw [not_or, not_not] at hno
      exact not_honours_absent hs hno.2 hno.1 (hroom hno.2) hh
    · rintro ⟨hc, hdel, a, f, ha, hl, hneg⟩
      exact not_honours_removed hs ha hl hneg hc hdel hh
  · rintro ⟨hmay, hkept⟩
    obtain ⟨rc, file, out, m', he, _⟩ := cOpen_spec hrep z base flags
    have hfail := fun hrc ↦ cOpen_granted hs hroom he hrc
    refine ⟨rc, file, out, m', he, ?_, ?_, ?_⟩
    · rintro ⟨hc, hf⟩
      obtain ⟨v, hv⟩ := (exists_found_iff hs.rep).mp hf
      rw [cOpen_exclusive hrep hv hc] at he
      cases he
      exact nofun
    · rintro ⟨hcreate, hf⟩
      exact (hmay.elim (absurd hcreate) hf).elim
    · intro hne _
      obtain rfl : rc = .ok := by
        by_contra hrc
        exact hne (hfail hrc)
      obtain ⟨k₁, v, k₂, hv, ho, ⟨d, hd, hr', _⟩ | ⟨hf, hdel, h0, _⟩⟩ := cOpen_ok hrep he
      · cases ho with
        | existing hl hf _ =>
          subst hl
          exact ⟨rfl, opens_existing hs hf hv hd hr'⟩
        | fresh hnone hnew hfresh => exact ⟨rfl, opens_fresh hs hz hnone hnew hfresh hv hr'⟩
      · cases ho with
        | existing hl _ hc =>
          subst hl
          obtain ⟨nx, hload, _⟩ := counters_spec hs.rep
          refine absurd ⟨hc, hdel, v.addr, _, ?_, hload, ?_⟩ hkept
          · exact (found_iff hs.rep).mpr ⟨v, hf, rfl⟩
          · change v.ref = -1
            grind
        | fresh hnone _ _ =>
          rw [hf] at hnone
          cases hnone

end

/-- In the filesystem as `fs_init` leaves it the name `a` is free, and there is memory for it. -/
private theorem emptyA : ∃ w, system.Reach (fun _ _ ↦ True) w ∧ (¬ ∃ a, Found w nameA a) ∧
    RoomForNew (w.begin createA.answers) nameA := by
  obtain ⟨w, hr, hp⟩ := exists_of_checks (fun _ _ ↦ True) [filled 100 0] []
    (fun w ↦ isNew w nameA && decide (RoomForNew (w.begin createA.answers) nameA))
    (by decide +kernel) fun _ _ _ ↦ trivial
  simp only [Bool.and_eq_true, decide_eq_true_eq] at hp
  obtain ⟨l, hs⟩ := reach_sound hr
  refine ⟨w, hr, ?_, hp.2⟩
  rw [exists_found_iff hs.rep, (isNew_iff hs.rep nameA).mp hp.1]
  exact nofun

/-- Without `SQLITE_OPEN_CREATE` the free name `a` is opened all the same, as a new file. -/
theorem not_honours : ¬ ∀ w, system.Reach (fun _ _ ↦ True) w → ∀ z base flags answers,
    z.length < maxPathname → ((¬ ∃ a, Found w z a) → RoomForNew (w.begin answers) z) →
    Honours w z base flags answers := by
  intro hall
  obtain ⟨w, hr, hf, hroom⟩ := emptyA
  obtain ⟨l, hs⟩ := reach_sound hr
  exact not_honours_absent hs hf rfl hroom
    (hall w hr nameA ⟨false, none, 0⟩ 0 createA.answers (by decide) fun _ ↦ hroom)

/-- With `SQLITE_OPEN_CREATE` the free name `a` is opened as it should be. -/
theorem honours_iff_createA : ∃ w, system.Reach (fun _ _ ↦ True) w ∧
    Honours w nameA ⟨false, none, 0⟩ sqliteOpenCreate createA.answers := by
  obtain ⟨w, hr, hf, hroom⟩ := emptyA
  refine ⟨w, hr, (honours_iff hr (by decide) fun _ ↦ hroom).mpr ⟨.inl (by decide), ?_⟩⟩
  rintro ⟨_, hdel, _⟩
  exact absurd rfl hdel

end SqliteComposite.Vfs
