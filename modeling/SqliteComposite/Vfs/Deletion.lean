import SqliteComposite.Vfs.Lifetime
import SqliteComposite.Vfs.Namespace

/-!
# When files are removed

A file is due for removal when its last handle is closed after its deletion was asked for,
or when it is deleted with no handle open. Files of short names are removed exactly then. A
file of a name that reaches `MAX_PATHNAME` is never removed: the deletion asked for does not
find it.
-/

namespace SqliteComposite.Vfs

open Base Inmemfs

/-- The filesystem is consistent with the open handles: the list from the sentinel ends,
passes no struct twice, and counts the handles on its files. -/
def Consistent (w : World) : Prop :=
  ∃ l, Rep w.list w.mem.heap l [] ∧ (w.list :: l.map FileView.addr).Nodup ∧ Held l w.handles

/-- The call closes the last handle on the file after its deletion was asked for, or deletes
its name with no handle open. -/
def Due (x : World × Log) (q : Request) (a : Addr) : Prop :=
  (∃ h file, q.call = .xClose h ∧ x.1.handle? h = some file ∧ file.fd = a ∧
    holders x.1.handles a = 1 ∧ (x.2 a).deletion = true) ∨
  ∃ z, q.call = .xDelete (some z) ∧ (x.2 a).name = z ∧ holders x.1.handles a = 0

/-- The call unlinks and frees the files due for removal and no others. -/
def RemovesDue (x : World × Log) (q : Request) (w' : World) : Prop :=
  ∀ a, Linked x.1 a →
    (Due x q a → ¬ Linked w' a ∧ a ∉ w'.mem.heap) ∧ (¬ Due x q a → Linked w' a)

/-- The state holds the files of `l`, its handles are counted, and the log is true. -/
structure Tracked (w : World) (l : List FileView) (g : Log) : Prop where
  sound : Sound w l
  held : Held l w.handles
  names : Names l g

section

variable {w w' : World} {l l' l₁ l₂ : List FileView} {v : FileView} {g : Log} {q : Request}
  {r : Reply} {a : Addr}

/-- Every call keeps the files, the open handles and the log in step. -/
theorem Tracked.step (ht : Tracked w l g) (hfew : FewHandles w q) (he : w.step q = .ok (r, w')) :
    ∃ l', StepTo l w.handles q.call r l' w'.handles ∧ Tracked w' l' (note w q w' g) := by
  obtain ⟨l', hst, hs', hn'⟩ := names_step ht.sound ht.names he
  exact ⟨l', hst, hs', ht.held.step ht.sound.rep.nodup_addr hfew hst, hn'⟩

/-- Every state of a recorded run with few handles is tracked. -/
theorem reach_tracked {x : World × Log}
    (hr : systemAsked.Reach (fun x q ↦ FewHandles x.1 q) x) : ∃ l, Tracked x.1 l x.2 := by
  apply hr.invariant (P := fun x ↦ ∃ l, Tracked x.1 l x.2)
  · rintro x ⟨hi, _⟩
    refine ⟨[], init_spec hi, ?_, by constructor <;> simp⟩
    rw [hi.1]
    constructor <;> simp
  · rintro x q y ⟨l, ht⟩ hfew ⟨⟨r, he⟩, hy⟩
    obtain ⟨l', _, ht'⟩ := ht.step hfew he
    exact ⟨l', hy ▸ ht'⟩

/-- The sentinel is none of the files. -/
theorem sentinel_nodup (hr : Rep w.list w.mem.heap l []) :
    (w.list :: l.map FileView.addr).Nodup := by
  rw [List.nodup_cons]
  refine ⟨fun hm ↦ ?_, hr.nodup_addr⟩
  obtain ⟨v, hv, ha⟩ := List.mem_map.mp hm
  obtain ⟨l₁, l₂, rfl⟩ := List.append_of_mem hv
  exact hr.addr_ne.1 ha.symm

/-- Deleting a name never fails. -/
theorem delete_status {z : CStr} {answers : List (Option Grant)} (hs : Sound w l)
    (he : w.step ⟨.xDelete (some z), answers⟩ = .ok (r, w')) : r = .status .ok := by
  have hr : Rep w.list (w.begin answers).heap l [] := hs.rep
  obtain ⟨m', l', hd, _⟩ := fsDelete_spec hr z
  simp only [World.step, cDelete, hd, ok_bind, ↓reduceIte] at he
  cases he
  rfl

/-- A call that makes a file due for removal succeeds. -/
private theorem Due.status (hs : Sound w l) (hd : Due (w, g) q a)
    (he : w.step q = .ok (r, w')) : r = .status .ok := by
  obtain ⟨c, answers⟩ := q
  rcases hd with ⟨h, file, rfl, hf, _⟩ | ⟨z, rfl, _⟩
  · simp only [World.step, World.through, hf, cClose] at he
    obtain ⟨_, hc, he⟩ := bind_ok he
    obtain ⟨m, _, hc⟩ := bind_ok hc
    cases hc
    cases he
    rfl
  · exact delete_status hs he

/-- Whether one file of a list is the one closed or deleted decides whether it is due. -/
private theorem due_iff_delete {z : CStr} (answers : List (Option Grant))
    (hh : Held l w.handles) (hn : Names l g) (hv : v ∈ l) :
    (Due (w, g) ⟨.xDelete (some z), answers⟩ v.addr ∧
      (g v.addr).name.length < maxPathname) ↔ v.Named z ∧ v.ref = 0 := by
  have hc := hh.counted v hv
  have hz : v.ref = 0 ↔ holders w.handles v.addr = 0 := by
    rw [← Int32.toInt_inj, hc, Int32.toInt_zero]
    exact Int.natCast_eq_zero
  rw [hn.named_iff hv, hz]
  constructor
  · rintro ⟨⟨h, file, hcall, _⟩ | ⟨y, hcall, hname, h0⟩, hlt⟩
    · cases hcall
    · cases hcall
      exact ⟨⟨hname, hname ▸ hlt⟩, h0⟩
  · rintro ⟨⟨hname, hlt⟩, h0⟩
    exact ⟨.inr ⟨z, rfl, hname, h0⟩, hname ▸ hlt⟩

private theorem due_iff_close {h : Nat} {file : CFile} (answers : List (Option Grant))
    (hh : Held l w.handles) (hn : Names l g) (hf : w.handle? h = some file) (hv : v ∈ l) :
    (Due (w, g) ⟨.xClose h, answers⟩ v.addr ∧ (g v.addr).name.length < maxPathname) ↔
      v.addr = file.fd ∧ v.ref - 1 = 0 ∧ v.deleteOnClose ≠ 0 := by
  have hc := hh.counted v hv
  have h1 : v.ref - 1 = 0 ↔ holders w.handles v.addr = 1 := by
    have h1 : (1 : Int32).toInt = 1 := rfl
    have hlt := v.ref.toInt_lt
    rw [← Int32.toInt_inj, toInt_sub32 _ _ (by omega) (by omega), h1, Int32.toInt_zero]
    omega
  rw [h1, hn.marked v hv]
  constructor
  · rintro ⟨⟨h', file', hcall, hf', ha, hone, hdel⟩ | ⟨y, hcall, _⟩, hlt⟩
    · cases hcall
      change w.handle? h = some file' at hf'
      rw [hf] at hf'
      cases hf'
      exact ⟨ha.symm, hone, hdel, hlt⟩
    · cases hcall
  · rintro ⟨ha, hone, hdel, hlt⟩
    exact ⟨.inl ⟨h, file, rfl, hf, ha.symm, hone, hdel⟩, hlt⟩

/-- Taking one file out of a list leaves the others. -/
private theorem removed_cases (hd : ((l₁ ++ v :: l₂).map FileView.addr).Nodup)
    (ha : a ∈ (l₁ ++ v :: l₂).map FileView.addr) :
    (a = v.addr ∧ a ∉ (l₁ ++ l₂).map FileView.addr) ∨
      (a ≠ v.addr ∧ a ∈ (l₁ ++ l₂).map FileView.addr) := by
  simp only [List.map_append, List.map_cons, List.nodup_append, List.nodup_cons,
    List.mem_append, List.mem_cons] at *
  grind

/-- Closing a handle takes its file out of the list when it was the last one on a file marked
for deletion. -/
private theorem closed_iff {list : Addr} {h h' : Heap FsFile} (hr : Rep list h l [])
    (hr' : Rep list h' l' []) (hc : CloseTo l a l') (hv : v ∈ l) :
    (v.addr ∉ l'.map FileView.addr ↔ v.addr = a ∧ v.ref - 1 = 0 ∧ v.deleteOnClose ≠ 0) ∧
      (v.addr ∉ l'.map FileView.addr → v.addr ∉ h') := by
  have hd := hr.nodup_addr
  have hmem := List.mem_map_of_mem (f := FileView.addr) hv
  cases hc with
  | @kept l₁ l₂ x hl ha hlast =>
    subst hl
    have hin : v.addr ∈ (l₁ ++ x.closed :: l₂).map FileView.addr := by
      simpa [FileView.closed, FileView.counted] using hmem
    refine ⟨iff_of_false (not_not.mpr hin) ?_, fun hout ↦ absurd hin hout⟩
    rintro ⟨hva, h1, hdel⟩
    have hvx : v = x := List.inj_on_of_nodup_map hd hv (by simp) (hva.trans ha.symm)
    exact hlast ⟨hvx ▸ h1, hvx ▸ hdel⟩
  | @removed l₁ l₂ x hl ha h1 hdel =>
    subst hl
    rcases removed_cases hd hmem with ⟨hvx, hout⟩ | ⟨hvx, hin⟩
    · obtain rfl : v = x := List.inj_on_of_nodup_map hd hv (by simp) hvx
      exact ⟨iff_of_true hout ⟨ha, h1, hdel⟩, fun _ ↦ hr.gone hr'⟩
    · exact ⟨iff_of_false (not_not.mpr hin) fun hdue ↦ hvx (hdue.1.trans ha.symm),
        fun hout ↦ absurd hin hout⟩

/-- Deleting a name takes the file found under it out of the list when no handle is on it. -/
private theorem deleted_iff {list : Addr} {h h' : Heap FsFile} {z : CStr} (hr : Rep list h l [])
    (hr' : Rep list h' l' []) (hn : Names l g) (hdel : DeleteTo l z l') (hv : v ∈ l) :
    (v.addr ∉ l'.map FileView.addr ↔ v.Named z ∧ v.ref = 0) ∧
      (v.addr ∉ l'.map FileView.addr → v.addr ∉ h') := by
  have hd := hr.nodup_addr
  have hmem := List.mem_map_of_mem (f := FileView.addr) hv
  cases hdel with
  | absent hf =>
    exact ⟨iff_of_false (not_not.mpr hmem) fun hdue ↦ lookup_none.mp hf v hv hdue.1,
      fun hout ↦ absurd hmem hout⟩
  | @removed l₁ l₂ x hl hf hz =>
    subst hl
    have hzx := (lookup_some hf).1
    rcases removed_cases hd hmem with ⟨hvx, hout⟩ | ⟨hvx, hin⟩
    · obtain rfl : v = x := List.inj_on_of_nodup_map hd hv (by simp) hvx
      exact ⟨iff_of_true hout ⟨hzx, hz⟩, fun _ ↦ hr.gone hr'⟩
    · exact ⟨iff_of_false (not_not.mpr hin) fun hdue ↦
        hvx (hn.named_addr hv (by simp) hdue.1 hzx), fun hout ↦ absurd hin hout⟩
  | @deferred l₁ l₂ x hl hf hz =>
    subst hl
    have hx : x ∈ l₁ ++ x :: l₂ := by simp
    have hin : v.addr ∈ (l₁ ++ x.doomed :: l₂).map FileView.addr := by
      simpa [FileView.doomed, FileView.counted] using hmem
    refine ⟨iff_of_false (not_not.mpr hin) ?_, fun hout ↦ absurd hin hout⟩
    rintro ⟨hzv, h0⟩
    have ha := hn.named_addr hv hx hzv (lookup_some hf).1
    exact hz (List.inj_on_of_nodup_map hd hv hx ha ▸ h0)

/-- Opening a name, also one to be deleted on close, takes no file out of the list. -/
private theorem opened_mem {hs : List (Nat × CFile)} {h : Nat} {z : CStr} {b : Addr}
    (hd : (l.map FileView.addr).Nodup) (hh : Held l hs) (hn : Names l g)
    (hfew : hs.length + 1 < 2 ^ 31) (hfree : hs.lookup h = none) (ho : OpenTo l z b l₁)
    (h0 : b ≠ 0) (hdel : DeleteTo l₁ z l') (ha : a ∈ l₁.map FileView.addr) :
    a ∈ l'.map FileView.addr := by
  have hh₁ : Held l₁ ((h, ⟨true, some z, b⟩) :: hs) := hh.openTo hd hfew hfree ho h0 rfl
  obtain ⟨hn₁, hb⟩ := hn.openTo ho h0
  cases hdel with
  | absent _ => exact ha
  | @removed k₁ k₂ x hl hf hz =>
    -- The file found is the one just opened, and has a handle.
    subst hl
    have hx : x ∈ k₁ ++ x :: k₂ := by simp
    obtain ⟨y, hy, rfl⟩ := List.mem_map.mp hb
    have hzx := (lookup_some hf).1
    have hxy : x.addr = y.addr := by
      apply hn₁.named_addr hx hy hzx
      rw [hn₁.named_iff hy, Function.update_self]
      exact ⟨rfl, hzx.2⟩
    have hc := hh₁.counted x hx
    rw [hz, holders_cons, if_pos hxy.symm, Int32.toInt_zero] at hc
    omega
  | deferred hl _ _ =>
    subst hl
    simpa [FileView.doomed, FileView.counted] using ha

/-- A file leaves the list in one call exactly when it is due and its name is short. -/
theorem removed_iff (ht : Tracked w l g) (hfew : FewHandles w q) (he : w.step q = .ok (r, w'))
    (hlink : Linked w a) :
    ((¬ Linked w' a ↔ Due (w, g) q a ∧ (g a).name.length < maxPathname)) ∧
      (¬ Linked w' a → a ∉ w'.mem.heap) := by
  obtain ⟨hs, hh, hn⟩ := ht
  obtain ⟨l', hst, hs', hlist⟩ := step_spec hs he
  have hr' : Rep w.list w'.mem.heap l' [] := hlist ▸ hs'.rep
  have hmem := (linked_iff_mem hs.rep).mp hlink
  obtain ⟨v, hv, rfl⟩ := List.mem_map.mp hmem
  rw [linked_iff_mem hs'.rep]
  -- The file stays, and was not due.
  have hstay (hin : v.addr ∈ l'.map FileView.addr)
      (hdue : ¬ (Due (w, g) q v.addr ∧ (g v.addr).name.length < maxPathname)) :
      ((v.addr ∉ l'.map FileView.addr ↔ Due (w, g) q v.addr ∧
        (g v.addr).name.length < maxPathname)) ∧
        (v.addr ∉ l'.map FileView.addr → v.addr ∉ w'.mem.heap) :=
    ⟨iff_of_false (not_not.mpr hin) hdue, fun h ↦ absurd hin h⟩
  obtain ⟨c, answers⟩ := q
  generalize hhs : w'.handles = hs₁ at hst
  cases hst with
  | idle hne => exact hstay hmem fun hdue ↦ hne (hdue.1.status hs he)
  | rejected => exact hstay hmem (by rintro ⟨⟨_, _, ⟨⟩, _⟩ | ⟨_, ⟨⟩, _⟩, _⟩)
  | opened hfree ho h0 hdel =>
    refine hstay ?_ (by rintro ⟨⟨_, _, ⟨⟩, _⟩ | ⟨_, ⟨⟩, _⟩, _⟩)
    obtain ⟨u, hu, hua, _⟩ := (ho.recounted hs.rep.nodup_addr).2 v hv
    have hin := hua ▸ List.mem_map_of_mem (f := FileView.addr) hu
    split at hdel
    · exact opened_mem hs.rep.nodup_addr hh hn (hfew _ _ _ rfl) hfree ho h0 hdel hin
    · exact hdel ▸ hin
  | closed hf hc =>
    rw [due_iff_close answers hh hn hf hv]
    exact closed_iff hs.rep hr' hc hv
  | @through _ h file l₁ l₂ x u _ hl _ hfs =>
    subst hl
    apply hstay
    · simpa [hfs.addr_eq] using hmem
    · cases hfs <;> rintro ⟨⟨_, _, ⟨⟩, _⟩ | ⟨_, ⟨⟩, _⟩, _⟩
  | deletedNull => exact hstay hmem (by rintro ⟨⟨_, _, ⟨⟩, _⟩ | ⟨_, ⟨⟩, _⟩, _⟩)
  | deleted hdel =>
    rw [due_iff_delete answers hh hn hv]
    exact deleted_iff hs.rep hr' hn hdel hv

/-- A call removes the files that are due exactly when those all have short names. -/
theorem removesDue_iff (ht : Tracked w l g) (hfew : FewHandles w q)
    (he : w.step q = .ok (r, w')) : RemovesDue (w, g) q w' ↔
      ∀ a, Linked w a → Due (w, g) q a → (g a).name.length < maxPathname := by
  constructor
  · intro hrem a hlink hdue
    obtain ⟨hiff, _⟩ := removed_iff ht hfew he hlink
    exact (hiff.mp ((hrem a hlink).1 hdue).1).2
  · intro hshort a hlink
    obtain ⟨hiff, hgone⟩ := removed_iff ht hfew he hlink
    constructor
    · intro hdue
      have hout := hiff.mpr ⟨hdue, hshort a hlink hdue⟩
      exact ⟨hout, hgone hout⟩
    · intro hdue
      by_contra hout
      exact hdue (hiff.mp hout).1

/-- In every state of every run with few handles the filesystem is consistent, a named call
faults at most on a byte outside a buffer, and a call removes exactly the files that are due
if and only if those all have names shorter than `MAX_PATHNAME`. -/
theorem consistent_and_removesDue_iff {x : World × Log}
    (hr : systemAsked.Reach (fun x q ↦ FewHandles x.1 q) x) :
    Consistent x.1 ∧
      (∀ q f, q.call.Named → x.1.step q = .error f → f = .outOfBounds) ∧
      ∀ q r w', FewHandles x.1 q → x.1.step q = .ok (r, w') → (RemovesDue x q w' ↔
        ∀ a, Linked x.1 a → Due x q a → (x.2 a).name.length < maxPathname) := by
  obtain ⟨l, ht⟩ := reach_tracked hr
  refine ⟨⟨l, ht.sound.rep, sentinel_nodup ht.sound.rep, ht.held⟩, ?_, ?_⟩
  · exact fun q f hq he ↦ step_fault ht.sound ht.held hq he
  · exact fun q r w' hfew he ↦ removesDue_iff ht hfew he

end

/-- The file `longName` is deleted. -/
def deleteLong : Request := ⟨.xDelete (some longName), []⟩

/-- A file of a name of `MAX_PATHNAME` characters stays when it is deleted with no handle
open. -/
theorem not_removesDue : ¬ ∀ x, systemAsked.Reach (fun x q ↦ FewHandles x.1 q) x →
    ∀ q r w', FewHandles x.1 q → x.1.step q = .ok (r, w') → RemovesDue x q w' := by
  intro hall
  obtain ⟨x, a, hr, hempty, hlink, hname⟩ := exists_long (fun x q ↦ FewHandles x.1 q)
    (by
      intro x hx h zName flags _
      omega)
    (by rintro _ _ _ _ ⟨⟩)
  obtain ⟨l, ht⟩ := reach_tracked hr
  have hrep : Rep x.1.list (x.1.begin []).heap l [] := ht.sound.rep
  obtain ⟨m', l', hd, _⟩ := fsDelete_spec hrep longName
  have he : x.1.step deleteLong = .ok (.status .ok, { x.1 with mem := m' }) := by
    simp only [World.step, deleteLong, cDelete, hd, ok_bind, ↓reduceIte]
  have hfew : FewHandles x.1 deleteLong := by rintro _ _ _ ⟨⟩
  have hdue : Due x deleteLong a := .inr ⟨longName, rfl, hname, by simp [hempty, holders]⟩
  have hlt := (removesDue_iff ht hfew he).mp (hall x hr _ _ _ hfew he) a hlink hdue
  rw [hname, length_longName] at hlt
  exact lt_irrefl _ hlt

/-- After `a` is created the filesystem is consistent, and its calls remove what is due. -/
theorem consistent_and_removesDue_iff_createA : ∃ x : World × Log, x.1.handles.length = 1 ∧
    Consistent x.1 ∧ ∀ q r w', FewHandles x.1 q → x.1.step q = .ok (r, w') → (RemovesDue x q w' ↔
      ∀ a, Linked x.1 a → Due x q a → (x.2 a).name.length < maxPathname) := by
  obtain ⟨x, hr, hp⟩ := exists_of_checks_few note nothingAsked (fun x q ↦ FewHandles x.1 q)
    [filled 100 0] [createA] (fun x ↦ x.1.handles.length = 1) (by decide +kernel) (by
      intro q _ z hz h zName flags _
      simp only [List.length_singleton] at hz
      omega)
  obtain ⟨hc, _, hd⟩ := consistent_and_removesDue_iff hr
  exact ⟨x, of_decide_eq_true hp, hc, hd⟩

end SqliteComposite.Vfs
