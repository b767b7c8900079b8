import SqliteComposite.Vfs.Deletion

/-!
# Deletion of a file that is open

`fs_delete` removes a file no handle is on, and the name is free from then on until it is
created again. A file that is open is only marked: it stays the file of its name, for
`cAccess` and for `cOpen`, until its last handle is closed, which removes it.
-/

namespace SqliteComposite.Vfs

open Base Inmemfs

/-- `cAccess` reports whether the name exists. -/
def Reports (w : World) (z : CStr) (found : Bool) : Prop :=
  cAccess w.list w.mem (some z) = .ok (.ok, found)

/-- The call is an open of the name. -/
def Opens (z : CStr) (q : Request) : Prop := ∃ h flags, q.call = .xOpen h (some z) flags

/-- The call closes the last handle on the file. -/
def ClosesLast (w : World) (q : Request) (a : Addr) : Prop :=
  ∃ h file, q.call = .xClose h ∧ w.handle? h = some file ∧ file.fd = a ∧
    holders w.handles a = 1

/-- The call writes to the file and succeeds, or truncates it. -/
def Touches (w : World) (q : Request) (a : Addr) : Prop :=
  ∃ h file, w.handle? h = some file ∧ file.fd = a ∧
    ((∃ src n o w', q.call = .xWrite h src n o ∧ w.step q = .ok (.status .ok, w')) ∨
      ∃ size, q.call = .xTruncate h size)

/-- Size and reads of the file are as before. -/
def SameContents (w w' : World) (a : Addr) : Prop :=
  ∀ file : CFile, file.fd = a → cFileSize w'.mem file = cFileSize w.mem file ∧
    ∀ n o, cRead w'.mem file n o = cRead w.mem file n o

/-- The size of the file is as before, and whatever a read of it returned it returns. -/
def KeepsContents (w w' : World) (a : Addr) : Prop :=
  ∀ file : CFile, file.fd = a → cFileSize w'.mem file = cFileSize w.mem file ∧
    ∀ n o x, cRead w.mem file n o = .ok x → cRead w'.mem file n o = .ok x

/-- Whatever opens the name makes a new, empty file. -/
def OpensNew (w : World) (z : CStr) : Prop :=
  ∀ h flags answers w', w.step ⟨.xOpen h (some z) flags, answers⟩ = .ok (.status .ok, w') →
    ∃ file, w'.handle? h = some file ∧ ¬ Linked w file.fd ∧ Linked w' file.fd ∧
      HasSize w' file 0

/-- From here on the name does not exist until it is opened, which makes a new file. -/
def GoneFrom (w : World) (z : CStr) : Prop :=
  ∀ w', (system.startingAt w).Reach (fun w q ↦ FewHandles w q ∧ ¬ Opens z q) w' →
    Reports w' z false ∧ OpensNew w' z

/-- From here on the file is the one of the name until its last handle is closed, which
removes it. -/
def StaysFrom (w : World) (z : CStr) (a : Addr) : Prop :=
  ∀ w', (system.startingAt w).Reach (fun w q ↦ FewHandles w q ∧ ¬ ClosesLast w q a) w' →
    Found w' z a ∧ Reports w' z true ∧ Reopens w' z a ∧
    ∀ q, ClosesLast w' q a → ∃ w'', w'.step q = .ok (.status .ok, w'') ∧ ¬ Linked w'' a ∧
      GoneFrom w'' z

/-- Closing a handle succeeds and leaves every other file and its contents alone. -/
def ClosesAlone (w : World) : Prop :=
  ∀ h file answers, w.handle? h = some file →
    ∃ w', w.step ⟨.xClose h, answers⟩ = .ok (.status .ok, w') ∧
      ∀ b, b ≠ file.fd → Linked w b → Linked w' b ∧ SameContents w w' b

section

variable {w w' : World} {l l' l₁ l₂ l₃ l₄ : List FileView} {u v : FileView} {g : Log}
  {q : Request} {r : Reply} {z : CStr} {a : Addr}

/-- The name is reported when a file is found under it. -/
theorem reports_iff (hr : Rep w.list w.mem.heap l []) {found : Bool} :
    Reports w z found ↔ found = (lookup l z).isSome := by
  rw [Reports, cAccess, fsExists_spec hr, ok_bind]
  constructor
  · intro h
    injection h with h
    exact (congrArg Prod.snd h).symm
  · rintro rfl
    rfl

/-- The size of a listed file is its length. -/
private theorem cFileSize_eq {m : FsMem} {list : Addr} {file : CFile}
    (hr : Rep list m.heap (l₁ ++ v :: l₂) []) (hfd : file.fd = v.addr) :
    cFileSize m file = .ok (.ok, v.len) := by
  obtain ⟨nx, hv, _⟩ := counters_spec hr
  rw [cFileSize, hfd, hv, ok_bind]
  rfl

/-- A file that is only recounted shows the same. -/
theorem sameContents_of_view (hr : Rep w.list w.mem.heap (l₁ ++ v :: l₂) [])
    (hr' : Rep w'.list w'.mem.heap (l₃ ++ u :: l₄) []) (ha : u.addr = v.addr)
    (hvu : v.Recounted u) : SameContents w w' v.addr := by
  intro file hfd
  have hread (n : Int32) (o : Int64) := fsRead_recounted hr hr' hvu o n
  rw [cFileSize_eq hr hfd, cFileSize_eq hr' (hfd.trans ha.symm)]
  constructor
  · obtain ⟨ref, deleteOnClose, rfl, _⟩ := hvu
    rfl
  · intro n o
    rw [cRead, cRead, hfd, ← hread n o, ha]

/-- Contents that are as before are kept. -/
theorem SameContents.keeps (h : SameContents w w' a) : KeepsContents w w' a := by
  intro file hfd
  obtain ⟨hsize, hread⟩ := h file hfd
  exact ⟨hsize, fun n o x he ↦ (hread n o).trans he⟩

/-- Contents that are kept over two stretches of a run are kept over both. -/
theorem KeepsContents.trans {w'' : World} (h : KeepsContents w w' a)
    (h' : KeepsContents w' w'' a) : KeepsContents w w'' a := by
  intro file hfd
  obtain ⟨hsize, hread⟩ := h file hfd
  obtain ⟨hsize', hread'⟩ := h' file hfd
  exact ⟨hsize'.trans hsize, fun n o x he ↦ hread' n o x (hread n o x he)⟩

/-- A file whose buffer grew shows what it showed. -/
theorem keepsContents_of_kept (hr : Rep w.list w.mem.heap (l₁ ++ v :: l₂) [])
    (hr' : Rep w'.list w'.mem.heap (l₃ ++ u :: l₄) []) (hvu : v.Kept u) :
    KeepsContents w w' v.addr := by
  intro file hfd
  rw [cFileSize_eq hr hfd, cFileSize_eq hr' (hfd.trans hvu.addr.symm), hvu.len]
  refine ⟨rfl, fun n o x he ↦ ?_⟩
  obtain ⟨y, hy, he⟩ := bind_ok he
  rw [hfd] at hy
  have hkept := fsRead_kept hr hr' hvu hy
  rw [hvu.addr, ← hfd] at hkept
  rw [cRead, hkept, ok_bind]
  exact he

/-- A file is recounted by a call at most, or the call does something to it through a handle. -/
private theorem contents_step (hs : Sound w l) (he : w.step q = .ok (r, w')) (hlink : Linked w a)
    (hlink' : Linked w' a) : SameContents w w' a ∨ ∃ h file v u, w.handle? h = some file ∧
      file.fd = a ∧ r = .status .ok ∧ FileStep h v q.call u ∧
      (v.Kept u → KeepsContents w w' a) := by
  obtain ⟨l', hst, hs', _⟩ := step_spec hs he
  obtain ⟨l₁, v, l₂, rfl, rfl⟩ := (linked_iff hs.rep).mp hlink
  obtain ⟨l₃, u, l₄, rfl, hu⟩ := (linked_iff hs'.rep).mp hlink'
  rcases hst.file_cases hs.rep.nodup_addr (v := v) (u := u) (by simp) (by simp) hu with
    hvu | ⟨h, file, hf, hfd, hok, hfs⟩
  · exact .inl (sameContents_of_view hs.rep hs'.rep hu hvu)
  · exact .inr ⟨h, file, v, u, hf, hfd, hok, hfs, keepsContents_of_kept hs.rep hs'.rep⟩

/-- A call that does nothing to a file through a handle leaves all contents as they are. -/
theorem sameContents_step (hs : Sound w l) (he : w.step q = .ok (r, w')) (hlink : Linked w a)
    (hlink' : Linked w' a) (hc : ∀ h v u, ¬ FileStep h v q.call u) : SameContents w w' a := by
  rcases contents_step hs he hlink hlink' with hsame | ⟨h, _, v, u, _, _, _, hfs, _⟩
  · exact hsame
  · exact absurd hfs (hc h v u)

/-- A call that neither writes to the file nor truncates it keeps its contents. -/
theorem keepsContents_step (hs : Sound w l) (he : w.step q = .ok (r, w')) (hlink : Linked w a)
    (hlink' : Linked w' a) (ht : ¬ Touches w q a) : KeepsContents w w' a := by
  rcases contents_step hs he hlink hlink' with hsame | ⟨h, file, v, u, hf, hfd, rfl, hfs, hk⟩
  · exact hsame.keeps
  · generalize hcall : q.call = c at hfs
    cases hfs with
    | wrote _ _ _ _ => exact absurd ⟨h, file, hf, hfd, .inl ⟨_, _, _, w', hcall, he⟩⟩ ht
    | truncated => exact absurd ⟨h, file, hf, hfd, .inr ⟨_, hcall⟩⟩ ht
    | @hinted arg _ _ hg =>
      have hlt := arg.toInt_lt
      have hsz : arg.toInt64.toInt < 2 ^ 31 := by
        rw [Int32.toInt_toInt64]
        omega
      exact hk (hg.kept hsz)

/-! ### A name no file is found under -/

/-- Nothing but opening a name makes a file that is found under it. -/
theorem absent_step {hs hs' : List (Nat × CFile)} {c : Call} (hst : StepTo l hs c r l' hs')
    (hf : lookup l z = none) (ho : ∀ h flags, c ≠ .xOpen h (some z) flags) :
    lookup l' z = none := by
  rw [lookup_none] at hf ⊢
  apply hst.forall hf
  · exact fun v _ _ hv ↦ hv
  · intro h y flags v hc hv hz
    have hy : y = z := eq_of_take (hv.name ▸ hz.1) hz.2
    exact ho h flags (hy ▸ hc)
  · intro h file v u _ _ _ hfs _ hv hz
    exact hv ⟨hfs.name_eq ▸ hz.1, hz.2⟩

/-- Opening a name no file is found under makes a new file. -/
theorem opensNew (hs : Sound w l) (hf : lookup l z = none) : OpensNew w z := by
  intro h flags answers w' he
  obtain ⟨l', hst, hs', _⟩ := step_spec hs he
  generalize hhs : w'.handles = hs₁ at hst
  cases hst with
  | idle hne => exact absurd rfl hne
  | @opened _ _ _ a l₁ _ _ ho h0 hd =>
    refine ⟨⟨true, some z, a⟩, ?_, ?_⟩
    · rw [World.handle?, hhs, List.lookup_cons_self]
    cases ho with
    | found _ hf' =>
      rw [hf] at hf'
      cases hf'
    | @created v _ hv hfresh =>
      have hkept : ∃ u ∈ l', u.addr = v.addr ∧ u.len = 0 := by
        split at hd
        · rcases hd.of_created hs.rep.nodup_addr hf hv hfresh with rfl | rfl
          · exact ⟨v.opened, by simp, rfl, hv.len⟩
          · exact ⟨v.opened.doomed, by simp, rfl, hv.len⟩
        · subst hd
          exact ⟨v.opened, by simp, rfl, hv.len⟩
      obtain ⟨u, hu, ha, hlen⟩ := hkept
      refine ⟨fun hlink ↦ hfresh ((linked_iff_mem hs.rep).mp hlink), ?_, ?_⟩
      · exact (linked_iff_mem hs'.rep).mpr (ha ▸ List.mem_map_of_mem hu)
      · obtain ⟨l₁, l₂, rfl⟩ := List.append_of_mem hu
        exact (hasSize_iff hs'.rep ha).mpr hlen.symm
    | refused _ => exact absurd rfl h0
  | through _ _ _ hfs => cases hfs

/-- A name no file is found under is gone until it is opened. -/
theorem goneFrom (ht : Tracked w l g) (hf : lookup l z = none) : GoneFrom w z := by
  intro w' hr
  have hinv : ∃ l g, Tracked w' l g ∧ lookup l z = none := by
    apply hr.invariant (P := fun w ↦ ∃ l g, Tracked w l g ∧ lookup l z = none)
    · rintro w rfl
      exact ⟨l, g, ht, hf⟩
    · rintro w q w' ⟨l, g, ht, hf⟩ ⟨hfew, ho⟩ ⟨r, he⟩
      obtain ⟨l', hst, ht'⟩ := ht.step hfew he
      exact ⟨l', _, ht', absent_step hst hf fun h flags hc ↦ ho ⟨h, flags, hc⟩⟩
  obtain ⟨l', g', ht', hf'⟩ := hinv
  constructor
  · rw [reports_iff ht'.sound.rep, hf']
    rfl
  · exact opensNew ht'.sound hf'

/-- No file is found under the name of one that has left the list. -/
theorem absent_of_gone {hs hs' : List (Nat × CFile)} {c : Call}
    (hn : Names l g) (hst : StepTo l hs c r l' hs') (hv : v ∈ l) (hz : v.Named z)
    (ho : ∀ h z flags, c ≠ .xOpen h (some z) flags) (hout : v.addr ∉ l'.map FileView.addr) :
    lookup l' z = none := by
  have hall : ∀ u ∈ l', u.Named z → u.addr = v.addr := by
    apply hst.forall (P := fun u ↦ u.Named z → u.addr = v.addr)
    · exact fun u hu hzu ↦ hn.named_addr hu hv hzu hz
    · exact fun u _ _ hu ↦ hu
    · exact fun h y flags u hc ↦ absurd hc (ho h y flags)
    · intro h file x u _ _ _ hfs _ hx hzu
      rw [hfs.addr_eq]
      exact hx ⟨hfs.name_eq ▸ hzu.1, hzu.2⟩
  rw [lookup_none]
  intro u hu hzu
  exact hout (hall u hu hzu ▸ List.mem_map_of_mem hu)

/-! ### A file marked for deletion -/

/-- The file is found under the name and is marked for deletion. -/
def Marked (l : List FileView) (z : CStr) (a : Addr) : Prop :=
  ∃ v, lookup l z = some v ∧ v.addr = a ∧ v.deleteOnClose ≠ 0

/-- A file marked for deletion stays so until its last handle is closed. -/
theorem marked_step (ht : Tracked w l g) (hm : Marked l z a) (hfew : FewHandles w q)
    (hc : ¬ ClosesLast w q a) (he : w.step q = .ok (r, w')) :
    ∃ l', Tracked w' l' (note w q w' g) ∧ Marked l' z a := by
  obtain ⟨v, hf, rfl, hdel⟩ := hm
  obtain ⟨hz, l₁, l₂, hl, _⟩ := lookup_some hf
  have hv : v ∈ l := by simp [hl]
  have hlink := (linked_iff_mem ht.sound.rep).mpr (List.mem_map_of_mem hv)
  obtain ⟨l', hst, ht'⟩ := ht.step hfew he
  have hlink' : Linked w' v.addr := by
    by_contra hout
    obtain ⟨⟨h, file, hcall, hh, ha, hone, _⟩ | ⟨y, _, _, h0⟩, _⟩ :=
      (removed_iff ht hfew he hlink).1.mp hout
    · exact hc ⟨h, file, hcall, hh, ha, hone⟩
    · have hpos := ht.held.pending v hv hdel
      rw [ht.held.counted v hv] at hpos
      change holders w.handles v.addr = 0 at h0
      omega
  obtain ⟨l₃, u, l₄, rfl, hu⟩ := (linked_iff ht'.sound.rep).mp hlink'
  have hmem : u ∈ l₃ ++ u :: l₄ := by simp
  have hkept : u.name = v.name ∧ u.deleteOnClose ≠ 0 := by
    rcases hst.file_cases ht.sound.rep.nodup_addr hv hmem hu with
      ⟨ref, deleteOnClose, rfl, hkeep⟩ | ⟨_, _, _, _, _, hfs⟩
    · exact ⟨rfl, hkeep hdel⟩
    · exact ⟨hfs.name_eq, hfs.counters_eq.2 ▸ hdel⟩
  refine ⟨_, ht', u, ?_, hu, hkept.2⟩
  exact ht'.names.lookup_eq ht'.sound.rep.nodup_addr hmem ⟨hkept.1.trans hz.1, hz.2⟩

/-- Closing a handle succeeds. -/
theorem close_returns (ht : Tracked w l g) {h : Nat} {file : CFile}
    (hf : w.handle? h = some file) (answers : List (Option Grant)) :
    ∃ w', w.step ⟨.xClose h, answers⟩ = .ok (.status .ok, w') := by
  obtain ⟨v, hv, ha⟩ := List.mem_map.mp (ht.held.linked _ (World.handle?_mem hf))
  obtain ⟨l₁, l₂, rfl⟩ := List.append_of_mem hv
  have hr : Rep w.list (w.begin answers).heap (l₁ ++ v :: l₂) [] := ht.sound.rep
  obtain ⟨m', l', hc, _⟩ := fsClose_spec hr
  rw [ha] at hc
  exact ⟨_, by simp only [World.step, World.through, hf, cClose, hc, ok_bind]; rfl⟩

/-- Closing the last handle on a file marked for deletion removes it. -/
theorem marked_close (ht : Tracked w l g) (hm : Marked l z a) (hc : ClosesLast w q a) :
    ∃ w', w.step q = .ok (.status .ok, w') ∧ ¬ Linked w' a ∧ GoneFrom w' z := by
  obtain ⟨v, hf, rfl, hdel⟩ := hm
  obtain ⟨hz, l₁, l₂, hl, _⟩ := lookup_some hf
  obtain ⟨h, file, hcall, hh, ha, hone⟩ := hc
  obtain ⟨w', he⟩ : ∃ w', w.step q = .ok (.status .ok, w') := by
    obtain ⟨c, answers⟩ := q
    cases hcall
    exact close_returns ht hh answers
  have hv : v ∈ l := by simp [hl]
  have hlink := (linked_iff_mem ht.sound.rep).mpr (List.mem_map_of_mem hv)
  have hfew : FewHandles w q := by
    intro _ _ _ ho
    rw [hcall] at ho
    cases ho
  obtain ⟨hdeletion, hshort⟩ := (ht.names.marked v hv).mp hdel
  have hout : ¬ Linked w' v.addr :=
    (removed_iff ht hfew he hlink).1.mpr ⟨.inl ⟨h, file, hcall, hh, ha, hone, hdeletion⟩, hshort⟩
  obtain ⟨l', hst, ht'⟩ := ht.step hfew he
  refine ⟨w', he, hout, goneFrom ht' ?_⟩
  apply absent_of_gone ht.names hst hv hz
  · intro _ _ _ ho
    rw [hcall] at ho
    cases ho
  · exact fun hin ↦ hout ((linked_iff_mem ht'.sound.rep).mpr hin)

/-- A file marked for deletion stays the file of its name until its last handle is closed. -/
theorem staysFrom (ht : Tracked w l g) (hm : Marked l z a) : StaysFrom w z a := by
  intro w' hr
  have hinv : ∃ l g, Tracked w' l g ∧ Marked l z a := by
    apply hr.invariant (P := fun w ↦ ∃ l g, Tracked w l g ∧ Marked l z a)
    · rintro w rfl
      exact ⟨l, g, ht, hm⟩
    · rintro w q w' ⟨l, g, ht, hm⟩ ⟨hfew, hc⟩ ⟨r, he⟩
      obtain ⟨l', ht', hm'⟩ := marked_step ht hm hfew hc he
      exact ⟨l', _, ht', hm'⟩
  obtain ⟨l', g', ht', hm'⟩ := hinv
  obtain ⟨v, hf, ha, _⟩ := id hm'
  refine ⟨(found_iff ht'.sound.rep).mpr ⟨v, hf, ha⟩, ?_, ha ▸ reopens ht'.sound hf, ?_⟩
  · rw [reports_iff ht'.sound.rep, hf]
    rfl
  · exact fun q hc ↦ marked_close ht' hm' hc

/-- The contents of a file marked for deletion are kept as long as nothing is written to it and
it is not truncated. -/
theorem marked_contents (ht : Tracked w l g) (hm : Marked l z a)
    (hr : (system.startingAt w).Reach
      (fun w q ↦ FewHandles w q ∧ ¬ ClosesLast w q a ∧ ¬ Touches w q a) w') :
    KeepsContents w w' a := by
  have hinv : ∃ l g, Tracked w' l g ∧ Marked l z a ∧ KeepsContents w w' a := by
    apply hr.invariant (P := fun w' ↦ ∃ l g, Tracked w' l g ∧ Marked l z a ∧ KeepsContents w w' a)
    · rintro w' rfl
      exact ⟨l, g, ht, hm, fun _ _ ↦ ⟨rfl, fun _ _ _ he ↦ he⟩⟩
    · rintro x q y ⟨l, g, ht, hm, hsame⟩ ⟨hfew, hc, htouch⟩ ⟨r, he⟩
      obtain ⟨l', ht', hm'⟩ := marked_step ht hm hfew hc he
      have hlink {w : World} {l : List FileView} {g : Log} (ht : Tracked w l g)
          (hm : Marked l z a) : Linked w a := by
        obtain ⟨v, hf, rfl, _⟩ := hm
        obtain ⟨_, l₁, l₂, rfl, _⟩ := lookup_some hf
        exact (linked_iff ht.sound.rep).mpr ⟨l₁, v, l₂, rfl, rfl⟩
      exact ⟨l', _, ht', hm',
        hsame.trans (keepsContents_step ht.sound he (hlink ht hm) (hlink ht' hm') htouch)⟩
  obtain ⟨_, _, _, _, hsame⟩ := hinv
  exact hsame

/-- Closing a handle succeeds and does nothing to the files it is not on. -/
theorem closesAlone (ht : Tracked w l g) : ClosesAlone w := by
  intro h file answers hf
  obtain ⟨w', he⟩ := close_returns ht hf answers
  refine ⟨w', he, fun b hb hlink ↦ ?_⟩
  have hfew : FewHandles w ⟨.xClose h, answers⟩ := by rintro _ _ _ ⟨⟩
  have hlink' : Linked w' b := by
    by_contra hout
    obtain ⟨⟨h', file', hcall, hf', ha, _⟩ | ⟨_, hcall, _⟩, _⟩ :=
      (removed_iff ht hfew he hlink).1.mp hout
    · cases hcall
      change w.handle? h = some file' at hf'
      rw [hf] at hf'
      cases hf'
      exact hb ha.symm
    · cases hcall
  refine ⟨hlink', sameContents_step ht.sound he hlink hlink' ?_⟩
  rintro _ _ _ ⟨⟩

/-! ### Deleting a name -/

/-- A file that is found under a name is in the list. -/
private theorem found_mem (hs : Sound w l) (ha : Found w z a) :
    ∃ v ∈ l, v.addr = a ∧ v.Named z ∧ Linked w a := by
  obtain ⟨v, hf, rfl⟩ := (found_iff hs.rep).mp ha
  obtain ⟨hzv, l₁, l₂, rfl, _⟩ := lookup_some hf
  exact ⟨v, by simp, rfl, hzv, (linked_iff hs.rep).mpr ⟨l₁, v, l₂, rfl, rfl⟩⟩

/-- Deleting a name succeeds, whatever is open. -/
private theorem delete_returns (hs : Sound w l) (z : CStr) (answers : List (Option Grant)) :
    ∃ w', w.step ⟨.xDelete (some z), answers⟩ = .ok (.status .ok, w') := by
  have hr : Rep w.list (w.begin answers).heap l [] := hs.rep
  obtain ⟨m', l', hd, _⟩ := fsDelete_spec hr z
  exact ⟨_, by simp only [World.step, cDelete, hd, ok_bind, ↓reduceIte]; rfl⟩

/-- Deleting a name takes the file found under it out of the list exactly when no handle is on
it. -/
private theorem delete_removes {answers : List (Option Grant)} (ht : Tracked w l g)
    (hfew : FewHandles w ⟨.xDelete (some z), answers⟩) (hz : z.length < maxPathname)
    (he : w.step ⟨.xDelete (some z), answers⟩ = .ok (r, w')) (ha : Found w z a) :
    ¬ Linked w' a ↔ holders w.handles a = 0 := by
  obtain ⟨v, hv, rfl, hzv, hlink⟩ := found_mem ht.sound ha
  have hname := ((ht.names.named_iff hv).mp hzv).1
  rw [(removed_iff ht hfew he hlink).1]
  constructor
  · rintro ⟨⟨_, _, hcall, _⟩ | ⟨_, _, _, h0⟩, _⟩
    · cases hcall
    · exact h0
  · exact fun h0 ↦ ⟨.inr ⟨z, rfl, hname, h0⟩, hname ▸ hz⟩

/-- Deleting a name marks the file found under it when a handle is on it. -/
private theorem delete_marks {answers : List (Option Grant)} (ht : Tracked w l g)
    (hfew : FewHandles w ⟨.xDelete (some z), answers⟩) (hz : z.length < maxPathname)
    (he : w.step ⟨.xDelete (some z), answers⟩ = .ok (r, w'))
    (ht' : Tracked w' l' (note w ⟨.xDelete (some z), answers⟩ w' g)) (ha : Found w z a)
    (hne : holders w.handles a ≠ 0) : Marked l' z a ∧ SameContents w w' a := by
  obtain rfl := delete_status ht.sound he
  have hlink' : Linked w' a := by
    by_contra hout
    exact hne ((delete_removes ht hfew hz he ha).mp hout)
  obtain ⟨v, hv, rfl, hzv, hlink⟩ := found_mem ht.sound ha
  have hname := ((ht.names.named_iff hv).mp hzv).1
  obtain ⟨l₁, u, l₂, rfl, hu⟩ := (linked_iff ht'.sound.rep).mp hlink'
  have hmem : u ∈ l₁ ++ u :: l₂ := by simp
  have hnote : note w ⟨.xDelete (some z), answers⟩ w' g u.addr = ⟨z, true⟩ := by
    simp only [note, he, hu, hname, if_true]
  have hzu : u.Named z := by
    rw [ht'.names.named_iff hmem, hnote]
    exact ⟨rfl, hz⟩
  have hmark : u.deleteOnClose ≠ 0 := by
    rw [ht'.names.marked u hmem, hnote]
    exact ⟨rfl, hz⟩
  refine ⟨⟨u, ht'.names.lookup_eq ht'.sound.rep.nodup_addr hmem hzu, hu, hmark⟩, ?_⟩
  apply sameContents_step ht.sound he hlink hlink'
  rintro _ _ _ ⟨⟩

/-- Deleting a name succeeds. A file no handle is on is removed, and the name is gone until it
is created again. A file that is open stays the file of its name, with its contents, until
its last handle is closed, which removes it. Closing a handle concerns no other file. -/
theorem delete_defers (hr : system.Reach FewHandles w) (hz : z.length < maxPathname)
    (answers : List (Option Grant)) :
    ∃ w', w.step ⟨.xDelete (some z), answers⟩ = .ok (.status .ok, w') ∧
      ((∀ a, Found w z a → holders w.handles a = 0) →
        GoneFrom w' z ∧ ∀ a, Found w z a → ¬ Linked w' a) ∧
      (∀ a, Found w z a → holders w.handles a ≠ 0 → StaysFrom w' z a ∧
        ∀ w₂, (system.startingAt w').Reach
            (fun w q ↦ FewHandles w q ∧ ¬ ClosesLast w q a ∧ ¬ Touches w q a) w₂ →
          KeepsContents w w₂ a) ∧
      ∀ w₂, (system.startingAt w').Reach FewHandles w₂ → ClosesAlone w₂ := by
  have hfew : FewHandles w ⟨.xDelete (some z), answers⟩ := by rintro _ _ _ ⟨⟩
  obtain ⟨g, hg⟩ := hr.record nothingAsked note
  obtain ⟨l, ht⟩ : ∃ l, Tracked w l g := reach_tracked hg
  obtain ⟨w', he⟩ := delete_returns ht.sound z answers
  obtain ⟨l', hst, ht'⟩ := ht.step hfew he
  refine ⟨w', he, ?_, ?_, ?_⟩
  · intro hun
    have hgone {a : Addr} (ha : Found w z a) : ¬ Linked w' a :=
      (delete_removes ht hfew hz he ha).mpr (hun a ha)
    refine ⟨goneFrom ht' ?_, fun a ha ↦ hgone ha⟩
    cases hf : lookup l z with
    | none => exact absent_step hst hf (by rintro _ _ ⟨⟩)
    | some v =>
      have ha : Found w z v.addr := (found_iff ht.sound.rep).mpr ⟨v, hf, rfl⟩
      obtain ⟨hzv, l₁, l₂, hl, _⟩ := lookup_some hf
      have hv : v ∈ l := by simp [hl]
      apply absent_of_gone ht.names hst hv hzv (by rintro _ _ _ ⟨⟩)
      exact fun hin ↦ hgone ha ((linked_iff_mem ht'.sound.rep).mpr hin)
  · intro a ha hne
    obtain ⟨hm, hfirst⟩ := delete_marks ht hfew hz he ht' ha hne
    exact ⟨staysFrom ht' hm, fun w₂ hr₂ ↦ hfirst.keeps.trans (marked_contents ht' hm hr₂)⟩
  · intro w₂ hr₂
    have hr' : system.Reach FewHandles w₂ :=
      Base.System.Reach.append (.next hr hfew ⟨_, he⟩) (fun _ _ h ↦ h) hr₂
    obtain ⟨g₂, hg₂⟩ := hr'.record nothingAsked note
    obtain ⟨l₂, ht₂⟩ : ∃ l, Tracked w₂ l g₂ := reach_tracked hg₂
    exact closesAlone ht₂

end

/-- The file `a` is deleted. -/
def deleteA : Request := ⟨.xDelete (some nameA), []⟩

private theorem few_createA {x : World} (hx : x.handles.length ≤ 1) : FewHandles x createA := by
  intro h zName flags _
  omega

/-- A file that is deleted while a handle is on it still exists. -/
theorem not_gone : ¬ ∀ w, system.Reach FewHandles w → ∀ z answers w', z.length < maxPathname →
    w.step ⟨.xDelete (some z), answers⟩ = .ok (.status .ok, w') → Reports w' z false := by
  intro hall
  obtain ⟨x, hr, hp⟩ := exists_of_checks_few (fun _ _ _ _ ↦ ()) ()
    (fun x q ↦ FewHandles x.1 q) [filled 100 0] [createA]
    (fun x ↦ passes (x.1.step deleteA) fun y ↦
      y.1.succeeded && cAccess y.2.list y.2.mem (some nameA) = .ok (.ok, true))
    (by decide +kernel) (by
      intro q hq
      obtain rfl := List.mem_singleton.mp hq
      exact fun x hx ↦ few_createA hx)
  obtain ⟨⟨r, w'⟩, he, hp⟩ := passes_iff.mp hp
  simp only [Bool.and_eq_true, decide_eq_true_eq, Reply.succeeded_iff] at hp
  obtain ⟨rfl, hfound⟩ := hp
  have hrep := hall x.1 hr.forget nameA [] w' (by decide) he
  rw [Reports, hfound] at hrep
  cases hrep

/-- The file `a` stays when it is deleted while handle 0 is on it, and goes when the handle is
closed. -/
theorem delete_defers_createA : ∃ (w w' : World) (a : Addr),
    w.step deleteA = .ok (.status .ok, w') ∧ holders w.handles a = 1 ∧ StaysFrom w' nameA a := by
  obtain ⟨x, hr, hp⟩ := exists_of_checks_few (fun _ _ _ _ ↦ ()) ()
    (fun x q ↦ FewHandles x.1 q) [filled 100 0] [createA]
    (fun x ↦ passes (fsFindFile x.1.list x.1.mem (some nameA)) fun a ↦
      a ≠ 0 && holders x.1.handles a = 1) (by decide +kernel) (by
      intro q hq
      obtain rfl := List.mem_singleton.mp hq
      exact fun x hx ↦ few_createA hx)
  simp only [Bool.and_eq_true, decide_eq_true_eq, passes_iff] at hp
  obtain ⟨a, hf, h0, hone⟩ := hp
  obtain ⟨w', he, _, hopen, _⟩ := delete_defers hr.forget (by decide : nameA.length < _) []
  exact ⟨x.1, w', a, he, hone, (hopen a ⟨h0, hf⟩ (by omega)).1⟩

end SqliteComposite.Vfs
