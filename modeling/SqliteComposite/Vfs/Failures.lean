import SqliteComposite.Vfs.Files

/-!
# Failed writes and size hints

A write that reports an error and a size hint both go through the growth of a buffer, which
may move it. Neither can be seen: the files are the same, and whatever reads and sizes were
answered before is answered after.
-/

namespace SqliteComposite.Vfs

open Base Inmemfs

/-- The call reads from a file or asks for its size. -/
def Observes : Call → Prop
  | .xRead _ _ _ => True
  | .xFileSize _ => True
  | _ => False

/-- The call is a write that fails, or a size hint. -/
def FailsOrHints (c : Call) (r : Reply) : Prop :=
  (∃ h src n o, c = .xWrite h src n o ∧ r ≠ .status .ok) ∨
    ∃ h arg, c = .xFileControl h sqliteFcntlSizeHint arg

/-- The handles and the files, in the order of the list, are as before, and whatever a read or
a question for a size returned before it returns after. -/
structure Invisible (w w' : World) : Prop where
  handles : w'.handles = w.handles
  list : w'.list = w.list
  files : ∃ l l', Rep w.list w.mem.heap l [] ∧ Rep w'.list w'.mem.heap l' [] ∧
    List.Forall₂ FileView.Kept l l'
  answers : ∀ c answers r w₁, Observes c → w.step ⟨c, answers⟩ = .ok (r, w₁) →
    ∃ w₂, w'.step ⟨c, answers⟩ = .ok (r, w₂)

section

variable {w w' : World} {l l' l₁ l₂ : List FileView} {u v : FileView} {q : Request}
  {r : Reply} {file : CFile} {m m' : FsMem} {list : Addr}

/-! ### What is kept -/

/-- A file of the one list is kept as one of the other. -/
private theorem kept_mem (hk : List.Forall₂ FileView.Kept l l') (hv : v ∈ l) :
    ∃ u ∈ l', v.Kept u := by
  induction hk with
  | nil => cases hv
  | cons hab _ ih =>
    rcases List.mem_cons.mp hv with rfl | hv
    · exact ⟨_, List.mem_cons_self, hab⟩
    · obtain ⟨u, hu, hvu⟩ := ih hv
      exact ⟨u, List.mem_cons_of_mem _ hu, hvu⟩

/-- All files are kept when one of them is. -/
private theorem kept_replace (hk : v.Kept u) :
    List.Forall₂ FileView.Kept (l₁ ++ v :: l₂) (l₁ ++ u :: l₂) := by
  have hsame (l : List FileView) : List.Forall₂ FileView.Kept l l :=
    List.forall₂_same.mpr fun x _ ↦ .refl x
  exact List.rel_append (hsame l₁) (.cons hk (hsame l₂))

/-- A file that is listed before is kept as one that is listed after. -/
private theorem kept_of_fd (hr : Rep list m.heap l []) (hk : List.Forall₂ FileView.Kept l l')
    (hfd : file.fd ≠ list) :
    (∃ l₁ v l₂ l₃ u l₄, l = l₁ ++ v :: l₂ ∧ l' = l₃ ++ u :: l₄ ∧ v.addr = file.fd ∧ v.Kept u) ∨
      m.load file.fd = .error .wildAccess := by
  rcases load_cases hr hfd with ⟨l₁, v, l₂, rfl, ha⟩ | hload
  · left
    obtain ⟨u, hu, hvu⟩ := kept_mem hk (v := v) (by simp)
    obtain ⟨l₃, l₄, rfl⟩ := List.append_of_mem hu
    exact ⟨l₁, v, l₂, l₃, u, l₄, rfl, rfl, ha, hvu⟩
  · exact .inr hload

/-- What a read returned it returns when the files are kept. -/
theorem cRead_kept (hr : Rep list m.heap l []) (hr' : Rep list m'.heap l' [])
    (hk : List.Forall₂ FileView.Kept l l') (hfd : file.fd ≠ list) {n : Int32} {o : Int64}
    {x : Rc × Stores} (he : cRead m file n o = .ok x) : cRead m' file n o = .ok x := by
  obtain ⟨y, hy, he⟩ := bind_ok he
  have hread : fsRead m' file.fd o n = .ok y := by
    rcases kept_of_fd hr hk hfd with ⟨l₁, v, l₂, l₃, u, l₄, rfl, rfl, ha, hvu⟩ | hload
    · rw [← ha] at hy
      rw [← ha, ← hvu.addr]
      exact fsRead_kept hr hr' hvu hy
    · unfold fsRead at hy ⊢
      split at hy
      · next hneg => rwa [if_pos hneg]
      · rw [hload, error_bind] at hy
        cases hy
  rw [cRead, hread, ok_bind]
  exact he

/-- What size was reported is reported when the files are kept. -/
theorem cFileSize_kept (hr : Rep list m.heap l []) (hr' : Rep list m'.heap l' [])
    (hk : List.Forall₂ FileView.Kept l l') (hfd : file.fd ≠ list) {x : Rc × Int64}
    (he : cFileSize m file = .ok x) : cFileSize m' file = .ok x := by
  rcases kept_of_fd hr hk hfd with ⟨l₁, v, l₂, l₃, u, l₄, rfl, rfl, ha, hvu⟩ | hload
  · obtain ⟨nx, hv, _⟩ := counters_spec hr
    obtain ⟨nx', hu, _⟩ := counters_spec hr'
    rw [hvu.addr] at hu
    rw [cFileSize, ← ha, hv, ok_bind] at he
    rw [cFileSize, ← ha, hu, ok_bind, FileView.record_len, hvu.len]
    exact he
  · rw [cFileSize, hload, error_bind] at he
    cases he

/-- A call that keeps the files and the handles is invisible. -/
private theorem invisible_of_kept (hs : Sound w l) (hr' : Rep w'.list w'.mem.heap l' [])
    (hh : w'.handles = w.handles) (hl : w'.list = w.list)
    (hk : List.Forall₂ FileView.Kept l l') : Invisible w w' := by
  refine ⟨hh, hl, ⟨l, l', hs.rep, hr', hk⟩, fun c answers r w₁ hc he ↦ ?_⟩
  rw [hl] at hr'
  have hhandle (h : Nat) : w'.handle? h = w.handle? h := by
    rw [World.handle?, World.handle?, hh]
  cases c with
  | xRead h n o =>
    simp only [World.step, World.through, hhandle] at he ⊢
    split at he
    · cases he
      exact ⟨_, rfl⟩
    · next file hf =>
      obtain ⟨x, hx, he⟩ := bind_ok he
      have hx' : cRead (w'.begin answers) file n o = .ok x :=
        cRead_kept (m := w.begin answers) hs.rep hr' hk (hs.handle hf).2 hx
      cases he
      exact ⟨w', by rw [hx', ok_bind]⟩
  | xFileSize h =>
    simp only [World.step, World.through, hhandle] at he ⊢
    split at he
    · cases he
      exact ⟨_, rfl⟩
    · next file hf =>
      obtain ⟨x, hx, he⟩ := bind_ok he
      have hx' : cFileSize (w'.begin answers) file = .ok x :=
        cFileSize_kept (m := w.begin answers) hs.rep hr' hk (hs.handle hf).2 hx
      cases he
      exact ⟨w', by rw [hx', ok_bind]⟩
  | xOpen | xClose | xWrite | xTruncate | xFileControl | xDelete | xAccess => exact hc.elim

/-- In every reachable state, a write that fails and a size hint are invisible. -/
theorem failures_invisible (hr : system.Reach (fun _ _ ↦ True) w)
    (hc : FailsOrHints q.call r) (he : w.step q = .ok (r, w')) : Invisible w w' := by
  obtain ⟨l, hs⟩ := reach_sound hr
  obtain ⟨l', hst, hs', hl⟩ := step_spec hs he
  have hsame (hl' : l' = l) (hh : w'.handles = w.handles) : Invisible w w' :=
    invisible_of_kept hs hs'.rep hh hl (hl' ▸ List.forall₂_same.mpr fun x _ ↦ .refl x)
  generalize hcall : q.call = c at hc hst
  generalize hhs : w'.handles = hs₁ at hst hsame
  cases hst with
  | idle _ => exact hsame rfl rfl
  | rejected => exact hsame rfl rfl
  | deletedNull => exact hsame rfl rfl
  | through hf hl' _ hfs =>
    subst hl'
    rcases hc with ⟨_, _, _, _, _, hne⟩ | ⟨h, arg, rfl⟩
    · exact absurd rfl hne
    · cases hfs with
      | hinted hg =>
        have hlt := arg.toInt_lt
        have hsz : arg.toInt64.toInt < 2 ^ 31 := by
          rw [Int32.toInt_toInt64]
          omega
        exact invisible_of_kept hs hs'.rep hhs hl (kept_replace (hg.kept hsz))
  | opened | closed | deleted =>
    rcases hc with ⟨_, _, _, _, _, hne⟩ | ⟨_, _, hc⟩
    · exact absurd rfl hne
    · cases hc

end

/-- Handle 0 hints that its file will grow beyond its buffer. -/
def hintA : Request := ⟨.xFileControl 0 sqliteFcntlSizeHint 10000, [filled 500 0xBB]⟩

/-- A hint that makes a buffer move is invisible. -/
theorem failures_invisible_hintA : ∃ w w', w.step hintA = .ok (.status .ok, w') ∧
    Invisible w w' := by
  obtain ⟨w, hr, hp⟩ := exists_of_checks (fun _ _ ↦ True) [filled 100 0xAA] [createA, writeTen]
    (fun w ↦ passes (w.step hintA) fun y ↦ y.1.succeeded) (by decide +kernel)
    fun _ _ _ ↦ trivial
  obtain ⟨⟨r, w'⟩, he, hp⟩ := passes_iff.mp hp
  obtain rfl := Reply.succeeded_iff.mp hp
  exact ⟨w, w', he, failures_invisible hr (.inr ⟨0, 10000, rfl⟩) he⟩

end SqliteComposite.Vfs
