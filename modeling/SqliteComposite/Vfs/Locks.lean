import SqliteComposite.Vfs.Client

/-!
# Locks on a file

SQLite keeps the lock level each of its handles was granted, and calls `xLock`, `xUnlock` and
`xCheckReservedLock` through open handles between any other calls. The methods grant every
lock and report none, so that connections are protected from each other exactly as long as
they ask for no lock that another one stands against.
-/

namespace SqliteComposite.Vfs

open Base

/-- The VFS, and the lock level each handle has been granted. -/
structure Clients where
  world : World
  held : Nat → Int32

/-- A call on files, or one about locks. -/
inductive LockCall where
  | file (q : Request)
  | xLock (h : Nat) (lockType : Int32)
  | xUnlock (h : Nat) (lockType : Int32)
  | xCheckReservedLock (h : Nat) (pResOut : Option Int32)

/-- What such a call returns. -/
inductive LockReply where
  | notMade
  | file (r : Reply)
  | status (rc : Rc)
  | reserved (rc : Rc) (pResOut : Option Int32)

namespace Clients

/-- The levels after a call on files: a handle that is not open holds no lock. -/
def afterCall (x : Clients) (w : World) : Clients where
  world := w
  held h := if (w.handle? h).isSome then x.held h else sqliteLockNone

/-- The level of one handle is another one. -/
def granted (x : Clients) (h : Nat) (lockType : Int32) : Clients :=
  { x with held := Function.update x.held h lockType }

/-- One call. A lock that is granted raises the level of its handle, and one that is released
lowers it. -/
def step (x : Clients) : LockCall → Except Fault (LockReply × Clients)
  | .file q => do
    let (r, w) ← x.world.step q
    .ok (.file r, x.afterCall w)
  | .xLock h lockType =>
    match x.world.handle? h with
    | none => .ok (.notMade, x)
    | some file =>
      let rc := cLock file lockType
      .ok (.status rc, if rc = .ok ∧ x.held h < lockType then x.granted h lockType else x)
  | .xUnlock h lockType =>
    match x.world.handle? h with
    | none => .ok (.notMade, x)
    | some file =>
      let rc := cUnlock file lockType
      .ok (.status rc, if rc = .ok ∧ lockType < x.held h then x.granted h lockType else x)
  | .xCheckReservedLock h pResOut =>
    match x.world.handle? h with
    | none => .ok (.notMade, x)
    | some file =>
      let (rc, pResOut) := cCheckReservedLock file pResOut
      .ok (.reserved rc pResOut, x)

end Clients

/-- The VFS from `fs_init` on, where no lock has been granted. -/
def lockSystem : System Clients LockCall where
  init x := system.init x.world ∧ x.held = fun _ ↦ sqliteLockNone
  step x c x' := ∃ r, x.step c = .ok (r, x')

/-- The two handles are open on the same file. -/
def SameFile (x : Clients) (h h' : Nat) : Prop :=
  ∃ file file', x.world.handle? h = some file ∧ x.world.handle? h' = some file' ∧
    file'.fd = file.fd

/-- The handle holds a RESERVED lock or a higher one. -/
def Reserves (x : Clients) (h : Nat) : Prop := sqliteLockReserved ≤ x.held h

/-- No two handles hold RESERVED locks or higher ones on one file. -/
def Exclusive (x : Clients) : Prop :=
  ∀ h h', h' ≠ h → SameFile x h h' → ¬ (Reserves x h ∧ Reserves x h')

/-- What the call returns protects the other connections: no lock is granted that another
handle on the file stands against, and a reserved lock on the file is reported. -/
def Protects (x : Clients) (c : LockCall) : Prop :=
  ∀ r x', x.step c = .ok (r, x') →
    (∀ h lockType, c = .xLock h lockType → r = .status .ok →
      ∀ h', h' ≠ h → SameFile x h h' →
        (sqliteLockReserved ≤ lockType → ¬ Reserves x h') ∧
        (sqliteLockExclusive ≤ lockType → ¬ sqliteLockShared ≤ x.held h')) ∧
    ∀ h res, c = .xCheckReservedLock h (some res) →
      ∀ h', SameFile x h h' → Reserves x h' → r = .reserved .ok (some 1)

/-- Another handle on the file stands against the lock that is asked for, or one on the file
holds the lock that is asked about. -/
def Conflicts (x : Clients) : LockCall → Prop
  | .file _ => False
  | .xLock h lockType => ∃ h', h' ≠ h ∧ SameFile x h h' ∧
      (sqliteLockReserved ≤ lockType ∧ Reserves x h' ∨
        sqliteLockExclusive ≤ lockType ∧ sqliteLockShared ≤ x.held h')
  | .xUnlock _ _ => False
  | .xCheckReservedLock h pResOut => pResOut.isSome ∧ ∃ h', SameFile x h h' ∧ Reserves x h'

section

variable {x x' : Clients} {c : LockCall} {r : LockReply} {h h' : Nat}

/-! ### The levels -/

/-- The order of the two handles does not matter. -/
theorem SameFile.symm (hs : SameFile x h h') : SameFile x h' h := by
  obtain ⟨file, file', hf, hf', he⟩ := hs
  exact ⟨file', file, hf', hf, he.symm⟩

/-- A handle without a lock holds no RESERVED one. -/
theorem not_reserves (hn : x.held h = sqliteLockNone) : ¬ Reserves x h := by
  rw [Reserves, hn]
  decide

/-- The level of one handle is the new one, and the others are as before. -/
theorem granted_held (lockType : Int32) :
    (x.granted h lockType).held h' = if h' = h then lockType else x.held h' :=
  Function.update_apply _ _ _ _

/-- A handle that holds a RESERVED lock held it before or was granted it. -/
theorem reserves_granted {lockType : Int32} (hr : Reserves (x.granted h lockType) h') :
    h' = h ∧ sqliteLockReserved ≤ lockType ∨ Reserves x h' := by
  rw [Reserves, granted_held] at hr
  split at hr
  · next he => exact .inl ⟨he, hr⟩
  · exact .inr hr

/-- Handles stay exclusive when each holds no more than before. -/
theorem Exclusive.mono (hx : Exclusive x) (hw : x'.world = x.world)
    (hle : ∀ h, Reserves x' h → Reserves x h) : Exclusive x' := by
  intro h h' hne hs hr
  unfold SameFile at hs
  rw [hw] at hs
  exact hx h h' hne hs ⟨hle h hr.1, hle h' hr.2⟩

/-- A call on files keeps the handles exclusive: one that it opens holds no lock. -/
theorem Exclusive.afterCall {q : Request} {r : Reply} {w : World} (hx : Exclusive x)
    (hclosed : ∀ h, x.world.handle? h = none → x.held h = sqliteLockNone)
    (he : x.world.step q = .ok (r, w)) : Exclusive (x.afterCall w) := by
  have hkeep {h : Nat} {file : CFile} (hf : w.handle? h = some file)
      (hr : Reserves (x.afterCall w) h) :
      x.world.handle? h = some file ∧ Reserves x h := by
    have hold : (x.afterCall w).held h = x.held h := by
      simp only [Clients.afterCall, hf, Option.isSome_some, ↓reduceIte]
    rw [Reserves, hold] at hr
    rcases World.step_handle? he hf with hw | hw
    · exact ⟨hw, hr⟩
    · exact absurd hr (not_reserves (hclosed h hw))
  rintro h h' hne ⟨file, file', hf, hf', hfd⟩ ⟨hr, hr'⟩
  obtain ⟨hw, hres⟩ := hkeep hf hr
  obtain ⟨hw', hres'⟩ := hkeep hf' hr'
  exact hx h h' hne ⟨file, file', hw, hw', hfd⟩ ⟨hres, hres'⟩

/-- A lock no handle stands against keeps the handles exclusive. -/
theorem Exclusive.lock {lockType : Int32} (hx : Exclusive x)
    (hc : ¬ Conflicts x (.xLock h lockType)) : Exclusive (x.granted h lockType) := by
  have hnew {h' : Nat} (hne : h' ≠ h) (hs : SameFile x h h')
      (hr : Reserves (x.granted h lockType) h ∧ Reserves (x.granted h lockType) h') : False := by
    have hres : Reserves x h' := by
      rcases reserves_granted hr.2 with ⟨he, _⟩ | hres
      · exact absurd he hne
      · exact hres
    rcases reserves_granted hr.1 with ⟨_, hlt⟩ | hr₁
    · exact hc ⟨h', hne, hs, .inl ⟨hlt, hres⟩⟩
    · exact hx h h' hne hs ⟨hr₁, hres⟩
  intro k k' hne hs hr
  by_cases hk : k = h
  · subst hk
    exact hnew hne hs hr
  · by_cases hk' : k' = h
    · subst hk'
      exact hnew hne.symm (SameFile.symm hs) hr.symm
    · apply hx k k' hne hs
      have hother {j : Nat} (hj : j ≠ h) (hr : Reserves (x.granted h lockType) j) :
          Reserves x j := (reserves_granted hr).resolve_left fun he ↦ hj he.1
      exact ⟨hother hk hr.1, hother hk' hr.2⟩

/-! ### The calls -/

/-- A handle that is not open holds no lock, and the handles are exclusive. -/
private def Guarded (x : Clients) : Prop :=
  (∀ h, x.world.handle? h = none → x.held h = sqliteLockNone) ∧ Exclusive x

/-- What a call through an open handle does about locks. -/
private theorem lock_cases (hg : Guarded x) {file : CFile} (hf : x.world.handle? h = some file)
    {lockType : Int32} (hx : Exclusive (x.granted h lockType)) :
    Guarded (x.granted h lockType) := by
  refine ⟨fun k hk ↦ ?_, hx⟩
  rw [granted_held]
  split
  · next he =>
    subst he
    rw [show (x.granted k lockType).world = x.world from rfl, hf] at hk
    cases hk
  · exact hg.1 k hk

/-- A call that conflicts with no lock keeps the handles exclusive. -/
private theorem guarded_step (hg : Guarded x) (hc : ¬ Conflicts x c)
    (he : x.step c = .ok (r, x')) : Guarded x' := by
  cases c with
  | file q =>
    obtain ⟨⟨r, w⟩, hs, he⟩ := bind_ok he
    cases he
    refine ⟨fun h hn ↦ ?_, hg.2.afterCall hg.1 hs⟩
    replace hn : w.handle? h = none := hn
    simp only [Clients.afterCall, hn, Option.isSome_none, Bool.false_eq_true, ↓reduceIte]
  | xLock h lockType =>
    simp only [Clients.step] at he
    split at he
    · cases he
      exact hg
    · next file hf =>
      cases he
      split
      · exact lock_cases hg hf (hg.2.lock hc)
      · exact hg
  | xUnlock h lockType =>
    simp only [Clients.step] at he
    split at he
    · cases he
      exact hg
    · next file hf =>
      cases he
      split
      · next hlt =>
        apply lock_cases hg hf
        have hle (k : Nat) (hk : Reserves (x.granted h lockType) k) : Reserves x k := by
          rcases reserves_granted hk with ⟨rfl, hle⟩ | hk
          · exact Int32.le_trans hle (Int32.le_of_lt hlt.2)
          · exact hk
        exact hg.2.mono rfl hle
      · exact hg
  | xCheckReservedLock h pResOut =>
    simp only [Clients.step] at he
    split at he <;> cases he <;> exact hg

/-- A call protects the other connections exactly when it conflicts with no lock. -/
theorem protects_iff_not_conflicts : Protects x c ↔ ¬ Conflicts x c := by
  constructor
  · intro hp hc
    cases c with
    | file q => exact hc
    | xLock h lockType =>
      obtain ⟨h', hne, hs, hcase⟩ := hc
      obtain ⟨file, _, hf, _⟩ := id hs
      have he : ∃ x', x.step (.xLock h lockType) = .ok (.status .ok, x') := by
        simp only [Clients.step, hf, cLock]
        exact ⟨_, rfl⟩
      obtain ⟨x', he⟩ := he
      obtain ⟨hres, hshared⟩ := (hp _ _ he).1 h lockType rfl rfl h' hne hs
      rcases hcase with ⟨hlt, hr⟩ | ⟨hlt, hr⟩
      · exact hres hlt hr
      · exact hshared hlt hr
    | xUnlock h lockType => exact hc
    | xCheckReservedLock h pResOut =>
      obtain ⟨hsome, h', hs, hr⟩ := hc
      obtain ⟨res, rfl⟩ := Option.isSome_iff_exists.mp hsome
      obtain ⟨file, _, hf, _⟩ := id hs
      have he : x.step (.xCheckReservedLock h (some res)) = .ok (.reserved .ok (some 0), x) := by
        simp only [Clients.step, hf, cCheckReservedLock, Option.map_some]
      have hone := (hp _ _ he).2 h res rfl h' hs hr
      injection hone with _ hone
      exact absurd hone (by decide)
  · intro hc r x' _
    constructor
    · rintro h lockType rfl _ h' hne hs
      exact ⟨fun hlt hr ↦ hc ⟨h', hne, hs, .inl ⟨hlt, hr⟩⟩,
        fun hlt hr ↦ hc ⟨h', hne, hs, .inr ⟨hlt, hr⟩⟩⟩
    · rintro h res rfl h' hs hr
      exact absurd ⟨rfl, h', hs, hr⟩ hc

/-- In every run whose calls conflict with no lock, no two handles hold RESERVED locks on one
file, and the next call protects the other connections exactly when it conflicts with none. -/
theorem exclusive_and_protects_iff (hr : lockSystem.Reach (fun x c ↦ ¬ Conflicts x c) x) :
    Exclusive x ∧ ∀ c, Protects x c ↔ ¬ Conflicts x c := by
  have hg : Guarded x := by
    apply hr.invariant (P := Guarded)
    · rintro x ⟨_, hh⟩
      exact ⟨fun h _ ↦ congrFun hh h, fun h _ _ _ hr ↦ not_reserves (congrFun hh h) hr.1⟩
    · rintro x c x' hg hc ⟨r, he⟩
      exact guarded_step hg hc he
  exact ⟨hg.2, fun _ ↦ protects_iff_not_conflicts⟩

/-! ### Two handles on one file -/

/-- Calls on files alone lead to states where no lock has been granted. -/
private theorem reach_files {ok : Clients → LockCall → Prop} (hok : ∀ x q, ok x (.file q))
    {w : World} (hr : system.Reach (fun _ _ ↦ True) w) :
    lockSystem.Reach ok ⟨w, fun _ ↦ sqliteLockNone⟩ := by
  induction hr with
  | start hi => exact .start ⟨hi, rfl⟩
  | @next w w' q _ _ hst ih =>
    obtain ⟨r, he⟩ := hst
    apply ih.next (hok _ q)
    refine ⟨.file r, ?_⟩
    change (w.step q >>= _) = _
    rw [he, ok_bind]
    simp only [Clients.afterCall, ite_self]

/-- Handle 1 opens the file `a` that handle 0 has created. -/
def openAgain : Request := ⟨.xOpen 1 (some nameA) 0, []⟩

/-- Whether handles 0 and 1 are open on the same file. -/
private def bothOpen (w : World) : Bool :=
  (w.handle? 0).any fun f ↦ (w.handle? 1).any fun f' ↦ f'.fd = f.fd

/-- Two handles on one file can be reached, and handle 0 can be granted a RESERVED lock. -/
private theorem reach_reserved (ok : Clients → LockCall → Prop) (hok : ∀ x q, ok x (.file q))
    (hlock : ∀ x, x.held = (fun _ ↦ sqliteLockNone) → ok x (.xLock 0 sqliteLockReserved)) :
    ∃ x, lockSystem.Reach ok x ∧ SameFile x 0 1 ∧ Reserves x 0 := by
  obtain ⟨w, hr, hp⟩ := exists_of_checks (fun _ _ ↦ True) [filled 100 0xAA]
    [createA, openAgain] bothOpen (by decide +kernel) fun _ _ _ ↦ trivial
  obtain ⟨file, hf, hp⟩ := (Option.any_eq_true _ _).mp hp
  obtain ⟨file', hf', hp⟩ := (Option.any_eq_true _ _).mp hp
  let x : Clients := ⟨w, fun _ ↦ sqliteLockNone⟩
  have hst : lockSystem.step x (.xLock 0 sqliteLockReserved) (x.granted 0 sqliteLockReserved) := by
    refine ⟨.status .ok, ?_⟩
    simp only [Clients.step, x, hf]
    rfl
  refine ⟨_, (reach_files hok hr).next (hlock x rfl) hst, ⟨file, file', hf, hf',
    of_decide_eq_true hp⟩, ?_⟩
  rw [Reserves, granted_held, if_pos rfl]
  exact Int32.le_refl _

/-- Two handles on one file are both granted a RESERVED lock. -/
theorem not_protects : ¬ ∀ x, lockSystem.Reach (fun _ _ ↦ True) x → ∀ c, Protects x c := by
  intro hall
  obtain ⟨x, hr, hs, hres⟩ := reach_reserved (fun _ _ ↦ True) (fun _ _ ↦ trivial)
    fun _ _ ↦ trivial
  have hp := hall x hr (.xLock 1 sqliteLockReserved)
  apply protects_iff_not_conflicts.mp hp
  exact ⟨0, by decide, hs.symm, .inl ⟨Int32.le_refl _, hres⟩⟩

/-- One handle holds a RESERVED lock while another is open on the file. -/
theorem exclusive_and_protects_iff_openAgain : ∃ x, Reserves x 0 ∧ SameFile x 0 1 ∧
    Exclusive x ∧ ∀ c, Protects x c ↔ ¬ Conflicts x c := by
  have hlock (x : Clients) (hx : x.held = fun _ ↦ sqliteLockNone) :
      ¬ Conflicts x (.xLock 0 sqliteLockReserved) := by
    rintro ⟨h', _, _, ⟨_, hr⟩ | ⟨hlt, _⟩⟩
    · exact not_reserves (congrFun hx h') hr
    · exact absurd hlt (by decide)
  obtain ⟨x, hr, hs, hres⟩ :=
    reach_reserved (fun x c ↦ ¬ Conflicts x c) (fun _ _ h ↦ h) hlock
  exact ⟨x, hres, hs, exclusive_and_protects_iff hr⟩

end
end SqliteComposite.Vfs
