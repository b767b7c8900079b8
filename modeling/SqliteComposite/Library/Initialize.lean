import SqliteComposite.Library.VfsList
import SqliteComposite.Vfs.Client

/-!
# Initialization and shutdown

Models `sqlite3_initialize`, `sqlite3_shutdown` and what they call, in the build of the
`Makefile`: `SQLITE_THREADSAFE` is 0, so that a mutex is a constant and entering it does nothing.
The nested calls of `sqlite3_initialize` are bounded by the depth handed in. The tables and
counters that the subsystems set up for themselves are left out.
-/

namespace SqliteComposite.Library

open Base Inmemfs

/-- A call that does not return: C leaves it undefined, or its nesting is too deep. -/
inductive Crash where
  | fault (f : Fault)
  | tooDeep

/-- A function of the other modules as part of one of these. -/
def lift {α : Type} : Except Fault α → Except Crash α
  | .ok a => .ok a
  | .error f => .error (.fault f)

/-- What returns here returned there. -/
theorem lift_eq_ok {α : Type} {x : Except Fault α} {a : α} : lift x = .ok a ↔ x = .ok a := by
  cases x with
  | ok b =>
    simp only [lift, Except.ok.injEq]
  | error f =>
    constructor <;> rintro ⟨⟩

/-- `SQLITE_OK`; `sqlite3.h:414`. -/
def sqliteOk : Int32 := 0

/-- `SQLITE_NOMEM`; `sqlite3.h:422`. -/
def sqliteNomem : Int32 := 7

/-- `SQLITE_MISUSE`; `sqlite3.h:436`. -/
def sqliteMisuse : Int32 := 21

/-- The allocator in `sqlite3GlobalConfig.m`: none yet, the one of `sqlite3MemSetDefault`,
`composite_mem_methods`, or one of the application. -/
inductive MemMethods where
  | unset
  | default
  | composite
  | application (n : Nat)
  deriving DecidableEq

/-- The flags of `sqlite3GlobalConfig`, `vfsList`, the statics of the OS layer and the
filesystem. `compositeVfs` is the address of the static of that name. -/
structure Globals where
  isInit : Bool
  inProgress : Bool
  isMutexInit : Bool
  isMallocInit : Bool
  isPCacheInit : Bool
  nRefInitMutex : Int32
  pInitMutex : Bool
  m : MemMethods
  vfsList : Addr
  vfs : VfsMem
  compositeVfs : Addr
  prngState : UInt64
  world : Vfs.World

/-- What the environment answers during a call: the methods `xInit` of an allocator and of a page
cache, whether ten bytes are granted, and what is granted to the filesystem. -/
structure Answers where
  xInit : Int32
  pcacheInit : Int32
  tenBytes : Bool
  grants : List (Option Grant)

/-- `sqlite3_config(SQLITE_CONFIG_MALLOC)`; `sqlite3.c:138205`. -/
def sqlite3ConfigMalloc (lib : Globals) (m : MemMethods) : Int32 × Globals :=
  if lib.isInit then (sqliteMisuse, lib) else (sqliteOk, { lib with m := m })

/-- The method `xInit` of the allocator. -/
def MemMethods.xInit (m : MemMethods) (ans : Answers) : Int32 :=
  match m with
  | .application _ => ans.xInit
  | _ => sqliteOk

/-- `sqlite3MallocInit`; `sqlite3.c:24012`. -/
def sqlite3MallocInit (ans : Answers) (lib : Globals) : Int32 × Globals :=
  let lib := if lib.m = .unset then { lib with m := .default } else lib
  (lib.m.xInit ans, lib)

/-- `sqlite3_vfs_register`, with its call of `sqlite3_initialize`; `sqlite3.c:20121`. -/
def sqlite3VfsRegister (again : Globals → Except Crash (Int32 × Globals)) (lib : Globals)
    (pVfs : Addr) (makeDflt : Bool) : Except Crash (Int32 × Globals) := do
  let (rc, lib) ← again lib
  if rc ≠ sqliteOk then .ok (rc, lib)
  else
    let (vfsList, vfs) ← lift (vfsLink lib.vfsList lib.vfs pVfs makeDflt)
    .ok (sqliteOk, { lib with vfsList := vfsList, vfs := vfs })

/-- `sqlite3_os_init`; `os_composite.c:937`. -/
def sqlite3OsInitComposite (again : Globals → Except Crash (Int32 × Globals))
    (ans : Answers) (lib : Globals) : Except Crash (Int32 × Globals) := do
  let (_, lib) := sqlite3ConfigMalloc lib .composite
  let lib := { lib with prngState := 4 }
  let (list, mem) ← lift (fsInit { lib.world.mem with answers := ans.grants })
  let lib := { lib with world := { lib.world with list := list, mem := mem } }
  let (_, lib) ← sqlite3VfsRegister again lib lib.compositeVfs true
  .ok (sqliteOk, lib)

/-- `sqlite3OsInit`, with the `sqlite3_malloc` in it; `sqlite3.c:20058`. -/
def sqlite3OsInit (again : Globals → Except Crash (Int32 × Globals)) (ans : Answers)
    (lib : Globals) : Except Crash (Int32 × Globals) := do
  let (rc, lib) ← again lib
  if rc ≠ sqliteOk ∨ ans.tenBytes = false then .ok (sqliteNomem, lib)
  else sqlite3OsInitComposite again ans lib

/-- The part of `sqlite3_initialize` under its recursive mutex. -/
def initializeOnce (again : Globals → Except Crash (Int32 × Globals)) (ans : Answers)
    (lib : Globals) : Except Crash (Int32 × Globals) :=
  if lib.isInit = false ∧ lib.inProgress = false then do
    let lib := { lib with inProgress := true }
    let rc := if lib.isPCacheInit then sqliteOk else ans.pcacheInit
    if rc ≠ sqliteOk then .ok (rc, { lib with inProgress := false })
    else
      let (rc, lib) ← sqlite3OsInit again ans { lib with isPCacheInit := true }
      let lib := if rc = sqliteOk then { lib with isInit := true } else lib
      .ok (rc, { lib with inProgress := false })
  else .ok (sqliteOk, lib)

/-- `sqlite3_initialize`; `sqlite3.c:137985`. -/
def sqlite3Initialize : Nat → Answers → Globals → Except Crash (Int32 × Globals)
  | 0, _, _ => .error .tooDeep
  | depth + 1, ans, lib =>
    if lib.isInit then .ok (sqliteOk, lib)
    else do
      let lib := { lib with isMutexInit := true }
      let (rc, lib) := if lib.isMallocInit then (sqliteOk, lib) else sqlite3MallocInit ans lib
      if rc ≠ sqliteOk then .ok (rc, lib)
      else
        let lib := { lib with
          isMallocInit := true, pInitMutex := true, nRefInitMutex := lib.nRefInitMutex + 1 }
        let (rc, lib) ← initializeOnce (sqlite3Initialize depth ans) ans lib
        let lib := { lib with nRefInitMutex := lib.nRefInitMutex - 1 }
        .ok (rc, if lib.nRefInitMutex ≤ 0 then { lib with pInitMutex := false } else lib)

/-- `sqlite3_shutdown`, with `sqlite3_os_end`; `sqlite3.c:138151`. Its call of
`sqlite3_reset_auto_extension` finds the library initialized. -/
def sqlite3Shutdown (lib : Globals) : Except Crash (Int32 × Globals) := do
  let lib ← (
    if lib.isInit then do
      let mem ← lift (fsDeinit lib.world.list lib.world.mem)
      let lib := { lib with world := { lib.world with list := 0, mem := mem } }
      .ok { lib with isInit := false }
    else .ok lib)
  .ok (sqliteOk, { lib with isPCacheInit := false, isMallocInit := false, isMutexInit := false })

/-- `sqlite3_vfs_unregister`; `sqlite3.c:20149`. -/
def sqlite3VfsUnregister (lib : Globals) (pVfs : Addr) : Except Crash (Int32 × Globals) := do
  let (vfsList, vfs) ← lift (vfsUnlink lib.vfsList lib.vfs pVfs)
  .ok (sqliteOk, { lib with vfsList := vfsList, vfs := vfs })

/-- `sqlite3_vfs_find`; `sqlite3.c:20075`. -/
def sqlite3VfsFind (again : Globals → Except Crash (Int32 × Globals)) (lib : Globals)
    (zVfs : Option CStr) : Except Crash (Addr × Globals) := do
  let (rc, lib) ← again lib
  if rc ≠ sqliteOk then .ok (0, lib)
  else
    let pVfs ← lift (vfsFind lib.vfsList lib.vfs zVfs)
    .ok (pVfs, lib)

/-! ### What the nested calls come to -/

/-- No call of `sqlite3_initialize` is in progress. -/
structure Globals.Quiet (lib : Globals) : Prop where
  inProgress : lib.inProgress = false
  nRefInitMutex : lib.nRefInitMutex = 0
  pInitMutex : lib.pInitMutex = false

/-- The allocator once the default one has taken the place of none. -/
def MemMethods.chosen (m : MemMethods) : MemMethods := if m = .unset then .default else m

/-- The state in which an initialization stops when it has got as far as the flags say. -/
def Globals.stopped (lib : Globals) (malloc pcache : Bool) : Globals :=
  { lib with
    isMutexInit := true, isMallocInit := malloc, isPCacheInit := pcache
    m := if lib.isMallocInit then lib.m else lib.m.chosen }

/-- The state after an initialization. -/
def Globals.started (lib : Globals) (list : Addr) (mem : FsMem) (vfsList : Addr) (vfs : VfsMem) :
    Globals :=
  { lib with
    isInit := true, isMutexInit := true, isMallocInit := true, isPCacheInit := true
    m := .composite, prngState := 4, world := { lib.world with list := list, mem := mem }
    vfsList := vfsList, vfs := vfs }

/-- An initialization without nested calls. -/
def initializeFlat (ans : Answers) (lib : Globals) : Except Crash (Int32 × Globals) :=
  let mallocRc := if lib.isMallocInit then sqliteOk else lib.m.chosen.xInit ans
  let pcacheRc := if lib.isPCacheInit then sqliteOk else ans.pcacheInit
  if lib.isInit then .ok (sqliteOk, lib)
  else if mallocRc ≠ sqliteOk then .ok (mallocRc, lib.stopped false lib.isPCacheInit)
  else if pcacheRc ≠ sqliteOk then .ok (pcacheRc, lib.stopped true lib.isPCacheInit)
  else if ans.tenBytes = false then .ok (sqliteNomem, lib.stopped true true)
  else do
    let (list, mem) ← lift (fsInit { lib.world.mem with answers := ans.grants })
    let (vfsList, vfs) ← lift (vfsLink lib.vfsList lib.vfs lib.compositeVfs true)
    .ok (sqliteOk, lib.started list mem vfsList vfs)

/-- The codes of what a start asks for: the init of the allocator and that of the page cache, as
far as they were not done before, and ten bytes. -/
def startCodes (lib : Globals) (ans : Answers) : List Int32 :=
  [if lib.isMallocInit then sqliteOk else lib.m.chosen.xInit ans,
    if lib.isPCacheInit then sqliteOk else ans.pcacheInit,
    if ans.tenBytes then sqliteOk else sqliteNomem]

/-- The first code of a start that is not `SQLITE_OK`. -/
def firstFailure (lib : Globals) (ans : Answers) : Option Int32 :=
  (startCodes lib ans).find? (· ≠ sqliteOk)

/-- The environment refuses a start something, with that code. -/
def Answers.Refuses (ans : Answers) (rc : Int32) : Prop :=
  rc ≠ sqliteOk ∧
    (rc = ans.xInit ∨ rc = ans.pcacheInit ∨ rc = sqliteNomem ∧ ans.tenBytes = false)

/-- A call of `sqlite3_initialize` is in progress, and it was the first one. -/
structure Globals.Busy (lib : Globals) : Prop where
  isInit : lib.isInit = false
  inProgress : lib.inProgress = true
  isMutexInit : lib.isMutexInit = true
  isMallocInit : lib.isMallocInit = true
  nRefInitMutex : lib.nRefInitMutex = 1
  pInitMutex : lib.pInitMutex = true

section

variable {lib : Globals} {ans : Answers}

/-- A call made while another is in progress returns at once and changes nothing. -/
theorem sqlite3Initialize_busy (depth : Nat) (hb : lib.Busy) :
    sqlite3Initialize (depth + 1) ans lib = .ok (sqliteOk, lib) := by
  obtain ⟨isInit, inProgress, isMutexInit, isMallocInit, _, nRefInitMutex, pInitMutex⟩ := lib
  obtain ⟨hi, hp, hm, ha, hn, hx⟩ := hb
  dsimp only at hi hp hm ha hx hn
  subst hi hp hm ha hx hn
  have hback : (1 : Int32) + 1 - 1 = 1 := by decide
  have hpos : ¬ (1 : Int32) ≤ 0 := by decide
  simp only [sqlite3Initialize, initializeOnce, Bool.false_eq_true, ↓reduceIte, ne_eq, not_true,
    reduceCtorEq, and_false, ok_bind, hback, hpos]

/-- The OS layer is initialized with nested calls that change nothing. -/
theorem sqlite3OsInit_busy (depth : Nat) (hb : lib.Busy) :
    sqlite3OsInit (sqlite3Initialize (depth + 1) ans) ans lib =
      if ans.tenBytes = false then .ok (sqliteNomem, lib)
      else (do
        let (list, mem) ← lift (fsInit { lib.world.mem with answers := ans.grants })
        let (vfsList, vfs) ← lift (vfsLink lib.vfsList lib.vfs lib.compositeVfs true)
        .ok (sqliteOk, { lib with
          m := .composite, prngState := 4, world := { lib.world with list := list, mem := mem }
          vfsList := vfsList, vfs := vfs })) := by
  have hnot : ¬ (lib.isInit = true) := by simp [hb.isInit]
  simp only [sqlite3OsInit, sqlite3Initialize_busy depth hb, ok_bind, ne_eq, not_true, false_or]
  split
  · rfl
  · simp only [sqlite3OsInitComposite, sqlite3ConfigMalloc, if_neg hnot]
    cases lift (fsInit { lib.world.mem with answers := ans.grants }) with
    | error e => rfl
    | ok x =>
      have hb' : Globals.Busy { lib with
          m := .composite, prngState := 4
          world := { lib.world with list := x.1, mem := x.2 } } :=
        ⟨hb.isInit, hb.inProgress, hb.isMutexInit, hb.isMallocInit, hb.nRefInitMutex,
          hb.pInitMutex⟩
      simp only [ok_bind, sqlite3VfsRegister, sqlite3Initialize_busy depth hb', ne_eq, not_true,
        ↓reduceIte]
      cases lift (vfsLink lib.vfsList lib.vfs lib.compositeVfs true) <;> rfl

/-- The part under the recursive mutex, when the call is the first one in progress. -/
theorem initializeOnce_quiet (depth : Nat) (hi : lib.isInit = false) (hp : lib.inProgress = false)
    (hm : lib.isMutexInit = true) (ha : lib.isMallocInit = true) (hn : lib.nRefInitMutex = 1)
    (hx : lib.pInitMutex = true) :
    initializeOnce (sqlite3Initialize (depth + 1) ans) ans lib =
      let pcacheRc := if lib.isPCacheInit then sqliteOk else ans.pcacheInit
      if pcacheRc ≠ sqliteOk then .ok (pcacheRc, lib)
      else if ans.tenBytes = false then .ok (sqliteNomem, { lib with isPCacheInit := true })
      else (do
        let (list, mem) ← lift (fsInit { lib.world.mem with answers := ans.grants })
        let (vfsList, vfs) ← lift (vfsLink lib.vfsList lib.vfs lib.compositeVfs true)
        .ok (sqliteOk, { lib with
          isInit := true, isPCacheInit := true, m := .composite, prngState := 4
          world := { lib.world with list := list, mem := mem }
          vfsList := vfsList, vfs := vfs })) := by
  obtain ⟨isInit, inProgress, isMutexInit, isMallocInit, isPCacheInit, nRefInitMutex,
    pInitMutex⟩ := lib
  dsimp only at hi hp hm ha hx hn
  subst hi hp hm ha hx hn
  have hok : ¬ sqliteNomem = sqliteOk := by decide
  simp only [initializeOnce, and_self, ↓reduceIte]
  generalize (if isPCacheInit then sqliteOk else ans.pcacheInit) = pcacheRc
  by_cases hrc : pcacheRc ≠ sqliteOk
  · rw [if_pos hrc, if_pos hrc]
  · rw [if_neg hrc, if_neg hrc, sqlite3OsInit_busy depth ⟨rfl, rfl, rfl, rfl, rfl, rfl⟩]
    by_cases hten : ans.tenBytes = false
    · rw [if_pos hten, if_pos hten, ok_bind, if_neg hok]
    · rw [if_neg hten, if_neg hten]
      dsimp only
      cases lift (fsInit _) with
      | error e => rfl
      | ok x =>
        simp only [ok_bind]
        cases lift (vfsLink _ _ _ true) with
        | error e => rfl
        | ok y => simp only [ok_bind, ↓reduceIte]

/-- A call made while none is in progress comes to the flat one, however deep its nested calls
may go. -/
theorem sqlite3Initialize_eq (hq : lib.Quiet) (depth : Nat) :
    sqlite3Initialize (depth + 2) ans lib = initializeFlat ans lib := by
  obtain ⟨isInit, inProgress, isMutexInit, isMallocInit, isPCacheInit, nRefInitMutex, pInitMutex,
    m, vfsList, vfs, compositeVfs, prngState, world⟩ := lib
  obtain ⟨hp, hn, hx⟩ := hq
  dsimp only at hp hn hx
  subst hp hn hx
  cases isInit with
  | true => rfl
  | false =>
    have hup : (0 : Int32) + 1 = 1 := by decide
    have hdown : (1 : Int32) - 1 = 0 := by decide
    have hzero : (0 : Int32) ≤ 0 := by decide
    have hok : ¬ (sqliteOk ≠ sqliteOk) := by decide
    -- The rest of the call, once the allocator is set up.
    have hrest (m : MemMethods) : (do
        let (rc, lib) ← initializeOnce (sqlite3Initialize (depth + 1) ans) ans
          ⟨false, false, true, true, isPCacheInit, 1, true, m, vfsList, vfs, compositeVfs,
            prngState, world⟩
        let lib := { lib with nRefInitMutex := lib.nRefInitMutex - 1 }
        .ok (rc, if lib.nRefInitMutex ≤ 0 then { lib with pInitMutex := false } else lib)) =
        initializeFlat ans ⟨false, false, true, true, isPCacheInit, 0, false, m, vfsList, vfs,
          compositeVfs, prngState, world⟩ := by
      rw [initializeOnce_quiet depth rfl rfl rfl rfl rfl rfl, initializeFlat]
      generalize (if isPCacheInit then sqliteOk else ans.pcacheInit) = pcacheRc
      dsimp only
      by_cases hrc : pcacheRc ≠ sqliteOk
      · rw [if_pos hrc]
        simp only [ok_bind, hdown, hzero, ↓reduceIte, Bool.false_eq_true, if_neg hok, if_pos hrc]
        rfl
      · rw [if_neg hrc]
        simp only [↓reduceIte, Bool.false_eq_true, if_neg hok, if_neg hrc]
        by_cases hten : ans.tenBytes = false
        · rw [if_pos hten, if_pos hten, ok_bind]
          simp only [hdown, hzero, ↓reduceIte]
          rfl
        · rw [if_neg hten, if_neg hten]
          cases lift (fsInit _) with
          | error e => rfl
          | ok x =>
            simp only [ok_bind]
            cases lift (vfsLink _ _ _ true) with
            | error e => rfl
            | ok y =>
              simp only [ok_bind, hdown, hzero, ↓reduceIte]
              rfl
    rw [sqlite3Initialize]
    cases isMallocInit with
    | true =>
      simp only [Bool.false_eq_true, ↓reduceIte, if_neg hok, hup]
      rw [hrest]
      rfl
    | false =>
      have hinit (lib : Globals) : sqlite3MallocInit ans lib =
          (lib.m.chosen.xInit ans, { lib with m := lib.m.chosen }) := by
        unfold sqlite3MallocInit MemMethods.chosen
        split <;> rfl
      simp only [Bool.false_eq_true, ↓reduceIte, hinit]
      rw [initializeFlat]
      simp only [Bool.false_eq_true, ↓reduceIte]
      by_cases hrc : m.chosen.xInit ans ≠ sqliteOk
      · rw [if_pos hrc, if_pos hrc]
        rfl
      · rw [if_neg hrc, if_neg hrc]
        simp only [hup]
        rw [hrest, initializeFlat]
        simp only [Bool.false_eq_true, ↓reduceIte, if_neg hok]
        rfl

/-- The first code that is an error is that of the allocator, or else of the page cache, or else
of the ten bytes. -/
private theorem find_code {c₁ c₂ c₃ rc : Int32} :
    [c₁, c₂, c₃].find? (fun c ↦ decide (c ≠ sqliteOk)) = some rc ↔
      (c₁ ≠ sqliteOk ∧ c₁ = rc) ∨ (c₁ = sqliteOk ∧ c₂ ≠ sqliteOk ∧ c₂ = rc) ∨
        (c₁ = sqliteOk ∧ c₂ = sqliteOk ∧ c₃ ≠ sqliteOk ∧ c₃ = rc) := by
  by_cases h₁ : c₁ = sqliteOk <;> by_cases h₂ : c₂ = sqliteOk <;>
    by_cases h₃ : c₃ = sqliteOk <;> simp [h₁, h₂, h₃]

/-- A start that is refused nothing has the ten bytes. -/
theorem tenBytes_of_none (hf : firstFailure lib ans = none) : ans.tenBytes = true := by
  by_contra h
  simp [firstFailure, startCodes, h, sqliteOk, sqliteNomem] at hf

/-- The environment answers a start with a code that is an error. -/
theorem refuses_of_firstFailure {rc : Int32} (hf : firstFailure lib ans = some rc) :
    ans.Refuses rc := by
  rcases find_code.mp hf with ⟨hm, rfl⟩ | ⟨_, hp, rfl⟩ | ⟨_, _, ht, rfl⟩
  · refine ⟨hm, .inl ?_⟩
    cases hi : lib.isMallocInit with
    | true => simp [hi] at hm
    | false =>
      rw [hi] at hm
      cases hc : lib.m.chosen with
      | application n => rfl
      | unset | default | composite => simp [hc, MemMethods.xInit] at hm
  · refine ⟨hp, .inr (.inl ?_)⟩
    split at hp
    · exact absurd rfl hp
    · next hi => exact if_neg hi
  · refine ⟨ht, .inr (.inr ?_)⟩
    cases hten : ans.tenBytes with
    | true => simp [hten] at ht
    | false => exact ⟨rfl, rfl⟩

/-- A start returns the first code that is an error. -/
theorem initializeFlat_failed (hi : lib.isInit = false) {rc : Int32}
    (hf : firstFailure lib ans = some rc) :
    ∃ malloc pcache, initializeFlat ans lib = .ok (rc, lib.stopped malloc pcache) := by
  have hnot : ¬ lib.isInit = true := by simp [hi]
  rw [initializeFlat]
  dsimp only
  rw [if_neg hnot]
  rcases find_code.mp hf with ⟨hm, rfl⟩ | ⟨hm, hp, rfl⟩ | ⟨hm, hp, ht, rfl⟩
  · rw [if_pos hm]
    exact ⟨_, _, rfl⟩
  · rw [if_neg (not_not.mpr hm), if_pos hp]
    exact ⟨_, _, rfl⟩
  · have hten : ans.tenBytes = false := by
      by_contra h
      rw [if_pos (by simpa using h)] at ht
      exact ht rfl
    rw [if_neg (not_not.mpr hm), if_neg (not_not.mpr hp), if_pos hten, if_neg (by simp [hten])]
    exact ⟨_, _, rfl⟩

/-- A start that is refused nothing sets up the filesystem and registers the static VFS. -/
theorem initializeFlat_granted (hi : lib.isInit = false) (hf : firstFailure lib ans = none) :
    initializeFlat ans lib = (do
      let (list, mem) ← lift (fsInit { lib.world.mem with answers := ans.grants })
      let (vfsList, vfs) ← lift (vfsLink lib.vfsList lib.vfs lib.compositeVfs true)
      .ok (sqliteOk, lib.started list mem vfsList vfs)) := by
  have hnot : ¬ lib.isInit = true := by simp [hi]
  simp only [firstFailure, startCodes, List.find?_eq_none, List.mem_cons, List.not_mem_nil,
    or_false, forall_eq_or_imp, forall_eq, decide_not, Bool.not_eq_true', decide_eq_false_iff_not,
    not_not] at hf
  obtain ⟨hm, hp, ht⟩ := hf
  have hten : ¬ ans.tenBytes = false := by
    intro h
    rw [if_neg (by simp [h])] at ht
    exact absurd ht (by decide)
  rw [initializeFlat]
  dsimp only
  rw [if_neg hnot, if_neg (not_not.mpr hm), if_neg (not_not.mpr hp), if_neg hten]

end

end SqliteComposite.Library
