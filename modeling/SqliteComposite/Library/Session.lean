import SqliteComposite.Inmemfs.Ownership
import SqliteComposite.Library.Initialize
import SqliteComposite.Vfs.Refinement

/-!
# The library refines a session

A session is what an application sees of the library: whether it runs, which VFSs are registered
in which order, and while it runs the files. A file survives until the shutdown; a registered VFS
survives it, and the one of this repository comes first after every start. The library starts
by itself when a VFS is registered or looked up.
-/

namespace SqliteComposite.Library

open Base Inmemfs Vfs

/-! ### Calls of the library -/

/-- The calls an application makes, those on files among them. -/
inductive Api where
  | init
  | shutdown
  | configMalloc (m : MemMethods)
  | vfsRegister (pVfs : Addr) (makeDflt : Bool)
  | vfsUnregister (pVfs : Addr)
  | vfsFind (zVfs : Option CStr)
  | file (c : Call)

/-- A call and what the environment answers during it. -/
structure ApiCall where
  call : Api
  answers : Answers

/-- What a call returns. -/
inductive ApiReply where
  | code (rc : Int32)
  | vfs (pVfs : Addr)
  | file (r : Reply)

/-- One call. Nested calls of `sqlite3_initialize` need a depth of two. -/
def Globals.step (lib : Globals) (q : ApiCall) : Except Crash (ApiReply × Globals) :=
  let again := sqlite3Initialize 2 q.answers
  match q.call with
  | .init => do
    let (rc, lib) ← again lib
    .ok (.code rc, lib)
  | .shutdown => do
    let (rc, lib) ← sqlite3Shutdown lib
    .ok (.code rc, lib)
  | .configMalloc m =>
    let (rc, lib) := sqlite3ConfigMalloc lib m
    .ok (.code rc, lib)
  | .vfsRegister pVfs makeDflt => do
    let (rc, lib) ← sqlite3VfsRegister again lib pVfs makeDflt
    .ok (.code rc, lib)
  | .vfsUnregister pVfs => do
    let (rc, lib) ← sqlite3VfsUnregister lib pVfs
    .ok (.code rc, lib)
  | .vfsFind zVfs => do
    let (pVfs, lib) ← sqlite3VfsFind again lib zVfs
    .ok (.vfs pVfs, lib)
  | .file c => do
    let (r, w) ← lift (lib.world.step ⟨c, q.answers.grants⟩)
    .ok (.file r, { lib with world := w })

/-- The library before any call: no flag is set, no VFS is listed, and no block is live. The
application's structs, and the static one at `compositeVfs`, have the names of `names`. -/
structure Fresh (names : Addr → CStr) (compositeVfs : Addr) (lib : Globals) : Prop where
  quiet : lib.Quiet
  isInit : lib.isInit = false
  vfsList : lib.vfsList = 0
  named : ∀ a v, lib.vfs.heap[a]? = some (.record v) → v.zName = names a
  address : lib.compositeVfs = compositeVfs
  static : compositeVfs ≠ 0 ∧ IsStruct lib.vfs compositeVfs
  handles : lib.world.handles = []
  heap : lib.world.mem.heap = ∅

/-- The library with its answers. -/
def libraryMachine (names : Addr → CStr) (compositeVfs : Addr) :
    Machine Globals ApiCall ApiReply where
  init := Fresh names compositeVfs
  step lib q r lib' := lib.step q = .ok (r, lib')

/-- The calls made: only structs are registered, the library is shut down with no handle open, and
files are used while it runs, by ordinary calls. -/
structure Allowed (lib : Globals) (q : ApiCall) : Prop where
  register : ∀ pVfs makeDflt, q.call = .vfsRegister pVfs makeDflt →
    pVfs ≠ 0 ∧ IsStruct lib.vfs pVfs
  shutdown : q.call = .shutdown → lib.world.handles = []
  file : ∀ c, q.call = .file c → lib.isInit = true ∧ Ordinary lib.world ⟨c, q.answers.grants⟩

/-! ### Sessions -/

/-- Whether the library runs, the VFSs in order, and the files. -/
structure Session where
  running : Bool
  vfss : List Addr
  store : FileStore

namespace Session

/-- No VFS and no file. -/
def empty : Session := ⟨false, [], .empty⟩

/-- The session once the library runs: a start registers the static VFS as the default one. -/
def start (s : Session) (compositeVfs : Addr) : Session :=
  if s.running then s else ⟨true, registered s.vfss compositeVfs true, .empty⟩

/-- The library runs, or may be started: the ten bytes are granted. -/
def MayStart (s : Session) (ans : Answers) : Prop := s.running = true ∨ ans.tenBytes = true

/-- The library does not run, and a start is refused something. -/
def MayFail (s : Session) (ans : Answers) (rc : Int32) : Prop :=
  s.running = false ∧ ans.Refuses rc

/-- What a call may answer, and the session it leaves. Of what the environment answers it matters
what it refuses a start. -/
inductive Step (names : Addr → CStr) (compositeVfs : Addr) (s : Session) :
    ApiCall → ApiReply → Session → Prop
  | started {ans : Answers} : s.MayStart ans →
      Step names compositeVfs s ⟨.init, ans⟩ (.code sqliteOk) (s.start compositeVfs)
  | notStarted {ans : Answers} {rc : Int32} : s.MayFail ans rc →
      Step names compositeVfs s ⟨.init, ans⟩ (.code rc) s
  | stopped {ans : Answers} : Step names compositeVfs s ⟨.shutdown, ans⟩ (.code sqliteOk)
      { s with running := false, store := .empty }
  | configured {ans : Answers} {m : MemMethods} :
      Step names compositeVfs s ⟨.configMalloc m, ans⟩
        (.code (if s.running then sqliteMisuse else sqliteOk)) s
  | registered {ans : Answers} {pVfs : Addr} {makeDflt : Bool} : s.MayStart ans →
      Step names compositeVfs s ⟨.vfsRegister pVfs makeDflt, ans⟩ (.code sqliteOk)
        { s.start compositeVfs with
          vfss := Library.registered (s.start compositeVfs).vfss pVfs makeDflt }
  | notRegistered {ans : Answers} {pVfs : Addr} {makeDflt : Bool} {rc : Int32} :
      s.MayFail ans rc → Step names compositeVfs s ⟨.vfsRegister pVfs makeDflt, ans⟩ (.code rc) s
  | unregistered {ans : Answers} {pVfs : Addr} :
      Step names compositeVfs s ⟨.vfsUnregister pVfs, ans⟩ (.code sqliteOk)
        { s with vfss := s.vfss.erase pVfs }
  | found {ans : Answers} {zVfs : Option CStr} : s.MayStart ans →
      Step names compositeVfs s ⟨.vfsFind zVfs, ans⟩
        (.vfs (Library.found names (s.start compositeVfs).vfss zVfs)) (s.start compositeVfs)
  | notFound {ans : Answers} {zVfs : Option CStr} {rc : Int32} : s.MayFail ans rc →
      Step names compositeVfs s ⟨.vfsFind zVfs, ans⟩ (.vfs 0) s
  | file {ans : Answers} {c : Call} {r : Reply} {store : FileStore} : s.running = true →
      FileStore.Step s.store c r store →
      Step names compositeVfs s ⟨.file c, ans⟩ (.file r) { s with store := store }

/-- Sessions, empty at first. -/
def machine (names : Addr → CStr) (compositeVfs : Addr) : Machine Session ApiCall ApiReply where
  init s := s = empty
  step := Step names compositeVfs

end Session

/-- The state of the library stands for a session. While the library does not run, no handle is
open and no block is live. -/
structure Stands (names : Addr → CStr) (compositeVfs : Addr) (lib : Globals) (s : Session) :
    Prop where
  quiet : lib.Quiet
  running : s.running = lib.isInit
  allocator : lib.isInit = true → lib.m = .composite
  listed : Listed names lib.vfsList lib.vfs s.vfss
  address : lib.compositeVfs = compositeVfs
  static : compositeVfs ≠ 0 ∧ IsStruct lib.vfs compositeVfs
  up : lib.isInit = true → StandsFor lib.world s.store
  down : lib.isInit = false →
    lib.world.handles = [] ∧ lib.world.mem.heap = ∅ ∧ s.store = .empty

/-! ### The calls -/

/-- A heap without blocks is the empty one. -/
theorem heap_eq_empty {σ : Type} {h : Heap σ} (he : ∀ a, a ∉ h) : h = ∅ := by
  apply Std.ExtTreeMap.ext_getElem?
  intro a
  rw [Std.ExtTreeMap.getElem?_eq_none (he a), Std.ExtTreeMap.getElem?_empty]

section

variable {names : Addr → CStr} {compositeVfs : Addr} {lib lib' : Globals} {s : Session}
  {ans : Answers} {rc : Int32}

/-- The counters of nested calls are all there is to being quiet. -/
theorem quiet_of_eq (hq : lib.Quiet) (hp : lib'.inProgress = lib.inProgress)
    (hn : lib'.nRefInitMutex = lib.nRefInitMutex) (hx : lib'.pInitMutex = lib.pInitMutex) :
    lib'.Quiet :=
  ⟨hp.trans hq.inProgress, hn.trans hq.nRefInitMutex, hx.trans hq.pInitMutex⟩

/-- A filesystem that starts in an empty heap stands for the empty store. -/
theorem standsFor_start {w : World} {list : Addr} {mem : FsMem} (hw : w.handles = [])
    {as : List (Option Grant)} (he : fsInit ⟨∅, as⟩ = .ok (list, mem)) :
    StandsFor { w with list := list, mem := mem } .empty := by
  obtain ⟨st, rfl, hst⟩ := simulation.init { w with list := list, mem := mem } ⟨hw, as, he⟩
  exact hst

/-- The library stands for the session whatever the flags of a stopped start are. -/
theorem Stands.stopped (hs : Stands names compositeVfs lib s) (hi : lib.isInit = false)
    (malloc pcache : Bool) : Stands names compositeVfs (lib.stopped malloc pcache) s where
  quiet := quiet_of_eq hs.quiet rfl rfl rfl
  running := hs.running
  allocator h := absurd (hi.symm.trans h) (by simp)
  listed := hs.listed
  address := hs.address
  static := hs.static
  up h := absurd (hi.symm.trans h) (by simp)
  down := hs.down

/-- `sqlite3_initialize` starts the session, or is refused something and leaves it. -/
theorem Stands.again (hs : Stands names compositeVfs lib s)
    (he : sqlite3Initialize 2 ans lib = .ok (rc, lib')) :
    (rc = sqliteOk ∧ s.MayStart ans ∧ lib'.isInit = true ∧
      (∀ a, IsStruct lib'.vfs a ↔ IsStruct lib.vfs a) ∧
      Stands names compositeVfs lib' (s.start compositeVfs)) ∨
    (rc ≠ sqliteOk ∧ s.MayFail ans rc ∧ Stands names compositeVfs lib' s) := by
  rw [sqlite3Initialize_eq hs.quiet 0] at he
  cases hi : lib.isInit with
  | true =>
    simp only [initializeFlat, hi, ↓reduceIte] at he
    cases he
    have hrun : s.running = true := hs.running.trans hi
    have hstart : s.start compositeVfs = s := by rw [Session.start, if_pos hrun]
    exact .inl ⟨rfl, .inl hrun, hi, fun _ ↦ Iff.rfl, hstart.symm ▸ hs⟩
  | false =>
    have hrun : s.running = false := hs.running.trans hi
    cases hf : firstFailure lib ans with
    | some rc₁ =>
      have hrefuses := refuses_of_firstFailure hf
      obtain ⟨malloc, pcache, hflat⟩ := initializeFlat_failed hi hf
      rw [hflat] at he
      cases he
      exact .inr ⟨hrefuses.1, ⟨hrun, hrefuses⟩, hs.stopped hi _ _⟩
    | none =>
      rw [initializeFlat_granted hi hf] at he
      obtain ⟨⟨list, mem⟩, hinit, he⟩ := bind_ok he
      obtain ⟨⟨vfsList, vfs⟩, hlink, he⟩ := bind_ok he
      cases he
      obtain ⟨hhandles, hheap, _⟩ := hs.down hi
      rw [lift_eq_ok] at hinit hlink
      obtain ⟨vfsList', vfs', hlink', hlisted, hstruct⟩ :=
        vfsLink_spec hs.listed hs.static.1 hs.static.2 true
      rw [hs.address, hlink'] at hlink
      cases hlink
      have hmem : ({ lib.world.mem with answers := ans.grants } : FsMem) = ⟨∅, ans.grants⟩ := by
        rw [← hheap]
      rw [hmem] at hinit
      have hstart : s.start compositeVfs =
          ⟨true, registered s.vfss compositeVfs true, .empty⟩ := by
        rw [Session.start, hrun, if_neg (by simp)]
      refine .inl ⟨rfl, .inr (tenBytes_of_none hf), rfl, hstruct, ?_⟩
      rw [hstart]
      exact {
        quiet := quiet_of_eq hs.quiet rfl rfl rfl
        running := rfl
        allocator := fun _ ↦ rfl
        listed := hlisted
        address := hs.address
        static := ⟨hs.static.1, (hstruct _).mpr hs.static.2⟩
        up := fun _ ↦ standsFor_start hhandles hinit
        down := fun h ↦ Bool.noConfusion h }

/-- Another list of VFSs stands for the session with that list. -/
theorem Stands.relisted (hs : Stands names compositeVfs lib s) {vfsList : Addr} {vfs : VfsMem}
    {vfss : List Addr} (hl : Listed names vfsList vfs vfss)
    (hstruct : ∀ a, IsStruct vfs a ↔ IsStruct lib.vfs a) :
    Stands names compositeVfs { lib with vfsList := vfsList, vfs := vfs }
      { s with vfss := vfss } where
  quiet := quiet_of_eq hs.quiet rfl rfl rfl
  running := hs.running
  allocator := hs.allocator
  listed := hl
  address := hs.address
  static := ⟨hs.static.1, (hstruct _).mpr hs.static.2⟩
  up := hs.up
  down := hs.down

/-- A shutdown leaves no handle open and no block live. -/
private theorem Stands.shutdown (hs : Stands names compositeVfs lib s)
    (hh : lib.world.handles = []) (he : sqlite3Shutdown lib = .ok (rc, lib')) :
    rc = sqliteOk ∧
      Stands names compositeVfs lib' { s with running := false, store := .empty } := by
  obtain ⟨lib₂, hend, he⟩ := bind_ok he
  cases he
  refine ⟨rfl, ?_⟩
  cases hi : lib.isInit with
  | true =>
    simp only [hi, ↓reduceIte] at hend
    obtain ⟨mem, hmem, hend⟩ := bind_ok hend
    cases hend
    obtain ⟨l, g, hrep, _⟩ := hs.up hi
    obtain ⟨mem', hfs, hnone⟩ := fsDeinit_spec hrep.sound.rep
    rw [lift_eq_ok, hfs] at hmem
    cases hmem
    exact {
      quiet := quiet_of_eq hs.quiet rfl rfl rfl
      running := rfl
      allocator := fun h ↦ Bool.noConfusion h
      listed := hs.listed
      address := hs.address
      static := hs.static
      up := fun h ↦ Bool.noConfusion h
      down := fun _ ↦ ⟨hh, heap_eq_empty hnone, rfl⟩ }
  | false =>
    simp only [hi, Bool.false_eq_true, ↓reduceIte] at hend
    cases hend
    have hoff {p : Prop} (h : lib.isInit = true) : p := absurd (hi.symm.trans h) (by simp)
    exact {
      quiet := quiet_of_eq hs.quiet rfl rfl rfl
      running := hi.symm
      allocator := hoff
      listed := hs.listed
      address := hs.address
      static := hs.static
      up := hoff
      down := fun _ ↦ ⟨hh, (hs.down hi).2.1, rfl⟩ }

/-- Every call is one of the session. -/
theorem Stands.step (hs : Stands names compositeVfs lib s) {q : ApiCall} {r : ApiReply}
    (hq : Allowed lib q) (he : lib.step q = .ok (r, lib')) :
    ∃ s', Session.Step names compositeVfs s q r s' ∧ Stands names compositeVfs lib' s' := by
  obtain ⟨c, ans⟩ := q
  cases c with
  | init =>
    obtain ⟨⟨rc, lib₁⟩, hinit, he⟩ := bind_ok he
    cases he
    rcases hs.again hinit with ⟨rfl, hmay, _, _, hs'⟩ | ⟨_, hfail, hs'⟩
    · exact ⟨_, .started hmay, hs'⟩
    · exact ⟨_, .notStarted hfail, hs'⟩
  | shutdown =>
    obtain ⟨⟨rc, lib₁⟩, hdown, he⟩ := bind_ok he
    cases he
    obtain ⟨rfl, hs'⟩ := hs.shutdown (hq.shutdown rfl) hdown
    exact ⟨_, .stopped, hs'⟩
  | configMalloc m =>
    have hstep : Session.Step names compositeVfs s ⟨.configMalloc m, ans⟩
        (.code (if s.running then sqliteMisuse else sqliteOk)) s := .configured
    rw [hs.running] at hstep
    simp only [Globals.step, sqlite3ConfigMalloc] at he
    split at he
    · next hi =>
      cases he
      rw [if_pos hi] at hstep
      exact ⟨s, hstep, hs⟩
    · next hi =>
      cases he
      rw [if_neg hi] at hstep
      exact ⟨s, hstep, {
        quiet := quiet_of_eq hs.quiet rfl rfl rfl
        running := hs.running
        allocator := fun h ↦ absurd h hi
        listed := hs.listed
        address := hs.address
        static := hs.static
        up := hs.up
        down := hs.down }⟩
  | vfsRegister pVfs makeDflt =>
    obtain ⟨⟨rc, lib₁⟩, hreg, he⟩ := bind_ok he
    cases he
    obtain ⟨⟨rc₁, lib₂⟩, hinit, hreg⟩ := bind_ok hreg
    rcases hs.again hinit with ⟨rfl, hmay, _, hstruct, hs'⟩ | ⟨hrc, hfail, hs'⟩
    · dsimp only at hreg
      rw [if_neg (by decide)] at hreg
      obtain ⟨⟨vfsList, vfs⟩, hlink, hreg⟩ := bind_ok hreg
      cases hreg
      obtain ⟨hp0, hp⟩ := hq.register pVfs makeDflt rfl
      obtain ⟨vfsList', vfs', hlink', hlisted, hstruct'⟩ :=
        vfsLink_spec hs'.listed hp0 ((hstruct pVfs).mpr hp) makeDflt
      rw [lift_eq_ok, hlink'] at hlink
      cases hlink
      exact ⟨_, .registered hmay, hs'.relisted hlisted hstruct'⟩
    · dsimp only at hreg
      rw [if_pos hrc] at hreg
      cases hreg
      exact ⟨_, .notRegistered hfail, hs'⟩
  | vfsUnregister pVfs =>
    obtain ⟨⟨rc, lib₁⟩, hun, he⟩ := bind_ok he
    cases he
    obtain ⟨⟨vfsList, vfs⟩, hlink, hun⟩ := bind_ok hun
    cases hun
    obtain ⟨vfsList', vfs', hlink', hlisted, hstruct⟩ := vfsUnlink_spec hs.listed pVfs
    rw [lift_eq_ok, hlink'] at hlink
    cases hlink
    exact ⟨_, .unregistered, hs.relisted hlisted hstruct⟩
  | vfsFind zVfs =>
    obtain ⟨⟨pVfs, lib₁⟩, hfind, he⟩ := bind_ok he
    cases he
    obtain ⟨⟨rc, lib₂⟩, hinit, hfind⟩ := bind_ok hfind
    rcases hs.again hinit with ⟨rfl, hmay, _, _, hs'⟩ | ⟨hrc, hfail, hs'⟩
    · dsimp only at hfind
      rw [if_neg (by decide), vfsFind_eq hs'.listed] at hfind
      cases hfind
      exact ⟨_, .found hmay, hs'⟩
    · dsimp only at hfind
      rw [if_pos hrc] at hfind
      cases hfind
      exact ⟨_, .notFound hfail, hs'⟩
  | file c =>
    obtain ⟨⟨reply, w⟩, hstep, he⟩ := bind_ok he
    cases he
    rw [lift_eq_ok] at hstep
    obtain ⟨hi, hord⟩ := hq.file c rfl
    obtain ⟨store, hfs, hst⟩ := simulation.step _ _ _ _ _ (hs.up hi) hord hstep
    exact ⟨_, .file (hs.running.trans hi) hfs, {
      quiet := quiet_of_eq hs.quiet rfl rfl rfl
      running := hs.running
      allocator := hs.allocator
      listed := hs.listed
      address := hs.address
      static := hs.static
      up := fun _ ↦ hst
      down := fun h ↦ absurd (hi.symm.trans h) (by simp) }⟩

end

/-! ### Runs -/

variable (names : Addr → CStr) (compositeVfs : Addr)

/-- The session answers every call of the library the same way. -/
theorem session_simulation : Machine.Simulation (libraryMachine names compositeVfs)
    (Session.machine names compositeVfs) Allowed id (Stands names compositeVfs) where
  init := by
    intro lib hf
    refine ⟨.empty, rfl, hf.quiet, hf.isInit.symm, ?_, ?_, hf.address, hf.static, ?_, ?_⟩
    · exact fun h ↦ absurd (hf.isInit.symm.trans h) (by simp)
    · exact ⟨hf.vfsList, List.nodup_nil, hf.named⟩
    · exact fun h ↦ absurd (hf.isInit.symm.trans h) (by simp)
    · exact fun _ ↦ ⟨hf.handles, hf.heap, rfl⟩
  step := fun _ _ _ _ _ hs hq he ↦ hs.step hq he

/-- In every state of every run, `sqlite3_initialize` changes nothing if the library runs, however
deep its nested calls may go. Otherwise it returns the first code that is an error, of the init
of the allocator, that of the page cache and ten bytes, having left no block; it dereferences null
when only the filesystem is refused its sentinel; and it succeeds with the composite allocator, the
static VFS as the default one, the generator seeded and no file. -/
theorem init_outcome {tr : List (ApiCall × ApiReply)} {lib : Globals}
    (hr : (libraryMachine names compositeVfs).Run Allowed tr lib) (ans : Answers) (depth : Nat) :
    (lib.isInit = true → sqlite3Initialize (depth + 2) ans lib = .ok (sqliteOk, lib)) ∧
    (lib.isInit = false → ∀ rc, firstFailure lib ans = some rc → ∃ lib',
      sqlite3Initialize (depth + 2) ans lib = .ok (rc, lib') ∧ lib'.isInit = false ∧
      ∀ a, a ∉ lib'.world.mem.heap) ∧
    (lib.isInit = false → firstFailure lib ans = none → ¬ GrantsSentinel ans.grants →
      sqlite3Initialize (depth + 2) ans lib = .error (.fault .wildAccess)) ∧
    (lib.isInit = false → firstFailure lib ans = none → GrantsSentinel ans.grants →
      ∃ lib', sqlite3Initialize (depth + 2) ans lib = .ok (sqliteOk, lib') ∧
        lib'.isInit = true ∧ lib'.m = .composite ∧ lib'.prngState = 4 ∧
        vfsFind lib'.vfsList lib'.vfs none = .ok compositeVfs ∧
        StandsFor lib'.world .empty) := by
  obtain ⟨s, _, hs⟩ := (session_simulation names compositeVfs).run hr
  rw [sqlite3Initialize_eq hs.quiet depth]
  have hmem (hi : lib.isInit = false) :
      ({ lib.world.mem with answers := ans.grants } : FsMem) = ⟨∅, ans.grants⟩ := by
    rw [← (hs.down hi).2.1]
  refine ⟨fun hi ↦ ?_, fun hi rc hf ↦ ?_, fun hi hf hno ↦ ?_, fun hi hf hyes ↦ ?_⟩
  · rw [initializeFlat]
    exact if_pos hi
  · obtain ⟨malloc, pcache, hflat⟩ := initializeFlat_failed hi hf
    refine ⟨_, hflat, hi, fun a ↦ ?_⟩
    change a ∉ lib.world.mem.heap
    rw [(hs.down hi).2.1]
    exact Std.ExtTreeMap.not_mem_empty
  · rw [initializeFlat_granted hi hf, hmem hi, fsInit_refused hno]
    rfl
  · obtain ⟨vfsList, vfs, hlink, hlisted, _⟩ :=
      vfsLink_spec hs.listed hs.static.1 hs.static.2 true
    obtain ⟨list, mem, hinit⟩ := fsInit_granted hyes
    rw [initializeFlat_granted hi hf, hmem hi, hinit, hs.address, hlink]
    refine ⟨_, rfl, rfl, rfl, rfl, ?_, standsFor_start (hs.down hi).1 hinit⟩
    exact vfsFind_eq hlisted none

/-! ### A concrete run -/

/-- A check that is enough for a call to be made. -/
def Globals.allows (lib : Globals) (q : ApiCall) : Bool :=
  match q.call with
  | .init | .configMalloc _ | .vfsUnregister _ | .vfsFind _ => true
  | .shutdown => lib.world.handles.isEmpty
  | .vfsRegister pVfs _ => pVfs ≠ 0 && (lib.vfs.load pVfs).isOk
  | .file (.xOpen _ (some z) _) =>
    lib.isInit && decide (z.length < maxPathname) && decide (lib.world.handles.length < 10)
  | .file (.xClose _) => lib.isInit
  | .file _ => false

/-- Calls one after the other, up to the first that crashes or is not checked. -/
def Globals.run (lib : Globals) : List ApiCall → Option Globals
  | [] => some lib
  | q :: qs =>
    if lib.allows q then
      match lib.step q with
      | .ok (_, lib) => Globals.run lib qs
      | .error _ => none
    else none

/-- A call that passes the check is allowed. -/
theorem allowed_of_allows {lib : Globals} {q : ApiCall} (h : lib.allows q = true) :
    Allowed lib q := by
  constructor
  · intro pVfs makeDflt hc
    rw [Globals.allows, hc] at h
    obtain ⟨h0, hl⟩ := (Bool.and_eq_true _ _).mp h
    refine ⟨of_decide_eq_true h0, ?_⟩
    cases hcell : lib.vfs.heap[pVfs]? with
    | none => simp [Memory.load, hcell, Except.isOk, Except.toBool] at hl
    | some cell =>
      cases cell with
      | record v => exact ⟨v, hcell⟩
      | chars c => simp [Memory.load, hcell, Except.isOk, Except.toBool] at hl
  · intro hc
    rw [Globals.allows, hc] at h
    exact List.isEmpty_iff.mp h
  · intro c hc
    rw [Globals.allows, hc] at h
    cases c with
    | xOpen ho zName flags =>
      cases zName with
      | none => cases h
      | some z =>
        simp only [Bool.and_eq_true, decide_eq_true_eq] at h
        obtain ⟨⟨hi, hz⟩, hlen⟩ := h
        refine ⟨hi, ?_, ?_, ?_, ?_⟩
        · rintro _ _ _ ⟨⟩
          exact hz
        · rintro _ _ _ ⟨⟩
          omega
        · rintro _ _ _ ⟨⟩
        · rintro _ _ _ _ _ ⟨⟩
    | xClose ho =>
      refine ⟨h, ?_, ?_, ?_, ?_⟩
      · rintro _ _ _ ⟨⟩
      · rintro _ _ _ ⟨⟩
      · rintro _ _ _ ⟨⟩
      · rintro _ _ _ _ _ ⟨⟩
    | xRead | xWrite | xTruncate | xFileSize | xFileControl | xDelete | xAccess => cases h

/-- Calls that pass the checks lead along a run. -/
theorem run_of_checks {qs : List ApiCall} : ∀ {lib lib' : Globals}
    {tr : List (ApiCall × ApiReply)}, (libraryMachine names compositeVfs).Run Allowed tr lib →
      lib.run qs = some lib' →
      ∃ tr', (libraryMachine names compositeVfs).Run Allowed tr' lib' := by
  induction qs with
  | nil =>
    intro lib lib' tr hr he
    cases he
    exact ⟨tr, hr⟩
  | cons q qs ih =>
    intro lib lib' tr hr he
    rw [Globals.run] at he
    split at he
    · next hq =>
      split at he
      · next r lib₁ hs => exact ih (.next hr (allowed_of_allows hq) hs) he
      · cases he
    · cases he

/-- The library of an application with one more VFS, named `b`. -/
def oneMore : Globals where
  isInit := false
  inProgress := false
  isMutexInit := false
  isMallocInit := false
  isPCacheInit := false
  nRefInitMutex := 0
  pInitMutex := false
  m := .unset
  vfsList := 0
  vfs := ⟨((∅ : Heap Sqlite3Vfs).insert 10 (.record ⟨0, nameA⟩)).insert 20 (.record ⟨0, nameB⟩), []⟩
  compositeVfs := 10
  prngState := 0
  world := ⟨0, ⟨∅, []⟩, []⟩

/-- The other VFS is registered, a file is made, closed and lost at the shutdown, and the library
is started again. -/
def restart : List ApiCall :=
  [⟨.vfsRegister 20 false, ⟨0, 0, true, [filled 100 0]⟩⟩,
    ⟨.file (.xOpen 0 (some nameA) sqliteOpenCreate),
      ⟨0, 0, true, [filled 200 0xAA, filled 300 0xAA, filled 400 0xAA]⟩⟩,
    ⟨.file (.xClose 0), ⟨0, 0, true, []⟩⟩, ⟨.shutdown, ⟨0, 0, true, []⟩⟩,
    ⟨.init, ⟨0, 0, true, [filled 100 0]⟩⟩, ⟨.shutdown, ⟨0, 0, true, []⟩⟩]

/-- The names of its structs. -/
def oneMoreNames (a : Addr) : CStr := if a = 10 then nameA else nameB

/-- The library starts fresh. -/
theorem oneMore_fresh : Fresh oneMoreNames 10 oneMore where
  quiet := ⟨rfl, rfl, rfl⟩
  isInit := rfl
  vfsList := rfl
  named := by
    intro a v hv
    simp only [oneMore, get_insert] at hv
    split at hv
    · next h =>
      subst h
      cases hv
      rfl
    split at hv
    · next h =>
      subst h
      cases hv
      rfl
    · simp at hv
  address := rfl
  static := ⟨by decide, ⟨0, nameA⟩, rfl⟩
  handles := rfl
  heap := rfl

/-- The run of `restart`, after which the library is shut down with both VFSs registered. -/
theorem exists_restart : ∃ tr lib, (libraryMachine oneMoreNames 10).Run Allowed tr lib ∧
    lib.isInit = false ∧ lib.vfsList = 10 := by
  have hrun : (oneMore.run restart).any (fun lib ↦ !lib.isInit && lib.vfsList == 10) = true := by
    decide +kernel
  obtain ⟨lib, he, hp⟩ := (Option.any_eq_true _ _).mp hrun
  simp only [Bool.and_eq_true, Bool.not_eq_true', beq_iff_eq] at hp
  obtain ⟨tr, hr⟩ := run_of_checks oneMoreNames 10 (.start oneMore_fresh) he
  exact ⟨tr, lib, hr, hp⟩

/-- After the run of `exists_restart`, a start that is refused the ten bytes returns
`SQLITE_NOMEM`, and one that is granted everything succeeds. -/
theorem init_outcome_restart : ∃ lib : Globals, lib.isInit = false ∧ lib.vfsList = 10 ∧
    (∃ lib', sqlite3Initialize 2 ⟨0, 0, false, []⟩ lib = .ok (sqliteNomem, lib') ∧
      lib'.isInit = false) ∧
    ∃ lib', sqlite3Initialize 2 ⟨0, 0, true, [filled 100 0]⟩ lib = .ok (sqliteOk, lib') ∧
      lib'.isInit = true ∧ lib'.m = .composite ∧ lib'.prngState = 4 ∧
      vfsFind lib'.vfsList lib'.vfs none = .ok 10 ∧ StandsFor lib'.world .empty := by
  obtain ⟨tr, lib, hr, hi, hlist⟩ := exists_restart
  have hinit (tenBytes : Bool) (grants : List (Option Grant)) :
      lib.m.chosen.xInit ⟨0, 0, tenBytes, grants⟩ = sqliteOk := by
    cases lib.m.chosen <;> rfl
  have hnomem : firstFailure lib ⟨0, 0, false, []⟩ = some sqliteNomem := by
    simp [firstFailure, startCodes, hinit, sqliteOk, sqliteNomem]
  have hnone : firstFailure lib ⟨0, 0, true, [filled 100 0]⟩ = none := by
    simp [firstFailure, startCodes, hinit, sqliteOk]
  obtain ⟨lib₁, he, hi₁, _⟩ :=
    (init_outcome oneMoreNames 10 hr ⟨0, 0, false, []⟩ 0).2.1 hi _ hnomem
  refine ⟨lib, hi, hlist, ⟨lib₁, he, hi₁⟩, ?_⟩
  exact (init_outcome oneMoreNames 10 hr ⟨0, 0, true, [filled 100 0]⟩ 0).2.2.2 hi hnone
    ⟨_, _, rfl, by decide⟩

end SqliteComposite.Library
