import SqliteComposite.Mem.Sharing

/-!
# The memory allocation subsystem

Models the status counters of SQLite and the functions of `malloc.c` that stand between SQLite
and the memory methods, in the build of the `Makefile`: without `SQLITE_ENABLE_MEMORY_MANAGEMENT`,
so that `sqlite3_release_memory` does nothing, without threads, and without a scratch buffer. The
library is initialized, so that the calls of `sqlite3_initialize` return at once.
-/

namespace SqliteComposite.Malloc

open Base Mem

/-! ### The status counters -/

/-- `SQLITE_STATUS_MEMORY_USED`; `sqlite3.h:6854`. -/
def sqliteStatusMemoryUsed : Fin 10 := 0

/-- `SQLITE_STATUS_MALLOC_SIZE`; `sqlite3.h:6859`. -/
def sqliteStatusMallocSize : Fin 10 := 5

/-- `SQLITE_STATUS_MALLOC_COUNT`; `sqlite3.h:6863`. -/
def sqliteStatusMallocCount : Fin 10 := 9

/-- `SQLITE_OK`; `sqlite3.h:414`. -/
def sqliteOk : Int32 := 0

/-- `SQLITE_MISUSE`; `sqlite3.h:436`. -/
def sqliteMisuse : Int32 := 21

/-- `sqlite3StatType`; `sqlite3.c:18249`. -/
structure StatType where
  nowValue : Fin 10 → Int64
  mxValue : Fin 10 → Int64

namespace StatType

/-- `sqlite3StatusUp`; `sqlite3.c:18310`. -/
def sqlite3StatusUp (s : StatType) (op : Fin 10) (n : Int32) : StatType :=
  let s := { s with nowValue := Function.update s.nowValue op (s.nowValue op + n.toInt64) }
  if s.nowValue op > s.mxValue op then
    { s with mxValue := Function.update s.mxValue op (s.nowValue op) }
  else s

/-- `sqlite3StatusDown`; `sqlite3.c:18321`. -/
def sqlite3StatusDown (s : StatType) (op : Fin 10) (n : Int32) : StatType :=
  { s with nowValue := Function.update s.nowValue op (s.nowValue op - n.toInt64) }

/-- `sqlite3StatusHighwater`; `sqlite3.c:18335`. -/
def sqlite3StatusHighwater (s : StatType) (op : Fin 10) (x : Int32) : StatType :=
  if x.toInt64 > s.mxValue op then
    { s with mxValue := Function.update s.mxValue op x.toInt64 }
  else s

/-- An index of the counters. -/
def opIndex (op : Int32) (h : 0 ≤ op.toInt ∧ op.toInt < 10) : Fin 10 :=
  ⟨op.toInt.toNat, by omega⟩

/-- `sqlite3_status64`; `sqlite3.c:18356`. The values are the two it assigns. -/
def sqlite3Status64 (s : StatType) (op : Int32) (resetFlag : Bool) :
    Int32 × Option (Int64 × Int64) × StatType :=
  if h : 0 ≤ op.toInt ∧ op.toInt < 10 then
    let op := opIndex op h
    let values := (s.nowValue op, s.mxValue op)
    if resetFlag then
      (sqliteOk, some values,
        { s with mxValue := Function.update s.mxValue op (s.nowValue op) })
    else (sqliteOk, some values, s)
  else (sqliteMisuse, none, s)

end StatType

/-! ### The functions of `malloc.c` -/

/-- `mem0`, without what manages threads and scratch memory; `sqlite3.c:23930`. -/
structure Mem0Global where
  alarmThreshold : Int64
  nearlyFull : Bool

/-- The allocator, the counters, `mem0` and `sqlite3GlobalConfig.bMemstat`. -/
structure Subsystem where
  mem : Mem.State
  stat : StatType
  mem0 : Mem0Global
  bMemstat : Bool

/-- `sqlite3MallocAlarm`; `sqlite3.c:24093`. What it calls, `sqlite3_release_memory`, does
nothing. -/
def sqlite3MallocAlarm (h : Subsystem) (_nByte : Int32) : Subsystem := h

/-- `sqlite3MallocSize`; `sqlite3.c:24291`. -/
def sqlite3MallocSize (b : Build) (h : Subsystem) (p : Int) : Except Fault Int32 :=
  cMemSize b h.mem p

/-- `sqlite3_msize`; `sqlite3.c:24313`. -/
def sqlite3Msize (b : Build) (h : Subsystem) (p : Int) : Except Fault UInt64 := do
  if p = 0 then .ok 0
  else
    let size ← cMemSize b h.mem p
    .ok size.toInt64.toUInt64

/-- The part of `mallocWithAlarm` that raises the alarm. -/
def checkAlarm (h : Subsystem) (nFull : Int32) : Subsystem :=
  if h.mem0.alarmThreshold > 0 then
    let nUsed := h.stat.nowValue sqliteStatusMemoryUsed
    if nUsed ≥ h.mem0.alarmThreshold - nFull.toInt64 then
      sqlite3MallocAlarm { h with mem0 := { h.mem0 with nearlyFull := true } } nFull
    else { h with mem0 := { h.mem0 with nearlyFull := false } }
  else h

/-- `mallocWithAlarm`; `sqlite3.c:24104`. It returns the size and assigns the pointer. -/
def mallocWithAlarm (b : Build) (h : Subsystem) (n : Int32) (offer : Option Grant) :
    Except Fault (Int32 × Int × Subsystem) := do
  let nFull := cMemRoundup n
  let h := { h with stat := h.stat.sqlite3StatusHighwater sqliteStatusMallocSize n }
  let h := checkAlarm h nFull
  let (p, mem) ← cMemMalloc b h.mem nFull offer
  let h := { h with mem := mem }
  if p ≠ 0 then
    let nFull ← sqlite3MallocSize b h p
    let stat := h.stat.sqlite3StatusUp sqliteStatusMemoryUsed nFull
    .ok (nFull, p, { h with stat := stat.sqlite3StatusUp sqliteStatusMallocCount 1 })
  else .ok (nFull, p, h)

/-- `sqlite3Malloc`, and `sqlite3_malloc64`; `sqlite3.c:24139`. -/
def sqlite3Malloc (b : Build) (h : Subsystem) (n : UInt64) (offer : Option Grant) :
    Except Fault (Int × Subsystem) :=
  if n = 0 ∨ n ≥ 0x7fffff00 then .ok (0, h)
  else if h.bMemstat then do
    let (_, p, h) ← mallocWithAlarm b h n.toUInt32.toInt32 offer
    .ok (p, h)
  else do
    let (p, mem) ← cMemMalloc b h.mem n.toUInt32.toInt32 offer
    .ok (p, { h with mem := mem })

/-- `sqlite3_malloc`; `sqlite3.c:24164`. -/
def sqlite3MallocInt (b : Build) (h : Subsystem) (n : Int32) (offer : Option Grant) :
    Except Fault (Int × Subsystem) :=
  if n ≤ 0 then .ok (0, h) else sqlite3Malloc b h n.toInt64.toUInt64 offer

/-- `sqlite3_free`; `sqlite3.c:24322`. -/
def sqlite3Free (b : Build) (h : Subsystem) (p : Int) : Except Fault Subsystem :=
  if p = 0 then .ok h
  else if h.bMemstat then do
    let size ← sqlite3MallocSize b h p
    let stat := h.stat.sqlite3StatusDown sqliteStatusMemoryUsed size
    let stat := stat.sqlite3StatusDown sqliteStatusMallocCount 1
    let mem ← cMemFree h.mem p
    .ok { h with stat := stat, mem := mem }
  else do
    let mem ← cMemFree h.mem p
    .ok { h with mem := mem }

/-- The part of `sqlite3Realloc` that keeps the counters. It may call the allocator twice. -/
def reallocWithAlarm (b : Build) (h : Subsystem) (pOld : Int) (nBytes nOld nNew : Int32)
    (offer retry : Option Grant) : Except Fault (Int × Subsystem) := do
  let h := { h with stat := h.stat.sqlite3StatusHighwater sqliteStatusMallocSize nBytes }
  let nDiff := nNew - nOld
  let nUsed := h.stat.nowValue sqliteStatusMemoryUsed
  let h := if nUsed ≥ h.mem0.alarmThreshold - nDiff.toInt64 then sqlite3MallocAlarm h nDiff else h
  let (pNew, mem) ← cMemRealloc b h.mem pOld nNew offer
  let h := { h with mem := mem }
  let (pNew, h) ← (
    if pNew = 0 ∧ h.mem0.alarmThreshold > 0 then do
      let h := sqlite3MallocAlarm h nBytes
      let (pNew, mem) ← cMemRealloc b h.mem pOld nNew retry
      .ok (pNew, { h with mem := mem })
    else .ok (pNew, h))
  if pNew ≠ 0 then
    let nNew ← sqlite3MallocSize b h pNew
    .ok (pNew, { h with stat := h.stat.sqlite3StatusUp sqliteStatusMemoryUsed (nNew - nOld) })
  else .ok (pNew, h)

/-- `sqlite3Realloc`, and `sqlite3_realloc64`; `sqlite3.c:24379`. -/
def sqlite3Realloc (b : Build) (h : Subsystem) (pOld : Int) (nBytes : UInt64)
    (offer retry : Option Grant) : Except Fault (Int × Subsystem) :=
  if pOld = 0 then sqlite3Malloc b h nBytes offer
  else if nBytes = 0 then do
    let h ← sqlite3Free b h pOld
    .ok (0, h)
  else if nBytes ≥ 0x7fffff00 then .ok (0, h)
  else do
    let nOld ← sqlite3MallocSize b h pOld
    let nNew := cMemRoundup nBytes.toUInt32.toInt32
    if nOld = nNew then .ok (pOld, h)
    else if h.bMemstat then
      reallocWithAlarm b h pOld nBytes.toUInt32.toInt32 nOld nNew offer retry
    else
      let (pNew, mem) ← cMemRealloc b h.mem pOld nNew offer
      .ok (pNew, { h with mem := mem })

/-- `sqlite3_realloc`; `sqlite3.c:24431`. -/
def sqlite3ReallocInt (b : Build) (h : Subsystem) (pOld : Int) (n : Int32)
    (offer retry : Option Grant) : Except Fault (Int × Subsystem) :=
  let n := if n < 0 then 0 else n
  sqlite3Realloc b h pOld n.toInt64.toUInt64 offer retry

/-- `memset`, from byte `i` of the payload of a region on. -/
def memset (b : Build) (region : Int) (c : UInt8) (i : Nat) : Nat → State → Except Fault State
  | 0, s => .ok s
  | n + 1, s => do
    let s ← writeByte b s region (sizeofInt + i) c
    memset b region c (i + 1) n s

/-- `sqlite3MallocZero`; `sqlite3.c:24449`. -/
def sqlite3MallocZero (b : Build) (h : Subsystem) (n : UInt64) (offer : Option Grant) :
    Except Fault (Int × Subsystem) := do
  let (p, h) ← sqlite3Malloc b h n offer
  if p ≠ 0 then
    let mem ← memset b (getRegion p) 0 0 n.toNat h.mem
    .ok (p, { h with mem := mem })
  else .ok (p, h)

/-- `sqlite3_soft_heap_limit64`; `sqlite3.c:23982`. What it calls at the end,
`sqlite3_release_memory`, does nothing. -/
def sqlite3SoftHeapLimit64 (h : Subsystem) (n : Int64) : Int64 × Subsystem :=
  let priorLimit := h.mem0.alarmThreshold
  if n < 0 then (priorLimit, h)
  else
    let nUsed := h.stat.nowValue sqliteStatusMemoryUsed
    (priorLimit, { h with mem0 := ⟨n, n > 0 ∧ n ≤ nUsed⟩ })

/-- The subsystem as `sqlite3MallocInit` leaves it; `sqlite3.c:24012`. It clears `mem0` and leaves
the counters as they are: no block is counted, and the marks may be any. -/
def Subsystem.start (b : Build) (bytes : Int → UInt8) (marks : Fin 10 → Int64) : Subsystem where
  mem := .start b bytes
  stat := ⟨fun _ ↦ 0, marks⟩
  mem0 := ⟨0, false⟩
  bMemstat := true

end SqliteComposite.Malloc
