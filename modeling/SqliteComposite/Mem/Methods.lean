import SqliteComposite.Base.Heap

/-!
# The memory methods

Models `os_composite_mem.c` in its two builds: the 4 MiB arena, which is the default, and
`SQLITE_MEM_USE_MALLOC`. Memory is one array of bytes indexed by address, so that blocks
that overlap really share bytes. A pointer is its address, an `Int`, and zero is the null
pointer. It may be used inside the object it was derived from: the arena, or one region of
the C library's `malloc`. `int` has four bytes, the low byte first, and `size_t` is 64 bits
wide.
-/

namespace SqliteComposite.Mem

open Base

/-- `SQLITE_MEM_USE_MALLOC`, or the arena at the address of `memory_arena`, which as that
of any object is not null. -/
inductive Build where
  | useMalloc
  | arena (memoryArena : Int) (nonNull : 0 < memoryArena)

/-- `MEMORY_ARENA_SIZE`; `os_composite_mem.c:46`. -/
def memoryArenaSize : Int := 1024 * 1024 * 4

/-- `sizeof(int)`. -/
def sizeofInt : Nat := 4

/-- `struct composite_mem_data`; `os_composite.h:160`. -/
structure CompositeMemData where
  outstandingMemory : Int64
  maxMemory : Int64

/-- A region the C library's `malloc` has returned. -/
structure Region where
  start : Int
  size : Nat

/-- The bytes of memory, the static variables of the file, the regions the C library has
handed out and not taken back, and the pointers handed to its `free`, the last one first. -/
structure State where
  bytes : Int → UInt8
  freeMemory : Int
  appData : CompositeMemData
  regions : List Region
  freed : List Int

/-! ### Memory access and the C library -/

/-- Whether `x` lies in the object that the pointer `region` points into. -/
def InBounds (b : Build) (s : State) (region x : Int) : Prop :=
  match b with
  | .arena base _ => base ≤ x ∧ x < base + memoryArenaSize
  | .useMalloc => ∃ r ∈ s.regions, r.start = region ∧ r.start ≤ x ∧ x < r.start + r.size

instance (b : Build) (s : State) (region x : Int) : Decidable (InBounds b s region x) := by
  unfold InBounds
  cases b <;> infer_instance

/-- `region[off]`. -/
def readByte (b : Build) (s : State) (region : Int) (off : Nat) : Except Fault UInt8 :=
  if region = 0 then .error .wildAccess
  else if InBounds b s region (region + off) then .ok (s.bytes (region + off))
  else .error .outOfBounds

/-- `region[off] = v`. -/
def writeByte (b : Build) (s : State) (region : Int) (off : Nat) (v : UInt8) :
    Except Fault State :=
  if region = 0 then .error .wildAccess
  else if InBounds b s region (region + off) then
    .ok { s with bytes := Function.update s.bytes (region + off) v }
  else .error .outOfBounds

/-- Byte `k` of an `int`, counted from the low end. -/
def intByte (v : Int32) (k : Nat) : UInt8 :=
  UInt8.ofNat (v.toUInt32.toNat / 256 ^ k % 256)

/-- The `int` with the given bytes. -/
def intOfBytes (f : Nat → UInt8) : Int32 :=
  (UInt32.ofNat ((f 0).toNat + 256 * (f 1).toNat + 256 ^ 2 * (f 2).toNat +
    256 ^ 3 * (f 3).toNat)).toInt32

/-- `*((int*)region)`. -/
def readInt (b : Build) (s : State) (region : Int) : Except Fault Int32 := do
  let b0 ← readByte b s region 0
  let b1 ← readByte b s region 1
  let b2 ← readByte b s region 2
  let b3 ← readByte b s region 3
  .ok (intOfBytes fun k ↦ if k = 0 then b0 else if k = 1 then b1 else if k = 2 then b2 else b3)

/-- `*((int*)region) = v`. -/
def writeInt (b : Build) (s : State) (region : Int) (v : Int32) : Except Fault State := do
  let s ← writeByte b s region 0 (intByte v 0)
  let s ← writeByte b s region 1 (intByte v 1)
  let s ← writeByte b s region 2 (intByte v 2)
  writeByte b s region 3 (intByte v 3)

/-- Whether `malloc` may return `a` for `n` bytes: a region of the address space away from
every region it has handed out. -/
def Available (s : State) (a : Int) (n : Nat) : Prop :=
  0 < a ∧ a + n ≤ 2 ^ 64 ∧
    ∀ r ∈ s.regions, a ≠ r.start ∧ (a + n ≤ r.start ∨ r.start + r.size ≤ a)

instance (s : State) (a : Int) (n : Nat) : Decidable (Available s a n) := by
  unfold Available
  infer_instance

/-- The C library's `malloc`: null, or a region with arbitrary bytes. -/
def cMalloc (s : State) (n : Nat) (offer : Option Grant) : Int × State :=
  match offer with
  | none => (0, s)
  | some g =>
    let a : Int := g.addr
    if Available s a n then
      (a, { s with
        bytes := fun x ↦ if a ≤ x ∧ x < a + n then g.fill (x - a).toNat else s.bytes x
        regions := ⟨a, n⟩ :: s.regions })
    else (0, s)

/-- The C library's `free`. -/
def cFree (s : State) (p : Int) : Except Fault State :=
  if p = 0 then .ok { s with freed := p :: s.freed }
  else if p ∈ s.regions.map Region.start then
    .ok { s with regions := s.regions.filter fun r ↦ r.start ≠ p, freed := p :: s.freed }
  else .error .badRelease

/-! ### The functions of the file -/

/-- `max`; `os_composite_mem.c:9`. -/
def max (a : Int64) (b : Int32) : Int64 :=
  let c := b.toInt64
  if a > c then a else c

/-- `_get_region`; `os_composite_mem.c:14`. -/
def getRegion (memAllocation : Int) : Int := memAllocation - sizeofInt

/-- `_get_memory`; `os_composite_mem.c:18`. -/
def getMemory (regionStart : Int) : Int := regionStart + sizeofInt

/-- `_get_memory_size`; `os_composite_mem.c:22`. -/
def getMemorySize (b : Build) (s : State) (memAllocation : Int) : Except Fault Int32 :=
  readInt b s (getRegion memAllocation)

/-- `sz + sizeof(int)`, computed in `size_t`. -/
def regionSize (sz : Int32) : UInt64 := (sz.toInt64 + 4).toUInt64

/-- The counter updates both builds make for a region of payload size `sz`. -/
def CompositeMemData.add (d : CompositeMemData) (sz : Int32) : CompositeMemData :=
  let outstanding := d.outstandingMemory + (regionSize sz).toInt64
  ⟨outstanding, max outstanding d.maxMemory.toInt32⟩

/-- `_malloc_region`; `os_composite_mem.c:31` and `os_composite_mem.c:50`. -/
def mallocRegion (b : Build) (s : State) (sz : Int32) (offer : Option Grant) :
    Except Fault (Int × State) :=
  match b with
  | .useMalloc => do
    let (regionStart, s) := cMalloc s (regionSize sz).toNat offer
    let s ← writeInt b s regionStart sz
    .ok (regionStart, { s with appData := s.appData.add sz })
  | .arena base _ =>
    let memoryExtent := base + memoryArenaSize
    if s.freeMemory + sz.toInt ≥ memoryExtent then .ok (0, s)
    else do
      let regionStart := s.freeMemory
      let s := { s with freeMemory := s.freeMemory + sz.toInt }
      let s ← writeInt b s regionStart sz
      .ok (regionStart, { s with appData := s.appData.add sz })

/-- `_free_region`; `os_composite_mem.c:39` and `os_composite_mem.c:65`. -/
def freeRegion (b : Build) (s : State) (region : Int) : Except Fault State :=
  match b with
  | .useMalloc => do
    let sz ← readInt b s region
    let outstanding := s.appData.outstandingMemory - (regionSize sz).toInt64
    cFree { s with appData := { s.appData with outstandingMemory := outstanding } } region
  | .arena _ _ => .ok s

/-- `cMemMalloc`; `os_composite_mem.c:71`. -/
def cMemMalloc (b : Build) (s : State) (sz : Int32) (offer : Option Grant) :
    Except Fault (Int × State) := do
  let (regionStart, s) ← mallocRegion b s sz offer
  if regionStart = 0 then .ok (0, s) else .ok (getMemory regionStart, s)

/-- `cMemFree`; `os_composite_mem.c:79`. Both builds call the C library's `free`. -/
def cMemFree (s : State) (mem : Int) : Except Fault State :=
  if mem = 0 then .ok s else cFree s (getRegion mem)

/-- The copy loop of `cMemRealloc`: payload bytes `i` and on, `n` of them. -/
def copyPayload (b : Build) (newRegion oldRegion : Int) (i : Nat) :
    Nat → State → Except Fault State
  | 0, s => .ok s
  | n + 1, s => do
    let v ← readByte b s oldRegion (i + sizeofInt)
    let s ← writeByte b s newRegion (i + sizeofInt) v
    copyPayload b newRegion oldRegion (i + 1) n s

/-- `cMemRealloc`; `os_composite_mem.c:87`. The loop compares `i` with a `size_t`. -/
def cMemRealloc (b : Build) (s : State) (mem : Int) (newSize : Int32) (offer : Option Grant) :
    Except Fault (Int × State) := do
  let oldRegion := getRegion mem
  let oldSz ← getMemorySize b s mem
  let (newRegion, s) ← mallocRegion b s newSize offer
  if newRegion = 0 then .ok (0, s)
  else
    let s ← copyPayload b newRegion oldRegion 0 oldSz.toInt64.toUInt64.toNat s
    let s ← freeRegion b s oldRegion
    .ok (getMemory newRegion, s)

/-- `cMemSize`; `os_composite_mem.c:104`. -/
def cMemSize (b : Build) (s : State) (mem : Int) : Except Fault Int32 := getMemorySize b s mem

/-- `cMemRoundup`; `os_composite_mem.c:109`. -/
def cMemRoundup (sz : Int32) : Int32 := sz

/-- The state the program starts in: the counters of `composite_mem_app_data` are zero and
`_free_memory` points at the start of the arena. -/
def State.start (b : Build) (bytes : Int → UInt8) : State where
  bytes := bytes
  freeMemory := match b with
    | .useMalloc => 0
    | .arena base _ => base
  appData := ⟨0, 0⟩
  regions := []
  freed := []

end SqliteComposite.Mem
