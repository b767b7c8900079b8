import SqliteComposite.Malloc.Functions

/-!
# Runs of the allocation interface

A caller of the interface keeps the blocks it was given and calls the functions in any order. A
call on a block it does not have, and a store outside the block, are not made. Between its calls
the VFS calls the memory methods for blocks of its own, those of `fs_init` before any other.
Every call is a few calls of the allocator, so that what holds of the allocator's runs holds here.
-/

namespace SqliteComposite.Malloc

open Base Mem

/-- The calls of the interface, and a byte the caller stores in a block. -/
inductive Call where
  | malloc (n : Int32)
  | malloc64 (n : UInt64)
  | mallocZero (n : UInt64)
  | realloc (pOld : Int) (n : Int32)
  | realloc64 (pOld : Int) (n : UInt64)
  | free (p : Int)
  | msize (p : Int)
  | status64 (op : Int32) (resetFlag : Bool)
  | softHeapLimit64 (n : Int64)
  | store (p : Int) (off : Nat) (c : UInt8)

/-- A call, and what the C library's `malloc` offers during it: the first time it is called, and
the second. -/
structure Request where
  call : Call
  offer : Option Grant
  retry : Option Grant

/-- What a call returns. -/
inductive Reply where
  | notMade
  | pointer (p : Int)
  | size (n : UInt64)
  | status (rc : Int32) (values : Option (Int64 × Int64))
  | limit (n : Int64)
  | done
  deriving DecidableEq

/-- The subsystem, the blocks it has given out that were not freed or reallocated since, and such
blocks of the other callers of the memory methods. -/
structure Client where
  heap : Subsystem
  live : List Block
  others : List Block

/-- What happens: a call of the interface, or one that another caller makes of the memory
methods. -/
inductive Event where
  | call (q : Request)
  | other (q : Mem.Request)

/-- An `int` that counts bytes, as a `u64`; nothing is asked for by a negative one. -/
def countOf (n : Int32) : UInt64 := (if n < 0 then 0 else n).toInt64.toUInt64

/-- How many bytes a call asks for. -/
def Call.bytes : Call → UInt64
  | .malloc n => countOf n
  | .malloc64 n => n
  | .mallocZero n => n
  | .realloc _ n => countOf n
  | .realloc64 _ n => n
  | _ => 0

/-- The size of a block, as the allocator is asked for it. -/
def sizeOf (n : UInt64) : Int32 := n.toUInt32.toInt32

/-- So many bytes are neither none nor too many. -/
def Grantable (n : UInt64) : Prop := n ≠ 0 ∧ n < 0x7fffff00

instance (n : UInt64) : Decidable (Grantable n) := by
  unfold Grantable
  infer_instance

namespace Client

/-- The allocator and the blocks. -/
def world (x : Client) : World := ⟨x.heap.mem, x.live⟩

/-- The allocator and the blocks of the other callers. -/
def othersWorld (x : Client) : World := ⟨x.heap.mem, x.others⟩

/-- The caller once it was given a block, if it was. -/
def gained (x : Client) (h : Subsystem) (p : Int) (n : UInt64) (content : Nat → Option UInt8) :
    Client :=
  if p = 0 then { x with heap := h }
  else { x with heap := h, live := ⟨p, sizeOf n, content⟩ :: x.live }

/-- A block gets another size, as a run of the function that reallocates it says. A block that
stays where it is has the size already. -/
def stepRealloc (x : Client) (pOld : Int) (n : UInt64) (run : Except Fault (Int × Subsystem)) :
    Except Fault (Reply × Client) :=
  match x.world.block? pOld with
  | none =>
    if pOld = 0 then do
      let (p, h) ← run
      .ok (.pointer p, x.gained h p n fun _ ↦ none)
    else .ok (.notMade, x)
  | some blk => do
    let (p, h) ← run
    if n = 0 then .ok (.pointer p, { x with heap := h, live := x.world.without pOld })
    else if p = 0 ∨ p = pOld then .ok (.pointer p, { x with heap := h })
    else .ok (.pointer p, { x with
      heap := h
      live := blk.movedTo p (sizeOf n) h.mem :: x.world.without pOld })

/-- One call. -/
def step (b : Build) (x : Client) (q : Request) : Except Fault (Reply × Client) :=
  match q.call with
  | .malloc n => do
    let (p, h) ← sqlite3MallocInt b x.heap n q.offer
    .ok (.pointer p, x.gained h p (countOf n) fun _ ↦ none)
  | .malloc64 n => do
    let (p, h) ← sqlite3Malloc b x.heap n q.offer
    .ok (.pointer p, x.gained h p n fun _ ↦ none)
  | .mallocZero n => do
    let (p, h) ← sqlite3MallocZero b x.heap n q.offer
    .ok (.pointer p, x.gained h p n fun i ↦ if i < n.toNat then some 0 else none)
  | .realloc pOld n =>
    x.stepRealloc pOld (countOf n) (sqlite3ReallocInt b x.heap pOld n q.offer q.retry)
  | .realloc64 pOld n =>
    x.stepRealloc pOld n (sqlite3Realloc b x.heap pOld n q.offer q.retry)
  | .free p =>
    if p = 0 ∨ (x.world.block? p).isSome then do
      let h ← sqlite3Free b x.heap p
      .ok (.done, { x with heap := h, live := x.world.without p })
    else .ok (.notMade, x)
  | .msize p =>
    if p = 0 ∨ (x.world.block? p).isSome then do
      let n ← sqlite3Msize b x.heap p
      .ok (.size n, x)
    else .ok (.notMade, x)
  | .status64 op resetFlag =>
    let (rc, values, stat) := x.heap.stat.sqlite3Status64 op resetFlag
    .ok (.status rc values, { x with heap := { x.heap with stat := stat } })
  | .softHeapLimit64 n =>
    let (prior, h) := sqlite3SoftHeapLimit64 x.heap n
    .ok (.limit prior, { x with heap := h })
  | .store p off c =>
    match x.world.block? p with
    | none => .ok (.notMade, x)
    | some blk =>
      if (off : Int) < blk.size.toInt then do
        let mem ← writeByte b x.heap.mem (getRegion p) (sizeofInt + off) c
        .ok (.done, { x with
          heap := { x.heap with mem := mem }
          live := x.live.map fun blk ↦ if blk.ptr = p then blk.wrote off c else blk })
      else .ok (.notMade, x)

/-- The caller once another has called the memory methods. -/
def interrupted (x : Client) (w : World) : Client where
  heap := { x.heap with mem := w.state }
  live := x.live
  others := w.live

/-- What happens next. -/
inductive Next (b : Build) (x : Client) : Event → Client → Prop
  | call {q : Request} {r : Reply} {x' : Client} :
      x.step b q = .ok (r, x') → Next b x (.call q) x'
  | other {q : Mem.Request} {r : Mem.Reply} {w : World} :
      x.othersWorld.step b q = .ok (r, w) → Next b x (.other q) (x.interrupted w)

end Client

/-- The interface from `sqlite3MallocInit` on, with any marks and in memory with any bytes. -/
def system (b : Build) (marks : Fin 10 → Int64) : System Client Event where
  init x := x.live = [] ∧ x.others = [] ∧ ∃ bytes, x.heap = .start b bytes marks
  step x e x' := x.Next b e x'

/-- In the arena build the caller asks for no fewer bytes than a header has, and stores to no
header, its own or another's. -/
structure CarefulCall (b : Build) (x : Client) (q : Request) : Prop where
  bytes : b.IsArena → q.call.bytes ≠ 0 → sizeofInt ≤ q.call.bytes.toNat
  store : b.IsArena → ∀ p off c, q.call = .store p off c → (x.world.block? p).isSome →
    ∀ v ∈ x.live ++ x.others, ¬ (getRegion v.ptr ≤ p + off ∧ p + off < v.ptr)

/-- All callers are careful. -/
def Careful (b : Build) (x : Client) : Event → Prop
  | .call q => CarefulCall b x q
  | .other q => Mem.Careful b (x.othersWorld.beside x.live) q

/-- The pointer that a call reallocates. -/
def Call.pOld : Call → Option Int
  | .realloc pOld _ => some pOld
  | .realloc64 pOld _ => some pOld
  | _ => none

/-- How many bytes a call asks the allocator for, or none. -/
def requested (x : Client) (q : Request) : Nat :=
  let n := q.call.bytes
  if Grantable n then
    match q.call.pOld with
    | none => n.toNat
    | some p =>
      match x.world.block? p with
      | none => if p = 0 then n.toNat else 0
      | some blk => if blk.size.toInt = n.toNat then 0 else n.toNat
  else 0

/-- The counter whose mark the call resets. -/
def resetOp (q : Request) : Option (Fin 10) :=
  match q.call with
  | .status64 op true =>
    if h : 0 ≤ op.toInt ∧ op.toInt < 10 then some (StatType.opIndex op h) else none
  | _ => none

/-- Eight zero bytes are asked for. -/
def mallocZeroEight : Request := ⟨.mallocZero 8, some ⟨8192, fun _ ↦ 1⟩, none⟩

/-- The start in memory that is all zeros, with all marks zero. -/
def Client.fresh (b : Build) : Client := ⟨.start b (fun _ ↦ 0) fun _ ↦ 0, [], []⟩

end SqliteComposite.Malloc
