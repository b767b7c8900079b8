import SqliteComposite.Base.Traces
import SqliteComposite.Vfs.Opening

/-!
# A store of named files

What the VFS is for, without its lists, buffers and counters: names lead to files, handles are
open on names, and a file that is to be deleted goes with its last handle. Where the VFS depends
on the memory it is granted, or on the bytes it finds there, the store allows every outcome.
-/

namespace SqliteComposite.Vfs

open Base Inmemfs

/-- A file: its bytes, and whether it goes with its last handle. -/
structure Entry where
  bytes : List UInt8
  doomed : Bool

namespace Entry

/-- The first `n` bytes. -/
def cut (e : Entry) (n : Nat) : Entry := { e with bytes := e.bytes.take n }

/-- What a write leaves: the bytes before it, the bytes found in the gap if it starts past the
end, and its own. Nothing remains behind them. -/
def write (e : Entry) (o n : Nat) (src : Nat → UInt8) (gap : List UInt8) : Entry :=
  { e with bytes := e.bytes.take o ++ gap ++ (List.range n).map src }

/-- What a read answers: the bytes up to the end of the file, and zeros from there on. The zeros
of a read that starts past the end start before the buffer. -/
def read (e : Entry) (n : Int32) (o : Int64) : Rc × Stores :=
  let count := readCount (Int64.ofNat e.bytes.length) o n
  if (o < 0 ∨ n < 0) ∨ count = -1 then (.ioerrRead, fun _ ↦ none)
  else (if count < n then .ioerrShortRead else .ok, fun j ↦
    if 0 ≤ j ∧ j < count.toInt then some (e.bytes.getD (o.toInt + j).toNat 0)
    else if count.toInt ≤ j ∧ j < n.toInt then some 0 else none)

end Entry

/-- The file under each name, and the name each open handle is on. -/
structure FileStore where
  files : CStr → Option Entry
  handles : Nat → Option CStr

namespace FileStore

/-- No file and no handle. -/
def empty : FileStore := ⟨fun _ ↦ none, fun _ ↦ none⟩

/-- Another file under a name, or none. -/
def put (st : FileStore) (z : CStr) (e : Option Entry) : FileStore :=
  { st with files := Function.update st.files z e }

/-- Another name for a handle, or none. -/
def point (st : FileStore) (h : Nat) (z : Option CStr) : FileStore :=
  { st with handles := Function.update st.handles h z }

/-- No handle is on the name. -/
def Unheld (st : FileStore) (z : CStr) : Prop := ∀ h, st.handles h ≠ some z

/-- The call is made: it is an open into a free handle, it is through an open one, or it needs
none. -/
def Made (st : FileStore) : Call → Prop
  | .xOpen h _ _ => st.handles h = none
  | .xClose h | .xRead h _ _ | .xWrite h _ _ _ | .xTruncate h _ | .xFileSize h
  | .xFileControl h _ _ => st.handles h ≠ none
  | .xDelete _ | .xAccess _ => True

/-- The file that a name is opened on: the one under it, or an empty one. -/
def opened (st : FileStore) (z : CStr) (flags : Int32) : Entry :=
  let e := (st.files z).getD ⟨[], false⟩
  { e with doomed := e.doomed || decide (flags &&& sqliteOpenDeleteonclose ≠ 0) }

/-- What a call may answer, and the store it leaves. -/
inductive Step (st : FileStore) : Call → Reply → FileStore → Prop
  | notMade {c : Call} : ¬ st.Made c → Step st c .notMade st
  | openRefused {h : Nat} {zName : Option CStr} {flags : Int32} : st.handles h = none →
      (∀ z, zName = some z → st.files z = none ∨ CreatesOnly flags) →
      Step st (.xOpen h zName flags) (.status .ioerr) st
  | opened {h : Nat} {z : CStr} {flags : Int32} : st.handles h = none →
      ¬ (CreatesOnly flags ∧ st.files z ≠ none) →
      Step st (.xOpen h (some z) flags) (.status .ok)
        ((st.put z (some (st.opened z flags))).point h (some z))
  | closed {h : Nat} {z : CStr} {e : Entry} : st.handles h = some z → st.files z = some e →
      ¬ (e.doomed = true ∧ (st.point h none).Unheld z) →
      Step st (.xClose h) (.status .ok) (st.point h none)
  | closedLast {h : Nat} {z : CStr} {e : Entry} : st.handles h = some z → st.files z = some e →
      e.doomed = true → (st.point h none).Unheld z →
      Step st (.xClose h) (.status .ok) ((st.point h none).put z none)
  | read {h : Nat} {z : CStr} {e : Entry} {n : Int32} {o : Int64} : st.handles h = some z →
      st.files z = some e → Step st (.xRead h n o) (.read (e.read n o).1 (e.read n o).2) st
  | writeRejected {h : Nat} {src : Nat → UInt8} {n : Int32} {o : Int64} :
      st.handles h ≠ none → o < 0 ∨ n < 0 →
      Step st (.xWrite h src n o) (.status (if n = -1 then .ok else .ioerrWrite)) st
  | writeRefused {h : Nat} {z : CStr} {e : Entry} {src : Nat → UInt8} {n : Int32} {o : Int64} :
      st.handles h = some z → st.files z = some e → 0 ≤ o.toInt → 0 ≤ n.toInt →
      (e.bytes.length : Int) < o.toInt + n.toInt →
      Step st (.xWrite h src n o) (.status .ioerrWrite) st
  | wrote {h : Nat} {z : CStr} {e : Entry} {src : Nat → UInt8} {n : Int32} {o : Int64}
      {gap : List UInt8} : st.handles h = some z → st.files z = some e → 0 ≤ o.toInt →
      0 ≤ n.toInt → gap.length = o.toInt.toNat - e.bytes.length →
      Step st (.xWrite h src n o) (.status .ok)
        (st.put z (some (e.write o.toInt.toNat n.toInt.toNat src gap)))
  | truncated {h : Nat} {z : CStr} {e : Entry} {size : Int64} : st.handles h = some z →
      st.files z = some e → 0 ≤ size.toInt →
      Step st (.xTruncate h size) (.status .ok) (st.put z (some (e.cut size.toInt.toNat)))
  | size {h : Nat} {z : CStr} {e : Entry} : st.handles h = some z → st.files z = some e →
      Step st (.xFileSize h) (.size .ok (Int64.ofNat e.bytes.length)) st
  | control {h : Nat} {op arg : Int32} : st.handles h ≠ none →
      Step st (.xFileControl h op arg)
        (.status (if op = sqliteFcntlSizeHint then .ok else .notfound)) st
  | deletedNone {zName : Option CStr} :
      (∀ z, (zName = none ∨ zName = some z) → st.files z = none) →
      Step st (.xDelete zName) (.status .ok) st
  | deleted {z : CStr} {e : Entry} : st.files z = some e → st.Unheld z →
      Step st (.xDelete (some z)) (.status .ok) (st.put z none)
  | deferred {z : CStr} {e : Entry} : st.files z = some e → ¬ st.Unheld z →
      Step st (.xDelete (some z)) (.status .ok) (st.put z (some { e with doomed := true }))
  | accessNone : (∀ z, st.files z = none) → Step st (.xAccess none) (.access .ok false) st
  | access {z : CStr} : Step st (.xAccess (some z)) (.access .ok (st.files z).isSome) st

/-- The store, empty at first. -/
def machine : Machine FileStore Call Reply where
  init st := st = empty
  step := Step

end FileStore

/-- The VFS with its answers. -/
def vfsMachine : Machine World Request Reply where
  init := system.init
  step w q r w' := w.step q = .ok (r, w')

end SqliteComposite.Vfs
