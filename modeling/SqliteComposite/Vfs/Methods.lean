import SqliteComposite.Inmemfs.Functions

/-!
# The VFS methods

Models the methods of `os_composite_vfs.c` that SQLite calls on files and names. A method
takes the `struct cFile` it is called on and the memory of the filesystem, and returns its
result code with what it changed. Unused parameters of the source are left out.
-/

namespace SqliteComposite.Vfs

open Base Inmemfs

/-- The result codes the methods return; `sqlite3.h:414`. -/
inductive Rc where
  | ok
  | ioerr
  | notfound
  | cantopen
  | ioerrRead
  | ioerrShortRead
  | ioerrWrite
  | ioerrTruncate
  | ioerrDelete
  deriving DecidableEq, Repr

/-- `SQLITE_OPEN_CREATE`; `sqlite3.h:531`. -/
def sqliteOpenCreate : Int32 := 0x4

/-- `SQLITE_OPEN_DELETEONCLOSE`; `sqlite3.h:532`. -/
def sqliteOpenDeleteonclose : Int32 := 0x8

/-- `SQLITE_OPEN_EXCLUSIVE`; `sqlite3.h:533`. -/
def sqliteOpenExclusive : Int32 := 0x10

/-- `SQLITE_LOCK_NONE`; `sqlite3.h:602`. -/
def sqliteLockNone : Int32 := 0

/-- `SQLITE_LOCK_SHARED`; `sqlite3.h:603`. -/
def sqliteLockShared : Int32 := 1

/-- `SQLITE_LOCK_RESERVED`; `sqlite3.h:604`. -/
def sqliteLockReserved : Int32 := 2

/-- `SQLITE_LOCK_EXCLUSIVE`; `sqlite3.h:606`. -/
def sqliteLockExclusive : Int32 := 4

/-- `SQLITE_FCNTL_SIZE_HINT`; `sqlite3.h:1014`. -/
def sqliteFcntlSizeHint : Int32 := 5

/-- `struct cFile`; `os_composite.h:150`. The pointer to the method table is null or
`&composite_io_methods`. -/
structure CFile where
  compositeIoMethods : Bool
  zName : Option CStr
  fd : Addr

/-- `cClose`; `os_composite_vfs.c:7`. -/
def cClose (list : Addr) (m : FsMem) (file : CFile) : Except Fault (Rc × CFile × FsMem) := do
  let m ← fsClose list m file.fd
  .ok (.ok, { file with fd := 0 }, m)

/-- The loop of `cRead` that fills the rest of the buffer with zeros, from index `i` on. -/
def zeroFill (i : Int) : Nat → Stores → Stores
  | 0, t => t
  | rounds + 1, t => zeroFill (i + 1) rounds (t.put i 0)

/-- `cRead`; `os_composite_vfs.c:16`. -/
def cRead (m : FsMem) (file : CFile) (iAmt : Int32) (iOfst : Int64) :
    Except Fault (Rc × Stores) := do
  let (bytesRead, t) ← fsRead m file.fd iOfst iAmt
  if bytesRead = -1 then .ok (.ioerrRead, t)
  else if bytesRead < iAmt then
    .ok (.ioerrShortRead, zeroFill bytesRead.toInt (iAmt.toInt - bytesRead.toInt).toNat t)
  else .ok (.ok, t)

/-- `cWrite`; `os_composite_vfs.c:42`. -/
def cWrite (m : FsMem) (file : CFile) (buf : Nat → UInt8) (iAmt : Int32) (iOfst : Int64) :
    Except Fault (Rc × FsMem) := do
  let (bytesWritten, m) ← fsWrite m file.fd iOfst iAmt buf
  if bytesWritten = iAmt then .ok (.ok, m) else .ok (.ioerrWrite, m)

/-- `cTruncate`; `os_composite_vfs.c:54`. -/
def cTruncate (m : FsMem) (file : CFile) (size : Int64) : Except Fault (Rc × FsMem) := do
  let (done, m) ← fsTruncate m file.fd size
  if done then .ok (.ok, m) else .ok (.ioerrTruncate, m)

/-- `cFileSize`; `os_composite_vfs.c:70`. -/
def cFileSize (m : FsMem) (file : CFile) : Except Fault (Rc × Int64) := do
  let fd ← m.load file.fd
  .ok (.ok, fd.len)

/-- `cLock`; `os_composite_vfs.c:81`. Neither argument is looked at. -/
def cLock (_file : CFile) (_lockType : Int32) : Rc := .ok

/-- `cUnlock`; `os_composite_vfs.c:89`. Neither argument is looked at. -/
def cUnlock (_file : CFile) (_lockType : Int32) : Rc := .ok

/-- `cCheckReservedLock`; `os_composite_vfs.c:96`. `pResOut` is the `int` that the caller's
pointer points at, if it is not null. -/
def cCheckReservedLock (_file : CFile) (pResOut : Option Int32) : Rc × Option Int32 :=
  (.ok, pResOut.map fun _ ↦ 0)

/-- `cFileControl`; `os_composite_vfs.c:104`. `arg` is the `int` found at `pArg`. -/
def cFileControl (m : FsMem) (file : CFile) (op arg : Int32) : Except Fault (Rc × FsMem) :=
  if op = sqliteFcntlSizeHint then
    if file.fd ≠ 0 then do
      let m ← fsSizeHint m file.fd arg.toInt64
      .ok (.ok, m)
    else .ok (.ok, m)
  else .ok (.notfound, m)

/-- `cAccess`; `os_composite_vfs.c:228`. -/
def cAccess (list : Addr) (m : FsMem) (zName : Option CStr) : Except Fault (Rc × Bool) := do
  let found ← fsExists list m zName
  .ok (.ok, found)

/-- `cOpen`; `os_composite_vfs.c:180`. Also returns what `*pOutFlags` is set to. -/
def cOpen (list : Addr) (m : FsMem) (zName : Option CStr) (baseFile : CFile) (flags : Int32) :
    Except Fault (Rc × CFile × Int32 × FsMem) := do
  let file := { baseFile with compositeIoMethods := false }
  let (_, fileExists) ← cAccess list m zName
  if flags &&& sqliteOpenCreate ≠ 0 ∧ flags &&& sqliteOpenExclusive ≠ 0 ∧ fileExists then
    .ok (.ioerr, file, flags, m)
  else
    let (fd, m) ← fsOpen list m zName
    if fd = 0 then .ok (.ioerr, file, flags, m)
    else
      let file : CFile := { compositeIoMethods := true, zName := zName, fd := fd }
      if flags &&& sqliteOpenDeleteonclose ≠ 0 then
        let (_, m) ← fsDelete list m zName
        .ok (.ok, file, flags, m)
      else .ok (.ok, file, flags, m)

/-- `cDelete`; `os_composite_vfs.c:214`. -/
def cDelete (list : Addr) (m : FsMem) (zName : Option CStr) : Except Fault (Rc × FsMem) := do
  let (done, m) ← fsDelete list m zName
  if done then .ok (.ok, m) else .ok (.ioerrDelete, m)

/-- The loop of `cFullPathname` that copies the name, from index `i` on. -/
def copyName (zName : Option CStr) (i : Nat) : Nat → Stores → Except Fault Stores
  | 0, t => .ok t
  | rounds + 1, t => do
    let c ← readName zName i
    copyName zName (i + 1) rounds (t.put i c)

/-- `cFullPathname`; `os_composite_vfs.c:234`. Its first loop reads a character before it tests
the bound, as that of `_fs_copystring` does. -/
def cFullPathname (zName : Option CStr) (nOut : Int32) : Except Fault (Rc × Stores) := do
  let zNameLen ← boundedLen (readName zName) 0 maxPathname
  if nOut < Int32.ofNat zNameLen then .ok (.cantopen, fun _ ↦ none)
  else
    let zOut ← copyName zName 0 zNameLen fun _ ↦ none
    .ok (.ok, zOut.put zNameLen 0)

end SqliteComposite.Vfs
