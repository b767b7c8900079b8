import SqliteComposite.Base.CString
import SqliteComposite.Mem.Methods

/-!
# The in-memory filesystem

Models `os_composite_inmemfs.c`. `list` stands for the static `_fs_file_list`, the address
of the sentinel. A loop over the list is given as many rounds as there are live blocks, and
one more: a walk that uses them up has met a node twice and never ends. The `vfs` parameter
of the source is used for nothing but the unread field `cVfs`, and both are left out.
-/

namespace SqliteComposite.Inmemfs

open Base

/-- `FS_SECTOR_SIZE`; `os_composite.h:140`. -/
def fsSectorSize : Int32 := 4096

/-- `MAX_PATHNAME`; `os_composite.h:141`. -/
def maxPathname : Nat := 512

/-- `INITIAL_BUF_DATA_SIZE`; `os_composite_inmemfs.c:30`. -/
def initialBufDataSize : Int32 := fsSectorSize * 2

/-- `struct fs_file`, with the fields of its `struct fs_data`; `os_composite.h:166`. -/
structure FsFile where
  next : Addr
  zName : Addr
  buf : Addr
  len : Int64
  ref : Int32
  deleteOnClose : Int32

/-- `sizeof(struct fs_file)` with 64-bit pointers. -/
def sizeofFsFile : Nat := 48

/-- The memory the filesystem uses. -/
abbrev FsMem := Memory FsFile

/-! ### Strings and copies -/

/-- A caller's string; `none` is the null pointer. -/
def readName : Option CStr → Nat → Except Fault UInt8
  | none, _ => .error .wildAccess
  | some z, i => z.read i

/-- `_fs_strequals`; `os_composite_inmemfs.c:6`. Compares from index `i` on, in the rounds
that are left of `n`. -/
def fsStrequals (s1 s2 : Nat → Except Fault UInt8) (i : Nat) : Nat → Except Fault Bool
  | 0 => .ok false
  | rounds + 1 => do
    let c1 ← s1 i
    let c2 ← s2 i
    if c1 = 0 ∧ c2 = 0 then .ok true
    else if c1 ≠ c2 then .ok false
    else fsStrequals s1 s2 (i + 1) rounds

/-- `_fs_copydata`; `os_composite_inmemfs.c:21`. Copies from index `i` on; `dst` is the
assignment to the destination. -/
def fsCopydata {β : Type} (dst : β → Nat → UInt8 → Except Fault β)
    (src : Nat → Except Fault UInt8) (i : Nat) : Nat → β → Except Fault β
  | 0, b => .ok b
  | rounds + 1, b => do
    let c ← src i
    let b ← dst b i c
    fsCopydata dst src (i + 1) rounds b

/-! ### Private functions -/

/-- `_FS_MALLOC`; `os_composite_inmemfs.c:40`. -/
def fsMalloc (m : FsMem) (sz : Int32) : Addr × FsMem := m.xMalloc (Mem.cMemRoundup sz)

/-- `_FS_MEMSIZE`; `os_composite_inmemfs.c:45`. -/
def fsMemsize (m : FsMem) (mem : Addr) : Except Fault Int32 := m.xSize mem

/-- `_FS_REALLOC`; `os_composite_inmemfs.c:49`. -/
def fsRealloc (m : FsMem) (mem : Addr) (newSize : Int32) : Except Fault (Addr × FsMem) :=
  m.xRealloc mem newSize

/-- `_FS_FREE`; `os_composite_inmemfs.c:53`. -/
def fsFree (m : FsMem) (mem : Addr) : Except Fault FsMem := m.xFree mem

/-- The first loop of `_fs_copystring`, which reads a character before it tests the bound. -/
def boundedLen (str : Nat → Except Fault UInt8) (len : Nat) : Nat → Except Fault Nat
  | 0 => do
    let _ ← str len
    .ok len
  | rounds + 1 => do
    let c ← str len
    if c = 0 then .ok len else boundedLen str (len + 1) rounds

/-- `_fs_copystring`; `os_composite_inmemfs.c:57`. -/
def fsCopystring (m : FsMem) (str : Nat → Except Fault UInt8) (n : Nat) :
    Except Fault (Addr × FsMem) := do
  let len ← boundedLen str 0 n
  let (newStr, m) := fsMalloc m (Int32.ofNat (len + 1))
  if newStr = 0 then .ok (0, m)
  else
    let m ← fsCopydata (fun m i c ↦ m.writeChar newStr i c) str 0 len m
    let m ← m.writeChar newStr len 0
    .ok (newStr, m)

/-- `_fs_file_link`; `os_composite_inmemfs.c:79`. -/
def fsFileLink (list : Addr) (m : FsMem) (file : Addr) : Except Fault FsMem := do
  let head ← m.load list
  let f ← m.load file
  let m ← m.store file { f with next := head.next }
  let head ← m.load list
  m.store list { head with next := file }

/-- The loop of `_fs_file_unlink`. -/
def unlinkLoop (file : Addr) : Nat → FsMem → Addr → Addr → Except Fault FsMem
  | 0, _, _, _ => .error .endlessWalk
  | rounds + 1, m, prev, next =>
    if next = 0 then .ok m
    else if next = file then do
      let n ← m.load next
      let p ← m.load prev
      let m ← m.store prev { p with next := n.next }
      let f ← m.load file
      m.store file { f with next := 0 }
    else do
      let n ← m.load next
      unlinkLoop file rounds m next n.next

/-- `_fs_file_unlink`; `os_composite_inmemfs.c:85`. -/
def fsFileUnlink (list : Addr) (m : FsMem) (file : Addr) : Except Fault FsMem := do
  let head ← m.load list
  unlinkLoop file (m.heap.size + 1) m list head.next

/-- The loop of `_fs_find_file`. -/
def findLoop (m : FsMem) (zName : Option CStr) : Nat → Addr → Except Fault Addr
  | 0, _ => .error .endlessWalk
  | rounds + 1, file =>
    if file = 0 then .ok 0
    else do
      let f ← m.load file
      let eq ← fsStrequals (fun i ↦ m.readChar f.zName i) (readName zName) 0 maxPathname
      if eq then .ok file else findLoop m zName rounds f.next

/-- `_fs_find_file`; `os_composite_inmemfs.c:102`. -/
def fsFindFile (list : Addr) (m : FsMem) (zName : Option CStr) : Except Fault Addr := do
  let head ← m.load list
  findLoop m zName (m.heap.size + 1) head.next

/-- `_fs_file_alloc`; `os_composite_inmemfs.c:113`. -/
def fsFileAlloc (list : Addr) (m : FsMem) (zName : Option CStr) : Except Fault (Addr × FsMem) :=
  let (file, m) := fsMalloc m (Int32.ofNat sizeofFsFile)
  if file = 0 then .ok (0, m)
  else
    let (buf, m) := fsMalloc m initialBufDataSize
    if buf = 0 then do
      let m ← fsFree m file
      .ok (0, m)
    else do
      let (zNameCopy, m) ← fsCopystring m (readName zName) maxPathname
      if zNameCopy = 0 then
        let m ← fsFree m file
        let m ← fsFree m buf
        .ok (0, m)
      else
        let m ← m.storeNew file sizeofFsFile
          { next := 0, zName := zNameCopy, buf := buf, len := 0, ref := 0, deleteOnClose := 0 }
        let m ← fsFileLink list m file
        .ok (file, m)

/-- `_fs_file_free`; `os_composite_inmemfs.c:146`. -/
def fsFileFree (m : FsMem) (file : Addr) : Except Fault FsMem := do
  let f ← m.load file
  let m ← (if f.zName ≠ 0 then do
      let m ← fsFree m f.zName
      m.store file { f with zName := 0 }
    else .ok m)
  let f ← m.load file
  let m ← (if f.buf ≠ 0 then do
      let m ← fsFree m f.buf
      m.store file { f with buf := 0 }
    else .ok m)
  fsFree m file

/-- `_fs_data_ensure_capacity`; `os_composite_inmemfs.c:163`. Doubling is `int` arithmetic,
and `new_size = sz` narrows a 64-bit size to `int`. -/
def fsDataEnsureCapacity (m : FsMem) (file : Addr) (sz : Int64) : Except Fault (Bool × FsMem) := do
  let f ← m.load file
  let oldSize ← fsMemsize m f.buf
  if oldSize.toInt64 < sz then
    let newSize := oldSize * 2
    let newSize := if newSize.toInt64 < sz then sz.toInt32 else newSize
    let (newBuf, m) ← fsRealloc m f.buf newSize
    if newBuf = 0 then .ok (false, m)
    else
      let m ← m.store file { f with buf := newBuf }
      .ok (true, m)
  else .ok (true, m)

/-! ### The filesystem's functions -/

/-- `fs_init`; `os_composite_inmemfs.c:183`. Only the assigned fields are ever read; the
others start as zero here. -/
def fsInit (m : FsMem) : Except Fault (Addr × FsMem) := do
  let (list, m) := fsMalloc m (Int32.ofNat sizeofFsFile)
  let m ← m.storeNew list sizeofFsFile
    { next := 0, zName := 0, buf := 0, len := 0, ref := 0, deleteOnClose := 0 }
  .ok (list, m)

/-- The loop of `fs_deinit`. -/
def deinitLoop : Nat → FsMem → Addr → Except Fault FsMem
  | 0, _, _ => .error .endlessWalk
  | rounds + 1, m, file =>
    if file = 0 then .ok m
    else do
      let f ← m.load file
      let m ← fsFileFree m file
      deinitLoop rounds m f.next

/-- `fs_deinit`; `os_composite_inmemfs.c:190`. -/
def fsDeinit (list : Addr) (m : FsMem) : Except Fault FsMem := do
  let head ← m.load list
  let m ← deinitLoop (m.heap.size + 1) m head.next
  fsFree m list

/-- `fs_open`; `os_composite_inmemfs.c:204`. -/
def fsOpen (list : Addr) (m : FsMem) (zName : Option CStr) : Except Fault (Addr × FsMem) := do
  let file ← fsFindFile list m zName
  let (file, m) ← (if file = 0 then fsFileAlloc list m zName else .ok (file, m))
  if file = 0 then .ok (0, m)
  else
    let f ← m.load file
    let m ← m.store file { f with ref := f.ref + 1 }
    .ok (file, m)

/-- `fs_close`; `os_composite_inmemfs.c:220`. -/
def fsClose (list : Addr) (m : FsMem) (file : Addr) : Except Fault FsMem := do
  let f ← m.load file
  let m ← m.store file { f with ref := f.ref - 1 }
  let f ← m.load file
  if f.ref = 0 ∧ f.deleteOnClose ≠ 0 then
    let m ← fsFileUnlink list m file
    fsFileFree m file
  else .ok m

/-- What a call stores in the caller's buffer: the byte stored at each index, if any. The
index is relative to the buffer's first byte and may fall outside the buffer. -/
abbrev Stores := Int → Option UInt8

/-- Store one byte in the caller's buffer. -/
def Stores.put (t : Stores) (i : Int) (b : UInt8) : Stores := fun j ↦ if j = i then some b else t j

/-- `fs_read`; `os_composite_inmemfs.c:230`. -/
def fsRead (m : FsMem) (file : Addr) (offset : Int64) (len : Int32) :
    Except Fault (Int32 × Stores) :=
  if offset < 0 ∨ len < 0 then .ok (-1, fun _ ↦ none)
  else do
    let f ← m.load file
    let endOffset := offset + len.toInt64
    let endOffset := if endOffset > f.len then f.len else endOffset
    let bytesRead := (endOffset - offset).toInt32
    if bytesRead > 0 then
      let stores ← fsCopydata (fun (t : Stores) i c ↦ .ok (t.put i c))
        (fun i ↦ m.readChar f.buf (offset.toInt + i)) 0 bytesRead.toNatClampNeg fun _ ↦ none
      .ok (bytesRead, stores)
    else .ok (bytesRead, fun _ ↦ none)

/-- `fs_write`; `os_composite_inmemfs.c:252`. `buf` is the caller's buffer. -/
def fsWrite (m : FsMem) (file : Addr) (offset : Int64) (len : Int32) (buf : Nat → UInt8) :
    Except Fault (Int32 × FsMem) :=
  if offset < 0 ∨ len < 0 then .ok (-1, m)
  else do
    let endOffset := offset + len.toInt64
    let (grown, m) ← fsDataEnsureCapacity m file endOffset
    if grown = false then .ok (-1, m)
    else
      let f ← m.load file
      let m ← fsCopydata (fun m i c ↦ m.writeChar f.buf (offset.toInt + i) c)
        (fun i ↦ .ok (buf i)) 0 len.toNatClampNeg m
      let f ← m.load file
      let m ← m.store file { f with len := endOffset }
      .ok (len, m)

/-- `fs_truncate`; `os_composite_inmemfs.c:276`. -/
def fsTruncate (m : FsMem) (file : Addr) (size : Int64) : Except Fault (Bool × FsMem) := do
  let f ← m.load file
  if size < f.len then
    let m ← m.store file { f with len := size }
    .ok (true, m)
  else .ok (true, m)

/-- `fs_size_hint`; `os_composite_inmemfs.c:283`. -/
def fsSizeHint (m : FsMem) (file : Addr) (size : Int64) : Except Fault FsMem := do
  let (_, m) ← fsDataEnsureCapacity m file size
  .ok m

/-- `fs_exists`; `os_composite_inmemfs.c:288`. -/
def fsExists (list : Addr) (m : FsMem) (zName : Option CStr) : Except Fault Bool := do
  let file ← fsFindFile list m zName
  .ok (file ≠ 0)

/-- `fs_delete`; `os_composite_inmemfs.c:294`. -/
def fsDelete (list : Addr) (m : FsMem) (zName : Option CStr) : Except Fault (Bool × FsMem) := do
  let file ← fsFindFile list m zName
  if file = 0 then .ok (true, m)
  else
    let f ← m.load file
    if f.ref = 0 then
      let m ← fsFileUnlink list m file
      let m ← fsFileFree m file
      .ok (true, m)
    else
      let m ← m.store file { f with deleteOnClose := 1 }
      .ok (true, m)

end SqliteComposite.Inmemfs
