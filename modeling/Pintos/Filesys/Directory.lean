import Pintos.Filesys.Inode

/-!
# Directories and the file system's own calls

`filesys/directory.c` and `filesys/filesys.c`. There is memory for a `struct dir` and for the
inodes and files these functions open.
-/

namespace Pintos

open LittleEndian

def NAME_MAX : Nat := 14

/-- A string of C: bytes without the final null. -/
structure CStr where
  bytes : List Byte
  noNul : (0 : Byte) ∉ bytes

theorem CStr.noNul_a : (0 : Byte) ∉ ([97] : List Byte) := by decide

theorem CStr.noNul_b : (0 : Byte) ∉ ([98] : List Byte) := by decide

/-- `struct dir_entry`, as its 20 bytes: the sector, the name and whether it is in use. -/
structure DirEntry where
  inodeSector : Nat
  name : List Byte
  inUse : Bool
  deriving DecidableEq

/-- `sizeof (struct dir_entry)`. -/
def ENTRY_SIZE : Nat := 20

namespace DirEntry

def ofBytes (bytes : List Byte) : DirEntry where
  inodeSector := ofLe (bytes.take 4)
  name := (bytes.drop 4).take (NAME_MAX + 1)
  inUse := bytes.getD 19 0 ≠ 0

def toBytes (e : DirEntry) : List Byte :=
  leBytes 4 e.inodeSector ++ e.name ++ [if e.inUse then 1 else 0]

/-- The name up to its null. -/
def string (e : DirEntry) : List Byte := e.name.takeWhile (· ≠ 0)

end DirEntry

/-- `strlcpy (dst, src, size)`: what is after the null stays. -/
def strlcpy (dst : List Byte) (src : CStr) (size : Nat) : List Byte :=
  let copied := src.bytes.take (size - 1)
  copied ++ [0] ++ dst.drop (copied.length + 1)

/-- `struct dir`. -/
structure Dir where
  inode : InodePtr
  pos : Nat

/-- More entries than a file of any length has. -/
def maxEntries : Nat := 2 ^ 31 / 20 + 1

/-- `dir_create`: `entry_cnt * 20` as an `off_t`. -/
def dirCreate (sector entryCnt : Nat) : FsProg Bool :=
  inodeCreate sector (toInt32 (entryCnt * ENTRY_SIZE % 2 ^ 32))

def dirOpen : Option InodePtr → FsProg (Option Dir)
  | some p => pure (some { inode := p, pos := 0 })
  | none => pure none

def dirOpenRoot : FsProg (Option Dir) := do
  let inode ← inodeOpen ROOT_DIR_SECTOR true
  dirOpen inode

def dirClose : Option Dir → FsProg Unit
  | none => pure ()
  | some dir => inodeClose (some dir.inode)

/-- The loop of `lookup`: the entry and its offset. -/
def lookupLoop (dir : Dir) (name : CStr) : Nat → Nat → FsProg (Option (DirEntry × Nat))
  | 0, _ => pure none
  | fuel + 1, ofs => do
    let bytes ← inodeReadAt dir.inode ENTRY_SIZE ofs
    if bytes.length = ENTRY_SIZE then
      let e := DirEntry.ofBytes bytes
      if e.inUse ∧ e.string = name.bytes then pure (some (e, ofs))
      else lookupLoop dir name fuel (ofs + ENTRY_SIZE)
    else pure none

def lookup (dir : Dir) (name : CStr) : FsProg (Option (DirEntry × Nat)) :=
  lookupLoop dir name maxEntries 0

def dirLookup (dir : Dir) (name : CStr) : FsProg (Option InodePtr) := do
  let found ← lookup dir name
  match found with
  | some (e, _) => inodeOpen e.inodeSector true
  | none => pure none

/-- The loop of `dir_add` for a free slot: what `e` holds after it, and the offset. -/
def freeSlotLoop (dir : Dir) : Nat → List Byte → Nat → FsProg (List Byte × Nat)
  | 0, e, ofs => pure (e, ofs)
  | fuel + 1, e, ofs => do
    let bytes ← inodeReadAt dir.inode ENTRY_SIZE ofs
    let e := bytes ++ e.drop bytes.length
    if bytes.length = ENTRY_SIZE then
      if (DirEntry.ofBytes e).inUse then freeSlotLoop dir fuel e (ofs + ENTRY_SIZE)
      else pure (e, ofs)
    else pure (e, ofs)

def dirAdd (dir : Dir) (name : CStr) (inodeSector : Nat) : FsProg Bool :=
  if name.bytes = [] ∨ NAME_MAX < name.bytes.length then pure false
  else do
    let found ← lookup dir name
    match found with
    | some _ => pure false
    | none =>
      let e ← Prog.read fun s => .ok s.stack
      let (e, ofs) ← freeSlotLoop dir maxEntries e 0
      let e := DirEntry.ofBytes e
      let e := { inodeSector := inodeSector, name := strlcpy e.name name (NAME_MAX + 1), inUse := true : DirEntry }
      let written ← inodeWriteAt dir.inode (fun _ => e.toBytes) ENTRY_SIZE ofs
      pure (written = ENTRY_SIZE)

def dirRemove (dir : Dir) (name : CStr) : FsProg Bool := do
  let found ← lookup dir name
  match found with
  | none => pure false
  | some (e, ofs) =>
    let inode ← inodeOpen e.inodeSector true
    match inode with
    | none => pure false
    | some p =>
      let e := { e with inUse := false }
      let written ← inodeWriteAt dir.inode (fun _ => e.toBytes) ENTRY_SIZE ofs
      if written = ENTRY_SIZE then do
        inodeRemove p
        inodeClose (some p)
        pure true
      else do
        inodeClose (some p)
        pure false

/-- The loop of `dir_readdir`: the name and the new position. -/
def readdirLoop (dir : Dir) : Nat → Nat → FsProg (Option (List Byte) × Nat)
  | 0, pos => pure (none, pos)
  | fuel + 1, pos => do
    let bytes ← inodeReadAt dir.inode ENTRY_SIZE pos
    if bytes.length = ENTRY_SIZE then
      let e := DirEntry.ofBytes bytes
      if e.inUse then pure (some e.string, pos + ENTRY_SIZE)
      else readdirLoop dir fuel (pos + ENTRY_SIZE)
    else pure (none, pos)

def dirReaddir (dir : Dir) : FsProg (Option (List Byte) × Dir) := do
  let (name, pos) ← readdirLoop dir maxEntries dir.pos
  pure (name, { dir with pos := pos })

/-! ## `filesys/filesys.c` -/

/-- The steps of `filesys_create` that must all succeed, after the sector of the inode is taken. -/
def createAt (dir : Dir) (name : CStr) (initialSize : Int) (inodeSector : Nat) : FsProg Bool := do
  let created ← inodeCreate inodeSector initialSize
  if created then dirAdd dir name inodeSector else pure false

def filesysCreate (name : CStr) (initialSize : Int) : FsProg Bool := do
  let dir ← dirOpenRoot
  match dir with
  | none => pure false
  | some dir =>
    let allocated ← freeMapAllocate 1
    match allocated with
    | none => do
      dirClose (some dir)
      pure false
    | some inodeSector =>
      let success ← createAt dir name initialSize inodeSector
      if success = false ∧ inodeSector ≠ 0 then do
        freeMapRelease inodeSector 1
        dirClose (some dir)
        pure success
      else do
        dirClose (some dir)
        pure success

def filesysOpen (name : CStr) : FsProg (Option FilePtr) := do
  let dir ← dirOpenRoot
  match dir with
  | none => fileOpen none true
  | some d =>
    let inode ← dirLookup d name
    dirClose dir
    fileOpen inode true

def filesysRemove (name : CStr) : FsProg Bool := do
  let dir ← dirOpenRoot
  match dir with
  | none => pure false
  | some d =>
    let success ← dirRemove d name
    dirClose dir
    pure success

/-- `do_format`. -/
def doFormat : FsProg Unit := do
  freeMapCreate
  let created ← dirCreate ROOT_DIR_SECTOR 16
  if created then freeMapClose else Prog.fail .assertion

/-- `filesys_init`, with the memory `bitmap_create` finds. -/
def filesysInit (format : Bool) (block : List (BitVec 64)) : FsProg Unit := do
  freeMapInit block
  if format then do
    doFormat
    freeMapOpen
  else freeMapOpen

/-- Before `filesys_init`: nothing is open, and any disk. -/
def FileSys.boot (disk : Nat → Sector) (capacity : Nat) (freeMap : WordBitmap) (stack : List Byte)
    (block : InodeDisk) : FileSys where
  disk := disk
  capacity := capacity
  freeMap := freeMap
  freeMapFile := none
  openInodes := []
  inodes := fun _ => none
  files := fun _ => none
  brk := 0
  stack := stack
  block := block

end Pintos
