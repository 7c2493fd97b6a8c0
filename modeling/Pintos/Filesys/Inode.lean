import Pintos.Filesys.InodeData

/-!
# The free map, inodes and files

`filesys/free-map.c`, `filesys/file.c` and what `filesys/inode.c` does beside reading and writing.
The functions that take memory are told whether they find it (`alloc`), except for the buffers of
`inode_read_at`, `inode_write_at` and `inode_create`, for which there is memory.
-/

namespace Pintos

open Function LittleEndian

/-! ## Files on the disk -/

def fileReadAt (f : FilePtr) (size fileOfs : Nat) : FsProg (List Byte) := do
  let file ← derefFile f
  inodeReadAt file.inode size fileOfs

def fileWriteAt (f : FilePtr) (buffer : FileSys → List Byte) (size fileOfs : Nat) : FsProg Nat := do
  let file ← derefFile f
  inodeWriteAt file.inode buffer size fileOfs

/-- `file->pos += ...`. -/
def advance (f : FilePtr) (n : Nat) : FsProg Unit :=
  Prog.write fun s =>
    match s.files f with
    | none => .error .dangling
    | some file => .ok (s.setFile f (some { file with pos := file.pos + n }))

def fileRead (f : FilePtr) (size : Nat) : FsProg (List Byte) := do
  let file ← derefFile f
  let bytes ← inodeReadAt file.inode size file.pos
  advance f bytes.length
  pure bytes

def fileWrite (f : FilePtr) (buffer : List Byte) : FsProg Nat := do
  let file ← derefFile f
  let written ← inodeWriteAt file.inode (fun _ => buffer) buffer.length file.pos
  advance f written
  pure written

/-! ## The free map -/

/-- `bitmap_write`. -/
def bitmapWrite (b : FileSys → WordBitmap) (f : FilePtr) : FsProg Bool := do
  let size ← Prog.read fun s => .ok (byteCnt (b s).bitCnt)
  let written ← fileWriteAt f (fun s => toBytes (b s).elems) size 0
  pure (written = size)

/-- `bitmap_read`. The bitmap is returned; what is not read stays as it was. -/
def bitmapRead (b : WordBitmap) (f : FilePtr) : FsProg (Bool × WordBitmap) :=
  if 0 < b.bitCnt then do
    let size := byteCnt b.bitCnt
    let bytes ← fileReadAt f size 0
    let elems := ofBytes (elemCnt b.bitCnt) (bytes ++ (toBytes b.elems).drop bytes.length)
    pure (bytes.length = size, { b with elems := elems }.maskLast)
  else pure (true, b)

def setFreeMap (f : FileSys → WordBitmap) : FsProg Unit :=
  Prog.write fun s => .ok { s with freeMap := f s }

/-- `free_map_init`, with the memory `bitmap_create` finds. -/
def freeMapInit (block : List (BitVec 64)) : FsProg Unit :=
  setFreeMap fun s =>
    ((WordBitmap.create s.capacity block).mark FREE_MAP_SECTOR).mark ROOT_DIR_SECTOR

/-- `free_map_allocate`: the first of the sectors. -/
def freeMapAllocate (cnt : Nat) : FsProg (Option Nat) := do
  let found ← Prog.lift fun s =>
    match s.freeMap.scanAndFlip 0 cnt false with
    | (found, freeMap) => .ok (found, { s with freeMap := freeMap })
  match found with
  | none => pure none
  | some sector =>
    let file ← Prog.read fun s => .ok s.freeMapFile
    match file with
    | none => pure (some sector)
    | some f =>
      let success ← bitmapWrite (·.freeMap) f
      if success then pure (some sector)
      else do
        setFreeMap fun s => s.freeMap.setMultiple sector cnt false
        pure none

/-- `free_map_release`. -/
def freeMapRelease (sector cnt : Nat) : FsProg Unit := do
  Prog.write fun s =>
    if sector + cnt ≤ s.freeMap.bitCnt ∧ s.freeMap.all sector cnt then
      .ok { s with freeMap := s.freeMap.setMultiple sector cnt false }
    else .error .release
  let file ← Prog.read fun s => .ok s.freeMapFile
  match file with
  | none => Prog.fail .dangling
  | some f =>
    let _ ← bitmapWrite (·.freeMap) f
    pure ()

/-! ## Inodes -/

/-- An `int` that wraps around. -/
def wrap32 (n : Int) : Int := toInt32 (ofInt32 n)

theorem wrap32_add (x y : Int) : wrap32 (wrap32 x + y) = wrap32 (x + y) := by
  have h : ofInt32 (wrap32 x + y) = ofInt32 (x + y) := by
    unfold wrap32 toInt32 ofInt32
    split <;> omega
  exact congrArg toInt32 h

theorem wrap32_wrap32 (x : Int) : wrap32 (wrap32 x) = wrap32 x := by simpa using wrap32_add x 0

theorem wrap32_of_lt {x : Int} (h : 0 ≤ x) (hlt : x < 2 ^ 31) : wrap32 x = x := by
  unfold wrap32 toInt32 ofInt32
  split <;> omega

theorem wrap32_neg {x : Int} (h : 2 ^ 31 ≤ x) (hlt : x < 2 ^ 32) : wrap32 x < 0 := by
  unfold wrap32 toInt32 ofInt32
  split <;> omega

/-- `bytes_to_sectors`: `DIV_ROUND_UP` of an `off_t`, as a `size_t`. -/
def bytesToSectors (size : Int) : Nat := ((wrap32 (size + 511)).tdiv 512 % 2 ^ 64).toNat

/-- The loop of `inode_create`. -/
def writeZeros (start : Nat) : Nat → Nat → FsProg Unit
  | _, 0 => pure ()
  | i, k + 1 => do
    diskWrite ((start + i) % 2 ^ 32) fun _ _ => 0
    writeZeros start (i + 1) k

def inodeCreate (sector : Nat) (length : Int) : FsProg Bool :=
  if length < 0 then Prog.fail .argument
  else do
    let sectors := bytesToSectors length
    let start ← freeMapAllocate sectors
    match start with
    | none => pure false
    | some start =>
      diskWrite sector fun _ => sectorOf { start := start, length := length : InodeDisk }.bytes
      writeZeros start 0 sectors
      pure true

/-- The first inode of `open_inodes` that was read from `sector`. -/
def FileSys.findOpen (s : FileSys) (sector : Nat) : List InodePtr → Option InodePtr
  | [] => none
  | p :: rest =>
    match s.inodes p with
    | none => s.findOpen sector rest
    | some inode => if inode.sector = sector then some p else s.findOpen sector rest

def inodeReopen (p : InodePtr) : FsProg InodePtr :=
  Prog.lift fun s =>
    match s.inodes p with
    | none => .error .dangling
    | some inode => .ok (p, s.setInode p (some { inode with openCnt := inode.openCnt + 1 }))

/-- The part of `inode_open` before the sector is read: the inode, and whether it is new. -/
def inodeOpenFind (sector : Nat) (alloc : Bool) : FsProg (Option (InodePtr × Bool)) :=
  Prog.lift fun s =>
    match s.findOpen sector s.openInodes with
    | some p =>
      match s.inodes p with
      | none => .error .dangling
      | some inode =>
        .ok (some (p, false), s.setInode p (some { inode with openCnt := inode.openCnt + 1 }))
    | none =>
      if alloc then
        let inode : Inode :=
          { sector := sector, openCnt := 1, removed := false, denyWriteCnt := 0, data := s.block }
        .ok (some (s.brk, true),
          { s.setInode s.brk (some inode) with
            openInodes := s.brk :: s.openInodes
            brk := s.brk + 1 })
      else .ok (none, s)

def inodeOpen (sector : Nat) (alloc : Bool) : FsProg (Option InodePtr) := do
  let found ← inodeOpenFind sector alloc
  match found with
  | none => pure none
  | some (p, isNew) =>
    if isNew then
      diskRead sector fun s bytes =>
        match s.inodes p with
        | none => .error .dangling
        | some inode =>
          .ok (some p, s.setInode p (some { inode with data := InodeDisk.ofSector bytes }))
    else pure (some p)

/-- The part of `inode_close` before blocks are released: the inode as it is then. -/
def inodeCloseCount (p : InodePtr) : FsProg Inode :=
  Prog.lift fun s =>
    match s.inodes p with
    | none => .error .dangling
    | some inode =>
      let inode := { inode with openCnt := inode.openCnt - 1 }
      let s := s.setInode p (some inode)
      .ok (inode, if inode.openCnt = 0 then { s with openInodes := s.openInodes.erase p } else s)

/-- `free (inode)`. -/
def freeInode (p : InodePtr) : FsProg Unit := Prog.write fun s => .ok (s.setInode p none)

def inodeClose : Option InodePtr → FsProg Unit
  | none => pure ()
  | some p => do
    let inode ← inodeCloseCount p
    if inode.openCnt = 0 then
      if inode.removed then do
        freeMapRelease inode.sector 1
        freeMapRelease inode.data.start (bytesToSectors inode.data.length)
        freeInode p
      else freeInode p
    else pure ()

/-- A change of an inode. -/
def updateInode (p : InodePtr) (f : Inode → Except FsFault Inode) : FsProg Unit :=
  Prog.write fun s =>
    match s.inodes p with
    | none => .error .dangling
    | some inode =>
      match f inode with
      | .error e => .error e
      | .ok inode => .ok (s.setInode p (some inode))

def inodeRemove (p : InodePtr) : FsProg Unit :=
  updateInode p fun inode => .ok { inode with removed := true }

def inodeDenyWrite (p : InodePtr) : FsProg Unit :=
  updateInode p fun inode =>
    let inode := { inode with denyWriteCnt := inode.denyWriteCnt + 1 }
    if inode.denyWriteCnt ≤ inode.openCnt then .ok inode else .error .denyWrite

def inodeAllowWrite (p : InodePtr) : FsProg Unit :=
  updateInode p fun inode =>
    if 0 < inode.denyWriteCnt ∧ inode.denyWriteCnt ≤ inode.openCnt then
      .ok { inode with denyWriteCnt := inode.denyWriteCnt - 1 }
    else .error .denyWrite

/-! ## Files -/

def fileOpen (inode : Option InodePtr) (alloc : Bool) : FsProg (Option FilePtr) :=
  match inode, alloc with
  | some p, true =>
    Prog.lift fun s =>
      .ok (some s.brk,
        { s.setFile s.brk (some { inode := p, pos := 0, denyWrite := false }) with brk := s.brk + 1 })
  | _, _ => do
    inodeClose inode
    pure none

def fileReopen (f : FilePtr) (alloc : Bool) : FsProg (Option FilePtr) := do
  let file ← derefFile f
  let p ← inodeReopen file.inode
  fileOpen (some p) alloc

/-- A change of a file. -/
def updateFile (f : FilePtr) (g : File → File) : FsProg Unit :=
  Prog.write fun s =>
    match s.files f with
    | none => .error .dangling
    | some file => .ok (s.setFile f (some (g file)))

/-- `file_seek`. -/
def fileSeek (f : FilePtr) (newPos : Int) : FsProg Unit :=
  if newPos < 0 then Prog.fail .argument
  else updateFile f fun file => { file with pos := newPos.toNat }

def fileTell (f : FilePtr) : FsProg Nat := do
  let file ← derefFile f
  pure file.pos

def fileLength (f : FilePtr) : FsProg Int := do
  let file ← derefFile f
  let inode ← derefInode file.inode
  pure inode.data.length

def fileDenyWrite (f : FilePtr) : FsProg Unit := do
  let file ← derefFile f
  if file.denyWrite then pure ()
  else do
    updateFile f fun file => { file with denyWrite := true }
    inodeDenyWrite file.inode

def fileAllowWrite (f : FilePtr) : FsProg Unit := do
  let file ← derefFile f
  if file.denyWrite then do
    updateFile f fun file => { file with denyWrite := false }
    inodeAllowWrite file.inode
  else pure ()

def fileDuplicate (f : FilePtr) (alloc : Bool) : FsProg (Option FilePtr) := do
  let file ← derefFile f
  let p ← inodeReopen file.inode
  let nfile ← fileOpen (some p) alloc
  match nfile with
  | none => pure none
  | some nf => do
    let file ← derefFile f
    updateFile nf fun nfile => { nfile with pos := file.pos }
    if file.denyWrite then do
      fileDenyWrite nf
      pure (some nf)
    else pure (some nf)

/-- `free (file)`. -/
def freeFile (f : FilePtr) : FsProg Unit := Prog.write fun s => .ok (s.setFile f none)

def fileClose : Option FilePtr → FsProg Unit
  | none => pure ()
  | some f => do
    fileAllowWrite f
    let file ← derefFile f
    inodeClose (some file.inode)
    freeFile f

section

variable {s : FileSys} {f : FilePtr} {p : InodePtr} {file : File} {inode : Inode}

theorem run_derefFile (h : s.files f = some file) : (derefFile f).run s = .ok (file, s) :=
  Prog.run_read (by rw [h])

theorem run_inodeReopen (h : s.inodes p = some inode) :
    (inodeReopen p).run s =
      .ok (p, s.setInode p (some { inode with openCnt := inode.openCnt + 1 })) := by
  rw [inodeReopen, Prog.run_lift, h]

theorem run_fileLength (hf : s.files f = some file) (hp : s.inodes file.inode = some inode) :
    (fileLength f).run s = .ok (inode.data.length, s) := by
  rw [fileLength, Prog.run_bind_ok (run_derefFile hf), Prog.run_bind_ok (run_derefInode hp)]
  rfl

theorem run_updateFile (hf : s.files f = some file) (g : File → File) :
    (updateFile f g).run s = .ok ((), s.setFile f (some (g file))) :=
  Prog.run_write (by rw [hf])

theorem run_fileSeek (hf : s.files f = some file) {pos : Int} (hpos : 0 ≤ pos) :
    (fileSeek f pos).run s = .ok ((), s.setFile f (some { file with pos := pos.toNat })) := by
  rw [fileSeek, if_neg (by omega)]
  exact run_updateFile hf _

/-- `file_read` reads from the position on, and moves it. -/
theorem run_fileRead (hf : s.files f = some file) (hp : s.inodes file.inode = some inode)
    (hd : OnDisk s inode.data) (size : Nat) :
    (fileRead f size).run s =
      .ok (fileBytes s.disk inode.data.start file.pos (transferred inode.data size file.pos),
        s.setFile f (some { file with pos := file.pos + transferred inode.data size file.pos })) := by
  have hread := inodeReadAt_spec hp hd size file.pos
  have hadvance : (advance f (fileBytes s.disk inode.data.start file.pos (transferred inode.data size file.pos)).length).run s =
      .ok ((), s.setFile f (some { file with pos := file.pos + transferred inode.data size file.pos })) := by
    rw [length_fileBytes]
    exact Prog.run_write (by rw [hf])
  rw [fileRead, Prog.run_bind_ok (run_derefFile hf), Prog.run_bind_ok hread, Prog.run_bind_ok hadvance]
  rfl

/-- Without memory for a file the reference is given back. -/
theorem run_fileReopen_refused (hf : s.files f = some file) (hp : s.inodes file.inode = some inode)
    (hopen : inode.openCnt ≠ 0) : (fileReopen f false).run s = .ok (none, s) := by
  have hcnt : inode.openCnt + 1 - 1 = inode.openCnt := by omega
  rw [fileReopen, Prog.run_bind_ok (run_derefFile hf), Prog.run_bind_ok (run_inodeReopen hp)]
  show (inodeClose (some file.inode) >>= fun _ => pure none).run _ = _
  rw [inodeClose, inodeCloseCount, Prog.run_bind, Prog.run_bind, Prog.run_lift]
  simp only [FileSys.setInode, update_self, hcnt, hopen, if_false, update_idem]
  rw [update_eq_self_iff.mpr hp.symm]
  rfl

end

/-! ## The free map file -/

def setFreeMapFile (f : Option FilePtr) : FsProg Unit :=
  Prog.write fun s => .ok { s with freeMapFile := f }

/-- `free_map_open`. -/
def freeMapOpen : FsProg Unit := do
  let inode ← inodeOpen FREE_MAP_SECTOR true
  let file ← fileOpen inode true
  setFreeMapFile file
  match file with
  | none => Prog.fail .assertion
  | some f => do
    let b ← Prog.read fun s => .ok s.freeMap
    let (success, b) ← bitmapRead b f
    if success then setFreeMap fun _ => b else Prog.fail .assertion

/-- `free_map_close`. The pointer is left as it is. -/
def freeMapClose : FsProg Unit := do
  let file ← Prog.read fun s => .ok s.freeMapFile
  fileClose file

/-- `free_map_create`. -/
def freeMapCreate : FsProg Unit := do
  let size ← Prog.read fun s => .ok (byteCnt s.freeMap.bitCnt)
  let created ← inodeCreate FREE_MAP_SECTOR size
  if created then do
    let inode ← inodeOpen FREE_MAP_SECTOR true
    let file ← fileOpen inode true
    setFreeMapFile file
    match file with
    | none => Prog.fail .assertion
    | some f => do
      let success ← bitmapWrite (·.freeMap) f
      if success then pure () else Prog.fail .assertion
  else Prog.fail .assertion

end Pintos
