import Mathlib.Logic.Function.Basic
import Pintos.Kernel.WordBitmap
import Pintos.Lib.LittleEndian
import Pintos.Lib.Prog

/-!
# The state of the file system

What `filesys/` keeps in memory and on the disk `filesys_disk`. An in-memory `struct inode` and a
`struct file` are known by pointers; freed memory is not used again, so that a pointer to it is
seen to dangle.
-/

namespace Pintos

open Function LittleEndian

/-- `DISK_SECTOR_SIZE`. -/
def DISK_SECTOR_SIZE : Nat := 512

/-- The bytes of a sector. -/
abbrev Sector := Nat → Byte

def INODE_MAGIC : Nat := 0x494e4f44

/-- Sector of the inode of the free map file. -/
def FREE_MAP_SECTOR : Nat := 0

/-- Sector of the inode of the root directory. -/
def ROOT_DIR_SECTOR : Nat := 1

/-- `struct inode_disk`. -/
structure InodeDisk where
  start : Nat
  length : Int
  deriving DecidableEq, Repr

/-- `struct inode`. -/
structure Inode where
  sector : Nat
  openCnt : Int
  removed : Bool
  denyWriteCnt : Int
  data : InodeDisk
  deriving DecidableEq, Repr

abbrev InodePtr := Nat
abbrev FilePtr := Nat

/-- `struct file`. -/
structure File where
  inode : InodePtr
  pos : Nat
  denyWrite : Bool
  deriving DecidableEq, Repr

/-- Why the kernel stops. -/
inductive FsFault where
  /-- `ASSERT (bitmap_all (free_map, sector, cnt))`. -/
  | release
  /-- An assertion of `inode_deny_write` or `inode_allow_write`. -/
  | denyWrite
  /-- The driver refuses the sector number. -/
  | disk
  /-- A pointer to freed memory is followed. -/
  | dangling
  /-- `ASSERT (new_pos >= 0)` of `file_seek` or `ASSERT (length >= 0)` of `inode_create`. -/
  | argument
  /-- Another failed `ASSERT`, or a `PANIC`. -/
  | assertion
  /-- The step is not possible. -/
  | disabled
  deriving DecidableEq, Repr

structure FileSys where
  disk : Nat → Sector
  /-- `disk_size (filesys_disk)`. -/
  capacity : Nat
  freeMap : WordBitmap
  freeMapFile : Option FilePtr
  openInodes : List InodePtr
  inodes : InodePtr → Option Inode
  files : FilePtr → Option File
  /-- The next pointer the allocator returns. -/
  brk : Nat
  /-- What a `struct dir_entry` on the stack holds before it is written. -/
  stack : List Byte
  /-- What the `data` of a `struct inode` holds before it is read. -/
  block : InodeDisk

/-- A function of `filesys/`. Each action ends where the thread may wait for the disk. -/
abbrev FsProg := Prog FsFault FileSys

namespace FileSys

def setInode (s : FileSys) (p : InodePtr) (inode : Option Inode) : FileSys :=
  { s with inodes := update s.inodes p inode }

def setFile (s : FileSys) (p : FilePtr) (file : Option File) : FileSys :=
  { s with files := update s.files p file }

def setSector (s : FileSys) (sector : Nat) (bytes : Sector) : FileSys :=
  { s with disk := update s.disk sector bytes }

/-- `select_sector` accepts the sector number. -/
def Selects (s : FileSys) (sector : Nat) : Prop := sector < s.capacity ∧ sector < 2 ^ 28

instance (s : FileSys) (sector : Nat) : Decidable (s.Selects sector) :=
  inferInstanceAs (Decidable (_ ∧ _))

end FileSys

/-- `disk_read`, and what is done with the bytes before the thread can wait again. -/
def diskRead {α : Type} (sector : Nat) (f : FileSys → Sector → Except FsFault (α × FileSys)) : FsProg α :=
  Prog.lift fun s => if s.Selects sector then f s (s.disk sector) else .error .disk

/-- `disk_write` of bytes that are in memory when they are sent. -/
def diskWrite (sector : Nat) (bytes : FileSys → Sector) : FsProg Unit :=
  Prog.lift fun s =>
    if s.Selects sector then .ok ((), s.setSector sector (bytes s)) else .error .disk

/-- `inode->...`. -/
def derefInode (p : InodePtr) : FsProg Inode :=
  Prog.read fun s =>
    match s.inodes p with
    | none => .error .dangling
    | some inode => .ok inode

def derefFile (p : FilePtr) : FsProg File :=
  Prog.read fun s =>
    match s.files p with
    | none => .error .dangling
    | some file => .ok file

/-! ## `struct inode_disk` as bytes -/

/-- An `int` as the number its bytes make. -/
def ofInt32 (n : Int) : Nat := (n % 2 ^ 32).toNat

def toInt32 (n : Nat) : Int := if n < 2 ^ 31 then n else (n : Int) - 2 ^ 32

def InodeDisk.bytes (d : InodeDisk) : List Byte :=
  leBytes 4 d.start ++ leBytes 4 (ofInt32 d.length) ++ leBytes 4 INODE_MAGIC ++
    List.replicate 500 0

/-- The sector a buffer of bytes makes. -/
def sectorOf (bytes : List Byte) : Sector := fun k => bytes.getD k 0

/-- The bytes of a sector from `ofs` on. -/
def sectorBytes (sector : Sector) (ofs cnt : Nat) : List Byte :=
  (List.range cnt).map fun k => sector (ofs + k)

theorem length_sectorBytes (sector : Sector) (ofs cnt : Nat) : (sectorBytes sector ofs cnt).length = cnt := by
  rw [sectorBytes, List.length_map, List.length_range]

def InodeDisk.ofSector (sector : Sector) : InodeDisk where
  start := ofLe (sectorBytes sector 0 4)
  length := toInt32 (ofLe (sectorBytes sector 4 4))

theorem toInt32_ofInt32 {n : Int} (h0 : 0 ≤ n) (h : n < 2 ^ 31) : toInt32 (ofInt32 n) = n := by
  unfold toInt32 ofInt32
  rw [Int.emod_eq_of_lt h0 (by omega)]
  split <;> omega

theorem sectorBytes_sectorOf (pre bytes post : List Byte) :
    sectorBytes (sectorOf (pre ++ bytes ++ post)) pre.length bytes.length = bytes := by
  refine List.ext_getElem (by simp [sectorBytes]) fun k hk hk' => ?_
  simp only [sectorBytes, List.getElem_map, List.getElem_range, sectorOf]
  rw [List.getD_eq_getElem?_getD, List.append_assoc, List.getElem?_append_right (by omega),
    List.getElem?_append_left (by omega)]
  simp [hk']

/-- An inode written to the disk is read back. -/
theorem InodeDisk.ofSector_bytes {d : InodeDisk} (hs : d.start < 2 ^ 32) (h0 : 0 ≤ d.length)
    (h : d.length < 2 ^ 31) : InodeDisk.ofSector (sectorOf d.bytes) = d := by
  have hlen : ofInt32 d.length < 2 ^ 32 := by
    unfold ofInt32
    omega
  have h1 : sectorBytes (sectorOf d.bytes) 0 4 = leBytes 4 d.start := by
    have hb := sectorBytes_sectorOf [] (leBytes 4 d.start)
      (leBytes 4 (ofInt32 d.length) ++ (leBytes 4 INODE_MAGIC ++ List.replicate 500 0))
    rw [length_leBytes] at hb
    rw [InodeDisk.bytes, List.append_assoc, List.append_assoc]
    exact hb
  have h2 : sectorBytes (sectorOf d.bytes) 4 4 = leBytes 4 (ofInt32 d.length) := by
    have hb := sectorBytes_sectorOf (leBytes 4 d.start) (leBytes 4 (ofInt32 d.length))
      (leBytes 4 INODE_MAGIC ++ List.replicate 500 0)
    rw [length_leBytes, length_leBytes] at hb
    rw [InodeDisk.bytes, List.append_assoc (_ ++ _)]
    exact hb
  rw [InodeDisk.ofSector, h1, h2, ofLe_leBytes_of_lt (by simpa using hs),
    ofLe_leBytes_of_lt (by simpa using hlen), toInt32_ofInt32 h0 h]

end Pintos
