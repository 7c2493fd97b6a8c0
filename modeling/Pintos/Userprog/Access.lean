import Pintos.Vm.Vm

/-!
# Accesses to user memory

The bytes of a user buffer that the kernel stores to and loads from, one at a time, with the page faults
it takes, and the loops of `inode_read_at` and `inode_write_at` on such a buffer. `t` is the thread that
runs, and `rsp` the stack pointer of the interrupt frame of a fault.

A byte that the tables translate is accessed whatever its page is: `CR0.WP` is not set.
-/

namespace Pintos

open Function LittleEndian

/-! ## Bytes -/

namespace Vm

/-- The tables translate the address. `paging_init` maps the memory there is from `KERN_BASE` on. -/
def mapped (s : Vm) (t : Tid) (va : Vaddr) : Bool :=
  if isUserVaddr va then
    match s.pte t (pgRoundDown va) with
    | none => false
    | some pte => pte.present
  else decide ((pgRoundDown va).toNat < KERN_BASE.toNat + s.memEnd)

/-- A byte is stored. -/
def store (s : Vm) (t : Tid) (va : Vaddr) (b : Byte) : Vm :=
  let s := { s with touched := va :: s.touched }
  if isUserVaddr va then
    match s.pte t (pgRoundDown va) with
    | none => s
    | some pte => (s.setPte t (pgRoundDown va) { pte with dirty := true }).copy pte.kva (pgOfs va).toNat [b]
  else { s with kernel := update s.kernel va b }

def load (s : Vm) (t : Tid) (va : Vaddr) : Byte :=
  if isUserVaddr va then
    match s.pte t (pgRoundDown va) with
    | none => 0
    | some pte => s.mem pte.kva (pgOfs va).toNat
  else s.kernel va

end Vm

/-- `exit`. -/
def exit {α : Type} (status : Int) : VmProg α := Prog.fail (.exit status)

/-- `page_fault`, at an address that is not present. -/
def pageFault (t : Tid) (rsp addr : Vaddr) : VmProg Unit := do
  let handled ← vmTryHandleFault t rsp addr true
  if handled then pure () else exit (-1)

/-- The page of an address is there, or a fault brings it. -/
def fetch (t : Tid) (rsp va : Vaddr) : VmProg Unit := do
  let mapped ← Prog.read fun s => .ok (s.mapped t va)
  if mapped then pure () else pageFault t rsp va

/-- The instruction is tried again after the fault. -/
def storeByte (t : Tid) (rsp va : Vaddr) (b : Byte) : VmProg Unit := do
  fetch t rsp va
  Prog.write fun s => if s.mapped t va then .ok (s.store t va b) else .error .disabled

def loadByte (t : Tid) (rsp va : Vaddr) : VmProg Byte := do
  fetch t rsp va
  Prog.lift fun s =>
    if s.mapped t va then .ok (s.load t va, { s with touched := va :: s.touched }) else .error .disabled

def storeBytes (t : Tid) (rsp : Vaddr) : Vaddr → List Byte → VmProg Unit
  | _, [] => pure ()
  | va, b :: bytes => do
    storeByte t rsp va b
    storeBytes t rsp (va + 1) bytes

def loadBytes (t : Tid) (rsp : Vaddr) : Nat → Vaddr → VmProg (List Byte)
  | 0, _ => pure []
  | n + 1, va => do
    let b ← loadByte t rsp va
    let bytes ← loadBytes t rsp n (va + 1)
    pure (b :: bytes)

/-! ## Files -/

/-- The number of sectors that can be accessed. -/
def Vm.setCapacity (s : Vm) (capacity : Nat) : Vm := { s with fs := { s.fs with capacity := capacity } }

/-- What runs between `lock_acquire` and `lock_release` of the channel of the file system's disk. Another
access to that disk fails: the thread holds the lock itself. -/
def inChannel {α : Type} (p : VmProg α) : VmProg α :=
  p.zoom (fun s => s.setCapacity 0) (fun s s' => s'.setCapacity s.fs.capacity) id

/-- `select_sector`. -/
def selectSector (sector : Nat) : FsProg Unit :=
  Prog.read fun s => if s.Selects sector then .ok () else .error .disk

/-- A round of `inode_read_at` into a user buffer. -/
def readToUser (t : Tid) (rsp va : Vaddr) (sectorIdx sectorOfs chunk : Nat) : VmProg Unit := do
  let sector ← liftFs (diskRead sectorIdx fun s sector => .ok (sector, s))
  if sectorOfs = 0 ∧ chunk = DISK_SECTOR_SIZE then
    inChannel (storeBytes t rsp va (sectorBytes sector 0 DISK_SECTOR_SIZE))
  else storeBytes t rsp va (sectorBytes sector sectorOfs chunk)

/-- The bounce buffer of a round of `inode_write_at` before bytes are copied into it. -/
def bounceBuffer (sectorIdx sectorOfs chunk : Nat) : FsProg Sector :=
  if 0 < sectorOfs ∨ chunk < DISK_SECTOR_SIZE - sectorOfs then diskRead sectorIdx fun s bounce => .ok (bounce, s)
  else pure fun _ => 0

/-- A round of `inode_write_at` from a user buffer. -/
def writeFromUser (t : Tid) (rsp va : Vaddr) (sectorIdx sectorOfs chunk : Nat) : VmProg Unit :=
  if sectorOfs = 0 ∧ chunk = DISK_SECTOR_SIZE then do
    liftFs (selectSector sectorIdx)
    let bytes ← inChannel (loadBytes t rsp chunk va)
    liftFs (diskWrite sectorIdx fun _ => sectorOf bytes)
  else do
    let bounce ← liftFs (bounceBuffer sectorIdx sectorOfs chunk)
    let bytes ← loadBytes t rsp chunk va
    liftFs (diskWrite sectorIdx fun _ => splice bounce sectorOfs bytes)

/-- The loop of both, after `n` bytes. `bounce` tells whether there is memory for the bounce buffer. -/
def userLoop (p : InodePtr) (buffer : Vaddr) (bounce : Bool) (round : Vaddr → Nat → Nat → Nat → VmProg Unit) :
    Nat → Nat → Nat → Nat → VmProg Nat
  | 0, _, _, n => pure n
  | fuel + 1, size, offset, n =>
    if size = 0 then pure n
    else do
      let inode ← liftFs (derefInode p)
      let chunk := chunkSize inode size offset
      if chunk ≤ 0 then pure n
      else if ¬ (offset % DISK_SECTOR_SIZE = 0 ∧ chunk = DISK_SECTOR_SIZE) ∧ bounce = false then pure n
      else do
        round (buffer + BitVec.ofNat 64 n) (byteToSector inode offset) (offset % DISK_SECTOR_SIZE) chunk.toNat
        userLoop p buffer bounce round fuel (size - chunk.toNat) (offset + chunk.toNat) (n + chunk.toNat)

/-- `file_read` into a user buffer. -/
def fileReadUser (t : Tid) (rsp : Vaddr) (bounce : Bool) (f : FilePtr) (buffer : Vaddr) (size : Int) :
    VmProg Nat := do
  let file ← liftFs (derefFile f)
  let n ← userLoop file.inode buffer bounce (readToUser t rsp) size.toNat size.toNat file.pos 0
  liftFs (advance f n)
  pure n

/-- `file_write` from a user buffer. -/
def fileWriteUser (t : Tid) (rsp : Vaddr) (bounce : Bool) (f : FilePtr) (buffer : Vaddr) (size : Int) :
    VmProg Nat := do
  let file ← liftFs (derefFile f)
  let inode ← liftFs (derefInode file.inode)
  let n ← if inode.denyWriteCnt ≠ 0 then pure 0
    else userLoop file.inode buffer bounce (writeFromUser t rsp) size.toNat size.toNat file.pos 0
  liftFs (advance f n)
  pure n

end Pintos
