import Pintos.Filesys.Types
import Pintos.Threads.Types

/-!
# `devices/disk.c`

The driver of the two ATA channels, the devices on them, and any number of threads in `disk_read` and
`disk_write`.

A step of a thread is one access to a port, or one change of the lock or of the semaphore. Between two steps
other threads run, a device goes on with its command, and interrupts are taken. The devices follow the
PIO commands of ATA: while one is busy, or has words to send or to take, its registers must not be written.

`log` is history: the calls in the order in which their transfers were counted, with the bytes that were read.
-/

namespace Pintos

open Function LittleEndian

/-! ## The devices -/

def STA_BSY : Byte := 0x80
def STA_DRDY : Byte := 0x40
def STA_DRQ : Byte := 0x08

def DEV_MBS : Byte := 0xa0
def DEV_LBA : Byte := 0x40
def DEV_DEV : Byte := 0x10

def CMD_READ_SECTOR_RETRY : Byte := 0x20
def CMD_WRITE_SECTOR_RETRY : Byte := 0x30

/-- The words in a sector. -/
def SECTOR_WORDS : Nat := DISK_SECTOR_SIZE / 2

/-- What a sector of a medium holds. -/
structure AtaSector where
  words : List (BitVec 16)
  length : words.length = SECTOR_WORDS

/-- The bytes that `insw` stores for a word. -/
def wordBytes (w : BitVec 16) : List Byte := [w.extractLsb' 0 8, w.extractLsb' 8 8]

/-- The word that `outsw` loads. -/
def bufferWord (buffer : List Byte) (k : Nat) : BitVec 16 := buffer.getD (2 * k + 1) 0 ++ buffer.getD (2 * k) 0

def AtaSector.bytes (s : AtaSector) : List Byte := s.words.flatMap wordBytes

/-- What a device is doing. -/
inductive AtaPhase where
  | idle
  /-- It gets a sector from the medium. -/
  | fetch (lba : Nat)
  /-- It has a sector for the host, which has `k` words of it. -/
  | send (sector : AtaSector) (k : Nat)
  /-- It gets ready to take a sector. -/
  | prepare (lba : Nat)
  /-- It has the first words of a sector. -/
  | take (lba : Nat) (words : List (BitVec 16))
  /-- It puts a sector on the medium. -/
  | store (lba : Nat) (sector : AtaSector)

/-- The status register. -/
def AtaPhase.status : AtaPhase → Byte
  | .idle => STA_DRDY
  | .fetch _ => STA_BSY
  | .send _ _ => STA_DRDY ||| STA_DRQ
  | .prepare _ => STA_BSY
  | .take _ _ => STA_DRDY ||| STA_DRQ
  | .store _ _ => STA_BSY

def AtaPhase.isIdle : AtaPhase → Bool
  | .idle => true
  | _ => false

inductive DiskHalt where
  /-- The step is not possible. -/
  | disabled
  /-- An assertion in `select_sector`. -/
  | assertSector
  /-- `PANIC`. -/
  | panic
  /-- A register is used in a way that ATA leaves open. -/
  | hardware
  deriving DecidableEq

/-- `struct channel`, with the hardware of the channel. Device 1, the slave, is `true`. -/
structure Channel where
  nsect : Byte
  lbal : Byte
  lbam : Byte
  lbah : Byte
  device : Byte
  phase : Bool → AtaPhase
  medium : Bool → Nat → AtaSector
  /-- The line of the interrupt. -/
  irq : Bool
  /-- The holder of `lock`. -/
  lock : Option Tid
  expectingInterrupt : Bool
  /-- The value of `completion_wait`. -/
  completionWait : Nat
  capacity : Bool → Nat
  readCnt : Bool → Nat
  writeCnt : Bool → Nat

namespace Channel

/-- The device that is selected. -/
def selected (ch : Channel) : Bool := ch.device &&& DEV_DEV != 0

/-- The sector in the registers. -/
def lba (ch : Channel) : Nat :=
  ch.lbal.toNat + ch.lbam.toNat * 2 ^ 8 + ch.lbah.toNat * 2 ^ 16 + (ch.device &&& 0x0f).toNat * 2 ^ 24

/-- The registers may be written. -/
def calm (ch : Channel) : Bool := (ch.phase false).isIdle && (ch.phase true).isIdle

/-- A write to a register of the command block. -/
def outb (ch : Channel) (written : Channel) : Except DiskHalt Channel :=
  if ch.calm then .ok written else .error .hardware

/-- A write to the command register. -/
def outCommand (ch : Channel) (command : Byte) : Except DiskHalt Channel :=
  if ch.calm && ch.nsect == 1 && ch.device &&& DEV_LBA != 0 then
    if command = CMD_READ_SECTOR_RETRY then
      .ok { ch with phase := update ch.phase ch.selected (.fetch ch.lba), irq := false }
    else if command = CMD_WRITE_SECTOR_RETRY then
      .ok { ch with phase := update ch.phase ch.selected (.prepare ch.lba), irq := false }
    else .error .hardware
  else .error .hardware

/-- The status, and the alternate status. -/
def status (ch : Channel) : Byte := (ch.phase ch.selected).status

/-- What a read of the status register does, and one of the alternate status register does not. -/
def acknowledge (ch : Channel) : Channel := { ch with irq := false }

/-- A read of the data register. -/
def inw (ch : Channel) : Except DiskHalt (BitVec 16 × Channel) :=
  match ch.phase ch.selected with
  | .send sector k =>
    .ok (sector.words.getD k 0, { ch with
      phase := update ch.phase ch.selected (if k + 1 = SECTOR_WORDS then .idle else .send sector (k + 1)) })
  | _ => .error .hardware

/-- A write to the data register. -/
def outw (ch : Channel) (w : BitVec 16) : Except DiskHalt Channel :=
  match ch.phase ch.selected with
  | .take lba words =>
    .ok { ch with
      phase := update ch.phase ch.selected
        (if h : (words ++ [w]).length = SECTOR_WORDS then .store lba ⟨words ++ [w], h⟩ else .take lba (words ++ [w])) }
  | _ => .error .hardware

/-- A device goes on with its command. The interrupt of the other device does not get through. -/
def work (ch : Channel) (dev : Bool) : Except DiskHalt Channel :=
  match ch.phase dev with
  | .fetch lba =>
    .ok { ch with phase := update ch.phase dev (.send (ch.medium dev lba) 0), irq := ch.irq || ch.selected == dev }
  | .prepare lba => .ok { ch with phase := update ch.phase dev (.take lba []) }
  | .store lba sector =>
    .ok { ch with
      phase := update ch.phase dev .idle
      medium := update ch.medium dev (update (ch.medium dev) lba sector)
      irq := ch.irq || ch.selected == dev }
  | _ => .error .disabled

/-- `interrupt_handler`. An interrupt that is not expected is only reported. -/
def interruptHandler (ch : Channel) : Channel :=
  if ch.expectingInterrupt then { ch.acknowledge with completionWait := ch.completionWait + 1 } else ch

end Channel

/-! ## The driver -/

inductive DiskOp where
  | read
  | write (buffer : List Byte)
  deriving DecidableEq

/-- A call of `disk_read` or `disk_write`. -/
structure DiskCall where
  chan : Nat
  dev : Bool
  sector : Nat
  op : DiskOp
  deriving DecidableEq

/-- Where a thread is in `disk_read` or `disk_write`. -/
inductive DiskPc where
  /-- In `lock_acquire`. -/
  | acquire
  /-- In the first `wait_until_idle` of `select_device_wait`, at a turn of the loop. -/
  | idleBefore (i : Nat)
  /-- In `select_device`, before and after the write. -/
  | select
  | settle
  /-- In the second `wait_until_idle`. -/
  | idleAfter (i : Nat)
  /-- In `select_sector`, before the write to a register. -/
  | nsect
  | lbal
  | lbam
  | lbah
  | device
  /-- In `issue_pio_command`. -/
  | expect
  | command
  /-- In `sema_down`. -/
  | down
  /-- In `wait_while_busy`, at a turn of the loop, and after it. -/
  | whileBusy (i : Nat)
  | drq
  /-- In `input_sector`, with the first words in the buffer. -/
  | input (k : Nat) (buffer : List Byte)
  /-- In `output_sector`, with the first words written. -/
  | output (k : Nat)
  /-- Before `d->read_cnt++` or `d->write_cnt++`. -/
  | count (buffer : List Byte)
  /-- In `lock_release`. -/
  | release
  deriving DecidableEq

namespace Channel

/-- A turn of the loop in `wait_until_idle`, at `next i`, with `leave` after the loop. -/
def waitUntilIdle (ch : Channel) (next : Nat → DiskPc) (leave : DiskPc) (i : Nat) : Channel × Option DiskPc :=
  if i < 1000 then
    if ch.status &&& (STA_BSY ||| STA_DRQ) = 0 then (ch.acknowledge, some leave)
    else (ch.acknowledge, some (next (i + 1)))
  else (ch, some leave)

/-- One step of `disk_read` or `disk_write`. -/
def exec (ch : Channel) (t : Tid) (c : DiskCall) : DiskPc → Except DiskHalt (Channel × Option DiskPc)
  | .acquire =>
    if ch.lock ≠ none then .error .disabled
    else if c.sector < ch.capacity c.dev ∧ c.sector < 2 ^ 28 then
      .ok ({ ch with lock := some t }, some (.idleBefore 0))
    else .error .assertSector
  | .idleBefore i => .ok (ch.waitUntilIdle .idleBefore .select i)
  | .select => do
    let ch' ← ch.outb { ch with device := DEV_MBS ||| if c.dev then DEV_DEV else 0 }
    .ok (ch', some .settle)
  | .settle => .ok (ch, some (.idleAfter 0))
  | .idleAfter i => .ok (ch.waitUntilIdle .idleAfter .nsect i)
  | .nsect => do
    let ch' ← ch.outb { ch with nsect := 1 }
    .ok (ch', some .lbal)
  | .lbal => do
    let ch' ← ch.outb { ch with lbal := BitVec.ofNat 8 c.sector }
    .ok (ch', some .lbam)
  | .lbam => do
    let ch' ← ch.outb { ch with lbam := BitVec.ofNat 8 (c.sector >>> 8) }
    .ok (ch', some .lbah)
  | .lbah => do
    let ch' ← ch.outb { ch with lbah := BitVec.ofNat 8 (c.sector >>> 16) }
    .ok (ch', some .device)
  | .device => do
    let ch' ← ch.outb { ch with
      device := DEV_MBS ||| DEV_LBA ||| (if c.dev then DEV_DEV else 0) ||| BitVec.ofNat 8 (c.sector >>> 24) }
    .ok (ch', some .expect)
  | .expect => .ok ({ ch with expectingInterrupt := true }, some .command)
  | .command =>
    match c.op with
    | .read => do
      let ch' ← ch.outCommand CMD_READ_SECTOR_RETRY
      .ok (ch', some .down)
    | .write _ => do
      let ch' ← ch.outCommand CMD_WRITE_SECTOR_RETRY
      .ok (ch', some (.whileBusy 0))
  | .down =>
    if ch.completionWait = 0 then .error .disabled
    else
      match c.op with
      | .read => .ok ({ ch with completionWait := ch.completionWait - 1 }, some (.whileBusy 0))
      | .write _ => .ok ({ ch with completionWait := ch.completionWait - 1 }, some (.count []))
  | .whileBusy i =>
    if i < 3000 then
      if ch.status &&& STA_BSY = 0 then .ok (ch, some .drq) else .ok (ch, some (.whileBusy (i + 1)))
    else .error .panic
  | .drq =>
    if ch.status &&& STA_DRQ ≠ 0 then
      match c.op with
      | .read => .ok (ch, some (.input 0 []))
      | .write _ => .ok (ch, some (.output 0))
    else .error .panic
  | .input k buffer => do
    let (w, ch') ← ch.inw
    let buffer' := buffer ++ wordBytes w
    .ok (ch', some (if k + 1 = SECTOR_WORDS then .count buffer' else .input (k + 1) buffer'))
  | .output k =>
    match c.op with
    | .read => .error .disabled
    | .write buffer => do
      let ch' ← ch.outw (bufferWord buffer k)
      .ok (ch', some (if k + 1 = SECTOR_WORDS then .down else .output (k + 1)))
  | .count _ =>
    match c.op with
    | .read => .ok ({ ch with readCnt := update ch.readCnt c.dev (ch.readCnt c.dev + 1) }, some .release)
    | .write _ => .ok ({ ch with writeCnt := update ch.writeCnt c.dev (ch.writeCnt c.dev + 1) }, some .release)
  | .release => if ch.lock = some t then .ok ({ ch with lock := none }, none) else .error .disabled

end Channel

structure DiskSys where
  channels : Nat → Channel
  calls : Tid → Option (DiskCall × DiskPc)
  log : List (DiskCall × List Byte)

inductive DiskAction where
  /-- A thread calls `disk_read` or `disk_write`. -/
  | call (t : Tid) (c : DiskCall)
  /-- A thread goes on. -/
  | run (t : Tid)
  /-- A device goes on. -/
  | device (chan : Nat) (dev : Bool)
  /-- The interrupt of a channel is taken. -/
  | interrupt (chan : Nat)

/-- What a step adds to the history. -/
def DiskPc.record (c : DiskCall) : DiskPc → List (DiskCall × List Byte)
  | .count buffer => [(c, buffer)]
  | _ => []

namespace DiskSys

def setChannel (s : DiskSys) (chan : Nat) (ch : Channel) : DiskSys :=
  { s with channels := update s.channels chan ch }

def step (s : DiskSys) : DiskAction → Except DiskHalt DiskSys
  | .call t c =>
    match s.calls t with
    | some _ => .error .disabled
    | none => .ok { s with calls := update s.calls t (some (c, .acquire)) }
  | .run t =>
    match s.calls t with
    | none => .error .disabled
    | some (c, pc) =>
      match (s.channels c.chan).exec t c pc with
      | .error e => .error e
      | .ok (ch, pc') => .ok { s.setChannel c.chan ch with
          calls := update s.calls t (pc'.map fun p => (c, p))
          log := s.log ++ pc.record c }
  | .device chan dev =>
    match (s.channels chan).work dev with
    | .error e => .error e
    | .ok ch => .ok (s.setChannel chan ch)
  | .interrupt chan =>
    if (s.channels chan).irq then .ok (s.setChannel chan (s.channels chan).interruptHandler)
    else .error .disabled

end DiskSys

end Pintos
