import Pintos.Devices.Disk
import Pintos.Lib.CellHistory
import Pintos.Lib.Machine

/-!
# The disk driver

Any number of threads read and write sectors through `Pintos/Devices/Disk.lean`. Together they see a memory
of sectors (`Pintos/Lib/CellHistory.lean`).

* `Channel.Stage` — how the hardware stands at each point of the driver
* `disk_driver_serves` — the transfers are a legal history, and nothing but a slow device is fatal
* `disk_driver_goes_on` — no completion is lost
-/

namespace Pintos

open Function Machine LittleEndian CellHistory

/-! ## Words and registers -/

theorem wordBytes_append (lo hi : Byte) : wordBytes (hi ++ lo) = [lo, hi] := by
  rw [wordBytes, BitVec.extractLsb'_append_eq_right, BitVec.extractLsb'_append_eq_left]

/-- The words sent are those of the buffer. -/
theorem bufferWords_bytes (buffer : List Byte) (n : Nat) (h : 2 * n ≤ buffer.length) :
    ((List.range n).map (bufferWord buffer)).flatMap wordBytes = buffer.take (2 * n) := by
  induction n with
  | zero => rfl
  | succ n ih =>
    have hword : ([n].map (bufferWord buffer)).flatMap wordBytes =
        [buffer.getD (2 * n) 0, buffer.getD (2 * n + 1) 0] := by
      rw [List.map_singleton, List.flatMap_singleton, bufferWord, wordBytes_append]
    have hlast : 2 * (n + 1) = 2 * n + 1 + 1 := by omega
    rw [List.range_succ, List.map_append, List.flatMap_append, ih (by omega), hword, hlast, List.take_add_one,
      List.take_add_one, List.append_assoc, List.getD_eq_getElem?_getD, List.getD_eq_getElem?_getD,
      List.getElem?_eq_getElem (by omega), List.getElem?_eq_getElem (by omega)]
    rfl

/-- What `select_sector` writes to the device register. -/
def deviceByte (dev : Bool) (high : Nat) : Byte :=
  DEV_MBS ||| DEV_LBA ||| (if dev then DEV_DEV else 0) ||| BitVec.ofNat 8 high

theorem deviceByte_spec : ∀ high < 16, ∀ dev, (deviceByte dev high &&& 0x0f).toNat = high ∧
    (deviceByte dev high &&& DEV_DEV != 0) = dev ∧ (deviceByte dev high &&& DEV_LBA != 0) = true := by
  decide

/-- The registers have room for the 28 bits of a sector. -/
theorem sector_split (n : Nat) : (BitVec.ofNat 8 n).toNat + (BitVec.ofNat 8 (n >>> 8)).toNat * 2 ^ 8 +
    (BitVec.ofNat 8 (n >>> 16)).toNat * 2 ^ 16 + (n >>> 24) * 2 ^ 24 = n := by
  simp only [BitVec.toNat_ofNat, Nat.shiftRight_eq_div_pow]
  omega

/-! ## How the hardware stands -/

/-- A sector of a disk. -/
structure DiskAddr where
  chan : Nat
  dev : Bool
  sector : Nat
  deriving DecidableEq

/-- The contents of the disks of one channel. -/
abbrev ChannelData := Bool → Nat → List Byte

def DiskCall.addr (c : DiskCall) : DiskAddr := ⟨c.chan, c.dev, c.sector⟩

/-- What a call leaves on the disks. -/
def DiskCall.result (c : DiskCall) (m : ChannelData) : ChannelData :=
  match c.op with
  | .read => m
  | .write buffer => update m c.dev (update (m c.dev) c.sector buffer)

/-- The device `dev` is in a phase, and the other one is idle. -/
structure Channel.Stands (ch : Channel) (m : ChannelData) (dev : Bool) (phase : AtaPhase) (irq : Bool) (cnt : Nat) :
    Prop where
  phase : ch.phase dev = phase
  other : ch.phase (!dev) = .idle
  irq : ch.irq = irq
  completion : ch.completionWait = cnt
  medium : ∀ d n, (ch.medium d n).bytes = m d n

/-- Nothing goes on. -/
structure Channel.Quiet (ch : Channel) (m : ChannelData) : Prop where
  phase : ∀ d, ch.phase d = .idle
  irq : ch.irq = false
  completion : ch.completionWait = 0
  medium : ∀ d n, (ch.medium d n).bytes = m d n

/-- The registers have the sector. -/
structure Channel.Addressed (ch : Channel) (c : DiskCall) : Prop where
  nsect : ch.nsect = 1
  lba : ch.lba = c.sector
  selected : ch.selected = c.dev
  mode : (ch.device &&& DEV_LBA != 0) = true

/-- The device works on the command, up to its interrupt. -/
def DiskCall.Busy (c : DiskCall) : AtaPhase → Prop
  | .fetch lba => c.op = .read ∧ lba = c.sector
  | .store lba sector => c.op = .write sector.bytes ∧ lba = c.sector
  | _ => False

/-- The device has asked for its interrupt. -/
def DiskCall.Done (c : DiskCall) (m : ChannelData) : AtaPhase → Prop
  | .send sector k => c.op = .read ∧ k = 0 ∧ sector.bytes = m c.dev c.sector
  | .idle => c.op ≠ .read
  | _ => False

/-- The device has a sector for the driver, or takes one from it. -/
def DiskCall.Ready (c : DiskCall) (m : ChannelData) : AtaPhase → Prop
  | .send sector k => c.op = .read ∧ k = 0 ∧ sector.bytes = m c.dev c.sector
  | .take lba words => c.op ≠ .read ∧ lba = c.sector ∧ words = []
  | _ => False

/-- **How the hardware stands** while the holder of the lock is at a point of the driver. -/
def Channel.Stage (ch : Channel) (m : ChannelData) (c : DiskCall) : DiskPc → Prop
  | .acquire => False
  | .idleBefore _ => ch.Quiet m
  | .select => ch.Quiet m
  | .settle => ch.Quiet m
  | .idleAfter _ => ch.Quiet m
  | .nsect => ch.Quiet m
  | .lbal => ch.Quiet m ∧ ch.nsect = 1
  | .lbam => ch.Quiet m ∧ ch.nsect = 1 ∧ ch.lbal = BitVec.ofNat 8 c.sector
  | .lbah => ch.Quiet m ∧ ch.nsect = 1 ∧ ch.lbal = BitVec.ofNat 8 c.sector ∧
      ch.lbam = BitVec.ofNat 8 (c.sector >>> 8)
  | .device => ch.Quiet m ∧ ch.nsect = 1 ∧ ch.lbal = BitVec.ofNat 8 c.sector ∧
      ch.lbam = BitVec.ofNat 8 (c.sector >>> 8) ∧ ch.lbah = BitVec.ofNat 8 (c.sector >>> 16)
  | .expect => ch.Quiet m ∧ ch.Addressed c
  | .command => ch.Quiet m ∧ ch.Addressed c ∧ ch.expectingInterrupt = true
  | .down => ch.selected = c.dev ∧ ch.expectingInterrupt = true ∧ ∃ phase,
      (c.Busy phase ∧ ch.Stands m c.dev phase false 0) ∨
      (c.Done m phase ∧ (ch.Stands (c.result m) c.dev phase true 0 ∨ ch.Stands (c.result m) c.dev phase false 1))
  | .whileBusy _ => ch.selected = c.dev ∧ ch.expectingInterrupt = true ∧ ∃ phase,
      (c.Ready m phase ∨ (c.op ≠ .read ∧ phase = .prepare c.sector)) ∧ ch.Stands m c.dev phase false 0
  | .drq => ch.selected = c.dev ∧ ch.expectingInterrupt = true ∧ ∃ phase,
      c.Ready m phase ∧ ch.Stands m c.dev phase false 0
  | .input k buffer => ch.selected = c.dev ∧ k < SECTOR_WORDS ∧ c.op = .read ∧ ∃ sector : AtaSector,
      sector.bytes = m c.dev c.sector ∧ ch.Stands m c.dev (.send sector k) false 0 ∧
      buffer = (sector.words.take k).flatMap wordBytes
  | .output k => ch.selected = c.dev ∧ ch.expectingInterrupt = true ∧ k < SECTOR_WORDS ∧ ∃ buffer,
      c.op = .write buffer ∧
      ch.Stands m c.dev (.take c.sector ((List.range k).map (bufferWord buffer))) false 0
  | .count buffer => ch.Quiet (c.result m) ∧ (c.op = .read → buffer = m c.dev c.sector)
  | .release => ch.Quiet m

/-! ## A step of the driver -/

def DiskCall.isRead (c : DiskCall) : Bool := c.op = .read

/-- What the driver asks of its caller. -/
structure DiskCall.Ok (c : DiskCall) (ch : Channel) : Prop where
  capacity : c.sector < ch.capacity c.dev
  lba : c.sector < 2 ^ 28
  buffer : ∀ b, c.op = .write b → b.length = DISK_SECTOR_SIZE

/-- The disks after a step at a point of the driver. -/
def DiskCall.after (c : DiskCall) (m : ChannelData) : DiskPc → ChannelData
  | .count _ => c.result m
  | _ => m

/-- An upper bound of the steps that the thread has before it. -/
def DiskPc.rank (c : DiskCall) : DiskPc → Nat
  | .acquire => 6200
  | .idleBefore i => 5102 + (1000 - i)
  | .select => 5101
  | .settle => 5100
  | .idleAfter i => 4007 + (1000 - i)
  | .nsect => 4006
  | .lbal => 4005
  | .lbam => 4004
  | .lbah => 4003
  | .device => 4002
  | .expect => 4001
  | .command => 4000
  | .down => if c.isRead then 3500 else 3
  | .whileBusy i => 301 + (3000 - i)
  | .drq => 300
  | .input k _ => 3 + (SECTOR_WORDS - k)
  | .output k => 4 + (SECTOR_WORDS - k)
  | .count _ => 2
  | .release => 1

/-- What a step of the driver leaves. -/
structure Channel.Steps (ch : Channel) (m : ChannelData) (c : DiskCall) (pc : DiskPc) (ch' : Channel)
    (pc' : Option DiskPc) : Prop where
  stage : ∀ p, pc' = some p → ch'.Stage (c.after m pc) c p ∧ ch'.lock = ch.lock ∧ p.rank c < pc.rank c
  done : pc' = none → ch'.Quiet (c.after m pc) ∧ ch'.lock = none
  capacity : ch'.capacity = ch.capacity
  reads : ∀ d, ch'.readCnt d = ch.readCnt d + (pc.record c).countP fun e => e.1.isRead && e.1.dev == d
  writes : ∀ d, ch'.writeCnt d = ch.writeCnt d + (pc.record c).countP fun e => !e.1.isRead && e.1.dev == d

/-- The driver waits for a device, gives up on one, or goes on. -/
inductive Channel.Outcome (ch : Channel) (m : ChannelData) (c : DiskCall) (pc : DiskPc) :
    Except DiskHalt (Channel × Option DiskPc) → Prop
  | waits (hpc : pc = .down) (hcnt : ch.completionWait = 0) : Outcome ch m c pc (.error .disabled)
  | slow {i : Nat} (hpc : pc = .whileBusy i) (hi : 3000 ≤ i) : Outcome ch m c pc (.error .panic)
  | goes {ch' : Channel} {pc' : Option DiskPc} (h : ch.Steps m c pc ch' pc') : Outcome ch m c pc (.ok (ch', pc'))

variable {ch ch' : Channel} {m : ChannelData} {c : DiskCall} {pc p : DiskPc} {t : Tid} {dev irq : Bool} {cnt i : Nat}
  {phase : AtaPhase}

/-- A step that neither counts nor leaves. -/
theorem Channel.Outcome.move (hrank : p.rank c < pc.rank c) (hrec : pc.record c = []) (hafter : c.after m pc = m)
    (h : ch'.Stage m c p)
    (hlock : ch'.lock = ch.lock) (hcap : ch'.capacity = ch.capacity) (hr : ch'.readCnt = ch.readCnt)
    (hw : ch'.writeCnt = ch.writeCnt) : ch.Outcome m c pc (.ok (ch', some p)) := by
  refine .goes ⟨fun q hq => ?_, fun hnone => (by cases hnone), hcap, fun d => ?_, fun d => ?_⟩
  · cases hq
    rw [hafter]
    exact ⟨h, hlock, hrank⟩
  · rw [hrec, hr]
    rfl
  · rw [hrec, hw]
    rfl

namespace Channel.Quiet

theorem stands (h : ch.Quiet m) (dev : Bool) : ch.Stands m dev .idle false 0 :=
  ⟨h.phase dev, h.phase (!dev), h.irq, h.completion, h.medium⟩

theorem outb (h : ch.Quiet m) (written : Channel) : ch.outb written = .ok written := by
  rw [Channel.outb, Channel.calm, h.phase, h.phase]
  rfl

/-- A device that is idle is found to be so. -/
theorem waitUntilIdle (h : ch.Quiet m) (next : Nat → DiskPc) (leave : DiskPc) (i : Nat) :
    ch.waitUntilIdle next leave i = (ch, some leave) := by
  have hack : ch.acknowledge = ch := by
    rw [Channel.acknowledge, ← h.irq]
  have hidle : ch.status &&& (STA_BSY ||| STA_DRQ) = 0 := by
    rw [Channel.status, h.phase]
    rfl
  rw [Channel.waitUntilIdle, if_pos hidle, hack, ite_self]

end Channel.Quiet

theorem Channel.Stands.quiet (h : ch.Stands m dev .idle false 0) : ch.Quiet m where
  phase d := by
    by_cases hd : d = dev
    · rw [hd]
      exact h.phase
    · rw [Bool.eq_not_of_ne hd]
      exact h.other
  irq := h.irq
  completion := h.completion
  medium := h.medium

/-- The other device and the media stay. -/
theorem Channel.Stands.to (h : ch.Stands m dev phase irq cnt) {phase' : AtaPhase} {irq' : Bool} {cnt' : Nat}
    (hp : ch'.phase dev = phase') (ho : ch'.phase (!dev) = ch.phase (!dev)) (hi : ch'.irq = irq')
    (hc : ch'.completionWait = cnt') (hm : ch'.medium = ch.medium) : ch'.Stands m dev phase' irq' cnt' where
  phase := hp
  other := ho.trans h.other
  irq := hi
  completion := hc
  medium := by
    rw [hm]
    exact h.medium

theorem update_not (f : Bool → AtaPhase) (phase : AtaPhase) : update f dev phase (!dev) = f (!dev) :=
  update_of_ne (Bool.not_ne_self dev) _ _

theorem Channel.Addressed.outCommand (h : ch.Addressed c) (hq : ch.Quiet m) (command : Byte) :
    ch.outCommand command = if command = CMD_READ_SECTOR_RETRY then
        .ok { ch with phase := update ch.phase c.dev (.fetch c.sector), irq := false }
      else if command = CMD_WRITE_SECTOR_RETRY then
        .ok { ch with phase := update ch.phase c.dev (.prepare c.sector), irq := false }
      else .error .hardware := by
  have hcalm : ch.calm = true := by
    rw [Channel.calm, hq.phase, hq.phase]
    rfl
  rw [Channel.outCommand, hcalm, h.nsect, h.mode, h.selected, h.lba]
  rfl

/-- The commands leave the device busy. -/
theorem Channel.Stage.exec_command (h : ch.Stage m c .command) : ch.Outcome m c .command (ch.exec t c .command) := by
  obtain ⟨hq, ha, hexp⟩ := h
  have hst := hq.stands c.dev
  rw [Channel.exec]
  split
  · next hop =>
    rw [ha.outCommand hq, if_pos rfl]
    exact .move (by simp [DiskPc.rank, DiskCall.isRead, hop]) rfl rfl ⟨ha.selected, hexp, .fetch c.sector, .inl ⟨⟨hop, rfl⟩,
      hst.to (update_self _ _ _) (update_not _ _) rfl hq.completion rfl⟩⟩ rfl rfl rfl rfl
  · next buffer hop =>
    rw [ha.outCommand hq, if_neg (by decide), if_pos rfl]
    have hwrite : c.op ≠ .read := by
      rw [hop]
      rintro ⟨⟩
    exact .move (by simp [DiskPc.rank]) rfl rfl ⟨ha.selected, hexp, .prepare c.sector, .inr ⟨hwrite, rfl⟩,
      hst.to (update_self _ _ _) (update_not _ _) rfl hq.completion rfl⟩ rfl rfl rfl rfl

/-- The semaphore is up when the device is done. -/
theorem Channel.Stage.exec_down (h : ch.Stage m c .down) : ch.Outcome m c .down (ch.exec t c .down) := by
  obtain ⟨hsel, hexp, phase, hphase⟩ := h
  rw [Channel.exec]
  rcases hphase with ⟨-, hst⟩ | ⟨hdone, hst | hst⟩
  · rw [if_pos hst.completion]
    exact .waits rfl hst.completion
  · rw [if_pos hst.completion]
    exact .waits rfl hst.completion
  rw [if_neg (by rw [hst.completion]; decide)]
  have hcnt : ch.completionWait - 1 = 0 := by rw [hst.completion]
  split
  · next hop =>
    cases phase with
    | send sector k =>
      have hm : c.result m = m := by rw [DiskCall.result, hop]
      rw [hm] at hst
      exact .move (by simp [DiskPc.rank, DiskCall.isRead, hop]) rfl rfl ⟨hsel, hexp, .send sector k, .inl hdone, hst.to hst.phase rfl hst.irq hcnt rfl⟩
        rfl rfl rfl rfl
    | idle => exact absurd hop hdone
    | _ => exact hdone.elim
  · next buffer hop =>
    cases phase with
    | idle =>
      have hst' : ({ ch with completionWait := ch.completionWait - 1 } : Channel).Stands (c.result m) c.dev .idle
        false 0 := hst.to hst.phase rfl hst.irq hcnt rfl
      exact .move (by simp [DiskPc.rank, DiskCall.isRead, hop]) rfl rfl ⟨hst'.quiet, fun hread => absurd hread hdone⟩ rfl rfl rfl rfl
    | send sector k =>
      rw [DiskCall.Done, hop] at hdone
      cases hdone.1
    | _ => exact hdone.elim

/-- The device clears `BSY`, or is slow. -/
theorem Channel.Stage.exec_whileBusy (h : ch.Stage m c (.whileBusy i)) :
    ch.Outcome m c (.whileBusy i) (ch.exec t c (.whileBusy i)) := by
  obtain ⟨hsel, hexp, phase, hphase, hst⟩ := h
  rw [Channel.exec]
  split
  · have hstatus : ch.status = phase.status := by rw [Channel.status, hsel, hst.phase]
    rcases hphase with hready | ⟨hop, rfl⟩
    · have hclear : ch.status &&& STA_BSY = 0 := by
        rw [hstatus]
        cases phase with
        | send sector k => exact (by decide : (STA_DRDY ||| STA_DRQ) &&& STA_BSY = 0)
        | take lba words => exact (by decide : (STA_DRDY ||| STA_DRQ) &&& STA_BSY = 0)
        | _ => exact hready.elim
      rw [if_pos hclear]
      exact .move (by simp only [DiskPc.rank]; omega) rfl rfl ⟨hsel, hexp, phase, hready, hst⟩ rfl rfl rfl rfl
    · rw [if_neg (by rw [hstatus]; exact (by decide : ¬ STA_BSY &&& STA_BSY = 0))]
      exact .move (by simp only [DiskPc.rank]; omega) rfl rfl ⟨hsel, hexp, _, .inr ⟨hop, rfl⟩, hst⟩ rfl rfl rfl rfl
  · next hi => exact .slow rfl (Nat.not_lt.mp hi)

theorem Channel.Stage.exec_drq (h : ch.Stage m c .drq) : ch.Outcome m c .drq (ch.exec t c .drq) := by
  obtain ⟨hsel, hexp, phase, hready, hst⟩ := h
  have hstatus : ch.status &&& STA_DRQ ≠ 0 := by
    rw [Channel.status, hsel, hst.phase]
    cases phase with
    | send sector k => exact (by decide : (STA_DRDY ||| STA_DRQ) &&& STA_DRQ ≠ 0)
    | take lba words => exact (by decide : (STA_DRDY ||| STA_DRQ) &&& STA_DRQ ≠ 0)
    | _ => exact hready.elim
  rw [Channel.exec, if_pos hstatus]
  split
  · next hop =>
    cases phase with
    | send sector k =>
      obtain ⟨-, rfl, hbytes⟩ := hready
      exact .move (by simp [DiskPc.rank, SECTOR_WORDS, DISK_SECTOR_SIZE]) rfl rfl ⟨hsel, by decide, hop, sector, hbytes, hst, rfl⟩ rfl rfl rfl rfl
    | take lba words => exact absurd hop hready.1
    | _ => exact hready.elim
  · next buffer hop =>
    cases phase with
    | take lba words =>
      obtain ⟨-, rfl, rfl⟩ := hready
      exact .move (by simp [DiskPc.rank, SECTOR_WORDS, DISK_SECTOR_SIZE]) rfl rfl ⟨hsel, hexp, by decide, buffer, hop, hst⟩ rfl rfl rfl rfl
    | send sector k =>
      rw [DiskCall.Ready, hop] at hready
      cases hready.1
    | _ => exact hready.elim

theorem take_succ_words (sector : AtaSector) {k : Nat} (hk : k < SECTOR_WORDS) :
    (sector.words.take k).flatMap wordBytes ++ wordBytes (sector.words.getD k 0) =
      (sector.words.take (k + 1)).flatMap wordBytes := by
  have hlt : k < sector.words.length := by
    rw [sector.length]
    exact hk
  rw [List.take_add_one, List.flatMap_append, List.getD_eq_getElem?_getD, List.getElem?_eq_getElem hlt,
    Option.toList_some, List.flatMap_singleton, Option.getD_some]

/-- A word comes in. -/
theorem Channel.Stage.exec_input {k : Nat} {buffer : List Byte} (h : ch.Stage m c (.input k buffer)) :
    ch.Outcome m c (.input k buffer) (ch.exec t c (.input k buffer)) := by
  obtain ⟨hsel, hk, hop, sector, hbytes, hst, rfl⟩ := h
  have hm : c.result m = m := by rw [DiskCall.result, hop]
  have hphase : ch.phase ch.selected = .send sector k := by
    rw [hsel]
    exact hst.phase
  rw [Channel.exec, Channel.inw, hphase]
  simp only [bind, Except.bind]
  rw [take_succ_words sector hk, hsel]
  by_cases hlast : k + 1 = SECTOR_WORDS
  · rw [if_pos hlast, if_pos hlast]
    refine .move (by simp only [DiskPc.rank]; omega) rfl rfl ⟨?_, fun _ => ?_⟩ rfl rfl rfl rfl
    · rw [hm]
      have hst' : ({ ch with phase := update ch.phase c.dev .idle } : Channel).Stands m c.dev .idle false 0 :=
        hst.to (update_self _ _ _) (update_not _ _) hst.irq hst.completion rfl
      exact hst'.quiet
    · rw [← hbytes, hlast, ← sector.length, List.take_length]
      rfl
  · rw [if_neg hlast, if_neg hlast]
    exact .move (by simp only [DiskPc.rank]; omega) rfl rfl ⟨hsel, by omega, hop, sector, hbytes,
      hst.to (update_self _ _ _) (update_not _ _) hst.irq hst.completion rfl, rfl⟩ rfl rfl rfl rfl

theorem Channel.outw_take {lba : Nat} {words : List (BitVec 16)} (h : ch.phase ch.selected = .take lba words)
    (w : BitVec 16) : ch.outw w = .ok { ch with
      phase := update ch.phase ch.selected
        (if h : (words ++ [w]).length = SECTOR_WORDS then .store lba ⟨words ++ [w], h⟩
          else .take lba (words ++ [w])) } := by
  rw [Channel.outw, h]

/-- A word goes out. -/
theorem Channel.Stage.exec_output {k : Nat} (h : ch.Stage m c (.output k)) (hok : c.Ok ch) :
    ch.Outcome m c (.output k) (ch.exec t c (.output k)) := by
  obtain ⟨hsel, hexp, hk, buffer, hop, hst⟩ := h
  have hphase : ch.phase ch.selected = .take c.sector ((List.range k).map (bufferWord buffer)) := by
    rw [hsel]
    exact hst.phase
  have hwords : (List.range k).map (bufferWord buffer) ++ [bufferWord buffer k] =
      (List.range (k + 1)).map (bufferWord buffer) := by
    rw [List.range_succ, List.map_append]
    rfl
  have hlen : ((List.range (k + 1)).map (bufferWord buffer)).length = k + 1 := by
    rw [List.length_map, List.length_range]
  simp only [Channel.exec, hop]
  rw [Channel.outw_take hphase]
  simp only [bind, Except.bind, hwords, hsel]
  by_cases hlast : k + 1 = SECTOR_WORDS
  · rw [dif_pos (hlen.trans hlast), if_pos hlast]
    refine .move (by simp [DiskPc.rank, DiskCall.isRead, hop]; omega) rfl rfl ⟨hsel, hexp, .store c.sector ⟨_, hlen.trans hlast⟩, .inl ⟨⟨?_, rfl⟩,
      hst.to (update_self _ _ _) (update_not _ _) hst.irq hst.completion rfl⟩⟩ rfl rfl rfl rfl
    have hbuffer := hok.buffer buffer hop
    rw [hop, AtaSector.bytes, bufferWords_bytes _ _ (by rw [hbuffer, hlast]; decide), hlast,
      List.take_of_length_le (by rw [hbuffer]; decide)]
  · rw [dif_neg (fun hc => hlast (hlen.symm.trans hc)), if_neg hlast]
    exact .move (by simp only [DiskPc.rank]; omega) rfl rfl ⟨hsel, hexp, by omega, buffer, hop,
      hst.to (update_self _ _ _) (update_not _ _) hst.irq hst.completion rfl⟩ rfl rfl rfl rfl

theorem counted (f : Bool → Nat) (d : Bool) :
    update f dev (f dev + 1) d = f d + [dev].countP fun e => e == d := by
  by_cases hd : dev = d
  · subst hd
    simp
  · rw [update_of_ne (Ne.symm hd)]
    simp [hd]

/-- **A step of the driver** while its thread holds the lock. -/
theorem Channel.Stage.exec (h : ch.Stage m c pc) (hok : c.Ok ch) (hlock : ch.lock = some t) :
    ch.Outcome m c pc (ch.exec t c pc) := by
  cases pc with
  | acquire => exact h.elim
  | idleBefore i =>
    rw [Channel.exec, Channel.Quiet.waitUntilIdle h]
    exact .move (by simp only [DiskPc.rank]; omega) rfl rfl h rfl rfl rfl rfl
  | select =>
    rw [Channel.exec, Channel.Quiet.outb h]
    exact .move (by simp only [DiskPc.rank]; omega) rfl rfl ⟨h.phase, h.irq, h.completion, h.medium⟩ rfl rfl rfl rfl
  | settle => exact .move (by simp [DiskPc.rank]) rfl rfl h rfl rfl rfl rfl
  | idleAfter i =>
    rw [Channel.exec, Channel.Quiet.waitUntilIdle h]
    exact .move (by simp only [DiskPc.rank]; omega) rfl rfl h rfl rfl rfl rfl
  | nsect =>
    rw [Channel.exec, Channel.Quiet.outb h]
    exact .move (by simp [DiskPc.rank]) rfl rfl ⟨⟨h.phase, h.irq, h.completion, h.medium⟩, rfl⟩ rfl rfl rfl rfl
  | lbal =>
    obtain ⟨hq, hn⟩ := h
    rw [Channel.exec, hq.outb]
    exact .move (by simp [DiskPc.rank]) rfl rfl ⟨⟨hq.phase, hq.irq, hq.completion, hq.medium⟩, hn, rfl⟩ rfl rfl rfl rfl
  | lbam =>
    obtain ⟨hq, hn, hl⟩ := h
    rw [Channel.exec, hq.outb]
    exact .move (by simp [DiskPc.rank]) rfl rfl ⟨⟨hq.phase, hq.irq, hq.completion, hq.medium⟩, hn, hl, rfl⟩ rfl rfl rfl rfl
  | lbah =>
    obtain ⟨hq, hn, hl, hm⟩ := h
    rw [Channel.exec, hq.outb]
    exact .move (by simp [DiskPc.rank]) rfl rfl ⟨⟨hq.phase, hq.irq, hq.completion, hq.medium⟩, hn, hl, hm, rfl⟩ rfl rfl rfl rfl
  | device =>
    obtain ⟨hq, hn, hl, hm, hh⟩ := h
    have hhigh : c.sector >>> 24 < 16 := by
      have hlt := hok.lba
      rw [Nat.shiftRight_eq_div_pow]
      omega
    obtain ⟨hbits, hdev, hmode⟩ := deviceByte_spec _ hhigh c.dev
    rw [Channel.exec, hq.outb]
    refine .move (by simp [DiskPc.rank]) rfl rfl ⟨⟨hq.phase, hq.irq, hq.completion, hq.medium⟩, hn, ?_, hdev, hmode⟩ rfl rfl rfl rfl
    have hsplit := sector_split c.sector
    rw [← hl, ← hm, ← hh, ← hbits] at hsplit
    exact hsplit
  | expect =>
    obtain ⟨hq, ha⟩ := h
    exact .move (by simp [DiskPc.rank]) rfl rfl ⟨⟨hq.phase, hq.irq, hq.completion, hq.medium⟩, ⟨ha.nsect, ha.lba, ha.selected, ha.mode⟩, rfl⟩
      rfl rfl rfl rfl
  | command => exact exec_command h
  | down => exact exec_down h
  | whileBusy i => exact exec_whileBusy h
  | drq => exact exec_drq h
  | input k buffer => exact exec_input h
  | output k => exact exec_output h hok
  | count buffer =>
    obtain ⟨hq, -⟩ := h
    have hstay : ∀ ch' : Channel, ch'.phase = ch.phase → ch'.irq = ch.irq → ch'.completionWait = ch.completionWait →
        ch'.medium = ch.medium → ch'.Quiet (c.result m) := by
      intro ch' hp hi hc hm
      exact ⟨hp ▸ hq.phase, hi.trans hq.irq, hc.trans hq.completion, hm ▸ hq.medium⟩
    rw [Channel.exec]
    split
    · next hop =>
      refine .goes ⟨fun p hp => ?_, fun hnone => (by cases hnone), rfl, fun d => ?_, fun d => ?_⟩
      · cases hp
        exact ⟨hstay _ rfl rfl rfl rfl, rfl, Nat.lt_succ_self 1⟩
      · refine (counted ch.readCnt d).trans ?_
        simp [DiskPc.record, DiskCall.isRead, hop, List.countP_cons]
      · simp [DiskPc.record, DiskCall.isRead, hop]
    · next b hop =>
      refine .goes ⟨fun p hp => ?_, fun hnone => (by cases hnone), rfl, fun d => ?_, fun d => ?_⟩
      · cases hp
        exact ⟨hstay _ rfl rfl rfl rfl, rfl, Nat.lt_succ_self 1⟩
      · simp [DiskPc.record, DiskCall.isRead, hop]
      · refine (counted ch.writeCnt d).trans ?_
        simp [DiskPc.record, DiskCall.isRead, hop]
  | release =>
    rw [Channel.exec, if_pos hlock]
    refine .goes ⟨fun p hp => (by cases hp), fun _ => ⟨⟨h.phase, h.irq, h.completion, h.medium⟩, rfl⟩, rfl,
      fun d => rfl, fun d => rfl⟩

/-! ## The devices and the interrupt -/

/-- The fields that a device does not touch. -/
structure Channel.SameDriver (ch ch' : Channel) : Prop where
  lock : ch'.lock = ch.lock
  capacity : ch'.capacity = ch.capacity
  readCnt : ch'.readCnt = ch.readCnt
  writeCnt : ch'.writeCnt = ch.writeCnt

theorem Channel.sameDriver_work (h : ch.work dev = .ok ch') : ch.SameDriver ch' := by
  unfold Channel.work at h
  split at h
  · cases h
    exact ⟨rfl, rfl, rfl, rfl⟩
  · cases h
    exact ⟨rfl, rfl, rfl, rfl⟩
  · cases h
    exact ⟨rfl, rfl, rfl, rfl⟩
  · cases h

theorem Channel.sameDriver_interrupt : ch.SameDriver ch.interruptHandler := by
  unfold Channel.interruptHandler
  split <;> exact ⟨rfl, rfl, rfl, rfl⟩

theorem Channel.work_idle (h : ch.phase dev = .idle) : ch.work dev = .error .disabled := by
  rw [Channel.work, h]

/-- Only the device that is not idle goes on. -/
theorem Channel.Stands.work_eq {dev' : Bool} (h : ch.Stands m dev phase irq cnt) (hw : ch.work dev' = .ok ch') :
    dev' = dev := by
  by_contra hne
  rw [Bool.eq_not_of_ne hne, Channel.work_idle h.other] at hw
  cases hw

/-- The steps that a device has before it, its interrupt included. -/
def AtaPhase.pending : AtaPhase → Nat
  | .fetch _ => 2
  | .prepare _ => 1
  | .store _ _ => 2
  | _ => 0

def Channel.pending (ch : Channel) : Nat :=
  (ch.phase false).pending + (ch.phase true).pending + if ch.irq then 1 else 0

theorem Channel.Stands.pending (h : ch.Stands m dev phase irq cnt) :
    ch.pending = phase.pending + if irq then 1 else 0 := by
  unfold Channel.pending
  have hp := h.phase
  have ho := h.other
  cases dev with
  | false =>
    rw [hp, h.irq, show ch.phase true = .idle from ho]
    rfl
  | true =>
    rw [hp, h.irq, show ch.phase false = .idle from ho]
    exact congrArg (· + _) (Nat.zero_add _)

theorem AtaPhase.pending_le (phase : AtaPhase) : phase.pending ≤ 2 := by
  cases phase <;> simp [AtaPhase.pending]

/-- A device that waits for the driver does nothing. -/
theorem Channel.work_pending (h : (ch.phase dev).pending = 0) : ch.work dev = .error .disabled := by
  rw [Channel.work]
  split
  · next hp => simp [hp, AtaPhase.pending] at h
  · next hp => simp [hp, AtaPhase.pending] at h
  · next hp => simp [hp, AtaPhase.pending] at h
  · rfl

theorem DiskCall.Ready.pending (h : c.Ready m phase) : phase.pending = 0 := by
  cases phase with
  | send sector k => rfl
  | take lba words => rfl
  | _ => exact h.elim

theorem DiskCall.Done.pending (h : c.Done m phase) : phase.pending = 0 := by
  cases phase with
  | send sector k => rfl
  | idle => rfl
  | _ => exact h.elim

/-- The hardware is still, but where the driver waits for a device. -/
theorem Channel.Stage.pending_zero (h : ch.Stage m c pc) : ch.pending = 0 ∨ pc = .down ∨ ∃ i, pc = .whileBusy i := by
  have still : ∀ {m' phase}, ch.Stands m' c.dev phase false 0 → phase.pending = 0 → ch.pending = 0 := by
    intro m' phase hst hp
    rw [hst.pending, hp]
    rfl
  have quiet : ∀ {m'}, ch.Quiet m' → ch.pending = 0 := fun hq => still (hq.stands c.dev) rfl
  cases pc with
  | acquire => exact h.elim
  | idleBefore i => exact .inl (quiet h)
  | select => exact .inl (quiet h)
  | settle => exact .inl (quiet h)
  | idleAfter i => exact .inl (quiet h)
  | nsect => exact .inl (quiet h)
  | lbal => exact .inl (quiet h.1)
  | lbam => exact .inl (quiet h.1)
  | lbah => exact .inl (quiet h.1)
  | device => exact .inl (quiet h.1)
  | expect => exact .inl (quiet h.1)
  | command => exact .inl (quiet h.1)
  | down => exact .inr (.inl rfl)
  | whileBusy i => exact .inr (.inr ⟨i, rfl⟩)
  | drq =>
    obtain ⟨-, -, phase, hready, hst⟩ := h
    exact .inl (still hst hready.pending)
  | input k buffer =>
    obtain ⟨-, -, -, sector, -, hst, -⟩ := h
    exact .inl (still hst rfl)
  | output k =>
    obtain ⟨-, -, -, buffer, -, hst⟩ := h
    exact .inl (still hst rfl)
  | count buffer => exact .inl (quiet h.1)
  | release => exact .inl (quiet h)

/-- A device has two steps before it at most. -/
theorem Channel.Stage.pending (h : ch.Stage m c pc) : ch.pending ≤ 2 := by
  rcases h.pending_zero with h0 | rfl | ⟨i, rfl⟩
  · omega
  · obtain ⟨-, -, phase, ⟨hbusy, hst⟩ | ⟨hdone, hst | hst⟩⟩ := h
    · rw [hst.pending]
      exact phase.pending_le
    · rw [hst.pending, hdone.pending]
      exact Nat.le_succ 1
    · rw [hst.pending]
      exact phase.pending_le
  · obtain ⟨-, -, phase, -, hst⟩ := h
    rw [hst.pending]
    exact phase.pending_le

theorem Channel.pending_update (phase : AtaPhase) (irq : Bool) (medium : Bool → Nat → AtaSector) :
    ({ ch with phase := update ch.phase dev phase, medium := medium, irq := irq } : Channel).pending =
      phase.pending + (ch.phase (!dev)).pending + if irq then 1 else 0 := by
  cases dev with
  | false => rfl
  | true => exact congrArg (· + _) (Nat.add_comm _ _)

theorem Channel.pending_eq (ch : Channel) (dev : Bool) :
    ch.pending = (ch.phase dev).pending + (ch.phase (!dev)).pending + if ch.irq then 1 else 0 := by
  cases dev with
  | false => rfl
  | true => exact congrArg (· + _) (Nat.add_comm _ _)

/-- A device that goes on has less before it. -/
theorem Channel.pending_work (hw : ch.work dev = .ok ch') : ch'.pending < ch.pending := by
  have hirq : (if (ch.irq || ch.selected == dev) = true then 1 else 0) ≤ (if ch.irq = true then 1 else 0) + 1 := by
    split <;> omega
  rw [Channel.work] at hw
  rw [ch.pending_eq dev]
  split at hw
  · next lba hp =>
    cases hw
    rw [Channel.pending_update, hp]
    simp only [AtaPhase.pending]
    omega
  · next lba hp =>
    cases hw
    rw [Channel.pending_update, hp]
    simp only [AtaPhase.pending]
    omega
  · next lba sector hp =>
    cases hw
    rw [Channel.pending_update, hp]
    simp only [AtaPhase.pending]
    omega
  · cases hw

/-- The bytes that are stored are those of the call. -/
theorem DiskCall.result_store {sector : AtaSector} (hop : c.op = .write sector.bytes)
    (h : ∀ d n, (ch.medium d n).bytes = m d n) (d : Bool) (n : Nat) :
    (update ch.medium c.dev (update (ch.medium c.dev) c.sector sector) d n).bytes = c.result m d n := by
  rw [DiskCall.result, hop]
  by_cases hd : d = c.dev
  · subst hd
    simp only [update_self]
    by_cases hn : n = c.sector
    · rw [hn, update_self, update_self]
    · rw [update_of_ne hn, update_of_ne hn, h]
  · simp only [update_of_ne hd, h]

/-- **A device goes on** while the driver is at some point. -/
theorem Channel.Stage.work (h : ch.Stage m c pc) (hw : ch.work dev = .ok ch') : ch'.Stage m c pc := by
  have hless := Channel.pending_work hw
  rcases h.pending_zero with h0 | rfl | ⟨i, rfl⟩
  · omega
  · obtain ⟨hsel, hexp, phase, ⟨hbusy, hst⟩ | ⟨hdone, hst⟩⟩ := h
    · obtain rfl := hst.work_eq hw
      have hirq : (ch.irq || ch.selected == c.dev) = true := by
        rw [hsel, beq_self_eq_true, Bool.or_true]
      rw [Channel.work, hst.phase] at hw
      cases phase with
      | fetch lba =>
        obtain ⟨hop, rfl⟩ := hbusy
        cases hw
        refine ⟨hsel, hexp, .send (ch.medium c.dev c.sector) 0, .inr ⟨⟨hop, rfl, hst.medium _ _⟩, .inl ?_⟩⟩
        have hm : c.result m = m := by rw [DiskCall.result, hop]
        rw [hm]
        exact hst.to (update_self _ _ _) (update_not _ _) hirq hst.completion rfl
      | store lba sector =>
        obtain ⟨hop, rfl⟩ := hbusy
        cases hw
        have hwrite : c.op ≠ .read := by
          rw [hop]
          rintro ⟨⟩
        exact ⟨hsel, hexp, .idle, .inr ⟨hwrite, .inl ⟨update_self _ _ _, (update_not _ _).trans hst.other, hirq,
          hst.completion, DiskCall.result_store hop hst.medium⟩⟩⟩
      | _ => exact hbusy.elim
    · have hdev : dev = c.dev := hst.elim (·.work_eq hw) (·.work_eq hw)
      have hphase : ch.phase c.dev = phase := hst.elim (·.phase) (·.phase)
      rw [hdev, Channel.work_pending (by rw [hphase]; exact hdone.pending)] at hw
      cases hw
  · obtain ⟨hsel, hexp, phase, hready | ⟨hop, rfl⟩, hst⟩ := h
    · rw [hst.pending, hready.pending] at hless
      exact absurd hless (Nat.not_lt_zero _)
    · obtain rfl := hst.work_eq hw
      rw [Channel.work, hst.phase] at hw
      cases hw
      exact ⟨hsel, hexp, .take c.sector [], .inl ⟨hop, rfl, rfl⟩,
        hst.to (update_self _ _ _) (update_not _ _) hst.irq hst.completion rfl⟩

/-- The line of the interrupt is up where the driver waits for it. -/
theorem Channel.Stage.of_irq (h : ch.Stage m c pc) (hirq : ch.irq = true) : pc = .down ∧ ch.selected = c.dev ∧
    ch.expectingInterrupt = true ∧ ∃ phase, c.Done m phase ∧ ch.Stands (c.result m) c.dev phase true 0 := by
  rcases h.pending_zero with h0 | rfl | ⟨i, rfl⟩
  · rw [Channel.pending, hirq] at h0
    exact absurd h0 (Nat.succ_ne_zero _)
  · obtain ⟨hsel, hexp, phase, ⟨-, hst⟩ | ⟨hdone, hst | hst⟩⟩ := h
    · rw [hst.irq] at hirq
      cases hirq
    · exact ⟨rfl, hsel, hexp, phase, hdone, hst⟩
    · rw [hst.irq] at hirq
      cases hirq
  · obtain ⟨-, -, phase, -, hst⟩ := h
    rw [hst.irq] at hirq
    cases hirq

/-- **The interrupt** comes when the device is done, and is expected. -/
theorem Channel.Stage.interrupt (h : ch.Stage m c pc) (hirq : ch.irq = true) : ch.interruptHandler.Stage m c pc := by
  obtain ⟨rfl, hsel, hexp, phase, hdone, hst⟩ := h.of_irq hirq
  rw [Channel.interruptHandler, if_pos hexp]
  refine ⟨hsel, hexp, phase, .inr ⟨hdone, .inr (hst.to hst.phase rfl rfl ?_ rfl)⟩⟩
  show ch.completionWait + 1 = 1
  rw [hst.completion]

/-! ## All threads and channels -/

/-- A transfer, as an access to a memory of sectors. -/
def access (e : DiskCall × List Byte) : Access DiskAddr (List Byte) :=
  match e.1.op with
  | .read => .read e.1.addr e.2
  | .write buffer => .write e.1.addr buffer

/-- The contents of all disks. -/
def contentsOf (channels : Nat → Channel) (a : DiskAddr) : List Byte := ((channels a.chan).medium a.dev a.sector).bytes

/-- The contents of the disks of a channel. -/
def channelData (mem : DiskAddr → List Byte) (chan : Nat) : ChannelData := fun d n => mem ⟨chan, d, n⟩

/-- A channel after `disk_init`. -/
structure Channel.Fresh (ch : Channel) : Prop where
  phase : ∀ d, ch.phase d = .idle
  irq : ch.irq = false
  lock : ch.lock = none
  completion : ch.completionWait = 0

namespace DiskSys

def boot (channels : Nat → Channel) : DiskSys where
  channels := channels
  calls := fun _ => none
  log := []

/-- Calls are for sectors of the disk, with a buffer for a sector. -/
def Proper (s : DiskSys) : DiskAction → Prop
  | .call _ c => c.Ok (s.channels c.chan)
  | _ => True

/-- The device was busy at all 3000 turns of `wait_while_busy`. -/
def TimedOut (s : DiskSys) : DiskAction → Prop
  | .run t => ∃ c i, s.calls t = some (c, .whileBusy i) ∧ 3000 ≤ i
  | _ => False

end DiskSys

/-- The state of a run. -/
structure DiskOk (channels : Nat → Channel) (s : DiskSys) (mem : DiskAddr → List Byte) : Prop where
  legal : Legal (contentsOf channels) (s.log.map access) mem
  free : ∀ k, (s.channels k).lock = none → (s.channels k).Quiet (channelData mem k)
  held : ∀ k t, (s.channels k).lock = some t → ∃ c pc, s.calls t = some (c, pc) ∧ c.chan = k ∧
    (s.channels k).Stage (channelData mem k) c pc
  inside : ∀ t c pc, s.calls t = some (c, pc) → c.Ok (s.channels c.chan) ∧
    (pc ≠ .acquire → (s.channels c.chan).lock = some t)
  reads : ∀ k d, (s.channels k).readCnt d = (channels k).readCnt d +
    s.log.countP fun e => e.1.chan == k && (e.1.isRead && e.1.dev == d)
  writes : ∀ k d, (s.channels k).writeCnt d = (channels k).writeCnt d +
    s.log.countP fun e => e.1.chan == k && (!e.1.isRead && e.1.dev == d)

variable {channels : Nat → Channel} {s s' : DiskSys} {mem : DiskAddr → List Byte} {a : DiskAction} {k : Nat}

theorem diskOk_boot (h : ∀ k, (channels k).Fresh) : DiskOk channels (.boot channels) (contentsOf channels) where
  legal := .nil
  free k _ := ⟨(h k).phase, (h k).irq, (h k).completion, fun _ _ => rfl⟩
  held k t hk := by
    rw [DiskSys.boot, (h k).lock] at hk
    cases hk
  inside t c pc ht := by cases ht
  reads k d := rfl
  writes k d := rfl

theorem DiskCall.Ok.congr (h : c.Ok ch) (hcap : ch'.capacity = ch.capacity) : c.Ok ch' :=
  ⟨hcap ▸ h.capacity, h.lba, h.buffer⟩

theorem channelData_update (mem : DiskAddr → List Byte) (c : DiskCall) (b : List Byte) :
    channelData (update mem c.addr b) c.chan =
      update (channelData mem c.chan) c.dev (update (channelData mem c.chan c.dev) c.sector b) := by
  funext d n
  by_cases hd : d = c.dev
  · subst hd
    rw [update_self]
    by_cases hn : n = c.sector
    · subst hn
      rw [update_self]
      exact update_self _ _ _
    · rw [update_of_ne hn]
      exact update_of_ne (fun hc => hn (congrArg DiskAddr.sector hc)) _ _
  · rw [update_of_ne hd]
    exact update_of_ne (fun hc => hd (congrArg DiskAddr.dev hc)) _ _

theorem channelData_update_ne (mem : DiskAddr → List Byte) (b : List Byte) (hk : k ≠ c.chan) :
    channelData (update mem c.addr b) k = channelData mem k := by
  funext d n
  exact update_of_ne (fun hc => hk (congrArg DiskAddr.chan hc)) _ _

/-- What a step adds to the history is legal. -/
theorem legal_record {m₀ : DiskAddr → List Byte} {log : List (DiskCall × List Byte)}
    (h : Legal m₀ (log.map access) mem) (hread : ∀ buffer, pc = .count buffer → c.op = .read → buffer = mem c.addr) :
    ∃ mem', Legal m₀ ((log ++ pc.record c).map access) mem' ∧
      channelData mem' c.chan = c.after (channelData mem c.chan) pc ∧
      ∀ k, k ≠ c.chan → channelData mem' k = channelData mem k := by
  have same : pc.record c = [] → c.after (channelData mem c.chan) pc = channelData mem c.chan →
      ∃ mem', Legal m₀ ((log ++ pc.record c).map access) mem' ∧
        channelData mem' c.chan = c.after (channelData mem c.chan) pc ∧
        ∀ k, k ≠ c.chan → channelData mem' k = channelData mem k := by
    intro hrec hafter
    rw [hrec, hafter, List.append_nil]
    exact ⟨mem, h, rfl, fun _ _ => rfl⟩
  cases pc with
  | count buffer =>
    rw [DiskPc.record, List.map_append, DiskCall.after, DiskCall.result, List.map_singleton, access]
    cases hop : c.op with
    | read =>
      simp only
      rw [hread buffer rfl hop]
      exact ⟨mem, h.read c.addr, rfl, fun _ _ => rfl⟩
    | write b => exact ⟨_, h.write c.addr b, channelData_update mem c b, fun k => channelData_update_ne mem b⟩
  | _ => exact same rfl rfl

/-- The transfers of one kind that a step adds, of those of one channel. -/
theorem countP_record (f : DiskCall → Bool) (k : Nat) :
    (pc.record c).countP (fun e => e.1.chan == k && f e.1) =
      if c.chan = k then (pc.record c).countP fun e => f e.1 else 0 := by
  cases pc with
  | count buffer =>
    by_cases hk : c.chan = k
    · simp [DiskPc.record, hk]
    · simp [DiskPc.record, hk]
  | _ => simp [DiskPc.record]

/-- **The holder of the lock goes on.** -/
theorem DiskOk.steps (h : DiskOk channels s mem) {pc' : Option DiskPc} (hcall : s.calls t = some (c, pc))
    (hlock : (s.channels c.chan).lock = some t) (hstage : (s.channels c.chan).Stage (channelData mem c.chan) c pc)
    (hsteps : (s.channels c.chan).Steps (channelData mem c.chan) c pc ch' pc') :
    ∃ mem', DiskOk channels { s.setChannel c.chan ch' with
      calls := update s.calls t (pc'.map fun p => (c, p)), log := s.log ++ pc.record c } mem' := by
  have hread : ∀ buffer, pc = .count buffer → c.op = .read → buffer = mem c.addr := by
    rintro buffer rfl hop
    exact hstage.2 hop
  obtain ⟨mem', hlegal, hdata, hothers⟩ := legal_record h.legal hread
  refine ⟨mem', hlegal, fun k hk => ?_, fun k t' hk => ?_, fun t' c' p hcall' => ?_, fun k d => ?_, fun k d => ?_⟩
  · by_cases hkc : k = c.chan
    · subst hkc
      simp only [DiskSys.setChannel, update_self] at hk ⊢
      cases hpc : pc' with
      | none =>
        rw [hdata]
        exact (hsteps.done hpc).1
      | some p =>
        rw [(hsteps.stage p hpc).2.1, hlock] at hk
        cases hk
    · simp only [DiskSys.setChannel, update_of_ne hkc] at hk ⊢
      rw [hothers k hkc]
      exact h.free k hk
  · by_cases hkc : k = c.chan
    · subst hkc
      simp only [DiskSys.setChannel, update_self] at hk ⊢
      cases hpc : pc' with
      | none =>
        rw [(hsteps.done hpc).2] at hk
        cases hk
      | some p =>
        obtain ⟨hst, hlock', -⟩ := hsteps.stage p hpc
        rw [hlock', hlock, Option.some.injEq] at hk
        subst hk
        rw [hdata]
        exact ⟨c, p, update_self _ _ _, rfl, hst⟩
    · simp only [DiskSys.setChannel, update_of_ne hkc] at hk ⊢
      obtain ⟨c₁, p₁, hcall₁, rfl, hst₁⟩ := h.held k t' hk
      have hne : t' ≠ t := by
        rintro rfl
        rw [hcall, Option.some.injEq, Prod.mk.injEq] at hcall₁
        exact hkc (congrArg DiskCall.chan hcall₁.1.symm)
      rw [hothers _ hkc]
      exact ⟨c₁, p₁, (update_of_ne hne _ _).trans hcall₁, rfl, hst₁⟩
  · by_cases ht : t' = t
    · subst ht
      simp only [update_self, Option.map_eq_some_iff] at hcall'
      obtain ⟨q, hq, hcq⟩ := hcall'
      cases hcq
      simp only [DiskSys.setChannel, update_self]
      refine ⟨(h.inside t' c pc hcall).1.congr hsteps.capacity, fun _ => ?_⟩
      rw [(hsteps.stage _ hq).2.1]
      exact hlock
    · simp only [update_of_ne ht] at hcall'
      obtain ⟨hok, hin⟩ := h.inside t' c' p hcall'
      by_cases hkc : c'.chan = c.chan
      · simp only [DiskSys.setChannel, hkc, update_self]
        rw [hkc] at hok hin
        refine ⟨hok.congr hsteps.capacity, fun hp => ?_⟩
        have hsame := hin hp
        rw [hlock, Option.some.injEq] at hsame
        exact absurd hsame.symm ht
      · simp only [DiskSys.setChannel, update_of_ne hkc]
        exact ⟨hok, hin⟩
  · rw [List.countP_append, countP_record (fun c => c.isRead && c.dev == d), ← Nat.add_assoc, ← h.reads]
    by_cases hkc : k = c.chan
    · subst hkc
      simp only [DiskSys.setChannel, update_self, if_true]
      exact hsteps.reads d
    · simp only [DiskSys.setChannel, update_of_ne hkc, if_neg (Ne.symm hkc)]
      rfl
  · rw [List.countP_append, countP_record (fun c => !c.isRead && c.dev == d), ← Nat.add_assoc, ← h.writes]
    by_cases hkc : k = c.chan
    · subst hkc
      simp only [DiskSys.setChannel, update_self, if_true]
      exact hsteps.writes d
    · simp only [DiskSys.setChannel, update_of_ne hkc, if_neg (Ne.symm hkc)]
      rfl

/-- The devices and the interrupts keep what the driver relies on. -/
theorem DiskOk.hardware (h : DiskOk channels s mem) (hsame : (s.channels k).SameDriver ch')
    (hquiet : (s.channels k).Quiet (channelData mem k) → ch'.Quiet (channelData mem k))
    (hstage : ∀ c pc, (s.channels k).Stage (channelData mem k) c pc → ch'.Stage (channelData mem k) c pc) :
    DiskOk channels (s.setChannel k ch') mem := by
  refine ⟨h.legal, fun k' hk => ?_, fun k' t hk => ?_, fun t c p hcall => ?_, fun k' d => ?_, fun k' d => ?_⟩
  · by_cases hkk : k' = k
    · subst hkk
      simp only [DiskSys.setChannel, update_self] at hk ⊢
      exact hquiet (h.free k' (hsame.lock ▸ hk))
    · simp only [DiskSys.setChannel, update_of_ne hkk] at hk ⊢
      exact h.free k' hk
  · by_cases hkk : k' = k
    · subst hkk
      simp only [DiskSys.setChannel, update_self] at hk ⊢
      obtain ⟨c, pc, hcall, hc, hst⟩ := h.held k' t (hsame.lock ▸ hk)
      exact ⟨c, pc, hcall, hc, hstage c pc hst⟩
    · simp only [DiskSys.setChannel, update_of_ne hkk] at hk ⊢
      exact h.held k' t hk
  · obtain ⟨hok, hin⟩ := h.inside t c p hcall
    by_cases hkk : c.chan = k
    · subst hkk
      simp only [DiskSys.setChannel, update_self]
      exact ⟨hok.congr hsame.capacity, fun hp => hsame.lock.trans (hin hp)⟩
    · simp only [DiskSys.setChannel, update_of_ne hkk]
      exact ⟨hok, hin⟩
  · by_cases hkk : k' = k
    · subst hkk
      simp only [DiskSys.setChannel, update_self, hsame.readCnt]
      exact h.reads k' d
    · simp only [DiskSys.setChannel, update_of_ne hkk]
      exact h.reads k' d
  · by_cases hkk : k' = k
    · subst hkk
      simp only [DiskSys.setChannel, update_self, hsame.writeCnt]
      exact h.writes k' d
    · simp only [DiskSys.setChannel, update_of_ne hkk]
      exact h.writes k' d

/-- The lock is free and is taken. -/
theorem DiskOk.acquire (h : DiskOk channels s mem) (hcall : s.calls t = some (c, .acquire))
    (hfree : (s.channels c.chan).lock = none) :
    DiskOk channels { s.setChannel c.chan { s.channels c.chan with lock := some t } with
      calls := update s.calls t (some (c, .idleBefore 0)), log := s.log ++ [] } mem := by
  have hq := h.free c.chan hfree
  have hok := (h.inside t c .acquire hcall).1
  rw [List.append_nil]
  refine ⟨h.legal, fun k hk => ?_, fun k t' hk => ?_, fun t' c' p hcall' => ?_, fun k d => ?_, fun k d => ?_⟩
  · by_cases hkc : k = c.chan
    · subst hkc
      simp only [DiskSys.setChannel, update_self] at hk
      cases hk
    · simp only [DiskSys.setChannel, update_of_ne hkc] at hk ⊢
      exact h.free k hk
  · by_cases hkc : k = c.chan
    · subst hkc
      simp only [DiskSys.setChannel, update_self, Option.some.injEq] at hk ⊢
      subst hk
      exact ⟨c, .idleBefore 0, update_self _ _ _, rfl, hq.phase, hq.irq, hq.completion, hq.medium⟩
    · simp only [DiskSys.setChannel, update_of_ne hkc] at hk ⊢
      obtain ⟨c₁, p₁, hcall₁, hc₁, hst₁⟩ := h.held k t' hk
      have hne : t' ≠ t := by
        rintro rfl
        rw [hcall, Option.some.injEq, Prod.mk.injEq] at hcall₁
        exact hkc (hc₁ ▸ congrArg DiskCall.chan hcall₁.1.symm)
      exact ⟨c₁, p₁, (update_of_ne hne _ _).trans hcall₁, hc₁, hst₁⟩
  · by_cases ht : t' = t
    · subst ht
      simp only [update_self, Option.some.injEq, Prod.mk.injEq] at hcall'
      obtain ⟨rfl, rfl⟩ := hcall'
      simp only [DiskSys.setChannel, update_self]
      exact ⟨hok.congr rfl, fun _ => trivial⟩
    · simp only [update_of_ne ht] at hcall'
      obtain ⟨hok', hin⟩ := h.inside t' c' p hcall'
      by_cases hkc : c'.chan = c.chan
      · simp only [DiskSys.setChannel, hkc, update_self]
        rw [hkc] at hok' hin
        refine ⟨hok'.congr rfl, fun hp => ?_⟩
        have hsame := hin hp
        rw [hfree] at hsame
        cases hsame
      · simp only [DiskSys.setChannel, update_of_ne hkc]
        exact ⟨hok', hin⟩
  · by_cases hkc : k = c.chan
    · subst hkc
      simp only [DiskSys.setChannel, update_self]
      exact h.reads _ d
    · simp only [DiskSys.setChannel, update_of_ne hkc]
      exact h.reads k d
  · by_cases hkc : k = c.chan
    · subst hkc
      simp only [DiskSys.setChannel, update_self]
      exact h.writes _ d
    · simp only [DiskSys.setChannel, update_of_ne hkc]
      exact h.writes k d

/-- What a step comes to. -/
inductive DiskSys.Comes (channels : Nat → Channel) (s : DiskSys) (a : DiskAction) : Except DiskHalt DiskSys → Prop
  | ok {s' : DiskSys} {mem : DiskAddr → List Byte} (h : DiskOk channels s' mem) : Comes channels s a (.ok s')
  | disabled : Comes channels s a (.error .disabled)
  | panic (h : s.TimedOut a) : Comes channels s a (.error .panic)

/-- A thread that is past `lock_acquire` has the lock. -/
theorem DiskOk.holder (h : DiskOk channels s mem) (hcall : s.calls t = some (c, pc)) (hpc : pc ≠ .acquire) :
    (s.channels c.chan).lock = some t ∧ (s.channels c.chan).Stage (channelData mem c.chan) c pc := by
  have hlock := (h.inside t c pc hcall).2 hpc
  obtain ⟨c₁, p₁, hcall₁, -, hst⟩ := h.held _ t hlock
  rw [hcall, Option.some.injEq, Prod.mk.injEq] at hcall₁
  obtain ⟨rfl, rfl⟩ := hcall₁
  exact ⟨hlock, hst⟩

theorem DiskOk.run (h : DiskOk channels s mem) (t : Tid) : s.Comes channels (.run t) (s.step (.run t)) := by
  rw [DiskSys.step]
  split
  · exact .disabled
  · next c pc hcall =>
    by_cases hpc : pc = .acquire
    · subst hpc
      have hok := (h.inside t c _ hcall).1
      by_cases hfree : (s.channels c.chan).lock = none
      · rw [Channel.exec, if_neg (not_not_intro hfree), if_pos ⟨hok.capacity, hok.lba⟩]
        exact .ok (h.acquire hcall hfree)
      · rw [Channel.exec, if_pos hfree]
        exact .disabled
    · obtain ⟨hlock, hst⟩ := h.holder hcall hpc
      have hout := hst.exec (h.inside t c pc hcall).1 hlock
      generalize (s.channels c.chan).exec t c pc = r at hout
      cases hout with
      | waits _ _ => exact .disabled
      | slow hpc hi =>
        subst hpc
        exact .panic ⟨c, _, hcall, hi⟩
      | goes hsteps =>
        obtain ⟨mem', h'⟩ := h.steps hcall hlock hst hsteps
        exact .ok h'

/-- **Every step.** -/
theorem DiskOk.step (h : DiskOk channels s mem) (hp : s.Proper a) : s.Comes channels a (s.step a) := by
  cases a with
  | call t c =>
    rw [DiskSys.step]
    split
    · exact .disabled
    · next hnone =>
      suffices hok : DiskOk channels { s with calls := update s.calls t (some (c, .acquire)) } mem from .ok hok
      refine ⟨h.legal, h.free, fun k t' hk => ?_, fun t' c' p hcall => ?_, h.reads, h.writes⟩
      · obtain ⟨c', p, hcall, hc, hst⟩ := h.held k t' hk
        have hne : t' ≠ t := by
          rintro rfl
          rw [hnone] at hcall
          cases hcall
        exact ⟨c', p, (update_of_ne hne _ _).trans hcall, hc, hst⟩
      · by_cases ht : t' = t
        · subst ht
          simp only [update_self, Option.some.injEq, Prod.mk.injEq] at hcall
          obtain ⟨rfl, rfl⟩ := hcall
          exact ⟨hp, fun hne => absurd rfl hne⟩
        · simp only [update_of_ne ht] at hcall
          exact h.inside t' c' p hcall
  | run t => exact h.run t
  | device k dev =>
    rw [DiskSys.step]
    cases hw : (s.channels k).work dev with
    | error e =>
      have he : e = .disabled := by
        unfold Channel.work at hw
        split at hw <;> cases hw
        rfl
      rw [he]
      exact .disabled
    | ok ch' =>
      refine .ok (h.hardware (Channel.sameDriver_work hw) (fun hq => ?_) fun c pc hst => hst.work hw)
      rw [Channel.work_idle (hq.phase dev)] at hw
      cases hw
  | interrupt k =>
    rw [DiskSys.step]
    split
    · next hirq =>
      refine .ok (h.hardware Channel.sameDriver_interrupt (fun hq => ?_) fun c pc hst => hst.interrupt hirq)
      rw [hq.irq] at hirq
      cases hirq
    · exact .disabled

theorem DiskOk.of_reach (h₀ : ∀ k, (channels k).Fresh) (h : Reach DiskSys.step DiskSys.Proper (.boot channels) s) :
    ∃ mem, DiskOk channels s mem := by
  refine h.invariant (I := fun s => ∃ mem, DiskOk channels s mem) ⟨_, diskOk_boot h₀⟩ ?_
  rintro s a s' ⟨mem, h⟩ hp hs
  have hcomes := h.step hp
  rw [hs] at hcomes
  cases hcomes with
  | ok h' => exact ⟨_, h'⟩

/-- A memory of sectors has been served. -/
structure DiskServed (channels : Nat → Channel) (s : DiskSys) : Prop where
  /-- The transfers, in the order in which they were counted, are a history of the sectors, and the media of a
  channel whose lock is free are what the history left. -/
  history : ∃ mem, Legal (contentsOf channels) (s.log.map access) mem ∧
    ∀ k, (s.channels k).lock = none → ∀ dev n, ((s.channels k).medium dev n).bytes = mem ⟨k, dev, n⟩
  reads : ∀ k dev, (s.channels k).readCnt dev = (channels k).readCnt dev +
    s.log.countP fun e => e.1.chan == k && (e.1.isRead && e.1.dev == dev)
  writes : ∀ k dev, (s.channels k).writeCnt dev = (channels k).writeCnt dev +
    s.log.countP fun e => e.1.chan == k && (!e.1.isRead && e.1.dev == dev)
  /-- A step is fatal where a device stays busy for the whole of `wait_while_busy`, and nowhere else. -/
  failures : ∀ a e, s.Proper a → s.step a = .error e → e = .disabled ∨ (e = .panic ∧ s.TimedOut a)

/-- **The driver serves a memory of sectors** in every run of any number of threads. -/
theorem disk_driver_serves (h₀ : ∀ k, (channels k).Fresh)
    (h : Reach DiskSys.step DiskSys.Proper (.boot channels) s) : DiskServed channels s := by
  obtain ⟨mem, hok⟩ := DiskOk.of_reach h₀ h
  refine ⟨⟨mem, hok.legal, fun k hk => (hok.free k hk).medium⟩, hok.reads, hok.writes, fun a e hp he => ?_⟩
  have hcomes := hok.step hp
  rw [he] at hcomes
  cases hcomes with
  | disabled => exact .inl rfl
  | panic htime => exact .inr ⟨rfl, htime⟩

/-- A channel with two blank disks of 16 sectors. -/
def blankChannel : Channel where
  nsect := 0
  lbal := 0
  lbam := 0
  lbah := 0
  device := 0
  phase := fun _ => .idle
  medium := fun _ _ => ⟨List.replicate SECTOR_WORDS 0, List.length_replicate⟩
  irq := false
  lock := none
  expectingInterrupt := false
  completionWait := 0
  capacity := fun _ => 16
  readCnt := fun _ => 0
  writeCnt := fun _ => 0

theorem blankChannel_fresh : blankChannel.Fresh := ⟨fun _ => rfl, rfl, rfl, rfl⟩

def DiskCall.check (c : DiskCall) (ch : Channel) : Bool :=
  decide (c.sector < ch.capacity c.dev) && decide (c.sector < 2 ^ 28) &&
    (c.isRead || decide (c.op = .write (List.replicate DISK_SECTOR_SIZE 0xab)))

def DiskSys.properCheck (s : DiskSys) : DiskAction → Bool
  | .call _ c => c.check (s.channels c.chan)
  | _ => true

theorem DiskSys.proper_of_check (s : DiskSys) (a : DiskAction) (h : s.properCheck a = true) : s.Proper a := by
  cases a with
  | call t c =>
    simp only [properCheck, DiskCall.check, Bool.and_eq_true, decide_eq_true_eq, Bool.or_eq_true,
      DiskCall.isRead] at h
    obtain ⟨⟨hcap, hlba⟩, hop⟩ := h
    refine ⟨hcap, hlba, fun b hb => ?_⟩
    rw [hb] at hop
    rcases hop with hread | hwrite
    · cases hread
    · cases hwrite
      exact List.length_replicate
  | _ => trivial

/-- Thread 1 reads sector 3 of a slave and has its first word, and thread 2 waits for the lock. -/
def firstWord : List DiskAction :=
  [.call 1 ⟨0, true, 3, .read⟩, .call 2 ⟨0, true, 3, .write (List.replicate DISK_SECTOR_SIZE 0xab)⟩] ++
    List.replicate 12 (.run 1) ++ [.device 0 true, .interrupt 0] ++ List.replicate 4 (.run 1)

/-- The run is one of the machine, and thread 1 has got two bytes. -/
theorem firstWord_runs : ((execIf DiskSys.step DiskSys.properCheck (.boot fun _ => blankChannel) firstWord).any
    fun s => decide ((s.calls 1).map (·.2) = some (.input 1 [0, 0]))) = true := by
  decide +kernel

theorem disk_driver_serves_blank : ∃ s, (s.calls 1).map (·.2) = some (.input 1 [0, 0]) ∧
    DiskServed (fun _ => blankChannel) s := by
  obtain ⟨s, hs, hcheck⟩ := exists_of_execIf DiskSys.proper_of_check _ firstWord_runs
  exact ⟨s, of_decide_eq_true hcheck, disk_driver_serves (fun _ => blankChannel_fresh) hs⟩

/-! ## No completion is lost -/

namespace DiskSys

/-- A step on a channel, and no new call. -/
def On (s : DiskSys) (k : Nat) : DiskAction → Prop
  | .call _ _ => False
  | .run t => ∃ c pc, s.calls t = some (c, pc) ∧ c.chan = k
  | .device k' _ => k' = k
  | .interrupt k' => k' = k

/-- A run in which `t` holds the lock of channel `k`, with `n` steps on the channel. -/
inductive Holding (k : Nat) (t : Tid) (s : DiskSys) : Nat → DiskSys → Prop
  | refl (h : (s.channels k).lock = some t) : Holding k t s 0 s
  | elsewhere {n : Nat} {u u' : DiskSys} {a : DiskAction} (h : Holding k t s n u) (hp : u.Proper a) (ha : ¬ u.On k a)
      (hs : u.step a = .ok u') : Holding k t s n u'
  | counted {n : Nat} {u u' : DiskSys} {a : DiskAction} (h : Holding k t s n u) (hp : u.Proper a) (ha : u.On k a)
      (hs : u.step a = .ok u') (hlock : (u'.channels k).lock = some t) : Holding k t s (n + 1) u'

/-- What the holder of a lock has before it, and its device. -/
def Bounded (s : DiskSys) (k : Nat) (t : Tid) (n : Nat) : Prop :=
  (s.channels k).lock = some t ∧ ∃ c pc, s.calls t = some (c, pc) ∧ c.chan = k ∧
    3 * pc.rank c + (s.channels k).pending ≤ n

end DiskSys

variable {n : Nat}

/-- A step of a thread, a device or an interrupt on another channel, or a new call. -/
theorem DiskOk.bounded_off (hb : s.Bounded k t n) (ha : ¬ s.On k a) (hs : s.step a = .ok s') : s'.Bounded k t n := by
  obtain ⟨hlock, c, pc, hcall, rfl, hn⟩ := hb
  -- the channel and the call stay
  have stays : (s'.channels c.chan) = s.channels c.chan → s'.calls t = s.calls t → s'.Bounded c.chan t n := by
    intro hch hcalls
    refine ⟨hch ▸ hlock, c, pc, hcalls.trans hcall, rfl, ?_⟩
    rw [hch]
    exact hn
  cases a with
  | call t' c' =>
    rw [DiskSys.step] at hs
    split at hs
    · cases hs
    · next hnone =>
      cases hs
      refine stays rfl (update_of_ne ?_ _ _)
      rintro rfl
      rw [hnone] at hcall
      cases hcall
  | run t' =>
    rw [DiskSys.step] at hs
    split at hs
    · cases hs
    · next c₁ p₁ hcall₁ =>
      have hchan : c.chan ≠ c₁.chan := fun hc => ha ⟨c₁, p₁, hcall₁, hc.symm⟩
      have hne : t ≠ t' := by
        rintro rfl
        rw [hcall, Option.some.injEq, Prod.mk.injEq] at hcall₁
        exact hchan (congrArg DiskCall.chan hcall₁.1)
      split at hs
      · cases hs
      · cases hs
        exact stays (update_of_ne hchan _ _) (update_of_ne hne _ _)
  | device k' dev =>
    rw [DiskSys.step] at hs
    split at hs
    · cases hs
    · cases hs
      exact stays (update_of_ne (Ne.symm ha) _ _) rfl
  | interrupt k' =>
    rw [DiskSys.step] at hs
    split at hs
    · cases hs
      exact stays (update_of_ne (Ne.symm ha) _ _) rfl
    · cases hs

/-- A step on the channel. -/
theorem DiskOk.bounded_on (h : DiskOk channels s mem) (hb : s.Bounded k t n) (ha : s.On k a)
    (hs : s.step a = .ok s') (hlock' : (s'.channels k).lock = some t) : s'.Bounded k t (n - 1) ∧ 1 ≤ n := by
  obtain ⟨hlock, c, pc, hcall, rfl, hn⟩ := hb
  obtain ⟨c₂, p₂, hcall₂, -, hst⟩ := h.held _ t hlock
  rw [hcall, Option.some.injEq, Prod.mk.injEq] at hcall₂
  obtain ⟨rfl, rfl⟩ := hcall₂
  cases a with
  | call t' c' => exact ha.elim
  | run t' =>
    obtain ⟨c₁, p₁, hcall₁, hchan⟩ := ha
    rw [DiskSys.step, hcall₁] at hs
    have hpast : p₁ ≠ .acquire := by
      rintro rfl
      simp only [Channel.exec, hchan, hlock] at hs
      cases hs
    obtain ⟨hlock₁, -⟩ := h.holder hcall₁ hpast
    rw [hchan, hlock, Option.some.injEq] at hlock₁
    subst hlock₁
    rw [hcall, Option.some.injEq, Prod.mk.injEq] at hcall₁
    obtain ⟨rfl, rfl⟩ := hcall₁
    have hout := hst.exec (h.inside t c pc hcall).1 hlock
    simp only at hs
    generalize (s.channels c.chan).exec t c pc = r at hout hs
    cases hout with
    | waits _ _ => cases hs
    | slow _ _ => cases hs
    | @goes ch' pc' hsteps =>
      cases hs
      simp only [DiskSys.setChannel, update_self] at hlock'
      cases hpc' : pc' with
      | none =>
        rw [(hsteps.done hpc').2] at hlock'
        cases hlock'
      | some p =>
        obtain ⟨hst', -, hrank⟩ := hsteps.stage p hpc'
        have hpend := hst'.pending
        refine ⟨⟨?_, c, p, update_self _ _ _, rfl, ?_⟩, by omega⟩
        · simp only [DiskSys.setChannel, update_self]
          exact hlock'
        · simp only [DiskSys.setChannel, update_self]
          omega
  | device k' dev =>
    obtain rfl : k' = c.chan := ha
    rw [DiskSys.step] at hs
    split at hs
    · cases hs
    · next ch' hw =>
      cases hs
      have hlt := Channel.pending_work hw
      refine ⟨⟨hlock', c, pc, hcall, rfl, ?_⟩, by omega⟩
      simp only [DiskSys.setChannel, update_self]
      omega
  | interrupt k' =>
    obtain rfl : k' = c.chan := ha
    rw [DiskSys.step] at hs
    split at hs
    · next hirq =>
      cases hs
      obtain ⟨-, -, hexp, -⟩ := hst.of_irq hirq
      have hlt : (s.channels c.chan).interruptHandler.pending + 1 = (s.channels c.chan).pending := by
        rw [Channel.interruptHandler, if_pos hexp, (s.channels c.chan).pending_eq false, hirq]
        rfl
      refine ⟨⟨hlock', c, pc, hcall, rfl, ?_⟩, by omega⟩
      simp only [DiskSys.setChannel, update_self]
      omega
    · cases hs

theorem Channel.Stage.rank_le (h : ch.Stage m c pc) : pc.rank c ≤ 6102 := by
  cases pc with
  | acquire => exact h.elim
  | down =>
    unfold DiskPc.rank
    simp only
    split <;> omega
  | input k b =>
    simp only [DiskPc.rank, SECTOR_WORDS, DISK_SECTOR_SIZE]
    omega
  | output k =>
    simp only [DiskPc.rank, SECTOR_WORDS, DISK_SECTOR_SIZE]
    omega
  | _ => simp only [DiskPc.rank]; omega

/-- A lock is held for a bounded number of steps on its channel. -/
theorem DiskOk.holding {u : DiskSys} (h : DiskOk channels s mem) (hu : DiskSys.Holding k t s n u) :
    ∃ mem' r, DiskOk channels u mem' ∧ u.Bounded k t r ∧ n + r ≤ 18308 := by
  induction hu with
  | refl hlock =>
    obtain ⟨c, pc, hcall, hc, hst⟩ := h.held k t hlock
    refine ⟨mem, _, h, ⟨hlock, c, pc, hcall, hc, Nat.le_refl _⟩, ?_⟩
    have hpend := hst.pending
    have hrank := hst.rank_le
    omega
  | elsewhere _ hp ha hs ih =>
    obtain ⟨mem', r, h', hb, hr⟩ := ih
    have hcomes := h'.step hp
    rw [hs] at hcomes
    cases hcomes with
    | ok h'' => exact ⟨_, r, h'', DiskOk.bounded_off hb ha hs, hr⟩
  | counted _ hp ha hs hlock' ih =>
    obtain ⟨mem', r, h', hb, hr⟩ := ih
    have hcomes := h'.step hp
    rw [hs] at hcomes
    cases hcomes with
    | ok h'' =>
      obtain ⟨hb', hpos⟩ := h'.bounded_on hb ha hs hlock'
      exact ⟨_, r - 1, h'', hb', by omega⟩

/-- Where a thread waits for a device, the device or its interrupt comes. -/
theorem Channel.Stage.comes (h : ch.Stage m c .down) (hcnt : ch.completionWait = 0) :
    (∃ ch', ch.work c.dev = .ok ch') ∨ ch.irq = true := by
  obtain ⟨-, -, phase, ⟨hbusy, hst⟩ | ⟨-, hst | hst⟩⟩ := h
  · left
    cases phase with
    | fetch lba => exact ⟨_, by rw [Channel.work, hst.phase]⟩
    | store lba sector => exact ⟨_, by rw [Channel.work, hst.phase]⟩
    | _ => exact hbusy.elim
  · exact .inr hst.irq
  · rw [hst.completion] at hcnt
    cases hcnt

/-- A run goes on. -/
structure DiskGoesOn (s : DiskSys) : Prop where
  /-- While a thread is in `disk_read` or `disk_write`, something can happen on its channel. -/
  possible : ∀ t c pc, s.calls t = some (c, pc) → ∃ a, s.On c.chan a ∧ ((∃ s', s.step a = .ok s') ∨ s.TimedOut a)
  /-- A thread holds the lock of a channel for a bounded number of steps on that channel, of its own, of the
  devices and of the interrupt together. -/
  bounded : ∀ k t n u, DiskSys.Holding k t s n u → n ≤ 18308

/-- **No completion is lost.** -/
theorem disk_driver_goes_on (h₀ : ∀ k, (channels k).Fresh)
    (h : Reach DiskSys.step DiskSys.Proper (.boot channels) s) : DiskGoesOn s := by
  obtain ⟨mem, hok⟩ := DiskOk.of_reach h₀ h
  refine ⟨fun t c pc hcall => ?_, fun k t n u hu => ?_⟩
  · -- the thread that goes on is the holder of the lock, or takes it
    have holder : ∀ t' p c', s.calls t' = some (c', p) → c'.chan = c.chan → p ≠ .acquire →
        ∃ a, s.On c.chan a ∧ ((∃ s', s.step a = .ok s') ∨ s.TimedOut a) := by
      intro t' p c' hcall' hchan hp
      obtain ⟨hlock, hst⟩ := hok.holder hcall' hp
      have hout := hst.exec (hok.inside t' c' p hcall').1 hlock
      generalize hr : (s.channels c'.chan).exec t' c' p = r at hout
      cases hout with
      | waits hpc hcnt =>
        subst hpc
        rcases hst.comes hcnt with ⟨ch', hw⟩ | hirq
        · exact ⟨.device c'.chan c'.dev, hchan, .inl ⟨s.setChannel c'.chan ch', by rw [DiskSys.step, hw]⟩⟩
        · exact ⟨.interrupt c'.chan, hchan, .inl ⟨_, by rw [DiskSys.step, if_pos hirq]⟩⟩
      | slow hpc hi =>
        subst hpc
        exact ⟨.run t', ⟨c', _, hcall', hchan⟩, .inr ⟨c', _, hcall', hi⟩⟩
      | @goes ch' pc' hsteps =>
        refine ⟨.run t', ⟨c', p, hcall', hchan⟩, .inl ⟨{ s.setChannel c'.chan ch' with
          calls := update s.calls t' (pc'.map fun p => (c', p)), log := s.log ++ p.record c' }, ?_⟩⟩
        rw [DiskSys.step, hcall']
        simp only [hr]
    cases hlock : (s.channels c.chan).lock with
    | some t' =>
      obtain ⟨c', p, hcall', hchan, hst⟩ := hok.held _ t' hlock
      refine holder t' p c' hcall' hchan ?_
      rintro rfl
      exact hst
    | none =>
      by_cases hpc : pc = .acquire
      · subst hpc
        have hin := (hok.inside t c _ hcall).1
        refine ⟨.run t, ⟨c, _, hcall, rfl⟩, .inl ⟨{ s.setChannel c.chan { s.channels c.chan with lock := some t } with
          calls := update s.calls t (some (c, .idleBefore 0)), log := s.log ++ [] }, ?_⟩⟩
        simp only [DiskSys.step, hcall, Channel.exec]
        rw [if_neg (not_not_intro hlock), if_pos ⟨hin.capacity, hin.lba⟩]
        rfl
      · exact holder t pc c hcall rfl hpc
  · obtain ⟨-, r, -, -, hr⟩ := hok.holding hu
    omega

theorem disk_driver_goes_on_blank : ∃ s, (s.calls 1).map (·.2) = some (.input 1 [0, 0]) ∧ DiskGoesOn s := by
  obtain ⟨s, hs, hcheck⟩ := exists_of_execIf DiskSys.proper_of_check _ firstWord_runs
  exact ⟨s, of_decide_eq_true hcheck, disk_driver_goes_on (fun _ => blankChannel_fresh) hs⟩

end Pintos
