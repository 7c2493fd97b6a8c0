import Pintos.Filesys.Buffers
import Pintos.Filesys.Directory

/-!
# An inode is an array of bytes

Whatever the alignment of offset, size and length, a call moves the bytes that the file has from the offset
on, and no others.

* `moved` — how many bytes
* `BufferHas`, `DiskHas` — the buffer after a read, and the disk after a write
* `inode_flat` — the calls
-/

namespace Pintos

open Function LittleEndian

/-- The number of bytes that a call moves. -/
def moved (length size : Int) (offset : Nat) : Int := max 0 (min size (length - offset))

/-- The buffer has the bytes of the file from `offset` on, and is else as it was. -/
def BufferHas (disk : Nat → Sector) (start offset : Nat) (n : Int) (buffer buffer' : Nat → Byte) : Prop :=
  ∀ k : Nat, buffer' k = if (k : Int) < n then fileByte disk start (offset + k) else buffer k

/-- The file has the bytes of the buffer from `offset` on, and every other byte of the disk is as it was. -/
structure DiskHas (disk disk' : Nat → Sector) (start offset : Nat) (n : Int) (buffer : Nat → Byte) : Prop where
  bytes : ∀ k : Nat, (k : Int) < n → fileByte disk' start (offset + k) = buffer k
  others : ∀ sec j, j < DISK_SECTOR_SIZE →
    (∀ k : Nat, (k : Int) < n → ¬ (sec = start + (offset + k) / DISK_SECTOR_SIZE ∧ j = (offset + k) % DISK_SECTOR_SIZE)) →
    disk' sec j = disk sec j

section

variable {s : FileSys} {p : InodePtr} {inode : Inode} {d : InodeDisk} {f : FilePtr} {file : File} {size : Int}
  {offset : Nat} {buffer : Nat → Byte}

theorem moved_eq (h : 0 ≤ d.length) (size : Int) (offset : Nat) :
    moved d.length size offset = (transferred d size.toNat offset : Nat) := by
  unfold moved transferred
  omega

theorem bufferHas_splice (disk : Nat → Sector) (start offset cnt : Nat) (buffer : Nat → Byte) :
    BufferHas disk start offset (cnt : Nat) buffer (splice buffer 0 (fileBytes disk start offset cnt)) := by
  intro k
  unfold splice
  rw [length_fileBytes, Nat.zero_add, Nat.sub_zero]
  by_cases hk : k < cnt
  · rw [if_pos ⟨Nat.zero_le k, hk⟩, if_pos (by omega), fileBytes, List.getD_eq_getElem?_getD, List.getElem?_map,
      List.getElem?_range hk]
    rfl
  · rw [if_neg (by omega), if_neg (by omega)]

theorem diskHas_patched {disk disk' : Nat → Sector} {start cnt len : Nat} (hcnt : cnt ≤ len)
    (h : SameDisk disk' (patched disk start offset ((bufferBytes buffer len).take cnt))) :
    DiskHas disk disk' start offset (cnt : Nat) buffer := by
  have hlen : ((bufferBytes buffer len).take cnt).length = cnt := by
    simp only [bufferBytes, List.length_take, List.length_map, List.length_range]
    omega
  refine ⟨fun k hk => ?_, fun sec j hj hout => ?_⟩
  · have hk : k < cnt := by omega
    rw [h.fileByte, fileByte_patched, hlen, if_pos (by omega), Nat.add_sub_cancel_left, List.getD_eq_getElem?_getD,
      List.getElem?_take_of_lt hk, bufferBytes, List.getElem?_map, List.getElem?_range (by omega)]
    rfl
  · rw [h sec j hj]
    unfold patched
    dsimp only
    rw [hlen, if_neg]
    -- the byte would be one of those written
    rintro ⟨hsec, hlo, hhi⟩
    refine hout ((sec - start) * DISK_SECTOR_SIZE + j - offset) (by omega) ?_
    unfold DISK_SECTOR_SIZE at *
    omega

/-! ## The calls -/

theorem run_inodeReadBuffer (hp : s.inodes p = some inode) (hd : OnDisk s inode.data) (size : Int) (offset : Nat)
    (buffer : Nat → Byte) : ∃ buffer', (inodeReadBuffer p buffer size offset).run s =
      .ok ((moved inode.data.length size offset, buffer'), s) ∧
      BufferHas s.disk inode.data.start offset (moved inode.data.length size offset) buffer buffer' := by
  rw [moved_eq hd.nonneg]
  by_cases hsize : 0 ≤ size
  · obtain ⟨n, rfl⟩ := Int.eq_ofNat_of_zero_le hsize
    rw [Int.toNat_natCast]
    refine ⟨_, ?_, bufferHas_splice s.disk inode.data.start offset (transferred inode.data n offset) buffer⟩
    have hloop := run_readBufferLoop (p := p) n n offset 0 buffer (s := s)
    rw [inodeReadLoop_spec hp hd n n offset (Nat.le_refl n)] at hloop
    dsimp only at hloop
    rw [length_fileBytes, Nat.zero_add] at hloop
    exact hloop
  · have hz : size.toNat = 0 := by omega
    have h0 : transferred inode.data size.toNat offset = 0 := by
      unfold transferred
      omega
    rw [h0, inodeReadBuffer, hz]
    refine ⟨buffer, rfl, fun k => ?_⟩
    rw [if_neg (by omega)]

theorem run_inodeWriteBuffer (hp : s.inodes p = some inode) (hd : OnDisk s inode.data)
    (hdeny : inode.denyWriteCnt = 0) (size : Int) (offset : Nat) (buffer : Nat → Byte) :
    ∃ disk, (inodeWriteBuffer p buffer size offset).run s =
      .ok (moved inode.data.length size offset, { s with disk := disk }) ∧
      DiskHas s.disk disk inode.data.start offset (moved inode.data.length size offset) buffer := by
  have hdeny' : ¬ inode.denyWriteCnt ≠ 0 := not_not.mpr hdeny
  rw [moved_eq hd.nonneg, inodeWriteBuffer, Prog.run_bind_ok (run_derefInode hp), if_neg hdeny']
  by_cases hsize : 0 ≤ size
  · obtain ⟨n, rfl⟩ := Int.eq_ofNat_of_zero_le hsize
    rw [Int.toNat_natCast]
    have hlen : (bufferBytes buffer n).length = n := by simp [bufferBytes]
    obtain ⟨disk, hrun, hsame⟩ := inodeWriteLoop_spec (fun _ => bufferBytes buffer n) n n offset 0 hp hd
      (fun _ => rfl) (Nat.le_refl n) (by omega)
    have hloop := run_writeBufferLoop (p := p) buffer n n offset 0 (s := s) (by omega : 0 + n ≤ n)
    rw [hrun, Nat.zero_add] at hloop
    refine ⟨disk, hloop, diskHas_patched ?_ hsame⟩
    unfold transferred
    omega
  · have hz : size.toNat = 0 := by omega
    have h0 : transferred inode.data size.toNat offset = 0 := by
      unfold transferred
      omega
    rw [h0, hz]
    exact ⟨s.disk, rfl, fun k hk => by omega, fun _ _ _ _ => rfl⟩

theorem run_inodeWriteBuffer_denied (hp : s.inodes p = some inode) (hdeny : inode.denyWriteCnt ≠ 0) (size : Int)
    (offset : Nat) (buffer : Nat → Byte) : (inodeWriteBuffer p buffer size offset).run s = .ok (0, s) := by
  rw [inodeWriteBuffer, Prog.run_bind_ok (run_derefInode hp), if_pos hdeny]
  rfl

theorem run_advanceOff {n : Int} (hf : s.files f = some file) (hn : 0 ≤ n) :
    (advanceOff f n).run s = .ok ((), s.setFile f (some { file with pos := file.pos + n.toNat })) := by
  have hpos : ((file.pos : Int) + n).toNat = file.pos + n.toNat := by omega
  rw [advanceOff, run_updateFile hf, hpos]

/-- `file_read` moves the position by what was read. -/
theorem run_fileReadBuffer {n : Int} {buffer' : Nat → Byte} (hf : s.files f = some file)
    (hr : (inodeReadBuffer file.inode buffer size file.pos).run s = .ok ((n, buffer'), s)) (hn : 0 ≤ n) :
    (fileReadBuffer f buffer size).run s =
      .ok ((n, buffer'), s.setFile f (some { file with pos := file.pos + n.toNat })) := by
  rw [fileReadBuffer, Prog.run_bind_ok (run_derefFile hf), Prog.run_bind_ok hr]
  dsimp only
  rw [Prog.run_bind_ok (run_advanceOff hf hn)]
  rfl

theorem run_fileWriteBuffer {n : Int} {s' : FileSys} (hf : s.files f = some file)
    (hw : (inodeWriteBuffer file.inode buffer size file.pos).run s = .ok (n, s')) (hf' : s'.files f = some file)
    (hn : 0 ≤ n) : (fileWriteBuffer f buffer size).run s =
      .ok (n, s'.setFile f (some { file with pos := file.pos + n.toNat })) := by
  rw [fileWriteBuffer, Prog.run_bind_ok (run_derefFile hf), Prog.run_bind_ok hw,
    Prog.run_bind_ok (run_advanceOff hf' hn)]
  rfl

/-- **An inode is an array of bytes**, and a file a position in it. -/
theorem inode_flat (hp : s.inodes p = some inode) (hd : OnDisk s inode.data) (size : Int) (offset : Nat)
    (buffer : Nat → Byte) :
    (∃ buffer', (inodeReadBuffer p buffer size offset).run s =
        .ok ((moved inode.data.length size offset, buffer'), s) ∧
      BufferHas s.disk inode.data.start offset (moved inode.data.length size offset) buffer buffer') ∧
    (inode.denyWriteCnt = 0 → ∃ disk, (inodeWriteBuffer p buffer size offset).run s =
        .ok (moved inode.data.length size offset, { s with disk := disk }) ∧
      DiskHas s.disk disk inode.data.start offset (moved inode.data.length size offset) buffer) ∧
    (inode.denyWriteCnt ≠ 0 → (inodeWriteBuffer p buffer size offset).run s = .ok (0, s)) ∧
    ∀ f file, s.files f = some file → file.inode = p → file.pos = offset →
      (∃ n buffer', (inodeReadBuffer p buffer size offset).run s = .ok ((n, buffer'), s) ∧
        (fileReadBuffer f buffer size).run s =
          .ok ((n, buffer'), s.setFile f (some { file with pos := file.pos + n.toNat }))) ∧
      ∃ n s', (inodeWriteBuffer p buffer size offset).run s = .ok (n, s') ∧
        (fileWriteBuffer f buffer size).run s =
          .ok (n, s'.setFile f (some { file with pos := file.pos + n.toNat })) := by
  have hn : 0 ≤ moved inode.data.length size offset := by
    unfold moved
    omega
  have hread := run_inodeReadBuffer hp hd size offset buffer
  refine ⟨hread, fun hdeny => run_inodeWriteBuffer hp hd hdeny size offset buffer,
    fun hdeny => run_inodeWriteBuffer_denied hp hdeny size offset buffer, fun f file hf hino hpos => ⟨?_, ?_⟩⟩
  · obtain ⟨buffer', hrun, -⟩ := hread
    refine ⟨_, buffer', hrun, run_fileReadBuffer hf ?_ hn⟩
    rw [hino, hpos]
    exact hrun
  · by_cases hdeny : inode.denyWriteCnt = 0
    · obtain ⟨disk, hrun, -⟩ := run_inodeWriteBuffer hp hd hdeny size offset buffer
      refine ⟨_, _, hrun, run_fileWriteBuffer hf ?_ hf hn⟩
      rw [hino, hpos]
      exact hrun
    · have hrun := run_inodeWriteBuffer_denied hp hdeny size offset buffer
      refine ⟨0, s, hrun, run_fileWriteBuffer hf ?_ hf (Int.le_refl 0)⟩
      rw [hino, hpos]
      exact hrun

/-- An inode with 600 bytes in the sectors 2 and 3. -/
def sixHundredInode : Inode :=
  { sector := 1, openCnt := 1, removed := false, denyWriteCnt := 0, data := { start := 2, length := 600 } }

def sixHundred : FileSys :=
  (FileSys.boot (fun sec k => BitVec.ofNat 8 (sec + k)) 4 ⟨0, []⟩ [] { start := 0, length := 0 }).setInode 0
    (some sixHundredInode)

theorem sixHundred_onDisk : OnDisk sixHundred sixHundredInode.data where
  nonneg := by decide
  selects i hi := by
    have hi : (i : Int) < 600 := hi
    have hsec : 2 + i / DISK_SECTOR_SIZE < 4 := by
      unfold DISK_SECTOR_SIZE
      omega
    exact ⟨hsec, Nat.lt_trans hsec (by decide)⟩

/-- A read over the end of a sector and the end of the file. -/
theorem inode_flat_end : ∃ buffer', (inodeReadBuffer 0 (fun _ => 0) 200 500).run sixHundred =
    .ok ((100, buffer'), sixHundred) ∧ buffer' 0 = BitVec.ofNat 8 502 ∧ buffer' 12 = 3 ∧ buffer' 100 = 0 := by
  obtain ⟨⟨buffer', hrun, hbytes⟩, -⟩ :=
    inode_flat (p := 0) (Eq.refl (some sixHundredInode)) sixHundred_onDisk 200 500 fun _ => 0
  exact ⟨buffer', hrun, hbytes 0, hbytes 12, hbytes 100⟩

end

end Pintos
