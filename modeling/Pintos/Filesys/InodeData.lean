import Pintos.Filesys.Types

/-!
# Reading and writing inodes

`inode_read_at` and `inode_write_at` of `filesys/inode.c`: loops over the sectors of a file, through
a bounce buffer where a sector is not covered. Memory for it is found. Sizes and offsets are never
negative.

* `inodeReadAt_spec` — the bytes of the file, up to its end
* `inodeWriteAt_spec` — the bytes of the file are replaced, and no other byte of the disk
-/

namespace Pintos

open Function LittleEndian

/-- `byte_to_sector`; `-1` where the inode has no data. -/
def byteToSector (inode : Inode) (pos : Nat) : Nat :=
  if (pos : Int) < inode.data.length then (inode.data.start + pos / DISK_SECTOR_SIZE) % 2 ^ 32
  else 2 ^ 32 - 1

/-- Number of bytes to copy out of the sector of `offset`. -/
def chunkSize (inode : Inode) (size offset : Nat) : Int :=
  let sectorOfs := offset % DISK_SECTOR_SIZE
  let inodeLeft : Int := inode.data.length - offset
  let sectorLeft : Int := DISK_SECTOR_SIZE - sectorOfs
  let minLeft := if inodeLeft < sectorLeft then inodeLeft else sectorLeft
  if (size : Int) < minLeft then size else minLeft

/-- A round of `inode_read_at`: the whole sector, or a part of it through the bounce buffer. -/
def readChunk (sectorIdx sectorOfs chunk : Nat) : FsProg (List Byte) :=
  if sectorOfs = 0 ∧ chunk = DISK_SECTOR_SIZE then
    diskRead sectorIdx fun s sector => .ok (sectorBytes sector 0 DISK_SECTOR_SIZE, s)
  else diskRead sectorIdx fun s bounce => .ok (sectorBytes bounce sectorOfs chunk, s)

/-- The loop of `inode_read_at`. Each round copies a byte at least, so that `size` rounds are enough. -/
def inodeReadLoop (p : InodePtr) : Nat → Nat → Nat → FsProg (List Byte)
  | 0, _, _ => pure []
  | fuel + 1, size, offset =>
    if size = 0 then pure []
    else do
      let inode ← derefInode p
      let chunk := chunkSize inode size offset
      if chunk ≤ 0 then pure []
      else
        let bytes ← readChunk (byteToSector inode offset) (offset % DISK_SECTOR_SIZE) chunk.toNat
        let rest ← inodeReadLoop p fuel (size - chunk.toNat) (offset + chunk.toNat)
        pure (bytes ++ rest)

/-- `inode_read_at`. The result is the bytes that were read. -/
def inodeReadAt (p : InodePtr) (size offset : Nat) : FsProg (List Byte) :=
  inodeReadLoop p size size offset

/-- `memcpy (bounce + ofs, bytes, cnt)`. -/
def splice (bounce : Sector) (ofs : Nat) (bytes : List Byte) : Sector := fun k =>
  if ofs ≤ k ∧ k < ofs + bytes.length then bytes.getD (k - ofs) 0 else bounce k

/-- A round of `inode_write_at`. The bytes are those that `buffer` holds when they are copied. -/
def writeChunk (sectorIdx sectorOfs chunk : Nat) (buffer : FileSys → List Byte) : FsProg Unit :=
  if sectorOfs = 0 ∧ chunk = DISK_SECTOR_SIZE then
    diskWrite sectorIdx fun s => sectorOf (buffer s)
  else if 0 < sectorOfs ∨ chunk < DISK_SECTOR_SIZE - sectorOfs then do
    -- a sector that keeps some of its bytes is read first
    let bounce ← diskRead sectorIdx fun s bounce => .ok (splice bounce sectorOfs (buffer s), s)
    diskWrite sectorIdx fun _ => bounce
  else do
    let bounce ← Prog.read fun s => .ok (splice (fun _ => 0) sectorOfs (buffer s))
    diskWrite sectorIdx fun _ => bounce

/-- The loop of `inode_write_at`, after `written` bytes. -/
def inodeWriteLoop (p : InodePtr) (buffer : FileSys → List Byte) :
    Nat → Nat → Nat → Nat → FsProg Nat
  | 0, _, _, written => pure written
  | fuel + 1, size, offset, written =>
    if size = 0 then pure written
    else do
      let inode ← derefInode p
      let chunk := chunkSize inode size offset
      if chunk ≤ 0 then pure written
      else
        writeChunk (byteToSector inode offset) (offset % DISK_SECTOR_SIZE) chunk.toNat
          fun s => ((buffer s).drop written).take chunk.toNat
        inodeWriteLoop p buffer fuel (size - chunk.toNat) (offset + chunk.toNat)
          (written + chunk.toNat)

/-- `inode_write_at`. -/
def inodeWriteAt (p : InodePtr) (buffer : FileSys → List Byte) (size offset : Nat) : FsProg Nat := do
  let inode ← derefInode p
  if inode.denyWriteCnt ≠ 0 then pure 0
  else inodeWriteLoop p buffer size size offset 0

/-! ## The bytes of a file -/

/-- The byte `i` of a file whose first data sector is `start`. -/
def fileByte (disk : Nat → Sector) (start i : Nat) : Byte :=
  disk (start + i / DISK_SECTOR_SIZE) (i % DISK_SECTOR_SIZE)

/-- The bytes from `offset` on. -/
def fileBytes (disk : Nat → Sector) (start offset cnt : Nat) : List Byte :=
  (List.range cnt).map fun k => fileByte disk start (offset + k)

@[simp] theorem length_fileBytes (disk : Nat → Sector) (start offset cnt : Nat) :
    (fileBytes disk start offset cnt).length = cnt := by
  simp [fileBytes]

/-- The disk has the sectors of the file. -/
structure OnDisk (s : FileSys) (d : InodeDisk) : Prop where
  nonneg : 0 ≤ d.length
  selects : ∀ i : Nat, (i : Int) < d.length → s.Selects (d.start + i / DISK_SECTOR_SIZE)

/-- The number of bytes a call with this size and offset finds. -/
def transferred (d : InodeDisk) (size offset : Nat) : Nat := min size (d.length.toNat - offset)

theorem OnDisk.congr {s s' : FileSys} {d : InodeDisk} (h : OnDisk s d)
    (hc : s'.capacity = s.capacity) : OnDisk s' d where
  nonneg := h.nonneg
  selects i hi := by
    obtain ⟨h1, h2⟩ := h.selects i hi
    exact ⟨by rw [hc]; exact h1, h2⟩

variable {s s' : FileSys} {p : InodePtr} {inode : Inode} {d : InodeDisk} {size offset written fuel : Nat}

theorem run_derefInode (h : s.inodes p = some inode) : (derefInode p).run s = .ok (inode, s) :=
  Prog.run_read (by rw [h])

theorem run_diskRead {α : Type} {sector : Nat} {f : FileSys → Sector → Except FsFault (α × FileSys)}
    (h : s.Selects sector) : (diskRead sector f).run s = f s (s.disk sector) := by
  rw [diskRead, Prog.run_lift, if_pos h]

theorem run_diskWrite {sector : Nat} {f : FileSys → Sector} (h : s.Selects sector) :
    (diskWrite sector f).run s = .ok ((), s.setSector sector (f s)) := by
  rw [diskWrite, Prog.run_lift, if_pos h]

theorem byteToSector_eq (h : OnDisk s inode.data) (hi : (offset : Int) < inode.data.length) :
    byteToSector inode offset = inode.data.start + offset / DISK_SECTOR_SIZE := by
  obtain ⟨-, hlt⟩ := h.selects offset hi
  rw [byteToSector, if_pos hi, Nat.mod_eq_of_lt (by omega)]

/-- The chunk of a round. -/
theorem chunkSize_cases (offset : Nat) (h : 0 ≤ inode.data.length) (hsize : size ≠ 0) :
    (inode.data.length ≤ offset ∧ chunkSize inode size offset ≤ 0) ∨
    ∃ c : Nat, (offset : Int) < inode.data.length ∧ chunkSize inode size offset = c ∧ 0 < c ∧
      c ≤ size ∧ offset + c ≤ inode.data.length.toNat ∧
      offset % DISK_SECTOR_SIZE + c ≤ DISK_SECTOR_SIZE ∧
      (c = size ∨ offset + c = inode.data.length.toNat ∨
        offset % DISK_SECTOR_SIZE + c = DISK_SECTOR_SIZE) := by
  have hmod : offset % DISK_SECTOR_SIZE < DISK_SECTOR_SIZE := Nat.mod_lt _ (by decide)
  unfold chunkSize
  simp only
  by_cases hend : inode.data.length ≤ offset
  · refine Or.inl ⟨hend, ?_⟩
    split <;> split <;> omega
  · refine Or.inr ⟨min size (min (inode.data.length.toNat - offset)
      (DISK_SECTOR_SIZE - offset % DISK_SECTOR_SIZE)), by omega, ?_, by omega, by omega, by omega,
      by omega, by omega⟩
    split <;> split <;> omega

theorem fileBytes_succ (disk : Nat → Sector) (start c n : Nat) :
    fileBytes disk start offset (c + n) =
      fileBytes disk start offset c ++ fileBytes disk start (offset + c) n := by
  rw [fileBytes, List.range_add, List.map_append, List.map_map, fileBytes, fileBytes]
  refine congrArg _ (List.map_congr_left fun k _ => ?_)
  rw [comp_apply, Nat.add_assoc]

/-- The bytes of one round are in one sector. -/
theorem sectorBytes_eq (disk : Nat → Sector) (start : Nat) {c : Nat}
    (hc : offset % DISK_SECTOR_SIZE + c ≤ DISK_SECTOR_SIZE) :
    sectorBytes (disk (start + offset / DISK_SECTOR_SIZE)) (offset % DISK_SECTOR_SIZE) c =
      fileBytes disk start offset c := by
  refine List.map_congr_left fun k hk => ?_
  rw [List.mem_range] at hk
  have hdiv : (offset + k) / DISK_SECTOR_SIZE = offset / DISK_SECTOR_SIZE := by
    unfold DISK_SECTOR_SIZE at *
    omega
  have hmod : (offset + k) % DISK_SECTOR_SIZE = offset % DISK_SECTOR_SIZE + k := by
    unfold DISK_SECTOR_SIZE at *
    omega
  rw [fileByte, hdiv, hmod]

theorem inodeReadLoop_spec (hp : s.inodes p = some inode) (hd : OnDisk s inode.data) :
    ∀ (fuel size offset : Nat), size ≤ fuel →
      (inodeReadLoop p fuel size offset).run s =
        .ok (fileBytes s.disk inode.data.start offset (transferred inode.data size offset), s)
  | 0, size, offset, hle => by
    have h0 : transferred inode.data size offset = 0 := by
      unfold transferred
      omega
    rw [h0]
    rfl
  | fuel + 1, size, offset, hle => by
    rw [inodeReadLoop]
    by_cases hsize : size = 0
    · have h0 : transferred inode.data size offset = 0 := by
        unfold transferred
        omega
      rw [if_pos hsize, h0]
      rfl
    rw [if_neg hsize, Prog.run_bind_ok (run_derefInode hp)]
    rcases chunkSize_cases offset hd.nonneg hsize with
      ⟨hend, hchunk⟩ | ⟨c, hlt, hchunk, hpos, hcs, hcl, hcm, hlast⟩
    · have h0 : transferred inode.data size offset = 0 := by
        unfold transferred
        omega
      simp only [hchunk, if_true, h0]
      rfl
    · have hsel : s.Selects (byteToSector inode offset) := by
        rw [byteToSector_eq hd hlt]
        exact hd.selects offset hlt
      have hread : (readChunk (byteToSector inode offset) (offset % DISK_SECTOR_SIZE) c).run s =
          .ok (fileBytes s.disk inode.data.start offset c, s) := by
        unfold readChunk
        split
        · next hfull =>
          rw [run_diskRead hsel, byteToSector_eq hd hlt, ← sectorBytes_eq _ _ hcm, hfull.2, hfull.1]
        · rw [run_diskRead hsel, byteToSector_eq hd hlt, sectorBytes_eq _ _ hcm]
      have hrest : transferred inode.data size offset =
          c + transferred inode.data (size - c) (offset + c) := by
        unfold transferred
        omega
      have hne : ¬ (c : Int) ≤ 0 := by omega
      simp only [hchunk, hne, if_false, Int.toNat_natCast]
      rw [Prog.run_bind_ok hread,
        Prog.run_bind_ok (inodeReadLoop_spec hp hd fuel (size - c) (offset + c) (by omega)), hrest,
        fileBytes_succ]
      rfl

/-- **`inode_read_at`** reads the bytes of the file, up to its end. -/
theorem inodeReadAt_spec (hp : s.inodes p = some inode) (hd : OnDisk s inode.data)
    (size offset : Nat) :
    (inodeReadAt p size offset).run s =
      .ok (fileBytes s.disk inode.data.start offset (transferred inode.data size offset), s) :=
  inodeReadLoop_spec hp hd size size offset (Nat.le_refl size)

/-! ## Writing -/

/-- The disks hold the same bytes. -/
def SameDisk (disk disk' : Nat → Sector) : Prop :=
  ∀ sec k, k < DISK_SECTOR_SIZE → disk sec k = disk' sec k

/-- The disk after `bytes` are written from `offset` on to a file whose first sector is `start`. -/
def patched (disk : Nat → Sector) (start offset : Nat) (bytes : List Byte) : Nat → Sector :=
  fun sec k =>
    let i := (sec - start) * DISK_SECTOR_SIZE + k
    if start ≤ sec ∧ offset ≤ i ∧ i < offset + bytes.length then bytes.getD (i - offset) 0
    else disk sec k

theorem SameDisk.refl (disk : Nat → Sector) : SameDisk disk disk := fun _ _ _ => rfl

theorem SameDisk.trans {d₁ d₂ d₃ : Nat → Sector} (h : SameDisk d₁ d₂) (h' : SameDisk d₂ d₃) :
    SameDisk d₁ d₃ := fun sec k hk => (h sec k hk).trans (h' sec k hk)

theorem SameDisk.patched {d₁ d₂ : Nat → Sector} (h : SameDisk d₁ d₂) (start offset : Nat)
    (bytes : List Byte) : SameDisk (patched d₁ start offset bytes) (patched d₂ start offset bytes) := by
  intro sec k hk
  unfold Pintos.patched
  simp only
  split
  · rfl
  · exact h sec k hk

theorem patched_nil (disk : Nat → Sector) (start offset : Nat) : patched disk start offset [] = disk := by
  funext sec k
  unfold patched
  simp only
  rw [if_neg]
  simp only [List.length_nil]
  omega

theorem patched_patched (disk : Nat → Sector) (start offset : Nat) (b₁ b₂ : List Byte) :
    patched (patched disk start offset b₁) start (offset + b₁.length) b₂ =
      patched disk start offset (b₁ ++ b₂) := by
  funext sec k
  unfold patched
  simp only [List.length_append]
  generalize (sec - start) * DISK_SECTOR_SIZE + k = i
  by_cases h₂ : start ≤ sec ∧ offset + b₁.length ≤ i ∧ i < offset + b₁.length + b₂.length
  · rw [if_pos h₂, if_pos (by omega), List.getD_eq_getElem?_getD, List.getD_eq_getElem?_getD,
      List.getElem?_append_right (by omega)]
    congr 2
    omega
  · rw [if_neg h₂]
    by_cases h₁ : start ≤ sec ∧ offset ≤ i ∧ i < offset + b₁.length
    · rw [if_pos h₁, if_pos (by omega), List.getD_eq_getElem?_getD, List.getD_eq_getElem?_getD,
        List.getElem?_append_left (by omega)]
    · rw [if_neg h₁, if_neg (by omega)]

/-- The bytes of the file after the write. -/
theorem fileByte_patched (disk : Nat → Sector) (start offset : Nat) (bytes : List Byte) (i : Nat) :
    fileByte (patched disk start offset bytes) start i =
      if offset ≤ i ∧ i < offset + bytes.length then bytes.getD (i - offset) 0
      else fileByte disk start i := by
  have hi : (start + i / DISK_SECTOR_SIZE - start) * DISK_SECTOR_SIZE + i % DISK_SECTOR_SIZE = i := by
    unfold DISK_SECTOR_SIZE
    omega
  unfold fileByte patched
  simp only [hi]
  by_cases h : offset ≤ i ∧ i < offset + bytes.length
  · rw [if_pos h, if_pos ⟨Nat.le_add_right _ _, h⟩]
  · rw [if_neg h, if_neg fun hc => h hc.2]

/-- Sectors before the file and from its end on are as they were. -/
theorem patched_of_not_mem {disk : Nat → Sector} {start offset sec : Nat} {bytes : List Byte}
    {n : Nat} (hlen : offset + bytes.length ≤ n * DISK_SECTOR_SIZE) (h : sec < start ∨ start + n ≤ sec)
    (k : Nat) : patched disk start offset bytes sec k = disk sec k := by
  unfold patched
  simp only
  rw [if_neg]
  unfold DISK_SECTOR_SIZE at *
  omega

theorem SameDisk.fileByte {d₁ d₂ : Nat → Sector} (h : SameDisk d₁ d₂) (start i : Nat) :
    fileByte d₁ start i = fileByte d₂ start i := h _ _ (Nat.mod_lt _ (by decide))

/-- The sector of one round. -/
theorem splice_eq_patched (disk : Nat → Sector) (start : Nat) {bytes : List Byte}
    (bounce : Sector) (hc : offset % DISK_SECTOR_SIZE + bytes.length ≤ DISK_SECTOR_SIZE)
    (hb : ∀ k, k < DISK_SECTOR_SIZE →
      ¬ (offset % DISK_SECTOR_SIZE ≤ k ∧ k < offset % DISK_SECTOR_SIZE + bytes.length) →
      bounce k = disk (start + offset / DISK_SECTOR_SIZE) k) :
    SameDisk (update disk (start + offset / DISK_SECTOR_SIZE)
      (splice bounce (offset % DISK_SECTOR_SIZE) bytes)) (patched disk start offset bytes) := by
  intro sec k hk
  unfold patched
  simp only
  by_cases hsec : sec = start + offset / DISK_SECTOR_SIZE
  · subst hsec
    rw [update_self, splice]
    have hi : (start + offset / DISK_SECTOR_SIZE - start) * DISK_SECTOR_SIZE + k =
        offset / DISK_SECTOR_SIZE * DISK_SECTOR_SIZE + k := by
      rw [Nat.add_sub_cancel_left]
    rw [hi]
    by_cases hin : offset % DISK_SECTOR_SIZE ≤ k ∧ k < offset % DISK_SECTOR_SIZE + bytes.length
    · have hdm := Nat.div_add_mod' offset DISK_SECTOR_SIZE
      rw [if_pos hin, if_pos ⟨Nat.le_add_right _ _, by omega, by omega⟩]
      congr 1
      omega
    · have hdm := Nat.div_add_mod' offset DISK_SECTOR_SIZE
      rw [if_neg hin, hb k hk hin, if_neg]
      omega
  · rw [update_of_ne hsec, if_neg]
    unfold DISK_SECTOR_SIZE at *
    omega

theorem writeChunk_spec {start c : Nat} (buffer : FileSys → List Byte) {bytes : List Byte}
    (hsel : s.Selects (start + offset / DISK_SECTOR_SIZE))
    (hbuf : ∀ disk, buffer { s with disk := disk } = bytes) (hlen : bytes.length = c)
    (hc : offset % DISK_SECTOR_SIZE + c ≤ DISK_SECTOR_SIZE) :
    ∃ disk, (writeChunk (start + offset / DISK_SECTOR_SIZE) (offset % DISK_SECTOR_SIZE) c buffer).run s =
        .ok ((), { s with disk := disk }) ∧ SameDisk disk (patched s.disk start offset bytes) := by
  have hbs : buffer s = bytes := hbuf s.disk
  unfold writeChunk
  split
  · next hfull =>
    refine ⟨_, run_diskWrite hsel, ?_⟩
    rw [hbs]
    have hc' : offset % DISK_SECTOR_SIZE + bytes.length ≤ DISK_SECTOR_SIZE := by omega
    have hs := splice_eq_patched s.disk start (sectorOf bytes) hc'
      (fun k hk hn => absurd ⟨by omega, by omega⟩ hn)
    refine SameDisk.trans ?_ hs
    intro sec k hk
    by_cases hsec : sec = start + offset / DISK_SECTOR_SIZE
    · subst hsec
      rw [update_self, update_self, splice, if_pos (by omega), sectorOf, hfull.1, Nat.sub_zero]
    · rw [update_of_ne hsec, update_of_ne hsec]
  split
  · have hread : (diskRead (start + offset / DISK_SECTOR_SIZE) fun s bounce =>
        .ok (splice bounce (offset % DISK_SECTOR_SIZE) (buffer s), s)).run s =
        .ok (splice (s.disk (start + offset / DISK_SECTOR_SIZE)) (offset % DISK_SECTOR_SIZE) bytes, s) := by
      rw [run_diskRead hsel, hbs]
    refine ⟨_, (Prog.run_bind_ok hread).trans (run_diskWrite hsel), ?_⟩
    exact splice_eq_patched s.disk start _ (by omega) fun _ _ _ => rfl
  · next hcover =>
    have hread : (Prog.read fun s => .ok (splice (fun _ => 0) (offset % DISK_SECTOR_SIZE) (buffer s)) :
        FsProg Sector).run s = .ok (splice (fun _ => 0) (offset % DISK_SECTOR_SIZE) bytes, s) :=
      Prog.run_read (by rw [hbs])
    refine ⟨_, (Prog.run_bind_ok hread).trans (run_diskWrite hsel), ?_⟩
    refine splice_eq_patched s.disk start _ (by omega) fun k hk hn => ?_
    -- the chunk covers the sector
    omega

theorem inodeWriteLoop_spec (buffer : FileSys → List Byte) {buf : List Byte} :
    ∀ (fuel size offset written : Nat) {s : FileSys}, s.inodes p = some inode → OnDisk s inode.data →
      (∀ disk, buffer { s with disk := disk } = buf) → size ≤ fuel → written + size ≤ buf.length →
      ∃ disk, (inodeWriteLoop p buffer fuel size offset written).run s =
          .ok (written + transferred inode.data size offset, { s with disk := disk }) ∧
        SameDisk disk (patched s.disk inode.data.start offset
          ((buf.drop written).take (transferred inode.data size offset)))
  | 0, size, offset, written, s, hp, hd, hbuf, hle, hlen => by
    have h0 : transferred inode.data size offset = 0 := by
      unfold transferred
      omega
    rw [h0, List.take_zero, patched_nil]
    exact ⟨s.disk, rfl, .refl _⟩
  | fuel + 1, size, offset, written, s, hp, hd, hbuf, hle, hlen => by
    rw [inodeWriteLoop]
    by_cases hsize : size = 0
    · have h0 : transferred inode.data size offset = 0 := by
        unfold transferred
        omega
      rw [if_pos hsize, h0, List.take_zero, patched_nil]
      exact ⟨s.disk, rfl, .refl _⟩
    rw [if_neg hsize, Prog.run_bind_ok (run_derefInode hp)]
    rcases chunkSize_cases offset hd.nonneg hsize with
      ⟨hend, hchunk⟩ | ⟨c, hlt, hchunk, hpos, hcs, hcl, hcm, hlast⟩
    · have h0 : transferred inode.data size offset = 0 := by
        unfold transferred
        omega
      simp only [hchunk, if_true, h0, List.take_zero, patched_nil]
      exact ⟨s.disk, rfl, .refl _⟩
    · have hsel := hd.selects offset hlt
      have hne : ¬ (c : Int) ≤ 0 := by omega
      simp only [hchunk, hne, if_false, Int.toNat_natCast, byteToSector_eq hd hlt]
      obtain ⟨disk₁, hrun₁, hsame₁⟩ := writeChunk_spec (c := c)
        (fun s => ((buffer s).drop written).take c) hsel (fun disk => by rw [hbuf disk]) (by rw [List.length_take, List.length_drop]; omega) hcm
      rw [Prog.run_bind_ok hrun₁]
      obtain ⟨disk₂, hrun₂, hsame₂⟩ := inodeWriteLoop_spec buffer fuel
        (size - c) (offset + c) (written + c) (s := { s with disk := disk₁ }) hp (hd.congr rfl) hbuf
        (by omega) (by omega)
      have hrest : transferred inode.data size offset =
          c + transferred inode.data (size - c) (offset + c) := by
        unfold transferred
        omega
      refine ⟨disk₂, ?_, ?_⟩
      · rw [hrun₂, hrest, Nat.add_assoc]
      · refine hsame₂.trans ((hsame₁.patched _ _ _).trans ?_)
        have hlen₁ : ((buf.drop written).take c).length = c := by
          rw [List.length_take, List.length_drop]
          omega
        have hpp := patched_patched s.disk inode.data.start offset ((buf.drop written).take c)
          ((buf.drop (written + c)).take (transferred inode.data (size - c) (offset + c)))
        rw [hlen₁] at hpp
        rw [hpp, hrest, List.take_add, List.drop_drop]
        exact .refl _

/-- **`inode_write_at`** replaces the bytes of the file, up to its end, and no other byte. -/
theorem inodeWriteAt_spec (buffer : FileSys → List Byte) {buf : List Byte} (size offset : Nat)
    (hp : s.inodes p = some inode) (hd : OnDisk s inode.data)
    (hbuf : ∀ disk, buffer { s with disk := disk } = buf) (hdeny : inode.denyWriteCnt = 0)
    (hlen : size ≤ buf.length) :
    ∃ disk, (inodeWriteAt p buffer size offset).run s =
        .ok (transferred inode.data size offset, { s with disk := disk }) ∧
      SameDisk disk (patched s.disk inode.data.start offset
        (buf.take (transferred inode.data size offset))) := by
  rw [inodeWriteAt, Prog.run_bind_ok (run_derefInode hp)]
  simp only [hdeny, ne_eq, not_true, if_false]
  obtain ⟨disk, hrun, hsame⟩ := inodeWriteLoop_spec buffer size size offset 0 hp hd hbuf (Nat.le_refl _)
    (by omega)
  rw [Nat.zero_add] at hrun
  exact ⟨disk, hrun, hsame⟩

/-- Writing is refused. -/
theorem inodeWriteAt_denied {buffer : FileSys → List Byte} (hp : s.inodes p = some inode)
    (hdeny : inode.denyWriteCnt ≠ 0) : (inodeWriteAt p buffer size offset).run s = .ok (0, s) := by
  rw [inodeWriteAt, Prog.run_bind_ok (run_derefInode hp)]
  simp only [ne_eq, hdeny, not_false_eq_true, if_true]
  rfl

end Pintos
