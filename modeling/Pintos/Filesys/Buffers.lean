import Pintos.Filesys.Inode

/-!
# Reading and writing with the buffer of the caller

`inode_read_at`, `inode_write_at`, `file_read` and `file_write` with sizes and offsets that are `off_t`,
and bytes that go to and come from a buffer. An offset is not negative: no `off_t` here overflows.

* `inodeReadBuffer`, `inodeWriteBuffer` — the loops as the source has them
* `run_readBufferLoop`, `run_writeBufferLoop` — they do what the loops over natural numbers do
-/

namespace Pintos

open Function LittleEndian

/-- `byte_to_sector`. -/
def byteToSectorOff (inode : Inode) (pos : Int) : Nat :=
  if pos < inode.data.length then (((inode.data.start : Int) + pos.tdiv DISK_SECTOR_SIZE) % 2 ^ 32).toNat
  else 2 ^ 32 - 1

/-- `chunk_size`. -/
def chunkOff (inode : Inode) (size offset : Int) : Int :=
  let sectorOfs := offset.tmod DISK_SECTOR_SIZE
  let inodeLeft := inode.data.length - offset
  let sectorLeft := DISK_SECTOR_SIZE - sectorOfs
  let minLeft := if inodeLeft < sectorLeft then inodeLeft else sectorLeft
  if size < minLeft then size else minLeft

/-- The loop of `inode_read_at`: the number of bytes read, and the buffer. -/
def readBufferLoop (p : InodePtr) : Nat → Int → Int → Nat → (Nat → Byte) → FsProg (Int × (Nat → Byte))
  | 0, _, _, bytesRead, buffer => pure ((bytesRead : Int), buffer)
  | fuel + 1, size, offset, bytesRead, buffer =>
    if 0 < size then do
      let inode ← derefInode p
      let chunk := chunkOff inode size offset
      if chunk ≤ 0 then pure ((bytesRead : Int), buffer)
      else do
        let bytes ← readChunk (byteToSectorOff inode offset) (offset.tmod DISK_SECTOR_SIZE).toNat chunk.toNat
        readBufferLoop p fuel (size - chunk) (offset + chunk) (bytesRead + chunk.toNat)
          (splice buffer bytesRead bytes)
    else pure ((bytesRead : Int), buffer)

/-- `inode_read_at`. -/
def inodeReadBuffer (p : InodePtr) (buffer : Nat → Byte) (size offset : Int) : FsProg (Int × (Nat → Byte)) :=
  readBufferLoop p size.toNat size offset 0 buffer

/-- The loop of `inode_write_at`. -/
def writeBufferLoop (p : InodePtr) (buffer : Nat → Byte) : Nat → Int → Int → Nat → FsProg Int
  | 0, _, _, bytesWritten => pure (bytesWritten : Int)
  | fuel + 1, size, offset, bytesWritten =>
    if 0 < size then do
      let inode ← derefInode p
      let chunk := chunkOff inode size offset
      if chunk ≤ 0 then pure (bytesWritten : Int)
      else do
        writeChunk (byteToSectorOff inode offset) (offset.tmod DISK_SECTOR_SIZE).toNat chunk.toNat
          fun _ => (List.range chunk.toNat).map fun k => buffer (bytesWritten + k)
        writeBufferLoop p buffer fuel (size - chunk) (offset + chunk) (bytesWritten + chunk.toNat)
    else pure (bytesWritten : Int)

/-- `inode_write_at`. -/
def inodeWriteBuffer (p : InodePtr) (buffer : Nat → Byte) (size offset : Int) : FsProg Int := do
  let inode ← derefInode p
  if inode.denyWriteCnt ≠ 0 then pure 0
  else writeBufferLoop p buffer size.toNat size offset 0

/-- `file->pos += n`, of a number that is not negative. -/
def advanceOff (f : FilePtr) (n : Int) : FsProg Unit :=
  updateFile f fun file => { file with pos := (file.pos + n).toNat }

/-- `file_read`. -/
def fileReadBuffer (f : FilePtr) (buffer : Nat → Byte) (size : Int) : FsProg (Int × (Nat → Byte)) := do
  let file ← derefFile f
  let (bytesRead, buffer) ← inodeReadBuffer file.inode buffer size file.pos
  advanceOff f bytesRead
  pure (bytesRead, buffer)

/-- `file_write`. -/
def fileWriteBuffer (f : FilePtr) (buffer : Nat → Byte) (size : Int) : FsProg Int := do
  let file ← derefFile f
  let bytesWritten ← inodeWriteBuffer file.inode buffer size file.pos
  advanceOff f bytesWritten
  pure bytesWritten

/-! ## The loops over natural numbers -/

section

variable {s : FileSys} {p : InodePtr} {inode : Inode} {size offset : Nat} {buffer : Nat → Byte}

theorem byteToSectorOff_natCast (inode : Inode) (offset : Nat) :
    byteToSectorOff inode offset = byteToSector inode offset := by
  unfold byteToSectorOff byteToSector
  split
  · have hdiv : (offset : Int).tdiv DISK_SECTOR_SIZE = ((offset / DISK_SECTOR_SIZE : Nat) : Int) :=
      (Int.ofNat_tdiv offset DISK_SECTOR_SIZE).symm
    rw [hdiv, ← Int.natCast_add]
    exact Int.toNat_natCast ((inode.data.start + offset / DISK_SECTOR_SIZE) % 2 ^ 32)
  · rfl

theorem chunkOff_natCast (inode : Inode) (size offset : Nat) :
    chunkOff inode size offset = chunkSize inode size offset := by
  have hmod : (offset : Int).tmod DISK_SECTOR_SIZE = ((offset % DISK_SECTOR_SIZE : Nat) : Int) :=
    (Int.ofNat_tmod offset DISK_SECTOR_SIZE).symm
  unfold chunkOff chunkSize
  rw [hmod]

theorem splice_splice (buffer : Sector) (n : Nat) (b₁ b₂ : List Byte) :
    splice (splice buffer n b₁) (n + b₁.length) b₂ = splice buffer n (b₁ ++ b₂) := by
  funext k
  unfold splice
  rw [List.length_append]
  by_cases h₂ : n + b₁.length ≤ k ∧ k < n + b₁.length + b₂.length
  · rw [if_pos h₂, if_pos (by omega), List.getD_eq_getElem?_getD, List.getD_eq_getElem?_getD,
      List.getElem?_append_right (by omega)]
    congr 2
    omega
  · rw [if_neg h₂]
    by_cases h₁ : n ≤ k ∧ k < n + b₁.length
    · rw [if_pos h₁, if_pos (by omega), List.getD_eq_getElem?_getD, List.getD_eq_getElem?_getD,
        List.getElem?_append_left (by omega)]
    · rw [if_neg h₁, if_neg (by omega)]

theorem splice_nil (buffer : Sector) (n : Nat) : splice buffer n [] = buffer := by
  funext k
  unfold splice
  rw [if_neg]
  simp only [List.length_nil]
  omega

/-- A read of the disk that returns so many bytes. -/
theorem length_diskRead {sector n : Nat} {g : Sector → List Byte} (hg : ∀ x, (g x).length = n) {bytes : List Byte}
    {s' : FileSys} (h : (diskRead sector fun s x => .ok (g x, s)).run s = .ok (bytes, s')) : bytes.length = n := by
  rw [diskRead, Prog.run_lift] at h
  split at h
  · cases h
    exact hg _
  · cases h

/-- A chunk is as long as it should be. -/
theorem length_readChunk {sector ofs chunk : Nat} {bytes : List Byte} {s' : FileSys}
    (h : (readChunk sector ofs chunk).run s = .ok (bytes, s')) : bytes.length = chunk := by
  unfold readChunk at h
  split at h
  · next hfull =>
    rw [hfull.2]
    exact length_diskRead (fun x => length_sectorBytes x 0 DISK_SECTOR_SIZE) h
  · exact length_diskRead (fun x => length_sectorBytes x ofs chunk) h

/-- A read of the disk changes nothing. -/
theorem of_diskRead {α : Type} {sector : Nat} {g : FileSys → Sector → α} {a : α} {s' : FileSys}
    (h : (diskRead sector fun s x => .ok (g s x, s)).run s = .ok (a, s')) : s = s' := by
  rw [diskRead, Prog.run_lift] at h
  split at h
  · cases h
    rfl
  · cases h

theorem of_readChunk {sector ofs chunk : Nat} {bytes : List Byte} {s' : FileSys}
    (h : (readChunk sector ofs chunk).run s = .ok (bytes, s')) : s = s' := by
  unfold readChunk at h
  split at h
  · exact of_diskRead h
  · exact of_diskRead h

/-- All bytes are read that the inode has. -/
theorem length_inodeReadLoop {inode : Inode} : ∀ {fuel size offset : Nat} {s s' : FileSys} {bytes : List Byte},
    s.inodes p = some inode → size ≤ fuel → (offset : Int) + size ≤ inode.data.length →
    (inodeReadLoop p fuel size offset).run s = .ok (bytes, s') → bytes.length = size
  | 0, size, offset, s, s', bytes, _, hfuel, _, h => by
    cases h
    exact (Nat.le_zero.mp hfuel).symm
  | fuel + 1, size, offset, s, s', bytes, hp, hfuel, hlen, h => by
    rw [inodeReadLoop] at h
    split at h
    · next hsize =>
      cases h
      exact hsize.symm
    · next hsize =>
      obtain ⟨inode', s₁, h₁, h⟩ := Prog.of_run_bind h
      rw [run_derefInode hp] at h₁
      cases h₁
      have hchunk : 0 < chunkSize inode size offset ∧ chunkSize inode size offset ≤ size := by
        have hmod : offset % DISK_SECTOR_SIZE < DISK_SECTOR_SIZE := Nat.mod_lt _ (by decide)
        unfold chunkSize
        dsimp only
        split <;> split <;> omega
      rw [if_neg (by omega)] at h
      obtain ⟨first, s₂, h₂, h⟩ := Prog.of_run_bind h
      obtain rfl := of_readChunk h₂
      obtain ⟨rest, s₃, h₃, h⟩ := Prog.of_run_bind h
      have hrest := length_inodeReadLoop hp (by omega) (by omega) h₃
      cases h
      rw [List.length_append, length_readChunk h₂, hrest]
      omega

/-- Reading to a buffer is reading, with the bytes in the buffer. -/
theorem run_readBufferLoop : ∀ (fuel size offset bytesRead : Nat) (buffer : Nat → Byte) {s : FileSys},
    (readBufferLoop p fuel size offset bytesRead buffer).run s =
      (match (inodeReadLoop p fuel size offset).run s with
      | .error e => .error e
      | .ok (bytes, s') => .ok ((((bytesRead + bytes.length : Nat) : Int), splice buffer bytesRead bytes), s'))
  | 0, size, offset, bytesRead, buffer, s => by
    show Except.ok (((bytesRead : Int), buffer), s) = _
    rw [inodeReadLoop]
    show _ = Except.ok ((((bytesRead + 0 : Nat) : Int), splice buffer bytesRead []), s)
    rw [splice_nil, Nat.add_zero]
  | fuel + 1, size, offset, bytesRead, buffer, s => by
    have hnil : (Except.ok (((bytesRead : Int), buffer), s) : Except FsFault _) =
        .ok ((((bytesRead + ([] : List Byte).length : Nat) : Int), splice buffer bytesRead []), s) := by
      rw [splice_nil, List.length_nil, Nat.add_zero]
    rw [readBufferLoop, inodeReadLoop]
    by_cases hsize : size = 0
    · rw [if_neg (by omega), if_pos hsize]
      exact hnil
    rw [if_pos (by omega), if_neg hsize, Prog.run_bind, Prog.run_bind]
    cases hinode : (derefInode p).run s with
    | error e => rfl
    | ok x =>
      obtain ⟨inode, s₁⟩ := x
      have hs₁ : s = s₁ := (Prog.of_run_read hinode).2
      subst hs₁
      dsimp only
      rw [chunkOff_natCast, byteToSectorOff_natCast]
      by_cases hchunk : chunkSize inode size offset ≤ 0
      · rw [if_pos hchunk, if_pos hchunk]
        exact hnil
      rw [if_neg hchunk, if_neg hchunk]
      have hmod : ((offset : Int).tmod DISK_SECTOR_SIZE).toNat = offset % DISK_SECTOR_SIZE := by
        rw [← Int.ofNat_tmod, Int.toNat_natCast]
      have hle : chunkSize inode size offset ≤ size := by
        unfold chunkSize
        dsimp only
        split <;> omega
      have hsub : (size : Int) - chunkSize inode size offset =
          ((size - (chunkSize inode size offset).toNat : Nat) : Int) := by
        omega
      have hadd : (offset : Int) + chunkSize inode size offset =
          ((offset + (chunkSize inode size offset).toNat : Nat) : Int) := by
        omega
      rw [hmod, hsub, hadd, Prog.run_bind, Prog.run_bind]
      generalize hc : (chunkSize inode size offset).toNat = c
      cases hread : (readChunk (byteToSector inode offset) (offset % DISK_SECTOR_SIZE) c).run s with
      | error e => rfl
      | ok y =>
        obtain ⟨bytes, s₂⟩ := y
        have hlen := length_readChunk hread
        subst hlen
        dsimp only
        rw [run_readBufferLoop fuel _ _ _ _, Prog.run_bind]
        cases (inodeReadLoop p fuel (size - bytes.length) (offset + bytes.length)).run s₂ with
        | error e => rfl
        | ok z =>
          obtain ⟨rest, s₃⟩ := z
          show Except.ok ((((bytesRead + bytes.length + rest.length : Nat) : Int), _), s₃) =
            .ok ((((bytesRead + (bytes ++ rest).length : Nat) : Int), _), s₃)
          rw [splice_splice, List.length_append, Nat.add_assoc]

/-- The bytes of a buffer. -/
def bufferBytes (buffer : Nat → Byte) (cnt : Nat) : List Byte := (List.range cnt).map buffer

theorem bufferBytes_chunk (buffer : Nat → Byte) {cnt written chunk : Nat} (h : written + chunk ≤ cnt) :
    ((bufferBytes buffer cnt).drop written).take chunk = (List.range chunk).map fun k => buffer (written + k) := by
  refine List.ext_getElem ?_ fun k hk hk' => ?_
  · simp only [bufferBytes, List.length_take, List.length_drop, List.length_map, List.length_range]
    omega
  · simp [bufferBytes]

/-- Writing from a buffer is writing the bytes of the buffer. -/
theorem run_writeBufferLoop {cnt : Nat} (buffer : Nat → Byte) : ∀ (fuel size offset written : Nat) {s : FileSys},
    written + size ≤ cnt →
    (writeBufferLoop p buffer fuel size offset written).run s =
      (match (inodeWriteLoop p (fun _ => bufferBytes buffer cnt) fuel size offset written).run s with
      | .error e => .error e
      | .ok (n, s') => .ok ((n : Int), s'))
  | 0, size, offset, written, s, hcnt => rfl
  | fuel + 1, size, offset, written, s, hcnt => by
    rw [writeBufferLoop, inodeWriteLoop]
    by_cases hsize : size = 0
    · rw [if_neg (by omega), if_pos hsize]
      rfl
    rw [if_pos (by omega), if_neg hsize, Prog.run_bind, Prog.run_bind]
    cases hinode : (derefInode p).run s with
    | error e => rfl
    | ok x =>
      obtain ⟨inode, s₁⟩ := x
      dsimp only
      rw [chunkOff_natCast, byteToSectorOff_natCast]
      by_cases hchunk : chunkSize inode size offset ≤ 0
      · rw [if_pos hchunk, if_pos hchunk]
        rfl
      rw [if_neg hchunk, if_neg hchunk]
      have hmod : ((offset : Int).tmod DISK_SECTOR_SIZE).toNat = offset % DISK_SECTOR_SIZE := by
        rw [← Int.ofNat_tmod, Int.toNat_natCast]
      have hle : chunkSize inode size offset ≤ size := by
        unfold chunkSize
        dsimp only
        split <;> omega
      have hsub : (size : Int) - chunkSize inode size offset =
          ((size - (chunkSize inode size offset).toNat : Nat) : Int) := by
        omega
      have hadd : (offset : Int) + chunkSize inode size offset =
          ((offset + (chunkSize inode size offset).toNat : Nat) : Int) := by
        omega
      rw [hmod, hsub, hadd, bufferBytes_chunk buffer (by omega), Prog.run_bind, Prog.run_bind]
      cases (writeChunk (byteToSector inode offset) (offset % DISK_SECTOR_SIZE)
          (chunkSize inode size offset).toNat fun _ =>
            (List.range (chunkSize inode size offset).toNat).map fun k => buffer (written + k)).run s₁ with
      | error e => rfl
      | ok y => exact run_writeBufferLoop buffer fuel _ _ _ (by omega)

end

end Pintos
