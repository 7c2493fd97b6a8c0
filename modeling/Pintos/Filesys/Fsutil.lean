import Pintos.Filesys.Directory

/-!
# Copying from and to the scratch disk

`fsutil_put` and `fsutil_get` of `filesys/fsutil.c`. The scratch disk is there, and there is memory for the
buffer of a sector.

* `fsutilPut` — a file of the scratch disk becomes a file of the file system
* `fsutilGet` — a file of the file system is written to the scratch disk
-/

namespace Pintos

open LittleEndian

/-- The file system, the scratch disk, and the two static counters of `fsutil.c`. -/
structure Transfer where
  fs : FileSys
  /-- The disk `disk_get (1, 0)`. -/
  scratch : Nat → Sector
  scratchSize : Nat
  /-- `sector` of `fsutil_put`. -/
  putSector : Nat
  /-- `sector` of `fsutil_get`. -/
  getSector : Nat

/-- Before the first `put` and the first `get`. -/
def Transfer.start (fs : FileSys) (scratch : Nat → Sector) (scratchSize : Nat) : Transfer where
  fs := fs
  scratch := scratch
  scratchSize := scratchSize
  putSector := 0
  getSector := 0

abbrev FsutilProg := Prog FsFault Transfer

/-- A call of the file system. -/
def onFilesys {α : Type} (p : FsProg α) : FsutilProg α :=
  p.zoom Transfer.fs (fun t fs => { t with fs := fs }) id

/-- `disk_read (src, sector++, buffer)`. -/
def readScratch : FsutilProg Sector :=
  Prog.lift fun t =>
    if t.putSector < t.scratchSize ∧ t.putSector < 2 ^ 28 then
      .ok (t.scratch t.putSector, { t with putSector := (t.putSector + 1) % 2 ^ 32 })
    else .error .disk

/-- `disk_write (dst, sector++, buffer)`. -/
def writeScratch (buffer : Sector) : FsutilProg Unit :=
  Prog.write fun t =>
    if t.getSector < t.scratchSize ∧ t.getSector < 2 ^ 28 then
      .ok { t with
        scratch := Function.update t.scratch t.getSector buffer
        getSector := (t.getSector + 1) % 2 ^ 32 }
    else .error .disk

/-- `"PUT"` with its null. -/
def PUT : List Byte := [0x50, 0x55, 0x54, 0]

/-- `"GET"` with its null. -/
def GET : List Byte := [0x47, 0x45, 0x54, 0]

/-- `size > DISK_SECTOR_SIZE ? DISK_SECTOR_SIZE : size`. -/
def copySize (size : Nat) : Nat := if DISK_SECTOR_SIZE < size then DISK_SECTOR_SIZE else size

/-- The loop of `fsutil_put`. Each round copies a byte at least, so that `size` rounds are enough. -/
def putLoop (dst : FilePtr) : Nat → Nat → FsutilProg Unit
  | 0, _ => pure ()
  | fuel + 1, size =>
    if size = 0 then pure ()
    else do
      let buffer ← readScratch
      let written ← onFilesys (fileWrite dst (sectorBytes buffer 0 (copySize size)))
      if written ≠ copySize size then Prog.fail .assertion
      else putLoop dst fuel (size - copySize size)

def fsutilPut (fileName : CStr) : FsutilProg Unit := do
  let header ← readScratch
  if sectorBytes header 0 4 ≠ PUT then Prog.fail .assertion
  else
    let size := toInt32 (ofLe (sectorBytes header 4 4))
    if size < 0 then Prog.fail .assertion
    else do
      let created ← onFilesys (filesysCreate fileName size)
      if created then do
        let dst ← onFilesys (filesysOpen fileName)
        match dst with
        | none => Prog.fail .assertion
        | some f => do
          putLoop f size.toNat size.toNat
          onFilesys (fileClose (some f))
      else Prog.fail .assertion

/-- The loop of `fsutil_get`. -/
def getLoop (src : FilePtr) : Nat → Nat → FsutilProg Unit
  | 0, _ => pure ()
  | fuel + 1, size =>
    if size = 0 then pure ()
    else do
      Prog.read fun t => if t.scratchSize ≤ t.getSector then .error .assertion else .ok ()
      let bytes ← onFilesys (fileRead src (copySize size))
      if bytes.length ≠ copySize size then Prog.fail .assertion
      else do
        -- the rest of the buffer is set to zero
        writeScratch (sectorOf bytes)
        getLoop src fuel (size - copySize size)

def fsutilGet (fileName : CStr) : FsutilProg Unit := do
  let src ← onFilesys (filesysOpen fileName)
  match src with
  | none => Prog.fail .assertion
  | some f => do
    let size ← onFilesys (fileLength f)
    writeScratch (sectorOf (GET ++ leBytes 4 (ofInt32 size)))
    getLoop f size.toNat size.toNat
    onFilesys (fileClose (some f))

/-- `run_actions` with a `put` of each name. -/
def putAll : List CStr → FsutilProg Unit
  | [] => pure ()
  | name :: names => do
    fsutilPut name
    putAll names

/-- `run_actions` with a `get` of each name. -/
def getAll : List CStr → FsutilProg Unit
  | [] => pure ()
  | name :: names => do
    fsutilGet name
    getAll names

end Pintos
