import Mathlib.Order.Nat
import Pintos.Filesys.Directory

/-!
# What calls of the file system change, and how they fail

* `SameHandles` — reading, writing and seeking change the bytes of the disk and positions
* `Plain` — only a negative size or position fails an assertion about an argument
* `wp_filesysCreate` — `inode_create` is asked for a size only where a sector is free
-/

namespace Pintos

open Function LittleEndian

/-- Any fault. -/
abbrev Any {ε : Type} : ε → Prop := fun _ => True

/-- The file system without the bytes of the disk and the positions of files. -/
def FileSys.handles (s : FileSys) : FileSys :=
  { s with disk := fun _ _ => 0, files := fun f => (s.files f).map fun file => { file with pos := 0 } }

def SameHandles (s s' : FileSys) : Prop := s'.handles = s.handles

theorem SameHandles.refl (s : FileSys) : SameHandles s s := rfl

theorem SameHandles.trans (s s₁ s' : FileSys) (h : SameHandles s s₁) (h' : SameHandles s₁ s') :
    SameHandles s s' := Eq.trans h' h

/-- No assertion about an argument. -/
def FsFault.Plain (e : FsFault) : Prop := e ≠ .argument

section

variable {f : FilePtr} {p : InodePtr} {size offset : Nat}

theorem does_derefFile : (derefFile f).Does SameHandles FsFault.Plain := by
  refine .read .refl fun s e h => ?_
  split at h
  · cases h
    exact nofun
  · cases h

theorem does_derefInode : (derefInode p).Does SameHandles FsFault.Plain := by
  refine .read .refl fun s e h => ?_
  split at h
  · cases h
    exact nofun
  · cases h

/-- A read of the disk that only returns something. -/
theorem does_diskRead {α : Type} {sector : Nat} (g : FileSys → Sector → α) :
    (diskRead sector fun s bytes => .ok (g s bytes, s)).Does SameHandles FsFault.Plain := by
  refine .lift (fun s a s' h => ?_) (fun s e h => ?_)
  · split at h
    · cases h
      exact .refl _
    · cases h
  · split at h
    · cases h
    · cases h
      exact nofun

theorem does_diskWrite {sector : Nat} {bytes : FileSys → Sector} :
    (diskWrite sector bytes).Does SameHandles FsFault.Plain := by
  refine .lift (fun s a s' h => ?_) (fun s e h => ?_)
  · split at h
    · cases h
      exact .refl _
    · cases h
  · split at h
    · cases h
    · cases h
      exact nofun

theorem does_fsRead {α : Type} (g : FileSys → α) :
    (Prog.read fun s => .ok (g s) : FsProg α).Does SameHandles FsFault.Plain :=
  .read .refl fun _ _ h => by cases h

theorem does_readChunk {sectorIdx sectorOfs chunk : Nat} :
    (readChunk sectorIdx sectorOfs chunk).Does SameHandles FsFault.Plain := by
  unfold readChunk
  split
  · exact does_diskRead fun _ sector => sectorBytes sector 0 DISK_SECTOR_SIZE
  · exact does_diskRead fun _ bounce => sectorBytes bounce sectorOfs chunk

theorem does_writeChunk {sectorIdx sectorOfs chunk : Nat} {buffer : FileSys → List Byte} :
    (writeChunk sectorIdx sectorOfs chunk buffer).Does SameHandles FsFault.Plain := by
  unfold writeChunk
  split
  · exact does_diskWrite
  · split
    · exact (does_diskRead fun s bounce => splice bounce sectorOfs (buffer s)).bind fun _ => does_diskWrite
    · exact (does_fsRead fun s => splice (fun _ => 0) sectorOfs (buffer s)).bind fun _ => does_diskWrite

theorem does_inodeReadAt : (inodeReadAt p size offset).Does SameHandles FsFault.Plain := by
  suffices h : ∀ fuel size offset, (inodeReadLoop p fuel size offset).Does SameHandles FsFault.Plain from
    h _ _ _
  intro fuel
  induction fuel with
  | zero => exact fun _ _ => .pure _
  | succ fuel ih =>
    intro size offset
    unfold inodeReadLoop
    split
    · exact .pure _
    · refine does_derefInode.bind fun inode => ?_
      dsimp only
      split
      · exact .pure _
      · exact does_readChunk.bind fun _ => (ih _ _).bind fun _ => .pure _

theorem does_inodeWriteAt {buffer : FileSys → List Byte} :
    (inodeWriteAt p buffer size offset).Does SameHandles FsFault.Plain := by
  have hloop : ∀ fuel size offset written,
      (inodeWriteLoop p buffer fuel size offset written).Does SameHandles FsFault.Plain := by
    intro fuel
    induction fuel with
    | zero => exact fun _ _ _ => .pure _
    | succ fuel ih =>
      intro size offset written
      unfold inodeWriteLoop
      split
      · exact .pure _
      · refine does_derefInode.bind fun inode => ?_
        dsimp only
        split
        · exact .pure _
        · exact does_writeChunk.bind fun _ => ih _ _ _
  unfold inodeWriteAt
  refine does_derefInode.bind fun inode => ?_
  split
  · exact .pure _
  · exact hloop _ _ _ _

/-- A change of a file that only moves its position. -/
theorem sameHandles_setPos {s : FileSys} {file : File} (hf : s.files f = some file) (pos : Nat) :
    SameHandles s (s.setFile f (some { file with pos := pos })) := by
  have hfiles : (fun g => (update s.files f (some { file with pos := pos }) g).map
      fun file => ({ file with pos := 0 } : File)) =
      fun g => (s.files g).map fun file => { file with pos := 0 } := by
    funext g
    by_cases hg : g = f
    · subst hg
      rw [update_self, hf]
      rfl
    · rw [update_of_ne hg]
  unfold SameHandles FileSys.handles FileSys.setFile
  simp only [hfiles]

theorem does_advance {n : Nat} : (advance f n).Does SameHandles FsFault.Plain := by
  refine .write (fun s s' h => ?_) (fun s e h => ?_)
  · split at h
    · cases h
    · next hf =>
      cases h
      exact sameHandles_setPos hf _
  · split at h
    · cases h
      exact nofun
    · cases h

theorem does_fileRead : (fileRead f size).Does SameHandles FsFault.Plain :=
  does_derefFile.bind fun _ => does_inodeReadAt.bind fun _ => does_advance.bind fun _ => .pure _

theorem does_fileWrite {buffer : List Byte} : (fileWrite f buffer).Does SameHandles FsFault.Plain :=
  does_derefFile.bind fun _ => does_inodeWriteAt.bind fun _ => does_advance.bind fun _ => .pure _

theorem does_fileWriteAt {buffer : FileSys → List Byte} :
    (fileWriteAt f buffer size offset).Does SameHandles FsFault.Plain :=
  does_derefFile.bind fun _ => does_inodeWriteAt

theorem does_fileLength : (fileLength f).Does SameHandles FsFault.Plain :=
  does_derefFile.bind fun _ => does_derefInode.bind fun _ => .pure _

/-- Only a negative position fails. -/
theorem does_fileSeek {newPos : Int} : (fileSeek f newPos).Does SameHandles fun e => newPos < 0 ∨ e.Plain := by
  unfold fileSeek
  split
  · next hneg => exact .fail (.inl hneg)
  · refine .write (fun s s' h => ?_) (fun s e h => ?_)
    · split at h
      · cases h
      · next hf =>
        cases h
        exact sameHandles_setPos hf _
    · split at h
      · cases h
        exact .inr nofun
      · cases h

end

/-! ## Opening and creating -/

/-- An inode in memory stays where it is on the disk. -/
structure Steady (s s' : FileSys) : Prop where
  brk : s.brk ≤ s'.brk
  sectors : ∀ p < s.brk, ∀ i', s'.inodes p = some i' → ∃ i, s.inodes p = some i ∧ i.sector = i'.sector

section

variable {s s' : FileSys} {f : FilePtr} {p : InodePtr} {sector : Nat} {dir : Dir} {name : CStr}

theorem Steady.refl (s : FileSys) : Steady s s := ⟨le_rfl, fun _ _ i h => ⟨i, h, rfl⟩⟩

theorem Steady.trans (s s₁ s' : FileSys) (h : Steady s s₁) (h' : Steady s₁ s') : Steady s s' := by
  refine ⟨h.brk.trans h'.brk, fun p hp i' hi' => ?_⟩
  obtain ⟨i₁, hi₁, he₁⟩ := h'.sectors p (hp.trans_le h.brk) i' hi'
  obtain ⟨i, hi, he⟩ := h.sectors p hp i₁ hi₁
  exact ⟨i, hi, he.trans he₁⟩

theorem Steady.same (hi : s'.inodes = s.inodes) (hb : s.brk ≤ s'.brk) : Steady s s' :=
  ⟨hb, fun _ _ i h => ⟨i, by rwa [hi] at h, rfl⟩⟩

/-- An inode is changed, but for its sector. -/
theorem Steady.setInode {i i' : Inode} (hp : s.inodes p = some i) (hs : i.sector = i'.sector) :
    Steady s (s.setInode p (some i')) := by
  refine ⟨le_rfl, fun q _ j hj => ?_⟩
  have hj : update s.inodes p (some i') q = some j := hj
  by_cases hq : q = p
  · subst hq
    rw [update_self] at hj
    cases hj
    exact ⟨i, hp, hs⟩
  · rw [update_of_ne hq] at hj
    exact ⟨j, hj, rfl⟩

theorem Steady.freeInode (s : FileSys) (p : InodePtr) : Steady s (s.setInode p none) := by
  refine ⟨le_rfl, fun q _ j hj => ?_⟩
  have hj : update s.inodes p none q = some j := hj
  by_cases hq : q = p
  · subst hq
    rw [update_self] at hj
    cases hj
  · rw [update_of_ne hq] at hj
    exact ⟨j, hj, rfl⟩

/-- A new inode. -/
theorem Steady.newInode (h : s'.inodes = update s.inodes s.brk (some i)) (hb : s.brk ≤ s'.brk) : Steady s s' := by
  refine ⟨hb, fun q hq j hj => ?_⟩
  rw [h, update_of_ne hq.ne] at hj
  exact ⟨j, hj, rfl⟩

theorem SameHandles.steady (h : SameHandles s s') : Steady s s' := by
  have hi : s'.handles.inodes = s.handles.inodes := by rw [h]
  have hb : s'.handles.brk = s.handles.brk := by rw [h]
  have hb : s'.brk = s.brk := hb
  exact .same hi hb.ge

theorem steady {α : Type} {p : FsProg α} {E : FsFault → Prop} (h : p.Does SameHandles E) :
    p.Does Steady E := h.mono (fun _ _ h => h.steady) fun _ h => h

theorem does_fsWrite {g : FileSys → Except FsFault FileSys} (h : ∀ s s', g s = .ok s' → Steady s s')
    (hg : ∀ s e, g s = .error e → e.Plain) : (Prog.write g).Does Steady FsFault.Plain := .write h hg

theorem does_bitmapWrite {b : FileSys → WordBitmap} : (bitmapWrite b f).Does Steady FsFault.Plain :=
  steady ((does_fsRead fun s => byteCnt (b s).bitCnt).bind fun _ => does_fileWriteAt.bind fun _ => .pure _)

theorem does_setFreeMap {g : FileSys → WordBitmap} : (setFreeMap g).Does Steady FsFault.Plain := by
  refine does_fsWrite (fun s s' h => ?_) fun _ _ h => by cases h
  cases h
  exact .same rfl le_rfl

theorem does_freeMapAllocate {cnt : Nat} : (freeMapAllocate cnt).Does Steady FsFault.Plain := by
  refine .bind (.lift (fun s a s' h => ?_) fun s e h => by cases h) fun found => ?_
  · cases h
    exact .same rfl le_rfl
  · cases found with
    | none => exact .pure _
    | some sector =>
      refine (steady (does_fsRead fun s => s.freeMapFile)).bind fun file => ?_
      cases file with
      | none => exact .pure _
      | some f =>
        refine does_bitmapWrite.bind fun success => ?_
        split
        · exact .pure _
        · exact does_setFreeMap.bind fun _ => .pure _

theorem does_freeMapRelease {cnt : Nat} : (freeMapRelease sector cnt).Does Steady FsFault.Plain := by
  refine .bind (does_fsWrite (fun s s' h => ?_) fun s e h => ?_) fun _ =>
    (steady (does_fsRead fun s => s.freeMapFile)).bind fun file => ?_
  · split at h
    · cases h
      exact .same rfl le_rfl
    · cases h
  · split at h
    · cases h
    · cases h
      exact nofun
  · cases file with
    | none => exact .fail nofun
    | some f => exact does_bitmapWrite.bind fun _ => .pure _

theorem does_writeZeros {start k : Nat} : ∀ i, (writeZeros start i k).Does Steady FsFault.Plain := by
  induction k with
  | zero => exact fun _ => .pure _
  | succ k ih => exact fun i => (steady does_diskWrite).bind fun _ => ih (i + 1)

theorem does_inodeCreate {length : Int} (h : 0 ≤ length) :
    (inodeCreate sector length).Does Steady FsFault.Plain := by
  unfold inodeCreate
  rw [if_neg (by omega)]
  refine does_freeMapAllocate.bind fun start => ?_
  cases start with
  | none => exact .pure _
  | some start =>
    exact (steady does_diskWrite).bind fun _ => (does_writeZeros 0).bind fun _ => .pure _

theorem does_inodeReopen : (inodeReopen p).Does Steady FsFault.Plain := by
  refine .lift (fun s a s' h => ?_) fun s e h => ?_
  · split at h
    · cases h
    · next hp =>
      cases h
      exact .setInode hp rfl
  · split at h
    · cases h
      exact nofun
    · cases h

theorem does_inodeCloseCount : (inodeCloseCount p).Does Steady FsFault.Plain := by
  refine .lift (fun s a s' h => ?_) fun s e h => ?_
  · split at h
    · cases h
    · next inode hp =>
      cases h
      have hset : Steady s (s.setInode p (some { inode with openCnt := inode.openCnt - 1 })) := .setInode hp rfl
      split
      · exact .trans _ _ _ hset (.same rfl le_rfl)
      · exact hset
  · split at h
    · cases h
      exact nofun
    · cases h

theorem does_freeInode : (freeInode p).Does Steady FsFault.Plain := by
  refine does_fsWrite (fun s s' h => ?_) fun _ _ h => by cases h
  cases h
  exact .freeInode s p

theorem does_inodeClose {p : Option InodePtr} : (inodeClose p).Does Steady FsFault.Plain := by
  cases p with
  | none => exact .pure _
  | some p =>
    refine does_inodeCloseCount.bind fun inode => ?_
    split
    · split
      · exact does_freeMapRelease.bind fun _ => does_freeMapRelease.bind fun _ => does_freeInode
      · exact does_freeInode
    · exact .pure _

/-- A change of an inode, but for its sector. -/
theorem does_updateInode {g : Inode → Except FsFault Inode} (hs : ∀ i i', g i = .ok i' → i.sector = i'.sector)
    (hg : ∀ inode e, g inode = .error e → e.Plain) : (updateInode p g).Does Steady FsFault.Plain := by
  refine does_fsWrite (fun s s' h => ?_) fun s e h => ?_
  · split at h
    · cases h
    · next hp =>
      split at h
      · cases h
      · next hi =>
        cases h
        exact .setInode hp (hs _ _ hi)
  · split at h
    · cases h
      exact nofun
    · split at h
      · next he =>
        cases h
        exact hg _ _ he
      · cases h

theorem does_updateFile {g : File → File} : (updateFile f g).Does Steady FsFault.Plain := by
  refine does_fsWrite (fun s s' h => ?_) fun s e h => ?_
  · split at h
    · cases h
    · cases h
      exact .same rfl le_rfl
  · split at h
    · cases h
      exact nofun
    · cases h

theorem does_fileOpen {p : Option InodePtr} {alloc : Bool} : (fileOpen p alloc).Does Steady FsFault.Plain := by
  unfold fileOpen
  split
  · refine .lift (fun s a s' h => ?_) fun s e h => by cases h
    cases h
    exact .same rfl (Nat.le_succ _)
  · exact does_inodeClose.bind fun _ => .pure _

theorem does_fileReopen {alloc : Bool} : (fileReopen f alloc).Does Steady FsFault.Plain :=
  (steady does_derefFile).bind fun _ => does_inodeReopen.bind fun _ => does_fileOpen

theorem does_fileAllowWrite : (fileAllowWrite f).Does Steady FsFault.Plain := by
  refine (steady does_derefFile).bind fun file => ?_
  split
  · refine does_updateFile.bind fun _ => does_updateInode (fun i i' h => ?_) fun inode e h => ?_
    · split at h
      · cases h
        rfl
      · cases h
    · split at h
      · cases h
      · cases h
        exact nofun
  · exact .pure _

theorem does_fileDenyWrite : (fileDenyWrite f).Does Steady FsFault.Plain := by
  refine (steady does_derefFile).bind fun file => ?_
  split
  · exact .pure _
  · refine does_updateFile.bind fun _ => does_updateInode (fun i i' h => ?_) fun inode e h => ?_
    · dsimp only at h
      split at h
      · cases h
        rfl
      · cases h
    · dsimp only at h
      split at h
      · cases h
      · cases h
        exact nofun

theorem does_fileClose {f : Option FilePtr} : (fileClose f).Does Steady FsFault.Plain := by
  cases f with
  | none => exact .pure _
  | some f =>
    refine does_fileAllowWrite.bind fun _ => (steady does_derefFile).bind fun _ => does_inodeClose.bind fun _ => ?_
    refine does_fsWrite (fun s s' h => ?_) fun s e h => by cases h
    cases h
    exact .same rfl le_rfl

theorem does_fileDuplicate {alloc : Bool} : (fileDuplicate f alloc).Does Steady FsFault.Plain := by
  refine (steady does_derefFile).bind fun file => does_inodeReopen.bind fun p => does_fileOpen.bind fun nfile => ?_
  cases nfile with
  | none => exact .pure _
  | some nf =>
    refine (steady does_derefFile).bind fun file => does_updateFile.bind fun _ => ?_
    split
    · exact does_fileDenyWrite.bind fun _ => .pure _
    · exact .pure _

theorem does_fileTell : (fileTell f).Does SameHandles FsFault.Plain := does_derefFile.bind fun _ => .pure _

/-! ## Directories -/

/-- What the free map tells stays, too. -/
def SameMap (s s' : FileSys) : Prop := s'.freeMap = s.freeMap ∧ Steady s s'

theorem does_inodeOpen : (inodeOpen sector true).Does SameMap FsFault.Plain := by
  refine .bind (.lift (fun s a s' h => ?_) (fun s e h => ?_)) fun found => ?_
  · dsimp only at h
    split at h
    · split at h
      · cases h
      · next hp =>
        cases h
        exact ⟨rfl, .setInode hp rfl⟩
    · cases h
      exact ⟨rfl, .newInode rfl (Nat.le_succ _)⟩
  · dsimp only at h
    split at h
    · split at h
      · cases h
        exact nofun
      · cases h
    · cases h
  · cases found with
    | none => exact .pure _
    | some found =>
      obtain ⟨p, isNew⟩ := found
      dsimp only
      split
      · refine .lift (fun s a s' h => ?_) (fun s e h => ?_)
        · dsimp only at h
          split at h
          · split at h
            · cases h
            · next hp =>
              cases h
              exact ⟨rfl, .setInode hp rfl⟩
          · cases h
        · dsimp only at h
          split at h
          · split at h
            · cases h
              exact nofun
            · cases h
          · cases h
            exact nofun
      · exact .pure _

theorem does_dirOpenRoot : dirOpenRoot.Does SameMap FsFault.Plain := by
  refine does_inodeOpen.bind fun inode => ?_
  cases inode with
  | none => exact .pure _
  | some p => exact .pure _

theorem sameMap_steady {α : Type} {p : FsProg α} (h : p.Does SameMap FsFault.Plain) :
    p.Does Steady FsFault.Plain := h.mono (fun _ _ h => h.2) fun _ h => h

theorem does_dirClose {dir : Option Dir} : (dirClose dir).Does Steady FsFault.Plain := by
  cases dir with
  | none => exact .pure _
  | some dir => exact (does_inodeClose : (inodeClose (some dir.inode)).Does _ _)

theorem does_lookup : (lookup dir name).Does SameHandles FsFault.Plain := by
  have hloop : ∀ fuel ofs, (lookupLoop dir name fuel ofs).Does SameHandles FsFault.Plain := by
    intro fuel
    induction fuel with
    | zero => exact fun _ => .pure _
    | succ fuel ih =>
      intro ofs
      refine does_inodeReadAt.bind fun bytes => ?_
      split
      · dsimp only
        split
        · exact .pure _
        · exact ih _
      · exact .pure _
  exact hloop _ _

theorem does_dirLookup : (dirLookup dir name).Does Steady FsFault.Plain := by
  refine (steady does_lookup).bind fun found => ?_
  cases found with
  | none => exact .pure _
  | some found => exact sameMap_steady does_inodeOpen

theorem does_freeSlotLoop (fuel : Nat) :
    ∀ e ofs, (freeSlotLoop dir fuel e ofs).Does SameHandles FsFault.Plain := by
  induction fuel with
  | zero => exact fun _ _ => .pure _
  | succ fuel ih =>
    intro e ofs
    refine does_inodeReadAt.bind fun bytes => ?_
    dsimp only
    split
    · split
      · exact ih _ _
      · exact .pure _
    · exact .pure _

theorem does_dirAdd : (dirAdd dir name sector).Does Steady FsFault.Plain := by
  unfold dirAdd
  split
  · exact .pure _
  · refine (steady does_lookup).bind fun found => ?_
    cases found with
    | some found => exact .pure _
    | none =>
      exact (steady (does_fsRead fun s => s.stack)).bind fun e =>
        (steady (does_freeSlotLoop _ _ _)).bind fun _ => (steady does_inodeWriteAt).bind fun _ => .pure _

/-! ## `filesys/filesys.c` -/

theorem does_filesysOpen : (filesysOpen name).Does Steady FsFault.Plain := by
  refine (sameMap_steady does_dirOpenRoot).bind fun dir => ?_
  cases dir with
  | none => exact does_fileOpen
  | some d => exact does_dirLookup.bind fun inode => does_dirClose.bind fun _ => does_fileOpen

theorem does_createAt {size : Int} (h : 0 ≤ size) : (createAt dir name size sector).Does Steady FsFault.Plain := by
  refine (does_inodeCreate h).bind fun created => ?_
  split
  · exact does_dirAdd
  · exact .pure _

/-- What `filesys_create` does once there is a sector. -/
theorem does_created {success : Bool} :
    (if success = false ∧ sector ≠ 0 then do
        freeMapRelease sector 1
        dirClose (some dir)
        pure success
      else do
        dirClose (some dir)
        pure success : FsProg Bool).Does Steady FsFault.Plain := by
  split
  · exact does_freeMapRelease.bind fun _ => does_dirClose.bind fun _ => .pure _
  · exact does_dirClose.bind fun _ => .pure _

/-- No sector is free. -/
def FileSys.Full (s : FileSys) : Prop := (s.freeMap.scanAndFlip 0 1 false).1 = none

/-- A negative size is an error only if a sector is free. -/
theorem wp_filesysCreate {s : FileSys} {size : Int} (h : 0 ≤ size ∨ s.Full) :
    (filesysCreate name size).wp (Steady s) FsFault.Plain (fun _ => Steady s) s := by
  refine Prog.wp_bind <| Prog.wp_mono (fun _ h => h.2) (fun _ he => he) ?_
    (does_dirOpenRoot.wp (fun _ _ _ h h' => ⟨h'.1.trans h.1, .trans _ _ _ h.2 h'.2⟩) ⟨rfl, .refl s⟩)
  intro dir s₁ hmap
  have h₁ : Steady s s₁ := hmap.2
  cases dir with
  | none => exact Prog.wp_pure h₁ h₁
  | some dir =>
    rcases h with h | hfull
    · refine Prog.Does.wp ?_ .trans h₁
      refine does_freeMapAllocate.bind fun allocated => ?_
      cases allocated with
      | none => exact does_dirClose.bind fun _ => .pure _
      | some sector => exact (does_createAt h).bind fun success => does_created
    · have hscan : (s₁.freeMap.scanAndFlip 0 1 false).1 = none := by
        rw [hmap.1]
        exact hfull
      refine Prog.wp_bind <| Prog.wp_bind <| Prog.wp_lift h₁ (fun e he => by cases he) fun found s₂ hs₂ => ?_
      rcases hsf : s₁.freeMap.scanAndFlip 0 1 false with ⟨found', map⟩
      rw [hsf] at hscan hs₂
      cases hscan
      cases hs₂
      have h₂ : Steady s { s₁ with freeMap := map } := .trans _ _ _ h₁ (.same rfl le_rfl)
      refine ⟨h₂, Prog.wp_pure h₂ ?_⟩
      exact (Prog.Does.bind does_dirClose fun _ => .pure _ : Prog.Does Steady FsFault.Plain _).wp .trans h₂

end

end Pintos
