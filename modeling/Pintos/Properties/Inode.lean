import Pintos.Properties.FreeMap

/-!
# Making and opening inodes

What `inode_create` and `inode_open` do to the disk and to the list of open inodes.

* `inodeCreate_some` — the sectors of a new file: its inode and zeros
* `inodeOpen_spec` — an inode that is open is used again, another one is read
-/

namespace Pintos

open Function LittleEndian

variable {s s' s₁ : FileSys} {p : InodePtr} {d : InodeDisk} {disk : Nat → Sector}
  {sector start cnt i : Nat} {length : Int} {q : InodePtr} {inode : Inode}

/-! ## `bytes_to_sectors` -/

theorem bytesToSectors_eq (h0 : 0 ≤ length) (h : length + 511 < 2 ^ 31) :
    bytesToSectors length = (length.toNat + 511) / 512 := by
  have hw : wrap32 (length + 511) = length + 511 := toInt32_ofInt32 (by omega) h
  rw [bytesToSectors, hw, Int.tdiv_eq_ediv_of_nonneg (by omega)]
  omega

/-- Where the sum overflows the number of sectors is not one that any disk has. -/
theorem bytesToSectors_overflow (h : 2 ^ 31 ≤ length + 511) (hlt : length < 2 ^ 31) :
    2 ^ 32 ≤ bytesToSectors length := by
  have hw : wrap32 (length + 511) = length + 511 - 2 ^ 32 := by
    unfold wrap32 toInt32 ofInt32
    rw [Int.emod_eq_of_lt (by omega) (by omega)]
    split <;> omega
  have hdiv : (length + 511 - 2 ^ 32).tdiv 512 = -((2 ^ 32 - (length + 511)) / 512) := by
    have hneg : length + 511 - 2 ^ 32 = -(2 ^ 32 - (length + 511)) := by omega
    rw [hneg, Int.neg_tdiv, Int.tdiv_eq_ediv_of_nonneg (by omega)]
  rw [bytesToSectors, hw, hdiv]
  omega

/-- A size whose sectors a disk can have. -/
theorem sectors_eq (h0 : 0 ≤ length) (hlt : length < 2 ^ 31) (h : bytesToSectors length < 2 ^ 32)
    (start : Nat) :
    length + 511 < 2 ^ 31 ∧ bytesToSectors length = (InodeDisk.mk start length).sectors := by
  have hsmall : length + 511 < 2 ^ 31 := by
    by_contra hc
    have := bytesToSectors_overflow (by omega) hlt
    omega
  exact ⟨hsmall, bytesToSectors_eq h0 hsmall⟩

theorem bytesToSectors_pos (h0 : 0 < length) (hlt : length < 2 ^ 31) : 0 < bytesToSectors length := by
  by_cases hsmall : length + 511 < 2 ^ 31
  · rw [bytesToSectors_eq (by omega) hsmall]
    omega
  · have := bytesToSectors_overflow (by omega) hlt
    omega

/-! ## `inode_create` -/

/-- The disk after zeros are written to the sectors. -/
def zeroed (disk : Nat → Sector) (start cnt : Nat) : Nat → Sector := fun sec =>
  if start ≤ sec ∧ sec < start + cnt then fun _ => 0 else disk sec

theorem writeZeros_spec : ∀ (k i : Nat) {s : FileSys},
    (∀ j, i ≤ j → j < i + k → s.Selects (start + j)) →
    (writeZeros start i k).run s = .ok ((), { s with disk := zeroed s.disk (start + i) k })
  | 0, i, s, _ => by
    have hnone : zeroed s.disk (start + i) 0 = s.disk := by
      funext sec
      unfold zeroed
      rw [if_neg (by omega)]
    rw [hnone]
    rfl
  | k + 1, i, s, h => by
    have hsel : s.Selects (start + i) := h i (Nat.le_refl i) (by omega)
    have hmod : (start + i) % 2 ^ 32 = start + i := Nat.mod_eq_of_lt (by have := hsel.2; omega)
    rw [writeZeros, hmod, Prog.run_bind_ok (run_diskWrite hsel),
      writeZeros_spec k (i + 1) (s := s.setSector (start + i) fun _ => 0)
        fun j hj hlt => h j (by omega) (by omega)]
    have hdisk : zeroed (update s.disk (start + i) fun _ => 0) (start + (i + 1)) k =
        zeroed s.disk (start + i) (k + 1) := by
      funext sec
      unfold zeroed
      by_cases hsec : sec = start + i
      · subst hsec
        rw [if_neg (by omega), update_self, if_pos (by omega)]
      · rw [update_of_ne hsec]
        by_cases hin : start + (i + 1) ≤ sec ∧ sec < start + (i + 1) + k
        · rw [if_pos hin, if_pos (by omega)]
        · rw [if_neg hin, if_neg (by omega)]
    rw [← hdisk]
    rfl

theorem inodeCreate_none (h0 : 0 ≤ length)
    (ha : (freeMapAllocate (bytesToSectors length)).run s = .ok (none, s₁)) :
    (inodeCreate sector length).run s = .ok (false, s₁) := by
  rw [inodeCreate, if_neg (by omega), Prog.run_bind_ok ha]
  rfl

/-- The disk after `inode_create`. -/
def created (disk : Nat → Sector) (sector : Nat) (d : InodeDisk) : Nat → Sector :=
  zeroed (update disk sector (sectorOf d.bytes)) d.start (bytesToSectors d.length)

/-- **`inode_create`** writes the inode and fills the data sectors with zeros. -/
theorem inodeCreate_some (h0 : 0 ≤ length)
    (ha : (freeMapAllocate (bytesToSectors length)).run s = .ok (some start, s₁))
    (hsel : s₁.Selects sector) (hdata : ∀ j, j < bytesToSectors length → s₁.Selects (start + j)) :
    (inodeCreate sector length).run s =
      .ok (true, { s₁ with disk := created s₁.disk sector { start := start, length := length } }) := by
  rw [inodeCreate, if_neg (by omega), Prog.run_bind_ok ha]
  simp only
  rw [Prog.run_bind_ok (run_diskWrite hsel),
    Prog.run_bind_ok (writeZeros_spec (bytesToSectors length) 0
      (s := s₁.setSector sector (sectorOf (InodeDisk.mk start length).bytes))
      fun j _ hj => hdata j (by omega))]
  rfl

theorem created_of_ne {sec : Nat} (hsec : sec ≠ sector)
    (hdata : sec < d.start ∨ d.start + bytesToSectors d.length ≤ sec) :
    created disk sector d sec = disk sec := by
  unfold created zeroed
  rw [if_neg (by omega), update_of_ne hsec]

theorem created_self (hdata : sector < d.start ∨ d.start + bytesToSectors d.length ≤ sector) :
    created disk sector d sector = sectorOf d.bytes := by
  unfold created zeroed
  rw [if_neg (by omega), update_self]

theorem created_data {sec : Nat} (hlo : d.start ≤ sec) (hhi : sec < d.start + bytesToSectors d.length) :
    created disk sector d sec = fun _ => 0 := by
  unfold created zeroed
  rw [if_pos ⟨hlo, hhi⟩]

/-! ## `inode_open` -/

/-- The state after an inode that is open is opened again. -/
def reopened (s : FileSys) (p : InodePtr) (inode : Inode) : FileSys :=
  s.setInode p (some { inode with openCnt := inode.openCnt + 1 })

/-- The inode that is read from a sector. -/
def loaded (s : FileSys) (sector : Nat) : Inode where
  sector := sector
  openCnt := 1
  removed := false
  denyWriteCnt := 0
  data := InodeDisk.ofSector (s.disk sector)

/-- The state after an inode is read from a sector. -/
def withLoaded (s : FileSys) (sector : Nat) : FileSys :=
  { s.setInode s.brk (some (loaded s sector)) with
    openInodes := s.brk :: s.openInodes
    brk := s.brk + 1 }

/-- **`inode_open`**: an inode that is open is used again. -/
theorem inodeOpen_spec (hsel : s.Selects sector) :
    (∃ p inode, s.findOpen sector s.openInodes = some p ∧ s.inodes p = some inode ∧
      inode.sector = sector ∧ (inodeOpen sector true).run s = .ok (some p, reopened s p inode)) ∨
    (s.findOpen sector s.openInodes = none ∧
      (inodeOpen sector true).run s = .ok (some s.brk, withLoaded s sector)) := by
  rw [inodeOpen, inodeOpenFind, Prog.run_bind, Prog.run_lift]
  cases hfind : s.findOpen sector s.openInodes with
  | some p =>
    obtain ⟨inode, hp, hsec⟩ := findOpen_some hfind
    refine Or.inl ⟨p, inode, rfl, hp, hsec, ?_⟩
    simp only [hp]
    rfl
  | none =>
    refine Or.inr ⟨rfl, ?_⟩
    have hsel' : FileSys.Selects { s.setInode s.brk (some
        { sector := sector, openCnt := 1, removed := false, denyWriteCnt := 0, data := s.block }) with
        openInodes := s.brk :: s.openInodes, brk := s.brk + 1 } sector := hsel
    simp only [if_true]
    rw [run_diskRead hsel']
    simp only [FileSys.setInode, update_self, update_idem]
    rfl

/-! ## Inodes in memory -/

/-- Only inodes in memory have changed. -/
structure SameStore (s s' : FileSys) : Prop where
  disk : s'.disk = s.disk
  capacity : s'.capacity = s.capacity
  freeMap : s'.freeMap = s.freeMap
  freeMapFile : s'.freeMapFile = s.freeMapFile
  files : s'.files = s.files
  stack : s'.stack = s.stack

theorem reopened_sameStore (s : FileSys) (p : InodePtr) (inode : Inode) :
    SameStore s (reopened s p inode) := ⟨rfl, rfl, rfl, rfl, rfl, rfl⟩

theorem withLoaded_sameStore (s : FileSys) (sector : Nat) : SameStore s (withLoaded s sector) :=
  ⟨rfl, rfl, rfl, rfl, rfl, rfl⟩

theorem closed_sameStore (s : FileSys) (p : InodePtr) (inode : Inode) :
    SameStore s (closed s p inode) := by
  unfold closed
  split <;> exact ⟨rfl, rfl, rfl, rfl, rfl, rfl⟩

/-- The inode of the map file is as it was. -/
theorem MapFile.sameStore (h : MapFile s p d) (hs : SameStore s s') (hp : s'.inodes p = s.inodes p) :
    MapFile s' p d where
  file := by
    rw [hs.freeMapFile, hs.files]
    exact h.file
  inode := by
    rw [hp]
    exact h.inode
  length := by
    rw [hs.freeMap]
    exact h.length
  onDisk := h.onDisk.congr hs.capacity
  ok := by
    rw [hs.freeMap]
    exact h.ok

/-! ## `inode_close` -/

/-- One reference of several is given back. -/
theorem run_inodeClose_kept (hq : s.inodes q = some inode) (hopen : inode.openCnt ≠ 1) :
    (inodeClose (some q)).run s =
      .ok ((), s.setInode q (some { inode with openCnt := inode.openCnt - 1 })) := by
  have hz : inode.openCnt - 1 ≠ 0 := by omega
  rw [inodeClose, inodeCloseCount, Prog.run_bind, Prog.run_lift, hq]
  simp only [hz, if_false]
  rfl

/-- The sectors of an inode can be given back. -/
structure Releasable (bits : Bitmap) (sector : Nat) (d : InodeDisk) : Prop where
  inode : bits[sector]? = some true
  le : d.start + bytesToSectors d.length ≤ bits.length
  data : ∀ i, d.start ≤ i → i < d.start + bytesToSectors d.length → bits[i]? = some true ∧ i ≠ sector

/-- The free map after the sectors of an inode are given back. -/
def released (bits : Bitmap) (sector : Nat) (d : InodeDisk) : Bitmap :=
  bitmapSetMultiple (bitmapSetMultiple bits sector 1 false) d.start (bytesToSectors d.length) false

/-- The state without the inode `q`. -/
def withoutInode (s : FileSys) (q : InodePtr) : FileSys :=
  { s with
    inodes := update s.inodes q none
    openInodes := s.openInodes.erase q }

/-- **`inode_close`** by the last opener of a removed file gives its sectors back. -/
theorem run_inodeClose_removed (hm : MapFile s p d) (hq : s.inodes q = some inode) (hqp : p ≠ q)
    (hremoved : inode.removed = true) (hopen : inode.openCnt = 1)
    (hr : Releasable s.freeMap.bits inode.sector inode.data) :
    ∃ s', (inodeClose (some q)).run s = .ok ((), s') ∧
      MapIs (withoutInode s q) s' d (released s.freeMap.bits inode.sector inode.data) ∧
      SameOn (fun sec => ¬ d.Has sec) s'.disk s.disk := by
  have hz : inode.openCnt - 1 = 0 := by omega
  -- the state when the blocks are released
  generalize hs₁ : ({ s with
    inodes := update s.inodes q (some { inode with openCnt := inode.openCnt - 1 })
    openInodes := s.openInodes.erase q } : FileSys) = s₁
  have hcount : (inodeCloseCount q).run s = .ok ({ inode with openCnt := inode.openCnt - 1 }, s₁) := by
    rw [inodeCloseCount, Prog.run_lift, hq, ← hs₁]
    simp only [hz, if_true]
    rfl
  have hbits₁ : s₁.freeMap = s.freeMap := by rw [← hs₁]
  have hm₁ : MapFile s₁ p d := by
    rw [← hs₁]
    exact hm.sameStore ⟨rfl, rfl, rfl, rfl, rfl, rfl⟩ (update_of_ne hqp _ _)
  obtain ⟨hlt, -⟩ := List.getElem?_eq_some_iff.mp hr.inode
  rw [WordBitmap.length_bits] at hlt
  obtain ⟨s₂, hrun₂, hmap₂, hdisk₂⟩ := hm₁.release (a := inode.sector) (n := 1) (by rw [hbits₁]; omega)
    fun i hlo hhi => by
      have hi : i = inode.sector := by omega
      rw [hi, hbits₁, hr.inode]
  rw [hbits₁] at hmap₂
  have hle := hr.le
  rw [WordBitmap.length_bits] at hle
  obtain ⟨s₃, hrun₃, hmap₃, hdisk₃⟩ := (hmap₂.mapFile hm₁).release (a := inode.data.start)
    (n := bytesToSectors inode.data.length) (by rw [hmap₂.bitCnt, hbits₁]; exact hle)
    fun i hlo hhi => by
      obtain ⟨hused, hne⟩ := hr.data i hlo hhi
      rw [hmap₂.memory, getElem?_bitmapSetMultiple, if_neg (by omega), hused]
  rw [hmap₂.memory] at hmap₃
  have hmap := hmap₂.trans hmap₃
  refine ⟨s₃.setInode q none, ?_, ⟨?_, hmap.ok, ?_, hmap.memory, ?_⟩, ?_⟩
  · rw [inodeClose, Prog.run_bind_ok hcount]
    simp only [hz, if_true, hremoved]
    rw [Prog.run_bind_ok hrun₂, Prog.run_bind_ok hrun₃]
    rfl
  · rw [hmap.frame, ← hs₁]
    simp only [FileSys.setInode, withoutInode, update_idem]
  · show s₃.freeMap.bitCnt = s.freeMap.bitCnt
    rw [hmap.bitCnt, hbits₁]
  · exact hmap.stored
  · have hdisk := hdisk₃.trans hdisk₂
    rw [← hs₁] at hdisk
    exact hdisk

end Pintos
