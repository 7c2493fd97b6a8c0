import Pintos.Properties.DirectoryMap

/-!
# A file system at rest

Between two calls no file is open but that of the free map. The free map has a first part that is in use, and
the files are in it, each in sectors of its own.

* `Volume` — the file system between two calls, and its files
* `Volume.create` — a new file
* `Volume.filesysOpen` — a file is opened, with nothing else open
-/

namespace Pintos

open Function LittleEndian SlotMap

/-- The inode of the free map file, where it is open once. -/
def mapInode (capacity : Nat) : Inode :=
  { sector := FREE_MAP_SECTOR, openCnt := 1, removed := false, denyWriteCnt := 0, data := mapData capacity }

/-- No file is open but that of the free map. -/
structure AtRest (s : FileSys) (capacity : Nat) : Prop where
  freeMapFile : s.freeMapFile = some 3
  openInodes : s.openInodes = [2]
  inodes : s.inodes = update (fun _ => none) 2 (some (mapInode capacity))
  files : s.files = update (fun _ => none) 3 (some { inode := 2, pos := 0, denyWrite := false })
  brk : 4 ≤ s.brk

/-- A file: its name, the sector of its inode, what the inode holds, and the bytes of the file. -/
structure StoredFile where
  name : CStr
  sector : Nat
  data : InodeDisk
  bytes : List Byte

/-- The first sector that formatting leaves free. -/
def firstFree (capacity : Nat) : Nat := 3 + (mapData capacity).sectors

/-- The file is on the disk, before the sector `next`. -/
structure StoredFile.On (f : StoredFile) (disk : Nat → Sector) (capacity next : Nat) : Prop where
  length : f.data.length = f.bytes.length
  small : f.bytes.length < 2 ^ 31
  sector : firstFree capacity ≤ f.sector ∧ f.sector < next
  has : ∀ sec, f.data.Has sec → firstFree capacity ≤ sec ∧ sec < next
  end_le : f.data.start + f.data.sectors ≤ next
  inode : InodeDisk.ofSector (disk f.sector) = f.data
  bytes : fileBytes disk f.data.start 0 f.bytes.length = f.bytes

/-- The file system between two calls, with the sectors before `next` in use. -/
structure Volume (s : FileSys) (capacity next : Nat) (files : List StoredFile) : Prop where
  formattable : Formattable capacity
  addressable : capacity ≤ 2 ^ 28
  size : s.capacity = capacity
  rest : AtRest s capacity
  ok : s.freeMap.Ok
  bitCnt : s.freeMap.bitCnt = capacity
  bits : s.freeMap.bits = usedBelow capacity next
  stored : (storedMap s (mapData capacity)).bits = s.freeMap.bits
  lo : firstFree capacity ≤ next
  hi : next ≤ capacity
  rootSector : InodeDisk.ofSector (s.disk ROOT_DIR_SECTOR) = rootData capacity
  names : (keys (table s.disk (rootData capacity))).Perm (files.map (·.name.bytes))
  nodup : (files.map (·.name.bytes)).Nodup
  entry : ∀ f ∈ files, value (table s.disk (rootData capacity)) f.name.bytes = some f.sector
  kept : ∀ f ∈ files, f.On s.disk capacity next
  stack : s.stack.length = ENTRY_SIZE

variable {s s' s₁ : FileSys} {capacity next n pos : Nat} {files : List StoredFile} {f : StoredFile} {name : CStr}
  {disk disk' : Nat → Sector}

theorem AtRest.inodes_brk (h : AtRest s capacity) : s.inodes s.brk = none := by
  have hne : s.brk ≠ 2 := by
    have := h.brk
    omega
  rw [h.inodes, update_of_ne hne]

theorem AtRest.inode (h : AtRest s capacity) {q : InodePtr} {i : Inode} (hq : s.inodes q = some i) :
    q = 2 ∧ i = mapInode capacity := by
  rw [h.inodes] at hq
  by_cases h2 : q = 2
  · rw [h2, update_self, Option.some.injEq] at hq
    exact ⟨h2, hq.symm⟩
  · rw [update_of_ne h2] at hq
    cases hq

theorem StoredFile.On.mono (h : f.On disk capacity next) (hle : next ≤ n) : f.On disk capacity n where
  length := h.length
  small := h.small
  sector := ⟨h.sector.1, Nat.lt_of_lt_of_le h.sector.2 hle⟩
  has sec hsec := ⟨(h.has sec hsec).1, Nat.lt_of_lt_of_le (h.has sec hsec).2 hle⟩
  end_le := Nat.le_trans h.end_le hle
  inode := h.inode
  bytes := h.bytes

/-- Sectors of other files are written. -/
theorem StoredFile.On.congr (h : f.On disk capacity next)
    (hd : SameOn (fun sec => sec = f.sector ∨ f.data.Has sec) disk' disk) : f.On disk' capacity next where
  length := h.length
  small := h.small
  sector := h.sector
  has := h.has
  end_le := h.end_le
  inode := by
    rw [← h.inode]
    exact InodeDisk.ofSector_congr fun k hk => hd f.sector (Or.inl rfl) k hk
  bytes := by
    have hle : 0 + f.bytes.length ≤ f.data.length.toNat := by
      rw [h.length]
      omega
    rw [fileBytes_congr (hd.mono fun _ hc => Or.inr hc) hle]
    exact h.bytes

namespace Volume

theorem mapFile (h : Volume s capacity next files) : MapFile s 2 (mapData capacity) where
  file := ⟨3, _, h.rest.freeMapFile, by rw [h.rest.files, update_self], rfl⟩
  inode := ⟨mapInode capacity, by rw [h.rest.inodes, update_self], rfl, rfl, rfl⟩
  length := by
    rw [h.bitCnt]
    rfl
  onDisk := h.formattable.mapOnDisk h.size
  ok := h.ok

theorem rootOnDisk (h : Volume s capacity next files) : OnDisk s (rootData capacity) := by
  have hle := h.formattable.1
  refine onDisk_of_le (by rw [rootData_length]; decide) ?_ (h.size ▸ h.addressable)
  rw [rootData_sectors, rootData_start, h.size]
  omega

theorem ready (h : Volume s capacity next files) : Ready s 2 (mapData capacity) (rootData capacity) where
  map := h.mapFile
  stored := h.stored
  root := h.rootSector
  opened q i hq hsec := by
    obtain ⟨-, rfl⟩ := h.rest.inode hq
    exact absurd hsec Nat.zero_ne_one
  onDisk := h.rootOnDisk
  length := by
    rw [rootData_length]
    decide
  whole := by
    rw [rootData_length]
    decide
  bitCnt := h.bitCnt.trans h.size.symm
  capacity := h.size ▸ h.addressable
  used sec hsec := by
    have hlo := h.lo
    have hhi := h.hi
    have hlt : sec < firstFree capacity := by
      unfold firstFree
      rw [mapData_has, rootData_has] at hsec
      unfold FREE_MAP_SECTOR ROOT_DIR_SECTOR at hsec
      omega
    rw [h.bits, getElem?_usedBelow, if_pos (by omega), decide_eq_true (by omega)]
  apart sec hsec := by
    rw [mapData_has] at hsec
    rw [rootData_has]
    unfold ROOT_DIR_SECTOR
    omega
  fresh := h.rest.inodes_brk
  stack := h.stack

theorem selects (h : Volume s capacity next files) {sec : Nat} (hsec : sec < next) : s.Selects sec := by
  have hhi := h.hi
  have hcap := h.addressable
  exact ⟨by rw [h.size]; omega, by omega⟩

/-- No inode is open on the sector of another file than the free map. -/
theorem findOpen (h : Volume s capacity next files) {sec : Nat} (hsec : sec ≠ FREE_MAP_SECTOR) :
    s.findOpen sec s.openInodes = none := by
  have hi : s.inodes 2 = some (mapInode capacity) := by rw [h.rest.inodes, update_self]
  have hne : (mapInode capacity).sector ≠ sec := fun hc => hsec hc.symm
  rw [h.rest.openInodes, FileSys.findOpen, hi]
  simp only
  rw [if_neg hne]
  rfl

/-- **`dir_open_root`** reads the inode of the root directory. -/
theorem dirOpenRoot (h : Volume s capacity next files) :
    (dirOpenRoot).run s = .ok (some { inode := s.brk, pos := 0 }, withLoaded s ROOT_DIR_SECTOR) := by
  have hlo := h.lo
  have hsel : s.Selects ROOT_DIR_SECTOR := h.selects (by unfold firstFree ROOT_DIR_SECTOR at *; omega)
  rcases inodeOpen_spec hsel with ⟨p, i, hfind, -⟩ | ⟨-, hrun⟩
  · rw [h.findOpen (by decide)] at hfind
    cases hfind
  · rw [Pintos.dirOpenRoot, Prog.run_bind_ok hrun]
    rfl

theorem dirOpen (h : Volume s capacity next files) :
    DirOpen (withLoaded s ROOT_DIR_SECTOR) s.brk (rootData capacity) where
  inode := ⟨_, update_self _ _ _, h.rootSector, rfl⟩
  onDisk := h.rootOnDisk.congr rfl
  length := by
    rw [rootData_length]
    decide

/-- The root directory is closed, whatever the disk has become. -/
theorem dirCloseRoot (h : Volume s capacity next files) (freeMap : WordBitmap) (disk : Nat → Sector) :
    (dirClose (some { inode := s.brk, pos := 0 })).run
        { withLoaded s ROOT_DIR_SECTOR with freeMap := freeMap, disk := disk } =
      .ok ((), { s with freeMap := freeMap, disk := disk, brk := s.brk + 1 }) := by
  have hq : FileSys.inodes { withLoaded s ROOT_DIR_SECTOR with freeMap := freeMap, disk := disk } s.brk =
      some (loaded s ROOT_DIR_SECTOR) := update_self _ _ _
  have hgone : update s.inodes s.brk none = s.inodes := update_eq_self_iff.mpr h.rest.inodes_brk.symm
  have hlast : (loaded s ROOT_DIR_SECTOR).openCnt = 1 := rfl
  rw [dirClose, run_inodeClose hq rfl, closed, if_pos hlast]
  simp only [FileSys.setInode, withLoaded, update_idem, List.erase_cons_head, hgone]

end Volume

/-! ## A new file -/

/-- The first run of free sectors, where the free ones are at the end. No sector is found in sector 0. -/
theorem scan_next (capacity m n : Nat) (hle : m + n ≤ capacity) :
    ∃ b, bitmapScan (usedBelow capacity m) 0 n false = some b ∧
      bitmapSetMultiple (usedBelow capacity m) b n true = usedBelow capacity (m + n) ∧
      (∀ sec, inRun b n sec → m ≤ sec ∧ sec < m + n) ∧ b ≤ m := by
  by_cases hn : n = 0
  · subst hn
    refine ⟨0, bitmapScan_zero _ _, rfl, fun sec hsec => ?_, Nat.zero_le m⟩
    unfold inRun at hsec
    omega
  · exact ⟨m, scan_usedBelow capacity m n (by omega) hle, bitmapSetMultiple_usedBelow capacity m n,
      fun sec hsec => hsec, Nat.le_refl m⟩

/-- A file that was just created, with whatever its sectors hold. -/
theorem StoredFile.On.new {a b : Nat}
    (hinode : ∀ k, k < DISK_SECTOR_SIZE → disk a k = sectorOf (InodeDisk.mk b n).bytes k) (hn : n < 2 ^ 31)
    (hb : b < 2 ^ 32) (ha : firstFree capacity ≤ a ∧ a < next)
    (hrun : ∀ sec, inRun b ((n + 511) / 512) sec → firstFree capacity ≤ sec ∧ sec < next)
    (hend : b + (n + 511) / 512 ≤ next) :
    StoredFile.On ⟨name, a, ⟨b, n⟩, fileBytes disk b 0 n⟩ disk capacity next := by
  have hlen : (fileBytes disk b 0 n).length = n := length_fileBytes _ _ _ _
  refine ⟨?_, ?_, ha, hrun, hend, ?_, ?_⟩
  · show (n : Int) = ((fileBytes disk b 0 n).length : Int)
    rw [hlen]
  · show (fileBytes disk b 0 n).length < 2 ^ 31
    rw [hlen]
    exact hn
  · rw [← InodeDisk.ofSector_bytes (d := ⟨b, n⟩) hb (Int.natCast_nonneg n) (by show (n : Int) < 2 ^ 31; omega)]
    exact InodeDisk.ofSector_congr hinode
  · show fileBytes disk b 0 (fileBytes disk b 0 n).length = fileBytes disk b 0 n
    rw [hlen]

/-- What `filesys_create` leaves of a new file, with its inode in the sector `next`. -/
structure NewFile (s s' : FileSys) (capacity next b n : Nat) (name : CStr) : Prop where
  map : MapIs (withLoaded s ROOT_DIR_SECTOR) s' (mapData capacity) (usedBelow capacity (next + 1 + (n + 511) / 512))
  other : SameOn (fun sec => ¬ (mapData capacity).Has sec ∧ ¬ (rootData capacity).Has sec ∧ sec ≠ next ∧
    ¬ inRun b ((n + 511) / 512) sec) s'.disk s.disk
  inode : ∀ k, k < DISK_SECTOR_SIZE → s'.disk next k = sectorOf (InodeDisk.mk b n).bytes k
  table : table s'.disk (rootData capacity) = (table s.disk (rootData capacity)).set
    (freeIdx (slots s.disk (rootData capacity))) (some (name.bytes, next))
  run : ∀ sec, inRun b ((n + 511) / 512) sec → next < sec ∧ sec < next + 1 + (n + 511) / 512
  le : b ≤ next + 1

theorem NewFile.root_apart {b : Nat} (h : NewFile s s' capacity next b n name) (hlo : firstFree capacity ≤ next) :
    ¬ (mapData capacity).Has ROOT_DIR_SECTOR ∧ ¬ (rootData capacity).Has ROOT_DIR_SECTOR ∧
      ROOT_DIR_SECTOR ≠ next ∧ ¬ inRun b ((n + 511) / 512) ROOT_DIR_SECTOR := by
  rw [mapData_has, rootData_has]
  unfold firstFree at hlo
  refine ⟨fun hc => absurd hc.1 (by decide), ?_, ?_, fun hc => ?_⟩
  · unfold ROOT_DIR_SECTOR
    omega
  · unfold ROOT_DIR_SECTOR
    omega
  · have hge := (h.run ROOT_DIR_SECTOR hc).1
    unfold ROOT_DIR_SECTOR at *
    omega

namespace Volume

/-- The sectors before the first free one are those of the free map and of the root directory. -/
theorem not_has (hsec : firstFree capacity ≤ n) : ¬ (mapData capacity).Has n ∧ ¬ (rootData capacity).Has n := by
  rw [mapData_has, rootData_has]
  unfold firstFree at hsec
  omega

theorem has_iff {b sec : Nat} : (InodeDisk.mk b n).Has sec ↔ inRun b ((n + 511) / 512) sec := Iff.rfl

/-- Creating a file leaves the others. -/
theorem others_kept (h : Volume s capacity next files) {b m : Nat}
    (hdisk : SameOn (fun sec => ¬ (mapData capacity).Has sec ∧ ¬ (rootData capacity).Has sec ∧ sec ≠ next ∧
      ¬ inRun b m sec) disk s.disk)
    (hrun : ∀ sec, inRun b m sec → next < sec) : ∀ g ∈ files, g.On disk capacity next := by
  intro g hg
  have hon := h.kept g hg
  refine hon.congr (hdisk.mono fun sec hsec => ?_)
  have hbounds : firstFree capacity ≤ sec ∧ sec < next := by
    rcases hsec with rfl | hc
    · exact hon.sector
    · exact hon.has sec hc
  obtain ⟨hmap, hroot⟩ := not_has hbounds.1
  refine ⟨hmap, hroot, by omega, fun hc => ?_⟩
  have hge := hrun sec hc
  omega

theorem rootData_entryCnt : (rootData capacity).entryCnt = 16 := by
  rw [InodeDisk.entryCnt, rootData_length]
  decide

/-- Slots that are filled are as many as the files. -/
theorem none_mem_table (h : Volume s capacity next files) :
    none ∈ table s.disk (rootData capacity) ↔ files.length < 16 := by
  rw [← length_keys_lt_iff, length_table, h.names.length_eq, List.length_map, rootData_entryCnt]

/-- Between the opening and the closing of the root directory: the new file is in the next sectors. -/
theorem createIn (h : Volume s capacity next files) (hv : ValidName name)
    (hnew : name.bytes ∉ files.map (·.name.bytes)) (hcnt : files.length < 16) (hsmall : n + 511 < 2 ^ 31)
    (hroom : next + 1 + (n + 511) / 512 ≤ capacity) :
    ∃ b s₂, (Pintos.createIn { inode := s.brk, pos := 0 } name n).run (withLoaded s ROOT_DIR_SECTOR) = .ok (true, s₂) ∧
      NewFile s s₂ capacity next b n name := by
  have hsectors : bytesToSectors n = (n + 511) / 512 := bytesToSectors_eq (by omega) (by omega)
  have hbrk : (2 : InodePtr) ≠ s.brk := fun hc => by
    have hle := h.rest.brk
    rw [← hc] at hle
    exact absurd hle (by decide)
  have hready : CreateReady (withLoaded s ROOT_DIR_SECTOR) 2 (mapData capacity) (rootData capacity)
      (Dir.mk s.brk 0).inode :=
    h.ready.createReady (withLoaded_sameStore _ _)
      (h.mapFile.sameStore (withLoaded_sameStore _ _) (update_of_ne hbrk _ _)) h.dirOpen
  obtain ⟨ok, s₂, hin, hout⟩ := hready.createIn name (Int.natCast_nonneg n)
  rw [hsectors] at hout
  -- the sectors that are found are the next ones
  have hbits : (withLoaded s ROOT_DIR_SECTOR).freeMap.bits = usedBelow capacity next := h.bits
  have hone : bitmapScan (usedBelow capacity next) 0 1 false = some next :=
    scan_usedBelow capacity next 1 Nat.one_pos (by omega)
  have htaken : oneTaken (usedBelow capacity next) next = usedBelow capacity (next + 1) :=
    bitmapSetMultiple_usedBelow capacity next 1
  obtain ⟨b, hscan, hset, hrun, hble⟩ := scan_next capacity (next + 1) ((n + 511) / 512) hroom
  cases hout with
  | noSector hnone =>
    rw [hbits, hone] at hnone
    cases hnone
  | noRun a _ ha hb =>
    rw [hbits, hone, Option.some.injEq] at ha
    rw [hbits, ← ha, htaken, hscan] at hb
    cases hb
  | noEntry a b' _ ha hb hname =>
    rcases hname with hc | hc | hc
    · exact absurd hv hc
    · exact absurd (h.names.mem_iff.mp hc) hnew
    · exact absurd (h.none_mem_table.mpr hcnt) hc
  | done a b' _ ha hb hname hmap hdisk hinode htable =>
    rw [hbits, hone, Option.some.injEq] at ha
    subst ha
    rw [hbits, htaken, hscan, Option.some.injEq] at hb
    subst hb
    rw [hbits, htaken, hset] at hmap
    exact ⟨b, s₂, hin, hmap, hdisk, hinode, htable, hrun, hble⟩

/-- **`filesys_create`** of a new name, where there is room. -/
theorem create (h : Volume s capacity next files) (hv : ValidName name)
    (hnew : name.bytes ∉ files.map (·.name.bytes)) (hcnt : files.length < 16) (hsmall : n + 511 < 2 ^ 31)
    (hroom : next + 1 + (n + 511) / 512 ≤ capacity) :
    ∃ s' f, (filesysCreate name n).run s = .ok (true, s') ∧
      Volume s' capacity (next + 1 + (n + 511) / 512) (f :: files) ∧ f.name = name ∧ f.bytes.length = n ∧
      f.sector = next ∧ (∀ sec, f.data.Has sec → next < sec) ∧ ∀ g ∈ files, g.On s'.disk capacity next := by
  have hlo := h.lo
  have hcap := h.addressable
  obtain ⟨b, s₂, hin, hfile⟩ := h.createIn hv hnew hcnt hsmall hroom
  have hble := hfile.le
  have hclose := h.dirCloseRoot s₂.freeMap s₂.disk
  rw [← show s₂ = _ from hfile.map.frame] at hclose
  have hlen : (fileBytes s₂.disk b 0 n).length = n := length_fileBytes _ _ _ _
  have hold : ∀ g ∈ files, g.On s₂.disk capacity next :=
    h.others_kept hfile.other fun sec hsec => (hfile.run sec hsec).1
  have hon : StoredFile.On ⟨name, next, ⟨b, n⟩, fileBytes s₂.disk b 0 n⟩ s₂.disk capacity
      (next + 1 + (n + 511) / 512) := by
    refine .new hfile.inode (by omega) (by omega) ⟨hlo, by omega⟩ (fun sec hsec => ⟨?_, (hfile.run sec hsec).2⟩)
      (by omega)
    have hge := (hfile.run sec hsec).1
    omega
  have hnames : name.bytes ∉ keys (table s.disk (rootData capacity)) := fun hc => hnew (h.names.mem_iff.mp hc)
  have hi : (table s.disk (rootData capacity))[freeIdx (slots s.disk (rootData capacity))]? = some none :=
    getElem?_freeIdx (freeIdx_lt_iff.mpr (h.none_mem_table.mpr hcnt))
  refine ⟨_, ⟨name, next, ⟨b, n⟩, fileBytes s₂.disk b 0 n⟩, run_filesysCreate h.dirOpenRoot hin hclose,
    ?_, rfl, hlen, rfl, fun sec hsec => (hfile.run sec (has_iff.mp hsec)).1, hold⟩
  constructor
  case formattable => exact h.formattable
  case addressable => exact h.addressable
  case size => exact h.size
  case rest =>
    exact ⟨h.rest.freeMapFile, h.rest.openInodes, h.rest.inodes, h.rest.files, Nat.le_succ_of_le h.rest.brk⟩
  case ok => exact hfile.map.ok
  case bitCnt => exact hfile.map.bitCnt.trans h.bitCnt
  case bits => exact hfile.map.memory
  case stored => exact hfile.map.stored.trans hfile.map.memory.symm
  case lo => omega
  case hi => exact hroom
  case rootSector =>
    rw [← h.rootSector]
    exact InodeDisk.ofSector_congr fun k hk => hfile.other ROOT_DIR_SECTOR (hfile.root_apart hlo) k hk
  case names =>
    show (keys (table s₂.disk (rootData capacity))).Perm (name.bytes :: files.map (·.name.bytes))
    rw [hfile.table]
    exact (keys_insert hi name.bytes next).trans (h.names.cons name.bytes)
  case nodup => exact List.nodup_cons.mpr ⟨hnew, h.nodup⟩
  case entry =>
    intro g hg
    show value (table s₂.disk (rootData capacity)) g.name.bytes = some g.sector
    rw [hfile.table, value_insert hi hnames]
    rcases List.mem_cons.mp hg with rfl | hmem
    · exact update_self _ _ _
    · have hne : g.name.bytes ≠ name.bytes := fun hc =>
        hnew (hc ▸ List.mem_map.mpr ⟨g, hmem, rfl⟩)
      rw [update_of_ne hne]
      exact h.entry g hmem
  case kept =>
    intro g hg
    rcases List.mem_cons.mp hg with rfl | hmem
    · exact hon
    · exact (hold g hmem).mono (by omega)
  case stack => exact h.stack

/-- The root directory has sixteen entries. -/
theorem create_full (h : Volume s capacity next files) (hcnt : files.length = 16) (name : CStr) (n : Nat) :
    ∃ s', (filesysCreate name n).run s = .ok (false, s') := by
  obtain ⟨ok, s₁, s₂, s', hrun, hs₁, hout, -⟩ := h.ready.run_filesysCreate name (Int.natCast_nonneg n)
  have hfull : none ∉ table s₁.disk (rootData capacity) := by
    rw [hs₁.disk, h.none_mem_table]
    omega
  cases hout with
  | noSector => exact ⟨_, hrun⟩
  | noRun => exact ⟨_, hrun⟩
  | noEntry => exact ⟨_, hrun⟩
  | done _ _ _ _ _ hname => exact absurd hname.2.2 hfull

end Volume

/-! ## An open file -/

/-- The file is open, once, at the position. -/
def fileOpened (s : FileSys) (f : StoredFile) (pos : Nat) : FileSys :=
  { s with
    inodes := update s.inodes (s.brk + 1)
      (some { sector := f.sector, openCnt := 1, removed := false, denyWriteCnt := 0, data := f.data })
    openInodes := (s.brk + 1) :: s.openInodes
    files := update s.files (s.brk + 2) (some { inode := s.brk + 1, pos := pos, denyWrite := false })
    brk := s.brk + 3 }

theorem fileOpened_files (s : FileSys) (f : StoredFile) (pos : Nat) : (fileOpened s f pos).files (s.brk + 2) =
    some { inode := s.brk + 1, pos := pos, denyWrite := false } := update_self _ _ _

theorem fileOpened_inodes (s : FileSys) (f : StoredFile) (pos : Nat) : (fileOpened s f pos).inodes (s.brk + 1) =
    some { sector := f.sector, openCnt := 1, removed := false, denyWriteCnt := 0, data := f.data } :=
  update_self _ _ _

namespace Volume

theorem onDisk (h : Volume s capacity next files) (hf : f ∈ files) : OnDisk s f.data := by
  have hon := h.kept f hf
  have hhi := h.hi
  refine onDisk_of_le (by rw [hon.length]; omega) ?_ (h.size ▸ h.addressable)
  have hend := hon.end_le
  rw [h.size]
  omega

/-- **`filesys_open`** of a file. -/
theorem filesysOpen (h : Volume s capacity next files) (hf : f ∈ files) :
    (Pintos.filesysOpen f.name).run s = .ok (some (s.brk + 2), fileOpened s f 0) := by
  have hon := h.kept f hf
  have hlo := hon.sector.1
  generalize ht : withLoaded s ROOT_DIR_SECTOR = t
  -- the entry of the name
  have hlookup : ∃ e ofs, (lookup { inode := s.brk, pos := 0 } f.name).run t = .ok (some (e, ofs), t) ∧
      e.inodeSector = f.sector := by
    have hdir : DirOpen (withLoaded s ROOT_DIR_SECTOR) (Dir.mk s.brk 0).inode (rootData capacity) := h.dirOpen
    have hrun := hdir.lookup f.name
    rw [ht] at hrun
    have hdisk : t.disk = s.disk := by rw [← ht, (withLoaded_sameStore s ROOT_DIR_SECTOR).disk]
    rw [hdisk] at hrun
    rcases findFrom_cases f.name s.disk (rootData capacity) with ⟨-, hnone⟩ | ⟨e, k, hfind, -, -, hvalue⟩
    · rw [h.entry f hf] at hnone
      cases hnone
    · rw [h.entry f hf, Option.some.injEq] at hvalue
      rw [hfind] at hrun
      exact ⟨e, _, hrun, hvalue.symm⟩
  obtain ⟨e, ofs, hlookup, hsec⟩ := hlookup
  -- its inode is not open
  have hopen : (inodeOpen e.inodeSector true).run t = .ok (some (s.brk + 1), withLoaded t f.sector) := by
    have hsel : t.Selects f.sector := by
      rw [← ht]
      exact h.selects hon.sector.2
    rw [hsec]
    rcases inodeOpen_spec hsel with ⟨p, i, -, hp, hpsec, -⟩ | ⟨-, hrun⟩
    · have hroot : i.sector = ROOT_DIR_SECTOR ∨ i.sector = FREE_MAP_SECTOR := by
        rw [← ht] at hp
        by_cases hpb : p = s.brk
        · subst hpb
          cases (update_self _ _ _).symm.trans hp
          exact Or.inl rfl
        · obtain ⟨-, rfl⟩ := h.rest.inode ((update_of_ne hpb _ _).symm.trans hp)
          exact Or.inr rfl
      unfold firstFree ROOT_DIR_SECTOR FREE_MAP_SECTOR at *
      omega
    · rw [hrun, ← ht]
      rfl
  have hdirLookup : (dirLookup { inode := s.brk, pos := 0 } f.name).run t =
      .ok (some (s.brk + 1), withLoaded t f.sector) := by
    rw [dirLookup, Prog.run_bind_ok hlookup, hopen]
  have hne : s.brk ≠ s.brk + 1 := Nat.ne_of_lt (Nat.lt_succ_self _)
  have hq : (withLoaded t f.sector).inodes s.brk = some (loaded s ROOT_DIR_SECTOR) := by
    rw [← ht]
    exact (update_of_ne hne _ _).trans (update_self _ _ _)
  have hlast : (loaded s ROOT_DIR_SECTOR).openCnt = 1 := rfl
  have hclose := run_inodeClose hq rfl
  rw [closed, if_pos hlast] at hclose
  have hstate : ({ (withLoaded t f.sector).setInode s.brk none with
        openInodes := (withLoaded t f.sector).openInodes.erase s.brk } : FileSys) =
      { s with
        inodes := update s.inodes (s.brk + 1)
          (some { sector := f.sector, openCnt := 1, removed := false, denyWriteCnt := 0, data := f.data })
        openInodes := (s.brk + 1) :: s.openInodes
        brk := s.brk + 2 } := by
    have hgone : update s.inodes s.brk none = s.inodes := update_eq_self_iff.mpr h.rest.inodes_brk.symm
    have herase : ((s.brk + 1) :: s.brk :: s.openInodes).erase s.brk = (s.brk + 1) :: s.openInodes := by
      rw [List.erase_cons_tail (by simp), List.erase_cons_head]
    rw [← ht, ← hon.inode]
    simp only [FileSys.setInode, withLoaded, loaded, herase]
    rw [update_comm hne.symm, update_idem, hgone]
  rw [hstate] at hclose
  rw [Pintos.filesysOpen, Prog.run_bind_ok h.dirOpenRoot, ht, Prog.run_bind_ok hdirLookup, dirClose,
    Prog.run_bind_ok hclose]
  rfl

end Volume

theorem run_fileWrite_opened (hd : OnDisk s f.data) {bytes : List Byte}
    (hle : pos + bytes.length ≤ f.data.length.toNat) :
    ∃ disk, (fileWrite (s.brk + 2) bytes).run (fileOpened s f pos) =
        .ok (bytes.length, fileOpened { s with disk := disk } f (pos + bytes.length)) ∧
      SameDisk disk (patched s.disk f.data.start pos bytes) := by
  have hfile := fileOpened_files s f pos
  have hinode := fileOpened_inodes s f pos
  have hall : transferred f.data bytes.length pos = bytes.length := by
    unfold transferred
    omega
  obtain ⟨disk, hrun, hsame⟩ := inodeWriteAt_spec (fun _ => bytes) bytes.length pos hinode
    (hd.congr rfl : OnDisk (fileOpened s f pos) f.data) (fun _ => rfl) rfl (Nat.le_refl _)
  rw [hall] at hrun hsame
  rw [List.take_length] at hsame
  have hadvance : (advance (s.brk + 2) bytes.length).run { fileOpened s f pos with disk := disk } =
      .ok ((), fileOpened { s with disk := disk } f (pos + bytes.length)) := by
    refine Prog.run_write ?_
    simp only [FileSys.setFile, fileOpened, update_self, update_idem]
  refine ⟨disk, ?_, hsame⟩
  rw [fileWrite, Prog.run_bind_ok (run_derefFile hfile), Prog.run_bind_ok hrun, Prog.run_bind_ok hadvance]
  rfl

theorem run_fileRead_opened (hd : OnDisk s f.data) (hle : pos + n ≤ f.data.length.toNat) :
    (fileRead (s.brk + 2) n).run (fileOpened s f pos) =
      .ok (fileBytes s.disk f.data.start pos n, fileOpened s f (pos + n)) := by
  have hfile := fileOpened_files s f pos
  have hinode := fileOpened_inodes s f pos
  have hall : transferred f.data n pos = n := by
    unfold transferred
    omega
  have hread := run_fileRead hfile hinode (hd.congr rfl : OnDisk (fileOpened s f pos) f.data) n
  simp only [hall, FileSys.setFile] at hread
  rw [hread]
  simp only [fileOpened, update_idem]

theorem run_fileLength_opened (s : FileSys) (f : StoredFile) (pos : Nat) :
    (fileLength (s.brk + 2)).run (fileOpened s f pos) = .ok (f.data.length, fileOpened s f pos) :=
  run_fileLength (fileOpened_files s f pos) (fileOpened_inodes s f pos)

/-- **`file_close`** of the only file that is open. -/
theorem AtRest.fileClose (h : AtRest s capacity) (f : StoredFile) (pos : Nat) :
    (Pintos.fileClose (some (s.brk + 2))).run (fileOpened s f pos) = .ok ((), { s with brk := s.brk + 3 }) := by
  have hbrk := h.brk
  have hnoInode : s.inodes (s.brk + 1) = none := by
    have hne : s.brk + 1 ≠ (2 : Nat) := by omega
    rw [h.inodes, update_of_ne hne]
  have hnoFile : s.files (s.brk + 2) = none := by
    have hne : s.brk + 2 ≠ (3 : Nat) := by omega
    rw [h.files, update_of_ne hne]
  have hfile := fileOpened_files s f pos
  have hinode := fileOpened_inodes s f pos
  have hallow : (fileAllowWrite (s.brk + 2)).run (fileOpened s f pos) = .ok ((), fileOpened s f pos) := by
    rw [fileAllowWrite, Prog.run_bind_ok (run_derefFile hfile)]
    rfl
  have hclose := run_inodeClose hinode rfl
  rw [closed, if_pos rfl] at hclose
  rw [Pintos.fileClose, Prog.run_bind_ok hallow, Prog.run_bind_ok (run_derefFile hfile), Prog.run_bind_ok hclose]
  refine Prog.run_write ?_
  simp only [FileSys.setInode, FileSys.setFile, fileOpened, update_idem, List.erase_cons_head]
  rw [update_eq_self_iff.mpr hnoInode.symm, update_eq_self_iff.mpr hnoFile.symm]

namespace Volume

/-- The newest file is written. -/
theorem rewrite (h : Volume s capacity next (f :: files)) (hold : ∀ g ∈ files, g.On s.disk capacity f.sector)
    (hdata : ∀ sec, f.data.Has sec → f.sector < sec) {bytes : List Byte} (hlen : bytes.length = f.bytes.length)
    (hsame : SameDisk disk (patched s.disk f.data.start 0 bytes)) {brk : Nat} (hbrk : s.brk ≤ brk) :
    Volume { s with disk := disk, brk := brk } capacity next ({ f with bytes := bytes } :: files) := by
  have hon := h.kept f List.mem_cons_self
  have hle : 0 + bytes.length ≤ f.data.length.toNat := by
    rw [hon.length]
    omega
  have hother : SameOn (fun sec => ¬ f.data.Has sec) disk s.disk :=
    (hsame.sameOn _).trans (sameOn_patched s.disk hle)
  have hlow : ∀ sec, sec < firstFree capacity → ¬ f.data.Has sec := fun sec hlt hc => by
    have hge := (hon.has sec hc).1
    omega
  have hmapIs : MapIs s s (mapData capacity) s.freeMap.bits := ⟨rfl, h.ok, rfl, rfl, h.stored⟩
  have hmapIs' : MapIs s { s with disk := disk } (mapData capacity) s.freeMap.bits := by
    refine hmapIs.setDisk h.mapFile.length (hother.mono fun sec hsec => ?_)
    rw [mapData_has] at hsec
    refine hlow sec ?_
    unfold firstFree
    omega
  have htable : table disk (rootData capacity) = table s.disk (rootData capacity) := by
    refine table_congr (hother.mono fun sec hsec => ?_)
    rw [rootData_has] at hsec
    refine hlow sec ?_
    unfold firstFree
    omega
  constructor
  case formattable => exact h.formattable
  case addressable => exact h.addressable
  case size => exact h.size
  case rest =>
    exact ⟨h.rest.freeMapFile, h.rest.openInodes, h.rest.inodes, h.rest.files, Nat.le_trans h.rest.brk hbrk⟩
  case ok => exact h.ok
  case bitCnt => exact h.bitCnt
  case bits => exact h.bits
  case stored => exact hmapIs'.stored
  case lo => exact h.lo
  case hi => exact h.hi
  case rootSector =>
    rw [← h.rootSector]
    refine InodeDisk.ofSector_congr fun k hk => hother ROOT_DIR_SECTOR (hlow _ ?_) k hk
    unfold ROOT_DIR_SECTOR firstFree
    omega
  case names =>
    show (keys (table disk (rootData capacity))).Perm _
    rw [htable]
    exact h.names
  case nodup => exact h.nodup
  case entry =>
    intro g hg
    show value (table disk (rootData capacity)) g.name.bytes = some g.sector
    rw [htable]
    rcases List.mem_cons.mp hg with rfl | hmem
    · exact h.entry f List.mem_cons_self
    · exact h.entry g (List.mem_cons_of_mem f hmem)
  case kept =>
    intro g hg
    rcases List.mem_cons.mp hg with rfl | hmem
    · refine ⟨?_, ?_, hon.sector, hon.has, hon.end_le, ?_, ?_⟩
      · show f.data.length = (bytes.length : Int)
        rw [hlen]
        exact hon.length
      · show bytes.length < 2 ^ 31
        rw [hlen]
        exact hon.small
      · rw [← hon.inode]
        exact InodeDisk.ofSector_congr fun k hk =>
          hother f.sector (fun hc => absurd (hdata _ hc) (Nat.lt_irrefl _)) k hk
      · show fileBytes disk f.data.start 0 bytes.length = bytes
        rw [hsame.fileBytes, fileBytes_patched_self]
    · have hg := hold g hmem
      refine (hg.congr (hother.mono fun sec hsec hc => ?_)).mono (Nat.le_of_lt hon.sector.2)
      have hgt := hdata sec hc
      rcases hsec with rfl | hcg
      · have hlt := hg.sector.2
        omega
      · have hlt := (hg.has sec hcg).2
        omega
  case stack => exact h.stack

/-- Memory is taken. -/
theorem setBrk (h : Volume s capacity next files) {brk : Nat} (hbrk : s.brk ≤ brk) :
    Volume { s with brk := brk } capacity next files where
  formattable := h.formattable
  addressable := h.addressable
  size := h.size
  rest := ⟨h.rest.freeMapFile, h.rest.openInodes, h.rest.inodes, h.rest.files, Nat.le_trans h.rest.brk hbrk⟩
  ok := h.ok
  bitCnt := h.bitCnt
  bits := h.bits
  stored := h.stored
  lo := h.lo
  hi := h.hi
  rootSector := h.rootSector
  names := h.names
  nodup := h.nodup
  entry := h.entry
  kept := h.kept
  stack := h.stack

end Volume

/-- **A file system that was just formatted** has no files. -/
theorem Formatted.volume {stack : List Byte} (h : Formatted s capacity stack) (hf : Formattable capacity)
    (hcap : capacity ≤ 2 ^ 28) (hstack : stack.length = ENTRY_SIZE) : Volume s capacity (firstFree capacity) [] where
  formattable := hf
  addressable := hcap
  size := h.size
  rest := ⟨h.freeMapFile, h.openInodes, h.inodes, h.files, Nat.le_of_eq h.brk.symm⟩
  ok := h.map.ok
  bitCnt := h.bitCnt
  bits := h.bits
  stored := h.stored
  lo := Nat.le_refl _
  hi := hf.1
  rootSector := h.rootSector
  names := by
    have hzero : table s.disk (rootData capacity) = table (fun _ _ => 0) (rootData capacity) := by
      refine table_congr fun sec hsec k hk => ?_
      rw [rootData_has] at hsec
      rw [hsec]
      exact h.zeros k hk
    have hnone : keys (table s.disk (rootData capacity)) = [] := by
      rw [hzero, keys, List.filterMap_eq_nil_iff]
      intro slot hslot
      obtain ⟨e, he, rfl⟩ := List.mem_map.mp hslot
      have huse : e.inUse = false := slots_zero (fun _ _ => rfl) e he
      rw [DirEntry.slot, huse]
      rfl
    rw [hnone]
    exact List.Perm.refl _
  nodup := List.nodup_nil
  entry f hf := absurd hf List.not_mem_nil
  kept f hf := absurd hf List.not_mem_nil
  stack := by
    rw [h.stack]
    exact hstack

end Pintos
