import Pintos.Properties.FailedCreate

/-!
# Formatting

What `filesys_init` leaves on a disk that is large enough: the free map file behind sector 1, the
root directory behind it, and every other sector free.

* `freeMapOpen_spec` — the map is read from its file
* `format_spec` — formatting
-/

namespace Pintos

open Function LittleEndian

variable {s : FileSys} {p : InodePtr} {d : InodeDisk} {capacity m n : Nat} {b : WordBitmap}
  {block : List (BitVec 64)}

/-! ## The first free sectors -/

/-- The map whose first `m` sectors are in use. -/
def usedBelow (capacity m : Nat) : Bitmap := (List.range capacity).map fun i => decide (i < m)

theorem getElem?_usedBelow (i : Nat) :
    (usedBelow capacity m)[i]? = if i < capacity then some (decide (i < m)) else none := by
  rw [usedBelow, List.getElem?_map]
  split
  · next h => rw [List.getElem?_range h, Option.map_some]
  · next h => rw [List.getElem?_eq_none (by simpa using h), Option.map_none]

@[simp] theorem length_usedBelow : (usedBelow capacity m).length = capacity := by simp [usedBelow]

theorem scan_usedBelow (capacity m n : Nat) (hn : 0 < n) (hle : m + n ≤ capacity) :
    bitmapScan (usedBelow capacity m) 0 n false = some m := by
  rw [bitmapScan, length_usedBelow, if_pos (by omega), List.find?_range'_eq_some]
  refine ⟨?_, by rw [List.mem_range'_1]; omega, fun j _ hj => ?_⟩
  · rw [Bool.not_eq_true', bitmapContains_eq_false]
    intro i hi hlt hc
    rw [getElem?_usedBelow, if_pos (by omega), decide_eq_false (by omega)] at hc
    cases hc
  · rw [Bool.not_not, ← Bool.not_eq_false, bitmapContains_eq_false]
    intro hall
    refine hall j (Nat.le_refl j) (by omega) ?_
    rw [getElem?_usedBelow, if_pos (by omega), decide_eq_true hj]
    rfl

theorem bitmapSetMultiple_usedBelow (capacity m n : Nat) :
    bitmapSetMultiple (usedBelow capacity m) m n true = usedBelow capacity (m + n) := by
  refine List.ext_getElem? fun i => ?_
  rw [getElem?_bitmapSetMultiple, getElem?_usedBelow, getElem?_usedBelow, length_usedBelow]
  by_cases hi : i < capacity
  · rw [if_pos hi, if_pos hi]
    by_cases hlo : i < m
    · rw [if_neg (by omega), decide_eq_true hlo, decide_eq_true (by omega)]
    · by_cases hhi : i < m + n
      · rw [if_pos (by omega), decide_eq_true hhi]
      · rw [if_neg (by omega), decide_eq_false hlo, decide_eq_false hhi]
  · rw [if_neg hi, if_neg hi, if_neg (by omega)]

/-- The map after `free_map_init`. -/
theorem bits_freeMapInit (h : block.length = elemCnt capacity) (hcap : 2 ≤ capacity) :
    (((WordBitmap.create capacity block).mark FREE_MAP_SECTOR).mark ROOT_DIR_SECTOR).Ok ∧
    (((WordBitmap.create capacity block).mark FREE_MAP_SECTOR).mark ROOT_DIR_SECTOR).bits =
      usedBelow capacity 2 := by
  have hok : (WordBitmap.create capacity block).Ok := .create h
  have h0 : ((WordBitmap.create capacity block).set FREE_MAP_SECTOR true).Ok := hok.set
  have h1 : (((WordBitmap.create capacity block).set FREE_MAP_SECTOR true).set ROOT_DIR_SECTOR true).Ok :=
    h0.set
  have hlt : ∀ i, i < 2 → i < (WordBitmap.create capacity block).bitCnt := fun i hi => by
    rw [WordBitmap.bitCnt_create]
    omega
  refine ⟨h1, ?_⟩
  show (((WordBitmap.create capacity block).set FREE_MAP_SECTOR true).set ROOT_DIR_SECTOR true).bits = _
  rw [WordBitmap.bits_set h0 (by rw [WordBitmap.bitCnt_set]; exact hlt _ (by decide)),
    WordBitmap.bits_set hok (hlt _ (by decide)), WordBitmap.bits_create h]
  refine List.ext_getElem? fun i => ?_
  rw [List.getElem?_set, List.getElem?_set, List.getElem?_replicate, getElem?_usedBelow]
  simp only [List.length_set, List.length_replicate]
  unfold FREE_MAP_SECTOR ROOT_DIR_SECTOR
  rcases i with - | - | i
  · simp
  · simp
  · rw [if_neg (by omega), if_neg (by omega), decide_eq_false (by omega)]

/-! ## Opening the free map file -/

/-- The state after `inode_open` and `file_open` of the free map file. -/
def mapOpened (s : FileSys) : FileSys :=
  { withLoaded s FREE_MAP_SECTOR with
    freeMapFile := some (s.brk + 1)
    files := update s.files (s.brk + 1) (some { inode := s.brk, pos := 0, denyWrite := false })
    brk := s.brk + 2 }

theorem run_setFreeMapFile (f : Option FilePtr) :
    (setFreeMapFile f).run s = .ok ((), { s with freeMapFile := f }) := Prog.run_write rfl

/-- The free map file is opened where no inode is open. -/
theorem run_openMap (hopen : s.openInodes = []) (hsel : s.Selects FREE_MAP_SECTOR) :
    ∃ s₁ s₂, (inodeOpen FREE_MAP_SECTOR true).run s = .ok (some s.brk, s₁) ∧
      (fileOpen (some s.brk) true).run s₁ = .ok (some (s.brk + 1), s₂) ∧
      (setFreeMapFile (some (s.brk + 1))).run s₂ = .ok ((), mapOpened s) := by
  rcases inodeOpen_spec hsel with ⟨q, inode, hfind, -⟩ | ⟨-, hrun⟩
  · rw [hopen] at hfind
    cases hfind
  · exact ⟨withLoaded s FREE_MAP_SECTOR, _, hrun, rfl, run_setFreeMapFile _⟩

theorem mapOpened_mapFile (hlen : (InodeDisk.ofSector (s.disk FREE_MAP_SECTOR)).length = byteCnt s.freeMap.bitCnt)
    (hd : OnDisk s (InodeDisk.ofSector (s.disk FREE_MAP_SECTOR))) (hok : s.freeMap.Ok) :
    MapFile (mapOpened s) s.brk (InodeDisk.ofSector (s.disk FREE_MAP_SECTOR)) where
  file := ⟨s.brk + 1, _, rfl, update_self _ _ _, rfl⟩
  inode := ⟨_, update_self _ _ _, rfl, rfl, rfl⟩
  length := hlen
  onDisk := hd.congr rfl
  ok := hok

/-- **`free_map_open`** reads the map that is stored. -/
theorem freeMapOpen_spec (hopen : s.openInodes = []) (hsel : s.Selects FREE_MAP_SECTOR)
    (hlen : (InodeDisk.ofSector (s.disk FREE_MAP_SECTOR)).length = byteCnt s.freeMap.bitCnt)
    (hd : OnDisk s (InodeDisk.ofSector (s.disk FREE_MAP_SECTOR))) (hok : s.freeMap.Ok) :
    ∃ b, (freeMapOpen).run s = .ok ((), { mapOpened s with freeMap := b }) ∧
      b.bitCnt = s.freeMap.bitCnt ∧ b.Ok ∧
      b.bits = (storedMap s (InodeDisk.ofSector (s.disk FREE_MAP_SECTOR))).bits := by
  obtain ⟨b, hread, hcnt, hbok, hbits⟩ := (mapOpened_mapFile hlen hd hok).bitmapRead (b := s.freeMap)
    (f := s.brk + 1) rfl rfl hok
  refine ⟨b, ?_, hcnt, hbok, hbits⟩
  have hmap : (Prog.read fun s => .ok s.freeMap : FsProg WordBitmap).run (mapOpened s) =
      .ok (s.freeMap, mapOpened s) := Prog.run_read rfl
  obtain ⟨s₁, s₂, h₁, h₂, h₃⟩ := run_openMap hopen hsel
  rw [freeMapOpen, Prog.run_bind_ok h₁, Prog.run_bind_ok h₂, Prog.run_bind_ok h₃]
  simp only
  rw [Prog.run_bind_ok hmap, Prog.run_bind_ok hread]
  rfl

/-! ## Formatting -/

/-- The inode of the free map file. -/
def mapData (capacity : Nat) : InodeDisk := ⟨2, byteCnt capacity⟩

/-- The inode of the root directory. -/
def rootData (capacity : Nat) : InodeDisk := ⟨2 + (mapData capacity).sectors, 320⟩

/-- The disk is large enough to format. -/
def Formattable (capacity : Nat) : Prop := 3 + (mapData capacity).sectors ≤ capacity ∧ capacity < 2 ^ 32

theorem mapData_start : (mapData capacity).start = 2 := rfl

theorem rootData_start : (rootData capacity).start = 2 + (mapData capacity).sectors := rfl

theorem rootData_length : (rootData capacity).length = 320 := rfl

theorem rootData_sectors : (rootData capacity).sectors = 1 := by
  rw [InodeDisk.sectors, rootData_length]
  decide

theorem mapData_sectors : (mapData capacity).sectors = (byteCnt capacity + 511) / 512 := rfl

theorem Formattable.bounds (h : Formattable capacity) : byteCnt capacity < 2 ^ 30 ∧
    0 < (mapData capacity).sectors ∧ (mapData capacity).sectors < 2 ^ 21 := by
  obtain ⟨hle, hlt⟩ := h
  rw [mapData_sectors] at *
  unfold byteCnt elemCnt ELEM_BITS at *
  omega

theorem Formattable.bytesToSectors (h : Formattable capacity) :
    bytesToSectors (byteCnt capacity) = (mapData capacity).sectors := by
  obtain ⟨hb, -, -⟩ := h.bounds
  rw [bytesToSectors_eq (by omega) (by omega)]
  rfl

theorem Formattable.selects (h : Formattable capacity) (hs : s.capacity = capacity) {sec : Nat}
    (hsec : sec < 3 + (mapData capacity).sectors) : s.Selects sec := by
  obtain ⟨-, -, hb⟩ := h.bounds
  obtain ⟨hle, -⟩ := h
  exact ⟨by omega, by omega⟩

theorem Formattable.mapOnDisk (h : Formattable capacity) (hs : s.capacity = capacity) :
    OnDisk s (mapData capacity) where
  nonneg := Int.natCast_nonneg _
  selects i hi := by
    have hhas := (mapData capacity).has_div (i := i) (by omega)
    unfold InodeDisk.Has at hhas
    refine h.selects hs ?_
    rw [mapData_start] at hhas ⊢
    omega

theorem Formattable.ofSector_map (h : Formattable capacity) :
    InodeDisk.ofSector (sectorOf (mapData capacity).bytes) = mapData capacity := by
  obtain ⟨hb, -, -⟩ := h.bounds
  refine InodeDisk.ofSector_bytes (by rw [mapData_start]; decide) (Int.natCast_nonneg _) ?_
  show (byteCnt capacity : Int) < 2 ^ 31
  omega

theorem Formattable.ofSector_root (h : Formattable capacity) :
    InodeDisk.ofSector (sectorOf (rootData capacity).bytes) = rootData capacity := by
  obtain ⟨-, -, hb⟩ := h.bounds
  refine InodeDisk.ofSector_bytes ?_ (by rw [rootData_length]; decide) (by rw [rootData_length]; decide)
  rw [rootData_start]
  omega

/-- A sector is decoded from its bytes. -/
theorem InodeDisk.ofSector_congr {sector sector' : Sector}
    (h : ∀ k, k < DISK_SECTOR_SIZE → sector k = sector' k) : ofSector sector = ofSector sector' := by
  have hbytes : ∀ ofs cnt, ofs + cnt ≤ DISK_SECTOR_SIZE →
      sectorBytes sector ofs cnt = sectorBytes sector' ofs cnt := by
    intro ofs cnt hle
    refine List.map_congr_left fun k hk => h _ ?_
    rw [List.mem_range] at hk
    omega
  rw [ofSector, ofSector, hbytes 0 4 (by decide), hbytes 4 4 (by decide)]

/-- **`free_map_create`**. -/
theorem freeMapCreate_spec (hf : Formattable capacity) (hcap : s.capacity = capacity)
    (hcnt : s.freeMap.bitCnt = capacity) (hok : s.freeMap.Ok) (hbits : s.freeMap.bits = usedBelow capacity 2)
    (hfile : s.freeMapFile = none) (hopen : s.openInodes = []) :
    ∃ s', (freeMapCreate).run s = .ok ((), s') ∧
      MapFile s' s.brk (mapData capacity) ∧
      (storedMap s' (mapData capacity)).bits = s'.freeMap.bits ∧
      s'.freeMap.bits = usedBelow capacity (2 + (mapData capacity).sectors) ∧
      s'.freeMap.bitCnt = capacity ∧
      InodeDisk.ofSector (s'.disk FREE_MAP_SECTOR) = mapData capacity ∧
      s' = { mapOpened s with
        freeMap := s'.freeMap
        disk := s'.disk
        inodes := update s.inodes s.brk (some { sector := FREE_MAP_SECTOR, openCnt := 1, removed := false, denyWriteCnt := 0, data := mapData capacity }) } := by
  obtain ⟨hb, hpos, hsmall⟩ := hf.bounds
  obtain ⟨hle, hlt⟩ := hf
  have hf : Formattable capacity := ⟨hle, hlt⟩
  have hscan := scan_usedBelow capacity 2 _ hpos (by omega)
  rw [← hbits, ← hf.bytesToSectors] at hscan
  have halloc := freeMapAllocate_unopened hfile hscan
  rw [hf.bytesToSectors] at halloc hscan
  generalize hfm : s.freeMap.setMultiple 2 (mapData capacity).sectors true = fm at halloc
  have hfmOk : fm.Ok := by
    rw [← hfm]
    exact hok.setMultiple
  have hfmCnt : fm.bitCnt = capacity := by rw [← hfm, WordBitmap.bitCnt_setMultiple, hcnt]
  have hfmBits : fm.bits = usedBelow capacity (2 + (mapData capacity).sectors) := by
    rw [← hfm, WordBitmap.bits_setMultiple hok (by omega), hbits, bitmapSetMultiple_usedBelow]
  rw [← hf.bytesToSectors] at halloc
  have hsel : FileSys.Selects { s with freeMap := fm } FREE_MAP_SECTOR :=
    hf.selects hcap (by unfold FREE_MAP_SECTOR; omega)
  have hcreate := inodeCreate_some (Int.natCast_nonneg _) halloc hsel fun j hj => by
    rw [hf.bytesToSectors] at hj
    exact hf.selects hcap (by omega)
  generalize hs₁ : ({ s with freeMap := fm, disk := created s.disk FREE_MAP_SECTOR ⟨2, byteCnt capacity⟩ } : FileSys) =
    s₁ at hcreate
  have hsector : InodeDisk.ofSector (s₁.disk FREE_MAP_SECTOR) = mapData capacity := by
    rw [← hs₁, ← hf.ofSector_map]
    simp only
    rw [created_self (Or.inl Nat.two_pos)]
    rfl
  have hcap₁ : s₁.capacity = capacity := by rw [← hs₁, hcap]
  obtain ⟨s₂, s₃, h₂, h₃, h₄⟩ := run_openMap (s := s₁) (by rw [← hs₁, hopen])
    (hf.selects hcap₁ (by unfold FREE_MAP_SECTOR; omega))
  have hmap := mapOpened_mapFile (s := s₁) (by rw [hsector, ← hs₁, hfmCnt]; rfl)
    (by rw [hsector]; exact hf.mapOnDisk hcap₁) (by rw [← hs₁]; exact hfmOk)
  rw [hsector] at hmap
  obtain ⟨s₅, h₅, hw⟩ := hmap.bitmapWrite rfl
  have hfm₅ : s₅.freeMap = fm := by
    rw [hw.frame]
    show s₁.freeMap = fm
    rw [← hs₁]
  have hbrk : s₁.brk = s.brk := by rw [← hs₁]
  refine ⟨s₅, ?_, ?_, ?_, ?_, ?_, ?_, ?_⟩
  · have hsize : (Prog.read fun s => .ok (byteCnt s.freeMap.bitCnt) : FsProg Nat).run s =
        .ok (byteCnt capacity, s) := Prog.run_read (by rw [hcnt])
    rw [freeMapCreate, Prog.run_bind_ok hsize, Prog.run_bind_ok hcreate]
    simp only [if_true]
    rw [Prog.run_bind_ok h₂, Prog.run_bind_ok h₃, Prog.run_bind_ok h₄]
    simp only
    rw [Prog.run_bind_ok h₅]
    rfl
  · rw [← hbrk]
    exact hw.mapFile hmap rfl hmap.ok
  · rw [hw.stored, hfm₅]
    show s₁.freeMap.bits = _
    rw [← hs₁]
  · rw [hfm₅, hfmBits]
  · rw [hfm₅, hfmCnt]
  · rw [← hsector]
    refine InodeDisk.ofSector_congr fun k hk => hw.other FREE_MAP_SECTOR ?_ k hk
    unfold InodeDisk.Has mapData FREE_MAP_SECTOR
    simp
  · rw [hw.frame]
    unfold mapOpened withLoaded loaded
    rw [hsector, ← hs₁]
    rfl

theorem mapData_has (sec : Nat) :
    (mapData capacity).Has sec ↔ 2 ≤ sec ∧ sec < 2 + (mapData capacity).sectors := Iff.rfl

theorem rootData_has (sec : Nat) :
    (rootData capacity).Has sec ↔ sec = 2 + (mapData capacity).sectors := by
  unfold InodeDisk.Has
  rw [rootData_sectors, rootData_start]
  omega

/-- **`dir_create`** of the root directory. -/
theorem dirCreate_root (hf : Formattable capacity) (hcap : s.capacity = capacity)
    (hm : MapFile s p (mapData capacity)) (hbits : s.freeMap.bits = usedBelow capacity (2 + (mapData capacity).sectors)) :
    ∃ s', (dirCreate ROOT_DIR_SECTOR 16).run s = .ok (true, s') ∧
      MapIs s s' (mapData capacity) (usedBelow capacity (3 + (mapData capacity).sectors)) ∧
      InodeDisk.ofSector (s'.disk ROOT_DIR_SECTOR) = rootData capacity ∧
      s'.disk (rootData capacity).start = (fun _ => 0) ∧
      SameOn (fun sec => sec = FREE_MAP_SECTOR) s'.disk s.disk := by
  obtain ⟨-, -, hsmall⟩ := hf.bounds
  have hle := hf.1
  have hone : bytesToSectors 320 = 1 := by decide
  have hscan := scan_usedBelow capacity (2 + (mapData capacity).sectors) 1 (by decide) (by omega)
  rw [← hbits] at hscan
  obtain ⟨s₁, halloc, hmap, hother⟩ := hm.allocate hscan
  rw [hbits, bitmapSetMultiple_usedBelow] at hmap
  have hthree : 2 + (mapData capacity).sectors + 1 = 3 + (mapData capacity).sectors := by omega
  rw [hthree] at hmap
  have hcap₁ : s₁.capacity = capacity := by rw [hmap.frame, hcap]
  have hsel : s₁.Selects ROOT_DIR_SECTOR := hf.selects hcap₁ (by unfold ROOT_DIR_SECTOR; omega)
  have h320 : (0 : Int) ≤ 320 := by decide
  rw [← hone] at halloc
  have hcreate := inodeCreate_some h320 halloc hsel fun j hj => by
    rw [hone] at hj
    exact hf.selects hcap₁ (by omega)
  have hkeep : ∀ sec, sec ≠ ROOT_DIR_SECTOR → sec ≠ 2 + (mapData capacity).sectors →
      created s₁.disk ROOT_DIR_SECTOR ⟨2 + (mapData capacity).sectors, 320⟩ sec = s₁.disk sec := by
    intro sec h1 h2
    refine created_of_ne h1 ?_
    rw [hone]
    show sec < 2 + (mapData capacity).sectors ∨ 2 + (mapData capacity).sectors + 1 ≤ sec
    omega
  refine ⟨_, hcreate, hmap.setDisk hm.length fun sec hsec k _ => ?_, ?_, ?_, fun sec hsec k hk => ?_⟩
  · rw [mapData_has] at hsec
    rw [hkeep sec (by unfold ROOT_DIR_SECTOR; omega) (by omega)]
  · show InodeDisk.ofSector (created s₁.disk ROOT_DIR_SECTOR _ ROOT_DIR_SECTOR) = _
    rw [created_self]
    · exact hf.ofSector_root
    · rw [hone]
      show ROOT_DIR_SECTOR < 2 + (mapData capacity).sectors ∨ _
      unfold ROOT_DIR_SECTOR
      omega
  · refine created_data (Nat.le_refl _) ?_
    rw [hone]
    exact Nat.lt_succ_self _
  · show created s₁.disk ROOT_DIR_SECTOR _ sec k = s.disk sec k
    subst hsec
    rw [hkeep _ (by decide) (by unfold FREE_MAP_SECTOR; omega), hother _ ?_ k hk]
    show ¬ (mapData capacity).Has FREE_MAP_SECTOR
    rw [mapData_has]
    unfold FREE_MAP_SECTOR
    omega

/-- **`free_map_close`**, for the only handle of the file. -/
theorem freeMapClose_spec {f : FilePtr} {file : File} {inode : Inode} (hf : s.freeMapFile = some f)
    (hfile : s.files f = some file) (hdeny : file.denyWrite = false)
    (hp : s.inodes file.inode = some inode) (hremoved : inode.removed = false) (hopen : inode.openCnt = 1) :
    (freeMapClose).run s = .ok ((),
      { s with
        inodes := update s.inodes file.inode none
        openInodes := s.openInodes.erase file.inode
        files := update s.files f none }) := by
  have hread : (Prog.read fun s => .ok s.freeMapFile : FsProg (Option FilePtr)).run s = .ok (some f, s) :=
    Prog.run_read (by rw [hf])
  have hallow : (fileAllowWrite f).run s = .ok ((), s) := by
    rw [fileAllowWrite, Prog.run_bind_ok (run_derefFile hfile), hdeny]
    rfl
  have hclose := run_inodeClose hp hremoved
  rw [closed, if_pos hopen] at hclose
  rw [freeMapClose, Prog.run_bind_ok hread, fileClose, Prog.run_bind_ok hallow,
    Prog.run_bind_ok (run_derefFile hfile), Prog.run_bind_ok hclose]
  exact Prog.run_write rfl

/-- What formatting leaves. -/
structure Formatted (s : FileSys) (capacity : Nat) (stack : List Byte) : Prop where
  size : s.capacity = capacity
  map : MapFile s 2 (mapData capacity)
  bitCnt : s.freeMap.bitCnt = capacity
  bits : s.freeMap.bits = usedBelow capacity (3 + (mapData capacity).sectors)
  stored : (storedMap s (mapData capacity)).bits = s.freeMap.bits
  mapSector : InodeDisk.ofSector (s.disk FREE_MAP_SECTOR) = mapData capacity
  rootSector : InodeDisk.ofSector (s.disk ROOT_DIR_SECTOR) = rootData capacity
  /-- The root directory is empty. -/
  zeros : ∀ k, k < DISK_SECTOR_SIZE → s.disk (rootData capacity).start k = 0
  freeMapFile : s.freeMapFile = some 3
  openInodes : s.openInodes = [2]
  inodes : s.inodes = update (fun _ => none) 2 (some { sector := FREE_MAP_SECTOR, openCnt := 1, removed := false, denyWriteCnt := 0, data := mapData capacity })
  files : s.files = update (fun _ => none) 3 (some { inode := 2, pos := 0, denyWrite := false })
  brk : s.brk = 4
  stack : s.stack = stack

/-- **Formatting** a disk that is large enough. -/
theorem format_spec (hf : Formattable capacity) (hblock : block.length = elemCnt capacity)
    (disk : Nat → Sector) (freeMap : WordBitmap) (stack : List Byte) (inode : InodeDisk) :
    ∃ s, (filesysInit true block).run (FileSys.boot disk capacity freeMap stack inode) = .ok ((), s) ∧
      Formatted s capacity stack := by
  obtain ⟨-, -, hsmall⟩ := hf.bounds
  have hle := hf.1
  obtain ⟨hok, hbits⟩ := bits_freeMapInit hblock (by omega)
  generalize hfm : (((WordBitmap.create capacity block).mark FREE_MAP_SECTOR).mark ROOT_DIR_SECTOR) = fm at hok hbits
  have hcnt : fm.bitCnt = capacity := by
    rw [← hfm]
    exact WordBitmap.bitCnt_create
  have hinit : (freeMapInit block).run (FileSys.boot disk capacity freeMap stack inode) =
      .ok ((), { FileSys.boot disk capacity freeMap stack inode with freeMap := fm }) := by
    rw [← hfm]
    exact Prog.run_write rfl
  obtain ⟨s₁, hcreate, hm₁, hst₁, hbits₁, hcnt₁, hsec₁, hs₁⟩ :=
    freeMapCreate_spec (s := { FileSys.boot disk capacity freeMap stack inode with freeMap := fm }) hf rfl
      hcnt hok hbits rfl rfl
  have hcap₁ : s₁.capacity = capacity := by
    rw [hs₁]
    rfl
  obtain ⟨s₂, hdir, hmap₂, hroot₂, hzero₂, hsec₂⟩ := dirCreate_root hf hcap₁ hm₁ hbits₁
  have hcap₂ : s₂.capacity = capacity := by rw [hmap₂.frame, hcap₁]
  have hfile₂ : s₂.freeMapFile = some 1 := by
    rw [hmap₂.frame, hs₁]
    rfl
  have hfiles₂ : s₂.files 1 = some { inode := 0, pos := 0, denyWrite := false } := by
    rw [hmap₂.frame, hs₁]
    rfl
  have hinode₂ : s₂.inodes 0 = some { sector := FREE_MAP_SECTOR, openCnt := 1, removed := false, denyWriteCnt := 0, data := mapData capacity } := by
    rw [hmap₂.frame, hs₁]
    rfl
  have hclose := freeMapClose_spec hfile₂ hfiles₂ rfl hinode₂ rfl rfl
  generalize hs₃ : ({ s₂ with
        inodes := update s₂.inodes 0 none
        openInodes := s₂.openInodes.erase 0
        files := update s₂.files 1 none } : FileSys) = s₃ at hclose
  have hdisk₃ : s₃.disk = s₂.disk := by rw [← hs₃]
  have hcap₃ : s₃.capacity = capacity := by rw [← hs₃, hcap₂]
  have hfm₃ : s₃.freeMap = s₂.freeMap := by rw [← hs₃]
  have hsec₃ : InodeDisk.ofSector (s₃.disk FREE_MAP_SECTOR) = mapData capacity := by
    rw [hdisk₃, ← hsec₁]
    exact InodeDisk.ofSector_congr fun k hk => hsec₂ _ rfl k hk
  have hcnt₃ : s₃.freeMap.bitCnt = capacity := by rw [hfm₃, hmap₂.bitCnt, hcnt₁]
  obtain ⟨b, hopen, hbcnt, hbok, hbbits⟩ := freeMapOpen_spec (s := s₃) (by rw [← hs₃, hmap₂.frame, hs₁]; rfl)
    (hf.selects hcap₃ (by unfold FREE_MAP_SECTOR; omega)) (by rw [hsec₃, hcnt₃]; rfl)
    (by rw [hsec₃]; exact hf.mapOnDisk hcap₃) (by rw [hfm₃]; exact hmap₂.ok)
  have hbits : b.bits = usedBelow capacity (3 + (mapData capacity).sectors) := by
    rw [hbbits, hsec₃, ← hmap₂.stored]
    unfold storedMap
    rw [hdisk₃, hfm₃]
  refine ⟨{ mapOpened s₃ with freeMap := b }, ?_, ?_⟩
  · rw [filesysInit, Prog.run_bind_ok hinit]
    simp only [if_true]
    rw [doFormat, Prog.run_bind, Prog.run_bind_ok hcreate, Prog.run_bind_ok hdir]
    simp only [if_true]
    rw [hclose]
    exact hopen
  · have hbrk : s₃.brk = 2 := by
      rw [← hs₃, hmap₂.frame, hs₁]
      rfl
    have hinodes : s₃.inodes = fun _ => none := by
      rw [← hs₃, hmap₂.frame, hs₁]
      exact (update_idem _ _ _).trans (update_eq_self 0 _)
    have hfiles : s₃.files = fun _ => none := by
      rw [← hs₃, hmap₂.frame, hs₁]
      exact (update_idem _ _ _).trans (update_eq_self 1 _)
    have hm₃ : MapFile (mapOpened s₃) 2 (mapData capacity) := by
      have hm := mapOpened_mapFile (s := s₃) (by rw [hsec₃, hcnt₃]; rfl)
        (by rw [hsec₃]; exact hf.mapOnDisk hcap₃) (by rw [hfm₃]; exact hmap₂.ok)
      rwa [hsec₃, hbrk] at hm
    constructor
    case size => exact hcap₃
    case map => exact hm₃.setFreeMap hbcnt hbok
    case bitCnt => exact hbcnt.trans hcnt₃
    case bits => exact hbits
    case stored =>
      show _ = b.bits
      rw [hbbits, hsec₃]
      unfold storedMap
      simp only [hbcnt]
      rfl
    case mapSector => exact hsec₃
    case rootSector =>
      show InodeDisk.ofSector (s₃.disk ROOT_DIR_SECTOR) = _
      rw [hdisk₃, hroot₂]
    case zeros =>
      intro k _
      show s₃.disk (rootData capacity).start k = 0
      rw [hdisk₃, hzero₂]
    case freeMapFile =>
      show some (s₃.brk + 1) = some 3
      rw [hbrk]
    case openInodes =>
      show s₃.brk :: s₃.openInodes = [2]
      rw [hbrk, ← hs₃, hmap₂.frame, hs₁]
      rfl
    case inodes =>
      show update s₃.inodes s₃.brk (some (loaded s₃ FREE_MAP_SECTOR)) = _
      rw [hinodes, hbrk, loaded, hsec₃]
    case files =>
      show update s₃.files (s₃.brk + 1) (some { inode := s₃.brk, pos := 0, denyWrite := false }) = _
      rw [hfiles, hbrk]
    case brk =>
      show s₃.brk + 2 = 4
      rw [hbrk]
    case stack =>
      show s₃.stack = stack
      rw [← hs₃, hmap₂.frame, hs₁]
      rfl

end Pintos
