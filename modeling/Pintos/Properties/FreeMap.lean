import Pintos.Properties.OpenFiles

/-!
# The free map and its file

What the functions of `filesys/free-map.c` do where the free map file is open.

* `MapFile` — the file of the free map, on an inode with room for the map
* `MapWritten` — the map has been changed and written
* `freeMapAllocate_some`, `freeMapRelease_spec` — a run of sectors is taken, and given back
* `MapFile.bitmapRead` — a map that is read has the bits that are stored
* `MapIs` — the bits of the map, in memory and in the file
-/

namespace Pintos

open Function LittleEndian

/-! ## Runs of sectors -/

/-- The number of data sectors of an inode. -/
def InodeDisk.sectors (d : InodeDisk) : Nat := (d.length.toNat + 511) / 512

/-- `sec` is a data sector of the inode. -/
def InodeDisk.Has (d : InodeDisk) (sec : Nat) : Prop := d.start ≤ sec ∧ sec < d.start + d.sectors

instance (d : InodeDisk) (sec : Nat) : Decidable (d.Has sec) := inferInstanceAs (Decidable (_ ∧ _))

/-- The disks hold the same bytes in the sectors of `R`. -/
def SameOn (R : Nat → Prop) (disk disk' : Nat → Sector) : Prop :=
  ∀ sec, R sec → ∀ k, k < DISK_SECTOR_SIZE → disk sec k = disk' sec k

variable {s s' : FileSys} {p : InodePtr} {d d' : InodeDisk} {disk disk' : Nat → Sector}
  {R R' : Nat → Prop} {b : WordBitmap} {offset cnt sector i : Nat} {f : FilePtr} {s₁ s₂ : FileSys}
  {bits : Bitmap} {a n : Nat}

theorem SameOn.refl (R : Nat → Prop) (disk : Nat → Sector) : SameOn R disk disk := fun _ _ _ _ => rfl

theorem SameOn.trans {disk'' : Nat → Sector} (h : SameOn R disk disk') (h' : SameOn R disk' disk'') :
    SameOn R disk disk'' := fun sec hr k hk => (h sec hr k hk).trans (h' sec hr k hk)

theorem SameOn.mono (h : SameOn R disk disk') (hr : ∀ sec, R' sec → R sec) : SameOn R' disk disk' :=
  fun sec hs => h sec (hr sec hs)

theorem SameDisk.sameOn (h : SameDisk disk disk') (R : Nat → Prop) : SameOn R disk disk' :=
  fun sec _ => h sec

/-- The sector of a byte of a file. -/
theorem InodeDisk.has_div (d : InodeDisk) (h : i < d.length.toNat) :
    d.Has (d.start + i / DISK_SECTOR_SIZE) := by
  unfold Has sectors DISK_SECTOR_SIZE
  omega

theorem fileByte_congr (h : SameOn d.Has disk disk') (hi : i < d.length.toNat) :
    fileByte disk d.start i = fileByte disk' d.start i :=
  h _ (d.has_div hi) _ (Nat.mod_lt _ (by decide))

theorem fileBytes_congr (h : SameOn d.Has disk disk') (hle : offset + cnt ≤ d.length.toNat) :
    fileBytes disk d.start offset cnt = fileBytes disk' d.start offset cnt := by
  refine List.map_congr_left fun k hk => ?_
  rw [List.mem_range] at hk
  exact fileByte_congr h (by omega)

theorem SameDisk.fileBytes (h : SameDisk disk disk') (start offset cnt : Nat) :
    fileBytes disk start offset cnt = fileBytes disk' start offset cnt :=
  List.map_congr_left fun _ _ => h.fileByte _ _

/-- A write to a file leaves the other sectors. -/
theorem sameOn_patched (disk : Nat → Sector) {bytes : List Byte}
    (h : offset + bytes.length ≤ d.length.toNat) :
    SameOn (fun sec => ¬ d.Has sec) (patched disk d.start offset bytes) disk := by
  intro sec hsec k _
  refine patched_of_not_mem (n := d.sectors) ?_ ?_ k
  · unfold InodeDisk.sectors DISK_SECTOR_SIZE
    omega
  · unfold InodeDisk.Has at hsec
    omega

/-- The bytes that were written are read. -/
theorem fileBytes_patched_self (disk : Nat → Sector) (start offset : Nat) (bytes : List Byte) :
    fileBytes (patched disk start offset bytes) start offset bytes.length = bytes := by
  refine List.ext_getElem (length_fileBytes _ _ _ _) fun k hk hk' => ?_
  simp only [fileBytes, List.getElem_map, List.getElem_range, fileByte_patched]
  rw [if_pos (by omega), Nat.add_sub_cancel_left, List.getD_eq_getElem?_getD,
    List.getElem?_eq_getElem hk', Option.getD_some]

/-- Bytes outside of those that were written. -/
theorem fileBytes_patched_of_disjoint (disk : Nat → Sector) (start : Nat) {bytes : List Byte}
    {offset' : Nat} (h : offset' + cnt ≤ offset ∨ offset + bytes.length ≤ offset') :
    fileBytes (patched disk start offset bytes) start offset' cnt = fileBytes disk start offset' cnt := by
  refine List.map_congr_left fun k hk => ?_
  rw [List.mem_range] at hk
  rw [fileByte_patched, if_neg (by omega)]

/-! ## The file of the map -/

/-- The free map file is open, on the inode `p` with the data `d`. -/
structure MapFile (s : FileSys) (p : InodePtr) (d : InodeDisk) : Prop where
  file : ∃ f file, s.freeMapFile = some f ∧ s.files f = some file ∧ file.inode = p
  inode : ∃ inode, s.inodes p = some inode ∧ inode.data = d ∧ inode.denyWriteCnt = 0 ∧
    inode.sector = FREE_MAP_SECTOR
  length : d.length = byteCnt s.freeMap.bitCnt
  onDisk : OnDisk s d
  ok : s.freeMap.Ok

/-- The map that is stored in the file. -/
def storedMap (s : FileSys) (d : InodeDisk) : WordBitmap where
  bitCnt := s.freeMap.bitCnt
  elems := ofBytes (elemCnt s.freeMap.bitCnt) (fileBytes s.disk d.start 0 (byteCnt s.freeMap.bitCnt))

/-- The free map became `b`, and was written. -/
structure MapWritten (s s' : FileSys) (d : InodeDisk) (b : WordBitmap) : Prop where
  frame : s' = { s with freeMap := b, disk := s'.disk }
  other : SameOn (fun sec => ¬ d.Has sec) s'.disk s.disk
  stored : storedMap s' d = b

theorem MapFile.transferred (h : MapFile s p d) :
    transferred d (byteCnt s.freeMap.bitCnt) 0 = byteCnt s.freeMap.bitCnt := by
  have hlen := h.length
  unfold Pintos.transferred
  omega

theorem MapFile.length_toBytes (h : MapFile s p d) :
    (toBytes s.freeMap.elems).length = byteCnt s.freeMap.bitCnt := by
  rw [LittleEndian.length_toBytes, h.ok, byteCnt]

/-- The free map is given other bits, in memory. -/
theorem MapFile.setFreeMap (h : MapFile s p d) (hcnt : b.bitCnt = s.freeMap.bitCnt) (hok : b.Ok) :
    MapFile { s with freeMap := b } p d where
  file := h.file
  inode := h.inode
  length := by
    show d.length = byteCnt b.bitCnt
    rw [hcnt]
    exact h.length
  onDisk := h.onDisk.congr rfl
  ok := hok

/-- Another disk of the same size. -/
theorem MapFile.setDisk (h : MapFile s p d) (disk : Nat → Sector) :
    MapFile { s with disk := disk } p d where
  file := h.file
  inode := h.inode
  length := h.length
  onDisk := h.onDisk.congr rfl
  ok := h.ok

theorem MapWritten.mapFile (hw : MapWritten s s' d b) (h : MapFile s p d)
    (hcnt : b.bitCnt = s.freeMap.bitCnt) (hok : b.Ok) : MapFile s' p d := by
  rw [hw.frame]
  exact (h.setFreeMap hcnt hok).setDisk _

/-- **`bitmap_write`** of the free map. -/
theorem MapFile.bitmapWrite (h : MapFile s p d) (hf : s.freeMapFile = some f) :
    ∃ s', (bitmapWrite (·.freeMap) f).run s = .ok (true, s') ∧ MapWritten s s' d s.freeMap := by
  obtain ⟨f', file, hf', hfile, hp⟩ := h.file
  obtain ⟨inode, hinode, hd, hdeny, -⟩ := h.inode
  subst hd
  rw [hf, Option.some.injEq] at hf'
  subst hf' hp
  have htake : (toBytes s.freeMap.elems).take (byteCnt s.freeMap.bitCnt) = toBytes s.freeMap.elems :=
    List.take_of_length_le (Nat.le_of_eq h.length_toBytes)
  have hbuf : ∀ disk, (fun s : FileSys => toBytes s.freeMap.elems) { s with disk := disk } =
      toBytes s.freeMap.elems := fun _ => rfl
  have hwrite := inodeWriteAt_spec (fun s => toBytes s.freeMap.elems) (byteCnt s.freeMap.bitCnt) 0 hinode h.onDisk hbuf hdeny
    (Nat.le_of_eq h.length_toBytes.symm)
  rw [h.transferred, htake] at hwrite
  obtain ⟨disk, hrun, hsame⟩ := hwrite
  have hbound : 0 + (toBytes s.freeMap.elems).length ≤ inode.data.length.toNat := by
    have hlen := h.length
    rw [h.length_toBytes]
    omega
  refine ⟨{ s with disk := disk }, ?_, rfl, ?_, ?_⟩
  · have hsize : (Prog.read fun s : FileSys => .ok (byteCnt s.freeMap.bitCnt) : FsProg Nat).run s =
        .ok (byteCnt s.freeMap.bitCnt, s) := Prog.run_read rfl
    rw [Pintos.bitmapWrite, Prog.run_bind_ok hsize, Prog.run_bind, fileWriteAt,
      Prog.run_bind_ok (run_derefFile hfile), hrun]
    simp
  · exact (hsame.sameOn _).trans (sameOn_patched _ hbound)
  · have hread : fileBytes disk inode.data.start 0 (byteCnt s.freeMap.bitCnt) =
        toBytes s.freeMap.elems := by
      rw [hsame.fileBytes, ← h.length_toBytes, fileBytes_patched_self]
    have helems : ofBytes (elemCnt s.freeMap.bitCnt) (toBytes s.freeMap.elems) = s.freeMap.elems := by
      rw [← h.ok, ofBytes_toBytes]
    unfold storedMap
    simp only [hread, helems]

/-! ## Taking and giving back sectors -/

theorem freeMapAllocate_none (h : bitmapScan s.freeMap.bits 0 cnt false = none) :
    (freeMapAllocate cnt).run s = .ok (none, s) := by
  have hscan : s.freeMap.scan 0 cnt false = none := by rw [WordBitmap.scan_eq, h]
  rw [freeMapAllocate, Prog.run_bind, Prog.run_lift, WordBitmap.scanAndFlip, hscan]
  rfl

/-- Sectors are taken before there is a file. -/
theorem freeMapAllocate_unopened (hf : s.freeMapFile = none)
    (h : bitmapScan s.freeMap.bits 0 cnt false = some i) :
    (freeMapAllocate cnt).run s = .ok (some i, { s with freeMap := s.freeMap.setMultiple i cnt true }) := by
  have hscan : s.freeMap.scan 0 cnt false = some i := by rw [WordBitmap.scan_eq, h]
  rw [freeMapAllocate, Prog.run_bind, Prog.run_lift, WordBitmap.scanAndFlip, hscan]
  simp only [Bool.not_false]
  rw [Prog.run_bind_ok (Prog.run_read (a := none) (by rw [hf]))]
  rfl

/-- **`free_map_allocate`** takes the first run of free sectors. -/
theorem freeMapAllocate_some (hm : MapFile s p d)
    (h : bitmapScan s.freeMap.bits 0 cnt false = some i) :
    ∃ s', (freeMapAllocate cnt).run s = .ok (some i, s') ∧
      MapWritten s s' d (s.freeMap.setMultiple i cnt true) := by
  obtain ⟨f, -, hf, -, -⟩ := hm.file
  have hscan : s.freeMap.scan 0 cnt false = some i := by rw [WordBitmap.scan_eq, h]
  have hm' := hm.setFreeMap (b := s.freeMap.setMultiple i cnt true) WordBitmap.bitCnt_setMultiple
    hm.ok.setMultiple
  obtain ⟨s', hrun, hw⟩ := hm'.bitmapWrite (f := f) hf
  refine ⟨s', ?_, ?_⟩
  · rw [freeMapAllocate, Prog.run_bind, Prog.run_lift, WordBitmap.scanAndFlip, hscan]
    simp only [Bool.not_false]
    rw [Prog.run_bind_ok (Prog.run_read (a := some f) (by rw [← hf])), Prog.run_bind_ok hrun]
    rfl
  · exact ⟨hw.frame, hw.other, hw.stored⟩

/-- **`free_map_release`** of sectors that are all in use. -/
theorem freeMapRelease_spec (hm : MapFile s p d) (hle : sector + cnt ≤ s.freeMap.bitCnt)
    (hall : bitmapAll s.freeMap.bits sector cnt = true) :
    ∃ s', (freeMapRelease sector cnt).run s = .ok ((), s') ∧
      MapWritten s s' d (s.freeMap.setMultiple sector cnt false) := by
  obtain ⟨f, -, hf, -, -⟩ := hm.file
  have hm' := hm.setFreeMap (b := s.freeMap.setMultiple sector cnt false)
    WordBitmap.bitCnt_setMultiple hm.ok.setMultiple
  obtain ⟨s', hrun, hw⟩ := hm'.bitmapWrite (f := f) hf
  refine ⟨s', ?_, ⟨hw.frame, hw.other, hw.stored⟩⟩
  have hfree : (Prog.write fun s : FileSys =>
      if sector + cnt ≤ s.freeMap.bitCnt ∧ s.freeMap.all sector cnt then
        .ok { s with freeMap := s.freeMap.setMultiple sector cnt false }
      else .error FsFault.release).run s =
      .ok ((), { s with freeMap := s.freeMap.setMultiple sector cnt false }) := by
    refine Prog.run_write (if_pos ⟨hle, ?_⟩)
    rw [WordBitmap.all_eq hle, hall]
  rw [freeMapRelease, Prog.run_bind_ok hfree,
    Prog.run_bind_ok (Prog.run_read (a := some f) (by rw [← hf]))]
  simp only
  rw [Prog.run_bind_ok hrun]
  rfl

/-- **`bitmap_read`** of the free map file, into a map of the same size. -/
theorem MapFile.bitmapRead (h : MapFile s p d) (hf : s.freeMapFile = some f)
    (hcnt : b.bitCnt = s.freeMap.bitCnt) (hok : b.Ok) :
    ∃ b', (bitmapRead b f).run s = .ok ((true, b'), s) ∧ b'.bitCnt = b.bitCnt ∧ b'.Ok ∧
      b'.bits = (storedMap s d).bits := by
  obtain ⟨f', file, hf', hfile, hp⟩ := h.file
  obtain ⟨inode, hinode, hd, -⟩ := h.inode
  subst hd
  rw [hf, Option.some.injEq] at hf'
  subst hf' hp
  unfold Pintos.bitmapRead
  split
  · have hread := inodeReadAt_spec hinode h.onDisk (byteCnt b.bitCnt) 0
    rw [hcnt, h.transferred] at hread
    have helems : (toBytes b.elems).drop (byteCnt s.freeMap.bitCnt) = [] := by
      refine List.drop_of_length_le (Nat.le_of_eq ?_)
      rw [LittleEndian.length_toBytes, hok, ← hcnt, byteCnt]
    have hstored : WordBitmap.mk b.bitCnt (ofBytes (elemCnt b.bitCnt)
        (fileBytes s.disk inode.data.start 0 (byteCnt s.freeMap.bitCnt) ++
          (toBytes b.elems).drop (byteCnt s.freeMap.bitCnt))) = storedMap s inode.data := by
      rw [helems, List.append_nil, storedMap, hcnt]
    have hsok : (storedMap s inode.data).Ok := by
      rw [WordBitmap.Ok, storedMap, length_ofBytes]
    refine ⟨(storedMap s inode.data).maskLast, ?_, hcnt.symm, ?_, WordBitmap.bits_maskLast hsok⟩
    · rw [hcnt, Prog.run_bind, fileReadAt, Prog.run_bind_ok (run_derefFile hfile), hread]
      simp only [length_fileBytes, decide_true]
      rw [← hcnt] at hstored ⊢
      rw [hstored]
      rfl
    · unfold WordBitmap.Ok WordBitmap.maskLast
      rw [List.length_modify]
      exact hsok
  · next hzero =>
    refine ⟨b, rfl, rfl, hok, ?_⟩
    have hb : b.bits = [] := List.eq_nil_of_length_eq_zero (by rw [WordBitmap.length_bits]; omega)
    have hs : (storedMap s inode.data).bits = [] := by
      refine List.eq_nil_of_length_eq_zero ?_
      rw [WordBitmap.length_bits]
      show s.freeMap.bitCnt = 0
      omega
    rw [hb, hs]

/-! ## The bits of the map -/

/-- The free map has become `bits`, in memory and in its file. -/
structure MapIs (s s' : FileSys) (d : InodeDisk) (bits : Bitmap) : Prop where
  frame : s' = { s with freeMap := s'.freeMap, disk := s'.disk }
  ok : s'.freeMap.Ok
  bitCnt : s'.freeMap.bitCnt = s.freeMap.bitCnt
  memory : s'.freeMap.bits = bits
  stored : (storedMap s' d).bits = bits

theorem MapWritten.mapIs {b : WordBitmap} (h : MapWritten s s' d b) (hok : b.Ok)
    (hcnt : b.bitCnt = s.freeMap.bitCnt) : MapIs s s' d b.bits := by
  have hmap : s'.freeMap = b := by rw [h.frame]
  exact ⟨by rw [hmap]; exact h.frame, by rw [hmap]; exact hok, by rw [hmap, hcnt], by rw [hmap],
    by rw [h.stored]⟩

theorem MapIs.trans {bits' : Bitmap} (h : MapIs s s₁ d bits) (h' : MapIs s₁ s₂ d bits') :
    MapIs s s₂ d bits' where
  frame := by
    rw [h'.frame, h.frame]
  ok := h'.ok
  bitCnt := h'.bitCnt.trans h.bitCnt
  memory := h'.memory
  stored := h'.stored

/-- Sectors of other files are written. -/
theorem MapIs.setDisk (h : MapIs s s₁ d bits) (hm : d.length = byteCnt s.freeMap.bitCnt)
    {disk : Nat → Sector} (hd : SameOn d.Has disk s₁.disk) : MapIs s { s₁ with disk := disk } d bits where
  frame := by
    rw [h.frame]
  ok := h.ok
  bitCnt := h.bitCnt
  memory := h.memory
  stored := by
    rw [← h.stored]
    unfold storedMap
    simp only
    rw [fileBytes_congr hd (by rw [h.bitCnt]; omega)]

theorem MapIs.mapFile (h : MapIs s s' d bits) (hm : MapFile s p d) : MapFile s' p d := by
  rw [h.frame]
  exact (hm.setFreeMap h.bitCnt h.ok).setDisk _

/-- A run of free sectors is taken. -/
theorem MapFile.allocate (hm : MapFile s p d) (h : bitmapScan s.freeMap.bits 0 n false = some a) :
    ∃ s', (freeMapAllocate n).run s = .ok (some a, s') ∧
      MapIs s s' d (bitmapSetMultiple s.freeMap.bits a n true) ∧
      SameOn (fun sec => ¬ d.Has sec) s'.disk s.disk := by
  obtain ⟨s', hrun, hw⟩ := freeMapAllocate_some hm h
  obtain ⟨-, hle, -⟩ := bitmapScan_some h
  rw [WordBitmap.length_bits] at hle
  have his := hw.mapIs hm.ok.setMultiple WordBitmap.bitCnt_setMultiple
  rw [WordBitmap.bits_setMultiple hm.ok hle] at his
  exact ⟨s', hrun, his, hw.other⟩

/-- A run of sectors in use is given back. -/
theorem MapFile.release (hm : MapFile s p d) (hle : a + n ≤ s.freeMap.bitCnt)
    (hused : ∀ i, a ≤ i → i < a + n → s.freeMap.bits[i]? = some true) :
    ∃ s', (freeMapRelease a n).run s = .ok ((), s') ∧
      MapIs s s' d (bitmapSetMultiple s.freeMap.bits a n false) ∧
      SameOn (fun sec => ¬ d.Has sec) s'.disk s.disk := by
  have hall : bitmapAll s.freeMap.bits a n = true := by
    rw [bitmapAll, Bool.not_eq_true', bitmapContains_eq_false]
    intro i hi hlt hc
    rw [hused i hi hlt] at hc
    cases hc
  obtain ⟨s', hrun, hw⟩ := freeMapRelease_spec hm hle hall
  have his := hw.mapIs hm.ok.setMultiple WordBitmap.bitCnt_setMultiple
  rw [WordBitmap.bits_setMultiple hm.ok hle] at his
  exact ⟨s', hrun, his, hw.other⟩

/-- What was taken is given back. -/
theorem bitmapSetMultiple_undo (hfree : ∀ i, a ≤ i → i < a + n → bits[i]? = some false) :
    bitmapSetMultiple (bitmapSetMultiple bits a n true) a n false = bits := by
  refine List.ext_getElem? fun i => ?_
  rw [getElem?_bitmapSetMultiple, getElem?_bitmapSetMultiple, length_bitmapSetMultiple]
  by_cases hi : a ≤ i ∧ i < a + n ∧ i < bits.length
  · rw [if_pos hi, hfree i hi.1 hi.2.1]
  · rw [if_neg hi, if_neg hi]

/-- Runs that do not meet are taken and given back in any order. -/
theorem bitmapSetMultiple_comm {v w : Bool} {c m : Nat} (h : a + n ≤ c ∨ c + m ≤ a) :
    bitmapSetMultiple (bitmapSetMultiple bits a n v) c m w =
      bitmapSetMultiple (bitmapSetMultiple bits c m w) a n v := by
  refine List.ext_getElem? fun i => ?_
  rw [getElem?_bitmapSetMultiple, getElem?_bitmapSetMultiple, getElem?_bitmapSetMultiple,
    getElem?_bitmapSetMultiple, length_bitmapSetMultiple, length_bitmapSetMultiple]
  by_cases h₁ : a ≤ i ∧ i < a + n ∧ i < bits.length
  · rw [if_pos h₁, if_neg (by omega), if_pos h₁]
  · rw [if_neg h₁, if_neg h₁]

end Pintos
