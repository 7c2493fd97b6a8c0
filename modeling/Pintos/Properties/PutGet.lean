import Mathlib.Algebra.GroupWithZero.Nat
import Pintos.Filesys.Fsutil
import Pintos.Properties.Volume

/-!
# Files that are put and got back

The files of a scratch disk are put into a file system that was just formatted, and are got back in any order.

* `PutAt`, `GetAt` — a file on the scratch disk, as `fsutil_put` reads it and as `fsutil_get` writes it
* `fsutilPut_spec`, `fsutilGet_spec` — one file
* `put_get_round_trip` — all of them
-/

namespace Pintos

open Function LittleEndian SlotMap

/-! ## The scratch disk -/

/-- The number of sectors for `n` bytes. -/
def sectorCnt (n : Nat) : Nat := (n + 511) / 512

/-- The sectors from `sec` on hold a file to put. -/
structure PutAt (scratch : Nat → Sector) (sec : Nat) (bytes : List Byte) : Prop where
  signature : sectorBytes (scratch sec) 0 4 = PUT
  size : sectorBytes (scratch sec) 4 4 = leBytes 4 bytes.length
  bytes : fileBytes scratch (sec + 1) 0 bytes.length = bytes

/-- The sectors from `sec` on hold a file that was got: a header, and the bytes with zeros behind them. -/
structure GetAt (scratch : Nat → Sector) (sec : Nat) (bytes : List Byte) : Prop where
  header : ∀ k, k < DISK_SECTOR_SIZE → scratch sec k = (GET ++ leBytes 4 bytes.length).getD k 0
  bytes : ∀ i, i < sectorCnt bytes.length * DISK_SECTOR_SIZE → fileByte scratch (sec + 1) i = bytes.getD i 0

/-- Files one after the other. -/
def LaidOut (At : (Nat → Sector) → Nat → List Byte → Prop) (scratch : Nat → Sector) :
    Nat → List (List Byte) → Prop
  | _, [] => True
  | sec, bytes :: rest => At scratch sec bytes ∧ LaidOut At scratch (sec + 1 + sectorCnt bytes.length) rest

/-- The sectors of files one after the other, with their headers. -/
def archiveSize (files : List (List Byte)) : Nat := (files.map fun bytes => 1 + sectorCnt bytes.length).sum

variable {s s' : FileSys} {t : Transfer} {f : StoredFile} {α : Type} {p : FsProg α} {a : α} {capacity next : Nat}
  {files : List StoredFile} {name : CStr} {bytes : List Byte} {scratch scratch' : Nat → Sector} {sec size : Nat}

@[simp] theorem archiveSize_cons (bytes : List Byte) (rest : List (List Byte)) :
    archiveSize (bytes :: rest) = 1 + sectorCnt bytes.length + archiveSize rest := by
  rw [archiveSize, List.map_cons, List.sum_cons, archiveSize]

/-! ## Single steps -/

theorem run_onFilesys (h : p.run t.fs = .ok (a, s')) : (onFilesys p).run t = .ok (a, { t with fs := s' }) := by
  rw [onFilesys, Prog.run_zoom Transfer.fs (fun t fs => { t with fs := fs }) _ (fun _ _ => rfl) (fun _ _ _ => rfl)
    fun _ => rfl, h]

theorem run_readScratch (hsize : t.putSector < t.scratchSize) (h28 : t.putSector < 2 ^ 28) :
    (readScratch).run t = .ok (t.scratch t.putSector, { t with putSector := t.putSector + 1 }) := by
  have hmod : (t.putSector + 1) % 2 ^ 32 = t.putSector + 1 := by omega
  rw [readScratch, Prog.run_lift, if_pos ⟨hsize, h28⟩, hmod]

theorem run_writeScratch (hsize : t.getSector < t.scratchSize) (h28 : t.getSector < 2 ^ 28) (buffer : Sector) :
    (writeScratch buffer).run t = .ok ((),
      { t with scratch := update t.scratch t.getSector buffer, getSector := t.getSector + 1 }) := by
  have hmod : (t.getSector + 1) % 2 ^ 32 = t.getSector + 1 := by omega
  refine Prog.run_write ?_
  rw [if_pos ⟨hsize, h28⟩, hmod]

theorem copySize_cases (h : size ≠ 0) : 0 < copySize size ∧ copySize size ≤ size ∧
    copySize size ≤ DISK_SECTOR_SIZE ∧ (copySize size = size ∨ copySize size = DISK_SECTOR_SIZE) := by
  unfold copySize DISK_SECTOR_SIZE
  split <;> omega

theorem sectorCnt_succ (h : size ≠ 0) : sectorCnt size = 1 + sectorCnt (size - copySize size) := by
  unfold sectorCnt copySize DISK_SECTOR_SIZE
  split <;> omega

/-- The bytes of one round are those of one sector. -/
theorem fileBytes_copySize (disk : Nat → Sector) (start : Nat) (h : size ≠ 0) :
    fileBytes disk start 0 size =
      fileBytes disk start 0 (copySize size) ++ fileBytes disk (start + 1) 0 (size - copySize size) := by
  obtain ⟨-, hle, -, hlast⟩ := copySize_cases h
  have hsplit : fileBytes disk start 0 (copySize size + (size - copySize size)) =
      fileBytes disk start 0 (copySize size) ++ fileBytes disk start (0 + copySize size) (size - copySize size) :=
    fileBytes_succ disk start _ _
  rw [Nat.add_sub_cancel' hle, Nat.zero_add] at hsplit
  rw [hsplit]
  refine congrArg _ (List.map_congr_left fun k hk => ?_)
  rw [List.mem_range] at hk
  -- bytes are left after a whole sector only
  have hfull : copySize size = DISK_SECTOR_SIZE := by omega
  have hdiv : (DISK_SECTOR_SIZE + k) / DISK_SECTOR_SIZE = k / DISK_SECTOR_SIZE + 1 := by
    unfold DISK_SECTOR_SIZE
    omega
  have hmod : (DISK_SECTOR_SIZE + k) % DISK_SECTOR_SIZE = k % DISK_SECTOR_SIZE := by
    unfold DISK_SECTOR_SIZE
    omega
  rw [hfull, fileByte, fileByte, hdiv, hmod, Nat.zero_add, Nat.add_assoc, Nat.add_comm 1]

theorem sectorBytes_copySize (disk : Nat → Sector) (start : Nat) (h : size ≠ 0) :
    sectorBytes (disk start) 0 (copySize size) = fileBytes disk start 0 (copySize size) := by
  obtain ⟨-, -, hle, -⟩ := copySize_cases h
  have hfirst : 0 % DISK_SECTOR_SIZE + copySize size ≤ DISK_SECTOR_SIZE := by
    rw [Nat.zero_mod]
    omega
  exact sectorBytes_eq disk start hfirst

/-! ## The loops -/

/-- The loop of `fsutil_put` copies the bytes of the following sectors. -/
theorem putLoop_spec (f : StoredFile) : ∀ (fuel size pos : Nat) {s : FileSys} {t : Transfer}, size ≤ fuel →
    OnDisk s f.data → pos + size = f.data.length.toNat → t.putSector + sectorCnt size ≤ t.scratchSize →
    t.putSector + sectorCnt size ≤ 2 ^ 28 →
    ∃ disk, (putLoop (s.brk + 2) fuel size).run { t with fs := fileOpened s f pos } = .ok ((),
        { t with
          fs := fileOpened { s with disk := disk } f (pos + size)
          putSector := t.putSector + sectorCnt size }) ∧
      SameDisk disk (patched s.disk f.data.start pos (fileBytes t.scratch t.putSector 0 size))
  | 0, size, pos, s, t, hfuel, hd, hsize, hroom, h28 => by
    have hz : size = 0 := by omega
    subst hz
    refine ⟨s.disk, rfl, ?_⟩
    show SameDisk s.disk (patched s.disk f.data.start pos [])
    rw [patched_nil]
    exact .refl _
  | fuel + 1, size, pos, s, t, hfuel, hd, hsize, hroom, h28 => by
    rw [putLoop]
    by_cases hz : size = 0
    · subst hz
      refine ⟨s.disk, rfl, ?_⟩
      show SameDisk s.disk (patched s.disk f.data.start pos [])
      rw [patched_nil]
      exact .refl _
    obtain ⟨hpos, hle, -, -⟩ := copySize_cases hz
    have hcnt := sectorCnt_succ hz
    have hread : (readScratch).run { t with fs := fileOpened s f pos } =
        .ok (t.scratch t.putSector, { t with fs := fileOpened s f pos, putSector := t.putSector + 1 }) :=
      run_readScratch (by show t.putSector < t.scratchSize; omega) (by show t.putSector < 2 ^ 28; omega)
    -- one sector is written
    have hlen : (fileBytes t.scratch t.putSector 0 (copySize size)).length = copySize size := length_fileBytes _ _ _ _
    have hroom' : pos + (fileBytes t.scratch t.putSector 0 (copySize size)).length ≤ f.data.length.toNat := by
      rw [hlen]
      omega
    obtain ⟨disk, hwrite, hsame⟩ := run_fileWrite_opened hd hroom'
    rw [hlen] at hwrite
    have hwrite' := run_onFilesys (t := { t with fs := fileOpened s f pos, putSector := t.putSector + 1 }) hwrite
    obtain ⟨disk', hrest, hsame'⟩ := putLoop_spec f fuel (size - copySize size) (pos + copySize size)
      (s := { s with disk := disk }) (t := { t with putSector := t.putSector + 1 }) (by omega) (hd.congr rfl)
      (by omega) (by show t.putSector + 1 + _ ≤ t.scratchSize; omega) (by show t.putSector + 1 + _ ≤ 2 ^ 28; omega)
    have hne : ¬ copySize size ≠ copySize size := not_not.mpr rfl
    refine ⟨disk', ?_, ?_⟩
    · rw [if_neg hz, Prog.run_bind_ok hread, sectorBytes_copySize _ _ hz, Prog.run_bind_ok hwrite', if_neg hne]
      have hpos' : pos + copySize size + (size - copySize size) = pos + size := by omega
      have hcnt' : t.putSector + 1 + sectorCnt (size - copySize size) = t.putSector + sectorCnt size := by omega
      rw [hpos', hcnt'] at hrest
      exact hrest
    · have hjoin := patched_patched s.disk f.data.start pos (fileBytes t.scratch t.putSector 0 (copySize size))
        (fileBytes t.scratch (t.putSector + 1) 0 (size - copySize size))
      rw [hlen, ← fileBytes_copySize _ _ hz] at hjoin
      rw [← hjoin]
      exact hsame'.trans (hsame.patched _ _ _)

/-- The bytes of the first sector, and of those behind it. -/
theorem getD_append_fileByte {first rest : List Byte} (hfirst : first.length ≤ DISK_SECTOR_SIZE)
    (hrest : rest = [] ∨ first.length = DISK_SECTOR_SIZE) {n : Nat}
    (hsec : ∀ k, k < DISK_SECTOR_SIZE → scratch sec k = first.getD k 0)
    (hn : ∀ i, i < n * DISK_SECTOR_SIZE → fileByte scratch (sec + 1) i = rest.getD i 0) :
    ∀ i, i < (1 + n) * DISK_SECTOR_SIZE → fileByte scratch sec i = (first ++ rest).getD i 0 := by
  intro i hi
  rw [List.getD_eq_getElem?_getD]
  by_cases hlt : i < DISK_SECTOR_SIZE
  · have hbyte : fileByte scratch sec i = first.getD i 0 := by
      rw [fileByte, Nat.div_eq_of_lt hlt, Nat.mod_eq_of_lt hlt]
      exact hsec i hlt
    rw [hbyte, List.getD_eq_getElem?_getD]
    by_cases hin : i < first.length
    · rw [List.getElem?_append_left hin]
    · rcases hrest with rfl | hc
      · rw [List.append_nil]
      · omega
  · have hbyte : fileByte scratch sec i = fileByte scratch (sec + 1) (i - DISK_SECTOR_SIZE) := by
      have hdiv : i / DISK_SECTOR_SIZE = (i - DISK_SECTOR_SIZE) / DISK_SECTOR_SIZE + 1 := by
        unfold DISK_SECTOR_SIZE at *
        omega
      have hmod : i % DISK_SECTOR_SIZE = (i - DISK_SECTOR_SIZE) % DISK_SECTOR_SIZE := by
        unfold DISK_SECTOR_SIZE at *
        omega
      rw [fileByte, fileByte, ← hmod, hdiv, Nat.add_assoc, Nat.add_comm 1]
    have hlt' : i - DISK_SECTOR_SIZE < n * DISK_SECTOR_SIZE := by
      unfold DISK_SECTOR_SIZE at *
      omega
    rw [hbyte, hn _ hlt', List.getD_eq_getElem?_getD]
    rcases hrest with rfl | hc
    · have hout : first[i]? = none := List.getElem?_eq_none (by omega)
      rw [List.append_nil, hout]
      rfl
    · rw [List.getElem?_append_right (by omega), hc]

/-- The loop of `fsutil_get` writes the bytes to the following sectors, with zeros behind the last one. -/
theorem getLoop_spec (f : StoredFile) : ∀ (fuel size pos : Nat) {s : FileSys} {t : Transfer}, size ≤ fuel →
    OnDisk s f.data → pos + size = f.data.length.toNat → t.getSector + sectorCnt size ≤ t.scratchSize →
    t.getSector + sectorCnt size ≤ 2 ^ 28 →
    ∃ scratch, (getLoop (s.brk + 2) fuel size).run { t with fs := fileOpened s f pos } = .ok ((),
        { t with
          fs := fileOpened s f (pos + size)
          scratch := scratch
          getSector := t.getSector + sectorCnt size }) ∧
      (∀ sec, sec < t.getSector → scratch sec = t.scratch sec) ∧
      ∀ i, i < sectorCnt size * DISK_SECTOR_SIZE →
        fileByte scratch t.getSector i = (fileBytes s.disk f.data.start pos size).getD i 0
  | 0, size, pos, s, t, hfuel, hd, hsize, hroom, h28 => by
    have hz : size = 0 := by omega
    subst hz
    exact ⟨t.scratch, rfl, fun _ _ => rfl, fun i hi => absurd hi (Nat.not_lt_zero i)⟩
  | fuel + 1, size, pos, s, t, hfuel, hd, hsize, hroom, h28 => by
    rw [getLoop]
    by_cases hz : size = 0
    · subst hz
      exact ⟨t.scratch, rfl, fun _ _ => rfl, fun i hi => absurd hi (Nat.not_lt_zero i)⟩
    obtain ⟨hpos, hle, hfull, hlast⟩ := copySize_cases hz
    have hcnt := sectorCnt_succ hz
    generalize hfirst : fileBytes s.disk f.data.start pos (copySize size) = first
    have hlen : first.length = copySize size := by rw [← hfirst, length_fileBytes]
    have hspace : (Prog.read fun t : Transfer => if t.scratchSize ≤ t.getSector then .error .assertion else .ok () :
        FsutilProg Unit).run { t with fs := fileOpened s f pos } = .ok ((), { t with fs := fileOpened s f pos }) :=
      Prog.run_read (if_neg (by show ¬ t.scratchSize ≤ t.getSector; omega))
    have hroom' : pos + copySize size ≤ f.data.length.toNat := by omega
    have hread := run_onFilesys (t := { t with fs := fileOpened s f pos }) (run_fileRead_opened hd hroom')
    rw [hfirst] at hread
    have hwrite : (writeScratch (sectorOf first)).run { t with fs := fileOpened s f (pos + copySize size) } = .ok ((),
        { t with
          fs := fileOpened s f (pos + copySize size)
          scratch := update t.scratch t.getSector (sectorOf first)
          getSector := t.getSector + 1 }) :=
      run_writeScratch (by show t.getSector < t.scratchSize; omega) (by show t.getSector < 2 ^ 28; omega) _
    obtain ⟨scratch, hrest, hbelow, hbytes⟩ := getLoop_spec f fuel (size - copySize size) (pos + copySize size)
      (s := s) (t := { t with scratch := update t.scratch t.getSector (sectorOf first), getSector := t.getSector + 1 })
      (by omega) hd (by omega) (by show t.getSector + 1 + _ ≤ t.scratchSize; omega)
      (by show t.getSector + 1 + _ ≤ 2 ^ 28; omega)
    have hne : ¬ first.length ≠ copySize size := not_not.mpr hlen
    refine ⟨scratch, ?_, fun sec hsec => ?_, ?_⟩
    · rw [if_neg hz, Prog.run_bind_ok hspace, Prog.run_bind_ok hread, if_neg hne, Prog.run_bind_ok hwrite]
      have hpos' : pos + copySize size + (size - copySize size) = pos + size := by omega
      have hcnt' : t.getSector + 1 + sectorCnt (size - copySize size) = t.getSector + sectorCnt size := by omega
      rw [hpos', hcnt'] at hrest
      exact hrest
    · rw [hbelow sec (Nat.lt_succ_of_lt hsec)]
      exact update_of_ne (Nat.ne_of_lt hsec) _ _
    · have hsplit : fileBytes s.disk f.data.start pos (copySize size + (size - copySize size)) =
          fileBytes s.disk f.data.start pos (copySize size) ++
            fileBytes s.disk f.data.start (pos + copySize size) (size - copySize size) := fileBytes_succ _ _ _ _
      rw [Nat.add_sub_cancel' hle, hfirst] at hsplit
      rw [hsplit, hcnt]
      refine getD_append_fileByte (by omega) ?_ (fun k _ => ?_) hbytes
      · rcases hlast with hc | hc
        · refine Or.inl ?_
          rw [hc, Nat.sub_self]
          rfl
        · exact Or.inr (hlen.trans hc)
      · rw [hbelow t.getSector (Nat.lt_succ_self _)]
        show update t.scratch t.getSector (sectorOf first) t.getSector k = _
        rw [update_self]
        rfl

/-! ## One file -/

/-- The size in a header of a file to put. -/
theorem PutAt.header (h : PutAt scratch sec bytes) (hsmall : bytes.length < 2 ^ 31) :
    toInt32 (ofLe (sectorBytes (scratch sec) 4 4)) = bytes.length := by
  have hle : ofLe (leBytes 4 bytes.length) = bytes.length := ofLe_leBytes_of_lt (by omega)
  rw [h.size, hle, toInt32, if_pos hsmall]

/-- **`fsutil_put`** makes a file of what is on the scratch disk. -/
theorem fsutilPut_spec (h : Volume t.fs capacity next files) (hv : ValidName name)
    (hnew : name.bytes ∉ files.map (·.name.bytes)) (hcnt : files.length < 16)
    (hsmall : bytes.length + 511 < 2 ^ 31) (hroom : next + 1 + sectorCnt bytes.length ≤ capacity)
    (hput : PutAt t.scratch t.putSector bytes) (hsize : t.putSector + 1 + sectorCnt bytes.length ≤ t.scratchSize)
    (h28 : t.putSector + 1 + sectorCnt bytes.length ≤ 2 ^ 28) :
    ∃ s' f, (fsutilPut name).run t = .ok ((),
        { t with fs := s', putSector := t.putSector + 1 + sectorCnt bytes.length }) ∧
      Volume s' capacity (next + 1 + sectorCnt bytes.length) (f :: files) ∧ f.name = name ∧ f.bytes = bytes := by
  have hread : (readScratch).run t = .ok (t.scratch t.putSector, { t with putSector := t.putSector + 1 }) :=
    run_readScratch (by omega) (by omega)
  obtain ⟨s₁, g, hcreate, hvol, rfl, hlen, hsec, hdata, hold⟩ := h.create hv hnew hcnt hsmall hroom
  have hcreate' := run_onFilesys (t := { t with putSector := t.putSector + 1 }) hcreate
  have hopen := run_onFilesys (t := { t with fs := s₁, putSector := t.putSector + 1 })
    (hvol.filesysOpen List.mem_cons_self)
  have hon := hvol.kept g List.mem_cons_self
  obtain ⟨disk, hloop, hsame⟩ := putLoop_spec g bytes.length bytes.length 0 (s := s₁)
    (t := { t with putSector := t.putSector + 1 }) (Nat.le_refl _) (hvol.onDisk List.mem_cons_self)
    (by rw [hon.length]; omega) hsize h28
  rw [hput.bytes] at hsame
  have hrest : AtRest { s₁ with disk := disk } capacity :=
    ⟨hvol.rest.freeMapFile, hvol.rest.openInodes, hvol.rest.inodes, hvol.rest.files, hvol.rest.brk⟩
  have hclose := run_onFilesys
    (t := { t with
      fs := fileOpened { s₁ with disk := disk } g (0 + bytes.length)
      putSector := t.putSector + 1 + sectorCnt bytes.length })
    (hrest.fileClose g (0 + bytes.length))
  have hpos : ¬ (bytes.length : Int) < 0 := by omega
  refine ⟨{ s₁ with disk := disk, brk := s₁.brk + 3 }, { g with bytes := bytes }, ?_, ?_, rfl, rfl⟩
  · have hsig : ¬ sectorBytes (t.scratch t.putSector) 0 4 ≠ PUT := not_not.mpr hput.signature
    rw [fsutilPut, Prog.run_bind_ok hread, if_neg hsig]
    simp only
    rw [hput.header (by omega), if_neg hpos, Prog.run_bind_ok hcreate', if_pos rfl, Prog.run_bind_ok hopen]
    simp only [Int.toNat_natCast]
    rw [Prog.run_bind_ok hloop]
    exact hclose
  · exact hvol.rewrite (fun x hx => hsec ▸ hold x hx) (fun sec hc => hsec ▸ hdata sec hc) hlen.symm hsame
      (Nat.le_add_right _ _)

/-- The seventeenth file is not created. -/
theorem fsutilPut_full (h : Volume t.fs capacity next files) (hcnt : files.length = 16) (name : CStr)
    (hsmall : bytes.length < 2 ^ 31) (hput : PutAt t.scratch t.putSector bytes) (hsize : t.putSector < t.scratchSize)
    (h28 : t.putSector < 2 ^ 28) : (fsutilPut name).run t = .error .assertion := by
  obtain ⟨s', hcreate⟩ := h.create_full hcnt name bytes.length
  have hcreate' := run_onFilesys (t := { t with putSector := t.putSector + 1 }) hcreate
  have hsig : ¬ sectorBytes (t.scratch t.putSector) 0 4 ≠ PUT := not_not.mpr hput.signature
  have hpos : ¬ (bytes.length : Int) < 0 := by omega
  rw [fsutilPut, Prog.run_bind_ok (run_readScratch hsize h28), if_neg hsig]
  simp only
  rw [hput.header hsmall, if_neg hpos, Prog.run_bind_ok hcreate', if_neg Bool.false_ne_true, Prog.run_fail]

/-- **`fsutil_get`** writes the header and the bytes of the file. -/
theorem fsutilGet_spec (h : Volume t.fs capacity next files) (hf : f ∈ files)
    (hsize : t.getSector + 1 + sectorCnt f.bytes.length ≤ t.scratchSize)
    (h28 : t.getSector + 1 + sectorCnt f.bytes.length ≤ 2 ^ 28) :
    ∃ s' scratch, (fsutilGet f.name).run t = .ok ((),
        { t with
          fs := s'
          scratch := scratch
          getSector := t.getSector + 1 + sectorCnt f.bytes.length }) ∧
      Volume s' capacity next files ∧ GetAt scratch t.getSector f.bytes ∧
      ∀ sec, sec < t.getSector → scratch sec = t.scratch sec := by
  have hon := h.kept f hf
  have hopen := run_onFilesys (h.filesysOpen hf)
  have hlength := run_onFilesys (t := { t with fs := fileOpened t.fs f 0 }) (run_fileLength_opened t.fs f 0)
  rw [hon.length] at hlength
  generalize hheader : sectorOf (GET ++ leBytes 4 (ofInt32 f.bytes.length)) = header
  have hwrite : (writeScratch header).run { t with fs := fileOpened t.fs f 0 } = .ok ((),
      { t with
        fs := fileOpened t.fs f 0
        scratch := update t.scratch t.getSector header
        getSector := t.getSector + 1 }) :=
    run_writeScratch (by show t.getSector < t.scratchSize; omega) (by show t.getSector < 2 ^ 28; omega) _
  obtain ⟨scratch, hloop, hbelow, hbytes⟩ := getLoop_spec f f.bytes.length f.bytes.length 0 (s := t.fs)
    (t := { t with scratch := update t.scratch t.getSector header, getSector := t.getSector + 1 }) (Nat.le_refl _)
    (h.onDisk hf) (by rw [hon.length]; omega) hsize h28
  rw [hon.bytes] at hbytes
  have hclose := run_onFilesys
    (t := { t with
      fs := fileOpened t.fs f (0 + f.bytes.length)
      scratch := scratch
      getSector := t.getSector + 1 + sectorCnt f.bytes.length })
    (h.rest.fileClose f (0 + f.bytes.length))
  refine ⟨{ t.fs with brk := t.fs.brk + 3 }, scratch, ?_, h.setBrk (Nat.le_add_right _ _),
    ⟨fun k _ => ?_, hbytes⟩, fun sec hsec => ?_⟩
  · rw [fsutilGet, Prog.run_bind_ok hopen]
    simp only
    rw [Prog.run_bind_ok hlength, hheader, Prog.run_bind_ok hwrite]
    simp only [Int.toNat_natCast]
    rw [Prog.run_bind_ok hloop]
    exact hclose
  · have hint : ofInt32 f.bytes.length = f.bytes.length := by
      have hsmall := hon.small
      unfold ofInt32
      omega
    rw [hbelow t.getSector (Nat.lt_succ_self _)]
    show update t.scratch t.getSector header t.getSector k = _
    rw [update_self, ← hheader, hint]
    rfl
  · rw [hbelow sec (Nat.lt_succ_of_lt hsec)]
    exact update_of_ne (Nat.ne_of_lt hsec) _ _

/-! ## All files -/

/-- **All files are put**, in the order in which they are on the scratch disk. -/
theorem putAll_spec : ∀ (puts : List (CStr × List Byte)) {t : Transfer} {next : Nat} {files : List StoredFile},
    Volume t.fs capacity next files → (∀ x ∈ puts, ValidName x.1) →
    (puts.map (·.1.bytes)).Nodup → (∀ x ∈ puts, x.1.bytes ∉ files.map (·.name.bytes)) →
    files.length + puts.length ≤ 16 → (∀ x ∈ puts, x.2.length + 511 < 2 ^ 31) →
    next + archiveSize (puts.map (·.2)) ≤ capacity →
    t.putSector + archiveSize (puts.map (·.2)) ≤ t.scratchSize → t.putSector + archiveSize (puts.map (·.2)) ≤ 2 ^ 28 →
    LaidOut PutAt t.scratch t.putSector (puts.map (·.2)) →
    ∃ s' next' files', (putAll (puts.map (·.1))).run t = .ok ((),
        { t with fs := s', putSector := t.putSector + archiveSize (puts.map (·.2)) }) ∧
      Volume s' capacity next' files' ∧
      files'.map (fun f => (f.name, f.bytes)) = puts.reverse ++ files.map (fun f => (f.name, f.bytes))
  | [], t, next, files, h, _, _, _, _, _, _, _, _, _ => ⟨t.fs, next, files, rfl, h, rfl⟩
  | (name, bytes) :: puts, t, next, files, h, hv, hnodup, hnew, hcnt, hsmall, hroom, hsize, h28, hlaid => by
    simp only [List.map_cons, archiveSize_cons, List.length_cons] at hnodup hroom hsize h28 hcnt hlaid ⊢
    obtain ⟨hput, hbehind⟩ := hlaid
    obtain ⟨hhead, htail⟩ := List.nodup_cons.mp hnodup
    have hmem : (name, bytes) ∈ (name, bytes) :: puts := List.mem_cons_self
    have hvalid : ValidName name := hv _ hmem
    have hbytes : bytes.length + 511 < 2 ^ 31 := hsmall _ hmem
    obtain ⟨s₁, f, hrun, hvol, rfl, rfl⟩ := fsutilPut_spec h hvalid (hnew _ hmem) (by omega) hbytes (by omega) hput
      (by omega) (by omega)
    obtain ⟨s₂, next', files', hrest, hvol', hfiles⟩ := putAll_spec puts
      (t := { t with fs := s₁, putSector := t.putSector + 1 + sectorCnt f.bytes.length }) hvol
      (fun x hx => hv x (List.mem_cons_of_mem _ hx)) htail
      (fun x hx hc => by
        rcases List.mem_cons.mp hc with heq | hc
        · exact hhead (List.mem_map.mpr ⟨x, hx, heq⟩)
        · exact hnew x (List.mem_cons_of_mem _ hx) hc)
      (by rw [List.length_cons]; omega) (fun x hx => hsmall x (List.mem_cons_of_mem _ hx)) (by omega)
      (by show t.putSector + 1 + _ + _ ≤ t.scratchSize; omega) (by show t.putSector + 1 + _ + _ ≤ 2 ^ 28; omega) hbehind
    refine ⟨s₂, next', files', ?_, hvol', ?_⟩
    · rw [putAll, Prog.run_bind_ok hrun, hrest]
      have hpos : t.putSector + 1 + sectorCnt f.bytes.length + archiveSize (puts.map (·.2)) =
          t.putSector + (1 + sectorCnt f.bytes.length + archiveSize (puts.map (·.2))) := by omega
      simp only [hpos]
    · rw [hfiles, List.reverse_cons, List.map_cons, List.append_assoc, List.singleton_append]

/-- What is written behind a file that was got leaves it. -/
theorem GetAt.congr (h : GetAt scratch sec bytes)
    (hs : ∀ i, i < sec + 1 + sectorCnt bytes.length → scratch' i = scratch i) : GetAt scratch' sec bytes where
  header k hk := by
    rw [hs sec (by omega)]
    exact h.header k hk
  bytes i hi := by
    have hlt : i / DISK_SECTOR_SIZE < sectorCnt bytes.length := by
      unfold DISK_SECTOR_SIZE at *
      omega
    rw [fileByte, hs _ (by omega)]
    exact h.bytes i hi

/-- **Files are got** in any order. -/
theorem getAll_spec : ∀ (gets : List (CStr × List Byte)) {t : Transfer}, Volume t.fs capacity next files →
    (∀ x ∈ gets, ∃ f ∈ files, (f.name, f.bytes) = x) →
    t.getSector + archiveSize (gets.map (·.2)) ≤ t.scratchSize → t.getSector + archiveSize (gets.map (·.2)) ≤ 2 ^ 28 →
    ∃ s' scratch, (getAll (gets.map (·.1))).run t = .ok ((),
        { t with fs := s', scratch := scratch, getSector := t.getSector + archiveSize (gets.map (·.2)) }) ∧
      LaidOut GetAt scratch t.getSector (gets.map (·.2)) ∧
      ∀ sec, sec < t.getSector → scratch sec = t.scratch sec
  | [], t, _, _, _, _ => ⟨t.fs, t.scratch, rfl, trivial, fun _ _ => rfl⟩
  | (name, bytes) :: gets, t, h, hmem, hsize, h28 => by
    simp only [List.map_cons, archiveSize_cons] at hsize h28 ⊢
    obtain ⟨f, hf, heq⟩ := hmem _ List.mem_cons_self
    cases heq
    obtain ⟨s₁, scratch₁, hrun, hvol, hget, hbelow⟩ := fsutilGet_spec h hf (by omega) (by omega)
    obtain ⟨s₂, scratch₂, hrest, hlaid, hbelow'⟩ := getAll_spec gets
      (t := { t with fs := s₁, scratch := scratch₁, getSector := t.getSector + 1 + sectorCnt f.bytes.length }) hvol
      (fun x hx => hmem x (List.mem_cons_of_mem _ hx)) (by show t.getSector + 1 + _ + _ ≤ t.scratchSize; omega)
      (by show t.getSector + 1 + _ + _ ≤ 2 ^ 28; omega)
    refine ⟨s₂, scratch₂, ?_, ⟨hget.congr hbelow', hlaid⟩, fun sec hsec => ?_⟩
    · rw [getAll, Prog.run_bind_ok hrun, hrest]
      have hpos : t.getSector + 1 + sectorCnt f.bytes.length + archiveSize (gets.map (·.2)) =
          t.getSector + (1 + sectorCnt f.bytes.length + archiveSize (gets.map (·.2))) := by omega
      simp only [hpos]
    · have hlt : sec < t.getSector + 1 + sectorCnt f.bytes.length := by omega
      rw [hbelow' sec hlt]
      exact hbelow sec hsec

/-- **Put then get is the identity**: of at most sixteen files with different valid names, whose sizes can be rounded
up to a sector, put into a file system that was just formatted and has room for them. They are got in any order. -/
theorem put_get_round_trip {block : List (BitVec 64)} {stack : List Byte} {puts gets : List (CStr × List Byte)}
    {scratchSize : Nat} (hf : Formattable capacity) (hcap : capacity ≤ 2 ^ 28)
    (hblock : block.length = elemCnt capacity) (hstack : stack.length = ENTRY_SIZE) (disk : Nat → Sector)
    (freeMap : WordBitmap) (inode : InodeDisk) (hv : ∀ x ∈ puts, ValidName x.1)
    (hdistinct : (puts.map (·.1.bytes)).Nodup) (hcnt : puts.length ≤ 16)
    (hsmall : ∀ x ∈ puts, x.2.length + 511 < 2 ^ 31)
    (hroom : firstFree capacity + archiveSize (puts.map (·.2)) ≤ capacity)
    (hsize : archiveSize (puts.map (·.2)) ≤ scratchSize) (hlaid : LaidOut PutAt scratch 0 (puts.map (·.2)))
    (hperm : gets.Perm puts) :
    ∃ s t, (filesysInit true block).run (FileSys.boot disk capacity freeMap stack inode) = .ok ((), s) ∧
      (do putAll (puts.map (·.1)); getAll (gets.map (·.1)) : FsutilProg Unit).run
        (Transfer.start s scratch scratchSize) = .ok ((), t) ∧
      LaidOut GetAt t.scratch 0 (gets.map (·.2)) := by
  obtain ⟨s, hinit, hformatted⟩ := format_spec hf hblock disk freeMap stack inode
  have hvol := hformatted.volume hf hcap hstack
  obtain ⟨s₁, next, files, hputs, hvol₁, hfiles⟩ := putAll_spec puts (t := Transfer.start s scratch scratchSize) hvol
    hv hdistinct (fun _ _ => List.not_mem_nil) (by rw [List.length_nil]; omega) hsmall hroom
    (by show 0 + _ ≤ scratchSize; omega) (by show 0 + _ ≤ 2 ^ 28; omega) hlaid
  have hsame : archiveSize (gets.map (·.2)) = archiveSize (puts.map (·.2)) := ((hperm.map _).map _).sum_nat
  obtain ⟨s₂, scratch', hgets, hgot, -⟩ := getAll_spec gets
    (t := { Transfer.start s scratch scratchSize with fs := s₁, putSector := 0 + archiveSize (puts.map (·.2)) }) hvol₁
    (fun x hx => by
      have hmem : x ∈ files.map fun f => (f.name, f.bytes) := by
        rw [hfiles, List.map_nil, List.append_nil, List.mem_reverse]
        exact hperm.mem_iff.mp hx
      exact List.mem_map.mp hmem)
    (by show 0 + _ ≤ scratchSize; omega) (by show 0 + _ ≤ 2 ^ 28; omega)
  refine ⟨s, { Transfer.start s scratch scratchSize with
    fs := s₂
    scratch := scratch'
    putSector := 0 + archiveSize (puts.map (·.2))
    getSector := 0 + archiveSize (gets.map (·.2)) }, hinit, ?_, hgot⟩
  rw [Prog.run_bind_ok hputs]
  exact hgets

/-! ## A small disk -/

theorem formattable_small : Formattable 64 := ⟨by decide, by decide⟩

/-- Three bytes, and an empty file. -/
def twoFiles : List (CStr × List Byte) := [(⟨[97], CStr.noNul_a⟩, [1, 2, 3]), (⟨[98], CStr.noNul_b⟩, [])]

def twoFilesDisk : Nat → Sector
  | 0 => sectorOf (PUT ++ leBytes 4 3)
  | 1 => sectorOf [1, 2, 3]
  | _ => sectorOf (PUT ++ leBytes 4 0)

/-- The two files are got in the other order. -/
theorem put_get_round_trip_two : ∃ s t,
    (filesysInit true [0]).run (FileSys.boot (fun _ _ => 0xff) 64 ⟨0, []⟩ (List.replicate 20 0) ⟨0, 0⟩) = .ok ((), s) ∧
      (do putAll (twoFiles.map (·.1)); getAll (twoFiles.reverse.map (·.1)) : FsutilProg Unit).run
        (Transfer.start s twoFilesDisk 3) = .ok ((), t) ∧
      LaidOut GetAt t.scratch 0 (twoFiles.reverse.map (·.2)) :=
  put_get_round_trip formattable_small (by decide) rfl rfl _ _ _ (by decide) (by decide) (by decide) (by decide)
    (by decide) (by decide) ⟨⟨by decide, by decide, by decide⟩, ⟨by decide, by decide, rfl⟩, trivial⟩
    (List.reverse_perm _)

/-! ## More than sixteen files -/

theorem laidOut_append {At : (Nat → Sector) → Nat → List Byte → Prop} {xs ys : List (List Byte)} :
    LaidOut At scratch sec (xs ++ ys) ↔ LaidOut At scratch sec xs ∧ LaidOut At scratch (sec + archiveSize xs) ys := by
  induction xs generalizing sec with
  | nil => simp [LaidOut, archiveSize]
  | cons x xs ih =>
    have hpos : sec + 1 + sectorCnt x.length + archiveSize xs = sec + archiveSize (x :: xs) := by
      rw [archiveSize_cons]
      omega
    rw [List.cons_append, LaidOut, LaidOut, ih, hpos, and_assoc]

theorem archiveSize_append (xs ys : List (List Byte)) : archiveSize (xs ++ ys) = archiveSize xs + archiveSize ys := by
  rw [archiveSize, List.map_append, List.sum_append, archiveSize, archiveSize]

theorem run_putAll_append (xs ys : List CStr) (t : Transfer) :
    (putAll (xs ++ ys)).run t = (putAll xs >>= fun _ => putAll ys).run t := by
  induction xs generalizing t with
  | nil => rfl
  | cons x xs ih =>
    rw [List.cons_append, putAll, putAll, Prog.run_bind, Prog.run_bind, Prog.run_bind]
    cases (fsutilPut x).run t with
    | error e => rfl
    | ok r =>
      simp only
      rw [ih, Prog.run_bind]

/-- **The seventeenth file is not put**, wherever there is room for it. -/
theorem putAll_full {puts : List (CStr × List Byte)} {x : CStr × List Byte} (h : Volume t.fs capacity next [])
    (hv : ∀ x ∈ puts, ValidName x.1) (hdistinct : (puts.map (·.1.bytes)).Nodup) (hcnt : puts.length = 16)
    (hsmall : ∀ y ∈ puts ++ [x], y.2.length + 511 < 2 ^ 31)
    (hroom : next + archiveSize ((puts ++ [x]).map (·.2)) ≤ capacity)
    (hsize : t.putSector + archiveSize ((puts ++ [x]).map (·.2)) ≤ t.scratchSize)
    (h28 : t.putSector + archiveSize ((puts ++ [x]).map (·.2)) ≤ 2 ^ 28)
    (hlaid : LaidOut PutAt t.scratch t.putSector ((puts ++ [x]).map (·.2))) (rest : List CStr) :
    (putAll (puts.map (·.1) ++ x.1 :: rest)).run t = .error .assertion := by
  rw [List.map_append, laidOut_append] at hlaid
  rw [List.map_append, archiveSize_append, List.map_singleton, archiveSize_cons] at hroom hsize h28
  obtain ⟨s', next', files', hrun, hvol, hfiles⟩ := putAll_spec puts h hv hdistinct (fun _ _ => List.not_mem_nil)
    (by rw [List.length_nil]; omega) (fun y hy => hsmall y (List.mem_append_left _ hy)) (by omega) (by omega) (by omega)
    hlaid.1
  have hlen : files'.length = 16 := by
    have hcongr := congrArg List.length hfiles
    simp only [List.length_map, List.map_nil, List.append_nil, List.length_reverse] at hcongr
    rw [hcongr, hcnt]
  have hlast : x.2.length + 511 < 2 ^ 31 := hsmall x (List.mem_append_right _ (List.mem_singleton_self x))
  have hput : PutAt t.scratch (t.putSector + archiveSize (puts.map (·.2))) x.2 := hlaid.2.1
  have hfull := fsutilPut_full (t := { t with fs := s', putSector := t.putSector + archiveSize (puts.map (·.2)) }) hvol
    hlen x.1 (by omega) hput (by show _ + _ < t.scratchSize; omega) (by show _ + _ < 2 ^ 28; omega)
  rw [run_putAll_append, Prog.run_bind_ok hrun, putAll, Prog.run_bind, hfull]

/-- The files `a` to `q`, all empty. -/
def letters : List (CStr × List Byte) := (List.finRange 17).map fun i : Fin 17 =>
  (⟨[BitVec.ofNat 8 (97 + i.val)], by revert i; decide⟩, [])

/-- **Sixteen empty files and one more**: there is room for them on both disks, but not in the root directory. -/
theorem seventeen_not_put : ∃ s,
    (filesysInit true [0]).run (FileSys.boot (fun _ _ => 0xff) 64 ⟨0, []⟩ (List.replicate 20 0) ⟨0, 0⟩) = .ok ((), s) ∧
      (∀ x ∈ letters, ValidName x.1) ∧ (letters.map (·.1.bytes)).Nodup ∧
      firstFree 64 + archiveSize (letters.map (·.2)) ≤ 64 ∧ archiveSize (letters.map (·.2)) ≤ 17 ∧
      LaidOut PutAt (fun _ => sectorOf (PUT ++ leBytes 4 0)) 0 (letters.map (·.2)) ∧
      (putAll (letters.map (·.1))).run (Transfer.start s (fun _ => sectorOf (PUT ++ leBytes 4 0)) 17) =
        .error .assertion := by
  obtain ⟨s, hinit, hformatted⟩ := format_spec formattable_small (rfl : [(0 : BitVec 64)].length = elemCnt 64)
    (fun _ _ => 0xff) ⟨0, []⟩ (List.replicate 20 0) ⟨0, 0⟩
  have hvol := hformatted.volume formattable_small (by decide) rfl
  have hempty : PutAt (fun _ => sectorOf (PUT ++ leBytes 4 0)) 0 [] := ⟨by decide, by decide, rfl⟩
  have hlaid : ∀ sec n, LaidOut PutAt (fun _ => sectorOf (PUT ++ leBytes 4 0)) sec (List.replicate n []) := by
    intro sec n
    induction n generalizing sec with
    | zero => trivial
    | succ n ih => exact ⟨⟨hempty.signature, hempty.size, rfl⟩, ih _⟩
  have hvalid : ∀ x ∈ letters, ValidName x.1 := by decide
  have hdistinct : (letters.map (·.1.bytes)).Nodup := by decide
  refine ⟨s, hinit, hvalid, hdistinct, by decide, by decide, hlaid 0 17, ?_⟩
  -- the last of them is the seventeenth
  show (putAll ((letters.take 16).map (·.1) ++ ⟨[113], by decide⟩ :: [])).run _ = _
  exact putAll_full (x := (⟨[113], by decide⟩, [])) hvol (by decide) (by decide) (by decide) (by decide) (by decide)
    (by show 0 + _ ≤ 17; decide) (by show 0 + _ ≤ 2 ^ 28; decide) (hlaid 0 17) []

end Pintos
