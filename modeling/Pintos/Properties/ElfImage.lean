import Pintos.Properties.MmapRange
import Pintos.Userprog.Elf

/-!
# What `load` maps

Offsets and sizes of the headers are narrowed to 32 bits.

* `Phdr.Fits` — the segment fits in 32 bits
* `recorded_eq_iff`, `gives_of_fits` — then its pages are recorded as the header says
* `MapsElf` — the pages are those of the program headers
* `loadElf_maps_iff` — **`load` maps what the file says if everything fits**
-/

namespace Pintos

open Function LittleEndian

/-! ## Segments -/

namespace Phdr

variable (phdr : Phdr)

/-- The number of pages of the segment. -/
def memPages : Nat := (phdr.pVaddr.toNat % PGSIZE + phdr.pMemsz.toNat + 4095) / PGSIZE

/-- The number of bytes from the start of the first page that come from the file. -/
def fileSize : Nat := if phdr.pFilesz = 0 then 0 else phdr.pVaddr.toNat % PGSIZE + phdr.pFilesz.toNat

/-- The offsets of the bytes are those of an `off_t`, and the number of zeros is one of 32 bits. -/
def Fits : Prop :=
  (phdr.pFilesz ≠ 0 → phdr.pOffset.toNat + phdr.pFilesz.toNat ≤ 2 ^ 31) ∧
    PGSIZE * phdr.memPages - phdr.fileSize < 2 ^ 32

instance : Decidable phdr.Fits := inferInstanceAs (Decidable (_ ∧ _))

/-- The page has an address of the segment. -/
def Has (va : Vaddr) : Prop := Intersects phdr.pVaddr phdr.pMemsz va

end Phdr

/-- The recorded information gives the bytes of the file for the page, from its start on, and then zeros. -/
structure Gives (f : FilePtr) (phdr : Phdr) (va : Vaddr) (info : FileInfo) : Prop where
  file : info.file = some f
  count : info.pageReadBytes =
    min (if phdr.pFilesz = 0 then 0 else phdr.pVaddr.toNat + phdr.pFilesz.toNat - va.toNat) PGSIZE
  zeros : info.pageZeroBytes = PGSIZE - info.pageReadBytes
  ofs : 0 < info.pageReadBytes → info.ofs = phdr.pOffset.toNat + va.toNat - phdr.pVaddr.toNat

section

variable {phdr : Phdr} {length : Int} {va : Vaddr} {j : Nat} {f : FilePtr}

/-- What is valid. -/
structure Valid (phdr : Phdr) : Prop where
  offset : phdr.pOffset.toNat % 4096 = phdr.pVaddr.toNat % 4096
  inFile : phdr.pOffset.toNat < 2 ^ 31
  le : phdr.pFilesz.toNat ≤ phdr.pMemsz.toNat
  pos : 0 < phdr.pMemsz.toNat
  user : phdr.pVaddr.toNat + phdr.pMemsz.toNat < 0x8004000000

theorem valid_of_validateSegment (h : validateSegment phdr length = true) (hpos : 0 ≤ length) (hlt : length < 2 ^ 31) :
    Valid phdr := by
  simp only [validateSegment, decide_eq_true_eq] at h
  obtain ⟨hofs, hfile, hle, hne, hu, hu', hwrap, -⟩ := h
  have hlen : (BitVec.ofInt 64 length).toNat = length.toNat := by
    rw [BitVec.toNat_ofInt]
    omega
  have hofs := congrArg BitVec.toNat hofs
  have hmask : ∀ a : BitVec 64, (a &&& PGMASK).toNat = a.toNat % 4096 := and_mask_toNat
  rw [hmask, hmask] at hofs
  rw [BitVec.le_def, hlen] at hfile
  rw [BitVec.le_def] at hle hwrap
  have hne : phdr.pMemsz.toNat ≠ 0 := fun h0 => hne (BitVec.eq_of_toNat_eq h0)
  rw [isUserVaddr_iff, BitVec.toNat_add] at hu'
  rw [isUserVaddr_iff] at hu
  rw [BitVec.toNat_add] at hwrap
  have hm := phdr.pMemsz.isLt
  exact ⟨hofs, by omega, hle, by omega, by omega⟩

theorem memPage_toNat (phdr : Phdr) : phdr.memPage.toNat = phdr.pVaddr.toNat / 4096 * 4096 := and_not_mask_toNat _

theorem filePage_toNat (phdr : Phdr) : phdr.filePage.toNat = phdr.pOffset.toNat / 4096 * 4096 := and_not_mask_toNat _

theorem pageOffset_toNat (phdr : Phdr) : phdr.pageOffset.toNat = phdr.pVaddr.toNat % 4096 := and_mask_toNat _

theorem aligned_memPage (phdr : Phdr) : Aligned phdr.memPage := by
  rw [aligned_iff, memPage_toNat]
  omega

theorem fileSize_le (h : Valid phdr) : phdr.fileSize ≤ PGSIZE * phdr.memPages := by
  have hle := h.le
  unfold Phdr.fileSize Phdr.memPages PGSIZE
  split <;> omega

theorem Valid.readBytes_toNat (h : Valid phdr) : phdr.readBytes.toNat = phdr.fileSize % 2 ^ 32 := by
  have hle := h.le
  have huser := h.user
  have hpos : 0 < phdr.pFilesz ↔ phdr.pFilesz ≠ 0 := by
    rw [BitVec.lt_def, ne_eq, ← BitVec.toNat_inj]
    exact Nat.pos_iff_ne_zero
  unfold Phdr.readBytes Phdr.fileSize
  by_cases h0 : phdr.pFilesz = 0
  · rw [if_neg (by rw [hpos]; simpa using h0), if_pos h0]
    rfl
  · rw [if_pos (hpos.mpr h0), if_neg h0, BitVec.toNat_setWidth, BitVec.toNat_add, pageOffset_toNat]
    unfold PGSIZE
    omega

theorem Valid.zeroBytes_toNat (h : Valid phdr) :
    phdr.zeroBytes.toNat = (PGSIZE * phdr.memPages - phdr.readBytes.toNat) % 2 ^ 32 := by
  have huser := h.user
  have hle := fileSize_le h
  have hround : (roundUp (phdr.pageOffset + phdr.pMemsz)).toNat = PGSIZE * phdr.memPages := by
    have h4096 : (4096 : BitVec 64).toNat = 4096 := rfl
    have h4095 : (4095 : BitVec 64).toNat = 4095 := rfl
    rw [roundUp, BitVec.toNat_mul, BitVec.toNat_udiv, BitVec.toNat_add, BitVec.toNat_add, pageOffset_toNat, h4095, h4096]
    unfold Phdr.memPages PGSIZE
    omega
  have hread := h.readBytes_toNat
  have hlt : PGSIZE * phdr.memPages < 2 ^ 64 := by
    rw [← hround]
    exact (roundUp _).isLt
  unfold Phdr.zeroBytes
  rw [BitVec.toNat_setWidth, BitVec.toNat_sub, BitVec.toNat_setWidth, hround]
  omega

/-- No more pages are recorded than there are, and they are all recorded if the zeros fit. -/
theorem Valid.recorded (h : Valid phdr) :
    phdr.recorded ≤ phdr.memPages ∧
      (phdr.recorded = phdr.memPages ↔ PGSIZE * phdr.memPages - phdr.readBytes.toNat < 2 ^ 32) := by
  have hle := fileSize_le h
  have hread := h.readBytes_toNat
  have hzero := h.zeroBytes_toNat
  unfold Phdr.recorded
  rw [hzero]
  unfold PGSIZE at *
  omega

/-- Then the bytes fit too. -/
theorem Valid.readBytes_eq (h : Valid phdr) (hall : phdr.recorded = phdr.memPages) :
    phdr.readBytes.toNat = phdr.fileSize := by
  have hfit := h.recorded.2.mp hall
  have hle := fileSize_le h
  have hread := h.readBytes_toNat
  omega

/-- A segment that fits is recorded. -/
theorem Phdr.Fits.recorded (hfits : phdr.Fits) (h : Valid phdr) : phdr.recorded = phdr.memPages := by
  obtain ⟨hfile, hzeros⟩ := hfits
  have hread := h.readBytes_toNat
  have hofs := h.offset
  rw [h.recorded.2]
  have hsmall : phdr.fileSize < 2 ^ 32 := by
    unfold Phdr.fileSize PGSIZE
    split
    · omega
    · next h0 =>
      have hfile := hfile h0
      omega
  omega

/-- The pages of a segment. -/
theorem Valid.has_iff (h : Valid phdr) : phdr.Has va ↔ ∃ j < phdr.memPages, va = nthPage phdr.memPage j := by
  have huser := h.user
  have hpos := h.pos
  unfold Phdr.Has Intersects Phdr.memPages
  constructor
  · rintro ⟨hal, hlt, hle⟩
    rw [aligned_iff] at hal
    refine ⟨(va.toNat - phdr.pVaddr.toNat / 4096 * 4096) / PGSIZE, ?_, BitVec.eq_of_toNat_eq ?_⟩
    · unfold PGSIZE at *
      omega
    · rw [nthPage_toNat (by rw [memPage_toNat]; unfold PGSIZE at *; omega), memPage_toNat]
      unfold PGSIZE at *
      omega
  · rintro ⟨j, hj, rfl⟩
    refine ⟨aligned_nthPage (aligned_memPage phdr) j, ?_, ?_⟩
    · rw [nthPage_toNat (by rw [memPage_toNat]; unfold PGSIZE at *; omega), memPage_toNat]
      unfold PGSIZE at *
      omega
    · rw [nthPage_toNat (by rw [memPage_toNat]; unfold PGSIZE at *; omega), memPage_toNat]
      unfold PGSIZE at *
      omega

/-- The pages are different. -/
theorem Valid.nthPage_inj {i : Nat} (h : Valid phdr) (hi : i ≤ phdr.memPages) (hj : j ≤ phdr.memPages)
    (heq : nthPage phdr.memPage i = nthPage phdr.memPage j) : i = j := by
  have huser := h.user
  unfold Phdr.memPages PGSIZE at hi hj
  exact Pintos.nthPage_inj (by omega) (by omega) heq

/-- The information that is recorded for the page `j`. -/
def Phdr.info (phdr : Phdr) (f : FilePtr) (j : Nat) : FileInfo :=
  mapInfo (some f) (wrap32 (toInt32 (phdr.filePage.toNat % 2 ^ 32) + (min phdr.readBytes.toNat (PGSIZE * j) : Nat)))
    (phdr.readBytes.toNat - PGSIZE * j)

/-- It gives the bytes if all pages are recorded, and the offset does not wrap around. -/
theorem Valid.gives_iff (h : Valid phdr) (hall : phdr.recorded = phdr.memPages) (hj : j < phdr.memPages) :
    Gives f phdr (nthPage phdr.memPage j) (phdr.info f j) ↔
      (PGSIZE * j < phdr.fileSize → phdr.filePage.toNat + PGSIZE * j < 2 ^ 31) := by
  have huser := h.user
  have hle := h.le
  have hofs := h.offset
  have hfile := h.inFile
  have hread := h.readBytes_eq hall
  have hpages : phdr.memPages = (phdr.pVaddr.toNat % 4096 + phdr.pMemsz.toNat + 4095) / 4096 := rfl
  have hva : (nthPage phdr.memPage j).toNat = phdr.pVaddr.toNat / 4096 * 4096 + PGSIZE * j := by
    rw [nthPage_toNat (by rw [memPage_toNat]; unfold PGSIZE; omega), memPage_toNat]
  have hcount : (phdr.info f j).pageReadBytes =
      min (if phdr.pFilesz = 0 then 0 else phdr.pVaddr.toNat + phdr.pFilesz.toNat - (nthPage phdr.memPage j).toNat)
        PGSIZE := by
    rw [hva]
    show min (phdr.readBytes.toNat - PGSIZE * j) PGSIZE = _
    rw [hread]
    unfold Phdr.fileSize PGSIZE
    split <;> omega
  have hpage : phdr.filePage.toNat < 2 ^ 31 := by
    rw [filePage_toNat]
    omega
  have hsigned : toInt32 (phdr.filePage.toNat % 2 ^ 32) = phdr.filePage.toNat := by
    rw [toInt32_mod, wrap32_of_lt (by omega) (by omega)]
  have hpos : 0 < (phdr.info f j).pageReadBytes ↔ PGSIZE * j < phdr.fileSize := by
    show 0 < min (phdr.readBytes.toNat - PGSIZE * j) PGSIZE ↔ _
    rw [hread]
    unfold PGSIZE
    omega
  have hinfo : (phdr.info f j).ofs =
      wrap32 (phdr.filePage.toNat + (min phdr.fileSize (PGSIZE * j) : Nat)) := by
    rw [Phdr.info, mapInfo, hsigned, hread]
  have hexpect : (phdr.pOffset.toNat : Int) + (nthPage phdr.memPage j).toNat - phdr.pVaddr.toNat =
      ((phdr.filePage.toNat + PGSIZE * j : Nat) : Int) := by
    rw [hva, filePage_toNat]
    omega
  constructor
  · intro hg hlt
    have hval := hg.ofs (hpos.mpr hlt)
    rw [hexpect, hinfo, Nat.min_eq_right (by omega)] at hval
    by_contra hge
    rw [← Nat.cast_add] at hval
    have hwrap : wrap32 ((phdr.filePage.toNat + PGSIZE * j : Nat) : Int) < 2 ^ 31 := by
      unfold wrap32 toInt32 ofInt32
      split <;> omega
    omega
  · intro hlt
    refine ⟨rfl, hcount, rfl, fun hp => ?_⟩
    have hp := hpos.mp hp
    have hlt := hlt hp
    rw [hexpect, hinfo, Nat.min_eq_right (by omega), ← Nat.cast_add]
    exact wrap32_of_lt (by omega) (by omega)

end

/-! ## The file -/

/-- The program headers of the file, from its header on. -/
def fileHeaders (disk : Nat → Sector) (start : Nat) : List Phdr :=
  (List.range (ehdrOf disk start).ePhnum.toNat).map fun i =>
    .ofBytes (fileBytes disk start ((ehdrOf disk start).ePhoff.toNat + PHDR_SIZE * i) PHDR_SIZE)

/-- Those of type `PT_LOAD`. -/
def loadHeadersOf (disk : Nat → Sector) (start : Nat) : List Phdr :=
  (fileHeaders disk start).filter fun phdr => phdr.pType = PT_LOAD

/-- The headers were read from their places, and the new pages are that of the stack and those of the `PT_LOAD`
headers, each of one of them alone, with its flag and its bytes. -/
structure MapsElf (t : Tid) (f : FilePtr) (disk : Nat → Sector) (start : Nat) (s s' : Vm) : Prop where
  offsets : ∀ i < (ehdrOf disk start).ePhnum.toNat,
    phdrOffset (ehdrOf disk start).ePhoff i = ((ehdrOf disk start).ePhoff.toNat + PHDR_SIZE * i : Nat)
  pages : ∀ va, Added t s s' va ↔ va = stackPage.va ∨ ∃ phdr ∈ loadHeadersOf disk start, phdr.Has va
  apart : (loadHeadersOf disk start).Pairwise fun phdr phdr' => ∀ va, ¬ (phdr.Has va ∧ phdr'.Has va)
  stack : ∀ phdr ∈ loadHeadersOf disk start, ¬ phdr.Has stackPage.va
  gives : ∀ phdr ∈ loadHeadersOf disk start, ∀ va, phdr.Has va → ∃ q page info,
    s'.findPage va (s'.spt t) = some q ∧ s'.pages q = some page ∧
      page.writable = decide (phdr.pFlags &&& PF_W ≠ 0) ∧ page.aux = some info ∧ Gives f phdr va info

/-- The offset of the headers is an `off_t`, and the segments fit. -/
def FitsElf (disk : Nat → Sector) (start : Nat) : Prop :=
  ((ehdrOf disk start).ePhnum = 0 ∨ (ehdrOf disk start).ePhoff.toNat < 2 ^ 31) ∧
    ∀ phdr ∈ loadHeadersOf disk start, phdr.Fits

instance (disk : Nat → Sector) (start : Nat) : Decidable (FitsElf disk start) := inferInstanceAs (Decidable (_ ∧ _))

section

variable {s s' : Vm} {t : Tid} {f : FilePtr} {file : File} {inode : Inode} {disk : Nat → Sector} {start : Nat}
  {length : Int} {hs : List Phdr} {p : Page}

/-- The offsets do not wrap around while the headers are in the file. -/
theorem phdrOffset_eq {ePhoff : BitVec 64} {n : Nat} (hoff : ePhoff.toNat < 2 ^ 31)
    (hin : ∀ i < n, phdrOffset ePhoff i + PHDR_SIZE < 2 ^ 31) :
    ∀ i < n, phdrOffset ePhoff i = (ePhoff.toNat + PHDR_SIZE * i : Nat) := by
  intro i
  induction i with
  | zero =>
    intro _
    rw [phdrOffset, wrap32_of_lt (by omega) (by omega), Nat.mul_zero, Nat.add_zero]
  | succ i ih =>
    intro hi
    have hprev := ih (by omega)
    have hlt := hin i (by omega)
    rw [hprev] at hlt
    rw [phdrOffset, hprev, wrap32_of_lt (by omega) hlt, Nat.mul_succ]
    omega

/-- A page of a segment, as it is recorded. -/
theorem mem_recordedPages {phdr : Phdr} :
    p ∈ recordedPages f phdr ↔ phdr.pType = PT_LOAD ∧ ∃ j < phdr.recorded,
      p = uninitNew (nthPage phdr.memPage j) true .anon (some (phdr.info f j)) phdr.writable := by
  unfold recordedPages
  split
  · next h =>
    rw [List.mem_map, and_iff_right h]
    constructor
    · rintro ⟨j, hj, rfl⟩
      exact ⟨j, List.mem_range.mp hj, rfl⟩
    · rintro ⟨j, hj, rfl⟩
      exact ⟨j, List.mem_range.mpr hj, rfl⟩
  · next h => simp [h]

/-- The pages that the `PT_LOAD` headers of a list record. -/
theorem mem_flatMap_recordedPages :
    p ∈ hs.flatMap (recordedPages f) ↔ ∃ phdr ∈ hs.filter fun phdr => phdr.pType = PT_LOAD, ∃ j < phdr.recorded,
      p = uninitNew (nthPage phdr.memPage j) true .anon (some (phdr.info f j)) phdr.writable := by
  simp only [List.mem_flatMap, mem_recordedPages, List.mem_filter, decide_eq_true_eq, and_assoc]

/-- What is recorded where all headers record their pages. -/
structure Recorded (t : Tid) (f : FilePtr) (loads : List Phdr) (s s' : Vm) : Prop where
  valid : ∀ phdr ∈ loads, Valid phdr
  added : ∀ va, Added t s s' va ↔ va = stackPage.va ∨ ∃ phdr ∈ loads, ∃ j < phdr.recorded, va = nthPage phdr.memPage j
  apart : loads.Pairwise fun phdr phdr' => ∀ i < phdr.recorded, ∀ j < phdr'.recorded,
    nthPage phdr.memPage i ≠ nthPage phdr'.memPage j
  stack : ∀ phdr ∈ loads, ∀ j < phdr.recorded, nthPage phdr.memPage j ≠ stackPage.va
  found : ∀ phdr ∈ loads, ∀ j < phdr.recorded, ∃ q page, s'.findPage (nthPage phdr.memPage j) (s'.spt t) = some q ∧
    s'.pages q = some page ∧ page.writable = phdr.writable ∧ page.aux = some (phdr.info f j)

theorem AddsPages.recorded (h : AddsPages t (hs.flatMap (recordedPages f) ++ [stackPage]) s s')
    (hvalid : ∀ phdr ∈ hs, phdr.pType = PT_LOAD → Valid phdr) :
    Recorded t f (hs.filter fun phdr => phdr.pType = PT_LOAD) s s' := by
  have hmem : ∀ phdr ∈ hs.filter fun phdr => phdr.pType = PT_LOAD, ∀ j < phdr.recorded,
      uninitNew (nthPage phdr.memPage j) true .anon (some (phdr.info f j)) phdr.writable ∈
        hs.flatMap (recordedPages f) :=
    fun phdr hphdr j hj => mem_flatMap_recordedPages.mpr ⟨phdr, hphdr, j, hj, rfl⟩
  have hnodup := h.nodup
  rw [List.map_append, List.nodup_append, List.map_flatMap, List.nodup_flatMap] at hnodup
  obtain ⟨⟨-, hpair⟩, -, hstack⟩ := hnodup
  refine ⟨fun phdr hphdr => ?_, fun va => ?_, ?_, fun phdr hphdr j hj heq => ?_, fun phdr hphdr j hj => ?_⟩
  · rw [List.mem_filter, decide_eq_true_eq] at hphdr
    exact hvalid phdr hphdr.1 hphdr.2
  · rw [Added, h.paged_iff]
    constructor
    · rintro ⟨hva | ⟨p, hp, rfl⟩, hnot⟩
      · exact absurd hva hnot
      · rcases List.mem_append.mp hp with hp | hp
        · obtain ⟨phdr, hphdr, j, hj, rfl⟩ := mem_flatMap_recordedPages.mp hp
          exact .inr ⟨phdr, hphdr, j, hj, rfl⟩
        · rw [List.mem_singleton.mp hp]
          exact .inl rfl
    · intro hva
      obtain ⟨p, hp, rfl⟩ : ∃ p ∈ hs.flatMap (recordedPages f) ++ [stackPage], va = p.va := by
        rcases hva with rfl | ⟨phdr, hphdr, j, hj, rfl⟩
        · exact ⟨stackPage, List.mem_append_right _ List.mem_cons_self, rfl⟩
        · exact ⟨_, List.mem_append_left _ (hmem phdr hphdr j hj), rfl⟩
      exact ⟨.inr ⟨p, hp, rfl⟩, fun hc => hc (h.fresh p hp)⟩
  · refine (hpair.filter _).imp_of_mem fun {phdr phdr'} hphdr hphdr' hdisj i hi j hj heq => ?_
    rw [List.mem_filter, decide_eq_true_eq] at hphdr hphdr'
    refine hdisj (List.mem_map.mpr ⟨_, mem_recordedPages.mpr ⟨hphdr.2, i, hi, rfl⟩, rfl⟩)
      (List.mem_map.mpr ⟨_, mem_recordedPages.mpr ⟨hphdr'.2, j, hj, rfl⟩, heq.symm⟩)
  · rw [← List.map_flatMap] at hstack
    exact hstack _ (List.mem_map.mpr ⟨_, hmem phdr hphdr j hj, rfl⟩) _
      (List.mem_map.mpr ⟨stackPage, List.mem_cons_self, rfl⟩) heq
  · obtain ⟨q, hq, hpage⟩ := h.found _ (List.mem_append_left _ (hmem phdr hphdr j hj))
    obtain ⟨page, hpage, hstill⟩ := Option.map_eq_some_iff.mp hpage
    refine ⟨q, page, hq, hpage, ?_, ?_⟩
    · exact congrArg Page.writable hstill
    · exact congrArg Page.aux hstill

/-- The pages are those of the headers only if every header records its pages. -/
theorem Recorded.all {loads : List Phdr} (h : Recorded t f loads s s')
    (hpages : ∀ va, Added t s s' va ↔ va = stackPage.va ∨ ∃ phdr ∈ loads, phdr.Has va)
    (hapart : loads.Pairwise fun phdr phdr' => ∀ va, ¬ (phdr.Has va ∧ phdr'.Has va))
    (hstack : ∀ phdr ∈ loads, ¬ phdr.Has stackPage.va) : ∀ phdr ∈ loads, phdr.recorded = phdr.memPages := by
  intro phdr hphdr
  have hv := h.valid phdr hphdr
  by_contra hne
  have hlt : phdr.recorded < phdr.memPages := by
    have := hv.recorded.1
    omega
  -- the first page that is not recorded is recorded by another header
  set va := nthPage phdr.memPage phdr.recorded with hva
  have hhas : phdr.Has va := hv.has_iff.mpr ⟨_, hlt, rfl⟩
  rcases (h.added va).mp ((hpages va).mpr (.inr ⟨phdr, hphdr, hhas⟩)) with heq | ⟨phdr', hphdr', j, hj, heq⟩
  · exact hstack phdr hphdr (heq ▸ hhas)
  · by_cases hsame : phdr = phdr'
    · subst hsame
      have := hv.nthPage_inj hlt.le (by omega) heq
      omega
    · have hsymm : Std.Symm fun phdr phdr' : Phdr => ∀ va, ¬ (phdr.Has va ∧ phdr'.Has va) :=
        ⟨fun _ _ hab va hba => hab va ⟨hba.2, hba.1⟩⟩
      have hv' := h.valid phdr' hphdr'
      refine hapart.forall hphdr hphdr' hsame va ⟨hhas, ?_⟩
      rw [heq]
      exact hv'.has_iff.mpr ⟨j, hj.trans_le hv'.recorded.1, rfl⟩

/-- **`load` maps what the file says exactly if the offset of its headers and its segments fit.** -/
theorem loadElf_maps_iff (hnew : s.NewPages t) (hthere : FileThere s f file inode) (hpos : file.pos = 0)
    (hlt : inode.data.length < 2 ^ 31) (hrun : (loadElf t f).run s = .ok (true, s')) :
    MapsElf t f s.fs.disk inode.data.start s s' ↔ FitsElf s.fs.disk inode.data.start := by
  obtain ⟨hadds, hread⟩ := loadElf_adds hnew hthere hpos hrun
  set disk := s.fs.disk with hdisk
  set start := inode.data.start with hstart
  set ehdr := ehdrOf disk start with hehdr
  have hvalid : ∀ phdr ∈ readHeaders disk start, phdr.pType = PT_LOAD → Valid phdr := by
    intro phdr hphdr htype
    obtain ⟨i, hi, rfl⟩ := List.mem_map.mp hphdr
    exact valid_of_validateSegment ((hread i (List.mem_range.mp hi)).2.2 htype) hthere.onDisk.nonneg hlt
  have hrec := hadds.recorded hvalid
  -- the headers that are read are those of the file
  have hheaders : (∀ i < ehdr.ePhnum.toNat, phdrOffset ehdr.ePhoff i = (ehdr.ePhoff.toNat + PHDR_SIZE * i : Nat)) →
      readHeaders disk start = fileHeaders disk start := by
    intro hoffs
    refine List.map_congr_left fun i hi => ?_
    rw [phdrAt, hoffs i (List.mem_range.mp hi), Int.toNat_natCast]
  constructor
  · intro h
    have hoff : ehdr.ePhnum = 0 ∨ ehdr.ePhoff.toNat < 2 ^ 31 := by
      by_contra hc
      rw [not_or] at hc
      have hn : 0 < ehdr.ePhnum.toNat := Nat.pos_of_ne_zero fun h0 => hc.1 (BitVec.eq_of_toNat_eq h0)
      have hfirst : phdrOffset ehdr.ePhoff 0 = (ehdr.ePhoff.toNat + PHDR_SIZE * 0 : Nat) := h.offsets 0 hn
      have hsmall := (hread 0 hn).2.1
      rw [hfirst] at hsmall
      unfold PHDR_SIZE at hsmall
      omega
    refine ⟨hoff, fun phdr hphdr => ?_⟩
    rw [hheaders h.offsets] at hrec
    have hv := hrec.valid phdr hphdr
    have hall := hrec.all h.pages h.apart h.stack phdr hphdr
    have hrb := hv.readBytes_eq hall
    refine ⟨fun hne => ?_, by rw [← hrb]; exact hv.recorded.2.mp hall⟩
    by_contra hbig
    -- the last page with bytes of the file has an offset that wraps around
    have hofs := hv.offset
    have hle := fileSize_le hv
    have hfpos : 0 < phdr.pFilesz.toNat := Nat.pos_of_ne_zero fun h0 => hne (BitVec.eq_of_toNat_eq h0)
    have hsize : phdr.fileSize = phdr.pVaddr.toNat % 4096 + phdr.pFilesz.toNat := if_neg hne
    have hj : (phdr.fileSize - 1) / PGSIZE < phdr.memPages := by
      unfold PGSIZE at *
      omega
    obtain ⟨q, page, info, hfind, hpage, -, haux, hgives⟩ := h.gives phdr hphdr _ (hv.has_iff.mpr ⟨_, hj, rfl⟩)
    obtain ⟨q', page', hfind', hpage', -, haux'⟩ := hrec.found phdr hphdr _ (hall ▸ hj)
    rw [hfind'] at hfind
    cases hfind
    rw [hpage'] at hpage
    cases hpage
    rw [haux'] at haux
    cases haux
    have hwrap := (hv.gives_iff hall hj).mp hgives
    rw [filePage_toNat] at hwrap
    unfold PGSIZE at hwrap
    omega
  · rintro ⟨hoff, hfits⟩
    have hoffs : ∀ i < ehdr.ePhnum.toNat, phdrOffset ehdr.ePhoff i = (ehdr.ePhoff.toNat + PHDR_SIZE * i : Nat) := by
      rcases hoff with h0 | hoff
      · intro i hi
        rw [hehdr, h0] at hi
        exact absurd hi (Nat.not_lt_zero i)
      · exact phdrOffset_eq hoff fun i hi => (hread i hi).2.1.trans_lt hlt
    rw [hheaders hoffs] at hrec
    have hall : ∀ phdr ∈ loadHeadersOf disk start, phdr.recorded = phdr.memPages :=
      fun phdr hphdr => (hfits phdr hphdr).recorded (hrec.valid phdr hphdr)
    have hhas : ∀ phdr ∈ loadHeadersOf disk start, ∀ va,
        phdr.Has va ↔ ∃ j < phdr.recorded, va = nthPage phdr.memPage j := by
      intro phdr hphdr va
      rw [hall phdr hphdr]
      exact (hrec.valid phdr hphdr).has_iff
    refine ⟨hoffs, fun va => ?_, ?_, fun phdr hphdr hc => ?_, fun phdr hphdr va hva => ?_⟩
    · rw [hrec.added]
      refine or_congr_right ⟨?_, ?_⟩
      · rintro ⟨phdr, hphdr, hva⟩
        exact ⟨phdr, hphdr, (hhas phdr hphdr va).mpr hva⟩
      · rintro ⟨phdr, hphdr, hva⟩
        exact ⟨phdr, hphdr, (hhas phdr hphdr va).mp hva⟩
    · refine hrec.apart.imp_of_mem fun {phdr phdr'} hphdr hphdr' hapart va hva => ?_
      obtain ⟨i, hi, hvi⟩ := (hhas phdr hphdr va).mp hva.1
      obtain ⟨j, hj, hvj⟩ := (hhas phdr' hphdr' va).mp hva.2
      exact hapart i hi j hj (hvi.symm.trans hvj)
    · obtain ⟨j, hj, hva⟩ := (hhas phdr hphdr _).mp hc
      exact hrec.stack phdr hphdr j hj hva.symm
    · obtain ⟨j, hj, rfl⟩ := (hhas phdr hphdr va).mp hva
      obtain ⟨q, page, hfind, hpage, hwritable, haux⟩ := hrec.found phdr hphdr j hj
      have hv := hrec.valid phdr hphdr
      refine ⟨q, page, _, hfind, hpage, hwritable, haux, (hv.gives_iff (hall phdr hphdr) (hall phdr hphdr ▸ hj)).mpr ?_⟩
      intro hlt
      have hofs := hv.offset
      have hne : phdr.pFilesz ≠ 0 := by
        intro h0
        rw [Phdr.fileSize, if_pos h0] at hlt
        exact absurd hlt (Nat.not_lt_zero _)
      have hend := (hfits phdr hphdr).1 hne
      have hsize : phdr.fileSize = phdr.pVaddr.toNat % 4096 + phdr.pFilesz.toNat := if_neg hne
      rw [filePage_toNat]
      unfold PGSIZE at hlt ⊢
      omega

end

/-- An executable with one program header, a writable segment of `memsz` bytes at `0x400000`. -/
def elfBytes (memsz : Nat) : List Byte :=
  elfMagic ++ List.replicate 9 0 ++ leBytes 2 2 ++ leBytes 2 0x3E ++ leBytes 4 1 ++ leBytes 8 0x400000 ++ leBytes 8 64 ++
    leBytes 8 0 ++ leBytes 4 0 ++ leBytes 2 64 ++ leBytes 2 56 ++ leBytes 2 1 ++ leBytes 6 0 ++
    leBytes 4 1 ++ leBytes 4 6 ++ leBytes 8 0 ++ leBytes 8 0x400000 ++ leBytes 8 0 ++ leBytes 8 0 ++ leBytes 8 memsz ++
    leBytes 8 0x1000

/-- The file is open, and there is a free frame. -/
def elfFile (memsz : Nat) : Vm :=
  .boot { FileSys.boot (fun sec => if sec = 3 then sectorOf (elfBytes memsz) else fun _ => 0) 16 ⟨0, []⟩ [] ⟨0, 0⟩ with
    inodes := update (fun _ => none) 0 (some
      { sector := 2, openCnt := 1, removed := false, denyWriteCnt := 1, data := ⟨3, 120⟩ })
    openInodes := [0]
    files := update (fun _ => none) 1 (some { inode := 0, pos := 0, denyWrite := true })
    brk := 2 } [false] 0

theorem elfFile_there (memsz : Nat) : FileThere (elfFile memsz) 1 { inode := 0, pos := 0, denyWrite := true }
    { sector := 2, openCnt := 1, removed := false, denyWriteCnt := 1, data := ⟨3, 120⟩ } := by
  refine ⟨rfl, rfl, by decide, fun i hi => ?_⟩
  have hcap : (elfFile memsz).fs.capacity = 16 := rfl
  dsimp only at hi ⊢
  unfold FileSys.Selects DISK_SECTOR_SIZE
  omega

/-- A segment of two pages is mapped. -/
theorem loadElf_maps_iff_two_pages : ∃ s', (loadElf 1 1).run (elfFile 8192) = .ok (true, s') ∧
    MapsElf 1 1 (elfFile 8192).fs.disk 3 (elfFile 8192) s' := by
  have hrun : ∃ s', (loadElf 1 1).run (elfFile 8192) = .ok (true, s') := ⟨_, rfl⟩
  obtain ⟨s', hrun⟩ := hrun
  exact ⟨s', hrun, (loadElf_maps_iff (by decide) (elfFile_there 8192) rfl (by decide) hrun).mpr (by decide)⟩

/-- **A segment of 4 GiB is loaded without any page.** -/
theorem large_segment_unmapped : ∃ s', (loadElf 1 1).run (elfFile (2 ^ 32)) = .ok (true, s') ∧
    ¬ MapsElf 1 1 (elfFile (2 ^ 32)).fs.disk 3 (elfFile (2 ^ 32)) s' := by
  refine ⟨_, rfl, fun h => ?_⟩
  have hmem : (⟨1, 6, 0, 0x400000, 0, 0x100000000⟩ : Phdr) ∈ loadHeadersOf (elfFile (2 ^ 32)).fs.disk 3 := by decide
  have hadded := (h.pages 0x400000).mpr (.inr ⟨_, hmem, by decide, by decide, by decide⟩)
  exact hadded.1 rfl

end Pintos
