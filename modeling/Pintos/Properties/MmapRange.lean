import Pintos.Properties.Munmap
import Pintos.Userprog.Loading

/-!
# The range of a mapping

`mmap_load_segment` takes the number of pages from the length of the file, and neither from the length
nor from the offset of the call.

* `mapPages_paged` — the loop adds the pages of the file
* `Awaits` — a later state, in which the page can be accessed
* `mmap_maps_range_iff` — **the range is mapped if it is that of the whole file**
-/

namespace Pintos

open Function LittleEndian

/-! ## What a mapping is for -/

/-- The page at `va` and the range have an address in common. -/
def Intersects (addr length : BitVec 64) (va : Vaddr) : Prop :=
  Aligned va ∧ va.toNat < addr.toNat + length.toNat ∧ addr.toNat < va.toNat + PGSIZE

/-- The page was added to the table. -/
def Added (t : Tid) (s s' : Vm) (va : Vaddr) : Prop := s'.Paged t va ∧ ¬ s.Paged t va

/-- The file of the page at the address. -/
def Vm.fileAt (s : Vm) (t : Tid) (va : Vaddr) : Option FilePtr :=
  (s.findPage va (s.spt t)).bind fun q => (s.pages q).bind fun page => page.aux.bind FileInfo.file

/-- The page was not accessed since, its file is there, and there is the memory that an access takes. -/
structure Awaits (s s₁ : Vm) (t : Tid) (va : Vaddr) (kva : Kva) : Prop where
  found : s₁.findPage va (s₁.spt t) = s.findPage va (s.spt t)
  page : ∀ q, s.findPage va (s.spt t) = some q → s₁.pages q = s.pages q
  frame : FrameFree s₁ kva
  leftover : s₁.leftover = true
  capacity : s₁.fs.capacity = s.fs.capacity
  file : ∀ f file, s.fileAt t va = some f → s.fs.files f = some file →
    (s₁.fs.files f).map File.inode = some file.inode ∧
      (s₁.fs.inodes file.inode).map Inode.data = (s.fs.inodes file.inode).map Inode.data

/-- The first access succeeds, and shows the bytes. -/
def FirstAccess (s : Vm) (t : Tid) (va : Vaddr) (bytes : List Byte) : Prop :=
  ∃ s' pte, (vmClaimPage t va).run s = .ok (true, s') ∧ s'.pte t va = some pte ∧ pte.present = true ∧
    s'.bytes pte.kva PGSIZE = bytes

/-- The bytes of the file from `pos` on, up to its end, and then zeros. -/
def filePage (disk : Nat → Sector) (d : InodeDisk) (pos : Nat) : List Byte :=
  fileBytes disk d.start pos (transferred d PGSIZE pos) ++ List.replicate (PGSIZE - transferred d PGSIZE pos) 0

/-- The pages of the range were added, and show the file from the offset on. -/
structure MapsRange (s s' : Vm) (t : Tid) (addr length : BitVec 64) (offset : Int) (d : InodeDisk) : Prop where
  added : ∀ va, Added t s s' va ↔ Intersects addr length va
  user : ∀ va, Added t s s' va → isUserVaddr va = true
  shows : ∀ i, PGSIZE * i < length.toNat → ∀ s₁ kva, Awaits s' s₁ t (nthPage addr i) kva →
    FirstAccess s₁ t (nthPage addr i) (filePage s₁.fs.disk d (offset.toNat + PGSIZE * i))

/-- The file could be reopened, the range is that of the whole file, and it ends below the kernel. -/
def WholeFile (s : Vm) (addr length : BitVec 64) (offset : Int) (d : InodeDisk) : Prop :=
  s.allocs 0 = true ∧ offset = 0 ∧ (d.length.toNat + 4095) / PGSIZE = (length.toNat + 4095) / PGSIZE ∧
    addr.toNat + d.length.toNat ≤ KERN_BASE.toNat

/-! ## Pages of the file -/

section

variable {s s' : Vm} {t : Tid} {file : Option FilePtr} {writable : Bool} {ofs : Int} {upage va : Vaddr} {fuel n : Nat}

/-- The loop adds the pages of `n` bytes, and none of them was there. -/
theorem mapPages_paged (hal : Aligned upage) (hnew : s.NewPages t) (hle : n ≤ fuel)
    (hrun : (mapPages t file writable fuel ofs upage n).run s = .ok (true, s')) :
    (∀ va, s'.Paged t va ↔ s.Paged t va ∨ ∃ j, PGSIZE * j < n ∧ va = nthPage upage j) ∧
      ∀ j, PGSIZE * j < n → ¬ s.Paged t (nthPage upage j) := by
  induction fuel generalizing s ofs upage n with
  | zero =>
    obtain rfl : n = 0 := by omega
    cases hrun
    exact ⟨fun va => by simp, fun j hj => absurd hj (Nat.not_lt_zero _)⟩
  | succ fuel ih =>
    by_cases hn : n = 0
    · subst hn
      cases hrun
      exact ⟨fun va => by simp, fun j hj => absurd hj (Nat.not_lt_zero _)⟩
    by_cases h : s.allocs 0 = true ∧ s.allocs 1 = true ∧ ¬ s.Paged t upage
    · obtain ⟨h0, h1, hp⟩ := h
      rw [run_mapPages_goes hal hn h0 h1 hp] at hrun
      have hnew₁ : (s.addMapped t file writable ofs upage n).NewPages t := hnew.asked.asked.addPage
      obtain ⟨hpaged, hnone⟩ := ih (aligned_nthPage hal 1) hnew₁ (by unfold PGSIZE; omega) hrun
      have hnext : ∀ j, PGSIZE * j < n - min n PGSIZE ↔ PGSIZE * (j + 1) < n := by
        intro j
        unfold PGSIZE
        omega
      refine ⟨fun va => ?_, fun j hj => ?_⟩
      · rw [hpaged va, paged_addMapped hnew]
        constructor
        · rintro ((rfl | hva) | ⟨j, hj, rfl⟩)
          · exact .inr ⟨0, by omega, (nthPage_zero _).symm⟩
          · exact .inl hva
          · exact .inr ⟨j + 1, (hnext j).mp hj, by rw [nthPage_add, Nat.add_comm]⟩
        · rintro (hva | ⟨_ | j, hj, rfl⟩)
          · exact .inl (.inr hva)
          · exact .inl (.inl (nthPage_zero _))
          · exact .inr ⟨j, (hnext j).mpr hj, by rw [nthPage_add, Nat.add_comm]⟩
      · cases j with
        | zero => rwa [nthPage_zero]
        | succ j =>
          have hj := hnone j ((hnext j).mpr hj)
          rw [nthPage_add, Nat.add_comm, paged_addMapped hnew, not_or] at hj
          exact hj.2
    · obtain ⟨s₁, hrun₁, -⟩ := run_mapPages_stops hal hn h
      rw [hrun₁] at hrun
      cases hrun

/-- The pages that a range of `n` bytes from a page on has. -/
theorem intersects_iff {addr length : BitVec 64} (hal : Aligned addr) :
    Intersects addr length va ↔ ∃ i, PGSIZE * i < length.toNat ∧ addr.toNat + PGSIZE * i < 2 ^ 64 ∧ va = nthPage addr i := by
  unfold Intersects
  rw [aligned_iff] at *
  constructor
  · rintro ⟨hva, hlt, hle⟩
    have hvlt := va.isLt
    refine ⟨(va.toNat - addr.toNat) / PGSIZE, ?_, ?_, BitVec.eq_of_toNat_eq ?_⟩
    · unfold PGSIZE at *
      omega
    · unfold PGSIZE at *
      omega
    · rw [nthPage_toNat (by unfold PGSIZE at *; omega)]
      unfold PGSIZE at *
      omega
  · rintro ⟨i, hi, hlt, rfl⟩
    rw [nthPage_toNat hlt]
    unfold PGSIZE at *
    omega

end

/-! ## Later states -/

section

variable {s s' s₁ : Vm} {t : Tid} {va : Vaddr} {kva : Kva} {q : PagePtr} {info : FileInfo} {writable : Bool}
  {f : FilePtr} {file : File} {inode : Inode}

theorem Awaits.lazyPage (ha : Awaits s s₁ t va kva) (hq : s.findPage va (s.spt t) = some q)
    (hpage : s.pages q = some (uninitNew va true .file (some info) writable)) (hal : Aligned va) (hu : isUserVaddr va = true) :
    LazyPage s₁ t va q (uninitNew va true .file (some info) writable) info :=
  ⟨ha.found.trans hq, (ha.page q hq).trans hpage, rfl, rfl, nofun, rfl, rfl, hal, hu⟩

theorem Awaits.fileThere (ha : Awaits s s₁ t va kva) (hq : s.findPage va (s.spt t) = some q)
    (hpage : s.pages q = some (uninitNew va true .file (some info) writable)) (hfile : info.file = some f)
    (hthere : FileThere s f file inode) :
    ∃ file₁ inode₁, FileThere s₁ f file₁ inode₁ ∧ inode₁.data = inode.data := by
  have hat : s.fileAt t va = some f := by
    rw [Vm.fileAt, hq, Option.bind_some, hpage]
    exact hfile
  obtain ⟨hf, hi⟩ := ha.file f file hat hthere.files
  rw [hthere.inodes, Option.map_some, Option.map_eq_some_iff] at hi
  obtain ⟨file₁, hf₁, heq⟩ := Option.map_eq_some_iff.mp hf
  obtain ⟨inode₁, hi₁, hdata⟩ := hi
  refine ⟨file₁, inode₁, ⟨hf₁, by rw [heq, hi₁], ?_⟩, hdata⟩
  rw [hdata]
  exact hthere.onDisk.congr ha.capacity

/-- The state itself, with memory for an access. -/
def Vm.ready (s : Vm) : Vm := { s with userPool := [false], allocs := fun _ => true, leftover := true }

theorem awaits_ready (s : Vm) (t : Tid) (va : Vaddr) : Awaits s s.ready t va 0 :=
  ⟨Vm.findPage_congr (by rfl) _, fun _ _ => rfl, ⟨rfl, rfl, rfl⟩, rfl, rfl,
    fun f file _ hf => ⟨by rw [Vm.ready, hf]; rfl, rfl⟩⟩

end

/-! ## The range -/

section

variable {s s' : Vm} {t : Tid} {addr length : BitVec 64} {writable : Bool} {fd offset : Int} {f : FilePtr}
  {file : File} {inode : Inode} {r : Option FilePtr}

/-- After `mmap`: the pages of the file that it added, with the file it reopened. -/
structure Mapped (s s' : Vm) (t : Tid) (addr : Vaddr) (writable : Bool) (offset : Int) (inode : Inode)
    (r : Option FilePtr) : Prop where
  aligned : Aligned addr
  user : isUserVaddr addr = true
  added : ∀ va, Added t s s' va ↔ ∃ j, PGSIZE * j < inode.data.length.toNat ∧ va = nthPage addr j
  pages : ∀ j, PGSIZE * j < inode.data.length.toNat → ∃ q, s'.findPage (nthPage addr j) (s'.spt t) = some q ∧
    s'.pages q = some (uninitNew (nthPage addr j) true .file
      (some (mapInfo r (wrap32 (offset + (PGSIZE * j : Nat))) (inode.data.length.toNat - PGSIZE * j))) writable)
  refused : s.allocs 0 = false → r = none
  granted : s.allocs 0 = true → ∃ g file inode', r = some g ∧ FileThere s' g file inode' ∧ inode'.data = inode.data

/-- The call, if it does not return `NULL`. -/
theorem mmap_mapped (hnew : s.NewPages t) (hd : s.Distinct t) (hfd : s.fdt t fd.toNat = some f)
    (hthere : FileThere s f file inode) (hopen : inode.openCnt ≠ 0) (hpos : 0 < inode.data.length)
    (hofs : wrap32 offset = offset) (hne : addr ≠ 0)
    (hrun : (mmap t addr length writable fd offset).run s = .ok (addr, s')) :
    mmapRefuses addr length fd offset = false ∧ ∃ r, Mapped s s' t addr writable offset inode r := by
  have hfirst : ¬ RefusedFirst s t addr length fd offset := fun h => hne (of_mmap_refused h hrun).1
  unfold RefusedFirst at hfirst
  push Not at hfirst
  obtain ⟨hargs, hp, -⟩ := hfirst
  have hargs : mmapRefuses addr length fd offset = false := by simpa using hargs
  obtain ⟨-, hal⟩ := of_not_refused hargs
  have hu : isUserVaddr addr = true := by
    unfold mmapRefuses at hargs
    simp only [decide_eq_false_iff_not, not_or] at hargs
    simpa [isUserVaddr] using hargs.2.1
  have hlen : s.lengthOf f = inode.data.length := Vm.lengthOf_eq hthere.files hthere.inodes
  rw [run_mmap_loads writable hargs hal hp hfd hthere.files hthere.inodes (by omega)] at hrun
  obtain ⟨b, s₂, hload, hrest⟩ := Prog.of_run_bind hrun
  cases b with
  | false =>
    cases hrest
    exact absurd rfl hne
  | true =>
    cases hrest
    obtain ⟨r, fs, hreopen, hrefused, hgranted⟩ : ∃ r fs, (fileReopen f (s.allocs 0)).run s.fs = .ok (r, fs) ∧
        (s.allocs 0 = false → r = none) ∧ (s.allocs 0 = true → ∃ g file' inode', r = some g ∧
          fs.files g = some file' ∧ fs.inodes file'.inode = some inode' ∧ OnDisk fs inode'.data ∧
          inode'.data = inode.data) := by
      cases h0 : s.allocs 0 with
      | true =>
        obtain ⟨fs, hrun, hinode, hfile, hcap⟩ := run_fileReopen hthere.files hthere.inodes
        exact ⟨_, fs, hrun, nofun, fun _ => ⟨_, _, _, rfl, hfile, hinode, hthere.onDisk.congr hcap, rfl⟩⟩
      | false =>
        exact ⟨none, s.fs, run_fileReopen_refused hthere.files hthere.inodes hopen, fun _ => rfl, nofun⟩
    rw [run_mmapLoadSegment hthere.files hthere.inodes hreopen, hlen] at hload
    set s₁ : Vm := { s.asked with fs := fs } with hs₁
    have hpaged : ∀ va, s₁.Paged t va ↔ s.Paged t va := fun va => Vm.paged_congr rfl rfl
    have hnew₁ : s₁.NewPages t := hnew
    have hd₁ : s₁.Distinct t := hd
    obtain ⟨hdist, -, -, hall⟩ := mapPages_adds hal hnew₁ hd₁ le_rfl hload
    obtain ⟨hadd, hnone⟩ := mapPages_paged hal hnew₁ le_rfl hload
    have hfs : s'.fs = fs := by
      obtain ⟨b, s₂, l, hagain, -, hpush, -⟩ := run_mapPages hal hnew₁ le_rfl
      rw [hload] at hagain
      cases hagain
      exact hpush.fs
    refine ⟨hargs, r, hal, hu, fun va => ?_, fun j hj => ?_, hrefused, fun h0 => ?_⟩
    · unfold Added
      rw [hadd va, hpaged]
      constructor
      · rintro ⟨hva | hva, hnot⟩
        · exact absurd hva hnot
        · exact hva
      · rintro ⟨j, hj, rfl⟩
        exact ⟨.inr ⟨j, hj, rfl⟩, fun h => hnone j hj ((hpaged _).mpr h)⟩
    · obtain ⟨q, hq, o, ho, hpage⟩ := hall j hj
      rw [ho hofs] at hpage
      exact ⟨q, hdist.findPage_iff.mpr ⟨hq, _, hpage, rfl⟩, hpage⟩
    · obtain ⟨g, file', inode', hr, hf, hi, hdisk, hdata⟩ := hgranted h0
      exact ⟨g, file', inode', hr, ⟨by rw [hfs, hf], by rw [hfs, hi], by rw [hfs]; exact hdisk⟩, hdata⟩

theorem pgsize_mul_lt {j n : Nat} : PGSIZE * j < n ↔ j < (n + 4095) / PGSIZE := by
  unfold PGSIZE
  omega

/-- The pages that were added are those of the range if there are as many. -/
theorem Mapped.added_iff (h : Mapped s s' t addr writable offset inode r) (hlt : inode.data.length < 2 ^ 31) :
    (∀ va, Added t s s' va ↔ Intersects addr length va) ↔
      (inode.data.length.toNat + 4095) / PGSIZE = (length.toNat + 4095) / PGSIZE := by
  have hu := isUserVaddr_iff.mp h.user
  have hsmall : (inode.data.length.toNat + 4095) / PGSIZE < 2 ^ 20 := by
    unfold PGSIZE
    omega
  simp only [h.added, intersects_iff h.aligned, pgsize_mul_lt]
  constructor
  · intro heq
    rcases lt_trichotomy ((inode.data.length.toNat + 4095) / PGSIZE) ((length.toNat + 4095) / PGSIZE) with hlt | he | hgt
    · -- the page after the end of the file is in the range
      obtain ⟨j, hj, hva⟩ := (heq (nthPage addr ((inode.data.length.toNat + 4095) / PGSIZE))).mpr
        ⟨_, hlt, by unfold PGSIZE at *; omega, rfl⟩
      have := nthPage_inj (by omega) (by omega) hva
      omega
    · exact he
    · -- the page after the range is one of the file
      obtain ⟨j, hj, -, hva⟩ := (heq (nthPage addr ((length.toNat + 4095) / PGSIZE))).mp ⟨_, hgt, rfl⟩
      have := nthPage_inj (by omega) (by omega) hva
      omega
  · intro heq va
    rw [heq]
    constructor
    · rintro ⟨j, hj, rfl⟩
      exact ⟨j, hj, by unfold PGSIZE at *; omega, rfl⟩
    · rintro ⟨j, hj, -, rfl⟩
      exact ⟨j, hj, rfl⟩

/-- They are at addresses of the user if the last one is. -/
theorem Mapped.user_iff (h : Mapped s s' t addr writable offset inode r) (hpos : 0 < inode.data.length)
    (hlt : inode.data.length < 2 ^ 31) :
    (∀ va, Added t s s' va → isUserVaddr va = true) ↔ addr.toNat + inode.data.length.toNat ≤ KERN_BASE.toNat := by
  have hu := isUserVaddr_iff.mp h.user
  have hal := aligned_iff.mp h.aligned
  have hk : KERN_BASE.toNat = 0x8004000000 := rfl
  simp only [h.added]
  constructor
  · intro hall
    have hlast := isUserVaddr_iff.mp (hall _ ⟨(inode.data.length.toNat - 1) / PGSIZE, by unfold PGSIZE; omega, rfl⟩)
    rw [nthPage_toNat (by unfold PGSIZE; omega)] at hlast
    unfold PGSIZE at hlast
    omega
  · rintro hle va ⟨j, hj, rfl⟩
    rw [isUserVaddr_iff, nthPage_toNat (by unfold PGSIZE at *; omega)]
    omega

/-- An access of a page of a mapping that begins with the file. -/
theorem Mapped.shows {j : Nat} {s₁ : Vm} {kva : Kva} (h : Mapped s s' t addr writable 0 inode r)
    (hlt : inode.data.length < 2 ^ 31) (h0 : s.allocs 0 = true) (hj : PGSIZE * j < inode.data.length.toNat)
    (hu : isUserVaddr (nthPage addr j) = true) (ha : Awaits s' s₁ t (nthPage addr j) kva) :
    FirstAccess s₁ t (nthPage addr j) (filePage s₁.fs.disk inode.data (PGSIZE * j)) := by
  obtain ⟨q, hq, hpage⟩ := h.pages j hj
  obtain ⟨g, file, inode', rfl, hthere, hdata⟩ := h.granted h0
  obtain ⟨file₁, inode₁, hthere₁, hdata₁⟩ := ha.fileThere hq hpage rfl hthere
  rw [zero_add, wrap32_of_lt (by omega) (by omega)] at hpage
  set info := mapInfo (some g) ((PGSIZE * j : Nat) : Int) (inode.data.length.toNat - PGSIZE * j) with hinfo
  have hlazy := ha.lazyPage hq hpage (aligned_nthPage h.aligned j) hu
  have hpos : info.ofs.toNat = PGSIZE * j := Int.toNat_natCast _
  have hread : info.pageReadBytes = min (inode.data.length.toNat - PGSIZE * j) PGSIZE := rfl
  have hlen : Enough inode₁ info := by
    unfold Enough
    rw [hpos, hread, hdata₁, hdata]
    omega
  have hfull : info.pageReadBytes + info.pageZeroBytes = PGSIZE := by
    rw [hread]
    exact Nat.add_sub_cancel' (Nat.min_le_right _ _)
  obtain ⟨s₂, hrun, hshown⟩ := hlazy.claim ha.frame (fun _ => ha.leftover) rfl (Int.natCast_nonneg _) hthere₁ hlen hfull
  have hbytes : shownBytes s₁.fs.disk inode₁.data.start info = filePage s₁.fs.disk inode.data (PGSIZE * j) := by
    have hzero : info.pageZeroBytes = PGSIZE - info.pageReadBytes := rfl
    have htrans : transferred inode.data PGSIZE (PGSIZE * j) = info.pageReadBytes := Nat.min_comm _ _
    rw [shownBytes, filePage, hpos, hzero, htrans, hdata₁, hdata]
  exact ⟨s₂, _, hrun, hshown.pte, rfl, hshown.shows.trans hbytes⟩

/-- If there is no file, or a page of the mapping is beyond its end, then the last page cannot be accessed. -/
theorem Mapped.fails (h : Mapped s s' t addr writable offset inode r) (hlt : inode.data.length < 2 ^ 31)
    (hofs : 0 ≤ offset) (hend : offset < inode.data.length) (hbad : s.allocs 0 = false ∨ 0 < offset)
    (hu : isUserVaddr (nthPage addr ((inode.data.length.toNat - 1) / PGSIZE)) = true) {bytes : List Byte} :
    ¬ FirstAccess s'.ready t (nthPage addr ((inode.data.length.toNat - 1) / PGSIZE)) bytes := by
  set j := (inode.data.length.toNat - 1) / PGSIZE with hjdef
  have hj : PGSIZE * j < inode.data.length.toNat := by
    unfold PGSIZE at *
    omega
  obtain ⟨q, hq, hpage⟩ := h.pages j hj
  have ha := awaits_ready s' t (nthPage addr j)
  have hlazy := ha.lazyPage hq hpage (aligned_nthPage h.aligned j) hu
  rintro ⟨s₂, pte, hrun, -⟩
  cases h0 : s.allocs 0 with
  | false => exact hlazy.claim_null ha.frame (fun _ => ha.leftover) (h.refused h0) hrun
  | true =>
    obtain ⟨g, file, inode', rfl, hthere, hdata⟩ := h.granted h0
    obtain ⟨file₁, inode₁, hthere₁, hdata₁⟩ := ha.fileThere hq hpage rfl hthere
    have hoff : 0 < offset := hbad.resolve_left (by simp [h0])
    refine hlazy.claim_short ha.frame (fun _ => ha.leftover) rfl hthere₁ ?_ hrun
    unfold Enough mapInfo
    rw [hdata₁, hdata]
    dsimp only
    -- the page begins beyond `off_t`, or ends beyond the file
    rcases Int.lt_or_le (offset + (PGSIZE * j : Nat)) (2 ^ 31) with hsmall | hbig
    · rw [wrap32_of_lt (by omega) hsmall]
      right
      unfold PGSIZE at *
      omega
    · exact .inl (wrap32_neg hbig (by omega))

/-- **`mmap` maps the range that was asked for exactly if that is the range of the whole file, which could be
reopened and ends below the kernel.** -/
theorem mmap_maps_range_iff (hnew : s.NewPages t) (hd : s.Distinct t) (hfd : s.fdt t fd.toNat = some f)
    (hthere : FileThere s f file inode) (hopen : inode.openCnt ≠ 0) (hpos : 0 < inode.data.length)
    (hlt : inode.data.length < 2 ^ 31) (hofs : 0 ≤ offset) (hend : offset < inode.data.length) (hne : addr ≠ 0)
    (hrun : (mmap t addr length writable fd offset).run s = .ok (addr, s')) :
    MapsRange s s' t addr length offset inode.data ↔ WholeFile s addr length offset inode.data := by
  obtain ⟨hargs, r, hm⟩ := mmap_mapped hnew hd hfd hthere hopen hpos (wrap32_of_lt hofs (by omega)) hne hrun
  constructor
  · rintro ⟨hadded, huser, hshows⟩
    have hcount := (hm.added_iff hlt).mp hadded
    have hle := (hm.user_iff hpos hlt).mp huser
    have hlast : PGSIZE * ((inode.data.length.toNat - 1) / PGSIZE) < inode.data.length.toNat := by
      unfold PGSIZE
      omega
    have hu := huser _ ((hm.added _).mpr ⟨_, hlast, rfl⟩)
    have haccess := hshows _ (pgsize_mul_lt.mpr (hcount ▸ pgsize_mul_lt.mp hlast)) _ 0 (awaits_ready s' t _)
    have hgood : ¬ (s.allocs 0 = false ∨ 0 < offset) := fun hbad => hm.fails hlt hofs hend hbad hu haccess
    rw [not_or, Bool.not_eq_false] at hgood
    exact ⟨hgood.1, by omega, hcount, hle⟩
  · rintro ⟨h0, rfl, hcount, hle⟩
    have huser := (hm.user_iff hpos hlt).mpr hle
    refine ⟨(hm.added_iff hlt).mpr hcount, huser, fun i hi s₁ kva ha => ?_⟩
    have hj : PGSIZE * i < inode.data.length.toNat := pgsize_mul_lt.mpr (hcount ▸ pgsize_mul_lt.mp hi)
    rw [Int.toNat_zero, Nat.zero_add]
    exact hm.shows hlt h0 hj (huser _ ((hm.added _).mpr ⟨i, hj, rfl⟩)) ha

end

/-- A process with an open file of 5000 bytes. -/
def fiveThousand : Vm :=
  { Vm.boot { FileSys.boot (fun _ _ => 0) 16 ⟨0, []⟩ [] ⟨0, 0⟩ with
      inodes := update (fun _ => none) 0 (some
        { sector := 2, openCnt := 1, removed := false, denyWriteCnt := 0, data := ⟨3, 5000⟩ })
      openInodes := [0]
      files := update (fun _ => none) 1 (some { inode := 0, pos := 0, denyWrite := false })
      brk := 2 } [false] 0 with
    fdt := update (fun _ _ => none) 1 (update (fun _ => none) 2 (some 1)) }

theorem fiveThousand_there : FileThere fiveThousand 1 { inode := 0, pos := 0, denyWrite := false }
    { sector := 2, openCnt := 1, removed := false, denyWriteCnt := 0, data := ⟨3, 5000⟩ } := by
  refine ⟨rfl, rfl, by decide, fun i hi => ?_⟩
  have hcap : fiveThousand.fs.capacity = 16 := rfl
  dsimp only at hi ⊢
  unfold FileSys.Selects DISK_SECTOR_SIZE
  omega

theorem fiveThousand_distinct : fiveThousand.Distinct 1 := fun q hq => absurd hq (List.not_mem_nil (a := q))

/-- A mapping of the whole file is as asked. -/
theorem mmap_maps_range_iff_whole : ∃ s', (mmap 1 0x10000000 5000 true 2 0).run fiveThousand = .ok (0x10000000, s') ∧
    MapsRange fiveThousand s' 1 0x10000000 5000 0 ⟨3, 5000⟩ := by
  have hrun : ∃ s', (mmap 1 0x10000000 5000 true 2 0).run fiveThousand = .ok (0x10000000, s') := ⟨_, rfl⟩
  obtain ⟨s', hrun⟩ := hrun
  exact ⟨s', hrun, (mmap_maps_range_iff (by decide) fiveThousand_distinct rfl fiveThousand_there (by decide)
    (by decide) (by decide) (by decide) (by decide) (by decide) hrun).mpr ⟨rfl, rfl, rfl, by decide⟩⟩

/-- **A mapping of one byte adds both pages of the file.** -/
theorem one_byte_maps_file : ∃ s', (mmap 1 0x10000000 1 true 2 0).run fiveThousand = .ok (0x10000000, s') ∧
    ¬ MapsRange fiveThousand s' 1 0x10000000 1 0 ⟨3, 5000⟩ := by
  refine ⟨_, rfl, fun h => ?_⟩
  obtain ⟨-, hlt, -⟩ := (h.added 0x10001000).mp ⟨by decide, by decide⟩
  exact absurd hlt (by decide)

end Pintos
