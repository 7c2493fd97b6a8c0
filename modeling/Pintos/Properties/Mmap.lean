import Pintos.Userprog.Pages
import Pintos.Userprog.Resident
import Pintos.Userprog.Syscall

/-!
# A failing `mmap`

`mmap_load_segment` reopens the file and adds the pages one after the other. When it fails it undoes none
of this.

* `run_mapPages` — the loop returns, and tells whether every page was added
* `Undone` — the table and the counts of the inodes are as before
* `mmap_undoes_iff` — **a failing `mmap` changes nothing if it fails before the reference and the first page**
-/

namespace Pintos

open Function

/-! ## The loop -/

/-- Every page of `n` bytes is added: none is there, and there is memory for each. -/
def MapsAll (s : Vm) (t : Tid) (upage : Vaddr) (n : Nat) : Prop :=
  ∀ j, PGSIZE * j < n →
    j < 2 ^ 52 ∧ s.allocs (2 * j) = true ∧ s.allocs (2 * j + 1) = true ∧ ¬ s.Paged t (nthPage upage j)

/-- Pages went to the front of the table, and files are as they were. -/
structure Pushed (t : Tid) (s s' : Vm) (l : List PagePtr) : Prop where
  fs : s'.fs = s.fs
  spt : s'.spt t = l ++ s.spt t
  pages : ∀ q < s.brk, s'.pages q = s.pages q

/-- After a page of a mapping is added. -/
def Vm.addMapped (s : Vm) (t : Tid) (file : Option FilePtr) (writable : Bool) (ofs : Int) (upage : Vaddr)
    (n : Nat) : Vm :=
  s.asked.asked.addPage t (uninitNew upage true .file (some (mapInfo file ofs n)) writable)

section

variable {s s' s₁ : Vm} {t : Tid} {file : Option FilePtr} {writable : Bool} {ofs : Int} {upage : Vaddr}
  {fuel n : Nat}

theorem Pushed.refl (s : Vm) : Pushed t s s [] := ⟨rfl, rfl, fun _ _ => rfl⟩

theorem Pushed.asked (s : Vm) : Pushed t s s.asked [] := ⟨rfl, rfl, fun _ _ => rfl⟩

theorem Pushed.addMapped {l : List PagePtr} (h : Pushed t (s.addMapped t file writable ofs upage n) s' l) :
    Pushed t s s' (l ++ [s.brk]) := by
  refine ⟨h.fs, ?_, fun q hq => ?_⟩
  · rw [h.spt, Vm.addMapped, Vm.addPage_spt, List.append_assoc]
    rfl
  · exact (h.pages q (hq.trans (Nat.lt_succ_self _))).trans (update_of_ne hq.ne _ s.pages)

theorem paged_addMapped {va : Vaddr} (hnew : s.NewPages t) :
    (s.addMapped t file writable ofs upage n).Paged t va ↔ va = upage ∨ s.Paged t va := by
  rw [Vm.addMapped, Vm.paged_addPage hnew.asked.asked, Vm.paged_asked, Vm.paged_asked]
  rfl

theorem file_ne_uninit : VmType.file ≠ .uninit := nofun

/-- The first page is refused, or is there. -/
theorem run_mapPages_stops (hal : Aligned upage) (hn : n ≠ 0)
    (h : ¬ (s.allocs 0 = true ∧ s.allocs 1 = true ∧ ¬ s.Paged t upage)) :
    ∃ s', (mapPages t file writable (fuel + 1) ofs upage n).run s = .ok (false, s') ∧ Pushed t s s' [] := by
  rw [mapPages, if_neg hn]
  dsimp only
  rw [Prog.run_bind_ok (run_vmAlloc s)]
  cases h0 : s.allocs 0 with
  | false => exact ⟨_, rfl, .asked s⟩
  | true =>
    rw [if_pos rfl]
    by_cases hp : s.Paged t upage
    · have hcov : s.asked.Covered t upage := by
        rwa [Vm.Covered, pgRoundDown_of_aligned hal, Vm.paged_asked]
      rw [Prog.run_bind_ok (run_vmAllocPage_there file_ne_uninit hcov)]
      exact ⟨_, rfl, .asked s⟩
    · have hcov : ¬ s.asked.Covered t upage := by
        rwa [Vm.Covered, pgRoundDown_of_aligned hal, Vm.paged_asked]
      have h1 : s.asked.allocs 0 = false := by
        cases ha : s.allocs 1 with
        | false => exact ha
        | true => exact absurd ⟨h0, ha, hp⟩ h
      rw [Prog.run_bind_ok (run_vmAllocPage_refused file_ne_uninit hcov h1)]
      exact ⟨_, rfl, rfl, rfl, fun _ _ => rfl⟩

/-- The first page is added. -/
theorem run_mapPages_goes (hal : Aligned upage) (hn : n ≠ 0) (h0 : s.allocs 0 = true) (h1 : s.allocs 1 = true)
    (hp : ¬ s.Paged t upage) :
    (mapPages t file writable (fuel + 1) ofs upage n).run s =
      (mapPages t file writable fuel (wrap32 (ofs + (min n PGSIZE : Nat))) (nthPage upage 1)
        (n - min n PGSIZE)).run (s.addMapped t file writable ofs upage n) := by
  have hp' : ¬ s.asked.Paged t upage := by rwa [Vm.paged_asked]
  rw [mapPages, if_neg hn]
  dsimp only
  rw [Prog.run_bind_ok (run_vmAlloc s), h0, if_pos rfl, Prog.run_bind_ok (run_vmAllocPage file_ne_uninit hal hp' h1),
    if_pos rfl]
  rfl

/-- What is left to add after the first page. -/
theorem mapsAll_succ (hnew : s.NewPages t) (h0 : s.allocs 0 = true) (h1 : s.allocs 1 = true)
    (hp : ¬ s.Paged t upage) :
    MapsAll s t upage n ↔ MapsAll (s.addMapped t file writable ofs upage n) t (nthPage upage 1) (n - min n PGSIZE) := by
  have hpage : ∀ j, (s.addMapped t file writable ofs upage n).Paged t (nthPage (nthPage upage 1) j) ↔
      nthPage upage (j + 1) = upage ∨ s.Paged t (nthPage upage (j + 1)) := by
    intro j
    rw [nthPage_add, Nat.add_comm 1 j, paged_addMapped hnew]
  have hmin : ∀ j, PGSIZE * j < n - min n PGSIZE ↔ PGSIZE * (j + 1) < n := by
    intro j
    unfold PGSIZE
    omega
  unfold MapsAll
  constructor
  · intro h j hj
    obtain ⟨hlt, ha, hb, hq⟩ := h (j + 1) ((hmin j).mp hj)
    refine ⟨by omega, ha, hb, fun hp' => ?_⟩
    rcases (hpage j).mp hp' with heq | hp'
    · have hj0 := nthPage_inj (k := 0) hlt (by omega) (heq.trans (nthPage_zero upage).symm)
      omega
    · exact hq hp'
  · intro h j hj
    cases j with
    | zero => exact ⟨by omega, h0, h1, by rwa [nthPage_zero]⟩
    | succ j =>
      obtain ⟨hlt, ha, hb, hq⟩ := h j ((hmin j).mpr hj)
      rw [hpage j, not_or] at hq
      refine ⟨?_, ha, hb, hq.2⟩
      by_contra hge
      have hj : j + 1 = 0 + 2 ^ 52 := by omega
      rw [hj, nthPage_wrap, nthPage_zero] at hq
      exact hq.1 rfl

/-- The loop returns, and tells whether every page was added. It added some if it added the first. -/
theorem run_mapPages (hal : Aligned upage) (hnew : s.NewPages t) (hle : n ≤ fuel) :
    ∃ b s' l, (mapPages t file writable fuel ofs upage n).run s = .ok (b, s') ∧ (b = true ↔ MapsAll s t upage n) ∧
      Pushed t s s' l ∧ (l = [] ↔ n = 0 ∨ ¬ (s.allocs 0 = true ∧ s.allocs 1 = true ∧ ¬ s.Paged t upage)) := by
  induction fuel generalizing s ofs upage n with
  | zero =>
    obtain rfl : n = 0 := by omega
    exact ⟨true, s, [], rfl, by simp [MapsAll], .refl s, by simp⟩
  | succ fuel ih =>
    by_cases hn : n = 0
    · subst hn
      exact ⟨true, s, [], rfl, by simp [MapsAll], .refl s, by simp⟩
    by_cases h : s.allocs 0 = true ∧ s.allocs 1 = true ∧ ¬ s.Paged t upage
    · obtain ⟨h0, h1, hp⟩ := h
      have hpos : 0 < min n PGSIZE := by
        unfold PGSIZE
        omega
      have hnew' : (s.addMapped t file writable ofs upage n).NewPages t := hnew.asked.asked.addPage
      have hrest : n - min n PGSIZE ≤ fuel := by omega
      rw [run_mapPages_goes hal hn h0 h1 hp, mapsAll_succ hnew h0 h1 hp]
      obtain ⟨b, s', l, hrun, hb, hpush, -⟩ := ih (aligned_nthPage hal 1) hnew' hrest
      exact ⟨b, s', l ++ [s.brk], hrun, hb, hpush.addMapped, by simp [hn, h0, h1, hp]⟩
    · obtain ⟨s', hrun, hpush⟩ := run_mapPages_stops hal hn h
      refine ⟨false, s', [], hrun, ⟨nofun, fun hall => absurd ?_ h⟩, hpush, ⟨fun _ => .inr h, fun _ => rfl⟩⟩
      obtain ⟨-, h0, h1, hp⟩ := hall 0 (by omega)
      exact ⟨h0, h1, by rwa [nthPage_zero] at hp⟩

end

/-! ## `mmap_load_segment` -/

/-- The table and the counts of the inodes are as before. -/
structure Undone (t : Tid) (s s' : Vm) : Prop where
  spt : s'.spt t = s.spt t
  pages : ∀ q ∈ s.spt t, s'.pages q = s.pages q
  openCnt : ∀ p, (s'.fs.inodes p).map Inode.openCnt = (s.fs.inodes p).map Inode.openCnt

/-- The page `j` of a mapping of the file is not there, and there is memory for it. -/
def MapsFile (s : Vm) (t : Tid) (addr : Vaddr) (f : FilePtr) : Prop :=
  ∀ j, ((PGSIZE * j : Nat) : Int) < s.lengthOf f →
    j < 2 ^ 52 ∧ s.allocs (2 * j + 1) = true ∧ s.allocs (2 * j + 2) = true ∧ ¬ s.Paged t (nthPage addr j)

/-- There is no memory for the file, nor for the first page. -/
def NoMemory (s : Vm) : Prop := s.allocs 0 = false ∧ ¬ (s.allocs 1 = true ∧ s.allocs 2 = true)

section

variable {s s' : Vm} {t : Tid} {addr length : BitVec 64} {writable : Bool} {fd offset : Int} {f : FilePtr}
  {file : File} {inode : Inode}

theorem Undone.refl (s : Vm) : Undone t s s := ⟨rfl, fun _ _ => rfl, fun _ => rfl⟩

theorem Vm.lengthOf_eq (hf : s.fs.files f = some file) (hi : s.fs.inodes file.inode = some inode) :
    s.lengthOf f = inode.data.length := by
  rw [lengthOf, hf]
  dsimp only
  rw [hi]

/-- The file is reopened, and its pages are added. -/
theorem run_mmapLoadSegment (hf : s.fs.files f = some file) (hi : s.fs.inodes file.inode = some inode)
    {r : Option FilePtr} {fs : FileSys} (hr : (fileReopen f (s.allocs 0)).run s.fs = .ok (r, fs)) :
    (mmapLoadSegment t f offset addr writable).run s =
      (mapPages t r writable (s.lengthOf f).toNat offset addr (s.lengthOf f).toNat).run
        { s.asked with fs := fs } := by
  have hreopen : (liftFs (fileReopen f (s.allocs 0))).run s.asked = .ok (r, { s.asked with fs := fs }) :=
    run_liftFs hr
  rw [mmapLoadSegment, Prog.run_bind_ok (run_liftFs (run_fileLength hf hi)), Prog.run_bind_ok (run_vmAlloc _),
    Prog.run_bind_ok hreopen, Vm.lengthOf_eq hf hi]

/-- The requests of memory come after that for the file. -/
theorem mapsAll_iff_mapsFile (fs : FileSys) :
    MapsAll { s.asked with fs := fs } t addr (s.lengthOf f).toNat ↔ MapsFile s t addr f := by
  unfold MapsAll MapsFile
  refine forall_congr' fun j => ?_
  have hpaged : Vm.Paged { s.asked with fs := fs } t (nthPage addr j) ↔ s.Paged t (nthPage addr j) :=
    Vm.paged_congr rfl rfl
  have hlt : PGSIZE * j < (s.lengthOf f).toNat ↔ ((PGSIZE * j : Nat) : Int) < s.lengthOf f := by omega
  rw [hpaged, hlt]
  rfl

theorem run_fileReopen {fs : FileSys} (hf : fs.files f = some file) (hi : fs.inodes file.inode = some inode) :
    ∃ fs', (fileReopen f true).run fs = .ok (some fs.brk, fs') ∧
      fs'.inodes file.inode = some { inode with openCnt := inode.openCnt + 1 } ∧
      fs'.files fs.brk = some { inode := file.inode, pos := 0, denyWrite := false } ∧ fs'.capacity = fs.capacity := by
  rw [fileReopen, Prog.run_bind_ok (run_derefFile hf), Prog.run_bind_ok (run_inodeReopen hi)]
  exact ⟨_, rfl, update_self _ _ _, update_self _ _ _, rfl⟩

/-- A failing call changes nothing only if the file and the first page were refused. -/
theorem mmapLoadSegment_undone (hal : Aligned addr) (hnew : s.NewPages t) (hp : ¬ s.Paged t addr)
    (hf : s.fs.files f = some file) (hi : s.fs.inodes file.inode = some inode) (hopen : inode.openCnt ≠ 0) :
    ∃ b s', (mmapLoadSegment t f offset addr writable).run s = .ok (b, s') ∧
      (b = true ↔ MapsFile s t addr f) ∧ (b = false → (Undone t s s' ↔ NoMemory s)) := by
  obtain ⟨r, fs, hr, hcnt⟩ : ∃ r fs, (fileReopen f (s.allocs 0)).run s.fs = .ok (r, fs) ∧
      (s.allocs 0 = true → fs.inodes file.inode = some { inode with openCnt := inode.openCnt + 1 }) ∧
      (s.allocs 0 = false → fs = s.fs) := by
    cases h0 : s.allocs 0 with
    | true =>
      obtain ⟨fs, hrun, hinode, -⟩ := run_fileReopen hf hi
      exact ⟨_, fs, hrun, fun _ => hinode, nofun⟩
    | false => exact ⟨none, s.fs, run_fileReopen_refused hf hi hopen, nofun, fun _ => rfl⟩
  have hcongr : Vm.Paged { s.asked with fs := fs } t addr ↔ s.Paged t addr := Vm.paged_congr rfl rfl
  have hnew' : Vm.NewPages { s.asked with fs := fs } t := hnew
  obtain ⟨b, s', l, hrun, hb, hpush, hl⟩ := run_mapPages hal hnew' le_rfl
  refine ⟨b, s', (run_mmapLoadSegment hf hi hr).trans hrun, hb.trans (mapsAll_iff_mapsFile fs), fun hfalse => ?_⟩
  have hn : (s.lengthOf f).toNat ≠ 0 := by
    intro hn
    rw [hn, hfalse] at hb
    exact absurd (hb.mpr fun j hj => absurd hj (Nat.not_lt_zero _)) nofun
  have hl : l = [] ↔ ¬ (s.allocs 1 = true ∧ s.allocs 2 = true) := by
    refine hl.trans ⟨fun h ha => ?_, fun h => .inr fun ha => h ⟨ha.1, ha.2.1⟩⟩
    rcases h with h | h
    · exact hn h
    · exact h ⟨ha.1, ha.2, fun hc => hp (hcongr.mp hc)⟩
  have hspt : s'.spt t = l ++ s.spt t := hpush.spt
  have hfs : s'.fs = fs := hpush.fs
  constructor
  · intro hu
    have hnil : l = [] := List.append_left_eq_self.mp (hspt.symm.trans hu.spt)
    refine ⟨?_, hl.mp hnil⟩
    by_contra h0
    have hp' := hu.openCnt file.inode
    rw [hfs, hcnt.1 (by simpa using h0), hi] at hp'
    have hp' := Option.some.inj hp'
    simp at hp'
  · rintro ⟨h0, h12⟩
    refine ⟨?_, fun q hq => hpush.pages q (hnew q hq), fun p => ?_⟩
    · rw [hspt, hl.mpr h12, List.nil_append]
    · rw [hfs, hcnt.2 h0]

end

/-! ## `mmap` -/

/-- If `mmap` returns `NULL` nothing has changed. -/
def MmapUndoes (s : Vm) (t : Tid) (addr length : BitVec 64) (writable : Bool) (fd offset : Int) : Prop :=
  ∀ s', (mmap t addr length writable fd offset).run s = .ok (0, s') → Undone t s s'

/-- `mmap` refuses before it calls `mmap_load_segment`. -/
def RefusedFirst (s : Vm) (t : Tid) (addr length : BitVec 64) (fd offset : Int) : Prop :=
  mmapRefuses addr length fd offset = true ∨ s.Paged t addr ∨ ∀ f, s.fdt t fd.toNat = some f → s.lengthOf f = 0

section

variable {s s' : Vm} {t : Tid} {addr length : BitVec 64} {writable : Bool} {fd offset : Int}

/-- A call that gets to `mmap_load_segment`. -/
theorem run_mmap_loads (writable : Bool) {f : FilePtr} {file : File} {inode : Inode} (hr : mmapRefuses addr length fd offset = false)
    (hal : Aligned addr) (hp : ¬ s.Paged t addr) (hfd : s.fdt t fd.toNat = some f)
    (hf : s.fs.files f = some file) (hi : s.fs.inodes file.inode = some inode) (hlen : s.lengthOf f ≠ 0) :
    (mmap t addr length writable fd offset).run s =
      (mmapLoadSegment t f offset addr writable >>= fun loaded => if loaded then pure addr else pure 0).run s := by
  have hnone : s.findPage (pgRoundDown addr) (s.spt t) = none := by
    rw [pgRoundDown_of_aligned hal]
    exact not_not.mp hp
  have hfile : (Prog.read fun s => .ok (s.fdt t fd.toNat) : VmProg (Option FilePtr)).run s = .ok (some f, s) :=
    Prog.run_read (by rw [hfd])
  rw [Vm.lengthOf_eq hf hi] at hlen
  rw [mmap, hr, if_neg (by decide), Prog.run_bind_ok (run_sptFindPage s t addr), hnone]
  dsimp only
  rw [Prog.run_bind_ok hfile]
  dsimp only
  rw [Prog.run_bind_ok (run_liftFs (run_fileLength hf hi)), if_neg hlen]

theorem of_not_refused (h : mmapRefuses addr length fd offset = false) : addr ≠ 0 ∧ Aligned addr := by
  unfold mmapRefuses at h
  simp only [decide_eq_false_iff_not, not_or, not_not] at h
  obtain ⟨hne, -, -, hround, -⟩ := h
  refine ⟨hne, ?_⟩
  rw [hround]
  exact aligned_pgRoundDown addr

theorem Vm.of_lengthOf {f : FilePtr} (h : s.lengthOf f ≠ 0) :
    ∃ file inode, s.fs.files f = some file ∧ s.fs.inodes file.inode = some inode := by
  unfold lengthOf at h
  split at h
  · exact absurd rfl h
  · next file hf =>
    split at h
    · exact absurd rfl h
    · next inode hi => exact ⟨file, inode, hf, hi⟩

/-- `file_length` changes nothing, if there is a file. -/
theorem of_fileLength {f : FilePtr} {n : Int} (h : (liftFs (fileLength f)).run s = .ok (n, s')) :
    n = s.lengthOf f ∧ s' = s := by
  cases hf : s.fs.files f with
  | none =>
    have hrun : (fileLength f).run s.fs = .error .dangling := by
      rw [fileLength, Prog.run_bind, derefFile, Prog.read, Prog.run_lift, hf]
    rw [liftFs, Prog.run_zoom Vm.fs (fun s fs => { s with fs := fs }) _ (fun _ _ => rfl) (fun _ _ _ => rfl)
      fun _ => rfl, hrun] at h
    cases h
  | some file =>
    cases hi : s.fs.inodes file.inode with
    | none =>
      have hrun : (fileLength f).run s.fs = .error .dangling := by
        rw [fileLength, Prog.run_bind_ok (run_derefFile hf), Prog.run_bind, derefInode, Prog.read, Prog.run_lift, hi]
      rw [liftFs, Prog.run_zoom Vm.fs (fun s fs => { s with fs := fs }) _ (fun _ _ => rfl) (fun _ _ _ => rfl)
        fun _ => rfl, hrun] at h
      cases h
    | some inode =>
      rw [run_liftFs (run_fileLength hf hi)] at h
      cases h
      exact ⟨(Vm.lengthOf_eq hf hi).symm, rfl⟩

/-- A call that is refused first changes nothing. -/
theorem of_mmap_refused {r : Vaddr} (h : RefusedFirst s t addr length fd offset)
    (hrun : (mmap t addr length writable fd offset).run s = .ok (r, s')) : r = 0 ∧ s' = s := by
  unfold mmap at hrun
  split at hrun
  · cases hrun
    exact ⟨rfl, rfl⟩
  · next hr =>
    obtain ⟨hne, hal⟩ := of_not_refused (by simpa using hr)
    rw [Prog.run_bind_ok (run_sptFindPage s t addr), pgRoundDown_of_aligned hal] at hrun
    cases hfind : s.findPage addr (s.spt t) with
    | some q =>
      rw [hfind] at hrun
      cases hrun
      exact ⟨rfl, rfl⟩
    | none =>
      have hlen := (h.resolve_left hr).resolve_left fun hp => hp hfind
      rw [hfind] at hrun
      dsimp only at hrun
      obtain ⟨file, s₁, hfile, hrun⟩ := Prog.of_run_bind hrun
      obtain ⟨hfd, rfl⟩ := Prog.of_run_read hfile
      cases hfd
      cases hfd : s.fdt t fd.toNat with
      | none =>
        rw [hfd] at hrun
        cases hrun
      | some f =>
        rw [hfd] at hrun
        obtain ⟨n, s₂, hn, hrun⟩ := Prog.of_run_bind hrun
        obtain ⟨rfl, rfl⟩ := of_fileLength hn
        rw [if_pos (hlen f hfd)] at hrun
        cases hrun
        exact ⟨rfl, rfl⟩

/-- **A failing `mmap` changes nothing where it refuses first, where there is no memory for the file nor for
the first page, and where nothing makes it fail.** -/
theorem mmap_undoes_iff (hnew : s.NewPages t) (hopen : ∀ p inode, s.fs.inodes p = some inode → inode.openCnt ≠ 0) :
    MmapUndoes s t addr length writable fd offset ↔
      RefusedFirst s t addr length fd offset ∨ NoMemory s ∨
        ∀ f, s.fdt t fd.toNat = some f → MapsFile s t addr f := by
  by_cases hfirst : RefusedFirst s t addr length fd offset
  · refine ⟨fun _ => .inl hfirst, fun _ s' hrun => ?_⟩
    obtain ⟨-, rfl⟩ := of_mmap_refused hfirst hrun
    exact .refl _
  · rw [or_iff_right hfirst]
    unfold RefusedFirst at hfirst
    push Not at hfirst
    obtain ⟨hr, hp, f, hfd, hlen⟩ := hfirst
    have hr : mmapRefuses addr length fd offset = false := by simpa using hr
    obtain ⟨file, inode, hf, hi⟩ := Vm.of_lengthOf hlen
    obtain ⟨hne, hal⟩ := of_not_refused hr
    obtain ⟨b, s', hrun, hb, hundone⟩ := mmapLoadSegment_undone hal hnew hp hf hi (hopen _ _ hi)
    have hcall := run_mmap_loads writable hr hal hp hfd hf hi hlen
    rw [Prog.run_bind_ok hrun] at hcall
    have hall : (∀ g, s.fdt t fd.toNat = some g → MapsFile s t addr g) ↔ b = true := by
      rw [hb, hfd]
      exact ⟨fun h => h f rfl, fun h g hg => Option.some.inj hg ▸ h⟩
    unfold MmapUndoes
    rw [hall, hcall]
    cases b with
    | true => exact ⟨fun _ => .inr rfl, fun _ s₁ h => absurd (Prod.mk.inj (Except.ok.inj h)).1 hne⟩
    | false =>
      constructor
      · exact fun h => .inl ((hundone rfl).mp (h s' rfl))
      · rintro (h | h) s₁ hs₁
        · cases hs₁
          exact (hundone rfl).mpr h
        · cases h

end

/-- A process with an open file of two pages, and a page of its own at `0x10001000`. -/
def twoPageFile : Vm :=
  { Vm.boot { FileSys.boot (fun _ _ => 0) 4 ⟨0, []⟩ [] ⟨0, 0⟩ with
      inodes := update (fun _ => none) 0 (some
        { sector := 2, openCnt := 1, removed := false, denyWriteCnt := 0, data := ⟨3, 8192⟩ })
      openInodes := [0]
      files := update (fun _ => none) 1 (some { inode := 0, pos := 0, denyWrite := false })
      brk := 2 } [false] 0 with
    fdt := update (fun _ _ => none) 1 (update (fun _ => none) 2 (some 1))
    spt := update (fun _ => []) 1 [0]
    pages := update (fun _ => none) 0 (some
      { operations := .uninit, va := 0x10001000, frame := none, writable := true, init := false, type := .anon,
        aux := none, swapSlot := 0 })
    brk := 1 }

theorem twoPageFile_open : ∀ p inode, twoPageFile.fs.inodes p = some inode → inode.openCnt ≠ 0 := by
  intro p inode hp
  have hp : update (fun _ => none) 0 _ p = some inode := hp
  by_cases h0 : p = 0
  · subst h0
    rw [update_self] at hp
    cases hp
    decide
  · rw [update_of_ne h0] at hp
    cases hp

/-- A mapping at the page that is there is refused first. -/
theorem mmap_undoes_iff_there : MmapUndoes twoPageFile 1 0x10001000 8192 true 2 0 :=
  (mmap_undoes_iff (by decide) twoPageFile_open).mpr (.inl (.inr (.inl (by decide))))

/-- **A mapping whose second page is there leaves its first page in the table, and the file open.** -/
theorem overlap_half_mapped : ¬ MmapUndoes twoPageFile 1 0x10000000 8192 true 2 0 := by
  intro h
  have hrun : ∃ s', (mmap 1 0x10000000 8192 true 2 0).run twoPageFile = .ok (0, s') ∧ s'.spt 1 = [1, 0] :=
    ⟨_, rfl, rfl⟩
  obtain ⟨s', hs', hspt⟩ := hrun
  have hsame := (h s' hs').spt
  rw [hspt] at hsame
  cases hsame

end Pintos
