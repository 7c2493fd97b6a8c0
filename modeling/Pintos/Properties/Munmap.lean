import Pintos.Properties.Mmap

/-!
# What `munmap` removes

The extent of a mapping is in `read_bytes` of its first page, which a process does not inherit.

* `FileMapping` — the pages of a mapping, touched or not, and whether they come from a parent
* `run_destroy` — a page that can be dropped is dropped
* `run_unmapPages` — the loop removes the pages of the mapping
* `munmap_removes_iff` — **a mapping is removed if it is not inherited**
-/

namespace Pintos

open Function LittleEndian

/-! ## Mappings -/

/-- The addresses of the pages in the table are different. -/
def Vm.Distinct (s : Vm) (t : Tid) : Prop :=
  ∀ q ∈ s.spt t, ∀ q' ∈ s.spt t, ∀ va, s.At q va → s.At q' va → q = q'

/-- A page can be dropped: its frame is its own, and what is dirty can be written to its file. -/
structure Droppable (s : Vm) (t : Tid) (q : PagePtr) (page : Page) : Prop where
  user : page.operations = .file → Aligned page.va ∧ isUserVaddr page.va = true
  frame : ∀ f, page.frame = some f → ∃ frame, s.frames f = some frame ∧ frame.page = some q
  dirty : page.operations = .file → ∀ info pte, page.aux = some info → s.pte t page.va = some pte →
    pte.dirty = true → page.frame ≠ none ∧ ∃ f file inode, info.file = some f ∧ FileThere s f file inode

/-- A page of a mapping, with `n` bytes of the file from there on. -/
structure MappedPage (s : Vm) (t : Tid) (va : Vaddr) (n : Nat) (page : Page) (info : FileInfo) : Prop where
  type : page.getType = .file
  va : page.va = va
  aux : page.aux = some info
  readBytes : info.readBytes = n

/-- A mapping of `n` bytes. `duplicate_aux` does not copy `read_bytes`. -/
structure FileMapping (s : Vm) (t : Tid) (addr : Vaddr) (n : Nat) (inherited : Bool) : Prop where
  pos : 0 < n
  le : n ≤ 2 ^ 64
  aligned : Aligned addr
  user : addr ≠ 0 ∧ isUserVaddr addr = true
  pages : ∀ j, PGSIZE * j < n → ∃ q ∈ s.spt t, ∃ page info, s.pages q = some page ∧ Droppable s t q page ∧
    MappedPage s t (nthPage addr j) (if inherited then 0 else n - PGSIZE * j) page info

/-- The pages of the mapping are removed, and the others are as they were. -/
structure Unmapped (t : Tid) (addr : Vaddr) (n : Nat) (s s' : Vm) : Prop where
  found : ∀ va q, s'.findPage va (s'.spt t) = some q ↔
    s.findPage va (s.spt t) = some q ∧ ∀ j, PGSIZE * j < n → va ≠ nthPage addr j
  kept : ∀ va q, s'.findPage va (s'.spt t) = some q → s'.pages q = s.pages q

/-- `munmap` removes the mapping. -/
def MunmapRemoves (s : Vm) (t : Tid) (addr : Vaddr) (n : Nat) : Prop :=
  ∃ s', (munmap t addr).run s = .ok ((), s') ∧ Unmapped t addr n s s'

/-! ## Pages that are found -/

section

variable {s s' s₁ : Vm} {t : Tid} {q q' : PagePtr} {page : Page} {addr va : Vaddr} {n : Nat}

theorem Vm.exists_findPage {l : List PagePtr} (hq : q ∈ l) (h : s.At q va) : ∃ q', s.findPage va l = some q' := by
  induction l with
  | nil => cases hq
  | cons q' rest ih =>
    unfold findPage
    cases hp : s.pages q' with
    | none =>
      rcases List.mem_cons.mp hq with rfl | hq
      · obtain ⟨page, hpage, -⟩ := h
        rw [hp] at hpage
        cases hpage
      · exact ih hq
    | some page' =>
      dsimp only
      by_cases hva : page'.va = va
      · exact ⟨q', if_pos hva⟩
      · rw [if_neg hva]
        rcases List.mem_cons.mp hq with rfl | hq
        · obtain ⟨page, hpage, rfl⟩ := h
          rw [hp] at hpage
          cases hpage
          exact absurd rfl hva
        · exact ih hq

/-- A page is found if it is in the table and has the address. -/
theorem Vm.Distinct.findPage_iff (h : s.Distinct t) : s.findPage va (s.spt t) = some q ↔ q ∈ s.spt t ∧ s.At q va := by
  constructor
  · exact fun hq => ⟨Vm.mem_of_findPage hq, Vm.at_of_findPage hq⟩
  · rintro ⟨hq, hat⟩
    obtain ⟨q', hq'⟩ := Vm.exists_findPage hq hat
    rw [hq', h q hq q' (Vm.mem_of_findPage hq') va hat (Vm.at_of_findPage hq')]

end

/-! ## Pages that are dropped -/

/-- What dropping a page of a mapping changes. -/
structure Dropped (t : Tid) (page : Page) (s s' : Vm) : Prop where
  pages : s'.pages = s.pages
  spt : s'.spt = s.spt
  files : s'.fs.files = s.fs.files
  inodes : s'.fs.inodes = s.fs.inodes
  capacity : s'.fs.capacity = s.fs.capacity
  frames : ∀ f, page.frame ≠ some f → s'.frames f = s.frames f
  dirty : ∀ va, (s'.pte t va).map Pte.dirty = (s.pte t va).map Pte.dirty

section

variable {s s' s₁ : Vm} {t : Tid} {q q' : PagePtr} {page page' : Page} {addr va : Vaddr} {n : Nat} {f : FilePtr}
  {file : File} {inode : Inode} {info : FileInfo}

/-- The bytes of the disk of the file system change. -/
def Vm.withDisk (s : Vm) (disk : Nat → Sector) : Vm := { s with fs := { s.fs with disk := disk } }

theorem run_fileWriteAt (h : FileThere s f file inode) {bytes : List Byte} {size : Nat} (ofs : Nat)
    (hlen : size ≤ bytes.length) :
    ∃ n disk, (liftFs (fileWriteAt f (fun _ => bytes) size ofs)).run s = .ok (n, s.withDisk disk) := by
  have hderef := run_derefFile h.files
  by_cases hdeny : inode.denyWriteCnt = 0
  · obtain ⟨disk, hrun, -⟩ := inodeWriteAt_spec (fun _ => bytes) size ofs h.inodes h.onDisk (fun _ => rfl) hdeny hlen
    refine ⟨transferred inode.data size ofs, disk, run_liftFs ?_⟩
    rw [fileWriteAt, Prog.run_bind_ok hderef, hrun]
  · refine ⟨0, s.fs.disk, run_liftFs ?_⟩
    rw [fileWriteAt, Prog.run_bind_ok hderef, inodeWriteAt, Prog.run_bind_ok (run_derefInode h.inodes), if_pos hdeny]
    rfl

theorem run_writeDirty (hd : Droppable s t q page) (hop : page.operations = .file) :
    ∃ disk, (writeDirty t page page.va).run s = .ok ((), s.withDisk disk) := by
  cases haux : page.aux with
  | none => exact ⟨s.fs.disk, by rw [writeDirty, haux]; rfl⟩
  | some info =>
    rw [writeDirty, haux]
    dsimp only
    cases hpte : s.pte t page.va with
    | none =>
      have hrun : (pml4IsDirty t page.va).run s = .ok (false, s) := Prog.run_read (by rw [hpte])
      rw [Prog.run_bind_ok hrun]
      exact ⟨s.fs.disk, rfl⟩
    | some pte =>
      have hrun : (pml4IsDirty t page.va).run s = .ok (pte.dirty, s) := Prog.run_read (by rw [hpte])
      rw [Prog.run_bind_ok hrun]
      cases hdirty : pte.dirty with
      | false => exact ⟨s.fs.disk, rfl⟩
      | true =>
        obtain ⟨hf, f, file, inode, hfile, hthere⟩ := hd.dirty hop info pte haux hpte hdirty
        obtain ⟨fr, hfr⟩ := Option.ne_none_iff_exists'.mp hf
        obtain ⟨frame, hframe, -⟩ := hd.frame fr hfr
        have hderef : (derefFrame page.frame).run s = .ok (frame, s) := by
          rw [hfr]
          exact Prog.run_read (by rw [hframe])
        have hlen : info.pageReadBytes ≤ (s.bytes frame.kva info.pageReadBytes).length := by
          simp [Vm.bytes, sectorBytes]
        obtain ⟨n, disk, hwrite⟩ := run_fileWriteAt hthere info.ofs.toNat hlen
        have hread : (Prog.read fun s => .ok (s.bytes frame.kva info.pageReadBytes) : VmProg (List Byte)).run s =
            .ok (s.bytes frame.kva info.pageReadBytes, s) := Prog.run_read rfl
        refine ⟨disk, ?_⟩
        rw [if_pos rfl, Prog.run_bind_ok hderef, writeBack, hfile]
        dsimp only
        rw [Prog.run_bind_ok hread, Prog.run_bind_ok hwrite]
        rfl

theorem Vm.clearPte_dirty (s : Vm) (t : Tid) (va va' : Vaddr) :
    ((s.clearPte t va).pte t va').map Pte.dirty = (s.pte t va').map Pte.dirty := by
  unfold clearPte
  split
  · rfl
  · next pte hpte =>
    split
    · rw [Vm.pte_setPte]
      split
      · next hva =>
        rw [hva, hpte]
        rfl
      · rfl
    · rfl

/-- A page of a mapping is dropped. -/
theorem run_destroy (hq : s.pages q = some page) (htype : page.getType = .file) (hd : Droppable s t q page) :
    ∃ s', (destroy t q).run s = .ok ((), s') ∧ Dropped t page s s' := by
  have hderef : (derefPage q).run s = .ok (page, s) := Prog.run_read (by rw [hq])
  rw [destroy, Prog.run_bind_ok hderef]
  cases hop : page.operations with
  | uninit => exact ⟨s, rfl, rfl, rfl, rfl, rfl, rfl, fun _ _ => rfl, fun _ => rfl⟩
  | anon =>
    rw [Page.getType, hop] at htype
    cases htype
  | file =>
    dsimp only
    obtain ⟨disk, hwrite⟩ := run_writeDirty hd hop
    obtain ⟨hal, hu⟩ := hd.user hop
    have hclear : (pml4ClearPage t (pgRoundDown page.va)).run (s.withDisk disk) =
        .ok ((), (s.withDisk disk).clearPte t page.va) := by
      rw [pgRoundDown_of_aligned hal, pml4ClearPage, if_neg (by rw [hu]; simpa using hal)]
      exact Prog.run_write rfl
    set s₁ := (s.withDisk disk).clearPte t page.va with hs₁
    have hsame : Dropped t page s s₁ := by
      rw [hs₁, Vm.clearPte_eq]
      refine ⟨rfl, rfl, rfl, rfl, rfl, fun _ _ => rfl, fun va => ?_⟩
      have hdirty := Vm.clearPte_dirty (s.withDisk disk) t page.va va
      rw [Vm.clearPte_eq] at hdirty
      exact hdirty
    rw [fileBackedDestroy, Prog.run_bind_ok hderef, Prog.run_bind_ok hwrite, Prog.run_bind_ok hclear]
    cases hf : page.frame with
    | none => exact ⟨s₁, rfl, hsame⟩
    | some f =>
      obtain ⟨frame, hframe, -⟩ := hd.frame f hf
      have hframe₁ : s₁.frames f = some frame := by
        rw [hs₁, Vm.clearPte_eq]
        exact hframe
      have hderef₁ : (derefFrame (some f)).run s₁ = .ok (frame, s₁) := Prog.run_read (by rw [hframe₁])
      dsimp only
      rw [Prog.run_bind_ok hderef₁]
      refine ⟨_, rfl, hsame.pages, hsame.spt, hsame.files, hsame.inodes, hsame.capacity, fun f' hf' => ?_, hsame.dirty⟩
      have hne : f' ≠ f := fun heq => hf' (by rw [hf, heq])
      have hold : update s₁.frames f none f' = s₁.frames f' := update_of_ne hne _ _
      exact hold.trans (hsame.frames f' hf')

/-! ## The loop -/

/-- After the page is taken out of the table, dropped and freed. -/
structure Removed (t : Tid) (q : PagePtr) (page : Page) (s s' : Vm) : Prop where
  pages : s'.pages = update s.pages q none
  spt : s'.spt t = (s.spt t).erase q
  files : s'.fs.files = s.fs.files
  inodes : s'.fs.inodes = s.fs.inodes
  capacity : s'.fs.capacity = s.fs.capacity
  frames : ∀ f, page.frame ≠ some f → s'.frames f = s.frames f
  dirty : ∀ va, (s'.pte t va).map Pte.dirty = (s.pte t va).map Pte.dirty

/-- A round of the loop. -/
theorem run_removePage (hq : s.pages q = some page) (htype : page.getType = .file) (hd : Droppable s t q page) :
    ∃ s', (vmDeallocPage t q).run (s.setSpt t ((s.spt t).erase q)) = .ok ((), s') ∧ Removed t q page s s' := by
  have hd' : Droppable (s.setSpt t ((s.spt t).erase q)) t q page := ⟨hd.user, hd.frame, fun hop info pte ha hp hdirty =>
    (hd.dirty hop info pte ha hp hdirty).imp_right fun ⟨f, file, inode, hf, h⟩ =>
      ⟨f, file, inode, hf, h.files, h.inodes, h.onDisk⟩⟩
  have hq' : (s.setSpt t ((s.spt t).erase q)).pages q = some page := hq
  obtain ⟨s₁, hrun, hdrop⟩ := run_destroy hq' htype hd'
  refine ⟨s₁.setPage q none, ?_, ?_, ?_, hdrop.files, hdrop.inodes, hdrop.capacity, hdrop.frames, hdrop.dirty⟩
  · rw [vmDeallocPage, Prog.run_bind_ok hrun]
    exact Prog.run_write rfl
  · show update s₁.pages q none = _
    rw [hdrop.pages]
    rfl
  · show s₁.spt t = _
    rw [hdrop.spt]
    exact update_self _ _ _

theorem Removed.at_iff (h : Removed t q page s s') : s'.At q' va ↔ q' ≠ q ∧ s.At q' va := by
  unfold Vm.At
  rw [h.pages]
  by_cases hne : q' = q
  · subst hne
    simp
  · rw [update_of_ne hne]
    simp [hne]

/-- The other pages stay in the table. -/
theorem Removed.mem_iff (h : Removed t q page s s') (hne : q' ≠ q) : q' ∈ s'.spt t ↔ q' ∈ s.spt t := by
  rw [h.spt, List.mem_erase_of_ne hne]

theorem Removed.distinct (h : Removed t q page s s') (hd : s.Distinct t) : s'.Distinct t := by
  intro q₁ h₁ q₂ h₂ va hat₁ hat₂
  obtain ⟨hne₁, hat₁⟩ := h.at_iff.mp hat₁
  obtain ⟨hne₂, hat₂⟩ := h.at_iff.mp hat₂
  exact hd q₁ ((h.mem_iff hne₁).mp h₁) q₂ ((h.mem_iff hne₂).mp h₂) va hat₁ hat₂

/-- The page of the address is not found any more. -/
theorem Removed.find_iff (h : Removed t q page s s') (hd : s.Distinct t) (hmem : q ∈ s.spt t) (hat : s.At q addr) :
    s'.findPage va (s'.spt t) = some q' ↔ s.findPage va (s.spt t) = some q' ∧ va ≠ addr := by
  rw [(h.distinct hd).findPage_iff, hd.findPage_iff, h.at_iff]
  constructor
  · rintro ⟨hq', hne, hat'⟩
    refine ⟨⟨(h.mem_iff hne).mp hq', hat'⟩, ?_⟩
    rintro rfl
    exact hne (hd q' ((h.mem_iff hne).mp hq') q hmem va hat' hat)
  · rintro ⟨⟨hq', hat'⟩, hva⟩
    have hne : q' ≠ q := by
      rintro rfl
      exact hva (hat'.unique hat)
    exact ⟨(h.mem_iff hne).mpr hq', hne, hat'⟩

/-- Other pages can be dropped as before. -/
theorem Removed.droppable (h : Removed t q page s s') (hq : Droppable s t q page) (hne : q' ≠ q)
    (hd : Droppable s t q' page') : Droppable s' t q' page' := by
  refine ⟨hd.user, fun f hf' => ?_, fun hop info pte haux hpte hdirty => ?_⟩
  · obtain ⟨frame, hframe, hpage⟩ := hd.frame f hf'
    refine ⟨frame, ?_, hpage⟩
    rw [h.frames f, hframe]
    intro hc
    obtain ⟨frame', hframe', hpage'⟩ := hq.frame f hc
    rw [hframe] at hframe'
    cases hframe'
    rw [hpage] at hpage'
    exact hne (Option.some.inj hpage')
  · have hmap := h.dirty page'.va
    rw [hpte, Option.map_some, eq_comm, Option.map_eq_some_iff] at hmap
    obtain ⟨old, hold, heq⟩ := hmap
    obtain ⟨hfr, f, file, inode, hfile, hthere⟩ := hd.dirty hop info old haux hold (heq.trans hdirty)
    refine ⟨hfr, f, file, inode, hfile, ?_, ?_, hthere.onDisk.congr h.capacity⟩
    · rw [h.files]
      exact hthere.files
    · rw [h.inodes]
      exact hthere.inodes

/-- A page is removed, and then those that follow it. -/
theorem Removed.unmapped (h : Removed t q page s s₁) (hd : s.Distinct t) (hmem : q ∈ s.spt t) (hat : s.At q addr)
    (hn : n ≠ 0) (hrest : Unmapped t (nthPage addr 1) (n - PGSIZE) s₁ s') : Unmapped t addr n s s' := by
  have hall : ∀ va, (va ≠ addr ∧ ∀ j, PGSIZE * j < n - PGSIZE → va ≠ nthPage (nthPage addr 1) j) ↔
      ∀ j, PGSIZE * j < n → va ≠ nthPage addr j := by
    intro va
    constructor
    · rintro ⟨hva, hj⟩ (_ | j) hlt
      · rwa [nthPage_zero]
      · have hj := hj j (by unfold PGSIZE at *; omega)
        rwa [nthPage_add, Nat.add_comm] at hj
    · intro hj
      refine ⟨by simpa using hj 0 (by omega), fun j hlt => ?_⟩
      rw [nthPage_add]
      exact hj _ (by unfold PGSIZE at *; omega)
  refine ⟨fun va q' => ?_, fun va q' hq' => ?_⟩
  · rw [hrest.found, h.find_iff hd hmem hat, and_assoc, hall]
  · have hfound := ((hrest.found va q').mp hq').1
    have hne := (h.at_iff.mp (Vm.at_of_findPage hfound)).1
    rw [hrest.kept va q' hq', h.pages, update_of_ne hne]

/-- The loop removes the pages, one after the other. -/
theorem run_unmapPages {fuel : Nat} (hd : s.Distinct t) (hal : Aligned addr) (hle : n ≤ fuel) (hlt : n ≤ 2 ^ 64)
    (h : ∀ j, PGSIZE * j < n → ∃ q ∈ s.spt t, ∃ page, s.pages q = some page ∧ page.getType = .file ∧
      page.va = nthPage addr j ∧ Droppable s t q page) :
    ∃ s', (unmapPages t fuel (s.findPage addr (s.spt t)) addr n).run s = .ok ((), s') ∧ Unmapped t addr n s s' := by
  induction fuel generalizing s addr n with
  | zero =>
    obtain rfl : n = 0 := by omega
    exact ⟨s, rfl, fun va q => by simp, fun _ _ _ => rfl⟩
  | succ fuel ih =>
    by_cases hn : n = 0
    · subst hn
      refine ⟨s, ?_, fun va q => by simp, fun _ _ _ => rfl⟩
      cases s.findPage addr (s.spt t) <;> rfl
    obtain ⟨q, hmem, page, hpage, htype, hva, hdrop⟩ := h 0 (by omega)
    rw [nthPage_zero] at hva
    have hat : s.At q addr := ⟨page, hpage, hva⟩
    have hfind : s.findPage addr (s.spt t) = some q := hd.findPage_iff.mpr ⟨hmem, hat⟩
    obtain ⟨s₁, hrun, hrem⟩ := run_removePage hpage htype hdrop
    have hal₁ := aligned_nthPage hal 1
    have hnext : ∀ j, PGSIZE * j < n - PGSIZE → ∃ q ∈ s₁.spt t, ∃ page, s₁.pages q = some page ∧
        page.getType = .file ∧ page.va = nthPage (nthPage addr 1) j ∧ Droppable s₁ t q page := by
      intro j hj
      have hj' : PGSIZE * (1 + j) < n := by
        unfold PGSIZE at *
        omega
      obtain ⟨q', hmem', page', hpage', htype', hva', hdrop'⟩ := h (1 + j) hj'
      have hne : q' ≠ q := by
        rintro rfl
        rw [hpage] at hpage'
        cases hpage'
        rw [hva, ← nthPage_zero addr, nthPage_add] at hva'
        have hj0 := nthPage_inj (by omega) (by unfold PGSIZE at hj'; omega) hva'
        omega
      refine ⟨q', (hrem.mem_iff hne).mpr hmem', page', ?_, htype', by rw [hva', nthPage_add], ?_⟩
      · rw [hrem.pages, update_of_ne hne, hpage']
      · exact hrem.droppable hdrop hne hdrop'
    obtain ⟨s', hrun', hun⟩ := ih (hrem.distinct hd) hal₁ (by unfold PGSIZE; omega) (by omega) hnext
    refine ⟨s', ?_, hrem.unmapped hd hmem hat hn hun⟩
    have hwrite : (Prog.write fun s => .ok (s.setSpt t ((s.spt t).erase q)) : VmProg Unit).run s =
        .ok ((), s.setSpt t ((s.spt t).erase q)) := Prog.run_write rfl
    have hspt : (sptFindPage t (addr + BitVec.ofNat 64 PGSIZE)).run s₁ =
        .ok (s₁.findPage (nthPage addr 1) (s₁.spt t), s₁) := by
      have hround := run_sptFindPage s₁ t (nthPage addr 1)
      rwa [pgRoundDown_of_aligned hal₁] at hround
    rw [hfind, unmapPages]
    dsimp only
    rw [if_neg hn, Prog.run_bind_ok hwrite, Prog.run_bind_ok hrun, Prog.run_bind_ok hspt]
    exact hrun'

/-! ## `munmap` -/

/-- What `munmap` does at a page of a mapping. -/
theorem run_munmap {info : FileInfo} (hal : Aligned addr) (hu : addr ≠ 0 ∧ isUserVaddr addr = true)
    (hfind : s.findPage addr (s.spt t) = some q) (hq : s.pages q = some page) (htype : page.getType = .file)
    (haux : page.aux = some info) :
    (munmap t addr).run s = (unmapPages t info.readBytes (some q) addr info.readBytes).run s := by
  have hspt : (sptFindPage t addr).run s = .ok (some q, s) := by
    have hround := run_sptFindPage s t addr
    rwa [pgRoundDown_of_aligned hal, hfind] at hround
  have hcheck : (checkAddress t addr).run s = .ok ((), s) := by
    rw [checkAddress, if_neg (by rw [hu.2]; simpa using hu.1), Prog.run_bind_ok hspt]
    rfl
  have hderef : (derefPage q).run s = .ok (page, s) := Prog.run_read (by rw [hq])
  rw [munmap, Prog.run_bind_ok hcheck, doMunmap, Prog.run_bind_ok hspt]
  dsimp only
  rw [Prog.run_bind_ok hderef, if_neg (by simpa using htype), haux]

/-- The first page of a mapping. -/
theorem FileMapping.run_munmap {inherited : Bool} (hd : s.Distinct t) (h : FileMapping s t addr n inherited) :
    (munmap t addr).run s = (unmapPages t (if inherited then 0 else n) (s.findPage addr (s.spt t)) addr
      (if inherited then 0 else n)).run s ∧ s.findPage addr (s.spt t) ≠ none := by
  obtain ⟨q, hmem, page, info, hpage, -, hmapped⟩ := h.pages 0 (by rw [Nat.mul_zero]; exact h.pos)
  rw [nthPage_zero, Nat.mul_zero, Nat.sub_zero] at hmapped
  have hfind : s.findPage addr (s.spt t) = some q := hd.findPage_iff.mpr ⟨hmem, page, hpage, hmapped.va⟩
  have hrun := Pintos.run_munmap h.aligned h.user hfind hpage hmapped.type hmapped.aux
  rw [hmapped.readBytes] at hrun
  rw [hfind]
  exact ⟨hrun, nofun⟩

theorem FileMapping.removed (hd : s.Distinct t) (h : FileMapping s t addr n false) : MunmapRemoves s t addr n := by
  unfold MunmapRemoves
  rw [(h.run_munmap hd).1]
  refine run_unmapPages hd h.aligned le_rfl h.le fun j hj => ?_
  obtain ⟨q, hmem, page, info, hpage, hdrop, hmapped⟩ := h.pages j hj
  exact ⟨q, hmem, page, hpage, hmapped.type, hmapped.va, hdrop⟩

theorem FileMapping.kept (hd : s.Distinct t) (h : FileMapping s t addr n true) : ¬ MunmapRemoves s t addr n := by
  obtain ⟨hrun, hne⟩ := h.run_munmap hd
  obtain ⟨q, hfind⟩ := Option.ne_none_iff_exists'.mp hne
  unfold MunmapRemoves
  rw [hrun, if_pos rfl]
  rintro ⟨s', hs', hun⟩
  cases hs'
  exact ((hun.found addr q).mp hfind).2 0 (by rw [Nat.mul_zero]; exact h.pos) (nthPage_zero addr).symm

end

/-! ## Where mappings come from -/

section

variable {s s' s₁ : Vm} {t parent : Tid} {q : PagePtr} {addr upage : Vaddr} {n fuel : Nat} {file : Option FilePtr}
  {writable : Bool} {ofs : Int}

theorem Vm.Distinct.addPage {page : Page} (hnew : s.NewPages t) (hd : s.Distinct t) (hp : ¬ s.Paged t page.va) :
    (s.addPage t page).Distinct t := by
  have hat : ∀ q ∈ s.spt t, ∀ va, (s.addPage t page).At q va ↔ s.At q va := by
    intro q hq va
    have hpages : (s.addPage t page).pages q = s.pages q := update_of_ne (hnew q hq).ne _ s.pages
    unfold Vm.At
    rw [hpages]
  have hbrk : ∀ va, (s.addPage t page).At s.brk va → va = page.va := by
    rintro va ⟨page', hpage', rfl⟩
    have hpages : (s.addPage t page).pages s.brk = some page := update_self s.brk _ s.pages
    rw [hpages] at hpage'
    rw [Option.some.inj hpage']
  have hold : ∀ q ∈ s.spt t, ¬ s.At q page.va := by
    intro q hq hq'
    obtain ⟨q', hq'⟩ := Vm.exists_findPage hq hq'
    rw [Vm.Paged, hq'] at hp
    exact hp nofun
  intro q hq q' hq' va h h'
  rw [Vm.addPage_spt, List.mem_cons] at hq hq'
  rcases hq with rfl | hq <;> rcases hq' with rfl | hq'
  · rfl
  · rw [hbrk va h] at h'
    exact absurd ((hat q' hq' _).mp h') (hold q' hq')
  · rw [hbrk va h'] at h
    exact absurd ((hat q hq _).mp h) (hold q hq)
  · exact hd q hq q' hq' va ((hat q hq va).mp h) ((hat q' hq' va).mp h')

/-- The pages that the loop of `mmap_load_segment` adds, if it adds them all. -/
theorem mapPages_adds (hal : Aligned upage) (hnew : s.NewPages t) (hd : s.Distinct t) (hle : n ≤ fuel)
    (hrun : (mapPages t file writable fuel ofs upage n).run s = .ok (true, s')) :
    s'.Distinct t ∧ (∀ q ∈ s.spt t, q ∈ s'.spt t) ∧ (∀ q < s.brk, s'.pages q = s.pages q) ∧
      ∀ j, PGSIZE * j < n → ∃ q ∈ s'.spt t, ∃ o, (wrap32 ofs = ofs → o = wrap32 (ofs + (PGSIZE * j : Nat))) ∧
        s'.pages q = some (uninitNew (nthPage upage j) true .file (some (mapInfo file o (n - PGSIZE * j))) writable) := by
  induction fuel generalizing s ofs upage n with
  | zero =>
    obtain rfl : n = 0 := by omega
    cases hrun
    exact ⟨hd, fun _ h => h, fun _ _ => rfl, fun j hj => absurd hj (Nat.not_lt_zero _)⟩
  | succ fuel ih =>
    by_cases hn : n = 0
    · subst hn
      cases hrun
      exact ⟨hd, fun _ h => h, fun _ _ => rfl, fun j hj => absurd hj (Nat.not_lt_zero _)⟩
    by_cases h : s.allocs 0 = true ∧ s.allocs 1 = true ∧ ¬ s.Paged t upage
    · obtain ⟨h0, h1, hp⟩ := h
      rw [run_mapPages_goes hal hn h0 h1 hp] at hrun
      have hnew₁ : (s.addMapped t file writable ofs upage n).NewPages t := hnew.asked.asked.addPage
      have hd₁ : (s.addMapped t file writable ofs upage n).Distinct t :=
        Vm.Distinct.addPage hnew.asked.asked hd (by rwa [Vm.paged_asked, Vm.paged_asked])
      have hpos : PGSIZE * 1 = PGSIZE := Nat.mul_one _
      obtain ⟨hd', hsub, hpages, hall⟩ := ih (aligned_nthPage hal 1) hnew₁ hd₁ (by unfold PGSIZE; omega) hrun
      have hspt : (s.addMapped t file writable ofs upage n).spt t = s.brk :: s.spt t := Vm.addPage_spt
      have hfirst : (s.addMapped t file writable ofs upage n).pages s.brk =
          some (uninitNew upage true .file (some (mapInfo file ofs n)) writable) := update_self s.brk _ s.pages
      refine ⟨hd', fun q hq => hsub q ?_, fun q hq => (hpages q (hq.trans (Nat.lt_succ_self _))).trans ?_, fun j hj => ?_⟩
      · rw [hspt]
        exact List.mem_cons_of_mem _ hq
      · exact update_of_ne hq.ne _ s.pages
      · cases j with
        | zero =>
          refine ⟨s.brk, hsub _ (by rw [hspt]; exact List.mem_cons_self), ofs, fun hofs => ?_, ?_⟩
          · rw [Nat.mul_zero, Nat.cast_zero, add_zero, hofs]
          rw [hpages s.brk (Nat.lt_succ_self _), hfirst, nthPage_zero, Nat.mul_zero, Nat.sub_zero]
        | succ j =>
          obtain ⟨q, hq, o, ho, hpage⟩ := hall j (by unfold PGSIZE at *; omega)
          refine ⟨q, hq, o, fun _ => ?_, ?_⟩
          · have hfull : min n PGSIZE = PGSIZE := by
              unfold PGSIZE at *
              omega
            rw [ho (wrap32_wrap32 _), wrap32_add, hfull, Nat.mul_succ, Nat.add_comm (PGSIZE * j), Nat.cast_add, add_assoc]
          have hleft : n - min n PGSIZE - PGSIZE * j = n - PGSIZE * (j + 1) := by
            unfold PGSIZE at *
            omega
          rw [hpage, nthPage_add, Nat.add_comm, hleft]
    · obtain ⟨s₁, hrun₁, -⟩ := run_mapPages_stops hal hn h
      rw [hrun₁] at hrun
      cases hrun

/-- `mmap` makes a mapping. -/
theorem mmap_mapping {length : BitVec 64} {fd offset : Int} {f : FilePtr} {r : Vaddr} (hnew : s.NewPages t)
    (hd : s.Distinct t) (hopen : ∀ p inode, s.fs.inodes p = some inode → inode.openCnt ≠ 0)
    (hfd : s.fdt t fd.toNat = some f) (hpos : 0 < s.lengthOf f) (hlt : s.lengthOf f ≤ 2 ^ 64)
    (hrun : (mmap t addr length writable fd offset).run s = .ok (r, s')) (hr : r ≠ 0) :
    FileMapping s' t addr (s.lengthOf f).toNat false ∧ s'.Distinct t := by
  have hfirst : ¬ RefusedFirst s t addr length fd offset := fun h => hr (of_mmap_refused h hrun).1
  unfold RefusedFirst at hfirst
  push Not at hfirst
  obtain ⟨hargs, hp, -⟩ := hfirst
  have hargs : mmapRefuses addr length fd offset = false := by simpa using hargs
  obtain ⟨hne, hal⟩ := of_not_refused hargs
  have hu : isUserVaddr addr = true := by
    unfold mmapRefuses at hargs
    simp only [decide_eq_false_iff_not, not_or] at hargs
    simpa [isUserVaddr] using hargs.2.1
  obtain ⟨file, inode, hf, hi⟩ := Vm.of_lengthOf hpos.ne'
  rw [run_mmap_loads writable hargs hal hp hfd hf hi hpos.ne'] at hrun
  obtain ⟨b, s₂, hload, hrest⟩ := Prog.of_run_bind hrun
  cases b with
  | false =>
    cases hrest
    exact absurd rfl hr
  | true =>
    cases hrest
    obtain ⟨o, fs, hreopen⟩ : ∃ o fs, (fileReopen f (s.allocs 0)).run s.fs = .ok (o, fs) := by
      cases h0 : s.allocs 0 with
      | true =>
        obtain ⟨fs, hrun, -⟩ := run_fileReopen hf hi
        exact ⟨_, fs, hrun⟩
      | false => exact ⟨none, s.fs, run_fileReopen_refused hf hi (hopen _ _ hi)⟩
    rw [run_mmapLoadSegment hf hi hreopen] at hload
    have hd' : Vm.Distinct { s.asked with fs := fs } t := hd
    obtain ⟨hdist, -, -, hall⟩ := mapPages_adds hal (show Vm.NewPages { s.asked with fs := fs } t from hnew) hd' le_rfl hload
    refine ⟨⟨by omega, by omega, hal, ⟨hne, hu⟩, fun j hj => ?_⟩, hdist⟩
    obtain ⟨q, hq, ofs, -, hpage⟩ := hall j hj
    exact ⟨q, hq, _, _, hpage, ⟨nofun, nofun, nofun⟩, rfl, rfl, rfl, rfl⟩

/-- The pages of a process have lost `read_bytes`. -/
def ForkedPages (s : Vm) (t : Tid) : Prop :=
  s.NewPages t ∧ ∀ q ∈ s.spt t, ∀ page info, s.pages q = some page → page.aux = some info → info.readBytes = 0

theorem ForkedPages.accessing {N : Vaddr → Prop} (h : ForkedPages s t) (ha : Accessing N s s') : ForkedPages s' t := by
  obtain ⟨hnew, hzero⟩ := h
  refine ⟨fun q hq => ?_, fun q hq page info hpage haux => ?_⟩
  · rw [ha.spt] at hq
    exact (hnew q hq).trans_le ha.brk
  · rw [ha.spt] at hq
    obtain ⟨old, hold, hstill⟩ := ha.page hpage
    have hauxs : page.still.aux = old.still.aux := by rw [hstill]
    have hauxs : page.aux = old.aux := hauxs
    exact hzero q hq old info hold (by rw [← hauxs, haux])

theorem ForkedPages.addPage {page : Page} (h : ForkedPages s t)
    (hpage : ∀ info, page.aux = some info → info.readBytes = 0) : ForkedPages (s.addPage t page) t := by
  obtain ⟨hnew, hzero⟩ := h
  refine ⟨hnew.addPage, fun q hq page' info hpage' haux => ?_⟩
  rw [Vm.addPage_spt, List.mem_cons] at hq
  rcases hq with rfl | hq
  · have hbrk : (s.addPage t page).pages s.brk = some page := update_self s.brk _ s.pages
    rw [hbrk] at hpage'
    cases hpage'
    exact hpage info haux
  · have hold : (s.addPage t page).pages q = s.pages q := update_of_ne (hnew q hq).ne _ s.pages
    rw [hold] at hpage'
    exact hzero q hq page' info hpage' haux

theorem forked_claiming {α : Type} {p : VmProg α} {E : VmFault → Prop} (hp : p.Does (Claiming Any) E) :
    p.Keeps fun s => ForkedPages s t :=
  hp.mono (fun _ _ h hs => hs.accessing h.toAccessing) fun _ _ => trivial

theorem forked_moving {α : Type} {p : VmProg α} {E : VmFault → Prop} (hp : p.Does (Moving Any) E) :
    p.Keeps fun s => ForkedPages s t := forked_claiming (claiming hp)

theorem forked_vmAllocPage {type : VmType} {init : Bool} {aux : Option FileInfo}
    (haux : ∀ info, aux = some info → info.readBytes = 0) :
    (vmAllocPage t type upage writable init aux).Keeps fun s => ForkedPages s t := by
  unfold vmAllocPage
  split
  · exact .fail trivial
  · refine (forked_moving (does_read _)).bind fun found => ?_
    split
    · exact .pure _
    · refine (forked_moving does_vmAlloc).bind fun allocated => ?_
      split
      · refine .lift (fun s added s' hs' h => ?_) (fun _ _ _ => trivial)
        split at hs'
        · cases hs'
          -- the page that is not inserted is lost
          refine ⟨fun q hq => (h.1 q hq).trans (Nat.lt_succ_self _), fun q hq page info hpage ha => ?_⟩
          have hold : update s.pages s.brk (some (uninitNew upage init type aux writable)) q = s.pages q :=
            update_of_ne (h.1 q hq).ne _ _
          exact h.2 q hq page info (hold.symm.trans hpage) ha
        · cases hs'
          exact h.addPage haux
      · exact .pure _

/-- A page that is copied loses `read_bytes`. -/
theorem forked_pageCopyAction : (pageCopyAction t q).Keeps fun s => ForkedPages s t := by
  have hcopy : ∀ (page : Page) (aux : Option FileInfo), (∀ info, aux = some info → info.readBytes = 0) →
      (copyPage t q page aux).Keeps fun s => ForkedPages s t := by
    intro page aux haux
    refine (forked_vmAllocPage haux).bind fun allocated => ?_
    split
    · refine (forked_moving (does_read _)).bind fun found => ?_
      cases found with
      | none => exact .pure _
      | some dst =>
        refine (forked_moving does_derefPage).bind fun page => ?_
        split
        · refine (forked_claiming does_vmDoClaimPage).bind fun claimed => ?_
          split
          · exact (forked_moving does_derefPage).bind fun _ => (forked_moving does_derefFrame).bind fun _ =>
              (forked_moving does_derefPage).bind fun _ => (forked_moving does_derefFrame).bind fun _ =>
              .bind (forked_moving (does_write fun _ => .same rfl rfl rfl rfl)) fun _ => .pure _
          · exact .pure _
        · exact .pure _
    · exact .pure _
  refine (forked_moving does_derefPage).bind fun page => ?_
  cases haux : page.aux with
  | none => exact hcopy page none (by rintro _ ⟨⟩)
  | some info =>
    refine (forked_moving does_vmAlloc).bind fun allocated => ?_
    cases allocated with
    | false => exact .pure _
    | true => exact hcopy page (some { info with readBytes := 0 }) fun _ h => by cases h; rfl

theorem forked_sptCopy (l : List PagePtr) : (sptCopy t l).Keeps fun s => ForkedPages s t := by
  induction l with
  | nil => exact .pure _
  | cons q rest ih =>
    unfold sptCopy
    refine forked_pageCopyAction.bind fun copied => ?_
    split
    · exact ih
    · exact .pure _

/-- The pages that a process gets from its parent have lost `read_bytes`. -/
theorem supplementalPageTableCopy_forked {b : Bool} (hspt : s.spt t = [])
    (hrun : (supplementalPageTableCopy t parent).run s = .ok (b, s')) : ForkedPages s' t := by
  have h : ForkedPages s t := by
    unfold ForkedPages Vm.NewPages
    rw [hspt]
    exact ⟨nofun, nofun⟩
  obtain ⟨l, s₁, hl, hcopy⟩ := Prog.of_run_bind hrun
  obtain ⟨-, rfl⟩ := Prog.of_run_read hl
  exact (forked_sptCopy l).run h hcopy

/-- So an inherited mapping is none of the process's own. -/
theorem ForkedPages.inherited {inherited : Bool} (h : ForkedPages s t) (hm : FileMapping s t addr n inherited) :
    inherited = true := by
  obtain ⟨q, hq, page, info, hpage, -, hmapped⟩ := hm.pages 0 (by rw [Nat.mul_zero]; exact hm.pos)
  have hzero := h.2 q hq page info hpage hmapped.aux
  cases inherited with
  | true => rfl
  | false =>
    have hn : info.readBytes = n - PGSIZE * 0 := hmapped.readBytes
    have hpos := hm.pos
    omega

end

/-- A process with a page that is mapped from a file of 100 bytes. -/
def mappedPage (readBytes : Nat) : Vm :=
  { Vm.boot (FileSys.boot (fun _ _ => 0) 0 ⟨0, []⟩ [] ⟨0, 0⟩) [false] 0 with
    spt := update (fun _ => []) 1 [0]
    pages := update (fun _ => none) 0 (some (uninitNew 0x10000000 true .file
      (some { mapInfo (some 1) 0 100 with readBytes := readBytes }) true))
    brk := 1 }

theorem mappedPage_distinct (readBytes : Nat) : (mappedPage readBytes).Distinct 1 := by
  intro q hq q' hq' va _ _
  rw [List.mem_singleton.mp hq, List.mem_singleton.mp hq']

theorem mappedPage_mapping (inherited : Bool) :
    FileMapping (mappedPage (if inherited then 0 else 100)) 1 0x10000000 100 inherited := by
  refine ⟨by decide, by decide, by decide, ⟨by decide, by decide⟩, fun j hj => ?_⟩
  obtain rfl : j = 0 := by
    unfold PGSIZE at hj
    omega
  refine ⟨0, List.mem_singleton.mpr rfl, _, _, rfl, ⟨nofun, nofun, nofun⟩, rfl, ?_, rfl, ?_⟩
  · exact (nthPage_zero _).symm
  · cases inherited <;> rfl

end Pintos
