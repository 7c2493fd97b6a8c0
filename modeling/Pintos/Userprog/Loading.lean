import Pintos.Userprog.Pages
import Pintos.Userprog.Resident

/-!
# First accesses to pages of files

A page that was added with `lazy_load_segment` gets a frame when it is claimed, and the frame gets the bytes
of the file.

* `run_vmClaimPage_linked` — a claim takes a frame, and swaps the page in
* `run_lazyLoadSegment` — the bytes of the file and then zeros, if the file has enough of them
* `LazyPage.claim` — a first access of a page shows its bytes, and leaves the other pages as they were
-/

namespace Pintos

open Function LittleEndian

/-! ## Frames -/

/-- There is memory for a claim, with the frame `kva`. -/
structure FrameFree (s : Vm) (kva : Kva) : Prop where
  scan : bitmapScan s.userPool 0 1 false = some kva
  frame : s.allocs 0 = true
  tables : s.allocs 1 = true

/-- After the page has a frame, and an entry in the tables. -/
def Vm.linked (s : Vm) (t : Tid) (q : PagePtr) (page : Page) (kva : Kva) : Vm :=
  { s with
    userPool := bitmapSetMultiple s.userPool kva 1 true
    frames := update s.frames s.brk (some { kva := kva, page := some q })
    frameList := s.frameList ++ [s.brk]
    brk := s.brk + 1
    pages := update s.pages q (some { page with frame := some s.brk })
    tables := (s.setPte t page.va { kva := kva, present := true, writable := page.writable, dirty := false }).tables
    allocs := fun n => s.allocs (n + 2) }

section

variable {s s' : Vm} {t : Tid} {va : Vaddr} {q : PagePtr} {page : Page} {kva : Kva}

theorem run_pallocGetUser (h : FrameFree s kva) :
    pallocGetUser.run s = .ok (some kva, { s with userPool := bitmapSetMultiple s.userPool kva 1 true }) := by
  rw [pallocGetUser, Prog.run_lift, bitmapScanAndFlip, h.scan]
  rfl

theorem run_updateFrame {f : FramePtr} {frame : Frame} (h : s.frames f = some frame) (g : Frame → Frame) :
    (updateFrame f g).run s = .ok ((), s.setFrame f (some (g frame))) := Prog.run_write (by rw [h])

theorem run_updatePage (h : s.pages q = some page) (g : Page → Page) :
    (updatePage q g).run s = .ok ((), s.setPage q (some (g page))) := Prog.run_write (by rw [h])

theorem run_derefPage (h : s.pages q = some page) : (derefPage q).run s = .ok (page, s) := Prog.run_read (by rw [h])

theorem run_derefFrame {f : FramePtr} {frame : Frame} (h : s.frames f = some frame) :
    (derefFrame (some f)).run s = .ok (frame, s) := Prog.run_read (by rw [h])

/-- After a free frame is taken. -/
def Vm.gotFrame (s : Vm) (kva : Kva) : Vm :=
  { s with
    userPool := bitmapSetMultiple s.userPool kva 1 true
    frames := update s.frames s.brk (some { kva := kva, page := none })
    frameList := s.frameList ++ [s.brk]
    brk := s.brk + 1
    allocs := fun n => s.allocs (n + 1) }

theorem run_vmGetFrame (h : FrameFree s kva) : (vmGetFrame t).run s = .ok (s.brk, s.gotFrame kva) := by
  set s₁ : Vm := { s with userPool := bitmapSetMultiple s.userPool kva 1 true } with hs₁
  have hnew : (newFrame kva).run s₁ =
      .ok (s.brk, { s₁.asked.setFrame s.brk (some { kva := kva, page := none }) with brk := s.brk + 1 }) := by
    have ha : s₁.allocs 0 = true := h.frame
    rw [newFrame, Prog.run_bind_ok (run_vmAlloc s₁), ha]
    rfl
  have hadd : (addFrame s.brk).run { s₁.asked.setFrame s.brk (some { kva := kva, page := none }) with brk := s.brk + 1 } =
      .ok (s.brk, s.gotFrame kva) := by
    rw [addFrame, Prog.run_bind_ok (Prog.run_write_ok _ _), Prog.run_bind_ok (run_updateFrame (update_self _ _ _) _)]
    simp only [Vm.setFrame, update_idem, Prog.run_pure]
    rfl
  rw [vmGetFrame, Prog.run_bind_ok (run_pallocGetUser h)]
  exact (Prog.run_bind_ok hnew).trans hadd

/-- A claim takes a frame, and swaps the page in. -/
theorem run_vmClaimPage_linked (hfind : s.findPage va (s.spt t) = some q) (hpage : s.pages q = some page)
    (hal : Aligned va) (hu : isUserVaddr va = true) (hva : page.va = va) (h : FrameFree s kva) :
    (vmClaimPage t va).run s = (swapIn t q).run (s.linked t q page kva) := by
  have hspt : (sptFindPage t va).run s = .ok (some q, s) := by
    have hround := run_sptFindPage s t va
    rwa [pgRoundDown_of_aligned hal, hfind] at hround
  rw [vmClaimPage, Prog.run_bind_ok hspt]
  dsimp only
  have hwalk : ∀ s₁ : Vm, s₁.allocs 0 = true → (pml4SetPage t va kva page.writable).run s₁ =
      .ok (true, s₁.asked.setPte t va { kva := kva, present := true, writable := page.writable, dirty := false }) := by
    intro s₁ h₁
    rw [pml4SetPage, if_neg (by rw [hu]; simpa using hal), Prog.run_bind_ok (run_vmAlloc s₁), h₁]
    rfl
  set s₁ := (s.gotFrame kva).setFrame s.brk (some { kva := kva, page := some q }) with hs₁
  set s₂ := s₁.setPage q (some { page with frame := some s.brk }) with hs₂
  have hframe : (s.gotFrame kva).frames s.brk = some { kva := kva, page := none } := update_self _ _ _
  have hpage₁ : s₁.pages q = some page := hpage
  have hpage₂ : s₂.pages q = some { page with frame := some s.brk } := update_self _ _ _
  have hframe₂ : s₂.frames s.brk = some { kva := kva, page := some q } := update_self _ _ _
  rw [vmDoClaimPage, Prog.run_bind_ok (run_vmGetFrame h), claimFrame, Prog.run_bind_ok (run_updateFrame hframe _),
    Prog.run_bind_ok (run_updatePage hpage₁ _), Prog.run_bind_ok (run_derefPage hpage₂),
    Prog.run_bind_ok (run_derefFrame hframe₂)]
  dsimp only
  rw [hva, Prog.run_bind_ok (hwalk s₂ h.tables), if_pos rfl]
  refine congrArg (swapIn t q).run ?_
  rw [hs₂, hs₁]
  unfold Vm.linked Vm.gotFrame
  simp only [Vm.setFrame, Vm.setPage, Vm.setPte, Vm.asked, update_idem, hva]

end

/-! ## The bytes of the file -/

/-- What the page of the file shows: bytes of the file, and then zeros. -/
def shownBytes (disk : Nat → Sector) (start : Nat) (info : FileInfo) : List Byte :=
  fileBytes disk start info.ofs.toNat info.pageReadBytes ++ List.replicate info.pageZeroBytes 0

/-- After `file_seek` and `file_read` of the file. -/
def Vm.atPos (s : Vm) (f : FilePtr) (file : File) (pos : Nat) : Vm :=
  { s with fs := s.fs.setFile f (some { file with pos := pos }) }

section

variable {s s' : Vm} {t : Tid} {va : Vaddr} {q : PagePtr} {page : Page} {fr : FramePtr} {frame : Frame} {kva : Kva}
  {info : FileInfo} {f : FilePtr} {file : File} {inode : Inode}

/-- The file has the bytes of the page. -/
def Enough (inode : Inode) (info : FileInfo) : Prop := info.ofs.toNat + info.pageReadBytes ≤ inode.data.length.toNat

theorem run_lazySeek (hfile : info.file = some f) (hf : s.fs.files f = some file) (hofs : 0 ≤ info.ofs) :
    (lazySeek info).run s = .ok (f, s.atPos f file info.ofs.toNat) := by
  rw [lazySeek, hfile]
  dsimp only
  rw [Prog.run_bind_ok (run_liftFs (run_fileSeek hf hofs))]
  rfl

/-- The bytes that are read, whether there are enough or not. -/
theorem run_lazyRead (info : FileInfo) (hthere : FileThere s f file inode) :
    (liftFs (fileRead f info.pageReadBytes)).run (s.atPos f file info.ofs.toNat) =
      .ok (fileBytes s.fs.disk inode.data.start info.ofs.toNat (transferred inode.data info.pageReadBytes info.ofs.toNat),
        s.atPos f file (info.ofs.toNat + transferred inode.data info.pageReadBytes info.ofs.toNat)) := by
  have hf : (s.atPos f file info.ofs.toNat).fs.files f = some { file with pos := info.ofs.toNat } := update_self _ _ _
  have hi : (s.atPos f file info.ofs.toNat).fs.inodes file.inode = some inode := hthere.inodes
  have hd : OnDisk (s.atPos f file info.ofs.toNat).fs inode.data := hthere.onDisk.congr rfl
  rw [run_liftFs (run_fileRead hf hi hd info.pageReadBytes)]
  simp only [Vm.atPos, FileSys.setFile, update_idem]

/-- A page that the file has enough bytes for. -/
theorem run_lazyLoadSegment (hpage : s.pages q = some page) (hframe : page.frame = some fr)
    (hfr : s.frames fr = some frame) (hfile : info.file = some f) (hofs : 0 ≤ info.ofs)
    (hthere : FileThere s f file inode) (hlen : Enough inode info) :
    (lazyLoadSegment q (some info)).run s =
      .ok (true, ((s.atPos f file (info.ofs.toNat + info.pageReadBytes)).copy frame.kva 0
        (fileBytes s.fs.disk inode.data.start info.ofs.toNat info.pageReadBytes)).copy frame.kva info.pageReadBytes
        (List.replicate info.pageZeroBytes 0)) := by
  have htrans : transferred inode.data info.pageReadBytes info.ofs.toNat = info.pageReadBytes := by
    unfold transferred Enough at *
    omega
  have hread := run_lazyRead info hthere
  rw [htrans] at hread
  rw [lazyLoadSegment, Prog.run_bind_ok (run_derefPage hpage), hframe, Prog.run_bind_ok (run_derefFrame hfr)]
  dsimp only
  rw [Prog.run_bind_ok (run_lazySeek hfile hthere.files hofs), Prog.run_bind_ok hread,
    Prog.run_bind_ok (Prog.run_write_ok _ _), if_neg (by simp), Prog.run_bind_ok (Prog.run_write_ok _ _)]
  rfl

/-- A page that the file has not enough bytes for is not loaded. -/
theorem lazyLoadSegment_short (hfile : info.file = some f) (hthere : FileThere s f file inode)
    (hshort : info.ofs < 0 ∨ (0 < info.pageReadBytes ∧ ¬ Enough inode info)) :
    (lazyLoadSegment q (some info)).run s ≠ .ok (true, s') := by
  intro hrun
  obtain ⟨page, s₁, h₁, hrun⟩ := Prog.of_run_bind hrun
  obtain ⟨-, rfl⟩ := of_derefPage h₁
  obtain ⟨frame, s₂, h₂, hrun⟩ := Prog.of_run_bind hrun
  obtain ⟨fr, -, -, rfl⟩ := of_derefFrame h₂
  dsimp only at hrun
  by_cases hofs : 0 ≤ info.ofs
  · obtain ⟨hpos, hlen⟩ := hshort.resolve_left (by omega)
    have htrans : transferred inode.data info.pageReadBytes info.ofs.toNat ≠ info.pageReadBytes := by
      unfold transferred Enough at *
      omega
    rw [Prog.run_bind_ok (run_lazySeek hfile hthere.files hofs), Prog.run_bind_ok (run_lazyRead info hthere),
      Prog.run_bind_ok (Prog.run_write_ok _ _), if_pos (by simpa using htrans)] at hrun
    obtain ⟨_, s₃, -, hrun⟩ := Prog.of_run_bind hrun
    cases hrun
  · obtain ⟨_, s₃, hseek, -⟩ := Prog.of_run_bind hrun
    rw [lazySeek, hfile] at hseek
    dsimp only at hseek
    rw [fileSeek, if_pos (by omega)] at hseek
    obtain ⟨_, s₄, hfail, -⟩ := Prog.of_run_bind hseek
    cases hfail

/-- Without a file there is nothing to load. -/
theorem lazyLoadSegment_null (hfile : info.file = none) : (lazyLoadSegment q (some info)).run s ≠ .ok (true, s') := by
  intro hrun
  obtain ⟨page, s₁, -, hrun⟩ := Prog.of_run_bind hrun
  obtain ⟨frame, s₂, -, hrun⟩ := Prog.of_run_bind hrun
  obtain ⟨_, s₃, hseek, -⟩ := Prog.of_run_bind hrun
  rw [lazySeek, hfile] at hseek
  cases hseek

end

/-! ## First accesses -/

/-- A page of the thread that was not accessed yet. -/
structure LazyPage (s : Vm) (t : Tid) (va : Vaddr) (q : PagePtr) (page : Page) (info : FileInfo) : Prop where
  found : s.findPage va (s.spt t) = some q
  there : s.pages q = some page
  addr : page.va = va
  untouched : page.operations = .uninit
  type : page.type ≠ .uninit
  init : page.init = true
  aux : page.aux = some info
  user : Aligned va ∧ isUserVaddr va = true

/-- After the first access: the page is at the frame `kva`, which has the bytes. -/
structure Shown (t : Tid) (va : Vaddr) (q : PagePtr) (page : Page) (kva : Kva) (bytes : List Byte) (s s' : Vm) : Prop where
  pte : s'.pte t va = some { kva := kva, present := true, writable := page.writable, dirty := false }
  shows : s'.bytes kva PGSIZE = bytes
  mem : ∀ k, k ≠ kva → s'.mem k = s.mem k
  ptes : ∀ va', va' ≠ va → s'.pte t va' = s.pte t va'
  spt : s'.spt = s.spt
  pages : ∀ q', q' ≠ q → s'.pages q' = s.pages q'
  same : ∃ page', s'.pages q = some page' ∧ page'.va = page.va
  pool : s'.userPool = bitmapSetMultiple s.userPool kva 1 true
  allocs : s'.allocs = fun n => s.allocs (n + 2)
  leftover : s'.leftover = s.leftover
  disk : s'.fs.disk = s.fs.disk
  capacity : s'.fs.capacity = s.fs.capacity
  inodes : s'.fs.inodes = s.fs.inodes
  files : ∀ f, (s'.fs.files f).map File.inode = (s.fs.files f).map File.inode

section

variable {s s' : Vm} {t : Tid} {va : Vaddr} {q : PagePtr} {page : Page} {kva : Kva}
  {info : FileInfo} {f : FilePtr} {file : File} {inode : Inode}

theorem length_bytes (s : Vm) (kva : Kva) (cnt : Nat) : (s.bytes kva cnt).length = cnt := by
  simp [Vm.bytes, sectorBytes]

theorem getElem_bytes (s : Vm) (kva : Kva) {cnt k : Nat} (h : k < (s.bytes kva cnt).length) :
    (s.bytes kva cnt)[k] = s.mem kva k := by
  simp [Vm.bytes, sectorBytes]

/-- Bytes that are copied one after the other. -/
theorem bytes_copy_copy (s : Vm) (kva : Kva) (xs ys : List Byte) :
    ((s.copy kva 0 xs).copy kva xs.length ys).bytes kva (xs.length + ys.length) = xs ++ ys := by
  refine List.ext_getElem (by rw [length_bytes, List.length_append]) fun k hk hk' => ?_
  have hmem : ((s.copy kva 0 xs).copy kva xs.length ys).mem kva = splice (splice (s.mem kva) 0 xs) xs.length ys := by
    simp [Vm.copy]
  rw [List.length_append] at hk'
  rw [getElem_bytes, hmem, List.getElem_append]
  unfold splice
  split
  · next h => rw [dif_neg (by omega), List.getD_eq_getElem _ _ (by omega)]
  · next h =>
    have hlt : k < xs.length := by omega
    rw [if_pos (by omega), dif_pos hlt, Nat.sub_zero, List.getD_eq_getElem _ _ hlt]

/-- A claim initializes the page and calls `lazy_load_segment`. -/
theorem LazyPage.run_claim (h : LazyPage s t va q page info) (hfree : FrameFree s kva)
    (hleft : page.type = .file → s.leftover = true) :
    ∃ s₁ page₁, (vmClaimPage t va).run s = (lazyLoadSegment q (some info)).run s₁ ∧ page₁.va = page.va ∧
      page₁.frame = some s.brk ∧ s₁ = { s.linked t q page kva with pages := update s.pages q (some page₁) } := by
  set page' : Page := { page with frame := some s.brk } with hpage'
  have hlinked : (s.linked t q page kva).pages q = some page' := update_self _ _ _
  have hinit : ∃ page₁, (pageInitializer q page.type).run (s.linked t q page kva) =
      .ok (true, (s.linked t q page kva).setPage q (some page₁)) ∧ page₁.va = page.va ∧ page₁.frame = some s.brk := by
    cases htype : page.type with
    | uninit => exact absurd htype h.type
    | anon =>
      refine ⟨{ page' with operations := .anon, swapSlot := -1 }, ?_, rfl, rfl⟩
      rw [pageInitializer, anonInitializer, Prog.run_bind_ok (run_updatePage hlinked _)]
      rfl
    | file =>
      refine ⟨{ page' with operations := .file }, ?_, rfl, rfl⟩
      rw [pageInitializer, fileBackedInitializer, Prog.run_bind_ok (run_updatePage hlinked _), Prog.run_read_ok]
      exact congrArg (fun b => Except.ok (b, _)) (hleft htype)
  obtain ⟨page₁, hrun, hva, hframe⟩ := hinit
  refine ⟨(s.linked t q page kva).setPage q (some page₁), page₁, ?_, hva, hframe, ?_⟩
  · have hun : page'.operations = .uninit := h.untouched
    have hin : page'.init = true := h.init
    have haux : page'.aux = some info := h.aux
    rw [run_vmClaimPage_linked h.found h.there h.user.1 h.user.2 h.addr hfree, swapIn,
      Prog.run_bind_ok (run_derefPage hlinked), hun]
    dsimp only
    rw [uninitInitialize, Prog.run_bind_ok (run_derefPage hlinked), Prog.run_bind_ok hrun, if_pos rfl, hin, if_pos rfl,
      haux]
  · simp only [Vm.setPage, Vm.linked, update_idem]

/-- A first access of a page shows its bytes. -/
theorem LazyPage.claim (h : LazyPage s t va q page info) (hfree : FrameFree s kva)
    (hleft : page.type = .file → s.leftover = true) (hfile : info.file = some f) (hofs : 0 ≤ info.ofs) (hthere : FileThere s f file inode) (hlen : Enough inode info)
    (hfull : info.pageReadBytes + info.pageZeroBytes = PGSIZE) :
    ∃ s', (vmClaimPage t va).run s = .ok (true, s') ∧
      Shown t va q page kva (shownBytes s.fs.disk inode.data.start info) s s' := by
  obtain ⟨s₁, page₁, hclaim, hva, hframe, hs₁⟩ := h.run_claim hfree hleft
  have hpage₁ : s₁.pages q = some page₁ := by
    rw [hs₁]
    exact update_self _ _ _
  have hfr : s₁.frames s.brk = some { kva := kva, page := some q } := by
    rw [hs₁]
    exact update_self _ _ _
  have hthere₁ : FileThere s₁ f file inode := by
    rw [hs₁]
    exact ⟨hthere.files, hthere.inodes, hthere.onDisk⟩
  rw [hclaim, run_lazyLoadSegment hpage₁ hframe hfr hfile hofs hthere₁ hlen]
  set pos := info.ofs.toNat + info.pageReadBytes with hpos
  set xs := fileBytes s₁.fs.disk inode.data.start info.ofs.toNat info.pageReadBytes with hxs
  set s' := ((s₁.atPos f file pos).copy kva 0 xs).copy kva info.pageReadBytes (List.replicate info.pageZeroBytes 0)
    with hs'
  have hdisk : s₁.fs = s.fs := by
    rw [hs₁]
    rfl
  have hpte : ∀ va', s'.pte t va' =
      (s.setPte t va { kva := kva, present := true, writable := page.writable, dirty := false }).pte t va' := by
    intro va'
    rw [hs', hs₁, ← h.addr]
    rfl
  have hmem : ∀ k, k ≠ kva → s'.mem k = s.mem k := by
    intro k hk
    have hcopy : s'.mem k = s₁.mem k := by simp [hs', Vm.copy, hk, Vm.atPos]
    rw [hcopy, hs₁]
    rfl
  have hshows : s'.bytes kva PGSIZE = shownBytes s.fs.disk inode.data.start info := by
    have hcopy := bytes_copy_copy (s₁.atPos f file pos) kva xs (List.replicate info.pageZeroBytes 0)
    rw [hxs, length_fileBytes, List.length_replicate, hfull, hdisk] at hcopy
    rw [hs', hxs, hdisk, hcopy]
    rfl
  refine ⟨s', rfl, ?_, hshows, hmem, fun va' hva' => ?_, ?_, fun q' hq' => ?_, ⟨page₁, hpage₁, hva⟩, ?_, ?_, ?_, ?_, ?_,
    ?_, fun g => ?_⟩
  · rw [hpte, Vm.pte_setPte, if_pos rfl]
  · rw [hpte, Vm.pte_setPte, if_neg hva']
  · rw [hs', hs₁]
    rfl
  · have hold : s'.pages q' = update s.pages q (some page₁) q' := by
      rw [hs', hs₁]
      rfl
    rw [hold, update_of_ne hq']
  · rw [hs', hs₁]
    rfl
  · rw [hs', hs₁]
    rfl
  · rw [hs', hs₁]
    rfl
  · rw [hs', hs₁]
    rfl
  · rw [hs', hs₁]
    rfl
  · rw [hs', hs₁]
    rfl
  · have hfiles : s'.fs.files g = update s.fs.files f (some { file with pos := pos }) g := by
      rw [hs', hs₁]
      rfl
    rw [hfiles]
    by_cases hg : g = f
    · rw [hg, update_self, hthere.files]
      rfl
    · rw [update_of_ne hg]

/-- A first access of a page that the file has not enough bytes for does not succeed. -/
theorem LazyPage.claim_short (h : LazyPage s t va q page info) (hfree : FrameFree s kva)
    (hleft : page.type = .file → s.leftover = true) (hfile : info.file = some f) (hthere : FileThere s f file inode)
    (hshort : info.ofs < 0 ∨ (0 < info.pageReadBytes ∧ ¬ Enough inode info)) :
    (vmClaimPage t va).run s ≠ .ok (true, s') := by
  obtain ⟨s₁, page₁, hclaim, -, -, hs₁⟩ := h.run_claim hfree hleft
  have hthere₁ : FileThere s₁ f file inode := by
    rw [hs₁]
    exact ⟨hthere.files, hthere.inodes, hthere.onDisk⟩
  rw [hclaim]
  exact lazyLoadSegment_short hfile hthere₁ hshort

theorem LazyPage.claim_null (h : LazyPage s t va q page info) (hfree : FrameFree s kva)
    (hleft : page.type = .file → s.leftover = true) (hfile : info.file = none) : (vmClaimPage t va).run s ≠ .ok (true, s') := by
  obtain ⟨s₁, page₁, hclaim, -, -, -⟩ := h.run_claim hfree hleft
  rw [hclaim]
  exact lazyLoadSegment_null hfile

end

end Pintos
