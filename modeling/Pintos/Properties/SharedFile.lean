import Pintos.Userprog.PageFaults
import Pintos.Vm.Changes

/-!
# Lazy loading through a shared `struct file`

The processes that come from one by `fork` have the same `struct file` in the `file_info` of their pages, and so
the same position.

* `OnlyDisk`, `does_beginFault` — what is before `lazy_load_segment` moves no position
* `Alone` — no process seeks a file while another is between its seek and its read of the file
* `lazyLoad_isolated` — **then each page that is loaded has its own bytes**
* `shared_position_moved` — two faults of parent and child, and the second page has the wrong bytes
-/

namespace Pintos

open Function LittleEndian Machine

/-! ## Positions that stay -/

/-- The file system without the bytes of the disk. -/
def FileSys.blankDisk (s : FileSys) : FileSys := { s with disk := fun _ _ => 0 }

/-- Only the bytes of the disk have changed. -/
def FileSys.OnlyDisk (s s' : FileSys) : Prop := s'.blankDisk = s.blankDisk

theorem FileSys.OnlyDisk.refl (s : FileSys) : OnlyDisk s s := rfl

/-- Of the file system only the bytes of the disk have changed. -/
def OnlyDisk (s s' : Vm) : Prop := s.fs.OnlyDisk s'.fs

theorem OnlyDisk.refl (s : Vm) : OnlyDisk s s := rfl

theorem OnlyDisk.trans (s s₁ s' : Vm) (h : OnlyDisk s s₁) (h' : OnlyDisk s₁ s') : OnlyDisk s s' := Eq.trans h' h

section

variable {α : Type} {t : Tid} {q : PagePtr} {f : FramePtr} {va : Vaddr} {kva : Kva} {page : Page} {slot : BitVec 32}

theorem disk_read (g : FileSys → Except FsFault α) :
    (Prog.read g).Does FileSys.OnlyDisk Any :=
  .read .refl fun _ _ _ => trivial

theorem disk_diskRead {sector : Nat} (g : FileSys → Sector → α) :
    (diskRead sector fun s bytes => .ok (g s bytes, s)).Does FileSys.OnlyDisk Any := by
  refine .lift (fun s a s' h => ?_) fun _ _ _ => trivial
  split at h
  · cases h
    rfl
  · cases h

theorem disk_diskWrite {sector : Nat} {bytes : FileSys → Sector} :
    (diskWrite sector bytes).Does FileSys.OnlyDisk Any := by
  refine .lift (fun s a s' h => ?_) fun _ _ _ => trivial
  split at h
  · cases h
    rfl
  · cases h

theorem disk_writeChunk {sectorIdx sectorOfs chunk : Nat} {buffer : FileSys → List Byte} :
    (writeChunk sectorIdx sectorOfs chunk buffer).Does FileSys.OnlyDisk Any := by
  unfold writeChunk
  split
  · exact disk_diskWrite
  · split
    · exact (disk_diskRead fun s bounce => splice bounce sectorOfs (buffer s)).bind fun _ => disk_diskWrite
    · exact (disk_read _).bind fun _ => disk_diskWrite

theorem disk_fileWriteAt {file : FilePtr} {buffer : FileSys → List Byte} {size offset : Nat} :
    (fileWriteAt file buffer size offset).Does FileSys.OnlyDisk Any := by
  have hloop : ∀ p fuel size offset written,
      (inodeWriteLoop p buffer fuel size offset written).Does FileSys.OnlyDisk Any := by
    intro p fuel
    induction fuel with
    | zero => exact fun _ _ _ => .pure _
    | succ fuel ih =>
      intro size offset written
      unfold inodeWriteLoop
      split
      · exact .pure _
      · refine (disk_read _).bind fun inode => ?_
        dsimp only
        split
        · exact .pure _
        · exact disk_writeChunk.bind fun _ => ih _ _ _
  refine (disk_read _).bind fun _ => (disk_read _).bind fun inode => ?_
  split
  · exact .pure _
  · exact hloop _ _ _ _ _

theorem only_read (g : Vm → Except VmFault α) : (Prog.read g).Does OnlyDisk Any :=
  .read .refl fun _ _ _ => trivial

theorem only_write {g : Vm → Except VmFault Vm} (h : ∀ s s', g s = .ok s' → s'.fs = s.fs) :
    (Prog.write g).Does OnlyDisk Any :=
  .write (fun s s' hs => congrArg FileSys.blankDisk (h s s' hs)) fun _ _ _ => trivial

theorem only_lift {g : Vm → Except VmFault (α × Vm)} (h : ∀ s a s', g s = .ok (a, s') → s'.fs = s.fs) :
    (Prog.lift g).Does OnlyDisk Any :=
  .lift (fun s a s' hs => congrArg FileSys.blankDisk (h s a s' hs)) fun _ _ _ => trivial

theorem only_set {g : Vm → Vm} (h : ∀ s, (g s).fs = s.fs) :
    (Prog.write fun s => .ok (g s) : VmProg Unit).Does OnlyDisk Any :=
  only_write fun s s' hs => by
    cases hs
    exact h s

theorem only_derefFrame {fp : Option FramePtr} : (derefFrame fp).Does OnlyDisk Any := by
  cases fp with
  | none => exact .fail trivial
  | some f => exact only_read _

theorem only_updatePage {g : Page → Page} : (updatePage q g).Does OnlyDisk Any := by
  refine only_write fun s s' h => ?_
  split at h
  · cases h
  · cases h
    rfl

theorem only_updateFrame {g : Frame → Frame} : (updateFrame f g).Does OnlyDisk Any := by
  refine only_write fun s s' h => ?_
  split at h
  · cases h
  · cases h
    rfl

theorem only_vmAlloc : vmAlloc.Does OnlyDisk Any := by
  refine only_lift fun s a s' h => ?_
  cases h
  rfl

theorem only_pml4ClearPage : (pml4ClearPage t va).Does OnlyDisk Any := by
  unfold pml4ClearPage
  split
  · exact .fail trivial
  · exact only_set fun s => by rw [Vm.clearPte_eq]

theorem only_acquireSwap : (acquireSwap t).Does OnlyDisk Any := by
  refine only_write fun s s' h => ?_
  split at h
  · cases h
  · cases h
    rfl

theorem only_readSwap {k : Nat} : ∀ i, (readSwap slot kva i k).Does OnlyDisk Any := by
  induction k with
  | zero => exact fun _ => .pure _
  | succ k ih =>
    refine fun i => .bind (only_write fun s s' h => ?_) fun _ => ih (i + 1)
    split at h
    · cases h
      rfl
    · cases h

theorem only_writeSwap {k : Nat} : ∀ i, (writeSwap slot kva i k).Does OnlyDisk Any := by
  induction k with
  | zero => exact fun _ => .pure _
  | succ k ih =>
    refine fun i => .bind (only_write fun s s' h => ?_) fun _ => ih (i + 1)
    split at h
    · cases h
      rfl
    · cases h

theorem only_takeSlot : takeSlot.Does OnlyDisk Any := by
  refine only_lift fun s a s' h => ?_
  split at h <;> cases h <;> rfl

theorem only_anonSwapIn : (anonSwapIn t q).Does OnlyDisk Any := by
  refine (only_read _).bind fun page => only_derefFrame.bind fun frame => only_acquireSwap.bind fun _ =>
    (only_read _).bind fun page => (only_readSwap 0).bind fun _ => .bind (only_write fun s s' h => ?_) fun _ =>
    .bind (only_set fun _ => rfl) fun _ => only_updatePage.bind fun _ => .pure _
  split at h
  · cases h
    rfl
  · cases h

theorem only_anonSwapOut : (anonSwapOut t q).Does OnlyDisk Any :=
  (only_read _).bind fun _ => only_derefFrame.bind fun _ => only_acquireSwap.bind fun _ => only_takeSlot.bind fun _ =>
    (only_writeSwap 0).bind fun _ => only_updatePage.bind fun _ => only_pml4ClearPage.bind fun _ =>
    .bind (only_set fun _ => rfl) fun _ => .pure _

theorem only_writeBack {info : FileInfo} : (writeBack info kva).Does OnlyDisk Any := by
  unfold writeBack
  split
  · exact .fail trivial
  · exact (only_read _).bind fun _ => .bind (disk_fileWriteAt.zoom (fun _ _ h => h) fun _ _ => trivial) fun _ => .pure _

theorem only_fileBackedSwapOut : (fileBackedSwapOut t q).Does OnlyDisk Any := by
  have hdirty : ∀ (page : Page) va, (writeDirty t page va).Does OnlyDisk Any := by
    intro page va
    unfold writeDirty
    split
    · exact .pure _
    · refine (only_read _).bind fun dirty => ?_
      split
      · exact only_derefFrame.bind fun _ => only_writeBack
      · exact .pure _
  refine (only_read _).bind fun _ => (hdirty _ _).bind fun _ => .bind (only_write fun s s' h => ?_) fun _ =>
    only_pml4ClearPage.bind fun _ => .pure _
  split at h <;> cases h <;> rfl

theorem only_swapOut : (swapOut t q).Does OnlyDisk Any := by
  refine (only_read _).bind fun page => ?_
  split
  · exact .fail trivial
  · exact only_anonSwapOut
  · exact only_fileBackedSwapOut

theorem only_vmEvictFrame : (vmEvictFrame t).Does OnlyDisk Any := by
  refine (only_read _).bind fun victim => .bind (only_derefFrame.bind fun frame => ?_) fun swapped => ?_
  · split
    · exact .fail trivial
    · exact only_swapOut
  · unfold takeVictim
    split
    · refine .bind (only_set fun _ => rfl) fun _ => only_derefFrame.bind fun frame => ?_
      split
      · exact .fail trivial
      · exact only_updatePage.bind fun _ => only_updateFrame.bind fun _ => .pure _
    · exact .fail trivial

theorem only_vmGetFrame : (vmGetFrame t).Does OnlyDisk Any := by
  have hadd : ∀ f, (addFrame f).Does OnlyDisk Any := fun f =>
    .bind (only_set fun _ => rfl) fun _ => only_updateFrame.bind fun _ => .pure _
  refine .bind (only_lift fun s a s' h => ?_) fun kva => ?_
  · cases h
    rfl
  · cases kva with
    | none => exact only_vmEvictFrame.bind fun f => hadd f
    | some kva =>
      refine .bind (only_vmAlloc.bind fun allocated => ?_) fun f => hadd f
      split
      · refine only_lift fun s a s' h => ?_
        cases h
        rfl
      · exact .fail trivial

theorem only_beginSwapIn : (beginSwapIn t q).Does OnlyDisk Any := by
  have hinit : ∀ type, (pageInitializer q type).Does OnlyDisk Any := by
    intro type
    cases type with
    | uninit => exact .fail trivial
    | anon => exact only_updatePage.bind fun _ => .pure _
    | file => exact only_updatePage.bind fun _ => only_read _
  refine (only_read _).bind fun page => ?_
  split
  · refine (only_read _).bind fun page => (hinit _).bind fun initialized => ?_
    split
    · split
      · exact .pure _
      · exact .pure _
    · exact .pure _
  · exact only_anonSwapIn.bind fun _ => .pure _
  · exact (only_read _).bind fun _ => .pure _

theorem only_pml4SetPage {kpage : Kva} {rw : Bool} : (pml4SetPage t va kpage rw).Does OnlyDisk Any := by
  unfold pml4SetPage
  split
  · exact .fail trivial
  · refine only_vmAlloc.bind fun walked => ?_
    split
    · exact .bind (only_set fun _ => rfl) fun _ => .pure _
    · exact .pure _

/-- What is before `lazy_load_segment` moves no position. -/
theorem only_beginFault : (beginFault t va).Does OnlyDisk Any := by
  refine (only_read _).bind fun found => ?_
  cases found with
  | none => exact .pure _
  | some q =>
    refine .bind (only_vmGetFrame.bind fun f => only_updateFrame.bind fun _ => only_updatePage.bind fun _ =>
      (only_read _).bind fun page => only_derefFrame.bind fun frame => only_pml4SetPage.bind fun mapped => ?_)
      fun _ => .pure _
    split
    · exact only_beginSwapIn
    · exact .pure _

end

/-! ## The steps -/

/-- The process is between its seek and its read of the file. -/
def Faulting.Seeks (s : Faulting) (t : Tid) (f : FilePtr) : Prop := ∃ q kva info, s.load t = .sought q kva info f

/-- No process seeks a file while another is between its seek and its read of the file. -/
def Alone (s : Faulting) : FaultAct → Prop
  | .seek t => ∀ q info f, s.load t = .claimed q (some info) → info.file = some f → ∀ t', ¬ s.Seeks t' f
  | _ => True

/-- Every open file has its inode, and its sectors. -/
def Vm.FilesThere (s : Vm) : Prop := ∀ f file, s.fs.files f = some file → ∃ inode, FileThere s f file inode

/-- The frame holds the bytes of the file that belong to the page, and then zeros. -/
def Vm.Loaded (s : Vm) (kva : Kva) (info : FileInfo) : Prop :=
  ∃ f file inode, info.file = some f ∧ FileThere s f file inode ∧
    s.bytes kva (info.pageReadBytes + info.pageZeroBytes) = shownBytes s.fs.disk inode.data.start info

/-- What holds while faults are alone. -/
structure Faulting.Inv (s₀ s : Faulting) : Prop where
  kept : SameHandles s₀.vm.fs s.vm.fs
  sought : ∀ t q kva info f, s.load t = .sought q kva info f →
    info.file = some f ∧ 0 ≤ info.ofs ∧ ∃ file, s.vm.fs.files f = some file ∧ file.pos = info.ofs.toNat
  alone : ∀ t t' f, s.Seeks t f → s.Seeks t' f → t = t'

section

variable {s₀ s s' : Faulting} {vm vm' : Vm} {t : Tid} {q : PagePtr} {kva : Kva} {info : FileInfo} {f : FilePtr}
  {va : Vaddr} {file : File} {inode : Inode} {r : Bool}

theorem OnlyDisk.files (h : OnlyDisk vm vm') : vm'.fs.files = vm.fs.files := by
  have hf : vm'.fs.blankDisk.files = vm.fs.blankDisk.files := by rw [h]
  exact hf

theorem OnlyDisk.sameHandles (h : OnlyDisk vm vm') : SameHandles vm.fs vm'.fs := by
  have hh : ∀ fs : FileSys, fs.handles = fs.blankDisk.handles := fun _ => rfl
  rw [SameHandles, hh, hh vm.fs, h]

theorem Vm.FilesThere.congr (h : vm.FilesThere) (hs : SameHandles vm.fs vm'.fs) : vm'.FilesThere := by
  intro f file hf
  have hfiles : vm'.fs.handles.files f = vm.fs.handles.files f := by rw [hs]
  have hinodes : vm'.fs.handles.inodes = vm.fs.handles.inodes := by rw [hs]
  have hcapacity : vm'.fs.handles.capacity = vm.fs.handles.capacity := by rw [hs]
  have hfiles : (vm'.fs.files f).map (fun file => { file with pos := 0 }) =
      (vm.fs.files f).map fun file => ({ file with pos := 0 } : File) := hfiles
  rw [hf, Option.map_some] at hfiles
  obtain ⟨old, hold, he⟩ := Option.map_eq_some_iff.mp hfiles.symm
  obtain ⟨inode, hthere⟩ := h f old hold
  have hinode : file.inode = old.inode := (File.mk.inj he).1.symm
  exact ⟨inode, hf, (congrFun hinodes _).trans (hinode ▸ hthere.inodes), hthere.onDisk.congr hcapacity⟩

theorem atPos_sameHandles (hf : vm.fs.files f = some file) (pos : Nat) : SameHandles vm.fs (vm.atPos f file pos).fs :=
  sameHandles_setPos hf pos

/-- What is left of `lazy_load_segment` reads from the position on. -/
theorem of_lazyFinish (hthere : FileThere vm f file inode) (h : (lazyFinish q kva info f).run vm = .ok (r, vm')) :
    (∃ pos, vm'.fs = (vm.atPos f file pos).fs) ∧ (r = true →
      vm'.bytes kva (info.pageReadBytes + info.pageZeroBytes) =
        fileBytes vm.fs.disk inode.data.start file.pos info.pageReadBytes ++ List.replicate info.pageZeroBytes 0) := by
  set n := transferred inode.data info.pageReadBytes file.pos with hn
  set bytes := fileBytes vm.fs.disk inode.data.start file.pos n with hbytes
  have hread : (liftFs (fileRead f info.pageReadBytes)).run vm = .ok (bytes, vm.atPos f file (file.pos + n)) :=
    run_liftFs (run_fileRead hthere.files hthere.inodes hthere.onDisk info.pageReadBytes)
  have hlen : bytes.length = n := length_fileBytes _ _ _ _
  rw [lazyFinish, Prog.run_bind_ok hread, Prog.run_bind_ok (Prog.run_write_ok _ _)] at h
  split at h
  · -- a short read
    obtain ⟨page, s₁, h₁, h⟩ := Prog.of_run_bind h
    obtain ⟨-, rfl⟩ := of_derefPage h₁
    obtain ⟨frame, s₂, h₂, h⟩ := Prog.of_run_bind h
    obtain ⟨-, -, -, rfl⟩ := of_derefFrame h₂
    obtain ⟨_, s₃, h₃, h⟩ := Prog.of_run_bind h
    have hfree := Prog.of_run_write h₃
    dsimp only at hfree
    split at hfree
    · cases hfree
      cases h
      exact ⟨⟨_, rfl⟩, by rintro ⟨⟩⟩
    · cases hfree
  · next hfull =>
    rw [not_not] at hfull
    rw [Prog.run_bind_ok (Prog.run_write_ok _ _)] at h
    cases h
    refine ⟨⟨_, rfl⟩, fun _ => ?_⟩
    have hcopy := bytes_copy_copy (vm.atPos f file (file.pos + n)) kva bytes (List.replicate info.pageZeroBytes 0)
    rw [hfull, List.length_replicate] at hcopy
    rw [hcopy, hbytes, ← hlen, hfull]

/-- A process gets to its next step, and moves no position that another has sought. -/
theorem Faulting.Inv.next {load : LoadState} (h : Inv s₀ s) (hk : SameHandles s.vm.fs vm.fs)
    (hfiles : ∀ t' f, t' ≠ t → s.Seeks t' f → vm.fs.files f = s.vm.fs.files f)
    (hnew : ∀ q kva info f, load = .sought q kva info f → (info.file = some f ∧ 0 ≤ info.ofs ∧
      ∃ file, vm.fs.files f = some file ∧ file.pos = info.ofs.toNat) ∧ ∀ t', ¬ s.Seeks t' f) :
    Inv s₀ ⟨vm, update s.load t load⟩ := by
  have hold : ∀ {t' q kva info f}, t' ≠ t → update s.load t load t' = .sought q kva info f →
      s.load t' = .sought q kva info f := by
    intro t' q kva info f ht hl
    rwa [update_of_ne ht] at hl
  refine ⟨h.kept.trans _ _ _ hk, fun t' q kva info f hl => ?_, fun t₁ t₂ f h₁ h₂ => ?_⟩
  · have hl : update s.load t load t' = .sought q kva info f := hl
    by_cases ht : t' = t
    · rw [ht, update_self] at hl
      exact (hnew q kva info f hl).1
    · have hs := hold ht hl
      obtain ⟨hfile, hofs, file, hf, hpos⟩ := h.sought t' q kva info f hs
      exact ⟨hfile, hofs, file, (hfiles t' f ht ⟨q, kva, info, hs⟩).trans hf, hpos⟩
  · obtain ⟨q₁, kva₁, info₁, h₁⟩ := h₁
    obtain ⟨q₂, kva₂, info₂, h₂⟩ := h₂
    have h₁ : update s.load t load t₁ = .sought q₁ kva₁ info₁ f := h₁
    have h₂ : update s.load t load t₂ = .sought q₂ kva₂ info₂ f := h₂
    by_cases ht₁ : t₁ = t <;> by_cases ht₂ : t₂ = t
    · rw [ht₁, ht₂]
    · rw [ht₁, update_self] at h₁
      exact absurd ⟨q₂, kva₂, info₂, hold ht₂ h₂⟩ ((hnew _ _ _ _ h₁).2 t₂)
    · rw [ht₂, update_self] at h₂
      exact absurd ⟨q₁, kva₁, info₁, hold ht₁ h₁⟩ ((hnew _ _ _ _ h₂).2 t₁)
    · exact h.alone t₁ t₂ f ⟨q₁, kva₁, info₁, hold ht₁ h₁⟩ ⟨q₂, kva₂, info₂, hold ht₂ h₂⟩

theorem Faulting.Inv.step (h₀ : s₀.vm.FilesThere) {a : FaultAct} (h : Inv s₀ s) (ha : Alone s a)
    (hs : s.step a = .ok s') : Inv s₀ s' := by
  cases a with
  | claim t va =>
    rw [Faulting.step] at hs
    split at hs
    · next hidle =>
      split at hs
      · cases hs
      · next vm hrun =>
        have honly := only_beginFault.run OnlyDisk.refl OnlyDisk.trans hrun
        have hnext : Inv s₀ ⟨vm, update s.load t .idle⟩ :=
          h.next honly.sameHandles (fun _ f _ _ => congrFun honly.files f) nofun
        rw [← hidle, update_eq_self] at hnext
        cases hs
        exact hnext
      · next q aux vm hrun =>
        have honly := only_beginFault.run OnlyDisk.refl OnlyDisk.trans hrun
        cases hs
        exact h.next honly.sameHandles (fun _ f _ _ => congrFun honly.files f) nofun
    · cases hs
  | seek t =>
    rw [Faulting.step] at hs
    split at hs
    · next q aux hclaimed =>
      split at hs
      · cases hs
      · next kva info f vm hrun =>
        obtain ⟨page, fr, frame, -, -, -, -, rfl, hseek⟩ := of_lazyStart hrun
        obtain ⟨hfile, hofs, file, hf, rfl⟩ := of_lazySeek hseek
        have halone := ha q info f hclaimed hfile
        cases hs
        refine h.next (atPos_sameHandles hf _) (fun t' g _ hg => update_of_ne ?_ _ _) fun q' kva' info' f' hl => ?_
        · rintro rfl
          exact halone t' hg
        · cases hl
          exact ⟨⟨hfile, hofs, { file with pos := info.ofs.toNat }, update_self _ _ _, rfl⟩, halone⟩
    · cases hs
  | read t =>
    rw [Faulting.step] at hs
    split at hs
    · next q kva info f hsought =>
      split at hs
      · cases hs
      · next r vm hrun =>
        obtain ⟨-, -, file, hf, -⟩ := h.sought t q kva info f hsought
        obtain ⟨inode, hthere⟩ := (h₀.congr h.kept) f file hf
        obtain ⟨⟨pos, hfs⟩, -⟩ := of_lazyFinish hthere hrun
        cases hs
        refine h.next (by rw [hfs]; exact atPos_sameHandles hf pos) (fun t' g ht hg => ?_) nofun
        rw [hfs]
        refine update_of_ne ?_ _ _
        rintro rfl
        exact ht (h.alone t' t g hg ⟨q, kva, info, hsought⟩)
    · cases hs

/-- The first byte of a page that was loaded. -/
theorem Vm.Loaded.first {vm : Vm} {kva : Kva} {info : FileInfo} {f : FilePtr} {file : File} {inode : Inode}
    (h : vm.Loaded kva info) (hfile : info.file = some f) (hf : vm.fs.files f = some file)
    (hi : vm.fs.inodes file.inode = some inode) (hpos : 0 < info.pageReadBytes) :
    vm.mem kva 0 = fileByte vm.fs.disk inode.data.start info.ofs.toNat := by
  obtain ⟨f', file', inode', hfile', hthere, hbytes⟩ := h
  obtain rfl := Option.some.inj (hfile.symm.trans hfile')
  obtain rfl := Option.some.inj (hf.symm.trans hthere.files)
  obtain rfl := Option.some.inj (hi.symm.trans hthere.inodes)
  have hfirst := congrArg (·[0]?) hbytes
  have hlen : 0 < (vm.bytes kva (info.pageReadBytes + info.pageZeroBytes)).length := by
    rw [length_bytes]
    omega
  have hlen' : 0 < (fileBytes vm.fs.disk inode.data.start info.ofs.toNat info.pageReadBytes).length := by
    rwa [length_fileBytes]
  rw [List.getElem?_eq_getElem hlen, getElem_bytes, shownBytes, List.getElem?_append_left hlen',
    List.getElem?_eq_getElem hlen'] at hfirst
  simpa [fileBytes] using hfirst

end

/-- A program of a page that was not loaded yet: the first byte of its file, and then zeros. -/
def program : Vm :=
  { Vm.boot { FileSys.boot (fun sector k => if sector = 3 ∧ k = 0 then 0x7f else 0) 16 ⟨0, []⟩ [] ⟨0, 0⟩ with
      inodes := update (fun _ => none) 0 (some
        { sector := 2, openCnt := 1, removed := false, denyWriteCnt := 0, data := ⟨3, 120⟩ })
      openInodes := [0]
      files := update (fun _ => none) 1 (some { inode := 0, pos := 0, denyWrite := false })
      brk := 2 } [false, false] 0 with
    spt := update (fun _ => []) 1 [0]
    pages := update (fun _ => none) 0 (some (uninitNew 0x400000 true .anon (some ⟨some 1, 0, 1, 1, 4095⟩) false))
    brk := 1 }

/-- After `fork`. -/
def forked : Vm :=
  match (supplementalPageTableCopy 2 1).run program with
  | .ok (_, s) => s
  | .error _ => program

theorem forked_filesThere : forked.FilesThere := by
  intro f file hf
  have hf : update (fun _ => none) 1 (some { inode := 0, pos := 0, denyWrite := false }) f = some file := hf
  by_cases h1 : f = 1
  · subst h1
    rw [update_self] at hf
    cases hf
    refine ⟨_, rfl, rfl, by decide, fun i hi => ?_⟩
    have hcap : forked.fs.capacity = 16 := rfl
    dsimp only at hi ⊢
    unfold FileSys.Selects DISK_SECTOR_SIZE
    omega
  · rw [update_of_ne h1] at hf
    cases hf

end Pintos
