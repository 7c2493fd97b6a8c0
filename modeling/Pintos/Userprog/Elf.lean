import Pintos.Userprog.Loading
import Pintos.Userprog.Segments

/-!
# ELF files

`load` of `userprog/process.c` from where the file is open: the headers are read from the file, each `PT_LOAD`
header adds its pages, and then there is the stack.

* `AddsPages` — a list of pages was added, and the other ones are as they were
* `loadPhdr_adds` — the pages that a program header adds
* `loadElf_adds` — those that `load` has added when it returns true
-/

namespace Pintos

open Function LittleEndian

/-! ## The code -/

/-- `ELF64_hdr`, with the fields that `load` reads. -/
structure Ehdr where
  eIdent : List Byte
  eType : BitVec 16
  eMachine : BitVec 16
  eVersion : BitVec 32
  eEntry : BitVec 64
  ePhoff : BitVec 64
  ePhentsize : BitVec 16
  ePhnum : BitVec 16
  deriving DecidableEq, Repr

/-- The field of `w` bits at an offset of a record. -/
def field (w : Nat) (bytes : List Byte) (ofs : Nat) : BitVec w := BitVec.ofNat w (ofLe ((bytes.drop ofs).take (w / 8)))

def Ehdr.ofBytes (bytes : List Byte) : Ehdr where
  eIdent := bytes.take 16
  eType := field 16 bytes 16
  eMachine := field 16 bytes 18
  eVersion := field 32 bytes 20
  eEntry := field 64 bytes 24
  ePhoff := field 64 bytes 32
  ePhentsize := field 16 bytes 54
  ePhnum := field 16 bytes 56

def Phdr.ofBytes (bytes : List Byte) : Phdr where
  pType := field 32 bytes 0
  pFlags := field 32 bytes 4
  pOffset := field 64 bytes 8
  pVaddr := field 64 bytes 16
  pFilesz := field 64 bytes 32
  pMemsz := field 64 bytes 40

/-- `sizeof ehdr`. -/
def EHDR_SIZE : Nat := 64

/-- `sizeof (struct Phdr)`. -/
def PHDR_SIZE : Nat := 56

/-- `"\177ELF\2\1\1"`. -/
def elfMagic : List Byte := [0x7f, 0x45, 0x4c, 0x46, 2, 1, 1]

/-- The header is none of an executable. -/
def Ehdr.refused (ehdr : Ehdr) : Bool :=
  ehdr.eIdent.take 7 ≠ elfMagic ∨ ehdr.eType ≠ 2 ∨ ehdr.eMachine ≠ 0x3E ∨ ehdr.eVersion ≠ 1 ∨
    ehdr.ePhentsize.toNat ≠ PHDR_SIZE ∨ 1024 < ehdr.ePhnum

/-- `file_ofs` in the round `i` of the loop. It is an `off_t`. -/
def phdrOffset (ePhoff : BitVec 64) : Nat → Int
  | 0 => wrap32 ePhoff.toNat
  | i + 1 => wrap32 (phdrOffset ePhoff i + PHDR_SIZE)

/-- The loop of `load`, from the round `i` on. -/
def loadHeaders (t : Tid) (file : FilePtr) (ePhoff : BitVec 64) : Nat → Nat → VmProg Bool
  | 0, _ => pure true
  | n + 1, i => do
    let length ← liftFs (fileLength file)
    if phdrOffset ePhoff i < 0 ∨ length < phdrOffset ePhoff i then pure false
    else do
      liftFs (fileSeek file (phdrOffset ePhoff i))
      let bytes ← liftFs (fileRead file PHDR_SIZE)
      if bytes.length ≠ PHDR_SIZE then pure false
      else do
        let loaded ← loadPhdr t file length (Phdr.ofBytes bytes)
        if loaded then loadHeaders t file ePhoff n (i + 1) else pure false

/-- `load` of an open file. -/
def loadElf (t : Tid) (file : FilePtr) : VmProg Bool := do
  let bytes ← liftFs (fileRead file EHDR_SIZE)
  if bytes.length ≠ EHDR_SIZE then pure false
  else
    let ehdr := Ehdr.ofBytes bytes
    if ehdr.refused then pure false
    else do
      let loaded ← loadHeaders t file ehdr.ePhoff ehdr.ePhnum.toNat 0
      if loaded then setupStack t else pure false

/-! ## Pages that are added -/

/-- Pages were added, which have addresses of their own. The other ones are as they were. -/
structure AddsPages (t : Tid) (ps : List Page) (s s' : Vm) : Prop where
  found : ∀ p ∈ ps, ∃ q, s'.findPage p.va (s'.spt t) = some q ∧ (s'.pages q).map Page.still = some p.still
  others : ∀ va, (∀ p ∈ ps, va ≠ p.va) → s'.findPage va (s'.spt t) = s.findPage va (s.spt t)
  fresh : ∀ p ∈ ps, s.findPage p.va (s.spt t) = none
  nodup : (ps.map Page.va).Nodup
  old : ∀ q < s.brk, (s'.pages q).map Page.still = (s.pages q).map Page.still
  new : s'.NewPages t
  brk : s.brk ≤ s'.brk

section

variable {s s' s₁ : Vm} {t : Tid} {ps ps' : List Page} {va : Vaddr} {N : Vaddr → Prop}

theorem AddsPages.of_accessing (hnew : s.NewPages t) (h : Accessing N s s') : AddsPages t [] s s' := by
  refine ⟨fun _ h => absurd h List.not_mem_nil, fun va _ => ?_, fun _ h => absurd h List.not_mem_nil, List.nodup_nil,
    fun q _ => h.pages q, fun q hq => ?_, h.brk⟩
  · rw [h.findPage, h.spt]
  · rw [h.spt] at hq
    exact (hnew q hq).trans_le h.brk

theorem AddsPages.trans (h : AddsPages t ps s s₁) (h' : AddsPages t ps' s₁ s') : AddsPages t (ps ++ ps') s s' := by
  -- what the first step has added is none of what the second one adds
  have hne : ∀ p ∈ ps, ∀ p' ∈ ps', p.va ≠ p'.va := by
    intro p hp p' hp' heq
    obtain ⟨q, hq, -⟩ := h.found p hp
    rw [heq, h'.fresh p' hp'] at hq
    cases hq
  refine ⟨fun p hp => ?_, fun va hva => ?_, fun p hp => ?_, ?_, fun q hq => ?_, h'.new, h.brk.trans h'.brk⟩
  · rcases List.mem_append.mp hp with hp | hp
    · obtain ⟨q, hq, hpage⟩ := h.found p hp
      refine ⟨q, by rw [h'.others _ (hne p hp), hq], ?_⟩
      rw [h'.old q (h.new q (Vm.mem_of_findPage hq)), hpage]
    · exact h'.found p hp
  · rw [h'.others va fun p hp => hva p (List.mem_append_right ps hp),
      h.others va fun p hp => hva p (List.mem_append_left ps' hp)]
  · rcases List.mem_append.mp hp with hp | hp
    · exact h.fresh p hp
    · rw [← h.others p.va fun p' hp' => (hne p' hp' p hp).symm]
      exact h'.fresh p hp
  · rw [List.map_append, List.nodup_append]
    refine ⟨h.nodup, h'.nodup, fun a ha b hb => ?_⟩
    obtain ⟨p, hp, rfl⟩ := List.mem_map.mp ha
    obtain ⟨p', hp', rfl⟩ := List.mem_map.mp hb
    exact hne p hp p' hp'
  · rw [h'.old q (hq.trans_le h.brk), h.old q hq]

/-- A page is found now if it was found before or was added. -/
theorem AddsPages.paged_iff (h : AddsPages t ps s s') : s'.Paged t va ↔ s.Paged t va ∨ ∃ p ∈ ps, va = p.va := by
  by_cases hva : ∃ p ∈ ps, va = p.va
  · obtain ⟨p, hp, rfl⟩ := hva
    obtain ⟨q, hq, -⟩ := h.found p hp
    exact ⟨fun _ => .inr ⟨p, hp, rfl⟩, fun _ hc => by rw [hq] at hc; cases hc⟩
  · rw [or_iff_left hva, Vm.Paged, h.others va fun p hp heq => hva ⟨p, hp, heq⟩]
    exact Iff.rfl

end

/-! ## Program headers -/

namespace Phdr

variable (phdr : Phdr)

def writable : Bool := decide (phdr.pFlags &&& PF_W ≠ 0)

def filePage : BitVec 64 := phdr.pOffset &&& ~~~PGMASK

def memPage : Vaddr := phdr.pVaddr &&& ~~~PGMASK

def pageOffset : BitVec 64 := phdr.pVaddr &&& PGMASK

/-- `read_bytes`. -/
def readBytes : BitVec 32 := if 0 < phdr.pFilesz then (phdr.pageOffset + phdr.pFilesz).setWidth 32 else 0

/-- `zero_bytes`. -/
def zeroBytes : BitVec 32 := (roundUp (phdr.pageOffset + phdr.pMemsz) - phdr.readBytes.setWidth 64).setWidth 32

/-- The number of pages that `load_segment` adds. -/
def recorded : Nat := (phdr.readBytes.toNat + phdr.zeroBytes.toNat) / PGSIZE

end Phdr

/-- The pages that a program header adds. -/
def recordedPages (f : FilePtr) (phdr : Phdr) : List Page :=
  if phdr.pType = PT_LOAD then
    (List.range phdr.recorded).map
      (segmentPage f phdr.writable (toInt32 (phdr.filePage.toNat % 2 ^ 32)) phdr.memPage phdr.readBytes.toNat)
  else []

/-- The program header that is read in the round `i`. -/
def phdrAt (disk : Nat → Sector) (start : Nat) (ePhoff : BitVec 64) (i : Nat) : Phdr :=
  .ofBytes (fileBytes disk start (phdrOffset ePhoff i).toNat PHDR_SIZE)

section

variable {s s' s₁ : Vm} {t : Tid} {f : FilePtr} {file : File} {inode : Inode} {upage : Vaddr} {writable : Bool}
  {ofs length : Int} {readBytes zeroBytes : BitVec 32} {k n i : Nat} {phdr : Phdr} {ePhoff : BitVec 64}

theorem AddedPages.adds {rb : Nat} (h : AddedPages t upage k (segmentPage f writable ofs upage rb) s s')
    (hk : k ≤ 2 ^ 52) : AddsPages t ((List.range k).map (segmentPage f writable ofs upage rb)) s s' := by
  have hmem : ∀ p ∈ (List.range k).map (segmentPage f writable ofs upage rb),
      ∃ j < k, p = segmentPage f writable ofs upage rb j := by
    intro p hp
    obtain ⟨j, hj, rfl⟩ := List.mem_map.mp hp
    exact ⟨j, List.mem_range.mp hj, rfl⟩
  refine ⟨fun p hp => ?_, fun va hva => ?_, fun p hp => ?_, ?_, fun q hq => by rw [h.old q hq], h.new, h.brk⟩
  · obtain ⟨j, hj, rfl⟩ := hmem p hp
    obtain ⟨q, hq, hpage⟩ := h.found j hj
    exact ⟨q, hq, by rw [hpage]; rfl⟩
  · exact h.others va fun j hj => hva _ (List.mem_map.mpr ⟨j, List.mem_range.mpr hj, rfl⟩)
  · obtain ⟨j, hj, rfl⟩ := hmem p hp
    exact h.fresh j hj
  · rw [List.map_map]
    refine List.Nodup.map_on (fun a ha b hb heq => ?_) List.nodup_range
    rw [List.mem_range] at ha hb
    exact nthPage_inj (by omega) (by omega) heq

/-- What `load_segment` has added when it returns true. -/
theorem loadSegment_adds (hnew : s.NewPages t) (hofs : wrap32 ofs = ofs)
    (hrun : (loadSegment t f ofs upage readBytes zeroBytes writable).run s = .ok (true, s')) :
    AddsPages t ((List.range ((readBytes.toNat + zeroBytes.toNat) / PGSIZE)).map
      (segmentPage f writable ofs upage readBytes.toNat)) s s' ∧ s'.fs = s.fs := by
  unfold loadSegment at hrun
  split at hrun
  · cases hrun
  · next hasserts =>
    rw [not_or, not_or, not_not, not_not, not_not, BitVec.toNat_add] at hasserts
    have hrb := readBytes.isLt
    have hzb := zeroBytes.isLt
    have htotal : readBytes.toNat + zeroBytes.toNat = PGSIZE * ((readBytes.toNat + zeroBytes.toNat) / PGSIZE) := by
      unfold PGSIZE at *
      omega
    have hadded := loadPages_added hasserts.2.1 hnew hofs htotal le_rfl hrun
    exact ⟨hadded.adds (by unfold PGSIZE; omega), hadded.fs⟩

theorem toInt32_mod (n : Nat) : toInt32 (n % 2 ^ 32) = wrap32 n := by
  unfold wrap32 toInt32 ofInt32
  omega

/-- The pages that a program header adds. -/
theorem loadPhdr_adds (hnew : s.NewPages t) (hrun : (loadPhdr t f length phdr).run s = .ok (true, s')) :
    AddsPages t (recordedPages f phdr) s s' ∧ s'.fs = s.fs ∧
      (phdr.pType = PT_LOAD → validateSegment phdr length = true) := by
  unfold loadPhdr at hrun
  unfold recordedPages
  split at hrun
  · cases hrun
  · split at hrun
    · next hload =>
      split at hrun
      · next hvalid =>
        rw [if_pos hload]
        have hofs : wrap32 (toInt32 (phdr.filePage.toNat % 2 ^ 32)) = toInt32 (phdr.filePage.toNat % 2 ^ 32) := by
          rw [toInt32_mod, wrap32_wrap32]
        obtain ⟨hadds, hfs⟩ := loadSegment_adds hnew hofs hrun
        exact ⟨hadds, hfs, fun _ => hvalid⟩
      · cases hrun
    · next hload =>
      cases hrun
      rw [if_neg hload]
      exact ⟨.of_accessing (N := Any) hnew (.refl s), rfl, fun h => absurd h hload⟩

/-- What reading from the file leaves as it is. -/
theorem AddsPages.of_fs (hnew : s.NewPages t) (fs : FileSys) : AddsPages t [] s { s with fs := fs } :=
  ⟨fun _ h => absurd h List.not_mem_nil, fun _ _ => Vm.findPage_congr (by rfl) _, fun _ h => absurd h List.not_mem_nil,
    List.nodup_nil, fun _ _ => rfl, hnew, le_rfl⟩

/-- What the loop has added when it returns true. -/
theorem loadHeaders_adds (hnew : s.NewPages t) (hthere : FileThere s f file inode)
    (hrun : (loadHeaders t f ePhoff n i).run s = .ok (true, s')) :
    AddsPages t ((List.range' i n).flatMap fun j => recordedPages f (phdrAt s.fs.disk inode.data.start ePhoff j)) s s' ∧
      ∀ j, i ≤ j → j < i + n → 0 ≤ phdrOffset ePhoff j ∧ phdrOffset ePhoff j + PHDR_SIZE ≤ inode.data.length ∧
        ((phdrAt s.fs.disk inode.data.start ePhoff j).pType = PT_LOAD →
          validateSegment (phdrAt s.fs.disk inode.data.start ePhoff j) inode.data.length = true) := by
  induction n generalizing s i file with
  | zero =>
    cases hrun
    exact ⟨.of_accessing (N := Any) hnew (.refl _), fun j hj hlt => by omega⟩
  | succ n ih =>
    rw [loadHeaders, Prog.run_bind_ok (run_liftFs (run_fileLength hthere.files hthere.inodes))] at hrun
    split at hrun
    · cases hrun
    next hofs =>
    rw [not_or, Int.not_lt, Int.not_lt] at hofs
    rw [Prog.run_bind_ok (run_liftFs (run_fileSeek hthere.files hofs.1))] at hrun
    set s₁ : Vm := { s with fs := s.fs.setFile f (some { file with pos := (phdrOffset ePhoff i).toNat }) } with hs₁
    have hthere₁ : FileThere s₁ f { file with pos := (phdrOffset ePhoff i).toNat } inode :=
      ⟨update_self _ _ _, hthere.inodes, hthere.onDisk.congr rfl⟩
    rw [Prog.run_bind_ok (run_liftFs (run_fileRead hthere₁.files hthere₁.inodes hthere₁.onDisk PHDR_SIZE))] at hrun
    set cnt := transferred inode.data PHDR_SIZE (phdrOffset ePhoff i).toNat with hcnt
    set s₂ : Vm := { s₁ with
      fs := s₁.fs.setFile f (some { file with pos := (phdrOffset ePhoff i).toNat + cnt }) } with hs₂
    split at hrun
    · cases hrun
    next hlen =>
    rw [not_not, length_fileBytes] at hlen
    have hend : phdrOffset ePhoff i + PHDR_SIZE ≤ inode.data.length := by
      have hnonneg := hthere.onDisk.nonneg
      rw [hcnt, transferred] at hlen
      unfold PHDR_SIZE at *
      omega
    obtain ⟨loaded, s₃, hphdr, hrest⟩ := Prog.of_run_bind hrun
    cases loaded with
    | false => cases hrest
    | true =>
      rw [if_pos rfl] at hrest
      have hread : Phdr.ofBytes (fileBytes s₁.fs.disk inode.data.start (phdrOffset ePhoff i).toNat cnt) =
          phdrAt s.fs.disk inode.data.start ePhoff i := by
        rw [hlen]
        rfl
      rw [hread] at hphdr
      have hnew₂ : s₂.NewPages t := hnew
      obtain ⟨hadds, hfs, hvalid⟩ := loadPhdr_adds hnew₂ hphdr
      have hthere₃ : FileThere s₃ f { file with pos := (phdrOffset ePhoff i).toNat + cnt } inode :=
        ⟨by rw [hfs]; exact update_self _ _ _, by rw [hfs]; exact hthere.inodes, hthere.onDisk.congr (by rw [hfs]; rfl)⟩
      have hdisk : s₃.fs.disk = s.fs.disk := by
        rw [hfs]
        rfl
      obtain ⟨hadds', hoffsets⟩ := ih hadds.new hthere₃ hrest
      rw [hdisk] at hadds' hoffsets
      refine ⟨?_, fun j hj hlt => ?_⟩
      · rw [List.range'_succ, List.flatMap_cons]
        exact ((AddsPages.of_fs hnew s₂.fs).trans hadds).trans hadds'
      · rcases Nat.eq_or_lt_of_le hj with rfl | hj
        · exact ⟨hofs.1, hend, hvalid⟩
        · exact hoffsets j hj (by omega)

/-! ## `load` -/

theorem claiming_vmClaimPage (va : Vaddr) : (vmClaimPage t va).Does (Claiming Any) Any := by
  unfold vmClaimPage
  refine .bind ((claiming (does_read _)).mono (fun _ _ h => h) fun _ _ => trivial) fun found => ?_
  cases found with
  | none => exact .pure _
  | some q => exact does_vmDoClaimPage

/-- A page that was added is new. -/
theorem of_vmAllocPage_true {type : VmType} {init : Bool} {aux : Option FileInfo} (htype : type ≠ .uninit)
    (hal : Aligned upage) (hrun : (vmAllocPage t type upage writable init aux).run s = .ok (true, s')) :
    ¬ s.Paged t upage ∧ s.allocs 0 = true ∧ s' = s.asked.addPage t (uninitNew upage init type aux writable) := by
  have hcov : s.Covered t upage ↔ s.Paged t upage := by rw [Vm.Covered, pgRoundDown_of_aligned hal]
  by_cases hp : s.Paged t upage
  · rw [run_vmAllocPage_there htype (hcov.mpr hp)] at hrun
    cases hrun
  · cases h0 : s.allocs 0 with
    | false =>
      rw [run_vmAllocPage_refused htype (fun hc => hp (hcov.mp hc)) h0] at hrun
      cases hrun
    | true =>
      rw [run_vmAllocPage htype hal hp h0] at hrun
      cases hrun
      exact ⟨hp, rfl, rfl⟩

theorem AddsPages.addPage {page : Page} (hnew : s.NewPages t) (hp : ¬ s.Paged t page.va) :
    AddsPages t [page] s (s.asked.addPage t page) := by
  have hfind : ∀ va, (s.asked.addPage t page).findPage va ((s.asked.addPage t page).spt t) =
      if page.va = va then some s.brk else s.findPage va (s.spt t) := by
    intro va
    have hold : s.asked.findPage va (s.spt t) = s.findPage va (s.spt t) := Vm.findPage_congr (by rfl) _
    rw [hnew.asked.findPage]
    split
    · rfl
    · exact hold
  refine ⟨fun p hpm => ?_, fun va hva => ?_, fun p hpm => ?_, by simp, fun q hq => ?_, hnew.asked.addPage,
    Nat.le_succ s.brk⟩
  · rw [List.mem_singleton.mp hpm]
    refine ⟨s.brk, by rw [hfind, if_pos rfl], ?_⟩
    have hbrk : (s.asked.addPage t page).pages s.brk = some page := update_self s.brk _ s.pages
    rw [hbrk]
    rfl
  · rw [hfind, if_neg (hva page List.mem_cons_self).symm]
  · rw [List.mem_singleton.mp hpm]
    exact not_not.mp hp
  · have hsame : (s.asked.addPage t page).pages q = s.pages q := update_of_ne hq.ne _ s.pages
    rw [hsame]

/-- The first page of the stack, as it is added. -/
def stackPage : Page := uninitNew (USER_STACK - BitVec.ofNat 64 PGSIZE) false .anon none true

theorem setupStack_adds (hnew : s.NewPages t) (hrun : (setupStack t).run s = .ok (true, s')) :
    AddsPages t [stackPage] s s' := by
  have hal : Aligned stackPage.va := by decide
  obtain ⟨added, s₁, halloc, hclaim⟩ := Prog.of_run_bind hrun
  cases added with
  | false => cases hclaim
  | true =>
    rw [if_pos rfl] at hclaim
    obtain ⟨hp, h0, rfl⟩ := of_vmAllocPage_true anon_ne_uninit hal halloc
    have haccess := (claiming_vmClaimPage _).run Claiming.refl Claiming.trans hclaim
    exact (AddsPages.addPage hnew hp).trans (.of_accessing hnew.asked.addPage haccess.toAccessing)

/-- The header of the file. -/
def ehdrOf (disk : Nat → Sector) (start : Nat) : Ehdr := .ofBytes (fileBytes disk start 0 EHDR_SIZE)

/-- The headers that are read. -/
def readHeaders (disk : Nat → Sector) (start : Nat) : List Phdr :=
  (List.range (ehdrOf disk start).ePhnum.toNat).map (phdrAt disk start (ehdrOf disk start).ePhoff)

/-- What `load` has added when it returns true. -/
theorem loadElf_adds (hnew : s.NewPages t) (hthere : FileThere s f file inode) (hpos : file.pos = 0)
    (hrun : (loadElf t f).run s = .ok (true, s')) :
    AddsPages t ((readHeaders s.fs.disk inode.data.start).flatMap (recordedPages f) ++ [stackPage]) s s' ∧
      ∀ i < (ehdrOf s.fs.disk inode.data.start).ePhnum.toNat,
        0 ≤ phdrOffset (ehdrOf s.fs.disk inode.data.start).ePhoff i ∧
        phdrOffset (ehdrOf s.fs.disk inode.data.start).ePhoff i + PHDR_SIZE ≤ inode.data.length ∧
        ((phdrAt s.fs.disk inode.data.start (ehdrOf s.fs.disk inode.data.start).ePhoff i).pType = PT_LOAD →
          validateSegment (phdrAt s.fs.disk inode.data.start (ehdrOf s.fs.disk inode.data.start).ePhoff i)
            inode.data.length = true) := by
  rw [loadElf, Prog.run_bind_ok (run_liftFs (run_fileRead hthere.files hthere.inodes hthere.onDisk EHDR_SIZE)), hpos] at hrun
  set cnt := transferred inode.data EHDR_SIZE 0 with hcnt
  set s₁ : Vm := { s with fs := s.fs.setFile f (some { file with pos := 0 + cnt }) } with hs₁
  split at hrun
  · cases hrun
  next hlen =>
  rw [not_not, length_fileBytes] at hlen
  have hehdr : Ehdr.ofBytes (fileBytes s.fs.disk inode.data.start 0 cnt) = ehdrOf s.fs.disk inode.data.start := by
    rw [hlen]
    rfl
  rw [hehdr] at hrun
  dsimp only at hrun
  split at hrun
  · cases hrun
  obtain ⟨loaded, s₂, hheaders, hstack⟩ := Prog.of_run_bind hrun
  cases loaded with
  | false => cases hstack
  | true =>
    rw [if_pos rfl] at hstack
    have hnew₁ : s₁.NewPages t := hnew
    have hthere₁ : FileThere s₁ f { file with pos := 0 + cnt } inode :=
      ⟨update_self _ _ _, hthere.inodes, hthere.onDisk.congr rfl⟩
    obtain ⟨hadds, hoffsets⟩ := loadHeaders_adds hnew₁ hthere₁ hheaders
    have hfs := AddsPages.of_fs hnew s₁.fs
    refine ⟨?_, fun i hi => hoffsets i (Nat.zero_le i) (by omega)⟩
    rw [readHeaders, List.flatMap_map, List.range_eq_range']
    exact (hfs.trans hadds).trans (setupStack_adds hadds.new hstack)

end

end Pintos
