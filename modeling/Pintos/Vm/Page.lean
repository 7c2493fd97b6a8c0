import Pintos.Vm.Types

/-!
# The kinds of pages

`vm/uninit.c`, `vm/anon.c` and `vm/file.c`, and `lazy_load_segment` of `userprog/process.c`. `t` is the
thread that runs.
-/

namespace Pintos

open Function LittleEndian

/-! ## Lazy loading -/

/-- `file_seek`, which asserts that there is a file. -/
def lazySeek (info : FileInfo) : VmProg FilePtr :=
  match info.file with
  | none => Prog.fail (.fs .argument)
  | some file => do
    liftFs (fileSeek file info.ofs)
    pure file

def lazyLoadSegment (q : PagePtr) (aux : Option FileInfo) : VmProg Bool := do
  let page ← derefPage q
  let frame ← derefFrame page.frame
  match aux with
  | none => Prog.fail .null
  | some info => do
    let file ← lazySeek info
    let bytes ← liftFs (fileRead file info.pageReadBytes)
    Prog.write fun s => .ok (s.copy frame.kva 0 bytes)
    if bytes.length ≠ info.pageReadBytes then do
      pallocFreeUser frame.kva
      pure false
    else do
      Prog.write fun s => .ok (s.copy frame.kva info.pageReadBytes (List.replicate info.pageZeroBytes 0))
      pure true

/-! ## `vm/anon.c` -/

/-- `vm_anon_init`. The size of a larger disk is a negative `int`, and no bitmap of that many bits can be
allocated. -/
def vmAnonInit : VmProg Unit :=
  Prog.write fun s =>
    if s.swapSize < 2 ^ 31 then
      .ok { s with swapBitmap := List.replicate (s.swapSize / 8) false, swapLock := none }
    else .error .null

def acquireSwap (t : Tid) : VmProg Unit :=
  Prog.write fun s =>
    match s.swapLock with
    | some _ => .error .disabled
    | none => .ok { s with swapLock := some t }

def releaseSwap : VmProg Unit := Prog.write fun s => .ok { s with swapLock := none }

/-- `select_sector` accepts the sector number. -/
def Vm.Selects (s : Vm) (sector : Nat) : Prop := sector < s.swapSize ∧ sector < 2 ^ 28

instance (s : Vm) (sector : Nat) : Decidable (s.Selects sector) := inferInstanceAs (Decidable (_ ∧ _))

/-- The sector `i` of a slot, as a `disk_sector_t`. -/
def swapSector (slot : BitVec 32) (i : Nat) : Nat := (slot.toNat * 8 + i) % 2 ^ 32

/-- The loop of `anon_swap_in`, from sector `i` on. -/
def readSwap (slot : BitVec 32) (kva : Kva) : Nat → Nat → VmProg Unit
  | _, 0 => pure ()
  | i, k + 1 => do
    Prog.write fun s =>
      if s.Selects (swapSector slot i) then
        .ok (s.copy kva (DISK_SECTOR_SIZE * i)
          (sectorBytes (s.swapDisk (swapSector slot i)) 0 DISK_SECTOR_SIZE))
      else .error .swapDisk
    readSwap slot kva (i + 1) k

/-- The loop of `anon_swap_out`. -/
def writeSwap (slot : BitVec 32) (kva : Kva) : Nat → Nat → VmProg Unit
  | _, 0 => pure ()
  | i, k + 1 => do
    Prog.write fun s =>
      if s.Selects (swapSector slot i) then
        let bytes := sectorBytes (s.mem kva) (DISK_SECTOR_SIZE * i) DISK_SECTOR_SIZE
        .ok { s with swapDisk := update s.swapDisk (swapSector slot i) (sectorOf bytes) }
      else .error .swapDisk
    writeSwap slot kva (i + 1) k

def anonInitializer (q : PagePtr) : VmProg Bool := do
  updatePage q fun page => { page with operations := .anon, swapSlot := -1 }
  pure true

def anonSwapIn (t : Tid) (q : PagePtr) : VmProg Bool := do
  let page ← derefPage q
  let frame ← derefFrame page.frame
  acquireSwap t
  let page ← derefPage q
  readSwap page.swapSlot frame.kva 0 8
  Prog.write fun s =>
    if page.swapSlot.toNat < s.swapBitmap.length then
      .ok { s with swapBitmap := s.swapBitmap.set page.swapSlot.toNat false }
    else .error .assertion
  releaseSwap
  updatePage q fun page => { page with swapSlot := -1 }
  pure true

/-- The slot that `bitmap_scan_and_flip` finds, as a `disk_sector_t`. `BITMAP_ERROR` does not fit, and is
not recognized. -/
def takeSlot : VmProg (BitVec 32) :=
  Prog.lift fun s =>
    match bitmapScanAndFlip s.swapBitmap 0 1 false with
    | (none, _) => .ok (-1, s)
    | (some slot, swapBitmap) => .ok (BitVec.ofNat 32 slot, { s with swapBitmap := swapBitmap })

def anonSwapOut (t : Tid) (q : PagePtr) : VmProg Bool := do
  let page ← derefPage q
  let frame ← derefFrame page.frame
  acquireSwap t
  let slot ← takeSlot
  writeSwap slot frame.kva 0 8
  updatePage q fun page => { page with swapSlot := slot }
  pml4ClearPage t (pgRoundDown page.va)
  releaseSwap
  pure true

section

variable {s s' : Vm} {t : Tid} {q : PagePtr} {u : Unit} {r : Bool} {slot : BitVec 32} {kva : Kva}

theorem of_acquireSwap (h : (acquireSwap t).run s = .ok (u, s')) :
    s.swapLock = none ∧ s' = { s with swapLock := some t } := by
  have hg := Prog.of_run_write h
  split at hg
  · cases hg
  · next hl =>
    cases hg
    exact ⟨hl, rfl⟩

theorem of_readSwap {i k : Nat} (h : (readSwap slot kva i k).run s = .ok (u, s')) :
    (∃ mem, s' = { s with mem := mem }) ∧ ∀ j, i ≤ j → j < i + k → s.Selects (swapSector slot j) := by
  induction k generalizing s i with
  | zero =>
    rw [readSwap] at h
    cases h
    exact ⟨⟨_, rfl⟩, fun j hj hlt => by omega⟩
  | succ k ih =>
    rw [readSwap] at h
    obtain ⟨_, s₁, h₁, h₂⟩ := Prog.of_run_bind h
    have hg := Prog.of_run_write h₁
    split at hg
    · next hsel =>
      cases hg
      obtain ⟨⟨mem, hs⟩, hrest⟩ := ih h₂
      refine ⟨⟨mem, hs⟩, fun j hj hlt => ?_⟩
      rcases Nat.eq_or_lt_of_le hj with rfl | hj
      · exact hsel
      · exact hrest j hj (by omega)
    · cases hg

theorem of_writeSwap {i k : Nat} (h : (writeSwap slot kva i k).run s = .ok (u, s')) :
    (∃ disk, s' = { s with swapDisk := disk }) ∧ ∀ j, i ≤ j → j < i + k → s.Selects (swapSector slot j) := by
  induction k generalizing s i with
  | zero =>
    rw [writeSwap] at h
    cases h
    exact ⟨⟨_, rfl⟩, fun j hj hlt => by omega⟩
  | succ k ih =>
    rw [writeSwap] at h
    obtain ⟨_, s₁, h₁, h₂⟩ := Prog.of_run_bind h
    have hg := Prog.of_run_write h₁
    split at hg
    · next hsel =>
      cases hg
      obtain ⟨⟨disk, hs⟩, hrest⟩ := ih h₂
      refine ⟨⟨disk, hs⟩, fun j hj hlt => ?_⟩
      rcases Nat.eq_or_lt_of_le hj with rfl | hj
      · exact hsel
      · exact hrest j hj (by omega)
    · cases hg

theorem of_takeSlot (h : takeSlot.run s = .ok (slot, s')) :
    (slot = -1 ∧ s = s') ∨
      ∃ i, bitmapScan s.swapBitmap 0 1 false = some i ∧ slot = BitVec.ofNat 32 i ∧
        s' = { s with swapBitmap := s.swapBitmap.set i true } := by
  rw [takeSlot, Prog.run_lift, bitmapScanAndFlip] at h
  cases hscan : bitmapScan s.swapBitmap 0 1 false with
  | none =>
    rw [hscan] at h
    cases h
    exact .inl ⟨rfl, rfl⟩
  | some i =>
    rw [hscan] at h
    cases h
    exact .inr ⟨i, rfl, rfl, rfl⟩

/-- The driver refuses the sectors of the slot that stands for `BITMAP_ERROR`. -/
theorem not_selects_error (s : Vm) : ¬ s.Selects (swapSector (-1) 0) := by
  have h : swapSector (-1) 0 = 2 ^ 32 - 8 := by decide
  rw [h]
  intro hsel
  have hlt := hsel.2
  omega

/-- What `anon_swap_out` did: the first free slot is taken, and the entry of the page is cleared in the
tables of the thread that runs. -/
theorem of_anonSwapOut (h : (anonSwapOut t q).run s = .ok (r, s')) :
    ∃ page f frame i disk, s.pages q = some page ∧ page.frame = some f ∧ s.frames f = some frame ∧
      s.swapLock = none ∧ bitmapScan s.swapBitmap 0 1 false = some i ∧
      s.Selects (swapSector (BitVec.ofNat 32 i) 0) ∧ r = true ∧
      s' = { s with
        swapBitmap := s.swapBitmap.set i true
        swapDisk := disk
        pages := update s.pages q (some { page with swapSlot := BitVec.ofNat 32 i })
        tables := (s.clearPte t (pgRoundDown page.va)).tables } := by
  unfold anonSwapOut at h
  obtain ⟨page, s1, h₁, h⟩ := Prog.of_run_bind h
  obtain ⟨hpage, rfl⟩ := of_derefPage h₁
  obtain ⟨frame, s2, h₁, h⟩ := Prog.of_run_bind h
  obtain ⟨f, hf, hframe, rfl⟩ := of_derefFrame h₁
  obtain ⟨_, s3, h₁, h⟩ := Prog.of_run_bind h
  obtain ⟨hlock, rfl⟩ := of_acquireSwap h₁
  obtain ⟨slot, s4, h₁, h⟩ := Prog.of_run_bind h
  obtain ⟨_, s5, h₂, h⟩ := Prog.of_run_bind h
  obtain ⟨⟨disk, rfl⟩, hsel⟩ := of_writeSwap h₂
  rcases of_takeSlot h₁ with ⟨rfl, rfl⟩ | ⟨i, hscan, rfl, rfl⟩
  · exact absurd (hsel 0 (by omega) (by omega)) (not_selects_error _)
  · obtain ⟨_, s6, h₁, h⟩ := Prog.of_run_bind h
    obtain ⟨page', hpage', rfl⟩ := of_updatePage h₁
    obtain rfl : page = page' := Option.some.inj (hpage.symm.trans hpage')
    obtain ⟨_, s7, h₁, h⟩ := Prog.of_run_bind h
    obtain ⟨-, -, rfl⟩ := of_pml4ClearPage h₁
    obtain ⟨_, s8, h₁, h⟩ := Prog.of_run_bind h
    have hrel := Prog.of_run_write h₁
    cases hrel
    cases h
    refine ⟨page, f, frame, i, disk, hpage, hf, hframe, hlock, hscan, hsel 0 (by omega) (by omega), rfl, ?_⟩
    rw [Vm.clearPte_eq, hlock]
    simp only [Vm.setPage, Vm.mk.injEq, true_and, and_true]
    exact Vm.tables_clearPte_congr rfl

/-- What `anon_swap_in` did: the slot is given back. -/
theorem of_anonSwapIn (h : (anonSwapIn t q).run s = .ok (r, s')) :
    ∃ page f frame mem, s.pages q = some page ∧ page.frame = some f ∧ s.frames f = some frame ∧
      s.swapLock = none ∧ s.Selects (swapSector page.swapSlot 0) ∧
      page.swapSlot.toNat < s.swapBitmap.length ∧ r = true ∧
      s' = { s with
        mem := mem
        swapBitmap := s.swapBitmap.set page.swapSlot.toNat false
        pages := update s.pages q (some { page with swapSlot := -1 }) } := by
  unfold anonSwapIn at h
  obtain ⟨page, s1, h₁, h⟩ := Prog.of_run_bind h
  obtain ⟨hpage, rfl⟩ := of_derefPage h₁
  obtain ⟨frame, s2, h₁, h⟩ := Prog.of_run_bind h
  obtain ⟨f, hf, hframe, rfl⟩ := of_derefFrame h₁
  obtain ⟨_, s3, h₁, h⟩ := Prog.of_run_bind h
  obtain ⟨hlock, rfl⟩ := of_acquireSwap h₁
  obtain ⟨page', s4, h₁, h⟩ := Prog.of_run_bind h
  obtain ⟨hpage', rfl⟩ := of_derefPage h₁
  obtain rfl : page = page' := Option.some.inj (hpage.symm.trans hpage')
  obtain ⟨_, s5, h₁, h⟩ := Prog.of_run_bind h
  obtain ⟨⟨mem, rfl⟩, hsel⟩ := of_readSwap h₁
  obtain ⟨_, s6, h₁, h⟩ := Prog.of_run_bind h
  have hset := Prog.of_run_write h₁
  split at hset
  · next hlt =>
    cases hset
    obtain ⟨_, s7, h₁, h⟩ := Prog.of_run_bind h
    have hrel := Prog.of_run_write h₁
    cases hrel
    obtain ⟨_, s8, h₁, h⟩ := Prog.of_run_bind h
    obtain ⟨page', hpage', rfl⟩ := of_updatePage h₁
    obtain rfl : page = page' := Option.some.inj (hpage.symm.trans hpage')
    cases h
    refine ⟨page, f, frame, mem, hpage, hf, hframe, hlock, hsel 0 (by omega) (by omega), hlt, rfl, ?_⟩
    rw [hlock]
    rfl
  · cases hset

end

def anonDestroy (q : PagePtr) : VmProg Unit := do
  let page ← derefPage q
  match page.frame with
  | none => pure ()
  | some f => do
    let _ ← derefFrame (some f)
    Prog.write fun s => .ok { s with frameList := s.frameList.erase f }
    updateFrame f fun frame => { frame with page := none }
    updatePage q fun page => { page with frame := none }

/-- What `anon_destroy` did: a frame is left to nobody. -/
theorem of_anonDestroy {s s' : Vm} {q : PagePtr} {u : Unit} (h : (anonDestroy q).run s = .ok (u, s')) :
    ∃ page, s.pages q = some page ∧
      ((page.frame = none ∧ s' = s) ∨
        ∃ f frame, page.frame = some f ∧ s.frames f = some frame ∧
          s' = { s with
            frameList := s.frameList.erase f
            frames := update s.frames f (some { frame with page := none })
            pages := update s.pages q (some { page with frame := none }) }) := by
  unfold anonDestroy at h
  obtain ⟨page, s1, h₁, h⟩ := Prog.of_run_bind h
  obtain ⟨hpage, rfl⟩ := of_derefPage h₁
  refine ⟨page, hpage, ?_⟩
  split at h
  · next hf =>
    cases h
    exact .inl ⟨hf, rfl⟩
  · next f hf =>
    obtain ⟨frame, s2, h₁, h⟩ := Prog.of_run_bind h
    obtain ⟨f', hff', hframe, rfl⟩ := of_derefFrame h₁
    obtain rfl := Option.some.inj hff'
    obtain ⟨_, s3, h₁, h⟩ := Prog.of_run_bind h
    have hlist := Prog.of_run_write h₁
    cases hlist
    obtain ⟨_, s4, h₁, h⟩ := Prog.of_run_bind h
    obtain ⟨frame', hframe', rfl⟩ := of_updateFrame h₁
    obtain rfl : frame = frame' := Option.some.inj (hframe.symm.trans hframe')
    obtain ⟨page', hpage', rfl⟩ := of_updatePage h
    obtain rfl : page = page' := Option.some.inj (hpage.symm.trans hpage')
    exact .inr ⟨f, frame, hf, hframe, rfl⟩

/-! ## `vm/file.c` -/

/-- There is no `return`: the result is what the register holds. -/
def fileBackedInitializer (q : PagePtr) : VmProg Bool := do
  updatePage q fun page => { page with operations := .file }
  Prog.read fun s => .ok s.leftover

def fileBackedSwapIn (q : PagePtr) : VmProg Bool := do
  let page ← derefPage q
  let _ ← lazyLoadSegment q page.aux
  pure true

/-- The bytes of the page are written to its file. -/
def writeBack (info : FileInfo) (kva : Kva) : VmProg Unit :=
  match info.file with
  | none => Prog.fail .null
  | some file => do
    let bytes ← Prog.read fun s => .ok (s.bytes kva info.pageReadBytes)
    let _ ← liftFs (fileWriteAt file (fun _ => bytes) info.pageReadBytes info.ofs.toNat)
    pure ()

/-- A page of a file is written back when its entry for the address is dirty. -/
def writeDirty (t : Tid) (page : Page) (va : Vaddr) : VmProg Unit :=
  match page.aux with
  | none => pure ()
  | some info => do
    let dirty ← pml4IsDirty t va
    if dirty then do
      let frame ← derefFrame page.frame
      writeBack info frame.kva
    else pure ()

def fileBackedSwapOut (t : Tid) (q : PagePtr) : VmProg Bool := do
  let page ← derefPage q
  writeDirty t page (pgRoundDown page.va)
  pml4SetDirty t (pgRoundDown page.va) false
  pml4ClearPage t (pgRoundDown page.va)
  pure true

def fileBackedDestroy (t : Tid) (q : PagePtr) : VmProg Unit := do
  let page ← derefPage q
  writeDirty t page page.va
  pml4ClearPage t (pgRoundDown page.va)
  match page.frame with
  | none => pure ()
  | some f => do
    let _ ← derefFrame (some f)
    Prog.write fun s => .ok { s with frameList := s.frameList.erase f }
    Prog.write fun s => .ok (s.setFrame f none)

/-! ## `vm/uninit.c` -/

def uninitNew (va : Vaddr) (init : Bool) (type : VmType) (aux : Option FileInfo) (writable : Bool) : Page where
  operations := .uninit
  va := va
  frame := none
  writable := writable
  init := init
  type := type
  aux := aux
  swapSlot := 0

/-- `page_initializer` of a page of the type. -/
def pageInitializer (q : PagePtr) : VmType → VmProg Bool
  | .uninit => Prog.fail .null
  | .anon => anonInitializer q
  | .file => fileBackedInitializer q

/-- `uninit_initialize`: the initializer of the type, and then that of the page. -/
def uninitInitialize (q : PagePtr) : VmProg Bool := do
  let page ← derefPage q
  let initialized ← pageInitializer q page.type
  if initialized then
    if page.init then lazyLoadSegment q page.aux else pure true
  else pure false

/-! ## `page->operations` -/

def swapIn (t : Tid) (q : PagePtr) : VmProg Bool := do
  let page ← derefPage q
  match page.operations with
  | .uninit => uninitInitialize q
  | .anon => anonSwapIn t q
  | .file => fileBackedSwapIn q

/-- `uninit_ops` has no `swap_out`. -/
def swapOut (t : Tid) (q : PagePtr) : VmProg Bool := do
  let page ← derefPage q
  match page.operations with
  | .uninit => Prog.fail .null
  | .anon => anonSwapOut t q
  | .file => fileBackedSwapOut t q

/-- `uninit_destroy` frees `aux` only. -/
def destroy (t : Tid) (q : PagePtr) : VmProg Unit := do
  let page ← derefPage q
  match page.operations with
  | .uninit => pure ()
  | .anon => anonDestroy q
  | .file => fileBackedDestroy t q

end Pintos
