import Mathlib.Data.List.AList
import Pintos.Filesys.Inode
import Pintos.Threads.Types
import Pintos.Threads.Vaddr

/-!
# The state of virtual memory

What `vm/` keeps, and what a process keeps of its files. A page of the user pool is known by its number in the
pool. The page tables are maps from the addresses of pages to entries, for a machine whose frames lie below 4 GB:
`Pools.pml4SetFlag` loses the upper bits of an address. A `struct page` and a `struct frame` are known by pointers; freed
memory is not used again.

`allocs` tells for each request of memory to come whether it is granted. Pages of the user pool are
not asked of it.
-/

namespace Pintos

open Function LittleEndian

/-- The number of a page in the user pool. -/
abbrev Kva := Nat

abbrev PagePtr := Nat
abbrev FramePtr := Nat

/-- `VM_TYPE` of an `enum vm_type`. -/
inductive VmType where
  | uninit
  | anon
  | file
  deriving DecidableEq, Repr

/-- `struct file_info`. -/
structure FileInfo where
  file : Option FilePtr
  ofs : Int
  readBytes : Nat
  pageReadBytes : Nat
  pageZeroBytes : Nat
  deriving DecidableEq, Repr

/-- `struct page`. The members of the union lie at the same place, so that `init`, `type` and `aux` are
still there after a page is initialized. -/
structure Page where
  /-- `operations->type`. -/
  operations : VmType
  va : Vaddr
  frame : Option FramePtr
  writable : Bool
  /-- `init` is `lazy_load_segment`, or `NULL`. -/
  init : Bool
  type : VmType
  /-- What `aux` points to; each page has its own. -/
  aux : Option FileInfo
  swapSlot : BitVec 32
  deriving DecidableEq, Repr

/-- `struct frame`. -/
structure Frame where
  kva : Kva
  page : Option PagePtr
  deriving DecidableEq, Repr

/-- An entry of a page table. -/
structure Pte where
  kva : Kva
  present : Bool
  writable : Bool
  dirty : Bool
  deriving DecidableEq, Repr

/-- The tables below entry 0 of a thread's `pml4`, or those that all threads share. -/
abbrev Space := Option Tid

abbrev PageTable := AList fun _ : Vaddr => Pte

/-- Why a call does not return. -/
inductive VmFault where
  /-- The process exits. -/
  | exit (status : Int)
  /-- `ASSERT (bitmap_all (pool->used_map, page_idx, page_cnt))`. -/
  | release
  /-- An `ASSERT` of `pml4_set_page`. -/
  | setPage
  /-- Another failed `ASSERT`, or a `PANIC`. -/
  | assertion
  /-- The driver refuses the sector of the swap disk. -/
  | swapDisk
  /-- A null pointer is followed, which is a page fault in the kernel. -/
  | null
  /-- A pointer to freed memory is followed. -/
  | dangling
  | fs (e : FsFault)
  /-- The step is not possible. -/
  | disabled
  deriving DecidableEq, Repr

structure Vm where
  fs : FileSys
  userPool : Bitmap
  mem : Kva → Sector
  tables : Space → PageTable
  /-- The supplemental page tables, in the order of their hash tables. -/
  spt : Tid → List PagePtr
  pages : PagePtr → Option Page
  frames : FramePtr → Option Frame
  frameList : List FramePtr
  swapDisk : Nat → Sector
  /-- `disk_size (swap_disk)`. -/
  swapSize : Nat
  swapBitmap : Bitmap
  /-- The holder of `swap_lock`. -/
  swapLock : Option Tid
  /-- The next pointer the allocator returns. -/
  brk : Nat
  allocs : Nat → Bool
  /-- What is in the register of the result when `file_backed_initializer` ends without a `return`. -/
  leftover : Bool
  /-- The open files of a process. -/
  fdt : Tid → Nat → Option FilePtr
  fdIndex : Tid → Nat
  runnFile : Tid → Option FilePtr
  /-- The holder of `file_lock`. -/
  fileLock : Option Tid
  /-- What the kernel has in memory, from `KERN_BASE` up to `KERN_BASE + memEnd`. That the pages of the user
  pool lie there too is left out. -/
  kernel : Vaddr → Byte
  memEnd : Nat
  /-- What the keyboard sends. -/
  input : Nat → Byte
  /-- History: the bytes of user buffers that the kernel stored to or loaded from. -/
  touched : List Vaddr

/-- Each action ends where the thread may wait. -/
abbrev VmProg := Prog VmFault Vm

/-- The state that is left. -/
def resultState {α : Type} : Except VmFault (α × Vm) → Except VmFault Vm
  | .error e => .error e
  | .ok (_, s) => .ok s

theorem resultState_ok {α : Type} {s' : Vm} {r : Except VmFault (α × Vm)} (h : resultState r = .ok s') :
    ∃ a, r = .ok (a, s') := by
  unfold resultState at h
  split at h
  · cases h
  · cases h
    exact ⟨_, rfl⟩

/-- A call into `filesys/`. -/
def liftFs {α : Type} (p : FsProg α) : VmProg α :=
  p.zoom Vm.fs (fun s fs => { s with fs := fs }) .fs

/-- What a call into `filesys/` did. -/
theorem of_liftFs {α : Type} {p : FsProg α} {a : α} {s s' : Vm} (h : (liftFs p).run s = .ok (a, s')) :
    ∃ fs, p.run s.fs = .ok (a, fs) ∧ s' = { s with fs := fs } := by
  have hrun := Prog.run_zoom Vm.fs (fun s fs => { s with fs := fs }) VmFault.fs (fun _ _ => rfl) (fun _ _ _ => rfl)
    (fun _ => rfl) p s
  rw [liftFs, hrun] at h
  split at h
  · cases h
  · next fs hp =>
    cases h
    exact ⟨fs, hp, rfl⟩

/-- The tables that translate an address for a thread. -/
def space (t : Tid) (va : Vaddr) : Space := if PML4 va = 0 then some t else none

namespace Vm

/-- After `vm_init`, with a swap disk of `swapSize` sectors. There is no page. -/
def boot (fs : FileSys) (userPool : Bitmap) (swapSize : Nat) : Vm where
  fs := fs
  userPool := userPool
  mem := fun _ _ => 0
  tables := fun _ => ∅
  spt := fun _ => []
  pages := fun _ => none
  frames := fun _ => none
  frameList := []
  swapDisk := fun _ _ => 0
  swapSize := swapSize
  swapBitmap := List.replicate (swapSize / 8) false
  swapLock := none
  brk := 0
  allocs := fun _ => true
  leftover := true
  fdt := fun _ _ => none
  fdIndex := fun _ => 2
  runnFile := fun _ => none
  fileLock := none
  kernel := fun _ => 0
  memEnd := 2 ^ 24
  input := fun _ => 0
  touched := []

def setPage (s : Vm) (q : PagePtr) (page : Option Page) : Vm := { s with pages := update s.pages q page }

def setFrame (s : Vm) (f : FramePtr) (frame : Option Frame) : Vm :=
  { s with frames := update s.frames f frame }

def setSpt (s : Vm) (t : Tid) (spt : List PagePtr) : Vm := { s with spt := update s.spt t spt }

/-- The entry for a page in the tables of a thread. -/
def pte (s : Vm) (t : Tid) (va : Vaddr) : Option Pte := (s.tables (space t va)).lookup va

def setPte (s : Vm) (t : Tid) (va : Vaddr) (pte : Pte) : Vm :=
  { s with tables := update s.tables (space t va) ((s.tables (space t va)).insert va pte) }

/-- A present entry is marked not present. -/
def clearPte (s : Vm) (t : Tid) (va : Vaddr) : Vm :=
  match s.pte t va with
  | none => s
  | some pte => if pte.present then s.setPte t va { pte with present := false } else s

/-- The bytes from the start of a page on. -/
def bytes (s : Vm) (kva : Kva) (cnt : Nat) : List Byte := sectorBytes (s.mem kva) 0 cnt

/-- Bytes are copied into a page. -/
def copy (s : Vm) (kva : Kva) (ofs : Nat) (bytes : List Byte) : Vm :=
  { s with mem := update s.mem kva (splice (s.mem kva) ofs bytes) }

end Vm

/-- A request of memory from the kernel's allocators. -/
def vmAlloc : VmProg Bool :=
  Prog.lift fun s => .ok (s.allocs 0, { s with allocs := fun n => s.allocs (n + 1) })

/-- `page->...`. -/
def derefPage (q : PagePtr) : VmProg Page :=
  Prog.read fun s =>
    match s.pages q with
    | none => .error .dangling
    | some page => .ok page

/-- `frame->...`. -/
def derefFrame : Option FramePtr → VmProg Frame
  | none => Prog.fail .null
  | some f =>
    Prog.read fun s =>
      match s.frames f with
      | none => .error .dangling
      | some frame => .ok frame

def updatePage (q : PagePtr) (g : Page → Page) : VmProg Unit :=
  Prog.write fun s =>
    match s.pages q with
    | none => .error .dangling
    | some page => .ok (s.setPage q (some (g page)))

def updateFrame (f : FramePtr) (g : Frame → Frame) : VmProg Unit :=
  Prog.write fun s =>
    match s.frames f with
    | none => .error .dangling
    | some frame => .ok (s.setFrame f (some (g frame)))

section

variable {s s' : Vm} {q : PagePtr} {f : FramePtr} {u : Unit}

theorem Vm.tables_clearPte_congr {t : Tid} {va : Vaddr} (h : s'.tables = s.tables) :
    (s'.clearPte t va).tables = (s.clearPte t va).tables := by
  unfold clearPte pte setPte
  rw [h]
  split
  · exact h
  · split
    · rfl
    · exact h

/-- Only the tables change. -/
theorem Vm.clearPte_eq (s : Vm) (t : Tid) (va : Vaddr) :
    s.clearPte t va = { s with tables := (s.clearPte t va).tables } := by
  unfold clearPte
  split
  · rfl
  · split <;> rfl

theorem of_derefPage {page : Page} (h : (derefPage q).run s = .ok (page, s')) :
    s.pages q = some page ∧ s = s' := by
  obtain ⟨hg, hs⟩ := Prog.of_run_read h
  refine ⟨?_, hs⟩
  split at hg
  · cases hg
  · next hq =>
    cases hg
    exact hq

theorem of_derefFrame {fp : Option FramePtr} {frame : Frame} (h : (derefFrame fp).run s = .ok (frame, s')) :
    ∃ f, fp = some f ∧ s.frames f = some frame ∧ s = s' := by
  cases fp with
  | none =>
    rw [derefFrame, Prog.run_fail] at h
    cases h
  | some f =>
    obtain ⟨hg, hs⟩ := Prog.of_run_read h
    refine ⟨f, rfl, ?_, hs⟩
    split at hg
    · cases hg
    · next hf =>
      cases hg
      exact hf

theorem of_updatePage {g : Page → Page} (h : (updatePage q g).run s = .ok (u, s')) :
    ∃ page, s.pages q = some page ∧ s' = s.setPage q (some (g page)) := by
  have hg := Prog.of_run_write h
  split at hg
  · cases hg
  · next page hq =>
    cases hg
    exact ⟨page, hq, rfl⟩

theorem of_updateFrame {g : Frame → Frame} (h : (updateFrame f g).run s = .ok (u, s')) :
    ∃ frame, s.frames f = some frame ∧ s' = s.setFrame f (some (g frame)) := by
  have hg := Prog.of_run_write h
  split at hg
  · cases hg
  · next frame hf =>
    cases hg
    exact ⟨frame, hf, rfl⟩

end

/-! ## The user pool -/

/-- `palloc_get_page (PAL_USER)`. -/
def pallocGetUser : VmProg (Option Kva) :=
  Prog.lift fun s =>
    match bitmapScanAndFlip s.userPool 0 1 false with
    | (kva, userPool) => .ok (kva, { s with userPool := userPool })

/-- `palloc_free_page` of a page of the user pool. -/
def pallocFreeUser (kva : Kva) : VmProg Unit :=
  Prog.write fun s =>
    let s := { s with mem := update s.mem kva fun _ => 0xcc }
    if kva < s.userPool.length ∧ bitmapAll s.userPool kva 1 then
      .ok { s with userPool := bitmapSetMultiple s.userPool kva 1 false }
    else .error .release

/-! ## The page tables -/

/-- `pml4_set_page`. -/
def pml4SetPage (t : Tid) (upage : Vaddr) (kpage : Kva) (rw : Bool) : VmProg Bool :=
  if ¬ Aligned upage ∨ isUserVaddr upage = false then Prog.fail .setPage
  else do
    let walked ← vmAlloc
    if walked then do
      Prog.write fun s =>
        .ok (s.setPte t upage { kva := kpage, present := true, writable := rw, dirty := false })
      pure true
    else pure false

/-- `pml4_clear_page`. -/
def pml4ClearPage (t : Tid) (upage : Vaddr) : VmProg Unit :=
  if ¬ Aligned upage ∨ isUserVaddr upage = false then Prog.fail .assertion
  else Prog.write fun s => .ok (s.clearPte t upage)

theorem of_pml4ClearPage {t : Tid} {upage : Vaddr} {s s' : Vm} {u : Unit}
    (h : (pml4ClearPage t upage).run s = .ok (u, s')) :
    Aligned upage ∧ isUserVaddr upage = true ∧ s' = s.clearPte t upage := by
  unfold pml4ClearPage at h
  split at h
  · rw [Prog.run_fail] at h
    cases h
  · next hc =>
    push Not at hc
    obtain ⟨hal, hu⟩ := hc
    have hg := Prog.of_run_write h
    cases hg
    exact ⟨hal, by simpa using hu, rfl⟩

/-- `pml4_is_dirty`. -/
def pml4IsDirty (t : Tid) (vpage : Vaddr) : VmProg Bool :=
  Prog.read fun s =>
    match s.pte t vpage with
    | none => .ok false
    | some pte => .ok pte.dirty

/-- `pml4_set_dirty`. -/
def pml4SetDirty (t : Tid) (vpage : Vaddr) (dirty : Bool) : VmProg Unit :=
  Prog.write fun s =>
    match s.pte t vpage with
    | none => .ok s
    | some pte => .ok (s.setPte t vpage { pte with dirty := dirty })

/-- The loop of `pml4_destroy` over the entries of its tables. -/
def destroyPtes : List Pte → VmProg Unit
  | [] => pure ()
  | pte :: rest =>
    if pte.present then do
      pallocFreeUser pte.kva
      destroyPtes rest
    else destroyPtes rest

/-- `pml4_destroy` of the tables of a thread. -/
def pml4Destroy (t : Tid) : VmProg Unit := do
  let table ← Prog.read fun s => .ok (s.tables (some t))
  destroyPtes (table.entries.map Sigma.snd)
  Prog.write fun s => .ok { s with tables := update s.tables (some t) ∅ }

end Pintos
