import Pintos.Vm.Vm

/-!
# The memory of a process

What `userprog/process.c` and `userprog/exception.c` do with pages: segments, the stack, mappings of
files, and the end of a process. `t` is the thread that runs.
-/

namespace Pintos

open Function

/-! ## Segments -/

/-- `ELF64_PHDR`. -/
structure Phdr where
  pType : BitVec 32
  pFlags : BitVec 32
  pOffset : BitVec 64
  pVaddr : BitVec 64
  pFilesz : BitVec 64
  pMemsz : BitVec 64
  deriving DecidableEq, Repr

def PT_LOAD : BitVec 32 := 1
def PT_DYNAMIC : BitVec 32 := 2
def PT_INTERP : BitVec 32 := 3
def PT_SHLIB : BitVec 32 := 5
def PF_W : BitVec 32 := 2

/-- `validate_segment`, with the length of the file. -/
def validateSegment (phdr : Phdr) (fileLength : Int) : Bool :=
  phdr.pOffset &&& PGMASK = phdr.pVaddr &&& PGMASK ∧
  phdr.pOffset ≤ BitVec.ofInt 64 fileLength ∧
  phdr.pFilesz ≤ phdr.pMemsz ∧
  phdr.pMemsz ≠ 0 ∧
  isUserVaddr phdr.pVaddr ∧
  isUserVaddr (phdr.pVaddr + phdr.pMemsz) ∧
  phdr.pVaddr ≤ phdr.pVaddr + phdr.pMemsz ∧
  PGSIZE ≤ phdr.pVaddr.toNat

/-- The loop of `load_segment`. -/
def loadPages (t : Tid) (file : FilePtr) (writable : Bool) :
    Nat → Int → Vaddr → Nat → Nat → VmProg Bool
  | 0, _, _, _, _ => pure true
  | fuel + 1, ofs, upage, readBytes, zeroBytes =>
    if readBytes = 0 ∧ zeroBytes = 0 then pure true
    else do
      let pageReadBytes := min readBytes PGSIZE
      let pageZeroBytes := PGSIZE - pageReadBytes
      let allocated ← vmAlloc
      if allocated then do
        let info : FileInfo :=
          { file := some file, ofs := ofs, readBytes := readBytes, pageReadBytes := pageReadBytes,
            pageZeroBytes := pageZeroBytes }
        let added ← vmAllocPage t .anon upage writable true (some info)
        if added then
          loadPages t file writable fuel (wrap32 (ofs + pageReadBytes)) (upage + BitVec.ofNat 64 PGSIZE)
            (readBytes - pageReadBytes) (zeroBytes - pageZeroBytes)
        else pure false
      else pure false

/-- `load_segment`. Each round takes a page from the sum of the two numbers. -/
def loadSegment (t : Tid) (file : FilePtr) (ofs : Int) (upage : Vaddr) (readBytes zeroBytes : BitVec 32)
    (writable : Bool) : VmProg Bool :=
  if (readBytes + zeroBytes).toNat % PGSIZE ≠ 0 ∨ ¬ Aligned upage ∨ ofs % PGSIZE ≠ 0 then
    Prog.fail .assertion
  else
    loadPages t file writable ((readBytes.toNat + zeroBytes.toNat) / PGSIZE) ofs upage readBytes.toNat
      zeroBytes.toNat

/-- `ROUND_UP (x, PGSIZE)`. -/
def roundUp (x : BitVec 64) : BitVec 64 := (x + 4095) / 4096 * 4096

/-- What `load` does with one program header. -/
def loadPhdr (t : Tid) (file : FilePtr) (fileLength : Int) (phdr : Phdr) : VmProg Bool :=
  if phdr.pType = PT_DYNAMIC ∨ phdr.pType = PT_INTERP ∨ phdr.pType = PT_SHLIB then pure false
  else if phdr.pType = PT_LOAD then
    if validateSegment phdr fileLength then
      let writable := decide (phdr.pFlags &&& PF_W ≠ 0)
      let filePage := phdr.pOffset &&& ~~~PGMASK
      let memPage := phdr.pVaddr &&& ~~~PGMASK
      let pageOffset := phdr.pVaddr &&& PGMASK
      let readBytes : BitVec 32 :=
        if 0 < phdr.pFilesz then (pageOffset + phdr.pFilesz).setWidth 32 else 0
      let zeroBytes : BitVec 32 :=
        (roundUp (pageOffset + phdr.pMemsz) - readBytes.setWidth 64).setWidth 32
      loadSegment t file (toInt32 (filePage.toNat % 2 ^ 32)) memPage readBytes zeroBytes writable
    else pure false
  else pure true

/-- The loop of `load` over the program headers. -/
def loadPhdrs (t : Tid) (file : FilePtr) (fileLength : Int) : List Phdr → VmProg Bool
  | [] => pure true
  | phdr :: rest => do
    let loaded ← loadPhdr t file fileLength phdr
    if loaded then loadPhdrs t file fileLength rest else pure false

/-- `setup_stack`. -/
def setupStack (t : Tid) : VmProg Bool := do
  let stackBottom := USER_STACK - BitVec.ofNat 64 PGSIZE
  let added ← vmAllocPage t .anon stackBottom true false none
  if added then vmClaimPage t stackBottom else pure false

/-- The part of `load` after the program headers are read. -/
def load (t : Tid) (file : FilePtr) (phdrs : List Phdr) : VmProg Bool := do
  let fileLength ← liftFs (fileLength file)
  let loaded ← loadPhdrs t file fileLength phdrs
  if loaded then setupStack t else pure false

/-! ## Mappings -/

/-- The loop of `mmap_load_segment`. -/
def mapPages (t : Tid) (file : Option FilePtr) (writable : Bool) : Nat → Int → Vaddr → Nat → VmProg Bool
  | 0, _, _, _ => pure true
  | fuel + 1, ofs, upage, readBytes =>
    if readBytes = 0 then pure true
    else do
      let pageReadBytes := min readBytes PGSIZE
      let pageZeroBytes := PGSIZE - pageReadBytes
      let allocated ← vmAlloc
      if allocated then do
        let info : FileInfo :=
          { file := file, ofs := ofs, readBytes := readBytes, pageReadBytes := pageReadBytes,
            pageZeroBytes := pageZeroBytes }
        let added ← vmAllocPage t .file upage writable true (some info)
        if added then
          mapPages t file writable fuel (wrap32 (ofs + pageReadBytes)) (upage + BitVec.ofNat 64 PGSIZE)
            (readBytes - pageReadBytes)
        else pure false
      else pure false

/-- `mmap_load_segment`. `length` is not used, and neither is it checked that there is a file. -/
def mmapLoadSegment (t : Tid) (file : FilePtr) (ofs : Int) (upage : Vaddr) (writable : Bool) : VmProg Bool := do
  let length ← liftFs (fileLength file)
  let allocated ← vmAlloc
  let file ← liftFs (fileReopen file allocated)
  mapPages t file writable length.toNat ofs upage length.toNat

/-- The loop of `do_munmap`. -/
def unmapPages (t : Tid) : Nat → Option PagePtr → Vaddr → Nat → VmProg Unit
  | 0, _, _, _ => pure ()
  | fuel + 1, page, addr, readBytes =>
    match page with
    | none => pure ()
    | some q =>
      if readBytes = 0 then pure ()
      else do
        Prog.write fun s => .ok (s.setSpt t ((s.spt t).erase q))
        vmDeallocPage t q
        let addr := addr + BitVec.ofNat 64 PGSIZE
        let page ← sptFindPage t addr
        unmapPages t fuel page addr (readBytes - PGSIZE)

/-- `do_munmap`. -/
def doMunmap (t : Tid) (addr : Vaddr) : VmProg Unit := do
  let found ← sptFindPage t addr
  match found with
  | none => pure ()
  | some q => do
    let page ← derefPage q
    if page.getType ≠ .file then pure ()
    else
      match page.aux with
      | none => Prog.fail .null
      | some info => unmapPages t info.readBytes (some q) addr info.readBytes

/-! ## The end of a process -/

/-- `process_cleanup`. -/
def processCleanup (t : Tid) : VmProg Unit := do
  supplementalPageTableKill t
  pml4Destroy t

end Pintos
