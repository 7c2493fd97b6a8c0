import Pintos.Vm.Page

/-!
# `vm/vm.c`

Supplemental page tables, frames and page faults. `t` is the thread that runs.
-/

namespace Pintos

open Function

/-! ## Supplemental page tables -/

/-- The first page of the list with the address. -/
def Vm.findPage (s : Vm) (va : Vaddr) : List PagePtr → Option PagePtr
  | [] => none
  | q :: rest =>
    match s.pages q with
    | none => s.findPage va rest
    | some page => if page.va = va then some q else s.findPage va rest

def sptFindPage (t : Tid) (va : Vaddr) : VmProg (Option PagePtr) :=
  Prog.read fun s => .ok (s.findPage (pgRoundDown va) (s.spt t))

/-- `vm_alloc_page_with_initializer`. -/
def vmAllocPage (t : Tid) (type : VmType) (upage : Vaddr) (writable init : Bool) (aux : Option FileInfo) :
    VmProg Bool :=
  if type = .uninit then Prog.fail .assertion
  else do
    let found ← sptFindPage t upage
    match found with
    | some _ => pure false
    | none => do
      let allocated ← vmAlloc
      if allocated then
        Prog.lift fun s =>
          let page := uninitNew upage init type aux writable
          -- `hash_insert` compares the addresses themselves
          match s.findPage upage (s.spt t) with
          | some _ => .ok (false, { s.setPage s.brk (some page) with brk := s.brk + 1 })
          | none =>
            .ok (true, { (s.setPage s.brk (some page)).setSpt t (s.brk :: s.spt t) with brk := s.brk + 1 })
      else pure false

/-- `vm_dealloc_page`. -/
def vmDeallocPage (t : Tid) (q : PagePtr) : VmProg Unit := do
  destroy t q
  Prog.write fun s => .ok (s.setPage q none)

/-- `page_get_type`. -/
def Page.getType (page : Page) : VmType :=
  match page.operations with
  | .uninit => page.type
  | .anon => .anon
  | .file => .file

/-! ## Frames -/

/-- `vm_get_victim`: `list_front` asserts that the list is not empty. -/
def vmGetVictim : VmProg FramePtr :=
  Prog.read fun s =>
    match s.frameList with
    | [] => .error .assertion
    | f :: _ => .ok f

/-- `swap_out (victim->page)`. -/
def swapOutVictim (t : Tid) (victim : FramePtr) : VmProg Bool := do
  let frame ← derefFrame (some victim)
  match frame.page with
  | none => Prog.fail .null
  | some q => swapOut t q

/-- What `vm_evict_frame` does after `swap_out`. -/
def takeVictim (victim : FramePtr) (swapped : Bool) : VmProg FramePtr :=
  if swapped then do
    Prog.write fun s => .ok { s with frameList := s.frameList.erase victim }
    let frame ← derefFrame (some victim)
    match frame.page with
    | none => Prog.fail .null
    | some q => do
      updatePage q fun page => { page with frame := none }
      updateFrame victim fun frame => { frame with page := none }
      pure victim
  else Prog.fail .null

def vmEvictFrame (t : Tid) : VmProg FramePtr := do
  let victim ← vmGetVictim
  let swapped ← swapOutVictim t victim
  takeVictim victim swapped

/-- A new `struct frame`. -/
def newFrame (kva : Kva) : VmProg FramePtr := do
  let allocated ← vmAlloc
  if allocated then
    Prog.lift fun s =>
      .ok (s.brk, { s.setFrame s.brk (some { kva := kva, page := none }) with brk := s.brk + 1 })
  else Prog.fail .assertion

/-- The frame goes to the back of `frame_list`. -/
def addFrame (f : FramePtr) : VmProg FramePtr := do
  Prog.write fun s => .ok { s with frameList := s.frameList ++ [f] }
  updateFrame f fun frame => { frame with page := none }
  pure f

def vmGetFrame (t : Tid) : VmProg FramePtr := do
  let kva ← pallocGetUser
  let f ← match kva with
    | none => vmEvictFrame t
    | some kva => newFrame kva
  addFrame f

/-- What `vm_do_claim_page` does with the frame. -/
def claimFrame (t : Tid) (q : PagePtr) (f : FramePtr) : VmProg Bool := do
  updateFrame f fun frame => { frame with page := some q }
  updatePage q fun page => { page with frame := some f }
  let page ← derefPage q
  let frame ← derefFrame (some f)
  let mapped ← pml4SetPage t page.va frame.kva page.writable
  if mapped then swapIn t q else pure false

/-- `vm_do_claim_page`. -/
def vmDoClaimPage (t : Tid) (q : PagePtr) : VmProg Bool := do
  let f ← vmGetFrame t
  claimFrame t q f

/-- `vm_claim_page`. -/
def vmClaimPage (t : Tid) (va : Vaddr) : VmProg Bool := do
  let found ← sptFindPage t va
  match found with
  | none => pure false
  | some q => vmDoClaimPage t q

/-! ## Page faults -/

def STACK_MAX_SIZE : Nat := 2 ^ 20
def USER_STACK : Vaddr := 0x47480000

/-- The loop of `vm_stack_growth`, for at most `fuel` pages. -/
def growStack (t : Tid) : Nat → Vaddr → VmProg Unit
  | 0, _ => pure ()
  | fuel + 1, addr => do
    let found ← sptFindPage t addr
    match found with
    | some _ => pure ()
    | none => do
      let _ ← vmAllocPage t .anon addr true false none
      let _ ← vmClaimPage t addr
      growStack t fuel (addr + BitVec.ofNat 64 PGSIZE)

/-- `vm_stack_growth`. The addresses of pages run out after `2 ^ 52` of them. -/
def vmStackGrowth (t : Tid) (addr : Vaddr) : VmProg Unit := growStack t (2 ^ 52) (pgRoundDown addr)

/-- `VM_MARKER_0`. -/
def VM_MARKER_0 : BitVec 64 := 8

/-- `vm_try_handle_fault`, with the stack pointer of the interrupt frame. -/
def vmTryHandleFault (t : Tid) (rsp addr : Vaddr) (notPresent : Bool) : VmProg Bool :=
  if notPresent then do
    let found ← sptFindPage t (pgRoundDown addr)
    match found with
    | none =>
      if USER_STACK.toNat - STACK_MAX_SIZE < addr.toNat ∧ addr &&& VM_MARKER_0 ≠ 0 ∧ addr = rsp - 8 then do
        vmStackGrowth t addr
        pure true
      else pure false
    | some _ => vmClaimPage t addr
  else pure false

/-! ## Copying and removing -/

def duplicateAux : Option FileInfo → VmProg (Option (Option FileInfo))
  | none => pure (some none)
  | some info => do
    let allocated ← vmAlloc
    if allocated then
      -- `calloc` leaves `read_bytes` zero
      pure (some (some { info with readBytes := 0 }))
    else pure none

/-- `page_copy_action` behind the copy of `aux`. -/
def copyPage (t : Tid) (src : PagePtr) (page : Page) (aux : Option FileInfo) : VmProg Bool := do
  let allocated ← vmAllocPage t page.getType page.va page.writable page.init aux
  if allocated then do
    let found ← sptFindPage t page.va
    match found with
    | none => pure false
    | some dst => do
      let page ← derefPage src
      if page.operations ≠ .uninit then do
        let claimed ← vmDoClaimPage t dst
        if claimed then do
          let dstPage ← derefPage dst
          let dstFrame ← derefFrame dstPage.frame
          let srcPage ← derefPage src
          let srcFrame ← derefFrame srcPage.frame
          Prog.write fun s => .ok (s.copy dstFrame.kva 0 (s.bytes srcFrame.kva PGSIZE))
          pure true
        else pure true
      else pure true
  else pure false

/-- `page_copy_action`. `vm_alloc_page_with_initializer` and `spt_find_page` look at the spt of the thread
that runs, and of `dst`, which is the same. -/
def pageCopyAction (t : Tid) (src : PagePtr) : VmProg Bool := do
  let page ← derefPage src
  let aux ← duplicateAux page.aux
  match aux with
  | none => pure false
  | some aux => do
    let allocated ← vmAllocPage t page.getType page.va page.writable page.init aux
    if allocated then do
      let found ← sptFindPage t page.va
      match found with
      | none => pure false
      | some dst => do
        let page ← derefPage src
        if page.operations ≠ .uninit then do
          let claimed ← vmDoClaimPage t dst
          if claimed then do
            let dstPage ← derefPage dst
            let dstFrame ← derefFrame dstPage.frame
            let srcPage ← derefPage src
            let srcFrame ← derefFrame srcPage.frame
            Prog.write fun s => .ok (s.copy dstFrame.kva 0 (s.bytes srcFrame.kva PGSIZE))
            pure true
          else pure true
        else pure true
    else pure false

/-- `supplemental_page_table_copy`: the loop over the pages of the parent. -/
def sptCopy (t : Tid) : List PagePtr → VmProg Bool
  | [] => pure true
  | src :: rest => do
    let copied ← pageCopyAction t src
    if copied then sptCopy t rest else pure false

/-- `supplemental_page_table_copy`, run by `t`. -/
def supplementalPageTableCopy (t parent : Tid) : VmProg Bool := do
  let src ← Prog.read fun s => .ok (s.spt parent)
  sptCopy t src

/-- `hash_clear` with `hash_destroy_action`. -/
def killPages (t : Tid) : List PagePtr → VmProg Unit
  | [] => pure ()
  | q :: rest => do
    Prog.write fun s => .ok (s.setSpt t rest)
    vmDeallocPage t q
    killPages t rest

/-- `supplemental_page_table_kill`. -/
def supplementalPageTableKill (t : Tid) : VmProg Unit := do
  let pages ← Prog.read fun s => .ok (s.spt t)
  killPages t pages

end Pintos
