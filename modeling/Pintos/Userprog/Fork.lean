import Pintos.Userprog.Descriptors
import Pintos.Userprog.Process
import Pintos.Vm.Vm

/-!
# `fork`

`process_fork` and `__do_fork` of `userprog/process.c`, and `supplemental_page_table_copy` of `vm/vm.c`. Each request
that the child makes may fail: the table of a parent says for each of its pages what the requests for this page find,
when it is their turn. The parent waits for one `sema_up` of the child, and sees nothing else of it.
-/

namespace Pintos.Fork

open Function Descriptors

/-- What the requests for a page find. -/
structure PageGrants where
  /-- `calloc` in `duplicate_aux`. -/
  aux : Bool
  /-- `calloc` in `vm_alloc_page_with_initializer`. -/
  page : Bool
  /-- `vm_do_claim_page`. -/
  claim : Bool
  /-- What `src->frame` holds. There is no frame if the page is swapped out. -/
  frame : Option Sector

/-- A page of the parent. -/
structure Source where
  page : Page
  grants : PageGrants

/-- The supplemental page table of the parent, in the order of its hash table. -/
structure ParentTable where
  pages : List Source
  aligned : ∀ src ∈ pages, Aligned src.page.va
  typed : ∀ src ∈ pages, src.page.getType ≠ .uninit
  distinct : pages.Pairwise fun src src' => src.page.va ≠ src'.page.va

/-- A page of the child. -/
structure ChildPage where
  va : Vaddr
  type : VmType
  writable : Bool
  init : Bool
  aux : Option FileInfo
  /-- What was copied to its frame. -/
  contents : Option Sector

inductive PageFault where
  | assertion
  /-- `src->frame` is `NULL`. -/
  | null
  deriving DecidableEq, Repr

/-! ## `vm/vm.c` -/

/-- `hash_find`. -/
def hashFind (dst : List ChildPage) (va : Vaddr) : Option ChildPage := dst.find? fun page => page.va = va

def sptFindPage (dst : List ChildPage) (va : Vaddr) : Option ChildPage := hashFind dst (pgRoundDown va)

/-- `vm_alloc_page_with_initializer`, with the table after it where it returns true. -/
def vmAllocPage (alloc : Bool) (dst : List ChildPage) (page : ChildPage) : Except PageFault (Option (List ChildPage)) :=
  if page.type = .uninit then .error .assertion
  else
    match sptFindPage dst page.va with
    | some _ => .ok none
    | none =>
      if alloc then
        match hashFind dst page.va with
        | some _ => .ok none
        | none => .ok (some (page :: dst))
      else .ok none

/-- `duplicate_aux`, with `*aux` where it returns true. `read_bytes` is not copied. -/
def duplicateAux (alloc : Bool) : Option FileInfo → Option (Option FileInfo)
  | none => some none
  | some info => if alloc then some (some { info with readBytes := 0 }) else none

/-- `memcpy(dst->frame->kva, src->frame->kva, PGSIZE)`. -/
def fillPage (dst : List ChildPage) (va : Vaddr) (bytes : Sector) : List ChildPage :=
  dst.map fun page => if page.va = va then { page with contents := some bytes } else page

/-- `page_copy_action`. -/
def pageCopyAction (dst : List ChildPage) (src : Source) : Except PageFault (Bool × List ChildPage) :=
  match duplicateAux src.grants.aux src.page.aux with
  | none => .ok (false, dst)
  | some aux => do
    let page : ChildPage :=
      { va := src.page.va, type := src.page.getType, writable := src.page.writable, init := src.page.init, aux := aux,
        contents := none }
    let allocated ← vmAllocPage src.grants.page dst page
    match allocated with
    | none => .ok (false, dst)
    | some dst =>
      match sptFindPage dst src.page.va with
      | none => .ok (false, dst)
      | some page =>
        if src.page.operations ≠ .uninit then
          -- nothing is done where the claim fails
          if src.grants.claim then
            match src.grants.frame with
            | none => .error .null
            | some bytes => .ok (true, fillPage dst page.va bytes)
          else .ok (true, dst)
        else .ok (true, dst)

/-- `supplemental_page_table_copy`: the loop. -/
def supplementalPageTableCopy (dst : List ChildPage) : List Source → Except PageFault (Bool × List ChildPage)
  | [] => .ok (true, dst)
  | src :: rest => do
    let (copied, dst) ← pageCopyAction dst src
    if copied then supplementalPageTableCopy dst rest else .ok (false, dst)

/-! ## `userprog/process.c` -/

/-- What the other requests of `__do_fork` find. -/
structure Grants where
  /-- `pml4_create`. -/
  create : Bool
  /-- The memory for the file of each descriptor in `file_duplicate`. -/
  files : Nat → Bool

/-- How a child comes to the end of `__do_fork`. -/
inductive Ended where
  /-- `do_iret`. -/
  | user
  /-- `exit (TID_ERROR)`. -/
  | exit
  /-- A fault in the kernel, before `sema_up`. -/
  | fault
  deriving DecidableEq, Repr

structure Child where
  ended : Ended
  /-- How often `load_sema` was raised. -/
  loadSema : Nat
  spt : List ChildPage
  descs : Descs

/-- `__do_fork`. -/
def doFork (grants : Grants) (spt : List Source) (parent child : Tid) (s : Descs) : Except DescFault Child :=
  if grants.create then
    match supplementalPageTableCopy [] spt with
    | .error _ => .ok { ended := .fault, loadSema := 0, spt := [], descs := s }
    | .ok (false, dst) => .ok { ended := .exit, loadSema := 1, spt := dst, descs := s }
    | .ok (true, dst) => do
      let (_, s) ← (Descriptors.duplicateFiles child parent grants.files FDCOUNT_LIMIT 0).run s
      .ok { ended := .user, loadSema := 1, spt := dst, descs := s.setIndex child (s.fdIndex parent) }
  else .ok { ended := .exit, loadSema := 1, spt := [], descs := s }

/-- A call of `process_fork`. -/
structure Forked where
  /-- What it returns, if it returns. -/
  value : Option Int
  child : Option Child

/-- `process_fork`, with the thread that `thread_create` makes. -/
def processFork (created : Option Tid) (grants : Grants) (spt : List Source) (parent : Tid) (s : Descs) :
    Except DescFault Forked :=
  match created with
  | none => .ok { value := some Process.TID_ERROR, child := none }
  | some tid => do
    let child ← doFork grants spt parent tid (s.newThread tid)
    -- `sema_down (&child->load_sema)`
    if child.loadSema = 0 then .ok { value := none, child := some child }
    else .ok { value := some tid, child := some child }

end Pintos.Fork
