import Pintos.Threads.Palloc
import Pintos.Threads.Types

/-!
# `thread_create`

`thread_create` and `init_thread` of `threads/thread.c` with the two allocations, the page of the
thread and the pages of its descriptor table. A `struct thread *` is the address of the page.

* `threadCreate` — the whole call; what runs while its caller has yielded is a parameter
-/

namespace Pintos

open Function

/-- `FDT_PAGES`. -/
def FDT_PAGES : Nat := 3

/-- `struct thread`, as far as `init_thread` and `thread_create` set it. -/
structure Thread where
  tid : Int
  status : ThreadStatus
  name : List (BitVec 8)
  priority : Int
  initPriority : Int
  waitOnLock : Option LockId
  donations : List Vaddr
  nice : Int
  recentCpu : Int
  childList : List Vaddr
  waitSema : Semaphore
  freeSema : Semaphore
  loadSema : Semaphore
  fdt : Option Vaddr
  fdIndex : Int

/-- What `thread_create` reads and writes. -/
structure Threads where
  pools : Pools
  thread : Vaddr → Thread
  allList : List Vaddr
  readyList : List Vaddr
  /-- `running_thread ()`. -/
  current : Vaddr
  nextTid : Int

namespace Threads

def setThread (s : Threads) (t : Vaddr) (th : Thread) : Threads :=
  { s with thread := update s.thread t th }

/-- `init_thread`. `strlcpy` keeps 15 bytes of the name. -/
def initThread (s : Threads) (t : Vaddr) (name : List (BitVec 8)) (priority : Int) :
    Except Panic Threads :=
  if PRI_MIN ≤ priority ∧ priority ≤ PRI_MAX then
    .ok { s with
      thread := update s.thread t {
        tid := 0
        status := .blocked
        name := name.take 15
        priority := priority
        initPriority := priority
        waitOnLock := none
        donations := []
        nice := 0
        recentCpu := 0
        childList := []
        waitSema := semaInit 0
        freeSema := semaInit 0
        loadSema := semaInit 0
        fdt := none
        fdIndex := 0 }
      allList := s.allList ++ [t] }
  else .error .assertion

def setFdt (s : Threads) (t : Vaddr) (fdt : Option Vaddr) : Threads :=
  s.setThread t { s.thread t with fdt := fdt }

/-- `fd_index`, the two standard entries and the tid. -/
def openStd (s : Threads) (t fdt : Vaddr) : Threads :=
  { s.setThread t { s.thread t with fdIndex := 2, tid := s.nextTid } with
    pools := { s.pools with
      mem := update s.pools.mem fdt (update (update (s.pools.mem fdt) 0 1) 1 2) }
    nextTid := s.nextTid + 1 }

def threadUnblock (s : Threads) (t : Vaddr) : Except Panic Threads :=
  if (s.thread t).status = .blocked then
    .ok { s.setThread t { s.thread t with status := .ready } with
      readyList := listInsertOrdered
        (fun a b => decide ((s.thread a).priority > (s.thread b).priority)) t s.readyList }
  else .error .assertion

/-- `thread_compare_priority`. `others` is what happens until the caller runs again. -/
def threadComparePriority (s : Threads) (others : Threads → Threads) : Threads :=
  match s.readyList with
  | [] => s
  | front :: _ => if (s.thread s.current).priority < (s.thread front).priority then others s else s

/-- `list_push_back (&thread_current ()->child_list, &t->child_elem)`. -/
def pushChild (s : Threads) (t : Vaddr) : Threads :=
  s.setThread s.current
    { s.thread s.current with childList := (s.thread s.current).childList ++ [t] }

/-- `thread_create`. `TID_ERROR` is `none`. -/
def threadCreate (s : Threads) (name : List (BitVec 8)) (priority : Int) (function : BitVec 64)
    (others : Threads → Threads) : Except Panic (Option Int × Threads) :=
  if function = 0 then .error .assertion
  else do
    let (page, pools) ← s.pools.pallocGetPage { zero := true }
    let s := { s with pools := pools }
    match page with
    | none => .ok (none, s)
    | some t =>
      let s ← s.initThread t name priority
      let (fdt, pools) ← s.pools.pallocGetMultiple { zero := true } FDT_PAGES
      let s := { s with pools := pools }
      let s := s.setFdt t fdt
      match fdt with
      | none => .ok (none, s)
      | some fdt =>
        let s := s.openStd t fdt
        let tid := (s.thread t).tid
        let s ← s.threadUnblock t
        .ok (some tid, (s.threadComparePriority others).pushChild t)

end Threads

end Pintos
