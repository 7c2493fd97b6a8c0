import Pintos.Threads.Interleave

/-!
# `threads/thread.c`

The scheduler over the state of `synch.c`: one thread runs, and a step is its next statement, one
section with interrupts disabled, or an interrupt. Interrupts arrive between any two steps.

* `schedule`, `doSchedule`, `threadBlock`, `threadUnblock`, `threadYield`, `threadExit`,
  `threadSleep`, `threadAwake`, `threadComparePriority` — the functions of the source
* `semaDown`, `semaUp` — with the scheduler calls that the ones of `Interleave` leave out
* `step` — what can happen next

A `struct thread *` is its page: `thread_create` may get a page that a dead thread had. `exits` and
`frees` are history: how often a thread in the page exited, and how often the page was freed.
-/

namespace Pintos

open Function
open Interleave (Sys Fault)

/-- `# of timer ticks to give each thread`. -/
def TIME_SLICE : Nat := 4

/-- Where a thread is in a function of `thread.c` that interrupts can preempt. -/
inductive Doing where
  | nothing
  /-- `thread_create`, after `init_thread (t)` and before `thread_unblock (t)`. -/
  | creating (t : Tid)
  /-- At a call of `thread_compare_priority`. -/
  | comparing
  deriving DecidableEq, Repr

structure Kernel extends Sys where
  awake : Tid → Int
  allocated : Tid → Bool
  readyList : List Tid
  sleepList : List Tid
  destructionReq : List Tid
  idleThread : Option Tid
  initialThread : Tid
  /-- `running_thread ()`. -/
  current : Tid
  ticks : Int
  threadTicks : Nat
  doing : Tid → Doing
  /-- The function of the thread is `idle`. -/
  isIdle : Tid → Bool
  exits : Tid → Nat
  frees : Tid → Nat

/-- Why the kernel stops. -/
inductive Halt where
  /-- The running thread cannot take this step. -/
  | disabled
  | fault (f : Fault)
  /-- `ASSERT (t->status == THREAD_RUNNING)` in `thread_current`. -/
  | assertRunning
  /-- `ASSERT (t->status == THREAD_BLOCKED)` in `thread_unblock`. -/
  | assertBlocked
  /-- `ASSERT (curr->status != THREAD_RUNNING)` in `schedule`. -/
  | assertNotRunning
  /-- `ASSERT (is_thread (next))` in `schedule`. -/
  | assertNext
  /-- `ASSERT (bitmap_all (..))` in `palloc_free_multiple`. -/
  | assertUsed
  /-- `ASSERT (PRI_MIN <= priority && priority <= PRI_MAX)` in `init_thread`. -/
  | assertPriority
  deriving DecidableEq, Repr

namespace Kernel

def setStatus (k : Kernel) (t : Tid) (st : ThreadStatus) : Kernel :=
  { k with status := update k.status t st }

@[simp] theorem setStatus_status (k : Kernel) (t : Tid) (st : ThreadStatus) :
    (k.setStatus t st).status = update k.status t st := rfl
@[simp] theorem setStatus_current (k : Kernel) (t : Tid) (st : ThreadStatus) :
    (k.setStatus t st).current = k.current := rfl
@[simp] theorem setStatus_initialThread (k : Kernel) (t : Tid) (st : ThreadStatus) :
    (k.setStatus t st).initialThread = k.initialThread := rfl
@[simp] theorem setStatus_destructionReq (k : Kernel) (t : Tid) (st : ThreadStatus) :
    (k.setStatus t st).destructionReq = k.destructionReq := rfl

/-- `list_insert_ordered (&ready_list, &t->elem, cmp_priority, NULL)`. -/
def insertReady (k : Kernel) (t : Tid) : Kernel :=
  { k with readyList := listInsertOrdered (cmpPriority k.priority) t k.readyList }

/-- `next_thread_to_run`, with the ready list that it leaves. -/
def nextThreadToRun (k : Kernel) : Option Tid × List Tid :=
  match k.readyList with
  | [] => (k.idleThread, [])
  | t :: l => (some t, l)

def schedule (k : Kernel) : Except Halt Kernel :=
  let curr := k.current
  match k.nextThreadToRun with
  | (none, _) => .error .assertNext
  | (some next, ready) =>
    if k.status curr = .running then .error .assertNotRunning
    else
      let k := { k with
        readyList := ready
        status := update k.status next .running
        threadTicks := 0 }
      if curr = next then .ok k
      else if k.status curr = .dying ∧ curr ≠ k.initialThread then
        .ok { k with destructionReq := k.destructionReq ++ [curr], current := next }
      else .ok { k with current := next }

/-- The loop of `do_schedule` over `destruction_req`: which pages are in use, and how often freed. -/
def freeVictims : List Tid → (Tid → Bool) → (Tid → Nat) →
    Except Halt ((Tid → Bool) × (Tid → Nat))
  | [], allocated, frees => .ok (allocated, frees)
  | victim :: l, allocated, frees =>
    if allocated victim then
      freeVictims l (update allocated victim false) (update frees victim (frees victim + 1))
    else .error .assertUsed

/-- `destruction_req` and the pages, after its victims up to `l` were freed. -/
def setPages (k : Kernel) (l : List Tid) (allocated : Tid → Bool) (frees : Tid → Nat) : Kernel :=
  { k with destructionReq := l, allocated := allocated, frees := frees }

def doSchedule (k : Kernel) (status : ThreadStatus) : Except Halt Kernel :=
  if k.status k.current = .running then
    match freeVictims k.destructionReq k.allocated k.frees with
    | .ok (allocated, frees) =>
      ((k.setPages [] allocated frees).setStatus k.current status).schedule
    | .error e => .error e
  else .error .assertRunning

def threadBlock (k : Kernel) : Except Halt Kernel :=
  if k.status k.current = .running then
    (k.setStatus k.current .blocked).schedule
  else .error .assertRunning

def threadUnblock (k : Kernel) (t : Tid) : Except Halt Kernel :=
  if k.status t = .blocked then .ok ((k.insertReady t).setStatus t .ready)
  else .error .assertBlocked

def threadYield (k : Kernel) : Except Halt Kernel :=
  if k.idleThread ≠ some k.current then (k.insertReady k.current).doSchedule .ready
  else k.doSchedule .ready

/-- `thread_compare_priority`, outside an interrupt. -/
def threadComparePriority (k : Kernel) : Except Halt Kernel :=
  match k.readyList with
  | [] => .ok k
  | front :: _ =>
    if k.priority k.current < k.priority front then k.threadYield else .ok k

def threadExit (k : Kernel) : Except Halt Kernel :=
  doSchedule { k with exits := update k.exits k.current (k.exits k.current + 1) } .dying

/-- The running thread joins `sleep_list`. -/
def joinSleep (k : Kernel) (ticks : Int) : Kernel :=
  { k with awake := update k.awake k.current ticks, sleepList := k.sleepList ++ [k.current] }

def threadSleep (k : Kernel) (ticks : Int) : Except Halt Kernel :=
  if k.idleThread ≠ some k.current then (k.joinSleep ticks).threadBlock else .ok k

/-- The loop of `thread_awake` from an element of `sleep_list` on. -/
def threadAwakeFrom (k : Kernel) (ticks : Int) : List Tid → Except Halt Kernel
  | [] => .ok k
  | t :: l =>
    if k.awake t ≤ ticks then
      match threadUnblock { k with sleepList := k.sleepList.erase t } t with
      | .ok k => threadAwakeFrom k ticks l
      | .error e => .error e
    else threadAwakeFrom k ticks l

def threadAwake (k : Kernel) (ticks : Int) : Except Halt Kernel :=
  k.threadAwakeFrom ticks k.sleepList

/-- The running thread joins the waiters of `s`. -/
def joinWaiters (k : Kernel) (s : SemaId) (l : Option LockId) : Kernel :=
  { k with
    sema := update k.sema s ((k.sema s).enqueue k.priority k.current)
    pc := update k.pc k.current (.downWait s l) }

/-- `sema_down` up to `thread_block` or to the return. -/
def semaDown (k : Kernel) (s : SemaId) (l : Option LockId) : Except Halt Kernel :=
  if (k.sema s).value = 0 then (k.joinWaiters s l).threadBlock
  else .ok { k with toSys := k.toSys.semaDown k.current s l }

/-- `sema->value++`. -/
def raise (k : Kernel) (s : SemaId) : Kernel :=
  { k with
    sema := update k.sema s (k.sema s).incr
    ups := update k.ups s (k.ups s + 1) }

/-- `sema_up`; in an interrupt `thread_compare_priority` returns at once. -/
def semaUp (k : Kernel) (s : SemaId) (intrContext : Bool) : Except Halt Kernel :=
  let up : Except Halt Kernel :=
    match (k.sema s).popWaiter k.priority with
    | none => .ok k
    | some (w, rest) =>
      threadUnblock { k with sema := update k.sema s { k.sema s with waiters := rest } } w
  match up with
  | .error e => .error e
  | .ok k => if intrContext then .ok (k.raise s) else (k.raise s).threadComparePriority

/-- The page `t` after `init_thread`. -/
def setThread (k : Kernel) (t : Tid) (priority : Int) : Kernel :=
  { k with
    allocated := update k.allocated t true
    status := update k.status t .blocked
    pc := update k.pc t .user
    priority := update k.priority t priority
    initPriority := update k.initPriority t priority
    waitOnLock := update k.waitOnLock t none
    donations := update k.donations t []
    awake := update k.awake t 0
    doing := update (update k.doing t .nothing) k.current (.creating t) }

/-- `palloc_get_page` and `init_thread`, in `thread_create`. -/
def initThread (k : Kernel) (t : Tid) (priority : Int) : Except Halt Kernel :=
  if PRI_MIN ≤ priority ∧ priority ≤ PRI_MAX then .ok (k.setThread t priority)
  else .error .assertPriority

/-- A step that only touches the state of `synch.c`. -/
def lift (k : Kernel) : Except Fault Sys → Except Halt Kernel
  | .ok m => .ok { k with toSys := m }
  | .error f => .error (.fault f)

/-- The running thread may call a function that can block. -/
def canCall (k : Kernel) : Bool :=
  k.pc k.current = .user && k.doing k.current != .comparing && !k.isIdle k.current

end Kernel

/-- What can happen next. The running thread does all but the interrupts. -/
inductive KernelAction where
  /-- The next statement in `synch.c`. -/
  | stmt
  | lockAcquire (l : LockId)
  | lockTryAcquire (l : LockId)
  | lockRelease (l : LockId)
  | semaDown (n : Nat)
  | semaTryDown (n : Nat)
  | semaUp (n : Nat)
  | setPriority (p : Int)
  /-- Routines on donations lists overlap. -/
  | tear (donations : Tid → List Tid) (p : Int)
  /-- `thread_create` gets the page `t`. -/
  | threadCreate (t : Tid) (priority : Int)
  /-- `thread_unblock`, in `thread_create`. -/
  | threadUnblock
  /-- No pages for the `fdt`: `thread_create` returns `TID_ERROR` and the thread stays blocked. -/
  | threadCreateFail
  | comparePriority
  | threadYield
  | threadSleep (ticks : Int)
  | threadExit
  /-- `idle_thread = thread_current ()`, in `idle`. -/
  | idleStart
  /-- The loop of `idle`. -/
  | idleBlock
  /-- With `thread_mlfqs`, `recalculate_priority` may leave these priorities. -/
  | timerInterrupt (recalculated : Tid → Int)
  /-- Another interrupt handler calls `sema_up`. -/
  | intrUp (n : Nat)
  | intrTryDown (n : Nat)

namespace Kernel

/-- The next statement of the running thread in `synch.c`. -/
def stmt (k : Kernel) : Except Halt Kernel :=
  match k.pc k.current with
  | .acqDown l => k.semaDown (.lock l) (some l)
  | .downWait s l => k.semaDown s l
  | .relUp l => semaUp { k with pc := update k.pc k.current .user } (.lock l) false
  | .setPriority =>
    lift { k with doing := update k.doing k.current .comparing }
      (Interleave.stepThread k.toSys k.current)
  | _ => k.lift (Interleave.stepThread k.toSys k.current)

def step (k : Kernel) : KernelAction → Except Halt Kernel
  | .stmt => if k.isIdle k.current then .error .disabled else k.stmt
  | .lockAcquire l =>
    if k.canCall then k.lift (Interleave.step k.toSys (.lockAcquire k.current l))
    else .error .disabled
  | .lockTryAcquire l =>
    if k.canCall then k.lift (Interleave.step k.toSys (.lockTryAcquire k.current l))
    else .error .disabled
  | .lockRelease l =>
    if k.canCall then k.lift (Interleave.step k.toSys (.lockRelease k.current l))
    else .error .disabled
  | .semaDown n => if k.canCall then k.semaDown (.plain n) none else .error .disabled
  | .semaTryDown n =>
    if k.canCall then k.lift (Interleave.step k.toSys (.semaTryDown k.current n))
    else .error .disabled
  | .semaUp n =>
    -- `idle` calls this one too
    if k.pc k.current = .user ∧ k.doing k.current ≠ .comparing then k.semaUp (.plain n) false
    else .error .disabled
  | .setPriority p =>
    if k.canCall then k.lift (Interleave.step k.toSys (.setPriority k.current p))
    else .error .disabled
  | .tear donations p => k.lift (Interleave.step k.toSys (.tear k.current donations p))
  | .threadCreate t priority =>
    if k.canCall ∧ k.doing k.current = .nothing ∧ k.allocated t = false then
      k.initThread t priority
    else .error .disabled
  | .threadUnblock =>
    if k.canCall then
      match k.doing k.current with
      | .creating t =>
        threadUnblock { k with doing := update k.doing k.current .comparing } t
      | _ => .error .disabled
    else .error .disabled
  | .threadCreateFail =>
    if k.canCall then .ok { k with doing := update k.doing k.current .nothing }
    else .error .disabled
  | .comparePriority =>
    if k.doing k.current = .comparing then
      threadComparePriority { k with doing := update k.doing k.current .nothing }
    else .error .disabled
  | .threadYield => if k.canCall then k.threadYield else .error .disabled
  | .threadSleep ticks => if k.canCall then k.threadSleep ticks else .error .disabled
  | .threadExit =>
    if k.canCall ∧ k.doing k.current = .nothing then k.threadExit else .error .disabled
  | .idleStart =>
    if k.isIdle k.current then .ok { k with idleThread := some k.current }
    else .error .disabled
  | .idleBlock =>
    if k.idleThread = some k.current then k.threadBlock
    else .error .disabled
  | .timerInterrupt recalculated =>
    let k := { k with
      ticks := k.ticks + 1
      threadTicks := k.threadTicks + 1
      priority := if k.mlfqs then recalculated else k.priority }
    match k.threadAwake k.ticks with
    | .ok k' => if TIME_SLICE ≤ k.threadTicks then k'.threadYield else .ok k'
    | .error e => .error e
  | .intrUp n => k.semaUp (.plain n) true
  | .intrTryDown n => k.lift (Interleave.step k.toSys (.intrTryDown n))

/--
The start: `thread_start` has created `idle` and enables interrupts. Pages without a thread have
any status but `THREAD_RUNNING` and `THREAD_READY`.
-/
def boot (mlfqs : Bool) (value : Nat → BitVec 32) (main idle : Tid) : Kernel where
  toSys := { Interleave.boot mlfqs value
      (fun t => if t = idle then PRI_MIN else PRI_DEFAULT) with
    status := fun t => if t = main then .running else if t = idle then .ready else .dying }
  awake := fun _ => 0
  allocated := fun t => t = main ∨ t = idle
  readyList := [idle]
  sleepList := []
  destructionReq := []
  idleThread := none
  initialThread := main
  current := main
  ticks := 0
  threadTicks := 0
  doing := fun _ => .nothing
  isIdle := fun t => t = idle
  exits := fun _ => 0
  frees := fun _ => 0

end Kernel

end Pintos
