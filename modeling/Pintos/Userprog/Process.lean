import Pintos.Lib.Machine
import Pintos.Threads.Types

/-!
# Processes that fork, wait and exit

`userprog/process.c`, `exit` of `userprog/syscall.c` and the handlers of `userprog/exception.c`
statement by statement, for a tree of processes under every interleaving. A step is one statement
of one thread; `sema_down` up to `thread_block` and `sema_up` are one step, because interrupts are
disabled there. A thread is `THREAD_BLOCKED` while its next statement is one of those it sleeps at.

The page of a thread that is `THREAD_DYING` may be freed at any time, so that its `struct thread`
is gone from then on.

`parent`, `stopped`, `read` and `results` are history: who created a thread, how it stopped, the
status its parent read, and what the calls of `process_wait` returned.
-/

namespace Pintos.Process

open Function

/-! ## How a process stops -/

def SEL_KCSEG : Nat := 0x08
def SEL_UCSEG : Nat := 0x23

def TID_ERROR : Int := -1

/-- What interrupts a process in user mode. -/
inductive Event where
  /-- The system call `exit`. -/
  | exit (status : Int)
  /-- A system call that `syscall_handler` does not know. -/
  | unknownSyscall
  /-- A pointer that `check_address` or `check_buffer` rejects. -/
  | badPointer
  /-- `exec` where there is no page for the name, or where `process_exec` fails. -/
  | execFailed
  /-- Interrupt 14, and what `vm_try_handle_fault` returns. -/
  | pageFault (handled : Bool)
  /-- Any other exception, and the code segment it comes from. -/
  | exception (cs : Nat)
  deriving DecidableEq, Repr

/-- What the kernel does with the process. -/
inductive Outcome where
  | resume
  /-- `exit (status)`. -/
  | exit (status : Int)
  /-- `thread_exit ()`. -/
  | threadExit
  | panic
  deriving DecidableEq, Repr

/-- `kill`. -/
def kill (cs : Nat) : Outcome :=
  if cs = SEL_UCSEG then .threadExit
  else if cs = SEL_KCSEG then .panic
  else .threadExit

/-- `page_fault`. -/
def pageFault (handled : Bool) : Outcome := if handled then .resume else .exit (-1)

def handle : Event → Outcome
  | .exit status => .exit status
  | .unknownSyscall => .exit (-1)
  | .badPointer => .exit (-1)
  | .execFailed => .exit (-1)
  | .pageFault handled => pageFault handled
  | .exception cs => kill cs

/-! ## The state -/

/-- The next statement of a thread. -/
inductive Pc where
  /-- There is no `struct thread`. -/
  | none
  /-- A kernel thread that is no process. -/
  | kernel
  /-- In user mode, or in a system call other than `fork`, `wait` and `exit`. -/
  | user
  /-- `thread_create`: `list_push_back (&thread_current ()->child_list, &t->child_elem)`. -/
  | push (c : Tid)
  /-- `process_fork`: `get_child_process (tid)`. -/
  | forkFind (c : Tid)
  /-- `sema_down (&child->load_sema)`. -/
  | loadDown (c : Tid)
  | loadSleep (c : Tid)
  /-- `__do_fork`: the copy of what `parent` has. -/
  | doFork (parent : Tid)
  /-- `sema_up (&current->load_sema)`, on success or at `error`. -/
  | forkUp (succ : Bool)
  /-- `exit`: `curr -> exit_status = status`. -/
  | exit (status : Int)
  /-- `process_exit`: `sema_up (&curr -> wait_sema)`. -/
  | exitUp
  /-- `sema_down (&curr -> free_sema)`. -/
  | freeDown
  | freeSleep
  /-- `thread_exit`: `do_schedule (THREAD_DYING)`. -/
  | dying
  /-- `process_wait`: `sema_down (&child->wait_sema)`. -/
  | waitDown (c : Tid)
  | waitSleep (c : Tid)
  /-- `exit_status = child -> exit_status`. -/
  | waitRead (c : Tid)
  /-- `list_remove (&child->child_elem)`. -/
  | waitRemove (c : Tid) (exitStatus : Int)
  /-- `sema_up (&child -> free_sema)` and the return. -/
  | waitUp (c : Tid) (exitStatus : Int)
  deriving DecidableEq, Repr

/-- `thread_unblock` of a thread that is blocked. -/
def Pc.wake : Pc → Option Pc
  | .loadSleep c => some (.loadDown c)
  | .freeSleep => some .freeDown
  | .waitSleep c => some (.waitDown c)
  | _ => Option.none

/-- The semaphores of a `struct thread`. -/
inductive Sema where
  | wait (t : Tid)
  | free (t : Tid)
  | load (t : Tid)
  deriving DecidableEq, Repr

def Sema.owner : Sema → Tid
  | .wait t => t
  | .free t => t
  | .load t => t

/-- A call of `process_wait` that has returned. -/
structure Result where
  caller : Tid
  pid : Int
  value : Int
  /-- The `next_tid` of then: smaller numbers had been given to threads. -/
  nextTid : Tid

structure Procs where
  pc : Tid → Pc
  exitStatus : Tid → Int
  childList : Tid → List Tid
  sema : Sema → Semaphore
  priority : Tid → Int
  nextTid : Tid
  parent : Tid → Option Tid
  stopped : Tid → Option Event
  read : Tid → Option Int
  /-- The last call first. -/
  results : List Result

/-- Why a step does not yield a state. -/
inductive Fault where
  /-- The thread cannot take this step. -/
  | disabled
  /-- A `struct thread` that may be freed is used. -/
  | dangling
  /-- `get_child_process` returns `NULL` to `process_fork`. -/
  | nullChild
  /-- `ASSERT (t->status == THREAD_BLOCKED)` in `thread_unblock`. -/
  | assertBlocked
  /-- `PANIC` in `kill`. -/
  | panic
  deriving DecidableEq, Repr

inductive Action where
  /-- The next statement of `t`. -/
  | step (t : Tid)
  /-- `process_fork`, and whether `thread_create` finds memory. -/
  | fork (t : Tid) (alloc : Bool)
  /-- The copy in `__do_fork`, and whether it succeeds. -/
  | doFork (t : Tid) (succ : Bool)
  /-- `process_wait (pid)`. -/
  | wait (t : Tid) (pid : Int)
  | event (t : Tid) (e : Event)
  /-- `thread_set_priority`, or a donation. -/
  | setPriority (t : Tid) (p : Int)

namespace Procs

def setPc (m : Procs) (t : Tid) (p : Pc) : Procs := { m with pc := update m.pc t p }

def setSema (m : Procs) (s : Sema) (v : Semaphore) : Procs := { m with sema := update m.sema s v }

@[simp] theorem setPc_pc (m : Procs) (t : Tid) (p : Pc) : (m.setPc t p).pc = update m.pc t p := rfl
@[simp] theorem setPc_sema (m : Procs) (t : Tid) (p : Pc) : (m.setPc t p).sema = m.sema := rfl
@[simp] theorem setSema_pc (m : Procs) (s : Sema) (v : Semaphore) : (m.setSema s v).pc = m.pc := rfl
@[simp] theorem setSema_sema (m : Procs) (s : Sema) (v : Semaphore) :
    (m.setSema s v).sema = update m.sema s v := rfl

/-- `sema_down`, up to `thread_block` or to its return. -/
def semaDown (m : Procs) (t : Tid) (s : Sema) (sleep next : Pc) : Procs :=
  if (m.sema s).value = 0 then (m.setSema s ((m.sema s).enqueue m.priority t)).setPc t sleep
  else (m.setSema s (m.sema s).decr).setPc t next

/-- `sema_up`. A yield in `thread_compare_priority` only lets another thread step next. -/
def semaUp (m : Procs) (s : Sema) : Except Fault Procs :=
  match (m.sema s).popWaiter m.priority with
  | Option.none => .ok (m.setSema s (m.sema s).incr)
  | some (w, rest) =>
    match (m.pc w).wake with
    | Option.none => .error .assertBlocked
    | some p => .ok ((m.setSema s { value := (m.sema s).value + 1, waiters := rest }).setPc w p)

/-- The search of `get_child_process`. Only the thread itself changes its list. -/
def findChild (m : Procs) (pid : Int) : List Tid → Except Fault (Option Tid)
  | [] => .ok Option.none
  | t :: rest =>
    if m.pc t = .none then .error .dangling
    else if (t : Int) = pid then .ok (some t)
    else m.findChild pid rest

def getChildProcess (m : Procs) (t : Tid) (pid : Int) : Except Fault (Option Tid) :=
  m.findChild pid (m.childList t)

/-- A change of the child list goes through elements that are in other threads of the list. -/
def listAlive (m : Procs) (l : List Tid) : Bool := l.all fun t => m.pc t ≠ .none

/-- `process_wait (pid)` of `t` returns `value`. -/
def addResult (m : Procs) (t : Tid) (pid value : Int) : Procs :=
  { m with results := { caller := t, pid := pid, value := value, nextTid := m.nextTid } :: m.results }

@[simp] theorem addResult_pc (m : Procs) (t : Tid) (pid value : Int) :
    (m.addResult t pid value).pc = m.pc := rfl
@[simp] theorem addResult_sema (m : Procs) (t : Tid) (pid value : Int) :
    (m.addResult t pid value).sema = m.sema := rfl

/-- `thread_create`, up to `thread_unblock`. -/
def threadCreate (m : Procs) (t : Tid) : Procs where
  pc := update (update m.pc t (.push m.nextTid)) m.nextTid (.doFork t)
  exitStatus := update m.exitStatus m.nextTid 0
  childList := update m.childList m.nextTid []
  sema := update (update (update m.sema (.wait m.nextTid) (semaInit 0)) (.free m.nextTid) (semaInit 0))
    (.load m.nextTid) (semaInit 0)
  priority := update m.priority m.nextTid PRI_DEFAULT
  nextTid := m.nextTid + 1
  parent := update m.parent m.nextTid (some t)
  stopped := m.stopped
  read := m.read
  results := m.results

end Procs

open Procs

/-- The next statement of `t`. -/
def stepThread (m : Procs) (t : Tid) : Except Fault Procs :=
  match m.pc t with
  | .push c =>
    if m.listAlive (c :: m.childList t) then
      .ok { m.setPc t (.forkFind c) with childList := update m.childList t (m.childList t ++ [c]) }
    else .error .dangling
  | .forkFind c =>
    match m.getChildProcess t c with
    | .error e => .error e
    | .ok Option.none => .error .nullChild
    | .ok (some child) => .ok (m.setPc t (.loadDown child))
  | .loadDown c =>
    if m.pc c = .none then .error .dangling
    else .ok (m.semaDown t (.load c) (.loadSleep c) .user)
  | .forkUp succ =>
    match m.semaUp (.load t) with
    | .error e => .error e
    | .ok m =>
      if succ then .ok (m.setPc t .user)
      else .ok { m.setPc t (.exit TID_ERROR) with
        stopped := update m.stopped t (some (.exit TID_ERROR)) }
  | .exit status => .ok { m.setPc t .exitUp with exitStatus := update m.exitStatus t status }
  | .exitUp =>
    match m.semaUp (.wait t) with
    | .error e => .error e
    | .ok m => .ok (m.setPc t .freeDown)
  | .freeDown => .ok (m.semaDown t (.free t) .freeSleep .dying)
  | .dying => .ok (m.setPc t .none)
  | .waitDown c =>
    if m.pc c = .none then .error .dangling
    else .ok (m.semaDown t (.wait c) (.waitSleep c) (.waitRead c))
  | .waitRead c =>
    if m.pc c = .none then .error .dangling
    else .ok { m.setPc t (.waitRemove c (m.exitStatus c)) with
      read := update m.read c (some (m.exitStatus c)) }
  | .waitRemove c st =>
    if m.listAlive (c :: m.childList t) then
      .ok { m.setPc t (.waitUp c st) with
        childList := update m.childList t ((m.childList t).erase c) }
    else .error .dangling
  | .waitUp c st =>
    if m.pc c = .none then .error .dangling
    else
      match m.semaUp (.free c) with
      | .error e => .error e
      | .ok m => .ok ((m.setPc t .user).addResult t c st)
  | .none | .kernel | .user | .doFork _ => .error .disabled
  -- the thread is blocked
  | .loadSleep _ | .freeSleep | .waitSleep _ => .error .disabled

def step (m : Procs) : Action → Except Fault Procs
  | .step t => stepThread m t
  | .fork t alloc =>
    if m.pc t = .user then .ok (if alloc then m.threadCreate t else m) else .error .disabled
  | .doFork t succ =>
    match m.pc t with
    | .doFork parent =>
      if m.pc parent = .none then .error .dangling else .ok (m.setPc t (.forkUp succ))
    | _ => .error .disabled
  | .wait t pid =>
    if m.pc t = .user then
      match m.getChildProcess t pid with
      | .error e => .error e
      | .ok Option.none => .ok (m.addResult t pid (-1))
      | .ok (some child) => .ok (m.setPc t (.waitDown child))
    else .error .disabled
  | .event t e =>
    if m.pc t = .user then
      match handle e with
      | .resume => .ok m
      | .exit status => .ok { m.setPc t (.exit status) with stopped := update m.stopped t (some e) }
      | .threadExit => .ok { m.setPc t .exitUp with stopped := update m.stopped t (some e) }
      | .panic => .error .panic
    else .error .disabled
  | .setPriority t p => .ok { m with priority := update m.priority t p }

/-- The initial thread. -/
def MAIN : Tid := 1

/-- The idle thread, which `thread_create` puts on the list of the initial thread too. -/
def IDLE : Tid := 2

def INITD : Tid := 3

/-- The initial thread has started the first process. -/
def boot : Procs where
  pc t := if t = MAIN ∨ t = INITD then .user else if t = IDLE then .kernel else .none
  exitStatus := fun _ => 0
  childList t := if t = MAIN then [IDLE, INITD] else []
  sema := fun _ => semaInit 0
  priority := fun _ => PRI_DEFAULT
  nextTid := 4
  parent t := if t = IDLE ∨ t = INITD then some MAIN else none
  stopped := fun _ => none
  read := fun _ => none
  results := []

/-! ## What a statement can do -/

/-- `Stmt m t m'`: the next statement of `t` leads to `m'`, one case for each statement. -/
inductive Stmt (m : Procs) (t : Tid) : Procs → Prop
  | push {c} (hpc : m.pc t = .push c) :
      Stmt m t
        { m.setPc t (.forkFind c) with childList := update m.childList t (m.childList t ++ [c]) }
  | forkFind {c child} (hpc : m.pc t = .forkFind c)
      (hc : m.getChildProcess t c = .ok (some child)) : Stmt m t (m.setPc t (.loadDown child))
  | loadDown {c} (hpc : m.pc t = .loadDown c) :
      Stmt m t (m.semaDown t (.load c) (.loadSleep c) .user)
  | forked {m'} (hpc : m.pc t = .forkUp true) (hup : m.semaUp (.load t) = .ok m') :
      Stmt m t (m'.setPc t .user)
  | forkFailed {m'} (hpc : m.pc t = .forkUp false) (hup : m.semaUp (.load t) = .ok m') :
      Stmt m t { m'.setPc t (.exit TID_ERROR) with
        stopped := update m'.stopped t (some (.exit TID_ERROR)) }
  | exit {status} (hpc : m.pc t = .exit status) :
      Stmt m t { m.setPc t .exitUp with exitStatus := update m.exitStatus t status }
  | exitUp {m'} (hpc : m.pc t = .exitUp) (hup : m.semaUp (.wait t) = .ok m') :
      Stmt m t (m'.setPc t .freeDown)
  | freeDown (hpc : m.pc t = .freeDown) : Stmt m t (m.semaDown t (.free t) .freeSleep .dying)
  | dying (hpc : m.pc t = .dying) : Stmt m t (m.setPc t .none)
  | waitDown {c} (hpc : m.pc t = .waitDown c) :
      Stmt m t (m.semaDown t (.wait c) (.waitSleep c) (.waitRead c))
  | waitRead {c} (hpc : m.pc t = .waitRead c) :
      Stmt m t { m.setPc t (.waitRemove c (m.exitStatus c)) with
        read := update m.read c (some (m.exitStatus c)) }
  | waitRemove {c st} (hpc : m.pc t = .waitRemove c st) :
      Stmt m t { m.setPc t (.waitUp c st) with
        childList := update m.childList t ((m.childList t).erase c) }
  | waitUp {c st m'} (hpc : m.pc t = .waitUp c st) (hup : m.semaUp (.free c) = .ok m') :
      Stmt m t ((m'.setPc t .user).addResult t c st)

theorem stepThread_cases {m m' : Procs} {t : Tid} (h : stepThread m t = .ok m') : Stmt m t m' := by
  unfold stepThread at h
  split at h
  case h_1 c hpc =>
    split at h
    · cases h
      exact .push hpc
    · cases h
  case h_2 c hpc =>
    split at h
    · cases h
    · cases h
    · next child hc =>
      cases h
      exact .forkFind hpc hc
  case h_3 c hpc =>
    split at h
    · cases h
    · cases h
      exact .loadDown hpc
  case h_4 succ hpc =>
    split at h
    · cases h
    · next m₁ hup =>
      cases succ with
      | true =>
        cases h
        exact .forked hpc hup
      | false =>
        cases h
        exact .forkFailed hpc hup
  case h_5 status hpc =>
    cases h
    exact .exit hpc
  case h_6 hpc =>
    split at h
    · cases h
    · next m₁ hup =>
      cases h
      exact .exitUp hpc hup
  case h_7 hpc =>
    cases h
    exact .freeDown hpc
  case h_8 hpc =>
    cases h
    exact .dying hpc
  case h_9 c hpc =>
    split at h
    · cases h
    · cases h
      exact .waitDown hpc
  case h_10 c hpc =>
    split at h
    · cases h
    · cases h
      exact .waitRead hpc
  case h_11 c st hpc =>
    split at h
    · cases h
      exact .waitRemove hpc
    · cases h
  case h_12 c st hpc =>
    split at h
    · cases h
    · split at h
      · cases h
      · next m₁ hup =>
        cases h
        exact .waitUp hpc hup
  all_goals cases h

end Pintos.Process
