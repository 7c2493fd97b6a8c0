import Pintos.Kernel.Sorting
import Pintos.Threads.Interleave

/-!
# Condition variables

`cond_wait`, `cond_signal` and `cond_broadcast` of `threads/synch.c`, statement by statement, over the semaphores
and locks of `Interleave`. A thread that is inside one of them calls `lock_release`, `sema_down`, `lock_acquire` and
`sema_up` there, and goes on when the call has returned.

`called` and `signals` are history: what a thread found when it called, and the signals of each waiter.
-/

namespace Pintos.Interleave

open Function

/-- A `struct condition *`. -/
abbrev CondId := Nat

/-- The semaphore that a thread has on its stack in `cond_wait`. The odd numbers are other semaphores. -/
def waiterSema (t : Tid) : Nat := 2 * t

/-- An `int` in a `struct thread *`: the comparison of two is without sign. -/
def asPointer (n : Int) : BitVec 64 := BitVec.ofInt 64 n

/-- `sema_cmp_priority`. Without a thread in the waiters of a semaphore, `list_begin` gives the tail of the list, and
what is compared is no priority. -/
def semaCmpPriority (m : Sys) (a b : Tid) : Option Bool :=
  match (m.sema (.plain (waiterSema a))).waiters, (m.sema (.plain (waiterSema b))).waiters with
  | t :: _, u :: _ => some (asPointer (m.priority u) < asPointer (m.priority t))
  | _, _ => none

/-- The next statement of a thread. The flag of `cond_signal` says that `cond_broadcast` has called it. -/
inductive CondPc where
  | out
  /-- `cond_wait`: `list_insert_ordered`. -/
  | waitInsert (c : CondId)
  /-- `lock_release (lock)`. -/
  | waitRelease (c : CondId)
  /-- `sema_down (&waiter.semaphore)`, when `lock_release` has returned. -/
  | waitDown (c : CondId)
  /-- `lock_acquire (lock)`, when `sema_down` has returned. -/
  | waitAcquire (c : CondId)
  /-- The end of `cond_wait`, when `lock_acquire` has returned. -/
  | waitReturn (c : CondId)
  /-- `cond_broadcast`: `while (!list_empty (&cond->waiters))`. -/
  | broadcast (c : CondId)
  | broadcastReturn (c : CondId)
  /-- `cond_signal`: the assertions and `if (!list_empty (&cond->waiters))`. -/
  | signal (c : CondId) (b : Bool)
  /-- `list_sort`. -/
  | sort (c : CondId) (b : Bool)
  /-- `list_pop_front`. -/
  | pop (c : CondId) (b : Bool)
  /-- `sema_up` on the semaphore of the waiter. -/
  | up (c : CondId) (w : Tid) (b : Bool)
  | signalReturn (c : CondId)
  deriving DecidableEq, Repr

structure Monitor where
  sys : Sys
  waiters : CondId → List Tid
  pc : Tid → CondPc
  signals : CondId → Tid → Nat
  /-- The waiters and their signals when the thread called. -/
  called : Tid → List Tid × (Tid → Nat)

inductive CondFault where
  | sys (f : Fault)
  /-- `ASSERT (lock_held_by_current_thread (lock))`. -/
  | assertHeld
  /-- `ASSERT (!list_empty (list))` in `list_front`. -/
  | assertEmpty
  /-- `ASSERT (is_sorted (...))` in `list_sort`. -/
  | assertSorted
  deriving DecidableEq, Repr

/-- How `list_sort` ends. `sema_cmp_priority` compares the priorities of the threads that sleep on the semaphores,
and what is in memory where a waiter does not sleep yet. -/
inductive Sorting where
  /-- What is compared stays the same. -/
  | stable (key : Tid → Int)
  /-- It does not: the list gets any order, or an assertion fails. -/
  | torn (outcome : Option (List Tid))

def sortWaiters : Sorting → List Tid → Option (List Tid)
  | .stable key, l => some (listSort (cmpPriority key) l)
  | .torn outcome, l => outcome.filter fun l' => l'.isPerm l

inductive CondAction where
  /-- A step outside the functions of conditions, or inside a call. -/
  | sys (a : Action)
  | wait (t : Tid) (c : CondId)
  | signal (t : Tid) (c : CondId)
  | broadcast (t : Tid) (c : CondId)
  /-- `list_insert_ordered`, where `before e` is the answer of `sema_cmp_priority` for the element `e`. -/
  | insert (t : Tid) (before : Tid → Bool)
  | sort (t : Tid) (sorting : Sorting)
  /-- Any other statement. -/
  | next (t : Tid)

namespace Monitor

def setPc (m : Monitor) (t : Tid) (p : CondPc) : Monitor := { m with pc := update m.pc t p }

/-- A call of a function of semaphores or locks. -/
def call (m : Monitor) (t : Tid) (p : CondPc) (a : Action) : Except CondFault Monitor :=
  match Interleave.step m.sys a with
  | .ok sys => .ok { m.setPc t p with sys := sys }
  | .error f => .error (.sys f)

/-- The thread may take the step: it is outside, or it is inside a call, or it has nothing to do with waiters. -/
def outside (m : Monitor) : Action → Bool
  | .step _ | .tear _ _ _ => true
  | .lockAcquire t _ | .lockTryAcquire t _ | .lockRelease t _ | .setPriority t _ => m.pc t = .out
  | .semaDown t n | .semaTryDown t n | .semaUp t n => m.pc t = .out && n % 2 = 1
  | .intrTryDown n | .intrUp n => n % 2 = 1

/-- History: what the thread finds. -/
def record (m : Monitor) (t : Tid) (c : CondId) : Monitor :=
  { m with called := update m.called t (m.waiters c, m.signals c) }

/-- The first assertion of a function that a thread with the lock calls. -/
def enter (lockOf : CondId → LockId) (m : Monitor) (t : Tid) (c : CondId) (p : CondPc) : Except CondFault Monitor :=
  if canCall m.sys t && m.pc t = .out && m.sys.held t (lockOf c) then .ok ((m.record t c).setPc t p)
  else .error (.sys .disabled)

/-- The next statement of `t`. -/
def next (lockOf : CondId → LockId) (m : Monitor) (t : Tid) : Except CondFault Monitor :=
  match m.pc t with
  | .waitRelease c => m.call t (.waitDown c) (.lockRelease t (lockOf c))
  | .waitDown c => m.call t (.waitAcquire c) (.semaDown t (waiterSema t))
  | .waitAcquire c => m.call t (.waitReturn c) (.lockAcquire t (lockOf c))
  | .waitReturn _ | .signalReturn _ | .broadcastReturn _ => .ok (m.setPc t .out)
  | .broadcast c => .ok (m.setPc t (if m.waiters c = [] then .broadcastReturn c else .signal c true))
  | .signal c b =>
    if m.sys.holder (lockOf c) = some t then
      -- the `if` has no braces, and `sema_up` is behind it
      .ok (m.setPc t (if m.waiters c = [] then .pop c b else .sort c b))
    else .error .assertHeld
  | .pop c b =>
    match m.waiters c with
    | [] => .error .assertEmpty
    | w :: rest => .ok { m.setPc t (.up c w b) with waiters := update m.waiters c rest }
  | .up c w b =>
    match Interleave.step m.sys (.semaUp t (waiterSema w)) with
    | .ok sys =>
      .ok { m.setPc t (if b then .broadcast c else .signalReturn c) with
        sys := sys
        signals := update m.signals c (update (m.signals c) w (m.signals c w + 1)) }
    | .error f => .error (.sys f)
  | _ => .error (.sys .disabled)

def step (lockOf : CondId → LockId) (m : Monitor) : CondAction → Except CondFault Monitor
  | .sys a =>
    if m.outside a then
      match Interleave.step m.sys a with
      | .ok sys => .ok { m with sys := sys }
      | .error f => .error (.sys f)
    else .error (.sys .disabled)
  | .wait t c =>
    match m.enter lockOf t c (.waitInsert c) with
    | .error f => .error f
    | .ok m' =>
      if m.sys.holder (lockOf c) = some t then
        .ok { m' with sys := m.sys.setSema (.plain (waiterSema t)) (semaInit 0) }
      else .error .assertHeld
  | .signal t c => m.enter lockOf t c (.signal c false)
  | .broadcast t c => m.enter lockOf t c (.broadcast c)
  | .insert t before =>
    match m.pc t with
    | .waitInsert c =>
      if canCall m.sys t then
        .ok { m.setPc t (.waitRelease c) with
          waiters := update m.waiters c (listInsertOrdered (fun _ e => before e) t (m.waiters c)) }
      else .error (.sys .disabled)
    | _ => .error (.sys .disabled)
  | .sort t sorting =>
    match m.pc t with
    | .sort c b =>
      if canCall m.sys t then
        match sortWaiters sorting (m.waiters c) with
        | some l => .ok { m.setPc t (.pop c b) with waiters := update m.waiters c l }
        | none => .error .assertSorted
      else .error (.sys .disabled)
    | _ => .error (.sys .disabled)
  | .next t => if canCall m.sys t then m.next lockOf t else .error (.sys .disabled)

/-- The action calls `sema_cmp_priority` for the semaphores of two threads. While what is compared changes,
`list_sort` may compare any two. -/
def Compares (m : Monitor) : CondAction → Tid → Tid → Prop
  | .insert t before, x, y =>
    ∃ c, m.pc t = .waitInsert c ∧ (x, y) ∈ insertCalls (fun _ e => before e) t (m.waiters c)
  | .sort t (.stable key), x, y => ∃ c b, m.pc t = .sort c b ∧ (x, y) ∈ sortCalls (cmpPriority key) (m.waiters c)
  | .sort t (.torn _), x, y => ∃ c b, m.pc t = .sort c b ∧ x ∈ m.waiters c ∧ y ∈ m.waiters c ∧ x ≠ y
  | _, _, _ => False

/-- The start: `cond_init` ran on each condition. -/
def boot (mlfqs : Bool) (value : Nat → BitVec 32) (priority : Tid → Int) : Monitor where
  sys := Interleave.boot mlfqs (fun n => if n % 2 = 0 then 0 else value n) priority
  waiters := fun _ => []
  pc := fun _ => .out
  signals := fun _ _ => 0
  called := fun _ => ([], fun _ => 0)

end Monitor

end Pintos.Interleave
