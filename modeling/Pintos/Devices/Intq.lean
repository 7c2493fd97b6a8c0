import Pintos.Threads.Types

/-!
# `devices/intq.c`

Interrupt queues, and any number of threads and interrupt handlers that use one.

Interrupts are off in `intq_getc` and `intq_putc`, so a thread there gives way only where it sleeps,
in `lock_acquire` and in `wait`, and in `sema_up` (`thread_compare_priority`) when `lock_release`
finds that a thread of higher priority is ready. A step is what a thread does from one such place to
the next, or an interrupt handler between two of them. Priorities change with every donation: each
step is given those that hold at its time.

`accepted` and `returned` are history: the bytes put and got so far.
-/

namespace Pintos

open Function

def INTQ_BUFSIZE : Nat := 64

/-- `struct intq`. -/
structure Intq where
  /-- The semaphore of `lock`. -/
  lock : Semaphore
  holder : Option Tid
  notFull : Option Tid
  notEmpty : Option Tid
  buf : Nat → BitVec 8
  head : Nat
  tail : Nat

/-- What a thread wants of the queue. -/
inductive IntqOp where
  | getc
  | putc (byte : BitVec 8)
  deriving DecidableEq

/-- Where a thread is in `intq_getc` or `intq_putc`. -/
inductive IntqPc where
  | user
  /-- At the test of the loop, ready. -/
  | test (op : IntqOp)
  /-- Asleep in `lock_acquire`. -/
  | acquire (op : IntqOp)
  /-- Unblocked in `lock_acquire`. -/
  | acquireReady (op : IntqOp)
  /-- Asleep in `wait`. -/
  | wait (op : IntqOp)
  /-- Unblocked in `wait`. -/
  | waitReady (op : IntqOp)
  deriving DecidableEq

structure IntqSys extends Intq where
  pc : Tid → IntqPc
  accepted : List (BitVec 8)
  returned : List (BitVec 8)

inductive IntqHalt where
  /-- The step is not possible. -/
  | disabled
  /-- The `ASSERT` on the condition in `wait` or `signal`. -/
  | assertCondition
  /-- `ASSERT (t->status == THREAD_BLOCKED)` in `thread_unblock`. -/
  | assertBlocked
  /-- `ASSERT (!lock_held_by_current_thread (lock))` in `lock_acquire`, or the contrary in
  `lock_release`. -/
  | assertHolder
  deriving DecidableEq

/-- The position after `pos`. -/
def Intq.next (pos : Nat) : Nat := (pos + 1) % INTQ_BUFSIZE

namespace Intq

def empty (q : Intq) : Bool := q.head = q.tail

def full (q : Intq) : Bool := next q.head = q.tail

/-- The condition of the loop: the thread has to sleep. -/
def mustWait (q : Intq) : IntqOp → Bool
  | .getc => q.empty
  | .putc _ => q.full

/-- `intq_init`. -/
def init : Intq where
  lock := semaInit 1
  holder := none
  notFull := none
  notEmpty := none
  buf := fun _ => 0
  head := 0
  tail := 0

end Intq

namespace IntqSys

def setPc (s : IntqSys) (t : Tid) (p : IntqPc) : IntqSys := { s with pc := update s.pc t p }

/-- `thread_unblock` of a thread in `wait`. -/
def unblockWaiter (s : IntqSys) (t : Tid) : Except IntqHalt IntqSys :=
  match s.pc t with
  | .wait op => .ok (s.setPc t (.waitReady op))
  | _ => .error .assertBlocked

/-- `signal (q, &q->not_full)`. -/
def signalNotFull (s : IntqSys) : Except IntqHalt IntqSys :=
  if s.full then .error .assertCondition
  else
    match s.notFull with
    | none => .ok s
    | some w => unblockWaiter { s with notFull := none } w

/-- `signal (q, &q->not_empty)`. -/
def signalNotEmpty (s : IntqSys) : Except IntqHalt IntqSys :=
  if s.empty then .error .assertCondition
  else
    match s.notEmpty with
    | none => .ok s
    | some w => unblockWaiter { s with notEmpty := none } w

/-- What follows the loop. -/
def finish (s : IntqSys) : IntqOp → Except IntqHalt IntqSys
  | .getc =>
    signalNotFull { s with tail := Intq.next s.tail, returned := s.returned ++ [s.buf s.tail] }
  | .putc byte =>
    signalNotEmpty { s with
      buf := update s.buf s.head byte
      head := Intq.next s.head
      accepted := s.accepted ++ [byte] }

/-- `wait`, up to `thread_block`. -/
def wait (s : IntqSys) (t : Tid) (op : IntqOp) : Except IntqHalt IntqSys :=
  if s.mustWait op then
    match op with
    | .getc => .ok ({ s with notEmpty := some t }.setPc t (.wait op))
    | .putc _ => .ok ({ s with notFull := some t }.setPc t (.wait op))
  else .error .assertCondition

/-- The loop of `sema_down` in `lock_acquire`, and `wait`. -/
def acquire (s : IntqSys) (priority : Tid → Int) (t : Tid) (op : IntqOp) : Except IntqHalt IntqSys :=
  if s.lock.value = 0 then
    .ok ({ s with lock := s.lock.enqueue priority t }.setPc t (.acquire op))
  else wait { s with lock := s.lock.decr, holder := some t } t op

/-- The loop of `intq_getc` or `intq_putc` from its test on. -/
def loop (s : IntqSys) (priority : Tid → Int) (t : Tid) (op : IntqOp) : Except IntqHalt IntqSys :=
  if s.mustWait op then
    if s.holder = some t then .error .assertHolder else s.acquire priority t op
  else finish (s.setPc t .user) op

/-- `lock_release` up to `thread_compare_priority`. -/
def release (s : IntqSys) (priority : Tid → Int) (t : Tid) : Except IntqHalt IntqSys :=
  if s.holder ≠ some t then .error .assertHolder
  else
    match s.lock.popWaiter priority with
    | none => .ok { s with holder := none, lock := s.lock.incr }
    | some (w, rest) =>
      match s.pc w with
      | .acquire op =>
        .ok ({ s with holder := none, lock := ({ s.lock with waiters := rest } : Semaphore).incr }.setPc w
          (.acquireReady op))
      | _ => .error .assertBlocked

end IntqSys

inductive IntqAction where
  /-- A thread calls `intq_getc` or `intq_putc`. -/
  | call (t : Tid) (op : IntqOp) (priority : Tid → Int)
  /-- A thread that is ready goes on. `yields` tells whether `thread_compare_priority` finds a thread
  of higher priority. -/
  | resume (t : Tid) (priority : Tid → Int) (yields : Bool)
  /-- An interrupt handler calls `intq_getc` on a queue that is not empty, or `intq_putc` on one that
  is not full. -/
  | interrupt (op : IntqOp)

namespace IntqSys

def step (s : IntqSys) : IntqAction → Except IntqHalt IntqSys
  | .call t op priority => if s.pc t = .user then s.loop priority t op else .error .disabled
  | .resume t priority yields =>
    match s.pc t with
    | .test op => s.loop priority t op
    | .acquireReady op => s.acquire priority t op
    | .waitReady op =>
      match s.release priority t with
      | .error e => .error e
      | .ok s => if yields then .ok (s.setPc t (.test op)) else s.loop priority t op
    | _ => .error .disabled
  | .interrupt op => if s.mustWait op then .error .disabled else s.finish op

def boot : IntqSys where
  toIntq := Intq.init
  pc := fun _ => .user
  accepted := []
  returned := []

end IntqSys

end Pintos
