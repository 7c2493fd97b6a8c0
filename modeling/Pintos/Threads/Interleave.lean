import Pintos.Lib.Machine
import Pintos.Threads.Types

/-!
# `threads/synch.c` statement by statement

Semaphores and locks under every interleaving. A step is one statement of one thread; the
parts that run with interrupts disabled (`sema_down` up to `thread_block`, `sema_try_down`,
`sema_up`) are one step. Any thread that is not blocked may step next, so the runs cover
preemption at every point where interrupts are enabled and every choice of the scheduler.

`list_insert_ordered`, `remove_donation` and `re_priority` work on a donations list with
interrupts enabled. While a thread is inside one of them the action `tear` may leave the lists
and its own priority in any state, which covers every way two of them can overlap.

`held`, `ups` and `downs` are history: the locks a caller knows it has, and the completed
operations on each semaphore.
-/

namespace Pintos.Interleave

open Function

/-- The next statement of a thread. -/
inductive Pc where
  /-- Outside `synch.c`. -/
  | user
  /-- `lock_acquire`: `if(lock->holder)`. -/
  | acqTest (l : LockId)
  /-- `curr -> wait_on_lock = lock`. -/
  | acqWait (l : LockId)
  /-- The argument `&lock->holder->donations`. -/
  | acqHolder (l : LockId)
  /-- `list_insert_ordered` on the donations of `h`. -/
  | acqInsert (l : LockId) (h : Tid)
  /-- `priority_donation`: the loop test and `if(!curr->wait_on_lock) break`. -/
  | donTest (l : LockId) (depth : Nat) (curr : Tid)
  /-- `holder = curr->wait_on_lock->holder`. -/
  | donRead (l : LockId) (depth : Nat) (curr : Tid)
  /-- `holder->priority = curr->priority; curr = holder`. -/
  | donWrite (l : LockId) (depth : Nat) (curr : Tid) (holder : Option Tid)
  /-- `sema_down (&lock->semaphore)`. -/
  | acqDown (l : LockId)
  /-- In the loop of `sema_down`, asleep or woken; the caller is `lock_acquire (l)` or none. -/
  | downWait (s : SemaId) (l : Option LockId)
  /-- `curr->wait_on_lock = NULL`. -/
  | acqClear (l : LockId)
  /-- `lock->holder = curr`, in `lock_acquire`. -/
  | acqSet (l : LockId)
  /-- `lock->holder = thread_current ()`, in `lock_try_acquire`. -/
  | trySet (l : LockId)
  /-- `lock_release`: `ASSERT (lock_held_by_current_thread (lock))`. -/
  | relAssert (l : LockId)
  /-- `remove_donation(lock)`. -/
  | relRemove (l : LockId)
  /-- `re_priority()`. -/
  | relPriority (l : LockId)
  /-- `lock->holder = NULL`. -/
  | relHolder (l : LockId)
  /-- `sema_up (&lock->semaphore)`. -/
  | relUp (l : LockId)
  /-- `thread_set_priority`: `re_priority()`. -/
  | setPriority
  deriving DecidableEq, Repr

/-- The thread is inside a routine on a donations list that can be preempted. -/
def Pc.inDonations : Pc → Bool
  | .acqInsert _ _ | .relRemove _ | .relPriority _ | .setPriority => true
  | _ => false

structure Sys where
  mlfqs : Bool
  sema : SemaId → Semaphore
  holder : LockId → Option Tid
  pc : Tid → Pc
  status : Tid → ThreadStatus
  priority : Tid → Int
  initPriority : Tid → Int
  waitOnLock : Tid → Option LockId
  donations : Tid → List Tid
  held : Tid → LockId → Bool
  ups : SemaId → Nat
  downs : SemaId → Nat

/-- Why a step does not yield a state. -/
inductive Fault where
  /-- The thread cannot take this step. -/
  | disabled
  /-- `ASSERT (!lock_held_by_current_thread (lock))` in `lock_try_acquire`. -/
  | assertNotHeld
  /-- `ASSERT (lock_held_by_current_thread (lock))` in `lock_release`. -/
  | assertHeld
  /-- `ASSERT (t->status == THREAD_BLOCKED)` in `thread_unblock`. -/
  | assertBlocked
  /-- `holder` is `NULL` where `holder->donations` or `holder->priority` is evaluated. -/
  | nullHolder
  /-- `wait_on_lock` became `NULL` between its test and its use. -/
  | nullLock
  deriving DecidableEq, Repr

inductive Action where
  /-- The next statement of `t`. -/
  | step (t : Tid)
  | lockAcquire (t : Tid) (l : LockId)
  | lockTryAcquire (t : Tid) (l : LockId)
  | lockRelease (t : Tid) (l : LockId)
  | semaDown (t : Tid) (n : Nat)
  | semaTryDown (t : Tid) (n : Nat)
  | semaUp (t : Tid) (n : Nat)
  /-- `thread_set_priority (new_priority)`. -/
  | setPriority (t : Tid) (p : Int)
  /-- An interrupt handler calls `sema_try_down`. -/
  | intrTryDown (n : Nat)
  /-- An interrupt handler calls `sema_up`. -/
  | intrUp (n : Nat)
  /-- Routines on donations lists overlap while `t` is inside one. -/
  | tear (t : Tid) (donations : Tid → List Tid) (p : Int)

namespace Sys

/-- The thread is `THREAD_BLOCKED`. -/
def blocked (m : Sys) (t : Tid) : Bool := m.status t = .blocked

def setPc (m : Sys) (t : Tid) (p : Pc) : Sys := { m with pc := update m.pc t p }

def setSema (m : Sys) (s : SemaId) (v : Semaphore) : Sys := { m with sema := update m.sema s v }

def setStatus (m : Sys) (t : Tid) (st : ThreadStatus) : Sys :=
  { m with status := update m.status t st }

@[simp] theorem setPc_sema (m : Sys) (t : Tid) (p : Pc) : (m.setPc t p).sema = m.sema := rfl
@[simp] theorem setPc_holder (m : Sys) (t : Tid) (p : Pc) : (m.setPc t p).holder = m.holder := rfl
@[simp] theorem setPc_pc (m : Sys) (t : Tid) (p : Pc) : (m.setPc t p).pc = update m.pc t p := rfl
@[simp] theorem setPc_status (m : Sys) (t : Tid) (p : Pc) : (m.setPc t p).status = m.status := rfl
@[simp] theorem setPc_blocked (m : Sys) (t : Tid) (p : Pc) :
    (m.setPc t p).blocked = m.blocked := rfl
@[simp] theorem setPc_held (m : Sys) (t : Tid) (p : Pc) : (m.setPc t p).held = m.held := rfl
@[simp] theorem setPc_waitOnLock (m : Sys) (t : Tid) (p : Pc) :
    (m.setPc t p).waitOnLock = m.waitOnLock := rfl
@[simp] theorem setPc_mlfqs (m : Sys) (t : Tid) (p : Pc) : (m.setPc t p).mlfqs = m.mlfqs := rfl
@[simp] theorem setPc_ups (m : Sys) (t : Tid) (p : Pc) : (m.setPc t p).ups = m.ups := rfl
@[simp] theorem setPc_downs (m : Sys) (t : Tid) (p : Pc) : (m.setPc t p).downs = m.downs := rfl
@[simp] theorem setSema_ups (m : Sys) (s : SemaId) (v : Semaphore) :
    (m.setSema s v).ups = m.ups := rfl
@[simp] theorem setSema_downs (m : Sys) (s : SemaId) (v : Semaphore) :
    (m.setSema s v).downs = m.downs := rfl
@[simp] theorem setSema_status (m : Sys) (s : SemaId) (v : Semaphore) :
    (m.setSema s v).status = m.status := rfl
@[simp] theorem setSema_blocked (m : Sys) (s : SemaId) (v : Semaphore) :
    (m.setSema s v).blocked = m.blocked := rfl
@[simp] theorem setSema_mlfqs (m : Sys) (s : SemaId) (v : Semaphore) :
    (m.setSema s v).mlfqs = m.mlfqs := rfl
@[simp] theorem setSema_sema (m : Sys) (s : SemaId) (v : Semaphore) :
    (m.setSema s v).sema = update m.sema s v := rfl
@[simp] theorem setSema_holder (m : Sys) (s : SemaId) (v : Semaphore) :
    (m.setSema s v).holder = m.holder := rfl
@[simp] theorem setSema_pc (m : Sys) (s : SemaId) (v : Semaphore) : (m.setSema s v).pc = m.pc := rfl
@[simp] theorem setSema_held (m : Sys) (s : SemaId) (v : Semaphore) :
    (m.setSema s v).held = m.held := rfl
@[simp] theorem setSema_waitOnLock (m : Sys) (s : SemaId) (v : Semaphore) :
    (m.setSema s v).waitOnLock = m.waitOnLock := rfl

@[simp] theorem setStatus_sema (m : Sys) (t : Tid) (st : ThreadStatus) :
    (m.setStatus t st).sema = m.sema := rfl
@[simp] theorem setStatus_holder (m : Sys) (t : Tid) (st : ThreadStatus) :
    (m.setStatus t st).holder = m.holder := rfl
@[simp] theorem setStatus_pc (m : Sys) (t : Tid) (st : ThreadStatus) :
    (m.setStatus t st).pc = m.pc := rfl
@[simp] theorem setStatus_held (m : Sys) (t : Tid) (st : ThreadStatus) :
    (m.setStatus t st).held = m.held := rfl
@[simp] theorem setStatus_ups (m : Sys) (t : Tid) (st : ThreadStatus) :
    (m.setStatus t st).ups = m.ups := rfl
@[simp] theorem setStatus_downs (m : Sys) (t : Tid) (st : ThreadStatus) :
    (m.setStatus t st).downs = m.downs := rfl

@[simp] theorem blocked_setStatus (m : Sys) (t : Tid) (st : ThreadStatus) :
    (m.setStatus t st).blocked = update m.blocked t (decide (st = .blocked)) := by
  funext u
  by_cases hut : u = t
  · subst hut
    simp [blocked, setStatus]
  · simp [blocked, setStatus, hut]

/-- `sema->value--`. -/
def take (m : Sys) (s : SemaId) : Sys :=
  { m.setSema s (m.sema s).decr with downs := update m.downs s (m.downs s + 1) }

@[simp] theorem take_sema (m : Sys) (s : SemaId) :
    (m.take s).sema = update m.sema s (m.sema s).decr := rfl
@[simp] theorem take_holder (m : Sys) (s : SemaId) : (m.take s).holder = m.holder := rfl
@[simp] theorem take_pc (m : Sys) (s : SemaId) : (m.take s).pc = m.pc := rfl
@[simp] theorem take_status (m : Sys) (s : SemaId) : (m.take s).status = m.status := rfl
@[simp] theorem take_blocked (m : Sys) (s : SemaId) : (m.take s).blocked = m.blocked := rfl
@[simp] theorem take_held (m : Sys) (s : SemaId) : (m.take s).held = m.held := rfl
@[simp] theorem take_waitOnLock (m : Sys) (s : SemaId) :
    (m.take s).waitOnLock = m.waitOnLock := rfl

/-- Where `sema_down` returns to. -/
def afterDown (m : Sys) : Option LockId → Pc
  | none => .user
  | some l => if m.mlfqs then .acqSet l else .acqClear l

/-- The body of `sema_down` from the test of the value to `thread_block` or to the return. -/
def semaDown (m : Sys) (t : Tid) (s : SemaId) (l : Option LockId) : Sys :=
  if (m.sema s).value = 0 then
    ((m.setSema s ((m.sema s).enqueue m.priority t)).setPc t (.downWait s l)).setStatus t .blocked
  else (m.take s).setPc t (m.afterDown l)

/-- `sema_try_down`, and its result. -/
def semaTryDown (m : Sys) (s : SemaId) : Sys × Bool :=
  if (m.sema s).value ≠ 0 then (m.take s, true) else (m, false)

/-- `sema_up`. A yield in `thread_compare_priority` only lets another thread step next. -/
def semaUp (m : Sys) (s : SemaId) : Except Fault Sys :=
  match (m.sema s).popWaiter m.priority with
  | none =>
    .ok { m.setSema s (m.sema s).incr with ups := update m.ups s (m.ups s + 1) }
  | some (w, rest) =>
    if m.blocked w then
      .ok { (m.setSema s { value := (m.sema s).value + 1, waiters := rest }).setStatus w .ready with
        ups := update m.ups s (m.ups s + 1) }
    else .error .assertBlocked

/-- `remove_donation`, run by `t`: the donors that wait on `l` leave the list. -/
def removeDonation (m : Sys) (t : Tid) (l : LockId) : Sys :=
  { m with donations :=
      update m.donations t ((m.donations t).filter (fun d => m.waitOnLock d ≠ some l)) }

/-- `re_priority`, run by `t`. -/
def rePriority (m : Sys) (t : Tid) : Sys :=
  let sorted := listSort (cmpPriority m.priority) (m.donations t)
  let p := match sorted with
    | [] => m.initPriority t
    | front :: _ =>
      if m.initPriority t < m.priority front then m.priority front else m.initPriority t
  { m with donations := update m.donations t sorted, priority := update m.priority t p }

end Sys

open Sys

/-- The next statement of `t`. -/
def stepThread (m : Sys) (t : Tid) : Except Fault Sys :=
  if m.blocked t then .error .disabled else
  match m.pc t with
  | .user => .error .disabled
  | .acqTest l => .ok (m.setPc t (if (m.holder l).isSome then .acqWait l else .acqDown l))
  | .acqWait l => .ok { m.setPc t (.acqHolder l) with waitOnLock := update m.waitOnLock t (some l) }
  | .acqHolder l =>
    match m.holder l with
    | none => .error .nullHolder
    | some h => .ok (m.setPc t (.acqInsert l h))
  | .acqInsert l h =>
    .ok { m.setPc t (.donTest l 0 t) with
      donations :=
        update m.donations h (listInsertOrdered (cmpPriority m.priority) t (m.donations h)) }
  | .donTest l depth curr =>
    .ok (m.setPc t
      (if depth < 8 ∧ (m.waitOnLock curr).isSome then .donRead l depth curr else .acqDown l))
  | .donRead l depth curr =>
    match m.waitOnLock curr with
    | none => .error .nullLock
    | some l' => .ok (m.setPc t (.donWrite l depth curr (m.holder l')))
  | .donWrite l depth curr holder =>
    match holder with
    | none => .error .nullHolder
    | some h =>
      .ok { m.setPc t (.donTest l (depth + 1) h) with
        priority := update m.priority h (m.priority curr) }
  | .acqDown l => .ok (m.semaDown t (.lock l) (some l))
  | .downWait s l => .ok (m.semaDown t s l)
  | .acqClear l => .ok { m.setPc t (.acqSet l) with waitOnLock := update m.waitOnLock t none }
  | .acqSet l | .trySet l =>
    .ok { m.setPc t .user with
      holder := update m.holder l (some t)
      held := update m.held t (update (m.held t) l true) }
  | .relAssert l =>
    if m.holder l = some t then
      .ok (m.setPc t (if m.mlfqs then .relHolder l else .relRemove l))
    else .error .assertHeld
  | .relRemove l => .ok ((m.removeDonation t l).setPc t (.relPriority l))
  | .relPriority l => .ok ((m.rePriority t).setPc t (.relHolder l))
  | .relHolder l => .ok { m.setPc t (.relUp l) with holder := update m.holder l none }
  | .relUp l => (m.setPc t .user).semaUp (.lock l)
  | .setPriority => .ok ((m.rePriority t).setPc t .user)

/-- A thread outside `synch.c` that is not blocked may call into it. -/
def canCall (m : Sys) (t : Tid) : Bool := m.pc t = .user && !m.blocked t

def step (m : Sys) : Action → Except Fault Sys
  | .step t => stepThread m t
  | .lockAcquire t l =>
    if canCall m t then .ok (m.setPc t (if m.mlfqs then .acqDown l else .acqTest l))
    else .error .disabled
  | .lockTryAcquire t l =>
    if !canCall m t then .error .disabled
    else if m.holder l = some t then .error .assertNotHeld
    else
      let r := m.semaTryDown (.lock l)
      .ok (r.1.setPc t (if r.2 then .trySet l else .user))
  | .lockRelease t l =>
    -- the caller releases only a lock it knows it has
    if canCall m t && m.held t l then
      .ok { m.setPc t (.relAssert l) with held := update m.held t (update (m.held t) l false) }
    else .error .disabled
  | .semaDown t n =>
    if canCall m t then .ok (m.semaDown t (.plain n) none) else .error .disabled
  | .semaTryDown t n =>
    if canCall m t then .ok (m.semaTryDown (.plain n)).1 else .error .disabled
  | .semaUp t n => if canCall m t then m.semaUp (.plain n) else .error .disabled
  | .setPriority t p =>
    if canCall m t then
      .ok (if m.mlfqs then m
        else { m.setPc t .setPriority with initPriority := update m.initPriority t p })
    else .error .disabled
  | .intrTryDown n => .ok (m.semaTryDown (.plain n)).1
  | .intrUp n => m.semaUp (.plain n)
  | .tear t donations p =>
    if !m.blocked t && (m.pc t).inDonations then
      .ok { m with donations := donations, priority := update m.priority t p }
    else .error .disabled

/--
The start: every thread is outside `synch.c`, `sema_init` gave each semaphore its value and
`lock_init` ran on each lock. Any priorities, either scheduler.
-/
def boot (mlfqs : Bool) (value : Nat → BitVec 32) (priority : Tid → Int) : Sys where
  mlfqs := mlfqs
  sema
    | .plain n => semaInit (value n)
    | .lock _ => semaInit 1
  holder := fun _ => none
  pc := fun _ => .user
  status := fun _ => .ready
  priority := priority
  initPriority := priority
  waitOnLock := fun _ => none
  donations := fun _ => []
  held := fun _ _ => false
  ups := fun _ => 0
  downs := fun _ => 0

/-! ## What a statement can do -/

/-- `Stmt m t m'`: the next statement of `t` leads to `m'`, one case for each statement. -/
inductive Stmt (m : Sys) (t : Tid) : Sys → Prop
  | acqTest {l} (hpc : m.pc t = .acqTest l) :
      Stmt m t (m.setPc t (if (m.holder l).isSome then .acqWait l else .acqDown l))
  | acqWait {l} (hpc : m.pc t = .acqWait l) :
      Stmt m t { m.setPc t (.acqHolder l) with waitOnLock := update m.waitOnLock t (some l) }
  | acqHolder {l h} (hpc : m.pc t = .acqHolder l) (hh : m.holder l = some h) :
      Stmt m t (m.setPc t (.acqInsert l h))
  | acqInsert {l h} (hpc : m.pc t = .acqInsert l h) :
      Stmt m t { m.setPc t (.donTest l 0 t) with
        donations :=
          update m.donations h (listInsertOrdered (cmpPriority m.priority) t (m.donations h)) }
  | donTest {l depth curr} (hpc : m.pc t = .donTest l depth curr) :
      Stmt m t (m.setPc t
        (if depth < 8 ∧ (m.waitOnLock curr).isSome then .donRead l depth curr else .acqDown l))
  | donRead {l depth curr l'} (hpc : m.pc t = .donRead l depth curr)
      (hw : m.waitOnLock curr = some l') :
      Stmt m t (m.setPc t (.donWrite l depth curr (m.holder l')))
  | donWrite {l depth curr h} (hpc : m.pc t = .donWrite l depth curr (some h)) :
      Stmt m t { m.setPc t (.donTest l (depth + 1) h) with
        priority := update m.priority h (m.priority curr) }
  | acqDown {l} (hpc : m.pc t = .acqDown l) : Stmt m t (m.semaDown t (.lock l) (some l))
  | downWait {s l} (hpc : m.pc t = .downWait s l) : Stmt m t (m.semaDown t s l)
  | acqClear {l} (hpc : m.pc t = .acqClear l) :
      Stmt m t { m.setPc t (.acqSet l) with waitOnLock := update m.waitOnLock t none }
  | setHolder {l} (hpc : m.pc t = .acqSet l ∨ m.pc t = .trySet l) :
      Stmt m t { m.setPc t .user with
        holder := update m.holder l (some t)
        held := update m.held t (update (m.held t) l true) }
  | relAssert {l} (hpc : m.pc t = .relAssert l) (hh : m.holder l = some t) :
      Stmt m t (m.setPc t (if m.mlfqs then .relHolder l else .relRemove l))
  | relRemove {l} (hpc : m.pc t = .relRemove l) :
      Stmt m t ((m.removeDonation t l).setPc t (.relPriority l))
  | relPriority {l} (hpc : m.pc t = .relPriority l) :
      Stmt m t ((m.rePriority t).setPc t (.relHolder l))
  | relHolder {l} (hpc : m.pc t = .relHolder l) :
      Stmt m t { m.setPc t (.relUp l) with holder := update m.holder l none }
  | relUp {l m'} (hpc : m.pc t = .relUp l) (hu : (m.setPc t .user).semaUp (.lock l) = .ok m') :
      Stmt m t m'
  | setPriority (hpc : m.pc t = .setPriority) : Stmt m t ((m.rePriority t).setPc t .user)

theorem stepThread_cases {m m' : Sys} {t : Tid} (h : stepThread m t = .ok m') :
    m.blocked t = false ∧ Stmt m t m' := by
  unfold stepThread at h
  split at h
  · cases h
  next hb =>
  refine ⟨by simpa using hb, ?_⟩
  split at h
  case h_1 => cases h
  case h_2 l hpc => cases h; exact .acqTest hpc
  case h_3 l hpc => cases h; exact .acqWait hpc
  case h_4 l hpc =>
    split at h
    · cases h
    · next u hh => cases h; exact .acqHolder hpc hh
  case h_5 l u hpc => cases h; exact .acqInsert hpc
  case h_6 l depth curr hpc => cases h; exact .donTest hpc
  case h_7 l depth curr hpc =>
    split at h
    · cases h
    · next l' hw => cases h; exact .donRead hpc hw
  case h_8 l depth curr holder hpc =>
    split at h
    · cases h
    · cases h; exact .donWrite hpc
  case h_9 l hpc => cases h; exact .acqDown hpc
  case h_10 s l hpc => cases h; exact .downWait hpc
  case h_11 l hpc => cases h; exact .acqClear hpc
  case h_12 l hpc => cases h; exact .setHolder (Or.inl hpc)
  case h_13 l hpc => cases h; exact .setHolder (Or.inr hpc)
  case h_14 l hpc =>
    split at h
    · next hh => cases h; exact .relAssert hpc hh
    · cases h
  case h_15 l hpc => cases h; exact .relRemove hpc
  case h_16 l hpc => cases h; exact .relPriority hpc
  case h_17 l hpc => cases h; exact .relHolder hpc
  case h_18 l hpc => exact .relUp hpc h
  case h_19 hpc => cases h; exact .setPriority hpc

theorem canCall_iff {m : Sys} {t : Tid} :
    canCall m t = true ↔ m.pc t = .user ∧ m.blocked t = false := by
  simp [canCall]

/-- `Call m m'`: an action other than a statement of a thread leads to `m'`. -/
inductive Call (m : Sys) : Sys → Prop
  | lockAcquire {t l} (hpc : m.pc t = .user) (hb : m.blocked t = false) :
      Call m (m.setPc t (if m.mlfqs then .acqDown l else .acqTest l))
  | lockTryAcquire {t l} (hpc : m.pc t = .user) (hb : m.blocked t = false)
      (hh : m.holder l ≠ some t) :
      Call m ((m.semaTryDown (.lock l)).1.setPc t
        (if (m.semaTryDown (.lock l)).2 then .trySet l else .user))
  | lockRelease {t l} (hpc : m.pc t = .user) (hb : m.blocked t = false)
      (hh : m.held t l = true) :
      Call m { m.setPc t (.relAssert l) with
        held := update m.held t (update (m.held t) l false) }
  | semaDown {t n} (hpc : m.pc t = .user) (hb : m.blocked t = false) :
      Call m (m.semaDown t (.plain n) none)
  | semaTryDown {n} : Call m (m.semaTryDown (.plain n)).1
  | semaUp {n m'} (hu : m.semaUp (.plain n) = .ok m') : Call m m'
  | setPriorityMlfqs (hm : m.mlfqs = true) : Call m m
  | setPriority {t p} (hpc : m.pc t = .user) (hb : m.blocked t = false) (hm : m.mlfqs = false) :
      Call m { m.setPc t .setPriority with initPriority := update m.initPriority t p }
  | tear {t don p} (hb : m.blocked t = false) (hpc : (m.pc t).inDonations = true) :
      Call m { m with donations := don, priority := update m.priority t p }

theorem step_cases {m m' : Sys} {a : Action} (h : step m a = .ok m') :
    (∃ t, a = .step t ∧ m.blocked t = false ∧ Stmt m t m') ∨ Call m m' := by
  cases a with
  | step t => exact Or.inl ⟨t, rfl, stepThread_cases h⟩
  | lockAcquire t l =>
    simp only [step] at h
    split at h
    · next hc =>
      obtain ⟨hpc, hb⟩ := canCall_iff.mp hc
      cases h; exact Or.inr (.lockAcquire hpc hb)
    · cases h
  | lockTryAcquire t l =>
    simp only [step, Bool.not_eq_true'] at h
    split at h
    · cases h
    next hc =>
    obtain ⟨hpc, hb⟩ := canCall_iff.mp (by simpa using hc)
    split at h
    · cases h
    · next hh => cases h; exact Or.inr (.lockTryAcquire hpc hb hh)
  | lockRelease t l =>
    simp only [step, Bool.and_eq_true] at h
    split at h
    · next hc =>
      obtain ⟨hpc, hb⟩ := canCall_iff.mp hc.1
      cases h; exact Or.inr (.lockRelease hpc hb hc.2)
    · cases h
  | semaDown t n =>
    simp only [step] at h
    split at h
    · next hc =>
      obtain ⟨hpc, hb⟩ := canCall_iff.mp hc
      cases h; exact Or.inr (.semaDown hpc hb)
    · cases h
  | semaTryDown t n =>
    simp only [step] at h
    split at h
    · cases h; exact Or.inr .semaTryDown
    · cases h
  | semaUp t n =>
    simp only [step] at h
    split at h
    · exact Or.inr (.semaUp h)
    · cases h
  | setPriority t p =>
    simp only [step] at h
    split at h
    · next hc =>
      obtain ⟨hpc, hb⟩ := canCall_iff.mp hc
      cases h
      split
      · next hm => exact Or.inr (.setPriorityMlfqs hm)
      · next hm => exact Or.inr (.setPriority hpc hb (by simpa using hm))
    · cases h
  | intrTryDown n => cases h; exact Or.inr .semaTryDown
  | intrUp n => exact Or.inr (.semaUp h)
  | tear t don p =>
    simp only [step, Bool.and_eq_true, Bool.not_eq_true'] at h
    split at h
    · next hc => cases h; exact Or.inr (.tear hc.1 hc.2)
    · cases h

/-! ## `thread_mlfqs` is set once -/

theorem semaDown_mlfqs (m : Sys) (t : Tid) (s : SemaId) (l : Option LockId) :
    (m.semaDown t s l).mlfqs = m.mlfqs := by
  unfold Sys.semaDown
  split <;> rfl

theorem semaTryDown_mlfqs (m : Sys) (s : SemaId) : (m.semaTryDown s).1.mlfqs = m.mlfqs := by
  unfold Sys.semaTryDown
  split <;> rfl

theorem semaUp_mlfqs {m m' : Sys} {s : SemaId} (h : m.semaUp s = .ok m') :
    m'.mlfqs = m.mlfqs := by
  unfold Sys.semaUp at h
  split at h
  · cases h; rfl
  · split at h
    · cases h; rfl
    · cases h

theorem step_mlfqs {m m' : Sys} {a : Action} (h : step m a = .ok m') : m'.mlfqs = m.mlfqs := by
  rcases step_cases h with ⟨t, -, -, hs⟩ | hc
  · cases hs with
    | acqDown => exact semaDown_mlfqs m t _ _
    | downWait => exact semaDown_mlfqs m t _ _
    | relUp _ hu => exact (semaUp_mlfqs hu).trans rfl
    | _ => rfl
  · cases hc with
    | lockTryAcquire => exact semaTryDown_mlfqs m _
    | semaDown => exact semaDown_mlfqs m _ _ _
    | semaTryDown => exact semaTryDown_mlfqs m _
    | semaUp hu => exact semaUp_mlfqs hu
    | _ => rfl

end Pintos.Interleave
