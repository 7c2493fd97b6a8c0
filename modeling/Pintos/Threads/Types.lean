import Mathlib.Logic.Function.Basic
import Pintos.Kernel.List

/-!
# Threads, semaphores and locks

The types `threads/thread.h` and `threads/synch.h` share, and the atomic bodies of
`sema_down`, `sema_try_down` and `sema_up` on one semaphore. A `struct thread *` and a
`struct lock *` are numbers; a list of threads is the list of the threads its nodes belong to.
-/

namespace Pintos

/-- A `struct thread *`. -/
abbrev Tid := Nat

/-- A `struct lock *`. -/
abbrev LockId := Nat

/-- A `struct semaphore *`: one of its own, or the one inside a lock. -/
inductive SemaId where
  | plain (n : Nat)
  | lock (l : LockId)
  deriving DecidableEq, Repr

/-- `enum thread_status`. -/
inductive ThreadStatus where
  | running
  | ready
  | blocked
  | dying
  deriving DecidableEq, Repr

def PRI_MIN : Int := 0
def PRI_DEFAULT : Int := 31
def PRI_MAX : Int := 63

/-- `struct semaphore`. `value` is `unsigned`, so it wraps. -/
structure Semaphore where
  value : BitVec 32
  waiters : List Tid
  deriving DecidableEq

/-- `sema_init`. -/
def semaInit (value : BitVec 32) : Semaphore := { value := value, waiters := [] }

/-- `cmp_priority` and `cmp_donation_priority`: both compare the `priority` fields. -/
def cmpPriority (priority : Tid → Int) (a b : Tid) : Bool := decide (priority a > priority b)

namespace Semaphore

/-- `sema_down`'s loop body at value 0: the caller joins the waiters. -/
def enqueue (s : Semaphore) (priority : Tid → Int) (t : Tid) : Semaphore :=
  { s with waiters := listInsertOrdered (cmpPriority priority) t s.waiters }

/-- `sema->value--`. -/
def decr (s : Semaphore) : Semaphore := { s with value := s.value - 1 }

/-- `sema->value++`. -/
def incr (s : Semaphore) : Semaphore := { s with value := s.value + 1 }

/-- `sema_up` picks the front of the sorted waiters. -/
def popWaiter (s : Semaphore) (priority : Tid → Int) : Option (Tid × List Tid) :=
  match listSort (cmpPriority priority) s.waiters with
  | [] => none
  | w :: rest => some (w, rest)

theorem popWaiter_none {s : Semaphore} {priority : Tid → Int} (h : s.popWaiter priority = none) :
    s.waiters = [] := by
  unfold popWaiter at h
  split at h
  · next hs => exact listSort_eq_nil.mp hs
  · cases h

theorem popWaiter_perm {s : Semaphore} {priority : Tid → Int} {w : Tid} {rest : List Tid}
    (h : s.popWaiter priority = some (w, rest)) : s.waiters.Perm (w :: rest) := by
  unfold popWaiter at h
  split at h
  · cases h
  · next hs =>
    cases h
    exact perm_of_listSort_eq_cons hs

@[simp] theorem enqueue_value (s : Semaphore) (p : Tid → Int) (t : Tid) :
    (s.enqueue p t).value = s.value := rfl

@[simp] theorem mem_enqueue {s : Semaphore} {p : Tid → Int} {t u : Tid} :
    u ∈ (s.enqueue p t).waiters ↔ u = t ∨ u ∈ s.waiters := mem_listInsertOrdered

@[simp] theorem decr_waiters (s : Semaphore) : s.decr.waiters = s.waiters := rfl

@[simp] theorem incr_waiters (s : Semaphore) : s.incr.waiters = s.waiters := rfl

end Semaphore

end Pintos
