import Pintos.Threads.Mlfqs
import Pintos.Threads.Thread

/-!
# The scheduler with `thread_mlfqs`

The scheduler of `Pintos/Threads/Thread.lean` with the numbers of `Pintos/Threads/Mlfqs.lean`: a
timer interrupt calculates the priorities of all threads, and `thread_set_nice` the one of its thread.
-/

namespace Pintos

open Function

structure Feedback extends Kernel where
  loadAvg : Int
  recentCpu : Tid → Int
  nice : Tid → Int
  allList : List Tid

inductive FeedbackAction where
  | timerInterrupt
  /-- `thread_set_nice`, up to `thread_compare_priority`. -/
  | setNice (nice : Int)
  /-- Anything else. -/
  | kernel (a : KernelAction)

inductive FeedbackHalt where
  | kernel (h : Halt)
  | mlfqs (h : MlfqsHalt)
  deriving DecidableEq

def KernelAction.isTimer : KernelAction → Bool
  | .timerInterrupt _ => true
  | _ => false

namespace Feedback

/-- What the calculations read and write. -/
def toMlfqs (s : Feedback) : Mlfqs where
  loadAvg := s.loadAvg
  recentCpu := s.recentCpu
  nice := s.nice
  priority := s.priority
  allList := s.allList
  idleThread := s.idleThread

/-- `k` is the state after `a`; `init_thread` and `thread_exit` also change `all_list`. -/
def register (s : Feedback) (k : Kernel) : KernelAction → Feedback
  | .threadCreate t _ =>
    { s with
      toKernel := k
      recentCpu := update s.recentCpu t 0
      nice := update s.nice t 0
      allList := s.allList ++ [t] }
  | .threadExit => { s with toKernel := k, allList := s.allList.erase s.current }
  | _ => { s with toKernel := k }

@[simp] theorem register_toKernel (s : Feedback) (k : Kernel) (a : KernelAction) :
    (s.register k a).toKernel = k := by
  unfold register
  split <;> rfl

def step (s : Feedback) : FeedbackAction → Except FeedbackHalt Feedback
  | .timerInterrupt =>
    match s.toMlfqs.timerInterrupt (s.ticks + 1).toNat s.current s.readyList.length with
    | .error e => .error (.mlfqs e)
    | .ok m =>
      match s.toKernel.step (.timerInterrupt m.priority) with
      | .error e => .error (.kernel e)
      | .ok k => .ok { s with toKernel := k, loadAvg := m.loadAvg, recentCpu := m.recentCpu }
  | .setNice nice =>
    if s.canCall ∧ s.doing s.current = .nothing then
      match Mlfqs.calculatePriority { s.toMlfqs with nice := update s.nice s.current nice }
          s.current with
      | .error e => .error (.mlfqs (.fault e))
      | .ok m =>
        .ok { s with
          nice := m.nice
          priority := m.priority
          doing := update s.doing s.current .comparing }
    else .error (.kernel .disabled)
  | .kernel a =>
    if a.isTimer then .error (.kernel .disabled)
    else
      match s.toKernel.step a with
      | .error e => .error (.kernel e)
      | .ok k => .ok (s.register k a)

/-- `thread_start` has created `idle`; no tick has passed. -/
def boot (value : Nat → BitVec 32) (main idle : Tid) : Feedback where
  toKernel := Kernel.boot true value main idle
  loadAvg := 0
  recentCpu := fun _ => 0
  nice := fun _ => 0
  allList := [main, idle]

end Feedback

end Pintos
