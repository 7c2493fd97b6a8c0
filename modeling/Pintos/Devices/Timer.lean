import Pintos.Threads.Thread

/-!
# `timer_sleep`

The alarm clock of `devices/timer.c` over the scheduler of `Pintos/Threads/Thread.lean`.
`timer_sleep` reads the clock and then calls `thread_sleep`; interrupts may arrive in between and
other threads may run. Nothing else in the kernel calls `thread_sleep`.

`asleep`, `wakes` and `slept` are history: the sleep a thread is in, the sleeps it was unblocked
from, each with the tick at which that happened, and how many there were.
-/

namespace Pintos

open Function

/-- A sleep: the clock when `timer_sleep` was called, its argument, and the clock when the thread
was put on `sleep_list`. -/
structure Nap where
  called : Int
  arg : Int
  listed : Int
  deriving DecidableEq

/-- The tick count the thread waits for. -/
def Nap.deadline (n : Nap) : Int := n.called + n.arg

/-- The first tick after the thread was put on the list at which its deadline has passed. -/
def Nap.due (n : Nap) : Int := max (n.listed + 1) n.deadline

structure Alarm extends Kernel where
  /-- In `timer_sleep`, what the thread read from the clock, and the argument. -/
  call : Tid → Option (Int × Int)
  asleep : Tid → Option Nap
  wakes : Tid → List (Nap × Int)
  /-- How often the thread was put on `sleep_list`. -/
  slept : Tid → Nat

inductive AlarmAction where
  /-- The clock is read. -/
  | timerSleep (ticks : Int)
  /-- `thread_sleep (ticks + start)`. -/
  | threadSleep
  /-- Anything else. -/
  | kernel (a : KernelAction)

/-- Interrupts also arrive in `timer_sleep`. -/
def KernelAction.isInterrupt : KernelAction → Bool
  | .timerInterrupt _ | .intrUp _ | .intrTryDown _ => true
  | _ => false

def KernelAction.isSleep : KernelAction → Bool
  | .threadSleep _ => true
  | _ => false

namespace Alarm

/-- A thread that was asleep and is no longer blocked has been unblocked. -/
def observe (s : Alarm) (k : Kernel) : Alarm where
  toKernel := k
  call := s.call
  asleep t := if k.status t = .blocked then s.asleep t else none
  wakes t :=
    match s.asleep t with
    | none => s.wakes t
    | some nap => if k.status t = .blocked then s.wakes t else (nap, k.ticks) :: s.wakes t
  slept := s.slept

def step (s : Alarm) : AlarmAction → Except Halt Alarm
  | .timerSleep ticks =>
    if s.canCall ∧ s.call s.current = none then
      .ok { s with call := update s.call s.current (some (s.ticks, ticks)) }
    else .error .disabled
  | .threadSleep =>
    match s.call s.current with
    | none => .error .disabled
    | some (start, ticks) =>
      match s.toKernel.step (.threadSleep (ticks + start)) with
      | .error e => .error e
      | .ok k =>
        .ok { s.observe k with
          call := update s.call s.current none
          asleep := update (s.observe k).asleep s.current
            (some { called := start, arg := ticks, listed := s.ticks })
          slept := update s.slept s.current (s.slept s.current + 1) }
  | .kernel a =>
    if a.isSleep ∨ (s.call s.current ≠ none ∧ a.isInterrupt = false) then .error .disabled
    else
      match s.toKernel.step a with
      | .error e => .error e
      | .ok k => .ok (s.observe k)

/-- The scheduler as it starts, and nobody asleep. -/
def boot (k : Kernel) : Alarm where
  toKernel := k
  call := fun _ => none
  asleep := fun _ => none
  wakes := fun _ => []
  slept := fun _ => 0

end Alarm

end Pintos
