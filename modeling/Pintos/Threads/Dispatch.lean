import Pintos.Lib.RoundRobin
import Pintos.Threads.Thread

/-!
# The timer interrupt, and the scheduler with a log

* `Kernel.timerInterrupt` — what the handler does before the interrupt returns or yields
* `Logged` — a state with a log

The functions of `Thread` that change `ready_list`, with a log of the threads that enter it and of those that
`next_thread_to_run` returns. Each has the body of the function without a log, and `step_toKernel` says that it is one.

The log is history. A page that `thread_create` gets is logged too, since the thread in it is another one from then on.
-/

namespace Pintos

open Function RoundRobin
open Interleave (Sys)

/-- `timer_interrupt` up to `thread_awake`: the ticks, and the priorities it leaves with `thread_mlfqs`. -/
def Kernel.ticked (k : Kernel) (recalculated : Tid → Int) : Kernel :=
  { k with
    ticks := k.ticks + 1
    threadTicks := k.threadTicks + 1
    priority := if k.mlfqs then recalculated else k.priority }

/-- `timer_interrupt`, and what it leaves in `yield_on_return`. -/
def Kernel.timerInterrupt (k : Kernel) (recalculated : Tid → Int) : Except Halt (Kernel × Bool) :=
  let k := k.ticked recalculated
  match k.threadAwake k.ticks with
  | .ok k' => .ok (k', TIME_SLICE ≤ k.threadTicks)
  | .error e => .error e

/-- `intr_handler` yields after the handler if it was asked to. -/
theorem Kernel.step_timerInterrupt (k : Kernel) (recalculated : Tid → Int) :
    k.step (.timerInterrupt recalculated) =
      match k.timerInterrupt recalculated with
      | .ok (k', yields) => if yields then k'.threadYield else .ok k'
      | .error e => .error e := by
  have hstep : k.step (.timerInterrupt recalculated) =
      match (k.ticked recalculated).threadAwake (k.ticked recalculated).ticks with
      | .ok k' => if TIME_SLICE ≤ (k.ticked recalculated).threadTicks then k'.threadYield else .ok k'
      | .error e => .error e := rfl
  rw [hstep, Kernel.timerInterrupt]
  generalize (k.ticked recalculated).threadAwake (k.ticked recalculated).ticks = r
  cases r with
  | ok k' =>
    dsimp only
    by_cases h : TIME_SLICE ≤ (k.ticked recalculated).threadTicks
    · rw [if_pos h, if_pos (decide_eq_true h)]
    · rw [if_neg h, if_neg (by rwa [decide_eq_true_iff])]
  | error e => rfl

structure Logged extends Kernel where
  log : List (Event Tid)

namespace Logged

def setKernel (s : Logged) (k : Kernel) : Logged := { s with toKernel := k }

/-- What changes nothing in `ready_list`. -/
def quiet (s : Logged) : Except Halt Kernel → Except Halt Logged
  | .ok k => .ok (s.setKernel k)
  | .error e => .error e

def insertReady (s : Logged) (t : Tid) : Logged where
  toKernel := s.toKernel.insertReady t
  log := s.log ++ [.enters t (equals s.priority t s.readyList)]

def schedule (s : Logged) : Except Halt Logged :=
  match s.toKernel.schedule with
  | .ok k => .ok { toKernel := k, log := s.log ++ [.runs k.current (equals k.priority k.current k.readyList)] }
  | .error e => .error e

def doSchedule (s : Logged) (status : ThreadStatus) : Except Halt Logged :=
  if s.status s.current = .running then
    match Kernel.freeVictims s.destructionReq s.allocated s.frees with
    | .ok (allocated, frees) =>
      (s.setKernel ((s.toKernel.setPages [] allocated frees).setStatus s.current status)).schedule
    | .error e => .error e
  else .error .assertRunning

def threadBlock (s : Logged) : Except Halt Logged :=
  if s.status s.current = .running then (s.setKernel (s.toKernel.setStatus s.current .blocked)).schedule
  else .error .assertRunning

def threadUnblock (s : Logged) (t : Tid) : Except Halt Logged :=
  if s.status t = .blocked then
    let s := s.insertReady t
    .ok (s.setKernel (s.toKernel.setStatus t .ready))
  else .error .assertBlocked

def threadYield (s : Logged) : Except Halt Logged :=
  if s.idleThread ≠ some s.current then (s.insertReady s.current).doSchedule .ready
  else s.doSchedule .ready

def threadComparePriority (s : Logged) : Except Halt Logged :=
  match s.readyList with
  | [] => .ok s
  | front :: _ => if s.priority s.current < s.priority front then s.threadYield else .ok s

def threadExit (s : Logged) : Except Halt Logged :=
  doSchedule (s.setKernel { s.toKernel with exits := update s.exits s.current (s.exits s.current + 1) }) .dying

def threadSleep (s : Logged) (ticks : Int) : Except Halt Logged :=
  if s.idleThread ≠ some s.current then (s.setKernel (s.toKernel.joinSleep ticks)).threadBlock else .ok s

def threadAwakeFrom (s : Logged) (ticks : Int) : List Tid → Except Halt Logged
  | [] => .ok s
  | t :: l =>
    if s.awake t ≤ ticks then
      match threadUnblock (s.setKernel { s.toKernel with sleepList := s.sleepList.erase t }) t with
      | .ok s => threadAwakeFrom s ticks l
      | .error e => .error e
    else threadAwakeFrom s ticks l

def threadAwake (s : Logged) (ticks : Int) : Except Halt Logged := s.threadAwakeFrom ticks s.sleepList

def semaDown (s : Logged) (sema : SemaId) (l : Option LockId) : Except Halt Logged :=
  if (s.sema sema).value = 0 then (s.setKernel (s.toKernel.joinWaiters sema l)).threadBlock
  else .ok (s.setKernel { s.toKernel with toSys := s.toSys.semaDown s.current sema l })

def semaUp (s : Logged) (sema : SemaId) (intrContext : Bool) : Except Halt Logged :=
  let up : Except Halt Logged :=
    match (s.sema sema).popWaiter s.priority with
    | none => .ok s
    | some (w, rest) =>
      threadUnblock (s.setKernel { s.toKernel with
        sema := update s.sema sema { s.sema sema with waiters := rest } }) w
  match up with
  | .error e => .error e
  | .ok s =>
    if intrContext then .ok (s.setKernel (s.toKernel.raise sema))
    else (s.setKernel (s.toKernel.raise sema)).threadComparePriority

/-- `thread_create` gets the page `t`. -/
def initThread (s : Logged) (t : Tid) (priority : Int) : Except Halt Logged :=
  match s.toKernel.initThread t priority with
  | .ok k => .ok { toKernel := k, log := s.log ++ [.created t] }
  | .error e => .error e

def stmt (s : Logged) : Except Halt Logged :=
  match s.pc s.current with
  | .acqDown l => s.semaDown (.lock l) (some l)
  | .downWait sema l => s.semaDown sema l
  | .relUp l => semaUp (s.setKernel { s.toKernel with pc := update s.pc s.current .user }) (.lock l) false
  | _ => s.quiet s.toKernel.stmt

def step (s : Logged) : KernelAction → Except Halt Logged
  | .stmt => if s.isIdle s.current then .error .disabled else s.stmt
  | .semaDown n => if s.canCall then s.semaDown (.plain n) none else .error .disabled
  | .semaUp n =>
    if s.pc s.current = .user ∧ s.doing s.current ≠ .comparing then s.semaUp (.plain n) false
    else .error .disabled
  | .threadCreate t priority =>
    if s.canCall ∧ s.doing s.current = .nothing ∧ s.allocated t = false then s.initThread t priority
    else .error .disabled
  | .threadUnblock =>
    if s.canCall then
      match s.doing s.current with
      | .creating t => threadUnblock (s.setKernel { s.toKernel with doing := update s.doing s.current .comparing }) t
      | _ => .error .disabled
    else .error .disabled
  | .comparePriority =>
    if s.doing s.current = .comparing then
      threadComparePriority (s.setKernel { s.toKernel with doing := update s.doing s.current .nothing })
    else .error .disabled
  | .threadYield => if s.canCall then s.threadYield else .error .disabled
  | .threadSleep ticks => if s.canCall then s.threadSleep ticks else .error .disabled
  | .threadExit => if s.canCall ∧ s.doing s.current = .nothing then s.threadExit else .error .disabled
  | .idleBlock => if s.idleThread = some s.current then s.threadBlock else .error .disabled
  | .timerInterrupt recalculated =>
    let s := s.setKernel (s.toKernel.ticked recalculated)
    match s.threadAwake s.ticks with
    | .ok s' => if TIME_SLICE ≤ s.threadTicks then s'.threadYield else .ok s'
    | .error e => .error e
  | .intrUp n => s.semaUp (.plain n) true
  | a => s.quiet (s.toKernel.step a)

/-- The idle thread is in `ready_list` at the start. -/
def boot (mlfqs : Bool) (value : Nat → BitVec 32) (main idle : Tid) : Logged where
  toKernel := Kernel.boot mlfqs value main idle
  log := [.enters idle []]

/-! ## Without the log -/

/-- The state without the log. -/
def erase : Except Halt Logged → Except Halt Kernel := Except.map toKernel

section

variable (s : Logged) (t : Tid) (l : List Tid) (ticks : Int) (sema : SemaId) (caller : Option LockId) (b : Bool)
  (a : KernelAction) (r : Except Halt Kernel)

@[simp] theorem setKernel_toKernel (k : Kernel) : (s.setKernel k).toKernel = k := rfl
@[simp] theorem setKernel_log (k : Kernel) : (s.setKernel k).log = s.log := rfl

@[simp] theorem erase_ok : erase (.ok s) = .ok s.toKernel := rfl
@[simp] theorem erase_error (e : Halt) : erase (.error e) = .error e := rfl

@[simp] theorem erase_quiet : erase (s.quiet r) = r := by
  cases r <;> rfl

@[simp] theorem erase_schedule : erase s.schedule = s.toKernel.schedule := by
  unfold schedule
  cases s.toKernel.schedule <;> rfl

@[simp] theorem erase_doSchedule (st : ThreadStatus) : erase (s.doSchedule st) = s.toKernel.doSchedule st := by
  unfold doSchedule Kernel.doSchedule
  split
  · cases Kernel.freeVictims s.destructionReq s.allocated s.frees with
    | ok pages => exact erase_schedule _
    | error e => rfl
  · rfl

@[simp] theorem erase_threadBlock : erase s.threadBlock = s.toKernel.threadBlock := by
  unfold threadBlock Kernel.threadBlock
  split
  · exact erase_schedule _
  · rfl

@[simp] theorem erase_threadUnblock : erase (s.threadUnblock t) = s.toKernel.threadUnblock t := by
  unfold threadUnblock Kernel.threadUnblock
  split <;> rfl

@[simp] theorem erase_threadYield : erase s.threadYield = s.toKernel.threadYield := by
  unfold threadYield Kernel.threadYield
  split <;> exact erase_doSchedule _ _

@[simp] theorem erase_threadComparePriority : erase s.threadComparePriority = s.toKernel.threadComparePriority := by
  unfold threadComparePriority Kernel.threadComparePriority
  cases s.readyList with
  | nil => rfl
  | cons front l =>
    show erase (if _ then _ else _) = if _ then _ else _
    split
    · exact erase_threadYield s
    · rfl

@[simp] theorem erase_threadExit : erase s.threadExit = s.toKernel.threadExit := erase_doSchedule _ _

@[simp] theorem erase_threadSleep : erase (s.threadSleep ticks) = s.toKernel.threadSleep ticks := by
  unfold threadSleep Kernel.threadSleep
  split
  · exact erase_threadBlock _
  · rfl

@[simp] theorem erase_threadAwakeFrom : erase (s.threadAwakeFrom ticks l) = s.toKernel.threadAwakeFrom ticks l := by
  induction l generalizing s with
  | nil => rfl
  | cons t l ih =>
    unfold threadAwakeFrom Kernel.threadAwakeFrom
    split
    · have hun := erase_threadUnblock (s.setKernel { s.toKernel with sleepList := s.sleepList.erase t }) t
      rw [setKernel_toKernel] at hun
      rw [← hun]
      cases threadUnblock (s.setKernel { s.toKernel with sleepList := s.sleepList.erase t }) t with
      | ok s' => exact ih s'
      | error e => rfl
    · exact ih s

/-- The end of `timer_interrupt`. -/
theorem erase_awakeThenYield (yields : Prop) [Decidable yields] :
    erase (match s.threadAwake s.ticks with
      | .ok s' => if yields then s'.threadYield else .ok s'
      | .error e => .error e) =
    match s.toKernel.threadAwake s.ticks with
      | .ok k' => if yields then k'.threadYield else .ok k'
      | .error e => .error e := by
  unfold threadAwake Kernel.threadAwake
  rw [← erase_threadAwakeFrom]
  cases s.threadAwakeFrom s.ticks s.sleepList with
  | ok s' =>
    show erase (if _ then _ else _) = if _ then _ else _
    split
    · exact erase_threadYield s'
    · rfl
  | error e => rfl

@[simp] theorem erase_semaDown : erase (s.semaDown sema caller) = s.toKernel.semaDown sema caller := by
  unfold semaDown Kernel.semaDown
  split
  · exact erase_threadBlock _
  · rfl

@[simp] theorem erase_semaUp : erase (s.semaUp sema b) = s.toKernel.semaUp sema b := by
  have hrest : ∀ s' : Logged, erase (if b then .ok (s'.setKernel (s'.toKernel.raise sema))
      else (s'.setKernel (s'.toKernel.raise sema)).threadComparePriority) =
      if b then .ok (s'.toKernel.raise sema) else (s'.toKernel.raise sema).threadComparePriority := by
    intro s'
    split
    · rfl
    · exact erase_threadComparePriority _
  unfold semaUp Kernel.semaUp
  cases (s.sema sema).popWaiter s.priority with
  | none => exact hrest s
  | some w =>
    obtain ⟨w, rest⟩ := w
    have hun := erase_threadUnblock (s.setKernel { s.toKernel with
      sema := update s.sema sema { s.sema sema with waiters := rest } }) w
    rw [setKernel_toKernel] at hun
    dsimp only
    rw [← hun]
    cases threadUnblock (s.setKernel { s.toKernel with
      sema := update s.sema sema { s.sema sema with waiters := rest } }) w with
    | ok s' => exact hrest s'
    | error e => rfl

@[simp] theorem erase_initThread (p : Int) : erase (s.initThread t p) = s.toKernel.initThread t p := by
  unfold initThread
  cases s.toKernel.initThread t p <;> rfl

@[simp] theorem erase_stmt : erase s.stmt = s.toKernel.stmt := by
  unfold stmt
  split
  · next hpc => simp [Kernel.stmt, hpc]
  · next hpc => simp [Kernel.stmt, hpc]
  · next hpc => simp [Kernel.stmt, hpc]
  · exact erase_quiet s _

/-- **The log changes nothing.** -/
theorem erase_step : erase (s.step a) = s.toKernel.step a := by
  cases a with
  | stmt | semaDown | semaUp | threadCreate | comparePriority | threadYield | threadSleep | threadExit | idleBlock =>
    simp only [step, Kernel.step]
    split
    · first | exact erase_error _ | simp
    · first | exact erase_error _ | simp
  | threadUnblock =>
    simp only [step, Kernel.step]
    split
    · cases s.doing s.current with
      | creating t => exact erase_threadUnblock _ t
      | _ => rfl
    · rfl
  | timerInterrupt recalculated =>
    exact erase_awakeThenYield (s.setKernel (s.toKernel.ticked recalculated)) _
  | intrUp n => exact erase_semaUp _ _ _
  | intrTryDown n => exact erase_quiet s (s.toKernel.step (.intrTryDown n))
  | _ => exact erase_quiet s _

end

end Logged

end Pintos
