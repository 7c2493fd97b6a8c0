import Mathlib.Logic.Function.Basic
import Pintos.Lib.FixedPoint
import Pintos.Threads.Types

/-!
# The multi-level feedback queue scheduler

The calculations of `threads/thread.c` with `thread_mlfqs`, and when `timer_interrupt` of
`devices/timer.c` makes them. A number in 17.14 fixed point is an `int`; each result that does not
fit its type stops the calculation.

`MlfqsRun` lets any thread run at each tick, and any number of threads be ready.
-/

namespace Pintos

open Function FixedPoint

def TIMER_FREQ : Nat := 100

/-! ## Fixed-point operations -/

namespace Fixed

/-- `1 << 14`. -/
def f : Int := 16384

def convertNtox (n : Int) : Except Fault Int := int32 (n * f)

def convertXton (x : Int) : Except Fault Int :=
  if 0 ≤ x then do
    let y ← int32 (x + f / 2)
    quot32 y f
  else do
    let y ← int32 (x - f / 2)
    quot32 y f

def addXandn (x n : Int) : Except Fault Int := do
  let y ← int32 (n * f)
  int32 (x + y)

def multXbyn (x n : Int) : Except Fault Int := int32 (x * n)

def multXbyy (x y : Int) : Except Fault Int := do
  let z ← int64 (x * y)
  quot32 z f

def divideXbyn (x n : Int) : Except Fault Int := quot32 x n

def divideXbyy (x y : Int) : Except Fault Int := do
  let z ← int64 (x * f)
  quot32 z y

end Fixed

open Fixed

/-- What the calculations read and write. -/
structure Mlfqs where
  loadAvg : Int
  recentCpu : Tid → Int
  nice : Tid → Int
  priority : Tid → Int
  allList : List Tid
  idleThread : Option Tid

inductive MlfqsHalt where
  /-- The step is not possible. -/
  | disabled
  | fault (f : Fault)
  /-- `ASSERT (!list_empty (&all_list))`. -/
  | assertNotEmpty
  deriving DecidableEq

namespace Mlfqs

def calculatePriority (s : Mlfqs) (t : Tid) : Except Fault Mlfqs :=
  if s.idleThread = some t then .ok s
  else do
    let x ← divideXbyn (s.recentCpu t) (-4)
    let m ← int32 (s.nice t * 2)
    let n ← int32 (63 - m)
    let y ← addXandn x n
    let p ← convertXton y
    .ok { s with priority := update s.priority t p }

def calculateRecentCpu (s : Mlfqs) (current : Tid) : Except Fault Mlfqs :=
  if s.idleThread = some current then .ok s
  else do
    let x ← addXandn (s.recentCpu current) 1
    .ok { s with recentCpu := update s.recentCpu current x }

/-- `load_fir_co`. -/
def loadFirCo : Except Fault Int := do
  let x ← convertNtox 59
  divideXbyn x 60

/-- `load_sec_co`. -/
def loadSecCo : Except Fault Int := do
  let x ← convertNtox 1
  divideXbyn x 60

/-- `ready_threads` in `calculate_load_avg`, where `ready` is the size of `ready_list`. -/
def readyThreads (s : Mlfqs) (current : Tid) (ready : Nat) : Nat :=
  if s.idleThread = some current then ready else ready + 1

def calculateLoadAvg (s : Mlfqs) (current : Tid) (ready : Nat) : Except Fault Mlfqs := do
  let readyThreads ← int32 (s.readyThreads current ready)
  let x ← loadFirCo
  let y ← multXbyy x s.loadAvg
  let z ← loadSecCo
  let w ← multXbyn z readyThreads
  let l ← int32 (y + w)
  .ok { s with loadAvg := l }

/-- The new `recent_cpu` of a thread. -/
def decayed (loadAvg recentCpu nice : Int) : Except Fault Int := do
  let x ← multXbyn loadAvg 2
  let o ← convertNtox 1
  let y ← int32 (x + o)
  let c ← divideXbyy x y
  let z ← multXbyy c recentCpu
  let w ← convertNtox nice
  int32 (z + w)

/-- The loop of `recalculate_recent_cpu`. -/
def recalculateRecentCpuFrom (s : Mlfqs) : List Tid → Except Fault Mlfqs
  | [] => .ok s
  | t :: l => do
    let x ← decayed s.loadAvg (s.recentCpu t) (s.nice t)
    recalculateRecentCpuFrom { s with recentCpu := update s.recentCpu t x } l

def recalculateRecentCpu (s : Mlfqs) : Except MlfqsHalt Mlfqs :=
  if s.allList = [] then .error .assertNotEmpty
  else (s.recalculateRecentCpuFrom s.allList).mapError .fault

/-- The loop of `recalculate_priority`. -/
def recalculatePriorityFrom (s : Mlfqs) : List Tid → Except Fault Mlfqs
  | [] => .ok s
  | t :: l => do
    let s ← s.calculatePriority t
    recalculatePriorityFrom s l

def recalculatePriority (s : Mlfqs) : Except MlfqsHalt Mlfqs :=
  if s.allList = [] then .error .assertNotEmpty
  else (s.recalculatePriorityFrom s.allList).mapError .fault

/-- The calculations of `timer_interrupt` at the tick `ticks`. -/
def timerInterrupt (s : Mlfqs) (ticks : Nat) (current : Tid) (ready : Nat) : Except MlfqsHalt Mlfqs := do
  let s ← (s.calculateRecentCpu current).mapError .fault
  if ticks % 4 = 0 then
    let s ← s.recalculatePriority
    if ticks % TIMER_FREQ = 0 then
      let s ← (s.calculateLoadAvg current ready).mapError .fault
      s.recalculateRecentCpu
    else .ok s
  else .ok s

variable {s s' s₁ s₂ s₃ : Mlfqs} {n : Nat} {current : Tid} {ready : Nat}

theorem mapError_ok {α : Type} {a : α} : (Except.ok a : Except Fault α).mapError MlfqsHalt.fault = .ok a :=
  rfl

theorem timerInterrupt_tick (hr : s.calculateRecentCpu current = .ok s₁) (h4 : n % 4 ≠ 0) :
    s.timerInterrupt n current ready = .ok s₁ := by
  unfold Mlfqs.timerInterrupt
  rw [hr, mapError_ok, ok_bind, if_neg h4]

theorem timerInterrupt_fourth (hr : s.calculateRecentCpu current = .ok s₁) (h4 : n % 4 = 0)
    (hp : s₁.recalculatePriority = .ok s₂) (h100 : n % TIMER_FREQ ≠ 0) :
    s.timerInterrupt n current ready = .ok s₂ := by
  unfold Mlfqs.timerInterrupt
  rw [hr, mapError_ok, ok_bind, if_pos h4, hp, ok_bind, if_neg h100]

theorem timerInterrupt_second (hr : s.calculateRecentCpu current = .ok s₁) (h4 : n % 4 = 0)
    (hp : s₁.recalculatePriority = .ok s₂) (h100 : n % TIMER_FREQ = 0)
    (hl : s₂.calculateLoadAvg current ready = .ok s₃) :
    s.timerInterrupt n current ready = s₃.recalculateRecentCpu := by
  unfold Mlfqs.timerInterrupt
  rw [hr, mapError_ok, ok_bind, if_pos h4, hp, ok_bind, if_pos h100, hl, mapError_ok, ok_bind]

theorem of_mapError_eq_ok {α : Type} {x : Except Fault α} {a : α}
    (h : x.mapError MlfqsHalt.fault = .ok a) : x = .ok a := by
  cases x with
  | error e => cases h
  | ok b =>
    cases h
    rfl

/-! ## What the calculations write -/

/-- The priority that `calculate_priority` writes. -/
def calculatedPriority (recentCpu nice : Int) : Except Fault Int := do
  let x ← divideXbyn recentCpu (-4)
  let m ← int32 (nice * 2)
  let n ← int32 (63 - m)
  let y ← addXandn x n
  convertXton y

theorem calculatePriority_cases {t : Tid} (h : s.calculatePriority t = .ok s') :
    (s.idleThread = some t ∧ s' = s) ∨
    ∃ p, s.idleThread ≠ some t ∧ calculatedPriority (s.recentCpu t) (s.nice t) = .ok p ∧
      s' = { s with priority := update s.priority t p } := by
  unfold calculatePriority at h
  split at h
  · next hidle =>
    cases h
    exact Or.inl ⟨hidle, rfl⟩
  · next hidle =>
    obtain ⟨x, hx, h⟩ := of_bind_eq_ok h
    obtain ⟨m, hm, h⟩ := of_bind_eq_ok h
    obtain ⟨n, hn, h⟩ := of_bind_eq_ok h
    obtain ⟨y, hy, h⟩ := of_bind_eq_ok h
    obtain ⟨p, hp, h⟩ := of_bind_eq_ok h
    cases h
    refine Or.inr ⟨p, hidle, ?_, rfl⟩
    rw [calculatedPriority, hx, ok_bind, hm, ok_bind, hn, ok_bind, hy, ok_bind, hp]

/-- The priorities after `recalculate_priority` over `l`: those of its threads, but the idle thread, are calculated
from `recent_cpu` and `nice`. -/
structure Recalculated (s : Mlfqs) (l : List Tid) (s' : Mlfqs) : Prop where
  rest : s' = { s with priority := s'.priority }
  calculated : ∀ t ∈ l, s.idleThread ≠ some t →
    calculatedPriority (s.recentCpu t) (s.nice t) = .ok (s'.priority t)
  same : ∀ t, t ∉ l ∨ s.idleThread = some t → s'.priority t = s.priority t

theorem recalculatePriorityFrom_spec : ∀ {l : List Tid} {s s' : Mlfqs},
    s.recalculatePriorityFrom l = .ok s' → Recalculated s l s'
  | [], s, s', h => by
    cases h
    exact ⟨rfl, fun t ht => absurd ht List.not_mem_nil, fun _ _ => rfl⟩
  | t :: l, s, s', h => by
    obtain ⟨s₁, h₁, h⟩ := of_bind_eq_ok h
    have hl := recalculatePriorityFrom_spec h
    rcases calculatePriority_cases h₁ with ⟨hidle, rfl⟩ | ⟨p, hidle, hp, rfl⟩
    · refine ⟨hl.rest, fun u hu hne => ?_, fun u hu => ?_⟩
      · have hut : u ≠ t := by
          rintro rfl
          exact hne hidle
        exact hl.calculated u (List.mem_of_ne_of_mem hut hu) hne
      · exact hl.same u (hu.imp_left fun hn => fun hm => hn (List.mem_cons_of_mem t hm))
    · refine ⟨hl.rest, fun u hu hne => ?_, fun u hu => ?_⟩
      · by_cases hul : u ∈ l
        · exact hl.calculated u hul hne
        · have hut : u = t := (List.mem_cons.mp hu).resolve_right hul
          rw [hl.same u (Or.inl hul), hut]
          show _ = Except.ok (update s.priority t p t)
          rw [update_self]
          exact hp
      · have hut : u ≠ t := by
          rintro rfl
          rcases hu with hn | hi
          · exact hn List.mem_cons_self
          · exact hidle hi
        rw [hl.same u (hu.imp_left fun hn => fun hm => hn (List.mem_cons_of_mem t hm))]
        exact update_of_ne hut _ _

theorem recalculatePriority_spec (h : s.recalculatePriority = .ok s') : Recalculated s s.allList s' := by
  unfold recalculatePriority at h
  split at h
  · cases h
  · exact recalculatePriorityFrom_spec (of_mapError_eq_ok h)

theorem calculateRecentCpu_spec (h : s.calculateRecentCpu current = .ok s') :
    s' = { s with recentCpu := s'.recentCpu } ∧ ∀ t, t ≠ current → s'.recentCpu t = s.recentCpu t := by
  unfold calculateRecentCpu at h
  split at h
  · cases h
    exact ⟨rfl, fun _ _ => rfl⟩
  · obtain ⟨x, -, h⟩ := of_bind_eq_ok h
    cases h
    exact ⟨rfl, fun t ht => update_of_ne ht _ _⟩

theorem calculateLoadAvg_priority (h : s.calculateLoadAvg current ready = .ok s') :
    s'.priority = s.priority := by
  unfold calculateLoadAvg at h
  obtain ⟨r, -, h⟩ := of_bind_eq_ok h
  obtain ⟨x, -, h⟩ := of_bind_eq_ok h
  obtain ⟨y, -, h⟩ := of_bind_eq_ok h
  obtain ⟨z, -, h⟩ := of_bind_eq_ok h
  obtain ⟨w, -, h⟩ := of_bind_eq_ok h
  obtain ⟨l, -, h⟩ := of_bind_eq_ok h
  cases h
  rfl

theorem recalculateRecentCpuFrom_priority : ∀ {l : List Tid} {s s' : Mlfqs},
    s.recalculateRecentCpuFrom l = .ok s' → s'.priority = s.priority
  | [], s, s', h => by
    cases h
    rfl
  | t :: l, s, s', h => by
    obtain ⟨x, -, h⟩ := of_bind_eq_ok h
    exact (recalculateRecentCpuFrom_priority h).trans rfl

theorem recalculateRecentCpu_priority (h : s.recalculateRecentCpu = .ok s') :
    s'.priority = s.priority := by
  unfold recalculateRecentCpu at h
  split at h
  · cases h
  · exact recalculateRecentCpuFrom_priority (of_mapError_eq_ok h)

/-- **A timer interrupt calculates priorities at every fourth tick**, from the numbers before it. -/
theorem timerInterrupt_priority (h : s.timerInterrupt n current ready = .ok s') :
    (n % 4 ≠ 0 → s'.priority = s.priority) ∧
    (n % 4 = 0 → ∀ t, t ≠ current →
      (t ∈ s.allList → s.idleThread ≠ some t →
        calculatedPriority (s.recentCpu t) (s.nice t) = .ok (s'.priority t)) ∧
      (t ∉ s.allList ∨ s.idleThread = some t → s'.priority t = s.priority t)) := by
  obtain ⟨s₁, h₁, h⟩ := of_bind_eq_ok h
  obtain ⟨hs₁, hrc⟩ := calculateRecentCpu_spec (of_mapError_eq_ok h₁)
  have hp₁ : s₁.priority = s.priority := by rw [hs₁]
  have hn₁ : s₁.nice = s.nice := by rw [hs₁]
  have ha₁ : s₁.allList = s.allList := by rw [hs₁]
  have hi₁ : s₁.idleThread = s.idleThread := by rw [hs₁]
  split at h
  · next h4 =>
    refine ⟨fun hc => absurd h4 hc, fun _ t ht => ?_⟩
    obtain ⟨s₂, h₂, h⟩ := of_bind_eq_ok h
    have hr := recalculatePriority_spec h₂
    have hlast : s'.priority = s₂.priority := by
      split at h
      · obtain ⟨s₃, h₃, h⟩ := of_bind_eq_ok h
        exact (recalculateRecentCpu_priority h).trans (calculateLoadAvg_priority (of_mapError_eq_ok h₃))
      · cases h
        rfl
    rw [hlast, ← ha₁, ← hi₁, ← hrc t ht, ← hn₁, ← hp₁]
    exact ⟨hr.calculated t, hr.same t⟩
  · next h4 =>
    cases h
    exact ⟨fun _ => hp₁, fun hc => absurd hc h4⟩

/-- `init_thread`. -/
def initThread (s : Mlfqs) (t : Tid) (priority : Int) : Mlfqs :=
  { s with
    recentCpu := update s.recentCpu t 0
    nice := update s.nice t 0
    priority := update s.priority t priority
    allList := s.allList ++ [t] }

end Mlfqs

/-! ## Runs -/

structure MlfqsRun extends Mlfqs where
  ticks : Nat

inductive MlfqsAction where
  /-- A timer interrupt while `current` runs and `ready` threads are in `ready_list`. -/
  | tick (current : Tid) (ready : Nat)
  /-- `thread_set_nice` of the running thread, up to `thread_compare_priority`. -/
  | setNice (current : Tid) (nice : Int)
  | threadCreate (t : Tid) (priority : Int)
  | threadExit (t : Tid)
  /-- `idle_thread = thread_current ()`. -/
  | idleStart (t : Tid)

namespace MlfqsRun

def setMlfqs (s : MlfqsRun) (m : Mlfqs) : MlfqsRun := { s with toMlfqs := m }

def step (s : MlfqsRun) : MlfqsAction → Except MlfqsHalt MlfqsRun
  | .tick current ready =>
    -- the running thread is in `all_list` until `thread_exit`
    if current ∉ s.allList then .error .disabled
    else
      match s.timerInterrupt (s.ticks + 1) current ready with
      | .error e => .error e
      | .ok m => .ok { s.setMlfqs m with ticks := s.ticks + 1 }
  | .setNice current nice =>
    if current ∉ s.allList then .error .disabled
    else
      match Mlfqs.calculatePriority { s.toMlfqs with nice := update s.nice current nice } current with
      | .error e => .error (.fault e)
      | .ok m => .ok (s.setMlfqs m)
  | .threadCreate t priority =>
    if t ∈ s.allList then .error .disabled else .ok (s.setMlfqs (s.initThread t priority))
  | .threadExit t =>
    if t ∉ s.allList then .error .disabled
    else .ok (s.setMlfqs { s.toMlfqs with allList := s.allList.erase t })
  | .idleStart t =>
    if t ∉ s.allList then .error .disabled
    else .ok (s.setMlfqs { s.toMlfqs with idleThread := some t })

/-- The initial thread alone, before the first tick. -/
def boot (main : Tid) : MlfqsRun where
  loadAvg := 0
  recentCpu := fun _ => 0
  nice := fun _ => 0
  priority := fun _ => PRI_DEFAULT
  allList := [main]
  idleThread := none
  ticks := 0

end MlfqsRun

end Pintos
