import Pintos.Userprog.Process

/-!
# Waiting for a child

The rendezvous of `process_wait` and `process_exit`, in every run of a tree of processes. A step
touches one parent and child at most; what is between these two is a `View`, and `View.Ok` says what
it can be.

* `View.Ok` — the semaphores, the list and the history of one parent and child
* `step_inv` — a step keeps every pair right, and no thread follows a pointer to a freed thread
* `wait_protocol` — what every `process_wait` returns, and when a child is released
-/

namespace Pintos.Process

open Function Machine Procs

/-! ## A parent and one of its children -/

/-- Where a parent is, as far as one child is concerned. -/
inductive Stage where
  | elsewhere
  | push
  | find
  | loadDown
  | loadSleep
  | waitDown
  | waitSleep
  | waitRead
  | waitRemove (st : Int)
  | waitUp (st : Int)
  deriving DecidableEq

def Pc.stage (c : Tid) : Pc → Stage
  | .push d => if d = c then .push else .elsewhere
  | .forkFind d => if d = c then .find else .elsewhere
  | .loadDown d => if d = c then .loadDown else .elsewhere
  | .loadSleep d => if d = c then .loadSleep else .elsewhere
  | .waitDown d => if d = c then .waitDown else .elsewhere
  | .waitSleep d => if d = c then .waitSleep else .elsewhere
  | .waitRead d => if d = c then .waitRead else .elsewhere
  | .waitRemove d st => if d = c then .waitRemove st else .elsewhere
  | .waitUp d st => if d = c then .waitUp st else .elsewhere
  | _ => .elsewhere

/-- Where a child is, as far as its parent is concerned. -/
inductive Phase where
  | forking
  | running
  | freeDown
  | freeSleep
  | gone
  deriving DecidableEq

def Pc.phase : Pc → Phase
  | .doFork _ | .forkUp _ => .forking
  | .freeDown => .freeDown
  | .freeSleep => .freeSleep
  | .dying | .none => .gone
  | _ => .running

/-- The child has done `sema_up (&curr -> wait_sema)`. -/
def Phase.upped : Phase → Bool
  | .forking | .running => false
  | .freeDown | .freeSleep | .gone => true

/-- The parent is in `process_fork`. -/
def Stage.creating : Stage → Bool
  | .push | .find | .loadDown | .loadSleep => true
  | _ => false

/-- The parent is in `process_wait`, after it has read the status. -/
def Stage.returning : Stage → Bool
  | .waitRemove _ | .waitUp _ => true
  | _ => false

def Stage.isWaitRemove : Stage → Bool
  | .waitRemove _ => true
  | _ => false

structure View where
  stage : Stage
  phase : Phase
  read : Option Int
  load : Semaphore
  wait : Semaphore
  free : Semaphore
  /-- The child is on the list of the parent. -/
  listed : Bool
  /-- What the calls of `process_wait` for the child returned. -/
  results : List Int

/-- What the calls `process_wait (pid)` of `p` returned since there is a thread `pid`, the last
first. -/
def Procs.waits (m : Procs) (p : Tid) (pid : Int) : List Int :=
  m.results.filterMap fun r =>
    if r.caller = p ∧ r.pid = pid ∧ pid < r.nextTid then some r.value else none

def view (m : Procs) (p c : Tid) : View where
  stage := (m.pc p).stage c
  phase := (m.pc c).phase
  read := m.read c
  load := m.sema (.load c)
  wait := m.sema (.wait c)
  free := m.sema (.free c)
  listed := c ∈ m.childList p
  results := m.waits p c

@[simp] theorem view_stage (m : Procs) (p c : Tid) : (view m p c).stage = (m.pc p).stage c := rfl
@[simp] theorem view_phase (m : Procs) (p c : Tid) : (view m p c).phase = (m.pc c).phase := rfl
@[simp] theorem view_read (m : Procs) (p c : Tid) : (view m p c).read = m.read c := rfl
@[simp] theorem view_load (m : Procs) (p c : Tid) : (view m p c).load = m.sema (.load c) := rfl
@[simp] theorem view_wait (m : Procs) (p c : Tid) : (view m p c).wait = m.sema (.wait c) := rfl
@[simp] theorem view_free (m : Procs) (p c : Tid) : (view m p c).free = m.sema (.free c) := rfl
@[simp] theorem view_results (m : Procs) (p c : Tid) : (view m p c).results = m.waits p c := rfl
@[simp] theorem view_listed (m : Procs) (p c : Tid) :
    (view m p c).listed = true ↔ c ∈ m.childList p := decide_eq_true_iff

namespace View

/-- The parent has taken what the child gave to `wait_sema`. -/
def consumed (v : View) : Bool := v.stage = .waitRead || v.read.isSome

/-- The parent has given to `free_sema`. -/
def freed (v : View) : Bool := v.read.isSome && !v.stage.returning

/-- What can be between the parent `p` and its child `c`. -/
structure Ok (v : View) (p c : Tid) : Prop where
  load : v.load = ⟨if v.stage.creating && v.phase ≠ .forking then 1 else 0,
    if v.stage = .loadSleep then [p] else []⟩
  loadSleep : v.stage = .loadSleep → v.phase = .forking
  forking : v.phase = .forking → v.stage.creating
  wait : v.wait = ⟨if v.phase.upped && !v.consumed then 1 else 0,
    if v.stage = .waitSleep then [p] else []⟩
  waitSleep : v.stage = .waitSleep → v.phase.upped = false
  upped : v.consumed → v.phase.upped
  free : v.free = ⟨if v.freed && v.phase = .freeDown then 1 else 0,
    if v.phase = .freeSleep then [c] else []⟩
  freeSleep : v.phase = .freeSleep → v.freed = false
  gone : v.phase = .gone → v.freed
  unread : v.stage.creating ∨ v.stage = .waitDown ∨ v.stage = .waitSleep ∨ v.stage = .waitRead →
    v.read = none
  reading : ∀ st, v.stage = .waitRemove st ∨ v.stage = .waitUp st → v.read = some st
  listed : v.listed = (v.stage ≠ .push && (v.read.isNone || v.stage.isWaitRemove))
  noResult : v.freed = false → v.results = []
  result : ∀ st, v.read = some st → v.freed → ∃ n, v.results = List.replicate n (-1) ++ [st]

variable {v : View} {p c : Tid} {st : Int}

theorem Ok.start (p c : Tid) :
    Ok ⟨.push, .forking, none, semaInit 0, semaInit 0, semaInit 0, false, []⟩ p c := by
  constructor <;> simp [semaInit, consumed, freed, Stage.creating, Stage.isWaitRemove, Phase.upped]

theorem Ok.push (h : v.Ok p c) (hs : v.stage = .push) :
    Ok { v with stage := .find, listed := true } p c := by
  obtain ⟨h1, h2, h3, h4, h5, h6, h7, h8, h9, h10, h11, h12, h13, h14⟩ := h
  constructor <;> simp_all [consumed, freed, Stage.creating, Stage.returning, Stage.isWaitRemove]

theorem Ok.find (h : v.Ok p c) (hs : v.stage = .find) : Ok { v with stage := .loadDown } p c := by
  obtain ⟨h1, h2, h3, h4, h5, h6, h7, h8, h9, h10, h11, h12, h13, h14⟩ := h
  constructor <;> simp_all [consumed, freed, Stage.creating, Stage.returning, Stage.isWaitRemove]

/-- The child has not finished its copy: the parent sleeps. -/
theorem Ok.loadSleep_of (h : v.Ok p c) (hs : v.stage = .loadDown) (hv : v.load.value = 0) :
    Ok { v with stage := .loadSleep, load := ⟨0, [p]⟩ } p c := by
  have hforking : v.phase = .forking := by
    have hload := h.load
    by_contra hc
    rw [hload] at hv
    simp [hs, hc, Stage.creating] at hv
  obtain ⟨h1, h2, h3, h4, h5, h6, h7, h8, h9, h10, h11, h12, h13, h14⟩ := h
  constructor <;> simp_all [consumed, freed, Stage.creating, Stage.returning, Stage.isWaitRemove]

/-- The child has finished its copy: `process_fork` returns. -/
theorem Ok.loaded (h : v.Ok p c) (hs : v.stage = .loadDown) (hv : v.load.value ≠ 0) :
    Ok { v with stage := .elsewhere, load := ⟨0, []⟩ } p c := by
  have hforking : v.phase ≠ .forking := by
    have hload := h.load
    intro hc
    rw [hload] at hv
    simp [hs, hc, Stage.creating] at hv
  obtain ⟨h1, h2, h3, h4, h5, h6, h7, h8, h9, h10, h11, h12, h13, h14⟩ := h
  constructor <;> simp_all [consumed, freed, Stage.creating, Stage.returning, Stage.isWaitRemove]

theorem Ok.forkUp (h : v.Ok p c) (hp : v.phase = .forking) :
    Ok { v with
      phase := .running
      load := ⟨1, []⟩
      stage := if v.stage = .loadSleep then .loadDown else v.stage } p c := by
  have hcreating := h.forking hp
  obtain ⟨h1, h2, h3, h4, h5, h6, h7, h8, h9, h10, h11, h12, h13, h14⟩ := h
  by_cases hs : v.stage = .loadSleep
  · constructor <;>
      simp_all [consumed, freed, Stage.creating, Stage.returning, Stage.isWaitRemove, Phase.upped]
  · constructor <;> simp_all [consumed, freed, Phase.upped]

/-- The child is as far as `wait_sema`, and a parent that sleeps there is woken. -/
theorem Ok.exitUp (h : v.Ok p c) (hp : v.phase = .running) :
    Ok { v with
      phase := .freeDown
      wait := ⟨1, []⟩
      stage := if v.stage = .waitSleep then .waitDown else v.stage } p c := by
  have hno : v.consumed = false := by
    have hupped := h.upped
    rw [hp] at hupped
    simpa [Phase.upped] using hupped
  obtain ⟨h1, h2, h3, h4, h5, h6, h7, h8, h9, h10, h11, h12, h13, h14⟩ := h
  by_cases hs : v.stage = .waitSleep
  · constructor <;>
      simp_all [consumed, freed, Stage.creating, Stage.returning, Stage.isWaitRemove, Phase.upped]
  · constructor <;> simp_all [consumed, freed, Phase.upped]

/-- The parent has not given to `free_sema`: the child sleeps. -/
theorem Ok.freeSleep_of (h : v.Ok p c) (hp : v.phase = .freeDown) (hv : v.free.value = 0) :
    Ok { v with phase := .freeSleep, free := ⟨0, [c]⟩ } p c := by
  have hfreed : v.freed = false := by
    have hfree := h.free
    by_contra hc
    rw [hfree] at hv
    simp [hp, hc] at hv
  obtain ⟨h1, h2, h3, h4, h5, h6, h7, h8, h9, h10, h11, h12, h13, h14⟩ := h
  constructor
  case reading => exact h11
  all_goals simp_all [consumed, freed, Phase.upped]

theorem Ok.released (h : v.Ok p c) (hp : v.phase = .freeDown) (hv : v.free.value ≠ 0) :
    Ok { v with phase := .gone, free := ⟨0, []⟩ } p c := by
  have hfreed : v.freed = true := by
    have hfree := h.free
    by_contra hc
    rw [hfree] at hv
    simp [hp, hc] at hv
  obtain ⟨h1, h2, h3, h4, h5, h6, h7, h8, h9, h10, h11, h12, h13, h14⟩ := h
  constructor
  case reading => exact h11
  all_goals simp_all [consumed, freed, Phase.upped]

theorem Ok.waitStart (h : v.Ok p c) (hs : v.stage = .elsewhere) (hl : v.listed) :
    Ok { v with stage := .waitDown } p c := by
  obtain ⟨h1, h2, h3, h4, h5, h6, h7, h8, h9, h10, h11, h12, h13, h14⟩ := h
  constructor <;> simp_all [consumed, freed, Stage.creating, Stage.returning, Stage.isWaitRemove]

/-- A second `process_wait` returns `-1`. -/
theorem Ok.waitAgain (h : v.Ok p c) (hs : v.stage = .elsewhere) (hl : v.listed = false) :
    Ok { v with results := -1 :: v.results } p c := by
  obtain ⟨h1, h2, h3, h4, h5, h6, h7, h8, h9, h10, h11, h12, h13, h14⟩ := h
  have hread : v.read.isSome := by
    rw [h12, hs] at hl
    simpa [Stage.isWaitRemove] using hl
  have hfreed : v.freed = true := by simp [freed, hread, hs, Stage.returning]
  constructor
  case result =>
    intro st hst _
    obtain ⟨n, hn⟩ := h14 st hst hfreed
    exact ⟨n + 1, by rw [hn]; rfl⟩
  case noResult =>
    intro hc
    have hc : v.freed = false := hc
    rw [hfreed] at hc
    cases hc
  all_goals assumption

theorem Ok.waitSleep_of (h : v.Ok p c) (hs : v.stage = .waitDown) (hv : v.wait.value = 0) :
    Ok { v with stage := .waitSleep, wait := ⟨0, [p]⟩ } p c := by
  have hread := h.unread (Or.inr (Or.inl hs))
  have hupped : v.phase.upped = false := by
    have hwait := h.wait
    by_contra hc
    rw [hwait] at hv
    simp [hs, hc, consumed, hread] at hv
  obtain ⟨h1, h2, h3, h4, h5, h6, h7, h8, h9, h10, h11, h12, h13, h14⟩ := h
  constructor <;> simp_all [consumed, freed, Stage.creating, Stage.returning, Stage.isWaitRemove]

/-- The child has stopped: the parent goes on. -/
theorem Ok.waited (h : v.Ok p c) (hs : v.stage = .waitDown) (hv : v.wait.value ≠ 0) :
    Ok { v with stage := .waitRead, wait := ⟨0, []⟩ } p c := by
  have hread := h.unread (Or.inr (Or.inl hs))
  have hupped : v.phase.upped = true := by
    have hwait := h.wait
    by_contra hc
    rw [hwait] at hv
    simp [hs, hc, consumed, hread] at hv
  obtain ⟨h1, h2, h3, h4, h5, h6, h7, h8, h9, h10, h11, h12, h13, h14⟩ := h
  constructor <;> simp_all [consumed, freed, Stage.creating, Stage.returning, Stage.isWaitRemove]

theorem Ok.waitRead (h : v.Ok p c) (hs : v.stage = .waitRead) (st : Int) :
    Ok { v with stage := .waitRemove st, read := some st } p c := by
  obtain ⟨h1, h2, h3, h4, h5, h6, h7, h8, h9, h10, h11, h12, h13, h14⟩ := h
  constructor <;> simp_all [consumed, freed, Stage.creating, Stage.returning, Stage.isWaitRemove]

theorem Ok.waitRemove (h : v.Ok p c) (hs : v.stage = .waitRemove st) :
    Ok { v with stage := .waitUp st, listed := false } p c := by
  obtain ⟨h1, h2, h3, h4, h5, h6, h7, h8, h9, h10, h11, h12, h13, h14⟩ := h
  constructor <;> simp_all [consumed, freed, Stage.creating, Stage.returning, Stage.isWaitRemove]

/-- `process_wait` returns, and a child that sleeps on `free_sema` is woken. -/
theorem Ok.waitUp (h : v.Ok p c) (hs : v.stage = .waitUp st) :
    Ok { v with
      stage := .elsewhere
      phase := if v.phase = .freeSleep then .freeDown else v.phase
      free := ⟨1, []⟩
      results := st :: v.results } p c := by
  have hread := h.reading st (Or.inr hs)
  have hupped := h.upped (by simp [consumed, hread])
  have hnone : v.results = [] := h.noResult (by simp [freed, hs, Stage.returning])
  have hgone : v.phase ≠ .gone := by
    intro hc
    have hfreed := h.gone hc
    simp [freed, hs, Stage.returning] at hfreed
  obtain ⟨h1, h2, h3, h4, h5, h6, h7, h8, h9, h10, h11, h12, h13, h14⟩ := h
  by_cases hp : v.phase = .freeSleep
  · constructor <;>
      simp_all [consumed, freed, Stage.creating, Stage.returning, Stage.isWaitRemove, Phase.upped]
  · have hdown : v.phase = .freeDown := by
      cases hphase : v.phase <;> simp_all [Phase.upped]
    constructor <;>
      simp_all [consumed, freed, Stage.creating, Stage.returning, Stage.isWaitRemove]

end View

/-! ## The invariant -/

/-- The status a process that stops in this way leaves in its `struct thread`. -/
def Event.leaves (e : Event) : Int :=
  match handle e with
  | .exit status => status
  | _ => 0

/-- What is known of a thread from its next statement. -/
def StatusOk (stopped : Option Event) (exitStatus : Int) : Pc → Prop
  | .exit status => ∃ e, stopped = some e ∧ handle e = .exit status
  | .exitUp | .freeDown | .freeSleep | .dying => ∃ e, stopped = some e ∧ exitStatus = e.leaves
  | .none => True
  | _ => stopped = none ∧ exitStatus = 0

structure ThreadOk (m : Procs) (t : Tid) : Prop where
  about : ∀ c, (m.pc t).stage c ≠ .elsewhere → m.parent c = some t
  doFork : ∀ q, m.pc t = .doFork q → m.parent t = some q
  forking : (m.pc t).phase = .forking → m.parent t ≠ none
  status : StatusOk (m.stopped t) (m.exitStatus t) (m.pc t)
  read : ∀ st, m.read t = some st → m.parent t ≠ none ∧ ∃ e, m.stopped t = some e ∧ st = e.leaves
  fresh : m.nextTid ≤ t → m.pc t = .none ∧ m.parent t = none ∧ m.read t = none ∧ m.stopped t = none
  /-- A thread that no thread created. -/
  root : m.parent t = none → (m.sema (.wait t)).waiters = [] ∧
    m.sema (.free t) = ⟨0, if m.pc t = .freeSleep then [t] else []⟩

structure Inv (m : Procs) : Prop where
  pair : ∀ p c, m.parent c = some p → (view m p c).Ok p c
  thread : ∀ t, ThreadOk m t
  nodup : ∀ p, (m.childList p).Nodup
  children : ∀ p, ∀ c ∈ m.childList p, m.parent c = some p
  lt : ∀ p c, m.parent c = some p → p < c
  results : ∀ r ∈ m.results, r.nextTid ≤ m.nextTid ∧
    (r.value = -1 ∨ ∃ c : Tid, (c : Int) = r.pid ∧ c < r.nextTid ∧ m.parent c = some r.caller)

/-- Only what is between `c₀` and its parent changes. -/
structure Frame (m m' : Procs) (c₀ : Tid) : Prop where
  parent : m'.parent = m.parent
  nextTid : m'.nextTid = m.nextTid
  stage : ∀ u c, c ≠ c₀ → (m'.pc u).stage c = (m.pc u).stage c
  phase : ∀ u, u ≠ c₀ → (m'.pc u).phase = (m.pc u).phase
  read : ∀ c, c ≠ c₀ → m'.read c = m.read c
  sema : ∀ s, s.owner ≠ c₀ → m'.sema s = m.sema s
  listed : ∀ p c, c ≠ c₀ → (c ∈ m'.childList p ↔ c ∈ m.childList p)
  waits : ∀ p (c : Tid), c ≠ c₀ → m'.waits p c = m.waits p c

variable {m m' : Procs} {t p c c₀ w : Tid} {s : Sema}

theorem Frame.pair (hf : Frame m m' c₀) (h : Inv m)
    (h₀ : ∀ p, m.parent c₀ = some p → (view m' p c₀).Ok p c₀) (p c : Tid)
    (hpc : m'.parent c = some p) : (view m' p c).Ok p c := by
  rw [hf.parent] at hpc
  by_cases hc : c = c₀
  · rw [hc] at hpc ⊢
    exact h₀ p hpc
  · have hview : view m' p c = view m p c := by
      unfold view
      rw [hf.stage p c hc, hf.phase c hc, hf.read c hc, hf.sema (.load c) hc, hf.sema (.wait c) hc,
        hf.sema (.free c) hc, hf.waits p c hc, decide_eq_decide.mpr (hf.listed p c hc)]
    rw [hview]
    exact h.pair p c hpc

/-! ## Semaphores -/

theorem popWaiter_nil (v : BitVec 32) (priority : Tid → Int) :
    (⟨v, []⟩ : Semaphore).popWaiter priority = none := rfl

theorem popWaiter_one (v : BitVec 32) (w : Tid) (priority : Tid → Int) :
    (⟨v, [w]⟩ : Semaphore).popWaiter priority = some (w, []) := rfl

/-- `sema_up` where one thread sleeps, or none. -/
theorem semaUp_eq {a : Prop} [Decidable a] {q : Pc} (hs : m.sema s = ⟨0, if a then [w] else []⟩)
    (hw : a → (m.pc w).wake = some q) :
    m.semaUp s = .ok { m with
      sema := update m.sema s ⟨1, []⟩
      pc := if a then update m.pc w q else m.pc } := by
  unfold semaUp
  rw [hs]
  by_cases ha : a
  · simp only [ha, if_true, popWaiter_one, hw ha]
    rfl
  · simp only [ha, if_false, popWaiter_nil]
    rfl

/-- `sema_down` where no thread sleeps. -/
theorem semaDown_eq (hs : (m.sema s).waiters = []) (sleep next : Pc) :
    ((m.sema s).value = 0 ∧ m.semaDown t s sleep next =
      (m.setSema s ⟨0, [t]⟩).setPc t sleep) ∨
    ((m.sema s).value ≠ 0 ∧ m.semaDown t s sleep next =
      (m.setSema s ⟨(m.sema s).value - 1, []⟩).setPc t next) := by
  cases hv : m.sema s with
  | mk v l =>
    rw [hv] at hs
    cases hs
    unfold semaDown
    rw [hv]
    by_cases h0 : v = 0
    · left
      rw [if_pos h0]
      subst h0
      exact ⟨rfl, rfl⟩
    · right
      rw [if_neg h0]
      exact ⟨h0, rfl⟩

/-! ## Threads that are still there -/

theorem Stage.cases_ne {s : Stage} (h : s ≠ .elsewhere) : s.returning = true ∨
    (s.creating = true ∨ s = .waitDown ∨ s = .waitSleep ∨ s = .waitRead) := by
  cases s <;> simp_all [Stage.creating, Stage.returning]

theorem Stage.returning_of_isWaitRemove {s : Stage} (h : s.isWaitRemove = true) : s.returning = true := by
  cases s <;> simp_all [Stage.isWaitRemove, Stage.returning]

theorem View.Ok.stage_alive {v : View} (h : v.Ok p c) (hs : v.stage ≠ .elsewhere) : v.phase ≠ .gone := by
  intro hc
  have hfreed := h.gone hc
  rw [freed, Bool.and_eq_true] at hfreed
  rcases Stage.cases_ne hs with hr | hu
  · rw [hr] at hfreed
    cases hfreed.2
  · rw [h.unread hu] at hfreed
    cases hfreed.1

theorem View.Ok.listed_alive {v : View} (h : v.Ok p c) (hl : v.listed = true) : v.phase ≠ .gone := by
  intro hc
  have hfreed := h.gone hc
  have hlisted := h.listed
  rw [freed, Bool.and_eq_true] at hfreed
  rw [hl, Eq.comm, Bool.and_eq_true, Bool.or_eq_true] at hlisted
  rcases hlisted.2 with hn | hr
  · rw [Option.isNone_iff_eq_none.mp hn] at hfreed
    cases hfreed.1
  · rw [Stage.returning_of_isWaitRemove hr] at hfreed
    cases hfreed.2

theorem phase_of_none (h : m.pc c = .none) : (m.pc c).phase = .gone := by
  rw [h]
  rfl

theorem Inv.stage_alive (h : Inv m) (hs : (m.pc p).stage c ≠ .elsewhere) : m.pc c ≠ .none :=
  fun hc => (h.pair p c ((h.thread p).about c hs)).stage_alive hs (phase_of_none hc)

theorem Inv.listed_alive (h : Inv m) (hc : c ∈ m.childList p) : m.pc c ≠ .none :=
  fun hn => (h.pair p c (h.children p c hc)).listed_alive (decide_eq_true hc) (phase_of_none hn)

theorem Inv.listAlive (h : Inv m) (hc : m.pc c ≠ .none) : m.listAlive (c :: m.childList p) = true := by
  rw [Procs.listAlive, List.all_eq_true]
  intro u hu
  rw [decide_eq_true_eq]
  rcases List.mem_cons.mp hu with rfl | hu
  · exact hc
  · exact h.listed_alive hu

theorem findChild_mem {l : List Tid} (ha : ∀ u ∈ l, m.pc u ≠ .none) (hc : c ∈ l) :
    m.findChild c l = .ok (some c) := by
  induction l with
  | nil => cases hc
  | cons u l ih =>
    rw [findChild, if_neg (ha u List.mem_cons_self)]
    by_cases hu : u = c
    · rw [if_pos (by rw [hu]), hu]
    · rw [if_neg (by exact_mod_cast hu)]
      exact ih (fun x hx => ha x (List.mem_cons_of_mem _ hx))
        ((List.mem_cons.mp hc).resolve_left (Ne.symm hu))

theorem findChild_not_mem {l : List Tid} {pid : Int} (ha : ∀ u ∈ l, m.pc u ≠ .none)
    (hc : ∀ c ∈ l, (c : Int) ≠ pid) : m.findChild pid l = .ok none := by
  induction l with
  | nil => rfl
  | cons u l ih =>
    rw [findChild, if_neg (ha u List.mem_cons_self), if_neg (hc u List.mem_cons_self)]
    exact ih (fun x hx => ha x (List.mem_cons_of_mem _ hx)) fun x hx => hc x (List.mem_cons_of_mem _ hx)

/-! ## Threads a step does not run -/

structure Same (m m' : Procs) (u : Tid) : Prop where
  pc : m'.pc u = m.pc u
  stopped : m'.stopped u = m.stopped u
  exitStatus : m'.exitStatus u = m.exitStatus u
  read : m'.read u = m.read u
  sema : m.parent u = none → m'.sema (.wait u) = m.sema (.wait u) ∧ m'.sema (.free u) = m.sema (.free u)

theorem ThreadOk.of_same (h : ThreadOk m t) (hparent : m'.parent = m.parent)
    (hnext : m'.nextTid = m.nextTid) (hs : Same m m' t) : ThreadOk m' t where
  about c hc := by
    rw [hs.pc] at hc
    rw [hparent]
    exact h.about c hc
  doFork q hq := by
    rw [hs.pc] at hq
    rw [hparent]
    exact h.doFork q hq
  forking hc := by
    rw [hs.pc] at hc
    rw [hparent]
    exact h.forking hc
  status := by
    rw [hs.pc, hs.stopped, hs.exitStatus]
    exact h.status
  read st hst := by
    rw [hs.read] at hst
    rw [hparent, hs.stopped]
    exact h.read st hst
  fresh hf := by
    rw [hnext] at hf
    rw [hs.pc, hparent, hs.read, hs.stopped]
    exact h.fresh hf
  root hr := by
    rw [hparent] at hr
    obtain ⟨hw, hf⟩ := hs.sema hr
    rw [hs.pc, hw, hf]
    exact h.root hr

theorem wake_stage {a b : Pc} (hw : a.wake = some b) (hb : b.stage c ≠ .elsewhere) :
    a.stage c ≠ .elsewhere := by
  cases a <;> cases hw <;> simp_all [Pc.stage]

/-- A thread that is woken. -/
theorem ThreadOk.wake {q : Pc} (h : ThreadOk m t) (hw : (m.pc t).wake = some q)
    (hparent : m'.parent = m.parent) (hnext : m'.nextTid = m.nextTid) (hpc : m'.pc t = q)
    (hstopped : m'.stopped t = m.stopped t) (hexit : m'.exitStatus t = m.exitStatus t)
    (hread : m'.read t = m.read t)
    (hsema : m.parent t = none → m'.sema (.wait t) = m.sema (.wait t) ∧
      m'.sema (.free t) = m.sema (.free t) ∧ q ≠ .freeDown) : ThreadOk m' t := by
  have hfresh := h.fresh
  have habout := h.about
  have hstatus := h.status
  have hroot := h.root
  constructor
  case about =>
    intro c hc
    rw [hparent]
    rw [hpc] at hc
    exact habout c (wake_stage hw hc)
  case doFork =>
    intro q' hq
    rw [hpc] at hq
    cases hold : m.pc t <;> rw [hold] at hw <;> cases hw <;> cases hq
  case forking =>
    intro hc
    rw [hpc] at hc
    cases hold : m.pc t <;> rw [hold] at hw <;> cases hw <;> cases hc
  case status =>
    rw [hstopped, hexit, hpc]
    cases hold : m.pc t <;> rw [hold] at hw hstatus <;> cases hw <;> exact hstatus
  case read =>
    intro st hst
    rw [hread] at hst
    rw [hparent, hstopped]
    exact h.read st hst
  case fresh =>
    intro hf
    rw [hnext] at hf
    rw [(hfresh hf).1] at hw
    cases hw
  case root =>
    intro hr
    rw [hparent] at hr
    obtain ⟨hwait, hfree, hne⟩ := hsema hr
    obtain ⟨hrw, hrf⟩ := hroot hr
    refine ⟨by rw [hwait]; exact hrw, ?_⟩
    rw [hfree, hrf, hpc]
    cases hold : m.pc t <;> rw [hold] at hw <;> cases hw
    · rfl
    · exact absurd rfl hne
    · rfl

/-- The thread that a step runs. -/
theorem ThreadOk.move {q : Pc} (h : ThreadOk m t) (hborn : m.pc t ≠ .none) (hpc : m'.pc t = q)
    (hparent : m'.parent = m.parent) (hnext : m'.nextTid = m.nextTid) (hread : m'.read t = m.read t)
    (hstop : ∀ e, m.stopped t = some e → m'.stopped t = some e)
    (habout : ∀ c, q.stage c ≠ .elsewhere → m.parent c = some t) (hdo : ∀ u, q ≠ .doFork u)
    (hforking : q.phase = .forking → (m.pc t).phase = .forking)
    (hstatus : StatusOk (m'.stopped t) (m'.exitStatus t) q)
    (hroot : m.parent t = none → (m'.sema (.wait t)).waiters = [] ∧
      m'.sema (.free t) = ⟨0, if q = .freeSleep then [t] else []⟩) : ThreadOk m' t where
  about c hc := by
    rw [hpc] at hc
    rw [hparent]
    exact habout c hc
  doFork u hu := by
    rw [hpc] at hu
    exact absurd hu (hdo u)
  forking hc := by
    rw [hpc] at hc
    rw [hparent]
    exact h.forking (hforking hc)
  status := by
    rw [hpc]
    exact hstatus
  read st hst := by
    rw [hread] at hst
    obtain ⟨hp, e, he, hleaves⟩ := h.read st hst
    rw [hparent]
    exact ⟨hp, e, hstop e he, hleaves⟩
  fresh hf := by
    rw [hnext] at hf
    exact absurd (h.fresh hf).1 hborn
  root hr := by
    rw [hparent] at hr
    rw [hpc]
    exact hroot hr

/-- Its semaphores are not of interest. -/
theorem ThreadOk.root_of_eq {q : Pc} (h : ThreadOk m t) (hw : m'.sema (.wait t) = m.sema (.wait t))
    (hf : m'.sema (.free t) = m.sema (.free t)) (hold : m.pc t ≠ .freeSleep) (hq : q ≠ .freeSleep)
    (hr : m.parent t = none) : (m'.sema (.wait t)).waiters = [] ∧
      m'.sema (.free t) = ⟨0, if q = .freeSleep then [t] else []⟩ := by
  obtain ⟨hwait, hfree⟩ := h.root hr
  rw [hw, hf, hfree, if_neg hold, if_neg hq]
  exact ⟨hwait, rfl⟩

/-! ## One lemma for each statement -/

/-- The statement at which `t` is can be taken, and keeps the invariant. -/
def Goes (m : Procs) (t : Tid) : Prop := ∃ m', stepThread m t = .ok m' ∧ Inv m'

theorem stage_update_of_eq {pc : Tid → Pc} {q : Pc} {u d : Tid} (h : q.stage d = (pc t).stage d) :
    (update pc t q u).stage d = (pc u).stage d := by
  by_cases hu : u = t
  · rw [hu, update_self, h]
  · rw [update_of_ne hu]

theorem phase_update_of_eq {pc : Tid → Pc} {q : Pc} {u : Tid} (h : q.phase = (pc t).phase) :
    (update pc t q u).phase = (pc u).phase := by
  by_cases hu : u = t
  · rw [hu, update_self, h]
  · rw [update_of_ne hu]

/-- What is between two threads in a state, part by part. -/
theorem View.Ok.transfer {v : View} (h : v.Ok p c) (hstage : (m.pc p).stage c = v.stage)
    (hphase : (m.pc c).phase = v.phase) (hread : m.read c = v.read) (hload : m.sema (.load c) = v.load)
    (hwait : m.sema (.wait c) = v.wait) (hfree : m.sema (.free c) = v.free)
    (hlisted : c ∈ m.childList p ↔ v.listed = true) (hresults : m.waits p c = v.results) :
    (view m p c).Ok p c := by
  have hview : view m p c = v := by
    obtain ⟨_, _, _, _, _, _, listed, _⟩ := v
    simp only at *
    subst hstage hphase hread hload hwait hfree hresults
    unfold view
    congr 1
    cases listed <;> simpa using hlisted
  rw [hview]
  exact h

/-- What is known of a thread that is in user mode or in a call. -/
theorem ThreadOk.status_of {q : Pc} (h : ThreadOk m t) (hpc : m.pc t = q) :
    StatusOk (m.stopped t) (m.exitStatus t) q := hpc ▸ h.status

theorem Inv.push (h : Inv m) (hpc : m.pc t = .push c) : Goes m t := by
  have hold := h.thread t
  have hstage : (m.pc t).stage c = .push := by simp [hpc, Pc.stage]
  have hparent := hold.about c (by rw [hstage]; exact Stage.noConfusion)
  have hne : c ≠ t := (h.lt t c hparent).ne'
  have hok := h.pair t c hparent
  have hnot : c ∉ m.childList t := by
    have hlisted := hok.listed
    simpa [view, hstage] using hlisted
  have halive := h.listAlive (p := t) (h.stage_alive (by rw [hstage]; exact Stage.noConfusion))
  have hf : Frame m { m.setPc t (.forkFind c) with
      childList := update m.childList t (m.childList t ++ [c]) } c := by
    constructor
    case stage => exact fun u d hd => stage_update_of_eq (by simp [hpc, Pc.stage, Ne.symm hd])
    case phase => exact fun u _ => phase_update_of_eq (by rw [hpc]; rfl)
    case listed =>
      intro p d hd
      by_cases hp : p = t
      · subst hp
        simp [hd]
      · simp [hp]
    all_goals intros; rfl
  refine ⟨_, by rw [stepThread, hpc]; exact if_pos halive, ?_⟩
  constructor
  case pair =>
    refine hf.pair h fun p hp => ?_
    rw [hparent] at hp
    cases hp
    exact (hok.push hstage).transfer (by simp [Procs.setPc, Pc.stage])
      (by simp [Procs.setPc, hne, view]) rfl rfl rfl rfl (by simp) rfl
  case thread =>
    intro u
    by_cases hu : u = t
    · subst hu
      refine hold.move (by rw [hpc]; exact Pc.noConfusion) (update_self _ _ _) rfl rfl rfl
        (fun _ he => he) ?_ (fun _ => Pc.noConfusion) (fun hc => by cases hc) ?_
        (hold.root_of_eq rfl rfl (by rw [hpc]; exact Pc.noConfusion) Pc.noConfusion)
      · intro d hd
        refine hold.about d ?_
        simpa [hpc, Pc.stage] using hd
      · exact (hold.status_of hpc :)
    · exact (h.thread u).of_same rfl rfl ⟨update_of_ne hu _ _, rfl, rfl, rfl, fun _ => ⟨rfl, rfl⟩⟩
  case nodup =>
    intro p
    show (update m.childList t (m.childList t ++ [c]) p).Nodup
    by_cases hp : p = t
    · subst hp
      rw [update_self]
      refine List.nodup_append.mpr ⟨h.nodup p, List.nodup_singleton c, ?_⟩
      rintro a ha b hb rfl
      exact hnot (List.mem_singleton.mp hb ▸ ha)
    · rw [update_of_ne hp]
      exact h.nodup p
  case children =>
    intro p d hd
    by_cases hp : p = t
    · subst hp
      simp only [update_self, List.mem_append, List.mem_singleton] at hd
      rcases hd with hd | rfl
      · exact h.children p d hd
      · exact hparent
    · simp only [update_of_ne hp] at hd
      exact h.children p d hd
  case lt => exact h.lt
  case results => exact h.results

/-- A change of the next statement only, that keeps the thread where it is for its parent. -/
theorem Inv.setPc {q : Pc} (h : Inv m) (hborn : m.pc t ≠ .none) (hphase : q.phase = (m.pc t).phase)
    (hdo : ∀ u, q ≠ .doFork u) (hold : m.pc t ≠ .freeSleep) (hq : q ≠ .freeSleep)
    (hstage : ∀ d, d ≠ c → q.stage d = (m.pc t).stage d)
    (habout : ∀ d, q.stage d ≠ .elsewhere → m.parent d = some t)
    (hstatus : StatusOk (m.stopped t) (m.exitStatus t) q)
    (hok : m.parent c = some t → View.Ok { view m t c with stage := q.stage c } t c) :
    Inv (m.setPc t q) := by
  have hf : Frame m (m.setPc t q) c := by
    constructor
    case stage => exact fun u d hd => stage_update_of_eq (hstage d hd)
    case phase => exact fun u _ => phase_update_of_eq hphase
    all_goals intros; rfl
  constructor
  case pair =>
    refine hf.pair h fun p hp => ?_
    by_cases hpt : p = t
    · subst hpt
      exact (hok hp).transfer (congrArg (Pc.stage c) (update_self _ _ _)) (phase_update_of_eq hphase)
        rfl rfl rfl rfl decide_eq_true_iff.symm rfl
    · exact (h.pair p c hp).transfer (congrArg (Pc.stage c) (update_of_ne hpt _ _))
        (phase_update_of_eq hphase) rfl rfl rfl rfl decide_eq_true_iff.symm rfl
  case thread =>
    intro u
    by_cases hu : u = t
    · subst hu
      exact (h.thread u).move hborn (update_self _ _ _) rfl rfl rfl (fun _ he => he) habout hdo
        (fun hc => by rw [← hphase, hc]) hstatus ((h.thread u).root_of_eq rfl rfl hold hq)
    · exact (h.thread u).of_same rfl rfl ⟨update_of_ne hu _ _, rfl, rfl, rfl, fun _ => ⟨rfl, rfl⟩⟩
  case nodup => exact h.nodup
  case children => exact h.children
  case lt => exact h.lt
  case results => exact h.results

theorem Inv.forkFind (h : Inv m) (hpc : m.pc t = .forkFind c) : Goes m t := by
  have hold := h.thread t
  have hstage : (m.pc t).stage c = .find := by simp [hpc, Pc.stage]
  have hparent := hold.about c (by rw [hstage]; exact Stage.noConfusion)
  have hok := h.pair t c hparent
  have hmem : c ∈ m.childList t := by
    have hread : m.read c = none := hok.unread (Or.inl (by rw [view_stage, hstage]; rfl))
    have hlisted := hok.listed
    simpa [view, hstage, hread] using hlisted
  refine ⟨m.setPc t (.loadDown c), ?_, ?_⟩
  · rw [stepThread, hpc]
    simp only [getChildProcess, findChild_mem (fun u hu => h.listed_alive hu) hmem]
  · refine h.setPc (c := c) (by rw [hpc]; exact Pc.noConfusion) (by rw [hpc]; rfl) (fun _ => Pc.noConfusion)
      (by rw [hpc]; exact Pc.noConfusion) Pc.noConfusion ?_ ?_ ?_ ?_
    · intro d hd
      simp [hpc, Pc.stage, Ne.symm hd]
    · intro d hd
      refine hold.about d ?_
      simpa [hpc, Pc.stage] using hd
    · exact (hold.status_of hpc :)
    · intro _
      simpa [Pc.stage] using hok.find hstage

/-- A step that changes no list and no result. -/
theorem Inv.of_frame (h : Inv m) (hf : Frame m m' c)
    (hok : ∀ p, m.parent c = some p → (view m' p c).Ok p c) (hthread : ∀ u, ThreadOk m' u)
    (hlist : m'.childList = m.childList) (hresults : m'.results = m.results) : Inv m' where
  pair := hf.pair h hok
  thread := hthread
  nodup p := by
    rw [hlist]
    exact h.nodup p
  children p d hd := by
    rw [hlist] at hd
    rw [hf.parent]
    exact h.children p d hd
  lt := by
    rw [hf.parent]
    exact h.lt
  results := by
    rw [hresults, hf.parent, hf.nextTid]
    exact h.results

/-- `sema_down` on a semaphore of a child, when it has gone to sleep or has returned. -/
theorem Inv.down {q : Pc} {v : Semaphore} (h : Inv m) (hs : s = .load c ∨ s = .wait c)
    (hparent : m.parent c = some t) (hborn : m.pc t ≠ .none) (hrun : (m.pc t).phase = .running)
    (hq : q.phase = .running) (hstage : ∀ d, d ≠ c → q.stage d = (m.pc t).stage d)
    (habout : ∀ d, q.stage d ≠ .elsewhere → m.parent d = some t)
    (hstatus : StatusOk (m.stopped t) (m.exitStatus t) q)
    (hok : View.Ok { view m t c with
      stage := q.stage c
      load := update m.sema s v (.load c)
      wait := update m.sema s v (.wait c) } t c) : Inv ((m.setSema s v).setPc t q) := by
  have hne : c ≠ t := (h.lt t c hparent).ne'
  have hphase : q.phase = (m.pc t).phase := by rw [hq, hrun]
  have hfree : ∀ u, s ≠ .free u := by rcases hs with rfl | rfl <;> exact fun _ => Sema.noConfusion
  have howner : s.owner = c := by rcases hs with rfl | rfl <;> rfl
  have hf : Frame m ((m.setSema s v).setPc t q) c := by
    constructor
    case stage => exact fun u d hd => stage_update_of_eq (hstage d hd)
    case phase => exact fun u _ => phase_update_of_eq hphase
    case sema =>
      intro s' hs'
      refine update_of_ne (fun hc => hs' ?_) _ _
      rw [hc, howner]
    all_goals intros; rfl
  refine h.of_frame hf (fun p hp => ?_) (fun u => ?_) rfl rfl
  · rw [hparent] at hp
    cases hp
    exact hok.transfer (congrArg (Pc.stage c) (update_self _ _ _)) (phase_update_of_eq hphase) rfl rfl rfl
      (update_of_ne (hfree c).symm _ _) decide_eq_true_iff.symm rfl
  · by_cases hu : u = t
    · subst hu
      have hsleep : m.pc u ≠ .freeSleep := fun hc => by rw [hc] at hrun; cases hrun
      have hsleep' : q ≠ .freeSleep := fun hc => by rw [hc] at hq; cases hq
      refine (h.thread u).move hborn (update_self _ _ _) rfl rfl rfl (fun _ he => he) habout
        (fun _ hc => by rw [hc] at hq; cases hq) (fun hc => by rw [hq] at hc; cases hc) hstatus
        ((h.thread u).root_of_eq ?_ (update_of_ne (hfree u).symm _ _) hsleep hsleep')
      exact update_of_ne (fun hc => hne (by rw [← howner, ← hc]; rfl)) _ _
    · refine (h.thread u).of_same rfl rfl ⟨update_of_ne hu _ _, rfl, rfl, rfl, fun hr => ⟨?_, ?_⟩⟩
      · refine update_of_ne (fun hc => ?_) _ _
        have huc : u = c := by rw [← howner, ← hc]; rfl
        rw [huc, hparent] at hr
        cases hr
      · exact update_of_ne (hfree u).symm _ _

theorem Inv.loadDown (h : Inv m) (hpc : m.pc t = .loadDown c) : Goes m t := by
  have hold := h.thread t
  have hstage : (m.pc t).stage c = .loadDown := by simp [hpc, Pc.stage]
  have hne : (m.pc t).stage c ≠ .elsewhere := by rw [hstage]; exact Stage.noConfusion
  have hparent := hold.about c hne
  have hok := h.pair t c hparent
  have hborn : m.pc t ≠ .none := by rw [hpc]; exact Pc.noConfusion
  have hrun : (m.pc t).phase = .running := by rw [hpc]; rfl
  have hload : (m.sema (.load c)).waiters = [] := by
    have hsema := hok.load
    rw [view_load, view_stage, hstage] at hsema
    rw [hsema]
    rfl
  refine ⟨_, by rw [stepThread, hpc]; exact if_neg (h.stage_alive hne), ?_⟩
  rcases semaDown_eq (t := t) hload (.loadSleep c) .user with ⟨h0, heq⟩ | ⟨h1, heq⟩
  · rw [heq]
    refine h.down (Or.inl rfl) hparent hborn hrun rfl ?_ ?_ (hold.status_of hpc :) ?_
    · intro d hd
      simp [hpc, Pc.stage, Ne.symm hd]
    · intro d hd
      refine hold.about d ?_
      simpa [hpc, Pc.stage] using hd
    · simpa [Pc.stage] using hok.loadSleep_of hstage h0
  · rw [heq]
    have hone : (m.sema (.load c)).value - 1 = 0 := by
      have hsema := hok.load
      rw [view_load] at hsema
      rw [hsema] at h1 ⊢
      simp only at h1 ⊢
      split at h1
      · next hc => rw [if_pos hc]; rfl
      · exact absurd rfl h1
    rw [hone]
    refine h.down (Or.inl rfl) hparent hborn hrun rfl ?_ ?_ (hold.status_of hpc :) ?_
    · intro d hd
      simp [hpc, Pc.stage, Ne.symm hd]
    · intro d hd
      exact absurd rfl hd
    · simpa [Pc.stage] using hok.loaded hstage h1

theorem Inv.waitDown (h : Inv m) (hpc : m.pc t = .waitDown c) : Goes m t := by
  have hold := h.thread t
  have hstage : (m.pc t).stage c = .waitDown := by simp [hpc, Pc.stage]
  have hne : (m.pc t).stage c ≠ .elsewhere := by rw [hstage]; exact Stage.noConfusion
  have hparent := hold.about c hne
  have hok := h.pair t c hparent
  have hborn : m.pc t ≠ .none := by rw [hpc]; exact Pc.noConfusion
  have hrun : (m.pc t).phase = .running := by rw [hpc]; rfl
  have hsema := hok.wait
  rw [view_wait, view_stage, hstage,
    if_neg (show Stage.waitDown ≠ .waitSleep from Stage.noConfusion)] at hsema
  refine ⟨_, by rw [stepThread, hpc]; exact if_neg (h.stage_alive hne), ?_⟩
  rcases semaDown_eq (t := t) (by rw [hsema]) (.waitSleep c) (.waitRead c) with ⟨h0, heq⟩ | ⟨h1, heq⟩
  · rw [heq]
    refine h.down (Or.inr rfl) hparent hborn hrun rfl ?_ ?_ (hold.status_of hpc :) ?_
    · intro d hd
      simp [hpc, Pc.stage, Ne.symm hd]
    · intro d hd
      refine hold.about d ?_
      simpa [hpc, Pc.stage] using hd
    · simpa [Pc.stage] using hok.waitSleep_of hstage h0
  · have hone : (m.sema (.wait c)).value - 1 = 0 := by
      rw [hsema] at h1 ⊢
      simp only at h1 ⊢
      split at h1
      · next hc => rw [if_pos hc]; rfl
      · exact absurd rfl h1
    rw [heq, hone]
    refine h.down (Or.inr rfl) hparent hborn hrun rfl ?_ ?_ (hold.status_of hpc :) ?_
    · intro d hd
      simp [hpc, Pc.stage, Ne.symm hd]
    · intro d hd
      refine hold.about d ?_
      simpa [hpc, Pc.stage] using hd
    · simpa [Pc.stage] using hok.waited hstage h1

/-- `sema_up` on a semaphore of the thread itself, which its parent may sleep on. -/
theorem Inv.up {q b : Pc} {a : Prop} [Decidable a] {pc : Tid → Pc} {stopped : Tid → Option Event}
    (h : Inv m) (hs : s = .load t ∨ s = .wait t) (hborn : m.pc t ≠ .none) (hold : m.pc t ≠ .freeSleep)
    (hpct : pc t = q) (hpcw : a → pc w = b) (hpc : ∀ u, u ≠ t → ¬ (a ∧ u = w) → pc u = m.pc u)
    (hq : q ≠ .freeSleep) (hdo : ∀ u, q ≠ .doFork u) (hforking : q.phase ≠ .forking)
    (haway : ∀ d, (m.pc t).stage d = .elsewhere) (haway' : ∀ d, q.stage d = .elsewhere)
    (hw : a → m.parent t = some w ∧ (m.pc w).wake = some b ∧ (∀ d, d ≠ t → b.stage d = (m.pc w).stage d) ∧
      b.phase = (m.pc w).phase ∧ b ≠ .freeDown)
    (hstopped : ∀ u, u ≠ t → stopped u = m.stopped u)
    (hstop : ∀ e, m.stopped t = some e → stopped t = some e)
    (hstatus : StatusOk (stopped t) (m.exitStatus t) q)
    (hok : ∀ p, m.parent t = some p → View.Ok { view m p t with
      phase := q.phase
      stage := if a then b.stage t else (m.pc p).stage t
      load := update m.sema s ⟨1, []⟩ (.load t)
      wait := update m.sema s ⟨1, []⟩ (.wait t) } p t) :
    Inv { m with sema := update m.sema s ⟨1, []⟩, pc := pc, stopped := stopped } := by
  have hfree : ∀ u, s ≠ .free u := by rcases hs with rfl | rfl <;> exact fun _ => Sema.noConfusion
  have howner : s.owner = t := by rcases hs with rfl | rfl <;> rfl
  have hf : Frame m { m with sema := update m.sema s ⟨1, []⟩, pc := pc, stopped := stopped } t := by
    constructor
    case stage =>
      intro u d hd
      show (pc u).stage d = (m.pc u).stage d
      by_cases hu : u = t
      · rw [hu, hpct, haway d, haway' d]
      · by_cases hn : a ∧ u = w
        · rw [hn.2, hpcw hn.1]
          exact (hw hn.1).2.2.1 d hd
        · rw [hpc u hu hn]
    case phase =>
      intro u hu
      show (pc u).phase = (m.pc u).phase
      by_cases hn : a ∧ u = w
      · rw [hn.2, hpcw hn.1]
        exact (hw hn.1).2.2.2.1
      · rw [hpc u hu hn]
    case sema => exact fun s' hs' => update_of_ne (fun hc => hs' (by rw [hc, howner])) _ _
    all_goals intros; rfl
  refine h.of_frame hf (fun p hp => ?_) (fun u => ?_) rfl rfl
  · refine (hok p hp).transfer ?_ (congrArg Pc.phase hpct) rfl rfl rfl
      (update_of_ne (hfree t).symm _ _) decide_eq_true_iff.symm rfl
    have hpt : p ≠ t := (h.lt p t hp).ne
    by_cases ha : a
    · have hpw : p = w := Option.some.inj (hp.symm.trans (hw ha).1)
      rw [if_pos ha, hpw]
      exact congrArg (Pc.stage t) (hpcw ha)
    · rw [if_neg ha]
      exact congrArg (Pc.stage t) (hpc p hpt fun hc => ha hc.1)
  · by_cases hu : u = t
    · subst hu
      refine (h.thread u).move hborn hpct rfl rfl rfl hstop
        (fun d hd => absurd (haway' d) hd) hdo (fun hc => absurd hc hforking) hstatus fun hr => ?_
      obtain ⟨hwait, hfree'⟩ := (h.thread u).root hr
      refine ⟨?_, ?_⟩
      · show (update m.sema s ⟨1, []⟩ (.wait u)).waiters = []
        by_cases hsw : s = .wait u
        · rw [hsw, update_self]
        · rw [update_of_ne (Ne.symm hsw)]
          exact hwait
      · show update m.sema s ⟨1, []⟩ (.free u) = _
        rw [update_of_ne (hfree u).symm, hfree', if_neg hold, if_neg hq]
    · have hsema : update m.sema s ⟨1, []⟩ (.wait u) = m.sema (.wait u) ∧
          update m.sema s ⟨1, []⟩ (.free u) = m.sema (.free u) := by
        refine ⟨update_of_ne (fun hc => hu ?_) _ _, update_of_ne (hfree u).symm _ _⟩
        rw [← howner, ← hc]
        rfl
      by_cases hn : a ∧ u = w
      · obtain ⟨ha, rfl⟩ := hn
        obtain ⟨-, hwake, -, -, hb⟩ := hw ha
        exact (h.thread u).wake hwake rfl rfl (hpcw ha) (hstopped u hu) rfl rfl
          fun _ => ⟨hsema.1, hsema.2, hb⟩
      · exact (h.thread u).of_same rfl rfl ⟨hpc u hu hn, hstopped u hu, rfl, rfl, fun _ => hsema⟩

/-- The threads after `w` is woken, if it sleeps, and `t` goes on. -/
theorem update_woken {f : Tid → Pc} {a : Prop} [Decidable a] {q b : Pc} (hwt : a → w ≠ t) :
    (a → update (if a then update f w b else f) t q w = b) ∧
    ∀ u, u ≠ t → ¬ (a ∧ u = w) → update (if a then update f w b else f) t q u = f u := by
  refine ⟨fun ha => ?_, fun u hu hn => ?_⟩
  · rw [update_of_ne (hwt ha), if_pos ha, update_self]
  · rw [update_of_ne hu]
    by_cases ha : a
    · rw [if_pos ha, update_of_ne fun hc => hn ⟨ha, hc⟩]
    · rw [if_neg ha]

theorem stage_eq_loadSleep {a : Pc} : a.stage c = .loadSleep ↔ a = .loadSleep c := by
  cases a <;> simp [Pc.stage] <;> split <;> simp

theorem stage_eq_waitSleep {a : Pc} : a.stage c = .waitSleep ↔ a = .waitSleep c := by
  cases a <;> simp [Pc.stage] <;> split <;> simp

theorem Inv.forkUp {succ : Bool} (h : Inv m) (hpc : m.pc t = .forkUp succ) : Goes m t := by
  have hold := h.thread t
  have hphase : (m.pc t).phase = .forking := by rw [hpc]; rfl
  obtain ⟨p, hp⟩ := Option.ne_none_iff_exists'.mp (hold.forking hphase)
  have hok := h.pair p t hp
  have hborn : m.pc t ≠ .none := by rw [hpc]; exact Pc.noConfusion
  have hload : m.sema (.load t) = ⟨0, if (m.pc p).stage t = .loadSleep then [p] else []⟩ := by
    have hsema := hok.load
    rw [view_load, view_phase, view_stage, hphase] at hsema
    simpa using hsema
  have hup := semaUp_eq (q := .loadDown t) hload fun ha => by rw [stage_eq_loadSleep.mp ha]; rfl
  have hview := hok.forkUp hphase
  have hinv : ∀ q stopped, q ≠ .freeSleep → q.phase = .running → (∀ d, q.stage d = .elsewhere) →
      (∀ u, u ≠ t → stopped u = m.stopped u) → (∀ e, m.stopped t = some e → stopped t = some e) →
      StatusOk (stopped t) (m.exitStatus t) q →
      Inv { m with
        sema := update m.sema (.load t) ⟨1, []⟩
        pc := update (if (m.pc p).stage t = .loadSleep then update m.pc p (.loadDown t) else m.pc) t q
        stopped := stopped } := by
    intro q stopped hq hrun haway hstopped hstop hstatus
    obtain ⟨hpcw, hpcu⟩ := update_woken (f := m.pc) (q := q) (b := .loadDown t)
      (a := (m.pc p).stage t = .loadSleep) fun _ => (h.lt p t hp).ne
    refine h.up (Or.inl rfl) hborn (by rw [hpc]; exact Pc.noConfusion) (update_self _ _ _) hpcw hpcu hq
      (fun _ hc => by rw [hc] at hrun; cases hrun) (by rw [hrun]; exact Phase.noConfusion)
      (fun d => by rw [hpc]; rfl) haway (fun ha => ⟨hp, ?_, fun d hd => ?_, ?_, Pc.noConfusion⟩)
      hstopped hstop hstatus fun p' hp' => ?_
    · rw [stage_eq_loadSleep.mp ha]
      rfl
    · simp [stage_eq_loadSleep.mp ha, Pc.stage, Ne.symm hd]
    · rw [stage_eq_loadSleep.mp ha]
      rfl
    · have hpp : p' = p := Option.some.inj (hp'.symm.trans hp)
      subst hpp
      rw [hrun, show (Pc.loadDown t).stage t = .loadDown from if_pos rfl, update_self,
        update_of_ne (by simp)]
      exact hview
  cases succ with
  | true =>
    refine ⟨_, by rw [stepThread, hpc]; simp only [hup]; rfl, ?_⟩
    exact hinv .user m.stopped Pc.noConfusion rfl (fun _ => rfl) (fun _ _ => rfl) (fun _ he => he)
      (hold.status_of hpc :)
  | false =>
    refine ⟨_, by rw [stepThread, hpc]; simp only [hup]; rfl, ?_⟩
    obtain ⟨hnone, -⟩ := (hold.status_of hpc : m.stopped t = none ∧ m.exitStatus t = 0)
    refine hinv (.exit TID_ERROR) _ Pc.noConfusion rfl (fun _ => rfl) (fun u hu => update_of_ne hu _ _)
      (fun e he => ?_) ⟨_, update_self _ _ _, rfl⟩
    rw [hnone] at he
    cases he

theorem Inv.exit {status : Int} (h : Inv m) (hpc : m.pc t = .exit status) : Goes m t := by
  have hold := h.thread t
  refine ⟨_, by rw [stepThread, hpc], ?_⟩
  have hphase : Pc.phase .exitUp = (m.pc t).phase := by rw [hpc]; rfl
  have haway : ∀ d, (Pc.stage d .exitUp) = (m.pc t).stage d := fun d => by rw [hpc]; rfl
  have hf : Frame m { m.setPc t .exitUp with exitStatus := update m.exitStatus t status } t := by
    constructor
    case stage => exact fun u d _ => stage_update_of_eq (haway d)
    case phase => exact fun u _ => phase_update_of_eq hphase
    all_goals intros; rfl
  refine h.of_frame hf (fun p hp => ?_) (fun u => ?_) rfl rfl
  · exact (h.pair p t hp).transfer (stage_update_of_eq (haway t)) (phase_update_of_eq hphase)
      rfl rfl rfl rfl decide_eq_true_iff.symm rfl
  · by_cases hu : u = t
    · subst hu
      obtain ⟨e, he, hhandle⟩ : ∃ e, m.stopped u = some e ∧ handle e = .exit status :=
        (hold.status_of hpc :)
      refine hold.move (by rw [hpc]; exact Pc.noConfusion) (update_self _ _ _) rfl rfl rfl
        (fun _ he => he) (fun d hd => absurd rfl hd) (fun _ => Pc.noConfusion) (fun hc => by cases hc)
        ⟨e, he, ?_⟩ (hold.root_of_eq rfl rfl (by rw [hpc]; exact Pc.noConfusion) Pc.noConfusion)
      show update m.exitStatus u status u = e.leaves
      rw [update_self, Event.leaves, hhandle]
    · exact (h.thread u).of_same rfl rfl ⟨update_of_ne hu _ _, rfl, update_of_ne hu _ _, rfl,
        fun _ => ⟨rfl, rfl⟩⟩

theorem Inv.exitUp (h : Inv m) (hpc : m.pc t = .exitUp) : Goes m t := by
  have hold := h.thread t
  have hphase : (m.pc t).phase = .running := by rw [hpc]; rfl
  have hborn : m.pc t ≠ .none := by rw [hpc]; exact Pc.noConfusion
  have hawake : m.pc t ≠ .freeSleep := by rw [hpc]; exact Pc.noConfusion
  cases hp : m.parent t with
  | none =>
    -- a thread without a parent, for which no thread waits
    obtain ⟨hwait, -⟩ := hold.root hp
    have hup : m.semaUp (.wait t) = .ok (m.setSema (.wait t) ⟨(m.sema (.wait t)).value + 1, []⟩) := by
      unfold semaUp
      cases hs : m.sema (.wait t) with
      | mk v l =>
        rw [hs] at hwait
        cases hwait
        rfl
    refine ⟨_, by rw [stepThread, hpc]; simp only [hup]; rfl, ?_⟩
    have hf : Frame m ((m.setSema (.wait t) ⟨(m.sema (.wait t)).value + 1, []⟩).setPc t .freeDown) t := by
      constructor
      case stage => exact fun u d _ => stage_update_of_eq (by rw [setSema_pc, hpc]; rfl)
      case phase => exact fun u hu => congrArg Pc.phase (update_of_ne hu _ _)
      case sema => exact fun s hs => update_of_ne (fun hc => hs (by rw [hc]; rfl)) _ _
      all_goals intros; rfl
    refine h.of_frame hf (fun p hp' => ?_) (fun u => ?_) rfl rfl
    · rw [hp] at hp'
      cases hp'
    · by_cases hu : u = t
      · subst hu
        obtain ⟨hw, hfr⟩ := hold.root hp
        refine hold.move hborn (update_self _ _ _) rfl rfl rfl (fun _ he => he)
          (fun d hd => absurd rfl hd) (fun _ => Pc.noConfusion) (fun hc => by cases hc)
          (hold.status_of hpc :) fun _ => ⟨by simp, by simp [hfr, hawake]⟩
      · exact (h.thread u).of_same rfl rfl ⟨update_of_ne hu _ _, rfl, rfl, rfl,
          fun _ => ⟨by simp [hu], by simp⟩⟩
  | some p =>
    have hok := h.pair p t hp
    have hwait : m.sema (.wait t) = ⟨0, if (m.pc p).stage t = .waitSleep then [p] else []⟩ := by
      have hsema := hok.wait
      rw [view_wait, view_phase, view_stage, hphase] at hsema
      simpa [Phase.upped] using hsema
    have hup := semaUp_eq (q := .waitDown t) hwait fun ha => by rw [stage_eq_waitSleep.mp ha]; rfl
    have hview := hok.exitUp hphase
    refine ⟨_, by rw [stepThread, hpc]; simp only [hup]; rfl, ?_⟩
    obtain ⟨hpcw, hpcu⟩ := update_woken (f := m.pc) (q := .freeDown) (b := .waitDown t)
      (a := (m.pc p).stage t = .waitSleep) fun _ => (h.lt p t hp).ne
    refine h.up (Or.inr rfl) hborn hawake (update_self _ _ _) hpcw hpcu Pc.noConfusion
      (fun _ => Pc.noConfusion) Phase.noConfusion (fun d => by rw [hpc]; rfl) (fun _ => rfl)
      (fun ha => ⟨hp, ?_, fun d hd => ?_, ?_, Pc.noConfusion⟩) (fun _ _ => rfl) (fun _ he => he)
      (hold.status_of hpc :) fun p' hp' => ?_
    · rw [stage_eq_waitSleep.mp ha]
      rfl
    · simp [stage_eq_waitSleep.mp ha, Pc.stage, Ne.symm hd]
    · rw [stage_eq_waitSleep.mp ha]
      rfl
    · have hpp : p' = p := Option.some.inj (hp'.symm.trans hp)
      subst hpp
      rw [show (Pc.waitDown t).stage t = .waitDown from if_pos rfl, update_self,
        update_of_ne (by simp)]
      exact hview

/-- `sema_down` of a thread on its own `free_sema`, when it has gone to sleep or has returned. -/
theorem Inv.downFree {q : Pc} {v : Semaphore} (h : Inv m) (hpc : m.pc t = .freeDown)
    (hq : q = .freeSleep ∨ q = .dying)
    (hok : ∀ p, m.parent t = some p → View.Ok { view m p t with phase := q.phase, free := v } p t)
    (hroot : m.parent t = none → v = ⟨0, if q = .freeSleep then [t] else []⟩) :
    Inv ((m.setSema (.free t) v).setPc t q) := by
  have hold := h.thread t
  have haway : ∀ d, q.stage d = (m.pc t).stage d := by
    intro d
    rw [hpc]
    rcases hq with rfl | rfl <;> rfl
  have hf : Frame m ((m.setSema (.free t) v).setPc t q) t := by
    constructor
    case stage => exact fun u d _ => stage_update_of_eq (haway d)
    case phase => exact fun u hu => congrArg Pc.phase (update_of_ne hu _ _)
    case sema => exact fun s hs => update_of_ne (fun hc => hs (by rw [hc]; rfl)) _ _
    all_goals intros; rfl
  refine h.of_frame hf (fun p hp => ?_) (fun u => ?_) rfl rfl
  · exact (hok p hp).transfer (stage_update_of_eq (haway t)) (congrArg Pc.phase (update_self _ _ _)) rfl
      (by simp) (by simp) (by simp) decide_eq_true_iff.symm rfl
  · by_cases hu : u = t
    · subst hu
      refine hold.move (by rw [hpc]; exact Pc.noConfusion) (update_self _ _ _) rfl rfl rfl
        (fun _ he => he) (fun d hd => ?_) (fun _ hc => ?_) (fun hc => ?_) ?_ fun hr => ⟨?_, ?_⟩
      · exact hold.about d (by rw [← haway d]; exact hd)
      · rcases hq with rfl | rfl <;> cases hc
      · rcases hq with rfl | rfl <;> cases hc
      · rcases hq with rfl | rfl <;> exact (hold.status_of hpc :)
      · simpa using (hold.root hr).1
      · rw [← hroot hr]
        simp
    · exact (h.thread u).of_same rfl rfl ⟨update_of_ne hu _ _, rfl, rfl, rfl,
        fun _ => ⟨by simp, by simp [hu]⟩⟩

theorem Inv.freeDown (h : Inv m) (hpc : m.pc t = .freeDown) : Goes m t := by
  have hold := h.thread t
  have hphase : (m.pc t).phase = .freeDown := by rw [hpc]; rfl
  refine ⟨_, by rw [stepThread, hpc], ?_⟩
  have hwaiters : (m.sema (.free t)).waiters = [] ∧
      ((m.sema (.free t)).value ≠ 0 → (m.sema (.free t)).value - 1 = 0 ∧ m.parent t ≠ none) := by
    cases hp : m.parent t with
    | none =>
      rw [(hold.root hp).2, hpc]
      exact ⟨rfl, fun hc => absurd rfl hc⟩
    | some p =>
      have hsema := (h.pair p t hp).free
      rw [view_free, view_phase, hphase] at hsema
      rw [hsema]
      refine ⟨rfl, fun hc => ⟨?_, fun hc => by cases hc⟩⟩
      simp only at hc ⊢
      split at hc
      · next hfreed => rw [if_pos hfreed]; rfl
      · exact absurd rfl hc
  obtain ⟨hnil, hone⟩ := hwaiters
  rcases semaDown_eq (t := t) hnil .freeSleep .dying with ⟨h0, heq⟩ | ⟨h1, heq⟩
  · rw [heq]
    exact h.downFree hpc (Or.inl rfl) (fun p hp => (h.pair p t hp).freeSleep_of hphase h0)
      fun _ => rfl
  · obtain ⟨hv, hparent⟩ := hone h1
    rw [heq, hv]
    exact h.downFree hpc (Or.inr rfl) (fun p hp => (h.pair p t hp).released hphase h1)
      fun hr => absurd hr hparent

theorem Inv.dying (h : Inv m) (hpc : m.pc t = .dying) : Goes m t := by
  refine ⟨_, by rw [stepThread, hpc], ?_⟩
  have hphase : Pc.phase .none = (m.pc t).phase := by rw [hpc]; rfl
  exact h.setPc (c := t) (by rw [hpc]; exact Pc.noConfusion) hphase (fun _ => Pc.noConfusion)
    (by rw [hpc]; exact Pc.noConfusion) Pc.noConfusion (fun d _ => by rw [hpc]; rfl)
    (fun d hd => absurd rfl hd) trivial fun hp => absurd (h.lt t t hp) (Nat.lt_irrefl t)

/-- A thread that has done `sema_up (&curr -> wait_sema)` has stopped. -/
theorem left_of_upped {stopped : Option Event} {exitStatus : Int} {a : Pc}
    (h : StatusOk stopped exitStatus a) (hupped : a.phase.upped) (halive : a ≠ .none) :
    ∃ e, stopped = some e ∧ exitStatus = e.leaves := by
  cases a <;>
    first
    | exact absurd rfl halive
    | exact h
    | cases hupped

theorem Inv.waitRead (h : Inv m) (hpc : m.pc t = .waitRead c) : Goes m t := by
  have hold := h.thread t
  have hstage : (m.pc t).stage c = .waitRead := by simp [hpc, Pc.stage]
  have hne : (m.pc t).stage c ≠ .elsewhere := by rw [hstage]; exact Stage.noConfusion
  have hparent := hold.about c hne
  have hct : c ≠ t := (h.lt t c hparent).ne'
  have hok := h.pair t c hparent
  have halive := h.stage_alive hne
  have hphase : (Pc.waitRemove c (m.exitStatus c)).phase = (m.pc t).phase := by rw [hpc]; rfl
  refine ⟨_, by rw [stepThread, hpc]; exact if_neg halive, ?_⟩
  have hf : Frame m { m.setPc t (.waitRemove c (m.exitStatus c)) with
      read := update m.read c (some (m.exitStatus c)) } c := by
    constructor
    case stage => exact fun u d hd => stage_update_of_eq (by simp [hpc, Pc.stage, Ne.symm hd])
    case phase => exact fun u _ => phase_update_of_eq hphase
    case read => exact fun d hd => update_of_ne hd _ _
    all_goals intros; rfl
  refine h.of_frame hf (fun p hp => ?_) (fun u => ?_) rfl rfl
  · rw [hparent] at hp
    cases hp
    exact (hok.waitRead hstage (m.exitStatus c)).transfer (by simp [Pc.stage])
      (phase_update_of_eq hphase) (update_self _ _ _) rfl rfl rfl decide_eq_true_iff.symm rfl
  · by_cases hu : u = t
    · subst hu
      refine hold.move (by rw [hpc]; exact Pc.noConfusion) (update_self _ _ _) rfl rfl
        (update_of_ne hct.symm _ _) (fun _ he => he) (fun d hd => hold.about d ?_)
        (fun _ => Pc.noConfusion) (fun hc => by cases hc) (hold.status_of hpc :)
        (hold.root_of_eq rfl rfl (by rw [hpc]; exact Pc.noConfusion) Pc.noConfusion)
      simpa [hpc, Pc.stage] using hd
    · by_cases huc : u = c
      · -- the child has stopped, and its status is what it left
        subst huc
        have hthread := h.thread u
        have hupc : update m.pc t (.waitRemove u (m.exitStatus u)) u = m.pc u := update_of_ne hct _ _
        obtain ⟨e, he, hleaves⟩ :=
          left_of_upped hthread.status (hok.upped (by simp [View.consumed, hstage])) halive
        exact {
          about := fun d hd => hthread.about d (by rw [← hupc]; exact hd)
          doFork := fun q hq => hthread.doFork q (by rw [← hupc]; exact hq)
          forking := fun hc => hthread.forking (by rw [← hupc]; exact hc)
          status := by
            rw [show ({ m.setPc t (.waitRemove u (m.exitStatus u)) with
              read := update m.read u (some (m.exitStatus u)) } : Procs).pc u = m.pc u from hupc]
            exact hthread.status
          read := fun st hst => by
            have hst : update m.read u (some (m.exitStatus u)) u = some st := hst
            rw [update_self] at hst
            cases hst
            refine ⟨fun hc => ?_, e, he, hleaves⟩
            rw [show m.parent u = none from hc] at hparent
            cases hparent
          fresh := fun hc => absurd (hthread.fresh hc).1 halive
          root := fun hr => by
            rw [show m.parent u = none from hr] at hparent
            cases hparent }
      · exact (h.thread u).of_same rfl rfl ⟨update_of_ne hu _ _, rfl, rfl, update_of_ne huc _ _,
          fun _ => ⟨rfl, rfl⟩⟩

theorem Inv.waitRemove {st : Int} (h : Inv m) (hpc : m.pc t = .waitRemove c st) : Goes m t := by
  have hold := h.thread t
  have hstage : (m.pc t).stage c = .waitRemove st := by simp [hpc, Pc.stage]
  have hne : (m.pc t).stage c ≠ .elsewhere := by rw [hstage]; exact Stage.noConfusion
  have hparent := hold.about c hne
  have hct : c ≠ t := (h.lt t c hparent).ne'
  have hok := h.pair t c hparent
  have hphase : (Pc.waitUp c st).phase = (m.pc t).phase := by rw [hpc]; rfl
  refine ⟨_, by rw [stepThread, hpc]; exact if_pos (h.listAlive (h.stage_alive hne)), ?_⟩
  have hf : Frame m { m.setPc t (.waitUp c st) with
      childList := update m.childList t ((m.childList t).erase c) } c := by
    constructor
    case stage => exact fun u d hd => stage_update_of_eq (by simp [hpc, Pc.stage, Ne.symm hd])
    case phase => exact fun u _ => phase_update_of_eq hphase
    case listed =>
      intro p d hd
      by_cases hp : p = t
      · subst hp
        simp [List.mem_erase_of_ne hd]
      · simp [hp]
    all_goals intros; rfl
  constructor
  case pair =>
    refine hf.pair h fun p hp => ?_
    rw [hparent] at hp
    cases hp
    exact (hok.waitRemove hstage).transfer (by simp [Pc.stage]) (phase_update_of_eq hphase) rfl rfl rfl
      rfl (by simp [(h.nodup t).mem_erase_iff]) rfl
  case thread =>
    intro u
    by_cases hu : u = t
    · subst hu
      refine hold.move (by rw [hpc]; exact Pc.noConfusion) (update_self _ _ _) rfl rfl rfl
        (fun _ he => he) (fun d hd => hold.about d ?_) (fun _ => Pc.noConfusion)
        (fun hc => by cases hc) (hold.status_of hpc :)
        (hold.root_of_eq rfl rfl (by rw [hpc]; exact Pc.noConfusion) Pc.noConfusion)
      simpa [hpc, Pc.stage] using hd
    · exact (h.thread u).of_same rfl rfl ⟨update_of_ne hu _ _, rfl, rfl, rfl, fun _ => ⟨rfl, rfl⟩⟩
  case nodup =>
    intro p
    show (update m.childList t ((m.childList t).erase c) p).Nodup
    by_cases hp : p = t
    · subst hp
      rw [update_self]
      exact (h.nodup p).erase c
    · rw [update_of_ne hp]
      exact h.nodup p
  case children =>
    intro p d hd
    by_cases hp : p = t
    · subst hp
      simp only [update_self] at hd
      exact h.children p d (List.mem_of_mem_erase hd)
    · simp only [update_of_ne hp] at hd
      exact h.children p d hd
  case lt => exact h.lt
  case results => exact h.results

theorem waits_addResult (m : Procs) (t p : Tid) (pid pid' value : Int) :
    (m.addResult t pid value).waits p pid' =
      if t = p ∧ pid = pid' ∧ pid' < m.nextTid then value :: m.waits p pid' else m.waits p pid' := by
  unfold Procs.waits Procs.addResult
  rw [List.filterMap_cons]
  by_cases hc : t = p ∧ pid = pid' ∧ pid' < m.nextTid
  · simp [hc]
  · simp [hc]

/-- A thread with a parent has been created. -/
theorem Inv.lt_nextTid (h : Inv m) (hp : m.parent c = some p) : c < m.nextTid := by
  by_contra hc
  rw [((h.thread c).fresh (Nat.le_of_not_lt hc)).2.1] at hp
  cases hp

theorem Inv.waitUp {st : Int} (h : Inv m) (hpc : m.pc t = .waitUp c st) : Goes m t := by
  have hold := h.thread t
  have hstage : (m.pc t).stage c = .waitUp st := by simp [hpc, Pc.stage]
  have hne : (m.pc t).stage c ≠ .elsewhere := by rw [hstage]; exact Stage.noConfusion
  have hparent := hold.about c hne
  have hct : c ≠ t := (h.lt t c hparent).ne'
  have hok := h.pair t c hparent
  have hphase : Pc.phase .user = (m.pc t).phase := by rw [hpc]; rfl
  have hborn : m.pc t ≠ .none := by rw [hpc]; exact Pc.noConfusion
  have hawake : m.pc t ≠ .freeSleep := by rw [hpc]; exact Pc.noConfusion
  have hfree : m.sema (.free c) = ⟨0, if m.pc c = .freeSleep then [c] else []⟩ := by
    have hsema := hok.free
    rw [view_free, show (view m t c).freed = false by simp [View.freed, hstage, Stage.returning]] at hsema
    have hiff : (m.pc c).phase = .freeSleep ↔ m.pc c = .freeSleep := by
      cases m.pc c <;> simp [Pc.phase]
    simpa [hiff] using hsema
  have hup := semaUp_eq (q := .freeDown) hfree fun ha => by rw [ha]; rfl
  refine ⟨_, by rw [stepThread, hpc]; simp only [hup, if_neg (h.stage_alive hne)]; rfl, ?_⟩
  obtain ⟨hpcw, hpcu⟩ := update_woken (f := m.pc) (q := .user) (b := .freeDown)
    (a := m.pc c = .freeSleep) fun _ => hct
  have hpct := update_self t Pc.user (if m.pc c = Pc.freeSleep then update m.pc c .freeDown else m.pc)
  show Inv ({ m with
    sema := update m.sema (.free c) ⟨1, []⟩
    pc := update (if m.pc c = Pc.freeSleep then update m.pc c .freeDown else m.pc) t .user }.addResult t c st)
  generalize update (if m.pc c = Pc.freeSleep then update m.pc c .freeDown else m.pc) t .user = pc at *
  have hf : Frame m ({ m with sema := update m.sema (.free c) ⟨1, []⟩, pc := pc }.addResult t c st) c := by
    constructor
    case stage =>
      intro u d hd
      show (pc u).stage d = (m.pc u).stage d
      by_cases hu : u = t
      · rw [hu, hpct, hpc]
        simp [Pc.stage, Ne.symm hd]
      · by_cases hn : m.pc c = .freeSleep ∧ u = c
        · rw [hn.2, hpcw hn.1, hn.1]
          rfl
        · rw [hpcu u hu hn]
    case phase =>
      intro u hu
      show (pc u).phase = (m.pc u).phase
      by_cases hut : u = t
      · rw [hut, hpct, hphase]
      · rw [hpcu u hut fun hc => hu hc.2]
    case sema => exact fun s hs => update_of_ne (fun hc => hs (by rw [hc]; rfl)) _ _
    case waits =>
      intro p d hd
      rw [waits_addResult, if_neg]
      · rfl
      · intro hc
        exact hd (by exact_mod_cast hc.2.1.symm)
    all_goals intros; rfl
  constructor
  case pair =>
    refine hf.pair h fun p hp => ?_
    rw [hparent] at hp
    cases hp
    refine (hok.waitUp hstage).transfer (congrArg (Pc.stage c) hpct) ?_ rfl (by simp) (by simp) (by simp)
      (view_listed m t c).symm ?_
    · show (pc c).phase = if (m.pc c).phase = .freeSleep then .freeDown else (m.pc c).phase
      by_cases ha : m.pc c = .freeSleep
      · rw [hpcw ha, ha]
        rfl
      · rw [hpcu c hct fun hc => ha hc.1, if_neg]
        revert ha
        cases m.pc c <;> simp [Pc.phase]
    · rw [waits_addResult, if_pos ⟨rfl, rfl, by exact_mod_cast h.lt_nextTid hparent⟩]
      rfl
  case thread =>
    intro u
    by_cases hu : u = t
    · subst hu
      refine hold.move hborn hpct rfl rfl rfl (fun _ he => he) (fun d hd => absurd rfl hd)
        (fun _ => Pc.noConfusion) (fun hc => by cases hc) (hold.status_of hpc :)
        (hold.root_of_eq (by simp) (by simp [hct.symm]) hawake Pc.noConfusion)
    · have hsema : m.parent u = none → update m.sema (.free c) ⟨1, []⟩ (.wait u) = m.sema (.wait u) ∧
          update m.sema (.free c) ⟨1, []⟩ (.free u) = m.sema (.free u) := by
        intro hr
        have huc : u ≠ c := by
          rintro rfl
          rw [hparent] at hr
          cases hr
        simp [huc]
      by_cases hn : m.pc c = .freeSleep ∧ u = c
      · obtain ⟨ha, rfl⟩ := hn
        exact (h.thread u).wake (q := .freeDown) (by rw [ha]; rfl) rfl rfl (hpcw ha) rfl rfl rfl
          fun hr => by rw [hparent] at hr; cases hr
      · exact (h.thread u).of_same rfl rfl ⟨hpcu u hu hn, rfl, rfl, rfl, hsema⟩
  case nodup => exact h.nodup
  case children => exact h.children
  case lt => exact h.lt
  case results =>
    intro r hr
    rcases List.mem_cons.mp hr with rfl | hr
    · exact ⟨Nat.le_refl _, Or.inr ⟨c, rfl, h.lt_nextTid hparent, hparent⟩⟩
    · exact h.results r hr

/-! ## One lemma for each call -/

theorem Inv.doFork {q : Tid} (h : Inv m) (succ : Bool) (hpc : m.pc t = .doFork q) :
    m.pc q ≠ .none ∧ Inv (m.setPc t (.forkUp succ)) := by
  have hold := h.thread t
  have hparent := hold.doFork q hpc
  have hforking := (h.pair q t hparent).forking (by rw [view_phase, hpc]; rfl)
  refine ⟨fun hc => ?_, ?_⟩
  · rw [view_stage, hc] at hforking
    cases hforking
  · exact h.setPc (c := t) (by rw [hpc]; exact Pc.noConfusion) (by rw [hpc]; rfl)
      (fun _ => Pc.noConfusion) (by rw [hpc]; exact Pc.noConfusion) Pc.noConfusion
      (fun d _ => by rw [hpc]; rfl) (fun d hd => absurd rfl hd) (hold.status_of hpc :)
      fun hp => absurd (h.lt t t hp) (Nat.lt_irrefl t)

/-- `process_wait` for a thread that is on the list. -/
theorem Inv.waitStart (h : Inv m) (hpc : m.pc t = .user) (hc : c ∈ m.childList t) :
    Inv (m.setPc t (.waitDown c)) := by
  have hold := h.thread t
  have hparent := h.children t c hc
  refine h.setPc (c := c) (by rw [hpc]; exact Pc.noConfusion) (by rw [hpc]; rfl)
    (fun _ => Pc.noConfusion) (by rw [hpc]; exact Pc.noConfusion) Pc.noConfusion
    (fun d hd => ?_) (fun d hd => ?_) (hold.status_of hpc :) fun _ => ?_
  · rw [hpc]
    exact if_neg (Ne.symm hd)
  · have hdc : c = d := by
      by_contra hn
      exact hd (if_neg hn)
    rw [← hdc]
    exact hparent
  · have hstart := (h.pair t c hparent).waitStart (by rw [view_stage, hpc]; rfl)
      ((view_listed m t c).mpr hc)
    rwa [← show (Pc.waitDown c).stage c = .waitDown from if_pos rfl] at hstart

/-- `process_wait` for a thread that is not. -/
theorem Inv.waitAgain {pid : Int} (h : Inv m) (hpc : m.pc t = .user)
    (hc : ∀ c ∈ m.childList t, (c : Int) ≠ pid) : Inv (m.addResult t pid (-1)) := by
  constructor
  case pair =>
    intro p c hp
    have hok := h.pair p c hp
    by_cases hcall : t = p ∧ pid = (c : Int) ∧ (c : Int) < m.nextTid
    · obtain ⟨rfl, rfl, -⟩ := hcall
      have hlisted : (view m t c).listed = false := decide_eq_false fun hm => hc c hm rfl
      refine (hok.waitAgain (by rw [view_stage, hpc]; rfl) hlisted).transfer rfl rfl rfl rfl rfl rfl
        (view_listed m t c).symm ?_
      rw [waits_addResult, if_pos ⟨rfl, rfl, by exact_mod_cast h.lt_nextTid hp⟩]
      rfl
    · refine hok.transfer rfl rfl rfl rfl rfl rfl (view_listed m p c).symm ?_
      rw [waits_addResult, if_neg hcall]
      rfl
  case thread => exact fun u => (h.thread u).of_same rfl rfl ⟨rfl, rfl, rfl, rfl, fun _ => ⟨rfl, rfl⟩⟩
  case nodup => exact h.nodup
  case children => exact h.children
  case lt => exact h.lt
  case results =>
    intro r hr
    rcases List.mem_cons.mp hr with rfl | hr
    · exact ⟨Nat.le_refl _, Or.inl rfl⟩
    · exact h.results r hr

/-- A process stops. -/
theorem Inv.stop {q : Pc} {e : Event} (h : Inv m) (hpc : m.pc t = .user)
    (hq : q = .exitUp ∨ ∃ status, q = .exit status) (hstatus : StatusOk (some e) (m.exitStatus t) q) :
    Inv { m.setPc t q with stopped := update m.stopped t (some e) } := by
  have hold := h.thread t
  have hphase : q.phase = (m.pc t).phase := by
    rw [hpc]
    rcases hq with rfl | ⟨status, rfl⟩ <;> rfl
  have haway : ∀ d, q.stage d = (m.pc t).stage d := by
    intro d
    rw [hpc]
    rcases hq with rfl | ⟨status, rfl⟩ <;> rfl
  have hnone : m.stopped t = none :=
    (hold.status_of hpc : m.stopped t = none ∧ m.exitStatus t = 0).1
  have hf : Frame m { m.setPc t q with stopped := update m.stopped t (some e) } t := by
    constructor
    case stage => exact fun u d _ => stage_update_of_eq (haway d)
    case phase => exact fun u _ => phase_update_of_eq hphase
    all_goals intros; rfl
  refine h.of_frame hf (fun p hp => ?_) (fun u => ?_) rfl rfl
  · exact (h.pair p t hp).transfer (stage_update_of_eq (haway t)) (phase_update_of_eq hphase) rfl rfl rfl
      rfl (view_listed m p t).symm rfl
  · by_cases hu : u = t
    · subst hu
      refine hold.move (by rw [hpc]; exact Pc.noConfusion) (update_self _ _ _) rfl rfl rfl
        (fun e' he' => ?_) (fun d hd => ?_) (fun _ hc => ?_) (fun hc => by rw [← hphase, hc]) ?_
        (hold.root_of_eq rfl rfl (by rw [hpc]; exact Pc.noConfusion) ?_)
      · rw [hnone] at he'
        cases he'
      · exact hold.about d (by rw [← haway d]; exact hd)
      · rcases hq with rfl | ⟨status, rfl⟩ <;> cases hc
      · show StatusOk (update m.stopped u (some e) u) (m.exitStatus u) q
        rw [update_self]
        exact hstatus
      · rcases hq with rfl | ⟨status, rfl⟩ <;> exact Pc.noConfusion
    · exact (h.thread u).of_same rfl rfl ⟨update_of_ne hu _ _, update_of_ne hu _ _, rfl, rfl,
        fun _ => ⟨rfl, rfl⟩⟩

/-- No call names a thread that does not exist. -/
theorem Inv.waits_fresh (h : Inv m) (p : Tid) (hc : m.nextTid ≤ c) : m.waits p c = [] := by
  refine List.filterMap_eq_nil_iff.mpr fun r hr => if_neg fun hcall => ?_
  have hlt : c < r.nextTid := by exact_mod_cast hcall.2.2
  exact absurd (Nat.lt_of_lt_of_le hlt (h.results r hr).1) (Nat.not_lt.mpr hc)

theorem Inv.threadCreate (h : Inv m) (hpc : m.pc t = .user) : Inv (m.threadCreate t) := by
  obtain ⟨hnpc, hnparent, hnread, hnstopped⟩ := (h.thread m.nextTid).fresh (Nat.le_refl _)
  have htn : t ≠ m.nextTid := by
    rintro hc
    rw [← hc, hpc] at hnpc
    cases hnpc
  have hlt : t < m.nextTid := by
    by_contra hc
    have hfresh := ((h.thread t).fresh (Nat.le_of_not_lt hc)).1
    rw [hpc] at hfresh
    cases hfresh
  -- the threads that were there keep their parents
  have hparent : ∀ {d u}, m.parent d = some u → d ≠ m.nextTid := by
    intro d u hd hc
    rw [hc, hnparent] at hd
    cases hd
  have hpcu : ∀ {u}, u ≠ t → u ≠ m.nextTid → (m.threadCreate t).pc u = m.pc u := by
    intro u hu hn
    exact (update_of_ne hn _ _).trans (update_of_ne hu _ _)
  have hpct : (m.threadCreate t).pc t = .push m.nextTid := (update_of_ne htn _ _).trans (update_self _ _ _)
  have hpcn : (m.threadCreate t).pc m.nextTid = .doFork t := update_self _ _ _
  have hsema : ∀ s : Sema, s.owner ≠ m.nextTid → (m.threadCreate t).sema s = m.sema s := by
    intro s hs
    have hne : ∀ s', s'.owner = m.nextTid → s ≠ s' := fun s' hs' hc => hs (hc ▸ hs')
    exact (update_of_ne (hne _ rfl) _ _).trans ((update_of_ne (hne _ rfl) _ _).trans
      (update_of_ne (hne _ rfl) _ _))
  constructor
  case pair =>
    intro p c hp
    have hp' : update m.parent m.nextTid (some t) c = some p := hp
    by_cases hc : c = m.nextTid
    · rw [hc, update_self] at hp'
      cases hp'
      subst hc
      refine (View.Ok.start t m.nextTid).transfer ?_ ?_ hnread (update_self _ _ _)
        (by simp [Procs.threadCreate]) (by simp [Procs.threadCreate]) ?_ (h.waits_fresh t (Nat.le_refl _))
      · rw [hpct]
        exact if_pos rfl
      · rw [hpcn]
        rfl
      · simp only [Procs.threadCreate, update_of_ne htn, Bool.false_eq_true, iff_false]
        intro hm
        exact hparent (h.children t _ hm) rfl
    · rw [update_of_ne hc] at hp'
      have hpn : p ≠ m.nextTid := (Nat.lt_trans (h.lt p c hp') (h.lt_nextTid hp')).ne
      refine (h.pair p c hp').transfer ?_ ?_ rfl (hsema _ hc) (hsema _ hc) (hsema _ hc) ?_ rfl
      · by_cases hpt : p = t
        · subst hpt
          rw [hpct, view_stage, hpc]
          exact if_neg (Ne.symm hc)
        · rw [hpcu hpt hpn, view_stage]
      · by_cases hct : c = t
        · subst hct
          rw [hpct, view_phase, hpc]
          rfl
        · rw [hpcu hct hc, view_phase]
      · rw [show (m.threadCreate t).childList p = m.childList p from update_of_ne hpn _ _]
        exact (view_listed m p c).symm
  case thread =>
    intro u
    have hold := h.thread u
    by_cases hun : u = m.nextTid
    · rw [hun]
      exact {
        about := fun d hd => absurd (by rw [hpcn]; rfl) hd
        doFork := fun q hq => by
          rw [hpcn] at hq
          cases hq
          exact update_self _ _ _
        forking := fun _ hc => by
          have hc : update m.parent m.nextTid (some t) m.nextTid = none := hc
          rw [update_self] at hc
          cases hc
        status := by
          rw [hpcn]
          exact ⟨hnstopped, update_self _ _ _⟩
        read := fun st hst => by
          rw [show (m.threadCreate t).read m.nextTid = m.read m.nextTid from rfl, hnread] at hst
          cases hst
        fresh := fun hc => absurd hc (Nat.not_succ_le_self _)
        root := fun hc => by
          have hc : update m.parent m.nextTid (some t) m.nextTid = none := hc
          rw [update_self] at hc
          cases hc }
    · have hkeep : ∀ {d}, m.parent d = some u → (m.threadCreate t).parent d = some u := fun hd =>
        (update_of_ne (hparent hd) _ _).trans hd
      have hparentu : (m.threadCreate t).parent u = m.parent u := update_of_ne hun _ _
      have hread : ∀ st, (m.threadCreate t).read u = some st → (m.threadCreate t).parent u ≠ none ∧
          ∃ e, (m.threadCreate t).stopped u = some e ∧ st = e.leaves := by
        intro st hst
        rw [hparentu]
        exact hold.read st hst
      have hexit : (m.threadCreate t).exitStatus u = m.exitStatus u := update_of_ne hun _ _
      by_cases hut : u = t
      · subst hut
        exact {
          about := fun d hd => by
            rw [hpct] at hd
            have hdn : m.nextTid = d := by
              by_contra hc
              exact hd (if_neg hc)
            rw [← hdn]
            exact update_self _ _ _
          doFork := fun q hq => by rw [hpct] at hq; cases hq
          forking := fun hc => by rw [hpct] at hc; cases hc
          status := by
            rw [hpct, hexit]
            exact (hold.status_of hpc :)
          read := hread
          fresh := fun hc => absurd (Nat.lt_of_lt_of_le hlt (Nat.le_of_succ_le hc)) (Nat.lt_irrefl _)
          root := fun hr => by
            rw [hparentu] at hr
            obtain ⟨hw, hf⟩ := hold.root hr
            rw [hsema (.wait u) hun, hsema (.free u) hun, hpct, hf, hpc]
            exact ⟨hw, rfl⟩ }
      · exact {
          about := fun d hd => hkeep (hold.about d (by rw [← hpcu hut hun]; exact hd))
          doFork := fun q hq => by
            rw [hparentu]
            exact hold.doFork q (by rw [← hpcu hut hun]; exact hq)
          forking := fun hc => by
            rw [hparentu]
            exact hold.forking (by rw [← hpcu hut hun]; exact hc)
          status := by
            rw [hpcu hut hun, hexit]
            exact hold.status
          read := hread
          fresh := fun hc => by
            rw [hpcu hut hun, hparentu]
            exact hold.fresh (Nat.le_of_succ_le hc)
          root := fun hr => by
            rw [hparentu] at hr
            rw [hsema (.wait u) hun, hsema (.free u) hun, hpcu hut hun]
            exact hold.root hr }
  case nodup =>
    intro p
    show (update m.childList m.nextTid [] p).Nodup
    by_cases hp : p = m.nextTid
    · rw [hp, update_self]
      exact List.nodup_nil
    · rw [update_of_ne hp]
      exact h.nodup p
  case children =>
    intro p d hd
    have hd' : d ∈ update m.childList m.nextTid [] p := hd
    by_cases hp : p = m.nextTid
    · rw [hp, update_self] at hd'
      cases hd'
    · rw [update_of_ne hp] at hd'
      have hdp := h.children p d hd'
      exact (update_of_ne (hparent hdp) _ _).trans hdp
  case lt =>
    intro p c hp
    have hp' : update m.parent m.nextTid (some t) c = some p := hp
    by_cases hc : c = m.nextTid
    · rw [hc, update_self] at hp'
      cases hp'
      rw [hc]
      exact hlt
    · rw [update_of_ne hc] at hp'
      exact h.lt p c hp'
  case results =>
    intro r hr
    obtain ⟨hle, hval⟩ := h.results r hr
    refine ⟨Nat.le_succ_of_le hle, hval.imp_right ?_⟩
    rintro ⟨c, hc, hlt, hp⟩
    exact ⟨c, hc, hlt, (update_of_ne (hparent hp) _ _).trans hp⟩

/-! ## Every run -/

/-- The thread takes its next statement, or there is none for it. -/
theorem Inv.step_thread (h : Inv m) (t : Tid) : stepThread m t = .error .disabled ∨ Goes m t := by
  cases hpc : m.pc t with
  | push c => exact Or.inr (h.push hpc)
  | forkFind c => exact Or.inr (h.forkFind hpc)
  | loadDown c => exact Or.inr (h.loadDown hpc)
  | forkUp succ => exact Or.inr (h.forkUp hpc)
  | exit status => exact Or.inr (h.exit hpc)
  | exitUp => exact Or.inr (h.exitUp hpc)
  | freeDown => exact Or.inr (h.freeDown hpc)
  | dying => exact Or.inr (h.dying hpc)
  | waitDown c => exact Or.inr (h.waitDown hpc)
  | waitRead c => exact Or.inr (h.waitRead hpc)
  | waitRemove c st => exact Or.inr (h.waitRemove hpc)
  | waitUp c st => exact Or.inr (h.waitUp hpc)
  | _ => exact Or.inl (by rw [stepThread, hpc])

theorem getChildProcess_of_mem (h : Inv m) (hc : c ∈ m.childList t) :
    m.getChildProcess t c = .ok (some c) := findChild_mem (fun _ hu => h.listed_alive hu) hc

/-- `process_wait` finds the child, or returns `-1` at once. -/
theorem Inv.step_wait (h : Inv m) (hpc : m.pc t = .user) (pid : Int) :
    (∃ c ∈ m.childList t, (c : Int) = pid ∧ step m (.wait t pid) = .ok (m.setPc t (.waitDown c))) ∨
    ((∀ c ∈ m.childList t, (c : Int) ≠ pid) ∧
      step m (.wait t pid) = .ok (m.addResult t pid (-1))) := by
  by_cases hex : ∃ c ∈ m.childList t, (c : Int) = pid
  · obtain ⟨c, hc, rfl⟩ := hex
    refine Or.inl ⟨c, hc, rfl, ?_⟩
    rw [step, if_pos hpc, getChildProcess_of_mem h hc]
  · have hno : ∀ c ∈ m.childList t, (c : Int) ≠ pid := fun c hc heq => hex ⟨c, hc, heq⟩
    refine Or.inr ⟨hno, ?_⟩
    rw [step, if_pos hpc, getChildProcess, findChild_not_mem (fun _ hu => h.listed_alive hu) hno]

/-- **A step** keeps the invariant, and fails only where the thread cannot take it or the kernel
panics. -/
theorem step_inv (h : Inv m) (a : Action) :
    step m a = .error .disabled ∨ step m a = .error .panic ∨ ∃ m', step m a = .ok m' ∧ Inv m' := by
  cases a with
  | step t =>
    rcases h.step_thread t with hd | hg
    · exact Or.inl hd
    · exact Or.inr (Or.inr hg)
  | fork t alloc =>
    rw [step]
    split
    · next hpc =>
      refine Or.inr (Or.inr ⟨_, rfl, ?_⟩)
      split
      · exact h.threadCreate hpc
      · exact h
    · exact Or.inl rfl
  | doFork t succ =>
    rw [step]
    split
    · next q hpc =>
      obtain ⟨halive, hinv⟩ := h.doFork succ hpc
      rw [if_neg halive]
      exact Or.inr (Or.inr ⟨_, rfl, hinv⟩)
    · exact Or.inl rfl
  | wait t pid =>
    by_cases hpc : m.pc t = .user
    · rcases h.step_wait hpc pid with ⟨c, hc, -, hstep⟩ | ⟨hno, hstep⟩
      · exact Or.inr (Or.inr ⟨_, hstep, h.waitStart hpc hc⟩)
      · exact Or.inr (Or.inr ⟨_, hstep, h.waitAgain hpc hno⟩)
    · exact Or.inl (by rw [step, if_neg hpc])
  | event t e =>
    rw [step]
    split
    · next hpc =>
      have hzero : m.exitStatus t = 0 :=
        ((h.thread t).status_of hpc : m.stopped t = none ∧ m.exitStatus t = 0).2
      split
      · exact Or.inr (Or.inr ⟨_, rfl, h⟩)
      · next status he =>
        exact Or.inr (Or.inr ⟨_, rfl, h.stop hpc (Or.inr ⟨status, rfl⟩) ⟨e, rfl, he⟩⟩)
      · next he =>
        refine Or.inr (Or.inr ⟨_, rfl, h.stop hpc (Or.inl rfl) ⟨e, rfl, ?_⟩⟩)
        rw [hzero, Event.leaves, he]
      · exact Or.inr (Or.inl rfl)
    · exact Or.inl rfl
  | setPriority t p =>
    refine Or.inr (Or.inr ⟨_, rfl, ?_⟩)
    exact {
      pair := h.pair
      thread := fun u => (h.thread u).of_same rfl rfl ⟨rfl, rfl, rfl, rfl, fun _ => ⟨rfl, rfl⟩⟩
      nodup := h.nodup
      children := h.children
      lt := h.lt
      results := h.results }

theorem inv_boot : Inv boot := by
  have hparent : ∀ {p c}, boot.parent c = some p → p = MAIN ∧ (c = IDLE ∨ c = INITD) := by
    intro p c hp
    simp only [boot] at hp
    split at hp
    · next hc => exact ⟨(Option.some.inj hp).symm, hc⟩
    · cases hp
  constructor
  case pair =>
    intro p c hp
    obtain ⟨rfl, rfl | rfl⟩ := hparent hp <;>
      constructor <;>
        simp [view, boot, View.consumed, View.freed, Pc.stage, Pc.phase, MAIN, IDLE, INITD, semaInit,
          Stage.creating, Stage.isWaitRemove, Phase.upped, waits]
  case thread =>
    intro t
    constructor
    case about =>
      intro c hc
      simp only [boot] at hc
      split at hc
      · exact absurd rfl hc
      · split at hc <;> exact absurd rfl hc
    case doFork =>
      intro q hq
      simp only [boot] at hq
      split at hq
      · cases hq
      · split at hq <;> cases hq
    case forking =>
      intro hc
      simp only [boot] at hc
      split at hc
      · cases hc
      · split at hc <;> cases hc
    case status =>
      simp only [boot]
      split
      · exact ⟨rfl, rfl⟩
      · split
        · exact ⟨rfl, rfl⟩
        · trivial
    case read => exact fun st hst => by cases hst
    case fresh =>
      intro (ht : 4 ≤ t)
      have h1 : t ≠ MAIN := by rintro rfl; exact absurd ht (by decide)
      have h2 : t ≠ IDLE := by rintro rfl; exact absurd ht (by decide)
      have h3 : t ≠ INITD := by rintro rfl; exact absurd ht (by decide)
      simp [boot, h1, h2, h3]
    case root =>
      intro _
      refine ⟨rfl, ?_⟩
      rw [if_neg]
      · rfl
      · simp only [boot]
        split
        · exact Pc.noConfusion
        · split <;> exact Pc.noConfusion
  case nodup =>
    intro p
    simp only [boot]
    split <;> decide
  case children =>
    intro p c hc
    simp only [boot] at hc ⊢
    split at hc
    · next hp =>
      rw [hp, if_pos]
      simpa using hc
    · cases hc
  case lt =>
    intro p c hp
    obtain ⟨rfl, rfl | rfl⟩ := hparent hp <;> decide
  case results => exact fun r hr => by cases hr

theorem inv_of_reach (h : Reach step Always boot m) : Inv m := by
  refine h.invariant inv_boot fun m a m' hm _ hs => ?_
  rcases step_inv hm a with he | he | ⟨m₁, he, hinv⟩
  · rw [he] at hs
    cases hs
  · rw [he] at hs
    cases hs
  · rw [he] at hs
    cases hs
    exact hinv

/-! ## A call of `process_wait` -/

/-- What the statements of `process_wait` before its return leave as it is. -/
structure Quiet (m m' : Procs) : Prop where
  parent : m'.parent = m.parent
  exitStatus : m'.exitStatus = m.exitStatus
  results : m'.results = m.results
  nextTid : m'.nextTid = m.nextTid

theorem Quiet.trans {m₁ m₂ m₃ : Procs} (h : Quiet m₁ m₂) (h' : Quiet m₂ m₃) : Quiet m₁ m₃ :=
  ⟨h'.parent.trans h.parent, h'.exitStatus.trans h.exitStatus, h'.results.trans h.results,
    h'.nextTid.trans h.nextTid⟩

/-- The child has given to `wait_sema`: the parent does not sleep. -/
theorem Inv.run_waitDown (h : Inv m) (hpc : m.pc p = .waitDown c) (hupped : (m.pc c).phase.upped) :
    ∃ m', stepThread m p = .ok m' ∧ Inv m' ∧ m'.pc p = .waitRead c ∧ Quiet m m' := by
  obtain ⟨m', hrun, hinv⟩ := h.waitDown hpc
  have hstage : (m.pc p).stage c = .waitDown := by simp [hpc, Pc.stage]
  have hne : (m.pc p).stage c ≠ .elsewhere := by rw [hstage]; exact Stage.noConfusion
  have hok := h.pair p c ((h.thread p).about c hne)
  have hread : m.read c = none := hok.unread (Or.inr (Or.inl (by rw [view_stage, hstage])))
  have hone : m.sema (.wait c) = ⟨1, []⟩ := by
    have hsema := hok.wait
    rw [view_wait, view_phase, view_stage, hstage] at hsema
    rw [hsema]
    simp [hupped, View.consumed, hstage, hread]
  have heq : stepThread m p = .ok (m.semaDown p (.wait c) (.waitSleep c) (.waitRead c)) := by
    rw [stepThread, hpc]
    exact if_neg (h.stage_alive hne)
  rw [heq] at hrun
  cases hrun
  refine ⟨_, heq, hinv, ?_⟩
  unfold semaDown
  rw [hone]
  exact ⟨update_self _ _ _, ⟨rfl, rfl, rfl, rfl⟩⟩

theorem Inv.run_waitRead (h : Inv m) (hpc : m.pc p = .waitRead c) :
    ∃ m', stepThread m p = .ok m' ∧ Inv m' ∧ m'.pc p = .waitRemove c (m.exitStatus c) ∧ Quiet m m' := by
  obtain ⟨m', hrun, hinv⟩ := h.waitRead hpc
  have hne : (m.pc p).stage c ≠ .elsewhere := by simp [hpc, Pc.stage]
  have heq := hrun
  rw [stepThread, hpc] at hrun
  simp only [if_neg (h.stage_alive hne), Except.ok.injEq] at hrun
  subst hrun
  exact ⟨_, heq, hinv, update_self _ _ _, ⟨rfl, rfl, rfl, rfl⟩⟩

theorem Inv.run_waitRemove {st : Int} (h : Inv m) (hpc : m.pc p = .waitRemove c st) :
    ∃ m', stepThread m p = .ok m' ∧ Inv m' ∧ m'.pc p = .waitUp c st ∧ Quiet m m' := by
  obtain ⟨m', hrun, hinv⟩ := h.waitRemove hpc
  have hne : (m.pc p).stage c ≠ .elsewhere := by simp [hpc, Pc.stage]
  have heq := hrun
  rw [stepThread, hpc] at hrun
  simp only [h.listAlive (h.stage_alive hne), if_true, Except.ok.injEq] at hrun
  subst hrun
  exact ⟨_, heq, hinv, update_self _ _ _, ⟨rfl, rfl, rfl, rfl⟩⟩

theorem semaUp_quiet (h : m.semaUp s = .ok m') : Quiet m m' := by
  unfold semaUp at h
  split at h
  · cases h
    exact ⟨rfl, rfl, rfl, rfl⟩
  · split at h
    · cases h
    · cases h
      exact ⟨rfl, rfl, rfl, rfl⟩

theorem Inv.run_waitUp {st : Int} (h : Inv m) (hpc : m.pc p = .waitUp c st) :
    ∃ m', stepThread m p = .ok m' ∧ Inv m' ∧ m'.pc p = .user ∧ m'.parent = m.parent ∧
      m'.nextTid = m.nextTid ∧
      m'.results = ⟨p, c, st, m.nextTid⟩ :: m.results := by
  obtain ⟨m', hrun, hinv⟩ := h.waitUp hpc
  have hne : (m.pc p).stage c ≠ .elsewhere := by simp [hpc, Pc.stage]
  have heq := hrun
  rw [stepThread, hpc] at hrun
  simp only [if_neg (h.stage_alive hne)] at hrun
  split at hrun
  · cases hrun
  · next m₁ hup =>
    have hquiet := semaUp_quiet hup
    simp only [Except.ok.injEq] at hrun
    subst hrun
    refine ⟨_, heq, hinv, update_self _ _ _, hquiet.parent, hquiet.nextTid, ?_⟩
    show _ :: m₁.results = _
    rw [show ((m₁.setPc p .user).nextTid) = m.nextTid from hquiet.nextTid, hquiet.results]

/-- `process_wait` for a child that has stopped, by the statements of the parent alone. -/
theorem Inv.run_wait (h : Inv m) (hpc : m.pc p = .user) (hc : c ∈ m.childList p)
    (hupped : (m.pc c).phase.upped) :
    ∃ m', exec step m [.wait p c, .step p, .step p, .step p, .step p] = .ok m' ∧ m'.pc p = .user ∧
      m'.results = ⟨p, c, m.exitStatus c, m.nextTid⟩ :: m.results := by
  have hct : c ≠ p := (h.lt p c (h.children p c hc)).ne'
  have hwait : step m (.wait p c) = .ok (m.setPc p (.waitDown c)) := by
    rw [step, if_pos hpc, getChildProcess_of_mem h hc]
  have h₁ := h.waitStart hpc hc
  obtain ⟨m₂, hrun₂, h₂, hpc₂, hq₂⟩ := h₁.run_waitDown (update_self _ _ _)
    (by rw [setPc_pc, update_of_ne hct]; exact hupped)
  obtain ⟨m₃, hrun₃, h₃, hpc₃, hq₃⟩ := h₂.run_waitRead hpc₂
  obtain ⟨m₄, hrun₄, h₄, hpc₄, hq₄⟩ := h₃.run_waitRemove hpc₃
  obtain ⟨m₅, hrun₅, -, hpc₅, -, -, hres₅⟩ := h₄.run_waitUp hpc₄
  have hq := (hq₂.trans hq₃).trans hq₄
  refine ⟨m₅, ?_, hpc₅, ?_⟩
  · have next : ∀ {m m' : Procs}, stepThread m p = .ok m' → step m (.step p) = .ok m' := id
    rw [exec_cons hwait, exec_cons (next hrun₂), exec_cons (next hrun₃), exec_cons (next hrun₄),
      exec_cons (next hrun₅)]
    rfl
  · rw [hres₅, hq.results, hq.nextTid, hq₂.exitStatus]
    rfl

/-! ## The protocol -/

/-- What a parent that has returned from `process_wait` got. -/
theorem Inv.waits_eq (h : Inv m) (hp : m.parent c = some p) :
    (m.waits p c = [] ∧ (m.pc p = .user → m.read c = none)) ∨
    ∃ n e, m.stopped c = some e ∧ m.read c = some e.leaves ∧
      m.waits p c = List.replicate n (-1) ++ [e.leaves] := by
  have hok := h.pair p c hp
  cases hfreed : (view m p c).freed with
  | false =>
    refine Or.inl ⟨hok.noResult hfreed, fun hpc => ?_⟩
    rw [View.freed, view_stage, hpc] at hfreed
    cases hread : m.read c with
    | none => rfl
    | some st =>
      rw [view_read, hread] at hfreed
      cases hfreed
  | true =>
    right
    have hsome : (m.read c).isSome := by
      rw [View.freed, Bool.and_eq_true] at hfreed
      exact hfreed.1
    obtain ⟨st, hst⟩ := Option.isSome_iff_exists.mp hsome
    obtain ⟨-, e, he, rfl⟩ := (h.thread c).read st hst
    obtain ⟨n, hn⟩ := hok.result _ hst hfreed
    exact ⟨n, e, he, hst, hn⟩

/-- A child that was not waited for is on the list of a parent in user mode. -/
theorem Inv.mem_childList (h : Inv m) (hpc : m.pc p = .user) (hp : m.parent c = some p) :
    c ∈ m.childList p ↔ m.read c = none := by
  have hlisted := (h.pair p c hp).listed
  rw [← view_listed, hlisted, view_stage, hpc, view_read]
  simp [Pc.stage, Stage.isWaitRemove]

/-- **The wait protocol**: in every run the first `process_wait` for a child returns the status the
child passed to `exit`, as soon as the child has stopped; every other call returns `-1` at once; and a
child is released only after its parent has read the status and removed it from the list. -/
theorem wait_protocol (h : Reach step Always boot m) :
    (∀ p c, m.parent c = some p → m.waits p c = [] ∨ ∃ n e st, m.stopped c = some e ∧
      (∀ status, handle e = .exit status → st = status) ∧
      m.waits p c = List.replicate n (-1) ++ [st]) ∧
    (∀ r ∈ m.results, (∀ c : Tid, (c : Int) = r.pid → c < r.nextTid → m.parent c ≠ some r.caller) →
      r.value = -1) ∧
    (∀ p pid, m.pc p = .user →
      (∀ c : Tid, (c : Int) = pid → m.parent c = some p → m.waits p c ≠ []) →
      step m (.wait p pid) = .ok (m.addResult p pid (-1))) ∧
    (∀ p c, m.pc p = .user → m.parent c = some p → m.waits p c = [] →
      step m (.wait p c) = .ok (m.setPc p (.waitDown c)) ∧
      ((m.pc c).phase.upped → ∃ m' e, m.stopped c = some e ∧
        exec step m [.wait p c, .step p, .step p, .step p, .step p] = .ok m' ∧ m'.pc p = .user ∧
        ∃ st, (∀ status, handle e = .exit status → st = status) ∧
          m'.results = ⟨p, c, st, m.nextTid⟩ :: m.results)) ∧
    (∀ p c, m.pc p = .waitSleep c → m.parent c = some p ∧ (m.pc c).phase.upped = false) ∧
    (∀ p c, m.parent c = some p → m.pc c = .dying ∨ m.pc c = .none →
      (∃ st, m.read c = some st) ∧ c ∉ m.childList p) ∧
    ∀ a e, step m a = .error e → e = .disabled ∨ e = .panic := by
  have hinv := inv_of_reach h
  have leaves : ∀ {e : Event} {status : Int}, handle e = .exit status → e.leaves = status := by
    intro e status he
    rw [Event.leaves, he]
  refine ⟨?_, ?_, ?_, ?_, ?_, ?_, ?_⟩
  · intro p c hp
    rcases hinv.waits_eq hp with ⟨hnil, -⟩ | ⟨n, e, he, -, hwaits⟩
    · exact Or.inl hnil
    · exact Or.inr ⟨n, e, e.leaves, he, fun _ hs => leaves hs, hwaits⟩
  · intro r hr hno
    rcases (hinv.results r hr).2 with hval | ⟨c, hc, hlt, hp⟩
    · exact hval
    · exact absurd hp (hno c hc hlt)
  · intro p pid hpc hno
    rcases hinv.step_wait hpc pid with ⟨c, hc, rfl, -⟩ | ⟨-, hstep⟩
    · have hp := hinv.children p c hc
      rcases hinv.waits_eq hp with ⟨hnil, -⟩ | ⟨n, e, -, hread, -⟩
      · exact absurd hnil (hno c rfl hp)
      · rw [(hinv.mem_childList hpc hp).mp hc] at hread
        cases hread
    · exact hstep
  · intro p c hpc hp hnil
    have hread : m.read c = none := by
      rcases hinv.waits_eq hp with ⟨-, hread⟩ | ⟨n, e, -, -, hwaits⟩
      · exact hread hpc
      · rw [hnil] at hwaits
        exact absurd hwaits.symm (by simp)
    have hc := (hinv.mem_childList hpc hp).mpr hread
    refine ⟨by rw [step, if_pos hpc, getChildProcess_of_mem hinv hc], fun hupped => ?_⟩
    obtain ⟨e, he, hleft⟩ := left_of_upped (hinv.thread c).status hupped (hinv.listed_alive hc)
    obtain ⟨m', hexec, hpc', hres⟩ := hinv.run_wait hpc hc hupped
    exact ⟨m', e, he, hexec, hpc', m.exitStatus c, fun _ hs => hleft.trans (leaves hs), hres⟩
  · intro p c hpc
    have hstage : (m.pc p).stage c = .waitSleep := by simp [hpc, Pc.stage]
    have hp := (hinv.thread p).about c (by rw [hstage]; exact Stage.noConfusion)
    exact ⟨hp, (hinv.pair p c hp).waitSleep hstage⟩
  · intro p c hp hgone
    have hok := hinv.pair p c hp
    have hphase : (view m p c).phase = .gone := by
      rw [view_phase]
      rcases hgone with hg | hg <;> rw [hg] <;> rfl
    have hfreed := hok.gone hphase
    rw [View.freed, Bool.and_eq_true] at hfreed
    refine ⟨Option.isSome_iff_exists.mp hfreed.1, fun hc => ?_⟩
    exact hok.listed_alive ((view_listed m p c).mpr hc) hphase
  · intro a e he
    rcases step_inv hinv a with hd | hd | ⟨m', hd, -⟩
    · rw [hd] at he
      cases he
      exact Or.inl rfl
    · rw [hd] at he
      cases he
      exact Or.inr rfl
    · rw [hd] at he
      cases he

/-- The first process forks, its child exits with 7 while it waits, and it waits again. -/
theorem wait_protocol_fork : ∃ m : Procs,
    m.waits INITD 4 = [-1, 7] ∧ m.pc 4 = .none ∧ (∃ st, m.read 4 = some st) ∧
    step m (.wait INITD 4) = .ok (m.addResult INITD 4 (-1)) := by
  have h : Reach step Always boot _ := reach_of_exec
    [.fork INITD true, .step INITD, .step INITD, .step INITD, .doFork 4 true, .step 4, .step INITD,
      .wait INITD 4, .step INITD, .event 4 (.exit 7), .step 4, .step 4, .step 4, .step INITD,
      .step INITD, .step INITD, .step INITD, .wait INITD 4, .step 4, .step 4] rfl
  obtain ⟨-, -, hagain, -, -, hgone, -⟩ := wait_protocol h
  refine ⟨_, rfl, rfl, (hgone INITD 4 rfl (Or.inr rfl)).1, hagain INITD 4 rfl fun c hc _ => ?_⟩
  have hc4 : c = 4 := by exact_mod_cast hc
  subst hc4
  exact List.cons_ne_nil _ _

end Pintos.Process
