import Pintos.Properties.ReadyList
import Pintos.Threads.Feedback

/-!
# The order of the ready list with `thread_mlfqs`

`ready_list` is ordered where a thread is inserted, and every fourth tick calculates the priorities
of the threads in it anew.

* `KeepsOrder` — the new priorities are in the order of the list
* `mlfqs_picks_highest` — under that condition `schedule` takes a thread of the highest priority
* `mlfqs_picks_lower` — without it, one of a lower priority
-/

namespace Pintos

open Function Machine

namespace Interleave

/-- `pc` is in a function that `thread_mlfqs` does not leave out. -/
def Pc.withMlfqs : Pc → Bool
  | .user | .acqDown _ | .downWait _ _ | .acqSet _ | .trySet _ | .relAssert _ | .relHolder _ | .relUp _ =>
    true
  | _ => false

/-- With `thread_mlfqs`, no thread donates a priority or takes one back. -/
structure Undonated (m : Sys) : Prop where
  mlfqs : m.mlfqs = true
  pc : ∀ t, (m.pc t).withMlfqs = true

/-- What steps keep. -/
structure NoDonation (m m' : Sys) : Prop where
  mlfqs : m'.mlfqs = m.mlfqs
  priority : m'.priority = m.priority
  pc : Undonated m → ∀ t, (m'.pc t).withMlfqs = true

variable {m m' : Sys}

theorem Undonated.kept (h : Undonated m) (hq : NoDonation m m') : Undonated m' :=
  ⟨hq.mlfqs.trans h.mlfqs, hq.pc h⟩

theorem NoDonation.same (hm : m'.mlfqs = m.mlfqs) (hp : m'.priority = m.priority) (hpc : m'.pc = m.pc) :
    NoDonation m m' :=
  ⟨hm, hp, fun h t => by rw [hpc]; exact h.pc t⟩

theorem NoDonation.move {t : Tid} {p : Pc} (hm : m'.mlfqs = m.mlfqs) (hp : m'.priority = m.priority)
    (hpc : m'.pc = update m.pc t p) (h : m.mlfqs = true → p.withMlfqs = true) : NoDonation m m' := by
  refine ⟨hm, hp, fun hu u => ?_⟩
  rw [hpc]
  by_cases hut : u = t
  · rw [hut, update_self]
    exact h hu.mlfqs
  · rw [update_of_ne hut]
    exact hu.pc u

theorem withMlfqs_afterDown (m : Sys) (l : Option LockId) (h : m.mlfqs = true) :
    (m.afterDown l).withMlfqs = true := by
  cases l with
  | none => rfl
  | some l =>
    unfold Sys.afterDown
    simp only [h, if_true]
    rfl

theorem NoDonation.semaDown (m : Sys) (t : Tid) (s : SemaId) (l : Option LockId) :
    NoDonation m (m.semaDown t s l) := by
  unfold Sys.semaDown
  split
  · exact NoDonation.move rfl rfl rfl fun _ => rfl
  · exact NoDonation.move rfl rfl rfl (withMlfqs_afterDown m l)

theorem NoDonation.semaTryDown (m : Sys) (s : SemaId) : NoDonation m (m.semaTryDown s).1 := by
  unfold Sys.semaTryDown
  split <;> exact NoDonation.same rfl rfl rfl

theorem NoDonation.semaUp {s : SemaId} (h : m.semaUp s = .ok m') : NoDonation m m' := by
  unfold Sys.semaUp at h
  split at h
  · cases h
    exact NoDonation.same rfl rfl rfl
  · split at h
    · cases h
      exact NoDonation.same rfl rfl rfl
    · cases h

theorem Undonated.stmt {t : Tid} (h : Undonated m) (hs : Stmt m t m') : NoDonation m m' := by
  have hno : ∀ {p}, m.pc t = p → p.withMlfqs = true := fun hp => hp ▸ h.pc t
  cases hs with
  | acqDown => exact NoDonation.semaDown m t _ _
  | downWait => exact NoDonation.semaDown m t _ _
  | setHolder => exact NoDonation.move rfl rfl rfl fun _ => rfl
  | relAssert =>
    refine NoDonation.move rfl rfl rfl fun hm => ?_
    simp only [hm, if_true]
    rfl
  | relHolder => exact NoDonation.move rfl rfl rfl fun _ => rfl
  | relUp _ hu =>
    have hmove : NoDonation m (m.setPc t .user) := NoDonation.move rfl rfl rfl fun _ => rfl
    have hup := NoDonation.semaUp hu
    exact ⟨hup.mlfqs.trans hmove.mlfqs, hup.priority.trans hmove.priority, fun hu => hup.pc (hu.kept hmove)⟩
  | acqTest hp => cases hno hp
  | acqWait hp => cases hno hp
  | acqHolder hp _ => cases hno hp
  | acqInsert hp => cases hno hp
  | donTest hp => cases hno hp
  | donRead hp _ => cases hno hp
  | donWrite hp => cases hno hp
  | acqClear hp => cases hno hp
  | relRemove hp => cases hno hp
  | relPriority hp => cases hno hp
  | setPriority hp => cases hno hp

theorem Undonated.step {a : Action} (h : Undonated m) (hs : Interleave.step m a = .ok m') :
    NoDonation m m' := by
  rcases step_cases hs with ⟨t, -, -, hstmt⟩ | hcall
  · exact h.stmt hstmt
  · cases hcall with
    | lockAcquire =>
      refine NoDonation.move rfl rfl rfl fun hm => ?_
      simp only [hm, if_true]
      rfl
    | @lockTryAcquire t l _ _ _ =>
      have htry := NoDonation.semaTryDown m (.lock l)
      have hmove : NoDonation (m.semaTryDown (.lock l)).1 ((m.semaTryDown (.lock l)).1.setPc t
          (if (m.semaTryDown (.lock l)).2 then .trySet l else .user)) := by
        refine NoDonation.move rfl rfl rfl fun _ => ?_
        split <;> rfl
      exact ⟨hmove.mlfqs.trans htry.mlfqs, hmove.priority.trans htry.priority,
        fun hu => hmove.pc (hu.kept htry)⟩
    | lockRelease => exact NoDonation.move rfl rfl rfl fun _ => rfl
    | semaDown => exact NoDonation.semaDown m _ _ _
    | semaTryDown => exact NoDonation.semaTryDown m _
    | semaUp hu => exact NoDonation.semaUp hu
    | setPriorityMlfqs => exact NoDonation.same rfl rfl rfl
    | setPriority _ _ hm =>
      rw [h.mlfqs] at hm
      cases hm
    | @tear t _ _ _ hpc =>
      have hq := h.pc t
      cases ht : m.pc t <;> rw [ht] at hpc hq <;> cases hpc <;> cases hq

end Interleave

namespace Kernel

/-- The scheduler with `thread_mlfqs`, and its list in order. -/
structure Queue (k : Kernel) : Prop where
  undonated : Interleave.Undonated k.toSys
  ordered : k.Ordered

/-- What a step keeps of it, and that a thread it picks is topmost. -/
structure Picks (k k' : Kernel) : Prop where
  queue : k'.Queue
  topmost : k'.current = k.current ∨ k'.Topmost

variable {k k' : Kernel}

theorem Queue.requeued (h : k.Queue) (hq : Requeued k k') : Picks k k' where
  queue := by
    refine ⟨⟨hq.mlfqs.trans h.undonated.mlfqs, ?_⟩, hq.ordered h.ordered⟩
    rw [hq.pc]
    exact h.undonated.pc
  topmost := hq.topmost h.ordered

/-- A step inside `synch.c`. -/
theorem Queue.kept (h : k.Queue) (hq : Interleave.NoDonation k.toSys k'.toSys)
    (hr : k'.readyList = k.readyList) : k'.Queue := by
  refine ⟨h.undonated.kept hq, ?_⟩
  unfold Ordered
  rw [hr, hq.priority]
  exact h.ordered

/-- Other fields change first. -/
theorem Queue.after {k₁ : Kernel} (h : k.Queue) (hq : Interleave.NoDonation k.toSys k₁.toSys)
    (hr : k₁.readyList = k.readyList) (hc : k₁.current = k.current)
    (hk : k₁.Queue → Picks k₁ k') : Picks k k' := by
  have h' := hk (h.kept hq hr)
  refine ⟨h'.queue, ?_⟩
  rw [← hc]
  exact h'.topmost

theorem Queue.lift {j : Kernel} {a : Interleave.Action} (h : k.Queue) (hr : j.readyList = k.readyList)
    (hc : j.current = k.current) (hk : j.lift (Interleave.step k.toSys a) = .ok k') : Picks k k' := by
  cases hs : Interleave.step k.toSys a with
  | error f =>
    rw [hs] at hk
    cases hk
  | ok m =>
    rw [hs] at hk
    cases hk
    exact ⟨h.kept (h.undonated.step hs) hr, Or.inl hc⟩

theorem Queue.semaDown {s : SemaId} {l : Option LockId} (h : k.Queue) (hk : k.semaDown s l = .ok k') :
    Picks k k' := by
  unfold Kernel.semaDown at hk
  split at hk
  · have hq : Interleave.NoDonation k.toSys (k.joinWaiters s l).toSys :=
      .move (p := .downWait s l) rfl rfl rfl fun _ => rfl
    exact h.after hq rfl rfl fun h' => h'.requeued (Requeued.threadBlock hk)
  · cases hk
    exact ⟨h.kept (Interleave.NoDonation.semaDown k.toSys k.current s l) rfl, Or.inl rfl⟩

theorem Queue.stmt (h : k.Queue) (hk : k.stmt = .ok k') : Picks k k' := by
  unfold Kernel.stmt at hk
  split at hk
  · exact h.semaDown hk
  · exact h.semaDown hk
  · have hq : Interleave.NoDonation k.toSys { k.toSys with pc := update k.pc k.current .user } :=
      .move (p := .user) rfl rfl rfl fun _ => rfl
    have hqueue : Queue { k with pc := update k.pc k.current .user } := h.kept hq rfl
    have hp := hqueue.requeued (Requeued.semaUp hk)
    exact ⟨hp.queue, hp.topmost⟩
  · exact h.lift (a := .step k.current) (j := { k with doing := update k.doing k.current .comparing })
      rfl rfl hk
  · exact h.lift (a := .step k.current) (j := k) rfl rfl hk

/-- A priority is written of a thread that is not in the list. -/
theorem Queue.write {t : Tid} {p : Int} (h : k.Queue) (hu : Interleave.Undonated k'.toSys)
    (hr : k'.readyList = k.readyList) (hp : k'.priority = update k.priority t p)
    (ht : t ∉ k.readyList) : k'.Queue := by
  refine ⟨hu, ?_⟩
  unfold Ordered
  rw [hr, hp]
  exact pairwise_update_of_notMem p h.ordered ht

theorem Queue.initThread {t : Tid} {priority : Int} (h : k.Queue) (hs : Sched k (some k.current))
    (ht : k.allocated t = false) (hk : k.initThread t priority = .ok k') : Picks k k' := by
  unfold Kernel.initThread at hk
  split at hk
  · cases hk
    have hready : t ∉ k.readyList := by
      -- a page that is not in use is in no list
      intro hmem
      have hst : k.status t = .ready := hs.status .ready t hmem
      have hused := hs.alive t (by rw [hst]; exact fun hc => nomatch hc)
      rw [ht] at hused
      cases hused
    have hu : Interleave.Undonated (k.setThread t priority).toSys := by
      refine ⟨h.undonated.mlfqs, fun u => ?_⟩
      show (update k.pc t .user u).withMlfqs = true
      by_cases hut : u = t
      · rw [hut, update_self]
        rfl
      · rw [update_of_ne hut]
        exact h.undonated.pc u
    exact ⟨h.write hu rfl rfl hready, Or.inl rfl⟩
  · cases hk

/-- **Every step but a timer interrupt.** -/
theorem Queue.step {a : KernelAction} (h : k.Queue) (hs : Sched k (some k.current))
    (ha : a.isTimer = false) (hk : k.step a = .ok k') : Picks k k' := by
  cases a with
  | timerInterrupt r => cases ha
  | tear don p => exact h.lift (a := .tear k.current don p) (j := k) rfl rfl hk
  | intrTryDown n => exact h.lift (a := .intrTryDown n) (j := k) rfl rfl hk
  | intrUp n => exact h.requeued (Requeued.semaUp hk)
  | threadCreate t priority =>
    simp only [Kernel.step] at hk
    split at hk
    · next hcan => exact h.initThread hs hcan.2.2 hk
    · cases hk
  | threadUnblock =>
    simp only [Kernel.step] at hk
    split at hk
    · split at hk
      · exact h.requeued ((Requeued.threadUnblock hk).1.after rfl rfl rfl rfl rfl)
      · cases hk
    · cases hk
  | stmt =>
    simp only [Kernel.step] at hk
    split at hk
    · cases hk
    · exact h.stmt hk
  | lockAcquire l =>
    simp only [Kernel.step] at hk
    split at hk
    · exact h.lift (a := .lockAcquire k.current l) (j := k) rfl rfl hk
    · cases hk
  | lockTryAcquire l =>
    simp only [Kernel.step] at hk
    split at hk
    · exact h.lift (a := .lockTryAcquire k.current l) (j := k) rfl rfl hk
    · cases hk
  | lockRelease l =>
    simp only [Kernel.step] at hk
    split at hk
    · exact h.lift (a := .lockRelease k.current l) (j := k) rfl rfl hk
    · cases hk
  | semaDown n =>
    simp only [Kernel.step] at hk
    split at hk
    · exact h.semaDown hk
    · cases hk
  | semaTryDown n =>
    simp only [Kernel.step] at hk
    split at hk
    · exact h.lift (a := .semaTryDown k.current n) (j := k) rfl rfl hk
    · cases hk
  | semaUp n =>
    simp only [Kernel.step] at hk
    split at hk
    · exact h.requeued (Requeued.semaUp hk)
    · cases hk
  | setPriority p =>
    simp only [Kernel.step] at hk
    split at hk
    · exact h.lift (a := .setPriority k.current p) (j := k) rfl rfl hk
    · cases hk
  | threadCreateFail =>
    simp only [Kernel.step] at hk
    split at hk
    · cases hk
      exact h.requeued (Requeued.same rfl rfl rfl rfl rfl)
    · cases hk
  | comparePriority =>
    simp only [Kernel.step] at hk
    split at hk
    · exact h.requeued ((Requeued.threadComparePriority hk).after rfl rfl rfl rfl rfl)
    · cases hk
  | threadYield =>
    simp only [Kernel.step] at hk
    split at hk
    · exact h.requeued (Requeued.threadYield hk)
    · cases hk
  | threadSleep ticks =>
    simp only [Kernel.step] at hk
    split at hk
    · exact h.requeued (Requeued.threadSleep hk)
    · cases hk
  | threadExit =>
    simp only [Kernel.step] at hk
    split at hk
    · exact h.requeued ((Requeued.doSchedule hk).after rfl rfl rfl rfl rfl)
    · cases hk
  | idleStart =>
    simp only [Kernel.step] at hk
    split at hk
    · cases hk
      exact h.requeued (Requeued.same rfl rfl rfl rfl rfl)
    · cases hk
  | idleBlock =>
    simp only [Kernel.step] at hk
    split at hk
    · exact h.requeued (Requeued.threadBlock hk)
    · cases hk

/-- **A timer interrupt** whose new priorities are in the order of the list. -/
theorem Queue.timerInterrupt {r : Tid → Int} (h : k.Queue)
    (hr : k.readyList.Pairwise fun t u => r u ≤ r t) (hk : k.step (.timerInterrupt r) = .ok k') :
    Picks k k' ∧ (TIME_SLICE ≤ k.threadTicks + 1 → k'.Topmost) := by
  have h₀ : Queue { k with
      ticks := k.ticks + 1
      threadTicks := k.threadTicks + 1
      priority := if k.mlfqs then r else k.priority } := by
    refine ⟨⟨h.undonated.mlfqs, h.undonated.pc⟩, ?_⟩
    show k.readyList.Pairwise fun t u => (if k.mlfqs then r else k.priority) u ≤
      (if k.mlfqs then r else k.priority) t
    rw [if_pos h.undonated.mlfqs]
    exact hr
  simp only [Kernel.step] at hk
  split at hk
  · next k₁ h₁ =>
    obtain ⟨hq₁, hc₁⟩ := Requeued.threadAwakeFrom h₁
    have hp₁ := h₀.requeued hq₁
    split at hk
    · have hp := hp₁.queue.requeued (Requeued.threadYield hk)
      have htop := threadYield_topmost hp₁.queue.ordered hk
      exact ⟨⟨hp.queue, Or.inr htop⟩, fun _ => htop⟩
    · next hslice =>
      cases hk
      exact ⟨⟨hp₁.queue, hp₁.topmost⟩, fun hc => absurd hc hslice⟩
  · cases hk

end Kernel

namespace Feedback

open Kernel (Sched)

/-- The priority that `recalculate_priority` leaves to a thread. -/
def recalculated (s : Feedback) (t : Tid) : Except FixedPoint.Fault Int :=
  if t ∈ s.allList ∧ s.idleThread ≠ some t then
    Mlfqs.calculatedPriority (s.recentCpu t) (s.nice t)
  else .ok (s.priority t)

/-- At every fourth tick, the priorities that the ready threads get from their `recent_cpu` and `nice`
are in the order of the list. -/
def KeepsOrder (s : Feedback) : FeedbackAction → Prop
  | .timerInterrupt =>
    (s.ticks + 1).toNat % 4 = 0 → s.readyList.Pairwise fun t u =>
      ∀ p q, s.recalculated t = .ok p → s.recalculated u = .ok q → q ≤ p
  | _ => True

/-- `schedule` is called in the step from `s` to `s'`: by a yield, at the end of a time slice, or
wherever another thread runs afterwards. -/
def Schedules (s : Feedback) (a : FeedbackAction) (s' : Feedback) : Prop :=
  a = .kernel .threadYield ∨ (a = .timerInterrupt ∧ TIME_SLICE ≤ s.threadTicks + 1) ∨
    s'.current ≠ s.current

structure FeedbackInv (s : Feedback) : Prop where
  queue : s.toKernel.Queue
  sched : Sched s.toKernel (some s.current)

variable {s s' : Feedback} {a : FeedbackAction}

theorem FeedbackInv.running_notMem (h : FeedbackInv s) : s.current ∉ s.readyList :=
  h.sched.loose_of_running .ready

theorem sched_step {a : KernelAction} {k : Kernel} (h : FeedbackInv s) (hk : s.toKernel.step a = .ok k) :
    Sched k (some k.current) := by
  have hgood := h.sched.good_step a
  rw [hk] at hgood
  exact hgood.sched

/-- The priorities of the ready threads after the calculations of a timer interrupt. -/
theorem FeedbackInv.calculated_pairwise {n : Nat} {m : Mlfqs} (h : FeedbackInv s)
    (hm : s.toMlfqs.timerInterrupt n s.current s.readyList.length = .ok m)
    (hc : n % 4 = 0 → s.readyList.Pairwise fun t u =>
      ∀ p q, s.recalculated t = .ok p → s.recalculated u = .ok q → q ≤ p) :
    s.readyList.Pairwise fun t u => m.priority u ≤ m.priority t := by
  obtain ⟨hsame, hfourth⟩ := Mlfqs.timerInterrupt_priority hm
  by_cases h4 : n % 4 = 0
  · have hval : ∀ t ∈ s.readyList, s.recalculated t = .ok (m.priority t) := by
      intro t ht
      have htc : t ≠ s.current := by
        rintro rfl
        exact h.running_notMem ht
      obtain ⟨hcalc, hrest⟩ := hfourth h4 t htc
      unfold recalculated
      split
      · next hin => exact hcalc hin.1 hin.2
      · next hout =>
        have hout' : t ∉ s.allList ∨ s.idleThread = some t := by
          rcases not_and_or.mp hout with hn | hi
          · exact Or.inl hn
          · exact Or.inr (not_not.mp hi)
        exact congrArg Except.ok (hrest hout').symm
    refine (hc h4).imp_of_mem fun ht hu hle => ?_
    exact hle _ _ (hval _ ht) (hval _ hu)
  · rw [hsame h4]
    exact h.queue.ordered

/-- **One step** keeps the invariant, and a thread that it picks is topmost. -/
theorem FeedbackInv.step (h : FeedbackInv s) (hc : s.KeepsOrder a) (hs : s.step a = .ok s') :
    FeedbackInv s' ∧ (s.Schedules a s' → s'.toKernel.Topmost) := by
  cases a with
  | timerInterrupt =>
    dsimp only [Feedback.step] at hs
    split at hs
    · cases hs
    next m hm =>
    split at hs
    · cases hs
    next k hk =>
    cases hs
    obtain ⟨hp, htop⟩ := h.queue.timerInterrupt (h.calculated_pairwise hm hc) hk
    refine ⟨⟨hp.queue, sched_step h hk⟩, ?_⟩
    rintro (hy | ⟨-, hslice⟩ | hne)
    · cases hy
    · exact htop hslice
    · exact hp.topmost.resolve_left hne
  | setNice nice =>
    dsimp only [Feedback.step] at hs
    split at hs
    case isFalse => cases hs
    split at hs
    · cases hs
    next m hm =>
    cases hs
    have hsched : Sched { s.toKernel with
        priority := m.priority, doing := update s.doing s.current .comparing } (some s.current) := by
      have hd := h.sched.setDoing s.current (d := .comparing) (fun t hc => nomatch hc)
      exact hd.agree ⟨rfl, rfl, rfl, rfl, rfl, rfl, rfl, rfl, rfl⟩
    refine ⟨⟨?_, hsched⟩, ?_⟩
    · rcases Mlfqs.calculatePriority_cases hm with ⟨-, rfl⟩ | ⟨p, -, -, rfl⟩
      · exact ⟨⟨h.queue.undonated.mlfqs, h.queue.undonated.pc⟩, h.queue.ordered⟩
      · exact h.queue.write (t := s.current) (p := p) ⟨h.queue.undonated.mlfqs, h.queue.undonated.pc⟩
          rfl rfl h.running_notMem
    · rintro (hy | ⟨hy, -⟩ | hne)
      · cases hy
      · cases hy
      · exact absurd rfl hne
  | kernel a =>
    dsimp only [Feedback.step] at hs
    split at hs
    · cases hs
    next ha =>
    split at hs
    · cases hs
    next k hk =>
    cases hs
    have hp := h.queue.step h.sched (Bool.not_eq_true _ ▸ ha) hk
    refine ⟨⟨?_, ?_⟩, ?_⟩
    · rw [register_toKernel]
      exact hp.queue
    · rw [register_toKernel]
      exact sched_step h hk
    · rw [Schedules, register_toKernel]
      rintro (hy | ⟨hy, -⟩ | hne)
      · cases hy
        simp only [Kernel.step] at hk
        split at hk
        · exact Kernel.threadYield_topmost h.queue.ordered hk
        · cases hk
      · cases hy
      · exact hp.topmost.resolve_left hne

theorem FeedbackInv.boot (value : Nat → BitVec 32) {main idle : Tid} (hne : main ≠ idle) :
    FeedbackInv (Feedback.boot value main idle) where
  queue := ⟨⟨rfl, fun _ => rfl⟩, List.pairwise_singleton _ idle⟩
  sched := Sched.boot true value hne

/--
**The scheduler runs a thread of the highest priority**, in every run in which each fourth tick leaves
the list in order: what `schedule` picks has at least the priority of every thread that stays ready.
-/
theorem mlfqs_picks_highest {value : Nat → BitVec 32} {main idle : Tid} (hne : main ≠ idle)
    (h : Reach step KeepsOrder (boot value main idle) s) :
    s.Ordered ∧ ∀ a s', s.KeepsOrder a → s.step a = .ok s' → s.Schedules a s' →
      ∀ t ∈ s'.readyList, s'.priority t ≤ s'.priority s'.current := by
  have hi : FeedbackInv s :=
    h.invariant (FeedbackInv.boot value hne) fun _ _ _ hi hc hs => (hi.step hc hs).1
  exact ⟨hi.queue.ordered, fun a s' hc hs hp => (hi.step hc hs).2 hp⟩

/-- Thread 3 has run for three ticks since `thread_create`, with the priority 40. -/
def threeTicks : List FeedbackAction :=
  [.kernel (.threadCreate 3 40), .kernel .threadUnblock, .kernel .comparePriority, .timerInterrupt,
    .timerInterrupt, .timerInterrupt]

/-- No fourth tick. -/
def betweenFourths (s : Feedback) : FeedbackAction → Bool
  | .timerInterrupt => (s.ticks + 1).toNat % 4 ≠ 0
  | _ => true

theorem keepsOrder_of_between (s : Feedback) (a : FeedbackAction) (h : betweenFourths s a = true) :
    s.KeepsOrder a := by
  cases a with
  | timerInterrupt => exact fun h4 => absurd h4 (of_decide_eq_true h)
  | _ => trivial

/-- At the fourth tick threads 1 and 2 get the priority 63, and thread 3 gets 62 and yields. -/
theorem mlfqs_picks_highest_of_yield : ∃ s s' : Feedback,
    Reach step KeepsOrder (boot (fun _ => 0) 1 2) s ∧ s.step .timerInterrupt = .ok s' ∧
    s'.current = 1 ∧ s'.readyList = [2, 3] ∧ s'.priority 1 = 63 ∧ s'.priority 3 = 62 ∧
    ∀ t ∈ s'.readyList, s'.priority t ≤ s'.priority s'.current := by
  have h : Reach step KeepsOrder (boot (fun _ => 0) 1 2) _ :=
    reach_of_execIf keepsOrder_of_between threeTicks rfl
  obtain ⟨-, hpick⟩ := mlfqs_picks_highest (by decide) h
  refine ⟨_, _, h, rfl, rfl, rfl, rfl, rfl,
    hpick .timerInterrupt _ ?_ rfl (Or.inr (Or.inl ⟨rfl, by decide⟩))⟩
  intro _
  refine List.pairwise_pair.mpr fun p q hp hq => ?_
  have hp' : Except.ok 63 = Except.ok p := hp
  have hq' : Except.ok 63 = Except.ok q := hq
  rw [← Except.ok.inj hp', ← Except.ok.inj hq']

/--
Thread 3 is ready when the fourth tick takes its priority down to 62, and stays in front of thread 1 with
the priority 63. When thread 5 blocks, thread 3 runs.
-/
theorem mlfqs_picks_lower : ∃ s s' : Feedback, Reach step Always (boot (fun _ => 0) 1 2) s ∧
    s.step (.kernel (.semaDown 0)) = .ok s' ∧ s.Schedules (.kernel (.semaDown 0)) s' ∧
    1 ∈ s'.readyList ∧ s'.current = 3 ∧ s'.priority 3 = 62 ∧ s'.priority 1 = 63 := by
  have h : Reach step Always (boot (fun _ => 0) 1 2) _ :=
    reach_of_exec (threeTicks ++ [.kernel (.threadCreate 5 50), .kernel .threadUnblock,
      .kernel .comparePriority, .timerInterrupt]) rfl
  exact ⟨_, _, h, rfl, Or.inr (Or.inr (by decide)), by decide, rfl, rfl, rfl⟩

end Feedback

end Pintos
