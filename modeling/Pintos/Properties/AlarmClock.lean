import Pintos.Devices.Timer
import Pintos.Properties.Scheduler

/-!
# The alarm clock

* `SameSleep`, `sameSleep_step` — only `thread_sleep` and the timer touch `sleep_list`
* `threadAwake_spec` — what `thread_awake` does to it
* `AlarmInv` — a thread on the list is not overdue
* `alarm_clock` — each sleeper is unblocked once, at the first tick that is late enough
-/

namespace Pintos

open Function Machine

namespace Kernel

/-! ## What leaves the sleepers alone -/

/-- The list, the clock and the deadlines of those on the list are the same. -/
structure SameSleep (k k' : Kernel) : Prop where
  sleepList : k'.sleepList = k.sleepList
  ticks : k'.ticks = k.ticks
  awake : ∀ t ∈ k.sleepList, k'.awake t = k.awake t

variable {k k' k'' : Kernel} {t : Tid}

theorem SameSleep.refl (k : Kernel) : SameSleep k k := ⟨rfl, rfl, fun _ _ => rfl⟩

theorem SameSleep.of_eq (hl : k'.sleepList = k.sleepList) (ht : k'.ticks = k.ticks)
    (ha : k'.awake = k.awake) : SameSleep k k' := ⟨hl, ht, fun t _ => congrFun ha t⟩

theorem SameSleep.trans (h : SameSleep k k') (h' : SameSleep k' k'') : SameSleep k k'' where
  sleepList := h'.sleepList.trans h.sleepList
  ticks := h'.ticks.trans h.ticks
  awake t ht := (h'.awake t (by rw [h.sleepList]; exact ht)).trans (h.awake t ht)

/-- A change of other fields comes first. -/
theorem SameSleep.after {k₀ : Kernel} (h : SameSleep k₀ k') (hl : k₀.sleepList = k.sleepList)
    (ht : k₀.ticks = k.ticks) (ha : k₀.awake = k.awake) : SameSleep k k' :=
  (SameSleep.of_eq hl ht ha).trans h

/-- Nobody is blocked who was not. -/
def NoneBlocked (k k' : Kernel) : Prop := ∀ t, k'.status t = .blocked → k.status t = .blocked

theorem schedule_sleep (h : k.schedule = .ok k') :
    k'.sleepList = k.sleepList ∧ k'.ticks = k.ticks ∧ k'.awake = k.awake ∧ NoneBlocked k k' := by
  have hstatus : ∀ next : Tid, ∀ t, update k.status next .running t = ThreadStatus.blocked →
      k.status t = .blocked := by
    intro next t ht
    by_cases hn : t = next
    · rw [hn, update_self] at ht
      cases ht
    · rwa [update_of_ne hn] at ht
  unfold schedule at h
  dsimp only at h
  split at h
  · cases h
  next next ready hnext =>
  split at h
  · cases h
  split at h
  · cases h
    exact ⟨rfl, rfl, rfl, hstatus next⟩
  · split at h
    · cases h
      exact ⟨rfl, rfl, rfl, hstatus next⟩
    · cases h
      exact ⟨rfl, rfl, rfl, hstatus next⟩

theorem SameSleep.schedule (h : k.schedule = .ok k') : SameSleep k k' := by
  obtain ⟨hl, ht, ha, -⟩ := schedule_sleep h
  exact .of_eq hl ht ha

theorem SameSleep.threadBlock (h : k.threadBlock = .ok k') : SameSleep k k' := by
  unfold Kernel.threadBlock at h
  split at h
  · exact (SameSleep.schedule h).after rfl rfl rfl
  · cases h

theorem SameSleep.threadUnblock (h : k.threadUnblock t = .ok k') : SameSleep k k' := by
  unfold Kernel.threadUnblock at h
  split at h
  · cases h
    exact .of_eq rfl rfl rfl
  · cases h

theorem doSchedule_sleep {status : ThreadStatus} (h : k.doSchedule status = .ok k') :
    SameSleep k k' ∧ (status ≠ .blocked → NoneBlocked k k') := by
  unfold doSchedule at h
  split at h
  · split at h
    · next allocated frees hf =>
      obtain ⟨hl, ht, ha, hn⟩ := schedule_sleep h
      refine ⟨.of_eq hl ht ha, fun hst t hb => ?_⟩
      have hb' := hn t hb
      by_cases hc : t = k.current
      · rw [hc] at hb'
        rw [setStatus_status] at hb'
        have hs : status = .blocked := by simpa [setPages] using hb'
        exact absurd hs hst
      · simpa [setPages, hc] using hb'
    · cases h
  · cases h

theorem threadYield_sleep (h : k.threadYield = .ok k') : SameSleep k k' ∧ NoneBlocked k k' := by
  unfold threadYield at h
  split at h
  · obtain ⟨hs, hn⟩ := doSchedule_sleep h
    exact ⟨hs.after rfl rfl rfl, hn (by decide)⟩
  · obtain ⟨hs, hn⟩ := doSchedule_sleep h
    exact ⟨hs, hn (by decide)⟩

theorem SameSleep.threadComparePriority (h : k.threadComparePriority = .ok k') : SameSleep k k' := by
  unfold Kernel.threadComparePriority at h
  split at h
  · cases h
    exact .refl _
  · split at h
    · exact (threadYield_sleep h).1
    · cases h
      exact .refl _

theorem SameSleep.semaDown {s : SemaId} {l : Option LockId} (h : k.semaDown s l = .ok k') :
    SameSleep k k' := by
  unfold Kernel.semaDown at h
  split at h
  · exact (SameSleep.threadBlock h).after rfl rfl rfl
  · cases h
    exact .of_eq rfl rfl rfl

theorem SameSleep.semaUp {s : SemaId} {intrContext : Bool} (h : k.semaUp s intrContext = .ok k') :
    SameSleep k k' := by
  unfold Kernel.semaUp at h
  dsimp only at h
  split at h
  · cases h
  next k₁ hup =>
  have h₁ : SameSleep k k₁ := by
    split at hup
    · cases hup
      exact .refl _
    · exact (SameSleep.threadUnblock hup).after rfl rfl rfl
  have h₂ : SameSleep k₁ (k₁.raise s) := .of_eq rfl rfl rfl
  split at h
  · cases h
    exact h₁.trans h₂
  · exact (h₁.trans h₂).trans (.threadComparePriority h)

theorem SameSleep.lift {r : Except Interleave.Fault Interleave.Sys} (h : k.lift r = .ok k') :
    SameSleep k k' := by
  cases r with
  | error f => cases h
  | ok m =>
    cases h
    exact .of_eq rfl rfl rfl

theorem SameSleep.stmt (h : k.stmt = .ok k') : SameSleep k k' := by
  unfold Kernel.stmt at h
  split at h
  · exact .semaDown h
  · exact .semaDown h
  · exact (SameSleep.semaUp h).after rfl rfl rfl
  · exact (SameSleep.lift h).after rfl rfl rfl
  · exact .lift h

/-- A page that `thread_create` gets is not that of a thread on the list. -/
theorem SameSleep.initThread {priority : Int} (hs : Sched k (some k.current))
    (hfree : k.allocated t = false) (h : k.initThread t priority = .ok k') : SameSleep k k' := by
  unfold Kernel.initThread at h
  split at h
  · cases h
    refine ⟨rfl, rfl, fun u hu => update_of_ne ?_ _ _⟩
    rintro rfl
    have hblocked : k.status u = .blocked := hs.status .sleep u hu
    have halive := hs.alive u (by rw [hblocked]; decide)
    rw [hfree] at halive
    cases halive
  · cases h

/-- **Only `thread_sleep` and the timer** touch the list and the clock. -/
theorem sameSleep_step {a : KernelAction} (hs : Sched k (some k.current)) (hsleep : a.isSleep = false)
    (htimer : ∀ r, a ≠ .timerInterrupt r) (h : k.step a = .ok k') : SameSleep k k' := by
  cases a <;> dsimp only [step] at h
  case stmt =>
    split at h
    · cases h
    · exact .stmt h
  case lockAcquire | lockTryAcquire | lockRelease | semaTryDown | setPriority =>
    split at h
    · exact .lift h
    · cases h
  case semaDown =>
    split at h
    · exact .semaDown h
    · cases h
  case semaUp =>
    split at h
    · exact .semaUp h
    · cases h
  case tear => exact .lift h
  case threadCreate =>
    split at h
    · next hc => exact .initThread hs hc.2.2 h
    · cases h
  case threadUnblock =>
    split at h
    · split at h
      · exact (SameSleep.threadUnblock h).after rfl rfl rfl
      · cases h
    · cases h
  case threadCreateFail =>
    split at h
    · cases h
      exact .of_eq rfl rfl rfl
    · cases h
  case comparePriority =>
    split at h
    · exact (SameSleep.threadComparePriority h).after rfl rfl rfl
    · cases h
  case threadYield =>
    split at h
    · exact (threadYield_sleep h).1
    · cases h
  case threadSleep => cases hsleep
  case threadExit =>
    split at h
    · exact (doSchedule_sleep h).1.after rfl rfl rfl
    · cases h
  case idleStart =>
    split at h
    · cases h
      exact .of_eq rfl rfl rfl
    · cases h
  case idleBlock =>
    split at h
    · exact .threadBlock h
    · cases h
  case timerInterrupt r => exact absurd rfl (htimer r)
  case intrUp => exact .semaUp h
  case intrTryDown => exact .lift h

/-! ## The timer -/

theorem threadAwakeFrom_spec {ticks : Int} : ∀ {l : List Tid} {k k' : Kernel},
    k.sleepList.Nodup → l.Nodup → (∀ t ∈ l, t ∈ k.sleepList) → k.threadAwakeFrom ticks l = .ok k' →
    k'.sleepList = k.sleepList.filter (fun t => ¬ (t ∈ l ∧ k.awake t ≤ ticks)) ∧
    k'.awake = k.awake ∧ k'.ticks = k.ticks ∧
    ∀ t, k'.status t = if t ∈ l ∧ k.awake t ≤ ticks then .ready else k.status t
  | [], k, k', _, _, _, h => by
    cases h
    simp
  | t :: l, k, k', hk, hnd, hsub, h => by
    obtain ⟨htl, hnl⟩ := List.nodup_cons.mp hnd
    rw [threadAwakeFrom] at h
    split at h
    · next hle =>
      split at h
      · next k₁ hun =>
        unfold Kernel.threadUnblock at hun
        split at hun
        · cases hun
          have hsub' : ∀ u ∈ l, u ∈ k.sleepList.erase t := by
            intro u hu
            refine (List.mem_erase_of_ne ?_).mpr (hsub u (List.mem_cons_of_mem t hu))
            rintro rfl
            exact htl hu
          obtain ⟨hl, ha, ht, hst⟩ := threadAwakeFrom_spec (hk.erase t) hnl hsub' h
          refine ⟨?_, ha, ht, ?_⟩
          · refine hl.trans ?_
            show (k.sleepList.erase t).filter (fun u => ¬ (u ∈ l ∧ k.awake u ≤ ticks)) = _
            rw [hk.erase_eq_filter, List.filter_filter]
            refine List.filter_congr fun u _ => ?_
            by_cases hut : u = t
            · simp [hut, hle]
            · simp [hut]
          · intro u
            refine (hst u).trans ?_
            show (if u ∈ l ∧ k.awake u ≤ ticks then ThreadStatus.ready
              else update k.status t .ready u) = _
            by_cases hut : u = t
            · simp [hut, hle]
            · simp [hut]
        · cases hun
      · cases h
    · next hle =>
      obtain ⟨hl, ha, ht, hst⟩ := threadAwakeFrom_spec hk hnl
        (fun u hu => hsub u (List.mem_cons_of_mem t hu)) h
      have hiff : ∀ u, u ∈ t :: l ∧ k.awake u ≤ ticks ↔ u ∈ l ∧ k.awake u ≤ ticks := by
        intro u
        by_cases hut : u = t
        · simp [hut, hle, htl]
        · simp [hut]
      simp only [hiff]
      exact ⟨hl, ha, ht, hst⟩

/-- **`thread_awake`** unblocks the threads of the list whose deadline has passed, and the others
keep their order. -/
theorem threadAwake_spec {ticks : Int} (h : k.threadAwake ticks = .ok k') (hnd : k.sleepList.Nodup) :
    k'.sleepList = k.sleepList.filter (fun t => ticks < k.awake t) ∧ k'.awake = k.awake ∧
    k'.ticks = k.ticks ∧
    ∀ t, k'.status t = if t ∈ k.sleepList ∧ k.awake t ≤ ticks then .ready else k.status t := by
  obtain ⟨hl, ha, ht, hst⟩ := threadAwakeFrom_spec hnd hnd (fun t ht => ht) h
  refine ⟨hl.trans (List.filter_congr fun t hmem => ?_), ha, ht, hst⟩
  simp [hmem]

/-- **A timer interrupt.** -/
theorem timerInterrupt_sleep {r : Tid → Int} (hs : Sched k (some k.current))
    (h : k.step (.timerInterrupt r) = .ok k') :
    k'.ticks = k.ticks + 1 ∧
    k'.sleepList = k.sleepList.filter (fun t => k.ticks + 1 < k.awake t) ∧
    (∀ t ∈ k'.sleepList, k'.awake t = k.awake t) ∧
    ∀ t ∈ k.sleepList, k.awake t ≤ k.ticks + 1 → k'.status t ≠ .blocked := by
  dsimp only [step] at h
  split at h
  · next k₁ hawake =>
    obtain ⟨hlist, ha, ht, hst⟩ := threadAwake_spec hawake (hs.nodup .sleep)
    have hwoken : ∀ t ∈ k.sleepList, k.awake t ≤ k.ticks + 1 → k₁.status t ≠ .blocked := by
      intro t ht hle
      rw [hst t, if_pos ⟨ht, hle⟩]
      decide
    split at h
    · obtain ⟨hsame, hnone⟩ := threadYield_sleep h
      refine ⟨hsame.ticks.trans ht, hsame.sleepList.trans hlist, ?_, ?_⟩
      · intro t hmem
        rw [hsame.sleepList] at hmem
        exact (hsame.awake t hmem).trans (congrFun ha t)
      · exact fun t hmem hle hb => hwoken t hmem hle (hnone t hb)
    · cases h
      exact ⟨ht, hlist, fun t _ => congrFun ha t, hwoken⟩
  · cases h

/-- The handler runs to its end. -/
theorem Sched.timerInterrupt_ok (h : Sched k (some k.current)) (r : Tid → Int) :
    ∃ k', k.step (.timerInterrupt r) = .ok k' := by
  have hs : Sched { k with
      ticks := k.ticks + 1
      threadTicks := k.threadTicks + 1
      priority := if k.mlfqs then r else k.priority } (some k.current) :=
    h.agree ⟨rfl, rfl, rfl, rfl, rfl, rfl, rfl, rfl, rfl⟩
  obtain ⟨k₁, hok, hs₁, -⟩ := hs.threadAwake (k.ticks + 1)
  dsimp only [step]
  simp only [hok]
  split
  · obtain ⟨k', hok', -⟩ := hs₁.threadYield
    exact ⟨k', hok'⟩
  · exact ⟨k₁, rfl⟩

/-- `thread_sleep` of a thread that is not `idle`. -/
theorem threadSleep_spec {ticks : Int} (hs : Sched k (some k.current))
    (h : k.step (.threadSleep ticks) = .ok k') :
    k'.sleepList = k.sleepList ++ [k.current] ∧ k'.ticks = k.ticks ∧
    k'.awake = update k.awake k.current ticks := by
  dsimp only [step] at h
  split at h
  · next hc =>
    have hidle : k.isIdle k.current = false := (canCall_iff.mp hc).2.2
    unfold Kernel.threadSleep at h
    rw [if_pos fun hi => by rw [(hs.idleThread _ hi).1] at hidle; cases hidle] at h
    unfold Kernel.threadBlock at h
    split at h
    · obtain ⟨hl, ht, ha, -⟩ := schedule_sleep h
      exact ⟨hl, ht, ha⟩
    · cases h
  · cases h

end Kernel

/-! ## The sleepers -/

/-- Those on the list are asleep, and not overdue; those unblocked were unblocked when due. -/
structure AlarmInv (s : Alarm) : Prop where
  sched : Kernel.Sched s.toKernel (some s.current)
  asleep : ∀ t, t ∈ s.sleepList ↔ ∃ nap, s.asleep t = some nap
  awake : ∀ t nap, s.asleep t = some nap → s.awake t = nap.deadline
  early : ∀ t nap, s.asleep t = some nap → nap.listed ≤ s.ticks ∧ s.ticks < nap.due
  wakes : ∀ t, ∀ w ∈ s.wakes t, w.2 = w.1.due
  count : ∀ t, s.slept t = (s.wakes t).length + if (s.asleep t).isSome then 1 else 0

namespace AlarmInv

variable {s s' : Alarm} {k : Kernel} {t : Tid}

theorem blocked (h : AlarmInv s) (ht : t ∈ s.sleepList) : s.status t = .blocked :=
  h.sched.status .sleep t ht

/-- An unblocked thread has one more wake-up instead of its sleep. -/
theorem count_observe (h : AlarmInv s) (k : Kernel) (t : Tid) : (s.observe k).slept t =
    ((s.observe k).wakes t).length + if ((s.observe k).asleep t).isSome then 1 else 0 := by
  have hcount := h.count t
  show s.slept t = _
  rw [hcount]
  cases hn : s.asleep t with
  | none => simp [Alarm.observe, hn]
  | some nap =>
    by_cases hb : k.status t = .blocked
    · simp [Alarm.observe, hn, hb]
    · simp [Alarm.observe, hn, hb]

theorem mem_wakes_observe {w : Nap × Int} (hw : w ∈ (s.observe k).wakes t) : w ∈ s.wakes t ∨
    ∃ nap, s.asleep t = some nap ∧ k.status t ≠ .blocked ∧ w = (nap, k.ticks) := by
  unfold Alarm.observe at hw
  dsimp only at hw
  split at hw
  · exact Or.inl hw
  · next nap hn =>
    split at hw
    · exact Or.inl hw
    · next hb =>
      rcases List.mem_cons.mp hw with rfl | hw
      · exact Or.inr ⟨nap, hn, hb, rfl⟩
      · exact Or.inl hw

/-- A step that leaves the list and the clock alone. -/
theorem same (h : AlarmInv s) (hs : Kernel.Sched k (some k.current))
    (hsame : Kernel.SameSleep s.toKernel k) : AlarmInv (s.observe k) := by
  have hblocked : ∀ t ∈ s.sleepList, k.status t = .blocked := by
    intro t ht
    refine hs.status .sleep t ?_
    show t ∈ k.sleepList
    rw [hsame.sleepList]
    exact ht
  have hasleep : (s.observe k).asleep = s.asleep := by
    funext t
    by_cases ht : t ∈ s.sleepList
    · exact if_pos (hblocked t ht)
    · have hnone : s.asleep t = none := Option.eq_none_iff_forall_ne_some.mpr
        fun nap hn => ht ((h.asleep t).mpr ⟨nap, hn⟩)
      show (if k.status t = .blocked then s.asleep t else none) = s.asleep t
      rw [hnone, ite_self]
  have hwakes : (s.observe k).wakes = s.wakes := by
    funext t
    dsimp only [Alarm.observe]
    split
    · rfl
    · next nap hn => rw [if_pos (hblocked t ((h.asleep t).mpr ⟨nap, hn⟩))]
  refine ⟨hs, ?_, ?_, ?_, ?_, h.count_observe k⟩
  · intro t
    rw [hasleep]
    show t ∈ k.sleepList ↔ _
    rw [hsame.sleepList]
    exact h.asleep t
  · intro t nap hn
    rw [hasleep] at hn
    show k.awake t = nap.deadline
    rw [hsame.awake t ((h.asleep t).mpr ⟨nap, hn⟩)]
    exact h.awake t nap hn
  · intro t nap hn
    rw [hasleep] at hn
    show nap.listed ≤ k.ticks ∧ k.ticks < nap.due
    rw [hsame.ticks]
    exact h.early t nap hn
  · rw [hwakes]
    exact h.wakes

/-- A thread on the list is due at a tick exactly if its deadline has passed. -/
theorem due_iff (h : AlarmInv s) {nap : Nap} (hn : s.asleep t = some nap) :
    (s.awake t ≤ s.ticks + 1 ↔ nap.due = s.ticks + 1) ∧
      (s.ticks + 1 < s.awake t ↔ s.ticks + 1 < nap.due) := by
  obtain ⟨hlisted, hdue⟩ := h.early t nap hn
  have ha := h.awake t nap hn
  unfold Nap.due at hdue ⊢
  rw [ha]
  omega

/-- **A timer interrupt** unblocks those that are due. -/
theorem timer (h : AlarmInv s) {r : Tid → Int} (hs : Kernel.Sched k (some k.current))
    (hk : s.toKernel.step (.timerInterrupt r) = .ok k) : AlarmInv (s.observe k) := by
  obtain ⟨hticks, hlist, hawake, hwoken⟩ := Kernel.timerInterrupt_sleep h.sched hk
  have hmem : ∀ t, t ∈ k.sleepList ↔ t ∈ s.sleepList ∧ s.ticks + 1 < s.awake t := by
    intro t
    rw [hlist]
    simp
  have hblocked : ∀ t ∈ k.sleepList, k.status t = .blocked := fun t ht => hs.status .sleep t ht
  have hasleep : ∀ t nap, (s.observe k).asleep t = some nap → s.asleep t = some nap ∧ t ∈ k.sleepList := by
    intro t nap hn
    obtain ⟨hb, hn⟩ : k.status t = ThreadStatus.blocked ∧ s.asleep t = some nap := by
      simpa [Alarm.observe] using hn
    refine ⟨hn, (hmem t).mpr ⟨(h.asleep t).mpr ⟨nap, hn⟩, ?_⟩⟩
    by_contra hle
    exact hwoken t ((h.asleep t).mpr ⟨nap, hn⟩) (by omega) hb
  refine ⟨hs, ?_, ?_, ?_, ?_, h.count_observe k⟩
  · intro t
    constructor
    · intro ht
      obtain ⟨nap, hn⟩ := (h.asleep t).mp ((hmem t).mp ht).1
      exact ⟨nap, (if_pos (hblocked t ht)).trans hn⟩
    · rintro ⟨nap, hn⟩
      exact (hasleep t nap hn).2
  · intro t nap hn
    obtain ⟨hn', ht⟩ := hasleep t nap hn
    exact (hawake t ht).trans (h.awake t nap hn')
  · intro t nap hn
    obtain ⟨hn', ht⟩ := hasleep t nap hn
    have hlate := (h.due_iff hn').2.mp ((hmem t).mp ht).2
    obtain ⟨hlisted, -⟩ := h.early t nap hn'
    show nap.listed ≤ k.ticks ∧ k.ticks < nap.due
    have hk' : k.ticks = s.ticks + 1 := hticks
    omega
  · intro t w hw
    rcases mem_wakes_observe hw with hw | ⟨nap, hn, hb, rfl⟩
    · exact h.wakes t w hw
    · -- it was due now
      have ht : t ∈ s.sleepList := (h.asleep t).mpr ⟨nap, hn⟩
      have hle : s.awake t ≤ s.ticks + 1 := by
        by_contra hlt
        exact hb (hblocked t ((hmem t).mpr ⟨ht, by omega⟩))
      exact hticks.trans ((h.due_iff hn).1.mp hle).symm

/-- **`thread_sleep`** puts the running thread to sleep. -/
theorem sleep (h : AlarmInv s) {start ticks : Int} (hs : Kernel.Sched k (some k.current))
    (hk : s.toKernel.step (.threadSleep (ticks + start)) = .ok k) :
    AlarmInv { s.observe k with
      call := update s.call s.current none
      asleep := update (s.observe k).asleep s.current
        (some { called := start, arg := ticks, listed := s.ticks })
      slept := update s.slept s.current (s.slept s.current + 1) } := by
  obtain ⟨hlist, hticks, hawake⟩ := Kernel.threadSleep_spec h.sched hk
  have hcurr : s.current ∉ s.sleepList := h.sched.loose_of_running .sleep
  have hnone : s.asleep s.current = none := Option.eq_none_iff_forall_ne_some.mpr
    fun nap hn => hcurr ((h.asleep _).mpr ⟨nap, hn⟩)
  have hmem : ∀ t, t ∈ k.sleepList ↔ t ∈ s.sleepList ∨ t = s.current := by
    intro t
    rw [hlist]
    simp
  -- the others sleep on
  have hothers : ∀ t, t ≠ s.current → (s.observe k).asleep t = s.asleep t ∧
      (s.observe k).wakes t = s.wakes t := by
    intro t ht
    cases hn : s.asleep t with
    | none => simp [Alarm.observe, hn]
    | some nap =>
      have hb : k.status t = .blocked :=
        hs.status .sleep t ((hmem t).mpr (Or.inl ((h.asleep t).mpr ⟨nap, hn⟩)))
      simp [Alarm.observe, hn, hb]
  have hself : (s.observe k).wakes s.current = s.wakes s.current := by
    simp [Alarm.observe, hnone]
  constructor
  case sched => exact hs
  case asleep =>
    intro t
    refine (hmem t).trans ?_
    by_cases ht : t = s.current
    · simp [ht]
    · show _ ↔ ∃ nap, update (s.observe k).asleep s.current _ t = some nap
      rw [update_of_ne ht, (hothers t ht).1, ← h.asleep t]
      simp [ht]
  case awake =>
    intro t nap hn
    show k.awake t = nap.deadline
    rw [hawake]
    by_cases ht : t = s.current
    · subst ht
      have hn' : Nap.mk start ticks s.ticks = nap := by simpa using hn
      rw [update_self, ← hn', Nap.deadline, Int.add_comm]
    · have hn' : (s.observe k).asleep t = some nap := by simpa [ht] using hn
      rw [(hothers t ht).1] at hn'
      rw [update_of_ne ht]
      exact h.awake t nap hn'
  case early =>
    intro t nap hn
    show nap.listed ≤ k.ticks ∧ k.ticks < nap.due
    rw [hticks]
    by_cases ht : t = s.current
    · subst ht
      have hn' : Nap.mk start ticks s.ticks = nap := by simpa using hn
      rw [← hn', Nap.due]
      simp only
      omega
    · have hn' : (s.observe k).asleep t = some nap := by simpa [ht] using hn
      rw [(hothers t ht).1] at hn'
      exact h.early t nap hn'
  case wakes =>
    intro t w hw
    have hw' : w ∈ (s.observe k).wakes t := hw
    by_cases ht : t = s.current
    · rw [ht, hself] at hw'
      exact h.wakes _ w hw'
    · rw [(hothers t ht).2] at hw'
      exact h.wakes t w hw'
  case count =>
    intro t
    by_cases ht : t = s.current
    · subst ht
      have hcount := h.count s.current
      rw [hnone] at hcount
      have hlen : ((s.observe k).wakes s.current).length = (s.wakes s.current).length := by rw [hself]
      simpa [hlen] using hcount
    · have hcount : s.slept t = _ := h.count_observe k t
      simpa [ht] using hcount

theorem preserved {a : AlarmAction} (h : AlarmInv s) (hs : s.step a = .ok s') : AlarmInv s' := by
  have hsched : ∀ {b : KernelAction} {k : Kernel}, s.toKernel.step b = .ok k →
      Kernel.Sched k (some k.current) := by
    intro b k hk
    have hgood := h.sched.good_step b
    rw [hk] at hgood
    exact hgood.sched
  cases a with
  | timerSleep ticks =>
    dsimp only [Alarm.step] at hs
    split at hs
    · cases hs
      exact ⟨h.sched, h.asleep, h.awake, h.early, h.wakes, h.count⟩
    · cases hs
  | threadSleep =>
    dsimp only [Alarm.step] at hs
    split at hs
    · cases hs
    split at hs
    · cases hs
    next k hk =>
    cases hs
    exact h.sleep (hsched hk) hk
  | kernel a =>
    dsimp only [Alarm.step] at hs
    split at hs
    · cases hs
    next hguard =>
    split at hs
    · cases hs
    next k hk =>
    cases hs
    by_cases htimer : ∃ r, a = .timerInterrupt r
    · obtain ⟨r, rfl⟩ := htimer
      exact h.timer (hsched hk) hk
    · have hnot : a.isSleep = false := by
        rw [not_or, Bool.not_eq_true] at hguard
        exact hguard.1
      exact h.same (hsched hk)
        (Kernel.sameSleep_step h.sched hnot (fun r hr => htimer ⟨r, hr⟩) hk)

end AlarmInv

/--
**The alarm clock**, in every run. A thread is on `sleep_list` once for each call of `thread_sleep`
and is unblocked once for each, at the first tick after it was put there that has reached the clock
at its call of `timer_sleep` plus the argument; as long as it is on the list it is blocked and not
yet due. A timer interrupt never stops the kernel; it unblocks exactly the threads whose deadline has
passed, and the others keep their order.
-/
theorem alarm_clock {mlfqs : Bool} {value : Nat → BitVec 32} {main idle : Tid} {s : Alarm}
    (hne : main ≠ idle)
    (h : Reach Alarm.step Always (Alarm.boot (Kernel.boot mlfqs value main idle)) s) :
    (∀ t, ∀ w ∈ s.wakes t, w.2 = w.1.due) ∧
    (∀ t, s.slept t = (s.wakes t).length + s.sleepList.count t) ∧
    (∀ t ∈ s.sleepList, s.status t = .blocked ∧
      ∃ nap, s.asleep t = some nap ∧ s.awake t = nap.deadline ∧ s.ticks < nap.due) ∧
    ∀ r, (∃ k, s.toKernel.step (.timerInterrupt r) = .ok k) ∧
      ∀ k, s.toKernel.step (.timerInterrupt r) = .ok k → k.ticks = s.ticks + 1 ∧
        k.sleepList = s.sleepList.filter (fun t => k.ticks < s.awake t) ∧
        (∀ t ∈ k.sleepList, k.ticks < k.awake t) ∧
        ∀ t ∈ s.sleepList, s.awake t ≤ k.ticks → k.status t ≠ .blocked := by
  have hboot : AlarmInv (Alarm.boot (Kernel.boot mlfqs value main idle)) := by
    refine ⟨Kernel.Sched.boot mlfqs value hne, ?_, ?_, ?_, ?_, ?_⟩
    · exact fun t => iff_of_false List.not_mem_nil fun ⟨_, hn⟩ => nomatch hn
    · exact fun t nap hn => nomatch hn
    · exact fun t nap hn => nomatch hn
    · exact fun t w hw => absurd hw List.not_mem_nil
    · exact fun t => rfl
  have hinv : AlarmInv s := h.invariant hboot fun _ _ _ hi _ hs => hi.preserved hs
  refine ⟨hinv.wakes, ?_, ?_, ?_⟩
  · intro t
    rw [hinv.count t]
    by_cases ht : t ∈ s.sleepList
    · have hone : s.sleepList.count t = 1 := List.count_eq_one_of_mem (hinv.sched.nodup .sleep) ht
      obtain ⟨nap, hn⟩ := (hinv.asleep t).mp ht
      rw [hn, hone]
      rfl
    · have hnone : s.asleep t = none := Option.eq_none_iff_forall_ne_some.mpr
        fun nap hn => ht ((hinv.asleep t).mpr ⟨nap, hn⟩)
      rw [hnone, List.count_eq_zero_of_not_mem ht]
      rfl
  · intro t ht
    obtain ⟨nap, hn⟩ := (hinv.asleep t).mp ht
    exact ⟨hinv.blocked ht, nap, hn, hinv.awake t nap hn, (hinv.early t nap hn).2⟩
  · intro r
    refine ⟨?_, fun k hk => ?_⟩
    · exact hinv.sched.timerInterrupt_ok r
    · obtain ⟨hticks, hlist, hawake, hwoken⟩ := Kernel.timerInterrupt_sleep hinv.sched hk
      rw [hticks]
      refine ⟨rfl, hlist, fun t ht => ?_, hwoken⟩
      rw [hawake t ht]
      rw [hlist] at ht
      simpa using (List.mem_filter.mp ht).2

/-- A tick falls into `timer_sleep (1)`: the thread is put to sleep when its deadline has come, and is
unblocked at the next tick. -/
theorem alarm_clock_late : ∃ s : Alarm, s.wakes 1 = [(⟨0, 1, 1⟩, 2)] ∧ (Nap.mk 0 1 1).due = 2 ∧
    s.slept 1 = 1 + s.sleepList.count 1 ∧ ∃ k, s.toKernel.step (.timerInterrupt fun _ => 0) = .ok k := by
  have h : Reach Alarm.step Always (Alarm.boot (Kernel.boot false (fun _ => 0) 1 2)) _ :=
    reach_of_exec [.timerSleep 1, .kernel (.timerInterrupt fun _ => 0), .threadSleep,
      .kernel (.timerInterrupt fun _ => 0)] rfl
  obtain ⟨hwakes, hslept, -, htimer⟩ := alarm_clock (by decide) h
  exact ⟨_, rfl, (hwakes 1 _ List.mem_cons_self).symm, hslept 1, (htimer _).1⟩

end Pintos
