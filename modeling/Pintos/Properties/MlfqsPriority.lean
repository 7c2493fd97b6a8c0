import Pintos.Lib.Machine
import Pintos.Threads.Mlfqs

/-!
# The priorities of MLFQS

`calculate_priority` does not adjust its result to the range of priorities, and once a second `timer_interrupt`
changes every `recent_cpu` after the priorities were calculated from it.

* `PriorityFits`, `calculatedPriority_range` — the numbers from which it gives a valid priority
* `mlfqs_priority_range` — **the priorities are valid as long as it is called with those**
* `mlfqs_up_to_date` — **the priorities are those of the numbers** but for some ticks that are multiples of `TIMER_FREQ`
-/

namespace Pintos

open Function Machine FixedPoint Fixed

namespace Mlfqs

/-- `recent_cpu / 4 + 2 * nice` is between -1/2 and 63 1/2. -/
def PriorityFits (recentCpu nice : Int) : Prop :=
  -f < 2 * (recentCpu.tdiv 4 + 2 * nice * f) ∧ 2 * (recentCpu.tdiv 4 + 2 * nice * f) < 127 * f

instance (recentCpu nice : Int) : Decidable (PriorityFits recentCpu nice) := inferInstanceAs (Decidable (_ ∧ _))

section

variable {s s' s₁ : Mlfqs} {t current : Tid} {n ready : Nat} {x y d p nice recentCpu : Int}

theorem eq_of_int32 (h : int32 x = .ok y) : y = x := by
  unfold int32 at h
  split at h
  · exact (Except.ok.inj h).symm
  · cases h

theorem eq_of_quot32 (h : quot32 x d = .ok y) : y = x.tdiv d := by
  unfold quot32 at h
  split at h
  · cases h
  · exact eq_of_int32 h

/-- **Rounding to the nearest integer.** -/
theorem convertXton_range (h : convertXton x = .ok p) :
    PRI_MIN ≤ p ∧ p ≤ PRI_MAX ↔ -f < 2 * x ∧ 2 * x < 127 * f := by
  have hhalf : f / 2 = 8192 := by decide
  unfold convertXton at h
  rw [hhalf] at h
  unfold PRI_MIN PRI_MAX
  unfold f at h ⊢
  split at h
  · next hx =>
    obtain ⟨y, hy, h⟩ := of_bind_eq_ok h
    rw [eq_of_int32 hy] at h
    have hp := eq_of_quot32 h
    rw [Int.tdiv_eq_ediv_of_nonneg (by omega)] at hp
    omega
  · next hx =>
    obtain ⟨y, hy, h⟩ := of_bind_eq_ok h
    rw [eq_of_int32 hy] at h
    have hp := eq_of_quot32 h
    have hneg : x - 8192 = -(8192 - x) := by omega
    rw [hneg, Int.neg_tdiv, Int.tdiv_eq_ediv_of_nonneg (by omega)] at hp
    omega

/-- **`calculate_priority` gives a valid priority exactly for these numbers.** -/
theorem calculatedPriority_range (h : calculatedPriority recentCpu nice = .ok p) :
    PRI_MIN ≤ p ∧ p ≤ PRI_MAX ↔ PriorityFits recentCpu nice := by
  unfold calculatedPriority at h
  obtain ⟨q, hq, h⟩ := of_bind_eq_ok h
  obtain ⟨m, hm, h⟩ := of_bind_eq_ok h
  obtain ⟨k, hk, h⟩ := of_bind_eq_ok h
  obtain ⟨y, hy, h⟩ := of_bind_eq_ok h
  obtain ⟨z, hz, hy⟩ := of_bind_eq_ok hy
  have hq := eq_of_quot32 (x := recentCpu) (d := -4) hq
  rw [Int.tdiv_neg] at hq
  have hm := eq_of_int32 hm
  have hk := eq_of_int32 hk
  have hz := eq_of_int32 hz
  have hy := eq_of_int32 hy
  rw [convertXton_range h]
  unfold PriorityFits
  unfold f at hz ⊢
  omega

/-! ## A timer interrupt -/

/-- `recent_cpu` after `calculate_recent_cpu`. -/
def used (s : Mlfqs) (current t : Tid) : Int :=
  if t = current ∧ s.idleThread ≠ some current then s.recentCpu t + f else s.recentCpu t

theorem calculateRecentCpu_used (h : s.calculateRecentCpu current = .ok s₁) :
    s₁ = { s with recentCpu := s.used current } := by
  unfold calculateRecentCpu at h
  split at h
  · next hidle =>
    cases h
    have hsame : s.used current = s.recentCpu := by
      funext t
      exact if_neg fun hc => hc.2 hidle
    rw [hsame]
  · next hidle =>
    obtain ⟨x, hx, h⟩ := of_bind_eq_ok h
    obtain ⟨y, hy, hx⟩ := of_bind_eq_ok hx
    have hx := eq_of_int32 hx
    have hy := eq_of_int32 hy
    cases h
    congr 1
    funext t
    unfold used
    by_cases ht : t = current
    · subst ht
      rw [update_self, if_pos ⟨rfl, hidle⟩]
      omega
    · rw [update_of_ne ht, if_neg fun hc => ht hc.1]

/-- `load_avg` after `calculate_load_avg`. -/
def nextLoadAvg (s : Mlfqs) (current : Tid) (ready : Nat) : Except Fault Int :=
  (s.calculateLoadAvg current ready).map loadAvg

/-- It does not depend on the numbers of the threads. -/
theorem calculateLoadAvg_next {s₂ : Mlfqs} (hl : s₁.loadAvg = s.loadAvg) (hi : s₁.idleThread = s.idleThread)
    (h : s₁.calculateLoadAvg current ready = .ok s₂) :
    s₂ = { s₁ with loadAvg := s₂.loadAvg } ∧ s.nextLoadAvg current ready = .ok s₂.loadAvg := by
  unfold nextLoadAvg
  unfold calculateLoadAvg readyThreads at h ⊢
  rw [hl, hi] at h
  obtain ⟨r, hr, h⟩ := of_bind_eq_ok h
  obtain ⟨x, hx, h⟩ := of_bind_eq_ok h
  obtain ⟨y, hy, h⟩ := of_bind_eq_ok h
  obtain ⟨z, hz, h⟩ := of_bind_eq_ok h
  obtain ⟨w, hw, h⟩ := of_bind_eq_ok h
  obtain ⟨l, hl, h⟩ := of_bind_eq_ok h
  cases h
  refine ⟨by rw [hi], ?_⟩
  rw [hr, ok_bind, hx, ok_bind, hy, ok_bind, hz, ok_bind, hw, ok_bind, hl, ok_bind]
  rfl

theorem recalculateRecentCpuFrom_spec : ∀ {l : List Tid} {s s' : Mlfqs}, l.Nodup →
    s.recalculateRecentCpuFrom l = .ok s' →
    s' = { s with recentCpu := s'.recentCpu } ∧ (∀ t, t ∉ l → s'.recentCpu t = s.recentCpu t) ∧
      ∀ t ∈ l, decayed s.loadAvg (s.recentCpu t) (s.nice t) = .ok (s'.recentCpu t)
  | [], s, s', _, h => by
    cases h
    exact ⟨rfl, fun _ _ => rfl, fun t ht => absurd ht List.not_mem_nil⟩
  | t :: l, s, s', hnd, h => by
    obtain ⟨hnot, hnd⟩ := List.nodup_cons.mp hnd
    obtain ⟨x, hx, h⟩ := of_bind_eq_ok h
    obtain ⟨hrest, hsame, hdec⟩ := recalculateRecentCpuFrom_spec hnd h
    refine ⟨hrest, fun u hu => ?_, fun u hu => ?_⟩
    · rw [List.mem_cons, not_or] at hu
      rw [hsame u hu.2]
      exact update_of_ne hu.1 _ _
    · by_cases hut : u = t
      · subst hut
        rw [hsame u hnot]
        show _ = Except.ok (update s.recentCpu u x u)
        rw [update_self]
        exact hx
      · have hu' := hdec u (List.mem_of_ne_of_mem hut hu)
        have hkeep : update s.recentCpu t x u = s.recentCpu u := update_of_ne hut _ _
        rw [← hkeep]
        exact hu'

/-- What a timer interrupt leaves at a fourth tick. -/
structure FourthTick (s : Mlfqs) (n : Nat) (current : Tid) (ready : Nat) (s' : Mlfqs) : Prop where
  nice : s'.nice = s.nice
  allList : s'.allList = s.allList
  idleThread : s'.idleThread = s.idleThread
  calculated : ∀ t ∈ s.allList, s.idleThread ≠ some t →
    calculatedPriority (s.used current t) (s.nice t) = .ok (s'.priority t)
  same : ∀ t, t ∉ s.allList ∨ s.idleThread = some t → s'.priority t = s.priority t
  between : n % TIMER_FREQ ≠ 0 → s'.recentCpu = s.used current
  second : n % TIMER_FREQ = 0 → ∃ l, s.nextLoadAvg current ready = .ok l ∧
    ∀ t ∈ s.allList, decayed l (s.used current t) (s.nice t) = .ok (s'.recentCpu t)

theorem timerInterrupt_other (h : s.timerInterrupt n current ready = .ok s') (h4 : n % 4 ≠ 0) :
    s' = { s with recentCpu := s.used current } := by
  obtain ⟨s₁, h₁, h⟩ := of_bind_eq_ok h
  rw [if_neg h4] at h
  cases h
  exact calculateRecentCpu_used (of_mapError_eq_ok h₁)

theorem FourthTick.of_timerInterrupt (hnd : s.allList.Nodup) (h : s.timerInterrupt n current ready = .ok s')
    (h4 : n % 4 = 0) : FourthTick s n current ready s' := by
  obtain ⟨s₁, h₁, h⟩ := of_bind_eq_ok h
  have hs₁ := calculateRecentCpu_used (of_mapError_eq_ok h₁)
  subst hs₁
  rw [if_pos h4] at h
  obtain ⟨s₂, h₂, h⟩ := of_bind_eq_ok h
  have hr := recalculatePriority_spec h₂
  split at h
  · next hfreq =>
    obtain ⟨s₃, h₃, h⟩ := of_bind_eq_ok h
    have hl₂ : s₂.loadAvg = s.loadAvg := by rw [hr.rest]
    have hi₂ : s₂.idleThread = s.idleThread := by rw [hr.rest]
    obtain ⟨hs₃, hnext⟩ := calculateLoadAvg_next hl₂ hi₂ (of_mapError_eq_ok h₃)
    have ha₃ : s₃.allList = s.allList := by rw [hs₃, hr.rest]
    have hn₃ : s₃.nice = s.nice := by rw [hs₃, hr.rest]
    have hi₃ : s₃.idleThread = s.idleThread := by rw [hs₃, hr.rest]
    have hc₃ : s₃.recentCpu = s.used current := by rw [hs₃, hr.rest]
    have hp₃ : s₃.priority = s₂.priority := by rw [hs₃]
    unfold recalculateRecentCpu at h
    split at h
    · cases h
    · obtain ⟨hrest, -, hdec⟩ := recalculateRecentCpuFrom_spec (ha₃ ▸ hnd) (of_mapError_eq_ok h)
      have hp : s'.priority = s₂.priority := by rw [hrest, hp₃]
      refine ⟨by rw [hrest, hn₃], by rw [hrest, ha₃], by rw [hrest, hi₃], ?_, ?_, fun hne => absurd hfreq hne,
        fun _ => ?_⟩
      · rw [hp]
        exact hr.calculated
      · rw [hp]
        exact hr.same
      · refine ⟨s₃.loadAvg, hnext, ?_⟩
        rw [ha₃, hn₃, hc₃] at hdec
        exact hdec
  · next hfreq =>
    cases h
    exact ⟨by rw [hr.rest], by rw [hr.rest], by rw [hr.rest], hr.calculated, hr.same, fun _ => by rw [hr.rest],
      fun hc => absurd hc hfreq⟩

/-- The priorities are those that `calculate_priority` yields now. -/
def UpToDate (s : Mlfqs) : Prop :=
  ∀ t ∈ s.allList, s.idleThread ≠ some t → calculatedPriority (s.recentCpu t) (s.nice t) = .ok (s.priority t)

/-- The tick ends no second, or no priority changes when `recent_cpu` decays. -/
def KeepsUp (s : Mlfqs) (n : Nat) (current : Tid) (ready : Nat) : Prop :=
  n % TIMER_FREQ ≠ 0 ∨ ∀ t ∈ s.allList, s.idleThread ≠ some t → ∀ l x, s.nextLoadAvg current ready = .ok l →
    decayed l (s.used current t) (s.nice t) = .ok x →
    calculatedPriority x (s.nice t) = calculatedPriority (s.used current t) (s.nice t)

theorem FourthTick.upToDate_iff (h : FourthTick s n current ready s') :
    s'.UpToDate ↔ s.KeepsUp n current ready := by
  unfold UpToDate KeepsUp
  rw [h.allList, h.idleThread, h.nice]
  by_cases hfreq : n % TIMER_FREQ = 0
  · obtain ⟨l, hl, hdec⟩ := h.second hfreq
    rw [or_iff_right (not_not.mpr hfreq)]
    constructor
    · intro hup t ht hidle l' x hl' hx
      rw [hl] at hl'
      cases hl'
      rw [hdec t ht] at hx
      cases hx
      rw [hup t ht hidle, h.calculated t ht hidle]
    · intro hkeep t ht hidle
      rw [hkeep t ht hidle l _ hl (hdec t ht), h.calculated t ht hidle]
  · rw [h.between hfreq]
    exact iff_of_true h.calculated (.inl hfreq)

end

end Mlfqs

/-! ## Runs -/

namespace MlfqsRun

/-- The nice values are those the scheduler is made for, and a priority passes the assertion of `init_thread`. -/
def Admits : MlfqsAction → Prop
  | .setNice _ nice => -20 ≤ nice ∧ nice ≤ 20
  | .threadCreate _ priority => PRI_MIN ≤ priority ∧ priority ≤ PRI_MAX
  | _ => True

/-- The `recent_cpu` and `nice` of `t` when `calculate_priority` writes its priority in the step. -/
def inputs (s : MlfqsRun) : MlfqsAction → Tid → Option (Int × Int)
  | .tick current _, t =>
    if (s.ticks + 1) % 4 = 0 ∧ t ∈ s.allList ∧ s.idleThread ≠ some t then some (s.used current t, s.nice t) else none
  | .setNice current nice, t => if t = current ∧ s.idleThread ≠ some t then some (s.recentCpu t, nice) else none
  | _, _ => none

/-- Each of them gives a valid priority. -/
def Fits (s : MlfqsRun) (a : MlfqsAction) : Prop :=
  ∀ t x, s.inputs a t = some x → Mlfqs.PriorityFits x.1 x.2

/-- The threads whose priority it may write in the step. -/
def touched (s : MlfqsRun) : MlfqsAction → List Tid
  | .tick _ _ => s.allList
  | .setNice current _ => [current]
  | _ => []

theorem mem_touched {s : MlfqsRun} {a : MlfqsAction} {t : Tid} {x : Int × Int} (h : s.inputs a t = some x) :
    t ∈ s.touched a := by
  cases a with
  | tick current ready =>
    dsimp only [inputs] at h
    split at h
    · next hc => exact hc.2.1
    · cases h
  | setNice current nice =>
    dsimp only [inputs] at h
    split at h
    · next hc => exact List.mem_singleton.mpr hc.1
    · cases h
  | threadCreate u priority => cases h
  | threadExit u => cases h
  | idleStart u => cases h

instance : DecidablePred Admits
  | .tick _ _ => inferInstanceAs (Decidable True)
  | .setNice _ nice => inferInstanceAs (Decidable (-20 ≤ nice ∧ nice ≤ 20))
  | .threadCreate _ priority => inferInstanceAs (Decidable (PRI_MIN ≤ priority ∧ priority ≤ PRI_MAX))
  | .threadExit _ => inferInstanceAs (Decidable True)
  | .idleStart _ => inferInstanceAs (Decidable True)

instance (s : MlfqsRun) (a : MlfqsAction) : Decidable (s.Fits a) :=
  decidable_of_iff (∀ t ∈ s.touched a, ∀ x ∈ s.inputs a t, Mlfqs.PriorityFits x.1 x.2)
    ⟨fun h t x hx => h t (mem_touched hx) x hx, fun h t _ x hx => h t x hx⟩

/-- A priority is valid. -/
def Valid (p : Int) : Prop := PRI_MIN ≤ p ∧ p ≤ PRI_MAX

section

variable {s s' : MlfqsRun} {a : MlfqsAction} {t current main : Tid} {ready : Nat} {nice priority : Int}

/-! ### What a step does -/

theorem step_tick (hs : s.step (.tick current ready) = .ok s') :
    ∃ m, s.timerInterrupt (s.ticks + 1) current ready = .ok m ∧ s' = { s.setMlfqs m with ticks := s.ticks + 1 } := by
  dsimp only [MlfqsRun.step] at hs
  split at hs
  · cases hs
  split at hs
  · cases hs
  next m hm => exact ⟨m, hm, (Except.ok.inj hs).symm⟩

theorem step_setNice (hs : s.step (.setNice current nice) = .ok s') :
    ∃ m, Mlfqs.calculatePriority { s.toMlfqs with nice := update s.nice current nice } current = .ok m ∧
      s' = s.setMlfqs m := by
  dsimp only [MlfqsRun.step] at hs
  split at hs
  · cases hs
  split at hs
  · cases hs
  next m hm => exact ⟨m, hm, (Except.ok.inj hs).symm⟩

theorem step_threadCreate (hs : s.step (.threadCreate t priority) = .ok s') :
    t ∉ s.allList ∧ s' = s.setMlfqs (s.initThread t priority) := by
  dsimp only [MlfqsRun.step] at hs
  split at hs
  · cases hs
  next ht => exact ⟨ht, (Except.ok.inj hs).symm⟩

theorem step_threadExit (hs : s.step (.threadExit t) = .ok s') :
    s' = s.setMlfqs { s.toMlfqs with allList := s.allList.erase t } := by
  dsimp only [MlfqsRun.step] at hs
  split at hs
  · cases hs
  · exact (Except.ok.inj hs).symm

theorem step_idleStart (hs : s.step (.idleStart t) = .ok s') :
    s' = s.setMlfqs { s.toMlfqs with idleThread := some t } := by
  dsimp only [MlfqsRun.step] at hs
  split at hs
  · cases hs
  · exact (Except.ok.inj hs).symm

theorem nodup_step (h : s.allList.Nodup) (hs : s.step a = .ok s') : s'.allList.Nodup := by
  cases a with
  | tick current ready =>
    obtain ⟨m, hm, rfl⟩ := step_tick hs
    show m.allList.Nodup
    by_cases h4 : (s.ticks + 1) % 4 = 0
    · rw [(Mlfqs.FourthTick.of_timerInterrupt h hm h4).allList]
      exact h
    · rw [Mlfqs.timerInterrupt_other hm h4]
      exact h
  | setNice current nice =>
    obtain ⟨m, hm, rfl⟩ := step_setNice hs
    rcases Mlfqs.calculatePriority_cases hm with ⟨-, rfl⟩ | ⟨p, -, -, rfl⟩ <;> exact h
  | threadCreate t priority =>
    obtain ⟨ht, rfl⟩ := step_threadCreate hs
    show (s.allList ++ [t]).Nodup
    refine List.nodup_append.mpr ⟨h, List.nodup_singleton t, fun u hu v hv => ?_⟩
    rw [List.mem_singleton.mp hv]
    rintro rfl
    exact ht hu
  | threadExit t =>
    rw [step_threadExit hs]
    exact h.erase t
  | idleStart t =>
    rw [step_idleStart hs]
    exact h

/-- **What a step does to the priority of a thread.** -/
theorem priority_step (h : s.allList.Nodup) (hs : s.step a = .ok s') (t : Tid) :
    (∃ x, s.inputs a t = some x ∧ Mlfqs.calculatedPriority x.1 x.2 = .ok (s'.priority t)) ∨
    s.inputs a t = none ∧ (s'.priority t = s.priority t ∨ a = .threadCreate t (s'.priority t)) := by
  cases a with
  | tick current ready =>
    obtain ⟨m, hm, rfl⟩ := step_tick hs
    show (∃ x : Int × Int, _ ∧ Mlfqs.calculatedPriority x.1 x.2 = .ok (m.priority t)) ∨ _ ∧ (m.priority t = _ ∨ _)
    dsimp only [inputs]
    by_cases h4 : (s.ticks + 1) % 4 = 0
    · have htick := Mlfqs.FourthTick.of_timerInterrupt h hm h4
      by_cases ht : t ∈ s.allList ∧ s.idleThread ≠ some t
      · exact .inl ⟨_, if_pos ⟨h4, ht⟩, htick.calculated t ht.1 ht.2⟩
      · refine .inr ⟨if_neg fun hc => ht hc.2, .inl (htick.same t ?_)⟩
        rwa [not_and_or, not_not] at ht
    · refine .inr ⟨if_neg fun hc => h4 hc.1, .inl ?_⟩
      rw [Mlfqs.timerInterrupt_other hm h4]
  | setNice current nice =>
    obtain ⟨m, hm, rfl⟩ := step_setNice hs
    dsimp only [inputs]
    rcases Mlfqs.calculatePriority_cases hm with ⟨hidle, rfl⟩ | ⟨p, hidle, hp, rfl⟩
    · have hidle : s.idleThread = some current := hidle
      refine .inr ⟨if_neg fun hc => hc.2 (hc.1 ▸ hidle), .inl rfl⟩
    · by_cases ht : t = current
      · subst ht
        refine .inl ⟨_, if_pos ⟨rfl, hidle⟩, ?_⟩
        show Mlfqs.calculatedPriority (s.recentCpu t) nice = .ok (update s.priority t p t)
        rw [update_self]
        dsimp only at hp
        rwa [update_self] at hp
      · exact .inr ⟨if_neg fun hc => ht hc.1, .inl (update_of_ne ht _ _)⟩
  | threadCreate u priority =>
    obtain ⟨-, rfl⟩ := step_threadCreate hs
    refine .inr ⟨rfl, ?_⟩
    show update s.priority u priority t = s.priority t ∨ _ = MlfqsAction.threadCreate t (update s.priority u priority t)
    by_cases ht : t = u
    · subst ht
      rw [update_self]
      exact .inr rfl
    · exact .inl (update_of_ne ht _ _)
  | threadExit u =>
    rw [step_threadExit hs]
    exact .inr ⟨rfl, .inl rfl⟩
  | idleStart u =>
    rw [step_idleStart hs]
    exact .inr ⟨rfl, .inl rfl⟩

/-- **What the step calculates is valid if and only if it is calculated from numbers that fit.** -/
theorem fits_iff (h : s.allList.Nodup) (hs : s.step a = .ok s') :
    (∀ t x, s.inputs a t = some x → Valid (s'.priority t)) ↔ s.Fits a := by
  have hcalc : ∀ t x, s.inputs a t = some x → (Valid (s'.priority t) ↔ Mlfqs.PriorityFits x.1 x.2) := by
    intro t x hx
    rcases priority_step h hs t with ⟨y, hy, hp⟩ | ⟨hnone, -⟩
    · rw [hx] at hy
      cases hy
      exact Mlfqs.calculatedPriority_range hp
    · rw [hx] at hnone
      cases hnone
  exact ⟨fun hv t x hx => (hcalc t x hx).mp (hv t x hx), fun hf t x hx => (hcalc t x hx).mpr (hf t x hx)⟩

theorem valid_step (h : s.allList.Nodup) (hv : ∀ t, Valid (s.priority t)) (hadm : Admits a) (hf : s.Fits a)
    (hs : s.step a = .ok s') (t : Tid) : Valid (s'.priority t) := by
  rcases priority_step h hs t with ⟨x, hx, -⟩ | ⟨-, hp | ha⟩
  · exact (fits_iff h hs).mpr hf t x hx
  · rw [hp]
    exact hv t
  · rw [ha] at hadm
    exact hadm

theorem nodup_reach (h : Reach step Always (boot main) s) : s.allList.Nodup :=
  h.invariant (I := fun s => s.allList.Nodup) (List.nodup_singleton main) fun _ _ _ hi _ hs => nodup_step hi hs

/--
**The priorities are valid** in every run whose steps call `calculate_priority` only with numbers that fit; and a step
that calls it stores valid priorities if and only if its numbers fit. Nothing adjusts the result to the valid range
(`mlfqs_priority_too_high`).
-/
theorem mlfqs_priority_range (h : Reach step (fun s a => Admits a ∧ s.Fits a) (boot main) s) :
    (∀ t, Valid (s.priority t)) ∧
    ∀ a s', s.step a = .ok s' → ((∀ t x, s.inputs a t = some x → Valid (s'.priority t)) ↔ s.Fits a) := by
  have hnodup : ∀ s, Reach step (fun s a => Admits a ∧ s.Fits a) (boot main) s → s.allList.Nodup :=
    fun s hs => nodup_reach (hs.mono fun _ _ _ => trivial)
  refine ⟨?_, fun a s' hs => fits_iff (hnodup s h) hs⟩
  refine h.invariant_of (I := fun s => ∀ t, Valid (s.priority t)) hnodup (fun t => ?_)
    fun _ _ _ hn hv hc hs => valid_step hn hv hc.1 hc.2 hs
  exact (by decide : PRI_MIN ≤ PRI_DEFAULT ∧ PRI_DEFAULT ≤ PRI_MAX)

theorem mlfqs_priority_range_nice :
    ∃ s, Reach step (fun s a => Admits a ∧ s.Fits a) (boot 0) s ∧ (s.priority 0 = 60 ∧ ∀ t, Valid (s.priority t)) := by
  have hok : ∀ (s : MlfqsRun) a, decide (Admits a ∧ s.Fits a) = true → Admits a ∧ s.Fits a :=
    fun _ _ => of_decide_eq_true
  obtain ⟨s, h, hp⟩ : ∃ s, Reach step (fun s a => Admits a ∧ s.Fits a) (boot 0) s ∧
      decide (s.priority 0 = 60) = true :=
    exists_of_execIf hok [.threadCreate 2 20, .setNice 0 1, .tick 0 1, .tick 0 1, .tick 2 1, .tick 0 1] rfl
  exact ⟨s, h, of_decide_eq_true hp, (mlfqs_priority_range h).1⟩

/-- The main thread sets its nice value to the least one. -/
theorem mlfqs_priority_too_high :
    ∃ s, Reach step (fun _ a => Admits a) (boot 0) s ∧ s.priority 0 = 103 ∧ ¬ Valid (s.priority 0) := by
  have hok : ∀ (s : MlfqsRun) a, decide (Admits a) = true → Admits a := fun _ _ => of_decide_eq_true
  obtain ⟨s, h, hp⟩ : ∃ s, Reach step (fun _ a => Admits a) (boot 0) s ∧ decide (s.priority 0 = 103) = true :=
    exists_of_execIf hok [.setNice 0 (-20)] rfl
  have hp := of_decide_eq_true hp
  refine ⟨s, h, hp, ?_⟩
  rw [hp]
  exact fun hv => absurd hv.2 (by decide)

/--
**The priorities are up to date** after a tick that is a multiple of four if and only if it ends no second, or every
thread has the same priority before `recent_cpu` decays and afterwards.
-/
theorem mlfqs_up_to_date (h : Reach step Always (boot main) s) (hs : s.step (.tick current ready) = .ok s')
    (h4 : s'.ticks % 4 = 0) : s'.UpToDate ↔ s.KeepsUp s'.ticks current ready := by
  obtain ⟨m, hm, rfl⟩ := step_tick hs
  exact (Mlfqs.FourthTick.of_timerInterrupt (nodup_reach h) hm h4).upToDate_iff

end

/-- A tick of a run, and a check of the state after it. -/
theorem exists_tick {main current : Tid} {ready n : Nat} {check : MlfqsRun → Bool}
    (h : (execIf step (fun _ _ => true) (boot main) (List.replicate n (.tick current ready))).any
      (fun s => (s.step (.tick current ready)).toOption.any check) = true) :
    ∃ s s', Reach step Always (boot main) s ∧ s.step (.tick current ready) = .ok s' ∧ check s' = true := by
  have hok : ∀ (s : MlfqsRun) (a : MlfqsAction), true = true → Always s a := fun _ _ _ => trivial
  obtain ⟨s, hr, hs⟩ := exists_of_execIf hok _ h
  cases hstep : s.step (.tick current ready) with
  | error e =>
    rw [hstep] at hs
    cases hs
  | ok s' =>
    rw [hstep] at hs
    exact ⟨s, s', hr, hstep, hs⟩

theorem mlfqs_up_to_date_fourth :
    ∃ s s', Reach step Always (boot 0) s ∧ s.step (.tick 0 1) = .ok s' ∧ s'.ticks = 4 ∧ s'.UpToDate := by
  obtain ⟨s, s', h, hs, ht⟩ : ∃ s s', Reach step Always (boot 0) s ∧ s.step (.tick 0 1) = .ok s' ∧
      decide (s'.ticks = 4) = true := exists_tick (n := 3) rfl
  have ht := of_decide_eq_true ht
  refine ⟨s, s', h, hs, ht, (mlfqs_up_to_date h hs (by rw [ht])).mpr (Or.inl ?_)⟩
  rw [ht]
  decide

/-- At the end of the first second the main thread has run for all of it. -/
theorem mlfqs_out_of_date :
    ∃ s s', Reach step Always (boot 0) s ∧ s.step (.tick 0 0) = .ok s' ∧ s'.ticks = 100 ∧
      s'.priority 0 = 38 ∧ Mlfqs.calculatedPriority (s'.recentCpu 0) (s'.nice 0) = .ok 62 ∧ ¬ s'.UpToDate := by
  obtain ⟨s, s', h, hs, ht⟩ : ∃ s s', Reach step Always (boot 0) s ∧ s.step (.tick 0 0) = .ok s' ∧
      decide (s'.ticks = 100 ∧ s'.priority 0 = 38 ∧
        Mlfqs.calculatedPriority (s'.recentCpu 0) (s'.nice 0) = .ok 62 ∧
        0 ∈ s'.allList ∧ s'.idleThread ≠ some 0) = true := exists_tick (n := 99) (by decide +kernel)
  obtain ⟨ht, hp, hcalc, hmem, hidle⟩ := of_decide_eq_true ht
  refine ⟨s, s', h, hs, ht, hp, hcalc, fun hup => ?_⟩
  have hnow := hup 0 hmem hidle
  rw [hcalc, hp] at hnow
  exact absurd (Except.ok.inj hnow) (by decide)

end MlfqsRun

end Pintos
