import Pintos.Lib.Machine
import Pintos.Threads.Mlfqs

/-!
# MLFQS arithmetic stays in range

`recent_cpu` grows by one at each tick and decays once a second by a factor that depends on
`load_avg`, which decays too.

* `Bounded R k` — the bounds for at most `R` ready threads, `k` ticks after the last second
* `Bounded.tick` — what each calculation of the timer interrupt keeps of them
* `mlfqs_in_range` — they hold in every run, and nothing overflows
-/

namespace Pintos

open Function Machine FixedPoint Fixed

namespace Mlfqs

/-- `load_avg` and `recent_cpu` in a system of at most `R` threads that run or are ready, `k` ticks
into the second. -/
structure Bounded (R k : Nat) (s : Mlfqs) : Prop where
  load_nonneg : 0 ≤ s.loadAvg
  load_le : s.loadAvg ≤ R * f
  low : ∀ t ∈ s.allList, -(20 * f * (2 * R + 1)) ≤ s.recentCpu t
  high : ∀ t ∈ s.allList, s.recentCpu t ≤ (240 * R + 20 + k) * f
  nice : ∀ t ∈ s.allList, -20 ≤ s.nice t ∧ s.nice t ≤ 20

variable {R k : Nat} {s : Mlfqs} {t current : Tid} {ready : Nat}

theorem inRange31 {x : Int} : InRange 31 x ↔ -2147483648 ≤ x ∧ x < 2147483648 := by
  unfold InRange
  norm_num

theorem inRange63 {x : Int} :
    InRange 63 x ↔ -9223372036854775808 ≤ x ∧ x < 9223372036854775808 := by
  unfold InRange
  norm_num

/-- The limits that hold throughout, in numbers. -/
theorem Bounded.limits (h : Bounded R k s) (hR : R ≤ 500) (hk : k ≤ 100) (ht : t ∈ s.allList) :
    -328007680 ≤ s.recentCpu t ∧ s.recentCpu t ≤ 1968046080 := by
  have hlow := h.low t ht
  have hhigh := h.high t ht
  unfold f at hlow hhigh
  omega

theorem Bounded.load_limit (h : Bounded R k s) (hR : R ≤ 500) :
    0 ≤ s.loadAvg ∧ s.loadAvg ≤ 8192000 := by
  have hnn := h.load_nonneg
  have hle := h.load_le
  unfold f at hle
  omega

theorem addXandn_ok {x n : Int} (hn : InRange 31 (n * f)) (h : InRange 31 (x + n * f)) :
    addXandn x n = .ok (x + n * f) := by
  rw [addXandn, int32_ok hn, ok_bind, int32_ok h]

/-- A quotient by one or more lies between the bounds of what is divided. -/
theorem inRange_tdiv {x y : Int} (h : InRange 31 x) (hy : 0 < y) : InRange 31 (x.tdiv y) := by
  rw [inRange31] at h ⊢
  constructor
  · exact le_tdiv hy (by nlinarith)
  · refine lt_of_le_of_lt (tdiv_le (k := 2147483647) hy ?_) (by decide)
    nlinarith

/-- Half a unit more or less does not leave the range of `convert_xton`. -/
theorem convertXton_ok {x : Int} (hlo : -2147000000 ≤ x) (hhi : x ≤ 2147000000) :
    ∃ p, convertXton x = .ok p := by
  have hhalf : f / 2 = 8192 := by decide
  unfold convertXton
  rw [hhalf]
  split
  · have hx : InRange 31 (x + 8192) := by
      rw [inRange31]
      omega
    rw [int32_ok hx, ok_bind]
    exact ⟨_, quot32_ok (by decide) (inRange_tdiv hx (by decide))⟩
  · have hx : InRange 31 (x - 8192) := by
      rw [inRange31]
      omega
    rw [int32_ok hx, ok_bind]
    exact ⟨_, quot32_ok (by decide) (inRange_tdiv hx (by decide))⟩

/-! ## The calculations -/

theorem Bounded.calculatePriority (h : Bounded R k s) (hR : R ≤ 500) (hk : k ≤ 100)
    (ht : t ∈ s.allList) : ∃ pr, s.calculatePriority t = .ok { s with priority := pr } := by
  obtain ⟨hlow, hhigh⟩ := h.limits hR hk ht
  obtain ⟨hn, hn'⟩ := h.nice t ht
  unfold Mlfqs.calculatePriority
  split
  · exact ⟨s.priority, rfl⟩
  have hneg : (s.recentCpu t).tdiv (-4) = -(s.recentCpu t).tdiv 4 := Int.tdiv_neg _ _
  have hq : -82001920 ≤ (s.recentCpu t).tdiv 4 ∧ (s.recentCpu t).tdiv 4 ≤ 492011520 :=
    ⟨le_tdiv (by decide) (by omega), tdiv_le (by decide) (by omega)⟩
  have hx : divideXbyn (s.recentCpu t) (-4) = .ok (-(s.recentCpu t).tdiv 4) := by
    rw [divideXbyn, quot32_ok (by decide), hneg]
    rw [hneg, inRange31]
    omega
  generalize (s.recentCpu t).tdiv 4 = q at hq hx
  have hm : InRange 31 (s.nice t * 2) := by rw [inRange31]; omega
  have hn63 : InRange 31 (63 - s.nice t * 2) := by rw [inRange31]; omega
  have hy : addXandn (-q) (63 - s.nice t * 2) = .ok (-q + (63 - s.nice t * 2) * f) := by
    unfold f
    refine addXandn_ok ?_ ?_
    · unfold f
      rw [inRange31]
      omega
    · unfold f
      rw [inRange31]
      omega
  obtain ⟨p, hp⟩ := convertXton_ok (x := -q + (63 - s.nice t * 2) * f) (by unfold f; omega)
    (by unfold f; omega)
  rw [hx, ok_bind, int32_ok hm, ok_bind, int32_ok hn63, ok_bind, hy, ok_bind, hp]
  exact ⟨_, rfl⟩

/-- **The running thread** uses one more tick. -/
theorem Bounded.calculateRecentCpu (h : Bounded R k s) (hR : R ≤ 500) (hk : k < 100)
    (ht : current ∈ s.allList) : ∃ rc, s.calculateRecentCpu current = .ok { s with recentCpu := rc } ∧
      Bounded R (k + 1) { s with recentCpu := rc } := by
  have hmono : ∀ u ∈ s.allList, s.recentCpu u ≤ (240 * R + 20 + (k + 1 : Nat)) * f := by
    intro u hu
    have hhigh := h.high u hu
    unfold f at hhigh ⊢
    push_cast
    omega
  unfold Mlfqs.calculateRecentCpu
  split
  · exact ⟨s.recentCpu, rfl, h.load_nonneg, h.load_le, h.low, hmono, h.nice⟩
  · have hlow := h.low current ht
    have hhigh := h.high current ht
    have hadd : addXandn (s.recentCpu current) 1 = .ok (s.recentCpu current + 1 * f) := by
      unfold f at hlow hhigh
      refine addXandn_ok (by decide) ?_
      unfold f
      rw [inRange31]
      omega
    rw [hadd, ok_bind]
    refine ⟨_, rfl, h.load_nonneg, h.load_le, ?_, ?_, h.nice⟩
    · intro u hu
      show -(20 * f * (2 * R + 1)) ≤ update s.recentCpu current _ u
      by_cases huc : u = current
      · rw [huc, update_self]
        unfold f at hlow ⊢
        omega
      · rw [update_of_ne huc]
        exact h.low u hu
    · intro u hu
      show update s.recentCpu current _ u ≤ _
      by_cases huc : u = current
      · rw [huc, update_self]
        unfold f at hhigh ⊢
        push_cast
        omega
      · rw [update_of_ne huc]
        exact hmono u hu

/-- **`load_avg`** stays below the number of threads that are ready. -/
theorem Bounded.calculateLoadAvg (h : Bounded R k s) (hR : R ≤ 500)
    (hready : s.readyThreads current ready ≤ R) :
    ∃ l, s.calculateLoadAvg current ready = .ok { s with loadAvg := l } ∧
      Bounded R k { s with loadAvg := l } := by
  obtain ⟨hnn, hle⟩ := h.load_limit hR
  have hload := h.load_le
  have hcount : int32 (s.readyThreads current ready) = .ok (s.readyThreads current ready : Int) :=
    int32_ok (inRange31.mpr (by omega))
  have hy0 : 0 ≤ (16110 * s.loadAvg).tdiv f := le_tdiv (by decide) (by omega)
  have hyR : (16110 * s.loadAvg).tdiv f ≤ 16110 * R :=
    tdiv_le (by decide) (by unfold f at hload ⊢; omega)
  have hy : multXbyy 16110 s.loadAvg = .ok ((16110 * s.loadAvg).tdiv f) := by
    have h64 : InRange 63 (16110 * s.loadAvg) := by rw [inRange63]; omega
    rw [multXbyy, int64_ok h64, ok_bind, quot32_ok (by decide)]
    rw [inRange31]
    omega
  generalize (16110 * s.loadAvg).tdiv f = y at hy0 hyR hy
  unfold Mlfqs.calculateLoadAvg
  generalize s.readyThreads current ready = n at hready hcount ⊢
  have hw : multXbyn 273 n = .ok (273 * (n : Int)) := int32_ok (inRange31.mpr (by omega))
  have hsum : InRange 31 (y + 273 * (n : Int)) := inRange31.mpr (by omega)
  have hfir : loadFirCo = .ok 16110 := rfl
  have hsec : loadSecCo = .ok 273 := rfl
  rw [hcount, ok_bind, hfir, ok_bind, hy, ok_bind, hsec, ok_bind, hw, ok_bind, int32_ok hsum]
  refine ⟨_, rfl, ?_, ?_, h.low, h.high, h.nice⟩
  · show 0 ≤ y + 273 * (n : Int)
    omega
  · show y + 273 * (n : Int) ≤ R * f
    unfold f
    omega

/-- **`recent_cpu` decays** by the factor `2 * load_avg / (2 * load_avg + 1)`. -/
theorem decayed_ok {l x n : Int} (hR : R ≤ 500) (hl0 : 0 ≤ l) (hl : l ≤ R * f)
    (hlow : -(20 * f * (2 * R + 1)) ≤ x) (hhigh : x ≤ (240 * R + 120) * f) (hn : -20 ≤ n ∧ n ≤ 20) :
    ∃ y, decayed l x n = .ok y ∧ -(20 * f * (2 * R + 1)) ≤ y ∧ y ≤ (240 * R + 20) * f := by
  have hf : (0 : Int) < f := by decide
  have hl2 : l * 2 ≤ (2 * R : Int) * f := by linarith
  have hc0 := factor_nonneg (x := l * 2) (by omega) hf
  have hc1 := factor_le (x := l * 2) (by omega) hf
  have hdecay := decay_le (by omega) hf hl2
  have hlimit : l ≤ 8192000 := by
    unfold f at hl
    omega
  have hx : multXbyn l 2 = .ok (l * 2) := int32_ok (inRange31.mpr (by omega))
  have hone : convertNtox 1 = .ok f := rfl
  have hy : InRange 31 (l * 2 + f) := by
    unfold f
    rw [inRange31]
    omega
  have hc : divideXbyy (l * 2) (l * 2 + f) = .ok ((l * 2 * f).tdiv (l * 2 + f)) := by
    have h64 : InRange 63 (l * 2 * f) := by
      unfold f
      rw [inRange63]
      omega
    rw [divideXbyy, int64_ok h64, ok_bind, quot32_ok (by omega)]
    unfold f at hc0 hc1 ⊢
    rw [inRange31]
    omega
  generalize (l * 2 * f).tdiv (l * 2 + f) = c at hc0 hc1 hdecay hc
  have hz1 := decayed_le (y := x) hf hc0 hdecay (k := 120 * f) (by decide) (by linarith)
  have hz0 := le_decayed (y := x) hf hc0 hdecay (k := 20 * f) (by decide) (by linarith)
  have hz : multXbyy c x = .ok ((c * x).tdiv f) := by
    have h64 : InRange 63 (c * x) := by
      unfold f at hlow hhigh hc1
      have hlo : -328007680 ≤ x := by omega
      have hhi : x ≤ 1968046080 := by omega
      rw [inRange63]
      constructor <;> nlinarith
    rw [multXbyy, int64_ok h64, ok_bind, quot32_ok (by decide)]
    unfold f at hz0 hz1 ⊢
    rw [inRange31]
    omega
  generalize (c * x).tdiv f = z at hz0 hz1 hz
  have hw : convertNtox n = .ok (n * f) := by
    unfold convertNtox f
    exact int32_ok (inRange31.mpr (by omega))
  have hsum : InRange 31 (z + n * f) := by
    unfold f at hz0 hz1 ⊢
    rw [inRange31]
    omega
  unfold decayed
  rw [hx, ok_bind, hone, ok_bind, int32_ok hy, ok_bind, hc, ok_bind, hz, ok_bind, hw, ok_bind,
    int32_ok hsum]
  refine ⟨_, rfl, ?_, ?_⟩
  · unfold f at hz0 ⊢
    omega
  · unfold f at hz1 ⊢
    omega

/-! ## The loops over `all_list` -/

theorem Bounded.recalculatePriorityFrom (hR : R ≤ 500) (hk : k ≤ 100) : ∀ {l : List Tid} {s : Mlfqs},
    Bounded R k s → (∀ t ∈ l, t ∈ s.allList) →
    ∃ pr, s.recalculatePriorityFrom l = .ok { s with priority := pr }
  | [], s, _, _ => ⟨s.priority, rfl⟩
  | t :: l, s, h, hsub => by
    obtain ⟨pr, hpr⟩ := h.calculatePriority hR hk (hsub t List.mem_cons_self)
    have h' : Bounded R k { s with priority := pr } := ⟨h.load_nonneg, h.load_le, h.low, h.high, h.nice⟩
    obtain ⟨pr', hpr'⟩ := Bounded.recalculatePriorityFrom hR hk h'
      fun u hu => hsub u (List.mem_cons_of_mem t hu)
    rw [Mlfqs.recalculatePriorityFrom, hpr, ok_bind, hpr']
    exact ⟨pr', rfl⟩

/-- After the loop the threads of `l` have decayed, and the others are as they were. -/
theorem Bounded.recalculateRecentCpuFrom (hR : R ≤ 500) : ∀ {l : List Tid} {s : Mlfqs},
    Bounded R 100 s → (∀ t ∈ l, t ∈ s.allList) →
    ∃ rc, s.recalculateRecentCpuFrom l = .ok { s with recentCpu := rc } ∧
      Bounded R 100 { s with recentCpu := rc } ∧
      (∀ t ∈ l, rc t ≤ (240 * R + 20) * f) ∧ ∀ t, t ∉ l → rc t = s.recentCpu t
  | [], s, h, _ => ⟨s.recentCpu, rfl, h, fun t ht => absurd ht List.not_mem_nil, fun _ _ => rfl⟩
  | t :: l, s, h, hsub => by
    have ht := hsub t List.mem_cons_self
    obtain ⟨x, hx, hlow, hhigh⟩ := decayed_ok hR h.load_nonneg h.load_le (h.low t ht)
      (by have hh := h.high t ht; push_cast at hh; linarith) (h.nice t ht)
    have h' : Bounded R 100 { s with recentCpu := update s.recentCpu t x } := by
      refine ⟨h.load_nonneg, h.load_le, ?_, ?_, h.nice⟩
      · intro u hu
        show _ ≤ update s.recentCpu t x u
        by_cases hut : u = t
        · rw [hut, update_self]
          exact hlow
        · rw [update_of_ne hut]
          exact h.low u hu
      · intro u hu
        show update s.recentCpu t x u ≤ _
        by_cases hut : u = t
        · rw [hut, update_self]
          unfold f at hhigh ⊢
          push_cast
          omega
        · rw [update_of_ne hut]
          exact h.high u hu
    obtain ⟨rc, hrc, hb, hdone, hrest⟩ := Bounded.recalculateRecentCpuFrom hR h'
      fun u hu => hsub u (List.mem_cons_of_mem t hu)
    rw [Mlfqs.recalculateRecentCpuFrom, hx, ok_bind, hrc]
    refine ⟨rc, rfl, hb, ?_, ?_⟩
    · intro u hu
      by_cases hul : u ∈ l
      · exact hdone u hul
      · have hut : u = t := (List.mem_cons.mp hu).resolve_right hul
        rw [hut] at hul ⊢
        rw [hrest t hul]
        show update s.recentCpu t x t ≤ _
        rw [update_self]
        exact hhigh
    · intro u hu
      rw [List.mem_cons, not_or] at hu
      rw [hrest u hu.2]
      exact update_of_ne hu.1 _ _

/-- **A timer interrupt** keeps the bounds, from one second to the next. -/
theorem Bounded.timerInterrupt {n : Nat} (h : Bounded R k s) (hR : R ≤ 500) (hk : k < 100)
    (hnext : n % 100 ≠ 0 → n % 100 = k + 1) (hlast : n % 100 = 0 → k + 1 = 100)
    (hcur : current ∈ s.allList) (hready : n % 100 = 0 → s.readyThreads current ready ≤ R) :
    ∃ s', s.timerInterrupt n current ready = .ok s' ∧ Bounded R (n % 100) s' := by
  have hne : s.allList ≠ [] := List.ne_nil_of_mem hcur
  obtain ⟨rc, hrc, h₁⟩ := h.calculateRecentCpu hR hk hcur
  by_cases h4 : n % 4 = 0
  · obtain ⟨pr, hpr⟩ := h₁.recalculatePriorityFrom hR hk fun t ht => ht
    have hp : Mlfqs.recalculatePriority { s with recentCpu := rc } =
        .ok { s with recentCpu := rc, priority := pr } := by
      rw [recalculatePriority, if_neg hne, hpr, mapError_ok]
    have h₂ : Bounded R (k + 1) { s with recentCpu := rc, priority := pr } :=
      ⟨h₁.load_nonneg, h₁.load_le, h₁.low, h₁.high, h₁.nice⟩
    by_cases h100 : n % 100 = 0
    · obtain ⟨l, hl, h₃⟩ := h₂.calculateLoadAvg hR (hready h100)
      rw [hlast h100] at h₃
      obtain ⟨rc', hrc', h₄, hdone, -⟩ := h₃.recalculateRecentCpuFrom hR fun t ht => ht
      refine ⟨{ s with loadAvg := l, recentCpu := rc', priority := pr }, ?_, h₄.load_nonneg,
        h₄.load_le, h₄.low, ?_, h₄.nice⟩
      · rw [timerInterrupt_second hrc h4 hp h100 hl, recalculateRecentCpu, if_neg hne, hrc', mapError_ok]
      · intro t ht
        rw [h100, Nat.cast_zero, add_zero]
        exact hdone t ht
    · rw [hnext h100]
      exact ⟨_, timerInterrupt_fourth hrc h4 hp h100, h₂⟩
  · rw [hnext (by omega)]
    exact ⟨_, timerInterrupt_tick hrc h4, h₁⟩

end Mlfqs

/-! ## Runs -/

/-- At most `R` threads beside `idle` run or are ready at each second, and nice values are those the
scheduler is made for. -/
def MlfqsRun.Within (R : Nat) (s : MlfqsRun) : MlfqsAction → Prop
  | .tick current ready => (s.ticks + 1) % TIMER_FREQ = 0 → s.readyThreads current ready ≤ R
  | .setNice _ nice => -20 ≤ nice ∧ nice ≤ 20
  | _ => True

/-- The bounds, at the tick that was the last. -/
def MlfqsRun.Ok (R : Nat) (s : MlfqsRun) : Prop := Mlfqs.Bounded R (s.ticks % 100) s.toMlfqs

variable {R : Nat} {s s' : MlfqsRun} {a : MlfqsAction}

/-- The result of `thread_set_nice`. -/
theorem MlfqsRun.Ok.setNice {t : Tid} {nice : Int} (h : s.Ok R) (hR : R ≤ 500) (ht : t ∈ s.allList)
    (hn : -20 ≤ nice ∧ nice ≤ 20) : ∃ pr,
    Mlfqs.calculatePriority { s.toMlfqs with nice := update s.nice t nice } t =
      .ok { s.toMlfqs with nice := update s.nice t nice, priority := pr } ∧
    Mlfqs.Bounded R (s.ticks % 100) { s.toMlfqs with nice := update s.nice t nice, priority := pr } := by
  have hnice : ∀ u ∈ s.allList, -20 ≤ update s.nice t nice u ∧ update s.nice t nice u ≤ 20 := by
    intro u hu
    by_cases hut : u = t
    · rw [hut, update_self]
      exact hn
    · rw [update_of_ne hut]
      exact h.nice u hu
  have hb : Mlfqs.Bounded R (s.ticks % 100) { s.toMlfqs with nice := update s.nice t nice } :=
    ⟨h.load_nonneg, h.load_le, h.low, h.high, hnice⟩
  obtain ⟨pr, hpr⟩ := hb.calculatePriority hR (Nat.mod_lt _ (by decide)).le ht
  exact ⟨pr, hpr, h.load_nonneg, h.load_le, h.low, h.high, hnice⟩

/-- **No step fails** but those that are not possible, and each keeps the bounds. -/
theorem MlfqsRun.Ok.step (h : s.Ok R) (hR : R ≤ 500) (hc : s.Within R a) :
    s.step a = .error .disabled ∨ ∃ s', s.step a = .ok s' ∧ s'.Ok R := by
  cases a with
  | tick current ready =>
    dsimp only [MlfqsRun.step]
    split
    · exact Or.inl rfl
    next hcur =>
    obtain ⟨m, hm, hb⟩ := Mlfqs.Bounded.timerInterrupt h hR (Nat.mod_lt _ (by decide))
      (n := s.ticks + 1) (by omega) (by omega) (not_not.mp hcur) hc
    rw [hm]
    exact Or.inr ⟨_, rfl, hb⟩
  | setNice current nice =>
    dsimp only [MlfqsRun.step]
    split
    · exact Or.inl rfl
    next hcur =>
    obtain ⟨pr, hpr, hb⟩ := h.setNice hR (not_not.mp hcur) hc
    rw [hpr]
    exact Or.inr ⟨_, rfl, hb⟩
  | threadCreate t priority =>
    dsimp only [MlfqsRun.step]
    split
    · exact Or.inl rfl
    refine Or.inr ⟨_, rfl, h.load_nonneg, h.load_le, ?_, ?_, ?_⟩
    all_goals
      intro u hu
      have hu' : u ∈ s.allList ∨ u = t := by simpa [Mlfqs.initThread, MlfqsRun.setMlfqs] using hu
      by_cases hut : u = t
    · show _ ≤ update s.recentCpu t 0 u
      rw [hut, update_self]
      unfold Fixed.f
      omega
    · show _ ≤ update s.recentCpu t 0 u
      rw [update_of_ne hut]
      exact h.low u (hu'.resolve_right hut)
    · show update s.recentCpu t 0 u ≤ _
      rw [hut, update_self]
      unfold Fixed.f
      positivity
    · show update s.recentCpu t 0 u ≤ _
      rw [update_of_ne hut]
      exact h.high u (hu'.resolve_right hut)
    · show -20 ≤ update s.nice t 0 u ∧ update s.nice t 0 u ≤ 20
      rw [hut, update_self]
      decide
    · show -20 ≤ update s.nice t 0 u ∧ update s.nice t 0 u ≤ 20
      rw [update_of_ne hut]
      exact h.nice u (hu'.resolve_right hut)
  | threadExit t =>
    dsimp only [MlfqsRun.step]
    split
    · exact Or.inl rfl
    have hsub : ∀ u ∈ s.allList.erase t, u ∈ s.allList := fun u hu => List.mem_of_mem_erase hu
    exact Or.inr ⟨_, rfl, h.load_nonneg, h.load_le, fun u hu => h.low u (hsub u hu),
      fun u hu => h.high u (hsub u hu), fun u hu => h.nice u (hsub u hu)⟩
  | idleStart t =>
    dsimp only [MlfqsRun.step]
    split
    · exact Or.inl rfl
    exact Or.inr ⟨_, rfl, h.load_nonneg, h.load_le, h.low, h.high, h.nice⟩

/--
**MLFQS arithmetic stays in range**, in every run in which at most `R` threads run or are ready at each
second and nice values lie in [-20, 20]: `load_avg` and `recent_cpu` stay within their bounds, no step
overflows, and the divisor of the decay is positive.
-/
theorem mlfqs_in_range {main : Tid} (hR : R ≤ 500)
    (h : Reach MlfqsRun.step (MlfqsRun.Within R) (MlfqsRun.boot main) s) :
    0 ≤ s.loadAvg ∧ s.loadAvg ≤ R * 2 ^ 14 ∧
    (∀ t ∈ s.allList, -20 * (2 * R + 1) * 2 ^ 14 ≤ s.recentCpu t ∧
      s.recentCpu t ≤ (240 * R + 120) * 2 ^ 14) ∧
    (∀ a, s.Within R a → ∀ e, s.step a = .error e → e = .disabled) ∧
    0 < 2 * s.loadAvg + 2 ^ 14 := by
  have hboot : (MlfqsRun.boot main).Ok R := by
    refine ⟨le_refl 0, ?_, fun t _ => ?_, fun t _ => ?_, fun t _ => ?_⟩
    · show 0 ≤ (R : Int) * Fixed.f
      unfold Fixed.f
      positivity
    · show _ ≤ (0 : Int)
      unfold Fixed.f
      omega
    · show (0 : Int) ≤ _
      unfold Fixed.f
      positivity
    · show -20 ≤ (0 : Int) ∧ (0 : Int) ≤ 20
      decide
  have hok : s.Ok R := by
    refine h.invariant hboot fun u a u' hi hc hs => ?_
    rcases hi.step hR hc with he | ⟨v, hv, hb⟩
    · rw [he] at hs
      cases hs
    · rw [hv] at hs
      cases hs
      exact hb
  have hload := hok.load_le
  have hnn := hok.load_nonneg
  unfold Fixed.f at hload
  refine ⟨hnn, by omega, fun t ht => ?_, ?_, by omega⟩
  · have hlow := hok.low t ht
    have hhigh := hok.high t ht
    unfold Fixed.f at hlow hhigh
    have hlt : s.ticks % 100 < 100 := Nat.mod_lt _ (by decide)
    omega
  · intro a hc e he
    rcases hok.step hR hc with hd | ⟨v, hv, -⟩
    · rw [hd] at he
      cases he
      rfl
    · rw [hv] at he
      cases he

instance (R : Nat) (s : MlfqsRun) : (a : MlfqsAction) → Decidable (s.Within R a)
  | .tick current ready =>
    inferInstanceAs (Decidable ((s.ticks + 1) % TIMER_FREQ = 0 → s.readyThreads current ready ≤ R))
  | .setNice _ nice => inferInstanceAs (Decidable (-20 ≤ nice ∧ nice ≤ 20))
  | .threadCreate .. => inferInstanceAs (Decidable True)
  | .threadExit _ => inferInstanceAs (Decidable True)
  | .idleStart _ => inferInstanceAs (Decidable True)

/-- One thread that is as nice as it can be runs for a second. -/
theorem mlfqs_in_range_second : ∃ s : MlfqsRun, s.ticks = 100 ∧ s.loadAvg = 273 ∧
    s.recentCpu 0 = 380480 ∧ s.loadAvg ≤ (1 : Nat) * 2 ^ 14 := by
  have hrun : (execIf MlfqsRun.step (fun s a => decide (s.Within 1 a)) (MlfqsRun.boot 0)
      (.setNice 0 20 :: List.replicate 100 (.tick 0 0))).any
      (fun s => decide (s.ticks = 100 ∧ s.loadAvg = 273 ∧ s.recentCpu 0 = 380480)) = true := by
    decide +kernel
  obtain ⟨s, hs, hcheck⟩ := exists_of_execIf (C := MlfqsRun.Within 1) (fun s a h => of_decide_eq_true h) _ hrun
  obtain ⟨ht, hl, hc⟩ := of_decide_eq_true hcheck
  exact ⟨s, ht, hl, hc, (mlfqs_in_range (by decide) hs).2.1⟩

end Pintos
