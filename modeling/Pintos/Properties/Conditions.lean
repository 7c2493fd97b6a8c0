import Pintos.Properties.CondWaiters

/-!
# Condition variables

* `Monitor.Inv.step` — every step that meets `Fine` keeps the invariant of the waiters
* `condition_variables` — **one waiter is woken by each signal, and all by a broadcast**
-/

namespace Pintos.Interleave

open Function Machine

/-! ## Steps of the functions below -/

section

variable {lockOf : CondId → LockId} {v : SemaId → BitVec 32} {m m' : Monitor} {slot : Tid → Slot} {t u w : Tid}
  {c : CondId} {p : CondPc} {sys : Sys} {s : SemaId} {l : Option LockId} {a : Action}

theorem Stmt.eq_semaDown {m m' : Sys} (h : Stmt m t m') (hpc : m.pc t = .downWait s l) : m' = m.semaDown t s l := by
  cases h with
  | downWait hpc' =>
    rw [hpc] at hpc'
    cases hpc'
    rfl
  | setHolder hpc' => rcases hpc' with hpc' | hpc' <;> rw [hpc] at hpc' <;> cases hpc'
  | _ hpc' => rw [hpc] at hpc'; cases hpc'

theorem Stmt.not_user {m m' : Sys} (h : Stmt m t m') : m.pc t ≠ .user := by
  intro hpc
  cases h with
  | setHolder hpc' => rcases hpc' with hpc' | hpc' <;> rw [hpc] at hpc' <;> cases hpc'
  | _ hpc' => rw [hpc] at hpc'; cases hpc'

/-- No thread moves. -/
theorem Monitor.Inv.still (h : m.Inv lockOf v slot) (hsema : SemaInv v sys) (hlock : LockInv sys)
    (hpc : sys.pc = m.sys.pc) (hheld : sys.held = m.sys.held)
    (hs : ∀ n, sys.sema (.plain (2 * n)) = m.sys.sema (.plain (2 * n))) : Inv lockOf v { m with sys := sys } slot where
  sema := hsema
  lock := hlock
  control t := by
    rw [hpc, hheld]
    exact h.control t
  slots :=
    { h.slots with
      value := fun t => by rw [hs]; exact h.slots.value t
      waits := fun t => by rw [hpc]; exact h.slots.waits t }
  count := h.count
  wakes := h.wakes

/-- A thread goes on in a function below. -/
theorem Monitor.Inv.below (h : m.Inv lockOf v slot) (hsema : SemaInv v sys) (hlock : LockInv sys)
    (hap : Apart m.sys sys t) (hcontrol : ControlAt lockOf t (sys.pc t) (sys.held t) (m.pc t))
    (hq : ∀ c, m.pc t ≠ .waitAcquire c) : Inv lockOf v { m with sys := sys } slot := by
  have hwaits : (m.pc t).waitsFor (sys.pc t) = (m.pc t).waitsFor (m.sys.pc t) := by
    cases hp : m.pc t with
    | waitAcquire c => exact absurd hp (hq c)
    | _ => rfl
  have hgoes := h.goes (p := m.pc t) hsema hlock hap hcontrol (by rw [hwaits, h.slots.waits]) (fun _ _ _ => Iff.rfl)
    (h.count t) (h.wakes t)
  rwa [Monitor.setPc, update_eq_self] at hgoes

/-- The next statement of a thread in a function below. -/
theorem Monitor.Inv.stmt (h : m.Inv lockOf v slot) (hs : Interleave.step m.sys (.step t) = .ok sys) :
    ∃ slot', Inv lockOf v { m with sys := sys } slot' := by
  have hsema := h.sema.of_step hs
  have hlock := h.lock.of_step hs
  have hstmt := (stepThread_cases hs).2
  have huser := hstmt.not_user
  have hcontrol := h.control t
  by_cases hdown : (m.sys.pc t).InWaiterDown
  · -- asleep on its own semaphore, or woken
    obtain ⟨hpc, c, hp⟩ := hcontrol.of_down hdown
    have hsys := hstmt.eq_semaDown hpc
    subst hsys
    obtain ⟨slot', hinv⟩ := h.down (.inr ⟨hp, hpc⟩) hsema hlock
    rw [Monitor.setPc, ← hp, update_eq_self] at hinv
    exact ⟨slot', hinv⟩
  · have hap : Apart m.sys sys t := by
      rcases hstmt.apart (h.lock.pc.caller t) with hap | ⟨n, hpc, -⟩
      · exact hap
      · exact absurd ⟨n, none, hpc⟩ hdown
    refine ⟨slot, h.below hsema hlock hap ?_ fun c hp => ?_⟩
    · cases hp : m.pc t with
      | out => exact fun hd => hdown (hap.down hd)
      | waitDown c => exact fun hd => hdown (hap.down hd)
      | waitAcquire c =>
        rw [hp] at hcontrol
        rcases hcontrol with hq | hq
        · exact absurd hq huser
        · exact absurd ⟨t, none, hq⟩ hdown
      | waitReturn c =>
        rw [hp] at hcontrol
        rcases hcontrol with hq | hq
        · exact hstmt.acquires hq
        · exact absurd hq.1 huser
      | _ =>
        rw [hp] at hcontrol
        exact absurd hcontrol.1 huser
    · rw [hp] at hcontrol
      rcases hcontrol with hq | hq
      · exact huser hq
      · exact hdown ⟨t, none, hq⟩

theorem Monitor.outside_pc (ho : m.outside a = true) (ha : ∀ u, a ≠ .step u) (ht : ∀ u d q, a ≠ .tear u d q) :
    a.Other ∧ ∀ u, a.actor = some u → m.pc u = .out := by
  cases a with
  | step u => exact absurd rfl (ha u)
  | tear u d q => exact absurd rfl (ht u d q)
  | intrTryDown n | intrUp n => exact ⟨of_decide_eq_true (p := n % 2 = 1) ho, nofun⟩
  | lockAcquire u k | lockTryAcquire u k | lockRelease u k | setPriority u q =>
    refine ⟨trivial, fun w hw => ?_⟩
    cases hw
    exact of_decide_eq_true ho
  | semaDown u n | semaTryDown u n | semaUp u n =>
    rw [Monitor.outside, Bool.and_eq_true] at ho
    refine ⟨of_decide_eq_true (p := n % 2 = 1) ho.2, fun w hw => ?_⟩
    cases hw
    exact of_decide_eq_true ho.1

/-- A step outside the functions of conditions, or inside a call. -/
theorem Monitor.Inv.outside (h : m.Inv lockOf v slot) (ho : m.outside a = true) (hs : Interleave.step m.sys a = .ok sys) :
    ∃ slot', Inv lockOf v { m with sys := sys } slot' := by
  have hsema := h.sema.of_step hs
  have hlock := h.lock.of_step hs
  by_cases ha : ∃ u, a = .step u
  · obtain ⟨u, rfl⟩ := ha
    exact h.stmt hs
  by_cases ht : ∃ u d q, a = .tear u d q
  · obtain ⟨u, d, q, rfl⟩ := ht
    simp only [Interleave.step] at hs
    split at hs
    · cases hs
      exact ⟨slot, h.still hsema hlock rfl rfl fun _ => rfl⟩
    · cases hs
  obtain ⟨hother, hout⟩ := Monitor.outside_pc ho (fun u hu => ha ⟨u, hu⟩) fun u d q hu => ht ⟨u, d, q, hu⟩
  cases hactor : a.actor with
  | some t =>
    have hap := apart_call hs hother (t := t) fun u hu => by
      rw [hactor] at hu
      exact (Option.some.inj hu).symm
    have hp := hout t hactor
    have hcontrol := h.control t
    rw [hp] at hcontrol
    refine ⟨slot, h.below hsema hlock hap ?_ fun c hc => ?_⟩
    · rw [hp]
      exact fun hd => hcontrol (hap.down hd)
    · rw [hp] at hc
      cases hc
  | none =>
    have hap := fun t => apart_call hs hother (t := t) fun u hu => by rw [hactor] at hu; cases hu
    refine ⟨slot, h.still hsema hlock ?_ ?_ (hap 0).sema⟩
    · funext u
      exact (hap (u + 1)).pc u (Nat.succ_ne_self u).symm
    · funext u
      exact (hap (u + 1)).held u (Nat.succ_ne_self u).symm

end

/-! ## The statements of the functions of conditions -/

/-- `list_sort` passes its own assertion, whatever it is compared with. -/
def Sorting.ends (l : List Tid) : Sorting → Bool
  | .stable _ => true
  | .torn outcome => outcome.any fun l' => l'.isPerm l

/-- `cond_signal` is called while a thread waits, and `list_sort` ends. -/
def Monitor.fine (m : Monitor) : CondAction → Bool
  | .signal _ c => m.waiters c ≠ []
  | .sort t sorting =>
    match m.pc t with
    | .sort c _ => sorting.ends (m.waiters c)
    | _ => true
  | _ => true

def Fine (m : Monitor) (a : CondAction) : Prop := m.fine a = true

theorem Fine.signal {m : Monitor} {t : Tid} {c : CondId} (h : Fine m (.signal t c)) : m.waiters c ≠ [] :=
  of_decide_eq_true h

theorem sortWaiters_perm {sorting : Sorting} {l l' : List Tid} (h : sortWaiters sorting l = some l') : l'.Perm l := by
  cases sorting with
  | stable key =>
    cases h
    exact listSort_perm _ _
  | torn outcome => exact List.isPerm_iff.mp (Option.filter_eq_some_iff.mp h).2

theorem Sorting.exists_of_ends {sorting : Sorting} {l : List Tid} (h : sorting.ends l = true) :
    ∃ l', sortWaiters sorting l = some l' := by
  cases sorting with
  | stable key => exact ⟨_, rfl⟩
  | torn outcome =>
    cases outcome with
    | none => cases h
    | some l' =>
      refine ⟨l', ?_⟩
      rw [sortWaiters, Option.filter_eq_some_iff]
      exact ⟨rfl, h⟩

section

variable {lockOf : CondId → LockId} {v : SemaId → BitVec 32} {m m' : Monitor} {slot : Tid → Slot} {t u w : Tid}
  {c : CondId} {p : CondPc} {sys : Sys} {s : SemaId} {l : Option LockId} {b : Bool} {f : CondFault} {a : CondAction}

theorem Monitor.enter_ok (h : m.enter lockOf t c p = .ok m') :
    canCall m.sys t = true ∧ m.pc t = .out ∧ m.sys.held t (lockOf c) = true ∧ m' = (m.record t c).setPc t p := by
  unfold Monitor.enter at h
  split at h
  · next hc =>
    cases h
    simp only [Bool.and_eq_true, decide_eq_true_eq] at hc
    exact ⟨hc.1.1, hc.1.2, hc.2, rfl⟩
  · cases h

/-- A function of conditions is called. -/
theorem Monitor.Inv.enter (h : m.Inv lockOf v slot) (he : m.enter lockOf t c p = .ok m') (hp : p.holds = some c)
    (hwaits : p.waitsFor (m.sys.pc t) = none) (hup : ∀ c w b, p ≠ .up c w b)
    (hcount : CountAt m.signals (m.waiters c, m.signals c) t .idle p)
    (hwakes : WakesAt m.waiters m.signals (m.waiters c, m.signals c) p) : Inv lockOf v m' slot := by
  obtain ⟨hcan, hout, hheld, rfl⟩ := Monitor.enter_ok he
  have hslot : slot t = .idle := h.slot_idle (by rw [hout]; rfl)
  refine h.move h.sema h.lock (.refl m.sys t) (.of_user (canCall_iff.mp hcan).1 hheld hp) ?_ (fun c' w b => ?_) ?_ hwakes
  · rw [hslot]
    exact hwaits.symm
  · rw [hout]
    exact ⟨nofun, fun he => absurd he (hup c' w b)⟩
  · rwa [hslot]

/-- What a call that has just begun has done. -/
theorem Monitor.Inv.woke_nil (h : m.Inv lockOf v slot) : Woke (m.waiters c, m.signals c) (m.signals c) [] (m.waiters c) :=
  ⟨h.slots.nodup c, .refl _, fun _ => rfl⟩

theorem Monitor.Inv.wait (h : m.Inv lockOf v slot) (hs : m.step lockOf (.wait t c) = .ok m') : m'.Inv lockOf v slot := by
  simp only [Monitor.step] at hs
  split at hs
  · cases hs
  · next m₁ he =>
    split at hs
    · cases hs
      have hinv := h.enter he rfl rfl (fun _ _ _ => nofun) rfl trivial
      obtain ⟨hcan, hout, -, rfl⟩ := Monitor.enter_ok he
      have hidle := h.sema_idle (h.slot_idle (t := t) (by rw [hout]; rfl)) (by rw [(canCall_iff.mp hcan).1]; nofun)
      have hkeep : m.sys.setSema (.plain (waiterSema t)) (semaInit 0) = m.sys := by
        rw [← hidle, Sys.setSema, update_eq_self]
      rw [hkeep]
      exact hinv
    · cases hs

theorem Monitor.Inv.signal (h : m.Inv lockOf v slot) (hne : m.waiters c ≠ [])
    (hs : m.step lockOf (.signal t c) = .ok m') : m'.Inv lockOf v slot :=
  h.enter hs rfl rfl (fun _ _ _ => nofun) trivial
    ⟨hne, [], fun _ => rfl, h.woke_nil⟩

theorem Monitor.Inv.broadcast (h : m.Inv lockOf v slot) (hs : m.step lockOf (.broadcast t c) = .ok m') :
    m'.Inv lockOf v slot :=
  h.enter hs rfl rfl (fun _ _ _ => nofun) trivial
    ⟨[], h.woke_nil⟩

/-- The next statement of a thread in a function of conditions. -/
theorem Monitor.Inv.next (h : m.Inv lockOf v slot) (hcan : canCall m.sys t = true) (hs : m.next lockOf t = .ok m') :
    ∃ slot', m'.Inv lockOf v slot' := by
  have huser : m.sys.pc t = .user := (canCall_iff.mp hcan).1
  have hnotDown : ¬ (m.sys.pc t).InWaiterDown := by
    rw [huser]
    rintro ⟨_, _, ⟨⟩⟩
  have hcontrol := h.control t
  have hslots := h.slots.waits t
  have hcount := h.count t
  have hwakes := h.wakes t
  cases hp : m.pc t with
  | out | waitInsert | sort => simp only [Monitor.next, hp] at hs; cases hs
  | waitRelease c =>
    simp only [Monitor.next, hp, Monitor.call] at hs
    split at hs
    · next sys hsys =>
      cases hs
      have hap := apart_call hsys (t := t) trivial fun u hu => (Option.some.inj hu).symm
      rw [hp] at hslots hcount
      exact ⟨slot, h.goes (h.sema.of_step hsys) (h.lock.of_step hsys) hap (fun hd => hnotDown (hap.down hd)) hslots
        (by rw [hp]; exact fun _ _ _ => ⟨by rintro ⟨⟩, by rintro ⟨⟩⟩) hcount trivial⟩
    · cases hs
  | waitDown c =>
    simp only [Monitor.next, hp, Monitor.call] at hs
    split at hs
    · next sys hsys =>
      cases hs
      have hdown : sys = m.sys.semaDown t (.plain (2 * t)) none := by
        have hsys' := hsys
        simp only [Interleave.step, hcan, if_true] at hsys'
        exact (Except.ok.inj hsys').symm
      subst hdown
      exact h.down (.inl hp) (h.sema.of_step hsys) (h.lock.of_step hsys)
    · cases hs
  | waitAcquire c =>
    simp only [Monitor.next, hp, Monitor.call] at hs
    split at hs
    · next sys hsys =>
      cases hs
      have hap := apart_call hsys (t := t) trivial fun u hu => (Option.some.inj hu).symm
      have hacq : (sys.pc t).Acquires (lockOf c) := by
        simp only [Interleave.step, hcan, if_true] at hsys
        cases hsys
        show (update m.sys.pc t _ t).Acquires (lockOf c)
        rw [update_self]
        split <;> rfl
      rw [hp, huser] at hslots
      rw [hp] at hcount
      exact ⟨slot, h.goes (h.sema.of_step hsys) (h.lock.of_step hsys) hap (.inl hacq) hslots
        (by rw [hp]; exact fun _ _ _ => ⟨by rintro ⟨⟩, by rintro ⟨⟩⟩) hcount trivial⟩
    · cases hs
  | waitReturn c =>
    simp only [Monitor.next, hp] at hs
    cases hs
    rw [hp] at hslots
    exact ⟨slot, h.setPc hnotDown hslots (by rw [hp]; exact fun _ _ _ => ⟨by rintro ⟨⟩, by rintro ⟨⟩⟩) trivial trivial⟩
  | signalReturn c =>
    simp only [Monitor.next, hp] at hs
    cases hs
    rw [hp] at hslots
    exact ⟨slot, h.setPc hnotDown hslots (by rw [hp]; exact fun _ _ _ => ⟨by rintro ⟨⟩, by rintro ⟨⟩⟩) trivial trivial⟩
  | broadcastReturn c =>
    simp only [Monitor.next, hp] at hs
    cases hs
    rw [hp] at hslots
    exact ⟨slot, h.setPc hnotDown hslots (by rw [hp]; exact fun _ _ _ => ⟨by rintro ⟨⟩, by rintro ⟨⟩⟩) trivial trivial⟩
  | broadcast c =>
    simp only [Monitor.next, hp] at hs
    cases hs
    have hheld := (hcontrol.of_holds (c := c) (by rw [hp]; rfl)).2
    rw [hp] at hslots hwakes
    obtain ⟨done, hwoke⟩ := hwakes
    split
    · next hnil =>
      rw [hnil] at hwoke
      exact ⟨slot, h.setPc (.of_user huser hheld rfl) hslots (by rw [hp]; exact fun _ _ _ => ⟨by rintro ⟨⟩, by rintro ⟨⟩⟩) trivial
        ⟨hnil, done, hwoke⟩⟩
    · next hne =>
      exact ⟨slot, h.setPc (.of_user huser hheld rfl) hslots (by rw [hp]; exact fun _ _ _ => ⟨by rintro ⟨⟩, by rintro ⟨⟩⟩) trivial
        ⟨hne, done, by rintro ⟨⟩, hwoke⟩⟩
  | signal c b =>
    simp only [Monitor.next, hp] at hs
    have hheld := (hcontrol.of_holds (c := c) (by rw [hp]; rfl)).2
    rw [hp] at hslots hwakes
    split at hs
    · cases hs
      rw [if_neg hwakes.1]
      exact ⟨slot, h.setPc (.of_user huser hheld rfl) hslots (by rw [hp]; exact fun _ _ _ => ⟨by rintro ⟨⟩, by rintro ⟨⟩⟩) trivial hwakes⟩
    · cases hs
  | pop c b =>
    simp only [Monitor.next, hp] at hs
    split at hs
    · cases hs
    · next w rest hl =>
      cases hs
      exact ⟨_, h.pop hp hl⟩
  | up c w b =>
    simp only [Monitor.next, hp] at hs
    split at hs
    · next sys hsys =>
      cases hs
      exact ⟨_, h.up hp hcan hsys⟩
    · cases hs

/-- **Every step that meets the condition keeps the invariant.** -/
theorem Monitor.Inv.step (h : m.Inv lockOf v slot) (hf : Fine m a) (hs : m.step lockOf a = .ok m') :
    ∃ slot', m'.Inv lockOf v slot' := by
  cases a with
  | sys a =>
    simp only [Monitor.step] at hs
    split at hs
    · next ho =>
      split at hs
      · next sys hsys =>
        cases hs
        exact h.outside ho hsys
      · cases hs
    · cases hs
  | wait t c => exact ⟨slot, h.wait hs⟩
  | signal t c => exact ⟨slot, h.signal hf.signal hs⟩
  | broadcast t c => exact ⟨slot, h.broadcast hs⟩
  | insert t before =>
    simp only [Monitor.step] at hs
    split at hs
    · next c hp =>
      split at hs
      · cases hs
        exact ⟨_, h.insert hp before⟩
      · cases hs
    · cases hs
  | sort t sorting =>
    simp only [Monitor.step] at hs
    split at hs
    · next c b hp =>
      split at hs
      · split at hs
        · next l hl =>
          cases hs
          exact ⟨slot, h.sort hp (sortWaiters_perm hl)⟩
        · cases hs
      · cases hs
    · cases hs
  | next t =>
    simp only [Monitor.step] at hs
    split at hs
    · next hcan => exact h.next hcan hs
    · cases hs

theorem LockInv.holder_of_held {sys : Sys} {l : LockId} (h : LockInv sys) (hh : sys.held t l = true) :
    sys.holder l = some t := ((h.permit l).holder t).mpr (phase_of_held h.pc hh)

/-- No statement fails. -/
theorem Monitor.Inv.next_error (h : m.Inv lockOf v slot) (hcan : canCall m.sys t = true)
    (he : m.next lockOf t = .error f) : f = .sys .disabled := by
  have hcontrol := h.control t
  have hwakes := h.wakes t
  cases hp : m.pc t with
  | out | waitInsert | sort =>
    simp only [Monitor.next, hp] at he
    cases he
    rfl
  | waitReturn | signalReturn | broadcastReturn | broadcast =>
    simp only [Monitor.next, hp] at he
    cases he
  | waitRelease c =>
    have hheld := (hcontrol.of_holds (c := c) (by rw [hp]; rfl)).2
    simp only [Monitor.next, hp, Monitor.call, Interleave.step, hcan, hheld, Bool.and_self, if_true] at he
    cases he
  | waitDown c =>
    simp only [Monitor.next, hp, Monitor.call, Interleave.step, hcan, if_true] at he
    cases he
  | waitAcquire c =>
    simp only [Monitor.next, hp, Monitor.call, Interleave.step, hcan, if_true] at he
    cases he
  | signal c b =>
    have hheld := (hcontrol.of_holds (c := c) (by rw [hp]; rfl)).2
    simp only [Monitor.next, hp, h.lock.holder_of_held hheld, if_true] at he
    cases he
  | pop c b =>
    rw [hp] at hwakes
    simp only [Monitor.next, hp] at he
    split at he
    · next hl => exact absurd hl hwakes.1
    · cases he
  | up c w b =>
    obtain ⟨sys, hsys⟩ := h.sema.exists_semaUp (.plain (waiterSema w))
    simp only [Monitor.next, hp, Interleave.step, hcan, if_true, hsys] at he
    cases he

theorem Monitor.enter_error (he : m.enter lockOf t c p = .error f) : f = .sys .disabled := by
  unfold Monitor.enter at he
  split at he
  · cases he
  · cases he
    rfl

/-- No step of the functions of conditions fails. -/
theorem Monitor.Inv.step_error (h : m.Inv lockOf v slot) (hf : Fine m a) (he : m.step lockOf a = .error f) :
    f = .sys .disabled ∨ ∃ a', a = .sys a' := by
  cases a with
  | sys a' => exact .inr ⟨a', rfl⟩
  | wait t c =>
    simp only [Monitor.step] at he
    split at he
    · next hen =>
      cases he
      exact .inl (Monitor.enter_error hen)
    · next hen =>
      rw [if_pos (h.lock.holder_of_held (Monitor.enter_ok hen).2.2.1)] at he
      cases he
  | signal t c => exact .inl (Monitor.enter_error he)
  | broadcast t c => exact .inl (Monitor.enter_error he)
  | insert t before =>
    simp only [Monitor.step] at he
    split at he
    · split at he
      · cases he
      · cases he
        exact .inl rfl
    · cases he
      exact .inl rfl
  | sort t sorting =>
    simp only [Monitor.step] at he
    split at he
    · next c b hp =>
      have hends : sorting.ends (m.waiters c) = true := by
        simp only [Fine, Monitor.fine, hp] at hf
        exact hf
      obtain ⟨l, hl⟩ := Sorting.exists_of_ends hends
      rw [hl] at he
      split at he
      · cases he
      · cases he
        exact .inl rfl
    · cases he
      exact .inl rfl
  | next t =>
    simp only [Monitor.step] at he
    split at he
    · next hcan => exact .inl (h.next_error hcan he)
    · cases he
      exact .inl rfl

/-- A waiter that sleeps has had no signal. -/
theorem Monitor.Inv.asleep (h : m.Inv lockOf v slot) (hp : m.pc t = .waitAcquire c) (hb : m.sys.blocked t = true) :
    m.signals c t = (m.called t).2 t := by
  obtain ⟨s, hs⟩ := h.sema.asleep t hb
  obtain ⟨-, l, hpc⟩ := h.sema.waiter s t hs
  have hcontrol := h.control t
  rw [hp] at hcontrol
  have hown : m.sys.pc t = .downWait (.plain (2 * t)) none := hcontrol.resolve_left (by rw [hpc]; nofun)
  obtain rfl : SemaId.plain (2 * t) = s := (Pc.downWait.inj (hown.symm.trans hpc)).1
  have hwaits := h.slots.waits t
  have hcount := h.count t
  rw [hp] at hwaits hcount
  rw [hown] at hwaits
  cases hx : slot t with
  | queued c' | popped c' s =>
    rw [hx] at hcount
    exact Nat.succ.inj hcount
  | idle =>
    rw [hx] at hwaits
    cases hwaits
  | signalled c' =>
    -- the permit is for a thread that was woken, and only this one can be
    have hvalue : (m.sys.sema (.plain (2 * t))).value = 1 := by
      rw [h.slots.value, hx]
      rfl
    have hwoken := h.sema.woken _ (List.ne_nil_of_mem hs)
    have hnone : {u | Woken m.sys (.plain (2 * t)) u} = ∅ := by
      rw [Set.eq_empty_iff_forall_notMem]
      rintro u ⟨hub, l', hu⟩
      have hown' := ((h.control u).of_down ⟨t, l', hu⟩).1
      rw [hu] at hown'
      have hn : 2 * t = 2 * u := SemaId.plain.inj (Pc.downWait.inj hown').1
      obtain rfl : t = u := Nat.eq_of_mul_eq_mul_left (by decide) hn
      rw [hb] at hub
      cases hub
    rw [hnone, Set.encard_empty, hvalue] at hwoken
    exact absurd hwoken (by decide)

/-- Every signal of a thread is one that it waits for. -/
theorem Monitor.Inv.waiting (h : m.Inv lockOf v slot) (ht : t ∈ m.waiters c) :
    (m.pc t).waitsFor (m.sys.pc t) = some c ∧ m.signals c t = (m.called t).2 t := by
  have hslot := (h.slots.queue c t).mp ht
  have hwaits := h.slots.waits t
  have hcount := h.count t
  rw [hslot] at hwaits hcount
  exact ⟨hwaits.symm, Nat.succ.inj ((CountAt.of_waits hwaits.symm).mp hcount)⟩

/-- Who waits is in the list, or its semaphore is about to be upped, or it was signalled. -/
theorem Monitor.Inv.place (h : m.Inv lockOf v slot) (ht : (m.pc t).waitsFor (m.sys.pc t) = some c) :
    t ∈ m.waiters c ∨ (∃ s b, m.pc s = .up c t b) ∨ m.signals c t = (m.called t).2 t + 1 := by
  have hwaits := h.slots.waits t
  have hcount := (CountAt.of_waits ht).mp (h.count t)
  rw [ht] at hwaits
  cases hx : slot t with
  | idle =>
    rw [hx] at hwaits
    cases hwaits
  | queued c' =>
    rw [hx] at hwaits
    cases hwaits
    exact .inl ((h.slots.queue c t).mpr hx)
  | popped c' s =>
    rw [hx] at hwaits
    cases hwaits
    obtain ⟨b, hb⟩ := (h.slots.popped c t s).mp hx
    exact .inr (.inl ⟨s, b, hb⟩)
  | signalled c' =>
    rw [hx] at hcount
    exact .inr (.inr hcount)

end

/-! ## Every run -/

/-- What the functions of conditions keep to. -/
structure Monitor.Meets (lockOf : CondId → LockId) (m : Monitor) : Prop where
  /-- No statement of theirs fails an assertion. -/
  safe : ∀ a f, Fine m a → m.step lockOf a = .error f → f = .sys .disabled ∨ ∃ a', a = .sys a'
  /-- The list holds threads that wait and were not signalled. -/
  waiting : ∀ c t, t ∈ m.waiters c →
    (m.pc t).waitsFor (m.sys.pc t) = some c ∧ m.signals c t = (m.called t).2 t
  /-- Any other thread that waits is about to be signalled, or was. -/
  place : ∀ c t, (m.pc t).waitsFor (m.sys.pc t) = some c →
    t ∈ m.waiters c ∨ (∃ s b, m.pc s = .up c t b) ∨ m.signals c t = (m.called t).2 t + 1
  /-- `cond_signal` has signalled one of the waiters it found, once. -/
  signal : ∀ t c, m.pc t = .signalReturn c → ∃ w, (m.called t).1.Perm (w :: m.waiters c) ∧
    ∀ u, m.signals c u = (m.called t).2 u + if u = w then 1 else 0
  /-- `cond_broadcast` has signalled every waiter it found, once. -/
  broadcast : ∀ t c, m.pc t = .broadcastReturn c → m.waiters c = [] ∧
    ∀ u, m.signals c u = (m.called t).2 u + if u ∈ (m.called t).1 then 1 else 0
  /-- A thread that sleeps in `cond_wait` was not signalled. -/
  asleep : ∀ t c, m.pc t = .waitAcquire c → m.sys.blocked t = true → m.signals c t = (m.called t).2 t
  /-- `cond_wait` returns to a thread that was signalled once and has the lock. -/
  wait : ∀ t c, m.pc t = .waitReturn c → canCall m.sys t = true →
    m.signals c t = (m.called t).2 t + 1 ∧ m.sys.holder (lockOf c) = some t

variable {lockOf : CondId → LockId} {v : SemaId → BitVec 32} {m : Monitor} {slot : Tid → Slot} {mlfqs : Bool}
  {value : Nat → BitVec 32} {priority : Tid → Int}

theorem Monitor.Inv.meets (h : m.Inv lockOf v slot) : m.Meets lockOf where
  safe _ _ := h.step_error
  waiting _ _ := h.waiting
  place _ _ := h.place
  signal t c hp := by
    have hwakes := h.wakes t
    rw [hp] at hwakes
    obtain ⟨w, hwoke⟩ := hwakes
    refine ⟨w, hwoke.perm, fun u => ?_⟩
    rw [hwoke.once, List.count_singleton]
    by_cases hu : u = w
    · rw [if_pos hu, if_pos (by simp [hu])]
    · rw [if_neg hu, if_neg (by simpa using Ne.symm hu)]
  broadcast t c hp := by
    have hwakes := h.wakes t
    rw [hp] at hwakes
    obtain ⟨hnil, done, hwoke⟩ := hwakes
    refine ⟨hnil, fun u => ?_⟩
    have hperm := hwoke.perm
    rw [List.append_nil] at hperm
    rw [hwoke.once, ← hperm.count_eq, List.Nodup.count hwoke.nodup]
  asleep _ _ := h.asleep
  wait t c hp hcan := by
    have hcontrol := h.control t
    have hcount := h.count t
    have hidle : slot t = .idle := h.slot_idle (by rw [hp]; rfl)
    rw [hp] at hcontrol hcount
    rw [hidle] at hcount
    have huser := (canCall_iff.mp hcan).1
    refine ⟨hcount, h.lock.holder_of_held ?_⟩
    rcases hcontrol with hq | hq
    · rw [huser] at hq
      exact hq.elim
    · exact hq.2

theorem Monitor.Inv.of_boot (lockOf : CondId → LockId) (mlfqs : Bool) (value : Nat → BitVec 32) (priority : Tid → Int) :
    ∃ v, (Monitor.boot mlfqs value priority).Inv lockOf v fun _ => .idle := by
  refine ⟨_, .of_boot mlfqs _ priority, .of_boot mlfqs _ priority, fun t => nofun, ⟨fun c t => ⟨nofun, nofun⟩,
    fun c => List.nodup_nil, fun c w s => ⟨nofun, nofun⟩, fun t => ?_, fun t => rfl⟩, fun t => trivial, fun t => trivial⟩
  show (if 2 * t % 2 = 0 then (0 : BitVec 32) else value (2 * t)) = 0
  rw [if_pos (Nat.mul_mod_right 2 t)]

end Pintos.Interleave
