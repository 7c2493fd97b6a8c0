import Pintos.Lib.Permit
import Pintos.Threads.Interleave

/-!
# Locks exclude each other

A lock of `Pintos/Threads/Interleave.lean` is the one-permit protocol of `Pintos/Lib/Permit.lean`:
`view m l` forgets everything but the phases of the threads, the value of the semaphore and the
holder, and every step is a step of the protocol on one lock and nothing on the others.

* `view_step` — the simulation
* `LockInv.reach` — the protocol's invariant on the view of every lock
-/

namespace Pintos.Interleave

open Function Machine
open Permit (Phase)

/-- A thread at this statement has taken the permit of a lock. -/
def Pc.stage : Pc → Option (LockId × Phase)
  | .acqClear l | .acqSet l | .trySet l => some (l, .taken)
  | .relAssert l | .relRemove l | .relPriority l | .relHolder l => some (l, .holding)
  | .relUp l => some (l, .leaving)
  | _ => none

/-- The phase of a thread at `p`, which has or has not the lock according to `held`. -/
def phaseOf (p : Pc) (held : Bool) (l : LockId) : Phase :=
  match p.stage with
  | some (l', ph) => if l' = l then ph else if held then .holding else .out
  | none => if held then .holding else .out

def phase (m : Sys) (l : LockId) (t : Tid) : Phase := phaseOf (m.pc t) (m.held t l) l

/-- The lock `l` as a one-permit protocol. -/
def view (m : Sys) (l : LockId) : Permit.State Tid where
  phase := phase m l
  permits := (m.sema (.lock l)).value.toNat
  holder := m.holder l

/--
`t` owns `l`: it is between its successful `sema_down` on the lock and its `sema_up`. In
particular it is when it is between a successful acquire and its release (`owner_of_held`).
-/
def Owner (m : Sys) (l : LockId) (t : Tid) : Prop := phase m l t ≠ .out

/-! ## Where a thread takes or gives the permit, it does not know that it has the lock -/

structure PcInv (m : Sys) : Prop where
  notHeld : ∀ t l ph, (m.pc t).stage = some (l, ph) → m.held t l = false
  caller : ∀ t s c, m.pc t = .downWait s c → ∀ l, s = .lock l ↔ c = some l

theorem phaseOf_stage {p p' : Pc} (h : p'.stage = p.stage) (held : Bool) (l : LockId) :
    phaseOf p' held l = phaseOf p held l := by
  unfold phaseOf
  rw [h]

/-- Where the lock is elsewhere, only the history counts. -/
theorem phaseOf_of_ne {p : Pc} {l : LockId} (h : ∀ ph, p.stage ≠ some (l, ph)) (held : Bool) :
    phaseOf p held l = if held then .holding else .out := by
  unfold phaseOf
  split
  · next l' ph hs =>
    have hl : l' ≠ l := by
      rintro rfl
      exact h ph hs
    rw [if_neg hl]
  · rfl

theorem phaseOf_self {p : Pc} {l : LockId} {ph : Phase} (h : p.stage = some (l, ph))
    (held : Bool) : phaseOf p held l = ph := by
  unfold phaseOf
  rw [h]
  exact if_pos rfl

/-- A thread that knows it has the lock is in the protocol's record. -/
theorem phase_of_held {m : Sys} {t : Tid} {l : LockId} (h : PcInv m) (hh : m.held t l = true) :
    phase m l t = .holding := by
  unfold phase
  rw [hh, phaseOf_of_ne]
  · rfl
  · intro ph hst
    rw [h.notHeld t l ph hst] at hh
    cases hh

/-- While the permit is there nobody knows it has the lock. -/
theorem not_held_of_value {m : Sys} {l : LockId} (h : PcInv m) (hinv : Permit.Inv (view m l))
    (h0 : (m.sema (.lock l)).value ≠ 0) (t : Tid) : m.held t l = false := by
  have hp : (view m l).permits ≠ 0 := fun hc => h0 (BitVec.eq_of_toNat_eq hc)
  have hout : phase m l t = .out := hinv.free hp t
  by_contra hc
  rw [phase_of_held h (by simpa using hc)] at hout
  cases hout

theorem stage_afterDown (m : Sys) (l : LockId) :
    (m.afterDown (some l)).stage = some (l, .taken) := by
  unfold Sys.afterDown
  dsimp only
  split <;> rfl

/-- A step that moves the pc of `t` inside one call. -/
theorem PcInv.move {m m' : Sys} {t : Tid} {p : Pc} (h : PcInv m) (hh : m'.held = m.held)
    (hp : m'.pc = update m.pc t p)
    (ht : ∀ l ph, p.stage = some (l, ph) → m.held t l = false)
    (hc : ∀ s c, p = .downWait s c → ∀ l, s = .lock l ↔ c = some l) : PcInv m' where
  notHeld u l ph hu := by
    rw [hp] at hu
    rw [hh]
    by_cases hut : u = t
    · subst hut
      rw [update_self] at hu
      exact ht l ph hu
    · rw [update_of_ne hut] at hu
      exact h.notHeld u l ph hu
  caller u s c hu := by
    rw [hp] at hu
    by_cases hut : u = t
    · subst hut
      rw [update_self] at hu
      exact hc s c hu
    · rw [update_of_ne hut] at hu
      exact h.caller u s c hu

theorem PcInv.semaDown {m : Sys} (h : PcInv m) (hinv : ∀ l, Permit.Inv (view m l)) {t : Tid}
    {s : SemaId} {c : Option LockId} (hc : ∀ l, s = .lock l ↔ c = some l) :
    PcInv (m.semaDown t s c) := by
  unfold Sys.semaDown
  split
  · refine h.move rfl rfl (by simp [Pc.stage]) ?_
    rintro _ _ ⟨⟩
    exact hc
  · next h0 =>
    refine h.move (t := t) (p := m.afterDown c) rfl rfl ?_ ?_
    · intro l ph hst
      cases c with
      | none => cases hst
      | some l' =>
        rw [stage_afterDown] at hst
        cases hst
        have hs : s = .lock l := (hc l).mpr rfl
        subst hs
        exact not_held_of_value h (hinv l) h0 t
    · intro s' c' hp
      unfold Sys.afterDown at hp
      split at hp
      · cases hp
      · split at hp <;> cases hp

theorem semaUp_same {m m' : Sys} {s : SemaId} (h : m.semaUp s = .ok m') :
    m'.pc = m.pc ∧ m'.held = m.held ∧ m'.holder = m.holder := by
  unfold Sys.semaUp at h
  split at h
  · cases h; exact ⟨rfl, rfl, rfl⟩
  · split at h
    · cases h; exact ⟨rfl, rfl, rfl⟩
    · cases h

theorem semaTryDown_same (m : Sys) (s : SemaId) :
    (m.semaTryDown s).1.pc = m.pc ∧ (m.semaTryDown s).1.held = m.held ∧
    (m.semaTryDown s).1.holder = m.holder := by
  unfold Sys.semaTryDown
  split <;> exact ⟨rfl, rfl, rfl⟩

theorem PcInv.same {m m' : Sys} (h : PcInv m) (hp : m'.pc = m.pc) (hh : m'.held = m.held) :
    PcInv m' where
  notHeld u l ph hu := by
    rw [hp] at hu
    rw [hh]
    exact h.notHeld u l ph hu
  caller u s c hu := h.caller u s c (hp ▸ hu)

theorem PcInv.stmt {m m' : Sys} {t : Tid} (h : PcInv m) (hinv : ∀ l, Permit.Inv (view m l))
    (hs : Stmt m t m') : PcInv m' := by
  -- moving on with the same lock
  have hkeep : ∀ {p : Pc} {l : LockId} {ph ph' : Phase}, (m.pc t).stage = some (l, ph) →
      p.stage = some (l, ph') → ∀ l' ph', p.stage = some (l', ph') → m.held t l' = false := by
    intro p l ph ph' hl hp l' ph'' hp'
    rw [hp] at hp'
    cases hp'
    exact h.notHeld t _ ph hl
  cases hs with
  | acqTest hpc =>
    refine h.move rfl rfl ?_ ?_
    · split <;> simp [Pc.stage]
    · split <;> simp
  | acqWait hpc => exact h.move rfl rfl (by simp [Pc.stage]) (by simp)
  | acqHolder hpc hh => exact h.move rfl rfl (by simp [Pc.stage]) (by simp)
  | acqInsert hpc => exact h.move rfl rfl (by simp [Pc.stage]) (by simp)
  | donTest hpc =>
    refine h.move rfl rfl ?_ ?_
    · split <;> simp [Pc.stage]
    · split <;> simp
  | donRead hpc hw => exact h.move rfl rfl (by simp [Pc.stage]) (by simp)
  | donWrite hpc => exact h.move rfl rfl (by simp [Pc.stage]) (by simp)
  | acqDown hpc => exact h.semaDown hinv (by simp)
  | @downWait s c hpc => exact h.semaDown hinv (h.caller t s c hpc)
  | acqClear hpc => exact h.move rfl rfl (hkeep (by rw [hpc]; rfl) rfl) (by simp)
  | @setHolder l hpc =>
    refine ⟨?_, ?_⟩
    · intro u l' ph hu
      have hut : u ≠ t := by
        rintro rfl
        simp [Pc.stage] at hu
      simpa [hut] using h.notHeld u l' ph (by simpa [hut] using hu)
    · intro u s c hu
      have hut : u ≠ t := by
        rintro rfl
        simp at hu
      exact h.caller u s c (by simpa [hut] using hu)
  | @relAssert l hpc hh =>
    refine h.move rfl rfl ?_ ?_
    · split
      · exact hkeep (by rw [hpc]; rfl) rfl
      · exact hkeep (by rw [hpc]; rfl) rfl
    · split <;> simp
  | relRemove hpc => exact h.move rfl rfl (hkeep (by rw [hpc]; rfl) rfl) (by simp)
  | relPriority hpc => exact h.move rfl rfl (hkeep (by rw [hpc]; rfl) rfl) (by simp)
  | relHolder hpc => exact h.move rfl rfl (hkeep (by rw [hpc]; rfl) rfl) (by simp)
  | relUp hpc hu =>
    obtain ⟨hp, hh, -⟩ := semaUp_same hu
    have hm : PcInv (m.setPc t .user) := h.move rfl rfl (by simp [Pc.stage]) (by simp)
    exact hm.same hp hh
  | setPriority hpc => exact h.move rfl rfl (by simp [Pc.stage]) (by simp)

/-! ## The simulation -/

/-- `view m' l` is reached from `view m l` by one step of the protocol at most. -/
def ViewStep (m m' : Sys) (l : LockId) : Prop :=
  view m' l = view m l ∨ Permit.Step (view m l) (view m' l)

/-- The phases after a step that touches the pc and the history of `t` only. -/
theorem phase_update {m m' : Sys} {t : Tid} {p : Pc} (held : LockId → Bool)
    (hp : m'.pc = update m.pc t p) (hh : m'.held = update m.held t held) (l : LockId) :
    phase m' l = update (phase m l) t (phaseOf p (held l) l) := by
  funext u
  unfold phase
  rw [hp, hh]
  by_cases hut : u = t
  · subst hut
    simp only [update_self]
  · simp only [update_of_ne hut]

/-- A step of `t` that leaves its phase, the value and the holder of `l` alone. -/
theorem view_same {m m' : Sys} {t : Tid} {p : Pc} {l : LockId} (held : LockId → Bool)
    (hp : m'.pc = update m.pc t p) (hh : m'.held = update m.held t held)
    (hs : (m'.sema (.lock l)).value = (m.sema (.lock l)).value) (hholder : m'.holder l = m.holder l)
    (hph : phaseOf p (held l) l = phaseOf (m.pc t) (m.held t l) l) : view m' l = view m l := by
  unfold view
  rw [phase_update held hp hh, hs, hholder, hph]
  congr 1
  exact update_eq_self t (phase m l)

theorem held_update_self (m : Sys) (t : Tid) : m.held = update m.held t (m.held t) :=
  (update_eq_self t m.held).symm

/-- Taking the permit of `l`: the pc of `t` moves to where it owns `l`. -/
theorem viewStep_take {m m' : Sys} {t : Tid} {p : Pc} {l : LockId}
    (hp : m'.pc = update m.pc t p) (hh : m'.held = m.held) (hholder : m'.holder = m.holder)
    (hs : m'.sema = update m.sema (.lock l) (m.sema (.lock l)).decr)
    (h0 : (m.sema (.lock l)).value ≠ 0) (hout : phase m l t = .out)
    (hst : p.stage = some (l, .taken)) : ViewStep m m' l := by
  refine Or.inr ?_
  have hv : view m' l = { view m l with
      phase := update (view m l).phase t .taken, permits := (view m l).permits - 1 } := by
    unfold view
    rw [phase_update (m.held t) hp (by rw [hh]; exact held_update_self m t),
      phaseOf_self hst, hs, hholder, update_self]
    congr 1
    simp only [Semaphore.decr]
    bv_omega
  rw [hv]
  refine .take hout ?_
  intro hc
  exact h0 (BitVec.eq_of_toNat_eq hc)

theorem viewStep_semaDown {m : Sys} (hinv : ∀ l, Permit.Inv (view m l)) {t : Tid} {s : SemaId}
    {c : Option LockId} (l : LockId) (hst : (m.pc t).stage = none)
    (hc : ∀ l, s = .lock l ↔ c = some l) : ViewStep m (m.semaDown t s c) l := by
  by_cases h0 : (m.sema s).value = 0
  · refine Or.inl (view_same (m.held t) (p := .downWait s c) (t := t) ?_ ?_ ?_ ?_ ?_)
    · rw [Sys.semaDown, if_pos h0]
      rfl
    · rw [Sys.semaDown, if_pos h0]
      exact held_update_self m t
    · rw [Sys.semaDown, if_pos h0]
      by_cases hs : SemaId.lock l = s
      · subst hs
        simp
      · simp [hs]
    · rw [Sys.semaDown, if_pos h0]
      rfl
    · exact phaseOf_stage (by rw [hst]; rfl) _ l
  · have hm : m.semaDown t s c = (m.take s).setPc t (m.afterDown c) := by
      rw [Sys.semaDown, if_neg h0]
    rw [hm]
    by_cases hs : s = .lock l
    · have hcl : c = some l := (hc l).mp hs
      subst hs hcl
      have hp : (view m l).permits ≠ 0 := fun hc => h0 (BitVec.eq_of_toNat_eq hc)
      exact viewStep_take rfl rfl rfl rfl h0 ((hinv l).free hp t) (stage_afterDown m l)
    · refine Or.inl (view_same (m.held t) (p := m.afterDown c) (t := t) rfl
        (held_update_self m t) ?_ rfl ?_)
      · have hs' : SemaId.lock l ≠ s := fun h => hs h.symm
        simp [hs']
      · have hne : ∀ ph, (m.afterDown c).stage ≠ some (l, ph) := by
          intro ph h
          cases c with
          | none => cases h
          | some l' =>
            rw [stage_afterDown] at h
            cases h
            exact hs ((hc l).mpr rfl)
        rw [phaseOf_of_ne hne, phaseOf_of_ne (by simp [hst])]

/-- Giving the permit of `l` back: `sema_up` with the pc of `t` moved out. -/
theorem viewStep_semaUp {m m' : Sys} {s : SemaId} (h : m.semaUp s = .ok m') (l : LockId) :
    view m' l = { view m l with
      permits := if s = .lock l then ((m.sema (.lock l)).value + 1).toNat
        else (view m l).permits } := by
  obtain ⟨hp, hh, hholder⟩ := semaUp_same h
  have hs : (m'.sema (.lock l)).value =
      if s = .lock l then (m.sema (.lock l)).value + 1 else (m.sema (.lock l)).value := by
    unfold Sys.semaUp at h
    split at h
    · cases h
      by_cases hs : s = .lock l
      · subst hs
        simp [Semaphore.incr]
      · have hs' : SemaId.lock l ≠ s := fun h => hs h.symm
        simp [hs, hs']
    · split at h
      · cases h
        by_cases hs : s = .lock l
        · subst hs
          simp
        · have hs' : SemaId.lock l ≠ s := fun h => hs h.symm
          simp [hs, hs']
      · cases h
  have hphase : phase m' l = phase m l := by
    funext u
    unfold phase
    rw [hp, hh]
  unfold view
  rw [hphase, hholder, hs]
  congr 1
  split <;> rfl

/-- A step that moves the pc of `t` inside one stage. -/
theorem viewStep_move {m m' : Sys} {t : Tid} {p : Pc} (l : LockId) (hp : m'.pc = update m.pc t p)
    (hh : m'.held = m.held) (hs : m'.sema = m.sema) (hholder : m'.holder = m.holder)
    (hst : p.stage = (m.pc t).stage) : ViewStep m m' l :=
  Or.inl (view_same (m.held t) hp (by rw [hh]; exact held_update_self m t)
    (by rw [hs]) (by rw [hholder]) (phaseOf_stage hst _ l))

theorem viewStep_stmt {m m' : Sys} {t : Tid} (h : PcInv m) (hinv : ∀ l, Permit.Inv (view m l))
    (hs : Stmt m t m') (l : LockId) : ViewStep m m' l := by
  cases hs with
  | acqTest hpc =>
    exact viewStep_move (t := t) l rfl rfl rfl rfl (by rw [hpc]; split <;> rfl)
  | acqWait hpc => exact viewStep_move (t := t) l rfl rfl rfl rfl (by rw [hpc]; rfl)
  | acqHolder hpc hh => exact viewStep_move (t := t) l rfl rfl rfl rfl (by rw [hpc]; rfl)
  | acqInsert hpc => exact viewStep_move (t := t) l rfl rfl rfl rfl (by rw [hpc]; rfl)
  | donTest hpc =>
    exact viewStep_move (t := t) l rfl rfl rfl rfl (by rw [hpc]; split <;> rfl)
  | donRead hpc hw => exact viewStep_move (t := t) l rfl rfl rfl rfl (by rw [hpc]; rfl)
  | donWrite hpc => exact viewStep_move (t := t) l rfl rfl rfl rfl (by rw [hpc]; rfl)
  | @acqDown l' hpc =>
    exact viewStep_semaDown hinv l (by rw [hpc]; rfl) (by simp)
  | @downWait s c hpc =>
    exact viewStep_semaDown hinv l (by rw [hpc]; rfl) (h.caller t s c hpc)
  | acqClear hpc => exact viewStep_move (t := t) l rfl rfl rfl rfl (by rw [hpc]; rfl)
  | @setHolder l' hpc =>
    have hst : (m.pc t).stage = some (l', .taken) := by
      rcases hpc with hpc | hpc <;> rw [hpc] <;> rfl
    by_cases hl : l = l'
    · subst hl
      refine Or.inr ?_
      have hv : view { m.setPc t .user with
          holder := update m.holder l (some t)
          held := update m.held t (update (m.held t) l true) } l =
          { view m l with phase := update (view m l).phase t .holding, holder := some t } := by
        unfold view
        rw [phase_update (update (m.held t) l true) rfl rfl]
        congr 1
        · simp [phaseOf, Pc.stage]
        · simp
      rw [hv]
      exact .sign (phaseOf_self hst _)
    · have hne : ∀ ph, (m.pc t).stage ≠ some (l, ph) := by
        intro ph hc
        rw [hst] at hc
        cases hc
        exact hl rfl
      refine Or.inl (view_same (update (m.held t) l' true) rfl rfl rfl ?_ ?_)
      · simp [hl]
      · rw [phaseOf_of_ne hne, phaseOf_of_ne (by simp [Pc.stage]), update_of_ne hl]
  | relAssert hpc hh =>
    exact viewStep_move (t := t) l rfl rfl rfl rfl (by rw [hpc]; split <;> rfl)
  | relRemove hpc => exact viewStep_move (t := t) l rfl rfl rfl rfl (by rw [hpc]; rfl)
  | relPriority hpc => exact viewStep_move (t := t) l rfl rfl rfl rfl (by rw [hpc]; rfl)
  | @relHolder l' hpc =>
    by_cases hl : l = l'
    · subst hl
      refine Or.inr ?_
      have hv : view { m.setPc t (.relUp l) with holder := update m.holder l none } l =
          { view m l with phase := update (view m l).phase t .leaving, holder := none } := by
        unfold view
        rw [phase_update (m.held t) (p := .relUp l) rfl (by exact held_update_self m t)]
        congr 1
        · rw [phaseOf_self (show Pc.stage (.relUp l) = some (l, .leaving) from rfl)]
        · simp
      rw [hv]
      exact .clear (phaseOf_self (by rw [hpc]; rfl) _)
    · refine Or.inl (view_same (m.held t) rfl (held_update_self m t) rfl ?_ ?_)
      · simp [hl]
      · have hl' : l' ≠ l := fun h => hl h.symm
        simp [phaseOf, Pc.stage, hpc, hl']
  | @relUp l' _ hpc hu =>
    have hview := viewStep_semaUp hu l
    have hphase : phase (m.setPc t .user) l =
        update (phase m l) t (phaseOf .user (m.held t l) l) :=
      phase_update (m.held t) rfl (by exact held_update_self m t) l
    by_cases hl : l' = l
    · subst hl
      refine Or.inr ?_
      have hleaving : phase m l' t = .leaving := phaseOf_self (by rw [hpc]; rfl) _
      have h0 : (m.sema (.lock l')).value.toNat = 0 :=
        (hinv l').permits_eq_zero (t := t) (by show phase m l' t ≠ .out; simp [hleaving])
      have hheld : m.held t l' = false := h.notHeld t l' .leaving (by rw [hpc]; rfl)
      have hv : view m' l' = { view m l' with
          phase := update (view m l').phase t .out, permits := (view m l').permits + 1 } := by
        rw [hview, if_pos rfl]
        have hv1 : ((m.sema (.lock l')).value + 1).toNat = (m.sema (.lock l')).value.toNat + 1 := by
          bv_omega
        unfold view
        rw [hphase, hheld]
        simp only [Sys.setPc_sema, Sys.setPc_holder, hv1]
        rfl
      rw [hv]
      exact .give hleaving
    · have hne : SemaId.lock l' ≠ .lock l := fun hc => hl (SemaId.lock.inj hc)
      rw [if_neg hne] at hview
      refine Or.inl ?_
      rw [hview]
      refine view_same (m.held t) rfl (held_update_self m t) rfl rfl ?_
      simp [phaseOf, Pc.stage, hpc, hl]
  | setPriority hpc => exact viewStep_move (t := t) l rfl rfl rfl rfl (by rw [hpc]; rfl)

/-! ## Calls -/

theorem semaTryDown_plain_sema (m : Sys) (n : Nat) (l : LockId) :
    (m.semaTryDown (.plain n)).1.sema (.lock l) = m.sema (.lock l) := by
  unfold Sys.semaTryDown
  split
  · simp
  · rfl

theorem viewStep_call {m m' : Sys} (hinv : ∀ l, Permit.Inv (view m l))
    (hs : Call m m') (l : LockId) : ViewStep m m' l := by
  cases hs with
  | @lockAcquire t l' hpc hb =>
    exact viewStep_move (t := t) l rfl rfl rfl rfl (by rw [hpc]; split <;> rfl)
  | @lockTryAcquire t l' hpc hb hh =>
    by_cases h0 : (m.sema (.lock l')).value = 0
    · have hm : m.semaTryDown (.lock l') = (m, false) := by
        rw [Sys.semaTryDown, if_neg (not_not.mpr h0)]
      rw [hm]
      exact viewStep_move (t := t) l rfl rfl rfl rfl (by rw [hpc]; rfl)
    · have hm : m.semaTryDown (.lock l') = (m.take (.lock l'), true) := by
        rw [Sys.semaTryDown, if_pos h0]
      rw [hm]
      by_cases hl : l = l'
      · subst hl
        refine viewStep_take (t := t) (p := .trySet l) rfl rfl rfl rfl h0 ?_ rfl
        have hp : (view m l).permits ≠ 0 := fun hc => h0 (BitVec.eq_of_toNat_eq hc)
        exact (hinv l).free hp t
      · refine Or.inl (view_same (m.held t) (t := t) (p := .trySet l') rfl
          (held_update_self m t) ?_ rfl ?_)
        · simp [hl]
        · have hl' : l' ≠ l := fun h => hl h.symm
          simp [phaseOf, Pc.stage, hpc, hl']
  | @lockRelease t l' hpc hb hheld =>
    refine Or.inl (view_same (update (m.held t) l' false) (t := t) rfl rfl rfl rfl ?_)
    by_cases hl : l = l'
    · subst hl
      simp [phaseOf, Pc.stage, hpc, hheld]
    · have hl' : l' ≠ l := fun h => hl h.symm
      simp [phaseOf, Pc.stage, hpc, hl, hl']
  | semaDown hpc hb =>
    exact viewStep_semaDown hinv l (by rw [hpc]; rfl) (by simp)
  | @semaTryDown n =>
    obtain ⟨hp, hh, hholder⟩ := semaTryDown_same m (.plain n)
    refine Or.inl ?_
    unfold view phase
    rw [hp, hh, hholder, semaTryDown_plain_sema]
  | @semaUp n _ hu =>
    refine Or.inl ?_
    rw [viewStep_semaUp hu l, if_neg (by simp)]
  | setPriorityMlfqs => exact Or.inl rfl
  | @setPriority t p hpc =>
    exact viewStep_move (t := t) l rfl rfl rfl rfl (by rw [hpc]; rfl)
  | tear hb hpc => exact Or.inl rfl

theorem PcInv.call {m m' : Sys} (h : PcInv m) (hinv : ∀ l, Permit.Inv (view m l))
    (hs : Call m m') : PcInv m' := by
  cases hs with
  | lockAcquire hpc hb =>
    refine h.move rfl rfl ?_ ?_
    · split <;> simp [Pc.stage]
    · split <;> simp
  | @lockTryAcquire t l hpc hb hh =>
    have hnot : m.held t l = false := by
      by_contra hc
      exact hh (((hinv l).holder t).mpr (phase_of_held h (by simpa using hc)))
    obtain ⟨hp, hheld, -⟩ := semaTryDown_same m (.lock l)
    refine h.move (t := t) hheld (by rw [← hp]; rfl) ?_ ?_
    · intro l' ph hl'
      split at hl'
      · cases hl'
        exact hnot
      · cases hl'
    · split <;> simp
  | @lockRelease t l hpc hb hheld =>
    refine ⟨?_, ?_⟩
    · intro u l' ph hu
      by_cases hut : u = t
      · subst hut
        have hll : l = l' := (by simpa [Pc.stage] using hu : l = l' ∧ _).1
        simp [hll]
      · simpa [hut] using h.notHeld u l' ph (by simpa [hut] using hu)
    · intro u s c hu
      have hut : u ≠ t := by
        rintro rfl
        simp at hu
      exact h.caller u s c (by simpa [hut] using hu)
  | semaDown hpc hb => exact h.semaDown hinv (by simp)
  | @semaTryDown n =>
    obtain ⟨hp, hh, -⟩ := semaTryDown_same m (.plain n)
    exact h.same hp hh
  | semaUp hu =>
    obtain ⟨hp, hh, -⟩ := semaUp_same hu
    exact h.same hp hh
  | setPriorityMlfqs => exact h
  | setPriority hpc => exact h.move rfl rfl (by simp [Pc.stage]) (by simp)
  | tear hb hpc => exact h.same rfl rfl

/-! ## Every run -/

/-- The invariant of the locks. -/
structure LockInv (m : Sys) : Prop where
  pc : PcInv m
  permit : ∀ l, Permit.Inv (view m l)

theorem LockInv.of_step {m m' : Sys} {a : Action} (h : LockInv m) (hs : step m a = .ok m') :
    LockInv m' := by
  have hview : ∀ l, ViewStep m m' l := by
    intro l
    rcases step_cases hs with ⟨t, -, -, hstmt⟩ | hcall
    · exact viewStep_stmt h.pc h.permit hstmt l
    · exact viewStep_call h.permit hcall l
  refine ⟨?_, fun l => ?_⟩
  · rcases step_cases hs with ⟨t, -, -, hstmt⟩ | hcall
    · exact h.pc.stmt h.permit hstmt
    · exact h.pc.call h.permit hcall
  · rcases hview l with he | hp
    · rw [he]
      exact h.permit l
    · exact (h.permit l).step hp

theorem LockInv.of_boot (mlfqs : Bool) (value : Nat → BitVec 32) (priority : Tid → Int) :
    LockInv (boot mlfqs value priority) where
  pc := by
    refine ⟨?_, ?_⟩
    · intro t l ph h
      cases h
    · intro t s c h
      cases h
  permit l := by
    refine ⟨le_refl 1, fun _ t => rfl, fun t u ht => absurd rfl ht, fun t => ?_⟩
    constructor
    · intro h
      cases h
    · intro h
      cases h

variable {mlfqs : Bool} {value : Nat → BitVec 32} {priority : Tid → Int} {m : Sys}

theorem LockInv.reach (h : Reach step Always (boot mlfqs value priority) m) : LockInv m :=
  h.invariant (.of_boot mlfqs value priority) (fun _ _ _ hi _ hs => hi.of_step hs)

/-- Between a successful acquire and the release the thread owns the lock. -/
theorem LockInv.owner_of_held (h : LockInv m) {t : Tid} {l : LockId} (hh : m.held t l = true) :
    Owner m l t := by
  unfold Owner
  rw [phase_of_held h.pc hh]
  simp

/-! ## The assertion in `lock_release` -/

theorem semaUp_error {m : Sys} {s : SemaId} {e : Fault} (h : m.semaUp s = .error e) :
    e = .assertBlocked := by
  unfold Sys.semaUp at h
  split at h
  · cases h
  · split at h
    · cases h
    · cases h
      rfl

/-- Only one statement can fail the assertion. -/
theorem assertHeld_cases {m : Sys} {a : Action} (h : step m a = .error .assertHeld) :
    ∃ t l, m.pc t = .relAssert l ∧ m.holder l ≠ some t := by
  cases a with
  | step t =>
    simp only [step, stepThread] at h
    split at h
    · cases h
    split at h
    case h_14 l hpc =>
      split at h
      · cases h
      · next hh => exact ⟨t, l, hpc, hh⟩
    case h_18 l hpc => cases semaUp_error h
    case h_4 => split at h <;> cases h
    case h_7 => split at h <;> cases h
    case h_8 => split at h <;> cases h
    all_goals cases h
  | lockAcquire t l =>
    simp only [step] at h
    split at h <;> cases h
  | lockTryAcquire t l =>
    simp only [step] at h
    split at h
    · cases h
    · split at h <;> cases h
  | lockRelease t l =>
    simp only [step] at h
    split at h <;> cases h
  | semaDown t n =>
    simp only [step] at h
    split at h <;> cases h
  | semaTryDown t n =>
    simp only [step] at h
    split at h <;> cases h
  | semaUp t n =>
    simp only [step] at h
    split at h
    · cases semaUp_error h
    · cases h
  | setPriority t p =>
    simp only [step] at h
    split at h <;> cases h
  | intrTryDown n => cases h
  | intrUp n => cases semaUp_error h
  | tear t don p =>
    simp only [step] at h
    split at h <;> cases h

theorem LockInv.assertHeld (h : LockInv m) (a : Action) : step m a ≠ .error .assertHeld := by
  intro hs
  obtain ⟨t, l, hpc, hh⟩ := assertHeld_cases hs
  exact hh (((h.permit l).holder t).mpr (phaseOf_self (by rw [hpc]; rfl) _))

/--
**Mutual exclusion of a lock**, with either scheduler. `Owner` covers the time from the
successful `sema_down` of the acquire to the `sema_up` of the release, so in particular the time
between the return of the one and the call of the other.
-/
theorem lock_mutual_exclusion (h : Reach step Always (boot mlfqs value priority) m)
    (l : LockId) :
    (∀ t, m.held t l = true → Owner m l t) ∧
    (∀ t u, Owner m l t → Owner m l u → t = u) ∧
    ((m.sema (.lock l)).value = 0 ∨ (m.sema (.lock l)).value = 1) ∧
    ((m.sema (.lock l)).value = 1 → ∀ t, ¬ Owner m l t) ∧
    (∀ t, m.holder l = some t → Owner m l t) ∧
    (∀ t, m.held t l = true → m.holder l = some t) ∧
    ∀ a, step m a ≠ .error .assertHeld := by
  have hinv := LockInv.reach h
  have hl := hinv.permit l
  refine ⟨fun t ht => hinv.owner_of_held ht, fun t u ht hu => hl.unique t u ht hu, ?_, ?_, ?_, ?_,
    hinv.assertHeld⟩
  · have hle : (m.sema (.lock l)).value.toNat ≤ 1 := hl.permits_le
    bv_omega
  · intro hv t ht
    have h0 : (m.sema (.lock l)).value.toNat = 0 := hl.permits_eq_zero ht
    rw [hv] at h0
    cases h0
  · intro t ht
    have hp : phase m l t = .holding := (hl.holder t).mp ht
    unfold Owner
    rw [hp]
    simp
  · intro t ht
    exact (hl.holder t).mpr (phase_of_held hinv.pc ht)

/-- Thread 1 has the lock and thread 2 sleeps on it. -/
theorem lock_mutual_exclusion_contended : ∃ m : Sys,
    m.held 1 0 = true ∧ (m.sema (.lock 0)).waiters = [2] ∧
    Owner m 0 1 ∧ (∀ u, Owner m 0 u → u = 1) ∧ m.holder 0 = some 1 ∧
    ∀ a, step m a ≠ .error .assertHeld := by
  have h : Reach step Always (boot true (fun _ => 0) (fun _ => 31)) _ :=
    reach_of_exec [.lockAcquire 1 0, .step 1, .step 1, .lockAcquire 2 0, .step 2] rfl
  obtain ⟨howner, huniq, -, -, -, hholder, hassert⟩ := lock_mutual_exclusion h 0
  have h1 := howner 1 rfl
  exact ⟨_, rfl, rfl, h1, fun u hu => huniq u 1 hu h1, hholder 1 rfl, hassert⟩

end Pintos.Interleave
