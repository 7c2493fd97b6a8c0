import Pintos.Properties.LockExclusion
import Pintos.Properties.Semaphore
import Pintos.Threads.Synch

/-!
# Who is in a list of donations

The runs of `Pintos/Threads/Synch.lean`: each `lock_acquire` and `lock_release` is one step, and a
woken waiter goes on when it is scheduled.

* `DonationsExact` — the donations of a thread are the threads asleep on its locks
* `HandsOver` — a lock changes hands only when nobody is asleep on it
* `Effect` — what one operation does to the holders, the waiters and the donations
* `donations_exact` — the lists are exact as long as `HandsOver` holds, and no longer

A waiter joins the donations of the holder it found. When the lock goes to another thread, the
waiters that are left are in no list.
-/

namespace Pintos.Interleave

open Function Machine

/-- `w` is asleep in `lock_acquire (l)`. -/
def Waiting (m : Sys) (w : Tid) (l : LockId) : Prop :=
  m.blocked w = true ∧ m.pc w = .downWait (.lock l) (some l) ∧ m.waitOnLock w = some l

/-- The threads asleep on a lock that `t` holds. -/
def waitersOf (m : Sys) (t : Tid) : Set Tid := {w | ∃ l, Waiting m w l ∧ m.holder l = some t}

def DonationsExact (m : Sys) : Prop := ∀ t, {w | w ∈ m.donations t} = waitersOf m t

/-- The operation gives a lock to a thread only when nobody is asleep on it. -/
def HandsOver (m : Sys) : OpAction → Prop
  | .acquire _ l => m.holder l = none → ∀ w, ¬ Waiting m w l
  | .release _ _ => True
  | .resume t => ∀ l, m.waitOnLock t = some l → m.holder l = none ∧ ∀ w, ¬ Waiting m w l

/-! ## Between two operations -/

/-- What holds between two operations, whether the donations are exact or not. -/
structure OpInv (v : SemaId → BitVec 32) (m : Sys) : Prop where
  mlfqs : m.mlfqs = false
  sema : SemaInv v m
  lock : LockInv m
  user : ∀ t, m.pc t = .user → m.waitOnLock t = none
  wait : ∀ t, m.pc t ≠ .user →
    ∃ l, m.pc t = .downWait (.lock l) (some l) ∧ m.waitOnLock t = some l
  free : ∀ l, m.holder l = none → (m.sema (.lock l)).value ≠ 0

namespace OpInv

variable {v : SemaId → BitVec 32} {m m' : Sys} {t w : Tid} {l : LockId}

theorem value_eq_zero (h : OpInv v m) (hh : m.holder l = some t) :
    (m.sema (.lock l)).value = 0 := by
  have hp : phase m l t = .holding := ((h.lock.permit l).holder t).mp hh
  have h0 : (view m l).permits = 0 := (h.lock.permit l).permits_eq_zero (t := t) (by
    show phase m l t ≠ .out
    simp [hp])
  exact BitVec.eq_of_toNat_eq h0

/-- A thread asleep is asleep on the lock it waits for. -/
theorem waiting_iff (h : OpInv v m) :
    Waiting m w l ↔ m.blocked w = true ∧ m.waitOnLock w = some l := by
  constructor
  · rintro ⟨hb, -, hw⟩
    exact ⟨hb, hw⟩
  · rintro ⟨hb, hw⟩
    have hpc : m.pc w ≠ .user := by
      intro hu
      rw [h.user w hu] at hw
      cases hw
    obtain ⟨l', hpc', hw'⟩ := h.wait w hpc
    rw [hw] at hw'
    cases hw'
    exact ⟨hb, hpc', hw⟩

theorem waiting_of_waiter (h : OpInv v m) (hw : w ∈ (m.sema (.lock l)).waiters) :
    Waiting m w l := by
  obtain ⟨hb, c, hpc⟩ := h.sema.waiter _ _ hw
  obtain ⟨l', hpc', hw'⟩ := h.wait w (by rw [hpc]; simp)
  rw [hpc] at hpc'
  cases hpc'
  exact ⟨hb, hpc, hw'⟩

end OpInv

/-! ## What an operation does -/

/-- `Effect m a m'`: the effect of the operation `a`. -/
inductive Effect (m : Sys) : OpAction → Sys → Prop
  /-- `t` gets the free lock `l`. -/
  | took {a : OpAction} {m' : Sys} {t : Tid} {l : LockId}
      (ha : a = .acquire t l ∨ a = .resume t ∧ m.waitOnLock t = some l)
      (hb : m.blocked t = false) (hholder : m.holder l = none)
      (hblocked : m'.blocked = m.blocked) (hpc : m'.pc = update m.pc t .user)
      (hwait : m'.waitOnLock = update m.waitOnLock t none)
      (hholder' : m'.holder = update m.holder l (some t)) (hdon : m'.donations = m.donations)
      (hfree : ∀ l', l' ≠ l → m'.sema (.lock l') = m.sema (.lock l')) : Effect m a m'
  /-- `t` joins the donations of the holder `u` and sleeps. -/
  | joined {m' : Sys} {t u : Tid} {l : LockId}
      (hb : m.blocked t = false) (hholder : m.holder l = some u)
      (hblocked : m'.blocked = update m.blocked t true)
      (hpc : m'.pc = update m.pc t (.downWait (.lock l) (some l)))
      (hwait : m'.waitOnLock = update m.waitOnLock t (some l)) (hholder' : m'.holder = m.holder)
      (hdon : ∀ x w, w ∈ m'.donations x ↔ w ∈ m.donations x ∨ x = u ∧ w = t)
      (hvalue : ∀ l', (m'.sema (.lock l')).value = (m.sema (.lock l')).value) :
      Effect m (.acquire t l) m'
  /-- `t` finds the lock taken again and sleeps. -/
  | slept {m' : Sys} {t u : Tid} {l : LockId}
      (hb : m.blocked t = false) (hw : m.waitOnLock t = some l) (hholder : m.holder l = some u)
      (hblocked : m'.blocked = update m.blocked t true)
      (hpc : m'.pc = update m.pc t (.downWait (.lock l) (some l)))
      (hwait : m'.waitOnLock = m.waitOnLock) (hholder' : m'.holder = m.holder)
      (hdon : m'.donations = m.donations)
      (hvalue : ∀ l', (m'.sema (.lock l')).value = (m.sema (.lock l')).value) :
      Effect m (.resume t) m'
  /-- `t` gives `l` back; the waiter `o`, if there is one, wakes up. -/
  | gave {m' : Sys} {t : Tid} {l : LockId} {o : Option Tid}
      (hholder : m.holder l = some t) (ho : ∀ w, o = some w → Waiting m w l)
      (hblocked : ∀ w, m'.blocked w = true ↔ m.blocked w = true ∧ o ≠ some w)
      (hpc : m'.pc = m.pc) (hwait : m'.waitOnLock = m.waitOnLock)
      (hholder' : m'.holder = update m.holder l none)
      (hdon : ∀ x w, w ∈ m'.donations x ↔
        w ∈ m.donations x ∧ ¬ (x = t ∧ m.waitOnLock w = some l))
      (hvalue : ∀ l', (m'.sema (.lock l')).value =
        if l' = l then (m.sema (.lock l')).value + 1 else (m.sema (.lock l')).value) :
      Effect m (.release t l) m'

variable {v : SemaId → BitVec 32} {m m' : Sys} {t u : Tid} {l : LockId} {a : OpAction}

/-- `lock_acquire` from `sema_down` on, when the lock is free. -/
theorem downAndSet_of_free (h0 : (m.sema (.lock l)).value ≠ 0) :
    m.downAndSet t l = ((m.take (.lock l)).setPc t (m.afterDown (some l))).setHolder t l := by
  rw [Sys.downAndSet, if_neg h0, Sys.semaDown, if_neg h0]

/-- And when it is taken. -/
theorem downAndSet_of_taken (h0 : (m.sema (.lock l)).value = 0) :
    m.downAndSet t l =
      ((m.setSema (.lock l) ((m.sema (.lock l)).enqueue m.priority t)).setPc t
        (.downWait (.lock l) (some l))).setStatus t .blocked := by
  rw [Sys.downAndSet, if_pos h0, Sys.semaDown, if_pos h0]

theorem enqueue_value_eq (m : Sys) (l l' : LockId) (t : Tid) :
    (update m.sema (.lock l) ((m.sema (.lock l)).enqueue m.priority t) (.lock l')).value =
      (m.sema (.lock l')).value := by
  by_cases hl : l' = l
  · subst hl
    simp
  · simp [hl]

theorem effect_acquire (h : OpInv v m) (hc : canCall m t = true)
    (hs : m.lockAcquire t l = .ok m') : Effect m (.acquire t l) m' := by
  obtain ⟨hpc, hb⟩ := canCall_iff.mp hc
  unfold Sys.lockAcquire at hs
  split at hs
  · next hh =>
    cases hs
    rw [downAndSet_of_free (h.free l hh)]
    refine .took (Or.inl rfl) hb hh rfl ?_ rfl rfl rfl ?_
    · simp [Sys.setHolder, update_idem]
    · intro l' hl
      simp [Sys.setHolder, hl]
  · next u hh =>
    split at hs
    · next m₁ hd =>
      cases hs
      have hframe := priorityDonation_frame hd
      have h0 : (m₁.sema (.lock l)).value = 0 := by
        rw [hframe]
        exact h.value_eq_zero hh
      rw [downAndSet_of_taken h0, hframe]
      refine .joined hb hh ?_ rfl rfl rfl ?_ ?_
      · simp [Sys.joinDonations]
        rfl
      · intro x w
        by_cases hx : x = u
        · subst hx
          simp [Sys.joinDonations, Sys.setStatus, Sys.setPc, Sys.setSema, or_comm]
        · simp [Sys.joinDonations, Sys.setStatus, Sys.setPc, Sys.setSema, hx]
      · intro l'
        exact enqueue_value_eq _ l l' t
    · cases hs

theorem effect_resume (h : OpInv v m) (hb : m.blocked t = false) {s : SemaId}
    (hpc : m.pc t = .downWait s (some l)) : Effect m (.resume t) (m.downAndSet t l) := by
  obtain ⟨l', hpc', hw⟩ := h.wait t (by rw [hpc]; simp)
  rw [hpc] at hpc'
  cases hpc'
  cases hh : m.holder l with
  | none =>
    rw [downAndSet_of_free (h.free l hh)]
    refine .took (Or.inr ⟨rfl, hw⟩) hb hh rfl ?_ rfl rfl rfl ?_
    · simp [Sys.setHolder, update_idem]
    · intro l' hl
      simp [Sys.setHolder, hl]
  | some u =>
    rw [downAndSet_of_taken (h.value_eq_zero hh)]
    refine .slept hb hw hh ?_ rfl rfl rfl rfl ?_
    · simp
    · intro l'
      exact enqueue_value_eq m l l' t

/-- `re_priority` reorders the donations of the caller. -/
theorem mem_clearHolder_donations {x w : Tid} :
    w ∈ (m.clearHolder t l).donations x ↔
      w ∈ m.donations x ∧ ¬ (x = t ∧ m.waitOnLock w = some l) := by
  by_cases hx : x = t
  · subst hx
    simp [Sys.clearHolder, Sys.rePriority, Sys.removeDonation]
  · simp [Sys.clearHolder, Sys.rePriority, Sys.removeDonation, hx]

theorem effect_release (h : OpInv v m) (hs : m.lockRelease t l = .ok m') :
    Effect m (.release t l) m' := by
  unfold Sys.lockRelease at hs
  split at hs
  · next hh =>
    unfold Sys.semaUp at hs
    split at hs
    · next hp =>
      cases hs
      refine .gave (o := none) hh (by simp) ?_ rfl rfl rfl ?_ ?_
      · intro w
        simp only [ne_eq, reduceCtorEq, not_false_eq_true, and_true]
        exact Iff.rfl
      · intro x w
        exact mem_clearHolder_donations
      · intro l'
        by_cases hl : l' = l
        · subst hl
          simp [Semaphore.incr]
          rfl
        · simp [hl]
          rfl
    · next w rest hp =>
      have hw : Waiting m w l := by
        refine h.waiting_of_waiter ?_
        have hmem : w ∈ w :: rest := List.mem_cons_self
        rw [← (Semaphore.popWaiter_perm hp).mem_iff] at hmem
        exact hmem
      split at hs
      · cases hs
        refine .gave (o := some w) hh (by rintro _ ⟨⟩; exact hw) ?_ rfl rfl rfl ?_ ?_
        · intro x
          show decide (update m.status w .ready x = .blocked) = true ↔
            decide (m.status x = .blocked) = true ∧ some w ≠ some x
          by_cases hx : x = w
          · subst hx
            simp
          · have hx' : w ≠ x := fun hc => hx hc.symm
            simp [hx, hx']
        · intro x y
          exact mem_clearHolder_donations
        · intro l'
          by_cases hl : l' = l
          · subst hl
            simp
            rfl
          · simp [hl]
            rfl
      · cases hs
  · cases hs

theorem effect_of_opStep (h : OpInv v m) (hs : opStep m a = .ok m') : Effect m a m' := by
  cases a with
  | acquire t l =>
    simp only [opStep] at hs
    split at hs
    · next hc => exact effect_acquire h hc hs
    · cases hs
  | release t l =>
    simp only [opStep, Bool.and_eq_true] at hs
    split at hs
    · exact effect_release h hs
    · cases hs
  | resume t =>
    simp only [opStep] at hs
    split at hs
    · next s l hpc =>
      split at hs
      · cases hs
      · next hb =>
        cases hs
        exact effect_resume h (by simpa using hb) hpc
    · cases hs

theorem OpInv.of_opStep (h : OpInv v m) (hs : opStep m a = .ok m') : OpInv v m' := by
  -- over the statements
  have hrun : Reach step Always m m' := by
    refine reach_of_opStep h.mlfqs ?_ hs
    intro t s l hpc
    obtain ⟨l', hpc', -⟩ := h.wait t (by rw [hpc]; simp)
    rw [hpc] at hpc'
    cases hpc'
    rfl
  have hsema : SemaInv v m' :=
    hrun.invariant h.sema (fun _ _ _ hi _ hs => hi.of_step hs)
  have hlock : LockInv m' :=
    hrun.invariant h.lock (fun _ _ _ hi _ hs => hi.of_step hs)
  have hmlfqs : m'.mlfqs = false :=
    hrun.invariant (I := fun m => m.mlfqs = false) h.mlfqs
      (fun _ _ _ hi _ hs => (step_mlfqs hs).trans hi)
  cases effect_of_opStep h hs with
  | @took _ _ t l ha hb hholder hblocked hpc hwait hholder' hdon hfree =>
    refine ⟨hmlfqs, hsema, hlock, ?_, ?_, ?_⟩
    · intro w hw
      rw [hwait]
      by_cases hwt : w = t
      · subst hwt
        simp
      · rw [update_of_ne hwt]
        exact h.user w (by simpa [hpc, hwt] using hw)
    · intro w hw
      have hwt : w ≠ t := by
        rintro rfl
        simp [hpc] at hw
      rw [hpc, hwait, update_of_ne hwt, update_of_ne hwt]
      exact h.wait w (by simpa [hpc, hwt] using hw)
    · intro l' hl'
      have hl : l' ≠ l := by
        rintro rfl
        simp [hholder'] at hl'
      rw [hfree l' hl]
      exact h.free l' (by simpa [hholder', hl] using hl')
  | @joined _ t u l hb hholder hblocked hpc hwait hholder' hdon hvalue =>
    refine ⟨hmlfqs, hsema, hlock, ?_, ?_, ?_⟩
    · intro w hw
      have hwt : w ≠ t := by
        rintro rfl
        simp [hpc] at hw
      rw [hwait, update_of_ne hwt]
      exact h.user w (by simpa [hpc, hwt] using hw)
    · intro w hw
      by_cases hwt : w = t
      · subst hwt
        exact ⟨l, by simp [hpc], by simp [hwait]⟩
      · rw [hpc, hwait, update_of_ne hwt, update_of_ne hwt]
        exact h.wait w (by simpa [hpc, hwt] using hw)
    · intro l' hl'
      rw [hvalue]
      exact h.free l' (hholder' ▸ hl')
  | @slept _ t u l hb hw hholder hblocked hpc hwait hholder' hdon hvalue =>
    refine ⟨hmlfqs, hsema, hlock, ?_, ?_, ?_⟩
    · intro w huser
      have hwt : w ≠ t := by
        rintro rfl
        simp [hpc] at huser
      rw [hwait]
      exact h.user w (by simpa [hpc, hwt] using huser)
    · intro w hw'
      by_cases hwt : w = t
      · subst hwt
        exact ⟨l, by simp [hpc], by rw [hwait]; exact hw⟩
      · rw [hpc, hwait, update_of_ne hwt]
        exact h.wait w (by simpa [hpc, hwt] using hw')
    · intro l' hl'
      rw [hvalue]
      exact h.free l' (hholder' ▸ hl')
  | @gave _ t l o hholder ho hblocked hpc hwait hholder' hdon hvalue =>
    refine ⟨hmlfqs, hsema, hlock, ?_, ?_, ?_⟩
    · intro w hw
      rw [hwait]
      exact h.user w (hpc ▸ hw)
    · intro w hw
      rw [hpc, hwait]
      exact h.wait w (hpc ▸ hw)
    · intro l' hl'
      rw [hvalue]
      by_cases hl : l' = l
      · subst hl
        rw [if_pos rfl, h.value_eq_zero hholder]
        decide
      · rw [if_neg hl]
        exact h.free l' (by simpa [hholder', hl] using hl')

/-! ## The donations -/

/-- **Exactly the operations that do not hand a contended lock over keep the donations exact.** -/
theorem donationsExact_iff (h : OpInv v m) (he : DonationsExact m) (hs : opStep m a = .ok m') :
    DonationsExact m' ↔ HandsOver m a := by
  have hinv := h.of_opStep hs
  have hmem : ∀ x w, w ∈ m.donations x ↔ ∃ l, Waiting m w l ∧ m.holder l = some x := by
    intro x w
    exact Set.ext_iff.mp (he x) w
  have hexact : DonationsExact m' ↔ ∀ x w, w ∈ m'.donations x ↔
      ∃ l, (m'.blocked w = true ∧ m'.waitOnLock w = some l) ∧ m'.holder l = some x := by
    simp only [DonationsExact, waitersOf, hinv.waiting_iff, Set.ext_iff, Set.mem_ofPred_eq]
  simp only [h.waiting_iff] at hmem
  rw [hexact]
  cases effect_of_opStep h hs with
  | @took _ _ t l ha hb hholder hblocked hpc hwait hholder' hdon hfree =>
    -- a thread asleep on `l` would now be asleep on a lock of `t`
    have hiff : HandsOver m a ↔ ∀ w, m.blocked w = true → m.waitOnLock w ≠ some l := by
      rcases ha with rfl | ⟨rfl, hw⟩
      · simp [HandsOver, h.waiting_iff, hholder]
      · simp [HandsOver, h.waiting_iff, hw, hholder]
    rw [hiff]
    constructor
    · intro hex w hbw hww
      have hwt : w ≠ t := by
        rintro rfl
        rw [hb] at hbw
        cases hbw
      have hin : w ∈ m'.donations t :=
        (hex t w).mpr ⟨l, ⟨by rw [hblocked]; exact hbw, by simp [hwait, hwt, hww]⟩,
          by simp [hholder']⟩
      rw [hdon] at hin
      obtain ⟨l', ⟨-, hl'⟩, hh⟩ := (hmem t w).mp hin
      rw [hww] at hl'
      cases hl'
      rw [hholder] at hh
      cases hh
    · intro hno x w
      rw [hdon, hmem, hblocked]
      constructor
      · rintro ⟨l', ⟨hbw, hww⟩, hh⟩
        have hwt : w ≠ t := by
          rintro rfl
          rw [hb] at hbw
          cases hbw
        have hl : l' ≠ l := by
          rintro rfl
          exact hno w hbw hww
        exact ⟨l', ⟨hbw, by simp [hwait, hwt, hww]⟩, by simp [hholder', hl, hh]⟩
      · rintro ⟨l', ⟨hbw, hww⟩, hh⟩
        have hwt : w ≠ t := by
          rintro rfl
          rw [hb] at hbw
          cases hbw
        have hww' : m.waitOnLock w = some l' := by simpa [hwait, hwt] using hww
        have hl : l' ≠ l := by
          rintro rfl
          exact hno w hbw hww'
        exact ⟨l', ⟨hbw, hww'⟩, by simpa [hholder', hl] using hh⟩
  | @joined _ t u l hb hholder hblocked hpc hwait hholder' hdon hvalue =>
    have hover : HandsOver m (.acquire t l) := by
      intro hc
      rw [hholder] at hc
      cases hc
    refine iff_of_true ?_ hover
    intro x w
    rw [hdon, hmem, hholder']
    by_cases hwt : w = t
    · subst hwt
      simp [hb, hblocked, hwait, hholder, eq_comm]
    · simp [hblocked, hwait, hwt]
  | @slept _ t u l hb hw hholder hblocked hpc hwait hholder' hdon hvalue =>
    have hover : ¬ HandsOver m (.resume t) := by
      intro hc
      rw [(hc l hw).1] at hholder
      cases hholder
    refine iff_of_false ?_ hover
    intro hex
    have hin : t ∈ m'.donations u :=
      (hex u t).mpr ⟨l, ⟨by simp [hblocked], by rw [hwait]; exact hw⟩,
        by rw [hholder']; exact hholder⟩
    rw [hdon] at hin
    obtain ⟨l', ⟨hbt, -⟩, -⟩ := (hmem u t).mp hin
    rw [hb] at hbt
    cases hbt
  | @gave _ t l o hholder ho hblocked hpc hwait hholder' hdon hvalue =>
    refine iff_of_true ?_ trivial
    intro x w
    rw [hdon, hmem, hwait, hblocked]
    constructor
    · rintro ⟨⟨l', ⟨hbw, hww⟩, hh⟩, hnot⟩
      have hl : l' ≠ l := by
        rintro rfl
        rw [hholder] at hh
        exact hnot ⟨(Option.some.inj hh).symm, hww⟩
      have hwo : o ≠ some w := by
        intro hc
        rw [(ho w hc).2.2] at hww
        exact hl (Option.some.inj hww).symm
      exact ⟨l', ⟨⟨hbw, hwo⟩, hww⟩, by simp [hholder', hl, hh]⟩
    · rintro ⟨l', ⟨⟨hbw, -⟩, hww⟩, hh⟩
      have hl : l' ≠ l := by
        rintro rfl
        simp [hholder'] at hh
      refine ⟨⟨l', ⟨hbw, hww⟩, by simpa [hholder', hl] using hh⟩, ?_⟩
      rintro ⟨-, hwl⟩
      rw [hww] at hwl
      exact hl (Option.some.inj hwl)

/-! ## Every run -/

variable {value : Nat → BitVec 32} {priority : Tid → Int}

theorem OpInv.of_boot : OpInv (initialValue value) (boot false value priority) where
  mlfqs := rfl
  sema := .of_boot false value priority
  lock := .of_boot false value priority
  user _ _ := rfl
  wait t h := absurd rfl h
  free l _ := by
    show (1 : BitVec 32) ≠ 0
    decide

theorem donationsExact_boot : DonationsExact (boot false value priority) := by
  intro t
  ext w
  constructor
  · intro hw
    cases hw
  · rintro ⟨l, ⟨hb, -, -⟩, -⟩
    cases hb

/--
**The donations of every thread are exact** as long as no lock is handed over while a thread is
asleep on it, and the first operation that hands one over breaks them.
-/
theorem donations_exact (h : Reach opStep HandsOver (boot false value priority) m) :
    DonationsExact m ∧ ∀ a m', opStep m a = .ok m' → (DonationsExact m' ↔ HandsOver m a) := by
  have hinv : OpInv (initialValue value) m ∧ DonationsExact m := by
    refine h.invariant (I := fun m => OpInv (initialValue value) m ∧ DonationsExact m)
      ⟨.of_boot, donationsExact_boot⟩ ?_
    rintro m a m' ⟨hi, he⟩ hc hs
    exact ⟨hi.of_opStep hs, (donationsExact_iff hi he hs).mpr hc⟩
  exact ⟨hinv.2, fun a m' hs => donationsExact_iff hinv.1 hinv.2 hs⟩

/-- A lock that somebody holds is not handed over. -/
theorem handsOver_of_held (hh : m.holder l = some u) : HandsOver m (.acquire t l) := by
  intro hc
  rw [hh] at hc
  cases hc

/-- Two waiters of one lock, up to its release. -/
theorem donations_exact_two_waiters : ∃ m : Sys,
    m.donations 1 = [2, 3] ∧ DonationsExact m ∧
    ∀ m', opStep m (.release 1 0) = .ok m' → DonationsExact m' := by
  have h₁ : Reach opStep HandsOver (boot false (fun _ => 0) (fun _ => 31)) _ :=
    .tail .refl (a := .acquire 1 0) (fun _ w hw => Bool.noConfusion hw.1) rfl
  have h₂ := h₁.tail (a := .acquire 2 0) (handsOver_of_held (u := 1) rfl) rfl
  have h₃ := h₂.tail (a := .acquire 3 0) (handsOver_of_held (u := 1) rfl) rfl
  obtain ⟨hexact, hnext⟩ := donations_exact h₃
  exact ⟨_, rfl, hexact, fun m' hs => (hnext _ m' hs).mpr trivial⟩

/--
Threads 2 and 3 sleep on the lock of thread 1. Once thread 2 has the lock, thread 3 still sleeps on
it and is not in the list of thread 2.
-/
theorem donations_missing_waiter : ∃ m : Sys,
    Reach opStep Always (boot false (fun _ => 0) (fun _ => 31)) m ∧
    Waiting m 3 0 ∧ m.holder 0 = some 2 ∧ m.donations 2 = [] ∧ ¬ DonationsExact m := by
  refine ⟨_, reach_of_exec
    [.acquire 1 0, .acquire 2 0, .acquire 3 0, .release 1 0, .resume 2] rfl,
    ⟨rfl, rfl, rfl⟩, rfl, rfl, ?_⟩
  intro hexact
  have hin := (Set.ext_iff.mp (hexact 2) 3).mpr ⟨0, ⟨rfl, rfl, rfl⟩, rfl⟩
  cases hin

end Pintos.Interleave
