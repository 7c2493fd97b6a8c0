import Pintos.Threads.Interleave

/-!
# `lock_acquire` and `lock_release` as one step

The operations of `threads/synch.c` up to their blocking point, on the state of `Interleave`. A
thread that was woken in `sema_down` goes on with `resume`.

* `opStep` — one operation
* `reach_of_opStep` — an operation is a run of statements of its thread, with nothing in between
-/

namespace Pintos.Interleave

open Function Machine

namespace Sys

/-- The loop of `priority_donation` with `n` rounds left. -/
def priorityDonation (m : Sys) : Nat → Tid → Except Fault Sys
  | 0, _ => .ok m
  | n + 1, curr =>
    match m.waitOnLock curr with
    | none => .ok m
    | some l =>
      match m.holder l with
      | none => .error .nullHolder
      | some h => priorityDonation { m with priority := update m.priority h (m.priority curr) } n h

/-- The caller waits for `l` and joins the donations of its holder `h`. -/
def joinDonations (m : Sys) (t : Tid) (l : LockId) (h : Tid) : Sys :=
  { m with
    waitOnLock := update m.waitOnLock t (some l)
    donations := update m.donations h (listInsertOrdered (cmpPriority m.priority) t (m.donations h)) }

/-- The end of `lock_acquire`, with the permit. -/
def setHolder (m : Sys) (t : Tid) (l : LockId) : Sys :=
  { m.setPc t .user with
    waitOnLock := update m.waitOnLock t none
    holder := update m.holder l (some t)
    held := update m.held t (update (m.held t) l true) }

/-- `lock_acquire` from `sema_down (&lock->semaphore)` on. -/
def downAndSet (m : Sys) (t : Tid) (l : LockId) : Sys :=
  if (m.sema (.lock l)).value = 0 then m.semaDown t (.lock l) (some l)
  else (m.semaDown t (.lock l) (some l)).setHolder t l

def lockAcquire (m : Sys) (t : Tid) (l : LockId) : Except Fault Sys :=
  match m.holder l with
  | none => .ok (m.downAndSet t l)
  | some h =>
    match (m.joinDonations t l h).priorityDonation 8 t with
    | .ok m => .ok (m.downAndSet t l)
    | .error f => .error f

/-- `lock_release` up to `sema_up`. -/
def clearHolder (m : Sys) (t : Tid) (l : LockId) : Sys :=
  let m := (m.removeDonation t l).rePriority t
  { m with
    holder := update m.holder l none
    held := update m.held t (update (m.held t) l false) }

def lockRelease (m : Sys) (t : Tid) (l : LockId) : Except Fault Sys :=
  if m.holder l = some t then (m.clearHolder t l).semaUp (.lock l)
  else .error .assertHeld

end Sys

inductive OpAction where
  | acquire (t : Tid) (l : LockId)
  | release (t : Tid) (l : LockId)
  /-- A thread woken in `sema_down` runs again. -/
  | resume (t : Tid)

def opStep (m : Sys) : OpAction → Except Fault Sys
  | .acquire t l => if canCall m t then m.lockAcquire t l else .error .disabled
  | .release t l => if canCall m t && m.held t l then m.lockRelease t l else .error .disabled
  | .resume t =>
    match m.pc t with
    | .downWait _ (some l) => if m.blocked t then .error .disabled else .ok (m.downAndSet t l)
    | _ => .error .disabled

/-! ## An operation is a run of statements -/

/-- The pc of `t` after two writes is the second one. -/
theorem setPc_setPc (m : Sys) (t : Tid) (p q : Pc) : (m.setPc t p).setPc t q = m.setPc t q := by
  simp [Sys.setPc, update_idem]

theorem priorityDonation_setPc (t : Tid) (p : Pc) : ∀ (n : Nat) (m : Sys) (curr : Tid),
    (m.setPc t p).priorityDonation n curr =
      (m.priorityDonation n curr).map (fun m => m.setPc t p)
  | 0, _, _ => rfl
  | n + 1, m, curr => by
    cases hw : m.waitOnLock curr with
    | none => simp [Sys.priorityDonation, hw, Except.map]
    | some l =>
      cases hh : m.holder l with
      | none => simp [Sys.priorityDonation, hw, hh, Except.map]
      | some h =>
        simp only [Sys.priorityDonation, Sys.setPc_waitOnLock, Sys.setPc_holder, hw, hh]
        exact priorityDonation_setPc t p n { m with
          priority := update m.priority h (m.priority curr) } h

/-- The loop writes priorities only. -/
theorem priorityDonation_frame : ∀ {n : Nat} {m m' : Sys} {curr : Tid},
    m.priorityDonation n curr = .ok m' →
      m' = { m with priority := m'.priority }
  | 0, m, m', curr, h => by
    cases h
    rfl
  | n + 1, m, m', curr, h => by
    rw [Sys.priorityDonation] at h
    split at h
    · cases h
      rfl
    · split at h
      · cases h
      · have hrest := priorityDonation_frame h
        exact hrest

theorem semaDown_setPc (m : Sys) (t : Tid) (s : SemaId) (l : Option LockId) (p : Pc) :
    (m.setPc t p).semaDown t s l = m.semaDown t s l := by
  unfold Sys.semaDown
  by_cases h0 : (m.sema s).value = 0
  · rw [if_pos (by exact h0), if_pos h0]
    simp [Sys.setPc, Sys.setSema, Sys.setStatus, update_idem]
  · rw [if_neg (by exact h0), if_neg h0]
    show ((m.take s).setPc t p).setPc t (m.afterDown l) = (m.take s).setPc t (m.afterDown l)
    exact setPc_setPc _ t p _

theorem downAndSet_setPc (m : Sys) (t : Tid) (l : LockId) (p : Pc) :
    (m.setPc t p).downAndSet t l = m.downAndSet t l := by
  rw [Sys.downAndSet, Sys.downAndSet, semaDown_setPc]
  rfl

/-- `sema_down` and what follows it in `lock_acquire`. -/
theorem reach_downAndSet {m : Sys} {t : Tid} {l : LockId} (hm : m.mlfqs = false)
    (hb : m.blocked t = false)
    (hpc : m.pc t = .acqDown l ∨ m.pc t = .downWait (.lock l) (some l)) :
    Reach step Always m (m.downAndSet t l) := by
  have hdown : step m (.step t) = .ok (m.semaDown t (.lock l) (some l)) := by
    rcases hpc with hpc | hpc <;> simp [step, stepThread, hb, hpc]
  have h₁ : Reach step Always m (m.semaDown t (.lock l) (some l)) :=
    .tail .refl trivial hdown
  unfold Sys.downAndSet
  split
  · exact h₁
  · next h0 =>
    have hs : m.semaDown t (.lock l) (some l) = (m.take (.lock l)).setPc t (.acqClear l) := by
      rw [Sys.semaDown, if_neg h0]
      simp [Sys.afterDown, hm]
    rw [hs] at h₁ ⊢
    have h₂ : Reach step Always m { (m.take (.lock l)).setPc t (.acqSet l) with
        waitOnLock := update m.waitOnLock t none } := by
      refine h₁.tail trivial (a := .step t) ?_
      simp [step, stepThread, hb, setPc_setPc]
    refine h₂.tail trivial (a := .step t) ?_
    have hst : m.status t ≠ .blocked := by simpa [Sys.blocked] using hb
    simp [step, stepThread, Sys.blocked, hst, Sys.setPc, Sys.setHolder, update_idem]

/-- The loop of `priority_donation`. -/
theorem reach_priorityDonation {t : Tid} {l : LockId} {n : Nat} :
    ∀ {m m' : Sys} {depth : Nat} {curr : Tid}, m.blocked t = false →
      m.pc t = .donTest l depth curr → 8 - depth = n → m.priorityDonation n curr = .ok m' →
      Reach step Always m (m'.setPc t (.acqDown l)) := by
  induction n with
  | zero =>
    intro m m' depth curr hb hpc hn hd
    cases hd
    refine .tail .refl trivial (a := .step t) ?_
    have hd : ¬ depth < 8 := by omega
    simp [step, stepThread, hb, hpc, hd]
  | succ n ih =>
    intro m m' depth curr hb hpc hn hd
    have hlt : depth < 8 := by omega
    rw [Sys.priorityDonation] at hd
    cases hw : m.waitOnLock curr with
    | none =>
      rw [hw] at hd
      cases hd
      refine .tail .refl trivial (a := .step t) ?_
      simp [step, stepThread, hb, hpc, hw]
    | some l' =>
      rw [hw] at hd
      cases hh : m.holder l' with
      | none =>
        simp only [hh] at hd
        cases hd
      | some h =>
        simp only [hh] at hd
        -- test, read and write, then the rest of the loop
        have h₁ : Reach step Always m (m.setPc t (.donRead l depth curr)) := by
          refine .tail .refl trivial (a := .step t) ?_
          simp [step, stepThread, hb, hpc, hw, hlt]
        have h₂ : Reach step Always m (m.setPc t (.donWrite l depth curr (some h))) := by
          refine h₁.tail trivial (a := .step t) ?_
          simp [step, stepThread, hb, hw, hh, setPc_setPc]
        have h₃ : Reach step Always m (Sys.setPc { m with
            priority := update m.priority h (m.priority curr) } t (.donTest l (depth + 1) h)) := by
          refine h₂.tail trivial (a := .step t) ?_
          have hst : m.status t ≠ .blocked := by simpa [Sys.blocked] using hb
          simp [step, stepThread, Sys.blocked, hst, Sys.setPc, update_idem]
        refine h₃.trans ?_
        have hrest : Reach step Always (Sys.setPc { m with
            priority := update m.priority h (m.priority curr) } t (.donTest l (depth + 1) h))
            ((m'.setPc t (.donTest l (depth + 1) h)).setPc t (.acqDown l)) := by
          have hpc' : (Sys.setPc { m with priority := update m.priority h (m.priority curr) } t
              (.donTest l (depth + 1) h)).pc t = .donTest l (depth + 1) h := by simp
          exact ih hb hpc' (by omega) (by rw [priorityDonation_setPc, hd]; rfl)
        rwa [setPc_setPc] at hrest

/-- `lock_acquire` up to `thread_block` or to its return. -/
theorem reach_lockAcquire {m m' : Sys} {t : Tid} {l : LockId} (hm : m.mlfqs = false)
    (hc : canCall m t = true) (h : m.lockAcquire t l = .ok m') : Reach step Always m m' := by
  have hb : m.blocked t = false := (canCall_iff.mp hc).2
  have hst : m.status t ≠ .blocked := by simpa [Sys.blocked] using hb
  have h₁ : Reach step Always m (m.setPc t (.acqTest l)) := by
    refine .tail .refl trivial (a := .lockAcquire t l) ?_
    simp [step, hc, hm]
  unfold Sys.lockAcquire at h
  split at h
  · next hh =>
    cases h
    have h₂ : Reach step Always m (m.setPc t (.acqDown l)) := by
      refine h₁.tail trivial (a := .step t) ?_
      simp [step, stepThread, hb, hh, setPc_setPc]
    rw [← downAndSet_setPc m t l (.acqDown l)]
    exact h₂.trans (reach_downAndSet hm hb (by simp))
  · next u hh =>
    split at h
    · next m₁ hd =>
      cases h
      -- the four statements before the loop
      have h₂ : Reach step Always m (m.setPc t (.acqWait l)) := by
        refine h₁.tail trivial (a := .step t) ?_
        simp [step, stepThread, hb, hh, setPc_setPc]
      have h₃ : Reach step Always m { m.setPc t (.acqHolder l) with
          waitOnLock := update m.waitOnLock t (some l) } := by
        refine h₂.tail trivial (a := .step t) ?_
        simp [step, stepThread, hb, setPc_setPc]
      have h₄ : Reach step Always m { m.setPc t (.acqInsert l u) with
          waitOnLock := update m.waitOnLock t (some l) } := by
        refine h₃.tail trivial (a := .step t) ?_
        simp [step, stepThread, Sys.blocked, hst, hh, Sys.setPc, update_idem]
      have h₅ : Reach step Always m ((m.joinDonations t l u).setPc t (.donTest l 0 t)) := by
        refine h₄.tail trivial (a := .step t) ?_
        simp [step, stepThread, Sys.blocked, hst, Sys.joinDonations, Sys.setPc, update_idem]
      have h₆ : Reach step Always ((m.joinDonations t l u).setPc t (.donTest l 0 t))
          ((m₁.setPc t (.donTest l 0 t)).setPc t (.acqDown l)) :=
        reach_priorityDonation hb (show update m.pc t (.donTest l 0 t) t = .donTest l 0 t by simp)
          rfl (by rw [priorityDonation_setPc, hd]; rfl)
      rw [setPc_setPc] at h₆
      have hframe := priorityDonation_frame hd
      have hm₁ : m₁.mlfqs = m.mlfqs := by rw [hframe]; rfl
      have hs₁ : m₁.status = m.status := by rw [hframe]; rfl
      rw [← downAndSet_setPc m₁ t l (.acqDown l)]
      refine (h₅.trans h₆).trans (reach_downAndSet ?_ ?_ (by simp))
      · exact hm₁.trans hm
      · show m₁.blocked t = false
        rw [Sys.blocked, hs₁]
        exact hb
    · cases h

/-- `lock_release`. -/
theorem reach_lockRelease {m m' : Sys} {t : Tid} {l : LockId} (hm : m.mlfqs = false)
    (hc : canCall m t = true) (hheld : m.held t l = true) (h : m.lockRelease t l = .ok m') :
    Reach step Always m m' := by
  obtain ⟨hpc, hb⟩ := canCall_iff.mp hc
  have hst : m.status t ≠ .blocked := by simpa [Sys.blocked] using hb
  unfold Sys.lockRelease at h
  split at h
  · next hh =>
    have h₁ : Reach step Always m { m.setPc t (.relAssert l) with
        held := update m.held t (update (m.held t) l false) } := by
      refine .tail .refl trivial (a := .lockRelease t l) ?_
      simp [step, hc, hheld]
    have h₂ : Reach step Always m { m.setPc t (.relRemove l) with
        held := update m.held t (update (m.held t) l false) } := by
      refine h₁.tail trivial (a := .step t) ?_
      simp [step, stepThread, Sys.blocked, hst, hh, hm, Sys.setPc, update_idem]
    have h₃ : Reach step Always m { (m.removeDonation t l).setPc t (.relPriority l) with
        held := update m.held t (update (m.held t) l false) } := by
      refine h₂.tail trivial (a := .step t) ?_
      simp [step, stepThread, Sys.blocked, hst, Sys.removeDonation, Sys.setPc, update_idem]
      refine congrArg (update m.donations t) (List.filter_congr fun d _ => ?_)
      by_cases hd : m.waitOnLock d = some l <;> simp [hd]
    have h₄ : Reach step Always m { ((m.removeDonation t l).rePriority t).setPc t (.relHolder l) with
        held := update m.held t (update (m.held t) l false) } := by
      refine h₃.tail trivial (a := .step t) ?_
      simp [step, stepThread, Sys.blocked, hst, Sys.removeDonation, Sys.rePriority, Sys.setPc,
        update_idem]
    have h₅ : Reach step Always m ((m.clearHolder t l).setPc t (.relUp l)) := by
      refine h₄.tail trivial (a := .step t) ?_
      have hst' : ((m.removeDonation t l).rePriority t).status t ≠ .blocked := hst
      simp [step, stepThread, Sys.blocked, hst', Sys.clearHolder, Sys.setPc, update_idem]
      rfl
    refine h₅.tail trivial (a := .step t) ?_
    have hst' : (m.clearHolder t l).status t ≠ .blocked := hst
    have hpc' : (m.clearHolder t l).pc t = .user := hpc
    have hu : ((m.clearHolder t l).setPc t (.relUp l)).setPc t .user = m.clearHolder t l := by
      rw [setPc_setPc]
      unfold Sys.setPc
      rw [← hpc', update_eq_self]
    simp only [step, stepThread]
    rw [if_neg (by simp [Sys.blocked, hst'])]
    simp only [Sys.setPc_pc, update_self]
    rw [hu, h]
  · cases h

/-- **An operation is a run of its thread**, so what holds over every interleaving holds here. -/
theorem reach_of_opStep {m m' : Sys} {a : OpAction} (hm : m.mlfqs = false)
    (hw : ∀ t s l, m.pc t = .downWait s (some l) → s = .lock l) (h : opStep m a = .ok m') :
    Reach step Always m m' := by
  cases a with
  | acquire t l =>
    simp only [opStep] at h
    split at h
    · next hc => exact reach_lockAcquire hm hc h
    · cases h
  | release t l =>
    simp only [opStep, Bool.and_eq_true] at h
    split at h
    · next hc => exact reach_lockRelease hm hc.1 hc.2 h
    · cases h
  | resume t =>
    simp only [opStep] at h
    split at h
    · next s l hpc =>
      split at h
      · cases h
      · next hb =>
        cases h
        rw [hw t s l hpc] at hpc
        exact reach_downAndSet hm (by simpa using hb) (Or.inr hpc)
    · cases h

end Pintos.Interleave
