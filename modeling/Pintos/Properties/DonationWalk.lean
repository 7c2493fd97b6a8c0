import Pintos.Lib.WaitsFor
import Pintos.Threads.Synch

/-!
# The walk of `priority_donation`

`lock_acquire` on a held lock gives the priority of its caller to the holder, to the holder of the
lock that one waits for, and so on, eight threads deep.

* `donees` — the threads the walk reaches
* `priorityDonation_walk` — each of them ends with the priority of the caller, nobody else changes
* `lockAcquire_maxDonated_iff` — so the walk takes the larger priority exactly when no thread on it
  had a higher one
-/

namespace Pintos.Interleave

open Function Machine WaitsFor

/-- The locks on the way once `t` waits for `l`. -/
def lockChain (m : Sys) (t : Tid) (l : LockId) : List LockId :=
  ahead m.holder (update m.waitOnLock t (some l)) 8 t

/-- The threads reached over holders and `wait_on_lock` once `t` waits for `l`. -/
def donees (m : Sys) (t : Tid) (l : LockId) : List Tid :=
  owners m.holder (update m.waitOnLock t (some l)) 8 t

/-- Each thread reached has the larger of its priority and that of `t`, the others have theirs. -/
def MaxDonated (m : Sys) (t : Tid) (l : LockId) (m' : Sys) : Prop :=
  ∀ u, m'.priority u =
    if u ∈ donees m t l then max (m.priority u) (m.priority t) else m.priority u

variable {m m' : Sys} {t u : Tid} {l : LockId}

/-- **Every thread on the walk ends with the priority of its first one.** -/
theorem priorityDonation_walk {n : Nat} :
    ∀ {m : Sys} {t : Tid}, (∀ l ∈ ahead m.holder m.waitOnLock n t, m.holder l ≠ none) →
      ∃ p, m.priorityDonation n t = .ok { m with priority := p } ∧
        ∀ u, p u = if u ∈ owners m.holder m.waitOnLock n t then m.priority t else m.priority u := by
  -- on the rounds: each one hands on the priority that the one before has written
  induction n with
  | zero =>
    intro m t _
    refine ⟨m.priority, rfl, fun u => ?_⟩
    cases hw : m.waitOnLock t with
    | none => simp [owners_of_wants_none hw]
    | some l => simp [owners, ahead_some hw, chain]
  | succ n ih =>
    intro m t hheld
    cases hw : m.waitOnLock t with
    | none =>
      refine ⟨m.priority, by simp [Sys.priorityDonation, hw], fun u => ?_⟩
      simp [owners_of_wants_none hw]
    | some l =>
      rw [ahead_some hw] at hheld
      obtain ⟨h, hh⟩ := Option.ne_none_iff_exists'.mp (hheld l mem_chain_self)
      rw [chain_owned hh] at hheld
      obtain ⟨p, hp, hpu⟩ := ih (m := { m with priority := update m.priority h (m.priority t) })
        (t := h) (fun x hx => hheld x (List.mem_cons_of_mem l hx))
      refine ⟨p, by simpa [Sys.priorityDonation, hw, hh] using hp, fun u => ?_⟩
      rw [hpu, owners_succ hw hh]
      by_cases huh : u = h
      · simp [huh]
      · simp [huh]

/-- The caller is put to sleep on a lock at 0. -/
theorem downAndSet_blocked (h0 : (m.sema (.lock l)).value = 0) :
    (m.downAndSet t l).blocked t = true := by
  rw [Sys.downAndSet, if_pos h0, Sys.semaDown, if_pos h0]
  simp

theorem downAndSet_priority (m : Sys) (t : Tid) (l : LockId) :
    (m.downAndSet t l).priority = m.priority := by
  unfold Sys.downAndSet Sys.semaDown
  split <;> rfl

/-- **What `lock_acquire` on a held lock does to the priorities.** -/
theorem lockAcquire_priority (hh : m.holder l = some u)
    (hheld : ∀ x ∈ lockChain m t l, m.holder x ≠ none) :
    ∃ m', m.lockAcquire t l = .ok m' ∧
      ((m.sema (.lock l)).value = 0 → m'.blocked t = true) ∧
      ∀ w, m'.priority w = if w ∈ donees m t l then m.priority t else m.priority w := by
  obtain ⟨p, hp, hpw⟩ := priorityDonation_walk (m := m.joinDonations t l u) (n := 8) (t := t) hheld
  refine ⟨Sys.downAndSet { m.joinDonations t l u with priority := p } t l, ?_, ?_, fun w => ?_⟩
  · simp only [Sys.lockAcquire, hh, hp]
  · intro h0
    exact downAndSet_blocked h0
  · rw [downAndSet_priority]
    exact hpw w

/-- A thread takes the larger of two priorities exactly when its own is not the larger one. -/
theorem maxDonated_iff
    (hp : ∀ w, m'.priority w = if w ∈ donees m t l then m.priority t else m.priority w) :
    MaxDonated m t l m' ↔ ∀ w ∈ donees m t l, m.priority w ≤ m.priority t := by
  constructor
  · intro hmax w hw
    have hmw := hmax w
    rw [hp w, if_pos hw, if_pos hw] at hmw
    omega
  · intro hle w
    rw [hp w]
    split
    · next hw => rw [max_eq_right (hle w hw)]
    · rfl

/--
**The walk donates the larger priority** exactly when no thread on it has a priority above that of
the caller.
-/
theorem lockAcquire_maxDonated_iff (hm : m.mlfqs = false) (hc : canCall m t = true)
    (hh : m.holder l = some u) (hheld : ∀ x ∈ lockChain m t l, m.holder x ≠ none) :
    ∃ m', opStep m (.acquire t l) = .ok m' ∧ Reach step Always m m' ∧
      ((m.sema (.lock l)).value = 0 → m'.blocked t = true) ∧
      (MaxDonated m t l m' ↔ ∀ w ∈ donees m t l, m.priority w ≤ m.priority t) := by
  obtain ⟨m', hacq, hblocked, hp⟩ := lockAcquire_priority hh hheld
  refine ⟨m', ?_, reach_lockAcquire hm hc hacq, hblocked, maxDonated_iff hp⟩
  simp only [opStep, hc, if_true, hacq]

/-- Thread 2 holds lock 0 and waits for lock 1 of thread 3; thread 1 has the highest priority. -/
theorem lockAcquire_maxDonated_chain : ∃ m : Sys,
    Reach opStep Always (boot false (fun _ => 0) fun t => 40 - t) m ∧ donees m 1 0 = [2, 3] ∧
    ∃ m', opStep m (.acquire 1 0) = .ok m' ∧ m'.blocked 1 = true ∧ MaxDonated m 1 0 m' := by
  let m₁ : Sys := ((boot false (fun _ => 0) fun t => 40 - t).downAndSet 2 0).downAndSet 3 1
  let m : Sys := Sys.downAndSet
    { m₁.joinDonations 2 1 3 with priority := update m₁.priority 3 (m₁.priority 2) } 2 1
  obtain ⟨m', hstep, -, hblocked, hiff⟩ :=
    lockAcquire_maxDonated_iff (m := m) (t := 1) (u := 2) (l := 0) rfl rfl rfl (by decide)
  exact ⟨m, reach_of_exec [.acquire 2 0, .acquire 3 1, .acquire 2 1] rfl, rfl, m', hstep,
    hblocked (by decide), hiff.mpr (by decide)⟩

/--
Thread 2 has priority 40 and holds lock 0. Thread 1 with priority 10 waits for the lock, and thread 2
goes on with priority 10.
-/
theorem lockAcquire_lowers_priority : ¬ ∀ (m : Sys) (t u : Tid) (l : LockId), m.mlfqs = false →
    canCall m t = true → Acyclic m.holder m.waitOnLock → m.holder l = some u →
    (∀ x ∈ lockChain m t l, m.holder x ≠ none) →
    ∀ m', opStep m (.acquire t l) = .ok m' → m'.blocked t = true → MaxDonated m t l m' := by
  intro hall
  -- after thread 2 has taken the lock
  let m₀ : Sys := boot false (fun _ => 0) fun t => if t = 2 then 40 else 10
  let m := m₀.downAndSet 2 0
  have hacyclic : Acyclic m.holder m.waitOnLock := by
    intro t ht
    obtain ⟨b, ⟨r, hr, -⟩, -⟩ := Relation.TransGen.head'_iff.mp ht
    have hnone : m.waitOnLock t = none := by
      show update m₀.waitOnLock 2 none t = none
      by_cases h2 : t = 2
      · simp [h2]
      · rw [update_of_ne h2]
        rfl
    rw [hnone] at hr
    cases hr
  have hmax := hall m 1 2 0 rfl rfl hacyclic rfl (by decide) _ rfl
    (downAndSet_blocked (by decide))
  have h2 := hmax 2
  revert h2
  decide

end Pintos.Interleave
