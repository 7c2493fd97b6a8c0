import Pintos.Properties.LockExclusion
import Pintos.Properties.Semaphore
import Pintos.Threads.Condition

/-!
# The waiters of condition variables

Each waiter is at one place: in the list of the condition, taken out of it by a thread that is about to up its
semaphore, or signalled (`Slot`).

* `Apart` — what the steps of other threads leave alone
* `ControlAt` — where a thread is in the functions below, and which locks it has
* `Slots` — the waiters and their semaphores
* `WakesAt` — what a call of `cond_signal` or `cond_broadcast` has done so far
* `Monitor.Inv` — the invariant, and what each statement does to it
-/

namespace Pintos.Interleave

open Function Machine

/-! ## Steps that touch no semaphore of a waiter -/

/-- The pc is in `sema_down` on the semaphore of a waiter. -/
def Pc.InWaiterDown (p : Pc) : Prop := ∃ n l, p = .downWait (.plain (2 * n)) l

/-- The pc is in `lock_acquire (l)`. -/
def Pc.Acquires (l : LockId) : Pc → Prop
  | .acqTest l' | .acqWait l' | .acqHolder l' | .acqInsert l' _ | .donTest l' _ _ | .donRead l' _ _
  | .donWrite l' _ _ _ | .acqDown l' | .acqClear l' | .acqSet l' => l' = l
  | .downWait s l' => s = .lock l ∧ l' = some l
  | _ => False

/-- `t` has taken a step, and touched no semaphore of a waiter. -/
structure Apart (m m' : Sys) (t : Tid) : Prop where
  pc : ∀ u, u ≠ t → m'.pc u = m.pc u
  held : ∀ u, u ≠ t → m'.held u = m.held u
  sema : ∀ n, m'.sema (.plain (2 * n)) = m.sema (.plain (2 * n))
  down : (m'.pc t).InWaiterDown → (m.pc t).InWaiterDown

section

variable {m m' : Sys} {t u : Tid} {s : SemaId} {l : Option LockId} {k : LockId} {n : Nat} {a : Action}

theorem Pc.Acquires.not_inWaiterDown {p : Pc} (h : p.Acquires k) : ¬ p.InWaiterDown := by
  rintro ⟨n, l, rfl⟩
  cases h.1

/-- Only the pc of `t` moves, and nothing else that counts here. -/
theorem Apart.move {p : Pc} (hp : m'.pc = update m.pc t p) (hh : ∀ u, u ≠ t → m'.held u = m.held u)
    (hs : ∀ n, m'.sema (.plain (2 * n)) = m.sema (.plain (2 * n))) (hd : p.InWaiterDown → (m.pc t).InWaiterDown) :
    Apart m m' t where
  pc u hu := by rw [hp, update_of_ne hu]
  held := hh
  sema := hs
  down h := by
    rw [hp, update_self] at h
    exact hd h

theorem sema_update_ne (hn : SemaId.plain (2 * n) ≠ s) (x : Semaphore) :
    update m.sema s x (.plain (2 * n)) = m.sema (.plain (2 * n)) := update_of_ne hn _ _

theorem afterDown_not_inWaiterDown : ¬ (m.afterDown l).InWaiterDown := by
  rintro ⟨n, l', h⟩
  cases l with
  | none => cases h
  | some k =>
    simp only [Sys.afterDown] at h
    split at h <;> cases h

/-- `sema_down` on another semaphore. -/
theorem apart_semaDown (hs : ∀ n, SemaId.plain (2 * n) ≠ s) : Apart m (m.semaDown t s l) t := by
  unfold Sys.semaDown
  split
  · refine .move (p := .downWait s l) rfl (fun _ _ => rfl) (fun n => sema_update_ne (hs n) _) ?_
    rintro ⟨n, l', h⟩
    cases h
    exact absurd rfl (hs n)
  · exact .move (p := m.afterDown l) rfl (fun _ _ => rfl) (fun n => sema_update_ne (hs n) _)
      fun h => absurd h afterDown_not_inWaiterDown

theorem apart_semaUp (hs : ∀ n, SemaId.plain (2 * n) ≠ s) (h : m.semaUp s = .ok m') :
    ∀ n, m'.sema (.plain (2 * n)) = m.sema (.plain (2 * n)) := by
  intro n
  unfold Sys.semaUp at h
  split at h
  · cases h
    exact sema_update_ne (hs n) _
  · split at h
    · cases h
      exact sema_update_ne (hs n) _
    · cases h

/-- A statement in `sema_down` on the semaphore of a waiter is that `sema_down`; any other touches none. -/
theorem Stmt.apart (h : Stmt m t m') (hcaller : ∀ s c, m.pc t = .downWait s c → ∀ l, s = .lock l ↔ c = some l) :
    Apart m m' t ∨ ∃ n, m.pc t = .downWait (.plain (2 * n)) none ∧ m' = m.semaDown t (.plain (2 * n)) none := by
  have hlock : ∀ (l : LockId) (n : Nat), SemaId.plain (2 * n) ≠ .lock l := fun _ _ => nofun
  have hmove : ∀ {p : Pc}, m'.pc = update m.pc t p → m'.held = m.held →
      (∀ n, m'.sema (.plain (2 * n)) = m.sema (.plain (2 * n))) → ¬ p.InWaiterDown → Apart m m' t :=
    fun hp hh hs hd => .move hp (fun u _ => congrFun hh u) hs fun h => absurd h hd
  cases h with
  | @downWait s c hpc =>
    cases s with
    | lock l => exact .inl (apart_semaDown fun n => hlock l n)
    | plain k =>
      have hc : c = none := by
        cases c with
        | none => rfl
        | some l => cases ((hcaller _ _ hpc l).mpr rfl)
      subst hc
      by_cases hk : ∃ n, k = 2 * n
      · obtain ⟨n, rfl⟩ := hk
        exact .inr ⟨n, hpc, rfl⟩
      · exact .inl (apart_semaDown fun n h => hk ⟨n, (SemaId.plain.inj h).symm⟩)
  | acqDown => exact .inl (apart_semaDown fun n => hlock _ n)
  | relUp hpc hu =>
    obtain ⟨hp, hh, -⟩ := semaUp_same hu
    refine .inl (hmove (p := .user) hp hh (fun n => ?_) nofun)
    exact apart_semaUp (fun n => hlock _ n) hu n
  | setHolder =>
    refine .inl (.move (p := .user) rfl (fun u hu => update_of_ne hu _ _) (fun _ => rfl) fun h => ?_)
    obtain ⟨n, l, h⟩ := h
    cases h
  | acqTest => exact .inl (hmove rfl rfl (fun _ => rfl) (by rintro ⟨n, l, h⟩; split at h <;> cases h))
  | donTest => exact .inl (hmove rfl rfl (fun _ => rfl) (by rintro ⟨n, l, h⟩; split at h <;> cases h))
  | relAssert => exact .inl (hmove rfl rfl (fun _ => rfl) (by rintro ⟨n, l, h⟩; split at h <;> cases h))
  | _ => exact .inl (hmove rfl rfl (fun _ => rfl) nofun)

theorem acquires_semaDown : ((m.semaDown t (.lock k) (some k)).pc t).Acquires k := by
  unfold Sys.semaDown
  split
  · show (update m.pc t _ t).Acquires k
    rw [update_self]
    exact ⟨rfl, rfl⟩
  · show (update m.pc t _ t).Acquires k
    rw [update_self]
    simp only [Sys.afterDown]
    split <;> rfl

/-- `lock_acquire` goes on, or has returned with the lock. -/
theorem Stmt.acquires (h : Stmt m t m') (ha : (m.pc t).Acquires k) :
    (m'.pc t).Acquires k ∨ m'.pc t = .user ∧ m'.held t k = true := by
  have hmove : ∀ {p : Pc}, m'.pc = update m.pc t p → p.Acquires k →
      (m'.pc t).Acquires k ∨ m'.pc t = .user ∧ m'.held t k = true := by
    intro p hp hk
    rw [hp, update_self]
    exact .inl hk
  cases h with
  | setHolder hpc =>
    rcases hpc with hpc | hpc <;> rw [hpc] at ha <;> cases ha
    refine .inr ⟨update_self _ _ _, ?_⟩
    show update m.held t (update (m.held t) k true) t k = true
    rw [update_self, update_self]
  | acqDown hpc =>
    rw [hpc] at ha
    cases ha
    exact .inl acquires_semaDown
  | downWait hpc =>
    rw [hpc] at ha
    obtain ⟨rfl, rfl⟩ := ha
    exact .inl acquires_semaDown
  | acqTest hpc =>
    rw [hpc] at ha
    exact hmove rfl (by split <;> exact ha)
  | donTest hpc =>
    rw [hpc] at ha
    exact hmove rfl (by split <;> exact ha)
  | acqWait hpc => exact hmove rfl (by rwa [hpc] at ha)
  | acqHolder hpc => exact hmove rfl (by rwa [hpc] at ha)
  | acqInsert hpc => exact hmove rfl (by rwa [hpc] at ha)
  | donRead hpc => exact hmove rfl (by rwa [hpc] at ha)
  | donWrite hpc => exact hmove rfl (by rwa [hpc] at ha)
  | acqClear hpc => exact hmove rfl (by rwa [hpc] at ha)
  | relAssert hpc => rw [hpc] at ha; exact ha.elim
  | relRemove hpc => rw [hpc] at ha; exact ha.elim
  | relPriority hpc => rw [hpc] at ha; exact ha.elim
  | relHolder hpc => rw [hpc] at ha; exact ha.elim
  | relUp hpc => rw [hpc] at ha; exact ha.elim
  | setPriority hpc => rw [hpc] at ha; exact ha.elim

/-- The thread that takes the step, if it is not an interrupt handler. -/
def Action.actor : Action → Option Tid
  | .step t | .lockAcquire t _ | .lockTryAcquire t _ | .lockRelease t _ | .semaDown t _ | .semaTryDown t _ | .semaUp t _
  | .setPriority t _ | .tear t _ _ => some t
  | .intrTryDown _ | .intrUp _ => none

/-- A call, on no semaphore of a waiter. -/
def Action.Other : Action → Prop
  | .step _ => False
  | .semaDown _ n | .semaTryDown _ n | .semaUp _ n | .intrTryDown n | .intrUp n => n % 2 = 1
  | _ => True

theorem plain_ne_of_odd (h : n % 2 = 1) (k : Nat) : SemaId.plain (2 * k) ≠ .plain n := by
  intro he
  cases he
  omega

theorem apart_semaTryDown (hs : ∀ n, SemaId.plain (2 * n) ≠ s) (m : Sys) (t : Tid) : Apart m (m.semaTryDown s).1 t := by
  obtain ⟨hp, hh, -⟩ := semaTryDown_same m s
  refine ⟨fun u _ => congrFun hp u, fun u _ => congrFun hh u, fun n => ?_, fun h => by rwa [hp] at h⟩
  unfold Sys.semaTryDown
  split
  · exact sema_update_ne (hs n) _
  · rfl

theorem Apart.of_semaUp (hs : ∀ n, SemaId.plain (2 * n) ≠ s) (h : m.semaUp s = .ok m') (t : Tid) : Apart m m' t := by
  obtain ⟨hp, hh, -⟩ := semaUp_same h
  exact ⟨fun u _ => congrFun hp u, fun u _ => congrFun hh u, apart_semaUp hs h, fun hd => by rwa [hp] at hd⟩

/-- Such a call leaves alone what is not the thread's. -/
theorem apart_call (h : step m a = .ok m') (ho : a.Other) (ht : ∀ u, a.actor = some u → u = t) : Apart m m' t := by
  have hmove : ∀ {p : Pc} {m₁ : Sys}, m₁.pc = update m.pc t p → (∀ u, u ≠ t → m₁.held u = m.held u) →
      (∀ n, m₁.sema (.plain (2 * n)) = m.sema (.plain (2 * n))) → ¬ p.InWaiterDown → Apart m m₁ t :=
    fun hp hh hs hd => .move hp hh hs fun h => absurd h hd
  cases a with
  | step u => exact ho.elim
  | lockAcquire u l =>
    obtain rfl := ht u rfl
    simp only [step] at h
    split at h
    · cases h
      exact hmove rfl (fun _ _ => rfl) (fun _ => rfl) (by rintro ⟨n, l, h⟩; split at h <;> cases h)
    · cases h
  | lockTryAcquire u l =>
    obtain rfl := ht u rfl
    simp only [step] at h
    split at h
    · cases h
    · split at h
      · cases h
      · cases h
        have htry := apart_semaTryDown (s := .lock l) (fun _ => by rintro ⟨⟩) m u
        refine hmove (p := if (m.semaTryDown (.lock l)).2 then .trySet l else .user) ?_ (fun v hv => htry.held v hv)
          htry.sema (by rintro ⟨n, l, h⟩; split at h <;> cases h)
        rw [← (semaTryDown_same m (.lock l)).1]
        rfl
  | lockRelease u l =>
    obtain rfl := ht u rfl
    simp only [step] at h
    split at h
    · cases h
      exact hmove rfl (fun v hv => update_of_ne hv _ _) (fun _ => rfl) (by rintro ⟨_, _, ⟨⟩⟩)
    · cases h
  | semaDown u n =>
    obtain rfl := ht u rfl
    simp only [step] at h
    split at h
    · cases h
      exact apart_semaDown (plain_ne_of_odd ho)
    · cases h
  | semaTryDown u n =>
    simp only [step] at h
    split at h
    · cases h
      exact apart_semaTryDown (plain_ne_of_odd ho) m t
    · cases h
  | semaUp u n =>
    simp only [step] at h
    split at h
    · exact .of_semaUp (plain_ne_of_odd ho) h t
    · cases h
  | setPriority u p =>
    obtain rfl := ht u rfl
    simp only [step] at h
    split at h
    · cases h
      split
      · exact ⟨fun _ _ => rfl, fun _ _ => rfl, fun _ => rfl, fun h => h⟩
      · exact hmove rfl (fun _ _ => rfl) (fun _ => rfl) (by rintro ⟨_, _, ⟨⟩⟩)
    · cases h
  | intrTryDown n =>
    cases h
    exact apart_semaTryDown (plain_ne_of_odd ho) m t
  | intrUp n => exact .of_semaUp (plain_ne_of_odd ho) h t
  | tear u donations p =>
    simp only [step] at h
    split at h
    · cases h
      exact ⟨fun _ _ => rfl, fun _ _ => rfl, fun _ => rfl, fun h => h⟩
    · cases h

end

/-! ## Where a thread is -/

/-- The condition of a function that is run with the lock. -/
def CondPc.holds : CondPc → Option CondId
  | .waitInsert c | .waitRelease c | .broadcast c | .broadcastReturn c | .signal c _ | .sort c _ | .pop c _ | .up c _ _
  | .signalReturn c => some c
  | _ => none

/-- The condition that the thread waits for, until `sema_down` returns. -/
def CondPc.waitsFor : CondPc → Pc → Option CondId
  | .waitRelease c, _ | .waitDown c, _ => some c
  | .waitAcquire c, q => if q = .user then none else some c
  | _, _ => none

/-- What the statement of a thread in the functions of conditions says about its statement and its locks below. -/
def ControlAt (lockOf : CondId → LockId) (t : Tid) (q : Pc) (held : LockId → Bool) : CondPc → Prop
  | .out | .waitDown _ => ¬ q.InWaiterDown
  | .waitAcquire _ => q = .user ∨ q = .downWait (.plain (2 * t)) none
  | .waitReturn c => q.Acquires (lockOf c) ∨ q = .user ∧ held (lockOf c) = true
  | p => q = .user ∧ ∀ c, p.holds = some c → held (lockOf c) = true

/-! ## The places of a waiter -/

inductive Slot where
  | idle
  /-- In the list of the condition. -/
  | queued (c : CondId)
  /-- Taken out by a thread that is about to up the semaphore. -/
  | popped (c : CondId) (s : Tid)
  | signalled (c : CondId)

def Slot.cond : Slot → Option CondId
  | .idle => none
  | .queued c | .popped c _ | .signalled c => some c

/-- The value of the semaphore. -/
def Slot.permits : Slot → BitVec 32
  | .signalled _ => 1
  | _ => 0

/-- The signals that are still to come. -/
def Slot.due : Slot → Nat
  | .queued _ | .popped _ _ => 1
  | _ => 0

structure Slots (m : Monitor) (slot : Tid → Slot) : Prop where
  queue : ∀ c t, t ∈ m.waiters c ↔ slot t = .queued c
  nodup : ∀ c, (m.waiters c).Nodup
  popped : ∀ c w s, slot w = .popped c s ↔ ∃ b, m.pc s = .up c w b
  value : ∀ t, (m.sys.sema (.plain (2 * t))).value = (slot t).permits
  waits : ∀ t, (slot t).cond = (m.pc t).waitsFor (m.sys.pc t)

/-! ## History -/

/-- The signals of a thread since it called `cond_wait`. -/
def CountAt (signals : CondId → Tid → Nat) (called : List Tid × (Tid → Nat)) (t : Tid) (slot : Slot) : CondPc → Prop
  | .waitInsert c => signals c t = called.2 t
  | .waitRelease c | .waitDown c | .waitAcquire c | .waitReturn c => signals c t + slot.due = called.2 t + 1
  | _ => True

/-- Of the waiters that the call found those in `done` were signalled, each once, and `rest` are still to be. -/
structure Woke (called : List Tid × (Tid → Nat)) (signals : Tid → Nat) (done rest : List Tid) : Prop where
  nodup : called.1.Nodup
  perm : called.1.Perm (done ++ rest)
  once : ∀ u, signals u = called.2 u + done.count u

/-- What a call of `cond_signal` or `cond_broadcast` has done so far. -/
def WakesAt (waiters : CondId → List Tid) (signals : CondId → Tid → Nat) (called : List Tid × (Tid → Nat)) :
    CondPc → Prop
  | .broadcast c => ∃ done, Woke called (signals c) done (waiters c)
  | .broadcastReturn c => waiters c = [] ∧ ∃ done, Woke called (signals c) done []
  | .signal c b | .sort c b | .pop c b =>
    waiters c ≠ [] ∧ ∃ done, (b = false → done = []) ∧ Woke called (signals c) done (waiters c)
  | .up c w b => ∃ done, (b = false → done = []) ∧ Woke called (signals c) done (w :: waiters c)
  | .signalReturn c => ∃ w, Woke called (signals c) [w] (waiters c)
  | _ => True

/-! ## The invariant -/

structure Monitor.Inv (lockOf : CondId → LockId) (v : SemaId → BitVec 32) (m : Monitor) (slot : Tid → Slot) : Prop where
  sema : SemaInv v m.sys
  lock : LockInv m.sys
  control : ∀ t, ControlAt lockOf t (m.sys.pc t) (m.sys.held t) (m.pc t)
  slots : Slots m slot
  count : ∀ t, CountAt m.signals (m.called t) t (slot t) (m.pc t)
  wakes : ∀ t, WakesAt m.waiters m.signals (m.called t) (m.pc t)

section

variable {lockOf : CondId → LockId} {v : SemaId → BitVec 32} {m m' : Monitor} {slot slot' : Tid → Slot} {t u s w : Tid}
  {c : CondId} {p : CondPc} {q : Pc} {sys : Sys} {x : Slot}

theorem Slot.cond_eq_none (h : x.cond = none) : x = .idle := by
  cases x with
  | idle => rfl
  | _ => cases h

theorem ControlAt.of_holds {held : LockId → Bool} (h : ControlAt lockOf t q held p) (hp : p.holds = some c) :
    q = .user ∧ held (lockOf c) = true := by
  cases p <;> cases hp <;> exact ⟨h.1, h.2 _ rfl⟩

theorem ControlAt.of_user {held : LockId → Bool} (hq : q = .user) (hh : held (lockOf c) = true) (hp : p.holds = some c) :
    ControlAt lockOf t q held p := by
  cases p <;> cases hp <;> exact ⟨hq, fun _ hc => by cases hc; exact hh⟩

/-- Who is in `sema_down` on the semaphore of a waiter is that waiter. -/
theorem ControlAt.of_down {held : LockId → Bool} (h : ControlAt lockOf t q held p) (hq : q.InWaiterDown) :
    q = .downWait (.plain (2 * t)) none ∧ ∃ c, p = .waitAcquire c := by
  have huser : q ≠ .user := by
    obtain ⟨n, l, rfl⟩ := hq
    exact nofun
  cases p with
  | out => exact absurd hq h
  | waitDown c => exact absurd hq h
  | waitAcquire c => exact ⟨h.resolve_left huser, c, rfl⟩
  | waitReturn c =>
    rcases h with h | h
    · exact absurd hq h.not_inWaiterDown
    · exact absurd h.1 huser
  | _ => exact absurd h.1 huser

/-- Two threads that have the lock are one. -/
theorem Monitor.Inv.alone (h : m.Inv lockOf v slot) (ht : (m.pc t).holds = some c) (hu : (m.pc u).holds = some c) :
    t = u :=
  (h.lock.permit (lockOf c)).unique t u (h.lock.owner_of_held ((h.control t).of_holds ht).2)
    (h.lock.owner_of_held ((h.control u).of_holds hu).2)

/-- The count of a thread that waits. -/
theorem CountAt.of_waits {signals : CondId → Tid → Nat} {called : List Tid × (Tid → Nat)}
    (h : p.waitsFor q = some c) : CountAt signals called t x p ↔ signals c t + x.due = called.2 t + 1 := by
  cases p with
  | waitRelease | waitDown =>
    cases h
    rfl
  | waitAcquire =>
    simp only [CondPc.waitsFor] at h
    split at h
    · cases h
    · cases h
      rfl
  | _ => cases h

theorem WakesAt.congr {waiters waiters' : CondId → List Tid} {signals signals' : CondId → Tid → Nat}
    {called : List Tid × (Tid → Nat)} (h : WakesAt waiters signals called p)
    (hc : ∀ c, p.holds = some c → waiters' c = waiters c ∧ signals' c = signals c) :
    WakesAt waiters' signals' called p := by
  unfold WakesAt at h ⊢
  split at h
  all_goals first | trivial | (obtain ⟨hw, hs⟩ := hc _ rfl; rw [hw, hs]; exact h)

end

/-! ## What a step of a thread leaves alone -/

section

variable {lockOf : CondId → LockId} {v : SemaId → BitVec 32} {m m' : Monitor} {slot slot' : Tid → Slot} {t u s w : Tid}
  {c : CondId} {p : CondPc} {q : Pc} {sys : Sys} {x : Slot} {called : List Tid × (Tid → Nat)}

/-- Where the other threads are. -/
theorem Monitor.Inv.control_others (h : m.Inv lockOf v slot) (hpc : ∀ u, u ≠ t → sys.pc u = m.sys.pc u)
    (hheld : ∀ u, u ≠ t → sys.held u = m.sys.held u) (ht : ControlAt lockOf t (sys.pc t) (sys.held t) p) :
    ∀ u, ControlAt lockOf u (sys.pc u) (sys.held u) (update m.pc t p u) := by
  intro u
  by_cases hu : u = t
  · subst hu
    rwa [update_self]
  · rw [update_of_ne hu, hpc u hu, hheld u hu]
    exact h.control u

/-- What other calls have done, when a thread with the lock has changed the list or signalled. -/
theorem Monitor.Inv.wakes_others (h : m.Inv lockOf v slot) (hc : (m.pc t).holds = some c) (l : List Tid) (f : Tid → Nat)
    (ht : WakesAt (update m.waiters c l) (update m.signals c f) (m.called t) p) :
    ∀ u, WakesAt (update m.waiters c l) (update m.signals c f) (m.called u) (update m.pc t p u) := by
  intro u
  by_cases hu : u = t
  · subst hu
    rwa [update_self]
  · rw [update_of_ne hu]
    refine (h.wakes u).congr fun c' hc' => ?_
    have hne : c' ≠ c := by
      rintro rfl
      exact hu (h.alone hc' hc)
    rw [update_of_ne hne, update_of_ne hne]
    exact ⟨rfl, rfl⟩

/-- The waiters stay where they are. -/
theorem Slots.move (h : Slots m slot) (hap : Apart m.sys sys t) (hwaits : (slot t).cond = p.waitsFor (sys.pc t))
    (hup : ∀ c w b, m.pc t = .up c w b ↔ p = .up c w b) :
    Slots { m with sys := sys, pc := update m.pc t p, called := update m.called t called } slot where
  queue := h.queue
  nodup := h.nodup
  popped c w s := by
    rw [h.popped]
    by_cases hs : s = t
    · subst hs
      simp only [update_self, hup]
    · simp only [update_of_ne hs]
  value u := by rw [← h.value u, ← hap.sema u]
  waits u := by
    by_cases hu : u = t
    · subst hu
      simp only [update_self, hwaits]
    · simp only [update_of_ne hu, hap.pc u hu]
      exact h.waits u

/-- A thread goes on, and the waiters stay where they are. -/
theorem Monitor.Inv.move (h : m.Inv lockOf v slot) (hsema : SemaInv v sys) (hlock : LockInv sys) (hap : Apart m.sys sys t)
    (hcontrol : ControlAt lockOf t (sys.pc t) (sys.held t) p) (hwaits : (slot t).cond = p.waitsFor (sys.pc t))
    (hup : ∀ c w b, m.pc t = .up c w b ↔ p = .up c w b) (hcount : CountAt m.signals called t (slot t) p)
    (hwakes : WakesAt m.waiters m.signals called p) :
    Inv lockOf v { m with sys := sys, pc := update m.pc t p, called := update m.called t called } slot := by
  refine ⟨hsema, hlock, h.control_others hap.pc hap.held hcontrol, h.slots.move hap hwaits hup, fun u => ?_, fun u => ?_⟩
  · by_cases hu : u = t
    · subst hu
      simpa only [update_self] using hcount
    · simpa only [update_of_ne hu] using h.count u
  · by_cases hu : u = t
    · subst hu
      simpa only [update_self] using hwakes
    · simpa only [update_of_ne hu] using h.wakes u

/-- The same, without a call. -/
theorem Monitor.Inv.goes (h : m.Inv lockOf v slot) (hsema : SemaInv v sys) (hlock : LockInv sys) (hap : Apart m.sys sys t)
    (hcontrol : ControlAt lockOf t (sys.pc t) (sys.held t) p) (hwaits : (slot t).cond = p.waitsFor (sys.pc t))
    (hup : ∀ c w b, m.pc t = .up c w b ↔ p = .up c w b) (hcount : CountAt m.signals (m.called t) t (slot t) p)
    (hwakes : WakesAt m.waiters m.signals (m.called t) p) :
    Inv lockOf v { m.setPc t p with sys := sys } slot := by
  have hmove := h.move hsema hlock hap hcontrol hwaits hup hcount hwakes
  rwa [update_eq_self] at hmove

theorem Apart.refl (sys : Sys) (t : Tid) : Apart sys sys t := ⟨fun _ _ => rfl, fun _ _ => rfl, fun _ => rfl, fun h => h⟩

/-- The same, with nothing done below. -/
theorem Monitor.Inv.setPc (h : m.Inv lockOf v slot) (hcontrol : ControlAt lockOf t (m.sys.pc t) (m.sys.held t) p)
    (hwaits : (slot t).cond = p.waitsFor (m.sys.pc t)) (hup : ∀ c w b, m.pc t = .up c w b ↔ p = .up c w b)
    (hcount : CountAt m.signals (m.called t) t (slot t) p) (hwakes : WakesAt m.waiters m.signals (m.called t) p) :
    Inv lockOf v (m.setPc t p) slot :=
  h.goes h.sema h.lock (.refl m.sys t) hcontrol hwaits hup hcount hwakes

end

/-! ## The statements -/

section

variable {lockOf : CondId → LockId} {v : SemaId → BitVec 32} {m m' : Monitor} {slot slot' : Tid → Slot} {t u s w : Tid}
  {c : CondId} {p : CondPc} {q : Pc} {sys : Sys} {x : Slot} {b : Bool} {l rest : List Tid}

theorem Monitor.Inv.slot_idle (h : m.Inv lockOf v slot) (hp : (m.pc t).waitsFor (m.sys.pc t) = none) : slot t = .idle :=
  Slot.cond_eq_none ((h.slots.waits t).trans hp)

/-- `sema_init` finds the semaphore of a thread that waits for nothing as it leaves it. -/
theorem Monitor.Inv.sema_idle (h : m.Inv lockOf v slot) (hslot : slot t = .idle) (hq : ¬ (m.sys.pc t).InWaiterDown) :
    m.sys.sema (.plain (waiterSema t)) = semaInit 0 := by
  have hvalue := h.slots.value t
  rw [hslot] at hvalue
  have hwaiters : (m.sys.sema (.plain (2 * t))).waiters = [] := by
    rw [List.eq_nil_iff_forall_not_mem]
    intro u hu
    obtain ⟨-, l, hpc⟩ := h.sema.waiter _ u hu
    have hdown : (m.sys.pc u).InWaiterDown := ⟨t, l, hpc⟩
    have hsame := ((h.control u).of_down hdown).1
    rw [hpc] at hsame
    have hn : 2 * t = 2 * u := SemaId.plain.inj (Pc.downWait.inj hsame).1
    obtain rfl : t = u := Nat.eq_of_mul_eq_mul_left (by decide) hn
    exact hq hdown
  show m.sys.sema (.plain (2 * t)) = ⟨0, []⟩
  rw [← hwaiters, ← show (m.sys.sema (.plain (2 * t))).value = 0 from hvalue]

/-- The new waiter is in the list. -/
theorem Monitor.Inv.insert (h : m.Inv lockOf v slot) (hpc : m.pc t = .waitInsert c) (before : Tid → Bool) :
    Inv lockOf v { m.setPc t (.waitRelease c) with
      waiters := update m.waiters c (listInsertOrdered (fun _ e => before e) t (m.waiters c)) }
      (update slot t (.queued c)) := by
  have hidle : slot t = .idle := h.slot_idle (by rw [hpc]; rfl)
  have hc : (m.pc t).holds = some c := by rw [hpc]; rfl
  have hcontrol := (h.control t).of_holds hc
  have hcount := h.count t
  rw [hpc] at hcount
  have hnot : ∀ c, t ∉ m.waiters c := by
    intro c ht
    rw [h.slots.queue, hidle] at ht
    cases ht
  refine ⟨h.sema, h.lock, h.control_others (fun _ _ => rfl) (fun _ _ => rfl) ⟨hcontrol.1, fun _ he => ?_⟩,
    ⟨fun c' u => ?_, fun c' => ?_, fun c' u s => ?_, fun u => ?_, fun u => ?_⟩, fun u => ?_, ?_⟩
  · cases he
    exact hcontrol.2
  · show u ∈ update m.waiters c _ c' ↔ _
    by_cases hc' : c' = c
    · subst hc'
      rw [update_self, mem_listInsertOrdered, h.slots.queue]
      by_cases hu : u = t
      · subst hu
        simp
      · simp [hu]
    · rw [update_of_ne hc', h.slots.queue]
      by_cases hu : u = t
      · subst hu
        rw [update_self, hidle]
        refine ⟨nofun, fun he => ?_⟩
        cases he
        exact absurd rfl hc'
      · rw [update_of_ne hu]
  · show (update m.waiters c _ c').Nodup
    by_cases hc' : c' = c
    · subst hc'
      rw [update_self, listInsertOrdered_nodup]
      exact ⟨hnot c', h.slots.nodup c'⟩
    · rw [update_of_ne hc']
      exact h.slots.nodup c'
  · have hpopped : (∃ b, update m.pc t (.waitRelease c) s = .up c' u b) ↔ ∃ b, m.pc s = .up c' u b := by
      by_cases hs : s = t
      · subst hs
        simp [hpc]
      · simp [hs]
    refine Iff.trans ?_ hpopped.symm
    rw [← h.slots.popped]
    by_cases hu : u = t
    · subst hu
      simp [hidle]
    · rw [update_of_ne hu]
  · refine (h.slots.value u).trans ?_
    by_cases hu : u = t
    · subst hu
      rw [update_self, hidle]
      rfl
    · rw [update_of_ne hu]
  · show _ = (update m.pc t _ u).waitsFor _
    by_cases hu : u = t
    · subst hu
      rw [update_self, update_self]
      rfl
    · rw [update_of_ne hu, update_of_ne hu]
      exact h.slots.waits u
  · show CountAt m.signals (m.called u) u _ (update m.pc t _ u)
    by_cases hu : u = t
    · subst hu
      rw [update_self, update_self]
      exact congrArg (· + 1) hcount
    · rw [update_of_ne hu, update_of_ne hu]
      exact h.count u
  · have hsignals : update m.signals c (m.signals c) = m.signals := update_eq_self c m.signals
    have hwakes := h.wakes_others (p := .waitRelease c) hc (listInsertOrdered (fun _ e => before e) t (m.waiters c))
      (m.signals c) trivial
    rwa [hsignals] at hwakes

/-- The list is sorted. -/
theorem Monitor.Inv.sort (h : m.Inv lockOf v slot) (hpc : m.pc t = .sort c b) (hl : l.Perm (m.waiters c)) :
    Inv lockOf v { m.setPc t (.pop c b) with waiters := update m.waiters c l } slot := by
  have hc : (m.pc t).holds = some c := by rw [hpc]; rfl
  have hcontrol := (h.control t).of_holds hc
  have hwakes := h.wakes t
  rw [hpc] at hwakes
  obtain ⟨hne, done, hdone, hwoke⟩ := hwakes
  have hslots : Slots { m with pc := update m.pc t (.pop c b), called := update m.called t (m.called t) } slot :=
    h.slots.move (.refl m.sys t) (by rw [h.slots.waits, hpc]; rfl) (by rw [hpc]; exact fun _ _ _ => ⟨nofun, nofun⟩)
  refine ⟨h.sema, h.lock, h.control_others (fun _ _ => rfl) (fun _ _ => rfl) ⟨hcontrol.1, fun _ he => ?_⟩,
    ⟨fun c' u => ?_, fun c' => ?_, hslots.popped, hslots.value, hslots.waits⟩, fun u => ?_, ?_⟩
  · cases he
    exact hcontrol.2
  · rw [← h.slots.queue]
    show u ∈ update m.waiters c l c' ↔ _
    by_cases hc' : c' = c
    · rw [hc', update_self, hl.mem_iff]
    · rw [update_of_ne hc']
  · show (update m.waiters c l c').Nodup
    by_cases hc' : c' = c
    · rw [hc', update_self, hl.nodup_iff]
      exact h.slots.nodup c
    · rw [update_of_ne hc']
      exact h.slots.nodup c'
  · show CountAt m.signals (m.called u) u _ (update m.pc t _ u)
    by_cases hu : u = t
    · subst hu
      rw [update_self]
      trivial
    · rw [update_of_ne hu]
      exact h.count u
  · have hkeep : update m.signals c (m.signals c) = m.signals := update_eq_self c m.signals
    have hothers := h.wakes_others (p := .pop c b) hc l (m.signals c)
      (by
        rw [WakesAt, update_self, update_self]
        refine ⟨?_, done, hdone, hwoke.nodup, hwoke.perm.trans (hl.symm.append_left done), hwoke.once⟩
        rintro rfl
        exact hne hl.nil_eq.symm)
    rwa [hkeep] at hothers

/-- A waiter is taken out of the list. -/
theorem Monitor.Inv.pop (h : m.Inv lockOf v slot) (hpc : m.pc t = .pop c b) (hl : m.waiters c = w :: rest) :
    Inv lockOf v { m.setPc t (.up c w b) with waiters := update m.waiters c rest } (update slot w (.popped c t)) := by
  have hc : (m.pc t).holds = some c := by rw [hpc]; rfl
  have hcontrol := (h.control t).of_holds hc
  have hwakes := h.wakes t
  rw [hpc] at hwakes
  obtain ⟨-, done, hdone, hwoke⟩ := hwakes
  rw [hl] at hwoke
  have hslot : slot w = .queued c := (h.slots.queue c w).mp (by rw [hl]; exact List.mem_cons_self)
  have hnodup := h.slots.nodup c
  rw [hl, List.nodup_cons] at hnodup
  refine ⟨h.sema, h.lock, h.control_others (fun _ _ => rfl) (fun _ _ => rfl) ⟨hcontrol.1, fun _ he => ?_⟩,
    ⟨fun c' u => ?_, fun c' => ?_, fun c' u s => ?_, fun u => ?_, fun u => ?_⟩, fun u => ?_, ?_⟩
  · cases he
    exact hcontrol.2
  · show u ∈ update m.waiters c rest c' ↔ _
    by_cases hu : u = w
    · subst hu
      rw [update_self]
      refine ⟨fun hmem => ?_, nofun⟩
      by_cases hc' : c' = c
      · subst hc'
        rw [update_self] at hmem
        exact absurd hmem hnodup.1
      · rw [update_of_ne hc', h.slots.queue, hslot] at hmem
        cases hmem
        exact absurd rfl hc'
    · rw [update_of_ne hu, ← h.slots.queue]
      by_cases hc' : c' = c
      · subst hc'
        rw [update_self, hl, List.mem_cons, or_iff_right hu]
      · rw [update_of_ne hc']
  · show (update m.waiters c rest c').Nodup
    by_cases hc' : c' = c
    · rw [hc', update_self]
      exact hnodup.2
    · rw [update_of_ne hc']
      exact h.slots.nodup c'
  · show _ ↔ ∃ b', update m.pc t (.up c w b) s = .up c' u b'
    by_cases hs : s = t
    · subst hs
      rw [update_self]
      by_cases hu : u = w
      · subst hu
        rw [update_self]
        constructor
        · rintro ⟨⟩
          exact ⟨b, rfl⟩
        · rintro ⟨b', he⟩
          cases he
          rfl
      · rw [update_of_ne hu, h.slots.popped, hpc]
        constructor
        · rintro ⟨_, ⟨⟩⟩
        · rintro ⟨b', he⟩
          cases he
          exact absurd rfl hu
    · rw [update_of_ne hs, ← h.slots.popped]
      by_cases hu : u = w
      · subst hu
        rw [update_self, hslot]
        constructor
        · rintro ⟨⟩
          exact absurd rfl hs
        · exact nofun
      · rw [update_of_ne hu]
  · refine (h.slots.value u).trans ?_
    by_cases hu : u = w
    · subst hu
      rw [update_self, hslot]
      rfl
    · rw [update_of_ne hu]
  · have hmove : (update m.pc t (.up c w b) u).waitsFor (m.sys.pc u) = (m.pc u).waitsFor (m.sys.pc u) := by
      by_cases hu : u = t
      · subst hu
        rw [update_self, hpc]
        rfl
      · rw [update_of_ne hu]
    refine Eq.trans ?_ hmove.symm
    rw [← h.slots.waits u]
    by_cases hu : u = w
    · subst hu
      rw [update_self, hslot]
      rfl
    · rw [update_of_ne hu]
  · show CountAt m.signals (m.called u) u _ (update m.pc t _ u)
    have hslots : CountAt m.signals (m.called u) u (update slot w (.popped c t) u) (m.pc u) := by
      by_cases hu : u = w
      · subst hu
        have hcount := h.count u
        rw [hslot] at hcount
        rw [update_self]
        exact hcount
      · rw [update_of_ne hu]
        exact h.count u
    by_cases hu : u = t
    · subst hu
      rw [update_self]
      trivial
    · rwa [update_of_ne hu]
  · have hkeep : update m.signals c (m.signals c) = m.signals := update_eq_self c m.signals
    have hothers := h.wakes_others (p := .up c w b) hc rest (m.signals c)
      ⟨done, hdone, by rw [update_self, update_self]; exact hwoke⟩
    rwa [hkeep] at hothers

end

/-! ## The semaphore of a waiter -/

section

variable {lockOf : CondId → LockId} {v : SemaId → BitVec 32} {m m' : Monitor} {slot slot' : Tid → Slot} {t u w : Tid}
  {c : CondId} {p : CondPc} {sys sys' : Sys} {s : SemaId} {b : Bool}

theorem semaUp_value (h : sys.semaUp s = .ok sys') :
    (sys'.sema s).value = (sys.sema s).value + 1 ∧ ∀ s', s' ≠ s → sys'.sema s' = sys.sema s' := by
  unfold Sys.semaUp at h
  split at h
  · cases h
    refine ⟨?_, fun s' hs => update_of_ne hs _ _⟩
    show (update sys.sema s _ s).value = _
    rw [update_self]
    rfl
  · split at h
    · cases h
      refine ⟨?_, fun s' hs => update_of_ne hs _ _⟩
      show (update sys.sema s _ s).value = _
      rw [update_self]
    · cases h

/-- Who waits is blocked, so that `thread_unblock` fails no assertion. -/
theorem SemaInv.exists_semaUp (h : SemaInv v sys) (s : SemaId) : ∃ sys', sys.semaUp s = .ok sys' := by
  unfold Sys.semaUp
  split
  · exact ⟨_, rfl⟩
  · next w rest hpop =>
    have hw : w ∈ (sys.sema s).waiters := (Semaphore.popWaiter_perm hpop).mem_iff.mpr List.mem_cons_self
    rw [if_pos (h.waiter s w hw).1]
    exact ⟨_, rfl⟩

/-- `sema_up` on the semaphore of the waiter that was taken out. -/
theorem Monitor.Inv.up (h : m.Inv lockOf v slot) (hpc : m.pc t = .up c w b) (hcan : canCall m.sys t = true)
    (hs : Interleave.step m.sys (.semaUp t (waiterSema w)) = .ok sys) :
    Inv lockOf v { m.setPc t (if b then .broadcast c else .signalReturn c) with
      sys := sys
      signals := update m.signals c (update (m.signals c) w (m.signals c w + 1)) } (update slot w (.signalled c)) := by
  have hc : (m.pc t).holds = some c := by rw [hpc]; rfl
  have hcontrol := (h.control t).of_holds hc
  have hwakes := h.wakes t
  rw [hpc] at hwakes
  obtain ⟨done, hdone, hwoke⟩ := hwakes
  have hslot : slot w = .popped c t := (h.slots.popped c w t).mpr ⟨b, hpc⟩
  have hup : m.sys.semaUp (.plain (2 * w)) = .ok sys := by
    have hs' := hs
    simp only [Interleave.step, hcan, if_true] at hs'
    exact hs'
  obtain ⟨hspc, hsheld, -⟩ := semaUp_same hup
  obtain ⟨hvalue, hothers⟩ := semaUp_value hup
  have hnew : ∀ p, p = (if b then CondPc.broadcast c else .signalReturn c) → p.holds = some c ∧ (∀ c' w' b', p ≠ .up c' w' b') ∧
      p.waitsFor (sys.pc t) = none := by
    rintro p rfl
    cases b <;> exact ⟨rfl, fun _ _ _ => by rintro ⟨⟩, rfl⟩
  obtain ⟨hholds, hnotup, hnotwaits⟩ := hnew _ rfl
  set p := (if b then CondPc.broadcast c else .signalReturn c) with hp
  have hcontrolp : ControlAt lockOf t (sys.pc t) (sys.held t) p := by
    rw [hspc, hsheld, hp]
    cases b <;> exact ⟨hcontrol.1, fun _ he => by cases he; exact hcontrol.2⟩
  refine ⟨h.sema.of_step hs, h.lock.of_step hs, h.control_others (fun _ _ => by rw [hspc]) (fun _ _ => by rw [hsheld]) hcontrolp,
    ⟨fun c' u => ?_, h.slots.nodup, fun c' u s => ?_, fun u => ?_, fun u => ?_⟩, fun u => ?_, ?_⟩
  · refine (h.slots.queue c' u).trans ?_
    by_cases hu : u = w
    · subst hu
      rw [update_self, hslot]
      exact ⟨by rintro ⟨⟩, by rintro ⟨⟩⟩
    · rw [update_of_ne hu]
  · show _ ↔ ∃ b', update m.pc t p s = .up c' u b'
    by_cases hst : s = t
    · subst hst
      rw [update_self]
      refine ⟨fun he => ?_, by rintro ⟨b', he⟩; exact absurd he (hnotup _ _ _)⟩
      by_cases hu : u = w
      · subst hu
        rw [update_self] at he
        cases he
      · rw [update_of_ne hu, h.slots.popped, hpc] at he
        obtain ⟨b', he⟩ := he
        cases he
        exact absurd rfl hu
    · rw [update_of_ne hst, ← h.slots.popped]
      by_cases hu : u = w
      · subst hu
        rw [update_self, hslot]
        refine ⟨by rintro ⟨⟩, fun he => ?_⟩
        cases he
        exact absurd rfl hst
      · rw [update_of_ne hu]
  · show (sys.sema (.plain (2 * u))).value = _
    by_cases hu : u = w
    · subst hu
      rw [hvalue, h.slots.value u, hslot, update_self]
      rfl
    · rw [update_of_ne hu, ← h.slots.value u, hothers]
      exact fun he => hu (Nat.eq_of_mul_eq_mul_left (by decide) (SemaId.plain.inj he))
  · have hmove : (update m.pc t p u).waitsFor (sys.pc u) = (m.pc u).waitsFor (m.sys.pc u) := by
      by_cases hu : u = t
      · subst hu
        rw [update_self, hpc]
        exact hnotwaits
      · rw [update_of_ne hu, hspc]
    refine Eq.trans ?_ hmove.symm
    rw [← h.slots.waits u]
    by_cases hu : u = w
    · subst hu
      rw [update_self, hslot]
      rfl
    · rw [update_of_ne hu]
  · show CountAt (update m.signals c _) (m.called u) u _ (update m.pc t p u)
    by_cases hu : u = t
    · subst hu
      rw [update_self, hp]
      cases b <;> trivial
    · rw [update_of_ne hu]
      have hcount := h.count u
      by_cases huw : u = w
      · subst huw
        -- the signal that was due
        have hwaits := h.slots.waits u
        rw [hslot] at hcount hwaits
        rw [update_self]
        rw [CountAt.of_waits hwaits.symm] at hcount
        refine (CountAt.of_waits hwaits.symm).mpr ?_
        rw [update_self, update_self]
        exact hcount
      · rw [update_of_ne huw]
        have hsame : ∀ c', update m.signals c (update (m.signals c) w (m.signals c w + 1)) c' u = m.signals c' u := by
          intro c'
          by_cases hc' : c' = c
          · rw [hc', update_self, update_of_ne huw]
          · rw [update_of_ne hc']
        unfold CountAt at hcount ⊢
        split at hcount <;> simp only [hsame] <;> exact hcount
  · have hkeep : update m.waiters c (m.waiters c) = m.waiters := update_eq_self c m.waiters
    have hw : WakesAt (update m.waiters c (m.waiters c))
        (update m.signals c (update (m.signals c) w (m.signals c w + 1))) (m.called t) p := by
      have hwoke' : Woke (m.called t) (update (m.signals c) w (m.signals c w + 1)) (done ++ [w]) (m.waiters c) := by
        refine ⟨hwoke.nodup, by rw [List.append_assoc]; exact hwoke.perm, fun u => ?_⟩
        rw [List.count_append, List.count_singleton]
        by_cases hu : u = w
        · subst hu
          rw [update_self, hwoke.once, if_pos (by simp)]
          omega
        · rw [update_of_ne hu, hwoke.once, if_neg (by simpa using Ne.symm hu)]
          omega
      rw [hp]
      cases b with
      | true => exact ⟨done ++ [w], by rw [update_self, update_self]; exact hwoke'⟩
      | false =>
        rw [hdone rfl] at hwoke'
        exact ⟨w, by rw [update_self, update_self]; exact hwoke'⟩
    have hothers := h.wakes_others hc (m.waiters c) _ hw
    rwa [hkeep] at hothers

/-- `sema_down` of a waiter: it sleeps, or it was signalled. -/
theorem Monitor.Inv.down (h : m.Inv lockOf v slot)
    (hpc : m.pc t = .waitDown c ∨ m.pc t = .waitAcquire c ∧ m.sys.pc t = .downWait (.plain (2 * t)) none)
    (hsema : SemaInv v (m.sys.semaDown t (.plain (2 * t)) none)) (hlock : LockInv (m.sys.semaDown t (.plain (2 * t)) none)) :
    ∃ slot', Inv lockOf v { m.setPc t (.waitAcquire c) with sys := m.sys.semaDown t (.plain (2 * t)) none } slot' := by
  have hnotup : ∀ c' w b, m.pc t ≠ .up c' w b := by
    rintro c' w b he
    rcases hpc with hpc | ⟨hpc, -⟩ <;> rw [hpc] at he <;> cases he
  have hcond : (slot t).cond = some c := by
    rw [h.slots.waits]
    rcases hpc with hpc | ⟨hpc, hq⟩
    · rw [hpc]
      rfl
    · rw [hpc, hq]
      rfl
  have hcount : m.signals c t + (slot t).due = (m.called t).2 t + 1 := by
    have hcount := h.count t
    rcases hpc with hpc | ⟨hpc, -⟩ <;> rw [hpc] at hcount <;> exact hcount
  have hwakes : ∀ u, WakesAt m.waiters m.signals (m.called u) (update m.pc t (.waitAcquire c) u) := by
    intro u
    by_cases hu : u = t
    · subst hu
      rw [update_self]
      trivial
    · rw [update_of_ne hu]
      exact h.wakes u
  have hpopped : ∀ c' w s, slot w = .popped c' s ↔ ∃ b, update m.pc t (.waitAcquire c) s = .up c' w b := by
    intro c' w s
    rw [h.slots.popped]
    by_cases hs : s = t
    · subst hs
      rw [update_self]
      exact ⟨fun ⟨b, he⟩ => absurd he (hnotup _ _ _), fun ⟨b, he⟩ => by cases he⟩
    · rw [update_of_ne hs]
  by_cases h0 : (m.sys.sema (.plain (2 * t))).value = 0
  · have hdown : m.sys.semaDown t (.plain (2 * t)) none =
        ((m.sys.setSema (.plain (2 * t)) ((m.sys.sema (.plain (2 * t))).enqueue m.sys.priority t)).setPc t
          (.downWait (.plain (2 * t)) none)).setStatus t .blocked := if_pos h0
    rw [hdown] at hsema hlock ⊢
    refine ⟨slot, hsema, hlock, h.control_others (fun u hu => update_of_ne hu _ _) (fun _ _ => rfl) ?_,
      ⟨h.slots.queue, h.slots.nodup, hpopped, fun u => ?_, fun u => ?_⟩, fun u => ?_, hwakes⟩
    · exact .inr (update_self _ _ _)
    · rw [← h.slots.value u]
      show (update m.sys.sema _ _ (.plain (2 * u))).value = _
      by_cases hu : SemaId.plain (2 * u) = .plain (2 * t)
      · rw [hu, update_self]
        rfl
      · rw [update_of_ne hu]
    · show _ = (update m.pc t _ u).waitsFor (update m.sys.pc t _ u)
      by_cases hu : u = t
      · subst hu
        rw [update_self, update_self, hcond]
        rfl
      · rw [update_of_ne hu, update_of_ne hu]
        exact h.slots.waits u
    · show CountAt m.signals (m.called u) u _ (update m.pc t _ u)
      by_cases hu : u = t
      · subst hu
        rw [update_self]
        exact hcount
      · rw [update_of_ne hu]
        exact h.count u
  · -- the permit is there: the waiter was signalled
    have hslot : slot t = .signalled c := by
      have hvalue := h.slots.value t
      cases hx : slot t with
      | signalled c' =>
        rw [hx] at hcond
        cases hcond
        rfl
      | _ =>
        rw [hx] at hvalue
        exact absurd hvalue h0
    have hdown : m.sys.semaDown t (.plain (2 * t)) none = (m.sys.take (.plain (2 * t))).setPc t .user := if_neg h0
    rw [hdown] at hsema hlock ⊢
    rw [hslot] at hcount
    refine ⟨update slot t .idle, hsema, hlock, h.control_others (fun u hu => update_of_ne hu _ _) (fun _ _ => rfl) ?_,
      ⟨fun c' u => ?_, h.slots.nodup, fun c' u s => ?_, fun u => ?_, fun u => ?_⟩, fun u => ?_, hwakes⟩
    · exact .inl (update_self _ _ _)
    · refine (h.slots.queue c' u).trans ?_
      by_cases hu : u = t
      · subst hu
        rw [update_self, hslot]
        exact ⟨nofun, nofun⟩
      · rw [update_of_ne hu]
    · refine Iff.trans ?_ (hpopped c' u s)
      by_cases hu : u = t
      · subst hu
        rw [update_self, hslot]
        exact ⟨nofun, nofun⟩
      · rw [update_of_ne hu]
    · show (update m.sys.sema _ _ (.plain (2 * u))).value = _
      by_cases hu : u = t
      · subst hu
        rw [update_self, update_self]
        show (m.sys.sema (.plain (2 * u))).value - 1 = 0
        rw [h.slots.value u, hslot]
        exact (by decide : (1 : BitVec 32) - 1 = 0)
      · rw [update_of_ne hu, update_of_ne, h.slots.value u]
        exact fun he => hu (Nat.eq_of_mul_eq_mul_left (by decide) (SemaId.plain.inj he))
    · show _ = (update m.pc t _ u).waitsFor (update m.sys.pc t _ u)
      by_cases hu : u = t
      · subst hu
        rw [update_self, update_self, update_self]
        rfl
      · rw [update_of_ne hu, update_of_ne hu, update_of_ne hu]
        exact h.slots.waits u
    · show CountAt m.signals (m.called u) u _ (update m.pc t _ u)
      by_cases hu : u = t
      · subst hu
        rw [update_self, update_self]
        exact hcount
      · rw [update_of_ne hu, update_of_ne hu]
        exact h.count u

end

end Pintos.Interleave
