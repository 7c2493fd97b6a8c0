import Pintos.Properties.Conditions

/-!
# The order of the waiters of a condition

`cond_wait` puts the new waiter in its place before that waiter sleeps, so that `sema_cmp_priority` looks for a thread
in an empty list.

* `Monitor.InOrder` — what the order of the waiters is for
* `Monitor.Single` — `cond_wait` finds nobody that waits
* `condition_order` — **the comparisons are of waiters as long as there is one waiter at a time**
-/

namespace Pintos.Interleave

open Function Machine

/-- Each comparison is of two threads that sleep, and the waiter that is woken has the highest priority. -/
structure Monitor.InOrder (m : Monitor) (a : CondAction) : Prop where
  compares : ∀ x y, m.Compares a x y → (semaCmpPriority m.sys x y).isSome = true
  wakes : ∀ t c w b, a = .next t → m.pc t = .up c w b → ∀ u ∈ m.waiters c, m.sys.priority u ≤ m.sys.priority w

/-- `list_insert_ordered` finds `cond->waiters` empty. -/
def Monitor.single (m : Monitor) : CondAction → Bool
  | .insert t _ =>
    match m.pc t with
    | .waitInsert c => m.waiters c = []
    | _ => true
  | _ => true

def Monitor.Single (m : Monitor) (a : CondAction) : Prop := m.single a = true

section

variable {lockOf : CondId → LockId} {v : SemaId → BitVec 32} {m m' : Monitor} {slot : Tid → Slot} {t u w : Tid}
  {c : CondId} {b : Bool} {a : CondAction} {before : Tid → Bool}

theorem Monitor.Single.nil (h : m.Single (.insert t before)) (hp : m.pc t = .waitInsert c) : m.waiters c = [] := by
  simp only [Monitor.Single, Monitor.single, hp] at h
  exact of_decide_eq_true h

theorem semaCmpPriority_isSome {sys : Sys} {x y : Tid} : (semaCmpPriority sys x y).isSome = true ↔
    (sys.sema (.plain (waiterSema x))).waiters ≠ [] ∧ (sys.sema (.plain (waiterSema y))).waiters ≠ [] := by
  unfold semaCmpPriority
  split
  · next hx hy => simp [hx, hy]
  · next hne =>
    refine ⟨nofun, fun ⟨hx, hy⟩ => ?_⟩
    obtain ⟨t, l, hx⟩ := List.exists_cons_of_ne_nil hx
    obtain ⟨u, l', hy⟩ := List.exists_cons_of_ne_nil hy
    exact absurd hy (hne t l u l' hx)

/-- Nobody sleeps on the semaphore of a thread that has not come to `sema_down`. -/
theorem Monitor.Inv.no_sleeper (h : m.Inv lockOf v slot) (hp : m.pc t = .waitInsert c) :
    (m.sys.sema (.plain (waiterSema t))).waiters = [] := by
  by_contra hne
  obtain ⟨u, hu⟩ := List.exists_mem_of_ne_nil _ hne
  obtain ⟨-, l, hpc⟩ := h.sema.waiter _ u hu
  obtain ⟨hown, c', hp'⟩ := (h.control u).of_down ⟨t, l, hpc⟩
  rw [hpc] at hown
  have hn : 2 * t = 2 * u := SemaId.plain.inj (Pc.downWait.inj hown).1
  obtain rfl : t = u := Nat.eq_of_mul_eq_mul_left (by decide) hn
  rw [hp] at hp'
  cases hp'

/-- A condition has one waiter at most, in its list or about to be woken. -/
structure Monitor.AtMostOne (m : Monitor) : Prop where
  waiters : ∀ c, (m.waiters c).length ≤ 1
  popped : ∀ t c w b, m.pc t = .up c w b → m.waiters c = []

/-- A thread goes on, and takes no waiter out. -/
theorem Monitor.AtMostOne.move {p : CondPc} (h : m.AtMostOne) (hw : m'.waiters = m.waiters)
    (hpc : m'.pc = update m.pc t p) (hp : ∀ c w b, p ≠ .up c w b) : m'.AtMostOne where
  waiters c := by
    rw [hw]
    exact h.waiters c
  popped u c w b hu := by
    rw [hpc] at hu
    rw [hw]
    by_cases hut : u = t
    · subst hut
      rw [update_self] at hu
      exact absurd hu (hp c w b)
    · rw [update_of_ne hut] at hu
      exact h.popped u c w b hu

/-- A thread that has the lock changes the list. -/
theorem Monitor.AtMostOne.change {p : CondPc} {l : List Tid} (h : m.AtMostOne) (hi : m.Inv lockOf v slot)
    (hc : (m.pc t).holds = some c) (hw : m'.waiters = update m.waiters c l) (hpc : m'.pc = update m.pc t p)
    (hl : l.length ≤ 1) (hp : ∀ c' w b, p = .up c' w b → c' = c ∧ l = []) : m'.AtMostOne where
  waiters c' := by
    rw [hw]
    by_cases hcc : c' = c
    · rwa [hcc, update_self]
    · rw [update_of_ne hcc]
      exact h.waiters c'
  popped u c' w b hu := by
    rw [hpc] at hu
    rw [hw]
    by_cases hut : u = t
    · subst hut
      rw [update_self] at hu
      obtain ⟨rfl, rfl⟩ := hp c' w b hu
      rw [update_self]
    · rw [update_of_ne hut] at hu
      -- nobody else is in a function of this condition
      have hne : c' ≠ c := fun hcc => hut (hi.alone (by rw [hu, hcc]; rfl) hc)
      rw [update_of_ne hne]
      exact h.popped u c' w b hu

theorem Monitor.AtMostOne.next (h : m.AtMostOne) (hi : m.Inv lockOf v slot) (hs : m.next lockOf t = .ok m') :
    m'.AtMostOne := by
  cases hp : m.pc t with
  | out | waitInsert | sort =>
    simp only [Monitor.next, hp] at hs
    cases hs
  | waitRelease | waitDown | waitAcquire =>
    simp only [Monitor.next, hp, Monitor.call] at hs
    split at hs
    · cases hs
      exact h.move rfl rfl fun _ _ _ => by rintro ⟨⟩
    · cases hs
  | waitReturn | signalReturn | broadcastReturn =>
    simp only [Monitor.next, hp] at hs
    cases hs
    exact h.move rfl rfl fun _ _ _ => by rintro ⟨⟩
  | broadcast =>
    simp only [Monitor.next, hp] at hs
    cases hs
    refine h.move rfl rfl fun _ _ _ => ?_
    split <;> rintro ⟨⟩
  | signal =>
    simp only [Monitor.next, hp] at hs
    split at hs
    · cases hs
      refine h.move rfl rfl fun _ _ _ => ?_
      split <;> rintro ⟨⟩
    · cases hs
  | pop c b =>
    simp only [Monitor.next, hp] at hs
    split at hs
    · cases hs
    · next w rest hl =>
      cases hs
      have hlen := h.waiters c
      rw [hl, List.length_cons] at hlen
      have hnil : rest = [] := List.length_eq_zero_iff.mp (by omega)
      refine h.change hi (by rw [hp]; rfl) rfl rfl (by rw [hnil]; exact Nat.zero_le 1) fun c' w' b' he => ?_
      cases he
      exact ⟨rfl, hnil⟩
  | up c w b =>
    simp only [Monitor.next, hp] at hs
    split at hs
    · cases hs
      refine h.move rfl rfl fun _ _ _ => ?_
      split <;> rintro ⟨⟩
    · cases hs

theorem Monitor.enter_move {p : CondPc} (he : m.enter lockOf t c p = .ok m') :
    m'.waiters = m.waiters ∧ m'.pc = update m.pc t p := by
  obtain ⟨-, -, -, rfl⟩ := Monitor.enter_ok he
  exact ⟨rfl, rfl⟩

/-- With one waiter at a time there stays one waiter at a time. -/
theorem Monitor.AtMostOne.step (h : m.AtMostOne) (hi : m.Inv lockOf v slot) (hsingle : m.Single a)
    (hs : m.step lockOf a = .ok m') : m'.AtMostOne := by
  cases a with
  | sys a =>
    simp only [Monitor.step] at hs
    split at hs
    · split at hs
      · cases hs
        exact ⟨h.waiters, h.popped⟩
      · cases hs
    · cases hs
  | wait t c =>
    simp only [Monitor.step] at hs
    split at hs
    · cases hs
    · next he =>
      split at hs
      · cases hs
        obtain ⟨hw, hpc⟩ := Monitor.enter_move he
        exact h.move hw hpc fun _ _ _ => by rintro ⟨⟩
      · cases hs
  | signal t c =>
    obtain ⟨hw, hpc⟩ := Monitor.enter_move hs
    exact h.move hw hpc fun _ _ _ => by rintro ⟨⟩
  | broadcast t c =>
    obtain ⟨hw, hpc⟩ := Monitor.enter_move hs
    exact h.move hw hpc fun _ _ _ => by rintro ⟨⟩
  | insert t before =>
    simp only [Monitor.step] at hs
    split at hs
    · next c hp =>
      split at hs
      · cases hs
        have hnil := hsingle.nil hp
        exact h.change hi (by rw [hp]; rfl) rfl rfl (by rw [hnil]; exact Nat.le_refl 1) fun _ _ _ => by rintro ⟨⟩
      · cases hs
    · cases hs
  | sort t sorting =>
    simp only [Monitor.step] at hs
    split at hs
    · next c b hp =>
      split at hs
      · split at hs
        · next l hl =>
          cases hs
          have hlen : l.length ≤ 1 := by
            rw [(sortWaiters_perm hl).length_eq]
            exact h.waiters c
          exact h.change hi (by rw [hp]; rfl) rfl rfl hlen fun _ _ _ => by rintro ⟨⟩
        · cases hs
      · cases hs
    · cases hs
  | next t =>
    simp only [Monitor.step] at hs
    split at hs
    · exact h.next hi hs
    · cases hs

/-- With one waiter nothing is compared. -/
theorem Monitor.AtMostOne.inOrder (h : m.AtMostOne) (hsingle : m.Single a) : m.InOrder a where
  compares x y hxy := by
    cases a with
    | insert t before =>
      obtain ⟨c, hp, hmem⟩ := hxy
      rw [hsingle.nil hp] at hmem
      exact absurd hmem List.not_mem_nil
    | sort t sorting =>
      cases sorting with
      | stable key =>
        obtain ⟨c, b, -, hmem⟩ := hxy
        rw [sortCalls_of_length_le_one (h.waiters c)] at hmem
        exact absurd hmem List.not_mem_nil
      | torn outcome =>
        obtain ⟨c, b, -, hx, hy, hne⟩ := hxy
        obtain ⟨z, hz⟩ := List.length_eq_one_iff.mp (le_antisymm (h.waiters c) (List.length_pos_of_mem hx))
        rw [hz, List.mem_singleton] at hx hy
        exact absurd (hx.trans hy.symm) hne
    | _ => exact hxy.elim
  wakes t c w b _ hp u hu := by
    rw [h.popped t c w b hp] at hu
    exact absurd hu List.not_mem_nil

/-- The first comparison of `cond_wait` is with an element of the list, and of a thread that does not sleep. -/
theorem Monitor.Inv.single_of_inOrder (h : m.Inv lockOf v slot) (ho : m.InOrder a) : m.Single a := by
  cases a with
  | insert t before =>
    show (match m.pc t with
      | .waitInsert c => decide (m.waiters c = [])
      | _ => true) = true
    split
    · next c hp =>
      refine decide_eq_true ?_
      by_contra hne
      obtain ⟨e, l, hl⟩ := List.exists_cons_of_ne_nil hne
      have hcalled : m.Compares (.insert t before) t e := ⟨c, hp, by rw [hl]; exact List.mem_cons_self⟩
      exact (semaCmpPriority_isSome.mp (ho.compares t e hcalled)).1 (h.no_sleeper hp)
    · rfl
  | _ => rfl

end

/-! ## Every run -/

variable {lockOf : CondId → LockId} {m m' : Monitor} {mlfqs : Bool} {value : Nat → BitVec 32} {priority : Tid → Int}
  {a : CondAction}

/-- `Fine`, and `cond_wait` finds nobody that waits. -/
def OneByOne (m : Monitor) (a : CondAction) : Prop := Fine m a ∧ m.Single a

theorem OneByOne.atMostOne (h : Reach (Monitor.step lockOf) OneByOne (Monitor.boot mlfqs value priority) m) :
    (∃ v slot, m.Inv lockOf v slot) ∧ m.AtMostOne := by
  obtain ⟨v, hboot⟩ := Monitor.Inv.of_boot lockOf mlfqs value priority
  have hinv : (∃ slot, m.Inv lockOf v slot) ∧ m.AtMostOne :=
    h.invariant (I := fun m => (∃ slot, m.Inv lockOf v slot) ∧ m.AtMostOne)
      ⟨⟨_, hboot⟩, fun _ => Nat.zero_le 1, fun _ _ _ _ => nofun⟩
      fun _ _ _ ⟨⟨_, hi⟩, hone⟩ hc hs => ⟨hi.step hc.1 hs, hone.step hi hc.2 hs⟩
  exact ⟨⟨v, hinv.1⟩, hinv.2⟩

/--
**The order of the waiters**, in every run in which `cond_signal` is called only while a thread waits: as long as
`cond_wait` has found nobody that waits, the next step compares only threads that sleep and wakes the one with the
highest priority if and only if it does not make a second thread wait.
-/
theorem condition_order (h : Reach (Monitor.step lockOf) OneByOne (Monitor.boot mlfqs value priority) m)
    (a : CondAction) : m.InOrder a ↔ m.Single a := by
  obtain ⟨⟨v, slot, hinv⟩, hone⟩ := OneByOne.atMostOne h
  exact ⟨hinv.single_of_inOrder, hone.inOrder⟩

/-- Thread 1 sleeps in `cond_wait`, and 2 calls it: there is no thread yet in the waiters of its semaphore. -/
theorem condition_order_two_waiters : ∃ m m' : Monitor,
    Reach (Monitor.step fun _ => 0) Fine (Monitor.boot true (fun _ => 0) fun _ => 31) m ∧
    m.step (fun _ => 0) (.insert 2 fun _ => false) = .ok m' ∧
    m.Compares (.insert 2 fun _ => false) 2 1 ∧ semaCmpPriority m.sys 2 1 = none := by
  have h : Reach (Monitor.step fun _ => 0) Fine (Monitor.boot true (fun _ => 0) fun _ => 31) _ :=
    reach_of_execIf (fun (m : Monitor) a (h : m.fine a = true) => h)
      [.sys (.lockAcquire 1 0), .sys (.step 1), .sys (.step 1), .wait 1 0, .insert 1 fun _ => false, .next 1,
        .sys (.step 1), .sys (.step 1), .sys (.step 1), .next 1,
        .sys (.lockAcquire 2 0), .sys (.step 2), .sys (.step 2), .wait 2 0] rfl
  exact ⟨_, _, h, rfl, ⟨0, rfl, List.mem_cons_self⟩, rfl⟩

/-- Thread 1 sleeps in `cond_wait`, and 2 is about to wake it. -/
theorem condition_order_one_waiter : ∃ m : Monitor, m.pc 2 = .up 0 1 false ∧ m.InOrder (.next 2) := by
  have h : Reach (Monitor.step fun _ => 0) OneByOne (Monitor.boot true (fun _ => 0) fun _ => 31) _ :=
    reach_of_execIf (fun (m : Monitor) a (h : (m.fine a && m.single a) = true) => (Bool.and_eq_true _ _).mp h)
      [.sys (.lockAcquire 1 0), .sys (.step 1), .sys (.step 1), .wait 1 0, .insert 1 fun _ => false, .next 1,
        .sys (.step 1), .sys (.step 1), .sys (.step 1), .next 1,
        .sys (.lockAcquire 2 0), .sys (.step 2), .sys (.step 2), .signal 2 0, .next 2, .sort 2 (.stable fun _ => 31),
        .next 2] rfl
  exact ⟨_, rfl, (condition_order h (.next 2)).mpr rfl⟩

end Pintos.Interleave
