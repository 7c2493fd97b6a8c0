import Pintos.Properties.ReadyList
import Pintos.Threads.Dispatch

/-!
# Round robin

Threads of one priority run in the order in which they entered `ready_list`.

* `behind_listInsertOrdered` — `list_insert_ordered` puts a thread behind those of its priority
* `Logged.Fair` — the log so far is one of a queue that keeps this order
* `round_robin` — **who was there first runs first**, in every run that leaves the priorities as they are
-/

namespace Pintos

open Function Machine RoundRobin

/-! ## Insertion -/

theorem sublist_listInsertOrdered {α : Type*} (less : α → α → Bool) (x : α) :
    ∀ l : List α, l.Sublist (listInsertOrdered less x l)
  | [] => List.nil_sublist _
  | e :: l => by
    rw [listInsertOrdered]
    split
    · exact List.sublist_cons_self x _
    · exact (sublist_listInsertOrdered less x l).cons_cons e

/-- The new one comes behind those of its priority. -/
theorem behind_listInsertOrdered {priority : Tid → Int} {t u : Tid} : ∀ {l : List Tid},
    l.Pairwise (fun t u => priority u ≤ priority t) → u ∈ l → priority u = priority t →
    [u, t].Sublist (listInsertOrdered (cmpPriority priority) t l)
  | [], _, hu, _ => absurd hu List.not_mem_nil
  | e :: l, ho, hu, hp => by
    obtain ⟨he, ho⟩ := List.pairwise_cons.mp ho
    rw [listInsertOrdered]
    split
    · next hlt =>
      -- then nobody in the list has the priority of `t`
      have hlt : priority e < priority t := of_decide_eq_true hlt
      rcases List.mem_cons.mp hu with rfl | hu
      · exact absurd hp hlt.ne
      · exact absurd hp ((he u hu).trans_lt hlt).ne
    · rcases List.mem_cons.mp hu with rfl | hu
      · refine List.Sublist.cons_cons u (List.singleton_sublist.mpr ?_)
        exact mem_listInsertOrdered.mpr (.inl rfl)
      · exact (behind_listInsertOrdered ho hu hp).cons e

namespace Kernel

/-- No priority changes, but for the one that `thread_create` gives to a new thread. -/
def KeepsPriorities (k : Kernel) (a : KernelAction) : Prop :=
  (∃ t p, a = .threadCreate t p) ∨ ∀ k', step k a = .ok k' → k'.priority = k.priority

theorem schedule_next {k k' : Kernel} (hk : k.schedule = .ok k') :
    k.nextThreadToRun = (some k'.current, k'.readyList) ∧ k'.priority = k.priority := by
  simp only [Kernel.schedule] at hk
  split at hk
  · cases hk
  · next next ready hn =>
    rw [hn]
    split at hk
    · cases hk
    · split at hk
      · next hcur =>
        cases hk
        exact ⟨congrArg (fun t => (some t, ready)) hcur.symm, rfl⟩
      · split at hk <;> cases hk <;> exact ⟨rfl, rfl⟩

theorem lift_readyList {k k' : Kernel} {r : Except Interleave.Fault Interleave.Sys} (hk : k.lift r = .ok k') :
    k'.readyList = k.readyList := by
  cases r with
  | ok m =>
    cases hk
    rfl
  | error f => cases hk

theorem fitsReady_of_keepsPriorities {k k' : Kernel} {a : KernelAction} (ho : k.Ordered) (hc : KeepsPriorities k a)
    (hk : step k a = .ok k') : FitsReady k a := by
  unfold FitsReady
  split
  · split
    · next l depth curr h hpc =>
      have hp : k'.priority = update k.priority h (k.priority curr) := by
        simp only [step] at hk
        split at hk
        · cases hk
        · simp only [Kernel.stmt, hpc, Interleave.stepThread] at hk
          split at hk
          · cases hk
          · cases hk
            rfl
      have hsame : k'.priority = k.priority := by
        rcases hc with ⟨t, p, hc⟩ | hc
        · cases hc
        · exact hc k' hk
      have hh : k.priority curr = k.priority h := by
        have hat := congrFun (hp.symm.trans hsame) h
        rwa [update_self] at hat
      rintro l₁ l₂ hl
      unfold Ordered at ho
      rw [hl] at ho
      obtain ⟨-, hright, hcross⟩ := List.pairwise_append.mp ho
      rw [hh]
      exact ⟨fun t ht => hcross t ht h List.mem_cons_self, (List.pairwise_cons.mp hright).1⟩
    · trivial
  · trivial

end Kernel

namespace Logged

open Kernel (Ordered)

def Fair (s : Logged) : Prop := RoundRobin.Fair s.priority s.readyList s.log

/-- The log is fair, `ready_list` is ordered, and its threads are `THREAD_READY`. -/
structure Turns (s : Logged) : Prop where
  fair : s.Fair
  ordered : s.toKernel.Ordered
  listed : ∀ t ∈ s.readyList, s.status t = .ready

section

variable {s s' : Logged} {t : Tid} {l : List Tid} {ticks : Int} {sema : SemaId} {caller : Option LockId} {b : Bool}
  {a : KernelAction} {k : Kernel} {r : Except Halt Logged} {q : Except Halt Kernel}

theorem toKernel_of_erase (hr : erase r = q) (h : r = .ok s') : q = .ok s'.toKernel := by
  rw [← hr, h]
  rfl

theorem Fair.setKernel (h : s.Fair) (hr : k.readyList = s.readyList) (hp : k.priority = s.priority) :
    (s.setKernel k).Fair := by
  show RoundRobin.Fair k.priority k.readyList s.log
  rw [hr, hp]
  exact h

theorem Turns.setKernel (h : s.Turns) (hr : k.readyList = s.readyList) (hp : k.priority = s.priority)
    (hs : k.status = s.status) : (s.setKernel k).Turns where
  fair := h.fair.setKernel hr hp
  ordered := by
    show k.readyList.Pairwise fun t u => k.priority u ≤ k.priority t
    rw [hr, hp]
    exact h.ordered
  listed := by
    show ∀ t ∈ k.readyList, k.status t = .ready
    rw [hr, hs]
    exact h.listed

theorem Turns.notMem (h : s.Turns) (ht : s.status t ≠ .ready) : t ∉ s.readyList := fun hc => ht (h.listed t hc)

theorem Turns.insertReady (h : s.Turns) (ht : t ∉ s.readyList) : (s.insertReady t).Fair :=
  RoundRobin.Fair.step h.fair (.enter ht (listInsertOrdered_perm _ t _) (sublist_listInsertOrdered _ t _)
    fun _ hu hp => behind_listInsertOrdered h.ordered hu hp)

theorem Fair.schedule (h : s.Fair) (hk : s.schedule = .ok s') : s'.Fair := by
  unfold Logged.schedule at hk
  split at hk
  · next k hsched =>
    cases hk
    obtain ⟨hnext, hp⟩ := Kernel.schedule_next hsched
    show RoundRobin.Fair k.priority k.readyList _
    unfold Kernel.nextThreadToRun at hnext
    unfold Logged.Fair at h
    rw [hp]
    split at hnext
    · next hnil =>
      obtain ⟨-, hready⟩ := Prod.mk.inj hnext
      rw [hnil] at h
      rw [← hready]
      exact RoundRobin.Fair.step h .idle
    · next u l hl =>
      obtain ⟨hcur, rfl⟩ := Prod.mk.inj hnext
      rw [hl] at h
      rw [← Option.some.inj hcur]
      exact RoundRobin.Fair.step h .run
  · cases hk

theorem Fair.doSchedule {st : ThreadStatus} (h : s.Fair) (hk : s.doSchedule st = .ok s') : s'.Fair := by
  unfold Logged.doSchedule at hk
  split at hk
  · split at hk
    · refine Fair.schedule ?_ hk
      exact h.setKernel rfl rfl
    · cases hk
  · cases hk

theorem Fair.threadBlock (h : s.Fair) (hk : s.threadBlock = .ok s') : s'.Fair := by
  unfold Logged.threadBlock at hk
  split at hk
  · refine Fair.schedule ?_ hk
    exact h.setKernel rfl rfl
  · cases hk

theorem Turns.threadYield (h : s.Turns) (hk : s.threadYield = .ok s') : s'.Fair := by
  unfold Logged.threadYield at hk
  split at hk
  · have hrun : s.status s.current = .running := by
      unfold Logged.doSchedule at hk
      split at hk
      · assumption
      · cases hk
    exact (h.insertReady (h.notMem (by rw [hrun]; nofun))).doSchedule hk
  · exact h.fair.doSchedule hk

theorem Turns.threadComparePriority (h : s.Turns) (hk : s.threadComparePriority = .ok s') : s'.Fair := by
  unfold Logged.threadComparePriority at hk
  split at hk
  · cases hk
    exact h.fair
  · split at hk
    · exact h.threadYield hk
    · cases hk
      exact h.fair

/-- `thread_unblock` leaves what the rest of a step needs. -/
theorem Turns.threadUnblock (h : s.Turns) (hk : s.threadUnblock t = .ok s') : s'.Turns := by
  have ho := (Kernel.Requeued.threadUnblock (toKernel_of_erase (erase_threadUnblock s t) hk)).1.ordered h.ordered
  unfold Logged.threadUnblock at hk
  split at hk
  · next hst =>
    cases hk
    refine ⟨h.insertReady (h.notMem (by rw [hst]; nofun)), ho, fun u hu => ?_⟩
    show update s.status t .ready u = .ready
    by_cases hut : u = t
    · rw [hut, update_self]
    · rw [update_of_ne hut]
      exact h.listed u ((mem_listInsertOrdered.mp hu).resolve_left hut)
  · cases hk

theorem Turns.threadAwakeFrom (h : s.Turns) (hk : s.threadAwakeFrom ticks l = .ok s') : s'.Turns := by
  induction l generalizing s with
  | nil =>
    cases hk
    exact h
  | cons t l ih =>
    rw [Logged.threadAwakeFrom] at hk
    split at hk
    · split at hk
      · next s₁ h₁ =>
        refine ih (Turns.threadUnblock ?_ h₁) hk
        exact h.setKernel rfl rfl rfl
      · cases hk
    · exact ih h hk

theorem Fair.threadSleep (h : s.Fair) (hk : s.threadSleep ticks = .ok s') : s'.Fair := by
  unfold Logged.threadSleep at hk
  split at hk
  · refine Fair.threadBlock ?_ hk
    exact h.setKernel rfl rfl
  · cases hk
    exact h

theorem Fair.semaDown (h : s.Fair) (hk : s.semaDown sema caller = .ok s') : s'.Fair := by
  unfold Logged.semaDown at hk
  split at hk
  · refine Fair.threadBlock ?_ hk
    exact h.setKernel rfl rfl
  · next h0 =>
    cases hk
    refine h.setKernel rfl ?_
    show (s.toSys.semaDown s.current sema caller).priority = s.priority
    rw [Interleave.Sys.semaDown, if_neg h0]
    rfl

theorem Turns.semaUp (h : s.Turns) (hk : s.semaUp sema b = .ok s') : s'.Fair := by
  have hrest : ∀ s₁ : Logged, s₁.Turns →
      (if b then .ok (s₁.setKernel (s₁.toKernel.raise sema))
        else (s₁.setKernel (s₁.toKernel.raise sema)).threadComparePriority) = Except.ok s' → s'.Fair := by
    intro s₁ h₁ hk₁
    split at hk₁
    · cases hk₁
      exact h₁.fair
    · refine Turns.threadComparePriority ?_ hk₁
      exact h₁.setKernel rfl rfl rfl
  unfold Logged.semaUp at hk
  cases hp : (s.sema sema).popWaiter s.priority with
  | none =>
    simp only [hp] at hk
    exact hrest s h hk
  | some w =>
    obtain ⟨w, rest⟩ := w
    simp only [hp] at hk
    split at hk
    · cases hk
    · next s₁ h₁ =>
      refine hrest s₁ (Turns.threadUnblock ?_ h₁) hk
      exact h.setKernel rfl rfl rfl

theorem Fair.initThread {p : Int} (h : s.Fair) (ht : t ∉ s.readyList) (hk : s.initThread t p = .ok s') : s'.Fair := by
  unfold Logged.initThread at hk
  split at hk
  · next k hinit =>
    cases hk
    unfold Kernel.initThread at hinit
    split at hinit
    · cases hinit
      exact RoundRobin.Fair.create h ht fun u hu => update_of_ne hu _ _
    · cases hinit
  · cases hk

/-- What changes neither `ready_list` nor a priority. -/
theorem Fair.quiet {q : Except Halt Kernel} (h : s.Fair) (hr : ∀ k, q = .ok k → k.readyList = s.readyList)
    (hp : ∀ k, q = .ok k → k.priority = s.priority) (hk : s.quiet q = .ok s') : s'.Fair := by
  cases q with
  | ok k =>
    cases hk
    exact h.setKernel (hr k rfl) (hp k rfl)
  | error e => cases hk

/-- The statements of `synch.c` that call no function of the scheduler. -/
theorem stmt_readyList {k k' : Kernel} (h₁ : ∀ l, k.pc k.current ≠ .acqDown l)
    (h₂ : ∀ sema l, k.pc k.current ≠ .downWait sema l) (h₃ : ∀ l, k.pc k.current ≠ .relUp l) (hk : k.stmt = .ok k') :
    k'.readyList = k.readyList := by
  unfold Kernel.stmt at hk
  split at hk
  · next hpc => exact absurd hpc (h₁ _)
  · next hpc => exact absurd hpc (h₂ _ _)
  · next hpc => exact absurd hpc (h₃ _)
  · have hready := Kernel.lift_readyList hk
    exact hready
  · exact Kernel.lift_readyList hk

theorem Turns.stmt (h : s.Turns) (hp : ∀ k, s.toKernel.stmt = .ok k → k.priority = s.priority) (hk : s.stmt = .ok s') :
    s'.Fair := by
  unfold Logged.stmt at hk
  split at hk
  · exact h.fair.semaDown hk
  · exact h.fair.semaDown hk
  · refine Turns.semaUp ?_ hk
    exact h.setKernel rfl rfl rfl
  · next h₁ h₂ h₃ => exact h.fair.quiet (fun k hq => stmt_readyList h₁ h₂ h₃ hq) hp hk

/-- A call that goes to `synch.c` only. -/
theorem ite_lift_readyList {k k' : Kernel} {c : Bool} {m : Except Interleave.Fault Interleave.Sys}
    (hk : (if c then k.lift m else .error .disabled) = Except.ok k') : k'.readyList = k.readyList := by
  split at hk
  · exact Kernel.lift_readyList hk
  · cases hk

/-- **Every step keeps the log fair.** -/
theorem Turns.step (h : s.Turns) (hm : s.mlfqs = false) (hs : Kernel.Sched s.toKernel (some s.current))
    (hc : s.toKernel.KeepsPriorities a) (hk : s.step a = .ok s') : s'.Fair := by
  have hkeeps : (∀ t p, a ≠ .threadCreate t p) → ∀ k', s.toKernel.step a = .ok k' → k'.priority = s.priority := by
    intro hne k' hk'
    rcases hc with ⟨t, p, rfl⟩ | hc
    · exact absurd rfl (hne t p)
    · exact hc k' hk'
  cases a with
  | stmt =>
    simp only [Logged.step] at hk
    split at hk
    · cases hk
    · next hidle =>
      refine h.stmt (fun k hq => hkeeps (fun _ _ => by rintro ⟨⟩) k ?_) hk
      simp only [Kernel.step, if_neg hidle]
      exact hq
  | semaDown n =>
    simp only [Logged.step] at hk
    split at hk
    · exact h.fair.semaDown hk
    · cases hk
  | semaUp n =>
    simp only [Logged.step] at hk
    split at hk
    · exact h.semaUp hk
    · cases hk
  | threadCreate t p =>
    simp only [Logged.step] at hk
    split at hk
    · next hfree =>
      refine h.fair.initThread (fun hmem => ?_) hk
      -- a page that is not in use is in no list
      have hused := hs.alive t (by rw [h.listed t hmem]; rintro ⟨⟩)
      rw [hfree.2.2] at hused
      cases hused
    · cases hk
  | threadUnblock =>
    simp only [Logged.step] at hk
    split at hk
    · split at hk
      · refine (Turns.threadUnblock ?_ hk).fair
        exact h.setKernel rfl rfl rfl
      · cases hk
    · cases hk
  | comparePriority =>
    simp only [Logged.step] at hk
    split at hk
    · refine Turns.threadComparePriority ?_ hk
      exact h.setKernel rfl rfl rfl
    · cases hk
  | threadYield =>
    simp only [Logged.step] at hk
    split at hk
    · exact h.threadYield hk
    · cases hk
  | threadSleep ticks =>
    simp only [Logged.step] at hk
    split at hk
    · exact h.fair.threadSleep hk
    · cases hk
  | threadExit =>
    simp only [Logged.step] at hk
    split at hk
    · refine Fair.doSchedule ?_ hk
      exact h.fair.setKernel rfl rfl
    · cases hk
  | idleBlock =>
    simp only [Logged.step] at hk
    split at hk
    · exact h.fair.threadBlock hk
    · cases hk
  | timerInterrupt recalculated =>
    simp only [Logged.step] at hk
    split at hk
    · next s₁ h₁ =>
      have hturns : s₁.Turns := by
        refine Turns.threadAwakeFrom ?_ h₁
        refine h.setKernel rfl ?_ rfl
        show (if s.mlfqs = true then recalculated else s.priority) = s.priority
        rw [hm]
        rfl
      split at hk
      · exact hturns.threadYield hk
      · cases hk
        exact hturns.fair
    · cases hk
  | intrUp n => exact h.semaUp hk
  | intrTryDown n =>
    refine h.fair.quiet (fun k hq => ?_) (hkeeps fun _ _ => by rintro ⟨⟩) hk
    exact Kernel.lift_readyList (r := Interleave.step s.toSys (.intrTryDown n)) hq
  | tear donations p =>
    exact h.fair.quiet (fun k hq => Kernel.lift_readyList hq) (hkeeps fun _ _ => by rintro ⟨⟩) hk
  | threadCreateFail | idleStart =>
    refine h.fair.quiet (fun k hq => ?_) (hkeeps fun _ _ => by rintro ⟨⟩) hk
    simp only [Kernel.step] at hq
    split at hq
    · cases hq
      rfl
    · cases hq
  | _ => exact h.fair.quiet (fun k hq => ite_lift_readyList hq) (hkeeps fun _ _ => by rintro ⟨⟩) hk

end

/-! ## Every run -/

/-- The priorities stay as they are. -/
def FixedPriorities (s : Logged) (a : KernelAction) : Prop := s.toKernel.KeepsPriorities a

variable {value : Nat → BitVec 32} {main idle : Tid} {s : Logged}

theorem reach_toKernel {C : Logged → KernelAction → Prop} {s₀ : Logged} (h : Reach step C s₀ s) :
    Reach Kernel.step Always s₀.toKernel s.toKernel := by
  induction h with
  | refl => exact .refl
  | tail _ _ hs ih => exact ih.tail trivial (toKernel_of_erase (erase_step _ _) hs)

theorem Fair.reach (hne : main ≠ idle) (h : Reach step FixedPriorities (boot false value main idle) s) :
    Kernel.Ready s.toKernel ∧ s.Fair := by
  have hsched : ∀ s, Reach step FixedPriorities (boot false value main idle) s →
      Kernel.Sched s.toKernel (some s.current) := fun s hs => (Kernel.Sched.reach hne (reach_toKernel hs)).1
  refine h.invariant_of (I := fun s => Kernel.Ready s.toKernel ∧ s.Fair) hsched
    ⟨Kernel.Ready.boot value main idle, RoundRobin.Fair.init _ idle⟩ ?_
  rintro s a s' hs ⟨hready, hfair⟩ hc hk
  have hk' := toKernel_of_erase (erase_step s a) hk
  have hturns : s.Turns := ⟨hfair, hready.ordered, fun t ht => hs.status .ready t ht⟩
  exact ⟨hready.of_step hs (Kernel.fitsReady_of_keepsPriorities hready.ordered hc hk') hk',
    hturns.step hready.priorityMode hs hc hk⟩

/--
**Round robin.** While no priority changes: a thread that was in `ready_list` when another one of its priority entered
runs before it, and no thread runs twice while another one of its priority stays in `ready_list`. A page that is given
to a new thread in between is not the same thread.
-/
theorem round_robin (hne : main ≠ idle) (h : Reach step FixedPriorities (boot false value main idle) s) :
    (∀ l₁ a waiting m₁ r m₂, s.log = l₁ ++ .enters a waiting :: (m₁ ++ .runs a r :: m₂) →
      ∀ b ∈ waiting, ∃ r', .runs b r' ∈ m₁) ∧
    ∀ l₁ a waiting m₁ r m₂, s.log = l₁ ++ .runs a waiting :: (m₁ ++ .runs a r :: m₂) → .created a ∉ m₁ →
      ∀ b ∈ waiting, ∃ r', .runs b r' ∈ m₁ := by
  obtain ⟨-, hfair⟩ := Fair.reach hne h
  exact ⟨fun _ _ _ _ _ _ hlog _ hb => hfair.first hlog hb, fun _ _ _ _ _ _ hlog hc _ hb => hfair.again hlog hc hb⟩

/-- Actions that write no priority of a thread that is there. -/
def calm : KernelAction → Bool
  | .threadCreate _ _ | .threadUnblock | .comparePriority | .threadYield => true
  | _ => false

theorem fixedPriorities_of_calm (s : Logged) (a : KernelAction) (h : calm a = true) : FixedPriorities s a := by
  cases a with
  | threadCreate t p => exact .inl ⟨t, p, rfl⟩
  | threadUnblock =>
    refine .inr fun k' hk => ?_
    simp only [Kernel.step] at hk
    split at hk
    · split at hk
      · have hp := (Kernel.Requeued.threadUnblock hk).1.priority
        exact hp
      · cases hk
    · cases hk
  | comparePriority =>
    refine .inr fun k' hk => ?_
    simp only [Kernel.step] at hk
    split at hk
    · have hp := (Kernel.Requeued.threadComparePriority hk).priority
      exact hp
    · cases hk
  | threadYield =>
    refine .inr fun k' hk => ?_
    simp only [Kernel.step] at hk
    split at hk
    · exact (Kernel.Requeued.threadYield hk).priority
    · cases hk
  | _ => cases h

/-- Threads 1, 3 and 4 of one priority yield in turn: 3 is in the list when 4 enters it, and runs first. -/
theorem round_robin_three_threads : ∃ s : Logged, ∃ r,
    s.log = [.enters 2 [], .created 3, .enters 3 [], .created 4] ++ .enters 4 [3] ::
      ([.enters 1 [3, 4], .runs 3 [4, 1], .enters 3 [4, 1]] ++ .runs 4 [1, 3] :: [.enters 4 [1, 3], .runs 1 [3, 4]]) ∧
    .runs 3 r ∈ [Event.enters 1 [3, 4], .runs 3 [4, 1], .enters 3 [4, 1]] := by
  have hrun : ∃ s, Reach step FixedPriorities (boot false (fun _ => 0) 1 2) s ∧
      decide (s.log = [.enters 2 [], .created 3, .enters 3 [], .created 4] ++ .enters 4 [3] ::
        ([.enters 1 [3, 4], .runs 3 [4, 1], .enters 3 [4, 1]] ++
          .runs 4 [1, 3] :: [.enters 4 [1, 3], .runs 1 [3, 4]])) = true :=
    exists_of_execIf (fun s a (h : calm a = true) => fixedPriorities_of_calm s a h)
      [.threadCreate 3 31, .threadUnblock, .comparePriority, .threadCreate 4 31, .threadUnblock, .comparePriority,
        .threadYield, .threadYield, .threadYield] rfl
  obtain ⟨s, h, hlog⟩ := hrun
  have hlog := of_decide_eq_true hlog
  obtain ⟨r, hr⟩ := (round_robin (by decide) h).1 _ _ _ _ _ _ hlog 3 List.mem_cons_self
  exact ⟨s, r, hlog, hr⟩

end Logged

end Pintos
