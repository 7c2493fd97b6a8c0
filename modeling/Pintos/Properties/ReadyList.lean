import Pintos.Properties.Scheduler

/-!
# The order of the ready list

`ready_list` is ordered where a thread is inserted, and `priority_donation` changes the priority
of a thread that may be in it.

* `FitsReady` — a donation changes no priority of a ready thread, or one that still fits its place
* `ready_list_ordered` — under that condition the list stays ordered, and after the first step
  without it it is not
-/

namespace Pintos.Kernel

open Function Machine

/-- `ready_list` is ordered by non-increasing priority. -/
def Ordered (k : Kernel) : Prop := k.readyList.Pairwise (fun t u => k.priority u ≤ k.priority t)

/-- With priority `p`, `h` may stay where it is in the list. -/
def FitsAt (priority : Tid → Int) (l : List Tid) (h : Tid) (p : Int) : Prop :=
  ∀ l₁ l₂, l = l₁ ++ h :: l₂ → (∀ t ∈ l₁, p ≤ priority t) ∧ ∀ t ∈ l₂, priority t ≤ p

/-- `holder->priority = curr->priority` leaves the holder in its place. -/
def FitsReady (k : Kernel) : KernelAction → Prop
  | .stmt =>
    match k.pc k.current with
    | .donWrite _ _ curr (some h) => FitsAt k.priority k.readyList h (k.priority curr)
    | _ => True
  | _ => True

/-- The invariant of the ready list. -/
structure Ready (k : Kernel) : Prop where
  priorityMode : k.mlfqs = false
  ordered : k.Ordered

/-! ## Writing a priority -/

/-- A priority is written and the thread is not in the list. -/
theorem pairwise_update_of_notMem {priority : Tid → Int} {l : List Tid} {t : Tid} (p : Int)
    (h : l.Pairwise (fun t u => priority u ≤ priority t)) (ht : t ∉ l) :
    l.Pairwise (fun u v => update priority t p v ≤ update priority t p u) := by
  refine h.imp_of_mem ?_
  intro u v hu hv huv
  have hut : u ≠ t := by
    rintro rfl
    exact ht hu
  have hvt : v ≠ t := by
    rintro rfl
    exact ht hv
  rwa [update_of_ne hut, update_of_ne hvt]

/-- **A written priority keeps the order exactly when it fits.** -/
theorem pairwise_update_iff {priority : Tid → Int} {l : List Tid} {h : Tid} (p : Int)
    (ho : l.Pairwise (fun t u => priority u ≤ priority t)) (hnd : l.Nodup) :
    l.Pairwise (fun t u => update priority h p u ≤ update priority h p t) ↔
      FitsAt priority l h p := by
  constructor
  · rintro hp l₁ l₂ rfl
    have hnot := List.nodup_middle.mp hnd
    have hne : ∀ t, t ∈ l₁ ++ l₂ → t ≠ h := by
      rintro t ht rfl
      exact (List.nodup_cons.mp hnot).1 ht
    obtain ⟨-, hright, hcross⟩ := List.pairwise_append.mp hp
    refine ⟨fun t ht => ?_, fun t ht => ?_⟩
    · have hle := hcross t ht h List.mem_cons_self
      rwa [update_self, update_of_ne (hne t (List.mem_append_left l₂ ht))] at hle
    · have hle := (List.pairwise_cons.mp hright).1 t ht
      rwa [update_self, update_of_ne (hne t (List.mem_append_right l₁ ht))] at hle
  · intro hfit
    by_cases hmem : h ∈ l
    · obtain ⟨l₁, l₂, rfl⟩ := List.append_of_mem hmem
      obtain ⟨hleft, hright⟩ := hfit l₁ l₂ rfl
      have hnot := List.nodup_cons.mp (List.nodup_middle.mp hnd)
      have hne : ∀ t, t ∈ l₁ ++ l₂ → t ≠ h := by
        rintro t ht rfl
        exact hnot.1 ht
      obtain ⟨hl₁, hr, hcross⟩ := List.pairwise_append.mp ho
      have hl₂ := (List.pairwise_cons.mp hr).2
      have hnot₁ : h ∉ l₁ := fun hc => hnot.1 (List.mem_append_left l₂ hc)
      have hnot₂ : h ∉ l₂ := fun hc => hnot.1 (List.mem_append_right l₁ hc)
      refine List.pairwise_append.mpr ⟨pairwise_update_of_notMem p hl₁ hnot₁,
        List.pairwise_cons.mpr ⟨fun u hu => ?_, pairwise_update_of_notMem p hl₂ hnot₂⟩, ?_⟩
      · rw [update_self, update_of_ne (hne u (List.mem_append_right l₁ hu))]
        exact hright u hu
      · intro t ht u hu
        rw [update_of_ne (hne t (List.mem_append_left l₂ ht))]
        rcases List.mem_cons.mp hu with rfl | hu
        · rw [update_self]
          exact hleft t ht
        · rw [update_of_ne (hne u (List.mem_append_right l₁ hu))]
          exact hcross t ht u (List.mem_cons_of_mem h hu)
    · exact pairwise_update_of_notMem p ho hmem

/-! ## The functions of `thread.c` -/

/-- The running thread has at least the priority of every ready one. -/
def Topmost (k : Kernel) : Prop := ∀ t ∈ k.readyList, k.priority t ≤ k.priority k.current

/-- What the functions of `thread.c` keep: they write no priority, insert in order, and the thread
that `schedule` takes from an ordered list is topmost. -/
structure Requeued (k k' : Kernel) : Prop where
  mlfqs : k'.mlfqs = k.mlfqs
  priority : k'.priority = k.priority
  pc : k'.pc = k.pc
  ordered : k.Ordered → k'.Ordered
  topmost : k.Ordered → k'.current = k.current ∨ k'.Topmost

theorem Requeued.same {k k' : Kernel} (hm : k'.mlfqs = k.mlfqs) (hr : k'.readyList = k.readyList)
    (hp : k'.priority = k.priority) (hpc : k'.pc = k.pc) (hc : k'.current = k.current) :
    Requeued k k' where
  mlfqs := hm
  priority := hp
  pc := hpc
  ordered := by
    unfold Ordered
    rw [hr, hp]
    exact id
  topmost := fun _ => Or.inl hc

/-- The running thread is the same up to `k₁`. -/
theorem Requeued.trans {k k₁ k' : Kernel} (h : Requeued k k₁) (hc : k₁.current = k.current)
    (h' : Requeued k₁ k') : Requeued k k' where
  mlfqs := h'.mlfqs.trans h.mlfqs
  priority := h'.priority.trans h.priority
  pc := h'.pc.trans h.pc
  ordered := fun ho => h'.ordered (h.ordered ho)
  topmost := fun ho => by
    rw [← hc]
    exact h'.topmost (h.ordered ho)

/-- Other fields change first. -/
theorem Requeued.after {k k₁ k' : Kernel} (h : Requeued k₁ k') (hm : k₁.mlfqs = k.mlfqs)
    (hr : k₁.readyList = k.readyList) (hp : k₁.priority = k.priority) (hpc : k₁.pc = k.pc)
    (hc : k₁.current = k.current) : Requeued k k' :=
  (Requeued.same hm hr hp hpc hc).trans hc h

theorem Requeued.insertReady (k : Kernel) (t : Tid) : Requeued k (k.insertReady t) where
  mlfqs := rfl
  priority := rfl
  pc := rfl
  ordered := listInsertOrdered_pairwise fun _ _ => decide_eq_true_iff
  topmost := fun _ => Or.inl rfl

theorem schedule_topmost {k k' : Kernel} (ho : k.Ordered) (hk : k.schedule = .ok k') : k'.Topmost := by
  have hready : k'.readyList = k.nextThreadToRun.2 ∧ k.nextThreadToRun.1 = some k'.current ∧
      k'.priority = k.priority := by
    simp only [Kernel.schedule] at hk
    split at hk
    · cases hk
    · next next ready hn =>
      rw [hn]
      split at hk
      · cases hk
      · split at hk
        · next hcur =>
          cases hk
          exact ⟨rfl, congrArg some hcur.symm, rfl⟩
        · split at hk <;> cases hk <;> exact ⟨rfl, rfl, rfl⟩
  obtain ⟨hr, hn, hp⟩ := hready
  intro t ht
  rw [hr] at ht
  rw [hp]
  unfold nextThreadToRun at hn ht
  unfold Ordered at ho
  split at hn
  · next hl =>
    rw [hl] at ht
    cases ht
  · next u l hl =>
    rw [hl] at ht ho
    rw [← Option.some.inj hn]
    exact (List.pairwise_cons.mp ho).1 t ht

theorem Requeued.schedule {k k' : Kernel} (hk : k.schedule = .ok k') : Requeued k k' := by
  have hsub : k.nextThreadToRun.2.Sublist k.readyList := by
    unfold nextThreadToRun
    split
    · exact List.nil_sublist _
    · next hr =>
      rw [hr]
      exact List.sublist_cons_self _ _
  have hready : k'.mlfqs = k.mlfqs ∧ k'.readyList = k.nextThreadToRun.2 ∧
      k'.priority = k.priority ∧ k'.pc = k.pc := by
    simp only [Kernel.schedule] at hk
    split at hk
    · cases hk
    · next next ready hn =>
      rw [hn]
      split at hk
      · cases hk
      · split at hk
        · cases hk; exact ⟨rfl, rfl, rfl, rfl⟩
        · split at hk <;> cases hk <;> exact ⟨rfl, rfl, rfl, rfl⟩
  obtain ⟨hm, hr, hp, hpc⟩ := hready
  refine ⟨hm, hp, hpc, fun ho => ?_, fun ho => Or.inr (schedule_topmost ho hk)⟩
  unfold Ordered
  rw [hr, hp]
  exact ho.sublist hsub

theorem Requeued.threadBlock {k k' : Kernel} (hk : k.threadBlock = .ok k') : Requeued k k' := by
  unfold Kernel.threadBlock at hk
  split at hk
  · exact (Requeued.schedule hk).after rfl rfl rfl rfl rfl
  · cases hk

theorem doSchedule_topmost {k k' : Kernel} {st : ThreadStatus} (ho : k.Ordered)
    (hk : k.doSchedule st = .ok k') : k'.Topmost := by
  unfold Kernel.doSchedule at hk
  split at hk
  · split at hk
    · next allocated frees _ =>
      have ho' : ((k.setPages [] allocated frees).setStatus k.current st).Ordered := ho
      exact schedule_topmost ho' hk
    · cases hk
  · cases hk

theorem Requeued.doSchedule {k k' : Kernel} {st : ThreadStatus} (hk : k.doSchedule st = .ok k') :
    Requeued k k' := by
  unfold Kernel.doSchedule at hk
  split at hk
  · split at hk
    · exact (Requeued.schedule hk).after rfl rfl rfl rfl rfl
    · cases hk
  · cases hk

theorem threadYield_topmost {k k' : Kernel} (ho : k.Ordered) (hk : k.threadYield = .ok k') :
    k'.Topmost := by
  unfold Kernel.threadYield at hk
  split at hk
  · exact doSchedule_topmost ((Requeued.insertReady k k.current).ordered ho) hk
  · exact doSchedule_topmost ho hk

theorem Requeued.threadYield {k k' : Kernel} (hk : k.threadYield = .ok k') : Requeued k k' := by
  unfold Kernel.threadYield at hk
  split at hk
  · exact (Requeued.insertReady k k.current).trans rfl (Requeued.doSchedule hk)
  · exact Requeued.doSchedule hk

theorem Requeued.threadComparePriority {k k' : Kernel} (hk : k.threadComparePriority = .ok k') :
    Requeued k k' := by
  unfold Kernel.threadComparePriority at hk
  split at hk
  · cases hk
    exact Requeued.same rfl rfl rfl rfl rfl
  · split at hk
    · exact Requeued.threadYield hk
    · cases hk
      exact Requeued.same rfl rfl rfl rfl rfl

theorem Requeued.threadUnblock {k k' : Kernel} {t : Tid} (hk : k.threadUnblock t = .ok k') :
    Requeued k k' ∧ k'.current = k.current := by
  unfold Kernel.threadUnblock at hk
  split at hk
  · cases hk
    exact ⟨(Requeued.insertReady k t).trans rfl (Requeued.same rfl rfl rfl rfl rfl), rfl⟩
  · cases hk

theorem Requeued.threadAwakeFrom {ticks : Int} : ∀ {l : List Tid} {k k' : Kernel},
    k.threadAwakeFrom ticks l = .ok k' → Requeued k k' ∧ k'.current = k.current
  | [], k, k', hk => by
    cases hk
    exact ⟨Requeued.same rfl rfl rfl rfl rfl, rfl⟩
  | t :: l, k, k', hk => by
    rw [Kernel.threadAwakeFrom] at hk
    split at hk
    · split at hk
      · next k₁ h₁ =>
        obtain ⟨h₁, hc₁⟩ := Requeued.threadUnblock h₁
        have h₂ : Requeued k k₁ := h₁.after rfl rfl rfl rfl rfl
        obtain ⟨h', hc'⟩ := Requeued.threadAwakeFrom hk
        exact ⟨h₂.trans hc₁ h', hc'.trans hc₁⟩
      · cases hk
    · exact Requeued.threadAwakeFrom hk

theorem Requeued.semaUp {k k' : Kernel} {s : SemaId} {intrContext : Bool}
    (hk : k.semaUp s intrContext = .ok k') : Requeued k k' := by
  have hrest : ∀ k₁ : Kernel, Requeued k k₁ → k₁.current = k.current →
      (if intrContext then .ok (k₁.raise s) else (k₁.raise s).threadComparePriority) =
        Except.ok k' → Requeued k k' := by
    intro k₁ h₁ hc₁ hk₁
    split at hk₁
    · cases hk₁
      exact h₁.trans hc₁ (Requeued.same rfl rfl rfl rfl rfl)
    · exact h₁.trans hc₁ ((Requeued.threadComparePriority hk₁).after rfl rfl rfl rfl rfl)
  unfold Kernel.semaUp at hk
  cases hp : (k.sema s).popWaiter k.priority with
  | none =>
    simp only [hp] at hk
    exact hrest k (Requeued.same rfl rfl rfl rfl rfl) rfl hk
  | some w =>
    obtain ⟨w, rest⟩ := w
    simp only [hp] at hk
    split at hk
    · cases hk
    · next k₁ h₁ =>
      obtain ⟨h₁, hc₁⟩ := Requeued.threadUnblock h₁
      exact hrest k₁ (h₁.after rfl rfl rfl rfl rfl) hc₁ hk

theorem Requeued.threadSleep {k k' : Kernel} {ticks : Int} (hk : k.threadSleep ticks = .ok k') :
    Requeued k k' := by
  unfold Kernel.threadSleep at hk
  split at hk
  · exact (Requeued.threadBlock hk).after rfl rfl rfl rfl rfl
  · cases hk
    exact Requeued.same rfl rfl rfl rfl rfl

theorem Ready.requeued {k k' : Kernel} (h : Ready k) (hq : Requeued k k') : Ready k' :=
  ⟨hq.mlfqs.trans h.priorityMode, hq.ordered h.ordered⟩

theorem Ready.same {k k' : Kernel} (h : Ready k) (hm : k'.mlfqs = k.mlfqs)
    (hr : k'.readyList = k.readyList) (hp : k'.priority = k.priority) : Ready k' where
  priorityMode := hm.trans h.priorityMode
  ordered := by
    unfold Ordered
    rw [hr, hp]
    exact h.ordered

/-- A priority is written of a thread that is not in the list. -/
theorem Ready.write {k k' : Kernel} {t : Tid} {p : Int} (h : Ready k) (hm : k'.mlfqs = k.mlfqs)
    (hr : k'.readyList = k.readyList) (hp : k'.priority = update k.priority t p)
    (ht : t ∉ k.readyList) : Ready k' where
  priorityMode := hm.trans h.priorityMode
  ordered := by
    unfold Ordered
    rw [hr, hp]
    exact pairwise_update_of_notMem p h.ordered ht

theorem Ready.semaDown {k k' : Kernel} {s : SemaId} {l : Option LockId} (h : Ready k)
    (hk : k.semaDown s l = .ok k') : Ready k' := by
  unfold Kernel.semaDown at hk
  split at hk
  · have hs : Ready (k.joinWaiters s l) := h.same rfl rfl rfl
    exact hs.requeued (Requeued.threadBlock hk)
  · next h0 =>
    cases hk
    have hsys : (k.toSys.semaDown k.current s l).mlfqs = k.mlfqs ∧
        (k.toSys.semaDown k.current s l).priority = k.priority := by
      rw [Interleave.Sys.semaDown, if_neg h0]
      exact ⟨rfl, rfl⟩
    exact h.same hsys.1 rfl hsys.2

/-! ## Steps inside `synch.c` -/

/-- Only the state of `synch.c` changes, and at most the priority of the running thread. -/
theorem Ready.lift {k j k' : Kernel} {r : Except Interleave.Fault Interleave.Sys}
    (h : Ready k) (hs : Sched k (some k.current)) (hr₀ : j.readyList = k.readyList)
    (hm : ∀ m, r = .ok m → m.mlfqs = k.mlfqs ∧
      (m.priority = k.priority ∨ ∃ p, m.priority = update k.priority k.current p))
    (hk : j.lift r = .ok k') : Ready k' := by
  cases r with
  | error f => cases hk
  | ok m =>
    cases hk
    obtain ⟨hmode, hp⟩ := hm m rfl
    rcases hp with hp | ⟨p, hp⟩
    · exact h.same hmode hr₀ hp
    · exact h.write hmode hr₀ hp (hs.loose_of_running .ready)

/-- A statement writes no priority, the one of its thread, or the one `priority_donation` writes. -/
theorem stepThread_priority {m m' : Interleave.Sys} {t : Tid}
    (h₁ : ∀ l, m.pc t ≠ .acqDown l) (h₂ : ∀ s c, m.pc t ≠ .downWait s c)
    (h₃ : ∀ l, m.pc t ≠ .relUp l) (h : Interleave.stepThread m t = .ok m') :
    m'.mlfqs = m.mlfqs ∧ (m'.priority = m.priority ∨ (∃ p, m'.priority = update m.priority t p) ∨
      ∃ l depth curr holder, m.pc t = .donWrite l depth curr (some holder) ∧
        m'.priority = update m.priority holder (m.priority curr)) := by
  obtain ⟨-, hstmt⟩ := Interleave.stepThread_cases h
  cases hstmt with
  | acqDown hpc => exact absurd hpc (h₁ _)
  | downWait hpc => exact absurd hpc (h₂ _ _)
  | relUp hpc => exact absurd hpc (h₃ _)
  | @donWrite l depth curr holder hpc =>
    exact ⟨rfl, Or.inr (Or.inr ⟨l, depth, curr, holder, hpc, rfl⟩)⟩
  | relPriority | setPriority => exact ⟨rfl, Or.inr (Or.inl ⟨_, rfl⟩)⟩
  | _ => exact ⟨rfl, Or.inl rfl⟩

theorem Ready.stmt {k k' : Kernel} (h : Ready k) (hs : Sched k (some k.current))
    (hc : FitsReady k .stmt) (hk : k.stmt = .ok k') : Ready k' := by
  unfold Kernel.stmt at hk
  split at hk
  · exact h.semaDown hk
  · exact h.semaDown hk
  · have hs' : Ready { k with pc := update k.pc k.current .user } := h.same rfl rfl rfl
    exact hs'.requeued (Requeued.semaUp hk)
  · next hpc =>
    refine h.lift (j := { k with doing := update k.doing k.current .comparing }) hs rfl ?_ hk
    intro m hm
    obtain ⟨hmode, hp | hp | ⟨l, depth, curr, holder, hpc', -⟩⟩ := stepThread_priority
      (by simp [hpc]) (by simp [hpc]) (by simp [hpc]) hm
    · exact ⟨hmode, Or.inl hp⟩
    · exact ⟨hmode, Or.inr hp⟩
    · rw [hpc] at hpc'
      cases hpc'
  · next h₁ h₂ h₃ h₄ =>
    cases hr : Interleave.stepThread k.toSys k.current with
    | error f =>
      rw [hr] at hk
      cases hk
    | ok m =>
      rw [hr] at hk
      cases hk
      obtain ⟨hmode, hp | ⟨p, hp⟩ | ⟨l, depth, curr, holder, hpc, hp⟩⟩ :=
        stepThread_priority h₁ h₂ h₃ hr
      · exact h.same hmode rfl hp
      · exact h.write hmode rfl hp (hs.loose_of_running .ready)
      · simp only [FitsReady, hpc] at hc
        refine ⟨hmode.trans h.priorityMode, ?_⟩
        unfold Ordered
        show k.readyList.Pairwise (fun t u => m.priority u ≤ m.priority t)
        rw [hp]
        exact (pairwise_update_iff _ h.ordered (hs.nodup .ready)).mpr hc

theorem Ready.of_step {k k' : Kernel} {a : KernelAction} (h : Ready k)
    (hs : Sched k (some k.current)) (hc : FitsReady k a) (hk : step k a = .ok k') : Ready k' := by
  have hcall : ∀ a', (∀ m, Interleave.step k.toSys a' = .ok m →
      m.mlfqs = k.mlfqs ∧ m.priority = k.priority) →
      k.lift (Interleave.step k.toSys a') = .ok k' → Ready k' := by
    intro a' ha hk
    exact h.lift (j := k) hs rfl (fun m hm => ⟨(ha m hm).1, Or.inl (ha m hm).2⟩) hk
  have htry : ∀ s, (k.toSys.semaTryDown s).1.mlfqs = k.mlfqs ∧
      (k.toSys.semaTryDown s).1.priority = k.priority := by
    intro s
    unfold Interleave.Sys.semaTryDown
    split <;> exact ⟨rfl, rfl⟩
  cases a with
  | stmt =>
    simp only [step] at hk
    split at hk
    · cases hk
    · exact h.stmt hs hc hk
  | lockAcquire l =>
    simp only [step] at hk
    split at hk
    · refine hcall _ (fun m hm => ?_) hk
      simp only [Interleave.step] at hm
      split at hm <;> cases hm
      exact ⟨rfl, rfl⟩
    · cases hk
  | lockTryAcquire l =>
    simp only [step] at hk
    split at hk
    · refine hcall _ (fun m hm => ?_) hk
      simp only [Interleave.step] at hm
      split at hm
      · cases hm
      · split at hm <;> cases hm
        exact htry (.lock l)
    · cases hk
  | lockRelease l =>
    simp only [step] at hk
    split at hk
    · refine hcall _ (fun m hm => ?_) hk
      simp only [Interleave.step] at hm
      split at hm <;> cases hm
      exact ⟨rfl, rfl⟩
    · cases hk
  | semaDown n =>
    simp only [step] at hk
    split at hk
    · exact h.semaDown hk
    · cases hk
  | semaTryDown n =>
    simp only [step] at hk
    split at hk
    · refine hcall _ (fun m hm => ?_) hk
      simp only [Interleave.step] at hm
      split at hm <;> cases hm
      exact htry (.plain n)
    · cases hk
  | semaUp n =>
    simp only [step] at hk
    split at hk
    · exact h.requeued (Requeued.semaUp hk)
    · cases hk
  | setPriority p =>
    simp only [step] at hk
    split at hk
    · refine hcall _ (fun m hm => ?_) hk
      simp only [Interleave.step] at hm
      split at hm
      · cases hm
        split <;> exact ⟨rfl, rfl⟩
      · cases hm
    · cases hk
  | tear don p =>
    simp only [step] at hk
    refine h.lift (j := k) hs rfl (fun m hm => ?_) hk
    simp only [Interleave.step] at hm
    split at hm <;> cases hm
    exact ⟨rfl, Or.inr ⟨p, rfl⟩⟩
  | threadCreate t priority =>
    simp only [step, Kernel.initThread] at hk
    split at hk
    · next hcan =>
      split at hk
      · cases hk
        refine h.write (t := t) rfl rfl rfl ?_
        -- a page that is not in use is in no list
        intro hmem
        have hready : k.status t = .ready := hs.status .ready t hmem
        have hused := hs.alive t (by rw [hready]; rintro ⟨⟩)
        rw [hcan.2.2] at hused
        cases hused
      · cases hk
    · cases hk
  | threadUnblock =>
    simp only [step] at hk
    split at hk
    · split at hk
      · have hs' : Ready { k with doing := update k.doing k.current .comparing } :=
          h.same rfl rfl rfl
        exact hs'.requeued (Requeued.threadUnblock hk).1
      · cases hk
    · cases hk
  | threadCreateFail =>
    simp only [step] at hk
    split at hk
    · cases hk
      exact h.same rfl rfl rfl
    · cases hk
  | comparePriority =>
    simp only [step] at hk
    split at hk
    · have hs' : Ready { k with doing := update k.doing k.current .nothing } :=
        h.same rfl rfl rfl
      exact hs'.requeued (Requeued.threadComparePriority hk)
    · cases hk
  | threadYield =>
    simp only [step] at hk
    split at hk
    · exact h.requeued (Requeued.threadYield hk)
    · cases hk
  | threadSleep ticks =>
    simp only [step] at hk
    split at hk
    · exact h.requeued (Requeued.threadSleep hk)
    · cases hk
  | threadExit =>
    simp only [step] at hk
    split at hk
    · have hs' : Ready { k with exits := update k.exits k.current (k.exits k.current + 1) } :=
        h.same rfl rfl rfl
      exact hs'.requeued (Requeued.doSchedule hk)
    · cases hk
  | idleStart =>
    simp only [step] at hk
    split at hk
    · cases hk
      exact h.same rfl rfl rfl
    · cases hk
  | idleBlock =>
    simp only [step] at hk
    split at hk
    · exact h.requeued (Requeued.threadBlock hk)
    · cases hk
  | timerInterrupt recalculated =>
    simp only [step] at hk
    have hs' : Ready { k with
        ticks := k.ticks + 1
        threadTicks := k.threadTicks + 1
        priority := if k.mlfqs then recalculated else k.priority } :=
      h.same rfl rfl (by simp [h.priorityMode])
    split at hk
    · next k₁ h₁ =>
      have hr₁ : Ready k₁ := hs'.requeued (Requeued.threadAwakeFrom h₁).1
      split at hk
      · exact hr₁.requeued (Requeued.threadYield hk)
      · cases hk
        exact hr₁
    · cases hk
  | intrUp n => exact h.requeued (Requeued.semaUp hk)
  | intrTryDown n =>
    refine hcall (.intrTryDown n) (fun m hm => ?_) hk
    cases hm
    exact htry (.plain n)

/-! ## Every run -/

theorem Ready.boot (value : Nat → BitVec 32) (main idle : Tid) :
    Ready (Kernel.boot false value main idle) where
  priorityMode := rfl
  ordered := List.pairwise_singleton _ idle

variable {value : Nat → BitVec 32} {main idle : Tid} {k : Kernel}

theorem Ready.reach (hne : main ≠ idle)
    (h : Reach step FitsReady (Kernel.boot false value main idle) k) : Ready k :=
  h.invariant_of (fun _ hk => (Sched.reach hne (hk.mono fun _ _ _ => trivial)).1)
    (Ready.boot value main idle) (fun _ _ _ hs hr hc hk => hr.of_step hs hc hk)

/-- A donation that does not fit leaves the list out of order. -/
theorem not_ordered_of_not_fits {k k' : Kernel} {a : KernelAction} (h : Ready k)
    (hs : Sched k (some k.current)) (hc : ¬ FitsReady k a) (hk : step k a = .ok k') :
    ¬ k'.Ordered := by
  unfold FitsReady at hc
  split at hc
  · split at hc
    · next l depth curr holder hpc =>
      simp only [step] at hk
      split at hk
      · cases hk
      · simp only [Kernel.stmt, hpc] at hk
        have hstep : Interleave.stepThread k.toSys k.current =
            .ok { k.toSys.setPc k.current (.donTest l (depth + 1) holder) with
              priority := update k.priority holder (k.priority curr) } := by
          have hb : k.toSys.blocked k.current = false := by
            have hrun : k.status k.current = .running := (hs.running k.current).mpr rfl
            simp [Interleave.Sys.blocked, hrun]
          simp [Interleave.stepThread, hb, hpc]
        rw [hstep] at hk
        cases hk
        intro ho
        exact hc ((pairwise_update_iff _ h.ordered (hs.nodup .ready)).mp ho)
    · exact absurd trivial hc
  · exact absurd trivial hc

/--
**Highest priority first.** While every donation fits, `ready_list` is ordered and
`next_thread_to_run` returns a thread of the highest priority in it; the first donation that does
not fit leaves the list out of order.
-/
theorem ready_list_ordered (hne : main ≠ idle)
    (h : Reach step FitsReady (Kernel.boot false value main idle) k) :
    k.Ordered ∧
    (∀ t rest, k.nextThreadToRun = (some t, rest) → ∀ u ∈ k.readyList,
      k.priority u ≤ k.priority t) ∧
    ∀ a k', step k a = .ok k' → ¬ FitsReady k a → ¬ k'.Ordered := by
  have hr := Ready.reach hne h
  have hs := (Sched.reach hne (h.mono fun _ _ _ => trivial)).1
  refine ⟨hr.ordered, ?_, fun a k' hk hc => not_ordered_of_not_fits hr hs hc hk⟩
  intro t rest hn u hu
  unfold nextThreadToRun at hn
  have ho := hr.ordered
  unfold Ordered at ho
  split at hn
  · next hl =>
    rw [hl] at hu
    cases hu
  · next t' l hl =>
    rw [hl] at hu ho
    cases hn
    rcases List.mem_cons.mp hu with rfl | hu
    · exact le_refl _
    · exact (List.pairwise_cons.mp ho).1 u hu

/-- A check of `FitsReady` for runs whose donations go to threads that are not ready. -/
def donatesToWaiting (k : Kernel) : KernelAction → Bool
  | .stmt =>
    match k.pc k.current with
    | .donWrite _ _ _ (some h) => !k.readyList.contains h
    | _ => true
  | _ => true

theorem fitsReady_of_waiting (k : Kernel) (a : KernelAction) (h : donatesToWaiting k a = true) :
    FitsReady k a := by
  unfold donatesToWaiting at h
  unfold FitsReady
  split at h
  · split at h
    · next holder _ =>
      rintro l₁ l₂ hl
      simp [hl] at h
    · trivial
  · trivial

/-- Thread 3 sleeps with lock 0 and gets the priority of thread 1; threads 4 and 2 are ready. -/
theorem ready_list_ordered_of_sleeping_holder : ∃ k : Kernel,
    k.readyList = [4, 2] ∧ k.priority 3 = 31 ∧ k.priority 4 = 20 ∧ k.Ordered ∧
    (∀ u ∈ k.readyList, k.priority u ≤ k.priority 4) := by
  have h : Reach step FitsReady (Kernel.boot false (fun _ => 0) 1 2) _ :=
    reach_of_execIf fitsReady_of_waiting
      [.threadCreate 3 32, .threadUnblock, .comparePriority,
        .lockAcquire 0, .stmt, .stmt, .stmt, .stmt, .threadSleep 100,
        .threadCreate 4 20, .threadUnblock, .comparePriority,
        .lockAcquire 0, .stmt, .stmt, .stmt, .stmt, .stmt, .stmt, .stmt] rfl
  obtain ⟨hord, hnext, -⟩ := ready_list_ordered (by decide) h
  exact ⟨_, rfl, rfl, rfl, hord, hnext 4 [2] rfl⟩

/--
Thread 3 is ready with lock 0 and priority 20, behind thread 4 with priority 25. Thread 1 waits for
the lock and gives it priority 31, and thread 3 stays behind thread 4.
-/
theorem ready_list_out_of_order :
    ∃ k, Reach step Always (Kernel.boot false (fun _ => 0) 1 2) k ∧ k.readyList = [4, 3, 2] ∧
      k.nextThreadToRun = (some 4, [3, 2]) ∧ k.priority 4 = 25 ∧ k.priority 3 = 31 ∧
      ¬ k.Ordered := by
  refine ⟨_, reach_of_exec [.threadCreate 3 32, .threadUnblock, .comparePriority,
    .lockAcquire 0, .stmt, .stmt, .stmt, .stmt, .setPriority 20, .stmt, .comparePriority,
    .threadCreate 4 25, .threadUnblock, .comparePriority,
    .lockAcquire 0, .stmt, .stmt, .stmt, .stmt, .stmt, .stmt, .stmt] rfl, rfl, rfl, rfl, rfl, ?_⟩
  intro ho
  have hle := (List.pairwise_cons.mp ho).1 3 List.mem_cons_self
  exact absurd hle (by decide)

end Pintos.Kernel
