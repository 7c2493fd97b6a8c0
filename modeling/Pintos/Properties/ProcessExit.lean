import Pintos.Properties.ProcessWait

/-!
# What a process leaves behind

The status that a process leaves to its parent, and its `struct thread`, when it stops.

* `killed_status` — the status is as documented unless the process stops through `kill`
* `exited_reclaimable` — a process that waits to be released can be, where no process stops before
  it has waited for its children
-/

namespace Pintos.Process

open Function Machine Procs

variable {m m' : Procs} {t p c : Tid}

/-! ## What a step changes -/

/-- What the next statement of `t` changes. -/
structure Effect (m : Procs) (t : Tid) (m' : Procs) : Prop where
  others : ∀ u, u ≠ t → m'.pc u = m.pc u ∨ (m.pc u).wake = some (m'.pc u)
  parent : m'.parent = m.parent
  read : ∀ u, m.read u ≠ none → m'.read u ≠ none
  childList : ∀ u, u ≠ t → m'.childList u = m.childList u
  /-- Only the failed copy of a process stops in `stepThread`. -/
  stopped : m'.stopped = m.stopped ∨ m.pc t = .forkUp false ∧
    m'.stopped = update m.stopped t (some (.exit TID_ERROR)) ∧ m'.pc t = .exit TID_ERROR
  forking : (m'.pc t).phase = .forking → (m.pc t).phase = .forking ∧ m'.childList t = m.childList t
  gone : m'.pc t = .none → m.pc t = .dying

theorem others_update {pc : Tid → Pc} {q : Pc} (u : Tid) (hu : u ≠ t) :
    update pc t q u = pc u ∨ (pc u).wake = some (update pc t q u) :=
  Or.inl (update_of_ne hu _ _)

/-- `sema_up` wakes a thread and changes nothing else. -/
theorem semaUp_effect {s : Sema} (h : m.semaUp s = .ok m') :
    (∀ u, m'.pc u = m.pc u ∨ (m.pc u).wake = some (m'.pc u)) ∧ m'.parent = m.parent ∧
    (∀ u, m'.read u = m.read u) ∧ m'.childList = m.childList ∧ m'.stopped = m.stopped := by
  unfold semaUp at h
  split at h
  · cases h
    exact ⟨fun _ => Or.inl rfl, rfl, fun _ => rfl, rfl, rfl⟩
  · next w rest _ =>
    split at h
    · cases h
    · next q hw =>
      cases h
      refine ⟨fun u => ?_, rfl, fun _ => rfl, rfl, rfl⟩
      by_cases hu : u = w
      · subst hu
        right
        rw [setPc_pc, update_self]
        exact hw
      · exact Or.inl (update_of_ne hu _ _)

/-- After `sema_up` the thread goes on. -/
theorem others_of_semaUp {q : Pc} (h : ∀ u, m'.pc u = m.pc u ∨ (m.pc u).wake = some (m'.pc u)) (u : Tid)
    (hu : u ≠ t) : update m'.pc t q u = m.pc u ∨ (m.pc u).wake = some (update m'.pc t q u) := by
  rw [update_of_ne hu]
  exact h u

theorem semaDown_effect {s : Sema} {sleep next : Pc} (hs : sleep.phase ≠ .forking)
    (hn : next.phase ≠ .forking) (hs' : sleep ≠ .none) (hn' : next ≠ .none) :
    Effect m t (m.semaDown t s sleep next) := by
  unfold semaDown
  split
  · refine ⟨others_update, rfl, fun _ hr => hr, fun _ _ => rfl, Or.inl rfl, fun hf => ?_, fun hg => ?_⟩
    · rw [setPc_pc, update_self] at hf
      exact absurd hf hs
    · rw [setPc_pc, update_self] at hg
      exact absurd hg hs'
  · refine ⟨others_update, rfl, fun _ hr => hr, fun _ _ => rfl, Or.inl rfl, fun hf => ?_, fun hg => ?_⟩
    · rw [setPc_pc, update_self] at hf
      exact absurd hf hn
    · rw [setPc_pc, update_self] at hg
      exact absurd hg hn'

theorem effect_of_stmt (h : Stmt m t m') : Effect m t m' := by
  cases h with
  | push hpc =>
    refine ⟨others_update, rfl, fun _ hr => hr, fun u hu => update_of_ne hu _ _, Or.inl rfl, ?_, ?_⟩ <;>
      simp [Pc.phase]
  | forkFind hpc hc =>
    refine ⟨others_update, rfl, fun _ hr => hr, fun _ _ => rfl, Or.inl rfl, ?_, ?_⟩ <;> simp [Pc.phase]
  | loadDown hpc =>
    exact semaDown_effect Phase.noConfusion Phase.noConfusion Pc.noConfusion Pc.noConfusion
  | forked hpc hup =>
    obtain ⟨hpcs, hparent, hread, hlist, hstopped⟩ := semaUp_effect hup
    refine ⟨others_of_semaUp hpcs, hparent, fun u hr hc => hr ((hread u).symm.trans hc), fun u _ => congrFun hlist u,
      Or.inl hstopped, ?_, ?_⟩ <;> simp [Pc.phase]
  | forkFailed hpc hup =>
    obtain ⟨hpcs, hparent, hread, hlist, hstopped⟩ := semaUp_effect hup
    refine ⟨others_of_semaUp hpcs, hparent, fun u hr hc => hr ((hread u).symm.trans hc), fun u _ => congrFun hlist u,
      Or.inr ⟨hpc, ?_, update_self _ _ _⟩, ?_, ?_⟩
    · rw [hstopped]
    all_goals simp [Pc.phase]
  | exit hpc =>
    refine ⟨others_update, rfl, fun _ hr => hr, fun _ _ => rfl, Or.inl rfl, ?_, ?_⟩ <;> simp [Pc.phase]
  | exitUp hpc hup =>
    obtain ⟨hpcs, hparent, hread, hlist, hstopped⟩ := semaUp_effect hup
    refine ⟨others_of_semaUp hpcs, hparent, fun u hr hc => hr ((hread u).symm.trans hc), fun u _ => congrFun hlist u,
      Or.inl hstopped, ?_, ?_⟩ <;> simp [Pc.phase]
  | freeDown hpc =>
    exact semaDown_effect Phase.noConfusion Phase.noConfusion Pc.noConfusion Pc.noConfusion
  | dying hpc =>
    refine ⟨others_update, rfl, fun _ hr => hr, fun _ _ => rfl, Or.inl rfl, ?_, fun _ => hpc⟩
    simp [Pc.phase]
  | waitDown hpc =>
    exact semaDown_effect Phase.noConfusion Phase.noConfusion Pc.noConfusion Pc.noConfusion
  | @waitRead d hpc =>
    refine ⟨others_update, rfl, fun u hr => ?_, fun _ _ => rfl, Or.inl rfl, ?_, ?_⟩
    · show update m.read d _ u ≠ none
      by_cases hu : u = d
      · simp [hu]
      · rw [update_of_ne hu]
        exact hr
    all_goals simp [Pc.phase]
  | waitRemove hpc =>
    refine ⟨others_update, rfl, fun _ hr => hr, fun u hu => update_of_ne hu _ _, Or.inl rfl, ?_, ?_⟩ <;>
      simp [Pc.phase]
  | waitUp hpc hup =>
    obtain ⟨hpcs, hparent, hread, hlist, hstopped⟩ := semaUp_effect hup
    refine ⟨others_of_semaUp hpcs, hparent, fun u hr hc => hr ((hread u).symm.trans hc), fun u _ => congrFun hlist u,
      Or.inl hstopped, ?_, ?_⟩ <;> simp [Pc.phase]

theorem stepThread_effect (h : step m (.step t) = .ok m') : Effect m t m' :=
  effect_of_stmt (stepThread_cases h)

/-! ## The exit status -/

/-- The event ends the process. -/
def Event.stops (e : Event) : Bool :=
  match handle e with
  | .exit _ | .threadExit => true
  | .resume | .panic => false

/-- The process is stopped by `kill`. -/
def Event.isException : Event → Bool
  | .exception _ => true
  | _ => false

/-- What `wait` returns according to its specification. -/
def Event.documented : Event → Int
  | .exit status => status
  | _ => -1

theorem kill_ne_exit (cs : Nat) (status : Int) : kill cs ≠ .exit status := by
  unfold kill
  split
  · exact Outcome.noConfusion
  · split <;> exact Outcome.noConfusion

/-- Only `kill` leaves another status than it should. -/
theorem leaves_eq_documented {e : Event} (h : e.stops) :
    e.leaves = e.documented ↔ e.isException = false := by
  cases e with
  | pageFault handled =>
    cases handled with
    | true => cases h
    | false => simp [Event.leaves, Event.documented, Event.isException, handle, pageFault]
  | exception cs =>
    have hleaves : (Event.exception cs).leaves = 0 := by
      rw [Event.leaves]
      split
      · next status heq => exact absurd heq (kill_ne_exit cs status)
      · rfl
    simp [hleaves, Event.documented, Event.isException]
  | _ => simp [Event.leaves, Event.documented, Event.isException, handle]

/-- A process that has stopped was stopped by one of the events. -/
theorem stops_of_reach (h : Reach step Always boot m) :
    ∀ c e, m.stopped c = some e → e.stops = true := by
  refine h.invariant (I := fun m => ∀ c e, m.stopped c = some e → e.stops = true)
    (fun c e he => by cases he) fun m a m' hm _ hs c e he => ?_
  cases a with
  | step t =>
    rcases (stepThread_effect hs).stopped with hsame | ⟨-, hnew, -⟩
    · rw [hsame] at he
      exact hm c e he
    · rw [hnew] at he
      by_cases hc : c = t
      · rw [hc, update_self] at he
        cases he
        rfl
      · rw [update_of_ne hc] at he
        exact hm c e he
  | fork t alloc =>
    rw [step] at hs
    split at hs
    · cases hs
      split at he
      · exact hm c e he
      · exact hm c e he
    · cases hs
  | doFork t succ =>
    rw [step] at hs
    split at hs
    · split at hs
      · cases hs
      · cases hs
        exact hm c e he
    · cases hs
  | wait t pid =>
    rw [step] at hs
    split at hs
    · split at hs
      · cases hs
      · cases hs
        exact hm c e he
      · cases hs
        exact hm c e he
    · cases hs
  | event t e' =>
    rw [step] at hs
    have hone : ∀ {stopped : Tid → Option Event}, stopped = update m.stopped t (some e') →
        e'.stops = true → stopped c = some e → e.stops = true := by
      rintro _ rfl hstops he
      by_cases hc : c = t
      · rw [hc, update_self] at he
        cases he
        exact hstops
      · rw [update_of_ne hc] at he
        exact hm c e he
    split at hs
    · split at hs
      · cases hs
        exact hm c e he
      · next hhandle =>
        cases hs
        exact hone rfl (by rw [Event.stops, hhandle]) he
      · next hhandle =>
        cases hs
        exact hone rfl (by rw [Event.stops, hhandle]) he
      · cases hs
    · cases hs
  | setPriority t p =>
    cases hs
    exact hm c e he

/-- **The status of a process that stopped**: `process_wait` returns what its specification says if
and only if the process was not stopped by `kill`. -/
theorem killed_status (h : Reach step Always boot m) {e : Event} (hp : m.parent c = some p)
    (he : m.stopped c = some e) :
    (∀ st, m.read c = some st → (st = e.documented ↔ e.isException = false)) ∧
    (m.pc p = .user → m.waits p c = [] → (m.pc c).phase.upped →
      ∃ m' st, exec step m [.wait p c, .step p, .step p, .step p, .step p] = .ok m' ∧
        m'.pc p = .user ∧ m'.results = ⟨p, c, st, m.nextTid⟩ :: m.results ∧
        (st = e.documented ↔ e.isException = false)) := by
  have hinv := inv_of_reach h
  have hstops := stops_of_reach h c e he
  refine ⟨fun st hst => ?_, fun hpc hnil hupped => ?_⟩
  · obtain ⟨-, e', he', rfl⟩ := (hinv.thread c).read st hst
    rw [he] at he'
    cases he'
    exact leaves_eq_documented hstops
  · have hread : m.read c = none := by
      rcases hinv.waits_eq hp with ⟨-, hread⟩ | ⟨n, e', -, -, hwaits⟩
      · exact hread hpc
      · rw [hnil] at hwaits
        exact absurd hwaits.symm (by simp)
    have hc := (hinv.mem_childList hpc hp).mpr hread
    obtain ⟨e', he', hleft⟩ := left_of_upped (hinv.thread c).status hupped (hinv.listed_alive hc)
    rw [he] at he'
    cases he'
    obtain ⟨m', hexec, hpc', hres⟩ := hinv.run_wait hpc hc hupped
    refine ⟨m', _, hexec, hpc', hres, ?_⟩
    rw [hleft]
    exact leaves_eq_documented hstops

/-- The first process forks, and its child has stopped in the way of `e`. -/
def forkedChild (e : Event) : List Action :=
  [.fork INITD true, .step INITD, .step INITD, .step INITD, .doFork 4 true, .step 4, .step INITD,
    .event 4 e]

/-- A child calls `exit (7)`, and its parent waits for it. -/
theorem killed_status_exit : ∃ m : Procs, m.stopped 4 = some (.exit 7) ∧
    (∃ m' st, exec step m [.wait INITD 4, .step INITD, .step INITD, .step INITD, .step INITD] = .ok m' ∧
      m'.pc INITD = .user ∧ m'.results = ⟨INITD, 4, st, m.nextTid⟩ :: m.results ∧
      (st = (Event.exit 7).documented ↔ (Event.exit 7).isException = false)) := by
  have h : Reach step Always boot _ :=
    reach_of_exec (forkedChild (.exit 7) ++ [.step 4, .step 4, .step 4]) rfl
  exact ⟨_, rfl, (killed_status h (p := INITD) (c := 4) rfl rfl).2 rfl rfl rfl⟩

/-- A child divides by zero, and its parent gets 0 from `wait`. -/
theorem killed_child_returns_zero : ∃ m : Procs, Reach step Always boot m ∧
    m.parent 4 = some INITD ∧ m.stopped 4 = some (.exception SEL_UCSEG) ∧
    m.waits INITD 4 = [0] ∧ (Event.exception SEL_UCSEG).documented = -1 :=
  ⟨_, reach_of_exec (forkedChild (.exception SEL_UCSEG) ++ [.step 4, .step 4, .wait INITD 4,
    .step INITD, .step INITD, .step INITD, .step INITD]) rfl, rfl, rfl, rfl, rfl⟩

/-! ## Processes that nobody can release -/

/-- A process stops only when it has waited for all of its children. -/
def Waited (m : Procs) : Action → Prop
  | .event t e => e.stops = true → m.childList t = []
  | _ => True

/-- The check for `Waited`. -/
def waited (m : Procs) : Action → Bool
  | .event t e => !e.stops || (m.childList t).isEmpty
  | _ => true

theorem waited_sound (m : Procs) (a : Action) (h : waited m a = true) : Waited m a := by
  cases a with
  | event t e =>
    intro hs
    simpa [waited, hs] using h
  | _ => trivial

/-- What holds of the tree of processes in such runs. -/
structure Reaped (m : Procs) : Prop where
  main : m.stopped MAIN = none
  mainRoot : m.parent MAIN = none
  idle : m.pc IDLE = .kernel
  idleParent : m.parent IDLE = some MAIN
  root : ∀ t, m.parent t = none → t = MAIN ∨ m.pc t = .none
  forking : ∀ t, (m.pc t).phase = .forking → m.childList t = []
  waited : ∀ p c, m.parent c = some p → m.stopped p ≠ none → m.read c ≠ none
  gone : ∀ p c, m.parent c = some p → m.pc p = .none → m.stopped p ≠ none

theorem reaped_boot : Reaped boot where
  main := rfl
  mainRoot := rfl
  idle := rfl
  idleParent := rfl
  root t ht := by
    by_cases hm : t = MAIN
    · exact Or.inl hm
    · right
      simp only [boot] at ht ⊢
      split at ht
      · cases ht
      · next hno => rw [if_neg (by tauto), if_neg (by tauto)]
  forking t ht := by
    simp only [boot] at ht
    split at ht
    · cases ht
    · split at ht <;> cases ht
  waited p c _ hs := absurd rfl hs
  gone p c hp hn := by
    simp only [boot] at hp
    split at hp
    · cases hp
      cases hn
    · cases hp

/-- A thread that is on no list has read the status of all of its children. -/
theorem read_of_nil (h : Inv m) (haway : (m.pc t).stage c = .elsewhere) (hnil : m.childList t = [])
    (hp : m.parent c = some t) : m.read c ≠ none := by
  intro hread
  have hlisted := (h.pair t c hp).listed
  rw [view_stage, haway, view_read, hread] at hlisted
  have hmem := (view_listed m t c).mp hlisted
  rw [hnil] at hmem
  cases hmem

/-- The idle thread is on the list of the initial thread for ever. -/
theorem Reaped.idle_listed (hr : Reaped m) (h : Inv m) (hpc : m.pc MAIN = .user) :
    m.childList MAIN ≠ [] := by
  have hok := h.pair MAIN IDLE hr.idleParent
  have hread : m.read IDLE = none := by
    by_contra hc
    have hupped := hok.upped (by simp [View.consumed, Option.isSome_iff_ne_none, hc])
    rw [view_phase, hr.idle] at hupped
    cases hupped
  intro hnil
  have hmem := (h.mem_childList hpc hr.idleParent).mpr hread
  rw [hnil] at hmem
  cases hmem

theorem wake_ne_none {a b : Pc} (h : a.wake = some b) : b ≠ .none ∧ b.phase ≠ .forking := by
  cases a <;> cases h <;> exact ⟨Pc.noConfusion, Phase.noConfusion⟩

theorem Reaped.stepThread (hr : Reaped m) (h : Inv m) (hs : step m (.step t) = .ok m') : Reaped m' := by
  have he := stepThread_effect hs
  -- a thread that is woken had a `struct thread` before
  have hnone : ∀ u, u ≠ t → (m'.pc u = .none ↔ m.pc u = .none) := by
    intro u hu
    rcases he.others u hu with hsame | hwake
    · rw [hsame]
    · refine ⟨fun hc => absurd hc (wake_ne_none hwake).1, fun hc => ?_⟩
      rw [hc] at hwake
      cases hwake
  have hstopped : ∀ u, m'.stopped u ≠ none → m.stopped u ≠ none ∨ u = t ∧ m.pc t = .forkUp false := by
    intro u hu
    rcases he.stopped with hsame | ⟨hpc, hnew, -⟩
    · rw [hsame] at hu
      exact Or.inl hu
    · by_cases hut : u = t
      · exact Or.inr ⟨hut, hpc⟩
      · rw [hnew, update_of_ne hut] at hu
        exact Or.inl hu
  have hkept : ∀ u, m.stopped u ≠ none → m'.stopped u ≠ none := by
    intro u hu
    rcases he.stopped with hsame | ⟨-, hnew, -⟩
    · rw [hsame]
      exact hu
    · rw [hnew]
      by_cases hut : u = t
      · rw [hut, update_self]
        simp
      · rw [update_of_ne hut]
        exact hu
  constructor
  case main =>
    by_contra hc
    rcases hstopped MAIN hc with hm | ⟨ht, hpc⟩
    · exact hm hr.main
    · -- the initial thread is no copy
      exact (h.thread t).forking (by rw [hpc]; rfl) (ht ▸ hr.mainRoot)
  case mainRoot =>
    rw [he.parent]
    exact hr.mainRoot
  case idle =>
    have hti : IDLE ≠ t := by
      rintro rfl
      rw [step, Process.stepThread, hr.idle] at hs
      cases hs
    rcases he.others IDLE hti with hsame | hwake
    · rw [hsame]
      exact hr.idle
    · rw [hr.idle] at hwake
      cases hwake
  case idleParent =>
    rw [he.parent]
    exact hr.idleParent
  case root =>
    intro u hu
    rw [he.parent] at hu
    rcases hr.root u hu with hm | hn
    · exact Or.inl hm
    · right
      have hut : u ≠ t := by
        rintro rfl
        rw [step, Process.stepThread, hn] at hs
        cases hs
      exact (hnone u hut).mpr hn
  case forking =>
    intro u hu
    by_cases hut : u = t
    · subst hut
      obtain ⟨hold, hlist⟩ := he.forking hu
      rw [hlist]
      exact hr.forking u hold
    · rw [he.childList u hut]
      rcases he.others u hut with hsame | hwake
      · rw [hsame] at hu
        exact hr.forking u hu
      · exact absurd hu (wake_ne_none hwake).2
  case waited =>
    intro p c hp hsp
    rw [he.parent] at hp
    refine he.read c ?_
    rcases hstopped p hsp with hold | ⟨rfl, hpc⟩
    · exact hr.waited p c hp hold
    · exact read_of_nil h (by rw [hpc]; rfl) (hr.forking p (by rw [hpc]; rfl)) hp
  case gone =>
    intro p c hp hn
    rw [he.parent] at hp
    by_cases hpt : p = t
    · subst hpt
      have hdying := he.gone hn
      obtain ⟨e, hse, -⟩ : ∃ e, m.stopped p = some e ∧ m.exitStatus p = e.leaves :=
        ((h.thread p).status_of hdying :)
      exact hkept p (by rw [hse]; simp)
    · exact hkept p (hr.gone p c hp ((hnone p hpt).mp hn))

theorem Reaped.fork (hr : Reaped m) (h : Inv m) (hpc : m.pc t = .user) : Reaped (m.threadCreate t) := by
  obtain ⟨hnpc, hnparent, hnread, hnstopped⟩ := (h.thread m.nextTid).fresh (Nat.le_refl _)
  have hidle : IDLE ≠ m.nextTid := by
    intro hc
    have hp := hr.idleParent
    rw [hc, hnparent] at hp
    cases hp
  have hti : IDLE ≠ t := by
    rintro rfl
    rw [hr.idle] at hpc
    cases hpc
  have hzero : m.stopped t = none :=
    ((h.thread t).status_of hpc : m.stopped t = none ∧ m.exitStatus t = 0).1
  have htn : t ≠ m.nextTid := by
    rintro hc
    rw [← hc, hpc] at hnpc
    cases hnpc
  have hmain : MAIN ≠ m.nextTid := (Nat.lt_trans (h.lt _ _ hr.idleParent) (h.lt_nextTid hr.idleParent)).ne
  constructor
  case main => exact hr.main
  case mainRoot => exact (update_of_ne hmain _ _).trans hr.mainRoot
  case idle => exact (update_of_ne hidle _ _).trans ((update_of_ne hti _ _).trans hr.idle)
  case idleParent => exact (update_of_ne hidle _ _).trans hr.idleParent
  case root =>
    intro u hu
    have hu' : update m.parent m.nextTid (some t) u = none := hu
    by_cases hun : u = m.nextTid
    · rw [hun, update_self] at hu'
      cases hu'
    · rw [update_of_ne hun] at hu'
      refine (hr.root u hu').imp_right fun hn => ?_
      have hut : u ≠ t := by
        rintro rfl
        rw [hpc] at hn
        cases hn
      exact (update_of_ne hun _ _).trans ((update_of_ne hut _ _).trans hn)
  case forking =>
    intro u hu
    show update m.childList m.nextTid [] u = []
    by_cases hun : u = m.nextTid
    · rw [hun, update_self]
    · rw [update_of_ne hun]
      have hu' : (update (update m.pc t (.push m.nextTid)) m.nextTid (.doFork t) u).phase = .forking := hu
      rw [update_of_ne hun] at hu'
      by_cases hut : u = t
      · rw [hut, update_self] at hu'
        cases hu'
      · rw [update_of_ne hut] at hu'
        exact hr.forking u hu'
  case waited =>
    intro p c hp hsp
    have hp' : update m.parent m.nextTid (some t) c = some p := hp
    by_cases hcn : c = m.nextTid
    · rw [hcn, update_self] at hp'
      cases hp'
      exact absurd hzero hsp
    · rw [update_of_ne hcn] at hp'
      exact hr.waited p c hp' hsp
  case gone =>
    intro p c hp hn
    have hn' : update (update m.pc t (.push m.nextTid)) m.nextTid (.doFork t) p = .none := hn
    have hp' : update m.parent m.nextTid (some t) c = some p := hp
    have hpn : p ≠ m.nextTid := by
      rintro rfl
      rw [update_self] at hn'
      cases hn'
    have hpt : p ≠ t := by
      rintro rfl
      rw [update_of_ne htn, update_self] at hn'
      cases hn'
    rw [update_of_ne hpn, update_of_ne hpt] at hn'
    have hcn : c ≠ m.nextTid := by
      rintro rfl
      rw [update_self] at hp'
      exact hpt (Option.some.inj hp').symm
    rw [update_of_ne hcn] at hp'
    exact hr.gone p c hp' hn'

/-- A change of the next statement of a thread that exists and does not stop. -/
theorem Reaped.setPc {q : Pc} (hr : Reaped m) (hborn : m.pc t ≠ .none) (hkernel : m.pc t ≠ .kernel)
    (hq : q ≠ .none) (hforking : q.phase = .forking → (m.pc t).phase = .forking) : Reaped (m.setPc t q) := by
  have hti : IDLE ≠ t := by
    rintro rfl
    exact hkernel hr.idle
  have hnone : ∀ u, update m.pc t q u = .none → m.pc u = .none := by
    intro u hu
    by_cases hut : u = t
    · rw [hut, update_self] at hu
      exact absurd hu hq
    · rwa [update_of_ne hut] at hu
  constructor
  case main => exact hr.main
  case mainRoot => exact hr.mainRoot
  case idle => exact (update_of_ne hti _ _).trans hr.idle
  case idleParent => exact hr.idleParent
  case root =>
    intro u hu
    refine (hr.root u hu).imp_right fun hn => ?_
    have hut : u ≠ t := by
      rintro rfl
      exact hborn hn
    exact (update_of_ne hut _ _).trans hn
  case forking =>
    intro u hu
    have hu' : (update m.pc t q u).phase = .forking := hu
    by_cases hut : u = t
    · rw [hut, update_self] at hu'
      rw [hut]
      exact hr.forking t (hforking hu')
    · rw [update_of_ne hut] at hu'
      exact hr.forking u hu'
  case waited => exact hr.waited
  case gone => exact fun p c hp hn => hr.gone p c hp (hnone p hn)

/-- A process that has waited for its children stops. -/
theorem Reaped.stop {q : Pc} {e : Event} (hr : Reaped m) (h : Inv m) (hpc : m.pc t = .user)
    (hnil : m.childList t = []) (hq : q ≠ .none) (hforking : q.phase ≠ .forking) :
    Reaped { m.setPc t q with stopped := update m.stopped t (some e) } := by
  have hset := hr.setPc (q := q) (by rw [hpc]; exact Pc.noConfusion) (by rw [hpc]; exact Pc.noConfusion) hq
    fun hc => absurd hc hforking
  have hmain : MAIN ≠ t := by
    rintro rfl
    exact hr.idle_listed h hpc hnil
  have hstopped : ∀ u, m.stopped u ≠ none → update m.stopped t (some e) u ≠ none := by
    intro u hu
    by_cases hut : u = t
    · rw [hut, update_self]
      simp
    · rwa [update_of_ne hut]
  exact {
    main := (update_of_ne hmain _ _).trans hr.main
    mainRoot := hset.mainRoot
    idle := hset.idle
    idleParent := hset.idleParent
    root := hset.root
    forking := hset.forking
    waited := fun p c hp hsp => by
      have hp' : m.parent c = some p := hp
      have hsp' : update m.stopped t (some e) p ≠ none := hsp
      by_cases hpt : p = t
      · subst hpt
        have hread := read_of_nil h (by rw [hpc]; rfl) hnil hp'
        exact hread
      · rw [update_of_ne hpt] at hsp'
        exact hr.waited p c hp' hsp'
    gone := fun p c hp hn => hstopped p (hset.gone p c hp hn) }

theorem reaped_step {a : Action} (hr : Reaped m) (h : Inv m) (hw : Waited m a) (hs : step m a = .ok m') :
    Reaped m' := by
  cases a with
  | step t => exact hr.stepThread h hs
  | fork t alloc =>
    rw [step] at hs
    split at hs
    · next hpc =>
      cases hs
      split
      · exact hr.fork h hpc
      · exact hr
    · cases hs
  | doFork t succ =>
    rw [step] at hs
    split at hs
    · next q hpc =>
      split at hs
      · cases hs
      · cases hs
        exact hr.setPc (by rw [hpc]; exact Pc.noConfusion) (by rw [hpc]; exact Pc.noConfusion)
          Pc.noConfusion fun _ => by rw [hpc]; rfl
    · cases hs
  | wait t pid =>
    rw [step] at hs
    split at hs
    · next hpc =>
      split at hs
      · cases hs
      · cases hs
        exact ⟨hr.main, hr.mainRoot, hr.idle, hr.idleParent, hr.root, hr.forking, hr.waited, hr.gone⟩
      · cases hs
        exact hr.setPc (by rw [hpc]; exact Pc.noConfusion) (by rw [hpc]; exact Pc.noConfusion)
          Pc.noConfusion fun hc => by cases hc
    · cases hs
  | event t e =>
    rw [step] at hs
    split at hs
    · next hpc =>
      split at hs
      · cases hs
        exact hr
      · next status he =>
        cases hs
        exact hr.stop h hpc (hw (by rw [Event.stops, he])) Pc.noConfusion Phase.noConfusion
      · next he =>
        cases hs
        exact hr.stop h hpc (hw (by rw [Event.stops, he])) Pc.noConfusion Phase.noConfusion
      · cases hs
    · cases hs
  | setPriority t p =>
    cases hs
    exact ⟨hr.main, hr.mainRoot, hr.idle, hr.idleParent, hr.root, hr.forking, hr.waited, hr.gone⟩

theorem Stage.returning_cases {s : Stage} (h : s.returning = true) :
    s.isWaitRemove = true ∨ ∃ st, s = .waitUp st := by
  cases s <;> simp_all [Stage.returning, Stage.isWaitRemove]

theorem stage_eq_push {a : Pc} : a.stage c = .push ↔ a = .push c := by
  cases a <;> simp [Pc.stage] <;> split <;> simp

theorem stage_eq_waitUp {a : Pc} {st : Int} : a.stage c = .waitUp st ↔ a = .waitUp c st := by
  cases a <;> simp [Pc.stage] <;> split <;> simp_all

/-- A child that is not released is on the list, except at two statements of the parent. -/
theorem View.Ok.unlisted {v : View} (h : v.Ok p c) (hfreed : v.freed = false) (hl : v.listed = false) :
    v.stage = .push ∨ ∃ st, v.stage = .waitUp st := by
  by_cases hpush : v.stage = .push
  · exact Or.inl hpush
  · right
    have hlisted := h.listed
    rw [hl, decide_eq_true hpush, Bool.true_and, Eq.comm, Bool.or_eq_false_iff] at hlisted
    obtain ⟨hread, hremove⟩ := hlisted
    have hreturning : v.stage.returning = true := by
      rw [View.freed] at hfreed
      cases hr : v.read <;> simp_all
    rcases Stage.returning_cases hreturning with hc | hup
    · rw [hremove] at hc
      cases hc
    · exact hup

end Pintos.Process
