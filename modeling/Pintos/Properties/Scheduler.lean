import Pintos.Threads.Thread

/-!
# The scheduler keeps every thread in one place

* `Sched k r` — the invariant, with `r` the running thread; between `thread_block` and the end of
  `schedule` nobody runs and `r` is `none`
* `Sched.stop`, `Sched.run`, `Sched.unblock` — the three ways a thread changes its place
-/

namespace Pintos.Kernel

open Function Machine

/-- The lists that link a thread through its `elem`. -/
inductive Place where
  | ready
  | sleep
  | waiters (s : SemaId)
  | destruction
  deriving DecidableEq

def elems (k : Kernel) : Place → List Tid
  | .ready => k.readyList
  | .sleep => k.sleepList
  | .waiters s => (k.sema s).waiters
  | .destruction => k.destructionReq

/-- The status of the threads in a list. -/
def Place.status : Place → ThreadStatus
  | .ready => .ready
  | .sleep | .waiters _ => .blocked
  | .destruction => .dying

/-- The invariant of the scheduler when `r` runs. -/
structure Sched (k : Kernel) (r : Option Tid) : Prop where
  running : ∀ t, k.status t = .running ↔ r = some t
  nodup : ∀ p, (k.elems p).Nodup
  disjoint : ∀ p q t, t ∈ k.elems p → t ∈ k.elems q → p = q
  status : ∀ p t, t ∈ k.elems p → k.status t = p.status
  ready : ∀ t, k.status t = .ready → k.idleThread ≠ some t → t ∈ k.elems .ready
  used : ∀ t, t ∈ k.elems .destruction → k.allocated t = true ∧ t ≠ k.initialThread
  dying : ∀ t, k.status t = .dying → k.allocated t = true → t ≠ k.initialThread →
    t ∈ k.elems .destruction
  alive : ∀ t, k.status t ≠ .dying → k.allocated t = true
  creating : ∀ c t, k.doing c = .creating t → k.status t = .blocked ∧ ∀ p, t ∉ k.elems p
  creator : ∀ c c' t, k.doing c = .creating t → k.doing c' = .creating t → c = c'
  idle : ∀ t, k.isIdle t = true → k.status t ≠ .dying ∧ (∀ p, p ≠ .ready → t ∉ k.elems p) ∧
    ∀ c, k.doing c ≠ .creating t
  oneIdle : ∀ t u, k.isIdle t = true → k.isIdle u = true → t = u
  idleThread : ∀ t, k.idleThread = some t → k.isIdle t = true ∧ t ∉ k.elems .ready
  started : k.idleThread = none →
    ∃ t, k.isIdle t = true ∧ (t ∈ k.elems .ready ∨ r = some t)
  initial : k.allocated k.initialThread = true ∧ k.frees k.initialThread = 0
  exits : ∀ t, t ≠ k.initialThread →
    k.exits t = k.frees t + (k.elems .destruction).count t

/-- The parts of a state that the invariant is about. -/
structure Agree (k k' : Kernel) : Prop where
  status : k'.status = k.status
  elems : k'.elems = k.elems
  idleThread : k'.idleThread = k.idleThread
  initialThread : k'.initialThread = k.initialThread
  allocated : k'.allocated = k.allocated
  doing : k'.doing = k.doing
  isIdle : k'.isIdle = k.isIdle
  exits : k'.exits = k.exits
  frees : k'.frees = k.frees

theorem Sched.agree {k k' : Kernel} {r : Option Tid} (h : Sched k r) (ha : Agree k k') :
    Sched k' r where
  running := by rw [ha.status]; exact h.running
  nodup := by rw [ha.elems]; exact h.nodup
  disjoint := by rw [ha.elems]; exact h.disjoint
  status := by rw [ha.elems, ha.status]; exact h.status
  ready := by rw [ha.elems, ha.status, ha.idleThread]; exact h.ready
  used := by rw [ha.elems, ha.allocated, ha.initialThread]; exact h.used
  dying := by rw [ha.elems, ha.status, ha.allocated, ha.initialThread]; exact h.dying
  alive := by rw [ha.status, ha.allocated]; exact h.alive
  creating := by rw [ha.elems, ha.status, ha.doing]; exact h.creating
  creator := by rw [ha.doing]; exact h.creator
  idle := by rw [ha.elems, ha.status, ha.doing, ha.isIdle]; exact h.idle
  oneIdle := by rw [ha.isIdle]; exact h.oneIdle
  idleThread := by rw [ha.elems, ha.idleThread, ha.isIdle]; exact h.idleThread
  started := by rw [ha.elems, ha.idleThread, ha.isIdle]; exact h.started
  initial := by rw [ha.allocated, ha.initialThread, ha.frees]; exact h.initial
  exits := by rw [ha.elems, ha.initialThread, ha.frees, ha.exits]; exact h.exits

/-- A thread in no list. -/
def Loose (k : Kernel) (t : Tid) : Prop := ∀ p, t ∉ k.elems p

theorem Sched.loose_of_running {k : Kernel} {t : Tid} (h : Sched k (some t)) : k.Loose t := by
  intro p hp
  have hrun : k.status t = .running := (h.running t).mpr rfl
  have hst := h.status p t hp
  rw [hrun] at hst
  cases p <;> cases hst

/-! ## A thread joins a list -/

/--
`t`, in no list, goes to the list `p` and gets its status; if it was the one that ran, nobody
runs now.
-/
theorem Sched.link {k j : Kernel} {r : Option Tid} {t : Tid} (p : Place) (h : Sched k r)
    (hloose : k.Loose t) (hst : k.status t ≠ .dying)
    (hs : j.status = update k.status t p.status) (hp : (j.elems p).Perm (t :: k.elems p))
    (hq : ∀ q, q ≠ p → j.elems q = k.elems q)
    (hc : ∀ c, k.doing c ≠ .creating t) (hi : k.isIdle t = true → p = .ready)
    (hidle : p = .ready → k.idleThread ≠ some t)
    (hd : p = .destruction → t ≠ k.initialThread)
    (hx : ∀ u, j.exits u = k.exits u + if u = t ∧ p = .destruction then 1 else 0)
    (hk : j.idleThread = k.idleThread ∧ j.initialThread = k.initialThread ∧
      j.allocated = k.allocated ∧ j.doing = k.doing ∧ j.isIdle = k.isIdle ∧
      j.frees = k.frees) :
    Sched j (if r = some t then none else r) := by
  obtain ⟨hkt, hki, hka, hkd, hkf, hkr⟩ := hk
  have hmem : ∀ q u, u ∈ j.elems q ↔ u ∈ k.elems q ∨ (q = p ∧ u = t) := by
    intro q u
    by_cases hqp : q = p
    · subst hqp
      rw [hp.mem_iff, List.mem_cons]
      constructor
      · rintro (rfl | hu)
        · exact Or.inr ⟨rfl, rfl⟩
        · exact Or.inl hu
      · rintro (hu | ⟨-, rfl⟩)
        · exact Or.inr hu
        · exact Or.inl rfl
    · rw [hq q hqp]
      exact ⟨Or.inl, fun hu => hu.resolve_right (fun hc => hqp hc.1)⟩
  have hstu : ∀ u, u ≠ t → j.status u = k.status u := by
    intro u hu
    rw [hs, update_of_ne hu]
  have hstt : j.status t = p.status := by rw [hs, update_self]
  have hne : ∀ q u, u ∈ k.elems q → u ≠ t := by
    rintro q u hu rfl
    exact hloose q hu
  refine ⟨?_, ?_, ?_, ?_, ?_, ?_, ?_, ?_, ?_, ?_, ?_, ?_, ?_, ?_, ?_, ?_⟩
  · intro u
    by_cases hut : u = t
    · subst hut
      rw [hstt]
      refine ⟨fun hc => ?_, fun hc => ?_⟩
      · cases p <;> cases hc
      · split at hc
        · cases hc
        · next hr => exact absurd hc hr
    · rw [hstu u hut, h.running u]
      split
      · next hr =>
        refine ⟨fun hc => ?_, fun hc => nomatch hc⟩
        rw [hr] at hc
        exact absurd (Option.some.inj hc).symm hut
      · exact Iff.rfl
  · intro q
    by_cases hqp : q = p
    · subst hqp
      exact hp.nodup_iff.mpr (List.nodup_cons.mpr ⟨hloose q, h.nodup q⟩)
    · rw [hq q hqp]
      exact h.nodup q
  · intro q q' u hu hu'
    rcases (hmem q u).mp hu with hu | ⟨rfl, rfl⟩ <;>
      rcases (hmem q' u).mp hu' with hu' | ⟨hqp', hut⟩
    · exact h.disjoint q q' u hu hu'
    · exact absurd hut (hne q u hu)
    · exact absurd rfl (hne q' u hu')
    · exact hqp'.symm
  · intro q u hu
    rcases (hmem q u).mp hu with hu | ⟨rfl, rfl⟩
    · rw [hstu u (hne q u hu)]
      exact h.status q u hu
    · exact hstt
  · intro u hu hidle'
    rw [hkt] at hidle'
    by_cases hut : u = t
    · subst hut
      rw [hstt] at hu
      refine (hmem _ u).mpr (Or.inr ⟨?_, rfl⟩)
      cases p <;> first | rfl | cases hu
    · rw [hstu u hut] at hu
      exact (hmem _ u).mpr (Or.inl (h.ready u hu hidle'))
  · intro u hu
    rw [hka, hki]
    rcases (hmem _ u).mp hu with hu | ⟨hpd, rfl⟩
    · exact h.used u hu
    · exact ⟨h.alive u hst, hd hpd.symm⟩
  · intro u hu hau hiu
    rw [hka] at hau
    rw [hki] at hiu
    by_cases hut : u = t
    · subst hut
      rw [hstt] at hu
      refine (hmem _ u).mpr (Or.inr ⟨?_, rfl⟩)
      cases p <;> first | rfl | cases hu
    · rw [hstu u hut] at hu
      exact (hmem _ u).mpr (Or.inl (h.dying u hu hau hiu))
  · intro u hu
    rw [hka]
    by_cases hut : u = t
    · subst hut
      exact h.alive u hst
    · rw [hstu u hut] at hu
      exact h.alive u hu
  · intro c u hcu
    rw [hkd] at hcu
    obtain ⟨hb, hnot⟩ := h.creating c u hcu
    have hut : u ≠ t := by
      rintro rfl
      exact hc c hcu
    refine ⟨by rw [hstu u hut]; exact hb, fun q hmq => ?_⟩
    exact ((hmem q u).mp hmq).elim (hnot q) (fun hx => hut hx.2)
  · rw [hkd]
    exact h.creator
  · intro u hu
    rw [hkf] at hu
    obtain ⟨hdu, hlu, hcu⟩ := h.idle u hu
    refine ⟨?_, ?_, by rw [hkd]; exact hcu⟩
    · by_cases hut : u = t
      · subst hut
        rw [hstt, hi hu]
        exact fun hc => nomatch hc
      · rw [hstu u hut]
        exact hdu
    · intro q hqr hmq
      rcases (hmem q u).mp hmq with hmq | ⟨rfl, rfl⟩
      · exact hlu q hqr hmq
      · exact hqr (hi hu)
  · rw [hkf]
    exact h.oneIdle
  · intro u hu
    rw [hkt] at hu
    rw [hkf]
    obtain ⟨hiu, hnr⟩ := h.idleThread u hu
    refine ⟨hiu, fun hmu => ?_⟩
    rcases (hmem _ u).mp hmu with hmu | ⟨hpr, rfl⟩
    · exact hnr hmu
    · exact hidle hpr.symm hu
  · intro hno
    rw [hkt] at hno
    rw [hkf]
    obtain ⟨u, hiu, hu⟩ := h.started hno
    refine ⟨u, hiu, ?_⟩
    rcases hu with hu | hu
    · exact Or.inl ((hmem _ u).mpr (Or.inl hu))
    · by_cases hut : u = t
      · subst hut
        exact Or.inl ((hmem _ u).mpr (Or.inr ⟨(hi hiu).symm, rfl⟩))
      · refine Or.inr ?_
        rw [if_neg]
        · exact hu
        · intro hr
          rw [hr] at hu
          exact hut (Option.some.inj hu).symm
  · rw [hka, hki, hkr]
    exact h.initial
  · intro u hu
    rw [hki] at hu
    rw [hx u, hkr, h.exits u hu]
    by_cases hpd : p = .destruction
    · subst hpd
      rw [hp.count_eq, List.count_cons]
      by_cases hut : u = t
      · subst hut
        simp only [and_self, if_true, beq_self_eq_true]
        omega
      · have hbe : (t == u) = false := by simpa using Ne.symm hut
        simp [hut, hbe]
    · rw [hq .destruction (fun hc => hpd hc.symm)]
      simp [hpd]

/--
The running thread `t` stops without joining a list: `idle`, or the initial thread when it dies.
-/
theorem Sched.settle {k k' : Kernel} {t : Tid} {st : ThreadStatus} (h : Sched k (some t))
    (hs : k'.status = update k.status t st) (he : k'.elems = k.elems) (hst : st ≠ .running)
    (hready : st = .ready → k.idleThread = some t)
    (hdying : st = .dying → t = k.initialThread ∧ k.isIdle t = false)
    (hstarted : k.isIdle t = true → k.idleThread ≠ none)
    (hx : ∀ u, u ≠ k.initialThread → k'.exits u = k.exits u)
    (hk : k'.idleThread = k.idleThread ∧ k'.initialThread = k.initialThread ∧
      k'.allocated = k.allocated ∧ k'.doing = k.doing ∧ k'.isIdle = k.isIdle ∧
      k'.frees = k.frees) :
    Sched k' none := by
  obtain ⟨hkt, hki, hka, hkd, hkf, hkr⟩ := hk
  have hloose := h.loose_of_running
  have hrun : k.status t = .running := (h.running t).mpr rfl
  have hnd : k.status t ≠ .dying := by
    rw [hrun]
    exact fun hc => nomatch hc
  have hstu : ∀ u, u ≠ t → k'.status u = k.status u := by
    intro u hu
    rw [hs, update_of_ne hu]
  have hstt : k'.status t = st := by rw [hs, update_self]
  have hne : ∀ q u, u ∈ k.elems q → u ≠ t := by
    rintro q u hu rfl
    exact hloose q hu
  refine ⟨?_, ?_, ?_, ?_, ?_, ?_, ?_, ?_, ?_, ?_, ?_, ?_, ?_, ?_, ?_, ?_⟩
  · intro u
    refine ⟨fun hc => ?_, fun hc => nomatch hc⟩
    by_cases hut : u = t
    · subst hut
      exact absurd (hstt.symm.trans hc) hst
    · rw [hstu u hut, h.running u] at hc
      exact absurd (Option.some.inj hc).symm hut
  · rw [he]
    exact h.nodup
  · rw [he]
    exact h.disjoint
  · intro q u hu
    rw [he] at hu
    rw [hstu u (hne q u hu)]
    exact h.status q u hu
  · intro u hu hidle
    rw [hkt] at hidle
    rw [he]
    by_cases hut : u = t
    · subst hut
      exact absurd (hready (hstt.symm.trans hu)) hidle
    · rw [hstu u hut] at hu
      exact h.ready u hu hidle
  · rw [he, hka, hki]
    exact h.used
  · intro u hu hau hiu
    rw [hka] at hau
    rw [hki] at hiu
    rw [he]
    by_cases hut : u = t
    · subst hut
      exact absurd (hdying (hstt.symm.trans hu)).1 hiu
    · rw [hstu u hut] at hu
      exact h.dying u hu hau hiu
  · intro u hu
    rw [hka]
    by_cases hut : u = t
    · subst hut
      exact h.alive u hnd
    · rw [hstu u hut] at hu
      exact h.alive u hu
  · intro c u hcu
    rw [hkd] at hcu
    obtain ⟨hb, hnot⟩ := h.creating c u hcu
    have hut : u ≠ t := by
      rintro rfl
      rw [hrun] at hb
      cases hb
    rw [he, hstu u hut]
    exact ⟨hb, hnot⟩
  · rw [hkd]
    exact h.creator
  · intro u hu
    rw [hkf] at hu
    obtain ⟨hdu, hlu, hcu⟩ := h.idle u hu
    refine ⟨?_, by rw [he]; exact hlu, by rw [hkd]; exact hcu⟩
    by_cases hut : u = t
    · subst hut
      intro hc
      rw [(hdying (hstt.symm.trans hc)).2] at hu
      cases hu
    · rw [hstu u hut]
      exact hdu
  · rw [hkf]
    exact h.oneIdle
  · rw [hkt, hkf, he]
    exact h.idleThread
  · intro hno
    rw [hkt] at hno
    obtain ⟨u, hiu, hu⟩ := h.started hno
    refine ⟨u, by rw [hkf]; exact hiu, ?_⟩
    rcases hu with hu | hu
    · rw [he]
      exact Or.inl hu
    · cases hu
      exact absurd hno (hstarted hiu)
  · rw [hka, hki, hkr]
    exact h.initial
  · intro u hu
    rw [hki] at hu
    rw [hx u hu, he, hkr]
    exact h.exits u hu

/-! ## A thread leaves a list -/

/-- `t`, asleep in the list `p`, leaves it and keeps its status. -/
theorem Sched.unlink {k j : Kernel} {r : Option Tid} {t : Tid} {p : Place} (h : Sched k r)
    (hb : p.status = .blocked) (hs : j.status = k.status)
    (hp : (k.elems p).Perm (t :: j.elems p)) (hq : ∀ q, q ≠ p → j.elems q = k.elems q)
    (hk : j.idleThread = k.idleThread ∧ j.initialThread = k.initialThread ∧
      j.allocated = k.allocated ∧ j.doing = k.doing ∧ j.isIdle = k.isIdle ∧
      j.exits = k.exits ∧ j.frees = k.frees) :
    Sched j r ∧ j.Loose t ∧ j.status t = .blocked ∧ (∀ c, j.doing c ≠ .creating t) ∧
      j.isIdle t = false := by
  obtain ⟨hkt, hki, hka, hkd, hkf, hkx, hkr⟩ := hk
  have ht : t ∈ k.elems p := hp.mem_iff.mpr List.mem_cons_self
  have hnd : t ∉ j.elems p ∧ (j.elems p).Nodup :=
    List.nodup_cons.mp (hp.nodup_iff.mp (h.nodup p))
  have hsub : ∀ q u, u ∈ j.elems q → u ∈ k.elems q := by
    intro q u hu
    by_cases hqp : q = p
    · subst hqp
      exact hp.mem_iff.mpr (List.mem_cons_of_mem t hu)
    · rwa [hq q hqp] at hu
  have hsame : ∀ q, q.status ≠ .blocked → j.elems q = k.elems q := by
    intro q hqb
    refine hq q ?_
    rintro rfl
    exact hqb hb
  have hready : j.elems .ready = k.elems .ready := hsame _ (fun hc => nomatch hc)
  have hdestr : j.elems .destruction = k.elems .destruction := hsame _ (fun hc => nomatch hc)
  have hpr : p ≠ .ready := by
    rintro rfl
    cases hb
  refine ⟨⟨?_, ?_, ?_, ?_, ?_, ?_, ?_, ?_, ?_, ?_, ?_, ?_, ?_, ?_, ?_, ?_⟩, ?_, ?_, ?_, ?_⟩
  · rw [hs]
    exact h.running
  · intro q
    by_cases hqp : q = p
    · subst hqp
      exact hnd.2
    · rw [hq q hqp]
      exact h.nodup q
  · intro q q' u hu hu'
    exact h.disjoint q q' u (hsub q u hu) (hsub q' u hu')
  · intro q u hu
    rw [hs]
    exact h.status q u (hsub q u hu)
  · rw [hs, hkt, hready]
    exact h.ready
  · rw [hdestr, hka, hki]
    exact h.used
  · rw [hdestr, hs, hka, hki]
    exact h.dying
  · rw [hs, hka]
    exact h.alive
  · intro c u hcu
    rw [hkd] at hcu
    obtain ⟨hbu, hnot⟩ := h.creating c u hcu
    exact ⟨by rw [hs]; exact hbu, fun q hu => hnot q (hsub q u hu)⟩
  · rw [hkd]
    exact h.creator
  · intro u hu
    rw [hkf] at hu
    obtain ⟨hdu, hlu, hcu⟩ := h.idle u hu
    rw [hs, hkd]
    exact ⟨hdu, fun q hqr hmq => hlu q hqr (hsub q u hmq), hcu⟩
  · rw [hkf]
    exact h.oneIdle
  · rw [hkt, hkf, hready]
    exact h.idleThread
  · rw [hkt, hkf, hready]
    exact h.started
  · rw [hka, hki, hkr]
    exact h.initial
  · rw [hki, hkx, hkr, hdestr]
    exact h.exits
  · intro q hmq
    by_cases hqp : q = p
    · subst hqp
      exact hnd.1 hmq
    · exact hqp (h.disjoint q p t (hsub q t hmq) ht)
  · rw [hs, h.status p t ht, hb]
  · intro c hc
    rw [hkd] at hc
    exact (h.creating c t hc).2 p ht
  · cases hi : j.isIdle t with
    | false => rfl
    | true =>
      rw [hkf] at hi
      exact absurd ht ((h.idle t hi).2.1 p hpr)

/-- The next thread leaves the ready list, or is `idle`, and runs. -/
theorem Sched.run {k k' : Kernel} {t : Tid} (h : Sched k none)
    (hs : k'.status = update k.status t .running)
    (hpick : k.elems .ready = t :: k'.elems .ready ∨
      k.elems .ready = [] ∧ k'.elems .ready = [] ∧ k.idleThread = some t)
    (hq : ∀ q, q ≠ .ready → k'.elems q = k.elems q)
    (hk : k'.idleThread = k.idleThread ∧ k'.initialThread = k.initialThread ∧
      k'.allocated = k.allocated ∧ k'.doing = k.doing ∧ k'.isIdle = k.isIdle ∧
      k'.exits = k.exits ∧ k'.frees = k.frees) :
    Sched k' (some t) := by
  obtain ⟨hkt, hki, hka, hkd, hkf, hkx, hkr⟩ := hk
  have hsub : ∀ q u, u ∈ k'.elems q → u ∈ k.elems q := by
    intro q u hu
    by_cases hqr : q = .ready
    · subst hqr
      rcases hpick with hp | ⟨-, hp, -⟩
      · rw [hp]
        exact List.mem_cons_of_mem t hu
      · rw [hp] at hu
        cases hu
    · rwa [hq q hqr] at hu
  have hsup : ∀ u, u ≠ t → u ∈ k.elems .ready → u ∈ k'.elems .ready := by
    intro u hut hu
    rcases hpick with hp | ⟨hp, -, -⟩
    · rw [hp] at hu
      exact (List.mem_cons.mp hu).resolve_left hut
    · rw [hp] at hu
      cases hu
  -- `t` was ready, or it is `idle`
  have halive : k.status t ≠ .dying := by
    rcases hpick with hp | ⟨-, -, hp⟩
    · rw [h.status .ready t (by rw [hp]; exact List.mem_cons_self)]
      exact fun hc => nomatch hc
    · exact (h.idle t (h.idleThread t hp).1).1
  have hgone : ∀ q, t ∉ k'.elems q := by
    intro q hmq
    rcases hpick with hp | ⟨-, hp, hi⟩
    · have hmt : t ∈ k.elems .ready := by
        rw [hp]
        exact List.mem_cons_self
      have hqr : q = .ready := h.disjoint q .ready t (hsub q t hmq) hmt
      subst hqr
      have hnd := h.nodup .ready
      rw [hp] at hnd
      exact (List.nodup_cons.mp hnd).1 hmq
    · by_cases hqr : q = .ready
      · subst hqr
        rw [hp] at hmq
        cases hmq
      · exact (h.idle t (h.idleThread t hi).1).2.1 q hqr (hsub q t hmq)
  have hcre : ∀ c, k.doing c ≠ .creating t := by
    intro c hc
    rcases hpick with hp | ⟨-, -, hi⟩
    · exact (h.creating c t hc).2 .ready (by rw [hp]; exact List.mem_cons_self)
    · exact (h.idle t (h.idleThread t hi).1).2.2 c hc
  have hstu : ∀ u, u ≠ t → k'.status u = k.status u := by
    intro u hu
    rw [hs, update_of_ne hu]
  have hstt : k'.status t = .running := by rw [hs, update_self]
  have hdestr : k'.elems .destruction = k.elems .destruction := hq _ (fun hc => nomatch hc)
  refine ⟨?_, ?_, ?_, ?_, ?_, ?_, ?_, ?_, ?_, ?_, ?_, ?_, ?_, ?_, ?_, ?_⟩
  · intro u
    by_cases hut : u = t
    · subst hut
      simp [hstt]
    · rw [hstu u hut, h.running u]
      refine ⟨fun hc => (nomatch hc), fun hc => ?_⟩
      exact absurd (Option.some.inj hc).symm hut
  · intro q
    by_cases hqr : q = .ready
    · subst hqr
      rcases hpick with hp | ⟨-, hp, -⟩
      · have hnd := h.nodup .ready
        rw [hp] at hnd
        exact (List.nodup_cons.mp hnd).2
      · rw [hp]
        exact List.nodup_nil
    · rw [hq q hqr]
      exact h.nodup q
  · intro q q' u hu hu'
    exact h.disjoint q q' u (hsub q u hu) (hsub q' u hu')
  · intro q u hu
    have hut : u ≠ t := by
      rintro rfl
      exact hgone q hu
    rw [hstu u hut]
    exact h.status q u (hsub q u hu)
  · intro u hu hidle
    rw [hkt] at hidle
    have hut : u ≠ t := by
      rintro rfl
      rw [hstt] at hu
      cases hu
    rw [hstu u hut] at hu
    exact hsup u hut (h.ready u hu hidle)
  · rw [hdestr, hka, hki]
    exact h.used
  · intro u hu hau hiu
    have hut : u ≠ t := by
      rintro rfl
      rw [hstt] at hu
      cases hu
    rw [hstu u hut] at hu
    rw [hka] at hau
    rw [hki] at hiu
    rw [hdestr]
    exact h.dying u hu hau hiu
  · intro u hu
    rw [hka]
    by_cases hut : u = t
    · subst hut
      exact h.alive u halive
    · rw [hstu u hut] at hu
      exact h.alive u hu
  · intro c u hcu
    rw [hkd] at hcu
    obtain ⟨hb, hnot⟩ := h.creating c u hcu
    have hut : u ≠ t := by
      rintro rfl
      exact hcre c hcu
    exact ⟨by rw [hstu u hut]; exact hb, fun q hu => hnot q (hsub q u hu)⟩
  · rw [hkd]
    exact h.creator
  · intro u hu
    rw [hkf] at hu
    obtain ⟨hdu, hlu, hcu⟩ := h.idle u hu
    refine ⟨?_, fun q hqr hmq => hlu q hqr (hsub q u hmq), by rw [hkd]; exact hcu⟩
    by_cases hut : u = t
    · subst hut
      rw [hstt]
      exact fun hc => nomatch hc
    · rw [hstu u hut]
      exact hdu
  · rw [hkf]
    exact h.oneIdle
  · intro u hu
    rw [hkt] at hu
    rw [hkf]
    exact ⟨(h.idleThread u hu).1, fun hm => (h.idleThread u hu).2 (hsub _ u hm)⟩
  · intro hno
    rw [hkt] at hno
    rw [hkf]
    obtain ⟨u, hiu, hu⟩ := h.started hno
    refine ⟨u, hiu, ?_⟩
    by_cases hut : u = t
    · exact Or.inr (congrArg some hut.symm)
    · exact Or.inl (hsup u hut (hu.resolve_right (fun hc => nomatch hc)))
  · rw [hka, hki, hkr]
    exact h.initial
  · rw [hki, hkx, hkr, hdestr]
    exact h.exits

/-! ## Pages are freed -/

/-- The front of `destruction_req` is freed. -/
theorem Sched.free {k : Kernel} {r : Option Tid} {victim : Tid} {l : List Tid}
    {allocated : Tid → Bool} {frees : Tid → Nat}
    (h : Sched (k.setPages (victim :: l) allocated frees) r) :
    Sched (k.setPages l (update allocated victim false)
      (update frees victim (frees victim + 1))) r := by
  have hdestr : (k.setPages (victim :: l) allocated frees).elems .destruction = victim :: l := rfl
  have hmem : victim ∈ (k.setPages (victim :: l) allocated frees).elems .destruction :=
    List.mem_cons_self
  obtain ⟨-, hvi⟩ := h.used victim hmem
  have hvd : k.status victim = .dying := h.status .destruction victim hmem
  have hnd := h.nodup .destruction
  rw [hdestr, List.nodup_cons] at hnd
  have hother : ∀ q a f l', q ≠ .destruction → (k.setPages l a f).elems q =
      (k.setPages l' allocated frees).elems q := by
    intro q a f l' hq
    cases q <;> first | rfl | exact absurd rfl hq
  have hsub : ∀ q u a f, u ∈ (k.setPages l a f).elems q →
      u ∈ (k.setPages (victim :: l) allocated frees).elems q := by
    intro q u a f hu
    by_cases hq : q = .destruction
    · subst hq
      exact List.mem_cons_of_mem victim hu
    · rwa [hother q a f _ hq] at hu
  refine ⟨h.running, ?_, ?_, ?_, h.ready, ?_, ?_, ?_, ?_, h.creator, ?_, h.oneIdle, h.idleThread,
    h.started, ?_, ?_⟩
  · intro q
    by_cases hq : q = .destruction
    · subst hq
      exact hnd.2
    · rw [hother q _ _ _ hq]
      exact h.nodup q
  · intro q q' u hu hu'
    exact h.disjoint q q' u (hsub q u _ _ hu) (hsub q' u _ _ hu')
  · intro q u hu
    exact h.status q u (hsub q u _ _ hu)
  · intro u hu
    have hne : u ≠ victim := by
      rintro rfl
      exact hnd.1 hu
    have hused := h.used u (hsub .destruction u _ _ hu)
    refine ⟨?_, hused.2⟩
    show update allocated victim false u = true
    rw [update_of_ne hne]
    exact hused.1
  · intro u hu hau hiu
    change update allocated victim false u = true at hau
    have hne : u ≠ victim := by
      rintro rfl
      rw [update_self] at hau
      cases hau
    rw [update_of_ne hne] at hau
    exact (List.mem_cons.mp (h.dying u hu hau hiu)).resolve_left hne
  · intro u hu
    have hne : u ≠ victim := by
      rintro rfl
      exact hu hvd
    show update allocated victim false u = true
    rw [update_of_ne hne]
    exact h.alive u hu
  · intro c u hcu
    exact ⟨(h.creating c u hcu).1, fun q hq => (h.creating c u hcu).2 q (hsub q u _ _ hq)⟩
  · intro u hu
    obtain ⟨hdu, hlu, hcu⟩ := h.idle u hu
    exact ⟨hdu, fun q hqr hq => hlu q hqr (hsub q u _ _ hq), hcu⟩
  · have hne : k.initialThread ≠ victim := Ne.symm hvi
    show update allocated victim false k.initialThread = true ∧
      update frees victim (frees victim + 1) k.initialThread = 0
    rw [update_of_ne hne, update_of_ne hne]
    exact h.initial
  · intro u hu
    have hxu : k.exits u = frees u + (victim :: l).count u := h.exits u hu
    rw [List.count_cons] at hxu
    show k.exits u = update frees victim (frees victim + 1) u + l.count u
    by_cases hne : u = victim
    · subst hne
      rw [update_self]
      simp only [beq_self_eq_true, if_true] at hxu
      omega
    · rw [update_of_ne hne]
      have hbe : (victim == u) = false := by simpa using Ne.symm hne
      simpa [hbe] using hxu

/-- The loop of `do_schedule` frees all of `destruction_req`. -/
theorem Sched.freeVictims {k : Kernel} {r : Option Tid} {l : List Tid} :
    ∀ (allocated : Tid → Bool) (frees : Tid → Nat), Sched (k.setPages l allocated frees) r →
    ∃ allocated' frees', Kernel.freeVictims l allocated frees = .ok (allocated', frees') ∧
      Sched (k.setPages [] allocated' frees') r ∧ ∀ t, frees' t = frees t + l.count t := by
  induction l with
  | nil =>
    intro allocated frees h
    exact ⟨allocated, frees, rfl, h, fun t => rfl⟩
  | cons victim l ih =>
    intro allocated frees h
    have hused : allocated victim = true := (h.used victim List.mem_cons_self).1
    obtain ⟨allocated', frees', hok, hs, hf⟩ := ih _ _ h.free
    refine ⟨allocated', frees', ?_, hs, fun t => ?_⟩
    · rw [Kernel.freeVictims, if_pos hused, hok]
    · rw [hf t, List.count_cons]
      by_cases ht : t = victim
      · subst ht
        simp only [update_self, beq_self_eq_true, if_true]
        omega
      · have hbe : (victim == t) = false := by simpa using Ne.symm ht
        simp [ht, hbe]

/-! ## `schedule` -/

/-- `schedule` puts a dying thread into `destruction_req`. -/
def queueDying (k : Kernel) : Kernel :=
  if k.status k.current = .dying ∧ k.current ≠ k.initialThread then
    { k with destructionReq := k.destructionReq ++ [k.current] }
  else k

/-- What a step of the scheduler keeps: at most the pages in `destruction_req` are freed. -/
structure Kept (k k' : Kernel) : Prop where
  sched : Sched k' (some k'.current)
  frees : k'.frees = k.frees ∨ ∀ t, k'.frees t = k.frees t + (k.elems .destruction).count t
  initialThread : k'.initialThread = k.initialThread

/-- `schedule` always finds a thread. -/
theorem Sched.schedule {k : Kernel} (h : Sched k.queueDying none) :
    ∃ k', k.schedule = .ok k' ∧ Kept k k' ∧
      k'.destructionReq = k.queueDying.destructionReq := by
  have hstat : k.queueDying.status = k.status := by
    unfold queueDying
    split <;> rfl
  have hcurr : k.status k.current ≠ .running := by
    intro hc
    rw [← hstat] at hc
    exact nomatch (h.running k.current).mp hc
  have hready : k.queueDying.readyList = k.readyList ∧ k.queueDying.idleThread = k.idleThread := by
    unfold queueDying
    split <;> exact ⟨rfl, rfl⟩
  have hother : ∀ q, q ≠ .destruction → k.queueDying.elems q = k.elems q := by
    intro q hq
    unfold queueDying
    split
    · cases q <;> first | rfl | exact absurd rfl hq
    · rfl
  have hfields : k.queueDying.initialThread = k.initialThread ∧
      k.queueDying.allocated = k.allocated ∧ k.queueDying.doing = k.doing ∧
      k.queueDying.isIdle = k.isIdle ∧ k.queueDying.exits = k.exits ∧
      k.queueDying.frees = k.frees := by
    unfold queueDying
    split <;> exact ⟨rfl, rfl, rfl, rfl, rfl, rfl⟩
  obtain ⟨hki, hka, hkd, hkf, hkx, hkr⟩ := hfields
  -- the state after the switch to `next`
  have hswitch : ∀ next ready,
      (k.readyList = next :: ready ∨ k.readyList = [] ∧ ready = [] ∧ k.idleThread = some next) →
      Sched { k with
        readyList := ready, status := update k.status next .running, threadTicks := 0,
        destructionReq := k.queueDying.destructionReq, current := next } (some next) := by
    intro next ready hpick
    refine h.run ?_ ?_ ?_ ⟨hready.2.symm, hki.symm, hka.symm, hkd.symm, hkf.symm, hkx.symm,
      hkr.symm⟩
    · rw [hstat]
    · show k.queueDying.readyList = next :: ready ∨
        k.queueDying.readyList = [] ∧ ready = [] ∧ k.queueDying.idleThread = some next
      rw [hready.1, hready.2]
      exact hpick
    · intro q hq
      by_cases hqd : q = .destruction
      · subst hqd
        rfl
      · rw [hother q hqd]
        cases q with
        | ready => exact absurd rfl hq
        | destruction => exact absurd rfl hqd
        | sleep => rfl
        | waiters s => rfl
  obtain ⟨next, ready, hnext, hpick⟩ : ∃ next ready,
      k.nextThreadToRun = (some next, ready) ∧
      (k.readyList = next :: ready ∨
        k.readyList = [] ∧ ready = [] ∧ k.idleThread = some next) := by
    unfold nextThreadToRun
    cases hr : k.readyList with
    | cons next ready => exact ⟨next, ready, rfl, Or.inl rfl⟩
    | nil =>
      cases hi : k.idleThread with
      | some next => exact ⟨next, [], rfl, Or.inr ⟨rfl, rfl, rfl⟩⟩
      | none =>
        obtain ⟨t, -, ht⟩ := h.started (by rw [hready.2]; exact hi)
        have ht' : t ∈ k.queueDying.readyList := ht.resolve_right (fun hc => nomatch hc)
        rw [hready.1, hr] at ht'
        cases ht'
  have hs := hswitch next ready hpick
  by_cases hsame : k.current = next
  · -- the running thread goes on, so it is not dying
    have hnd : ¬ (k.status k.current = .dying ∧ k.current ≠ k.initialThread) := by
      rintro ⟨hd, hi⟩
      have hmem : k.current ∈ k.queueDying.elems .destruction := by
        show k.current ∈ k.queueDying.destructionReq
        unfold queueDying
        rw [if_pos ⟨hd, hi⟩]
        exact List.mem_append_right _ List.mem_cons_self
      rcases hpick with hp | ⟨-, -, hp⟩
      · have hmr : k.current ∈ k.queueDying.elems .ready := by
          show k.current ∈ k.queueDying.readyList
          rw [hready.1, hp, hsame]
          exact List.mem_cons_self
        exact nomatch h.disjoint .destruction .ready _ hmem hmr
      · obtain ⟨hidle, -⟩ := h.idleThread next (by rw [hready.2]; exact hp)
        refine (h.idle next hidle).1 ?_
        rw [hstat, ← hsame]
        exact hd
    have hq : k.queueDying = k := by rw [queueDying, if_neg hnd]
    refine ⟨{ k with
        readyList := ready, status := update k.status next .running, threadTicks := 0 },
      ?_, ⟨?_, Or.inl rfl, rfl⟩, ?_⟩
    · simp only [Kernel.schedule, hnext, if_neg hcurr, if_pos hsame]
    · show Sched _ (some k.current)
      rw [hsame]
      exact hs.agree ⟨rfl, by rw [hq], rfl, rfl, rfl, rfl, rfl, rfl, rfl⟩
    · rw [hq]
  · have hupd : update k.status next .running k.current = k.status k.current :=
      update_of_ne hsame _ _
    by_cases hd : k.status k.current = .dying ∧ k.current ≠ k.initialThread
    · have hq : k.queueDying.destructionReq = k.destructionReq ++ [k.current] := by
        rw [queueDying, if_pos hd]
      rw [hq] at hs ⊢
      refine ⟨_, ?_, ⟨hs, Or.inl rfl, rfl⟩, rfl⟩
      simp only [Kernel.schedule, hnext, if_neg hcurr, if_neg hsame, hupd, if_pos hd]
    · have hq : k.queueDying.destructionReq = k.destructionReq := by
        rw [queueDying, if_neg hd]
      rw [hq] at hs ⊢
      refine ⟨_, ?_, ⟨hs, Or.inl rfl, rfl⟩, rfl⟩
      simp only [Kernel.schedule, hnext, if_neg hcurr, if_neg hsame, hupd, if_neg hd]

/-! ## Blocking, yielding and exiting -/

theorem queueDying_setStatus {k : Kernel} {st : ThreadStatus} (hst : st ≠ .dying) :
    (k.setStatus k.current st).queueDying = k.setStatus k.current st := by
  rw [queueDying, if_neg]
  rintro ⟨hd, -⟩
  rw [setStatus_status, setStatus_current, update_self] at hd
  exact hst hd

theorem Sched.threadBlock {k : Kernel} (hrun : k.status k.current = .running)
    (h : Sched (k.setStatus k.current .blocked) none) :
    ∃ k', k.threadBlock = .ok k' ∧ Kept k k' := by
  have hq : (k.setStatus k.current .blocked).queueDying = k.setStatus k.current .blocked :=
    queueDying_setStatus (fun hc => nomatch hc)
  obtain ⟨k', hok, hkept, -⟩ := Sched.schedule (hq.symm ▸ h)
  exact ⟨k', by rw [Kernel.threadBlock, if_pos hrun, hok], hkept.sched, hkept.frees,
    hkept.initialThread⟩

theorem Sched.doSchedule_ready {k : Kernel} (hrun : k.status k.current = .running)
    (h : Sched (k.setStatus k.current .ready) none) :
    ∃ k', k.doSchedule .ready = .ok k' ∧ Kept k k' ∧ k'.destructionReq = [] := by
  obtain ⟨allocated, frees, hok, hs, hf⟩ := Sched.freeVictims (k := k.setStatus k.current .ready)
    (l := k.destructionReq) k.allocated k.frees h
  have hq : ((k.setPages [] allocated frees).setStatus k.current .ready).queueDying =
      (k.setPages [] allocated frees).setStatus k.current .ready :=
    queueDying_setStatus (k := k.setPages [] allocated frees) (fun hc => nomatch hc)
  obtain ⟨k', hsched, hkept, hdestr⟩ := Sched.schedule
    (k := (k.setPages [] allocated frees).setStatus k.current .ready) (hq.symm ▸ hs)
  refine ⟨k', ?_, ⟨hkept.sched, Or.inr fun t => ?_, hkept.initialThread⟩, ?_⟩
  · rw [Kernel.doSchedule, if_pos hrun, hok]
    exact hsched
  · have hfk : k'.frees t = frees t := by
      rcases hkept.frees with he | he
      · exact congrFun he t
      · exact he t
    rw [hfk, hf t]
    rfl
  · rw [hdestr, hq]
    rfl

theorem Sched.not_creating {k : Kernel} {t : Tid} (h : Sched k (some t)) (c : Tid) :
    k.doing c ≠ .creating t := by
  intro hc
  have hb := (h.creating c t hc).1
  rw [(h.running t).mpr rfl] at hb
  cases hb

theorem Sched.alive_of_running {k : Kernel} {t : Tid} (h : Sched k (some t)) :
    k.status t ≠ .dying := by
  rw [(h.running t).mpr rfl]
  exact fun hc => nomatch hc

theorem Sched.threadYield {k : Kernel} (h : Sched k (some k.current)) :
    ∃ k', k.threadYield = .ok k' ∧ Kept k k' ∧ k'.destructionReq = [] := by
  have hrun : k.status k.current = .running := (h.running k.current).mpr rfl
  unfold Kernel.threadYield
  split
  · next hidle =>
    have hs : Sched ((k.insertReady k.current).setStatus k.current .ready) (if some k.current = some k.current then none else some k.current) := by
      refine h.link .ready h.loose_of_running h.alive_of_running rfl
        (listInsertOrdered_perm _ _ _) ?_ h.not_creating (fun _ => rfl) (fun _ => hidle)
        (fun hc => nomatch hc) (fun u => ?_) ⟨rfl, rfl, rfl, rfl, rfl, rfl⟩
      · intro q hq
        cases q <;> first | rfl | exact absurd rfl hq
      · rw [if_neg (fun hc => nomatch hc.2)]
        rfl
    rw [if_pos rfl] at hs
    obtain ⟨k', hok, hkept, hd⟩ := Sched.doSchedule_ready (k := k.insertReady k.current) hrun hs
    exact ⟨k', hok, ⟨hkept.sched, hkept.frees, hkept.initialThread⟩, hd⟩
  · next hidle =>
    have hi : k.idleThread = some k.current := not_not.mp hidle
    refine Sched.doSchedule_ready hrun (h.settle rfl rfl (fun hc => nomatch hc) (fun _ => hi)
      (fun hc => nomatch hc) (fun _ hc => ?_) (fun _ _ => rfl) ⟨rfl, rfl, rfl, rfl, rfl, rfl⟩)
    rw [hi] at hc
    cases hc

theorem Sched.threadExit {k : Kernel} (h : Sched k (some k.current))
    (hidle : k.isIdle k.current = false) : ∃ k', k.threadExit = .ok k' ∧ Kept k k' := by
  have hrun : k.status k.current = .running := (h.running k.current).mpr rfl
  obtain ⟨allocated, frees, hok, hs, hf⟩ := Sched.freeVictims
    (l := k.destructionReq) k.allocated k.frees h
  let exited : Kernel := { k with exits := update k.exits k.current (k.exits k.current + 1) }
  have hdead : Sched
      ((exited.setPages [] allocated frees).setStatus k.current .dying).queueDying none := by
    by_cases hi : k.current = k.initialThread
    · have hq : ((exited.setPages [] allocated frees).setStatus k.current .dying).queueDying =
          (exited.setPages [] allocated frees).setStatus k.current .dying := by
        rw [queueDying, if_neg]
        exact fun hc => hc.2 hi
      rw [hq]
      refine hs.settle rfl rfl (fun hc => nomatch hc) (fun hc => nomatch hc)
        (fun _ => ⟨hi, hidle⟩) (fun hc => nomatch hidle.symm.trans hc) ?_
        ⟨rfl, rfl, rfl, rfl, rfl, rfl⟩
      intro u hu
      exact update_of_ne (fun hc => hu (hc.trans hi)) _ _
    · have hq : ((exited.setPages [] allocated frees).setStatus k.current .dying).queueDying =
          (exited.setPages [k.current] allocated frees).setStatus k.current .dying := by
        rw [queueDying, if_pos ⟨update_self _ _ _, hi⟩]
        rfl
      rw [hq]
      have hlink := hs.link (j := (exited.setPages [k.current] allocated frees).setStatus k.current
        .dying) .destruction hs.loose_of_running hs.alive_of_running rfl (List.Perm.refl _) ?_
        hs.not_creating (fun hc => nomatch hidle.symm.trans hc) (fun hc => nomatch hc)
        (fun _ => hi) ?_ ⟨rfl, rfl, rfl, rfl, rfl, rfl⟩
      · rw [if_pos rfl] at hlink
        exact hlink
      · intro q hq
        cases q <;> first | rfl | exact absurd rfl hq
      · intro u
        show update k.exits k.current (k.exits k.current + 1) u = k.exits u + _
        by_cases hu : u = k.current
        · subst hu
          rw [update_self, if_pos ⟨rfl, rfl⟩]
        · rw [update_of_ne hu, if_neg (fun hc => hu hc.1)]
          rfl
  obtain ⟨k', hsched, hkept, -⟩ := Sched.schedule hdead
  refine ⟨k', ?_, hkept.sched, Or.inr fun t => ?_, hkept.initialThread⟩
  · rw [Kernel.threadExit, Kernel.doSchedule, if_pos hrun, hok]
    exact hsched
  · have hfk : k'.frees t = frees t := by
      rcases hkept.frees with he | he
      · exact congrFun he t
      · exact he t
    rw [hfk, hf t]
    rfl

/-! ## Waking -/

/-- A thread that is blocked, in no list and not in the hands of `thread_create` becomes ready. -/
theorem Sched.threadUnblock {k : Kernel} {t : Tid} (h : Sched k (some k.current))
    (hloose : k.Loose t) (hb : k.status t = .blocked) (hc : ∀ c, k.doing c ≠ .creating t)
    (hi : k.isIdle t = false) :
    ∃ k', k.threadUnblock t = .ok k' ∧ Sched k' (some k'.current) ∧ k'.current = k.current ∧
      k'.frees = k.frees ∧ k'.initialThread = k.initialThread ∧
      k'.destructionReq = k.destructionReq ∧ k'.sleepList = k.sleepList ∧ k'.awake = k.awake ∧
      k'.sema = k.sema ∧ k'.doing = k.doing := by
  refine ⟨(k.insertReady t).setStatus t .ready, by rw [Kernel.threadUnblock, if_pos hb], ?_, rfl, rfl, rfl, rfl, rfl, rfl, rfl, rfl⟩
  have hne : k.current ≠ t := by
    rintro rfl
    rw [(h.running k.current).mpr rfl] at hb
    cases hb
  have hlink := h.link (j := (k.insertReady t).setStatus t .ready) .ready hloose (by rw [hb]; exact fun hc => nomatch hc)
    rfl (listInsertOrdered_perm _ _ _) ?_ hc (fun _ => rfl) ?_ (fun hc => nomatch hc)
    (fun u => ?_) ⟨rfl, rfl, rfl, rfl, rfl, rfl⟩
  · rw [if_neg (fun hc => hne (Option.some.inj hc))] at hlink
    exact hlink
  · intro q hq
    cases q <;> first | rfl | exact absurd rfl hq
  · intro _ hid
    rw [(h.idleThread t hid).1] at hi
    cases hi
  · rw [if_neg (fun hc => nomatch hc.2)]
    rfl

/-- The loop of `thread_awake`. -/
theorem Sched.threadAwakeFrom {ticks : Int} : ∀ {l : List Tid} {k : Kernel},
    Sched k (some k.current) → l.Nodup → (∀ t ∈ l, t ∈ k.sleepList) →
    ∃ k', k.threadAwakeFrom ticks l = .ok k' ∧ Sched k' (some k'.current) ∧
      k'.current = k.current ∧ k'.frees = k.frees ∧ k'.initialThread = k.initialThread ∧
      k'.destructionReq = k.destructionReq
  | [], k, h, _, _ => ⟨k, rfl, h, rfl, rfl, rfl, rfl⟩
  | t :: l, k, h, hnd, hsub => by
    obtain ⟨htl, hnl⟩ := List.nodup_cons.mp hnd
    rw [Kernel.threadAwakeFrom]
    split
    · have ht : t ∈ k.sleepList := hsub t List.mem_cons_self
      obtain ⟨hs, hloose, hb, hc, hi⟩ := h.unlink (j := { k with
          sleepList := k.sleepList.erase t }) (p := .sleep) (t := t) rfl rfl
        (List.perm_cons_erase ht) (fun q hq => by
          cases q <;> first | rfl | exact absurd rfl hq) ⟨rfl, rfl, rfl, rfl, rfl, rfl, rfl⟩
      obtain ⟨k₁, hok, hs₁, hcur, hf, hin, hd, hsl, -⟩ := Sched.threadUnblock hs hloose hb hc hi
      rw [hok]
      have hsub' : ∀ u ∈ l, u ∈ k₁.sleepList := by
        intro u hu
        rw [hsl]
        have hut : u ≠ t := by
          rintro rfl
          exact htl hu
        exact (List.mem_erase_of_ne hut).mpr (hsub u (List.mem_cons_of_mem t hu))
      obtain ⟨k', hok', hs', hcur', hf', hin', hd'⟩ := Sched.threadAwakeFrom hs₁ hnl hsub'
      exact ⟨k', hok', hs', hcur'.trans hcur, hf'.trans hf, hin'.trans hin, hd'.trans hd⟩
    · exact Sched.threadAwakeFrom h hnl (fun u hu => hsub u (List.mem_cons_of_mem t hu))

theorem Sched.threadAwake {k : Kernel} (ticks : Int) (h : Sched k (some k.current)) :
    ∃ k', k.threadAwake ticks = .ok k' ∧ Sched k' (some k'.current) ∧
      k'.current = k.current ∧ k'.frees = k.frees ∧ k'.initialThread = k.initialThread ∧
      k'.destructionReq = k.destructionReq :=
  Sched.threadAwakeFrom h (h.nodup .sleep) (fun _ ht => ht)

theorem Sched.threadComparePriority {k : Kernel} (h : Sched k (some k.current)) :
    ∃ k', k.threadComparePriority = .ok k' ∧ Kept k k' := by
  unfold Kernel.threadComparePriority
  split
  · exact ⟨k, rfl, h, Or.inl rfl, rfl⟩
  · split
    · obtain ⟨k', hok, hkept, -⟩ := h.threadYield
      exact ⟨k', hok, hkept⟩
    · exact ⟨k, rfl, h, Or.inl rfl, rfl⟩

/-! ## `sema_down`, `sema_up` and `thread_sleep` -/

/-- Only the state of `synch.c` changes, and no list of waiters. -/
theorem Sched.lift {k : Kernel} {r : Option Tid} {m : Interleave.Sys} (h : Sched k r)
    (hs : m.status = k.status) (hw : ∀ s, (m.sema s).waiters = (k.sema s).waiters) :
    Sched { k with toSys := m } r := by
  refine h.agree ⟨hs, ?_, rfl, rfl, rfl, rfl, rfl, rfl, rfl⟩
  funext p
  cases p with
  | waiters s => exact hw s
  | ready | sleep | destruction => rfl

theorem waiters_update {sema : SemaId → Semaphore} {s : SemaId} {v : Semaphore}
    (hv : v.waiters = (sema s).waiters) (s' : SemaId) :
    (update sema s v s').waiters = (sema s').waiters := by
  by_cases hs : s' = s
  · subst hs
    rw [update_self, hv]
  · rw [update_of_ne hs]

theorem Sched.semaDown {k : Kernel} (s : SemaId) (l : Option LockId)
    (h : Sched k (some k.current)) (hi : k.isIdle k.current = false) :
    ∃ k', k.semaDown s l = .ok k' ∧ Kept k k' := by
  have hrun : k.status k.current = .running := (h.running k.current).mpr rfl
  unfold Kernel.semaDown
  split
  · have hs := h.link (j := (k.joinWaiters s l).setStatus k.current .blocked) (.waiters s)
      h.loose_of_running h.alive_of_running rfl ?_ ?_ h.not_creating
      (fun hc => nomatch hi.symm.trans hc) (fun hc => nomatch hc) (fun hc => nomatch hc)
      (fun u => ?_) ⟨rfl, rfl, rfl, rfl, rfl, rfl⟩
    · rw [if_pos rfl] at hs
      obtain ⟨k', hok, hkept⟩ := Sched.threadBlock (k := k.joinWaiters s l) hrun hs
      exact ⟨k', hok, hkept.sched, hkept.frees, hkept.initialThread⟩
    · show (update k.sema s ((k.sema s).enqueue k.priority k.current) s).waiters.Perm _
      rw [update_self]
      exact listInsertOrdered_perm _ _ _
    · intro q hq
      cases q with
      | waiters s' =>
        have hss : s' ≠ s := by
          rintro rfl
          exact hq rfl
        show (update k.sema s ((k.sema s).enqueue k.priority k.current) s').waiters = _
        rw [update_of_ne hss]
        rfl
      | ready | sleep | destruction => rfl
    · rw [if_neg (fun hc => nomatch hc.2)]
      rfl
  · next h0 =>
    refine ⟨{ k with toSys := k.toSys.semaDown k.current s l }, rfl, ?_, Or.inl rfl, rfl⟩
    have hm : k.toSys.semaDown k.current s l =
        (k.toSys.take s).setPc k.current (k.toSys.afterDown l) := by
      rw [Interleave.Sys.semaDown, if_neg h0]
    rw [hm]
    exact h.lift rfl (waiters_update rfl)

theorem Sched.semaUp {k : Kernel} (s : SemaId) (intrContext : Bool)
    (h : Sched k (some k.current)) : ∃ k', k.semaUp s intrContext = .ok k' ∧ Kept k k' := by
  -- the rest of `sema_up` once the waiter, if any, is ready
  have hrest : ∀ k₁ : Kernel, Sched k₁ (some k₁.current) → k₁.frees = k.frees →
      k₁.initialThread = k.initialThread → k₁.destructionReq = k.destructionReq →
      ∃ k', (if intrContext then .ok (k₁.raise s) else (k₁.raise s).threadComparePriority) =
        Except.ok k' ∧ Kept k k' := by
    intro k₁ hs₁ hf hin hd
    have hs₂ : Sched (k₁.raise s) (some k₁.current) := hs₁.lift rfl (waiters_update rfl)
    split
    · exact ⟨k₁.raise s, rfl, hs₂, Or.inl hf, hin⟩
    · obtain ⟨k', hok, hkept⟩ := Sched.threadComparePriority hs₂
      refine ⟨k', hok, hkept.sched, ?_, hkept.initialThread.trans hin⟩
      rcases hkept.frees with he | he
      · exact Or.inl (he.trans hf)
      · refine Or.inr fun t => ?_
        rw [he t]
        show k₁.frees t + k₁.destructionReq.count t = k.frees t + k.destructionReq.count t
        rw [hf, hd]
  unfold Kernel.semaUp
  cases hp : (k.sema s).popWaiter k.priority with
  | none => exact hrest k h rfl rfl rfl
  | some w =>
    obtain ⟨w, rest⟩ := w
    obtain ⟨hs, hloose, hb, hc, hi⟩ := h.unlink (j := { k with
        sema := update k.sema s { k.sema s with waiters := rest } }) (p := .waiters s) (t := w)
      rfl rfl (by
        show (k.sema s).waiters.Perm (w :: (update k.sema s { k.sema s with waiters := rest } s).waiters)
        rw [update_self]
        exact Semaphore.popWaiter_perm hp) (fun q hq => by
        cases q with
        | waiters s' =>
          have hss : s' ≠ s := by
            rintro rfl
            exact hq rfl
          show (update k.sema s { k.sema s with waiters := rest } s').waiters = _
          rw [update_of_ne hss]
          rfl
        | ready | sleep | destruction => rfl) ⟨rfl, rfl, rfl, rfl, rfl, rfl, rfl⟩
    obtain ⟨k₁, hok, hs₁, -, hf, hin, hd, -⟩ := Sched.threadUnblock hs hloose hb hc hi
    simp only [hok]
    exact hrest k₁ hs₁ hf hin hd

theorem Sched.threadSleep {k : Kernel} (ticks : Int) (h : Sched k (some k.current))
    (hi : k.isIdle k.current = false) : ∃ k', k.threadSleep ticks = .ok k' ∧ Kept k k' := by
  have hrun : k.status k.current = .running := (h.running k.current).mpr rfl
  unfold Kernel.threadSleep
  split
  · have hs := h.link (j := (k.joinSleep ticks).setStatus k.current .blocked) .sleep
      h.loose_of_running h.alive_of_running rfl (List.perm_append_singleton _ _) ?_ h.not_creating
      (fun hc => nomatch hi.symm.trans hc) (fun hc => nomatch hc) (fun hc => nomatch hc)
      (fun u => ?_) ⟨rfl, rfl, rfl, rfl, rfl, rfl⟩
    · rw [if_pos rfl] at hs
      obtain ⟨k', hok, hkept⟩ := Sched.threadBlock (k := k.joinSleep ticks) hrun hs
      exact ⟨k', hok, hkept.sched, hkept.frees, hkept.initialThread⟩
    · intro q hq
      cases q <;> first | rfl | exact absurd rfl hq
    · rw [if_neg (fun hc => nomatch hc.2)]
      rfl
  · exact ⟨k, rfl, h, Or.inl rfl, rfl⟩

/-! ## Steps inside `synch.c` -/

/-- The errors that are not failures of the scheduler. -/
def Halt.Expected : Halt → Prop
  | .disabled | .assertPriority => True
  | .fault f => f ≠ .assertBlocked
  | _ => False

/-- A step keeps the invariant, or it fails for another reason than the scheduler. -/
def Good (k : Kernel) : Except Halt Kernel → Prop
  | .ok k' => Kept k k'
  | .error e => Halt.Expected e

theorem Good.of_ok {k : Kernel} {r : Except Halt Kernel} (h : ∃ k', r = .ok k' ∧ Kept k k') :
    Good k r := by
  obtain ⟨k', rfl, hk⟩ := h
  exact hk

/-- A step of `synch.c` that changes no status and no list of waiters. -/
def SameLists (m : Interleave.Sys) : Except Interleave.Fault Interleave.Sys → Prop
  | .ok m' => m'.status = m.status ∧ ∀ s, (m'.sema s).waiters = (m.sema s).waiters
  | .error f => f ≠ .assertBlocked

theorem Sched.good_lift {k k₀ : Kernel} {r : Except Interleave.Fault Interleave.Sys}
    (h : Sched k₀ (some k₀.current)) (hf : k₀.frees = k.frees)
    (hi : k₀.initialThread = k.initialThread) (hr : SameLists k₀.toSys r) :
    Good k (k₀.lift r) := by
  cases r with
  | error f => exact hr
  | ok m => exact ⟨Sched.lift h hr.1 hr.2, Or.inl hf, hi⟩

theorem sameLists_semaTryDown (m : Interleave.Sys) (s : SemaId) :
    (m.semaTryDown s).1.status = m.status ∧
    ∀ s', ((m.semaTryDown s).1.sema s').waiters = (m.sema s').waiters := by
  unfold Interleave.Sys.semaTryDown
  split
  · exact ⟨rfl, waiters_update rfl⟩
  · exact ⟨rfl, fun _ => rfl⟩

theorem sameLists_stepThread {m : Interleave.Sys} {t : Tid} (h₁ : ∀ l, m.pc t ≠ .acqDown l)
    (h₂ : ∀ s c, m.pc t ≠ .downWait s c) (h₃ : ∀ l, m.pc t ≠ .relUp l) :
    SameLists m (Interleave.stepThread m t) := by
  cases hs : Interleave.stepThread m t with
  | ok m' =>
    obtain ⟨-, hstmt⟩ := Interleave.stepThread_cases hs
    cases hstmt with
    | acqDown hpc => exact absurd hpc (h₁ _)
    | downWait hpc => exact absurd hpc (h₂ _ _)
    | relUp hpc => exact absurd hpc (h₃ _)
    | _ => exact ⟨rfl, fun _ => rfl⟩
  | error f =>
    rintro rfl
    simp only [Interleave.stepThread] at hs
    split at hs
    · cases hs
    split at hs
    case h_18 l hpc => exact h₃ l hpc
    case h_4 => split at hs <;> cases hs
    case h_7 => split at hs <;> cases hs
    case h_8 => split at hs <;> cases hs
    case h_14 => split at hs <;> cases hs
    all_goals cases hs

theorem sameLists_lockAcquire (m : Interleave.Sys) (t : Tid) (l : LockId) :
    SameLists m (Interleave.step m (.lockAcquire t l)) := by
  simp only [Interleave.step]
  split
  · exact ⟨rfl, fun _ => rfl⟩
  · intro hc
    cases hc

theorem sameLists_lockTryAcquire (m : Interleave.Sys) (t : Tid) (l : LockId) :
    SameLists m (Interleave.step m (.lockTryAcquire t l)) := by
  simp only [Interleave.step]
  split
  · intro hc
    cases hc
  · split
    · intro hc
      cases hc
    · exact sameLists_semaTryDown m (.lock l)

theorem sameLists_lockRelease (m : Interleave.Sys) (t : Tid) (l : LockId) :
    SameLists m (Interleave.step m (.lockRelease t l)) := by
  simp only [Interleave.step]
  split
  · exact ⟨rfl, fun _ => rfl⟩
  · intro hc
    cases hc

theorem sameLists_tryDown (m : Interleave.Sys) (t : Tid) (n : Nat) :
    SameLists m (Interleave.step m (.semaTryDown t n)) := by
  simp only [Interleave.step]
  split
  · exact sameLists_semaTryDown m (.plain n)
  · intro hc
    cases hc

theorem sameLists_setPriority (m : Interleave.Sys) (t : Tid) (p : Int) :
    SameLists m (Interleave.step m (.setPriority t p)) := by
  simp only [Interleave.step]
  split
  · split <;> exact ⟨rfl, fun _ => rfl⟩
  · intro hc
    cases hc

theorem sameLists_tear (m : Interleave.Sys) (t : Tid) (don : Tid → List Tid) (p : Int) :
    SameLists m (Interleave.step m (.tear t don p)) := by
  simp only [Interleave.step]
  split
  · exact ⟨rfl, fun _ => rfl⟩
  · intro hc
    cases hc

/-! ## `thread_create` -/

/-- A page that is not in use becomes a blocked thread in the hands of the running one. -/
theorem Sched.setThread {k : Kernel} {t : Tid} {priority : Int} (h : Sched k (some k.current))
    (ht : k.allocated t = false) : Sched (k.setThread t priority) (some k.current) := by
  have hdying : k.status t = .dying := by
    by_contra hc
    rw [h.alive t hc] at ht
    cases ht
  have hloose : ∀ p u, u ∈ k.elems p → u ≠ t := by
    rintro p u hu rfl
    have hst := h.status p u hu
    rw [hdying] at hst
    cases p with
    | destruction =>
      rw [(h.used u hu).1] at ht
      cases ht
    | ready | sleep | waiters => cases hst
  have hcur : k.current ≠ t := by
    intro hc
    rw [← hc, (h.running k.current).mpr rfl] at hdying
    cases hdying
  have hstu : ∀ u, u ≠ t → (k.setThread t priority).status u = k.status u := by
    intro u hu
    exact update_of_ne hu _ _
  have hstt : (k.setThread t priority).status t = .blocked := update_self _ _ _
  have hallocated : ∀ u, u ≠ t → (k.setThread t priority).allocated u = k.allocated u := by
    intro u hu
    exact update_of_ne hu _ _
  have hdoing : ∀ c u, (k.setThread t priority).doing c = .creating u →
      (c = k.current ∧ u = t) ∨ (k.doing c = .creating u ∧ u ≠ t) := by
    intro c u hcu
    change update (update k.doing t .nothing) k.current (.creating t) c = _ at hcu
    by_cases hcc : c = k.current
    · rw [hcc, update_self] at hcu
      exact Or.inl ⟨hcc, (Doing.creating.inj hcu).symm⟩
    · rw [update_of_ne hcc] at hcu
      by_cases hct : c = t
      · rw [hct, update_self] at hcu
        cases hcu
      · rw [update_of_ne hct] at hcu
        refine Or.inr ⟨hcu, ?_⟩
        rintro rfl
        rw [(h.creating c u hcu).1] at hdying
        cases hdying
  refine ⟨?_, h.nodup, h.disjoint, ?_, ?_, ?_, ?_, ?_, ?_, ?_, ?_, h.oneIdle, h.idleThread,
    h.started, ?_, h.exits⟩
  · intro u
    by_cases hut : u = t
    · rw [hut, hstt]
      exact ⟨fun hc => (nomatch hc), fun hc => absurd (Option.some.inj hc) hcur⟩
    · rw [hstu u hut]
      exact h.running u
  · intro p u hu
    rw [hstu u (hloose p u hu)]
    exact h.status p u hu
  · intro u hu hidle
    have hut : u ≠ t := by
      rintro rfl
      rw [hstt] at hu
      cases hu
    rw [hstu u hut] at hu
    exact h.ready u hu hidle
  · intro u hu
    rw [hallocated u (hloose .destruction u hu)]
    exact h.used u hu
  · intro u hu hau hiu
    have hut : u ≠ t := by
      rintro rfl
      rw [hstt] at hu
      cases hu
    rw [hstu u hut] at hu
    rw [hallocated u hut] at hau
    exact h.dying u hu hau hiu
  · intro u hu
    by_cases hut : u = t
    · rw [hut]
      exact update_self _ _ _
    · rw [hallocated u hut]
      rw [hstu u hut] at hu
      exact h.alive u hu
  · intro c u hcu
    rcases hdoing c u hcu with ⟨-, rfl⟩ | ⟨hcu, hut⟩
    · exact ⟨hstt, fun p hp => hloose p u hp rfl⟩
    · rw [hstu u hut]
      exact h.creating c u hcu
  · intro c c' u hcu hcu'
    rcases hdoing c u hcu with ⟨hc, rfl⟩ | ⟨hcu, hut⟩ <;>
      rcases hdoing c' u hcu' with ⟨hc', hut'⟩ | ⟨hcu', hut'⟩
    · rw [hc, hc']
    · exact absurd rfl hut'
    · exact absurd hut' hut
    · exact h.creator c c' u hcu hcu'
  · intro u hu
    obtain ⟨hdu, hlu, hcu⟩ := h.idle u hu
    have hut : u ≠ t := by
      rintro rfl
      exact hdu hdying
    refine ⟨by rw [hstu u hut]; exact hdu, hlu, fun c hc => ?_⟩
    rcases hdoing c u hc with ⟨-, hc⟩ | ⟨hc, -⟩
    · exact hut hc
    · exact hcu c hc
  · have hne : k.initialThread ≠ t := by
      intro hc
      rw [← hc, h.initial.1] at ht
      cases ht
    refine ⟨?_, h.initial.2⟩
    exact (hallocated k.initialThread hne).trans h.initial.1

/-- A thread leaves `thread_create`, or goes on to the next call there. -/
theorem Sched.setDoing {k : Kernel} {r : Option Tid} (c : Tid) {d : Doing}
    (h : Sched k r) (hd : ∀ t, d ≠ .creating t) :
    Sched { k with doing := update k.doing c d } r := by
  have hdoing : ∀ c' t, update k.doing c d c' = .creating t → k.doing c' = .creating t := by
    intro c' t hc
    by_cases hcc : c' = c
    · rw [hcc, update_self] at hc
      exact absurd hc (hd t)
    · rwa [update_of_ne hcc] at hc
  refine ⟨h.running, h.nodup, h.disjoint, h.status, h.ready, h.used, h.dying, h.alive, ?_, ?_, ?_,
    h.oneIdle, h.idleThread, h.started, h.initial, h.exits⟩
  · intro c' t hc
    exact h.creating c' t (hdoing c' t hc)
  · intro c' c'' t hc hc'
    exact h.creator c' c'' t (hdoing c' t hc) (hdoing c'' t hc')
  · intro t ht
    obtain ⟨hdt, hlt, hct⟩ := h.idle t ht
    exact ⟨hdt, hlt, fun c' hc => hct c' (hdoing c' t hc)⟩

/-- `thread_unblock (t)` at the end of `thread_create`. -/
theorem Sched.threadUnblock_new {k : Kernel} {t : Tid} (h : Sched k (some k.current))
    (hd : k.doing k.current = .creating t) :
    ∃ k', Kernel.threadUnblock { k with doing := update k.doing k.current .comparing } t = .ok k' ∧
      Kept k k' := by
  obtain ⟨hb, hloose⟩ := h.creating k.current t hd
  have hs := h.setDoing k.current (d := .comparing) (fun t hc => nomatch hc)
  have hi : k.isIdle t = false := by
    cases hi : k.isIdle t with
    | false => rfl
    | true => exact absurd hd ((h.idle t hi).2.2 k.current)
  have hc : ∀ c, update k.doing k.current .comparing c ≠ .creating t := by
    intro c hc
    by_cases hcc : c = k.current
    · rw [hcc, update_self] at hc
      cases hc
    · rw [update_of_ne hcc] at hc
      exact hcc (h.creator c k.current t hc hd)
  obtain ⟨k', hok, hs', -, hf, hin, -⟩ := Sched.threadUnblock hs hloose hb hc hi
  exact ⟨k', hok, hs', Or.inl hf, hin⟩

/-! ## The idle thread -/

theorem Sched.idleStart {k : Kernel} (h : Sched k (some k.current))
    (hi : k.isIdle k.current = true) :
    Sched { k with idleThread := some k.current } (some k.current) := by
  have hrun : k.status k.current = .running := (h.running k.current).mpr rfl
  refine ⟨h.running, h.nodup, h.disjoint, h.status, ?_, h.used, h.dying, h.alive, h.creating,
    h.creator, h.idle, h.oneIdle, ?_, fun hc => (nomatch hc), h.initial, h.exits⟩
  · intro u hu _
    refine h.ready u hu ?_
    intro hc
    -- `u` would be `idle`, which runs
    have hui := h.oneIdle u k.current (h.idleThread u hc).1 hi
    rw [hui, hrun] at hu
    cases hu
  · intro u hu
    rw [← Option.some.inj hu]
    exact ⟨hi, h.loose_of_running .ready⟩

theorem Sched.idleBlock {k : Kernel} (h : Sched k (some k.current))
    (hi : k.idleThread = some k.current) : ∃ k', k.threadBlock = .ok k' ∧ Kept k k' := by
  refine Sched.threadBlock ((h.running k.current).mpr rfl) (h.settle rfl rfl (fun hc => nomatch hc)
    (fun hc => nomatch hc) (fun hc => nomatch hc) (fun _ hc => ?_) (fun _ _ => rfl)
    ⟨rfl, rfl, rfl, rfl, rfl, rfl⟩)
  rw [hi] at hc
  cases hc

/-! ## Every step -/

theorem canCall_iff {k : Kernel} : k.canCall = true ↔
    k.pc k.current = .user ∧ k.doing k.current ≠ .comparing ∧ k.isIdle k.current = false := by
  simp [canCall, and_assoc]

theorem Kept.of_agree {k k₀ k' : Kernel} (h : Kept k₀ k') (hf : k₀.frees = k.frees)
    (hd : k₀.destructionReq = k.destructionReq) (hi : k₀.initialThread = k.initialThread) :
    Kept k k' where
  sched := h.sched
  frees := by
    rcases h.frees with he | he
    · exact Or.inl (he.trans hf)
    · refine Or.inr fun t => ?_
      rw [he t]
      show k₀.frees t + k₀.destructionReq.count t = k.frees t + k.destructionReq.count t
      rw [hf, hd]
  initialThread := h.initialThread.trans hi

theorem Good.of_agree {k k₀ : Kernel} {r : Except Halt Kernel} (h : Good k₀ r)
    (hf : k₀.frees = k.frees) (hd : k₀.destructionReq = k.destructionReq)
    (hi : k₀.initialThread = k.initialThread) : Good k r := by
  cases r with
  | ok k' => exact Kept.of_agree h hf hd hi
  | error e => exact h

theorem Sched.stmt {k : Kernel} (h : Sched k (some k.current)) (hi : k.isIdle k.current = false) :
    Good k k.stmt := by
  unfold Kernel.stmt
  split
  · exact .of_ok (h.semaDown _ _ hi)
  · exact .of_ok (h.semaDown _ _ hi)
  · next l hpc =>
    have hs : Sched { k with pc := update k.pc k.current .user } (some k.current) :=
      h.lift (m := k.toSys.setPc k.current .user) rfl (fun _ => rfl)
    exact Good.of_agree (.of_ok (hs.semaUp (.lock l) false)) rfl rfl rfl
  · next hpc =>
    have hs := h.setDoing k.current (d := .comparing) (fun t hc => nomatch hc)
    exact hs.good_lift rfl rfl (sameLists_stepThread (m := k.toSys) (by simp [hpc])
      (by simp [hpc]) (by simp [hpc]))
  · next h₁ h₂ h₃ h₄ =>
    exact h.good_lift rfl rfl (sameLists_stepThread h₁ h₂ h₃)

theorem Sched.timerInterrupt {k : Kernel} (h : Sched k (some k.current))
    (recalculated : Tid → Int) : Good k (step k (.timerInterrupt recalculated)) := by
  simp only [step]
  have hs : Sched { k with
      ticks := k.ticks + 1
      threadTicks := k.threadTicks + 1
      priority := if k.mlfqs then recalculated else k.priority } (some k.current) :=
    h.agree ⟨rfl, rfl, rfl, rfl, rfl, rfl, rfl, rfl, rfl⟩
  obtain ⟨k₁, hok, hs₁, hcur, hf, hin, hd⟩ := hs.threadAwake (k.ticks + 1)
  simp only [hok]
  split
  · obtain ⟨k', hok', hkept, -⟩ := hs₁.threadYield
    show Good k k₁.threadYield
    rw [hok']
    exact Kept.of_agree hkept hf hd hin
  · exact ⟨hs₁, Or.inl hf, hin⟩

theorem Sched.good_step {k : Kernel} (h : Sched k (some k.current)) (a : KernelAction) :
    Good k (step k a) := by
  cases a with
  | stmt =>
    simp only [step]
    split
    · trivial
    · next hi => exact h.stmt (by simpa using hi)
  | lockAcquire l =>
    simp only [step]
    split
    · exact h.good_lift rfl rfl (sameLists_lockAcquire _ _ _)
    · trivial
  | lockTryAcquire l =>
    simp only [step]
    split
    · exact h.good_lift rfl rfl (sameLists_lockTryAcquire _ _ _)
    · trivial
  | lockRelease l =>
    simp only [step]
    split
    · exact h.good_lift rfl rfl (sameLists_lockRelease _ _ _)
    · trivial
  | semaDown n =>
    simp only [step]
    split
    · next hc => exact .of_ok (h.semaDown _ _ (canCall_iff.mp hc).2.2)
    · trivial
  | semaTryDown n =>
    simp only [step]
    split
    · exact h.good_lift rfl rfl (sameLists_tryDown _ _ _)
    · trivial
  | semaUp n =>
    simp only [step]
    split
    · exact .of_ok (h.semaUp _ _)
    · trivial
  | setPriority p =>
    simp only [step]
    split
    · exact h.good_lift rfl rfl (sameLists_setPriority _ _ _)
    · trivial
  | tear don p => exact h.good_lift rfl rfl (sameLists_tear _ _ _ _)
  | threadCreate t priority =>
    simp only [step, Kernel.initThread]
    split
    · next hc =>
      split
      · exact ⟨h.setThread hc.2.2, Or.inl rfl, rfl⟩
      · trivial
    · trivial
  | threadUnblock =>
    simp only [step]
    split
    · split
      · next t hd => exact .of_ok (h.threadUnblock_new hd)
      · trivial
    · trivial
  | threadCreateFail =>
    simp only [step]
    split
    · exact ⟨h.setDoing k.current (fun t hc => nomatch hc), Or.inl rfl, rfl⟩
    · trivial
  | comparePriority =>
    simp only [step]
    split
    · have hs := h.setDoing k.current (d := .nothing) (fun t hc => nomatch hc)
      exact Good.of_agree (.of_ok (Sched.threadComparePriority hs)) rfl rfl rfl
    · trivial
  | threadYield =>
    simp only [step]
    split
    · obtain ⟨k', hok, hkept, -⟩ := h.threadYield
      exact .of_ok ⟨k', hok, hkept⟩
    · trivial
  | threadSleep ticks =>
    simp only [step]
    split
    · next hc => exact .of_ok (h.threadSleep ticks (canCall_iff.mp hc).2.2)
    · trivial
  | threadExit =>
    simp only [step]
    split
    · next hc => exact .of_ok (h.threadExit (canCall_iff.mp hc.1).2.2)
    · trivial
  | idleStart =>
    simp only [step]
    split
    · next hi => exact ⟨h.idleStart hi, Or.inl rfl, rfl⟩
    · trivial
  | idleBlock =>
    simp only [step]
    split
    · next hi => exact .of_ok (h.idleBlock hi)
    · trivial
  | timerInterrupt recalculated => exact h.timerInterrupt recalculated
  | intrUp n => exact .of_ok (h.semaUp _ _)
  | intrTryDown n =>
    exact h.good_lift rfl rfl (r := .ok (k.toSys.semaTryDown (.plain n)).1)
      (sameLists_semaTryDown k.toSys (.plain n))

/-! ## Every run -/

theorem Sched.boot (mlfqs : Bool) (value : Nat → BitVec 32) {main idle : Tid} (hne : main ≠ idle) :
    Sched (Kernel.boot mlfqs value main idle) (some main) := by
  have hstatus : ∀ t, (Kernel.boot mlfqs value main idle).status t =
      if t = main then .running else if t = idle then .ready else .dying := fun t => rfl
  have helems : ∀ p, (Kernel.boot mlfqs value main idle).elems p =
      if p = .ready then [idle] else [] := by
    intro p
    cases p with
    | waiters s => cases s <;> rfl
    | ready | sleep | destruction => rfl
  have hmem : ∀ p t, t ∈ (Kernel.boot mlfqs value main idle).elems p → p = .ready ∧ t = idle := by
    intro p t ht
    rw [helems] at ht
    split at ht
    · next hp => exact ⟨hp, List.mem_singleton.mp ht⟩
    · cases ht
  have hidle : ∀ t, (Kernel.boot mlfqs value main idle).isIdle t = true ↔ t = idle := by
    intro t
    exact decide_eq_true_iff
  have hused : ∀ t, (Kernel.boot mlfqs value main idle).allocated t = true ↔
      t = main ∨ t = idle := by
    intro t
    exact decide_eq_true_iff
  refine ⟨?_, ?_, ?_, ?_, ?_, ?_, ?_, ?_, fun c t hc => (nomatch hc), fun c c' t hc => (nomatch hc),
    ?_, ?_, fun t ht => (nomatch ht), ?_, ?_, fun t _ => rfl⟩
  · intro t
    rw [hstatus]
    split
    · next h => simp [h]
    · next h =>
      have hne' : ¬ main = t := fun hc => h hc.symm
      split <;> simp [hne']
  · intro p
    rw [helems]
    split
    · exact List.nodup_singleton idle
    · exact List.nodup_nil
  · intro p q t hp hq
    rw [(hmem p t hp).1, (hmem q t hq).1]
  · intro p t ht
    obtain ⟨rfl, rfl⟩ := hmem p t ht
    rw [hstatus, if_neg (Ne.symm hne), if_pos rfl]
    rfl
  · intro t ht _
    rw [hstatus] at ht
    split at ht
    · cases ht
    · split at ht
      · next hi => rw [helems, if_pos rfl, hi]; exact List.mem_cons_self
      · cases ht
  · intro t ht
    exact nomatch (hmem .destruction t ht).1
  · intro t ht hu _
    rw [hstatus] at ht
    rcases (hused t).mp hu with rfl | rfl
    · rw [if_pos rfl] at ht
      cases ht
    · rw [if_neg (Ne.symm hne), if_pos rfl] at ht
      cases ht
  · intro t ht
    rw [hstatus] at ht
    refine (hused t).mpr ?_
    by_cases hm : t = main
    · exact Or.inl hm
    · rw [if_neg hm] at ht
      by_cases hi : t = idle
      · exact Or.inr hi
      · rw [if_neg hi] at ht
        exact absurd rfl ht
  · intro t ht
    rw [(hidle t).mp ht]
    refine ⟨?_, ?_, fun c hc => (nomatch hc)⟩
    · rw [hstatus, if_neg (Ne.symm hne), if_pos rfl]
      exact fun hc => nomatch hc
    · intro p hp hm
      exact hp (hmem p idle hm).1
  · intro t u ht hu
    rw [(hidle t).mp ht, (hidle u).mp hu]
  · intro _
    refine ⟨idle, (hidle idle).mpr rfl, Or.inl ?_⟩
    rw [helems, if_pos rfl]
    exact List.mem_cons_self
  · exact ⟨(hused main).mpr (Or.inl rfl), rfl⟩

variable {mlfqs : Bool} {value : Nat → BitVec 32} {main idle : Tid} {k : Kernel}

theorem Sched.reach (hne : main ≠ idle)
    (h : Reach step Always (Kernel.boot mlfqs value main idle) k) :
    Sched k (some k.current) ∧ k.initialThread = main := by
  refine h.invariant (I := fun k => Sched k (some k.current) ∧ k.initialThread = main)
    ⟨Sched.boot mlfqs value hne, rfl⟩ ?_
  rintro k a k' ⟨hs, hi⟩ - hstep
  have hgood := hs.good_step a
  rw [hstep] at hgood
  exact ⟨hgood.sched, hgood.initialThread.trans hi⟩

/-- Which pages a step frees: at most the ones in `destruction_req`, once each. -/
theorem Sched.frees_step {k k' : Kernel} {a : KernelAction} (h : Sched k (some k.current))
    (hstep : step k a = .ok k') {t : Tid} (ht : k'.frees t ≠ k.frees t) :
    k'.frees t = k.frees t + 1 ∧ t ∈ k.destructionReq := by
  have hgood := h.good_step a
  rw [hstep] at hgood
  rcases hgood.frees with he | he
  · exact absurd (congrFun he t) ht
  · have hcount : (k.elems .destruction).count t ≤ 1 :=
      List.nodup_iff_count_le_one.mp (h.nodup .destruction) t
    have hpos : (k.elems .destruction).count t ≠ 0 := by
      intro hc
      rw [he t, hc] at ht
      exact ht rfl
    exact ⟨by rw [he t]; omega, List.count_pos_iff.mp (Nat.pos_of_ne_zero hpos)⟩

end Pintos.Kernel
