import Pintos.Lib.WaitsFor
import Pintos.Properties.LockExclusion
import Pintos.Properties.Semaphore

/-!
# Where donation finds no holder

`lock_acquire` reads `lock->holder` twice with interrupts enabled, and `priority_donation`
follows `wait_on_lock` links of other threads, also of a thread that was woken and has not run
since, whose lock has no holder.

* `pending` — the locks whose holder a thread will read
* `ChainsKept` — the step breaks no chain: no `lock_release` clears the holder of a pending lock
  and no `lock_acquire` sets out on a chain with a free lock
* `no_null_holder` — under that condition the holder read is never `NULL`, and after the first
  step without it some thread can go on to read `NULL` (`Doomed`)
-/

namespace Pintos.Interleave

open Function Machine WaitsFor

/-- The locks whose `holder` a thread at this statement will read before it calls `sema_down`. -/
def pending (m : Sys) : Pc → List LockId
  | .acqWait l | .acqHolder l | .acqInsert l _ => chain m.holder m.waitOnLock 8 l
  | .donTest _ depth curr | .donRead _ depth curr => ahead m.holder m.waitOnLock (8 - depth) curr
  | .donWrite _ depth _ (some h) => ahead m.holder m.waitOnLock (8 - (depth + 1)) h
  | _ => []

/-- The step breaks no chain of locks that some thread follows. -/
def ChainsKept (m : Sys) : Action → Prop
  | .step t =>
    match m.pc t with
    | .acqTest l => m.holder l ≠ none → ∀ l' ∈ chain m.holder m.waitOnLock 8 l, m.holder l' ≠ none
    | .relHolder l => ∀ u, l ∉ pending m (m.pc u)
    | _ => True
  | _ => True

/-- The lock that `wait_on_lock` may point to at this statement. -/
def Pc.waitsOn : Pc → Option LockId
  | .acqHolder l | .acqInsert l _ | .donTest l _ _ | .donRead l _ _ | .donWrite l _ _ _
  | .acqDown l | .acqClear l => some l
  | .downWait _ c => c
  | _ => none

/-- What is known at a statement besides the chains. -/
def Pc.Local (wait : Option LockId) : Pc → Prop
  | .acqHolder l | .acqInsert l _ => wait = some l
  | .donRead _ depth _ => depth < 8
  | .donWrite _ _ _ h => h ≠ none
  | _ => True

/-- The invariant of `t` when its next statement is `p`. -/
structure PcOk (m : Sys) (t : Tid) (p : Pc) : Prop where
  held : ∀ l ∈ pending m p, m.holder l ≠ none
  link : ∀ l, m.waitOnLock t = some l → p.waitsOn = some l
  here : p.Local (m.waitOnLock t)

structure ChainInv (m : Sys) : Prop where
  priority : m.mlfqs = false
  pc : ∀ t, PcOk m t (m.pc t)

theorem pending_congr {m m' : Sys} (hh : m'.holder = m.holder) (hw : m'.waitOnLock = m.waitOnLock)
    (p : Pc) : pending m' p = pending m p := by
  unfold pending
  rw [hh, hw]

theorem PcOk.congr {m m' : Sys} {t : Tid} {p : Pc} (h : PcOk m t p) (hh : m'.holder = m.holder)
    (hw : m'.waitOnLock = m.waitOnLock) : PcOk m' t p where
  held := by
    rw [pending_congr hh hw, hh]
    exact h.held
  link := by
    rw [hw]
    exact h.link
  here := by
    rw [hw]
    exact h.here

/-- A thread that follows no chain. -/
theorem PcOk.idle {m : Sys} {t : Tid} {p : Pc} (hpend : pending m p = [])
    (hlink : ∀ l, m.waitOnLock t = some l → p.waitsOn = some l) (hhere : p.Local (m.waitOnLock t)) :
    PcOk m t p where
  held l hl := by
    rw [hpend] at hl
    cases hl
  link := hlink
  here := hhere

/-- A step of `t` that changes no holder and no `wait_on_lock`. -/
theorem ChainInv.move {m m' : Sys} {t : Tid} {p : Pc} (h : ChainInv m)
    (hm : m'.mlfqs = m.mlfqs) (hh : m'.holder = m.holder) (hw : m'.waitOnLock = m.waitOnLock)
    (hp : m'.pc = update m.pc t p) (hok : PcOk m t p) : ChainInv m' where
  priority := hm.trans h.priority
  pc u := by
    rw [hp]
    by_cases hut : u = t
    · subst hut
      rw [update_self]
      exact hok.congr hh hw
    · rw [update_of_ne hut]
      exact (h.pc u).congr hh hw

/-! ## Steps that change a link -/

/-- `holder` changes at a lock that nobody has pending. -/
theorem PcOk.update_holder {m m' : Sys} {u : Tid} {p : Pc} {l : LockId} {o : Option Tid}
    (h : PcOk m u p) (hl : l ∉ pending m p) (hh : m'.holder = update m.holder l o)
    (hw : m'.waitOnLock = m.waitOnLock) : PcOk m' u p := by
  have hahead : ∀ n t, l ∉ ahead m.holder m.waitOnLock n t →
      ahead m'.holder m'.waitOnLock n t = ahead m.holder m.waitOnLock n t := by
    intro n t hn
    rw [hw, hh]
    unfold ahead at hn ⊢
    split
    · rfl
    · next hwt =>
      rw [hwt] at hn
      exact chain_update_owner hn
  have hpend : pending m' p = pending m p := by
    unfold pending at hl ⊢
    split
    case h_1 | h_2 | h_3 => rw [hw, hh]; exact chain_update_owner hl
    case h_4 | h_5 | h_6 => exact hahead _ _ hl
    case h_7 => rfl
  refine ⟨?_, ?_, ?_⟩
  · intro l' hl'
    rw [hpend] at hl'
    have hne : l' ≠ l := by
      rintro rfl
      exact hl hl'
    rw [hh, update_of_ne hne]
    exact h.held l' hl'
  · rw [hw]
    exact h.link
  · rw [hw]
    exact h.here

/-- What a thread has pending after `t` started to wait for `l`. -/
theorem mem_pending_update_some {m m' : Sys} {t : Tid} {l x : LockId} {p : Pc}
    (hh : m'.holder = m.holder) (hw : m'.waitOnLock = update m.waitOnLock t (some l))
    (hx : x ∈ pending m' p) :
    x ∈ pending m p ∨ x ∈ chain m.holder m.waitOnLock 8 l := by
  have hchain : ∀ n l', n ≤ 8 → x ∈ chain m'.holder m'.waitOnLock n l' →
      x ∈ chain m.holder m.waitOnLock n l' ∨ x ∈ chain m.holder m.waitOnLock 8 l := by
    intro n l' hn hc
    rw [hh, hw] at hc
    exact (mem_chain_of_update_some hc).imp id (mem_chain_mono hn)
  have hahead : ∀ n u, n ≤ 8 → x ∈ ahead m'.holder m'.waitOnLock n u →
      x ∈ ahead m.holder m.waitOnLock n u ∨ x ∈ chain m.holder m.waitOnLock 8 l := by
    intro n u hn hc
    by_cases hut : u = t
    · subst hut
      rw [ahead_some (r := l) (by rw [hw, update_self])] at hc
      exact Or.inr ((hchain n l hn hc).elim (mem_chain_mono hn) id)
    · unfold ahead at hc ⊢
      rw [hw, update_of_ne hut, ← hw] at hc
      split at hc
      · cases hc
      · next hwu =>
        exact hchain n _ hn hc
  unfold pending at hx ⊢
  split at hx
  case h_1 | h_2 | h_3 => exact hchain 8 _ (le_refl 8) hx
  case h_4 | h_5 | h_6 => exact hahead _ _ (by omega) hx
  case h_7 => cases hx

/-- What a thread has pending after `t` stopped waiting. -/
theorem mem_pending_update_none {m m' : Sys} {t : Tid} {x : LockId} {p : Pc}
    (hh : m'.holder = m.holder) (hw : m'.waitOnLock = update m.waitOnLock t none)
    (hx : x ∈ pending m' p) : x ∈ pending m p := by
  have hahead : ∀ n u, x ∈ ahead m'.holder m'.waitOnLock n u →
      x ∈ ahead m.holder m.waitOnLock n u := by
    intro n u hc
    by_cases hut : u = t
    · subst hut
      rw [ahead_none (by rw [hw, update_self])] at hc
      cases hc
    · unfold ahead at hc ⊢
      rw [hw, update_of_ne hut, hh] at hc
      split at hc
      · cases hc
      · next hwu => exact mem_chain_of_update_none hc
  unfold pending at hx ⊢
  split at hx
  case h_1 | h_2 | h_3 =>
    rw [hh, hw] at hx
    exact mem_chain_of_update_none hx
  case h_4 | h_5 | h_6 => exact hahead _ _ hx
  case h_7 => cases hx

/-! ## Every step -/

/-- No thread has a lock pending that `t` has just taken. -/
theorem ChainInv.not_pending {m : Sys} (h : ChainInv m) (hl : LockInv m) {t : Tid} {l : LockId}
    (hst : (m.pc t).stage = some (l, .taken)) (u : Tid) : l ∉ pending m (m.pc u) := by
  intro hmem
  have hphase : phase m l t = .taken := phaseOf_self hst _
  cases hh : m.holder l with
  | none => exact (h.pc u).held l hmem hh
  | some w =>
    have hw : phase m l w = .holding := ((hl.permit l).holder w).mp hh
    have hwt : w = t := (hl.permit l).unique w t
      (by show phase m l w ≠ .out; simp [hw]) (by show phase m l t ≠ .out; simp [hphase])
    rw [hwt, hphase] at hw
    cases hw

theorem semaDown_links (m : Sys) (t : Tid) (s : SemaId) (c : Option LockId) :
    (m.semaDown t s c).mlfqs = m.mlfqs ∧ (m.semaDown t s c).holder = m.holder ∧
    (m.semaDown t s c).waitOnLock = m.waitOnLock := by
  unfold Sys.semaDown
  split <;> exact ⟨rfl, rfl, rfl⟩

theorem ChainInv.semaDown {m : Sys} (h : ChainInv m) {t : Tid} {s : SemaId} {c : Option LockId}
    (hlink : ∀ l, m.waitOnLock t = some l → c = some l) : ChainInv (m.semaDown t s c) := by
  obtain ⟨hm, hh, hw⟩ := semaDown_links m t s c
  by_cases h0 : (m.sema s).value = 0
  · refine h.move (p := .downWait s c) (t := t) hm hh hw ?_ (.idle rfl hlink trivial)
    rw [Sys.semaDown, if_pos h0]
    rfl
  · refine h.move (p := m.afterDown c) (t := t) hm hh hw ?_ ?_
    · rw [Sys.semaDown, if_neg h0]
      rfl
    · cases c with
      | none =>
        refine .idle rfl (fun l hl => ?_) trivial
        cases hlink l hl
      | some l =>
        have hafter : m.afterDown (some l) = .acqClear l := by
          simp [Sys.afterDown, h.priority]
        rw [hafter]
        exact .idle rfl hlink trivial

theorem ChainInv.same {m m' : Sys} (h : ChainInv m) (hm : m'.mlfqs = m.mlfqs)
    (hh : m'.holder = m.holder) (hw : m'.waitOnLock = m.waitOnLock) (hp : m'.pc = m.pc) :
    ChainInv m' where
  priority := hm.trans h.priority
  pc u := by
    rw [hp]
    exact (h.pc u).congr hh hw

theorem ChainInv.semaUp {m m' : Sys} {s : SemaId} (h : ChainInv m) (hu : m.semaUp s = .ok m') :
    ChainInv m' := by
  unfold Sys.semaUp at hu
  split at hu
  · cases hu
    exact h.same rfl rfl rfl rfl
  · split at hu
    · cases hu
      exact h.same rfl rfl rfl rfl
    · cases hu

theorem ChainInv.stmt {m m' : Sys} {t : Tid} (h : ChainInv m) (hlock : LockInv m)
    (hc : ChainsKept m (.step t)) (hs : Stmt m t m') : ChainInv m' := by
  have hpc := h.pc t
  cases hs with
  | @acqTest l he =>
    rw [he] at hpc
    have hnone : m.waitOnLock t = none := by
      cases hw : m.waitOnLock t with
      | none => rfl
      | some l' => cases hpc.link l' hw
    refine h.move rfl rfl rfl rfl ?_
    split
    · next hh =>
      refine ⟨?_, by simp [hnone], trivial⟩
      simp only [ChainsKept, he] at hc
      exact hc (by simpa [Option.isSome_iff_ne_none] using hh)
    · exact .idle rfl (by simp [hnone]) trivial
  | @acqWait l he =>
    rw [he] at hpc
    refine ⟨h.priority, fun u => ?_⟩
    have hmem : ∀ p x, x ∈ pending
        { m.setPc t (.acqHolder l) with waitOnLock := update m.waitOnLock t (some l) } p →
        x ∈ pending m p ∨ x ∈ chain m.holder m.waitOnLock 8 l :=
      fun p x hx => mem_pending_update_some (by rfl) (by rfl) hx
    by_cases hut : u = t
    · subst hut
      simp only [Sys.setPc_pc, update_self]
      refine ⟨fun x hx => ?_, ?_, ?_⟩
      · rcases hmem _ x hx with hx | hx
        · exact hpc.held x hx
        · exact hpc.held x hx
      · intro l' hl'
        simpa [Pc.waitsOn] using hl'
      · simp [Pc.Local]
    · simp only [Sys.setPc_pc, update_of_ne hut]
      refine ⟨fun x hx => ?_, ?_, ?_⟩
      · rcases hmem _ x hx with hx | hx
        · exact (h.pc u).held x hx
        · exact hpc.held x hx
      · simpa only [update_of_ne hut] using (h.pc u).link
      · simpa only [update_of_ne hut] using (h.pc u).here
  | @acqHolder l u he hh =>
    rw [he] at hpc
    exact h.move rfl rfl rfl rfl ⟨hpc.held, hpc.link, hpc.here⟩
  | @acqInsert l u he =>
    rw [he] at hpc
    have hw : m.waitOnLock t = some l := hpc.here
    refine h.move rfl rfl rfl rfl ⟨?_, hpc.link, trivial⟩
    intro x hx
    simp only [pending, ahead_some hw] at hx
    exact hpc.held x hx
  | @donTest l depth curr he =>
    rw [he] at hpc
    refine h.move rfl rfl rfl rfl ?_
    split
    · next hd => exact ⟨hpc.held, hpc.link, hd.1⟩
    · exact .idle rfl hpc.link trivial
  | @donRead l depth curr l' he hw =>
    rw [he] at hpc
    have hd : depth < 8 := hpc.here
    obtain ⟨n, hn⟩ : ∃ n, 8 - depth = n + 1 := ⟨7 - depth, by omega⟩
    have hpend : pending m (.donRead l depth curr) = chain m.holder m.waitOnLock (n + 1) l' := by
      simp only [pending, ahead_some hw, hn]
    have hheld := hpc.held
    rw [hpend] at hheld
    cases hh : m.holder l' with
    | none => exact absurd hh (hheld l' mem_chain_self)
    | some b =>
      refine h.move rfl rfl rfl rfl ⟨?_, hpc.link, Option.some_ne_none b⟩
      intro x hx
      refine hheld x ?_
      rw [chain_owned hh]
      have hn' : 8 - (depth + 1) = n := by omega
      simp only [pending, hn'] at hx
      exact List.mem_cons_of_mem l' hx
  | @donWrite l depth curr b he =>
    rw [he] at hpc
    exact h.move rfl rfl rfl rfl ⟨hpc.held, hpc.link, trivial⟩
  | @acqDown l he =>
    rw [he] at hpc
    exact h.semaDown hpc.link
  | @downWait s c he =>
    rw [he] at hpc
    exact h.semaDown hpc.link
  | @acqClear l he =>
    refine ⟨h.priority, fun u => ?_⟩
    by_cases hut : u = t
    · subst hut
      simp only [Sys.setPc_pc, update_self]
      exact .idle rfl (by simp) trivial
    · simp only [Sys.setPc_pc, update_of_ne hut]
      refine ⟨fun x hx => ?_, ?_, ?_⟩
      · exact (h.pc u).held x (mem_pending_update_none (t := t) (by rfl) (by rfl) hx)
      · simpa only [update_of_ne hut] using (h.pc u).link
      · simpa only [update_of_ne hut] using (h.pc u).here
  | @setHolder l he =>
    have hst : (m.pc t).stage = some (l, .taken) := by
      rcases he with he | he <;> rw [he] <;> rfl
    have hnone : m.waitOnLock t = none := by
      cases hw : m.waitOnLock t with
      | none => rfl
      | some l' =>
        have hl' := hpc.link l' hw
        rcases he with he | he <;> rw [he] at hl' <;> cases hl'
    refine ⟨h.priority, fun u => ?_⟩
    by_cases hut : u = t
    · subst hut
      simp only [Sys.setPc_pc, update_self]
      exact .idle rfl (by simp [hnone]) trivial
    · simp only [Sys.setPc_pc, update_of_ne hut]
      exact (h.pc u).update_holder (h.not_pending hlock hst u) rfl rfl
  | @relAssert l he hh =>
    rw [he] at hpc
    refine h.move rfl rfl rfl rfl ?_
    split <;> exact .idle rfl hpc.link trivial
  | relRemove he =>
    rw [he] at hpc
    exact h.move rfl rfl rfl rfl (.idle rfl hpc.link trivial)
  | relPriority he =>
    rw [he] at hpc
    exact h.move rfl rfl rfl rfl (.idle rfl hpc.link trivial)
  | @relHolder l he =>
    simp only [ChainsKept, he] at hc
    rw [he] at hpc
    refine ⟨h.priority, fun u => ?_⟩
    by_cases hut : u = t
    · subst hut
      simp only [Sys.setPc_pc, update_self]
      exact .idle rfl hpc.link trivial
    · simp only [Sys.setPc_pc, update_of_ne hut]
      exact (h.pc u).update_holder (hc u) rfl rfl
  | @relUp l _ he hu =>
    rw [he] at hpc
    have hm : ChainInv (m.setPc t .user) :=
      h.move rfl rfl rfl rfl (.idle rfl hpc.link trivial)
    exact hm.semaUp hu
  | setPriority he =>
    rw [he] at hpc
    exact h.move rfl rfl rfl rfl (.idle rfl hpc.link trivial)

theorem ChainInv.call {m m' : Sys} (h : ChainInv m) (hs : Call m m') : ChainInv m' := by
  cases hs with
  | @lockAcquire t l he hb =>
    have hpc := h.pc t
    rw [he] at hpc
    have hnone : ∀ l, m.waitOnLock t ≠ some l := fun l hl => nomatch hpc.link l hl
    refine h.move rfl rfl rfl rfl ?_
    split <;> exact .idle rfl (fun l hl => absurd hl (hnone l)) trivial
  | @lockTryAcquire t l he hb hh =>
    have hpc := h.pc t
    rw [he] at hpc
    have hnone : ∀ l, m.waitOnLock t ≠ some l := fun l hl => nomatch hpc.link l hl
    have htry : (m.semaTryDown (.lock l)).1.mlfqs = m.mlfqs ∧
        (m.semaTryDown (.lock l)).1.holder = m.holder ∧
        (m.semaTryDown (.lock l)).1.waitOnLock = m.waitOnLock ∧
        (m.semaTryDown (.lock l)).1.pc = m.pc := by
      unfold Sys.semaTryDown
      split <;> exact ⟨rfl, rfl, rfl, rfl⟩
    obtain ⟨hm, hho, hw, hp⟩ := htry
    refine h.move (t := t) hm hho hw (by rw [← hp]; rfl) ?_
    split <;> exact .idle rfl (fun l hl => absurd hl (hnone l)) trivial
  | @lockRelease t l he hb hh =>
    have hpc := h.pc t
    rw [he] at hpc
    exact h.move rfl rfl rfl rfl (.idle rfl (fun l hl => nomatch hpc.link l hl) trivial)
  | @semaDown t n he hb =>
    have hpc := h.pc t
    rw [he] at hpc
    exact h.semaDown (fun l hl => nomatch hpc.link l hl)
  | @semaTryDown n =>
    unfold Sys.semaTryDown
    split
    · exact h.same rfl rfl rfl rfl
    · exact h
  | semaUp hu => exact h.semaUp hu
  | setPriorityMlfqs => exact h
  | @setPriority t p he =>
    have hpc := h.pc t
    rw [he] at hpc
    exact h.move rfl rfl rfl rfl (.idle rfl (fun l hl => nomatch hpc.link l hl) trivial)
  | tear hb he => exact h.same rfl rfl rfl rfl

theorem ChainInv.of_step {m m' : Sys} {a : Action} (h : ChainInv m) (hlock : LockInv m)
    (hc : ChainsKept m a) (hs : step m a = .ok m') : ChainInv m' := by
  rcases step_cases hs with ⟨t, rfl, -, hstmt⟩ | hcall
  · exact h.stmt hlock hc hstmt
  · exact h.call hcall

theorem ChainInv.of_boot (value : Nat → BitVec 32) (priority : Tid → Int) :
    ChainInv (boot false value priority) where
  priority := rfl
  pc _ := .idle rfl (fun _ hl => nomatch hl) trivial

variable {value : Nat → BitVec 32} {priority : Tid → Int} {m : Sys}

theorem ChainInv.reach (h : Reach step ChainsKept (boot false value priority) m) : ChainInv m :=
  h.invariant_of (fun _ hs => LockInv.reach (hs.mono fun _ _ _ => trivial))
    (.of_boot value priority) (fun _ _ _ hlock hi hc hs => hi.of_step hlock hc hs)

/-- The two places where `NULL->donations` or `NULL->priority` would be evaluated. -/
theorem nullHolder_cases {a : Action} (h : step m a = .error .nullHolder) :
    ∃ t, (∃ l, m.pc t = .acqHolder l ∧ m.holder l = none) ∨
      ∃ l depth curr, m.pc t = .donWrite l depth curr none := by
  cases a with
  | step t =>
    simp only [step, stepThread] at h
    split at h
    · cases h
    split at h
    case h_4 l hpc =>
      split at h
      · next hh => exact ⟨t, Or.inl ⟨l, hpc, hh⟩⟩
      · cases h
    case h_7 => split at h <;> cases h
    case h_8 l depth curr o hpc =>
      split at h
      · exact ⟨t, Or.inr ⟨l, depth, curr, hpc⟩⟩
      · cases h
    case h_14 => split at h <;> cases h
    case h_18 l hpc => cases semaUp_error h
    all_goals cases h
  | lockAcquire t l =>
    simp only [step] at h
    split at h <;> cases h
  | lockTryAcquire t l =>
    simp only [step] at h
    split at h
    · cases h
    · split at h <;> cases h
  | lockRelease t l =>
    simp only [step] at h
    split at h <;> cases h
  | semaDown t n =>
    simp only [step] at h
    split at h <;> cases h
  | semaTryDown t n =>
    simp only [step] at h
    split at h <;> cases h
  | semaUp t n =>
    simp only [step] at h
    split at h
    · cases semaUp_error h
    · cases h
  | setPriority t p =>
    simp only [step] at h
    split at h <;> cases h
  | intrTryDown n => cases h
  | intrUp n => cases semaUp_error h
  | tear t don p =>
    simp only [step] at h
    split at h <;> cases h

/-! ## A broken chain is followed to its end -/

/-- `t` has a free lock pending, or has read its holder already. -/
structure Doomed (m : Sys) (t : Tid) : Prop where
  awake : m.blocked t = false
  fresh : ∀ l, m.pc t = .acqWait l → m.waitOnLock t = none
  waits : ∀ l, m.pc t = .acqHolder l ∨ (∃ h, m.pc t = .acqInsert l h) → m.waitOnLock t = some l
  depth : ∀ l depth curr, m.pc t = .donRead l depth curr → depth < 8
  reads : (∃ x ∈ pending m (m.pc t), m.holder x = none) ∨
    ∃ l depth curr, m.pc t = .donWrite l depth curr none

/-- The statements left before `t` reads the last holder of the chain, and more. -/
def Pc.left : Pc → Nat
  | .acqWait _ => 30
  | .acqHolder _ => 29
  | .acqInsert _ _ => 28
  | .donTest _ depth _ => 3 * (8 - depth) + 3
  | .donRead _ depth _ => 3 * (8 - depth) + 2
  | .donWrite _ depth _ _ => 3 * (8 - depth) + 1
  | _ => 0

theorem Doomed.next {m : Sys} {t : Tid} (h : Doomed m t) :
    step m (.step t) = .error .nullHolder ∨
    ∃ m', step m (.step t) = .ok m' ∧ Doomed m' t ∧ (m'.pc t).left < (m.pc t).left := by
  obtain ⟨hb, hfresh, hwaits, hdepth, hreads⟩ := h
  cases hpc : m.pc t with
  | acqWait l =>
    rw [hpc] at hreads
    obtain ⟨x, hx, hfree⟩ := hreads.resolve_right (by simp)
    refine Or.inr ⟨{ m.setPc t (.acqHolder l) with waitOnLock := update m.waitOnLock t (some l) },
      by simp [step, stepThread, hb, hpc], ⟨hb, by simp, by simp, by simp, ?_⟩, by simp [Pc.left]⟩
    refine Or.inl ⟨x, ?_, hfree⟩
    simp only [Sys.setPc_pc, update_self]
    exact mem_chain_update_some (hfresh l hpc) hx
  | acqHolder l =>
    rw [hpc] at hreads
    obtain ⟨x, hx, hfree⟩ := hreads.resolve_right (by simp)
    have hw : m.waitOnLock t = some l := hwaits l (Or.inl hpc)
    cases hh : m.holder l with
    | none => exact Or.inl (by simp [step, stepThread, hb, hpc, hh])
    | some u =>
      refine Or.inr ⟨m.setPc t (.acqInsert l u), by simp [step, stepThread, hb, hpc, hh],
        ⟨hb, by simp, by simpa using hw, by simp, ?_⟩, by simp [Pc.left]⟩
      exact Or.inl ⟨x, by simpa [pending] using hx, hfree⟩
  | acqInsert l u =>
    rw [hpc] at hreads
    obtain ⟨x, hx, hfree⟩ := hreads.resolve_right (by simp)
    have hw : m.waitOnLock t = some l := hwaits l (Or.inr ⟨u, hpc⟩)
    refine Or.inr ⟨{ m.setPc t (.donTest l 0 t) with
        donations :=
          update m.donations u (listInsertOrdered (cmpPriority m.priority) t (m.donations u)) },
      by simp [step, stepThread, hb, hpc], ⟨hb, by simp, by simp, by simp, ?_⟩, by simp [Pc.left]⟩
    refine Or.inl ⟨x, ?_, hfree⟩
    simp only [Sys.setPc_pc, update_self]
    show x ∈ ahead m.holder m.waitOnLock 8 t
    rw [ahead_some hw]
    exact hx
  | donTest l depth curr =>
    rw [hpc] at hreads
    obtain ⟨x, hx, hfree⟩ := hreads.resolve_right (by simp)
    -- the chain is not empty, so the loop goes on
    have hgo : depth < 8 ∧ (m.waitOnLock curr).isSome := by
      simp only [pending, ahead] at hx
      split at hx
      · cases hx
      · next l' hw =>
        refine ⟨?_, by simp [hw]⟩
        by_contra hd
        rw [show 8 - depth = 0 by omega] at hx
        cases hx
    refine Or.inr ⟨m.setPc t (.donRead l depth curr), by simp [step, stepThread, hb, hpc, hgo],
      ⟨hb, by simp, by simp, ?_, ?_⟩, by simp [Pc.left]⟩
    · simpa using hgo.1
    · exact Or.inl ⟨x, by simpa [pending] using hx, hfree⟩
  | donRead l depth curr =>
    rw [hpc] at hreads
    obtain ⟨x, hx, hfree⟩ := hreads.resolve_right (by simp)
    have hd : depth < 8 := hdepth l depth curr hpc
    cases hw : m.waitOnLock curr with
    | none => simp [pending, ahead_none hw] at hx
    | some l' =>
      refine Or.inr ⟨m.setPc t (.donWrite l depth curr (m.holder l')),
        by simp [step, stepThread, hb, hpc, hw], ⟨hb, by simp, by simp, by simp, ?_⟩,
        by simp [Pc.left]⟩
      simp only [Sys.setPc_pc, update_self]
      cases ho : m.holder l' with
      | none => exact Or.inr ⟨l, depth, curr, rfl⟩
      | some b =>
        have hne : x ≠ l' := by
          rintro rfl
          rw [hfree] at ho
          cases ho
        simp only [pending, ahead_some hw] at hx
        rw [show 8 - depth = 8 - (depth + 1) + 1 by omega, chain_owned ho, List.mem_cons] at hx
        exact Or.inl ⟨x, hx.resolve_left hne, hfree⟩
  | donWrite l depth curr o =>
    rw [hpc] at hreads
    cases o with
    | none => exact Or.inl (by simp [step, stepThread, hb, hpc])
    | some b =>
      obtain ⟨x, hx, hfree⟩ := hreads.resolve_right (by simp)
      have hlt : depth + 1 < 8 := by
        by_contra hd
        simp only [pending, ahead, show 8 - (depth + 1) = 0 by omega] at hx
        split at hx <;> cases hx
      refine Or.inr ⟨{ m.setPc t (.donTest l (depth + 1) b) with
          priority := update m.priority b (m.priority curr) },
        by simp [step, stepThread, hb, hpc], ⟨hb, by simp, by simp, by simp, ?_⟩, ?_⟩
      · exact Or.inl ⟨x, by simpa [pending] using hx, hfree⟩
      · simp only [Sys.setPc_pc, update_self, Pc.left]
        omega
  | user | acqTest | acqDown | downWait | acqClear | acqSet | trySet | relAssert | relRemove
  | relPriority | relHolder | relUp | setPriority => simp [hpc, pending] at hreads

theorem Doomed.fails {m : Sys} {t : Tid} (h : Doomed m t) :
    ∃ as, exec step m as = .error .nullHolder := by
  induction hn : (m.pc t).left using Nat.strong_induction_on generalizing m with
  | _ n ih =>
    rcases h.next with hs | ⟨m', hs, hd, hlt⟩
    · exact ⟨[.step t], by simp [exec, hs]⟩
    · obtain ⟨as, has⟩ := ih _ (hn ▸ hlt) hd rfl
      exact ⟨.step t :: as, (exec_cons hs).trans has⟩

theorem broken_cases {m : Sys} {a : Action} (hc : ¬ ChainsKept m a) :
    ∃ t l, a = .step t ∧
      (m.pc t = .acqTest l ∧ m.holder l ≠ none ∧
        (∃ x ∈ chain m.holder m.waitOnLock 8 l, m.holder x = none) ∨
      m.pc t = .relHolder l ∧ ∃ u, l ∈ pending m (m.pc u)) := by
  unfold ChainsKept at hc
  split at hc
  · next t =>
    split at hc
    · next l hpc =>
      simp only [not_forall, not_not] at hc
      obtain ⟨hh, x, hx, hfree⟩ := hc
      exact ⟨t, l, rfl, Or.inl ⟨hpc, hh, x, hx, hfree⟩⟩
    · next l hpc =>
      simp only [not_forall, not_not] at hc
      exact ⟨t, l, rfl, Or.inr ⟨hpc, hc⟩⟩
    · exact absurd trivial hc
  · exact absurd trivial hc

/-- A thread with something pending is not blocked. -/
theorem awake_of_pending {m : Sys} {v : SemaId → BitVec 32} (h : SemaInv v m) {u : Tid}
    {l : LockId} (hl : l ∈ pending m (m.pc u)) : m.blocked u = false := by
  cases hb : m.blocked u with
  | false => rfl
  | true =>
    obtain ⟨s, hw⟩ := h.asleep u hb
    obtain ⟨-, c, hc⟩ := h.waiter s u hw
    rw [hc] at hl
    cases hl

/-- A lock that loses its holder stays pending. -/
theorem mem_pending_update_free {m m' : Sys} {l : LockId} {p : Pc}
    (hh : m'.holder = update m.holder l none) (hw : m'.waitOnLock = m.waitOnLock)
    (hl : l ∈ pending m p) : l ∈ pending m' p := by
  have hahead : ∀ n t, l ∈ ahead m.holder m.waitOnLock n t →
      l ∈ ahead m'.holder m'.waitOnLock n t := by
    intro n t ha
    unfold ahead at ha ⊢
    rw [hw]
    split at ha
    · cases ha
    · next hwt =>
      rw [hh]
      exact mem_chain_update_free ha
  unfold pending at hl ⊢
  split at hl
  case h_1 | h_2 | h_3 =>
    rw [hh, hw]
    exact mem_chain_update_free hl
  case h_4 | h_5 | h_6 => exact hahead _ _ hl
  case h_7 => cases hl

/-- A step that breaks a chain dooms the thread that follows it. -/
theorem doomed_of_broken {m m' : Sys} {a : Action} {v : SemaId → BitVec 32} (h : ChainInv m)
    (hsema : SemaInv v m) (hc : ¬ ChainsKept m a) (hs : step m a = .ok m') :
    ∃ t, Doomed m' t := by
  have hfresh : ∀ t l, m.pc t = .acqTest l ∨ m.pc t = .acqWait l → m.waitOnLock t = none := by
    intro t l hpc
    cases hw : m.waitOnLock t with
    | none => rfl
    | some l' =>
      have hl := (h.pc t).link l' hw
      rcases hpc with hpc | hpc <;> rw [hpc] at hl <;> cases hl
  obtain ⟨t, l, rfl, ⟨hpc, hh, x, hx, hfree⟩ | ⟨hpc, u, hu⟩⟩ := broken_cases hc
  · have hb : m.blocked t = false := (stepThread_cases hs).1
    have hm : m' = m.setPc t (.acqWait l) := by
      have hsome : (m.holder l).isSome = true := Option.isSome_iff_ne_none.mpr hh
      simpa [step, stepThread, hb, hpc, hsome] using hs.symm
    subst hm
    refine ⟨t, hb, fun _ _ => hfresh t l (Or.inl hpc), by simp, by simp, Or.inl ⟨x, ?_, hfree⟩⟩
    simpa [pending] using hx
  · have hb : m.blocked t = false := (stepThread_cases hs).1
    have hm : m' = { m.setPc t (.relUp l) with holder := update m.holder l none } := by
      simpa [step, stepThread, hb, hpc] using hs.symm
    subst hm
    have hut : u ≠ t := by
      rintro rfl
      rw [hpc] at hu
      cases hu
    have hpcu : update m.pc t (.relUp l) u = m.pc u := update_of_ne hut _ _
    refine ⟨u, awake_of_pending hsema hu, ?_, ?_, ?_, Or.inl ⟨l, ?_, update_self _ _ _⟩⟩
    · intro l' hl'
      exact hfresh u l' (Or.inr (hpcu.symm.trans hl'))
    · intro l' hl'
      have hhere := (h.pc u).here
      simp only [Sys.setPc_pc, hpcu] at hl'
      rcases hl' with hl' | ⟨b, hl'⟩ <;> rw [hl'] at hhere <;> exact hhere
    · intro l' depth curr hl'
      have hhere := (h.pc u).here
      rw [hpcu.symm.trans hl'] at hhere
      exact hhere
    · simp only [Sys.setPc_pc, hpcu]
      exact mem_pending_update_free rfl rfl hu

/--
**When donation finds a holder.** While every step keeps the chains, no `NULL` holder is read;
and after the first step that breaks one, some thread can go on to read it.
-/
theorem no_null_holder (h : Reach step ChainsKept (boot false value priority) m) (a : Action) :
    step m a ≠ .error .nullHolder ∧
    ∀ m', step m a = .ok m' → ¬ ChainsKept m a → ∃ as, exec step m' as = .error .nullHolder := by
  have hinv := ChainInv.reach h
  refine ⟨?_, fun m' hs hc => ?_⟩
  · intro hs
    obtain ⟨t, ⟨l, hpc, hfree⟩ | ⟨l, depth, curr, hpc⟩⟩ := nullHolder_cases hs
    · have ht := hinv.pc t
      rw [hpc] at ht
      exact ht.held l mem_chain_self hfree
    · have ht := hinv.pc t
      rw [hpc] at ht
      exact ht.here rfl
  · obtain ⟨t, ht⟩ := doomed_of_broken hinv (SemaInv.reach (h.mono fun _ _ _ => trivial)) hc hs
    exact ht.fails

/-- A check of `ChainsKept` for runs without `lock_release`. -/
def chainsKeptNoRelease (m : Sys) : Action → Bool
  | .step t =>
    match m.pc t with
    | .acqTest l => (chain m.holder m.waitOnLock 8 l).all (fun l' => (m.holder l').isSome) ||
        (m.holder l).isNone
    | .relHolder _ => false
    | _ => true
  | _ => true

theorem chainsKept_of_noRelease (m : Sys) (a : Action) (h : chainsKeptNoRelease m a = true) :
    ChainsKept m a := by
  unfold chainsKeptNoRelease at h
  unfold ChainsKept
  split at h
  · split at h
    · next l hpc =>
      simp only [Bool.or_eq_true, List.all_eq_true, Option.isNone_iff_eq_none] at h
      intro hh l' hl'
      rcases h with h | h
      · exact Option.isSome_iff_ne_none.mp (h l' hl')
      · exact absurd h hh
    · cases h
    · trivial
  · trivial

/-- Thread 1 has lock 0, thread 2 has lock 1 and waits for lock 0, thread 3 wants lock 1. -/
theorem no_null_holder_of_nested_donation : ∃ m : Sys,
    m.pc 3 = .donRead 1 1 2 ∧ m.waitOnLock 2 = some 0 ∧ m.holder 0 = some 1 ∧
    step m (.step 3) ≠ .error .nullHolder := by
  have h : Reach step ChainsKept (boot false (fun _ => 0) (fun _ => 31)) _ :=
    reach_of_execIf chainsKept_of_noRelease ([.lockAcquire 1 0, .step 1, .step 1, .step 1, .step 1,
      .lockAcquire 2 1, .step 2, .step 2, .step 2, .step 2,
      .lockAcquire 2 0] ++ List.replicate 9 (.step 2) ++
      .lockAcquire 3 1 :: List.replicate 8 (.step 3)) rfl
  exact ⟨_, rfl, rfl, rfl, (no_null_holder h (.step 3)).1⟩

/--
Thread 1 releases lock 0 and thread 2, woken, does not run: its `wait_on_lock` still points to the
lock. Thread 3 wants lock 1 and follows the chain from thread 2 to a lock without a holder.
-/
theorem null_holder_of_woken_waiter :
    ∃ m, Reach step Always (boot false (fun _ => 0) (fun _ => 31)) m ∧
      step m (.step 3) = .error .nullHolder := by
  have h : Reach step Always (boot false (fun _ => 0) (fun _ => 31)) _ :=
    reach_of_exec ([.lockAcquire 1 0, .step 1, .step 1, .step 1, .step 1,
      .lockAcquire 2 1, .step 2, .step 2, .step 2, .step 2,
      .lockAcquire 2 0] ++ List.replicate 9 (.step 2) ++
      [.lockRelease 1 0, .step 1, .step 1, .step 1, .step 1, .step 1,
      .lockAcquire 3 1] ++ List.replicate 9 (.step 3)) rfl
  exact ⟨_, h, rfl⟩

end Pintos.Interleave
