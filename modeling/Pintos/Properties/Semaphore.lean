import Mathlib.Data.Set.Card
import Pintos.Threads.Interleave

/-!
# Semaphores: the count is conserved and no wake-up is lost

Over every run of `Pintos/Threads/Interleave.lean`, for every semaphore, the ones inside locks
included.

* `SemaInv` — the invariant: the value is the initial one plus the ups minus the downs (modulo
  the 32 bits of `unsigned`), the waiters are asleep in `sema_down` and distinct, and a
  semaphore with waiters has at most as many permits as threads that were woken and have not
  looked at the value again
* `Quiet` — a step that touches no semaphore
-/

namespace Pintos.Interleave

open Function Machine

/-- `t` was unblocked by a `sema_up` on `s` and has not tested the value again. -/
def Woken (m : Sys) (s : SemaId) (t : Tid) : Prop :=
  m.blocked t = false ∧ ∃ l, m.pc t = .downWait s l

structure SemaInv (v : SemaId → BitVec 32) (m : Sys) : Prop where
  count : ∀ s, ∃ c, (v s).toNat + m.ups s = m.downs s + c ∧ (m.sema s).value = BitVec.ofNat 32 c
  nodup : ∀ s, (m.sema s).waiters.Nodup
  waiter : ∀ s t, t ∈ (m.sema s).waiters → m.blocked t = true ∧ ∃ l, m.pc t = .downWait s l
  asleep : ∀ t, m.blocked t = true → ∃ s, t ∈ (m.sema s).waiters
  woken : ∀ s, (m.sema s).waiters ≠ [] → ((m.sema s).value.toNat : ℕ∞) ≤ {t | Woken m s t}.encard

/-! ## Steps that touch no semaphore -/

structure Quiet (m m' : Sys) : Prop where
  sema : m'.sema = m.sema
  blocked : m'.blocked = m.blocked
  ups : m'.ups = m.ups
  downs : m'.downs = m.downs
  wait : ∀ t s l, m'.pc t = .downWait s l ↔ m.pc t = .downWait s l

/-- Only the pc of `t` moves, and `t` is not in `sema_down`'s loop. -/
theorem Quiet.of_pc {m m' : Sys} {t : Tid} {p : Pc} (hs : m'.sema = m.sema)
    (hb : m'.blocked = m.blocked) (hu : m'.ups = m.ups) (hd : m'.downs = m.downs)
    (hp : m'.pc = update m.pc t p) (h : ∀ s l, m.pc t ≠ .downWait s l)
    (h' : ∀ s l, p ≠ .downWait s l) : Quiet m m' where
  sema := hs
  blocked := hb
  ups := hu
  downs := hd
  wait u s l := by
    rw [hp]
    by_cases hut : u = t
    · subst hut
      rw [update_self]
      exact ⟨fun hc => absurd hc (h' s l), fun hc => absurd hc (h s l)⟩
    · rw [update_of_ne hut]

theorem Quiet.setPc {m : Sys} {t : Tid} {p : Pc} (h : ∀ s l, m.pc t ≠ .downWait s l)
    (h' : ∀ s l, p ≠ .downWait s l) : Quiet m (m.setPc t p) :=
  .of_pc rfl rfl rfl rfl rfl h h'

theorem Quiet.woken {m m' : Sys} (h : Quiet m m') (s : SemaId) (t : Tid) :
    Woken m' s t ↔ Woken m s t := by
  unfold Woken
  simp only [h.blocked, h.wait]

theorem SemaInv.quiet {v : SemaId → BitVec 32} {m m' : Sys} (h : SemaInv v m)
    (hq : Quiet m m') : SemaInv v m' where
  count s := by rw [hq.sema, hq.ups, hq.downs]; exact h.count s
  nodup s := by rw [hq.sema]; exact h.nodup s
  waiter s t ht := by
    rw [hq.sema] at ht
    rw [hq.blocked]
    simp only [hq.wait]
    exact h.waiter s t ht
  asleep t ht := by
    rw [hq.blocked] at ht
    rw [hq.sema]
    exact h.asleep t ht
  woken s hs := by
    rw [hq.sema] at hs ⊢
    simp only [hq.woken]
    exact h.woken s hs

/-! ## `sema_down` -/

/-- A thread that is not blocked is in no list of waiters. -/
theorem SemaInv.not_waiter {v : SemaId → BitVec 32} {m : Sys} (h : SemaInv v m) {t : Tid}
    (hb : m.blocked t = false) (s : SemaId) : t ∉ (m.sema s).waiters := by
  intro ht
  rw [(h.waiter s t ht).1] at hb
  cases hb

/-- `sema_down` at value 0: the caller goes to sleep among the waiters. -/
theorem SemaInv.sleep {v : SemaId → BitVec 32} {m : Sys} (h : SemaInv v m) {t : Tid} {s : SemaId}
    {l : Option LockId} (hb : m.blocked t = false)
    (hpc : ∀ s' l', m.pc t = .downWait s' l' → s' = s) (h0 : (m.sema s).value = 0) :
    SemaInv v (m.semaDown t s l) := by
  have hm : m.semaDown t s l =
      ((m.setSema s ((m.sema s).enqueue m.priority t)).setPc t (.downWait s l)).setStatus t
        .blocked := by
    rw [Sys.semaDown, if_pos h0]
  rw [hm]
  have hnot := h.not_waiter hb s
  refine ⟨?_, ?_, ?_, ?_, ?_⟩
  · intro s'
    by_cases hs : s' = s
    · subst hs
      simpa using h.count s'
    · simpa [hs] using h.count s'
  · intro s'
    by_cases hs : s' = s
    · subst hs
      simpa [Semaphore.enqueue, listInsertOrdered_nodup]
        using ⟨hnot, h.nodup s'⟩
    · simpa [hs] using h.nodup s'
  · intro s' u hu
    by_cases hut : u = t
    · subst hut
      by_cases hs : s' = s
      · subst hs
        exact ⟨by simp, l, by simp⟩
      · simp [hs] at hu
        exact absurd hu (h.not_waiter hb s')
    · have hu' : u ∈ (m.sema s').waiters := by
        by_cases hs : s' = s
        · subst hs
          simpa [hut] using hu
        · simpa [hs] using hu
      simpa [hut] using h.waiter s' u hu'
  · intro u hu
    by_cases hut : u = t
    · subst hut
      exact ⟨s, by simp⟩
    · obtain ⟨s', hs'⟩ := h.asleep u (by simpa [hut] using hu)
      refine ⟨s', ?_⟩
      by_cases hs : s' = s
      · subst hs
        simpa using Or.inr hs'
      · simpa [hs] using hs'
  · intro s' hs'
    by_cases hs : s' = s
    · subst hs
      simp [h0]
    · -- `t` waited on no semaphore but `s`, so the woken threads of `s'` are the same
      have hw : ∀ u, Woken m s' u → u ≠ t := by
        rintro u ⟨-, l', hl'⟩ rfl
        exact hs (hpc s' l' hl')
      have hsub : {u | Woken m s' u} ⊆ {u | Woken
          (((m.setSema s ((m.sema s).enqueue m.priority t)).setPc t (.downWait s l)).setStatus t
            .blocked) s' u} := by
        intro u hu
        have hut := hw u hu
        simpa [Woken, hut] using hu
      have hne : (m.sema s').waiters ≠ [] := by simpa [hs] using hs'
      calc _ = ((m.sema s').value.toNat : ℕ∞) := by simp [hs]
        _ ≤ {u | Woken m s' u}.encard := h.woken s' hne
        _ ≤ _ := Set.encard_le_encard hsub

theorem toNat_eq_pred_add_one {b : BitVec 32} (h : b ≠ 0) : b.toNat = (b - 1).toNat + 1 := by
  bv_omega

theorem ofNat_succ_sub_one (c : Nat) : BitVec.ofNat 32 (c + 1) - 1 = BitVec.ofNat 32 c := by
  bv_omega

theorem toNat_succ_le (b : BitVec 32) : (b + 1).toNat ≤ b.toNat + 1 := by
  bv_omega

theorem encard_le_sdiff_add_one (w : Set Tid) (t : Tid) : w.encard ≤ (w \ {t}).encard + 1 := by
  by_cases ht : t ∈ w
  · rw [Set.encard_sdiff_singleton_add_one ht]
  · rw [Set.sdiff_singleton_eq_self ht]
    exact le_self_add

/--
`sema->value--` takes one permit and, when the thread `t` that took it leaves the loop of
`sema_down`, one thread from those woken.
-/
theorem SemaInv.take {v : SemaId → BitVec 32} {m m' : Sys} (h : SemaInv v m) {s : SemaId} {t : Tid}
    (h0 : (m.sema s).value ≠ 0) (hs : m'.sema = update m.sema s (m.sema s).decr)
    (hb : m'.blocked = m.blocked) (hu : m'.ups = m.ups)
    (hd : m'.downs = update m.downs s (m.downs s + 1))
    (hpc : ∀ u, m'.pc u = m.pc u ∨
      (u = t ∧ m.blocked t = false ∧ ∀ s' l', m.pc t = .downWait s' l' → s' = s)) :
    SemaInv v m' := by
  have hwaiters : ∀ s', (m'.sema s').waiters = (m.sema s').waiters := by
    intro s'
    rw [hs]
    by_cases hss : s' = s
    · subst hss; simp
    · simp [hss]
  refine ⟨?_, ?_, ?_, ?_, ?_⟩
  · intro s'
    rw [hs, hu, hd]
    by_cases hss : s' = s
    · subst hss
      obtain ⟨c, hc, hv⟩ := h.count s'
      obtain ⟨c', rfl⟩ : ∃ c', c = c' + 1 := by
        cases c with
        | zero => exact absurd hv h0
        | succ c' => exact ⟨c', rfl⟩
      refine ⟨c', ?_, ?_⟩
      · rw [update_self]
        omega
      · rw [update_self, Semaphore.decr, hv]
        exact ofNat_succ_sub_one c'
    · simpa only [update_of_ne hss] using h.count s'
  · intro s'
    rw [hwaiters]
    exact h.nodup s'
  · intro s' u hmem
    rw [hwaiters] at hmem
    rw [hb]
    rcases hpc u with hp | ⟨rfl, hbt, -⟩
    · rw [hp]
      exact h.waiter s' u hmem
    · exact absurd hmem (h.not_waiter hbt s')
  · intro u hblk
    rw [hb] at hblk
    obtain ⟨s', hs'⟩ := h.asleep u hblk
    exact ⟨s', by rw [hwaiters]; exact hs'⟩
  · intro s' hne
    rw [hwaiters] at hne
    have hle := h.woken s' hne
    by_cases hss : s' = s
    · subst hss
      have hsub : {u | Woken m s' u} \ {t} ⊆ {u | Woken m' s' u} := by
        rintro u ⟨⟨hub, hul⟩, hut⟩
        rcases hpc u with hp | ⟨hc, -, -⟩
        · exact ⟨by rw [hb]; exact hub, by rw [hp]; exact hul⟩
        · exact absurd hc hut
      have hcard : {u | Woken m s' u}.encard ≤ {u | Woken m' s' u}.encard + 1 :=
        (encard_le_sdiff_add_one _ t).trans (add_le_add_left (Set.encard_le_encard hsub) 1)
      have hval : (m.sema s').value.toNat = (m'.sema s').value.toNat + 1 := by
        rw [hs, update_self]
        exact toNat_eq_pred_add_one h0
      rw [hval] at hle
      push_cast at hle
      exact (ENat.add_le_add_iff_right ENat.one_ne_top).mp (hle.trans hcard)
    · have hsub : {u | Woken m s' u} ⊆ {u | Woken m' s' u} := by
        rintro u ⟨hub, l', hl'⟩
        rcases hpc u with hp | ⟨rfl, -, hpt⟩
        · exact ⟨by rw [hb]; exact hub, l', by rw [hp]; exact hl'⟩
        · exact absurd (hpt s' l' hl') hss
      rw [hs, update_of_ne hss]
      exact hle.trans (Set.encard_le_encard hsub)

theorem SemaInv.semaDown {v : SemaId → BitVec 32} {m : Sys} (h : SemaInv v m) {t : Tid} {s : SemaId}
    {l : Option LockId} (hb : m.blocked t = false)
    (hpc : ∀ s' l', m.pc t = .downWait s' l' → s' = s) : SemaInv v (m.semaDown t s l) := by
  by_cases h0 : (m.sema s).value = 0
  · exact h.sleep hb hpc h0
  · refine h.take (t := t) h0 ?_ ?_ ?_ ?_ ?_
    · rw [Sys.semaDown, if_neg h0]; rfl
    · rw [Sys.semaDown, if_neg h0]; rfl
    · rw [Sys.semaDown, if_neg h0]; rfl
    · rw [Sys.semaDown, if_neg h0]; rfl
    · intro u
      by_cases hut : u = t
      · exact Or.inr ⟨hut, hb, hpc⟩
      · refine Or.inl ?_
        rw [Sys.semaDown, if_neg h0]
        exact update_of_ne hut _ _

/-! ## `sema_try_down` and `sema_up` -/

theorem SemaInv.semaTryDown {v : SemaId → BitVec 32} {m : Sys} (h : SemaInv v m) (s : SemaId) :
    SemaInv v (m.semaTryDown s).1 := by
  unfold Sys.semaTryDown
  split
  · next h0 => exact h.take (t := 0) h0 rfl rfl rfl rfl (fun _ => Or.inl rfl)
  · exact h

/-- `sema_up` with nobody asleep only counts. -/
theorem SemaInv.give {v : SemaId → BitVec 32} {m : Sys} (h : SemaInv v m) {s : SemaId}
    (hw : (m.sema s).waiters = []) :
    SemaInv v { m.setSema s (m.sema s).incr with ups := update m.ups s (m.ups s + 1) } := by
  have hwaiters : ∀ s', (update m.sema s (m.sema s).incr s').waiters = (m.sema s').waiters := by
    intro s'
    by_cases hss : s' = s
    · subst hss; simp
    · simp [hss]
  refine ⟨?_, ?_, ?_, ?_, ?_⟩
  · intro s'
    by_cases hss : s' = s
    · subst hss
      obtain ⟨c, hc, hv⟩ := h.count s'
      refine ⟨c + 1, ?_, ?_⟩
      · simp only [update_self, Sys.setSema]
        omega
      · simp only [Sys.setSema, update_self, Semaphore.incr, hv, BitVec.ofNat_add]
        rfl
    · simpa only [Sys.setSema, update_of_ne hss] using h.count s'
  · intro s'
    simpa only [Sys.setSema, hwaiters] using h.nodup s'
  · intro s' u hu
    exact h.waiter s' u (by simpa only [Sys.setSema, hwaiters] using hu)
  · intro u hu
    obtain ⟨s', hs'⟩ := h.asleep u hu
    exact ⟨s', by simpa only [Sys.setSema, hwaiters] using hs'⟩
  · intro s' hne
    by_cases hss : s' = s
    · subst hss
      simp [hw] at hne
    · have hle := h.woken s' (by simpa only [Sys.setSema, hwaiters] using hne)
      simp only [Sys.setSema, update_of_ne hss]
      exact hle

/-- `sema_up` with a waiter: one more permit and one more thread woken. -/
theorem SemaInv.wake {v : SemaId → BitVec 32} {m m' : Sys} (h : SemaInv v m) {s : SemaId} {w : Tid}
    {rest : List Tid} (hp : (m.sema s).waiters.Perm (w :: rest))
    (hs : m'.sema = update m.sema s { value := (m.sema s).value + 1, waiters := rest })
    (hb : m'.blocked = update m.blocked w false) (hu : m'.ups = update m.ups s (m.ups s + 1))
    (hd : m'.downs = m.downs) (hpc : m'.pc = m.pc) : SemaInv v m' := by
  have hmem : w ∈ (m.sema s).waiters := hp.mem_iff.mpr List.mem_cons_self
  obtain ⟨hwb, lw, hwl⟩ := h.waiter s w hmem
  have hnd : (w :: rest).Nodup := hp.nodup_iff.mp (h.nodup s)
  have hrest : ∀ u, u ∈ rest → u ∈ (m.sema s).waiters ∧ u ≠ w := by
    intro u hu
    refine ⟨hp.mem_iff.mpr (List.mem_cons_of_mem w hu), ?_⟩
    rintro rfl
    exact (List.nodup_cons.mp hnd).1 hu
  -- a thread waits on one semaphore only
  have hother : ∀ s', s' ≠ s → w ∉ (m.sema s').waiters := by
    intro s' hss hw'
    obtain ⟨-, l', hl'⟩ := h.waiter s' w hw'
    rw [hwl] at hl'
    cases hl'
    exact hss rfl
  refine ⟨?_, ?_, ?_, ?_, ?_⟩
  · intro s'
    rw [hs, hu, hd]
    by_cases hss : s' = s
    · subst hss
      obtain ⟨c, hc, hv⟩ := h.count s'
      refine ⟨c + 1, ?_, ?_⟩
      · rw [update_self]
        omega
      · simp only [update_self, hv, BitVec.ofNat_add]
        rfl
    · simpa only [update_of_ne hss] using h.count s'
  · intro s'
    rw [hs]
    by_cases hss : s' = s
    · subst hss
      simpa only [update_self] using (List.nodup_cons.mp hnd).2
    · simpa only [update_of_ne hss] using h.nodup s'
  · intro s' u hmem'
    rw [hs] at hmem'
    have hu' : u ∈ (m.sema s').waiters ∧ u ≠ w := by
      by_cases hss : s' = s
      · subst hss
        exact hrest u (by simpa only [update_self] using hmem')
      · rw [update_of_ne hss] at hmem'
        exact ⟨hmem', fun hc => hother s' hss (hc ▸ hmem')⟩
    rw [hb, hpc, update_of_ne hu'.2]
    exact h.waiter s' u hu'.1
  · intro u hub
    have huw : u ≠ w := by
      rintro rfl
      rw [hb, update_self] at hub
      cases hub
    rw [hb, update_of_ne huw] at hub
    obtain ⟨s', hs'⟩ := h.asleep u hub
    refine ⟨s', ?_⟩
    rw [hs]
    by_cases hss : s' = s
    · subst hss
      rw [update_self]
      exact (List.mem_cons.mp (hp.mem_iff.mp hs')).resolve_left huw
    · rwa [update_of_ne hss]
  · intro s' hne
    have hsub : ∀ s'', {u | Woken m s'' u} ⊆ {u | Woken m' s'' u} := by
      rintro s'' u ⟨hub, hul⟩
      have huw : u ≠ w := by
        rintro rfl
        rw [hwb] at hub
        cases hub
      exact ⟨by rw [hb, update_of_ne huw]; exact hub, by rw [hpc]; exact hul⟩
    rw [hs] at hne ⊢
    by_cases hss : s' = s
    · subst hss
      have hle := h.woken s' (List.ne_nil_of_mem hmem)
      have hnot : w ∉ {u | Woken m s' u} := by
        rintro ⟨hc, -⟩
        rw [hwb] at hc
        cases hc
      have hw : Woken m' s' w := ⟨by rw [hb, update_self], lw, by rw [hpc]; exact hwl⟩
      have hins : insert w {u | Woken m s' u} ⊆ {u | Woken m' s' u} :=
        Set.insert_subset hw (hsub s')
      rw [update_self]
      calc ((((m.sema s').value + 1).toNat : ℕ) : ℕ∞)
          ≤ (((m.sema s').value.toNat + 1 : ℕ) : ℕ∞) := by
            exact_mod_cast toNat_succ_le _
        _ ≤ {u | Woken m s' u}.encard + 1 := by
            push_cast
            exact add_le_add_left hle 1
        _ = (insert w {u | Woken m s' u}).encard := (Set.encard_insert_of_notMem hnot).symm
        _ ≤ _ := Set.encard_le_encard hins
    · rw [update_of_ne hss] at hne ⊢
      exact (h.woken s' hne).trans (Set.encard_le_encard (hsub s'))

theorem SemaInv.semaUp {v : SemaId → BitVec 32} {m m' : Sys} (h : SemaInv v m) {s : SemaId}
    (hu : m.semaUp s = .ok m') : SemaInv v m' := by
  unfold Sys.semaUp at hu
  split at hu
  · next hp =>
    rw [← Except.ok.inj hu]
    exact h.give (Semaphore.popWaiter_none hp)
  · next w rest hp =>
    split at hu
    · rw [← Except.ok.inj hu]
      exact h.wake (Semaphore.popWaiter_perm hp) rfl (Sys.blocked_setStatus _ w .ready) rfl rfl rfl
    · cases hu

/-! ## Every step, every run -/

theorem SemaInv.stmt {v : SemaId → BitVec 32} {m m' : Sys} {t : Tid} (h : SemaInv v m)
    (hb : m.blocked t = false) (hs : Stmt m t m') : SemaInv v m' := by
  cases hs with
  | acqTest hpc => exact h.quiet (.setPc (by simp [hpc]) (by intro s l; split <;> simp))
  | acqWait hpc => exact h.quiet (.of_pc rfl rfl rfl rfl rfl (by simp [hpc]) (by simp))
  | acqHolder hpc hh => exact h.quiet (.setPc (by simp [hpc]) (by simp))
  | acqInsert hpc => exact h.quiet (.of_pc rfl rfl rfl rfl rfl (by simp [hpc]) (by simp))
  | donTest hpc => exact h.quiet (.setPc (by simp [hpc]) (by intro s l; split <;> simp))
  | donRead hpc hw => exact h.quiet (.setPc (by simp [hpc]) (by simp))
  | donWrite hpc => exact h.quiet (.of_pc rfl rfl rfl rfl rfl (by simp [hpc]) (by simp))
  | acqDown hpc => exact h.semaDown hb (by simp [hpc])
  | downWait hpc =>
    refine h.semaDown hb ?_
    intro s' l' hc
    rw [hpc] at hc
    cases hc
    rfl
  | acqClear hpc => exact h.quiet (.of_pc rfl rfl rfl rfl rfl (by simp [hpc]) (by simp))
  | setHolder hpc =>
    refine h.quiet (.of_pc rfl rfl rfl rfl rfl ?_ (by simp))
    rcases hpc with hpc | hpc <;> simp [hpc]
  | relAssert hpc hh => exact h.quiet (.setPc (by simp [hpc]) (by intro s l; split <;> simp))
  | relRemove hpc => exact h.quiet (.of_pc rfl rfl rfl rfl rfl (by simp [hpc]) (by simp))
  | relPriority hpc => exact h.quiet (.of_pc rfl rfl rfl rfl rfl (by simp [hpc]) (by simp))
  | relHolder hpc => exact h.quiet (.of_pc rfl rfl rfl rfl rfl (by simp [hpc]) (by simp))
  | relUp hpc hu =>
    have hq : Quiet m (m.setPc t .user) := .setPc (by simp [hpc]) (by simp)
    exact (h.quiet hq).semaUp hu
  | setPriority hpc => exact h.quiet (.of_pc rfl rfl rfl rfl rfl (by simp [hpc]) (by simp))

theorem SemaInv.call {v : SemaId → BitVec 32} {m m' : Sys} (h : SemaInv v m) (hs : Call m m') :
    SemaInv v m' := by
  cases hs with
  | lockAcquire hpc hb =>
    exact h.quiet (.setPc (by simp [hpc]) (by intro s l; split <;> simp))
  | @lockTryAcquire t l hpc hb hh =>
    refine (h.semaTryDown (.lock l)).quiet (.setPc ?_ ?_)
    · have hpc' : (m.semaTryDown (.lock l)).1.pc t = m.pc t := by
        unfold Sys.semaTryDown
        split <;> rfl
      simp [hpc', hpc]
    · intro s l'
      split <;> simp
  | lockRelease hpc hb hh => exact h.quiet (.of_pc rfl rfl rfl rfl rfl (by simp [hpc]) (by simp))
  | semaDown hpc hb => exact h.semaDown hb (by simp [hpc])
  | semaTryDown => exact h.semaTryDown _
  | semaUp hu => exact h.semaUp hu
  | setPriorityMlfqs => exact h
  | setPriority hpc => exact h.quiet (.of_pc rfl rfl rfl rfl rfl (by simp [hpc]) (by simp))
  | tear hb hpc => exact h.quiet ⟨rfl, rfl, rfl, rfl, fun _ _ _ => Iff.rfl⟩

theorem SemaInv.of_step {v : SemaId → BitVec 32} {m m' : Sys} {a : Action} (h : SemaInv v m)
    (hs : step m a = .ok m') : SemaInv v m' := by
  rcases step_cases hs with ⟨t, -, hb, hstmt⟩ | hcall
  · exact h.stmt hb hstmt
  · exact h.call hcall

/-- The value `boot` gives a semaphore: 1 inside a lock. -/
def initialValue (value : Nat → BitVec 32) : SemaId → BitVec 32
  | .plain n => value n
  | .lock _ => 1

theorem SemaInv.of_boot (mlfqs : Bool) (value : Nat → BitVec 32) (priority : Tid → Int) :
    SemaInv (initialValue value) (boot mlfqs value priority) where
  count s := by
    refine ⟨(initialValue value s).toNat, (Nat.zero_add _).symm, ?_⟩
    rw [BitVec.ofNat_toNat, BitVec.setWidth_eq]
    cases s <;> rfl
  nodup s := by cases s <;> exact List.nodup_nil
  waiter s t ht := by cases s <;> cases ht
  asleep t ht := by cases ht
  woken s hs := by cases s <;> exact absurd rfl hs

variable {mlfqs : Bool} {value : Nat → BitVec 32} {priority : Tid → Int} {m : Sys}

theorem SemaInv.reach (h : Reach step Always (boot mlfqs value priority) m) :
    SemaInv (initialValue value) m :=
  h.invariant (.of_boot mlfqs value priority) (fun _ _ _ hi _ hs => hi.of_step hs)

/--
**Conservation and no lost wake-up.** The downs never exceed the initial value plus the ups; the
value is the difference, kept in the 32 bits of `unsigned`, so it is exact as long as the
difference fits; and while a thread sleeps on the semaphore there are at most as many permits as
threads already woken for them.
-/
theorem semaphore_conservation (h : Reach step Always (boot mlfqs value priority) m)
    (s : SemaId) :
    m.downs s ≤ (initialValue value s).toNat + m.ups s ∧
    (m.sema s).value.toNat =
      ((initialValue value s).toNat + m.ups s - m.downs s) % 2 ^ 32 ∧
    ((m.sema s).waiters ≠ [] →
      ((m.sema s).value.toNat : ℕ∞) ≤ {t | Woken m s t}.encard) := by
  have hinv := SemaInv.reach h
  obtain ⟨c, hc, hv⟩ := hinv.count s
  refine ⟨by omega, ?_, hinv.woken s⟩
  rw [hv, BitVec.toNat_ofNat, hc, Nat.add_sub_cancel_left]

/-- Threads 1 and 2 sleep and one is woken: the other still waits, with one permit free. -/
theorem semaphore_conservation_two_sleepers : ∃ m : Sys,
    (m.sema (.plain 0)).waiters = [2] ∧ (m.sema (.plain 0)).value = 1 ∧
    m.downs (.plain 0) ≤ 0 + m.ups (.plain 0) ∧
    ((m.sema (.plain 0)).value.toNat : ℕ∞) ≤ {t | Woken m (.plain 0) t}.encard := by
  have h : Reach step Always (boot false (fun _ => 0) (fun _ => 31)) _ :=
    reach_of_exec [.semaDown 1 0, .semaDown 2 0, .semaUp 3 0] rfl
  have hc := semaphore_conservation h (.plain 0)
  exact ⟨_, rfl, rfl, hc.1, hc.2.2 (by decide)⟩

/-- A semaphore at `UINT_MAX` loses its count: one `sema_up` makes the value 0. -/
theorem semaphore_count_wraps :
    ∃ m, Reach step Always (boot false (fun _ => 4294967295) (fun _ => 31)) m ∧
      (m.sema (.plain 0)).value.toNat ≠
        (4294967295 : BitVec 32).toNat + m.ups (.plain 0) - m.downs (.plain 0) :=
  ⟨_, reach_of_exec [.semaUp 1 0] rfl, by decide⟩

end Pintos.Interleave
