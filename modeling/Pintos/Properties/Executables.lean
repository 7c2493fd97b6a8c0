import Pintos.Properties.ProcessFiles

/-!
# Executables that run are write-protected

A process that runs a program has it open with writes denied, and a child that was forked relies on the
file of its parent.

* `Guards` — who denies writes
* `executables_protected` — writes to a file are denied exactly while a process runs it
* `executables_unprotected` — a file that nobody runs any more
-/

namespace Pintos

open Function Machine Relation

/-- Writes are denied for the file. -/
def Vm.Denies (s : Vm) (f : FilePtr) (sector : Nat) : Prop := s.fs.handle f = some (sector, true)

section

variable {R : Option FilePtr → Prop} {M : Prop} {live : Tid → Prop} {t u : Tid} {s s' : Vm} {f g : FilePtr}
  {sector : Nat}

/-- A file that is new or was of a descriptor makes no difference. -/
theorem denies_update {x : Option (Nat × Bool)} (hh : s'.fs.handle = update s.fs.handle g x)
    (hg : ∀ sector, ¬ s.Denies g sector) (hx : ∀ sector, x ≠ some (sector, true)) :
    s'.Denies f sector ↔ s.Denies f sector := by
  unfold Vm.Denies at *
  rw [hh]
  by_cases hf : f = g
  · subst hf
    rw [update_self]
    exact ⟨fun h => absurd h (hx sector), fun h => absurd h (hg sector)⟩
  · rw [update_of_ne hf]

/-- Only the step that runs a program denies writes. -/
theorem denies_step (h : FilesOk live s) (ht : live t) (hs : FileStep R M t s s') :
    ((∀ f sector, s'.Denies f sector ↔ s.Denies f sector) ∧ s'.runnFile = s.runnFile) ∨
      (R (s.runnFile t) ∧ ∃ g new, s'.runnFile = update s.runnFile t (some g) ∧
        ∀ f sector, s'.Denies f sector ↔ s.Denies f sector ∨ (f = g ∧ sector = new)) := by
  have hfree : ∀ {g}, s.fs.handle g = none → ∀ sector, ¬ s.Denies g sector := by
    intro g hg sector hd
    unfold Vm.Denies at hd
    rw [hg] at hd
    cases hd
  cases hs with
  | pages hs =>
    refine .inl ⟨fun f sector => ?_, hs.runnFile⟩
    unfold Vm.Denies
    rw [(h.remaps ht hs).2]
  | same _ hh _ hrunn =>
    refine .inl ⟨fun f sector => ?_, hrunn⟩
    unfold Vm.Denies
    rw [hh]
  | opens _ hg _ _ _ hh _ hrunn => exact .inl ⟨fun _ _ => denies_update hh (hfree hg) nofun, hrunn⟩
  | @closes n f _ hentry hh _ hrunn =>
    refine .inl ⟨fun _ _ => denies_update hh (fun sector hd => ?_) nofun, hrunn⟩
    obtain ⟨-, -, sector', hfd⟩ := h.fd t n f hentry
    rw [Vm.Denies, hfd] at hd
    cases hd
  | maps _ _ hg hh _ hrunn => exact .inl ⟨fun _ _ => denies_update hh (hfree hg) nofun, hrunn⟩
  | @runs new g _ hR hg hh _ hrunn =>
    refine .inr ⟨hR, g, new, hrunn, fun f sector => ?_⟩
    unfold Vm.Denies
    rw [hh]
    by_cases hf : f = g
    · subst hf
      rw [update_self, hg]
      simp [eq_comm]
    · rw [update_of_ne hf]
      simp [hf]

/-- Steps that run no program change no file that denies writes. -/
theorem denies_steps (h : FilesOk live s) (ht : live t) (hs : FileSteps R M t s s') (hR : ¬ R (s.runnFile t)) :
    (∀ f sector, s'.Denies f sector ↔ s.Denies f sector) ∧ s'.runnFile = s.runnFile := by
  induction hs with
  | refl => exact ⟨fun _ _ => .rfl, rfl⟩
  | tail hs hstep ih =>
    obtain ⟨hd, hrunn⟩ := ih
    rcases denies_step (h.steps ht hs) ht hstep with ⟨hd', hrunn'⟩ | ⟨hR', -⟩
    · exact ⟨fun f sector => (hd' f sector).trans (hd f sector), hrunn'.trans hrunn⟩
    · rw [hrunn] at hR'
      exact absurd hR' hR

/-- The steps of a process that runs its first program. -/
theorem denies_exec (h : FilesOk live s) (ht : live t) (hs : FileSteps R M t s s') (hnone : s.runnFile t = none)
    (hR : ∀ old, R old → old = none) (hruns : s'.Runs t) :
    ∃ g new, s'.runnFile = update s.runnFile t (some g) ∧
      ∀ f sector, s'.Denies f sector ↔ s.Denies f sector ∨ (f = g ∧ sector = new) := by
  have hcases : ((∀ f sector, s'.Denies f sector ↔ s.Denies f sector) ∧ s'.runnFile = s.runnFile) ∨
      ∃ g new, s'.runnFile = update s.runnFile t (some g) ∧
        ∀ f sector, s'.Denies f sector ↔ s.Denies f sector ∨ (f = g ∧ sector = new) := by
    clear hruns
    induction hs with
    | refl => exact .inl ⟨fun _ _ => .rfl, rfl⟩
    | tail hs hstep ih =>
      rcases denies_step (h.steps ht hs) ht hstep with ⟨hd', hrunn'⟩ | ⟨hR', g, new, hrunn', hd'⟩
      · rcases ih with ⟨hd, hrunn⟩ | ⟨g, new, hrunn, hd⟩
        · exact .inl ⟨fun f sector => (hd' f sector).trans (hd f sector), hrunn'.trans hrunn⟩
        · exact .inr ⟨g, new, hrunn'.trans hrunn, fun f sector => (hd' f sector).trans (hd f sector)⟩
      · rcases ih with ⟨hd, hrunn⟩ | ⟨g, new, hrunn, hd⟩
        · refine .inr ⟨g, new, by rw [hrunn', hrunn], fun f sector => ?_⟩
          rw [hd' f sector, hd f sector]
        · have hold := hR _ hR'
          rw [hrunn, update_self] at hold
          cases hold
  rcases hcases with ⟨-, hrunn⟩ | hcase
  · obtain ⟨f, sector, hf, -⟩ := hruns
    rw [hrunn, hnone] at hf
    cases hf
  · exact hcase

theorem Exited.denies (hs : Exited t s s') :
    s'.Denies f sector ↔ s.Denies f sector ∧ s.runnFile t ≠ some f := by
  unfold Vm.Denies
  rw [hs.handle]
  dsimp only
  split
  · next hf => simp [hf]
  · next hf => simp [hf]

end

namespace Procs

/-- Files deny writes exactly for what processes run. -/
structure Guards (s : Procs) : Prop where
  runner : ∀ f sector, s.vm.Denies f sector → ∃ u, s.Live u ∧ s.vm.runnFile u = some f
  image : ∀ u f sector, s.Live u → s.vm.runnFile u = some f → s.vm.Denies f sector → s.image u = some sector
  covered : ∀ u sector, s.Live u → s.image u = some sector →
    ∃ v f, s.Live v ∧ s.vm.runnFile v = some f ∧ s.vm.Denies f sector

/-- Programs are loaded, by processes that have no `runn_file`. A process whose program another one runs, too,
exits only where another one has a `runn_file` for it. -/
def Guarded (s : Procs) : ProcAction → Prop
  | .call t (.exec name phdrs) =>
    s.vm.runnFile t = none ∧ ∃ vm, outcome (processExec t name phdrs) s.vm = .ok (true, vm)
  | .exit t => ∀ f sector, s.vm.runnFile t = some f → s.vm.Denies f sector →
      (∃ u, u ≠ t ∧ s.Live u ∧ s.image u = some sector) →
      ∃ u g, u ≠ t ∧ s.Live u ∧ s.vm.runnFile u = some g ∧ s.vm.Denies g sector
  | _ => True

variable {s s' : Procs} {a : ProcAction} {t : Tid} {vm : Vm} {failed : Tid → Bool} {owner : FilePtr → Option Tid}

/-- Neither the files that deny writes change nor who runs what. -/
theorem Guards.congr (h : s.Guards) (hd : ∀ f sector, vm.Denies f sector ↔ s.vm.Denies f sector)
    (hrunn : vm.runnFile = s.vm.runnFile) : Guards { s with vm := vm, failed := failed, owner := owner } := by
  constructor
  · intro f sector hf
    dsimp only
    rw [hrunn]
    exact h.runner f sector ((hd f sector).mp hf)
  · intro u f sector hu hf hf'
    dsimp only at hf
    rw [hrunn] at hf
    exact h.image u f sector hu hf ((hd f sector).mp hf')
  · intro u sector hu hi
    obtain ⟨v, f, hv, hf, hf'⟩ := h.covered u sector hu hi
    refine ⟨v, f, hv, ?_, (hd f sector).mpr hf'⟩
    dsimp only
    rw [hrunn, hf]

/-- A new process has no `runn_file`. It runs what another one runs, if anything. -/
theorem Guards.newProcess {image : Option Nat} (h : s.Guards) (hdead : s.live t = false)
    (hd : ∀ f sector, vm.Denies f sector ↔ s.vm.Denies f sector)
    (hrunn : vm.runnFile = update s.vm.runnFile t none)
    (himage : ∀ sector, image = some sector → ∃ u, s.Live u ∧ s.image u = some sector) :
    Guards { vm := vm, live := update s.live t true, failed := failed, image := update s.image t image,
             owner := owner } := by
  have hne : ∀ {u}, s.Live u → u ≠ t := by
    rintro u hu rfl
    exact Bool.false_ne_true (hdead.symm.trans hu)
  have hold : ∀ {u}, s.Live u → vm.runnFile u = s.vm.runnFile u ∧ update s.image t image u = s.image u ∧
      update s.live t true u = true := fun hu =>
    ⟨by rw [hrunn, update_of_ne (hne hu)], update_of_ne (hne hu) _ _, by rw [update_of_ne (hne hu)]; exact hu⟩
  constructor
  · intro f sector hf
    obtain ⟨u, hu, hf⟩ := h.runner f sector ((hd f sector).mp hf)
    exact ⟨u, (hold hu).2.2, (hold hu).1.trans hf⟩
  · intro u f sector hu hf hf'
    rcases live_update.mp hu with ⟨rfl, -⟩ | ⟨-, hu⟩
    · dsimp only at hf
      rw [hrunn, update_self] at hf
      cases hf
    · rw [(hold hu).1] at hf
      exact (hold hu).2.1.trans (h.image u f sector hu hf ((hd f sector).mp hf'))
  · intro u sector hu hi
    have hrun : ∃ u, s.Live u ∧ s.image u = some sector := by
      dsimp only at hi
      rcases live_update.mp hu with ⟨rfl, -⟩ | ⟨-, hu⟩
      · rw [update_self] at hi
        exact himage sector hi
      · exact ⟨u, hu, (hold hu).2.1.symm.trans hi⟩
    obtain ⟨w, hw, hwi⟩ := hrun
    obtain ⟨v, f, hv, hf, hf'⟩ := h.covered w sector hw hwi
    exact ⟨v, f, (hold hv).2.2, (hold hv).1.trans hf, (hd f sector).mpr hf'⟩

/-- A process runs its first program. -/
theorem Guards.exec {g : FilePtr} {new : Nat} (h : s.Guards) (hok : FilesOk s.Live vm) (ht : s.Live t) (hnone : s.vm.runnFile t = none)
    (hrunn : vm.runnFile = update s.vm.runnFile t (some g))
    (hd : ∀ f sector, vm.Denies f sector ↔ s.vm.Denies f sector ∨ (f = g ∧ sector = new)) :
    Guards { s with vm := vm, failed := failed, image := update s.image t (imageOf vm t), owner := owner } := by
  have hg : vm.Denies g new := (hd g new).mpr (.inr ⟨rfl, rfl⟩)
  have himage : imageOf vm t = some new := by
    unfold imageOf
    rw [hrunn, update_self]
    dsimp only
    unfold Vm.Denies at hg
    rw [hg, Option.map_some]
  have hne : ∀ {u f}, s.vm.runnFile u = some f → u ≠ t := by
    rintro u f hf rfl
    rw [hnone] at hf
    cases hf
  constructor
  · intro f sector hf
    rcases (hd f sector).mp hf with hf | ⟨rfl, -⟩
    · obtain ⟨u, hu, hf⟩ := h.runner f sector hf
      refine ⟨u, hu, ?_⟩
      dsimp only
      rw [hrunn, update_of_ne (hne hf), hf]
    · refine ⟨t, ht, ?_⟩
      dsimp only
      rw [hrunn, update_self]
  · intro u f sector hu hf hf'
    dsimp only at hf ⊢
    by_cases hut : u = t
    · subst hut
      rw [hrunn, update_self] at hf
      cases hf
      have hf' : vm.fs.handle g = some (sector, true) := hf'
      rw [Vm.Denies, hf'] at hg
      cases hg
      rw [update_self, himage]
    · rw [hrunn, update_of_ne hut] at hf
      rw [update_of_ne hut]
      rcases (hd f sector).mp hf' with hf' | ⟨rfl, rfl⟩
      · exact h.image u f sector hu hf hf'
      · exact absurd (hok.runnInj u t f hu ht (by rw [hrunn, update_of_ne hut, hf]) (by rw [hrunn, update_self])) hut
  · intro u sector hu hi
    dsimp only at hi ⊢
    by_cases hut : u = t
    · subst hut
      rw [update_self, himage] at hi
      cases hi
      exact ⟨u, g, ht, by rw [hrunn, update_self], hg⟩
    · rw [update_of_ne hut] at hi
      obtain ⟨v, f, hv, hf, hf'⟩ := h.covered u sector hu hi
      exact ⟨v, f, hv, by rw [hrunn, update_of_ne (hne hf), hf], (hd f sector).mpr (.inl hf')⟩

/-- A process exits. -/
theorem Guards.exit {s₁ : Vm} (h : s.Guards) (hok : FilesOk s.Live s₁) (ht : s.Live t) (hc : s.Guarded (.exit t))
    (hd : ∀ f sector, s₁.Denies f sector ↔ s.vm.Denies f sector) (hrunn : s₁.runnFile = s.vm.runnFile)
    (hexit : Exited t s₁ vm) :
    Guards { s with
      vm := vm, live := update s.live t false, failed := failed, image := update s.image t none, owner := owner } := by
  have hinj : ∀ {u f}, s.Live u → u ≠ t → s.vm.runnFile u = some f → s₁.runnFile t ≠ some f := by
    intro u f hu hut hf hf'
    exact hut (hok.runnInj u t f hu ht (by rw [hrunn, hf]) hf')
  have hlive : ∀ {u}, update s.live t false u = true ↔ u ≠ t ∧ s.Live u := by
    intro u
    rw [live_update]
    simp [Live]
  have hrunn' : vm.runnFile = s.vm.runnFile := hexit.runn.trans hrunn
  have hdeny : ∀ f sector, vm.Denies f sector ↔ s.vm.Denies f sector ∧ s₁.runnFile t ≠ some f := fun f sector => by
    rw [hexit.denies, hd]
  constructor
  · intro f sector hf
    obtain ⟨hf, hne⟩ := (hdeny f sector).mp hf
    obtain ⟨u, hu, hfu⟩ := h.runner f sector hf
    have hut : u ≠ t := by
      rintro rfl
      exact hne (by rw [hrunn, hfu])
    exact ⟨u, hlive.mpr ⟨hut, hu⟩, by dsimp only; rw [hrunn', hfu]⟩
  · intro u f sector hu hf hf'
    obtain ⟨hut, hu⟩ := hlive.mp hu
    dsimp only at hf ⊢
    rw [hrunn'] at hf
    rw [update_of_ne hut]
    exact h.image u f sector hu hf ((hdeny f sector).mp hf').1
  · intro u sector hu' hi
    obtain ⟨hut, hu⟩ := hlive.mp hu'
    dsimp only at hi
    rw [update_of_ne hut] at hi
    obtain ⟨v, f, hv, hf, hf'⟩ := h.covered u sector hu hi
    -- the file of another process is still there
    have hother : ∃ v f, v ≠ t ∧ s.Live v ∧ s.vm.runnFile v = some f ∧ s.vm.Denies f sector := by
      by_cases hvt : v = t
      · subst hvt
        exact hc f sector hf hf' ⟨u, hut, hu, hi⟩
      · exact ⟨v, f, hvt, hv, hf, hf'⟩
    obtain ⟨w, g, hwt, hw, hg, hg'⟩ := hother
    exact ⟨w, g, hlive.mpr ⟨hwt, hw⟩, by dsimp only; rw [hrunn', hg], (hdeny g sector).mpr ⟨hg', hinj hw hwt hg⟩⟩

/-- A call that runs no program. -/
theorem runs_eq {c : ProcCall} {ok : Bool} (hc : ∀ name phdrs, c ≠ .exec name phdrs) : s.runs t vm ok c = s.image := by
  cases c with
  | exec name phdrs => exact absurd rfl (hc name phdrs)
  | _ => rfl

theorem replaces_not {c : ProcCall} {old : Option FilePtr} (hc : ∀ name phdrs, c ≠ .exec name phdrs) :
    ¬ replaces s.vm t c old := by
  cases c with
  | exec name phdrs => exact absurd rfl (hc name phdrs)
  | _ => exact id

theorem guards_step (hok : FilesOk s.Live s.vm) (h : s.Guards) (hc : s.Guarded a) (hs : s.step a = .ok s') :
    s'.Guards := by
  obtain ⟨t, -, hl, rfl⟩ | ⟨t, c, ok, vm, rfl, hl, ho, rfl⟩ | ⟨t, child, ok, vm, -, hl, hchild, ho, rfl⟩ |
    ⟨t, ok, vm, rfl, hl, ho, rfl⟩ := step_cases hs
  · exact h.newProcess hl (fun _ _ => .rfl) rfl nofun
  · by_cases hexec : ∀ name phdrs, c ≠ .exec name phdrs
    · obtain ⟨hd, hrunn⟩ := denies_steps hok hl (steps_call hok hl ho) (replaces_not hexec)
      rw [runs_eq hexec]
      exact h.congr hd hrunn
    · push Not at hexec
      obtain ⟨name, phdrs, rfl⟩ := hexec
      obtain ⟨hnone, vm', ho'⟩ := hc
      have ho : outcome (processExec t name phdrs) s.vm = .ok (ok, vm) := ho
      rw [ho] at ho'
      cases ho'
      have hsteps := steps_call (c := .exec name phdrs) hok hl ho
      obtain ⟨g, new, hrunn, hd⟩ := denies_exec hok hl hsteps hnone (fun old hold => hold.1.trans hnone)
        (runs_exec hok hl ho)
      exact h.exec (hok.steps hl hsteps) hl hnone hrunn hd
  · have hdead : ¬ s.Live child := by simp [Live, hchild]
    have hne : t ≠ child := by
      rintro rfl
      exact hdead hl
    obtain ⟨hd, hrunn⟩ := denies_steps (hok.newProcess hdead) (.inr rfl) (steps_fork hok hdead hne ho) id
    refine h.newProcess hchild hd hrunn fun sector hi => ?_
    split at hi
    · exact ⟨t, hl, hi⟩
    · cases hi
  · rcases steps_exit hok hl ho with ⟨rfl, s₁, hs₁, hexit⟩ | ⟨rfl, hs₁⟩
    · obtain ⟨hd, hrunn⟩ := denies_steps hok hl hs₁ id
      exact h.exit (hok.steps hl hs₁) hl hc hd hrunn hexit
    · obtain ⟨hd, hrunn⟩ := denies_steps hok hl hs₁ id
      have hlive : update s.live t (!false) = s.live := by
        rw [Bool.not_false, ← hl, update_eq_self]
      rw [hlive]
      exact h.congr hd hrunn

theorem Start.guards (h : s.Start) : s.Guards := by
  have hdead : ∀ t, ¬ s.Live t := fun t hl => Bool.false_ne_true ((h.live t).symm.trans hl)
  exact ⟨fun f sector hf => absurd hf (h.denies f sector), fun u _ _ hu => absurd hu (hdead u),
    fun u _ hu => absurd hu (hdead u)⟩

/-- **Writes to a file are denied exactly while a process runs it**, in runs that meet the condition. -/
theorem executables_protected {sector : Nat} (h₀ : s.Start) (h : Reach step Guarded s s') :
    s'.vm.fs.Denied sector ↔ ∃ t, s'.Live t ∧ s'.image t = some sector := by
  have hguards : s'.Guards := h.invariant_of (fun _ hr => filesOk_of_reach h₀ hr) h₀.guards
    fun _ _ _ hok hg hc hs => guards_step hok hg hc hs
  rw [denied_iff (filesOk_of_reach h₀ h).counted]
  constructor
  · rintro ⟨f, hf⟩
    obtain ⟨u, hu, hrunn⟩ := hguards.runner f sector hf
    exact ⟨u, hu, hguards.image u f sector hu hrunn hf⟩
  · rintro ⟨t, ht, hi⟩
    obtain ⟨v, f, -, -, hf⟩ := hguards.covered t sector ht hi
    exact ⟨f, hf⟩

/-- Programs are loaded. -/
def Loads (s : Procs) : ProcAction → Prop
  | .call t (.exec name phdrs) => ∃ vm, outcome (processExec t name phdrs) s.vm = .ok (true, vm)
  | _ => True

/-- A process runs `a`. -/
theorem executables_protected_one : ∃ s, Reach step Guarded boot s ∧
    (s.vm.fs.Denied 3 ↔ ∃ t, s.Live t ∧ s.image t = some 3) := by
  have h : ∃ s₁ s₂, boot.step (.start 1) = .ok s₁ ∧ s₁.step (.call 1 (execA [])) = .ok s₂ ∧
      s₁.vm.runnFile 1 = none ∧ ∃ vm, outcome ((execA []).prog 1) s₁.vm = .ok (true, vm) :=
    ⟨_, _, by rfl, by rfl, by rfl, _, by rfl⟩
  obtain ⟨s₁, s₂, h₁, h₂, hnone, hload⟩ := h
  have hreach : Reach step Guarded boot s₂ :=
    .tail (a := .call 1 (execA [])) (.tail (a := .start 1) .refl trivial h₁) ⟨hnone, hload⟩ h₂
  exact ⟨s₂, hreach, executables_protected boot_start hreach⟩

/-- **A process that runs `a` and then `b` leaves `a` protected.** -/
theorem executables_unprotected : ∃ s, Reach step Loads boot s ∧
    ¬ ∀ sector, s.vm.fs.Denied sector ↔ ∃ t, s.Live t ∧ s.image t = some sector := by
  have h : ∃ s₁ s₂ s₃, boot.step (.start 1) = .ok s₁ ∧ s₁.step (.call 1 (execA [])) = .ok s₂ ∧
      s₂.step (.call 1 execB) = .ok s₃ ∧ (∃ vm, outcome ((execA []).prog 1) s₁.vm = .ok (true, vm)) ∧
      (∃ vm, outcome (execB.prog 1) s₂.vm = .ok (true, vm)) ∧
      s₃.live = update (fun _ => false) 1 true ∧ s₃.image 1 = some 4 ∧ s₃.vm.Denies 2 3 :=
    ⟨_, _, _, by rfl, by rfl, by rfl, ⟨_, by rfl⟩, ⟨_, by rfl⟩, by rfl, by rfl, by rfl⟩
  obtain ⟨s₁, s₂, s₃, h₁, h₂, h₃, hload, hload', hlive, himage, hdeny⟩ := h
  have hreach : Reach step Loads boot s₃ := .tail (a := .call 1 execB)
    (.tail (a := .call 1 (execA [])) (.tail (a := .start 1) .refl trivial h₁) hload h₂) hload' h₃
  refine ⟨s₃, hreach, fun hall => ?_⟩
  obtain ⟨t, ht, hi⟩ := (hall 3).mp ((denied_iff (filesOk_of_reach boot_start hreach).counted).mpr ⟨2, hdeny⟩)
  unfold Live at ht
  rw [hlive] at ht
  rcases live_update.mp ht with ⟨rfl, -⟩ | ⟨-, hc⟩
  · rw [himage] at hi
    cases hi
  · cases hc

end Procs

end Pintos
