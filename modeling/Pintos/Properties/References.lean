import Pintos.Properties.ProcessFiles

/-!
# A process gives back its files

Every file that was opened for a process is in its table or is its `runn_file`, as long as it replaces no
`runn_file` and maps no file; `process_exit` closes those.

* `Holds`, `Held` — a process has all the files that were opened for it
* `references_given_back` — none of them is open after it is gone
* `references_kept` — a file that stays open
-/

namespace Pintos

open Function Machine Relation

/-- The process has the file. -/
def Vm.Holds (s : Vm) (t : Tid) (f : FilePtr) : Prop := (∃ n, s.fdt t n = some f) ∨ s.runnFile t = some f

/-- The process has those files of `W` that are open. -/
def Vm.HoldsAll (s : Vm) (t : Tid) (W : FilePtr → Prop) : Prop := ∀ f, s.fs.handle f ≠ none → W f → s.Holds t f

section

variable {R : Option FilePtr → Prop} {M : Prop} {live : Tid → Prop} {W : FilePtr → Prop} {t u : Tid} {s s' : Vm}
  {f g : FilePtr} {n : Nat}

theorem handle_update_ne {x : Option (Nat × Bool)} (hh : s'.fs.handle = update s.fs.handle g x) (hf : f ≠ g) :
    s'.fs.handle f = s.fs.handle f := by rw [hh, update_of_ne hf]

/-- An entry that is neither set nor cleared. -/
theorem Vm.Holds.setFdt {x : Option FilePtr} (h : s.Holds t f) (hfdt : s'.fdt = update s.fdt u (update (s.fdt u) n x))
    (hrunn : s'.runnFile = s.runnFile) (hn : t = u → s.fdt u n ≠ some f) : s'.Holds t f := by
  rcases h with ⟨m, hm⟩ | hr
  · refine .inl ⟨m, ?_⟩
    rw [hfdt]
    by_cases htu : t = u
    · subst htu
      have hmn : m ≠ n := by
        rintro rfl
        exact hn rfl hm
      rw [update_self, update_of_ne hmn, hm]
    · rw [update_of_ne htu, hm]
  · exact .inr (by rw [hrunn, hr])

theorem Vm.Holds.congr (h : s.Holds t f) (hfdt : s'.fdt = s.fdt) (hrunn : s'.runnFile = s.runnFile) : s'.Holds t f := by
  unfold Vm.Holds
  rwa [hfdt, hrunn]

/-- A step of the process itself. -/
theorem Vm.HoldsAll.step (h : s.HoldsAll t W) (hok : FilesOk live s) (ht : live t) (hs : FileStep R M t s s')
    (hR : ∀ old, R old → old = none) (hM : ¬ M) : s'.HoldsAll t W := by
  intro f hf hW
  cases hs with
  | pages hs =>
    rw [(hok.remaps ht hs).2] at hf
    exact (h f hf hW).congr hs.fdt hs.runnFile
  | same _ hh hfdt hrunn =>
    rw [hh] at hf
    exact (h f hf hW).congr hfdt hrunn
  | @opens n sector g _ _ hentry _ _ hh hfdt hrunn =>
    by_cases hfg : f = g
    · refine .inl ⟨n, ?_⟩
      rw [hfdt, update_self, update_self, hfg]
    · rw [handle_update_ne hh hfg] at hf
      refine (h f hf hW).setFdt hfdt hrunn fun _ => ?_
      rw [hentry]
      exact nofun
  | @closes n f' _ hentry hh hfdt hrunn =>
    by_cases hff : f = f'
    · rw [hff, hh, update_self] at hf
      exact absurd rfl hf
    · rw [handle_update_ne hh hff] at hf
      refine (h f hf hW).setFdt hfdt hrunn fun _ => ?_
      rw [hentry]
      exact fun hc => hff (Option.some.inj hc).symm
  | @runs sector g _ hold _ hh hfdt hrunn =>
    by_cases hfg : f = g
    · exact .inr (by rw [hrunn, update_self, hfg])
    · rw [handle_update_ne hh hfg] at hf
      rcases h f hf hW with ⟨m, hm⟩ | hr
      · exact .inl ⟨m, by rw [hfdt, hm]⟩
      · rw [hR _ hold] at hr
        cases hr
  | maps _ hm => exact absurd hm hM

theorem Vm.HoldsAll.steps (h : s.HoldsAll t W) (hok : FilesOk live s) (ht : live t) (hs : FileSteps R M t s s')
    (hR : ∀ old, R old → old = none) (hM : ¬ M) : s'.HoldsAll t W := by
  induction hs with
  | refl => exact h
  | tail hs hstep ih => exact ih.step (hok.steps ht hs) ht hstep hR hM

/-- A step of another process closes no file of this one. -/
theorem Vm.HoldsAll.other (h : s.HoldsAll t W) (hok : FilesOk live s) (hW : ∀ f, W f → s.fs.handle f ≠ none ∧ live t)
    (hu : live u) (hut : u ≠ t) (hs : FileStep R M u s s') :
    s'.HoldsAll t W ∧ ∀ f, W f → s'.fs.handle f ≠ none := by
  -- a file that is not open is not of this process, and one that is closed is of the other
  have hnew : ∀ {g}, s.fs.handle g = none → ¬ W g := fun hg hw => (hW _ hw).1 hg
  have hkeep : ∀ {g x}, s'.fs.handle = update s.fs.handle g x → ¬ W g → ∀ f, W f →
      s'.fs.handle f = s.fs.handle f := by
    intro g x hh hg f hf
    refine handle_update_ne hh ?_
    rintro rfl
    exact hg hf
  have hsame : (∀ f, W f → s'.fs.handle f = s.fs.handle f) → (∀ f, s.Holds t f → W f → s'.Holds t f) →
      s'.HoldsAll t W ∧ ∀ f, W f → s'.fs.handle f ≠ none := by
    intro hh hholds
    have hopen : ∀ f, W f → s'.fs.handle f ≠ none := fun f hf => by
      rw [hh f hf]
      exact (hW f hf).1
    exact ⟨fun f hf hw => hholds f (h f (hW f hw).1 hw) hw, hopen⟩
  cases hs with
  | pages hs =>
    exact hsame (fun f _ => by rw [(hok.remaps hu hs).2]) fun f hf _ => hf.congr hs.fdt hs.runnFile
  | same _ hh hfdt hrunn => exact hsame (fun f _ => by rw [hh]) fun f hf _ => hf.congr hfdt hrunn
  | opens _ hg _ _ _ hh hfdt hrunn =>
    exact hsame (hkeep hh (hnew hg)) fun f hf _ => hf.setFdt hfdt hrunn fun htu => absurd htu.symm hut
  | @closes n f' _ hentry hh hfdt hrunn =>
    have hnot : ¬ W f' := by
      intro hw
      obtain ⟨hopen, ht⟩ := hW f' hw
      obtain ⟨-, -, sector, hfd⟩ := hok.fd u n f' hentry
      rcases h f' hopen hw with ⟨m, hm⟩ | hr
      · exact hut (hok.fdInj u n t m f' hentry hm).1
      · obtain ⟨sector', hrun⟩ := hok.runn t ht f' hr
        rw [hfd] at hrun
        cases hrun
    exact hsame (hkeep hh hnot) fun f hf _ => hf.setFdt hfdt hrunn fun htu => absurd htu.symm hut
  | @runs sector g _ _ hg hh hfdt hrunn =>
    refine hsame (hkeep hh (hnew hg)) fun f hf _ => ?_
    rcases hf with ⟨m, hm⟩ | hr
    · exact .inl ⟨m, by rw [hfdt, hm]⟩
    · exact .inr (by rw [hrunn, update_of_ne hut.symm, hr])
  | maps _ _ hg hh hfdt hrunn => exact hsame (hkeep hh (hnew hg)) fun f hf _ => hf.congr hfdt hrunn

theorem Vm.HoldsAll.others (h : s.HoldsAll t W) (hok : FilesOk live s) (hW : ∀ f, W f → s.fs.handle f ≠ none ∧ live t)
    (hu : live u) (hut : u ≠ t) (hs : FileSteps R M u s s') :
    s'.HoldsAll t W ∧ ∀ f, W f → s'.fs.handle f ≠ none := by
  induction hs with
  | refl => exact ⟨h, fun f hf => (hW f hf).1⟩
  | tail hs hstep ih => exact ih.1.other (hok.steps hu hs) (fun f hf => ⟨ih.2 f hf, (hW f hf).2⟩) hu hut hstep

end

namespace Procs

/-- The process has all the open files that were opened for it. -/
def Held (t : Tid) (s : Procs) : Prop :=
  ∀ f, s.vm.fs.handle f ≠ none → s.owner f = some t → s.Live t ∧ s.vm.Holds t f

/-- The process runs a program only where it has no `runn_file`, and maps no file. -/
def GivesBack (t : Tid) (s : Procs) : ProcAction → Prop
  | .call u (.exec name _) => u = t → s.vm.runnFile t = none ∨ ¬ s.vm.FindsImage t name
  | .call u (.mmap addr length _ fd offset) => u = t → ¬ s.vm.Reopens t addr length fd offset
  | _ => True

section

variable {s s' : Procs} {a : ProcAction} {t u : Tid} {vm : Vm} {f : FilePtr}

/-- The file is of the process, after steps of `u`. -/
def Of (s : Procs) (u t : Tid) (f : FilePtr) : Prop :=
  (s.vm.fs.handle f = none ∧ u = t) ∨ (s.vm.fs.handle f ≠ none ∧ s.owner f = some t)

theorem of_own (h : s.own u vm f = some t) (hok : s.vm.fs.Counted) (hok' : vm.fs.Counted)
    (hf : vm.fs.handle f ≠ none) : s.Of u t f := by
  obtain ⟨live, hc⟩ := hok
  obtain ⟨live', hc'⟩ := hok'
  have hf' := hc'.handle_ne.mp hf
  unfold own at h
  cases hs : s.vm.fs.files f with
  | none =>
    obtain ⟨file, hfile⟩ := Option.ne_none_iff_exists'.mp hf'
    rw [hs, hfile] at h
    refine .inl ⟨?_, Option.some.inj h⟩
    by_contra hne
    exact hc.handle_ne.mp hne hs
  | some file =>
    rw [hs] at h
    exact .inr ⟨hc.handle_ne.mpr (by rw [hs]; exact nofun), h⟩

/-- What the process has after steps of any process. -/
theorem Held.steps {R : Option FilePtr → Prop} {M : Prop} {s₁ : Vm} {live : Tid → Prop} (h : Held t s)
    (hok : FilesOk live s₁) (hu : live u) (hfs : s₁.fs = s.vm.fs) (hlive : s.Live t → live t)
    (hsame : ∀ f, s.Live t → s.vm.Holds t f → s₁.Holds t f) (hs : FileSteps R M u s₁ vm)
    (hRM : u = t → (∀ old, R old → old = none) ∧ ¬ M) (hf : vm.fs.handle f ≠ none) (ho : s.Of u t f) :
    live t ∧ vm.Holds t f := by
  by_cases hut : u = t
  · subst hut
    obtain ⟨hR, hM⟩ := hRM rfl
    have hall : vm.HoldsAll u (s.Of u u) := by
      refine Vm.HoldsAll.steps (fun f hf hw => ?_) hok hu hs hR hM
      rw [hfs] at hf
      rcases hw with ⟨hnone, -⟩ | ⟨-, hw⟩
      · exact absurd hnone hf
      · obtain ⟨hl, hh⟩ := h f hf hw
        exact hsame f hl hh
    exact ⟨hu, hall f hf ho⟩
  · rcases ho with ⟨-, hc⟩ | ⟨hopen, howner⟩
    · exact absurd hc hut
    · have hall := (Vm.HoldsAll.others (W := fun f => s.vm.fs.handle f ≠ none ∧ s.owner f = some t)
        (fun f _ hw => hsame f (h f hw.1 hw.2).1 (h f hw.1 hw.2).2) hok
        (fun f hw => ⟨by rw [hfs]; exact hw.1, hlive (h f hw.1 hw.2).1⟩) hu hut hs).1
      exact ⟨hlive (h f hopen howner).1, hall f hf ⟨hopen, howner⟩⟩

/-- What a process has is as before when another one starts. -/
theorem holds_newProcess (ht : s.Live t) (hu : s.live u = false) (hf : s.vm.Holds t f) :
    (s.vm.newProcess u).Holds t f := by
  have hne : t ≠ u := by
    rintro rfl
    exact Bool.false_ne_true (hu.symm.trans ht)
  rcases hf with ⟨n, hn⟩ | hr
  · refine .inl ⟨n, ?_⟩
    show update s.vm.fdt u (fun _ => none) t n = some f
    rw [update_of_ne hne, hn]
  · refine .inr ?_
    show update s.vm.runnFile u none t = some f
    rw [update_of_ne hne, hr]

/-- The condition as it restricts the steps of a call. -/
theorem GivesBack.steps {c : ProcCall} (hc : GivesBack t s (.call t c)) :
    (∀ old, replaces s.vm t c old → old = none) ∧ ¬ maps s.vm t c := by
  cases c with
  | exec name phdrs =>
    refine ⟨?_, id⟩
    rintro old ⟨rfl, hfinds⟩
    exact (hc rfl).resolve_right fun hno => hno hfinds
  | mmap addr length writable fd offset => exact ⟨fun _ => False.elim, hc rfl⟩
  | _ => exact ⟨fun _ => False.elim, id⟩

theorem held_step (hok : FilesOk s.Live s.vm) (h : Held t s) (hc : GivesBack t s a) (hs : s.step a = .ok s') :
    Held t s' := by
  have hok' := filesOk_step hok hs
  have hnot : ∀ {u}, u = t → (∀ old, (fun _ => False : Option FilePtr → Prop) old → old = none) ∧ ¬ False :=
    fun _ => ⟨fun _ => False.elim, id⟩
  obtain ⟨u, -, hl, rfl⟩ | ⟨u, c, ok, vm, rfl, hl, ho, rfl⟩ | ⟨u, child, ok, vm, -, hl, hchild, ho, rfl⟩ |
    ⟨u, ok, vm, -, hl, ho, rfl⟩ := step_cases hs
  · intro f hf howner
    obtain ⟨ht, hh⟩ := h f hf howner
    refine ⟨live_update.mpr ?_, holds_newProcess ht hl hh⟩
    by_cases htu : t = u
    · exact .inl ⟨htu, rfl⟩
    · exact .inr ⟨htu, ht⟩
  · intro f hf howner
    refine h.steps (R := replaces s.vm u c) (M := maps s.vm u c) hok hl rfl id (fun _ _ h => h) (steps_call hok hl ho)
      ?_ hf (of_own howner hok.counted hok'.counted hf)
    rintro rfl
    exact hc.steps
  · intro f hf howner
    have hdead : ¬ s.Live child := by simp [Live, hchild]
    have hne : u ≠ child := by
      rintro rfl
      exact hdead hl
    obtain ⟨hlive, hh⟩ := h.steps (hok.newProcess hdead) (.inr rfl) rfl .inl
      (fun _ ht hh => holds_newProcess ht hchild hh) (steps_fork hok hdead hne ho) hnot hf
      (of_own howner hok.counted hok'.counted hf)
    refine ⟨live_update.mpr ?_, hh⟩
    by_cases htc : t = child
    · exact .inl ⟨htc, rfl⟩
    · exact .inr ⟨htc, hlive.resolve_right htc⟩
  · intro f hf howner
    have hof := of_own howner hok.counted hok'.counted hf
    rcases steps_exit hok hl ho with ⟨rfl, s₁, hs₁, hexit⟩ | ⟨rfl, hs₁⟩
    · have hf : vm.fs.handle f ≠ none := hf
      rw [hexit.handle] at hf
      dsimp only at hf
      split at hf
      · exact absurd rfl hf
      · next hrunn =>
        obtain ⟨hlive, hh⟩ := h.steps hok hl rfl id (fun _ _ h => h) hs₁ hnot hf hof
        by_cases htu : t = u
        · subst htu
          rcases hh with ⟨n, hn⟩ | hr
          · rw [hexit.empty] at hn
            cases hn
          · exact absurd hr hrunn
        · exact ⟨live_update.mpr (.inr ⟨htu, hlive⟩), hh.congr hexit.fdt hexit.runn⟩
    · obtain ⟨hlive, hh⟩ := h.steps hok hl rfl id (fun _ _ h => h) hs₁ hnot hf hof
      refine ⟨live_update.mpr ?_, hh⟩
      by_cases htu : t = u
      · exact .inl ⟨htu, rfl⟩
      · exact .inr ⟨htu, hlive⟩

/-- **After its exit no file is open that was opened for the process**, in runs that meet the condition, and the
counters of inodes count the files of others. -/
theorem references_given_back {s₀ : Procs} (h₀ : s₀.Start) (h : Reach step (GivesBack t) s₀ s)
    (hs : s.step (.exit t) = .ok s') (hgone : s'.live t = false) :
    (∀ f, s'.owner f = some t → s'.vm.fs.files f = none) ∧
      ∃ files : List FilePtr, files.Nodup ∧ (∀ f, f ∈ files ↔ s'.vm.fs.files f ≠ none) ∧
        (∀ f ∈ files, s'.owner f ≠ some t) ∧ ∀ p inode, s'.vm.fs.inodes p = some inode →
          inode.openCnt = files.countP (onInode s'.vm.fs.files p) := by
  have hheld : Held t s := h.invariant_of (I := Held t) (fun _ hr => filesOk_of_reach h₀ hr)
    (fun f _ howner => by rw [h₀.owner] at howner; cases howner)
    fun _ _ _ hok hheld hc hs => held_step hok hheld hc hs
  have hok := filesOk_of_reach h₀ h
  have hheld' := held_step (a := .exit t) hok hheld trivial hs
  obtain ⟨files, hcount⟩ := (filesOk_step hok hs).counted
  have hclosed : ∀ f, s'.owner f = some t → s'.vm.fs.files f = none := by
    intro f howner
    by_contra hf
    exact Bool.false_ne_true (hgone.symm.trans (hheld' f (hcount.handle_ne.mpr hf) howner).1)
  refine ⟨hclosed, files, hcount.nodup, hcount.file, fun f hf howner => ?_, fun p inode hp => ?_⟩
  · exact (hcount.file f).mp hf (hclosed f howner)
  · obtain ⟨-, -, hopen, -⟩ := hcount.count p inode hp
    rw [hopen]
    simp

end

/-- The check of `GivesBack` for runs without `mmap`. -/
def givesBackCheck (s : Procs) : ProcAction → Bool
  | .call u (.exec _ _) => (s.vm.runnFile u).isNone
  | .call _ (.mmap _ _ _ _ _) => false
  | _ => true

theorem givesBack_of_check {t : Tid} (s : Procs) (a : ProcAction) (h : givesBackCheck s a = true) : GivesBack t s a := by
  unfold GivesBack
  split
  · rintro rfl
    exact .inl (Option.isNone_iff_eq_none.mp h)
  · cases h
  · trivial

/-- The process is gone after its exit, and the file is open or not. -/
def exitCheck (t : Tid) (f : FilePtr) (opened : Bool) (s : Procs) : Bool :=
  match s.step (.exit t) with
  | .error _ => false
  | .ok s' => !s'.live t && s'.owner f = some t && (s'.vm.fs.files f).isSome == opened

theorem of_exitCheck {t : Tid} {f : FilePtr} {opened : Bool} {s : Procs} (h : exitCheck t f opened s = true) :
    ∃ s', s.step (.exit t) = .ok s' ∧ s'.live t = false ∧ s'.owner f = some t ∧
      (s'.vm.fs.files f).isSome = opened := by
  unfold exitCheck at h
  split at h
  · cases h
  · next s' hs =>
    simp only [Bool.and_eq_true, Bool.not_eq_true', decide_eq_true_eq, beq_iff_eq] at h
    exact ⟨s', hs, h.1.1, h.1.2, h.2⟩

/-- A process runs `a` and exits. -/
theorem references_given_back_one : ∃ s s', Reach step (GivesBack 1) boot s ∧ s.step (.exit 1) = .ok s' ∧
    s'.owner 2 = some 1 ∧ s'.vm.fs.files 2 = none := by
  have hrun : (execIf step givesBackCheck boot [.start 1, .call 1 (execA [])]).any (exitCheck 1 2 false) = true := by
    decide +kernel
  obtain ⟨s, hr, hc⟩ := exists_of_execIf (givesBack_of_check (t := 1)) _ hrun
  obtain ⟨s', hs, hgone, howner, -⟩ := of_exitCheck hc
  exact ⟨s, s', hr, hs, howner, (references_given_back boot_start hr hs hgone).1 2 howner⟩

/-- **A process that runs `a` and then `b` leaves `a` open.** -/
theorem references_kept : ∃ s s' f, Reach step Always boot s ∧ s.step (.exit 1) = .ok s' ∧ s'.live 1 = false ∧
    s'.owner f = some 1 ∧ s'.vm.fs.files f ≠ none := by
  have hrun : (execIf step (fun _ _ => true) boot [.start 1, .call 1 (execA []), .call 1 execB]).any
      (exitCheck 1 2 true) = true := by decide +kernel
  obtain ⟨s, hr, hc⟩ := exists_of_execIf (C := Always) (fun _ _ _ => trivial) _ hrun
  obtain ⟨s', hs, hgone, howner, hopen⟩ := of_exitCheck hc
  exact ⟨s, s', 2, hr, hs, hgone, howner, Option.isSome_iff_ne_none.mp hopen⟩

end Procs

end Pintos
