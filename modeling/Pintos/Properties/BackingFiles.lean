import Pintos.Properties.Executables

/-!
# Files of pages stay open

The pages of a process are loaded from its `runn_file`, from that of its parent or from files that were opened
for mappings.

* `backing_files_open` — the files of pages are open, as long as no process exits whose program a child has
  pages of
* `backing_file_closed` — a child that its parent leaves
-/

namespace Pintos

open Function Machine Relation

section

variable {R : Option FilePtr → Prop} {M : Prop} {live : Tid → Prop} {t u : Tid} {s s' : Vm} {f : FilePtr}

theorem Beside.backs (h : Beside s s') : s'.Backs u f ↔ s.Backs u f := by
  unfold Vm.Backs
  rw [h.spt, h.pages]

theorem Beside.fresh (h : Beside s s') (hf : s.Fresh) : s'.Fresh := by
  unfold Vm.Fresh
  rw [h.spt, h.brk]
  exact hf

/-- The files of pages are still open, and of no descriptor. -/
theorem Beside.within (h : Beside s s') (hw : s.Within fun _ => s.Loose)
    (hloose : ∀ u f, s.Backs u f → s.Loose f → s'.Loose f) : s'.Within fun _ => s'.Loose :=
  ⟨h.fresh hw.fresh, fun u f hb => hloose u f (h.backs.mp hb) (hw.backs u f (h.backs.mp hb))⟩

/-- A file that is opened or closed is not of a page. -/
theorem Vm.Loose.change {g : FilePtr} {x : Option (Nat × Bool)} (h : s.Loose f) (hne : f ≠ g)
    (hh : s'.fs.handle = update s.fs.handle g x) (hfdt : ∀ u n, s'.fdt u n = some f → s.fdt u n = some f) :
    s'.Loose f := by
  refine ⟨?_, fun u n hf => h.2 u n (hfdt u n hf)⟩
  rw [hh, update_of_ne hne]
  exact h.1

theorem within_step (hok : FilesOk live s) (hu : live u) (h : s.Within fun _ => s.Loose) (hs : FileStep R M u s s') :
    (s'.Within fun _ => s'.Loose) ∧ ∀ t, t ≠ u → ∀ f, s'.Backs t f → s.Backs t f := by
  have hnew : ∀ {g}, s.fs.handle g = none → ∀ {f}, s.Loose f → f ≠ g := by
    rintro g hg f hf rfl
    exact hf.1 hg
  cases hs with
  | pages hs =>
    have hloose : s'.Loose = s.Loose := by
      funext f
      unfold Vm.Loose
      rw [(hok.remaps hu hs).2, hs.fdt]
    rw [hloose]
    exact ⟨hs.within h, hs.others h.fresh⟩
  | same hb hh hfdt _ =>
    refine ⟨hb.within h fun _ f _ hf => ?_, fun _ _ _ => hb.backs.mp⟩
    unfold Vm.Loose
    rw [hh, hfdt]
    exact hf
  | @opens n sector g hb hg hentry _ _ hh hfdt _ =>
    refine ⟨hb.within h fun _ f _ hf => hf.change (hnew hg hf) hh fun v m hm => ?_, fun _ _ _ => hb.backs.mp⟩
    rw [hfdt] at hm
    rcases fdt_update hm with ⟨-, -, hc⟩ | ⟨-, hm⟩
    · exact absurd (Option.some.inj hc).symm (hnew hg hf)
    · exact hm
  | @closes n g hb hentry hh hfdt _ =>
    refine ⟨hb.within h fun _ f _ hf => hf.change ?_ hh fun v m hm => ?_, fun _ _ _ => hb.backs.mp⟩
    · rintro rfl
      exact hf.2 u n hentry
    · rw [hfdt] at hm
      rcases fdt_update hm with ⟨-, -, hc⟩ | ⟨-, hm⟩
      · cases hc
      · exact hm
  | runs hb _ hg hh hfdt _ =>
    exact ⟨hb.within h fun _ f _ hf => hf.change (hnew hg hf) hh fun _ _ hm => by rwa [hfdt] at hm,
      fun _ _ _ => hb.backs.mp⟩
  | maps hb _ hg hh hfdt _ =>
    exact ⟨hb.within h fun _ f _ hf => hf.change (hnew hg hf) hh fun _ _ hm => by rwa [hfdt] at hm,
      fun _ _ _ => hb.backs.mp⟩

theorem within_steps (hok : FilesOk live s) (hu : live u) (h : s.Within fun _ => s.Loose)
    (hs : FileSteps R M u s s') :
    (s'.Within fun _ => s'.Loose) ∧ ∀ t, t ≠ u → ∀ f, s'.Backs t f → s.Backs t f := by
  induction hs with
  | refl => exact ⟨h, fun _ _ _ h => h⟩
  | tail hs hstep ih =>
    obtain ⟨hw, hback⟩ := within_step (hok.steps hu hs) hu ih.1 hstep
    exact ⟨hw, fun t ht f hb => ih.2 t ht f (hback t ht f hb)⟩

/-- A new process has no pages and no descriptors, as before. -/
theorem within_newProcess (hok : FilesOk live s) (hu : ¬ live u) (h : s.Within fun _ => s.Loose) :
    (s.newProcess u).Within fun _ => (s.newProcess u).Loose := by
  obtain ⟨hfd, hspt⟩ := hok.gone u hu
  have hfdt : (s.newProcess u).fdt = s.fdt := by
    show update s.fdt u (fun _ => none) = s.fdt
    rw [update_eq_iff]
    exact ⟨funext fun n => (hfd n).symm, fun _ _ => rfl⟩
  have hpages : (s.newProcess u).spt = s.spt := by
    show update s.spt u [] = s.spt
    rw [← hspt, update_eq_self]
  have hloose : (s.newProcess u).Loose = s.Loose := by
    funext f
    unfold Vm.Loose
    rw [hfdt]
    rfl
  rw [hloose]
  refine ⟨?_, fun t f hb => ?_⟩
  · unfold Vm.Fresh
    rw [hpages]
    exact h.fresh
  · unfold Vm.Backs at hb
    rw [hpages] at hb
    exact h.backs t f hb

end

namespace Procs

/-- A process exits only when no page of another process is loaded from its `runn_file`. -/
def Outlived (s : Procs) : ProcAction → Prop
  | .exit t => ∀ f, s.vm.runnFile t = some f → ∀ u, u ≠ t → s.Live u → ¬ s.vm.Backs u f
  | _ => True

variable {s₀ s s' : Procs} {a : ProcAction} {t : Tid} {f : FilePtr}

theorem within_of_step (hok : FilesOk s.Live s.vm) (h : s.vm.Within fun _ => s.vm.Loose) (hc : s.Outlived a)
    (hs : s.step a = .ok s') : s'.vm.Within fun _ => s'.vm.Loose := by
  obtain ⟨t, -, hl, rfl⟩ | ⟨t, c, ok, vm, rfl, hl, ho, rfl⟩ | ⟨t, child, ok, vm, -, hl, hchild, ho, rfl⟩ |
    ⟨t, ok, vm, rfl, hl, ho, rfl⟩ := step_cases hs
  · exact within_newProcess hok (by simp [Live, hl]) h
  · exact (within_steps hok hl h (steps_call hok hl ho)).1
  · have hdead : ¬ s.Live child := by simp [Live, hchild]
    have hne : t ≠ child := by
      rintro rfl
      exact hdead hl
    exact (within_steps (hok.newProcess hdead) (.inr rfl) (within_newProcess hok hdead h)
      (steps_fork hok hdead hne ho)).1
  · rcases steps_exit hok hl ho with ⟨rfl, s₁, hs₁, hexit⟩ | ⟨rfl, hs₁⟩
    · obtain ⟨hw, hback⟩ := within_steps hok hl h hs₁
      obtain ⟨-, hrunn⟩ := denies_steps hok hl hs₁ id
      refine hexit.toBeside.within hw fun u f hb hf => ⟨?_, fun v n hn => hf.2 v n (by rwa [hexit.fdt] at hn)⟩
      have hne : s₁.runnFile t ≠ some f := by
        intro hrun
        rw [hrunn] at hrun
        have hut : u ≠ t := by
          rintro rfl
          obtain ⟨q, hq, -⟩ := hb
          rw [hexit.unmapped] at hq
          cases hq
        have hlive : s.Live u := by
          by_contra hdead
          obtain ⟨q, hq, -⟩ := hback u hut f hb
          rw [(hok.gone u hdead).2] at hq
          cases hq
        exact hc f hrun u hut hlive (hback u hut f hb)
      rw [hexit.handle]
      dsimp only
      rw [if_neg hne]
      exact hf.1
    · exact (within_steps hok hl h hs₁).1

/-- **The files that the pages of processes are loaded from are open**, in runs that meet the condition. -/
theorem backing_files_open (h₀ : s₀.Start) (h : Reach step Outlived s₀ s) (hb : s.vm.Backs t f) :
    s.vm.fs.files f ≠ none := by
  have hwithin : s.vm.Within fun _ => s.vm.Loose := by
    refine h.invariant_of (I := fun s => s.vm.Within fun _ => s.vm.Loose) (fun _ hr => filesOk_of_reach h₀ hr) ?_
      fun _ _ _ hok hw hc hs => within_of_step hok hw hc hs
    constructor
    · intro t q hq
      rw [h₀.spt] at hq
      cases hq
    · rintro t f ⟨q, hq, -⟩
      rw [h₀.spt] at hq
      cases hq
  obtain ⟨live, hcount⟩ := (filesOk_of_reach h₀ h).counted
  exact hcount.handle_ne.mp (hwithin.backs t f hb).1

/-- A segment of zeros. -/
def zeros : Phdr where
  pType := PT_LOAD
  pFlags := 0
  pOffset := 0
  pVaddr := 0x400000
  pFilesz := 0
  pMemsz := 4096

/-- A page of the process is loaded from the file, which is open or not. -/
def backsCheck (t : Tid) (f : FilePtr) (opened : Bool) (s : Procs) : Bool :=
  s.live t && (s.vm.fs.files f).isSome == opened &&
    (s.vm.spt t).any fun q => (s.vm.pages q).any fun page => page.aux.any fun info => info.file = some f

theorem of_backsCheck {opened : Bool} (h : backsCheck t f opened s = true) :
    s.Live t ∧ (s.vm.fs.files f).isSome = opened ∧ s.vm.Backs t f := by
  unfold backsCheck at h
  simp only [Bool.and_eq_true, beq_iff_eq, List.any_eq_true, Option.any_eq_true, decide_eq_true_eq] at h
  obtain ⟨⟨hl, hopened⟩, q, hq, page, hpage, info, hinfo, hf⟩ := h
  exact ⟨hl, hopened, q, hq, page, info, hpage, hinfo, hf⟩

/-- No process exits. -/
def outlivedCheck (_ : Procs) : ProcAction → Bool
  | .exit _ => false
  | _ => true

theorem outlived_of_check (s : Procs) (a : ProcAction) (h : outlivedCheck s a = true) : s.Outlived a := by
  cases a with
  | exit t => cases h
  | _ => trivial

/-- A process and its child run a program with a segment. -/
theorem backing_files_open_two : ∃ s f, Reach step Outlived boot s ∧ s.Live 2 ∧ s.vm.Backs 2 f ∧
    s.vm.fs.files f ≠ none := by
  have hrun : (execIf step outlivedCheck boot [.start 1, .call 1 (execA [zeros]), .fork 1 2]).any
      (backsCheck 2 2 true) = true := by decide +kernel
  obtain ⟨s, hr, hc⟩ := exists_of_execIf outlived_of_check _ hrun
  obtain ⟨hl, -, hb⟩ := of_backsCheck hc
  exact ⟨s, 2, hr, hl, hb, backing_files_open boot_start hr hb⟩

/-- **The parent exits, and the pages of its child are loaded from a file that is closed.** -/
theorem backing_file_closed : ∃ s f, Reach step Always boot s ∧ s.Live 2 ∧ s.vm.Backs 2 f ∧
    s.vm.fs.files f = none := by
  have hrun : (execIf step (fun _ _ => true) boot [.start 1, .call 1 (execA [zeros]), .fork 1 2, .exit 1]).any
      (backsCheck 2 2 false) = true := by decide +kernel
  obtain ⟨s, hr, hc⟩ := exists_of_execIf (C := Always) (fun _ _ _ => trivial) _ hrun
  obtain ⟨hl, hclosed, hb⟩ := of_backsCheck hc
  exact ⟨s, 2, hr, hl, hb, by simpa using hclosed⟩

end Procs

end Pintos
