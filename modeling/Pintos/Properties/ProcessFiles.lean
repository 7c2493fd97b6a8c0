import Mathlib.Logic.Relation
import Pintos.Lib.Machine
import Pintos.Properties.Handles
import Pintos.Properties.UserArguments
import Pintos.Userprog.Remaps

/-!
# Files of processes

Any number of processes open and close files, map them, run programs, fork and exit. Each call is a
sequence of steps of few kinds.

* `FileStep`, `FileSteps` — the steps
* `FilesOk` — files of processes are open, and no two descriptors share one
* `ends_close`, `ends_openFile`, … — the steps of each call
* `Procs`, `Procs.step` — the machine
-/

namespace Pintos

open Function Machine Relation

/-! ## Steps -/

/-- The file is open, and no descriptor refers to it. -/
def Vm.Loose (s : Vm) (f : FilePtr) : Prop := s.fs.handle f ≠ none ∧ ∀ u n, s.fdt u n ≠ some f

/-- Pages stay as they are. -/
structure Beside (s s' : Vm) : Prop where
  counted : s'.fs.Counted
  spt : s'.spt = s.spt
  pages : s'.pages = s.pages
  brk : s'.brk = s.brk
  fdIndex : ∀ u, 2 ≤ s.fdIndex u → 2 ≤ s'.fdIndex u

/-- A step of a process. It replaces `runn_file` where `R` holds of the old one, and it maps files where `M` does. -/
inductive FileStep (R : Option FilePtr → Prop) (M : Prop) (t : Tid) (s s' : Vm) : Prop
  | pages (h : Remaps t (fun _ => s.Loose) s s')
  | same (h : Beside s s') (handle : s'.fs.handle = s.fs.handle) (fdt : s'.fdt = s.fdt)
      (runn : s'.runnFile = s.runnFile)
  | opens {n sector : Nat} {g : FilePtr} (h : Beside s s') (free : s.fs.handle g = none) (entry : s.fdt t n = none)
      (lo : 2 ≤ n) (hi : n < FDCOUNT_LIMIT) (handle : s'.fs.handle = update s.fs.handle g (some (sector, false)))
      (fdt : s'.fdt = update s.fdt t (update (s.fdt t) n (some g))) (runn : s'.runnFile = s.runnFile)
  | closes {n : Nat} {f : FilePtr} (h : Beside s s') (entry : s.fdt t n = some f)
      (handle : s'.fs.handle = update s.fs.handle f none)
      (fdt : s'.fdt = update s.fdt t (update (s.fdt t) n none)) (runn : s'.runnFile = s.runnFile)
  | runs {sector : Nat} {g : FilePtr} (h : Beside s s') (old : R (s.runnFile t)) (free : s.fs.handle g = none)
      (handle : s'.fs.handle = update s.fs.handle g (some (sector, true))) (fdt : s'.fdt = s.fdt)
      (runn : s'.runnFile = update s.runnFile t (some g))
  | maps {sector : Nat} {g : FilePtr} (h : Beside s s') (mapped : M) (free : s.fs.handle g = none)
      (handle : s'.fs.handle = update s.fs.handle g (some (sector, false))) (fdt : s'.fdt = s.fdt)
      (runn : s'.runnFile = s.runnFile)

theorem FileStep.mono {R R' : Option FilePtr → Prop} {M M' : Prop} {t : Tid} {s s' : Vm} (hR : ∀ old, R old → R' old)
    (hM : M → M') : FileStep R M t s s' → FileStep R' M' t s s'
  | .pages h => .pages h
  | .same h handle fdt runn => .same h handle fdt runn
  | .opens h free entry lo hi handle fdt runn => .opens h free entry lo hi handle fdt runn
  | .closes h entry handle fdt runn => .closes h entry handle fdt runn
  | .runs h old free handle fdt runn => .runs h (hR _ old) free handle fdt runn
  | .maps h mapped free handle fdt runn => .maps h (hM mapped) free handle fdt runn

abbrev FileSteps (R : Option FilePtr → Prop) (M : Prop) (t : Tid) : Vm → Vm → Prop := ReflTransGen (FileStep R M t)

/-! ## The files of processes -/

/-- The files of processes are open, and no two of them share one. -/
structure FilesOk (live : Tid → Prop) (s : Vm) : Prop where
  counted : s.fs.Counted
  fdIndex : ∀ t, 2 ≤ s.fdIndex t
  fd : ∀ t n f, s.fdt t n = some f → 2 ≤ n ∧ n < FDCOUNT_LIMIT ∧ ∃ sector, s.fs.handle f = some (sector, false)
  fdInj : ∀ t n t' n' f, s.fdt t n = some f → s.fdt t' n' = some f → t = t' ∧ n = n'
  runn : ∀ t, live t → ∀ f, s.runnFile t = some f → ∃ sector, s.fs.handle f = some (sector, true)
  runnInj : ∀ t t' f, live t → live t' → s.runnFile t = some f → s.runnFile t' = some f → t = t'
  gone : ∀ t, ¬ live t → (∀ n, s.fdt t n = none) ∧ s.spt t = []

section

variable {R : Option FilePtr → Prop} {M : Prop} {B : Tid → FilePtr → Prop} {live : Tid → Prop} {t u parent : Tid}
  {s s₁ s' : Vm} {f g : FilePtr} {n : Nat}

theorem FilesOk.fd_open (h : FilesOk live s) (hf : s.fdt u n = some f) : s.fs.handle f ≠ none := by
  obtain ⟨-, -, sector, hh⟩ := h.fd u n f hf
  rw [hh]
  exact nofun

/-- A file that is not open is of no process. -/
theorem FilesOk.fd_ne (h : FilesOk live s) (hg : s.fs.handle g = none) (hf : s.fdt u n = some f) : f ≠ g := by
  rintro rfl
  exact h.fd_open hf hg

theorem FilesOk.runn_ne (h : FilesOk live s) (hg : s.fs.handle g = none) (hu : live u) (hf : s.runnFile u = some f) :
    f ≠ g := by
  rintro rfl
  obtain ⟨sector, hh⟩ := h.runn u hu f hf
  rw [hg] at hh
  cases hh

/-- An entry of a table after one is changed. -/
theorem fdt_update {fdt : Tid → Nat → Option FilePtr} {x : Option FilePtr} {m : Nat}
    (h : update fdt t (update (fdt t) n x) u m = some f) :
    (u = t ∧ m = n ∧ x = some f) ∨ ((u = t → m ≠ n) ∧ fdt u m = some f) := by
  by_cases hu : u = t
  · subst hu
    rw [update_self] at h
    by_cases hm : m = n
    · subst hm
      rw [update_self] at h
      exact .inl ⟨rfl, rfl, h⟩
    · rw [update_of_ne hm] at h
      exact .inr ⟨fun _ => hm, h⟩
  · rw [update_of_ne hu] at h
    exact .inr ⟨fun hc => absurd hc hu, h⟩

theorem FilesOk.remaps (h : FilesOk live s) (ht : live t) (hs : Remaps t B s s') :
    FilesOk live s' ∧ s'.fs.handle = s.fs.handle := by
  obtain ⟨hc, hh⟩ := handle_of_same h.counted hs.handles
  refine ⟨?_, hh⟩
  constructor
  · exact hc
  · rw [hs.fdIndex]
    exact h.fdIndex
  · rw [hs.fdt, hh]
    exact h.fd
  · rw [hs.fdt]
    exact h.fdInj
  · rw [hs.runnFile, hh]
    exact h.runn
  · rw [hs.runnFile]
    exact h.runnInj
  · intro u hu
    have hut : u ≠ t := fun hc => hu (hc ▸ ht)
    rw [hs.fdt, hs.spt u hut]
    exact h.gone u hu

/-- A file is opened or closed that no descriptor refers to. -/
theorem FilesOk.setHandle {x : Option (Nat × Bool)} (h : FilesOk live s) (hb : Beside s s')
    (hh : s'.fs.handle = update s.fs.handle g x) (hfdt : s'.fdt = s.fdt) (hg : ∀ u n, s.fdt u n ≠ some g)
    (hrunn : ∀ u, live u → ∀ f, s'.runnFile u = some f → ∃ sector, s'.fs.handle f = some (sector, true))
    (hinj : ∀ u u' f, live u → live u' → s'.runnFile u = some f → s'.runnFile u' = some f → u = u') :
    FilesOk live s' := by
  constructor
  · exact hb.counted
  · exact fun u => hb.fdIndex u (h.fdIndex u)
  · intro u n f hf
    rw [hfdt] at hf
    have hne : f ≠ g := by
      rintro rfl
      exact hg u n hf
    rw [hh, update_of_ne hne]
    exact h.fd u n f hf
  · rw [hfdt]
    exact h.fdInj
  · exact hrunn
  · exact hinj
  · intro u hu
    rw [hfdt, hb.spt]
    exact h.gone u hu

/-- A file that is not open is of no descriptor. -/
theorem FilesOk.not_fd (h : FilesOk live s) (hg : s.fs.handle g = none) : ∀ u n, s.fdt u n ≠ some g :=
  fun _ _ hf => h.fd_ne hg hf rfl

theorem FilesOk.opens {sector : Nat} (h : FilesOk live s) (ht : live t) (hb : Beside s s')
    (hg : s.fs.handle g = none) (lo : 2 ≤ n) (hi : n < FDCOUNT_LIMIT)
    (hh : s'.fs.handle = update s.fs.handle g (some (sector, false)))
    (hfdt : s'.fdt = update s.fdt t (update (s.fdt t) n (some g))) (hrunn : s'.runnFile = s.runnFile) :
    FilesOk live s' := by
  constructor
  · exact hb.counted
  · exact fun u => hb.fdIndex u (h.fdIndex u)
  · intro u m f hf
    rw [hfdt] at hf
    rcases fdt_update hf with ⟨-, rfl, hfg⟩ | ⟨-, hf⟩
    · cases hfg
      exact ⟨lo, hi, sector, by rw [hh, update_self]⟩
    · rw [hh, update_of_ne (h.fd_ne hg hf)]
      exact h.fd u m f hf
  · intro u m u' m' f hf hf'
    rw [hfdt] at hf hf'
    rcases fdt_update hf with ⟨rfl, rfl, hfg⟩ | ⟨-, hf⟩
    · cases hfg
      rcases fdt_update hf' with ⟨rfl, rfl, -⟩ | ⟨-, hf'⟩
      · exact ⟨rfl, rfl⟩
      · exact absurd rfl (h.fd_ne hg hf')
    · rcases fdt_update hf' with ⟨-, -, hfg⟩ | ⟨-, hf'⟩
      · cases hfg
        exact absurd rfl (h.fd_ne hg hf)
      · exact h.fdInj u m u' m' f hf hf'
  · intro u hu f hf
    rw [hrunn] at hf
    rw [hh, update_of_ne (h.runn_ne hg hu hf)]
    exact h.runn u hu f hf
  · rw [hrunn]
    exact h.runnInj
  · intro u hu
    have hut : u ≠ t := fun hc => hu (hc ▸ ht)
    rw [hfdt, update_of_ne hut, hb.spt]
    exact h.gone u hu

theorem FilesOk.closes (h : FilesOk live s) (ht : live t) (hb : Beside s s') (hentry : s.fdt t n = some f)
    (hh : s'.fs.handle = update s.fs.handle f none)
    (hfdt : s'.fdt = update s.fdt t (update (s.fdt t) n none)) (hrunn : s'.runnFile = s.runnFile) :
    FilesOk live s' := by
  have hold : ∀ {u m g}, s'.fdt u m = some g → s.fdt u m = some g ∧ g ≠ f := by
    intro u m g hg
    rw [hfdt] at hg
    rcases fdt_update hg with ⟨-, -, hnone⟩ | ⟨hne, hg⟩
    · cases hnone
    · refine ⟨hg, ?_⟩
      rintro rfl
      obtain ⟨hu, hm⟩ := h.fdInj u m t n g hg hentry
      exact hne hu hm
  constructor
  · exact hb.counted
  · exact fun u => hb.fdIndex u (h.fdIndex u)
  · intro u m g hg
    obtain ⟨hg, hne⟩ := hold hg
    rw [hh, update_of_ne hne]
    exact h.fd u m g hg
  · exact fun u m u' m' g hg hg' => h.fdInj u m u' m' g (hold hg).1 (hold hg').1
  · intro u hu g hg
    rw [hrunn] at hg
    obtain ⟨sector, hrun⟩ := h.runn u hu g hg
    obtain ⟨-, -, sector', hfd⟩ := h.fd t n f hentry
    have hne : g ≠ f := by
      rintro rfl
      rw [hrun] at hfd
      cases hfd
    exact ⟨sector, by rw [hh, update_of_ne hne, hrun]⟩
  · rw [hrunn]
    exact h.runnInj
  · intro u hu
    have hut : u ≠ t := fun hc => hu (hc ▸ ht)
    rw [hfdt, update_of_ne hut, hb.spt]
    exact h.gone u hu

/-- **A step keeps the files of processes.** -/
theorem FilesOk.step (h : FilesOk live s) (ht : live t) (hs : FileStep R M t s s') : FilesOk live s' := by
  have hkeep : ∀ {x : Option (Nat × Bool)} {g}, s'.fs.handle = update s.fs.handle g x → s.fs.handle g = none →
      s'.runnFile = s.runnFile → ∀ u, live u → ∀ f, s'.runnFile u = some f →
      ∃ sector, s'.fs.handle f = some (sector, true) := by
    intro x g hh hg hrunn u hu f hf
    rw [hrunn] at hf
    rw [hh, update_of_ne (h.runn_ne hg hu hf)]
    exact h.runn u hu f hf
  cases hs with
  | pages hs => exact (h.remaps ht hs).1
  | same hb hh hfdt hrunn =>
    constructor
    · exact hb.counted
    · exact fun u => hb.fdIndex u (h.fdIndex u)
    · rw [hfdt, hh]
      exact h.fd
    · rw [hfdt]
      exact h.fdInj
    · rw [hrunn, hh]
      exact h.runn
    · rw [hrunn]
      exact h.runnInj
    · rw [hfdt, hb.spt]
      exact h.gone
  | opens hb hg _ lo hi hh hfdt hrunn => exact h.opens ht hb hg lo hi hh hfdt hrunn
  | closes hb hentry hh hfdt hrunn => exact h.closes ht hb hentry hh hfdt hrunn
  | maps hb _ hg hh hfdt hrunn =>
    exact h.setHandle hb hh hfdt (h.not_fd hg) (hkeep hh hg hrunn) (by rw [hrunn]; exact h.runnInj)
  | @runs sector g hb _ hg hh hfdt hrunn =>
    have hcase : ∀ {u f}, s'.runnFile u = some f → (u = t ∧ f = g) ∨ (u ≠ t ∧ s.runnFile u = some f) := by
      intro u f hf
      rw [hrunn] at hf
      by_cases hu : u = t
      · subst hu
        rw [update_self] at hf
        exact .inl ⟨rfl, (Option.some.inj hf).symm⟩
      · rw [update_of_ne hu] at hf
        exact .inr ⟨hu, hf⟩
    refine h.setHandle hb hh hfdt (h.not_fd hg) (fun u hu f hf => ?_) fun u u' f hu hu' hf hf' => ?_
    · rcases hcase hf with ⟨-, rfl⟩ | ⟨-, hf⟩
      · exact ⟨sector, by rw [hh, update_self]⟩
      · rw [hh, update_of_ne (h.runn_ne hg hu hf)]
        exact h.runn u hu f hf
    · rcases hcase hf with ⟨rfl, rfl⟩ | ⟨-, hf⟩
      · rcases hcase hf' with ⟨rfl, -⟩ | ⟨-, hf'⟩
        · rfl
        · exact absurd rfl (h.runn_ne hg hu' hf')
      · rcases hcase hf' with ⟨-, rfl⟩ | ⟨-, hf'⟩
        · exact absurd rfl (h.runn_ne hg hu hf)
        · exact h.runnInj u u' f hu hu' hf hf'

theorem FilesOk.steps (h : FilesOk live s) (ht : live t) (hs : FileSteps R M t s s') : FilesOk live s' := by
  induction hs with
  | refl => exact h
  | tail _ hs ih => exact ih.step ht hs

/-! ## Calls -/

/-- The process ends with these faults: one is a call of `exit`, the other a page fault in the kernel. -/
def VmFault.Kills : VmFault → Bool
  | .exit _ => true
  | .null => true
  | _ => false

/-- Steps up to where the process is killed. -/
abbrev Killed (R : Option FilePtr → Prop) (M : Prop) (t : Tid) (s : Vm) (e : VmFault) (s' : Vm) : Prop :=
  e.Kills = true → FileSteps R M t s s'

variable {α : Type}

theorem ends_remaps {p : VmProg α} (hp : p.Does (Remaps t fun _ => s.Loose) Any) :
    p.Ends (Killed R M t s) (fun _ => FileSteps R M t s) s :=
  hp.ends .trans (.refl s) (fun _ _ h _ => .single (.pages h)) fun _ _ h => .single (.pages h)

/-- A call into `filesys/` that fails stops the kernel. -/
theorem ends_liftFs {p : FsProg α} {Q : α → Vm → Prop}
    (hr : ∀ a fs, p.run s.fs = .ok (a, fs) → Q a { s with fs := fs }) :
    (liftFs p).Ends (Killed R M t s') Q s := by
  unfold liftFs
  refine Prog.ends_zoom ?_ ?_ ?_ ?_ hr
  · exact fun _ _ => rfl
  · exact fun _ _ _ => rfl
  · exact fun _ => rfl
  · exact fun _ _ => nofun

/-- What follows after steps. -/
theorem ends_after {p : VmProg α} {Q : α → Vm → Prop} (h : FileSteps R M t s s₁)
    (hp : p.Ends (Killed R M t s₁) Q s₁) : p.Ends (Killed R M t s) Q s₁ :=
  Prog.ends_mono (fun _ _ he hk => h.trans (he hk)) (fun _ _ h => h) hp

theorem ends_checkAddress {useradd : Vaddr} :
    (checkAddress t useradd).Ends (Killed R M t s) (fun _ s' => s = s') s := by
  unfold checkAddress
  split
  · exact Prog.ends_lift (fun _ _ _ => .refl) nofun
  · refine Prog.ends_bind <| Prog.ends_read nofun fun page _ => ?_
    cases page with
    | none => exact Prog.ends_lift (fun _ _ _ => .refl) nofun
    | some _ => exact Prog.ends_pure rfl

/-! ### `close` -/

/-- The entry is empty afterwards. -/
theorem ends_close {fd : Int} (h : FilesOk live s) :
    (close t fd).Ends (Killed R M t s)
      (fun _ s' => FileSteps R M t s s' ∧ s'.fdt t fd.toNat = none ∧ ∀ n, s.fdt t n = none → s'.fdt t n = none) s := by
  have hnothing : (∀ f, s.fdt t fd.toNat ≠ some f) → FileSteps R M t s s ∧ s.fdt t fd.toNat = none ∧
      ∀ n, s.fdt t n = none → s.fdt t n = none := fun hf =>
    ⟨.refl, Option.eq_none_iff_forall_ne_some.mpr hf, fun _ h => h⟩
  unfold close
  split
  · next hstd =>
    refine Prog.ends_pure (hnothing fun f hf => ?_)
    have hfd := (h.fd t _ f hf).1
    omega
  · next hstd =>
    unfold findFileByFd
    split
    · next hbad =>
      refine Prog.ends_bind <| Prog.ends_pure <| Prog.ends_pure (hnothing fun f hf => ?_)
      obtain ⟨hlo, hhi, -⟩ := h.fd t _ f hf
      omega
    · next hrange =>
      rw [if_neg (by omega)]
      refine Prog.ends_bind <| Prog.ends_read (fun e he => ?_) fun entry hentry => ?_
      · split at he <;> cases he
      · split at hentry
        · next hnone =>
          cases hentry
          exact Prog.ends_pure (hnothing fun f hf => by rw [hnone] at hf; cases hf)
        · next f hf =>
          cases hentry
          unfold removeFileFromFdt
          dsimp only
          rw [if_neg hrange]
          refine Prog.ends_bind <| Prog.ends_write nofun fun s₁ hs₁ => ?_
          cases hs₁
          refine ends_liftFs fun _ fs hclose => ?_
          obtain ⟨hc, hh⟩ := handle_fileClose h.counted (h.fd_open hf) hclose
          have hstep : FileStep R M t s
              { s with fdt := update s.fdt t (update (s.fdt t) fd.toNat none), fs := fs } :=
            .closes (n := fd.toNat) (f := f) ⟨hc, rfl, rfl, rfl, fun _ h => h⟩ hf hh rfl rfl
          refine ⟨.single hstep, ?_, fun n hn => ?_⟩
          · show update s.fdt t (update (s.fdt t) fd.toNat none) t fd.toNat = none
            rw [update_self, update_self]
          · show update s.fdt t (update (s.fdt t) fd.toNat none) t n = none
            rw [update_self]
            by_cases hnfd : n = fd.toNat
            · rw [hnfd, update_self]
            · rwa [update_of_ne hnfd]

/-- `process_exit` closes all the descriptors. -/
theorem ends_closeAll (ht : live t) (k : Nat) : ∀ i {s}, FilesOk live s → (∀ n < i, s.fdt t n = none) →
    (closeAll t k i).Ends (Killed R M t s)
      (fun _ s' => FileSteps R M t s s' ∧ ∀ n < i + k, s'.fdt t n = none) s := by
  induction k with
  | zero => exact fun i s _ hi => Prog.ends_pure ⟨.refl, hi⟩
  | succ k ih =>
    intro i s h hi
    refine Prog.ends_bind <| Prog.ends_mono (fun _ _ h => h) ?_ (ends_close h)
    rintro _ s₁ ⟨hsteps, hclosed, hstill⟩
    have hi₁ : ∀ n < i + 1, s₁.fdt t n = none := by
      intro n hn
      rcases Nat.lt_succ_iff_lt_or_eq.mp hn with hn | rfl
      · exact hstill n (hi n hn)
      · exact hclosed
    have hrest := ends_after hsteps (ih (i + 1) (h.steps ht hsteps) hi₁)
    refine Prog.ends_mono (fun _ _ h => h) (fun _ s' hs' => ⟨hsteps.trans hs'.1, fun n hn => hs'.2 n (by omega)⟩) hrest

/-! ### `open` -/

/-- `add_file_to_fdt` looks for an empty entry. -/
theorem nextFd_spec (fdt : Nat → Option FilePtr) (fuel : Nat) : ∀ i,
    i ≤ nextFd fdt fuel i ∧ (nextFd fdt fuel i < FDCOUNT_LIMIT → fdt (nextFd fdt fuel i) = none ∨
      nextFd fdt fuel i = i + fuel) := by
  induction fuel with
  | zero => exact fun i => ⟨le_rfl, fun _ => .inr rfl⟩
  | succ fuel ih =>
    intro i
    unfold nextFd
    split
    · obtain ⟨hle, hr⟩ := ih (i + 1)
      refine ⟨by omega, fun hlt => ?_⟩
      rcases hr hlt with hnone | heq
      · exact .inl hnone
      · exact .inr (by omega)
    · next hc =>
      refine ⟨le_rfl, fun hlt => .inl ?_⟩
      by_contra hne
      exact hc ⟨hlt, hne⟩

theorem ends_openFile {file : Vaddr} {name : CStr} (h : FilesOk live s) :
    (openFile t file name).Ends (Killed R M t s) (fun _ => FileSteps R M t s) s := by
  refine Prog.ends_bind <| Prog.ends_mono (fun _ _ h => h) ?_ ends_checkAddress
  rintro _ _ rfl
  refine Prog.ends_bind <| ends_liftFs fun r fs hopen => ?_
  obtain ⟨sector, hc, hr⟩ := handle_filesysOpen h.counted hopen
  rcases hr with ⟨rfl, hh⟩ | ⟨g, rfl, hg, hh⟩
  · exact Prog.ends_pure (.single (.same ⟨hc, rfl, rfl, rfl, fun _ h => h⟩ hh rfl rfl))
  · obtain ⟨hle, hentry⟩ := nextFd_spec (s.fdt t) FDCOUNT_LIMIT (s.fdIndex t)
    have h2 := h.fdIndex t
    set index := nextFd (s.fdt t) FDCOUNT_LIMIT (s.fdIndex t) with hindex
    have hidx : ∀ u, 2 ≤ s.fdIndex u → 2 ≤ update s.fdIndex t index u := by
      intro u hu
      by_cases hut : u = t
      · rw [hut, update_self]
        omega
      · rwa [update_of_ne hut]
    refine Prog.ends_bind <| Prog.ends_lift (fun e he => ?_) fun fd s₁ hs₁ => ?_
    · dsimp only at he
      split at he <;> cases he
    dsimp only at hs₁
    split at hs₁
    · cases hs₁
      -- the table is full, and the file is closed again
      refine Prog.ends_bind <| ends_liftFs fun _ fs' hclose => ?_
      have hopened : fs.handle g ≠ none := by
        rw [hh, update_self]
        exact nofun
      obtain ⟨hc', hh'⟩ := handle_fileClose hc hopened hclose
      have hsame : fs'.handle = s.fs.handle := by
        rw [hh', hh, update_idem, ← hg, update_eq_self]
      exact Prog.ends_pure (.single (.same ⟨hc', rfl, rfl, rfl, hidx⟩ hsame rfl rfl))
    · next hlt =>
      cases hs₁
      have hnone : s.fdt t index = none := by
        rcases hentry (by omega) with hnone | heq
        · exact hnone
        · omega
      exact Prog.ends_pure (.single
        (.opens ⟨hc, rfl, rfl, rfl, hidx⟩ hg hnone (by omega) (by omega) hh rfl rfl))

/-! ### Mappings -/

/-- `mmap` gets as far as `file_reopen`, for which there is memory. -/
def Vm.Reopens (s : Vm) (t : Tid) (addr length : BitVec 64) (fd offset : Int) : Prop :=
  mmapRefuses addr length fd offset = false ∧ s.findPage (pgRoundDown addr) (s.spt t) = none ∧
    (∃ f, s.fdt t fd.toNat = some f ∧ s.lengthOf f ≠ 0) ∧ s.allocs 0 = true

/-- Without memory there is no file. -/
theorem fileReopen_false {fs fs' : FileSys} {r : Option FilePtr} (h : (fileReopen f false).run fs = .ok (r, fs')) :
    r = none := by
  obtain ⟨file, fs₁, -, h⟩ := Prog.of_run_bind h
  obtain ⟨p, fs₂, -, h⟩ := Prog.of_run_bind h
  obtain ⟨_, fs₃, -, h⟩ := Prog.of_run_bind h
  cases h
  rfl

theorem ends_fileLength {P : VmFault → Vm → Prop} (hP : ∀ e s', P (.fs e) s') :
    (liftFs (fileLength f)).Ends P (fun n s' => s = s' ∧ s.lengthOf f = n) s := by
  unfold liftFs
  refine Prog.ends_zoom ?_ ?_ ?_ ?_ fun n fs hr => ?_
  · exact fun _ _ => rfl
  · exact fun _ _ _ => rfl
  · exact fun _ => rfl
  · exact fun e s' => hP e s'
  · have hwp := Prog.wp_run (Prog.wp_keep wp_fileLength) hr
    obtain ⟨hfs, hn⟩ := hwp
    exact ⟨by rw [hfs], hn⟩

theorem ends_mmapLoadSegment {offset : Int} {upage : Vaddr} {writable : Bool} (h : FilesOk live s) (ht : live t)
    (hf : s.fdt t n = some f) :
    (mmapLoadSegment t f offset upage writable).Ends (Killed R (s.allocs 0 = true) t s)
      (fun _ => FileSteps R (s.allocs 0 = true) t s) s := by
  refine Prog.ends_bind <| Prog.ends_mono (fun _ _ h => h) ?_ (ends_fileLength fun _ _ => nofun)
  rintro length _ ⟨rfl, -⟩
  refine Prog.ends_bind <| Prog.ends_lift nofun fun allocated s₁ hs₁ => ?_
  cases hs₁
  refine Prog.ends_bind <| ends_liftFs fun r fs hreopen => ?_
  obtain ⟨-, -, sector, hh⟩ := h.fd t n f hf
  obtain ⟨hc, hr⟩ := handle_fileReopen h.counted hh hreopen
  set s₁ : Vm := { s with allocs := fun n => s.allocs (n + 1), fs := fs } with hs₁
  have hstep : FileStep R (s.allocs 0 = true) t s s₁ := by
    rcases hr with ⟨-, hh₁⟩ | ⟨g, rfl, hg, hh₁⟩
    · exact .same ⟨hc, rfl, rfl, rfl, fun _ h => h⟩ hh₁ rfl rfl
    · refine .maps ⟨hc, rfl, rfl, rfl, fun _ h => h⟩ ?_ hg hh₁ rfl rfl
      by_contra hno
      rw [Bool.not_eq_true] at hno
      rw [hno] at hreopen
      cases fileReopen_false hreopen
  have h₁ := h.step ht hstep
  refine Prog.ends_mono (fun _ _ h => h) (fun _ _ h => .head hstep h) (ends_after (.single hstep) ?_)
  refine ends_remaps (remaps_mapPages (fun g hg => ?_) _ _ _ _)
  -- the new file is of no descriptor
  rcases hr with ⟨rfl, -⟩ | ⟨g', rfl, hfree, hh₁⟩
  · cases hg
  · cases hg
    refine ⟨?_, h.not_fd hfree⟩
    rw [hh₁, update_self]
    exact nofun

theorem ends_mmap {addr length : BitVec 64} {writable : Bool} {fd offset : Int} (h : FilesOk live s) (ht : live t) :
    (mmap t addr length writable fd offset).Ends (Killed R (s.Reopens t addr length fd offset) t s)
      (fun _ => FileSteps R (s.Reopens t addr length fd offset) t s) s := by
  unfold mmap
  split
  · exact Prog.ends_pure .refl
  · next hrefused =>
    refine Prog.ends_bind <| Prog.ends_read nofun fun found hfound => ?_
    cases hfound
    split
    · exact Prog.ends_pure .refl
    · next hnone =>
      refine Prog.ends_bind <| Prog.ends_read nofun fun file hfile => ?_
      cases hfile
      split
      · exact Prog.ends_lift (fun _ _ _ => .refl) nofun
      · next f hf =>
        refine Prog.ends_bind <| Prog.ends_mono (fun _ _ h => h) ?_ (ends_fileLength fun _ _ => nofun)
        rintro readBytes _ ⟨rfl, hlength⟩
        split
        · exact Prog.ends_pure .refl
        · next hne =>
          have hmaps : s.allocs 0 = true → s.Reopens t addr length fd offset := fun ha =>
            ⟨by simpa using hrefused, hnone, ⟨f, hf, by rwa [hlength]⟩, ha⟩
          have hmono : ∀ s', FileSteps R (s.allocs 0 = true) t s s' →
              FileSteps R (s.Reopens t addr length fd offset) t s s' := fun s' hs' =>
            hs'.lift id fun _ _ h => h.mono (fun _ h => h) hmaps
          refine Prog.ends_bind <| Prog.ends_mono (fun _ _ he hk => hmono _ (he hk)) ?_
            (ends_mmapLoadSegment h ht hf)
          intro loaded s' hs'
          split
          · exact Prog.ends_pure (hmono _ hs')
          · exact Prog.ends_pure (hmono _ hs')

theorem ends_munmap {addr : Vaddr} : (munmap t addr).Ends (Killed R M t s) (fun _ => FileSteps R M t s) s := by
  refine Prog.ends_bind <| Prog.ends_mono (fun _ _ h => h) ?_ ends_checkAddress
  rintro _ _ rfl
  exact ends_remaps remaps_doMunmap

/-! ### `exec` -/

/-- `process_exec` up to the file it opens. -/
def execOpen (t : Tid) (name : CStr) : VmProg (Option FilePtr) := do
  processCleanup t
  let created ← vmAlloc
  if created then liftFs (filesysOpen name) else pure none

/-- `process_exec` finds a file to run. -/
def Vm.FindsImage (s : Vm) (t : Tid) (name : CStr) : Prop :=
  ∃ f s', (execOpen t name).run s = .ok (some f, s')

/-- What `process_exec` may replace: the file that the process ran before. -/
def Vm.Replaces (s : Vm) (t : Tid) (name : CStr) (old : Option FilePtr) : Prop :=
  old = s.runnFile t ∧ s.FindsImage t name

/-- The process has a `runn_file`, which denies writes. -/
def Vm.Runs (s : Vm) (t : Tid) : Prop := ∃ f sector, s.runnFile t = some f ∧ s.fs.handle f = some (sector, true)

theorem FilesOk.runs_remaps (h : FilesOk live s) (ht : live t) (hr : s.Runs t) (hs : Remaps t B s s') : s'.Runs t := by
  obtain ⟨f, sector, hf, hh⟩ := hr
  exact ⟨f, sector, by rw [hs.runnFile, hf], by rw [(h.remaps ht hs).2, hh]⟩

/-- The file that is run, once it is opened. -/
theorem ends_runImage {phdrs : Option (List Phdr)} {fs : FileSys} {name : CStr}
    (h : FilesOk live s) (ht : live t) (hR : R (s.runnFile t))
    (hopen : (filesysOpen name).run s.fs = .ok (some f, fs)) :
    Prog.Ends (Killed R M t s) (fun ok s' => FileSteps R M t s s' ∧ (ok = true → s'.Runs t))
      (do
        setRunnFile t f
        liftFs (fileDenyWrite f)
        match phdrs with
        | none => pure false
        | some phdrs => load t f phdrs) { s with fs := fs } := by
  obtain ⟨sector, hc, hr⟩ := handle_filesysOpen h.counted hopen
  rcases hr with ⟨hnone, -⟩ | ⟨g, hg, hfree, hh⟩
  · cases hnone
  · cases hg
    refine Prog.ends_bind <| Prog.ends_write nofun fun s₁ hs₁ => ?_
    cases hs₁
    refine Prog.ends_bind <| ends_liftFs fun _ fs' hdeny => ?_
    have hopened : fs.handle f = some (sector, false) := by rw [hh, update_self]
    obtain ⟨hc', hh'⟩ := handle_fileDenyWrite hc hopened hdeny
    rw [hh, update_idem] at hh'
    set s₂ : Vm := { s with fs := fs', runnFile := update s.runnFile t (some f) } with hs₂
    have hstep : FileStep R M t s s₂ := .runs ⟨hc', rfl, rfl, rfl, fun _ h => h⟩ hR hfree hh' rfl rfl
    have h₂ := h.step ht hstep
    have hruns : s₂.Runs t := ⟨f, sector, update_self _ _ _, by rw [hh', update_self]⟩
    cases phdrs with
    | none => exact Prog.ends_pure ⟨.single hstep, nofun⟩
    | some phdrs =>
      have hloose : s₂.Loose f := by
        refine ⟨?_, h.not_fd hfree⟩
        rw [hh', update_self]
        exact nofun
      have hload : (load t f phdrs).Does (Remaps t fun _ => s₂.Loose) Any := remaps_load hloose
      exact hload.ends .trans (.refl s₂) (fun _ _ hs _ => .head hstep (.single (.pages hs)))
        fun _ s' hs => ⟨.head hstep (.single (.pages hs)), fun _ => h₂.runs_remaps ht hruns hs⟩

theorem ends_processExec {name : CStr} {phdrs : Option (List Phdr)} (h : FilesOk live s) (ht : live t) :
    (processExec t name phdrs).Ends (Killed (s.Replaces t name) M t s)
      (fun ok s' => FileSteps (s.Replaces t name) M t s s' ∧ (ok = true → s'.Runs t)) s := by
  refine Prog.ends_bind <| Prog.ends_mono (fun _ _ hs _ => .single (.pages hs)) ?_ (Prog.ends_run ends_processCleanup)
  rintro _ s₁ ⟨hclean, hs₁, -⟩
  refine Prog.ends_bind <| Prog.ends_lift nofun fun created s₂ hs₂ => ?_
  have hs₂' : Remaps t (fun _ => s.Loose) s s₂ := by
    cases hs₂
    exact .trans _ _ _ hs₁ (Accessing.remaps (N := Any) (.same rfl rfl le_rfl))
  have hpages : FileSteps (s.Replaces t name) M t s s₂ := .single (.pages hs₂')
  split
  · next hcreated =>
    refine Prog.ends_bind <| ends_liftFs fun r fs hopen => ?_
    have halloc : vmAlloc.run s₁ = .ok (created, s₂) := by rw [vmAlloc, Prog.run_lift, hs₂]
    have hfound : (execOpen t name).run s = .ok (r, { s₂ with fs := fs }) := by
      unfold execOpen
      rw [Prog.run_bind_ok hclean, Prog.run_bind_ok halloc, if_pos hcreated]
      exact run_liftFs hopen
    cases r with
    | none =>
      obtain ⟨sector, hc, hr⟩ := handle_filesysOpen (h.remaps ht hs₂').1.counted hopen
      rcases hr with ⟨-, hh⟩ | ⟨g, hg, -⟩
      · exact Prog.ends_pure ⟨hpages.tail (.same ⟨hc, rfl, rfl, rfl, fun _ h => h⟩ hh rfl rfl), nofun⟩
      · cases hg
    | some f =>
      have hR : s.Replaces t name (s₂.runnFile t) := ⟨by rw [hs₂'.runnFile], f, _, hfound⟩
      refine Prog.ends_mono (fun _ _ he hk => hpages.trans (he hk)) (fun _ _ h => ⟨hpages.trans h.1, h.2⟩)
        (ends_runImage (h.remaps ht hs₂').1 ht hR hopen)
  · exact Prog.ends_pure ⟨hpages, nofun⟩

/-! ### `fork` -/

theorem FilesOk.newProcess {child : Tid} (h : FilesOk live s) (hc : ¬ live child) :
    FilesOk (fun u => live u ∨ u = child) (s.newProcess child) := by
  obtain ⟨hfd, hspt⟩ := h.gone child hc
  have hfdt : (s.newProcess child).fdt = s.fdt := by
    show update s.fdt child (fun _ => none) = s.fdt
    rw [update_eq_iff]
    exact ⟨funext fun n => (hfd n).symm, fun _ _ => rfl⟩
  have hrunn : ∀ {u f}, live u ∨ u = child → (s.newProcess child).runnFile u = some f →
      live u ∧ s.runnFile u = some f := by
    intro u f hu hf
    have hf : update s.runnFile child none u = some f := hf
    by_cases huc : u = child
    · rw [huc, update_self] at hf
      cases hf
    · rw [update_of_ne huc] at hf
      exact ⟨hu.resolve_right huc, hf⟩
  constructor
  · exact h.counted
  · intro u
    show 2 ≤ update s.fdIndex child 2 u
    by_cases hu : u = child
    · rw [hu, update_self]
    · rw [update_of_ne hu]
      exact h.fdIndex u
  · rw [hfdt]
    exact h.fd
  · rw [hfdt]
    exact h.fdInj
  · intro u hu f hf
    obtain ⟨hu, hf⟩ := hrunn hu hf
    exact h.runn u hu f hf
  · intro u u' f hu hu' hf hf'
    obtain ⟨hu, hf⟩ := hrunn hu hf
    obtain ⟨hu', hf'⟩ := hrunn hu' hf'
    exact h.runnInj u u' f hu hu' hf hf'
  · intro u hu
    push Not at hu
    have hspt : (s.newProcess child).spt u = s.spt u := update_of_ne hu.2 _ _
    rw [hfdt, hspt]
    exact h.gone u hu.1

/-- The files of the parent are opened again. -/
theorem ends_duplicateFiles (ht : live t) (k : Nat) : ∀ i {s}, FilesOk live s → (∀ n, i ≤ n → s.fdt t n = none) →
    (duplicateFiles t parent k i).Ends (Killed R M t s) (fun _ => FileSteps R M t s) s := by
  induction k with
  | zero => exact fun _ _ _ _ => Prog.ends_pure .refl
  | succ k ih =>
    intro i s h hempty
    refine Prog.ends_bind <| Prog.ends_read nofun fun file hfile => ?_
    cases hfile
    split
    · exact ih (i + 1) h fun n hn => hempty n (by omega)
    · next f hf =>
      refine Prog.ends_bind <| Prog.ends_lift nofun fun allocated s₁ hs₁ => ?_
      cases hs₁
      refine Prog.ends_bind <| ends_liftFs fun r fs hdup => ?_
      obtain ⟨lo, hi, sector, hh⟩ := h.fd parent i f hf
      obtain ⟨hc, hr⟩ := handle_fileDuplicate h.counted hh hdup
      refine Prog.ends_bind <| Prog.ends_write nofun fun s₂ hs₂ => ?_
      have hnone := hempty i le_rfl
      have hstep : FileStep R M t s s₂ := by
        cases hs₂
        rcases hr with ⟨rfl, hh₁⟩ | ⟨g, rfl, hg, hh₁⟩
        · refine .same ⟨hc, rfl, rfl, rfl, fun _ h => h⟩ hh₁ ?_ rfl
          show update s.fdt t (update (s.fdt t) i none) = s.fdt
          rw [← hnone, update_eq_self, update_eq_self]
        · exact .opens ⟨hc, rfl, rfl, rfl, fun _ h => h⟩ hg hnone lo hi hh₁ rfl rfl
      have hempty₂ : ∀ n, i + 1 ≤ n → s₂.fdt t n = none := by
        intro n hn
        cases hs₂
        show update s.fdt t (update (s.fdt t) i r) t n = none
        rw [update_self, update_of_ne (by omega)]
        exact hempty n (by omega)
      exact Prog.ends_mono (fun _ _ h => h) (fun _ _ h => .head hstep h)
        (ends_after (.single hstep) (ih (i + 1) (h.step ht hstep) hempty₂))

/-- `__do_fork` after the new process is there. -/
theorem ends_doFork {child : Tid} (h : FilesOk live s) (hc : ¬ live child) (hne : parent ≠ child) :
    (doFork child parent).Ends (Killed R M child (s.newProcess child))
      (fun _ => FileSteps R M child (s.newProcess child)) s := by
  have h₁ := h.newProcess hc
  have hlive : live child ∨ child = child := .inr rfl
  refine Prog.ends_bind <| Prog.ends_write nofun fun s₁ hs₁ => ?_
  cases hs₁
  set s₁ := s.newProcess child with hs₁
  have hempty : ∀ n, s₁.fdt child n = none := fun n => by
    show update s.fdt child (fun _ => none) child n = none
    rw [update_self]
  refine Prog.ends_bind <| Prog.ends_lift nofun fun created s₂ hs₂ => ?_
  have hs₂' : Remaps child (fun _ => s₁.Loose) s₁ s₂ := by
    cases hs₂
    exact Accessing.remaps (N := Any) (.same rfl rfl le_rfl)
  split
  · refine Prog.ends_bind <| Prog.ends_mono (fun _ _ hs _ => .single (.pages (.trans _ _ _ hs₂' hs))) ?_
      (ends_supplementalPageTableCopy (B := fun _ => s₁.Loose) (fun _ h => h) hne)
    intro copied s₃ hs₃
    have hs₃' : Remaps child (fun _ => s₁.Loose) s₁ s₃ := .trans _ _ _ hs₂' hs₃
    have hpages : FileSteps R M child s₁ s₃ := .single (.pages hs₃')
    split
    · refine Prog.ends_bind <| Prog.ends_mono (fun _ _ h => h) (fun _ s₄ hs₄ => ?_) (ends_after hpages
        (ends_duplicateFiles hlive _ 0 (h₁.steps hlive hpages) fun n _ => by rw [hs₃'.fdt, hempty]))
      have h₄ := (h₁.steps hlive hpages).steps hlive hs₄
      refine Prog.ends_bind <| Prog.ends_write nofun fun s₅ hs₅ => ?_
      cases hs₅
      refine Prog.ends_pure ((hpages.trans hs₄).tail (.same ⟨h₄.counted, rfl, rfl, rfl, fun u hu => ?_⟩ rfl rfl rfl))
      show 2 ≤ update s₄.fdIndex child (s₄.fdIndex parent) u
      by_cases huc : u = child
      · rw [huc, update_self]
        exact h₄.fdIndex parent
      · rwa [update_of_ne huc]
    · exact Prog.ends_pure hpages
  · exact Prog.ends_pure (.single (.pages hs₂'))

/-! ### `exit` -/

/-- What `process_exit` does last: the process has no descriptors and no pages. -/
structure Exited (t : Tid) (s s' : Vm) : Prop extends Beside s s' where
  empty : ∀ n, s.fdt t n = none
  unmapped : s.spt t = []
  handle : s'.fs.handle = fun f => if s.runnFile t = some f then none else s.fs.handle f
  fdt : s'.fdt = s.fdt
  runn : s'.runnFile = s.runnFile

theorem ends_processExit (h : FilesOk live s) (ht : live t) :
    (processExit t).Ends (Killed R M t s) (fun _ s' => ∃ s₁, FileSteps R M t s s₁ ∧ Exited t s₁ s') s := by
  refine Prog.ends_bind <| Prog.ends_mono (fun _ _ h => h) ?_ (ends_closeAll ht FDCOUNT_LIMIT 0 h nofun)
  rintro _ s₁ ⟨hs₁, hclosed⟩
  have h₁ := h.steps ht hs₁
  have hempty : ∀ n, s₁.fdt t n = none := by
    intro n
    by_contra hne
    obtain ⟨f, hf⟩ := Option.ne_none_iff_exists'.mp hne
    obtain ⟨-, hlt, -⟩ := h₁.fd t n f hf
    exact hne (hclosed n (by omega))
  refine Prog.ends_bind <| Prog.ends_mono (fun _ _ hs _ => hs₁.tail (.pages hs)) ?_
    (ends_processCleanup (B := fun _ => s₁.Loose))
  rintro _ s₂ ⟨hs₂, hspt⟩
  have hsteps := hs₁.tail (.pages hs₂ : FileStep R M t s₁ s₂)
  have h₂ := h.steps ht hsteps
  refine Prog.ends_bind <| Prog.ends_read nofun fun r hr => ?_
  cases hr
  refine ends_liftFs fun _ fs hclose => ⟨s₂, hsteps, ?_⟩
  have hkeep : fs.Counted → fs.handle = (fun f => if s₂.runnFile t = some f then none else s₂.fs.handle f) →
      Exited t s₂ { s₂ with fs := fs } := fun hc hh =>
    { counted := hc, spt := rfl, pages := rfl, brk := rfl, fdIndex := fun _ h => h
      empty := fun n => by rw [hs₂.fdt, hempty], unmapped := hspt, handle := hh, fdt := rfl, runn := rfl }
  cases hrunn : s₂.runnFile t with
  | none =>
    rw [hrunn] at hclose
    cases hclose
    refine hkeep h₂.counted (funext fun f => ?_)
    rw [hrunn, if_neg nofun]
  | some f =>
    rw [hrunn] at hclose
    obtain ⟨sector, hf⟩ := h₂.runn t ht f hrunn
    obtain ⟨hc, hh⟩ := handle_fileClose h₂.counted (by rw [hf]; exact nofun) hclose
    refine hkeep hc (funext fun g => ?_)
    rw [hh, hrunn]
    by_cases hg : g = f
    · rw [hg, update_self, if_pos rfl]
    · rw [update_of_ne hg, if_neg fun hc => hg (Option.some.inj hc).symm]

end

/-! ## The machine -/

/-- A call of a process. `fault` is a page fault, of the user or in the kernel. -/
inductive ProcCall where
  | openFile (file : Vaddr) (name : CStr)
  | close (fd : Int)
  | exec (name : CStr) (phdrs : Option (List Phdr))
  | mmap (addr length : BitVec 64) (writable : Bool) (fd offset : Int)
  | munmap (addr : Vaddr)
  | fault (rsp addr : Vaddr)

/-- Whether the process goes on. -/
def ProcCall.prog (t : Tid) : ProcCall → VmProg Bool
  | .openFile file name => do
    let _ ← Pintos.openFile t file name
    pure true
  | .close fd => do
    Pintos.close t fd
    pure true
  | .exec name phdrs => processExec t name phdrs
  | .mmap addr length writable fd offset => do
    let _ ← Pintos.mmap t addr length writable fd offset
    pure true
  | .munmap addr => do
    Pintos.munmap t addr
    pure true
  | .fault rsp addr => do
    pageFault t rsp addr
    pure true

inductive ProcAction where
  /-- A process that is not the child of another one. -/
  | start (t : Tid)
  | call (t : Tid) (c : ProcCall)
  | fork (t child : Tid)
  | exit (t : Tid)

structure Procs where
  vm : Vm
  live : Tid → Bool
  /-- The process is to exit. -/
  failed : Tid → Bool
  /-- The sector of the inode of what the process runs. -/
  image : Tid → Option Nat
  /-- History: the process for which a file was opened. -/
  owner : FilePtr → Option Tid

/-- The state a program leaves, and whether it ended well and returned true. A fault that does not end the process
stops the kernel. -/
def outcome (p : VmProg Bool) (s : Vm) : Except VmFault (Bool × Vm) :=
  match p.leave s with
  | (.ok ok, s') => .ok (ok, s')
  | (.error e, s') => if e.Kills then .ok (false, s') else .error e

namespace Procs

/-- The files that are new are opened for the process. -/
def own (s : Procs) (t : Tid) (vm : Vm) : FilePtr → Option Tid := fun f =>
  match s.vm.fs.files f, vm.fs.files f with
  | none, some _ => some t
  | _, _ => s.owner f

/-- What the process runs after a call. -/
def imageOf (vm : Vm) (t : Tid) : Option Nat :=
  match vm.runnFile t with
  | none => none
  | some f => (vm.fs.handle f).map Prod.fst

/-- `exec` changes what the process runs. -/
def runs (s : Procs) (t : Tid) (vm : Vm) (ok : Bool) : ProcCall → Tid → Option Nat
  | .exec _ _ => update s.image t (if ok then imageOf vm t else none)
  | _ => s.image

def step (s : Procs) : ProcAction → Except VmFault Procs
  | .start t =>
    if s.live t then .error .disabled
    else .ok { s with
      vm := s.vm.newProcess t, live := update s.live t true, failed := update s.failed t false
      image := update s.image t none }
  | .call t c =>
    if s.live t && !s.failed t then
      match outcome (c.prog t) s.vm with
      | .error e => .error e
      | .ok (ok, vm) => .ok { s with
          vm := vm, failed := update s.failed t !ok, image := s.runs t vm ok c, owner := s.own t vm }
    else .error .disabled
  | .fork t child =>
    if s.live t && !s.failed t && !s.live child then
      match outcome (doFork child t) s.vm with
      | .error e => .error e
      | .ok (ok, vm) => .ok {
          vm := vm, live := update s.live child true, failed := update s.failed child !ok
          image := update s.image child (if ok then s.image t else none), owner := s.own child vm }
    else .error .disabled
  | .exit t =>
    if s.live t then
      match outcome (do processExit t; pure true) s.vm with
      | .error e => .error e
      | .ok (ok, vm) => .ok { s with
          vm := vm, live := update s.live t !ok, failed := update s.failed t !ok
          image := if ok then update s.image t none else s.image, owner := s.own t vm }
    else .error .disabled

/-- No process has been started, and no file denies writes. -/
structure Start (s : Procs) : Prop where
  counted : s.vm.fs.Counted
  denies : ∀ f sector, s.vm.fs.handle f ≠ some (sector, true)
  live : ∀ t, s.live t = false
  fdt : ∀ t n, s.vm.fdt t n = none
  fdIndex : ∀ t, 2 ≤ s.vm.fdIndex t
  spt : ∀ t, s.vm.spt t = []
  owner : ∀ f, s.owner f = none

/-- The processes that live. -/
def Live (s : Procs) (t : Tid) : Prop := s.live t = true

/-- The files that are new for a step of `exec` and of `mmap`. -/
def replaces (s : Vm) (t : Tid) : ProcCall → Option FilePtr → Prop
  | .exec name _ => s.Replaces t name
  | _ => fun _ => False

def maps (s : Vm) (t : Tid) : ProcCall → Prop
  | .mmap addr length _ fd offset => s.Reopens t addr length fd offset
  | _ => False

end Procs

section

variable {live : Tid → Prop} {t : Tid} {s s' : Vm} {ok : Bool}

theorem outcome_ends {p : VmProg Bool} {P : Vm → Prop} {Q : Bool → Vm → Prop}
    (h : p.Ends (fun e s' => e.Kills = true → P s') Q s) (ho : outcome p s = .ok (ok, s')) :
    Q ok s' ∨ (ok = false ∧ P s') := by
  obtain ⟨hok, herr⟩ := Prog.ends_leave h
  unfold outcome at ho
  split at ho
  · next hl =>
    cases ho
    exact .inl (hok _ _ hl)
  · next hl =>
    split at ho
    · next hk =>
      cases ho
      exact .inr ⟨rfl, herr _ _ hl hk⟩
    · cases ho

/-- What follows the call is only that the process goes on. -/
theorem ends_goes {α : Type} {p : VmProg α} {P : VmFault → Vm → Prop} {Q : Vm → Prop} (h : p.Ends P (fun _ => Q) s) :
    (do let _ ← p; pure true : VmProg Bool).Ends P (fun ok s' => ok = true ∧ Q s') s :=
  Prog.ends_bind <| Prog.ends_mono (fun _ _ h => h) (fun _ _ h => Prog.ends_pure ⟨rfl, h⟩) h

/-- **The steps of a call.** -/
theorem steps_call {c : ProcCall} (h : FilesOk live s) (ht : live t) (ho : outcome (c.prog t) s = .ok (ok, s')) :
    FileSteps (Procs.replaces s t c) (Procs.maps s t c) t s s' := by
  have hgoes : ∀ {α : Type} {p : VmProg α} {R M}, p.Ends (Killed R M t s) (fun _ => FileSteps R M t s) s →
      outcome (do let _ ← p; pure true) s = .ok (ok, s') → FileSteps R M t s s' := by
    intro α p R M hp ho
    rcases outcome_ends (ends_goes hp) ho with ⟨-, hs⟩ | ⟨-, hs⟩
    · exact hs
    · exact hs
  cases c with
  | openFile file name => exact hgoes (ends_openFile h) ho
  | close fd => exact hgoes (Prog.ends_mono (fun _ _ h => h) (fun _ _ h => h.1) (ends_close h)) ho
  | exec name phdrs =>
    rcases outcome_ends (ends_processExec h ht) ho with ⟨hs, -⟩ | ⟨-, hs⟩
    · exact hs
    · exact hs
  | mmap addr length writable fd offset => exact hgoes (ends_mmap h ht) ho
  | munmap addr => exact hgoes ends_munmap ho
  | fault rsp addr => exact hgoes (ends_remaps remaps_pageFault) ho

/-- An image that is loaded has a `runn_file`. -/
theorem runs_exec {name : CStr} {phdrs : Option (List Phdr)} (h : FilesOk live s) (ht : live t)
    (ho : outcome (processExec t name phdrs) s = .ok (true, s')) : s'.Runs t := by
  rcases outcome_ends (ends_processExec (M := False) h ht) ho with ⟨-, hr⟩ | ⟨hc, -⟩
  · exact hr rfl
  · cases hc

theorem steps_fork {parent child : Tid} (h : FilesOk live s) (hc : ¬ live child) (hne : parent ≠ child)
    (ho : outcome (doFork child parent) s = .ok (ok, s')) :
    FileSteps (fun _ => False) False child (s.newProcess child) s' := by
  rcases outcome_ends (ends_doFork h hc hne) ho with hs | ⟨-, hs⟩
  · exact hs
  · exact hs

/-- `process_exit` ends, or the process is killed once more. -/
theorem steps_exit (h : FilesOk live s) (ht : live t)
    (ho : outcome (do processExit t; pure true) s = .ok (ok, s')) :
    (ok = true ∧ ∃ s₁, FileSteps (fun _ => False) False t s s₁ ∧ Exited t s₁ s') ∨
      (ok = false ∧ FileSteps (fun _ => False) False t s s') := by
  rcases outcome_ends (ends_goes (ends_processExit h ht)) ho with hs | hs
  · exact .inl hs
  · exact .inr hs

/-- The process is gone. -/
theorem FilesOk.exited (h : FilesOk live s) (ht : live t) (hs : Exited t s s') :
    FilesOk (fun u => live u ∧ u ≠ t) s' := by
  have hkeep : ∀ {f}, s.runnFile t ≠ some f → s'.fs.handle f = s.fs.handle f := by
    intro f hf
    rw [hs.handle]
    exact if_neg hf
  constructor
  · exact hs.counted
  · exact fun u => hs.fdIndex u (h.fdIndex u)
  · intro u n f hf
    rw [hs.fdt] at hf
    obtain ⟨lo, hi, sector, hh⟩ := h.fd u n f hf
    refine ⟨lo, hi, sector, ?_⟩
    rw [hkeep, hh]
    intro hrunn
    obtain ⟨sector', hh'⟩ := h.runn t ht f hrunn
    rw [hh] at hh'
    cases hh'
  · rw [hs.fdt]
    exact h.fdInj
  · intro u hu f hf
    rw [hs.runn] at hf
    rw [hkeep fun hc => hu.2 (h.runnInj u t f hu.1 ht hf hc)]
    exact h.runn u hu.1 f hf
  · rw [hs.runn]
    exact fun u u' f hu hu' => h.runnInj u u' f hu.1 hu'.1
  · intro u hu
    rw [hs.fdt, hs.spt]
    by_cases hut : u = t
    · rw [hut]
      exact ⟨hs.empty, hs.unmapped⟩
    · exact h.gone u fun hl => hu ⟨hl, hut⟩

theorem FilesOk.congr {live' : Tid → Prop} (h : FilesOk live s) (hl : ∀ u, live' u ↔ live u) : FilesOk live' s := by
  have he : live' = live := funext fun u => propext (hl u)
  rwa [he]

end

namespace Procs

variable {s s' : Procs} {a : ProcAction} {t u : Tid}

theorem live_update {live : Tid → Bool} {b : Bool} :
    update live t b u = true ↔ (u = t ∧ b = true) ∨ (u ≠ t ∧ live u = true) := by
  by_cases hu : u = t
  · subst hu
    simp
  · simp [hu]

/-- What a step does. -/
theorem step_cases (hs : s.step a = .ok s') :
    (∃ t, a = .start t ∧ s.live t = false ∧ s' = { s with
      vm := s.vm.newProcess t, live := update s.live t true, failed := update s.failed t false
      image := update s.image t none }) ∨
    (∃ t c ok vm, a = .call t c ∧ s.live t = true ∧ outcome (c.prog t) s.vm = .ok (ok, vm) ∧ s' = { s with
      vm := vm, failed := update s.failed t !ok, image := s.runs t vm ok c, owner := s.own t vm }) ∨
    (∃ t child ok vm, a = .fork t child ∧ s.live t = true ∧ s.live child = false ∧
      outcome (doFork child t) s.vm = .ok (ok, vm) ∧ s' = {
        vm := vm, live := update s.live child true, failed := update s.failed child !ok
        image := update s.image child (if ok then s.image t else none), owner := s.own child vm }) ∨
    ∃ t ok vm, a = .exit t ∧ s.live t = true ∧ outcome (do processExit t; pure true) s.vm = .ok (ok, vm) ∧
      s' = { s with
        vm := vm, live := update s.live t !ok, failed := update s.failed t !ok
        image := if ok then update s.image t none else s.image, owner := s.own t vm } := by
  cases a with
  | start t =>
    dsimp only [step] at hs
    split at hs
    · cases hs
    · next hl =>
      cases hs
      exact .inl ⟨t, rfl, by simpa using hl, rfl⟩
  | call t c =>
    dsimp only [step] at hs
    split at hs
    · next hl =>
      split at hs
      · cases hs
      · next ho =>
        cases hs
        exact .inr (.inl ⟨t, c, _, _, rfl, (Bool.and_eq_true_iff.mp hl).1, ho, rfl⟩)
    · cases hs
  | fork t child =>
    dsimp only [step] at hs
    split at hs
    · next hl =>
      obtain ⟨hl, hchild⟩ := Bool.and_eq_true_iff.mp hl
      split at hs
      · cases hs
      · next ho =>
        cases hs
        exact .inr (.inr (.inl ⟨t, child, _, _, rfl, (Bool.and_eq_true_iff.mp hl).1, by simpa using hchild, ho, rfl⟩))
    · cases hs
  | exit t =>
    dsimp only [step] at hs
    split at hs
    · next hl =>
      split at hs
      · cases hs
      · next ho =>
        cases hs
        exact .inr (.inr (.inr ⟨t, _, _, rfl, hl, ho, rfl⟩))
    · cases hs

/-- **The files of processes stay open.** -/
theorem filesOk_step (h : FilesOk s.Live s.vm) (hs : s.step a = .ok s') : FilesOk s'.Live s'.vm := by
  obtain ⟨t, -, hl, rfl⟩ | ⟨t, c, ok, vm, -, hl, ho, rfl⟩ | ⟨t, child, ok, vm, -, hl, hc, ho, rfl⟩ |
    ⟨t, ok, vm, -, hl, ho, rfl⟩ := step_cases hs
  · have hdead : ¬ s.Live t := by simp [Live, hl]
    refine (h.newProcess hdead).congr fun u => ?_
    unfold Live
    rw [live_update]
    simp only [and_true]
    tauto
  · exact h.steps hl (steps_call h hl ho)
  · have hdead : ¬ s.Live child := by simp [Live, hc]
    have hne : t ≠ child := by
      rintro rfl
      exact hdead hl
    refine ((h.newProcess hdead).steps (.inr rfl) (steps_fork h hdead hne ho)).congr fun u => ?_
    unfold Live
    rw [live_update]
    simp only [and_true]
    tauto
  · rcases steps_exit h hl ho with ⟨rfl, s₁, hs₁, hexit⟩ | ⟨rfl, hs₁⟩
    · refine ((h.steps hl hs₁).exited hl hexit).congr fun u => ?_
      unfold Live
      rw [live_update]
      simp only [Bool.not_true, Bool.false_eq_true, and_false, false_or]
      tauto
    · refine (h.steps hl hs₁).congr fun u => ?_
      unfold Live
      rw [live_update]
      simp only [Bool.not_false, and_true]
      by_cases hu : u = t
      · simp [hu, hl]
      · simp [hu]

theorem Start.filesOk (h : s.Start) : FilesOk s.Live s.vm := by
  have hdead : ∀ t, ¬ s.Live t := fun t hl => by
    have hf := h.live t
    unfold Live at hl
    rw [hf] at hl
    cases hl
  constructor
  · exact h.counted
  · exact h.fdIndex
  · intro t n f hf
    rw [h.fdt] at hf
    cases hf
  · intro t n t' n' f hf
    rw [h.fdt] at hf
    cases hf
  · exact fun t ht => absurd ht (hdead t)
  · exact fun t t' f ht => absurd ht (hdead t)
  · exact fun t _ => ⟨h.fdt t, h.spt t⟩

theorem filesOk_of_reach {C : Procs → ProcAction → Prop} (h₀ : s.Start) (h : Reach step C s s') :
    FilesOk s'.Live s'.vm :=
  h.invariant (I := fun s => FilesOk s.Live s.vm) h₀.filesOk fun _ _ _ hI _ hs => filesOk_step hI hs

end Procs

/-! ## Two programs -/

/-- A root directory with the programs `a` and `b`, both without bytes. -/
def programs (sector : Nat) : Sector :=
  if sector = ROOT_DIR_SECTOR then sectorOf (InodeDisk.bytes { start := 2, length := 40 })
  else if sector = 2 then
    sectorOf (DirEntry.toBytes { inodeSector := 3, name := 97 :: List.replicate 14 0, inUse := true } ++
      DirEntry.toBytes { inodeSector := 4, name := 98 :: List.replicate 14 0, inUse := true })
  else sectorOf (InodeDisk.bytes { start := 5, length := 0 })

namespace Procs

def boot : Procs where
  vm := Vm.boot (FileSys.boot programs 6 ⟨0, []⟩ [] { start := 0, length := 0 }) [false, false] 0
  live := fun _ => false
  failed := fun _ => false
  image := fun _ => none
  owner := fun _ => none

theorem boot_start : boot.Start where
  counted := ⟨[], counts_boot programs 6 ⟨0, []⟩ { start := 0, length := 0 }⟩
  denies := nofun
  live _ := rfl
  fdt _ _ := rfl
  fdIndex _ := le_rfl
  spt _ := rfl
  owner _ := rfl

def execA (phdrs : List Phdr) : ProcCall := .exec ⟨[97], CStr.noNul_a⟩ (some phdrs)
def execB : ProcCall := .exec ⟨[98], CStr.noNul_b⟩ (some [])

end Procs

end Pintos
