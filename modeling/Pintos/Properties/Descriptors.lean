import Pintos.Properties.Handles
import Pintos.Userprog.Descriptors

/-!
# Descriptors

Every entry of a table from 2 on is empty or holds an open file of its own, over all runs of calls and
forks. What the calls do with a number that is no descriptor is told apart by the number alone.

* `Ok` — the tables are in order
* `Effect` — what a call changes
* `ok_of_reach` — the tables are in order in every state that is reached
* `call_safe_iff` — which calls stay within the table and follow open files only
-/

namespace Pintos

open Function

namespace Descriptors

/-- The word of an entry from 2 on. -/
def wordOf : Option FilePtr → FdWord
  | none => .null
  | some f => .file f

/-- The tables are in order. -/
structure Ok (s : Descs) : Prop where
  counted : s.fs.Counted
  stdin : ∀ t, s.live t = true → s.fdt t 0 = .stdin
  stdout : ∀ t, s.live t = true → s.fdt t 1 = .stdout
  entry : ∀ t n, s.live t = true → 2 ≤ n → s.fdt t n = wordOf (s.given t n)
  /-- A file that was given is open, and denies no writes. -/
  opened : ∀ t n f, s.given t n = some f →
    s.live t = true ∧ 2 ≤ n ∧ n < FDCOUNT_LIMIT ∧ ∃ sector, s.fs.handle f = some (sector, false)
  /-- It was given once. -/
  own : ∀ t n t' n' f, s.given t n = some f → s.given t' n' = some f → t = t' ∧ n = n'
  index : ∀ t, s.live t = true → 2 ≤ s.fdIndex t

/-- What a call leaves of the rest. -/
structure Around (s s' : Descs) : Prop where
  counted : s'.fs.Counted
  live : s'.live = s.live
  index : ∀ u, 2 ≤ s.fdIndex u → 2 ≤ s'.fdIndex u

/-- What a call of process `t` changes. -/
inductive Effect (t : Tid) (s s' : Descs) : Prop
  /-- Bytes, positions and the cursor. -/
  | same (ha : Around s s') (hh : s'.fs.handle = s.fs.handle) (hfdt : s'.fdt = s.fdt) (hgiven : s'.given = s.given)
  /-- A file is opened that has no descriptor. -/
  | maps {f : FilePtr} {sector : Nat} (ha : Around s s') (hf : s.fs.handle f = none)
      (hh : s'.fs.handle = update s.fs.handle f (some (sector, false))) (hfdt : s'.fdt = s.fdt)
      (hgiven : s'.given = s.given)
  | opens {n : Nat} {f : FilePtr} {sector : Nat} (ha : Around s s') (hf : s.fs.handle f = none)
      (h2 : 2 ≤ n) (hn : n < FDCOUNT_LIMIT) (hnone : s.given t n = none)
      (hh : s'.fs.handle = update s.fs.handle f (some (sector, false)))
      (hfdt : s'.fdt = update s.fdt t (update (s.fdt t) n (.file f)))
      (hgiven : s'.given = update s.given t (update (s.given t) n (some f)))
  | closes {n : Nat} {f : FilePtr} (ha : Around s s') (hf : s.given t n = some f)
      (hh : s'.fs.handle = update s.fs.handle f none)
      (hfdt : s'.fdt = update s.fdt t (update (s.fdt t) n .null))
      (hgiven : s'.given = update s.given t (update (s.given t) n none))

section

variable {s s' s₁ : Descs} {t u : Tid} {n m : Nat} {f g : FilePtr} {fd : Int} {sector : Nat}

/-! ## What a call changes keeps the tables in order -/

/-- An entry of a table after one is changed. -/
theorem update_entry {β : Type} (tables : Tid → Nat → β) (x : β) :
    update tables t (update (tables t) n x) u m = if u = t ∧ m = n then x else tables u m := by
  by_cases hu : u = t
  · subst hu
    rw [update_self]
    by_cases hm : m = n
    · rw [hm, update_self, if_pos ⟨rfl, rfl⟩]
    · rw [update_of_ne hm, if_neg fun hc => hm hc.2]
  · rw [update_of_ne hu, if_neg fun hc => hu hc.1]

theorem Ok.not_given (h : Ok s) (hf : s.fs.handle f = none) : s.given u m ≠ some f := by
  intro hg
  obtain ⟨-, -, -, sector, hh⟩ := h.opened u m f hg
  rw [hf] at hh
  cases hh

/-- The entry is another than 0 and 1. -/
theorem Ok.of_update {x : Option FilePtr} (h : Ok s) (ha : Around s s') (ht : s.live t = true) (h2 : 2 ≤ n)
    (hfdt : s'.fdt = update s.fdt t (update (s.fdt t) n (wordOf x)))
    (hgiven : s'.given = update s.given t (update (s.given t) n x))
    (hopened : ∀ u m f, s'.given u m = some f →
      s.live u = true ∧ 2 ≤ m ∧ m < FDCOUNT_LIMIT ∧ ∃ sector, s'.fs.handle f = some (sector, false))
    (hown : ∀ u m f, s'.given u m = some f → x = some f → u = t ∧ m = n) : Ok s' := by
  have hg : ∀ u m, s'.given u m = if u = t ∧ m = n then x else s.given u m := fun u m => by
    rw [hgiven, update_entry]
  have hw : ∀ u m, s'.fdt u m = if u = t ∧ m = n then wordOf x else s.fdt u m := fun u m => by
    rw [hfdt, update_entry]
  refine ⟨ha.counted, fun u hu => ?_, fun u hu => ?_, fun u m hu hm => ?_, fun u m f hf => ?_,
    fun u m u' m' f hf hf' => ?_, fun u hu => ?_⟩
  · rw [ha.live] at hu
    rw [hw, if_neg (by omega), h.stdin u hu]
  · rw [ha.live] at hu
    rw [hw, if_neg (by omega), h.stdout u hu]
  · rw [ha.live] at hu
    rw [hw, hg]
    split
    · rfl
    · exact h.entry u m hu hm
  · rw [ha.live]
    exact hopened u m f hf
  · by_cases hc : u = t ∧ m = n
    · rw [hg, if_pos hc] at hf
      obtain ⟨rfl, rfl⟩ := hown u' m' f hf' hf
      exact hc
    · by_cases hc' : u' = t ∧ m' = n
      · rw [hg, if_pos hc'] at hf'
        exact absurd (hown u m f hf hf') hc
      · rw [hg, if_neg hc] at hf
        rw [hg, if_neg hc'] at hf'
        exact h.own u m u' m' f hf hf'
  · rw [ha.live] at hu
    exact ha.index u (h.index u hu)

theorem Ok.effect (h : Ok s) (ht : s.live t = true) (he : Effect t s s') : Ok s' := by
  cases he with
  | same ha hh hfdt hgiven =>
    refine ⟨ha.counted, ?_, ?_, ?_, ?_, ?_, fun u hu => ha.index u (h.index u (ha.live ▸ hu))⟩
    · rw [ha.live, hfdt]
      exact h.stdin
    · rw [ha.live, hfdt]
      exact h.stdout
    · rw [ha.live, hfdt, hgiven]
      exact h.entry
    · rw [ha.live, hgiven, hh]
      exact h.opened
    · rw [hgiven]
      exact h.own
  | @maps f sector ha hf hh hfdt hgiven =>
    refine ⟨ha.counted, ?_, ?_, ?_, fun u m g hg => ?_, ?_, fun u hu => ha.index u (h.index u (ha.live ▸ hu))⟩
    · rw [ha.live, hfdt]
      exact h.stdin
    · rw [ha.live, hfdt]
      exact h.stdout
    · rw [ha.live, hfdt, hgiven]
      exact h.entry
    · rw [hgiven] at hg
      rw [ha.live, hh, update_of_ne fun hc => h.not_given hf (hc ▸ hg)]
      exact h.opened u m g hg
    · rw [hgiven]
      exact h.own
  | @opens n f sector ha hf h2 hn hnone hh hfdt hgiven =>
    refine h.of_update (x := some f) ha ht h2 hfdt hgiven (fun u m g hg => ?_) fun u m g hg hx => ?_
    · rw [hgiven, update_entry] at hg
      split at hg
      · next hc =>
        cases hg
        exact ⟨hc.1 ▸ ht, hc.2 ▸ h2, hc.2 ▸ hn, sector, by rw [hh, update_self]⟩
      · rw [hh, update_of_ne fun hc => h.not_given hf (hc ▸ hg)]
        exact h.opened u m g hg
    · cases hx
      rw [hgiven, update_entry] at hg
      split at hg
      · next hc => exact hc
      · exact absurd hg (h.not_given hf)
  | @closes n f ha hf hh hfdt hgiven =>
    obtain ⟨-, h2, -, -⟩ := h.opened t n f hf
    refine h.of_update (x := none) ha ht h2 hfdt hgiven (fun u m g hg => ?_) fun u m g hg hx => by cases hx
    rw [hgiven, update_entry] at hg
    split at hg
    · cases hg
    · next hc =>
      have hne : g ≠ f := fun he => hc (h.own u m t n f (he ▸ hg) hf)
      rw [hh, update_of_ne hne]
      exact h.opened u m g hg

/-! ## Looking for a file -/

theorem run_loadEntry (h0 : 0 ≤ fd) (hlt : fd < FDCOUNT_LIMIT) :
    (loadEntry t fd).run s = .ok (s.fdt t fd.toNat, s) :=
  Prog.run_read (by rw [if_pos ⟨h0, hlt⟩])

theorem run_storeEntry {w : FdWord} (h0 : 0 ≤ fd) (hlt : fd < FDCOUNT_LIMIT) :
    (storeEntry t fd w).run s = .ok ((), s.setEntry t fd.toNat w) :=
  Prog.run_write (by rw [if_pos ⟨h0, hlt⟩])

theorem run_loadEntry_limit : (loadEntry t FDCOUNT_LIMIT).run s = .error .outside := by
  rw [loadEntry, Prog.read, Prog.run_lift, if_neg (by omega)]

/-- What `find_file_by_fd` finds, by the number. -/
inductive Found (s : Descs) (t : Tid) (fd : Int) : Prop
  | limit (hfd : fd = FDCOUNT_LIMIT) (hrun : (findFileByFd t fd).run s = .error .outside)
  | null (hfd : fd ≠ 0 ∧ fd ≠ 1 ∧ fd ≠ FDCOUNT_LIMIT) (hrun : (findFileByFd t fd).run s = .ok (.null, s))
      (hnone : s.given t fd.toNat = none)
  | stdin (hfd : fd = 0) (hrun : (findFileByFd t fd).run s = .ok (.stdin, s))
  | stdout (hfd : fd = 1) (hrun : (findFileByFd t fd).run s = .ok (.stdout, s))
  | file {f : FilePtr} (h2 : 2 ≤ fd) (hlt : fd < FDCOUNT_LIMIT) (hf : s.given t fd.toNat = some f)
      (hrun : (findFileByFd t fd).run s = .ok (.file f, s))

theorem Ok.found (h : Ok s) (ht : s.live t = true) (fd : Int) : Found s t fd := by
  have hlimit : FDCOUNT_LIMIT = 1536 := rfl
  by_cases hout : fd < 0 ∨ (FDCOUNT_LIMIT : Int) < fd
  · have hnone : s.given t fd.toNat = none := by
      by_contra hne
      obtain ⟨f, hf⟩ := Option.ne_none_iff_exists'.mp hne
      obtain ⟨-, h2, hlt, -⟩ := h.opened t _ f hf
      omega
    refine .null ⟨by omega, by omega, by omega⟩ ?_ hnone
    rw [findFileByFd, if_pos hout]
    rfl
  · have hrun : (findFileByFd t fd).run s = (loadEntry t fd).run s := by rw [findFileByFd, if_neg hout]
    by_cases hlim : fd = FDCOUNT_LIMIT
    · exact .limit hlim (by rw [hrun, hlim, run_loadEntry_limit])
    · rw [run_loadEntry (by omega) (by omega)] at hrun
      by_cases h0 : fd = 0
      · rw [h0, Int.toNat_zero, h.stdin t ht] at hrun
        exact .stdin h0 (h0 ▸ hrun)
      · by_cases h1 : fd = 1
        · rw [h1, Int.toNat_one, h.stdout t ht] at hrun
          exact .stdout h1 (h1 ▸ hrun)
        · rw [h.entry t _ ht (by omega)] at hrun
          cases hg : s.given t fd.toNat with
          | none =>
            rw [hg] at hrun
            exact .null ⟨h0, h1, hlim⟩ hrun hg
          | some f =>
            rw [hg] at hrun
            exact .file (by omega) (by omega) hg hrun

theorem Ok.files_ne (h : Ok s) (hf : s.given t n = some f) : s.fs.files f ≠ none := by
  obtain ⟨-, -, -, sector, hh⟩ := h.opened t n f hf
  intro hc
  rw [handle_none hc] at hh
  cases hh

theorem Ok.run_asFile (h : Ok s) (hf : s.given t fd.toNat = some f) :
    (asFile t fd (.file f)).run s = .ok (f, s) :=
  Prog.run_read (if_pos ⟨hf, h.files_ne hf⟩)

/-! ## What the calls do -/

/-- An entry outside of the table is used, or a word is followed that is no open file. -/
def DescFault.Misuse (e : DescFault) : Prop := e = .outside ∨ e = .notFile

/-- Entries are misused where `bad` holds only. -/
abbrev Fails (bad : Prop) : DescFault → Descs → Prop := fun e _ => e.Misuse → bad

section

variable {bad : Prop} {α β : Type} {Q : β → Descs → Prop}

theorem ends_map {p : DescProg α} {g : α → β} (h : p.Ends (Fails bad) (fun a s' => Q (g a) s') s) :
    (g <$> p).Ends (Fails bad) Q s :=
  Prog.ends_bind (Prog.ends_mono (fun _ _ he => he) (fun _ _ hq => Prog.ends_pure hq) h)

theorem ends_checkPointer {valid : Bool} {k : Unit → DescProg β}
    (hk : valid = true → (k ()).Ends (Fails bad) Q s) : (checkPointer valid >>= k).Ends (Fails bad) Q s := by
  cases valid with
  | true => exact hk rfl
  | false =>
    refine Prog.ends_bind (Prog.ends_lift (fun e he => ?_) fun a s' hr => by cases hr)
    cases he
    rintro (hc | hc) <;> cases hc

theorem ends_liftFs {p : FsProg β} (h : ∀ a fs', p.run s.fs = .ok (a, fs') → Q a { s with fs := fs' }) :
    (liftFs p).Ends (Fails bad) Q s := by
  refine Prog.ends_zoom ?_ ?_ ?_ (fun e _ => ?_) h
  · exact fun _ _ => rfl
  · exact fun _ _ _ => rfl
  · exact fun _ => rfl
  · rintro (hc | hc) <;> cases hc

theorem Ok.ends_found (h : Ok s) (ht : s.live t = true) {k : FdWord → DescProg β}
    (hlim : fd = FDCOUNT_LIMIT → bad)
    (hnull : fd ≠ FDCOUNT_LIMIT → s.given t fd.toNat = none → (k .null).Ends (Fails bad) Q s)
    (hin : fd = 0 → (k .stdin).Ends (Fails bad) Q s) (hout : fd = 1 → (k .stdout).Ends (Fails bad) Q s)
    (hfile : ∀ f, 2 ≤ fd → fd < FDCOUNT_LIMIT → s.given t fd.toNat = some f →
      (k (.file f)).Ends (Fails bad) Q s) : (findFileByFd t fd >>= k).Ends (Fails bad) Q s := by
  refine Prog.ends_bind ?_
  cases h.found ht fd with
  | limit hfd hrun =>
    refine Prog.ends_of_leave (fun a s' hr => ?_) fun e s' _ _ => hlim hfd
    rw [Prog.leave_eq_ok, hrun] at hr
    cases hr
  | null hfd hrun hnone => exact Prog.ends_of_run hrun (hnull hfd.2.2 hnone)
  | stdin hfd hrun => exact Prog.ends_of_run hrun (hin hfd)
  | stdout hfd hrun => exact Prog.ends_of_run hrun (hout hfd)
  | @file f h2 hlt hf hrun => exact Prog.ends_of_run hrun (hfile f h2 hlt hf)

theorem Ok.ends_asFile {P : DescFault → Descs → Prop} (h : Ok s) (hf : s.given t fd.toNat = some f)
    {k : FilePtr → DescProg β} (hk : (k f).Ends P Q s) : (asFile t fd (.file f) >>= k).Ends P Q s :=
  Prog.ends_bind (Prog.ends_of_run (h.run_asFile hf) hk)

theorem ends_notFile {w : FdWord} {k : FilePtr → DescProg β} (hw : ∀ f, w ≠ .file f) (hbad : bad) :
    (asFile t fd w >>= k).Ends (Fails bad) Q s := by
  have hfail : asFile t fd w = Prog.fail .notFile := by
    cases w with
    | file f => exact absurd rfl (hw f)
    | _ => rfl
  rw [hfail]
  refine Prog.ends_bind (Prog.ends_lift (fun _ _ _ => hbad) fun a s' hr => by cases hr)

end

theorem Around.refl (h : Ok s) : Around s s := ⟨h.counted, rfl, fun _ hu => hu⟩

theorem Ok.effect_refl (h : Ok s) : Effect t s s := .same (.refl h) rfl rfl rfl

theorem Ok.effect_fs {fs' : FileSys} (h : Ok s) (hs : SameHandles s.fs fs') :
    Effect t s { s with fs := fs' } := by
  obtain ⟨hc, hh⟩ := handle_of_same h.counted hs
  exact .same ⟨hc, rfl, fun _ hu => hu⟩ hh rfl rfl

/-- A call of the file system that moves bytes and positions. -/
theorem Ok.ends_fs {α : Type} {bad : Prop} {p : FsProg α} (h : Ok s) (hp : p.Does SameHandles FsFault.Plain) :
    (liftFs p).Ends (Fails bad) (fun _ => Effect t s) s :=
  ends_liftFs fun _ _ hr => h.effect_fs (hp.run .refl .trans hr)

variable {valid : Bool} {length : BitVec 32}

theorem ends_filesize (h : Ok s) (ht : s.live t = true) :
    (filesize t fd).Ends (Fails (fd = 0 ∨ fd = 1 ∨ fd = FDCOUNT_LIMIT)) (fun _ => Effect t s) s := by
  refine h.ends_found ht (fun hl => .inr (.inr hl)) (fun _ _ => ?_) (fun h0 => ?_) (fun h1 => ?_) fun f _ _ hf => ?_
  · exact Prog.ends_pure h.effect_refl
  · exact ends_notFile nofun (.inl h0)
  · exact ends_notFile nofun (.inr (.inl h1))
  · exact h.ends_asFile hf (h.ends_fs does_fileLength)

theorem ends_readInput {bad : Prop} : ∀ k i {s : Descs}, Ok s →
    (readInput k i).Ends (Fails bad) (fun _ => Effect t s) s
  | 0, _, _, h => Prog.ends_pure h.effect_refl
  | k + 1, i, s, h => by
    refine Prog.ends_bind (Prog.ends_lift (fun e he => by cases he) fun c s' hs => ?_)
    cases hs
    have hsame : ∀ s', Effect t { s with input := fun n => s.input (n + 1) } s' → Effect t s s' := by
      rintro s' (⟨ha, hh, hfdt, hgiven⟩ | ⟨ha, hf, hh, hfdt, hgiven⟩ | ⟨ha, hf, h2, hn, hnone, hh, hfdt, hgiven⟩ |
        ⟨ha, hf, hh, hfdt, hgiven⟩)
      · exact .same ⟨ha.counted, ha.live, ha.index⟩ hh hfdt hgiven
      · exact .maps ⟨ha.counted, ha.live, ha.index⟩ hf hh hfdt hgiven
      · exact .opens ⟨ha.counted, ha.live, ha.index⟩ hf h2 hn hnone hh hfdt hgiven
      · exact .closes ⟨ha.counted, ha.live, ha.index⟩ hf hh hfdt hgiven
    have hok : Ok { s with input := fun n => s.input (n + 1) } :=
      ⟨h.counted, h.stdin, h.stdout, h.entry, h.opened, h.own, h.index⟩
    split
    · exact Prog.ends_pure (hsame _ hok.effect_refl)
    · exact Prog.ends_mono (fun _ _ he => he) (fun _ s' => hsame s') (ends_readInput k (i + 1) hok)

theorem ends_read (h : Ok s) (ht : s.live t = true) :
    (read t valid fd length).Ends (Fails (valid = true ∧ fd = FDCOUNT_LIMIT)) (fun _ => Effect t s) s := by
  refine ends_checkPointer fun hv => ?_
  split
  · exact Prog.ends_bind (Prog.ends_mono (fun _ _ he => he) (fun _ _ he => Prog.ends_pure he)
      (ends_readInput _ 0 h))
  · split
    · exact Prog.ends_pure h.effect_refl
    · next h0 h1 =>
      refine h.ends_found ht (fun hl => ⟨hv, hl⟩) (fun _ _ => ?_) (fun hc => absurd hc h0) (fun hc => absurd hc h1)
        fun f _ _ hf => ?_
      · exact Prog.ends_pure h.effect_refl
      · exact h.ends_asFile hf (Prog.ends_bind (Prog.ends_mono (fun _ _ he => he)
          (fun _ _ he => Prog.ends_pure he) (h.ends_fs does_fileRead)))

theorem ends_write {buffer : Nat → LittleEndian.Byte} (h : Ok s) (ht : s.live t = true) :
    (write t valid fd buffer length).Ends (Fails (valid = true ∧ fd = FDCOUNT_LIMIT)) (fun _ => Effect t s) s := by
  refine ends_checkPointer fun hv => ?_
  split
  · exact Prog.ends_pure h.effect_refl
  · split
    · exact Prog.ends_pure h.effect_refl
    · next h1 h0 =>
      refine h.ends_found ht (fun hl => ⟨hv, hl⟩) (fun _ _ => ?_) (fun hc => absurd hc h0) (fun hc => absurd hc h1)
        fun f _ _ hf => ?_
      · exact Prog.ends_pure h.effect_refl
      · exact h.ends_asFile hf (Prog.ends_bind (Prog.ends_mono (fun _ _ he => he)
          (fun _ _ he => Prog.ends_pure he) (h.ends_fs does_fileWrite)))

theorem ends_seek {position : BitVec 32} (h : Ok s) (ht : s.live t = true) :
    (seek t fd position).Ends (Fails (fd = FDCOUNT_LIMIT)) (fun _ => Effect t s) s := by
  refine h.ends_found ht (fun hl => hl) (fun _ _ => ?_) (fun _ => ?_) (fun _ => ?_) fun f _ _ hf => ?_
  · exact Prog.ends_pure h.effect_refl
  · exact Prog.ends_pure h.effect_refl
  · exact Prog.ends_pure h.effect_refl
  · exact h.ends_asFile hf (ends_liftFs fun _ _ hr => h.effect_fs (does_fileSeek.run .refl .trans hr))

theorem ends_tell (h : Ok s) (ht : s.live t = true) :
    (tell t fd).Ends (Fails (fd = FDCOUNT_LIMIT)) (fun _ => Effect t s) s := by
  refine h.ends_found ht (fun hl => hl) (fun _ _ => ?_) (fun _ => ?_) (fun _ => ?_) fun f _ _ hf => ?_
  · exact Prog.ends_pure h.effect_refl
  · exact Prog.ends_pure h.effect_refl
  · exact Prog.ends_pure h.effect_refl
  · exact h.ends_asFile hf (Prog.ends_bind (Prog.ends_mono (fun _ _ he => he)
      (fun _ _ he => Prog.ends_pure he) (h.ends_fs does_fileTell)))

theorem run_liftFs {α : Type} (p : FsProg α) (s : Descs) : (liftFs p).run s = (match p.run s.fs with
    | .error e => .error (.fs e)
    | .ok (a, fs') => .ok (a, { s with fs := fs' })) := by
  rw [liftFs, Prog.run_zoom Descs.fs (fun s fs => { s with fs := fs }) DescFault.fs (fun _ _ => rfl)
    (fun _ _ _ => rfl) (fun _ => rfl)]
  cases p.run s.fs with
  | error e => rfl
  | ok r => rfl

theorem run_removeFileFromFdt (h2 : 2 ≤ fd) (hlt : fd < FDCOUNT_LIMIT) :
    (removeFileFromFdt t fd).run s = .ok ((), s.setEntry t fd.toNat .null) := by
  rw [removeFileFromFdt, if_neg (by omega), run_storeEntry (by omega) hlt]

/-- The file is followed after its entry is cleared. -/
theorem Ok.run_asFile_removed (h : Ok s) (hf : s.given t fd.toNat = some f) :
    (asFile t fd (.file f)).run (s.setEntry t fd.toNat .null) = .ok (f, s.setEntry t fd.toNat .null) :=
  Prog.run_read (if_pos ⟨hf, h.files_ne hf⟩)

/-- `close` of an open file. -/
theorem Ok.run_close (h : Ok s) (hf : s.given t fd.toNat = some f) (h2 : 2 ≤ fd) (hlt : fd < FDCOUNT_LIMIT)
    (hrun : (findFileByFd t fd).run s = .ok (.file f, s)) :
    (close t fd).run s = (match (fileClose (some f)).run s.fs with
      | .error e => .error (.fs e)
      | .ok (_, fs') => .ok ((), (({ s with fs := fs' } : Descs).setEntry t fd.toNat .null).setGiven t fd.toNat none)) := by
  have hlift := run_liftFs (fileClose (some f)) (s.setEntry t fd.toNat .null)
  have hfs : (s.setEntry t fd.toNat .null).fs = s.fs := rfl
  rw [hfs] at hlift
  rw [close, if_neg (by omega), Prog.run_bind_ok hrun, if_neg nofun,
    Prog.run_bind_ok (run_removeFileFromFdt h2 hlt), Prog.run_bind_ok (h.run_asFile_removed hf), Prog.run_bind]
  cases hc : (fileClose (some f)).run s.fs with
  | error e =>
    rw [hc] at hlift
    rw [hlift]
  | ok r =>
    rw [hc] at hlift
    rw [hlift]
    rfl

theorem ends_close (h : Ok s) (ht : s.live t = true) :
    (close t fd).Ends (Fails (fd = FDCOUNT_LIMIT)) (fun _ => Effect t s) s := by
  unfold close
  split
  · exact Prog.ends_pure h.effect_refl
  next hstd =>
  refine h.ends_found ht (fun hl => hl) (fun _ _ => ?_) (fun hc => absurd (.inl hc) hstd)
    (fun hc => absurd (.inr hc) hstd) fun f h2 hlt hf => ?_
  · exact Prog.ends_pure h.effect_refl
  obtain ⟨-, -, -, sector, hh⟩ := h.opened t _ f hf
  refine Prog.ends_bind (Prog.ends_of_run (run_removeFileFromFdt h2 hlt) (Prog.ends_bind
    (Prog.ends_of_run (h.run_asFile_removed hf) (Prog.ends_bind (ends_liftFs fun _ fs' hr => ?_)))))
  have hne : s.fs.handle f ≠ none := by
    rw [hh]
    exact nofun
  obtain ⟨hc, hh'⟩ := handle_fileClose h.counted hne hr
  exact Prog.ends_write (fun e he => by cases he) fun s' hs => by
    cases hs
    exact .closes ⟨hc, rfl, fun _ hu => hu⟩ hf hh' rfl rfl

theorem ends_mmap {addr len : BitVec 64} {offset : Int} {found alloc : Bool} (h : Ok s) (ht : s.live t = true) :
    (mmap t addr len fd offset found alloc).Ends (Fails False) (fun _ => Effect t s) s := by
  unfold mmap
  split
  · exact Prog.ends_pure h.effect_refl
  next hrefuses =>
  split
  · exact Prog.ends_pure h.effect_refl
  have hfd : 1 < fd ∧ fd ≤ 63 := by
    by_contra hc
    exact hrefuses (by simp [mmapRefuses, hc])
  have hlimit : FDCOUNT_LIMIT = 1536 := rfl
  have hword := h.entry t fd.toNat ht (by omega)
  refine Prog.ends_bind (Prog.ends_of_run (run_loadEntry (by omega) (by omega)) ?_)
  cases hg : s.given t fd.toNat with
  | none =>
    rw [hword, hg, if_pos (show wordOf none = .null from rfl)]
    refine Prog.ends_lift (fun e he => ?_) fun a s' hr => by cases hr
    cases he
    rintro (hc | hc) <;> cases hc
  | some f =>
    rw [hword, hg, if_neg (show wordOf (some f) ≠ .null from nofun)]
    refine h.ends_asFile hg (Prog.ends_bind (ends_liftFs fun readBytes fs' hr => ?_))
    have hs := does_fileLength.run .refl .trans hr
    have he : Effect t s { s with fs := fs' } := h.effect_fs hs
    split
    · exact Prog.ends_pure he
    · obtain ⟨hc, hh⟩ := handle_of_same h.counted hs
      obtain ⟨-, -, -, sector, hf⟩ := h.opened t _ f hg
      refine Prog.ends_bind (ends_liftFs fun r fs₂ hr₂ => Prog.ends_pure ?_)
      obtain ⟨hc₂, ⟨-, hh₂⟩ | ⟨g, -, hg₂, hh₂⟩⟩ := handle_fileReopen hc (hh ▸ hf) hr₂
      · exact .same ⟨hc₂, rfl, fun _ hu => hu⟩ (hh₂.trans hh) rfl rfl
      · rw [hh] at hg₂ hh₂
        exact .maps ⟨hc₂, rfl, fun _ hu => hu⟩ hg₂ hh₂ rfl rfl

/-! ### `open` -/

/-- `add_file_to_fdt` stops at the first empty entry, or at the end of the table. -/
theorem nextFd_spec (fdt : Nat → FdWord) (fuel : Nat) : ∀ i,
    i ≤ nextFd fdt fuel i ∧ (∀ k, i ≤ k → k < nextFd fdt fuel i → k < FDCOUNT_LIMIT ∧ fdt k ≠ .null) ∧
      (nextFd fdt fuel i < FDCOUNT_LIMIT → fdt (nextFd fdt fuel i) = .null ∨ nextFd fdt fuel i = i + fuel) := by
  induction fuel with
  | zero => exact fun i => ⟨le_rfl, fun k h1 h2 => absurd h1 (Nat.not_le_of_lt h2), fun _ => .inr rfl⟩
  | succ fuel ih =>
    intro i
    unfold nextFd
    split
    · next hc =>
      obtain ⟨hle, hpassed, hr⟩ := ih (i + 1)
      refine ⟨by omega, fun k h1 h2 => ?_, fun hlt => ?_⟩
      · rcases Nat.eq_or_lt_of_le h1 with rfl | h1
        · exact hc
        · exact hpassed k h1 h2
      · rcases hr hlt with hnull | heq
        · exact .inl hnull
        · exact .inr (by omega)
    · next hc =>
      refine ⟨le_rfl, fun k h1 h2 => absurd h1 (Nat.not_le_of_lt h2), fun hlt => .inl ?_⟩
      by_contra hne
      exact hc ⟨hlt, hne⟩

theorem nextFd_null {fdt : Nat → FdWord} {i : Nat} (h : nextFd fdt FDCOUNT_LIMIT i < FDCOUNT_LIMIT) :
    fdt (nextFd fdt FDCOUNT_LIMIT i) = .null := by
  rcases (nextFd_spec fdt FDCOUNT_LIMIT i).2.2 h with hnull | heq
  · exact hnull
  · omega

theorem Ok.given_none (h : Ok s) (ht : s.live t = true) (h2 : 2 ≤ n) (hnull : s.fdt t n = .null) :
    s.given t n = none := by
  rw [h.entry t n ht h2] at hnull
  cases hg : s.given t n with
  | none => rfl
  | some f =>
    rw [hg] at hnull
    cases hnull

theorem ends_openFile {name : CStr} (h : Ok s) (ht : s.live t = true) :
    (openFile t valid name).Ends (Fails False) (fun _ => Effect t s) s := by
  refine ends_checkPointer fun _ => Prog.ends_bind (ends_liftFs fun r fs' hopen => ?_)
  obtain ⟨sector, hc, hr⟩ := handle_filesysOpen h.counted hopen
  rcases hr with ⟨rfl, hh⟩ | ⟨f, rfl, hf, hh⟩
  · exact Prog.ends_pure (.same ⟨hc, rfl, fun _ hu => hu⟩ hh rfl rfl)
  have h2 := h.index t ht
  have hle := (nextFd_spec (s.fdt t) FDCOUNT_LIMIT (s.fdIndex t)).1
  have hindex : ∀ u, 2 ≤ s.fdIndex u →
      2 ≤ update s.fdIndex t (nextFd (s.fdt t) FDCOUNT_LIMIT (s.fdIndex t)) u := by
    intro u hu
    by_cases hut : u = t
    · rw [hut, update_self]
      omega
    · rwa [update_of_ne hut]
  refine Prog.ends_bind (Prog.ends_lift (fun e he => ?_) fun fd s₁ hs₁ => ?_)
  · dsimp only at he
    split at he <;> cases he
  dsimp only at hs₁
  split at hs₁
  · -- there is no entry, and the file is closed again
    cases hs₁
    rw [if_pos rfl]
    refine Prog.ends_bind (ends_liftFs fun _ fs₂ hclose => Prog.ends_pure ?_)
    have hopened : fs'.handle f ≠ none := by
      rw [hh, update_self]
      exact nofun
    obtain ⟨hc₂, hh₂⟩ := handle_fileClose hc hopened hclose
    have hsame : fs₂.handle = s.fs.handle := by rw [hh₂, hh, update_idem, ← hf, update_eq_self]
    exact .same ⟨hc₂, rfl, hindex⟩ hsame rfl rfl
  · next hlt =>
    cases hs₁
    rw [if_neg (by omega)]
    refine Prog.ends_bind (Prog.ends_write (fun e he => by cases he) fun s' hs' => ?_)
    cases hs'
    exact Prog.ends_pure (.opens ⟨hc, rfl, hindex⟩ hf (le_trans h2 hle) (Nat.lt_of_not_le hlt)
      (h.given_none ht (le_trans h2 hle) (nextFd_null (Nat.lt_of_not_le hlt))) hh rfl rfl)

/-! ## The calls by number -/

/-- The numbers for which a call misuses no entry. -/
def Call.Safe : Call → Prop
  | .open _ _ => True
  | .filesize fd => fd ≠ 0 ∧ fd ≠ 1 ∧ fd ≠ FDCOUNT_LIMIT
  | .read valid fd _ => valid = true → fd ≠ FDCOUNT_LIMIT
  | .write valid fd _ _ => valid = true → fd ≠ FDCOUNT_LIMIT
  | .seek fd _ => fd ≠ FDCOUNT_LIMIT
  | .tell fd => fd ≠ FDCOUNT_LIMIT
  | .close fd => fd ≠ FDCOUNT_LIMIT
  | .mmap _ _ _ _ _ _ => True

theorem ends_call (h : Ok s) (ht : s.live t = true) (c : Call) :
    (c.prog t).Ends (Fails ¬ c.Safe) (fun _ => Effect t s) s := by
  have hmono : ∀ {bad : Prop} {α : Type} {p : DescProg α}, p.Ends (Fails bad) (fun _ => Effect t s) s →
      (bad → ¬ c.Safe) → p.Ends (Fails ¬ c.Safe) (fun _ => Effect t s) s := fun hp hbad =>
    Prog.ends_mono (fun _ _ he hm => hbad (he hm)) (fun _ _ hq => hq) hp
  cases c with
  | «open» valid name => exact ends_map (hmono (ends_openFile h ht) fun hf => hf.elim)
  | filesize fd =>
    refine ends_map (hmono (ends_filesize h ht) fun hb hs => ?_)
    rcases hb with hb | hb | hb
    · exact hs.1 hb
    · exact hs.2.1 hb
    · exact hs.2.2 hb
  | read valid fd length => exact ends_map (hmono (ends_read h ht) fun hb hs => hs hb.1 hb.2)
  | write valid fd buffer length => exact ends_map (hmono (ends_write h ht) fun hb hs => hs hb.1 hb.2)
  | seek fd position => exact ends_map (hmono (ends_seek h ht) fun hb hs => hs hb)
  | tell fd => exact ends_map (hmono (ends_tell h ht) fun hb hs => hs hb)
  | close fd => exact ends_map (hmono (ends_close h ht) fun hb hs => hs hb)
  | mmap addr length fd offset found alloc => exact ends_map (hmono (ends_mmap h ht) fun hf => hf.elim)

theorem run_bind_error {α β : Type} {p : DescProg α} {k : α → DescProg β} {e : DescFault}
    (h : p.run s = .error e) : (p >>= k).run s = .error e := by
  rw [Prog.run_bind, h]

theorem run_map {α β : Type} {p : DescProg α} {g : α → β} :
    (g <$> p).run s = (p.run s).map fun r => (g r.1, r.2) := by
  show (p >>= fun a => pure (g a)).run s = _
  rw [Prog.run_bind]
  cases p.run s with
  | error e => rfl
  | ok r => rfl

theorem run_find_limit : (findFileByFd t FDCOUNT_LIMIT).run s = .error .outside := by
  rw [findFileByFd, if_neg (by omega), run_loadEntry_limit]

/-- The number that the check lets through is behind the last entry. -/
theorem Ok.misuses (h : Ok s) (ht : s.live t = true) {c : Call} (hc : ¬ c.Safe) :
    ∃ e, (c.prog t).run s = .error e ∧ e.Misuse := by
  have hlimit : FDCOUNT_LIMIT = 1536 := rfl
  have hfind : ∀ {α β : Type} {k : FdWord → DescProg α} {g : α → β},
      (g <$> (findFileByFd t FDCOUNT_LIMIT >>= k)).run s = .error .outside := fun {_ _ k g} => by
    rw [run_map, run_bind_error run_find_limit]
    rfl
  cases c with
  | «open» valid name => exact absurd trivial hc
  | filesize fd =>
    have hstd : ∀ w : FdWord, w ≠ .null → (∀ f, w ≠ .file f) → (findFileByFd t fd).run s = .ok (w, s) →
        ((Call.filesize fd).prog t).run s = .error .notFile := by
      intro w hnull hfile hrun
      rw [Call.prog, run_map, filesize, Prog.run_bind_ok hrun, if_neg hnull]
      cases w with
      | file f => exact absurd rfl (hfile f)
      | _ => rfl
    cases h.found ht fd with
    | limit hfd hrun =>
      subst hfd
      exact ⟨.outside, hfind, .inl rfl⟩
    | null hfd hrun hnone => exact absurd hfd hc
    | stdin hfd hrun => exact ⟨.notFile, hstd .stdin nofun nofun hrun, .inr rfl⟩
    | stdout hfd hrun => exact ⟨.notFile, hstd .stdout nofun nofun hrun, .inr rfl⟩
    | file h2 hlt hf hrun => exact absurd ⟨by omega, by omega, by omega⟩ hc
  | read valid fd length =>
    obtain ⟨rfl, hfd⟩ := Classical.not_imp.mp hc
    obtain rfl := not_not.mp hfd
    exact ⟨.outside, hfind, .inl rfl⟩
  | write valid fd buffer length =>
    obtain ⟨rfl, hfd⟩ := Classical.not_imp.mp hc
    obtain rfl := not_not.mp hfd
    exact ⟨.outside, hfind, .inl rfl⟩
  | seek fd position =>
    obtain rfl := not_not.mp hc
    exact ⟨.outside, hfind, .inl rfl⟩
  | tell fd =>
    obtain rfl := not_not.mp hc
    exact ⟨.outside, hfind, .inl rfl⟩
  | close fd =>
    obtain rfl := not_not.mp hc
    exact ⟨.outside, hfind, .inl rfl⟩
  | mmap addr length fd offset found alloc => exact absurd trivial hc

/-! ## `fork` -/

variable {parent child : Tid} {allocs : Nat → Bool}

/-- A new thread, with the table that `thread_create` made. -/
theorem Ok.newThread (h : Ok s) (hc : s.live child = false) : Ok (s.newThread child) := by
  have hlive : ∀ u, (s.newThread child).live u = true ↔ u = child ∨ s.live u = true := by
    intro u
    show update s.live child true u = true ↔ _
    by_cases hu : u = child
    · simp [hu]
    · simp [hu]
  have hnew : ∀ u m f, (s.newThread child).given u m = some f → u ≠ child ∧ s.given u m = some f := by
    intro u m f hf
    by_cases hu : u = child
    · subst hu
      rw [show (s.newThread u).given u = fun _ => none from update_self _ _ _] at hf
      cases hf
    · exact ⟨hu, (congrFun (update_of_ne hu _ _) m).symm.trans hf⟩
  have hfdt : ∀ u, u ≠ child → (s.newThread child).fdt u = s.fdt u := fun u hu => update_of_ne hu _ _
  have hself : (s.newThread child).fdt child = update (update (fun _ => .null) 0 .stdin) 1 .stdout :=
    update_self _ _ _
  refine ⟨h.counted, fun u hu => ?_, fun u hu => ?_, fun u m hu hm => ?_, fun u m f hf => ?_,
    fun u m u' m' f hf hf' => ?_, fun u hu => ?_⟩
  · by_cases huc : u = child
    · rw [huc, hself]
      rfl
    · rw [hfdt u huc, h.stdin u (((hlive u).mp hu).resolve_left huc)]
  · by_cases huc : u = child
    · rw [huc, hself, update_self]
    · rw [hfdt u huc, h.stdout u (((hlive u).mp hu).resolve_left huc)]
  · by_cases huc : u = child
    · subst huc
      rw [hself, update_of_ne (by omega), update_of_ne (by omega)]
      show _ = wordOf (update s.given u (fun _ => none) u m)
      rw [update_self]
      rfl
    · rw [hfdt u huc, h.entry u m (((hlive u).mp hu).resolve_left huc) hm]
      exact congrArg wordOf (congrFun (update_of_ne huc _ _) m).symm
  · obtain ⟨hl, h2, hlt, hh⟩ := h.opened u m f (hnew u m f hf).2
    exact ⟨(hlive u).mpr (.inr hl), h2, hlt, hh⟩
  · exact h.own u m u' m' f (hnew u m f hf).2 (hnew u' m' f hf').2
  · show 2 ≤ update s.fdIndex child 2 u
    by_cases huc : u = child
    · rw [huc, update_self]
    · rw [update_of_ne huc]
      exact h.index u (((hlive u).mp hu).resolve_left huc)

/-- The descriptor of a copy: without memory for a file it is empty. -/
def CopyOf (s s' : Descs) (child : Tid) (n : Nat) (alloc : Bool) : Option FilePtr → Prop
  | none => s'.given child n = none
  | some f =>
    if alloc then
      ∃ g, s'.given child n = some g ∧ s.fs.files g = none ∧ s'.fs.files g = s.fs.files f ∧ s'.fs.files g ≠ none
    else s'.given child n = none

/-- What the loop of `__do_fork` leaves from entry `i` on. -/
structure Copied (s s' : Descs) (parent child : Tid) (allocs : Nat → Bool) (i : Nat) : Prop where
  ok : Ok s'
  live : s'.live = s.live
  index : s'.fdIndex = s.fdIndex
  files : ∀ f, s.fs.files f ≠ none → s'.fs.files f = s.fs.files f
  others : ∀ u, u ≠ child → s'.fdt u = s.fdt u ∧ s'.given u = s.given u
  before : ∀ n < i, s'.given child n = s.given child n
  copies : ∀ n, i ≤ n → n < FDCOUNT_LIMIT → CopyOf s s' child n (allocs n) (s.given parent n)

theorem setEntry_self {w : FdWord} (h : s.fdt t n = w) : s.setEntry t n w = s := by
  rw [Descs.setEntry, ← h, update_eq_self, update_eq_self]

theorem setGiven_self {g : Option FilePtr} (h : s.given t n = g) : s.setGiven t n g = s := by
  rw [Descs.setGiven, ← h, update_eq_self, update_eq_self]

/-- `file_duplicate` fails without memory only. -/
theorem fileDuplicate_isSome {fs fs' : FileSys} {alloc : Bool} {r : Option FilePtr}
    (hr : (fileDuplicate f alloc).run fs = .ok (r, fs')) : r.isSome = alloc := by
  obtain ⟨file, fs₁, hfile, hr⟩ := Prog.of_run_bind hr
  obtain ⟨p, fs₂, hp, hr⟩ := Prog.of_run_bind hr
  obtain ⟨nfile, fs₃, hopen, hr⟩ := Prog.of_run_bind hr
  cases alloc with
  | true =>
    cases hopen
    obtain ⟨file, fs₄, hfile, hr⟩ := Prog.of_run_bind hr
    obtain ⟨_, fs₅, hupdate, hr⟩ := Prog.of_run_bind hr
    split at hr
    · obtain ⟨_, fs₆, hdeny, hr⟩ := Prog.of_run_bind hr
      cases hr
      rfl
    · cases hr
      rfl
  | false =>
    obtain ⟨_, fs₄, hclose, hnone⟩ := Prog.of_run_bind hopen
    cases hnone
    cases hr
    rfl

/-- A copy that is made later. -/
theorem CopyOf.back {alloc : Bool} {x : Option FilePtr} (h : CopyOf s₁ s' child n alloc x)
    (hfiles : ∀ y, s.fs.files y ≠ none → s₁.fs.files y = s.fs.files y)
    (hopened : ∀ f, x = some f → s.fs.files f ≠ none) : CopyOf s s' child n alloc x := by
  cases x with
  | none => exact h
  | some f =>
    rw [CopyOf] at h ⊢
    split
    · next ha =>
      rw [if_pos ha] at h
      obtain ⟨y, hy, hclosed, hsame, hne⟩ := h
      refine ⟨y, hy, ?_, hsame.trans (hfiles f (hopened f rfl)), hne⟩
      by_contra hc
      exact hc ((hfiles y hc).symm.trans hclosed)
    · next ha =>
      rw [if_neg ha] at h
      exact h

/-- A round that leaves the tables. -/
theorem Copied.skip {i : Nat} (h : Copied s₁ s' parent child allocs (i + 1))
    (hopened : ∀ n f, s.given parent n = some f → s.fs.files f ≠ none)
    (hnone : s.given parent i = none ∨ allocs i = false) (hchild : s.given child i = none)
    (hfiles : ∀ x, s.fs.files x ≠ none → s₁.fs.files x = s.fs.files x) (hlive : s₁.live = s.live)
    (hindex : s₁.fdIndex = s.fdIndex) (hfdt : s₁.fdt = s.fdt) (hgiven : s₁.given = s.given) :
    Copied s s' parent child allocs i := by
  refine ⟨h.ok, h.live.trans hlive, h.index.trans hindex, fun x hx => ?_, fun u hu => ?_, fun n hn => ?_,
    fun n hn hlt => ?_⟩
  · rw [h.files x (by rw [hfiles x hx]; exact hx), hfiles x hx]
  · rw [← hfdt, ← hgiven]
    exact h.others u hu
  · rw [← hgiven]
    exact h.before n (by omega)
  · rcases Nat.eq_or_lt_of_le hn with rfl | hn
    · have hkept : s'.given child i = none := (h.before i (by omega)).trans (hgiven ▸ hchild)
      cases hg : s.given parent i with
      | none => exact hkept
      | some f =>
        rcases hnone with hc | hc
        · rw [hg] at hc
          cases hc
        · rw [CopyOf, hc]
          exact hkept
    · have hrest := h.copies n hn hlt
      rw [hgiven] at hrest
      exact hrest.back hfiles fun f hf => hopened n f hf

/-- A round that copies an entry. -/
theorem Copied.round {i : Nat} (h : Copied s₁ s' parent child allocs (i + 1)) (hpc : parent ≠ child)
    (hf : s.given parent i = some f) (halloc : allocs i = true)
    (hopened : ∀ n f, s.given parent n = some f → s.fs.files f ≠ none)
    (hg : s.fs.files g = none) (hfiles : ∀ x, s.fs.files x ≠ none → s₁.fs.files x = s.fs.files x)
    (hcopy : s₁.fs.files g = s.fs.files f) (hlive : s₁.live = s.live) (hindex : s₁.fdIndex = s.fdIndex)
    (hfdt : s₁.fdt = update s.fdt child (update (s.fdt child) i (.file g)))
    (hgiven : s₁.given = update s.given child (update (s.given child) i (some g))) :
    Copied s s' parent child allocs i := by
  have hg₁ : s₁.fs.files g ≠ none := hcopy ▸ hopened i f hf
  refine ⟨h.ok, h.live.trans hlive, h.index.trans hindex, fun x hx => ?_, fun u hu => ?_, fun n hn => ?_,
    fun n hn hlt => ?_⟩
  · rw [h.files x (by rw [hfiles x hx]; exact hx), hfiles x hx]
  · obtain ⟨h1, h2⟩ := h.others u hu
    rw [h1, h2, hfdt, hgiven, update_of_ne hu, update_of_ne hu]
    exact ⟨rfl, rfl⟩
  · rw [h.before n (by omega), hgiven, update_self, update_of_ne (by omega)]
  · rcases Nat.eq_or_lt_of_le hn with rfl | hn
    · rw [hf, CopyOf, halloc, if_pos rfl]
      refine ⟨g, ?_, hg, (h.files g hg₁).trans hcopy, h.files g hg₁ ▸ hg₁⟩
      rw [h.before i (by omega), hgiven, update_self, update_self]
    · have hrest := h.copies n hn hlt
      rw [hgiven, update_of_ne hpc] at hrest
      exact hrest.back hfiles fun f hf => hopened n f hf

/-- What `file_duplicate` does. -/
theorem duplicate_spec {fs fs' : FileSys} {alloc : Bool} {r : Option FilePtr} (h : fs.Counted)
    (hh : fs.handle f = some (sector, false)) (hr : (fileDuplicate f alloc).run fs = .ok (r, fs')) :
    fs'.Counted ∧ (∀ x, fs.files x ≠ none → fs'.files x = fs.files x) ∧
      ((alloc = false ∧ r = none ∧ fs'.handle = fs.handle) ∨
        ∃ g, alloc = true ∧ r = some g ∧ fs.files g = none ∧ fs.handle g = none ∧ fs'.files g = fs.files f ∧
          fs'.handle = update fs.handle g (some (sector, false))) := by
  have hsome := fileDuplicate_isSome hr
  obtain ⟨hc, hopens⟩ := handle_fileDuplicate h hh hr
  obtain ⟨live, h⟩ := h
  obtain ⟨file, inode, hf, -, -⟩ := file_of_handle hh
  obtain ⟨nf, s₁, hrun, h₁, hnew, hold⟩ := h.run_fileDuplicate hf alloc
  obtain ⟨rfl, rfl⟩ := run_eq hr hrun
  refine ⟨hc, fun x hx => hold x ((h.file x).mpr hx), ?_⟩
  rcases hopens with ⟨rfl, hsame⟩ | ⟨g, rfl, hg, hsame⟩
  · exact .inl ⟨hsome.symm, rfl, hsame⟩
  · refine .inr ⟨g, hsome.symm, rfl, ?_, hg, (hnew g rfl).trans hf.symm, hsame⟩
    by_contra hne
    exact h.handle_ne.mpr hne hg

theorem duplicate_runs {fs : FileSys} (h : fs.Counted) (hh : fs.handle f = some (sector, false)) (alloc : Bool) :
    ∃ r fs', (fileDuplicate f alloc).run fs = .ok (r, fs') := by
  obtain ⟨live, h⟩ := h
  obtain ⟨file, inode, hf, -, -⟩ := file_of_handle hh
  obtain ⟨nf, s₁, hrun, -⟩ := h.run_fileDuplicate hf alloc
  exact ⟨nf, s₁, hrun⟩

theorem ends_duplicateFiles (hpc : parent ≠ child) : ∀ k i {s : Descs}, i + k = FDCOUNT_LIMIT → Ok s →
    s.live parent = true → s.live child = true → (∀ n, i ≤ n → s.given child n = none) →
    (duplicateFiles child parent allocs k i).Ends (fun _ _ => False) (fun _ s' => Copied s s' parent child allocs i) s
  | 0, i, s, hk, h, hp, hc, hnone => Prog.ends_pure
      ⟨h, rfl, rfl, fun _ _ => rfl, fun _ _ => ⟨rfl, rfl⟩, fun _ _ => rfl, fun n hn hlt => absurd hlt (by omega)⟩
  | k + 1, i, s, hk, h, hp, hc, hnone => by
    have hlt : (i : Int) < FDCOUNT_LIMIT := by omega
    have ih : ∀ {s₁ : Descs}, Ok s₁ → s₁.live = s.live → (∀ n, i + 1 ≤ n → s₁.given child n = none) →
        (duplicateFiles child parent allocs k (i + 1)).Ends (fun _ _ => False)
          (fun _ s' => Copied s₁ s' parent child allocs (i + 1)) s₁ := fun h₁ hl hn =>
      ends_duplicateFiles hpc k (i + 1) (by omega) h₁ (hl ▸ hp) (hl ▸ hc) hn
    have hskip : s.given parent i = none ∨ allocs i = false →
        (duplicateFiles child parent allocs k (i + 1)).Ends (fun _ _ => False)
          (fun _ s' => Copied s s' parent child allocs i) s := fun hn =>
      Prog.ends_mono (fun _ _ he => he) (fun _ _ hs => hs.skip (fun n f hf => h.files_ne hf) hn
          (hnone i le_rfl) (fun _ _ => rfl) rfl rfl rfl rfl)
        (ih h rfl fun n hn => hnone n (by omega))
    refine Prog.ends_bind (Prog.ends_of_run (run_loadEntry (by omega) hlt) ?_)
    rw [Int.toNat_natCast]
    -- the entries 0 and 1 are the same in every table
    have hstd : ∀ w, s.fdt parent i = w → s.fdt child i = w → i < 2 → w ≠ .null → w.small = true →
        (storeEntry child i w >>= fun _ => duplicateFiles child parent allocs k (i + 1)).Ends (fun _ _ => False)
          (fun _ s' => Copied s s' parent child allocs i) s := by
      intro w hw hw' h2 hne hsmall
      refine Prog.ends_bind (Prog.ends_of_run (run_storeEntry (by omega) hlt) ?_)
      rw [Int.toNat_natCast, setEntry_self hw']
      refine hskip (.inl ?_)
      by_contra hg
      obtain ⟨f, hg⟩ := Option.ne_none_iff_exists'.mp hg
      obtain ⟨-, hge, -, -⟩ := h.opened parent i f hg
      omega
    by_cases h0 : i = 0
    · subst h0
      rw [h.stdin parent hp, if_neg nofun, if_pos (show FdWord.stdin.small = true from rfl)]
      exact hstd .stdin (h.stdin parent hp) (h.stdin child hc) (by omega) nofun rfl
    by_cases h1 : i = 1
    · subst h1
      rw [h.stdout parent hp, if_neg nofun, if_pos (show FdWord.stdout.small = true from rfl)]
      exact hstd .stdout (h.stdout parent hp) (h.stdout child hc) (by omega) nofun rfl
    rw [h.entry parent i hp (by omega)]
    cases hg : s.given parent i with
    | none =>
      rw [if_pos (show wordOf none = .null from rfl)]
      exact hskip (.inl hg)
    | some f =>
      rw [if_neg (show wordOf (some f) ≠ .null from nofun), if_neg (show ¬ (wordOf (some f)).small = true from nofun)]
      have hgi : s.given parent (i : Int).toNat = some f := by rwa [Int.toNat_natCast]
      obtain ⟨-, -, -, sector, hh⟩ := h.opened parent i f hg
      obtain ⟨r, fs', hr⟩ := duplicate_runs h.counted hh (allocs i)
      have hlift : (liftFs (fileDuplicate f (allocs i))).run s = .ok (r, { s with fs := fs' }) := by
        rw [run_liftFs, hr]
      refine h.ends_asFile hgi (Prog.ends_bind (Prog.ends_of_run hlift ?_))
      obtain ⟨hcount, hfiles, ⟨halloc, rfl, hsame⟩ | ⟨g, halloc, rfl, hgnone, hgh, hcopy, hsame⟩⟩ :=
        duplicate_spec h.counted hh hr
      · have he : Effect child s { s with fs := fs' } := .same ⟨hcount, rfl, fun _ hu => hu⟩ hsame rfl rfl
        have hempty : s.fdt child i = .null := by
          rw [h.entry child i hc (by omega), hnone i le_rfl]
          rfl
        refine Prog.ends_bind (Prog.ends_write (fun e he => by cases he) fun s₁ hs₁ => ?_)
        cases hs₁
        rw [Int.toNat_natCast, setGiven_self (s := { s with fs := fs' }) (hnone i le_rfl)]
        refine Prog.ends_bind (Prog.ends_of_run (run_storeEntry (by omega) hlt) ?_)
        rw [Int.toNat_natCast, setEntry_self (s := { s with fs := fs' }) hempty]
        exact Prog.ends_mono (fun _ _ he => he) (fun _ _ hs => hs.skip (fun n f hf => h.files_ne hf) (.inr halloc)
          (hnone i le_rfl) hfiles rfl rfl rfl rfl)
          (ih (h.effect hc he) rfl fun n hn => hnone n (by omega))
      · have he : Effect child s (({ s with fs := fs' }.setGiven child i (some g)).setEntry child i (.file g)) :=
          .opens ⟨hcount, rfl, fun _ hu => hu⟩ hgh (by omega) (by omega) (hnone i le_rfl) hsame rfl rfl
        refine Prog.ends_bind (Prog.ends_write (fun e he => by cases he) fun s₁ hs₁ => ?_)
        cases hs₁
        refine Prog.ends_bind (Prog.ends_of_run (run_storeEntry (by omega) hlt) ?_)
        rw [Int.toNat_natCast]
        refine Prog.ends_mono (fun _ _ he => he) (fun _ _ hs => hs.round hpc hg halloc
          (fun n f hf => h.files_ne hf) hgnone hfiles hcopy rfl rfl rfl rfl)
          (ih (h.effect hc he) rfl fun n hn => ?_)
        show update s.given child (update (s.given child) i (some g)) child n = none
        rw [update_self, update_of_ne (by omega), hnone n (by omega)]

/-- What `fork` leaves: the table of the child is a copy. -/
theorem ends_fork (h : Ok s) (hp : s.live parent = true) (hc : s.live child = false) :
    (fork parent child allocs).Ends (fun _ _ => False) (fun _ s' => ∃ s₁,
      Copied (s.newThread child) s₁ parent child allocs 0 ∧ s' = s₁.setIndex child (s.fdIndex parent)) s := by
  have hpc : parent ≠ child := by
    rintro rfl
    rw [hp] at hc
    cases hc
  have hnone : ∀ n, 0 ≤ n → (s.newThread child).given child n = none := fun n _ =>
    congrFun (update_self child _ s.given) n
  have hlive : (s.newThread child).live parent = true := (update_of_ne hpc _ _).trans hp
  refine Prog.ends_bind (Prog.ends_write (fun e he => by cases he) fun s₀ hs₀ => ?_)
  cases hs₀
  refine Prog.ends_bind (Prog.ends_mono (fun _ _ he => he) (fun _ s₁ hs₁ => ?_)
    (ends_duplicateFiles hpc FDCOUNT_LIMIT 0 (by omega) (h.newThread hc) hlive (update_self _ _ _) hnone))
  refine Prog.ends_write (fun e he => by cases he) fun s' hs' => ?_
  cases hs'
  refine ⟨s₁, hs₁, ?_⟩
  rw [hs₁.index]
  exact congrArg (s₁.setIndex child) (update_of_ne hpc _ _)

theorem Ok.setIndex {index : Nat} (h : Ok s) (h2 : 2 ≤ index) : Ok (s.setIndex t index) := by
  refine ⟨h.counted, h.stdin, h.stdout, h.entry, h.opened, h.own, fun u hu => ?_⟩
  show 2 ≤ update s.fdIndex t index u
  by_cases hut : u = t
  · rwa [hut, update_self]
  · rw [update_of_ne hut]
    exact h.index u hu

/-! ## Every run -/

/-- What a step that is possible did. -/
theorem step_cases {a : Action} (hs : step s a = .ok s') :
    (∃ t c r, a = .call t c ∧ s.live t = true ∧ (c.prog t).run s = .ok (r, s')) ∨
    ∃ parent child allocs, a = .fork parent child allocs ∧ s.live parent = true ∧ s.live child = false ∧
      (fork parent child allocs).run s = .ok ((), s') := by
  have hafter : ∀ {α : Type} {r : Except DescFault (α × Descs)}, after r = .ok s' → ∃ a, r = .ok (a, s') := by
    rintro α (e | ⟨a, s₁⟩) hr
    · cases hr
    · cases hr
      exact ⟨a, rfl⟩
  cases a with
  | call t c =>
    rw [step] at hs
    split at hs
    · next ht =>
      obtain ⟨r, hr⟩ := hafter hs
      exact .inl ⟨t, c, r, rfl, ht, hr⟩
    · cases hs
  | fork parent child allocs =>
    rw [step] at hs
    split at hs
    · next hl =>
      obtain ⟨r, hr⟩ := hafter hs
      exact .inr ⟨parent, child, allocs, rfl, hl.1, hl.2, hr⟩
    · cases hs

theorem ok_step {a : Action} (h : Ok s) (hs : step s a = .ok s') : Ok s' := by
  rcases step_cases hs with ⟨t, c, r, rfl, ht, hr⟩ | ⟨parent, child, allocs, rfl, hp, hc, hr⟩
  · exact h.effect ht ((Prog.ends_leave (ends_call h ht c)).1 _ _ (Prog.leave_eq_ok.mpr hr))
  · obtain ⟨s₁, hcopied, rfl⟩ := (Prog.ends_leave (ends_fork h hp hc)).1 _ _ (Prog.leave_eq_ok.mpr hr)
    exact hcopied.ok.setIndex (h.index parent hp)

theorem ok_boot {fs : FileSys} (hfs : fs.Counted) (input : Nat → LittleEndian.Byte) (t : Tid) :
    Ok (boot fs input t) :=
  Ok.newThread
    ⟨hfs, fun _ hu => (by cases hu), fun _ hu => (by cases hu), fun _ _ hu => (by cases hu),
      fun _ _ _ hg => (by cases hg), fun _ _ _ _ _ hg => (by cases hg), fun _ hu => by cases hu⟩ rfl

/-- The tables are in order in every state that is reached. -/
theorem ok_of_reach {C : Descs → Action → Prop} {fs : FileSys} {input : Nat → LittleEndian.Byte} (hfs : fs.Counted)
    (h : Machine.Reach step C (boot fs input t) s) : Ok s :=
  h.invariant (ok_boot hfs input t) fun _ _ _ hi _ hs => ok_step hi hs

/-- **A call stays within the table and follows open files only if and only if its number is safe.** -/
theorem call_safe_iff {C : Descs → Action → Prop} {fs : FileSys} {input : Nat → LittleEndian.Byte} {t₀ : Tid}
    (hfs : fs.Counted) (h : Machine.Reach step C (boot fs input t₀) s) (ht : s.live t = true) (c : Call) :
    (∀ e, (c.prog t).run s = .error e → ¬ e.Misuse) ↔ c.Safe := by
  have hok := ok_of_reach hfs h
  constructor
  · intro hsafe
    by_contra hc
    obtain ⟨e, he, hm⟩ := hok.misuses ht hc
    exact hsafe e he hm
  · intro hc e he hm
    obtain ⟨_, hbad⟩ := Prog.ends_error (ends_call hok ht c) he
    exact hbad hm hc

/-- A machine without files. -/
def emptyDisk : FileSys := FileSys.boot (fun _ _ => 0) 2 ⟨0, []⟩ [] { start := 0, length := 0 }

theorem emptyDisk_counted : emptyDisk.Counted := ⟨[], counts_boot (fun _ _ => 0) 2 ⟨0, []⟩ { start := 0, length := 0 }⟩

theorem call_safe_iff_tell :
    (∀ e, ((Call.tell 7).prog 0).run (boot emptyDisk (fun _ => 0) 0) = .error e → ¬ e.Misuse) ↔ (Call.tell 7).Safe :=
  call_safe_iff (C := Machine.Always) emptyDisk_counted .refl rfl (.tell 7)

/-- The entry behind the table is loaded, and the word 1 is followed. -/
theorem calls_misuse_entries :
    ((Call.close 1536).prog 0).run (boot emptyDisk (fun _ => 0) 0) = .error .outside ∧
      ((Call.filesize 0).prog 0).run (boot emptyDisk (fun _ => 0) 0) = .error .notFile ∧
      ¬ ∀ s t c, Machine.Reach step Machine.Always (boot emptyDisk (fun _ => 0) 0) s → s.live t = true →
        ∀ e, (Call.prog t c).run s = .error e → ¬ e.Misuse :=
  ⟨rfl, rfl, fun hall => hall _ 0 (.close 1536) .refl rfl .outside rfl (.inl rfl)⟩

end

end Descriptors

end Pintos
