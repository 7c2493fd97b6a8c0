import Pintos.Filesys.Changes
import Pintos.Properties.OpenFiles

/-!
# Files as handles

What matters of an open file to processes: the sector of its inode, and whether it denies writes. Each call
changes at most one handle.

* `handle` — a file as a handle
* `Counted` — the counters of inodes are right
* `handle_filesysOpen`, `handle_fileClose`, … — what the calls do
* `denied_iff` — writes are denied where a handle denies them
-/

namespace Pintos

open Function

namespace FileSys

/-- The sector of the inode of a file, and whether the file denies writes. -/
def handle (s : FileSys) (f : FilePtr) : Option (Nat × Bool) :=
  match s.files f with
  | none => none
  | some file =>
    match s.inodes file.inode with
    | none => none
    | some inode => some (inode.sector, file.denyWrite)

/-- A file but for its position. -/
def opened (s : FileSys) (f : FilePtr) : Option (InodePtr × Bool) :=
  (s.files f).map fun file => (file.inode, file.denyWrite)

/-- The counters of inodes are right, and files have all the references. -/
def Counted (s : FileSys) : Prop := ∃ live, Counts s (fun _ => 0) live

/-- `inode_write_at` refuses to write to the inode of the sector. -/
def Denied (s : FileSys) (sector : Nat) : Prop :=
  ∃ p inode, s.inodes p = some inode ∧ inode.sector = sector ∧ inode.denyWriteCnt ≠ 0

end FileSys

section

variable {s s' : FileSys} {refs refs' : InodePtr → Nat} {live live' : List FilePtr} {f g : FilePtr} {file : File}
  {sector : Nat} {deny : Bool} {u : Unit}

theorem handle_of_file {inode : Inode} (hf : s.files f = some file) (hp : s.inodes file.inode = some inode) :
    s.handle f = some (inode.sector, file.denyWrite) := by
  unfold FileSys.handle
  rw [hf]
  dsimp only
  rw [hp]

theorem file_of_handle {x : Nat × Bool} (h : s.handle f = some x) :
    ∃ file inode, s.files f = some file ∧ s.inodes file.inode = some inode ∧ x = (inode.sector, file.denyWrite) := by
  unfold FileSys.handle at h
  split at h
  · cases h
  · next file hf =>
    split at h
    · cases h
    · next inode hp =>
      cases h
      exact ⟨file, inode, hf, hp, rfl⟩

theorem handle_none (h : s.files f = none) : s.handle f = none := by
  unfold FileSys.handle
  rw [h]

/-- A file that is open has a handle. -/
theorem Counts.handle_ne (h : Counts s refs live) : s.handle f ≠ none ↔ s.files f ≠ none := by
  constructor
  · exact fun hh hf => hh (handle_none hf)
  · intro hf
    obtain ⟨file, hf⟩ := Option.ne_none_iff_exists'.mp hf
    obtain ⟨inode, hp⟩ := Option.ne_none_iff_exists'.mp (h.inode f file hf)
    rw [handle_of_file hf hp]
    exact nofun

/-- A file that later is on the same inode is a handle on the same sector. -/
theorem Counts.handle_sector {file' : File} (h : Counts s refs live) (h' : Counts s' refs' live') (hs : Steady s s')
    (hf : s.files f = some file) (hf' : s'.files g = some file') (hi : file'.inode = file.inode) :
    ∃ sector, s.handle f = some (sector, file.denyWrite) ∧ s'.handle g = some (sector, file'.denyWrite) := by
  obtain ⟨inode', hp'⟩ := Option.ne_none_iff_exists'.mp (h'.inode g file' hf')
  have hlt : file.inode < s.brk := by
    by_contra hge
    exact h.inode f file hf (h.fresh file.inode (Nat.le_of_not_lt hge)).1
  obtain ⟨inode, hp, hsec⟩ := hs.sectors file.inode hlt inode' (hi ▸ hp')
  exact ⟨inode.sector, handle_of_file hf hp, hsec ▸ handle_of_file hf' hp'⟩

/-- A file that is opened alike is the same handle. -/
theorem Counts.handle_eq (h : Counts s refs live) (h' : Counts s' refs' live') (hs : Steady s s')
    (he : s'.opened f = s.opened f) : s'.handle f = s.handle f := by
  unfold FileSys.opened at he
  cases hf : s.files f with
  | none =>
    rw [hf, Option.map_none, Option.map_eq_none_iff] at he
    rw [handle_none hf, handle_none he]
  | some file =>
    rw [hf, Option.map_some] at he
    obtain ⟨file', hf', hfile⟩ := Option.map_eq_some_iff.mp he
    obtain ⟨hino, hdeny⟩ := Prod.mk.inj hfile
    obtain ⟨sector, hh, hh'⟩ := h.handle_sector h' hs hf hf' hino
    rw [hh, hh', hdeny]

/-- One file is changed. -/
theorem Counts.handle_update (h : Counts s refs live) (h' : Counts s' refs' live') (hs : Steady s s')
    (he : ∀ g, g ≠ f → s'.opened g = s.opened g) : s'.handle = update s.handle f (s'.handle f) := by
  funext g
  by_cases hg : g = f
  · subst hg
    rw [update_self]
  · rw [update_of_ne hg]
    exact h.handle_eq h' hs (he g hg)

theorem opened_congr (h : s'.files f = s.files f) : s'.opened f = s.opened f := by
  unfold FileSys.opened
  rw [h]

theorem SameHandles.opened (h : SameHandles s s') (f : FilePtr) : s'.opened f = s.opened f := by
  have hf : s'.handles.files f = s.handles.files f := by rw [h]
  have hmap := congrArg (Option.map fun file : File => (file.inode, file.denyWrite)) hf
  unfold FileSys.handles at hmap
  simp only [Option.map_map] at hmap
  exact hmap

/-- Bytes and positions make no difference to the counters. -/
theorem Counts.of_sameHandles (h : Counts s refs live) (hs : SameHandles s s') : Counts s' refs live := by
  have hi : s'.inodes = s.inodes := by
    have he : s'.handles.inodes = s.handles.inodes := by rw [hs]
    exact he
  have ho : s'.openInodes = s.openInodes := by
    have he : s'.handles.openInodes = s.handles.openInodes := by rw [hs]
    exact he
  have hb : s'.brk = s.brk := by
    have he : s'.handles.brk = s.handles.brk := by rw [hs]
    exact he
  have hopen := hs.opened
  have hnone : ∀ f, s'.files f = none ↔ s.files f = none := by
    intro f
    have he := hopen f
    unfold FileSys.opened at he
    rw [← Option.map_eq_none_iff, he, Option.map_eq_none_iff]
  have hfile : ∀ f file', s'.files f = some file' → ∃ file, s.files f = some file ∧ file.inode = file'.inode ∧
      file.denyWrite = file'.denyWrite := by
    intro f file' hf'
    have he := hopen f
    unfold FileSys.opened at he
    rw [hf', Option.map_some] at he
    obtain ⟨file, hf, hpair⟩ := Option.map_eq_some_iff.mp he.symm
    exact ⟨file, hf, Prod.mk.inj hpair⟩
  have hon : ∀ p f, onInode s'.files p f = onInode s.files p f ∧ denies s'.files p f = denies s.files p f := by
    intro p f
    cases hf' : s'.files f with
    | none =>
      have hf := (hnone f).mp hf'
      unfold onInode denies
      rw [hf, hf']
      exact ⟨rfl, rfl⟩
    | some file' =>
      obtain ⟨file, hf, hi, hd⟩ := hfile f file' hf'
      rw [onInode_some hf', onInode_some hf, denies_some hf', denies_some hf, hi, hd]
      exact ⟨rfl, rfl⟩
  have hcnt : ∀ p, live.countP (onInode s'.files p) = live.countP (onInode s.files p) ∧
      live.countP (denies s'.files p) = live.countP (denies s.files p) := fun p =>
    ⟨List.countP_congr fun f _ => by rw [(hon p f).1], List.countP_congr fun f _ => by rw [(hon p f).2]⟩
  constructor
  · exact h.nodup
  · rw [ho]
    exact h.nodupOpen
  · rw [ho, hi]
    exact h.listed
  · rw [hi]
    exact h.sector
  · intro f
    rw [h.file f, ne_eq, ne_eq, hnone]
  · intro f file' hf'
    obtain ⟨file, hf, hino, -⟩ := hfile f file' hf'
    rw [hi, ← hino]
    exact h.inode f file hf
  · intro p hp
    rw [hb] at hp
    rw [hi, hnone]
    exact h.fresh p hp
  · rw [hi]
    exact h.unheld
  · intro p i hp
    rw [hi] at hp
    rw [(hcnt p).1, (hcnt p).2]
    exact h.count p i hp

/-- Bytes and positions make no difference. -/
theorem handle_of_same (h : s.Counted) (hs : SameHandles s s') : s'.Counted ∧ s'.handle = s.handle := by
  obtain ⟨live, h⟩ := h
  have h' := h.of_sameHandles hs
  exact ⟨⟨live, h'⟩, funext fun f => h.handle_eq h' hs.steady (hs.opened f)⟩

/-! ## Calls -/

/-- What a call that returned did. -/
theorem run_eq {α : Type} {p : FsProg α} {a a' : α} {s₁ s₂ : FileSys} (h : p.run s = .ok (a, s₁))
    (h' : p.run s = .ok (a', s₂)) : a = a' ∧ s₁ = s₂ := by
  rw [h] at h'
  cases h'
  exact ⟨rfl, rfl⟩

theorem steady_run {α : Type} {p : FsProg α} {a : α} (hp : p.Does Steady FsFault.Plain) (h : p.run s = .ok (a, s')) :
    Steady s s' := hp.run .refl .trans h

theorem handle_fileDenyWrite (h : s.Counted) (hh : s.handle f = some (sector, deny))
    (hr : (fileDenyWrite f).run s = .ok (u, s')) :
    s'.Counted ∧ s'.handle = update s.handle f (some (sector, true)) := by
  obtain ⟨live, h⟩ := h
  obtain ⟨file, inode, hf, -, -⟩ := file_of_handle hh
  obtain ⟨s₁, hrun, h₁, hfiles⟩ := h.run_fileDenyWrite hf
  obtain ⟨-, rfl⟩ := run_eq hr hrun
  have hs := steady_run does_fileDenyWrite hr
  have hf₁ : s'.files f = some { file with denyWrite := true } := by rw [hfiles, update_self]
  obtain ⟨sector', hh', hh₁⟩ := h.handle_sector h₁ hs hf hf₁ rfl
  rw [hh] at hh'
  cases hh'
  refine ⟨⟨live, h₁⟩, ?_⟩
  rw [h.handle_update h₁ hs fun g hg => opened_congr (by rw [hfiles, update_of_ne hg]), hh₁]

/-- `file_close` of a file that denies no writes. -/
theorem Counts.run_fileClose_closed (h : Counts s refs live) (hf : s.files f = some file)
    (hdeny : file.denyWrite = false) : ∃ i, s.inodes file.inode = some i ∧
      (fileClose (some f)).run s = .ok ((), (Pintos.closed s file.inode i).setFile f none) := by
  obtain ⟨i, hp⟩ := Option.ne_none_iff_exists'.mp (h.inode f file hf)
  have hallow : (fileAllowWrite f).run s = .ok ((), s) := by
    rw [fileAllowWrite, Prog.run_bind_ok (run_derefFile hf), hdeny]
    rfl
  refine ⟨i, hp, ?_⟩
  rw [fileClose, Prog.run_bind_ok hallow, Prog.run_bind_ok (run_derefFile hf),
    Prog.run_bind_ok (Pintos.run_inodeClose hp (h.count _ i hp).1)]
  exact Prog.run_write rfl

theorem handle_fileClose (h : s.Counted) (hh : s.handle f ≠ none) (hr : (fileClose (some f)).run s = .ok (u, s')) :
    s'.Counted ∧ s'.handle = update s.handle f none := by
  obtain ⟨live, h⟩ := h
  obtain ⟨file, hf⟩ := Option.ne_none_iff_exists'.mp (h.handle_ne.mp hh)
  obtain ⟨s₁, hrun, h₁, hfiles⟩ := h.run_fileClose hf
  obtain ⟨-, rfl⟩ := run_eq hr hrun
  have hs := steady_run does_fileClose hr
  have hf₁ : s'.files f = none := by rw [hfiles, update_self]
  refine ⟨⟨_, h₁⟩, ?_⟩
  rw [h.handle_update h₁ hs fun g hg => opened_congr (by rw [hfiles, update_of_ne hg]), handle_none hf₁]

/-- What a call does that may return a new file. -/
def Opens (s : FileSys) (r : Option FilePtr) (h : Nat × Bool) (s' : FileSys) : Prop :=
  s'.Counted ∧ ((r = none ∧ s'.handle = s.handle) ∨
    ∃ g, r = some g ∧ s.handle g = none ∧ s'.handle = update s.handle g (some h))

/-- A new file beside those that were open. -/
theorem Counts.opens {r : Option FilePtr} {x : Nat × Bool} (h : Counts s (fun _ => 0) live)
    (h' : Counts s' (fun _ => 0) (r.toList ++ live)) (hs : Steady s s')
    (hold : ∀ g ∈ live, s'.opened g = s.opened g) (hnew : ∀ g, r = some g → s'.handle g = some x) :
    Opens s r x s' := by
  have hclosed : ∀ g ∉ live, s.files g = none := fun g hg => by
    by_contra hf
    exact hg ((h.file g).mpr hf)
  refine ⟨⟨_, h'⟩, ?_⟩
  have hsame : ∀ g, g ∉ r.toList → s'.opened g = s.opened g := by
    intro g hg
    by_cases hl : g ∈ live
    · exact hold g hl
    · have hf' : s'.files g = none := by
        by_contra hf'
        rcases List.mem_append.mp ((h'.file g).mpr hf') with hc | hc
        · exact hg hc
        · exact hl hc
      exact opened_congr (by rw [hf', hclosed g hl])
  cases r with
  | none => exact .inl ⟨rfl, funext fun g => h.handle_eq h' hs (hsame g List.not_mem_nil)⟩
  | some g =>
    have hnd : g ∉ live := (List.nodup_cons.mp h'.nodup).1
    refine .inr ⟨g, rfl, handle_none (hclosed g hnd), ?_⟩
    rw [h.handle_update h' hs fun x hx => hsame x fun hc => hx (List.mem_singleton.mp hc), hnew g rfl]

theorem handle_fileReopen {alloc : Bool} {r : Option FilePtr} (h : s.Counted) (hh : s.handle f = some (sector, deny))
    (hr : (fileReopen f alloc).run s = .ok (r, s')) : Opens s r (sector, false) s' := by
  obtain ⟨live, h⟩ := h
  obtain ⟨file, inode, hf, -, -⟩ := file_of_handle hh
  obtain ⟨nf, s₁, hrun, h₁, hnew, hold⟩ := h.run_fileReopen hf alloc
  obtain ⟨rfl, rfl⟩ := run_eq hr hrun
  have hs := steady_run does_fileReopen hr
  refine h.opens h₁ hs (fun g hg => opened_congr (hold g hg)) fun g hg => ?_
  obtain ⟨sector', hh', hh₁⟩ := h.handle_sector h₁ hs hf (hnew g hg) rfl
  rw [hh] at hh'
  cases hh'
  exact hh₁

theorem handle_fileDuplicate {alloc : Bool} {r : Option FilePtr} (h : s.Counted)
    (hh : s.handle f = some (sector, deny)) (hr : (fileDuplicate f alloc).run s = .ok (r, s')) :
    Opens s r (sector, deny) s' := by
  obtain ⟨live, h⟩ := h
  obtain ⟨file, inode, hf, -, -⟩ := file_of_handle hh
  obtain ⟨nf, s₁, hrun, h₁, hnew, hold⟩ := h.run_fileDuplicate hf alloc
  obtain ⟨rfl, rfl⟩ := run_eq hr hrun
  have hs := steady_run does_fileDuplicate hr
  refine h.opens h₁ hs (fun g hg => opened_congr (hold g hg)) fun g hg => ?_
  obtain ⟨sector', hh', hh₁⟩ := h.handle_sector h₁ hs hf (hnew g hg) rfl
  rw [hh] at hh'
  cases hh'
  exact hh₁

/-! ## `filesys_open` -/

theorem closed_files (s : FileSys) (p : InodePtr) (inode : Inode) : (closed s p inode).files = s.files := by
  unfold closed
  split <;> rfl

/-- `inode_close` of one of the references. -/
theorem Counts.run_inodeClose {p : InodePtr} (h : Counts s refs live) (hheld : refs p ≠ 0)
    (hr : (inodeClose (some p)).run s = .ok (u, s')) :
    Counts s' (update refs p (refs p - 1)) live ∧ s'.files = s.files := by
  obtain ⟨inode, hp⟩ := Option.ne_none_iff_exists'.mp fun hc => hheld (h.unheld p hc)
  obtain ⟨-, rfl⟩ := run_eq hr (Pintos.run_inodeClose hp (h.count p inode hp).1)
  exact ⟨h.closed hp hheld, closed_files s p inode⟩

theorem Counts.of_inodeOpen {alloc : Bool} {r : Option InodePtr} (h : Counts s refs live)
    (hr : (inodeOpen sector alloc).run s = .ok (r, s')) :
    (r = none ∧ s' = s) ∨
      ∃ p, r = some p ∧ Counts s' (update refs p (refs p + 1)) live ∧ s'.files = s.files := by
  rcases h.run_inodeOpen sector alloc with hrun | hrun | ⟨p, s₁, hrun, h₁, hfiles⟩
  · rw [hrun] at hr
    cases hr
  · obtain ⟨rfl, rfl⟩ := run_eq hr hrun
    exact .inl ⟨rfl, rfl⟩
  · obtain ⟨rfl, rfl⟩ := run_eq hr hrun
    exact .inr ⟨p, rfl, h₁, hfiles⟩

/-- The references of `filesys_open`: to the directory, and to the inode that is found. -/
theorem refs_back (p q : InodePtr) :
    let refs₁ : InodePtr → Nat := update (fun _ => 0) p 1
    let refs₂ := update refs₁ q (refs₁ q + 1)
    let refs₃ := update refs₂ p (refs₂ p - 1)
    refs₂ p ≠ 0 ∧ refs₃ q ≠ 0 ∧ update refs₃ q (refs₃ q - 1) = fun _ => 0 := by
  by_cases hpq : q = p
  · subst hpq
    refine ⟨?_, ?_, funext fun x => ?_⟩
    · simp
    · simp
    · by_cases hx : x = q
      · subst hx
        simp
      · simp [hx]
  · have hqp : p ≠ q := Ne.symm hpq
    refine ⟨?_, ?_, funext fun x => ?_⟩
    · simp [hqp]
    · simp [hpq]
    · by_cases hx : x = q
      · subst hx
        simp [hpq]
      · by_cases hxp : x = p
        · subst hxp
          simp [hqp]
        · simp [hx, hxp]

/-- Where no inode is found the reference to the directory is given back. -/
theorem Counts.of_dirClose {d : Dir} (h : Counts s (update (fun _ => 0) d.inode 1) live)
    (hr : (dirClose (some d)).run s = .ok (u, s')) : Counts s' (fun _ => 0) live ∧ s'.files = s.files := by
  have hheld : update (fun _ => 0) d.inode 1 d.inode ≠ 0 := by
    rw [update_self]
    exact Nat.one_ne_zero
  obtain ⟨h', hfiles⟩ := h.run_inodeClose hheld hr
  refine ⟨?_, hfiles⟩
  rwa [update_idem, update_self, update_eq_self] at h'

theorem handle_filesysOpen {name : CStr} {r : Option FilePtr} (h : s.Counted)
    (hr : (filesysOpen name).run s = .ok (r, s')) : ∃ sector, Opens s r (sector, false) s' := by
  have hs := steady_run does_filesysOpen hr
  obtain ⟨live, h⟩ := h
  -- without a new file everything is open as before
  have hnone : Counts s' (fun _ => 0) live → (∀ g, s'.opened g = s.opened g) → r = none →
      ∃ sector, Opens s r (sector, false) s' := by
    rintro h' ho rfl
    exact ⟨0, h.opens h' hs (fun g _ => ho g) nofun⟩
  obtain ⟨dir, s₁, h₁, hrest⟩ := Prog.of_run_bind hr
  obtain ⟨root, s₁', hopen, hdir⟩ := Prog.of_run_bind h₁
  rcases h.of_inodeOpen hopen with ⟨rfl, rfl⟩ | ⟨p, rfl, hc₁, hf₁⟩
  · cases hdir
    cases hrest
    exact hnone h (fun _ => rfl) rfl
  · cases hdir
    obtain ⟨inode, s₃, hlookup, hrest⟩ := Prog.of_run_bind hrest
    obtain ⟨found, s₂, hfound, hlookup⟩ := Prog.of_run_bind hlookup
    have hsame : SameHandles s₁ s₂ := does_lookup.run .refl .trans hfound
    have hc₂ := hc₁.of_sameHandles hsame
    have ho₂ : ∀ g, s₂.opened g = s.opened g := fun g => (hsame.opened g).trans (opened_congr (by rw [hf₁]))
    have hclose : ∀ s₃, Counts s₃ (update (fun _ => 0) p 1) live → (∀ g, s₃.opened g = s.opened g) → ∀ s₄,
        (dirClose (some { inode := p, pos := 0 })).run s₃ = .ok ((), s₄) →
        (fileOpen none true).run s₄ = .ok (r, s') → ∃ sector, Opens s r (sector, false) s' := by
      intro s₃ hc₃ ho₃ s₄ hclose hr
      obtain ⟨hc₄, hf₄⟩ := hc₃.of_dirClose hclose
      cases hr
      exact hnone hc₄ (fun g => (opened_congr (by rw [hf₄])).trans (ho₃ g)) rfl
    cases found with
    | none =>
      cases hlookup
      obtain ⟨_, s₄, hclosed, hrest⟩ := Prog.of_run_bind hrest
      exact hclose _ hc₂ ho₂ s₄ hclosed hrest
    | some found =>
      obtain ⟨e, ofs⟩ := found
      obtain ⟨_, s₄, hclosed, hrest⟩ := Prog.of_run_bind hrest
      rcases hc₂.of_inodeOpen hlookup with ⟨rfl, rfl⟩ | ⟨q, rfl, hc₃, hf₃⟩
      · exact hclose _ hc₂ ho₂ s₄ hclosed hrest
      · obtain ⟨hheld, hheld', hback⟩ := refs_back p q
        obtain ⟨hc₄, hf₄⟩ := hc₃.run_inodeClose hheld hclosed
        obtain ⟨nf, s₅, hrun, hc₅, hnew, hold⟩ := hc₄.run_fileOpen hheld' true
        obtain ⟨rfl, rfl⟩ := run_eq hrest hrun
        rw [hback] at hc₅
        have ho : ∀ g ∈ live, s'.opened g = s.opened g := fun g hg =>
          (opened_congr (by rw [hold g hg, hf₄, hf₃])).trans (ho₂ g)
        cases hnf : r with
        | none =>
          subst hnf
          exact ⟨0, h.opens hc₅ hs ho nofun⟩
        | some g =>
          subst hnf
          have hg := hnew g rfl
          obtain ⟨inode, hp⟩ := Option.ne_none_iff_exists'.mp (hc₅.inode g _ hg)
          refine ⟨inode.sector, h.opens hc₅ hs ho fun x hx => ?_⟩
          cases hx
          exact handle_of_file hg hp

/-! ## Writes that are denied -/

/-- **Writes to an inode are denied if and only if a handle denies them.** -/
theorem denied_iff (h : s.Counted) : s.Denied sector ↔ ∃ f, s.handle f = some (sector, true) := by
  obtain ⟨live, h⟩ := h
  have hcount : ∀ {p inode}, s.inodes p = some inode →
      (inode.denyWriteCnt ≠ 0 ↔ ∃ f, denies s.files p f = true) := by
    intro p inode hp
    obtain ⟨-, -, -, hcnt⟩ := h.count p inode hp
    have hpos : inode.denyWriteCnt ≠ 0 ↔ 0 < live.countP (denies s.files p) := by omega
    rw [hpos, List.countP_pos_iff]
    refine ⟨fun ⟨f, _, hf⟩ => ⟨f, hf⟩, fun ⟨f, hf⟩ => ⟨f, (h.file f).mpr fun hc => ?_, hf⟩⟩
    unfold denies at hf
    rw [hc] at hf
    cases hf
  constructor
  · rintro ⟨p, inode, hp, hsec, hdeny⟩
    obtain ⟨f, hf⟩ := (hcount hp).mp hdeny
    unfold denies at hf
    split at hf
    · cases hf
    · next file hfile =>
      rw [Bool.and_eq_true, decide_eq_true_eq] at hf
      refine ⟨f, ?_⟩
      rw [handle_of_file hfile (by rw [hf.1]; exact hp), hsec, hf.2]
  · rintro ⟨f, hf⟩
    obtain ⟨file, inode, hfile, hp, hx⟩ := file_of_handle hf
    obtain ⟨hsec, hdeny⟩ := Prod.mk.inj hx
    refine ⟨file.inode, inode, hp, hsec.symm, (hcount hp).mpr ⟨f, ?_⟩⟩
    rw [denies_some hfile, ← hdeny]
    simp

end

end Pintos
