import Pintos.Properties.Directory
import Pintos.Properties.Handles
import Pintos.Properties.Inode

/-!
# Opening a file that exists

`filesys_open` finds every name that is in the root directory, as long as the inodes in memory are those on
the disk. It leaves the disk, and can be called again.

* `Faithful` — the inodes in memory are those on the disk
* `run_filesysOpen` — what opening returns
* `run_fileClose` — closing leaves the disk as well
-/

namespace Pintos

open Function

/-- An inode in memory is the one on the disk, and writes to the root directory are not denied. -/
def Sound (disk : Nat → Sector) (i : Inode) : Prop :=
  i.data = InodeDisk.ofSector (disk i.sector) ∧ (i.sector = ROOT_DIR_SECTOR → i.denyWriteCnt = 0)

/-- The inodes in memory are those on the disk, and the root directory can be searched. -/
structure Faithful (s : FileSys) : Prop where
  counted : s.Counted
  sound : ∀ p i, s.inodes p = some i → Sound s.disk i
  selects : s.Selects ROOT_DIR_SECTOR
  onDisk : OnDisk s (InodeDisk.ofSector (s.disk ROOT_DIR_SECTOR))
  length : (InodeDisk.ofSector (s.disk ROOT_DIR_SECTOR)).length < 2 ^ 31

/-- The root directory has the name, with an inode in the sector. -/
def InRoot (s : FileSys) (name : CStr) (sector : Nat) : Prop :=
  ∃ e ofs, findFrom name (slots s.disk (InodeDisk.ofSector (s.disk ROOT_DIR_SECTOR))) 0 = some (e, ofs) ∧
    e.inodeSector = sector ∧ s.Selects sector

/-- What a step on inodes leaves. -/
structure Reads (s s' : FileSys) : Prop where
  disk : s'.disk = s.disk
  capacity : s'.capacity = s.capacity
  files : s'.files = s.files
  sound : ∀ p i, s'.inodes p = some i → Sound s.disk i

section

variable {s s' : FileSys} {p q : InodePtr} {i : Inode} {sector : Nat} {name : CStr} {refs : InodePtr → Nat}
  {live : List FilePtr}

theorem Faithful.of_reads (h : Faithful s) (hc : s'.Counted) (hs : ∀ p i, s'.inodes p = some i → Sound s.disk i)
    (hdisk : s'.disk = s.disk) (hcap : s'.capacity = s.capacity) : Faithful s' := by
  refine ⟨hc, fun p i hp => hdisk ▸ hs p i hp, ?_, ?_, ?_⟩
  · rw [FileSys.Selects, hcap]
    exact h.selects
  · rw [hdisk]
    exact h.onDisk.congr hcap
  · rw [hdisk]
    exact h.length

theorem sound_update {disk : Nat → Sector} {inodes : InodePtr → Option Inode} {x : Option Inode}
    (h : ∀ p i, inodes p = some i → Sound disk i) (hx : ∀ j, x = some j → Sound disk j) :
    ∀ q i, update inodes p x q = some i → Sound disk i := by
  intro q i hq
  by_cases hqp : q = p
  · subst hqp
    rw [update_self] at hq
    exact hx i hq
  · rw [update_of_ne hqp] at hq
    exact h q i hq

/-- `inode_open` of a sector of the disk. -/
theorem Reads.run_inodeOpen (h : Reads s s') (hc : Counts s' refs live) (hsel : s.Selects sector) :
    ∃ p s₁ i, (inodeOpen sector true).run s' = .ok (some p, s₁) ∧ Reads s s₁ ∧
      Counts s₁ (update refs p (refs p + 1)) live ∧ s₁.inodes p = some i ∧ i.sector = sector := by
  have hsel' : s'.Selects sector := by
    rw [FileSys.Selects, h.capacity]
    exact hsel
  rcases inodeOpen_spec hsel' with ⟨p, i, -, hp, hsec, hrun⟩ | ⟨-, hrun⟩
  · rcases hc.of_inodeOpen hrun with ⟨hn, -⟩ | ⟨p', hp', hc', -⟩
    · cases hn
    · cases hp'
      have hsound : Sound s.disk i := h.sound p i hp
      refine ⟨p, _, _, hrun, ⟨h.disk, h.capacity, h.files, sound_update h.sound fun j hj => ?_⟩, hc',
        update_self _ _ _, hsec⟩
      cases hj
      exact hsound
  · rcases hc.of_inodeOpen hrun with ⟨hn, -⟩ | ⟨p', hp', hc', -⟩
    · cases hn
    · cases hp'
      refine ⟨s'.brk, _, loaded s' sector, hrun, ⟨h.disk, h.capacity, h.files,
        sound_update h.sound fun j hj => ?_⟩, hc', update_self _ _ _, rfl⟩
      cases hj
      refine ⟨?_, fun _ => rfl⟩
      show InodeDisk.ofSector (s'.disk sector) = InodeDisk.ofSector (s.disk sector)
      rw [h.disk]

/-- `inode_close` of a reference. -/
theorem Reads.run_inodeClose (h : Reads s s') (hc : Counts s' refs live) (hheld : refs p ≠ 0) :
    ∃ s₁, (inodeClose (some p)).run s' = .ok ((), s₁) ∧ Reads s s₁ ∧
      Counts s₁ (update refs p (refs p - 1)) live ∧
      ∀ q i, s₁.inodes q = some i → ∃ j, s'.inodes q = some j ∧ j.sector = i.sector := by
  obtain ⟨i, hp⟩ := Option.ne_none_iff_exists'.mp fun hn => hheld (hc.unheld p hn)
  have hsound : Sound s.disk i := h.sound p i hp
  refine ⟨_, Pintos.run_inodeClose hp (hc.count p i hp).1, ?_, hc.closed hp hheld, fun q k hq => ?_⟩
  · unfold closed
    split
    · exact ⟨h.disk, h.capacity, h.files, sound_update h.sound nofun⟩
    · refine ⟨h.disk, h.capacity, h.files, sound_update h.sound fun j hj => ?_⟩
      cases hj
      exact hsound
  · by_cases hqp : q = p
    · subst hqp
      refine ⟨i, hp, ?_⟩
      unfold closed at hq
      split at hq
      · cases (update_self _ _ _).symm.trans hq
      · cases (update_self _ _ _).symm.trans hq
        rfl
    · refine ⟨k, ?_, rfl⟩
      unfold closed at hq
      split at hq
      · exact (update_of_ne hqp _ _).symm.trans hq
      · exact (update_of_ne hqp _ _).symm.trans hq

/-- **`filesys_open`** of a name that is there returns a new file on the inode of the name. -/
theorem Faithful.run_filesysOpen (h : Faithful s) (hn : InRoot s name sector) :
    ∃ f s', (filesysOpen name).run s = .ok (some f, s') ∧ Faithful s' ∧ s'.disk = s.disk ∧
      s'.capacity = s.capacity ∧ s.files f = none ∧ (∀ g, s.files g ≠ none → s'.files g = s.files g) ∧
      ∃ p i, s'.files f = some { inode := p, pos := 0, denyWrite := false } ∧ s'.inodes p = some i ∧
        i.sector = sector := by
  obtain ⟨live, hc⟩ := h.counted
  obtain ⟨e, ofs, hfound, rfl, hsel⟩ := hn
  have hr : Reads s s := ⟨rfl, rfl, rfl, h.sound⟩
  obtain ⟨p, s₁, i, hopen, hr₁, hc₁, hp, hroot⟩ := hr.run_inodeOpen hc h.selects
  have hdir : DirOpen s₁ p (InodeDisk.ofSector (s.disk ROOT_DIR_SECTOR)) :=
    ⟨⟨i, hp, hroot ▸ (hr₁.sound p i hp).1, (hr₁.sound p i hp).2 hroot⟩, h.onDisk.congr hr₁.capacity, h.length⟩
  have hlookup : (lookup { inode := p, pos := 0 } name).run s₁ = .ok (some (e, ofs), s₁) := by
    rw [DirOpen.lookup hdir name, hr₁.disk, hfound]
  obtain ⟨q, s₂, j, hopen₂, hr₂, hc₂, hq, hsec⟩ := hr₁.run_inodeOpen hc₁ hsel
  obtain ⟨hheld, hheld', hback⟩ := refs_back p q
  obtain ⟨s₃, hclose, hr₃, hc₃, hkept⟩ := hr₂.run_inodeClose hc₂ hheld
  obtain ⟨k, hk⟩ := Option.ne_none_iff_exists'.mp fun hn => hheld' (hc₃.unheld q hn)
  obtain ⟨nf, s₄, hfile, hc₄, hnew, hold⟩ := hc₃.run_fileOpen hheld' true
  have hfile' : (fileOpen (some q) true).run s₃ = .ok (some s₃.brk,
      { s₃.setFile s₃.brk (some { inode := q, pos := 0, denyWrite := false }) with brk := s₃.brk + 1 }) := rfl
  obtain ⟨rfl, rfl⟩ := run_eq hfile hfile'
  rw [hback] at hc₄
  obtain ⟨j', hj', hsec'⟩ := hkept q k hk
  rw [hq] at hj'
  cases hj'
  have hrun : (filesysOpen name).run s = .ok (some s₃.brk,
      { s₃.setFile s₃.brk (some { inode := q, pos := 0, denyWrite := false }) with brk := s₃.brk + 1 }) := by
    have hroot' : dirOpenRoot.run s = .ok (some { inode := p, pos := 0 }, s₁) := by
      rw [dirOpenRoot, Prog.run_bind_ok hopen]
      rfl
    have hdirLookup : (dirLookup { inode := p, pos := 0 } name).run s₁ = .ok (some q, s₂) := by
      rw [dirLookup, Prog.run_bind_ok hlookup, hopen₂]
    rw [filesysOpen, Prog.run_bind_ok hroot', Prog.run_bind_ok hdirLookup]
    have hclose' : (dirClose (some { inode := p, pos := 0 })).run s₂ = .ok ((), s₃) := hclose
    rw [Prog.run_bind_ok hclose']
    exact hfile'
  have hnone : s.files s₃.brk = none := by
    rw [← hr₃.files]
    exact (hc₃.fresh s₃.brk le_rfl).2
  refine ⟨s₃.brk, _, hrun, h.of_reads ⟨_, hc₄⟩ hr₃.sound hr₃.disk hr₃.capacity, hr₃.disk, hr₃.capacity, hnone,
    fun g hg => ?_, q, k, update_self _ _ _, hk, hsec'.symm.trans hsec⟩
  show update s₃.files s₃.brk _ g = s.files g
  rw [update_of_ne fun hc : g = s₃.brk => hg (by rw [hc, hnone]), hr₃.files]

/-- `file_close` of a file that denies no writes. -/
theorem Faithful.run_fileClose {f : FilePtr} {file : File} (h : Faithful s) (hf : s.files f = some file)
    (hdeny : file.denyWrite = false) :
    ∃ s', (fileClose (some f)).run s = .ok ((), s') ∧ Faithful s' ∧ s'.disk = s.disk ∧
      s'.capacity = s.capacity ∧ s'.files = update s.files f none := by
  obtain ⟨live, hc⟩ := h.counted
  obtain ⟨i, hp, hrun⟩ := hc.run_fileClose_closed hf hdeny
  have hcounted := (handle_fileClose h.counted (hc.handle_ne.mpr (hf ▸ nofun)) hrun).1
  have hsound : Sound s.disk i := h.sound _ i hp
  have hr : (closed s file.inode i).disk = s.disk ∧ (closed s file.inode i).capacity = s.capacity ∧
      (closed s file.inode i).files = s.files ∧
      ∀ p j, (closed s file.inode i).inodes p = some j → Sound s.disk j := by
    unfold closed
    split
    · exact ⟨rfl, rfl, rfl, sound_update h.sound nofun⟩
    · refine ⟨rfl, rfl, rfl, sound_update h.sound fun j hj => ?_⟩
      cases hj
      exact hsound
  obtain ⟨hdisk, hcap, hfiles, hs⟩ := hr
  refine ⟨_, hrun, h.of_reads hcounted hs hdisk hcap, hdisk, hcap, ?_⟩
  rw [← hfiles]
  rfl

end

end Pintos
