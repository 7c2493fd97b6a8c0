import Pintos.Properties.DirectoryMap

/-!
# Which inode a sector belongs to

The invariant of a file system that is in use: every inode has its sector and the sectors of its
data for itself, and what is in memory agrees with the disk.

* `Owned` — the owners of the sectors
* `FsInv` — the invariant
* `FsInv.inodeOpen`, `FsInv.closed` — it is kept where inodes are opened and closed
* `StillOpen` — the files stay on the inodes they are on
-/

namespace Pintos

open Function LittleEndian SlotMap

/-! ## Owners -/

/-- The sectors of the inode in the sector `sec` with the data `e`. -/
def Occupies (sec : Nat) (e : InodeDisk) (x : Nat) : Prop := x = sec ∨ e.Has x

/-- Where `owner sec` is the data of the inode in the sector `sec`: its sectors are in use, and belong
to no other inode. -/
structure Owned (bits : Bitmap) (disk : Nat → Sector) (owner : Nat → Option InodeDisk) : Prop where
  sector : ∀ sec e, owner sec = some e → InodeDisk.ofSector (disk sec) = e
  size : ∀ sec e, owner sec = some e → 0 ≤ e.length ∧ e.length + 511 < 2 ^ 31
  le : ∀ sec e, owner sec = some e → e.start + e.sectors ≤ bits.length
  used : ∀ sec e x, owner sec = some e → Occupies sec e x → bits[x]? = some true
  outside : ∀ sec e, owner sec = some e → ¬ e.Has sec
  apart : ∀ sec e sec' e' x, owner sec = some e → owner sec' = some e' → sec ≠ sec' →
    Occupies sec e x → ¬ Occupies sec' e' x

variable {bits bits' : Bitmap} {disk disk' : Nat → Sector} {owner : Nat → Option InodeDisk}
  {sec a b n : Nat} {e : InodeDisk}

/-- Nothing is written to the sectors of inodes, and no sector of an inode is given back. -/
theorem Owned.kept (h : Owned bits disk owner) (hlen : bits'.length = bits.length)
    (hbits : ∀ sec e x, owner sec = some e → Occupies sec e x → bits'[x]? = some true)
    (hdisk : SameOn (fun sec => owner sec ≠ none) disk' disk) : Owned bits' disk' owner where
  sector sec e he := by
    rw [← h.sector sec e he]
    refine InodeDisk.ofSector_congr fun k hk => hdisk sec ?_ k hk
    show owner sec ≠ none
    simp [he]
  size := h.size
  le sec e he := by
    rw [hlen]
    exact h.le sec e he
  used := hbits
  outside := h.outside
  apart := h.apart

/-- A new inode, in sectors that were free. -/
theorem Owned.add (h : Owned bits disk owner) (hlen : bits'.length = bits.length)
    (hbits : ∀ x : Nat, bits[x]? = some true ∨ Occupies a e x → bits'[x]? = some true)
    (hfree : ∀ x, Occupies a e x → bits[x]? = some false)
    (hdisk : SameOn (fun sec => owner sec ≠ none) disk' disk)
    (hsector : InodeDisk.ofSector (disk' a) = e) (hsize : 0 ≤ e.length ∧ e.length + 511 < 2 ^ 31)
    (hle : e.start + e.sectors ≤ bits.length) (hout : ¬ e.Has a) :
    Owned bits' disk' (update owner a (some e)) := by
  have hkept := h.kept hlen (fun sec e x he hx => hbits x (Or.inl (h.used sec e x he hx))) hdisk
  -- an owner is the new inode or an old one
  have cases_owner : ∀ {sec e'}, update owner a (some e) sec = some e' →
      (sec = a ∧ e' = e) ∨ owner sec = some e' := by
    intro sec e' he'
    by_cases hsec : sec = a
    · rw [hsec, update_self, Option.some.injEq] at he'
      exact Or.inl ⟨hsec, he'.symm⟩
    · rw [update_of_ne hsec] at he'
      exact Or.inr he'
  have apart : ∀ {sec e' x}, owner sec = some e' → Occupies sec e' x → ¬ Occupies a e x := by
    intro sec e' x he' hx hxa
    have hused := h.used sec e' x he' hx
    rw [hfree x hxa] at hused
    cases hused
  constructor
  case sector =>
    intro sec e' he'
    rcases cases_owner he' with ⟨rfl, rfl⟩ | he'
    · exact hsector
    · exact hkept.sector sec e' he'
  case size =>
    intro sec e' he'
    rcases cases_owner he' with ⟨rfl, rfl⟩ | he'
    · exact hsize
    · exact h.size sec e' he'
  case le =>
    intro sec e' he'
    rcases cases_owner he' with ⟨rfl, rfl⟩ | he'
    · rw [hlen]
      exact hle
    · exact hkept.le sec e' he'
  case used =>
    intro sec e' x he' hx
    rcases cases_owner he' with ⟨rfl, rfl⟩ | he'
    · exact hbits x (Or.inr hx)
    · exact hkept.used sec e' x he' hx
  case outside =>
    intro sec e' he'
    rcases cases_owner he' with ⟨rfl, rfl⟩ | he'
    · exact hout
    · exact h.outside sec e' he'
  case apart =>
    intro sec e₁ sec' e₂ x h₁ h₂ hne hx hx'
    rcases cases_owner h₁ with ⟨hs₁, he₁⟩ | ho₁ <;> rcases cases_owner h₂ with ⟨hs₂, he₂⟩ | ho₂
    · exact hne (hs₁.trans hs₂.symm)
    · rw [hs₁, he₁] at hx
      exact apart ho₂ hx' hx
    · rw [hs₂, he₂] at hx'
      exact apart ho₁ hx hx'
    · exact h.apart sec e₁ sec' e₂ x ho₁ ho₂ hne hx hx'

theorem Owned.sectors_eq (h : Owned bits disk owner) (he : owner sec = some e) :
    bytesToSectors e.length = e.sectors := by
  obtain ⟨h0, hlt⟩ := h.size sec e he
  exact bytesToSectors_eq h0 hlt

/-- The sectors of an inode can be given back. -/
theorem Owned.releasable (h : Owned bits disk owner) (he : owner sec = some e) : Releasable bits sec e where
  inode := h.used sec e sec he (Or.inl rfl)
  le := by
    rw [h.sectors_eq he]
    exact h.le sec e he
  data i hlo hhi := by
    rw [h.sectors_eq he] at hhi
    refine ⟨h.used sec e i he (Or.inr ⟨hlo, hhi⟩), ?_⟩
    rintro rfl
    exact h.outside i e he ⟨hlo, hhi⟩

/-- The bits of other sectors after those of an inode are given back. -/
theorem Owned.getElem?_released (h : Owned bits disk owner) (he : owner sec = some e) {x : Nat}
    (hx : ¬ Occupies sec e x) : (released bits sec e)[x]? = bits[x]? := by
  unfold Occupies InodeDisk.Has at hx
  rw [released, h.sectors_eq he, getElem?_bitmapSetMultiple, if_neg (by omega),
    getElem?_bitmapSetMultiple, if_neg (by omega)]

/-- The sectors of an inode are given back. -/
theorem Owned.remove (h : Owned bits disk owner) (he : owner sec = some e)
    (hdisk : SameOn (fun sec => owner sec ≠ none) disk' disk) :
    Owned (released bits sec e) disk' (update owner sec none) := by
  have old : ∀ {sec' e'}, update owner sec none sec' = some e' → sec ≠ sec' ∧ owner sec' = some e' := by
    intro sec' e' he'
    by_cases hsec : sec' = sec
    · rw [hsec, update_self] at he'
      cases he'
    · rw [update_of_ne hsec] at he'
      exact ⟨Ne.symm hsec, he'⟩
  have hlen : (released bits sec e).length = bits.length := by
    rw [released, length_bitmapSetMultiple, length_bitmapSetMultiple]
  constructor
  case sector =>
    intro sec' e' he'
    obtain ⟨-, he'⟩ := old he'
    exact (h.kept rfl h.used hdisk).sector sec' e' he'
  case size => exact fun sec' e' he' => h.size sec' e' (old he').2
  case le =>
    intro sec' e' he'
    rw [hlen]
    exact h.le sec' e' (old he').2
  case used =>
    intro sec' e' x he' hx
    obtain ⟨hne, he'⟩ := old he'
    rw [h.getElem?_released he fun hc => h.apart sec e sec' e' x he he' hne hc hx]
    exact h.used sec' e' x he' hx
  case outside => exact fun sec' e' he' => h.outside sec' e' (old he').2
  case apart => exact fun s₁ e₁ s₂ e₂ x h₁ h₂ => h.apart s₁ e₁ s₂ e₂ x (old h₁).2 (old h₂).2

/-! ## What stays open -/

/-- The files are the same, on the inodes they were on. -/
structure StillOpen (s s' : FileSys) : Prop where
  brk : s.brk ≤ s'.brk
  files : s'.files = s.files
  freeMapFile : s'.freeMapFile = s.freeMapFile
  inode : ∀ q i', q < s.brk → s'.inodes q = some i' → ∃ i, s.inodes q = some i ∧ i'.sector = i.sector

variable {s s' s₁ s₂ : FileSys} {refs : InodePtr → Nat} {live : List FilePtr} {p q : InodePtr}
  {d r : InodeDisk} {i inode : Inode} {f : FilePtr} {file : File} {dir : Dir} {name : CStr} {size : Int}
  {ok : Bool}

theorem StillOpen.refl (s : FileSys) : StillOpen s s where
  brk := Nat.le_refl _
  files := rfl
  freeMapFile := rfl
  inode _ i' _ hq := ⟨i', hq, rfl⟩

theorem StillOpen.trans (h : StillOpen s s₁) (h' : StillOpen s₁ s₂) : StillOpen s s₂ where
  brk := Nat.le_trans h.brk h'.brk
  files := h'.files.trans h.files
  freeMapFile := h'.freeMapFile.trans h.freeMapFile
  inode q i₂ hq hi₂ := by
    obtain ⟨i₁, hi₁, hsec₁⟩ := h'.inode q i₂ (Nat.lt_of_lt_of_le hq h.brk) hi₂
    obtain ⟨i, hi, hsec⟩ := h.inode q i₁ hq hi₁
    exact ⟨i, hi, hsec₁.trans hsec⟩

/-! ## The invariant -/

/-- The state with no file removed: the counters do not depend on it. -/
def unremoved (s : FileSys) : FileSys :=
  { s with inodes := fun q => (s.inodes q).map fun i => { i with removed := false } }

theorem unremoved_setInode (s : FileSys) (q : InodePtr) (i : Inode) :
    unremoved (s.setInode q (some i)) =
      (unremoved s).setInode q (some { i with removed := false }) := by
  unfold unremoved FileSys.setInode
  simp only
  congr 1
  funext x
  by_cases hx : x = q
  · rw [hx, update_self, update_self, Option.map_some]
  · rw [update_of_ne hx, update_of_ne hx]

theorem unremoved_free (s : FileSys) (q : InodePtr) :
    (unremoved (s.setInode q none)).inodes = ((unremoved s).setInode q none).inodes := by
  funext x
  unfold unremoved FileSys.setInode
  by_cases hx : x = q
  · rw [hx]
    simp only [update_self, Option.map_none]
  · simp only [update_of_ne hx]

/-- Pointers may have been returned and given back. -/
theorem Counts.congr (h : Counts s refs live) (hinodes : s'.inodes = s.inodes)
    (hopen : s'.openInodes = s.openInodes) (hfiles : s'.files = s.files) (hbrk : s.brk ≤ s'.brk) :
    Counts s' refs live where
  nodup := h.nodup
  nodupOpen := by
    rw [hopen]
    exact h.nodupOpen
  listed := by
    rw [hopen, hinodes]
    exact h.listed
  sector := by
    rw [hinodes]
    exact h.sector
  file := by
    rw [hfiles]
    exact h.file
  inode := by
    rw [hfiles, hinodes]
    exact h.inode
  fresh q hq := by
    rw [hinodes, hfiles]
    exact h.fresh q (Nat.le_trans hbrk hq)
  unheld := by
    rw [hinodes]
    exact h.unheld
  count := by
    rw [hinodes, hfiles]
    exact h.count

/-- **The invariant**, between two calls and inside of one, where `refs` are the references to inodes
that no file owns. The free map file is `d`, on the inode `p`, and the root directory is `r`. -/
structure FsInv (s : FileSys) (refs : InodePtr → Nat) (live : List FilePtr) (p : InodePtr)
    (d r : InodeDisk) (owner : Nat → Option InodeDisk) : Prop where
  map : MapFile s p d
  stored : (storedMap s d).bits = s.freeMap.bits
  bitCnt : s.freeMap.bitCnt = s.capacity
  capacity : s.capacity ≤ 2 ^ 28
  stack : s.stack.length = ENTRY_SIZE
  owned : Owned s.freeMap.bits s.disk owner
  mapOwner : owner FREE_MAP_SECTOR = some d
  rootOwner : owner ROOT_DIR_SECTOR = some r
  whole : r.length.toNat % ENTRY_SIZE = 0
  names : Unique (table s.disk r)
  /-- No sector is in two entries of the root directory. -/
  sectors : Unique (swapped (table s.disk r))
  entry : ∀ sec ∈ keys (swapped (table s.disk r)), 2 ≤ sec ∧ owner sec ≠ none
  inode : ∀ q i, s.inodes q = some i → owner i.sector = some i.data
  removed : ∀ q i, s.inodes q = some i →
    (i.removed = true ↔ 2 ≤ i.sector ∧ i.sector ∉ keys (swapped (table s.disk r)))
  counts : Counts (unremoved s) refs live
  /-- A file is that of the free map, or is on an inode with a name. -/
  file : ∀ f file, s.files f = some file → (s.freeMapFile = some f ∧ file.denyWrite = false) ∨
    ∃ i, s.inodes file.inode = some i ∧ 2 ≤ i.sector

theorem unremoved_inodes (hq : s.inodes q = some i) :
    (unremoved s).inodes q = some { i with removed := false } := by
  unfold unremoved
  simp only [hq, Option.map_some]

/-- The counters of an inode. -/
theorem FsInv.count (h : FsInv s refs live p d r owner) (hq : s.inodes q = some i) :
    0 < i.openCnt ∧ i.denyWriteCnt = live.countP (denies s.files q) := by
  obtain ⟨-, hpos, -, hdeny⟩ := h.counts.count q _ (unremoved_inodes hq)
  exact ⟨hpos, hdeny⟩

/-- The free map and the root directory are not protected. -/
theorem FsInv.undenied (h : FsInv s refs live p d r owner) (hq : s.inodes q = some i) (hsec : i.sector < 2) :
    i.denyWriteCnt = 0 := by
  obtain ⟨-, hdeny⟩ := h.count hq
  have hnone : live.countP (denies s.files q) = 0 := by
    refine List.countP_eq_zero.mpr fun f _ => ?_
    unfold denies
    split
    · exact Bool.false_ne_true
    · next file hf =>
      rcases h.file f file hf with ⟨-, hoff⟩ | ⟨j, hj, hle⟩
      · rw [hoff, Bool.and_false]
        exact Bool.false_ne_true
      · have hne : file.inode ≠ q := by
          rintro rfl
          rw [hq, Option.some.injEq] at hj
          subst hj
          omega
        rw [decide_eq_false hne, Bool.false_and]
        exact Bool.false_ne_true
  omega

/-- An inode that is held is in memory. -/
theorem FsInv.held (h : FsInv s refs live p d r owner) (hq : refs q ≠ 0) : ∃ i, s.inodes q = some i := by
  refine Option.ne_none_iff_exists'.mp fun hc => hq (h.counts.unheld q ?_)
  unfold unremoved
  simp only [hc, Option.map_none]

theorem FsInv.fresh (h : FsInv s refs live p d r owner) (hq : s.brk ≤ q) :
    s.inodes q = none ∧ s.files q = none := by
  obtain ⟨hi, hf⟩ := h.counts.fresh q hq
  exact ⟨Option.map_eq_none_iff.mp hi, hf⟩

/-- A sector is that of one inode in memory at most. -/
theorem FsInv.inode_unique (h : FsInv s refs live p d r owner) {q' : InodePtr} {i' : Inode}
    (hq : s.inodes q = some i) (hq' : s.inodes q' = some i') (hsec : i.sector = i'.sector) : q = q' :=
  h.counts.sector q q' _ _ (unremoved_inodes hq) (unremoved_inodes hq') hsec

theorem FsInv.selects (h : FsInv s refs live p d r owner) (he : owner sec = some e) : s.Selects sec := by
  obtain ⟨hlt, -⟩ := List.getElem?_eq_some_iff.mp (h.owned.used sec e sec he (Or.inl rfl))
  rw [WordBitmap.length_bits, h.bitCnt] at hlt
  have hcap := h.capacity
  exact ⟨hlt, by omega⟩

theorem FsInv.onDisk (h : FsInv s refs live p d r owner) (he : owner sec = some e) : OnDisk s e := by
  have hle := h.owned.le sec e he
  rw [WordBitmap.length_bits, h.bitCnt] at hle
  exact onDisk_of_le (h.owned.size sec e he).1 hle h.capacity

theorem FsInv.dirOpen (h : FsInv s refs live p d r owner) (hq : s.inodes q = some i)
    (hsec : i.sector = ROOT_DIR_SECTOR) : DirOpen s q r where
  inode := by
    have howner := h.inode q i hq
    rw [hsec, h.rootOwner, Option.some.injEq] at howner
    exact ⟨i, hq, howner.symm, h.undenied hq (by rw [hsec]; decide)⟩
  onDisk := h.onDisk h.rootOwner
  length := by
    obtain ⟨-, hlt⟩ := h.owned.size _ _ h.rootOwner
    omega

/-- The free map file shares no sector with another inode. -/
theorem FsInv.map_apart (h : FsInv s refs live p d r owner) (he : owner sec = some e)
    (hsec : sec ≠ FREE_MAP_SECTOR) {x : Nat} (hx : Occupies sec e x) : ¬ d.Has x :=
  fun hc => h.owned.apart _ _ _ _ x he h.mapOwner hsec hx (Or.inr hc)

/-- The inode of the free map is not one that a caller opens. -/
theorem FsInv.map_ne (h : FsInv s refs live p d r owner) (hq : s.inodes q = some i)
    (hsec : i.sector ≠ FREE_MAP_SECTOR) : p ≠ q := by
  rintro rfl
  obtain ⟨i₀, hi₀, -, -, hsec₀⟩ := h.map.inode
  rw [hq, Option.some.injEq] at hi₀
  rw [← hi₀] at hsec₀
  exact hsec hsec₀

/-! ## `inode_open` -/

/-- Only what is in memory changes. -/
theorem FsInv.memory (h : FsInv s refs live p d r owner) {refs' : InodePtr → Nat} {live' : List FilePtr}
    (hmap : MapFile s' p d) (hdisk : s'.disk = s.disk) (hcap : s'.capacity = s.capacity)
    (hfree : s'.freeMap = s.freeMap) (hstack : s'.stack = s.stack)
    (hinode : ∀ q i, s'.inodes q = some i → owner i.sector = some i.data ∧
      (i.removed = true ↔ 2 ≤ i.sector ∧ i.sector ∉ keys (swapped (table s.disk r))))
    (hcounts : Counts (unremoved s') refs' live')
    (hfile : ∀ f file, s'.files f = some file → (s'.freeMapFile = some f ∧ file.denyWrite = false) ∨
      ∃ i, s'.inodes file.inode = some i ∧ 2 ≤ i.sector) :
    FsInv s' refs' live' p d r owner where
  map := hmap
  stored := by
    unfold storedMap
    rw [hdisk, hfree]
    exact h.stored
  bitCnt := by
    rw [hfree, hcap]
    exact h.bitCnt
  capacity := by
    rw [hcap]
    exact h.capacity
  stack := by
    rw [hstack]
    exact h.stack
  owned := by
    rw [hfree, hdisk]
    exact h.owned
  mapOwner := h.mapOwner
  rootOwner := h.rootOwner
  whole := h.whole
  names := by
    rw [hdisk]
    exact h.names
  sectors := by
    rw [hdisk]
    exact h.sectors
  entry := by
    rw [hdisk]
    exact h.entry
  inode q i hq := (hinode q i hq).1
  removed q i hq := by
    rw [hdisk]
    exact (hinode q i hq).2
  counts := hcounts
  file := hfile

/-- The sectors that are opened: the root directory's, and those with a name. -/
def Named (s : FileSys) (r : InodeDisk) (sec : Nat) : Prop :=
  sec = ROOT_DIR_SECTOR ∨ sec ∈ keys (swapped (table s.disk r))

theorem FsInv.named (h : FsInv s refs live p d r owner) (hsec : Named s r sec) :
    sec ≠ FREE_MAP_SECTOR ∧ (∃ e, owner sec = some e) ∧
      ¬ (2 ≤ sec ∧ sec ∉ keys (swapped (table s.disk r))) := by
  rcases hsec with rfl | hmem
  · exact ⟨by decide, ⟨r, h.rootOwner⟩, fun hc => absurd hc.1 (by decide)⟩
  · obtain ⟨hle, howner⟩ := h.entry sec hmem
    refine ⟨?_, Option.ne_none_iff_exists'.mp howner, fun hc => hc.2 hmem⟩
    unfold FREE_MAP_SECTOR
    omega

/-- One more reference to an inode that is open. -/
theorem FsInv.reopened (h : FsInv s refs live p d r owner) (hq : s.inodes q = some i)
    (hsec : i.sector ≠ FREE_MAP_SECTOR) :
    FsInv (Pintos.reopened s q i) (update refs q (refs q + 1)) live p d r owner ∧
      StillOpen s (Pintos.reopened s q i) := by
  have hpq := h.map_ne hq hsec
  have hback : ∀ q' i', (Pintos.reopened s q i).inodes q' = some i' →
      ∃ j, s.inodes q' = some j ∧ i'.sector = j.sector ∧ i'.data = j.data ∧ i'.removed = j.removed := by
    intro q' i' hi'
    have hi : update s.inodes q (some { i with openCnt := i.openCnt + 1 }) q' = some i' := hi'
    by_cases hqq : q' = q
    · rw [hqq, update_self, Option.some.injEq] at hi
      subst hi
      exact ⟨i, by rw [hqq, hq], rfl, rfl, rfl⟩
    · rw [update_of_ne hqq] at hi
      exact ⟨i', hi, rfl, rfl, rfl⟩
  constructor
  · refine h.memory (h.map.sameStore (reopened_sameStore _ _ _) (update_of_ne hpq _ _)) rfl rfl rfl rfl ?_ ?_ ?_
    · intro q' i' hi'
      obtain ⟨j, hj, hs, hd, hr⟩ := hback q' i' hi'
      rw [hs, hd, hr]
      exact ⟨h.inode q' j hj, h.removed q' j hj⟩
    · rw [Pintos.reopened, unremoved_setInode]
      exact h.counts.reopen (unremoved_inodes hq)
    · intro f file hf
      refine (h.file f file hf).imp_right ?_
      rintro ⟨j, hj, hle⟩
      by_cases hqq : file.inode = q
      · rw [hqq, hq, Option.some.injEq] at hj
        exact ⟨_, by rw [hqq]; exact update_self _ _ _, by rw [← hj] at hle; exact hle⟩
      · exact ⟨j, (update_of_ne hqq _ _).trans hj, hle⟩
  · refine ⟨Nat.le_refl _, rfl, rfl, fun q' i' _ hi' => ?_⟩
    obtain ⟨j, hj, hs, -, -⟩ := hback q' i' hi'
    exact ⟨j, hj, hs⟩

/-- **`inode_open`** of a sector with a name. -/
theorem FsInv.inodeOpen (h : FsInv s refs live p d r owner) (hsec : Named s r sec) :
    ∃ q i s', (inodeOpen sec true).run s = .ok (some q, s') ∧ SameStore s s' ∧
      s'.inodes q = some i ∧ i.sector = sec ∧ i.removed = false ∧
      FsInv s' (update refs q (refs q + 1)) live p d r owner ∧ StillOpen s s' := by
  obtain ⟨hne, ⟨e, he⟩, hkeep⟩ := h.named hsec
  rcases inodeOpen_spec (h.selects he) with ⟨q, i, -, hq, hisec, hrun⟩ | ⟨hfind, hrun⟩
  · have hremoved : i.removed = false := by
      have hiff := h.removed q i hq
      rw [hisec] at hiff
      exact Bool.eq_false_iff.mpr fun hc => hkeep (hiff.mp hc)
    obtain ⟨hinv, hstill⟩ := h.reopened hq (by rw [hisec]; exact hne)
    exact ⟨q, { i with openCnt := i.openCnt + 1 }, _, hrun, reopened_sameStore _ _ _, update_self _ _ _,
      hisec, hremoved, hinv, hstill⟩
  · have hbrk := (h.fresh (Nat.le_refl s.brk)).1
    have hne_brk : ∀ {q' i'}, s.inodes q' = some i' → q' ≠ s.brk := by
      rintro q' i' hq' rfl
      rw [hbrk] at hq'
      cases hq'
    have hdata : (loaded s sec).data = e := h.owned.sector sec e he
    obtain ⟨i₀, hi₀, -⟩ := h.map.inode
    have hold : ∀ q' i', q' ≠ s.brk → (withLoaded s sec).inodes q' = some i' → s.inodes q' = some i' :=
      fun q' i' hqq hi' => (update_of_ne hqq _ _).symm.trans hi'
    refine ⟨s.brk, loaded s sec, _, hrun, withLoaded_sameStore _ _, update_self _ _ _, rfl, rfl, ?_, ?_⟩
    · refine h.memory (h.map.sameStore (withLoaded_sameStore _ _) (update_of_ne (hne_brk hi₀) _ _))
        rfl rfl rfl rfl ?_ ?_ ?_
      · intro q' i' hi'
        by_cases hqq : q' = s.brk
        · have hi : update s.inodes s.brk (some (loaded s sec)) q' = some i' := hi'
          rw [hqq, update_self, Option.some.injEq] at hi
          subst hi
          rw [hdata]
          exact ⟨he, iff_of_false Bool.false_ne_true hkeep⟩
        · exact ⟨h.inode q' i' (hold q' i' hqq hi'), h.removed q' i' (hold q' i' hqq hi')⟩
      · -- the new inode is not removed
        have hsector : ∀ q' i', (unremoved s).inodes q' = some i' → i'.sector ≠ (loaded s sec).sector := by
          intro q' i' hi'
          obtain ⟨j, hj, hji⟩ := Option.map_eq_some_iff.mp hi'
          have hlisted : q' ∈ s.openInodes := (h.counts.listed q').mpr (by rw [hi']; simp)
          have hno := findOpen_none hfind hlisted hj
          rw [← hji]
          exact hno
        have hinodes : (unremoved (s.setInode s.brk (some (loaded s sec)))).inodes =
            ((unremoved s).setInode s.brk (some (loaded s sec))).inodes := by
          rw [unremoved_setInode]
          rfl
        exact (h.counts.newInode rfl rfl rfl hsector).congr hinodes rfl rfl (Nat.le_refl _)
      · intro f file hf
        refine (h.file f file hf).imp_right ?_
        rintro ⟨j, hj, hle⟩
        exact ⟨j, (update_of_ne (hne_brk hj) _ _).trans hj, hle⟩
    · exact ⟨Nat.le_succ _, rfl, rfl, fun q' i' hlt hi' => ⟨i', hold q' i' (Nat.ne_of_lt hlt) hi', rfl⟩⟩

/-! ## `inode_close` -/

/-- What `inode_close` does: a reference is given back, or the sectors of a removed file. -/
inductive Closed (s : FileSys) (d : InodeDisk) (q : InodePtr) (i : Inode) : FileSys → Prop
  | counted (h : i.removed = false ∨ i.openCnt ≠ 1) : Closed s d q i (closed s q i)
  | released (s' : FileSys) (hremoved : i.removed = true) (hlast : i.openCnt = 1)
      (hmap : MapIs (withoutInode s q) s' d (released s.freeMap.bits i.sector i.data))
      (hdisk : SameOn (fun sec => ¬ d.Has sec) s'.disk s.disk) : Closed s d q i s'

/-- Files are not looked at. -/
theorem Closed.setFile (h : Closed s d q i s') (f : FilePtr) (file : Option File) :
    Closed (s.setFile f file) d q i (s'.setFile f file) := by
  cases h with
  | counted h =>
    rw [closed_setFile]
    exact .counted h
  | released _ hremoved hlast hmap hdisk =>
    refine .released _ hremoved hlast ⟨?_, hmap.ok, hmap.bitCnt, hmap.memory, hmap.stored⟩ hdisk
    rw [hmap.frame]
    rfl

theorem FsInv.run_inodeClose (h : FsInv s refs live p d r owner) (hq : s.inodes q = some i)
    (hsec : i.sector ≠ FREE_MAP_SECTOR) :
    ∃ s', (inodeClose (some q)).run s = .ok ((), s') ∧ Closed s d q i s' := by
  by_cases hlast : i.openCnt = 1
  · cases hremoved : i.removed with
    | false => exact ⟨_, Pintos.run_inodeClose hq hremoved, .counted (Or.inl hremoved)⟩
    | true =>
      obtain ⟨s', hrun, hmap, hdisk⟩ := run_inodeClose_removed h.map hq (h.map_ne hq hsec) hremoved hlast
        (h.owned.releasable (h.inode q i hq))
      exact ⟨s', hrun, .released s' hremoved hlast hmap hdisk⟩
  · refine ⟨closed s q i, ?_, .counted (Or.inr hlast)⟩
    rw [run_inodeClose_kept hq hlast, closed, if_neg hlast]

/-- The data sectors of the other inodes, and all inodes, are as they were. -/
theorem FsInv.sameOn_inodes (h : FsInv s refs live p d r owner) {disk : Nat → Sector}
    (hdisk : SameOn (fun sec => ¬ d.Has sec) disk s.disk) : SameOn (fun sec => owner sec ≠ none) disk s.disk := by
  refine hdisk.mono fun sec hsec hc => ?_
  obtain ⟨e, he⟩ := Option.ne_none_iff_exists'.mp hsec
  by_cases hmap : sec = FREE_MAP_SECTOR
  · subst hmap
    exact h.owned.outside _ _ h.mapOwner hc
  · exact h.map_apart he hmap (Or.inl rfl) hc

theorem FsInv.sameOn_data (h : FsInv s refs live p d r owner) {disk : Nat → Sector}
    (hdisk : SameOn (fun sec => ¬ d.Has sec) disk s.disk) (he : owner sec = some e)
    (hsec : sec ≠ FREE_MAP_SECTOR) : SameOn e.Has disk s.disk :=
  hdisk.mono fun _ hx => h.map_apart he hsec (Or.inr hx)

/-- A file that is still open is on an inode that is still in memory. -/
theorem FsInv.filesKept (h : FsInv s refs live p d r owner) {refs' : InodePtr → Nat}
    (hcounts : Counts (unremoved s') refs' live) (hfiles : s'.files = s.files)
    (hmapFile : s'.freeMapFile = s.freeMapFile)
    (hback : ∀ q' i', s'.inodes q' = some i' → ∃ j, s.inodes q' = some j ∧ i'.sector = j.sector) (f : FilePtr)
    (file : File) (hf : s'.files f = some file) :
    (s'.freeMapFile = some f ∧ file.denyWrite = false) ∨ ∃ i, s'.inodes file.inode = some i ∧ 2 ≤ i.sector := by
  have hmem := hcounts.inode f file hf
  rw [hfiles] at hf
  rw [hmapFile]
  refine (h.file f file hf).imp_right ?_
  rintro ⟨j, hj, hle⟩
  obtain ⟨i', hi'⟩ := Option.ne_none_iff_exists'.mp hmem
  obtain ⟨i'', hi'', -⟩ := Option.map_eq_some_iff.mp hi'
  obtain ⟨j', hj', hsec'⟩ := hback _ i'' hi''
  rw [hj, Option.some.injEq] at hj'
  exact ⟨i'', hi'', by rw [hsec', ← hj']; exact hle⟩

/-- **The invariant after `inode_close`**, where no sectors are given back. -/
theorem FsInv.closed_counted (h : FsInv s refs live p d r owner) (hq : s.inodes q = some i)
    (hsec : i.sector ≠ FREE_MAP_SECTOR) (hheld : refs q ≠ 0) :
    FsInv (Pintos.closed s q i) (update refs q (refs q - 1)) live p d r owner ∧
      StillOpen s (Pintos.closed s q i) := by
  have hpq := h.map_ne hq hsec
  have hcounts := h.counts.closed (unremoved_inodes hq) hheld
  have hback : ∀ q' i', (Pintos.closed s q i).inodes q' = some i' → ∃ j, s.inodes q' = some j ∧
      i'.sector = j.sector ∧ i'.data = j.data ∧ i'.removed = j.removed := by
    intro q' i' hi'
    unfold Pintos.closed at hi'
    by_cases hqq : q' = q
    · split at hi'
      · have hnone : update s.inodes q none q' = some i' := hi'
        rw [hqq, update_self] at hnone
        cases hnone
      · have hsome : update s.inodes q (some { i with openCnt := i.openCnt - 1 }) q' = some i' := hi'
        rw [hqq, update_self, Option.some.injEq] at hsome
        subst hsome
        exact ⟨i, by rw [hqq, hq], rfl, rfl, rfl⟩
    · split at hi'
      · exact ⟨i', (update_of_ne hqq _ _).symm.trans hi', rfl, rfl, rfl⟩
      · exact ⟨i', (update_of_ne hqq _ _).symm.trans hi', rfl, rfl, rfl⟩
  have hstore := closed_sameStore s q i
  have hinodes : (unremoved (Pintos.closed s q i)).inodes =
      (Pintos.closed (unremoved s) q { i with removed := false }).inodes := by
    unfold Pintos.closed
    split
    · exact unremoved_free s q
    · rw [unremoved_setInode]
  have hlist : (Pintos.closed s q i).openInodes =
      (Pintos.closed (unremoved s) q { i with removed := false }).openInodes := by
    unfold Pintos.closed
    split <;> rfl
  have hbrk : (Pintos.closed s q i).brk = s.brk := by
    unfold Pintos.closed
    split <;> rfl
  have hbrk' : (Pintos.closed (unremoved s) q { i with removed := false }).brk = s.brk := by
    unfold Pintos.closed
    split <;> rfl
  have hfiles' : (Pintos.closed (unremoved s) q { i with removed := false }).files = s.files :=
    (closed_sameStore (unremoved s) q _).files
  have hcounts' : Counts (unremoved (Pintos.closed s q i)) (update refs q (refs q - 1)) live :=
    hcounts.congr hinodes hlist (hstore.files.trans hfiles'.symm) (Nat.le_of_eq (hbrk'.trans hbrk.symm))
  refine ⟨h.memory (h.map.sameStore hstore ?_) hstore.disk hstore.capacity hstore.freeMap hstore.stack
    ?_ hcounts' ?_, ?_⟩
  · unfold Pintos.closed
    split
    · exact update_of_ne hpq _ _
    · exact update_of_ne hpq _ _
  · intro q' i' hi'
    obtain ⟨j, hj, hs, hd, hr⟩ := hback q' i' hi'
    rw [hs, hd, hr]
    exact ⟨h.inode q' j hj, h.removed q' j hj⟩
  · refine h.filesKept hcounts' hstore.files hstore.freeMapFile fun q' i' hi' => ?_
    obtain ⟨j, hj, hs, -, -⟩ := hback q' i' hi'
    exact ⟨j, hj, hs⟩
  · refine ⟨Nat.le_of_eq hbrk.symm, hstore.files, hstore.freeMapFile, fun q' i' _ hi' => ?_⟩
    obtain ⟨j, hj, hs, -, -⟩ := hback q' i' hi'
    exact ⟨j, hj, hs⟩

/-- **The invariant after `inode_close`** of a file whose sectors are given back. -/
theorem FsInv.closed_released (h : FsInv s refs live p d r owner) (hq : s.inodes q = some i)
    (hsec : i.sector ≠ FREE_MAP_SECTOR) (hheld : refs q ≠ 0) (hremoved : i.removed = true) (hlast : i.openCnt = 1)
    (hmap : MapIs (withoutInode s q) s' d (released s.freeMap.bits i.sector i.data))
    (hdisk : SameOn (fun sec => ¬ d.Has sec) s'.disk s.disk) :
    FsInv s' (update refs q (refs q - 1)) live p d r (update owner i.sector none) ∧ StillOpen s s' := by
  have hpq := h.map_ne hq hsec
  have hcounts := h.counts.closed (unremoved_inodes hq) hheld
  obtain ⟨hle, hgone⟩ := (h.removed q i hq).mp hremoved
  have howner := h.inode q i hq
  have hroot : ∀ sec ∈ keys (swapped (table s.disk r)), sec ≠ i.sector := by
    rintro sec hsec' rfl
    exact hgone hsec'
  have htable : table s'.disk r = table s.disk r :=
    table_congr (h.sameOn_data hdisk h.rootOwner (by decide))
  have hold : ∀ q' i', s'.inodes q' = some i' → q' ≠ q ∧ s.inodes q' = some i' := by
    intro q' i' hi'
    rw [hmap.frame] at hi'
    have hi : update s.inodes q none q' = some i' := hi'
    by_cases hqq : q' = q
    · rw [hqq, update_self] at hi
      cases hi
    · rw [update_of_ne hqq] at hi
      exact ⟨hqq, hi⟩
  have hfiles' : s'.files = s.files := by
    rw [hmap.frame]
    rfl
  have hmapFile' : s'.freeMapFile = s.freeMapFile := by
    rw [hmap.frame]
    rfl
  have hbrk' : s'.brk = s.brk := by
    rw [hmap.frame]
    rfl
  have hcap' : s'.capacity = s.capacity := by
    rw [hmap.frame]
    rfl
  have hstack' : s'.stack = s.stack := by
    rw [hmap.frame]
    rfl
  have hcounts' : Counts (unremoved s') (update refs q (refs q - 1)) live := by
    unfold Pintos.closed at hcounts
    rw [if_pos hlast] at hcounts
    refine hcounts.congr ?_ ?_ hfiles' (Nat.le_of_eq hbrk'.symm)
    · rw [hmap.frame]
      exact unremoved_free s q
    · rw [hmap.frame]
      rfl
  have hmap₀ : MapFile (withoutInode s q) p d :=
    h.map.sameStore ⟨rfl, rfl, rfl, rfl, rfl, rfl⟩ (update_of_ne hpq _ _)
  refine ⟨?_, ?_⟩
  · constructor
    case map => exact hmap.mapFile hmap₀
    case stored => exact hmap.stored.trans hmap.memory.symm
    case bitCnt =>
      rw [hmap.bitCnt, hcap']
      exact h.bitCnt
    case capacity =>
      rw [hcap']
      exact h.capacity
    case stack =>
      rw [hstack']
      exact h.stack
    case owned =>
      rw [hmap.memory]
      exact h.owned.remove howner (h.sameOn_inodes hdisk)
    case mapOwner => rw [update_of_ne (Ne.symm hsec), h.mapOwner]
    case rootOwner =>
      rw [update_of_ne (by unfold ROOT_DIR_SECTOR; omega), h.rootOwner]
    case whole => exact h.whole
    case names =>
      rw [htable]
      exact h.names
    case sectors =>
      rw [htable]
      exact h.sectors
    case entry =>
      intro sec hsec'
      rw [htable] at hsec'
      rw [update_of_ne (hroot sec hsec')]
      exact h.entry sec hsec'
    case inode =>
      intro q' i' hi'
      obtain ⟨hqq, hi⟩ := hold q' i' hi'
      rw [update_of_ne fun hc => hqq (h.inode_unique hi hq hc)]
      exact h.inode q' i' hi
    case removed =>
      intro q' i' hi'
      rw [htable]
      exact h.removed q' i' (hold q' i' hi').2
    case counts => exact hcounts'
    case file =>
      exact h.filesKept hcounts' hfiles' hmapFile' fun q' i' hi' => ⟨i', (hold q' i' hi').2, rfl⟩
  · exact ⟨Nat.le_of_eq hbrk'.symm, hfiles', hmapFile', fun q' i' _ hi' => ⟨i', (hold q' i' hi').2, rfl⟩⟩

/-- **The invariant after `inode_close`**, where the caller held a reference. -/
theorem FsInv.closed (h : FsInv s refs live p d r owner) (hq : s.inodes q = some i)
    (hsec : i.sector ≠ FREE_MAP_SECTOR) (hheld : refs q ≠ 0) (hc : Closed s d q i s') :
    ∃ owner', FsInv s' (update refs q (refs q - 1)) live p d r owner' ∧ StillOpen s s' ∧
      (∀ sec e, owner' sec = some e → owner sec = some e) ∧ SameOn (fun sec => ¬ d.Has sec) s'.disk s.disk := by
  cases hc with
  | counted =>
    obtain ⟨hinv, hopen⟩ := h.closed_counted hq hsec hheld
    refine ⟨owner, hinv, hopen, fun sec e he => he, ?_⟩
    rw [(closed_sameStore s q i).disk]
    exact .refl _ _
  | released _ hremoved hlast hmap hdisk =>
    obtain ⟨hinv, hopen⟩ := h.closed_released hq hsec hheld hremoved hlast hmap hdisk
    refine ⟨_, hinv, hopen, fun sec e he => ?_, hdisk⟩
    by_cases hs : sec = i.sector
    · rw [hs, update_self] at he
      cases he
    · rwa [update_of_ne hs] at he

end Pintos
