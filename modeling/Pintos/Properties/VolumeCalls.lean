import Pintos.Properties.Ownership
import Pintos.Lib.FileStore

/-!
# The calls of `filesys/filesys.c` keep the invariant

What `filesys_create`, `filesys_remove` and `filesys_open` do to the names, to the bytes of the files
and to what is open, where any files may be open.

* `handleOf` — what a `struct file` is for its user
* `FsInv.filesysCreate` — a new file of zeros, or nothing
* `FsInv.filesysRemove` — the name is gone, and the file if nobody has it open
* `FsInv.filesysOpen` — a handle of the file with the name
-/

namespace Pintos

open Function LittleEndian SlotMap FileStore

variable {s s' s₁ s₂ : FileSys} {refs : InodePtr → Nat} {live : List FilePtr} {p q : InodePtr}
  {d r e : InodeDisk} {owner owner' : Nat → Option InodeDisk} {i inode : Inode} {f : FilePtr} {file : File}
  {dir : Dir} {name : CStr} {size : Int} {ok : Bool} {sec a b n k : Nat} {bits : Bitmap}
  {disk : Nat → Sector}

/-! ## Handles -/

/-- What a `struct file` is for its user. The free map file has none. -/
def handleOf (s : FileSys) (f : FilePtr) : Option (Handle Nat) :=
  if s.freeMapFile = some f then none
  else (s.files f).bind fun file =>
    (s.inodes file.inode).map fun i => { id := i.sector, pos := file.pos, deny := file.denyWrite }

theorem handleOf_some {x : Handle Nat} (h : handleOf s f = some x) : s.freeMapFile ≠ some f ∧
    ∃ file i, s.files f = some file ∧ s.inodes file.inode = some i ∧
      x = { id := i.sector, pos := file.pos, deny := file.denyWrite } := by
  unfold handleOf at h
  split at h
  · cases h
  · next hmap =>
    obtain ⟨file, hf, hx⟩ := Option.bind_eq_some_iff.mp h
    obtain ⟨i, hi, rfl⟩ := Option.map_eq_some_iff.mp hx
    exact ⟨hmap, file, i, hf, hi, rfl⟩

theorem handleOf_eq (hmap : s.freeMapFile ≠ some f) (hf : s.files f = some file)
    (hi : s.inodes file.inode = some i) :
    handleOf s f = some { id := i.sector, pos := file.pos, deny := file.denyWrite } := by
  rw [handleOf, if_neg hmap, hf, Option.bind_some, hi, Option.map_some]

/-- The files that callers have are on inodes other than those of the free map and the root directory. -/
theorem FsInv.fileInode (h : FsInv s refs live p d r owner) (hf : s.files f = some file)
    (hmap : s.freeMapFile ≠ some f) : ∃ i, s.inodes file.inode = some i ∧ 2 ≤ i.sector :=
  (h.file f file hf).resolve_left fun hc => hmap hc.1

/-- The inode of an open file is in memory. -/
theorem FsInv.inodeOf (h : FsInv s refs live p d r owner) (hf : s.files f = some file) :
    ∃ i, s.inodes file.inode = some i ∧ file.inode < s.brk := by
  have hne := h.counts.inode f file hf
  obtain ⟨i', hi'⟩ := Option.ne_none_iff_exists'.mp hne
  obtain ⟨i, hi, -⟩ := Option.map_eq_some_iff.mp hi'
  refine ⟨i, hi, Nat.lt_of_not_le fun hc => ?_⟩
  rw [(h.fresh hc).1] at hi
  cases hi

theorem StillOpen.handleOf (hs : StillOpen s s') (h : FsInv s refs live p d r owner)
    {refs' : InodePtr → Nat} {live' : List FilePtr} {p' : InodePtr} {d' r' : InodeDisk}
    (h' : FsInv s' refs' live' p' d' r' owner') : handleOf s' = handleOf s := by
  funext f
  unfold Pintos.handleOf
  rw [hs.files, hs.freeMapFile]
  cases hf : s.files f with
  | none => rfl
  | some file =>
    obtain ⟨i, hi, hlt⟩ := h.inodeOf hf
    obtain ⟨i', hi', -⟩ := h'.inodeOf (by rw [hs.files]; exact hf)
    obtain ⟨j, hj, hsec⟩ := hs.inode _ _ hlt hi'
    rw [hi, Option.some.injEq] at hj
    subst hj
    rw [Option.bind_some, Option.bind_some, hi, hi', Option.map_some, Option.map_some, hsec]

/-- A pointer that was never returned is not that of a file. -/
theorem FsInv.handleOf_brk (h : FsInv s refs live p d r owner) : handleOf s s.brk = none := by
  unfold handleOf
  rw [(h.fresh (Nat.le_refl _)).2]
  split <;> rfl

/-! ## The disk -/

/-- The files that there are before and afterwards have the bytes they had. -/
def SameFiles (owner owner' : Nat → Option InodeDisk) (disk' disk : Nat → Sector) : Prop :=
  ∀ sec e, owner sec = some e → owner' sec = some e → 2 ≤ sec → SameOn e.Has disk' disk

/-- The sectors of files are not those of the free map and the root directory. -/
theorem FsInv.file_apart (h : FsInv s refs live p d r owner) (he : owner sec = some e) (hsec : 2 ≤ sec)
    {x : Nat} (hx : Occupies sec e x) : ¬ d.Has x ∧ ¬ r.Has x := by
  refine ⟨h.map_apart he (by unfold FREE_MAP_SECTOR; omega) hx, fun hc => ?_⟩
  exact h.owned.apart _ _ _ _ x he h.rootOwner (by unfold ROOT_DIR_SECTOR; omega) hx (Or.inr hc)

/-- What is in use is not free. -/
theorem Owned.not_free (h : Owned bits disk owner) (he : owner sec = some e) {x : Nat} (hx : Occupies sec e x)
    (hfree : bits[x]? = some false) : False := by
  rw [h.used sec e x he hx] at hfree
  cases hfree

/-- The free map and the disk change, and no inode in memory. -/
theorem FsInv.mapIs (h : FsInv s refs live p d r owner) (hmap : MapIs s s' d bits)
    (howned : Owned bits s'.disk owner') (hd : owner' FREE_MAP_SECTOR = some d)
    (hr : owner' ROOT_DIR_SECTOR = some r) (hnames : Unique (table s'.disk r))
    (hsectors : Unique (swapped (table s'.disk r)))
    (hentry : ∀ sec ∈ keys (swapped (table s'.disk r)), 2 ≤ sec ∧ owner' sec ≠ none)
    (hinode : ∀ q i, s.inodes q = some i → owner' i.sector = some i.data ∧
      (i.removed = true ↔ 2 ≤ i.sector ∧ i.sector ∉ keys (swapped (table s'.disk r)))) :
    FsInv s' refs live p d r owner' := by
  have hinodes : s'.inodes = s.inodes := by rw [hmap.frame]
  have hfiles : s'.files = s.files := by rw [hmap.frame]
  have hmapFile : s'.freeMapFile = s.freeMapFile := by rw [hmap.frame]
  have hcap : s'.capacity = s.capacity := by rw [hmap.frame]
  have hstack : s'.stack = s.stack := by rw [hmap.frame]
  constructor
  case map => exact hmap.mapFile h.map
  case stored => exact hmap.stored.trans hmap.memory.symm
  case bitCnt => rw [hmap.bitCnt, hcap, h.bitCnt]
  case capacity =>
    rw [hcap]
    exact h.capacity
  case stack =>
    rw [hstack]
    exact h.stack
  case owned =>
    rw [hmap.memory]
    exact howned
  case mapOwner => exact hd
  case rootOwner => exact hr
  case whole => exact h.whole
  case names => exact hnames
  case sectors => exact hsectors
  case entry => exact hentry
  case inode =>
    rw [hinodes]
    exact fun q i hq => (hinode q i hq).1
  case removed =>
    rw [hinodes]
    exact fun q i hq => (hinode q i hq).2
  case counts =>
    refine h.counts.congr ?_ ?_ hfiles (Nat.le_of_eq ?_)
    · unfold unremoved
      simp only [hinodes]
    · rw [hmap.frame]
      rfl
    · rw [hmap.frame]
      rfl
  case file =>
    rw [hfiles, hmapFile, hinodes]
    exact h.file

theorem MapIs.stillOpen (h : MapIs s s' d bits) : StillOpen s s' := by
  rw [h.frame]
  exact ⟨Nat.le_refl _, rfl, rfl, fun q i' _ hq => ⟨i', hq, rfl⟩⟩

/-- The directory and the inodes are not written, and no sector of an inode is given back. -/
theorem FsInv.mapKept (h : FsInv s refs live p d r owner) (hmap : MapIs s s' d bits)
    (hlen : bits.length = s.freeMap.bits.length)
    (hbits : ∀ x : Nat, s.freeMap.bits[x]? = some true → bits[x]? = some true)
    (hinodes : SameOn (fun sec => owner sec ≠ none) s'.disk s.disk) (hroot : SameOn r.Has s'.disk s.disk) :
    FsInv s' refs live p d r owner := by
  have htable : table s'.disk r = table s.disk r := table_congr hroot
  refine h.mapIs hmap (h.owned.kept hlen (fun sec e x he hx => hbits x (h.owned.used sec e x he hx)) hinodes)
    h.mapOwner h.rootOwner ?_ ?_ ?_ ?_
  · rw [htable]
    exact h.names
  · rw [htable]
    exact h.sectors
  · rw [htable]
    exact h.entry
  · intro q i hq
    rw [htable]
    exact ⟨h.inode q i hq, h.removed q i hq⟩

/-! ## The root directory is opened and closed -/

theorem FsInv.createReady (h : FsInv s refs live p d r owner) (hq : s.inodes q = some i)
    (hsec : i.sector = ROOT_DIR_SECTOR) : CreateReady s p d r q where
  map := h.map
  dir := h.dirOpen hq hsec
  whole := h.whole
  bitCnt := h.bitCnt
  capacity := h.capacity
  used := by
    rintro sec (rfl | rfl | hsec | hsec)
    · exact h.owned.used _ _ _ h.mapOwner (Or.inl rfl)
    · exact h.owned.used _ _ _ h.rootOwner (Or.inl rfl)
    · exact h.owned.used _ _ _ h.mapOwner (Or.inr hsec)
    · exact h.owned.used _ _ _ h.rootOwner (Or.inr hsec)
  apart sec hsec := by
    have hapart := h.owned.apart _ _ _ _ sec h.mapOwner h.rootOwner (by decide) (Or.inr hsec)
    exact ⟨fun hc => hapart (Or.inl hc), fun hc => hapart (Or.inr hc)⟩
  stack := h.stack

/-- **`dir_open_root`**. -/
theorem FsInv.dirOpenRoot (h : FsInv s refs live p d r owner) :
    ∃ q i s', (dirOpenRoot).run s = .ok (some { inode := q, pos := 0 }, s') ∧ SameStore s s' ∧
      s'.inodes q = some i ∧ i.sector = ROOT_DIR_SECTOR ∧
      FsInv s' (update refs q (refs q + 1)) live p d r owner ∧ StillOpen s s' := by
  obtain ⟨q, i, s', hrun, hstore, hq, hsec, -, hinv, hopen⟩ := h.inodeOpen (Or.inl rfl)
  refine ⟨q, i, s', ?_, hstore, hq, hsec, hinv, hopen⟩
  rw [Pintos.dirOpenRoot, Prog.run_bind_ok hrun]
  rfl

/-- **`dir_close`** of the root directory. -/
theorem FsInv.dirCloseRoot (h : FsInv s refs live p d r owner) (hq : s.inodes q = some i)
    (hsec : i.sector = ROOT_DIR_SECTOR) (hheld : refs q ≠ 0) :
    ∃ s', (dirClose (some { inode := q, pos := 0 })).run s = .ok ((), s') ∧ SameStore s s' ∧
      FsInv s' (update refs q (refs q - 1)) live p d r owner ∧ StillOpen s s' := by
  have hremoved : i.removed = false := by
    refine Bool.eq_false_iff.mpr fun hc => ?_
    obtain ⟨hle, -⟩ := (h.removed q i hq).mp hc
    rw [hsec] at hle
    exact absurd hle (by decide)
  have hmap : i.sector ≠ FREE_MAP_SECTOR := by
    rw [hsec]
    decide
  obtain ⟨hinv, hopen⟩ := h.closed_counted hq hmap hheld
  exact ⟨Pintos.closed s q i, Pintos.run_inodeClose hq hremoved, closed_sameStore _ _ _, hinv, hopen⟩

/-! ## `filesys_create` -/

/-- The data sectors of a new file are filled with zeros. -/
theorem CreateReady.createIn_zeros (h : CreateReady s p d r dir.inode) (h0 : 0 ≤ size)
    (hrun : (Pintos.createIn dir name size).run s = .ok (true, s'))
    (ha : bitmapScan s.freeMap.bits 0 1 false = some a)
    (hb : bitmapScan (oneTaken s.freeMap.bits a) 0 (bytesToSectors size) false = some b) {x : Nat}
    (hx : inRun b (bytesToSectors size) x) (hk : k < DISK_SECTOR_SIZE) : s'.disk x k = 0 := by
  have hf := found_of_scan ha hb
  obtain ⟨hxlt, -⟩ := List.getElem?_eq_some_iff.mp (hf.data x hx)
  have hxr : ¬ r.Has x := (h.of_free (hf.data x hx)).2.2.2
  rw [Pintos.createIn] at hrun
  obtain ⟨allocated, t₁, halloc, hrun⟩ := Prog.of_run_bind hrun
  obtain ⟨s₁, hrun₁, hmap₁, hdisk₁⟩ := h.map.allocate ha
  rw [hrun₁] at halloc
  cases halloc
  simp only at hrun
  obtain ⟨success, t₂, hcreate, hrun⟩ := Prog.of_run_bind hrun
  rw [createAt] at hcreate
  obtain ⟨created, t₃, hmade, hadd⟩ := Prog.of_run_bind hcreate
  -- the state when the name is added
  have hm₁ := hmap₁.mapFile h.map
  obtain ⟨s₂, hrun₂, hmap₂, -⟩ := hm₁.allocate (by rw [hmap₁.memory]; exact hb)
  have hcap₂ : s₂.capacity = s.capacity := by rw [hmap₂.frame, hmap₁.frame]
  have hbits : s.freeMap.bits.length = s.capacity := by rw [WordBitmap.length_bits, h.bitCnt]
  have hcap := h.capacity
  have hsel : ∀ sec, sec < s.freeMap.bits.length → s₂.Selects sec := fun sec hlt =>
    ⟨by rw [hcap₂, ← hbits]; exact hlt, by omega⟩
  obtain ⟨halt, -⟩ := List.getElem?_eq_some_iff.mp hf.inode
  have hle := hf.le
  rw [inodeCreate_some h0 hrun₂ (hsel a halt) fun j hj => hsel _ (by omega)] at hmade
  cases hmade
  simp only [if_true] at hadd
  have hzero : ∀ {t : FileSys}, (∀ sec, ¬ r.Has sec → ∀ k, k < DISK_SECTOR_SIZE →
      t.disk sec k = Pintos.created s₂.disk a ⟨b, size⟩ sec k) → t.disk x k = 0 := by
    intro t ht
    rw [ht x hxr k hk, created_data (d := ⟨b, size⟩) hx.1 hx.2]
  have hdir : DirOpen { s₂ with disk := Pintos.created s₂.disk a ⟨b, size⟩ } dir.inode r :=
    ((hmap₁.trans hmap₂).dirOpen h.dir).setDisk _
  split at hrun
  · next hfail =>
    obtain ⟨_, _, _, hrun⟩ := Prog.of_run_bind hrun
    rw [hfail.1] at hrun
    cases hrun
  · cases hrun
    by_cases hname : ValidName name ∧ name.bytes ∉ keys (table (Pintos.created s₂.disk a ⟨b, size⟩) r)
    · have ha32 : a < 2 ^ 32 := by omega
      obtain ⟨disk, hok, hother, -⟩ := hdir.dirAdd (by rw [hmap₂.frame, hmap₁.frame]; exact h.stack)
        ha32 hname.1 hname.2
      rw [hok, Except.ok.injEq, Prod.mk.injEq] at hadd
      rw [← hadd.2]
      exact hzero hother
    · have hbad : ¬ ValidName name ∨ name.bytes ∈ keys (table (Pintos.created s₂.disk a ⟨b, size⟩) r) := by
        by_cases hv : ValidName name
        · exact Or.inr (by by_contra hc; exact hname ⟨hv, hc⟩)
        · exact Or.inl hv
      rw [hdir.dirAdd_refused a hbad] at hadd
      cases hadd

/-- The bytes of a file in sectors that hold zeros. -/
theorem fileBytes_zeros (he : ∀ x, e.Has x → ∀ k, k < DISK_SECTOR_SIZE → disk x k = 0) :
    fileBytes disk e.start 0 e.length.toNat = List.replicate e.length.toNat 0 := by
  refine List.ext_getElem (by rw [length_fileBytes, List.length_replicate]) fun j hj hj' => ?_
  rw [length_fileBytes] at hj
  simp only [fileBytes, List.getElem_map, List.getElem_range, List.getElem_replicate, Nat.zero_add]
  exact he _ (e.has_div hj) _ (Nat.mod_lt _ (by decide))

/-- What a call that makes a file leaves. -/
structure Created (s s' : FileSys) (refs : InodePtr → Nat) (live : List FilePtr) (p : InodePtr) (d r : InodeDisk)
    (owner : Nat → Option InodeDisk) (name : CStr) (size : Int) (a : Nat) (e : InodeDisk) : Prop where
  valid : ValidName name
  fresh : owner a = none
  sector : 2 ≤ a
  length : e.length = size
  inv : FsInv s' refs live p d r (update owner a (some e))
  absent : value (table s.disk r) name.bytes = none
  names : value (table s'.disk r) = update (value (table s.disk r)) name.bytes (some a)

theorem mem_keys_swapped {t : Table (List Byte) Nat} {x : Nat} (hu : Unique t) :
    x ∈ keys (swapped t) ↔ ∃ key, value t key = some x := by
  rw [mem_keys]
  refine exists_congr fun key => ?_
  rw [hu.value_eq, swapped, List.mem_map]
  constructor
  · rintro ⟨slot, hslot, hx⟩
    obtain ⟨⟨key', x'⟩, rfl, hswap⟩ := Option.map_eq_some_iff.mp hx
    cases hswap
    exact hslot
  · exact fun hmem => ⟨_, hmem, rfl⟩

theorem swapped_set (t : Table (List Byte) Nat) (k : Nat) (slot : Option (List Byte × Nat)) :
    swapped (t.set k slot) = (swapped t).set k (slot.map Prod.swap) := List.map_set

/-- The sectors that are found are not in use. -/
theorem Found.not_used (hf : Found bits a b n) {x : Nat} (hx : bits[x]? = some true) : x ≠ a ∧ ¬ inRun b n x := by
  refine ⟨?_, fun hc => ?_⟩
  · rintro rfl
    rw [hf.inode] at hx
    cases hx
  · rw [hf.data x hc] at hx
    cases hx

/-- What is in use and not of the free map and the root directory is written by nobody. -/
theorem FsInv.sameFiles (h : FsInv s refs live p d r owner)
    (hdisk : SameOn (fun x => ¬ d.Has x ∧ ¬ r.Has x ∧ s.freeMap.bits[x]? = some true) disk s.disk) :
    SameFiles owner owner disk s.disk ∧ SameOn (fun sec => owner sec ≠ none) disk s.disk := by
  constructor
  · intro sec e he _ hsec x hx
    obtain ⟨hd, hr⟩ := h.file_apart he hsec (Or.inr hx)
    exact hdisk x ⟨hd, hr, h.owned.used sec e x he (Or.inr hx)⟩
  · refine hdisk.mono fun sec hne => ?_
    obtain ⟨e, he⟩ := Option.ne_none_iff_exists'.mp hne
    -- an inode is in no file
    have hout : ∀ {sec' e'}, owner sec' = some e' → ¬ e'.Has sec := by
      intro sec' e' he' hc
      by_cases hsec : sec = sec'
      · subst hsec
        exact h.owned.outside _ _ he' hc
      · exact h.owned.apart _ _ _ _ sec he he' hsec (Or.inl rfl) (Or.inr hc)
    exact ⟨hout h.mapOwner, hout h.rootOwner, h.owned.used sec e sec he (Or.inl rfl)⟩

/-- The sectors of a new file are owned by it. -/
theorem FsInv.owned_add (h : FsInv s refs live p d r owner) (h0 : 0 ≤ size) (hsmall : size + 511 < 2 ^ 31)
    (hf : Found s.freeMap.bits a b n) (hn : n = (InodeDisk.mk b size).sectors)
    (hinodes : SameOn (fun sec => owner sec ≠ none) disk s.disk)
    (hinode : ∀ k, k < DISK_SECTOR_SIZE → disk a k = sectorOf (InodeDisk.mk b size).bytes k) :
    Owned (bitmapSetMultiple (oneTaken s.freeMap.bits a) b n true) disk (update owner a (some ⟨b, size⟩)) := by
  have hlen : s.freeMap.bits.length = s.capacity := by rw [WordBitmap.length_bits, h.bitCnt]
  have hcap := h.capacity
  have hle := hf.le
  subst hn
  refine h.owned.add (by rw [length_bitmapSetMultiple, oneTaken, length_bitmapSetMultiple]) ?_ ?_ hinodes ?_
    ⟨h0, hsmall⟩ hle hf.ne
  · intro x hx
    rw [getElem?_bitmapSetMultiple, oneTaken, length_bitmapSetMultiple]
    split
    · rfl
    · next hout =>
      rcases hx with hx | rfl | hx
      · rw [← oneTaken, getElem?_oneTaken_of_ne (hf.not_used hx).1, hx]
      · exact getElem?_oneTaken_self hf.inode
      · obtain ⟨hxlt, -⟩ := List.getElem?_eq_some_iff.mp (hf.data x hx)
        exact absurd ⟨hx.1, hx.2, hxlt⟩ hout
  · rintro x (rfl | hx)
    · exact hf.inode
    · exact hf.data x hx
  · rw [InodeDisk.ofSector_congr hinode]
    exact InodeDisk.ofSector_bytes (by show b < 2 ^ 32; omega) h0 (by show size < 2 ^ 31; omega)

/-- The invariant after a file is made. -/
theorem FsInv.created_done (h : FsInv s refs live p d r owner) (h0 : 0 ≤ size) (hsmall : size + 511 < 2 ^ 31)
    (hf : Found s.freeMap.bits a b n) (hn : n = (InodeDisk.mk b size).sectors)
    (hname : ValidName name ∧ name.bytes ∉ keys (table s.disk r) ∧ none ∈ table s.disk r)
    (hmap : MapIs s s' d (bitmapSetMultiple (oneTaken s.freeMap.bits a) b n true))
    (hinodes : SameOn (fun sec => owner sec ≠ none) s'.disk s.disk)
    (hinode : ∀ k, k < DISK_SECTOR_SIZE → s'.disk a k = sectorOf (InodeDisk.mk b size).bytes k)
    (htable : table s'.disk r = (table s.disk r).set (freeIdx (slots s.disk r)) (some (name.bytes, a))) :
    Created s s' refs live p d r owner name size a ⟨b, size⟩ := by
  have hfresh : owner a = none := by
    cases ho : owner a with
    | none => rfl
    | some e => exact (h.owned.not_free ho (Or.inl rfl) hf.inode).elim
  have hsec2 : 2 ≤ a := by
    by_contra hc
    have hcase : a = FREE_MAP_SECTOR ∨ a = ROOT_DIR_SECTOR := by
      unfold FREE_MAP_SECTOR ROOT_DIR_SECTOR
      omega
    rcases hcase with rfl | rfl
    · rw [h.mapOwner] at hfresh
      cases hfresh
    · rw [h.rootOwner] at hfresh
      cases hfresh
  have hfree := getElem?_freeIdx (freeIdx_lt_iff.mpr hname.2.2)
  have hnoSector : a ∉ keys (swapped (table s.disk r)) := fun hc => (h.entry a hc).2 hfresh
  have hset : swapped (table s'.disk r) =
      (swapped (table s.disk r)).set (freeIdx (slots s.disk r)) (some (a, name.bytes)) := by
    rw [htable, swapped_set]
    rfl
  have hslot : (swapped (table s.disk r))[freeIdx (slots s.disk r)]? = some none := by
    rw [swapped, List.getElem?_map, table, hfree]
    rfl
  have hkeys : ∀ sec, sec ∈ keys (swapped (table s'.disk r)) ↔
      sec = a ∨ sec ∈ keys (swapped (table s.disk r)) := by
    intro sec
    rw [hset, (keys_insert hslot a name.bytes).mem_iff, List.mem_cons]
  refine ⟨hname.1, hfresh, hsec2, rfl, ?_, value_eq_none_iff.mpr hname.2.1, ?_⟩
  · refine h.mapIs hmap (h.owned_add h0 hsmall hf hn hinodes hinode) ?_ ?_ ?_ ?_ ?_ ?_
    · rw [update_of_ne (by unfold FREE_MAP_SECTOR; omega), h.mapOwner]
    · rw [update_of_ne (by unfold ROOT_DIR_SECTOR; omega), h.rootOwner]
    · rw [htable]
      exact h.names.insert hfree hname.2.1 a
    · rw [hset]
      exact Unique.insert h.sectors hslot hnoSector name.bytes
    · intro sec hsec
      rcases (hkeys sec).mp hsec with rfl | hsec
      · exact ⟨hsec2, by rw [update_self]; exact Option.some_ne_none _⟩
      · obtain ⟨hle', howner⟩ := h.entry sec hsec
        rw [update_of_ne (by rintro rfl; exact hnoSector hsec)]
        exact ⟨hle', howner⟩
    · intro q i hq
      have hio := h.inode q i hq
      have hne : i.sector ≠ a := by
        intro hc
        rw [hc, hfresh] at hio
        cases hio
      rw [update_of_ne hne, hkeys, or_iff_right hne]
      exact ⟨hio, h.removed q i hq⟩
  · rw [htable]
    exact value_insert hfree hname.2.1 a

/-- **The invariant after `filesys_create`** has done its work. -/
theorem FsInv.created (h : FsInv s refs live p d r owner) (h0 : 0 ≤ size) (hlt : size < 2 ^ 31)
    (hout : CreateOutcome s d r name size (bytesToSectors size) ok s') :
    StillOpen s s' ∧ SameFiles owner owner s'.disk s.disk ∧
    ((ok = false ∧ FsInv s' refs live p d r owner ∧ table s'.disk r = table s.disk r) ∨
      (ok = true ∧ ∃ a b, bitmapScan s.freeMap.bits 0 1 false = some a ∧
        bitmapScan (oneTaken s.freeMap.bits a) 0 (bytesToSectors size) false = some b ∧
        bytesToSectors size = (InodeDisk.mk b size).sectors ∧
        Created s s' refs live p d r owner name size a ⟨b, size⟩)) := by
  have hrootUsed : ∀ x, r.Has x → s.freeMap.bits[x]? = some true := fun x hx =>
    h.owned.used _ _ x h.rootOwner (Or.inr hx)
  have hrootMap : ∀ x, r.Has x → ¬ d.Has x := fun x hx =>
    h.map_apart h.rootOwner (by decide) (Or.inr hx)
  cases hout with
  | noSector hscan => exact ⟨.refl _, fun _ _ _ _ _ => .refl _ _, Or.inl ⟨rfl, h, rfl⟩⟩
  | noRun a _ ha hb hmap hdisk =>
    obtain ⟨hfiles, hinodes⟩ := h.sameFiles (hdisk.mono fun x hx => hx.1)
    have hroot : SameOn r.Has s'.disk s.disk := hdisk.mono hrootMap
    exact ⟨hmap.stillOpen, hfiles, Or.inl ⟨rfl, h.mapKept hmap rfl (fun _ hx => hx) hinodes hroot,
      table_congr hroot⟩⟩
  | noEntry a b _ ha hb hname hmap hdisk =>
    have hf := found_of_scan ha hb
    obtain ⟨hfiles, hinodes⟩ := h.sameFiles (hdisk.mono fun x hx => ⟨hx.1, hf.not_used hx.2.2⟩)
    have hroot : SameOn r.Has s'.disk s.disk :=
      hdisk.mono fun x hx => ⟨hrootMap x hx, hf.not_used (hrootUsed x hx)⟩
    refine ⟨hmap.stillOpen, hfiles, Or.inl ⟨rfl, h.mapKept hmap (length_bitmapSetMultiple _ _ _ _) ?_
      hinodes hroot, table_congr hroot⟩⟩
    intro x hx
    rw [getElem?_bitmapSetMultiple]
    split
    · rfl
    · exact hx
  | done a b _ ha hb hname hmap hdisk hinode htable =>
    have hf := found_of_scan ha hb
    obtain ⟨hfiles, hinodes⟩ := h.sameFiles (hdisk.mono fun x hx => ⟨hx.1, hx.2.1, hf.not_used hx.2.2⟩)
    have hlen : s.freeMap.bits.length = s.capacity := by rw [WordBitmap.length_bits, h.bitCnt]
    have hcap := h.capacity
    have hle := hf.le
    obtain ⟨hsmall, hsectors⟩ := sectors_eq h0 hlt (by omega) b
    exact ⟨hmap.stillOpen, hfiles, Or.inr ⟨rfl, a, b, ha, hb, hsectors,
      h.created_done h0 hsmall hf hsectors hname hmap hinodes hinode htable⟩⟩

/-- **`filesys_create`** makes a file of zeros under a name that was not there, or nothing. -/
theorem FsInv.filesysCreate (h : FsInv s refs live p d r owner) (name : CStr) (h0 : 0 ≤ size) (hlt : size < 2 ^ 31) :
    ∃ ok s', (Pintos.filesysCreate name size).run s = .ok (ok, s') ∧ StillOpen s s' ∧
      SameFiles owner owner s'.disk s.disk ∧
      ((ok = false ∧ FsInv s' refs live p d r owner ∧ table s'.disk r = table s.disk r) ∨
        (ok = true ∧ ∃ a e, Created s s' refs live p d r owner name size a e ∧
          fileBytes s'.disk e.start 0 e.length.toNat = List.replicate e.length.toNat 0)) := by
  obtain ⟨q, i, s₁, hopen, hstore₁, hq, hsec, h₁, hstill₁⟩ := h.dirOpenRoot
  have hready : CreateReady s₁ p d r (Dir.mk q 0).inode := h₁.createReady hq hsec
  obtain ⟨ok, s₂, hin, hout⟩ := hready.createIn name h0
  obtain ⟨hstill₂, hsame₂, hcases⟩ := h₁.created h0 hlt hout
  have hq₂ : s₂.inodes q = some i := by
    cases hout with
    | noSector _ => exact hq
    | noRun _ _ _ _ hmap _ => rw [hmap.frame]; exact hq
    | noEntry _ _ _ _ _ _ hmap _ => rw [hmap.frame]; exact hq
    | done _ _ _ _ _ _ hmap _ _ _ => rw [hmap.frame]; exact hq
  have hheld : update refs q (refs q + 1) q ≠ 0 := by
    rw [update_self]
    omega
  rw [hstore₁.disk] at hsame₂
  rcases hcases with ⟨rfl, h₂, htable⟩ | ⟨rfl, a, b, ha, hb, hn, hmade⟩
  · obtain ⟨s', hclose, hstore₃, h₃, hstill₃⟩ := h₂.dirCloseRoot hq₂ hsec hheld
    rw [update_add_sub] at h₃
    refine ⟨false, s', Pintos.run_filesysCreate hopen hin hclose, (hstill₁.trans hstill₂).trans hstill₃, ?_,
      Or.inl ⟨rfl, h₃, ?_⟩⟩
    · rw [hstore₃.disk]
      exact hsame₂
    · rw [hstore₃.disk, htable, hstore₁.disk]
  · obtain ⟨s', hclose, hstore₃, h₃, hstill₃⟩ := hmade.inv.dirCloseRoot hq₂ hsec hheld
    rw [update_add_sub] at h₃
    refine ⟨true, s', Pintos.run_filesysCreate hopen hin hclose, (hstill₁.trans hstill₂).trans hstill₃, ?_,
      Or.inr ⟨rfl, a, ⟨b, size⟩, ⟨hmade.valid, hmade.fresh, hmade.sector, rfl, h₃, ?_, ?_⟩, ?_⟩⟩
    · rw [hstore₃.disk]
      exact hsame₂
    · rw [← hstore₁.disk]
      exact hmade.absent
    · rw [hstore₃.disk, ← hstore₁.disk]
      exact hmade.names
    · rw [hstore₃.disk]
      refine fileBytes_zeros fun x hx k hk => hready.createIn_zeros h0 hin ha hb ?_ hk
      exact ⟨hx.1, by rw [hn]; exact hx.2⟩

/-! ## `filesys_remove` -/

/-- **`dir_remove`** of a file that is open marks it. -/
theorem DirOpen.dirRemove_open (hd : DirOpen s dir.inode r) (hpos : ∀ q i, s.inodes q = some i → 0 < i.openCnt)
    {e : DirEntry} (hfind : findFrom name (slots s.disk r) 0 = some (e, k * ENTRY_SIZE))
    (hk : (slots s.disk r)[k]? = some e) (hsel : s.Selects e.inodeSector)
    (hopen : s.findOpen e.inodeSector s.openInodes = some q) :
    ∃ i disk, s.inodes q = some i ∧ i.sector = e.inodeSector ∧
      (Pintos.dirRemove dir name).run s = .ok (true,
        { s with disk := disk, inodes := update s.inodes q (some { i with removed := true }) }) ∧
      SameOn (fun sec => ¬ r.Has sec) disk s.disk ∧ table disk r = (table s.disk r).set k none := by
  have hlookup : (Pintos.lookup dir name).run s = .ok (some (e, k * ENTRY_SIZE), s) := by
    rw [hd.lookup name, hfind]
  have hwf : ({ e with inUse := false } : DirEntry).Wf := by
    obtain ⟨h1, h2⟩ := wf_of_mem_slots (List.mem_of_getElem? hk)
    exact ⟨h1, h2⟩
  have hklt : k < r.entryCnt := by
    obtain ⟨hlt, -⟩ := List.getElem?_eq_some_iff.mp hk
    rwa [length_slots] at hlt
  obtain ⟨inode₁, hp₁, hdata₁, hdeny₁⟩ := hd.inode
  rcases inodeOpen_spec hsel with ⟨q', i, hq', hq, hsec, hrun⟩ | ⟨hnone, -⟩
  · rw [hopen, Option.some.injEq] at hq'
    subst hq'
    have hd₁ : DirOpen (reopened s q i) dir.inode r := by
      refine hd.of_inode rfl ?_
      by_cases hdq : dir.inode = q
      · rw [hdq] at hp₁ ⊢
        rw [hq, Option.some.injEq] at hp₁
        subst hp₁
        exact ⟨_, update_self _ _ _, hdata₁, hdeny₁⟩
      · exact ⟨inode₁, (update_of_ne hdq _ _).trans hp₁, hdata₁, hdeny₁⟩
    obtain ⟨disk, cnt, hwrite, hcnt, hother, hslots, -⟩ := hd₁.writeEntry hwf k
    rw [hcnt.mpr hklt] at hwrite
    have hpos' := hpos q i hq
    have hclose := run_inodeClose_kept (q := q)
      (s := { (reopened s q i).setInode q (some { i with openCnt := i.openCnt + 1, removed := true }) with
        disk := disk })
      (update_self _ _ _) (by show i.openCnt + 1 ≠ 1; omega)
    refine ⟨i, disk, hq, hsec, ?_, hother, ?_⟩
    · rw [run_dirRemove hlookup hrun hwrite (update_self _ _ _) hclose]
      simp only [reopened, FileSys.setInode, update_idem, Int.add_sub_cancel]
    · rw [table, hslots, set_table, table]
      rfl
  · rw [hopen] at hnone
    cases hnone

/-- The sectors with a name, after one is erased. -/
theorem mem_keys_erased {t : Table (List Byte) Nat} {key : List Byte} (hu : Unique (swapped t))
    (hi : t[k]? = some (some (key, sec))) (x : Nat) :
    x ∈ keys (swapped (t.set k none)) ↔ x ≠ sec ∧ x ∈ keys (swapped t) := by
  have hslot : (swapped t)[k]? = some (some (sec, key)) := by
    rw [swapped, List.getElem?_map, hi]
    rfl
  have hperm := keys_erase hslot
  have hnot := (List.nodup_cons.mp (hperm.nodup_iff.mp hu)).1
  rw [swapped_set, Option.map_none, hperm.mem_iff, List.mem_cons]
  constructor
  · intro hx
    refine ⟨?_, Or.inr hx⟩
    rintro rfl
    exact hnot hx
  · exact fun hx => hx.2.resolve_left hx.1

theorem Unique.erase_swapped {t : Table (List Byte) Nat} {key : List Byte} (hu : Unique (swapped t))
    (hi : t[k]? = some (some (key, sec))) : Unique (swapped (t.set k none)) := by
  rw [swapped_set]
  refine Unique.erase hu (k := sec) (v := key) ?_
  rw [swapped, List.getElem?_map, hi]
  rfl

/-- The invariant after a file that is open loses its name. -/
theorem FsInv.marked (h : FsInv s refs live p d r owner) {key : List Byte} (hq : s.inodes q = some i)
    (hi : (table s.disk r)[k]? = some (some (key, i.sector)))
    (hdisk : SameOn (fun sec => ¬ r.Has sec) disk s.disk) (htable : table disk r = (table s.disk r).set k none) :
    FsInv { s with disk := disk, inodes := update s.inodes q (some { i with removed := true }) }
      refs live p d r owner := by
  have hmem : i.sector ∈ keys (swapped (table s.disk r)) :=
    (mem_keys_swapped h.names).mpr ⟨key, h.names.value_eq.mpr (List.mem_of_getElem? hi)⟩
  obtain ⟨hle, -⟩ := h.entry _ hmem
  have hmap := h.map_ne hq (by unfold FREE_MAP_SECTOR; omega)
  have hd : SameOn d.Has disk s.disk := hdisk.mono fun x hx hc =>
    h.map_apart h.rootOwner (by decide) (Or.inr hc) hx
  have hold : ∀ q' i', update s.inodes q (some { i with removed := true }) q' = some i' →
      ∃ j, s.inodes q' = some j ∧ i'.sector = j.sector ∧ i'.data = j.data ∧
        (i'.removed = true ↔ q' = q ∨ j.removed = true) := by
    intro q' i' hi'
    by_cases hqq : q' = q
    · rw [hqq, update_self, Option.some.injEq] at hi'
      subst hi'
      exact ⟨i, by rw [hqq, hq], rfl, rfl, iff_of_true rfl (Or.inl hqq)⟩
    · rw [update_of_ne hqq] at hi'
      exact ⟨i', hi', rfl, rfl, by rw [or_iff_right hqq]⟩
  constructor
  case map =>
    have hmap' : MapFile { s with inodes := update s.inodes q (some { i with removed := true }) } p d :=
      h.map.sameStore ⟨rfl, rfl, rfl, rfl, rfl, rfl⟩ (update_of_ne hmap _ _)
    exact hmap'.setDisk disk
  case stored =>
    rw [← h.stored]
    unfold storedMap
    simp only
    rw [fileBytes_congr hd (by rw [h.map.length]; omega)]
  case bitCnt => exact h.bitCnt
  case capacity => exact h.capacity
  case stack => exact h.stack
  case owned => exact h.owned.kept rfl h.owned.used (h.sameFiles (hdisk.mono fun x hx => hx.2.1)).2
  case mapOwner => exact h.mapOwner
  case rootOwner => exact h.rootOwner
  case whole => exact h.whole
  case names =>
    show Unique (table disk r)
    rw [htable]
    exact h.names.erase hi
  case sectors =>
    show Unique (swapped (table disk r))
    rw [htable]
    exact Unique.erase_swapped h.sectors hi
  case entry =>
    show ∀ sec ∈ keys (swapped (table disk r)), _
    rw [htable]
    exact fun sec hsec => h.entry sec ((mem_keys_erased h.sectors hi sec).mp hsec).2
  case inode =>
    intro q' i' hi'
    obtain ⟨j, hj, hs, hdata, -⟩ := hold q' i' hi'
    rw [hs, hdata]
    exact h.inode q' j hj
  case removed =>
    intro q' i' hi'
    obtain ⟨j, hj, hs, -, hrem⟩ := hold q' i' hi'
    show i'.removed = true ↔ 2 ≤ i'.sector ∧ i'.sector ∉ keys (swapped (table disk r))
    rw [htable, hs, hrem, mem_keys_erased h.sectors hi, h.removed q' j hj]
    by_cases hqq : q' = q
    · subst hqq
      rw [hq, Option.some.injEq] at hj
      subst hj
      exact iff_of_true (Or.inl rfl) ⟨hle, fun hc => hc.1 rfl⟩
    · have hne : j.sector ≠ i.sector := fun hc => hqq (h.inode_unique hj hq hc)
      rw [or_iff_right hqq, and_iff_right hne]
  case counts =>
    refine h.counts.congr ?_ rfl rfl (Nat.le_refl _)
    funext x
    unfold unremoved
    simp only
    by_cases hx : x = q
    · rw [hx, update_self, hq]
      rfl
    · rw [update_of_ne hx]
  case file =>
    intro f file hf
    refine (h.file f file hf).imp_right ?_
    rintro ⟨j, hj, hle'⟩
    by_cases hqq : file.inode = q
    · rw [hqq, hq, Option.some.injEq] at hj
      exact ⟨{ i with removed := true }, by rw [hqq]; exact update_self _ _ _, by rw [← hj] at hle'; exact hle'⟩
    · exact ⟨j, (update_of_ne hqq _ _).trans hj, hle'⟩

/-- A pointer was returned and given back. -/
theorem FsInv.setBrk (h : FsInv s refs live p d r owner) : FsInv { s with brk := s.brk + 1 } refs live p d r owner :=
  h.memory (h.map.sameStore ⟨rfl, rfl, rfl, rfl, rfl, rfl⟩ rfl) rfl rfl rfl rfl
    (fun q i hq => ⟨h.inode q i hq, h.removed q i hq⟩) (h.counts.congr rfl rfl rfl (Nat.le_succ _)) h.file

/-- The invariant after a file that nobody has open is removed. -/
theorem FsInv.givenBack (h : FsInv s refs live p d r owner) {key : List Byte} (he : owner sec = some e)
    (hi : (table s.disk r)[k]? = some (some (key, sec))) (hsec : 2 ≤ sec)
    (hdisk : SameOn (fun sec => ¬ d.Has sec ∧ ¬ r.Has sec) s'.disk s.disk)
    (htable : table s'.disk r = (table s.disk r).set k none) (hback : GivenBack s s' d sec) :
    FsInv s' refs live p d r (update owner sec none) ∧ StillOpen s s' := by
  obtain ⟨hnone, hmap⟩ := hback
  rw [h.owned.sector sec e he] at hmap
  have hmap' : MapIs { s with brk := s.brk + 1 } s' d (released s.freeMap.bits sec e) :=
    ⟨hmap.frame, hmap.ok, hmap.bitCnt, hmap.memory, hmap.stored⟩
  have hclosed : ∀ {q i}, s.inodes q = some i → i.sector ≠ sec := by
    intro q i hq
    refine findOpen_none hnone ((h.counts.listed q).mpr ?_) hq
    rw [unremoved_inodes hq]
    exact Option.some_ne_none _
  constructor
  · refine h.setBrk.mapIs hmap' (h.owned.remove he (h.sameFiles (hdisk.mono fun x hx => ⟨hx.1, hx.2.1⟩)).2)
      ?_ ?_ ?_ ?_ ?_ ?_
    · rw [update_of_ne (by unfold FREE_MAP_SECTOR; omega), h.mapOwner]
    · rw [update_of_ne (by unfold ROOT_DIR_SECTOR; omega), h.rootOwner]
    · rw [htable]
      exact h.names.erase hi
    · rw [htable]
      exact Unique.erase_swapped h.sectors hi
    · rw [htable]
      intro x hx
      obtain ⟨hne, hx⟩ := (mem_keys_erased h.sectors hi x).mp hx
      rw [update_of_ne hne]
      exact h.entry x hx
    · intro q i hq
      have hne := hclosed hq
      rw [update_of_ne hne, htable, mem_keys_erased h.sectors hi, and_iff_right hne]
      exact ⟨h.inode q i hq, h.removed q i hq⟩
  · rw [hmap'.frame]
    exact ⟨Nat.le_succ _, rfl, rfl, fun q i _ hq => ⟨i, hq, rfl⟩⟩

/-- What a call that removes a file leaves. -/
structure NameGone (s s' : FileSys) (refs : InodePtr → Nat) (live : List FilePtr) (p : InodePtr) (d r : InodeDisk)
    (owner owner' : Nat → Option InodeDisk) (name : CStr) (sec : Nat) : Prop where
  present : value (table s.disk r) name.bytes = some sec
  inv : FsInv s' refs live p d r owner'
  still : ∀ sec e, owner' sec = some e → owner sec = some e
  same : SameFiles owner owner' s'.disk s.disk
  names : value (table s'.disk r) = update (value (table s.disk r)) name.bytes none

/-- **`dir_remove`** of the root directory. -/
theorem FsInv.dirRemove (h : FsInv s refs live p d r owner) (hq : s.inodes q = some i)
    (hsec : i.sector = ROOT_DIR_SECTOR) (name : CStr) :
    ∃ ok s', (Pintos.dirRemove { inode := q, pos := 0 } name).run s = .ok (ok, s') ∧ StillOpen s s' ∧
      s'.inodes q = some i ∧
      ((ok = false ∧ value (table s.disk r) name.bytes = none ∧ s' = s) ∨
        (ok = true ∧ ∃ sec owner', NameGone s s' refs live p d r owner owner' name sec)) := by
  have hdir : DirOpen s (Dir.mk q 0).inode r := h.dirOpen hq hsec
  have hpos : ∀ q i, s.inodes q = some i → 0 < i.openCnt := fun q i hq => (h.count hq).1
  rcases findFrom_cases name s.disk r with ⟨hfind, hnone⟩ | ⟨e, k, hfind, hk, hslot, hvalue⟩
  · exact ⟨false, s, hdir.dirRemove_absent hfind, .refl s, hq, Or.inl ⟨rfl, hnone, rfl⟩⟩
  · have hmem : e.inodeSector ∈ keys (swapped (table s.disk r)) := (mem_keys_swapped h.names).mpr ⟨_, hvalue⟩
    obtain ⟨hle, hne⟩ := h.entry _ hmem
    obtain ⟨ed, he⟩ := Option.ne_none_iff_exists'.mp hne
    have hsel := h.selects he
    have hnames : ∀ {disk}, table disk r = (table s.disk r).set k none →
        value (table disk r) = update (value (table s.disk r)) name.bytes none := by
      intro disk htable
      rw [htable, h.names.value_erase hslot]
    cases hopen : s.findOpen e.inodeSector s.openInodes with
    | some q' =>
      obtain ⟨j, disk, hj, hjsec, hrun, hother, htable⟩ := hdir.dirRemove_open hpos hfind hk hsel hopen
      have hinv := h.marked hj (by rw [hjsec]; exact hslot) hother htable
      have hqq : q ≠ q' := by
        rintro rfl
        rw [hq, Option.some.injEq] at hj
        rw [← hj, hsec] at hjsec
        rw [← hjsec] at hle
        exact absurd hle (by decide)
      refine ⟨true, _, hrun, ⟨Nat.le_refl _, rfl, rfl, fun q₁ i₁ _ hi₁ => ?_⟩, (update_of_ne hqq _ _).trans hq,
        Or.inr ⟨rfl, e.inodeSector, owner, hvalue, hinv, fun _ _ ho => ho, ?_, hnames htable⟩⟩
      · by_cases hqj : q₁ = q'
        · have hi : update s.inodes q' (some { j with removed := true }) q₁ = some i₁ := hi₁
          rw [hqj, update_self, Option.some.injEq] at hi
          exact ⟨j, by rw [hqj, hj], by rw [← hi]⟩
        · exact ⟨i₁, (update_of_ne hqj _ _).symm.trans hi₁, rfl⟩
      · exact (h.sameFiles (hother.mono fun x hx => hx.2.1)).1
    | none =>
      obtain ⟨s', hrun, htable, hother, hcases⟩ := hdir.dirRemove h.map
        (fun sec hd hr => h.map_apart h.rootOwner (by decide) (Or.inr hr) hd) (h.fresh (Nat.le_refl _)).1 hpos
        hfind hk hsel (fun _ => by rw [h.owned.sector _ ed he]; exact h.owned.releasable he)
      have hback : GivenBack s s' d e.inodeSector := by
        refine hcases.resolve_left ?_
        rintro ⟨q', j, hj, hjsec, -⟩
        refine findOpen_none hopen ((h.counts.listed q').mpr ?_) hj hjsec
        rw [unremoved_inodes hj]
        exact Option.some_ne_none _
      obtain ⟨hinv, hstill⟩ := h.givenBack he hslot hle hother htable hback
      refine ⟨true, s', hrun, hstill, ?_, Or.inr ⟨rfl, e.inodeSector, _, hvalue, hinv, fun sec e' he' => ?_, ?_,
        hnames htable⟩⟩
      · rw [hback.2.frame]
        exact hq
      · by_cases hs : sec = e.inodeSector
        · rw [hs, update_self] at he'
          cases he'
        · rwa [update_of_ne hs] at he'
      · intro sec e₁ he₁ _ hle₁ x hx
        exact hother x (h.file_apart he₁ hle₁ (Or.inr hx))

/-- **`filesys_remove`** of a name that is there, or nothing. -/
theorem FsInv.filesysRemove (h : FsInv s refs live p d r owner) (name : CStr) :
    ∃ ok s', (Pintos.filesysRemove name).run s = .ok (ok, s') ∧ StillOpen s s' ∧
      ((ok = false ∧ value (table s.disk r) name.bytes = none ∧ FsInv s' refs live p d r owner ∧
          s'.disk = s.disk) ∨
        (ok = true ∧ ∃ sec owner', NameGone s s' refs live p d r owner owner' name sec)) := by
  obtain ⟨q, i, s₁, hopen, hstore₁, hq, hsec, h₁, hstill₁⟩ := h.dirOpenRoot
  obtain ⟨ok, s₂, hremove, hstill₂, hq₂, hcases⟩ := h₁.dirRemove hq hsec name
  have hheld : update refs q (refs q + 1) q ≠ 0 := by
    rw [update_self]
    omega
  have runs : ∀ {s'}, (dirClose (some { inode := q, pos := 0 })).run s₂ = .ok ((), s') →
      (Pintos.filesysRemove name).run s = .ok (ok, s') := by
    intro s' hclose
    rw [Pintos.filesysRemove, Prog.run_bind_ok hopen]
    simp only
    rw [Prog.run_bind_ok hremove, Prog.run_bind_ok hclose]
    rfl
  rcases hcases with ⟨rfl, hnone, rfl⟩ | ⟨rfl, sec, owner', hrem⟩
  · obtain ⟨s', hclose, hstore₃, h₃, hstill₃⟩ := h₁.dirCloseRoot hq hsec hheld
    rw [update_add_sub] at h₃
    rw [hstore₁.disk] at hnone
    exact ⟨false, s', runs hclose, hstill₁.trans hstill₃,
      Or.inl ⟨rfl, hnone, h₃, hstore₃.disk.trans hstore₁.disk⟩⟩
  · obtain ⟨s', hclose, hstore₃, h₃, hstill₃⟩ := hrem.inv.dirCloseRoot hq₂ hsec hheld
    rw [update_add_sub] at h₃
    refine ⟨true, s', runs hclose, (hstill₁.trans hstill₂).trans hstill₃, Or.inr ⟨rfl, sec, owner', ?_, h₃,
      hrem.still, ?_, ?_⟩⟩
    · rw [← hstore₁.disk]
      exact hrem.present
    · rw [hstore₃.disk, ← hstore₁.disk]
      exact hrem.same
    · rw [hstore₃.disk, ← hstore₁.disk]
      exact hrem.names

end Pintos
