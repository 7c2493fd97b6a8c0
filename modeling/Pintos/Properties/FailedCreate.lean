import Pintos.Properties.Directory
import Pintos.Properties.Inode

/-!
# What `filesys_create` leaves behind

`filesys_create` takes a sector for the inode, a run of sectors for the data and a slot of the root
directory. Where it fails it gives back the sector of the inode only.

* `Ready` — the free map and the root directory are in order
* `CreateOutcome` — the four ways a call ends
* `failed_create_leaves_no_trace` — when a failed call changes nothing
-/

namespace Pintos

open Function LittleEndian SlotMap

variable {s s' s₁ s₂ s₃ : FileSys} {p q : InodePtr} {d r : InodeDisk} {dir : Dir} {name : CStr}
  {size : Int} {bits : Bitmap} {a b n : Nat} {ok : Bool}

/-- The free map file `d` and the root directory `r` are on the disk, in sectors of their own. -/
structure Ready (s : FileSys) (p : InodePtr) (d r : InodeDisk) : Prop where
  map : MapFile s p d
  stored : (storedMap s d).bits = s.freeMap.bits
  root : InodeDisk.ofSector (s.disk ROOT_DIR_SECTOR) = r
  /-- Where the root directory is open already. -/
  opened : ∀ q inode, s.inodes q = some inode → inode.sector = ROOT_DIR_SECTOR →
    inode.data = r ∧ inode.denyWriteCnt = 0 ∧ inode.removed = false
  onDisk : OnDisk s r
  length : r.length < 2 ^ 31
  whole : r.length.toNat % ENTRY_SIZE = 0
  bitCnt : s.freeMap.bitCnt = s.capacity
  capacity : s.capacity ≤ 2 ^ 28
  used : ∀ sec, sec = FREE_MAP_SECTOR ∨ sec = ROOT_DIR_SECTOR ∨ d.Has sec ∨ r.Has sec →
    s.freeMap.bits[sec]? = some true
  apart : ∀ sec, d.Has sec → sec ≠ ROOT_DIR_SECTOR ∧ ¬ r.Has sec
  fresh : s.inodes s.brk = none
  stack : s.stack.length = ENTRY_SIZE

/-- **`dir_open_root`**. -/
theorem Ready.dirOpenRoot (h : Ready s p d r) :
    ∃ q inode s', (dirOpenRoot).run s = .ok (some { inode := q, pos := 0 }, s') ∧
      SameStore s s' ∧ MapFile s' p d ∧ DirOpen s' q r ∧ s'.inodes q = some inode ∧
      inode.removed = false := by
  have hsel : s.Selects ROOT_DIR_SECTOR := by
    obtain ⟨hlt, -⟩ := List.getElem?_eq_some_iff.mp (h.used ROOT_DIR_SECTOR (Or.inr (Or.inl rfl)))
    rw [WordBitmap.length_bits, h.bitCnt] at hlt
    exact ⟨hlt, by decide⟩
  obtain ⟨inode₀, hp₀, -, -, hsec₀⟩ := h.map.inode
  have opens : ∀ q s', (inodeOpen ROOT_DIR_SECTOR true).run s = .ok (some q, s') →
      (Pintos.dirOpenRoot).run s = .ok (some { inode := q, pos := 0 }, s') := by
    intro q s' hrun
    rw [Pintos.dirOpenRoot, Prog.run_bind_ok hrun]
    rfl
  rcases inodeOpen_spec hsel with ⟨q, inode, -, hq, hsec, hrun⟩ | ⟨-, hrun⟩
  · obtain ⟨hdata, hdeny, hremoved⟩ := h.opened q inode hq hsec
    have hne : p ≠ q := by
      rintro rfl
      rw [hp₀, Option.some.injEq] at hq
      rw [hq, hsec] at hsec₀
      exact absurd hsec₀ (by decide)
    refine ⟨q, { inode with openCnt := inode.openCnt + 1 }, _, opens _ _ hrun, reopened_sameStore _ _ _,
      h.map.sameStore (reopened_sameStore _ _ _) ?_, ?_, update_self _ _ _, hremoved⟩
    · exact update_of_ne hne _ _
    · exact ⟨⟨_, update_self _ _ _, hdata, hdeny⟩, h.onDisk.congr rfl, h.length⟩
  · have hne : p ≠ s.brk := by
      rintro rfl
      rw [h.fresh] at hp₀
      cases hp₀
    refine ⟨s.brk, loaded s ROOT_DIR_SECTOR, _, opens _ _ hrun, withLoaded_sameStore _ _,
      h.map.sameStore (withLoaded_sameStore _ _) ?_, ?_, update_self _ _ _, rfl⟩
    · exact update_of_ne hne _ _
    · exact ⟨⟨_, update_self _ _ _, h.root, rfl⟩, h.onDisk.congr rfl, h.length⟩

/-! ## `filesys_create` -/

theorem MapIs.dirOpen (h : MapIs s s' d bits) (hr : DirOpen s q r) : DirOpen s' q r := by
  rw [h.frame]
  exact ⟨hr.inode, hr.onDisk.congr rfl, hr.length⟩

/-- `filesys_create` between the opening and the closing of the root directory. -/
def createIn (dir : Dir) (name : CStr) (size : Int) : FsProg Bool := do
  let allocated ← freeMapAllocate 1
  match allocated with
  | none => pure false
  | some inodeSector =>
    let success ← createAt dir name size inodeSector
    if success = false ∧ inodeSector ≠ 0 then do
      freeMapRelease inodeSector 1
      pure success
    else pure success

theorem run_filesysCreate (hopen : (dirOpenRoot).run s = .ok (some dir, s₁))
    (hin : (createIn dir name size).run s₁ = .ok (ok, s₂))
    (hclose : (dirClose (some dir)).run s₂ = .ok ((), s₃)) :
    (filesysCreate name size).run s = .ok (ok, s₃) := by
  rw [filesysCreate, Prog.run_bind_ok hopen]
  rw [createIn] at hin
  obtain ⟨allocated, t₁, halloc, hin⟩ := Prog.of_run_bind hin
  simp only
  rw [Prog.run_bind_ok halloc]
  cases allocated with
  | none =>
    cases hin
    simp only
    rw [Prog.run_bind_ok hclose]
    rfl
  | some sector =>
    obtain ⟨success, t₂, hcreate, hin⟩ := Prog.of_run_bind hin
    simp only
    rw [Prog.run_bind_ok hcreate]
    split at hin
    · next hfail =>
      obtain ⟨u, t₃, hrelease, hin⟩ := Prog.of_run_bind hin
      cases hin
      rw [if_pos hfail, Prog.run_bind_ok hrelease, Prog.run_bind_ok hclose]
      rfl
    · next hfail =>
      cases hin
      rw [if_neg hfail, Prog.run_bind_ok hclose]
      rfl

/-- The free map with the sector of the inode taken. -/
def oneTaken (bits : Bitmap) (a : Nat) : Bitmap := bitmapSetMultiple bits a 1 true

/-- The run of `n` sectors from `b` on. -/
def inRun (b n sec : Nat) : Prop := b ≤ sec ∧ sec < b + n

/-- How `filesys_create` ends, with `n` the number of data sectors. -/
inductive CreateOutcome (s : FileSys) (d r : InodeDisk) (name : CStr) (size : Int) (n : Nat) :
    Bool → FileSys → Prop
  /-- No sector for the inode. -/
  | noSector (h : bitmapScan s.freeMap.bits 0 1 false = none) : CreateOutcome s d r name size n false s
  /-- No run of sectors for the data. -/
  | noRun (a : Nat) (s' : FileSys) (ha : bitmapScan s.freeMap.bits 0 1 false = some a)
      (hb : bitmapScan (oneTaken s.freeMap.bits a) 0 n false = none)
      (hmap : MapIs s s' d s.freeMap.bits) (hdisk : SameOn (fun sec => ¬ d.Has sec) s'.disk s.disk) :
      CreateOutcome s d r name size n false s'
  /-- The name is not added, and the data sectors stay in use. -/
  | noEntry (a b : Nat) (s' : FileSys) (ha : bitmapScan s.freeMap.bits 0 1 false = some a)
      (hb : bitmapScan (oneTaken s.freeMap.bits a) 0 n false = some b)
      (hname : ¬ ValidName name ∨ name.bytes ∈ keys (table s.disk r) ∨ none ∉ table s.disk r)
      (hmap : MapIs s s' d (bitmapSetMultiple s.freeMap.bits b n true))
      (hdisk : SameOn (fun sec => ¬ d.Has sec ∧ sec ≠ a ∧ ¬ inRun b n sec) s'.disk s.disk) :
      CreateOutcome s d r name size n false s'
  | done (a b : Nat) (s' : FileSys) (ha : bitmapScan s.freeMap.bits 0 1 false = some a)
      (hb : bitmapScan (oneTaken s.freeMap.bits a) 0 n false = some b)
      (hname : ValidName name ∧ name.bytes ∉ keys (table s.disk r) ∧ none ∈ table s.disk r)
      (hmap : MapIs s s' d (bitmapSetMultiple (oneTaken s.freeMap.bits a) b n true))
      (hdisk : SameOn (fun sec => ¬ d.Has sec ∧ ¬ r.Has sec ∧ sec ≠ a ∧ ¬ inRun b n sec) s'.disk s.disk)
      (hinode : ∀ k, k < DISK_SECTOR_SIZE →
        s'.disk a k = sectorOf (InodeDisk.mk b size).bytes k)
      (htable : table s'.disk r = (table s.disk r).set (freeIdx (slots s.disk r)) (some (name.bytes, a))) :
      CreateOutcome s d r name size n true s'

/-- What `createIn` needs. -/
structure CreateReady (s : FileSys) (p : InodePtr) (d r : InodeDisk) (q : InodePtr) : Prop where
  map : MapFile s p d
  dir : DirOpen s q r
  whole : r.length.toNat % ENTRY_SIZE = 0
  bitCnt : s.freeMap.bitCnt = s.capacity
  capacity : s.capacity ≤ 2 ^ 28
  used : ∀ sec, sec = FREE_MAP_SECTOR ∨ sec = ROOT_DIR_SECTOR ∨ d.Has sec ∨ r.Has sec →
    s.freeMap.bits[sec]? = some true
  apart : ∀ sec, d.Has sec → sec ≠ ROOT_DIR_SECTOR ∧ ¬ r.Has sec
  stack : s.stack.length = ENTRY_SIZE

theorem Ready.createReady (h : Ready s p d r) (hs : SameStore s s₁) (hm : MapFile s₁ p d)
    (hd : DirOpen s₁ q r) : CreateReady s₁ p d r q where
  map := hm
  dir := hd
  whole := h.whole
  bitCnt := by rw [hs.freeMap, hs.capacity, h.bitCnt]
  capacity := by rw [hs.capacity]; exact h.capacity
  used := by rw [hs.freeMap]; exact h.used
  apart := h.apart
  stack := by rw [hs.stack]; exact h.stack

/-- A free sector belongs to neither file. -/
theorem CreateReady.of_free (h : CreateReady s p d r q) (hfree : s.freeMap.bits[a]? = some false) :
    a ≠ FREE_MAP_SECTOR ∧ a ≠ ROOT_DIR_SECTOR ∧ ¬ d.Has a ∧ ¬ r.Has a := by
  have hno : ¬ (a = FREE_MAP_SECTOR ∨ a = ROOT_DIR_SECTOR ∨ d.Has a ∨ r.Has a) := by
    intro hc
    rw [h.used a hc] at hfree
    cases hfree
  simpa only [not_or] using hno

theorem getElem?_oneTaken_self (h : bits[a]? = some false) : (oneTaken bits a)[a]? = some true := by
  obtain ⟨hlt, -⟩ := List.getElem?_eq_some_iff.mp h
  rw [oneTaken, getElem?_bitmapSetMultiple, if_pos (by omega)]

theorem getElem?_oneTaken_of_ne (h : b ≠ a) : (oneTaken bits a)[b]? = bits[b]? := by
  rw [oneTaken, getElem?_bitmapSetMultiple, if_neg (by omega)]

/-- The sectors found for a file. -/
structure Found (bits : Bitmap) (a b n : Nat) : Prop where
  inode : bits[a]? = some false
  data : ∀ i, inRun b n i → bits[i]? = some false
  le : b + n ≤ bits.length
  ne : ¬ inRun b n a

theorem found_of_scan (ha : bitmapScan bits 0 1 false = some a)
    (hb : bitmapScan (oneTaken bits a) 0 n false = some b) : Found bits a b n := by
  obtain ⟨-, -, hfree⟩ := bitmapScan_some ha
  obtain ⟨-, hle, hdata⟩ := bitmapScan_some hb
  rw [oneTaken, length_bitmapSetMultiple] at hle
  have hfa : bits[a]? = some false := hfree a (Nat.le_refl a) (Nat.lt_succ_self a)
  have hne : ¬ inRun b n a := by
    intro hc
    have ht := hdata a hc.1 hc.2
    rw [getElem?_oneTaken_self hfa] at ht
    cases ht
  refine ⟨hfa, fun i hi => ?_, hle, hne⟩
  rw [← hdata i hi.1 hi.2, getElem?_oneTaken_of_ne]
  rintro rfl
  exact hne hi

/-- `inode_create` for a new file, after the sector of its inode is taken. -/
theorem CreateReady.inodeCreate (h : CreateReady s p d r q) (h0 : 0 ≤ size)
    (ha : bitmapScan s.freeMap.bits 0 1 false = some a)
    (hb : bitmapScan (oneTaken s.freeMap.bits a) 0 (bytesToSectors size) false = some b)
    (hmap : MapIs s s₁ d (oneTaken s.freeMap.bits a)) (hdisk : SameOn (fun sec => ¬ d.Has sec) s₁.disk s.disk) :
    ∃ s', (Pintos.inodeCreate a size).run s₁ = .ok (true, s') ∧
      MapIs s s' d (bitmapSetMultiple (oneTaken s.freeMap.bits a) b (bytesToSectors size) true) ∧
      SameOn (fun sec => ¬ d.Has sec ∧ sec ≠ a ∧ ¬ inRun b (bytesToSectors size) sec) s'.disk s.disk ∧
      s'.disk a = sectorOf (InodeDisk.mk b size).bytes := by
  have hf := found_of_scan ha hb
  obtain ⟨-, -, hda, -⟩ := h.of_free hf.inode
  have hm₁ := hmap.mapFile h.map
  rw [← hmap.memory] at hb
  obtain ⟨s₂, hrun, his, hother⟩ := hm₁.allocate hb
  rw [hmap.memory] at his
  have hcap : s₂.capacity = s.capacity := by rw [his.frame, hmap.frame]
  have hbits : s.freeMap.bits.length = s.capacity := by rw [WordBitmap.length_bits, h.bitCnt]
  have hcap28 := h.capacity
  have hle := hf.le
  have hsel : ∀ sec, sec < s.freeMap.bits.length → s₂.Selects sec := fun sec hlt =>
    ⟨by rw [hcap, ← hbits]; exact hlt, by omega⟩
  obtain ⟨hlt, -⟩ := List.getElem?_eq_some_iff.mp hf.inode
  have hcreate := inodeCreate_some h0 hrun (hsel a hlt) fun j hj => hsel _ (by omega)
  have hout : a < b ∨ b + bytesToSectors size ≤ a := by
    have hne := hf.ne
    unfold inRun at hne
    omega
  have hkeep : ∀ sec, sec ≠ a → ¬ inRun b (bytesToSectors size) sec →
      created s₂.disk a (InodeDisk.mk b size) sec = s₂.disk sec := by
    intro sec hsec hrun
    refine created_of_ne hsec ?_
    unfold inRun at hrun
    show sec < b ∨ b + bytesToSectors size ≤ sec
    omega
  have hlen : d.length = byteCnt s₁.freeMap.bitCnt := by
    rw [hmap.bitCnt]
    exact h.map.length
  refine ⟨_, hcreate, hmap.trans (his.setDisk hlen fun sec hsec k _ => ?_), fun sec hsec k hk => ?_,
    created_self hout⟩
  · -- the sectors of the free map file are not those of the new file
    rw [hkeep sec (fun hc => hda (hc ▸ hsec)) fun hc => (h.of_free (hf.data sec hc)).2.2.1 hsec]
  · show created s₂.disk a (InodeDisk.mk b size) sec k = s.disk sec k
    rw [hkeep sec hsec.2.1 hsec.2.2, hother sec hsec.1 k hk, hdisk sec hsec.1 k hk]

/-- The sector of the inode is given back. -/
theorem CreateReady.release (h : CreateReady s p d r q) (ha : s.freeMap.bits[a]? = some false)
    (hmap : MapIs s s₁ d (bitmapSetMultiple (oneTaken s.freeMap.bits a) b n true)) (hne : ¬ inRun b n a) :
    ∃ s', (freeMapRelease a 1).run s₁ = .ok ((), s') ∧
      MapIs s s' d (bitmapSetMultiple s.freeMap.bits b n true) ∧
      SameOn (fun sec => ¬ d.Has sec) s'.disk s₁.disk := by
  obtain ⟨hlt, -⟩ := List.getElem?_eq_some_iff.mp ha
  rw [WordBitmap.length_bits] at hlt
  have hout : b + n ≤ a ∨ a + 1 ≤ b := by
    unfold inRun at hne
    omega
  have hused : ∀ i, a ≤ i → i < a + 1 → s₁.freeMap.bits[i]? = some true := by
    intro i hi hlt'
    have hia : i = a := by omega
    rw [hia, hmap.memory, getElem?_bitmapSetMultiple, if_neg (by omega), getElem?_oneTaken_self ha]
  obtain ⟨s', hrun, his, hother⟩ := (hmap.mapFile h.map).release (by rw [hmap.bitCnt]; omega) hused
  refine ⟨s', hrun, ?_, hother⟩
  have hundo : bitmapSetMultiple s₁.freeMap.bits a 1 false = bitmapSetMultiple s.freeMap.bits b n true := by
    rw [hmap.memory, bitmapSetMultiple_comm hout, oneTaken, bitmapSetMultiple_undo]
    intro i hi hlt'
    have hia : i = a := by omega
    rw [hia, ha]
  rw [hundo] at his
  exact hmap.trans his

/-- **What a call does** between the opening and the closing of the root directory. -/
theorem CreateReady.createIn (h : CreateReady s p d r dir.inode) (name : CStr) (h0 : 0 ≤ size) :
    ∃ ok s', (Pintos.createIn dir name size).run s = .ok (ok, s') ∧
      CreateOutcome s d r name size (bytesToSectors size) ok s' := by
  rw [Pintos.createIn]
  cases ha : bitmapScan s.freeMap.bits 0 1 false with
  | none =>
    rw [Prog.run_bind_ok (freeMapAllocate_none ha)]
    exact ⟨false, s, rfl, .noSector ha⟩
  | some a =>
    obtain ⟨s₁, hrun₁, hmap₁, hdisk₁⟩ := h.map.allocate ha
    rw [Prog.run_bind_ok hrun₁]
    obtain ⟨-, -, hfree⟩ := bitmapScan_some ha
    have hfa : s.freeMap.bits[a]? = some false := hfree a (Nat.le_refl a) (Nat.lt_succ_self a)
    obtain ⟨ha0, -, -, hra⟩ := h.of_free hfa
    cases hb : bitmapScan (oneTaken s.freeMap.bits a) 0 (bytesToSectors size) false with
    | none =>
      have hnone : (freeMapAllocate (bytesToSectors size)).run s₁ = .ok (none, s₁) :=
        freeMapAllocate_none (by rw [hmap₁.memory]; exact hb)
      have hmap₁' : MapIs s s₁ d (bitmapSetMultiple (oneTaken s.freeMap.bits a) 0 0 true) := hmap₁
      obtain ⟨s₂, hrun₂, hmap₂, hdisk₂⟩ := h.release hfa hmap₁' fun hc => by
        unfold inRun at hc
        omega
      refine ⟨false, s₂, ?_, .noRun a s₂ ha hb hmap₂ (hdisk₂.trans hdisk₁)⟩
      simp only
      rw [createAt, Prog.run_bind, Prog.run_bind_ok (inodeCreate_none h0 hnone)]
      simp only [Bool.false_eq_true, if_false, Prog.run_pure]
      rw [if_pos ⟨trivial, ha0⟩, Prog.run_bind_ok hrun₂]
      rfl
    | some b =>
      have hf := found_of_scan ha hb
      obtain ⟨s₂, hcreate, hmap₂, hdisk₂, hinode⟩ := h.inodeCreate h0 ha hb hmap₁ hdisk₁
      have hdir : DirOpen s₂ dir.inode r := hmap₂.dirOpen h.dir
      have hslots : slots s₂.disk r = slots s.disk r := by
        refine slots_congr (hdisk₂.mono fun sec hsec => ⟨fun hc => (h.apart sec hc).2 hsec, ?_, ?_⟩)
        · rintro rfl
          exact hra hsec
        · exact fun hc => (h.of_free (hf.data sec hc)).2.2.2 hsec
      have htable : table s₂.disk r = table s.disk r := by rw [table, hslots, table]
      have hstack : s₂.stack.length = ENTRY_SIZE := by
        rw [hmap₂.frame]
        exact h.stack
      simp only
      rw [createAt, Prog.run_bind, Prog.run_bind_ok hcreate]
      simp only [if_true]
      -- a failed `dir_add` leaves the disk as it is
      have failed : ∀ disk, (dirAdd dir name a).run s₂ = .ok (false, { s₂ with disk := disk }) →
          SameDisk disk s₂.disk →
          (¬ ValidName name ∨ name.bytes ∈ keys (table s.disk r) ∨ none ∉ table s.disk r) →
          ∃ s', (do freeMapRelease a 1; pure false : FsProg Bool).run { s₂ with disk := disk } =
              .ok (false, s') ∧
            CreateOutcome s d r name size (bytesToSectors size) false s' := by
        intro disk hadd hsame hname
        have hmap₃ := hmap₂.setDisk h.map.length (hsame.sameOn _)
        obtain ⟨s₃, hrun₃, hmap₃, hdisk₃⟩ := h.release hfa hmap₃ hf.ne
        refine ⟨s₃, ?_, .noEntry a b s₃ ha hb hname hmap₃ ?_⟩
        · rw [Prog.run_bind_ok hrun₃]
          rfl
        · exact ((hdisk₃.trans (hsame.sameOn _)).mono fun sec hsec => hsec.1).trans hdisk₂
      by_cases hname : ValidName name ∧ name.bytes ∉ keys (table s₂.disk r)
      · have ha32 : a < 2 ^ 32 := by
          obtain ⟨hlt, -⟩ := List.getElem?_eq_some_iff.mp hfa
          rw [WordBitmap.length_bits, h.bitCnt] at hlt
          have hcap := h.capacity
          omega
        obtain ⟨disk, hadd, hother, hset, hfull⟩ := hdir.dirAdd hstack ha32 hname.1 hname.2
        by_cases hroom : none ∈ table s₂.disk r
        · rw [decide_eq_true hroom] at hadd
          rw [hadd]
          simp only [Bool.true_eq_false, false_and, if_false]
          rw [htable] at hname hroom hset
          rw [hslots] at hset
          have hmem : ∀ sec, d.Has sec → ¬ r.Has sec := fun sec hsec => (h.apart sec hsec).2
          refine ⟨true, _, rfl, .done a b _ ha hb ⟨hname.1, hname.2, hroom⟩
            (hmap₂.setDisk h.map.length (hother.mono hmem)) ?_ ?_ hset⟩
          · exact (hother.mono fun sec hsec => hsec.2.1).trans
              (hdisk₂.mono fun sec hsec => ⟨hsec.1, hsec.2.2⟩)
          · intro k hk
            show disk a k = _
            rw [hother a hra k hk, hinode]
        · rw [decide_eq_false hroom] at hadd
          rw [hadd]
          simp only
          rw [if_pos ⟨trivial, ha0⟩]
          obtain ⟨s', hrun, hout⟩ := failed disk hadd (hfull h.whole hroom)
            (Or.inr (Or.inr (by rwa [htable] at hroom)))
          exact ⟨false, s', hrun, hout⟩
      · have hbad : ¬ ValidName name ∨ name.bytes ∈ keys (table s₂.disk r) := by
          by_cases hv : ValidName name
          · exact Or.inr (by by_contra hc; exact hname ⟨hv, hc⟩)
          · exact Or.inl hv
        have hadd := hdir.dirAdd_refused a hbad
        rw [hadd]
        simp only
        rw [if_pos ⟨trivial, ha0⟩]
        rw [htable] at hbad
        obtain ⟨s', hrun, hout⟩ := failed s₂.disk hadd (.refl _)
          (hbad.imp_right Or.inl)
        exact ⟨false, s', hrun, hout⟩

/-! ## A call that fails -/

/-- The free map and the root directory are as before, in memory and on the disk. -/
structure Untouched (s s' : FileSys) (d r : InodeDisk) : Prop where
  memory : s'.freeMap.bits = s.freeMap.bits
  stored : (storedMap s' d).bits = (storedMap s d).bits
  root : SameOn (fun sec => sec = ROOT_DIR_SECTOR ∨ r.Has sec) s'.disk s.disk

/-- The sectors of the root directory are not those of a new file. -/
theorem Ready.root_kept (h : Ready s p d r) (hf : Found s.freeMap.bits a b n) {sec : Nat}
    (hsec : sec = ROOT_DIR_SECTOR ∨ r.Has sec) : ¬ d.Has sec ∧ sec ≠ a ∧ ¬ inRun b n sec := by
  have hused : s.freeMap.bits[sec]? = some true := h.used sec (by tauto)
  refine ⟨fun hc => ?_, ?_, fun hc => ?_⟩
  · obtain ⟨h1, h2⟩ := h.apart sec hc
    exact hsec.elim h1 h2
  · rintro rfl
    rw [hf.inode] at hused
    cases hused
  · rw [hf.data sec hc] at hused
    cases hused

/-- When a failed `filesys_create` leaves no trace: it needs no data sectors, or it fails before it
has taken them, or it does not fail. -/
def LeavesNoTrace (s : FileSys) (r : InodeDisk) (name : CStr) (size : Int) : Prop :=
  size = 0 ∨ bitmapScan s.freeMap.bits 0 1 false = none ∨
  (∃ a, bitmapScan s.freeMap.bits 0 1 false = some a ∧
    bitmapScan (oneTaken s.freeMap.bits a) 0 (bytesToSectors size) false = none) ∨
  (ValidName name ∧ name.bytes ∉ keys (table s.disk r) ∧ none ∈ table s.disk r)

/-- How a call ends, and the state after the root directory is closed. -/
theorem Ready.run_filesysCreate (h : Ready s p d r) (name : CStr) (h0 : 0 ≤ size) :
    ∃ ok s₁ s₂ s', (filesysCreate name size).run s = .ok (ok, s') ∧ SameStore s s₁ ∧
      CreateOutcome s₁ d r name size (bytesToSectors size) ok s₂ ∧ SameStore s₂ s' := by
  obtain ⟨q, inode, s₁, hopen, hstore, hmap, hdir, hq, hremoved⟩ := h.dirOpenRoot
  have hready : CreateReady s₁ p d r (Dir.mk q 0).inode := h.createReady hstore hmap hdir
  obtain ⟨ok, s₂, hin, hout⟩ := hready.createIn name h0
  have hq₂ : s₂.inodes q = some inode := by
    cases hout with
    | noSector _ => exact hq
    | noRun _ _ _ _ hmap _ => rw [hmap.frame]; exact hq
    | noEntry _ _ _ _ _ _ hmap _ => rw [hmap.frame]; exact hq
    | done _ _ _ _ _ _ hmap _ _ _ => rw [hmap.frame]; exact hq
  exact ⟨ok, s₁, s₂, _, Pintos.run_filesysCreate hopen hin (run_inodeClose hq₂ hremoved), hstore, hout,
    closed_sameStore _ _ _⟩

/-- **A failed create** leaves the free map and the root directory as they were iff it had taken no
data sectors. -/
theorem failed_create_leaves_no_trace (h : Ready s p d r) (name : CStr) (h0 : 0 ≤ size)
    (hsize : size < 2 ^ 31) :
    ∃ ok s', (filesysCreate name size).run s = .ok (ok, s') ∧
      ((ok = false → Untouched s s' d r) ↔ LeavesNoTrace s r name size) := by
  obtain ⟨ok, s₁, s₂, s', hrun, hs₁, hout, hs₂⟩ := h.run_filesysCreate name h0
  refine ⟨ok, s', hrun, ?_⟩
  have hstored : ∀ {t t' : FileSys}, SameStore t t' → storedMap t' d = storedMap t d := by
    intro t t' ht
    unfold storedMap
    rw [ht.freeMap, ht.disk]
  have hbits : s₁.freeMap.bits = s.freeMap.bits := by rw [hs₁.freeMap]
  have htable : table s₁.disk r = table s.disk r := by rw [hs₁.disk]
  have hset : ∀ {bits}, MapIs s₁ s₂ d bits → s'.freeMap.bits = bits ∧ (storedMap s' d).bits = bits := by
    intro bits hmap
    rw [hstored hs₂, hs₂.freeMap]
    exact ⟨hmap.memory, hmap.stored⟩
  have hroot : ∀ {R : Nat → Prop}, SameOn R s₂.disk s₁.disk →
      (∀ sec, sec = ROOT_DIR_SECTOR ∨ r.Has sec → R sec) →
      SameOn (fun sec => sec = ROOT_DIR_SECTOR ∨ r.Has sec) s'.disk s.disk := by
    intro R hsame hR
    rw [hs₂.disk, ← hs₁.disk]
    exact hsame.mono hR
  unfold LeavesNoTrace
  cases hout with
  | noSector hnone =>
    rw [hbits] at hnone
    refine iff_of_true (fun _ => ⟨?_, ?_, ?_⟩) (Or.inr (Or.inl hnone))
    · rw [hs₂.freeMap, hbits]
    · rw [hstored hs₂, hstored hs₁, h.stored]
    · rw [hs₂.disk, hs₁.disk]
      exact .refl _ _
  | noRun a _ ha hb hmap hdisk =>
    rw [hbits] at ha hb hmap
    obtain ⟨hmem, hst⟩ := hset hmap
    refine iff_of_true (fun _ => ⟨hmem, hst.trans h.stored.symm, hroot hdisk fun sec hsec hc => ?_⟩)
      (Or.inr (Or.inr (Or.inl ⟨a, ha, hb⟩)))
    obtain ⟨h1, h2⟩ := h.apart sec hc
    exact hsec.elim h1 h2
  | noEntry a b _ ha hb hname hmap hdisk =>
    rw [hbits] at ha hb hmap
    rw [htable] at hname
    obtain ⟨hmem, hst⟩ := hset hmap
    have hf := found_of_scan ha hb
    by_cases hz : size = 0
    · subst hz
      have hnone : bytesToSectors 0 = 0 := rfl
      rw [hnone] at hmem hst hdisk hf
      exact iff_of_true (fun _ => ⟨hmem, hst.trans h.stored.symm,
        hroot hdisk fun sec hsec => h.root_kept hf hsec⟩) (Or.inl rfl)
    · -- the data sectors are still marked as used
      have hpos := bytesToSectors_pos (show 0 < size by omega) hsize
      refine iff_of_false (fun hu => ?_) ?_
      · have hin : inRun b (bytesToSectors size) b := ⟨Nat.le_refl b, by omega⟩
        have hle := hf.le
        have hb' : s'.freeMap.bits[b]? = some true := by
          rw [hmem, getElem?_bitmapSetMultiple, if_pos (by omega)]
        rw [(hu rfl).memory, hf.data b hin] at hb'
        cases hb'
      · rintro (hc | hc | ⟨a', ha', hb'⟩ | ⟨hc1, hc2, hc3⟩)
        · exact hz hc
        · rw [ha] at hc
          cases hc
        · rw [ha, Option.some.injEq] at ha'
          rw [← ha', hb] at hb'
          cases hb'
        · rcases hname with hn | hn | hn
          · exact hn hc1
          · exact hc2 hn
          · exact hn hc3
  | done a b _ ha hb hname hmap hdisk hinode hset' =>
    rw [htable] at hname
    exact iff_of_true (fun hc => by cases hc) (Or.inr (Or.inr (Or.inr hname)))

/-! ## A disk with eight sectors -/

/-- After formatting: the free map in sector 2, the root directory in sector 3. -/
def eightSectors : FileSys where
  disk sec := if sec = ROOT_DIR_SECTOR then sectorOf (InodeDisk.mk 3 320).bytes
    else if sec = 2 then sectorOf (toBytes [15]) else fun _ => 0
  capacity := 8
  freeMap := ⟨8, [15]⟩
  freeMapFile := some 1
  openInodes := [0]
  inodes := update (fun _ => none) 0 (some { sector := 0, openCnt := 1, removed := false, denyWriteCnt := 0, data := ⟨2, 8⟩ })
  files := update (fun _ => none) 1 (some { inode := 0, pos := 0, denyWrite := false })
  brk := 2
  stack := List.replicate 20 0
  block := ⟨0, 0⟩

theorem onDisk_of_le {d : InodeDisk} (h0 : 0 ≤ d.length) (hle : d.start + d.sectors ≤ s.capacity)
    (hcap : s.capacity ≤ 2 ^ 28) : OnDisk s d where
  nonneg := h0
  selects i hi := by
    have hhas := d.has_div (i := i) (by omega)
    obtain ⟨-, hlt⟩ := hhas
    exact ⟨by omega, by omega⟩

theorem eightSectors_ready : Ready eightSectors 0 ⟨2, 8⟩ ⟨3, 320⟩ where
  map :=
    { file := ⟨1, _, rfl, rfl, rfl⟩
      inode := ⟨_, rfl, rfl, rfl, rfl⟩
      length := rfl
      onDisk := onDisk_of_le (by decide) (by decide) (by decide)
      ok := rfl }
  stored := by decide
  root := InodeDisk.ofSector_bytes (by decide) (by decide) (by decide)
  opened q inode hq hsec := by
    have hq' : update (fun _ => none) 0 (some (Inode.mk 0 1 false 0 ⟨2, 8⟩)) q = some inode := hq
    by_cases h0 : q = 0
    · rw [h0, update_self, Option.some.injEq] at hq'
      rw [← hq'] at hsec
      exact absurd hsec (by decide)
    · rw [update_of_ne h0] at hq'
      cases hq'
  onDisk := onDisk_of_le (by decide) (by decide) (by decide)
  length := by decide
  whole := rfl
  bitCnt := rfl
  capacity := by decide
  used sec hsec := by
    have hlt : sec < 4 := by
      unfold InodeDisk.Has InodeDisk.sectors at hsec
      rcases hsec with rfl | rfl | hc | hc
      · decide
      · decide
      · simp at hc
        omega
      · simp at hc
        omega
    have hall : ∀ sec < 4, eightSectors.freeMap.bits[sec]? = some true := by decide
    exact hall sec hlt
  apart sec hsec := by
    have h2 : sec = 2 := by
      unfold InodeDisk.Has InodeDisk.sectors at hsec
      simp at hsec
      omega
    subst h2
    decide
  fresh := rfl
  stack := rfl

/-- **The data sector of a file that is not created** stays in use: the name is empty, and sector 5
is not free afterwards. -/
theorem failed_create_leaks : ∃ s', (filesysCreate ⟨[], List.not_mem_nil⟩ 512).run eightSectors = .ok (false, s') ∧
    Ready eightSectors 0 ⟨2, 8⟩ ⟨3, 320⟩ ∧ eightSectors.freeMap.bits[5]? = some false ∧
    s'.freeMap.bits[5]? = some true ∧ ¬ Untouched eightSectors s' ⟨2, 8⟩ ⟨3, 320⟩ := by
  obtain ⟨ok, s₁, s₂, s', hrun, hs₁, hout, hs₂⟩ :=
    eightSectors_ready.run_filesysCreate ⟨[], List.not_mem_nil⟩ (show (0 : Int) ≤ 512 by decide)
  have hcnt : bytesToSectors 512 = 1 := by decide
  have hfree : eightSectors.freeMap.bits[5]? = some false := by decide
  rw [hcnt] at hout
  have hleak : ok = false ∧ s'.freeMap.bits[5]? = some true := by
    rw [hs₂.freeMap]
    cases hout with
    | noSector hnone =>
      rw [hs₁.freeMap] at hnone
      exact absurd hnone (by decide)
    | noRun a _ ha hb hmap hdisk =>
      rw [hs₁.freeMap] at ha hb
      have h4 : a = 4 := Option.some.inj (ha.symm.trans (by decide))
      subst h4
      exact absurd hb (by decide)
    | noEntry a b _ ha hb hname hmap hdisk =>
      rw [hs₁.freeMap] at ha hb
      have h4 : a = 4 := Option.some.inj (ha.symm.trans (by decide))
      subst h4
      have h5 : b = 5 := Option.some.inj (hb.symm.trans (by decide))
      subst h5
      rw [hmap.memory, hs₁.freeMap]
      exact ⟨rfl, by decide⟩
    | done a b _ ha hb hname hmap hdisk hinode hset => exact absurd rfl hname.1.1
  obtain ⟨rfl, hused⟩ := hleak
  refine ⟨s', hrun, eightSectors_ready, hfree, hused, fun hu => ?_⟩
  rw [hu.memory, hfree] at hused
  cases hused

/-- An empty file with a name that is too long. -/
theorem failed_create_leaves_no_trace_empty : ∃ ok s',
    (filesysCreate ⟨List.replicate 15 97, by decide⟩ 0).run eightSectors = .ok (ok, s') ∧
    (ok = false → Untouched eightSectors s' ⟨2, 8⟩ ⟨3, 320⟩) := by
  obtain ⟨ok, s', hrun, hiff⟩ := failed_create_leaves_no_trace eightSectors_ready
    ⟨List.replicate 15 97, by decide⟩ (Int.le_refl 0) (by decide)
  exact ⟨ok, s', hrun, hiff.mpr (Or.inl rfl)⟩

end Pintos
