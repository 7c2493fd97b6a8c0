import Pintos.Properties.HandleCalls
import Pintos.Properties.PutGet

/-!
# The file system is a store of files

In every run of calls on names and open files, with restarts in between, the replies are those of a store
of files, and no call fails.

* `Session` — the machine: the file system, and the calls with their replies
* `Represents` — the store that is on the disk
* `file_system_is_a_store` — the refinement
* `live_files_apart` — the sectors of the files that have a name or are open
* `protected_file_unchanged` — what is read from a file while a handle protects it
-/

namespace Pintos

open Function Machine LittleEndian SlotMap FileStore

instance : DecidableEq CStr := fun x y =>
  decidable_of_iff (x.bytes = y.bytes) ⟨fun h => by cases x; cases y; cases h; rfl, fun h => by rw [h]⟩

/-! ## The machine -/

/-- What memory holds when the kernel is started. -/
structure StartMemory where
  /-- The memory of the bitmap that `free_map_init` makes. -/
  block : List (BitVec 64)
  freeMap : WordBitmap
  stack : List Byte
  inode : InodeDisk

structure Request where
  call : Call CStr FilePtr Byte
  /-- There is memory for one more `struct file`. -/
  alloc : Bool
  memory : StartMemory

structure Session where
  fs : FileSys
  log : List (Call CStr FilePtr Byte × Reply FilePtr Byte)

namespace Session

/-- The function that a call is of. A restart leaves the disk. -/
def perform (s : FileSys) (a : Request) : Except FsFault (Reply FilePtr Byte × FileSys) :=
  match a.call with
  | .create name size => (do let ok ← filesysCreate name size; pure (.success ok) : FsProg _).run s
  | .remove name => (do let ok ← filesysRemove name; pure (.success ok) : FsProg _).run s
  | .openName name => (do let f ← filesysOpen name; pure (.handle f) : FsProg _).run s
  | .reopen f => (do let g ← fileReopen f a.alloc; pure (.handle g) : FsProg _).run s
  | .duplicate f => (do let g ← fileDuplicate f a.alloc; pure (.handle g) : FsProg _).run s
  | .close f => (do fileClose (some f); pure .done : FsProg _).run s
  | .denyWrite f => (do fileDenyWrite f; pure .done : FsProg _).run s
  | .allowWrite f => (do fileAllowWrite f; pure .done : FsProg _).run s
  | .read f size => (do let l ← fileRead f size; pure (.bytes l) : FsProg _).run s
  | .write f bytes => (do let n ← fileWrite f bytes; pure (.number n) : FsProg _).run s
  | .readAt f size ofs => (do let l ← fileReadAt f size ofs; pure (.bytes l) : FsProg _).run s
  | .writeAt f bytes ofs =>
    (do let n ← fileWriteAt f (fun _ => bytes) bytes.length ofs; pure (.number n) : FsProg _).run s
  | .seek f pos => (do fileSeek f pos; pure .done : FsProg _).run s
  | .tell f => (do let n ← fileTell f; pure (.number n) : FsProg _).run s
  | .length f => (do let n ← fileLength f; pure (.number n.toNat) : FsProg _).run s
  | .restart =>
    (do filesysInit false a.memory.block; pure .done : FsProg _).run
      (FileSys.boot s.disk s.capacity a.memory.freeMap a.memory.stack a.memory.inode)

def step (s : Session) (a : Request) : Except FsFault Session :=
  match perform s.fs a with
  | .error e => .error e
  | .ok (reply, fs) => .ok { fs := fs, log := s.log ++ [(a.call, reply)] }

/-- The call is on a handle that is open. -/
def On (s : FileSys) : Call CStr FilePtr Byte → Prop
  | .create _ size => size < 2 ^ 31
  | .remove _ => True
  | .openName _ => True
  | .reopen f => handleOf s f ≠ none
  | .duplicate f => handleOf s f ≠ none
  | .close f => handleOf s f ≠ none
  | .denyWrite f => handleOf s f ≠ none
  | .allowWrite f => handleOf s f ≠ none
  | .read f _ => handleOf s f ≠ none
  | .write f _ => handleOf s f ≠ none
  | .readAt f _ _ => handleOf s f ≠ none
  | .writeAt f _ _ => handleOf s f ≠ none
  | .seek f _ => handleOf s f ≠ none
  | .tell f => handleOf s f ≠ none
  | .length f => handleOf s f ≠ none
  | .restart => True

instance (s : FileSys) (c : Call CStr FilePtr Byte) : Decidable (On s c) := by
  cases c <;> simp only [On] <;> infer_instance

/-- What the functions ask of their caller: sizes of files are those of an `off_t`, handles are open, and
there is memory for the bitmap and for an entry of a directory. -/
structure Proper (s : Session) (a : Request) : Prop where
  handles : On s.fs a.call
  block : a.memory.block.length = elemCnt s.fs.capacity
  stack : a.memory.stack.length = ENTRY_SIZE

end Session

/-- The inode that is in a sector of the disk. -/
def inodeAt (s : FileSys) (sec : Nat) : InodeDisk := InodeDisk.ofSector (s.disk sec)

/-- What the root directory has under a name. -/
def namesOf (s : FileSys) (name : CStr) : Option Nat := value (table s.disk (inodeAt s ROOT_DIR_SECTOR)) name.bytes

/-- The store that is on the disk and in the open files. A file is known by the sector of its inode. -/
structure Represents (s : FileSys) (st : Store CStr Nat FilePtr Byte) : Prop where
  names : st.names = namesOf s
  handles : st.handles = handleOf s
  content : ∀ id, st.Live id → st.content id = contentOf s.disk (inodeAt s id)

variable {s s' t : FileSys} {refs : InodePtr → Nat} {live : List FilePtr} {p q : InodePtr}
  {d r e : InodeDisk} {owner owner' : Nat → Option InodeDisk} {i inode : Inode} {f : FilePtr} {file : File}
  {name : CStr} {x : Handle Nat} {capacity : Nat} {st st' : Store CStr Nat FilePtr Byte}

/-! ## After a start -/

/-- Fewer files are owned. -/
theorem Owned.restrict {bits : Bitmap} {disk : Nat → Sector} (h : Owned bits disk owner)
    (hsub : ∀ sec e, owner' sec = some e → owner sec = some e) : Owned bits disk owner' where
  sector sec e he := h.sector sec e (hsub sec e he)
  size sec e he := h.size sec e (hsub sec e he)
  le sec e he := h.le sec e (hsub sec e he)
  used sec e x he := h.used sec e x (hsub sec e he)
  outside sec e he := h.outside sec e (hsub sec e he)
  apart sec e sec' e' x he he' := h.apart sec e sec' e' x (hsub sec e he) (hsub sec' e' he')

/-- The counters where only the free map file is open. -/
theorem counts_mapOnly (hinodes : s.inodes = update (fun _ => none) p (some i))
    (hfiles : s.files = update (fun _ => none) f (some { inode := p, pos := 0, denyWrite := false }))
    (hopen : s.openInodes = [p]) (hcnt : i.openCnt = 1) (hdeny : i.denyWriteCnt = 0) (hp : p < s.brk)
    (hf : f < s.brk) : Counts (unremoved s) (fun _ => 0) [f] := by
  have hinode : ∀ {q j}, (unremoved s).inodes q = some j → q = p ∧ j = { i with removed := false } := by
    intro q j hj
    obtain ⟨i', hi', rfl⟩ := Option.map_eq_some_iff.mp hj
    rw [hinodes] at hi'
    by_cases hq : q = p
    · rw [hq, update_self, Option.some.injEq] at hi'
      exact ⟨hq, by rw [hi']⟩
    · rw [update_of_ne hq] at hi'
      cases hi'
  have hsome : (unremoved s).inodes p = some { i with removed := false } :=
    unremoved_inodes (by rw [hinodes, update_self])
  constructor
  case nodup => exact List.nodup_singleton f
  case nodupOpen =>
    show s.openInodes.Nodup
    rw [hopen]
    exact List.nodup_singleton p
  case listed =>
    intro q
    show q ∈ s.openInodes ↔ _
    rw [hopen, List.mem_singleton]
    constructor
    · rintro rfl
      rw [hsome]
      exact Option.some_ne_none _
    · intro hq
      obtain ⟨j, hj⟩ := Option.ne_none_iff_exists'.mp hq
      exact (hinode hj).1
  case sector => exact fun q q' j j' hj hj' _ => (hinode hj).1.trans (hinode hj').1.symm
  case file =>
    intro g
    show g ∈ [f] ↔ s.files g ≠ none
    rw [hfiles, List.mem_singleton]
    by_cases hg : g = f
    · simp [hg]
    · simp [hg]
  case inode =>
    intro g file hg
    have hg' : s.files g = some file := hg
    rw [hfiles] at hg'
    by_cases hgf : g = f
    · rw [hgf, update_self, Option.some.injEq] at hg'
      subst hg'
      rw [hsome]
      exact Option.some_ne_none _
    · rw [update_of_ne hgf] at hg'
      cases hg'
  case fresh =>
    intro q hq
    have hqb : s.brk ≤ q := hq
    have hqp : q ≠ p := Nat.ne_of_gt (Nat.lt_of_lt_of_le hp hqb)
    have hqf : q ≠ f := Nat.ne_of_gt (Nat.lt_of_lt_of_le hf hqb)
    constructor
    · show (s.inodes q).map _ = none
      rw [hinodes, update_of_ne hqp]
      rfl
    · show s.files q = none
      rw [hfiles, update_of_ne hqf]
  case unheld => exact fun _ _ => rfl
  case count =>
    intro q j hj
    obtain ⟨rfl, rfl⟩ := hinode hj
    have hfile : s.files f = some { inode := q, pos := 0, denyWrite := false } := by rw [hfiles, update_self]
    refine ⟨rfl, by show 0 < i.openCnt; omega, ?_, ?_⟩
    · show i.openCnt = ((0 : Nat) : Int) + (([f].countP (onInode s.files q) : Nat) : Int)
      rw [List.countP_singleton, onInode_some hfile, hcnt]
      simp
    · show i.denyWriteCnt = (([f].countP (denies s.files q) : Nat) : Int)
      rw [List.countP_singleton, denies_some hfile, hdeny]
      simp

/-- The invariant where only the free map file is open. -/
theorem fsInv_mapOnly (hmap : MapFile s p d) (hmapFile : s.freeMapFile = some f)
    (hinodes : s.inodes = update (fun _ => none) p (some i))
    (hfiles : s.files = update (fun _ => none) f (some { inode := p, pos := 0, denyWrite := false }))
    (hopen : s.openInodes = [p]) (hcnt : i.openCnt = 1) (hremoved : i.removed = false) (hp : p < s.brk)
    (hf : f < s.brk) (hstored : (storedMap s d).bits = s.freeMap.bits) (hbitCnt : s.freeMap.bitCnt = s.capacity)
    (hcap : s.capacity ≤ 2 ^ 28) (hstack : s.stack.length = ENTRY_SIZE) (howned : Owned s.freeMap.bits s.disk owner)
    (hd : owner FREE_MAP_SECTOR = some d) (hr : owner ROOT_DIR_SECTOR = some r)
    (hwhole : r.length.toNat % ENTRY_SIZE = 0) (hnames : Unique (table s.disk r))
    (hsectors : Unique (swapped (table s.disk r)))
    (hentry : ∀ sec ∈ keys (swapped (table s.disk r)), 2 ≤ sec ∧ owner sec ≠ none) :
    FsInv s (fun _ => 0) [f] p d r owner := by
  obtain ⟨i₀, hi₀, hdata, hdeny, hsec⟩ := hmap.inode
  have hi : s.inodes p = some i := by rw [hinodes, update_self]
  rw [hi, Option.some.injEq] at hi₀
  subst hi₀
  have hinode : ∀ {q j}, s.inodes q = some j → j = i := by
    intro q j hj
    rw [hinodes] at hj
    by_cases hq : q = p
    · rw [hq, update_self, Option.some.injEq] at hj
      exact hj.symm
    · rw [update_of_ne hq] at hj
      cases hj
  constructor
  case map => exact hmap
  case stored => exact hstored
  case bitCnt => exact hbitCnt
  case capacity => exact hcap
  case stack => exact hstack
  case owned => exact howned
  case mapOwner => exact hd
  case rootOwner => exact hr
  case whole => exact hwhole
  case names => exact hnames
  case sectors => exact hsectors
  case entry => exact hentry
  case inode =>
    intro q j hj
    rw [hinode hj, hsec, hdata]
    exact hd
  case removed =>
    intro q j hj
    rw [hinode hj, hremoved, hsec]
    exact iff_of_false Bool.false_ne_true fun hc => absurd hc.1 (by decide)
  case counts => exact counts_mapOnly hinodes hfiles hopen hcnt hdeny hp hf
  case file =>
    intro g file hg
    rw [hfiles] at hg
    by_cases hgf : g = f
    · rw [hgf, update_self, Option.some.injEq] at hg
      exact Or.inl ⟨by rw [hgf]; exact hmapFile, by rw [← hg]⟩
    · rw [update_of_ne hgf] at hg
      cases hg

/-- No handle is open where only the free map file is. -/
theorem handleOf_mapOnly (hmapFile : s.freeMapFile = some f)
    (hfiles : s.files = update (fun _ => none) f (some { inode := p, pos := 0, denyWrite := false })) :
    handleOf s = fun _ => none := by
  funext g
  unfold handleOf
  split
  · rfl
  · next hg =>
    have hne : g ≠ f := by
      rintro rfl
      exact hg hmapFile
    rw [hfiles, update_of_ne hne]
    rfl

/-- The owners that a restart leaves: files with a name. -/
def namedOwners (s : FileSys) (r : InodeDisk) (owner : Nat → Option InodeDisk) (sec : Nat) : Option InodeDisk :=
  if sec < 2 ∨ sec ∈ keys (swapped (table s.disk r)) then owner sec else none

theorem namedOwners_some {sec : Nat} (h : namedOwners s r owner sec = some e) : owner sec = some e := by
  unfold namedOwners at h
  split at h
  · exact h
  · cases h

/-- **`filesys_init`** without formatting: names and bytes are those of before. -/
theorem FsInv.restart (h : FsInv s refs live p d r owner) {block : List (BitVec 64)} {stack : List Byte}
    (hblock : block.length = elemCnt s.capacity) (hstack : stack.length = ENTRY_SIZE) (freeMap : WordBitmap)
    (inode : InodeDisk) :
    ∃ s' f, (filesysInit false block).run (FileSys.boot s.disk s.capacity freeMap stack inode) = .ok ((), s') ∧
      FsInv s' (fun _ => 0) [f] 0 d r (namedOwners s r owner) ∧ s'.disk = s.disk ∧ s'.capacity = s.capacity ∧
      handleOf s' = fun _ => none := by
  obtain ⟨hlt, -⟩ := List.getElem?_eq_some_iff.mp (h.owned.used _ _ _ h.rootOwner (Or.inl rfl))
  rw [WordBitmap.length_bits, h.bitCnt] at hlt
  have hsel := h.selects h.mapOwner
  have hdisk := h.owned.sector _ _ h.mapOwner
  obtain ⟨hok, -⟩ := bits_freeMapInit hblock (by unfold ROOT_DIR_SECTOR at hlt; omega)
  generalize hfm : (((WordBitmap.create s.capacity block).mark FREE_MAP_SECTOR).mark ROOT_DIR_SECTOR) = fm at hok
  have hcnt : fm.bitCnt = s.capacity := by
    rw [← hfm]
    exact WordBitmap.bitCnt_create
  have hinit : (freeMapInit block).run (FileSys.boot s.disk s.capacity freeMap stack inode) =
      .ok ((), { FileSys.boot s.disk s.capacity freeMap stack inode with freeMap := fm }) := by
    rw [← hfm]
    exact Prog.run_write rfl
  have hlen : d.length = byteCnt fm.bitCnt := by rw [hcnt, ← h.bitCnt, h.map.length]
  generalize ht : ({ FileSys.boot s.disk s.capacity freeMap stack inode with freeMap := fm } : FileSys) = t at hinit
  have htdisk : t.disk = s.disk := by rw [← ht]; rfl
  have htcap : t.capacity = s.capacity := by rw [← ht]; rfl
  have htfm : t.freeMap = fm := by rw [← ht]
  have htbrk : t.brk = 0 := by rw [← ht]; rfl
  have htsec : InodeDisk.ofSector (t.disk FREE_MAP_SECTOR) = d := by rw [htdisk, hdisk]
  obtain ⟨b, hopen, hbcnt, hbok, hbits⟩ := freeMapOpen_spec (s := t) (by rw [← ht]; rfl)
    ⟨by rw [htcap]; exact hsel.1, hsel.2⟩ (by rw [htsec, htfm, hlen])
    (by rw [htsec]; exact h.map.onDisk.congr htcap) (by rw [htfm]; exact hok)
  rw [htsec] at hbits
  have hmapFile := mapOpened_mapFile (s := t) (by rw [htsec, htfm, hlen])
    (by rw [htsec]; exact h.map.onDisk.congr htcap) (by rw [htfm]; exact hok)
  rw [htsec, htbrk] at hmapFile
  have hsame : b.bits = s.freeMap.bits := by
    rw [hbits, ← h.stored]
    unfold storedMap
    rw [htdisk, htfm, hcnt, h.bitCnt]
  have hfiles : (mapOpened t).files = update (fun _ => none) 1 (some { inode := 0, pos := 0, denyWrite := false }) := by
    show update t.files (t.brk + 1) (some { inode := t.brk, pos := 0, denyWrite := false }) = _
    rw [htbrk, ← ht]
    rfl
  have hfmf : (mapOpened t).freeMapFile = some 1 := by
    show some (t.brk + 1) = some 1
    rw [htbrk]
  refine ⟨{ mapOpened t with freeMap := b }, 1, ?_, ?_, htdisk, htcap,
    handleOf_mapOnly (f := 1) (p := 0) hfmf hfiles⟩
  · rw [filesysInit, Prog.run_bind_ok hinit]
    exact hopen
  · have hsector : ∀ sec ∈ keys (swapped (table s.disk r)), namedOwners s r owner sec = owner sec := fun sec hsec =>
      if_pos (Or.inr hsec)
    refine fsInv_mapOnly (i := loaded t FREE_MAP_SECTOR) (hmapFile.setFreeMap hbcnt hbok) hfmf ?_ hfiles ?_ rfl
      rfl ?_ ?_
      ?_ ?_ ?_ ?_ ?_ ?_ ?_ h.whole ?_ ?_ ?_
    · show update t.inodes t.brk (some (loaded t FREE_MAP_SECTOR)) = _
      rw [htbrk, ← ht]
      rfl
    · show t.brk :: t.openInodes = [0]
      rw [htbrk, ← ht]
      rfl
    · show 0 < t.brk + 2
      omega
    · show 1 < t.brk + 2
      omega
    · show (storedMap { mapOpened t with freeMap := b } d).bits = b.bits
      rw [hbits]
      unfold storedMap
      simp only [hbcnt]
      rfl
    · show b.bitCnt = t.capacity
      rw [hbcnt, htfm, hcnt, htcap]
    · show t.capacity ≤ 2 ^ 28
      rw [htcap]
      exact h.capacity
    · show t.stack.length = ENTRY_SIZE
      rw [← ht]
      exact hstack
    · show Owned b.bits t.disk (namedOwners s r owner)
      rw [hsame, htdisk]
      exact h.owned.restrict fun _ _ => namedOwners_some
    · rw [namedOwners, if_pos (Or.inl (by decide)), h.mapOwner]
    · rw [namedOwners, if_pos (Or.inl (by decide)), h.rootOwner]
    · show Unique (table t.disk r)
      rw [htdisk]
      exact h.names
    · show Unique (swapped (table t.disk r))
      rw [htdisk]
      exact h.sectors
    · show ∀ sec ∈ keys (swapped (table t.disk r)), _
      rw [htdisk]
      intro sec hsec
      rw [hsector sec hsec]
      exact h.entry sec hsec

/-- What formatting leaves is in order. -/
theorem Formatted.fsInv {stack : List Byte} (h : Formatted s capacity stack) (hf : Formattable capacity)
    (hcap : capacity ≤ 2 ^ 28) (hstack : stack.length = ENTRY_SIZE) :
    FsInv s (fun _ => 0) [3] 2 (mapData capacity) (rootData capacity)
      (update (update (fun _ => none) FREE_MAP_SECTOR (some (mapData capacity))) ROOT_DIR_SECTOR
        (some (rootData capacity))) ∧
    ∀ name, value (table s.disk (rootData capacity)) name = none := by
  have hkeys : keys (table s.disk (rootData capacity)) = [] :=
    List.perm_nil.mp (h.volume hf hcap hstack).names
  have hswapped : ∀ sec, sec ∉ keys (swapped (table s.disk (rootData capacity))) := by
    intro sec hsec
    obtain ⟨key, hkey⟩ := mem_keys.mp hsec
    obtain ⟨slot, hslot, hx⟩ := List.mem_map.mp hkey
    obtain ⟨⟨key', sec'⟩, rfl, -⟩ := Option.map_eq_some_iff.mp hx
    have hmem : key' ∈ keys (table s.disk (rootData capacity)) := mem_keys.mpr ⟨sec', hslot⟩
    rw [hkeys] at hmem
    cases hmem
  have hswappedKeys : keys (swapped (table s.disk (rootData capacity))) = [] :=
    List.eq_nil_iff_forall_not_mem.mpr hswapped
  refine ⟨?_, fun name => value_eq_none_iff.mpr (by rw [hkeys]; exact List.not_mem_nil)⟩
  have hbound := hf.1
  obtain ⟨hmapLen, -, -⟩ := hf.bounds
  have hbits : ∀ x, x < 3 + (mapData capacity).sectors → s.freeMap.bits[x]? = some true := by
    intro x hx
    rw [h.bits, getElem?_usedBelow, if_pos (by omega), decide_eq_true hx]
  have howner : ∀ {sec e}, update (update (fun _ => none) FREE_MAP_SECTOR (some (mapData capacity))) ROOT_DIR_SECTOR
      (some (rootData capacity)) sec = some e →
      (sec = FREE_MAP_SECTOR ∧ e = mapData capacity) ∨ (sec = ROOT_DIR_SECTOR ∧ e = rootData capacity) := by
    intro sec e he
    by_cases hroot : sec = ROOT_DIR_SECTOR
    · rw [hroot, update_self, Option.some.injEq] at he
      exact Or.inr ⟨hroot, he.symm⟩
    · rw [update_of_ne hroot] at he
      by_cases hmap : sec = FREE_MAP_SECTOR
      · rw [hmap, update_self, Option.some.injEq] at he
        exact Or.inl ⟨hmap, he.symm⟩
      · rw [update_of_ne hmap] at he
        cases he
  -- the sectors of the two are these
  have hocc : ∀ {sec e x}, (sec = FREE_MAP_SECTOR ∧ e = mapData capacity) ∨
      (sec = ROOT_DIR_SECTOR ∧ e = rootData capacity) → Occupies sec e x →
      x = sec ∨ (sec = 0 ∧ 2 ≤ x ∧ x < 2 + (mapData capacity).sectors) ∨
        (sec = 1 ∧ x = 2 + (mapData capacity).sectors) := by
    rintro sec e x (⟨rfl, rfl⟩ | ⟨rfl, rfl⟩) (hx | hx)
    · exact Or.inl hx
    · rw [mapData_has] at hx
      exact Or.inr (Or.inl ⟨rfl, hx⟩)
    · exact Or.inl hx
    · rw [rootData_has] at hx
      exact Or.inr (Or.inr ⟨rfl, hx⟩)
  refine fsInv_mapOnly h.map h.freeMapFile h.inodes h.files h.openInodes rfl rfl (by rw [h.brk]; decide)
    (by rw [h.brk]; decide) h.stored (h.bitCnt.trans h.size.symm) (by rw [h.size]; exact hcap)
    (by rw [h.stack]; exact hstack) ?_ ?_ (update_self _ _ _) (by rw [rootData_length]; decide) ?_ ?_ ?_
  · constructor
    case sector =>
      intro sec e he
      rcases howner he with ⟨rfl, rfl⟩ | ⟨rfl, rfl⟩
      · exact h.mapSector
      · exact h.rootSector
    case size =>
      intro sec e he
      rcases howner he with ⟨rfl, rfl⟩ | ⟨rfl, rfl⟩
      · have hlen : (mapData capacity).length = byteCnt capacity := rfl
        omega
      · rw [rootData_length]
        decide
    case le =>
      intro sec e he
      rw [WordBitmap.length_bits, h.bitCnt]
      rcases howner he with ⟨rfl, rfl⟩ | ⟨rfl, rfl⟩
      · rw [mapData_start]
        omega
      · rw [rootData_start, rootData_sectors]
        omega
    case used =>
      intro sec e x he hx
      have hsec := howner he
      refine hbits x ?_
      rcases hocc hsec hx with rfl | ⟨-, -, hlt⟩ | ⟨-, rfl⟩
      · rcases hsec with ⟨rfl, -⟩ | ⟨rfl, -⟩ <;> simp only [FREE_MAP_SECTOR, ROOT_DIR_SECTOR] <;> omega
      · omega
      · omega
    case outside =>
      intro sec e he hc
      rcases howner he with ⟨rfl, rfl⟩ | ⟨rfl, rfl⟩
      · rw [mapData_has] at hc
        unfold FREE_MAP_SECTOR at hc
        omega
      · rw [rootData_has] at hc
        unfold ROOT_DIR_SECTOR at hc
        omega
    case apart =>
      intro sec e sec' e' x he he' hne hx hx'
      have hsec := howner he
      have hsec' := howner he'
      have hx := hocc hsec hx
      have hx' := hocc hsec' hx'
      have hcase : (sec = 0 ∨ sec = 1) ∧ (sec' = 0 ∨ sec' = 1) := by
        unfold FREE_MAP_SECTOR ROOT_DIR_SECTOR at hsec hsec'
        exact ⟨hsec.imp And.left And.left, hsec'.imp And.left And.left⟩
      omega
  · rw [update_of_ne (by decide), update_self]
  · show (keys _).Nodup
    rw [hkeys]
    exact List.nodup_nil
  · show (keys _).Nodup
    rw [hswappedKeys]
    exact List.nodup_nil
  · exact fun sec hsec => absurd hsec (hswapped sec)

/-! ## One call -/

/-- The store of a file system with the owners `owner`. -/
structure Abstracts (s : FileSys) (st : Store CStr Nat FilePtr Byte) (r : InodeDisk)
    (owner : Nat → Option InodeDisk) : Prop where
  names : ∀ name, st.names name = value (table s.disk r) name.bytes
  handles : st.handles = handleOf s
  content : ∀ sec e, owner sec = some e → 2 ≤ sec → st.content sec = contentOf s.disk e

/-- A file of the store is one on the disk. -/
theorem Abstracts.owner_of_live (ha : Abstracts s st r owner) (h : FsInv s refs live p d r owner) {id : Nat}
    (hl : st.Live id) : 2 ≤ id ∧ ∃ e, owner id = some e := by
  rcases hl with ⟨name, hname⟩ | ⟨f, x, hx, rfl⟩
  · rw [ha.names] at hname
    obtain ⟨hle, hne⟩ := h.entry id ((mem_keys_swapped h.names).mpr ⟨_, hname⟩)
    exact ⟨hle, Option.ne_none_iff_exists'.mp hne⟩
  · rw [ha.handles] at hx
    obtain ⟨-, file, i, -, -, rfl, hle, he⟩ := h.handle hx
    exact ⟨hle, i.data, he⟩

theorem Abstracts.represents (ha : Abstracts s st r owner) (h : FsInv s refs live p d r owner) :
    Represents s st where
  names := by
    funext name
    rw [ha.names, namesOf, inodeAt, h.owned.sector _ _ h.rootOwner]
  handles := ha.handles
  content id hl := by
    obtain ⟨hle, e, he⟩ := ha.owner_of_live h hl
    rw [ha.content id e he hle, inodeAt, h.owned.sector _ _ he]

theorem Abstracts.denied_iff (ha : Abstracts s st r owner) (id : Nat) :
    st.Denied id ↔ ∃ f x, handleOf s f = some x ∧ x.id = id ∧ x.deny = true := by
  unfold Store.Denied
  rw [ha.handles]

/-- Only handles change. -/
theorem Abstracts.setHandle (ha : Abstracts s st r owner) (hdisk : s'.disk = s.disk) {y : Option (Handle Nat)}
    (hh : handleOf s' = update (handleOf s) f y) : Abstracts s' (st.setHandle f y) r owner where
  names name := by
    rw [hdisk]
    exact ha.names name
  handles := by
    rw [hh, ← ha.handles]
    rfl
  content sec e he hle := by
    rw [hdisk]
    exact ha.content sec e he hle

/-- Nothing changes that is seen. -/
theorem Abstracts.same (ha : Abstracts s st r owner) (htable : table s'.disk r = table s.disk r)
    (hh : handleOf s' = handleOf s) (hsame : SameFiles owner owner s'.disk s.disk) : Abstracts s' st r owner where
  names name := by
    rw [htable]
    exact ha.names name
  handles := by
    rw [hh]
    exact ha.handles
  content sec e he hle := by
    rw [ha.content sec e he hle, contentOf_congr (hsame sec e he he hle)]

/-- The bytes of one file change. -/
theorem Abstracts.setContent (ha : Abstracts s st r owner) (htable : table s'.disk r = table s.disk r)
    (hx : owner x.id = some e) {ofs : Nat} {bytes : List Byte}
    (hle : 2 ≤ x.id) (hw : Written s s' owner x e ofs bytes) :
    (∀ name, (st.setContent x.id (overwrite (st.content x.id) ofs bytes)).names name =
      value (table s'.disk r) name.bytes) ∧
    ∀ sec e', owner sec = some e' → 2 ≤ sec →
      (st.setContent x.id (overwrite (st.content x.id) ofs bytes)).content sec = contentOf s'.disk e' := by
  constructor
  · intro name
    rw [htable]
    exact ha.names name
  · intro sec e' he' hle'
    by_cases hsec : sec = x.id
    · subst hsec
      rw [hx, Option.some.injEq] at he'
      subst he'
      rw [hw.content, ← ha.content _ _ hx hle]
      exact update_self _ _ _
    · rw [hw.other sec e' hsec he', ← ha.content sec e' he' hle']
      exact update_of_ne hsec _ _

/-- A call is one of the store. -/
def Simulated (s : FileSys) (a : Request) (st : Store CStr Nat FilePtr Byte) (d r : InodeDisk) : Prop :=
  ∃ reply s' st' live p owner, Session.perform s a = .ok (reply, s') ∧ Step 0 st a.call reply st' ∧
    FsInv s' (fun _ => 0) live p d r owner ∧ Abstracts s' st' r owner

variable {alloc : Bool} {memory : StartMemory} {size pos ofs : Nat} {bytes : List Byte}

theorem CStr.ext_bytes {name' : CStr} (h : name.bytes = name'.bytes) : name = name' := by
  cases name
  cases name'
  cases h
  rfl

/-- The names after one of them leads elsewhere. -/
theorem Abstracts.names_update (ha : Abstracts s st r owner) {id : Option Nat}
    (hnames : value (table s'.disk r) = update (value (table s.disk r)) name.bytes id) (name' : CStr) :
    (st.setName name id).names name' = value (table s'.disk r) name'.bytes := by
  rw [hnames]
  by_cases hn : name' = name
  · rw [hn, update_self]
    exact update_self _ _ _
  · rw [update_of_ne fun hc => hn (CStr.ext_bytes hc), ← ha.names]
    exact update_of_ne hn _ _

theorem simulated_create (h : FsInv s (fun _ => 0) live p d r owner) (ha : Abstracts s st r owner)
    (hsize : size < 2 ^ 31) : Simulated s ⟨.create name size, alloc, memory⟩ st d r := by
  obtain ⟨ok, s', hrun, hstill, hsame, hcases⟩ := h.filesysCreate name (Int.natCast_nonneg size) (by omega)
  have hperform : Session.perform s ⟨.create name size, alloc, memory⟩ = .ok (.success ok, s') :=
    (Prog.run_bind_ok hrun).trans rfl
  rcases hcases with ⟨rfl, hinv, htable⟩ | ⟨rfl, a, e, hmade, hzero⟩
  · exact ⟨_, s', st, live, p, owner, hperform, .notCreated, hinv,
      ha.same htable (hstill.handleOf h hinv) hsame⟩
  · refine ⟨_, s', _, live, p, _, hperform, .created (i := a) ?_ fun hl => ?_, hmade.inv, ⟨?_, ?_, ?_⟩⟩
    · rw [ha.names]
      exact hmade.absent
    · obtain ⟨-, e', he'⟩ := ha.owner_of_live h hl
      rw [hmade.fresh] at he'
      cases he'
    · exact ha.names_update hmade.names
    · rw [hstill.handleOf h hmade.inv]
      exact ha.handles
    · intro sec e' he' hle
      by_cases hsec : sec = a
      · subst hsec
        rw [update_self, Option.some.injEq] at he'
        subst he'
        have hlen : e.length.toNat = size := by rw [hmade.length, Int.toNat_natCast]
        rw [contentOf, hzero, hlen]
        exact update_self _ _ _
      · rw [update_of_ne hsec] at he'
        rw [contentOf_congr (hsame sec e' he' he' hle), ← ha.content sec e' he' hle]
        exact update_of_ne hsec _ _

theorem simulated_remove (h : FsInv s (fun _ => 0) live p d r owner) (ha : Abstracts s st r owner) :
    Simulated s ⟨.remove name, alloc, memory⟩ st d r := by
  obtain ⟨ok, s', hrun, hstill, hcases⟩ := h.filesysRemove name
  have hperform : Session.perform s ⟨.remove name, alloc, memory⟩ = .ok (.success ok, s') :=
    (Prog.run_bind_ok hrun).trans rfl
  rcases hcases with ⟨rfl, hnone, hinv, hdisk⟩ | ⟨rfl, sec, owner', hgone⟩
  · refine ⟨_, s', st, live, p, owner, hperform, .notRemoved (by rw [ha.names]; exact hnone), hinv,
      ha.same (by rw [hdisk]) (hstill.handleOf h hinv) fun _ _ _ _ _ => ?_⟩
    rw [hdisk]
    exact .refl _ _
  · refine ⟨_, s', _, live, p, owner', hperform, .removed (i := sec) (by rw [ha.names]; exact hgone.present),
      hgone.inv, ⟨ha.names_update hgone.names, ?_, fun sec' e he hle => ?_⟩⟩
    · rw [hstill.handleOf h hgone.inv]
      exact ha.handles
    · have he₀ := hgone.still sec' e he
      rw [contentOf_congr (hgone.same sec' e he₀ he hle)]
      exact ha.content sec' e he₀ hle

theorem simulated_open (h : FsInv s (fun _ => 0) live p d r owner) (ha : Abstracts s st r owner) :
    Simulated s ⟨.openName name, alloc, memory⟩ st d r := by
  rcases h.filesysOpen name with ⟨hnone, s', hrun, hinv, hdisk, hh⟩ | ⟨sec, f, s', hvalue, hrun, hnew⟩
  · refine ⟨_, s', st, live, p, owner, (Prog.run_bind_ok hrun).trans rfl,
      .notOpened (by rw [ha.names]; exact hnone), hinv, ha.same (by rw [hdisk]) hh fun _ _ _ _ _ => ?_⟩
    rw [hdisk]
    exact .refl _ _
  · exact ⟨_, s', _, f :: live, p, owner, (Prog.run_bind_ok hrun).trans rfl,
      .opened (by rw [ha.names]; exact hvalue) (by rw [ha.handles]; exact hnew.fresh), hnew.inv,
      ha.setHandle hnew.disk hnew.handles⟩

theorem simulated_reopen (h : FsInv s (fun _ => 0) live p d r owner) (ha : Abstracts s st r owner)
    (hx : handleOf s f = some x) : Simulated s ⟨.reopen f, alloc, memory⟩ st d r := by
  have hx' : st.handles f = some x := by rw [ha.handles, hx]
  obtain ⟨hrefused, g, s', hrun, -, -, -, hnew⟩ := h.fileReopen hx
  cases alloc with
  | false => exact ⟨_, s, st, live, p, owner, (Prog.run_bind_ok hrefused).trans rfl, .notReopened hx', h, ha⟩
  | true =>
    exact ⟨_, s', _, g :: live, p, owner, (Prog.run_bind_ok hrun).trans rfl,
      .reopened hx' (by rw [ha.handles]; exact hnew.fresh), hnew.inv, ha.setHandle hnew.disk hnew.handles⟩

theorem simulated_duplicate (h : FsInv s (fun _ => 0) live p d r owner) (ha : Abstracts s st r owner)
    (hx : handleOf s f = some x) : Simulated s ⟨.duplicate f, alloc, memory⟩ st d r := by
  have hx' : st.handles f = some x := by rw [ha.handles, hx]
  obtain ⟨hrefused, g, s', hrun, hnew⟩ := h.fileDuplicate hx
  cases alloc with
  | false => exact ⟨_, s, st, live, p, owner, (Prog.run_bind_ok hrefused).trans rfl, .notDuplicated hx', h, ha⟩
  | true =>
    exact ⟨_, s', _, g :: live, p, owner, (Prog.run_bind_ok hrun).trans rfl,
      .duplicated hx' (by rw [ha.handles]; exact hnew.fresh), hnew.inv, ha.setHandle hnew.disk hnew.handles⟩

theorem simulated_close (h : FsInv s (fun _ => 0) live p d r owner) (ha : Abstracts s st r owner)
    (hx : handleOf s f = some x) : Simulated s ⟨.close f, alloc, memory⟩ st d r := by
  have hx' : st.handles f = some x := by rw [ha.handles, hx]
  obtain ⟨s', owner', hrun, hinv, howner, hdisk, hh⟩ := h.fileClose hx
  refine ⟨_, s', _, _, p, owner', (Prog.run_bind_ok hrun).trans rfl, .closed hx', hinv, ⟨fun name => ?_, ?_, ?_⟩⟩
  · have htable : table s'.disk r = table s.disk r :=
      table_congr (hdisk.mono fun y hy => h.map_apart h.rootOwner (by decide) (Or.inr hy))
    rw [htable]
    exact ha.names name
  · rw [hh, ← ha.handles]
    rfl
  · intro sec e he hle
    have he₀ := howner sec e he
    rw [contentOf_congr (hdisk.mono fun y hy => (h.file_apart he₀ hle (Or.inr hy)).1)]
    exact ha.content sec e he₀ hle

theorem simulated_denyWrite (h : FsInv s (fun _ => 0) live p d r owner) (ha : Abstracts s st r owner)
    (hx : handleOf s f = some x) : Simulated s ⟨.denyWrite f, alloc, memory⟩ st d r := by
  obtain ⟨s', hrun, hinv, hdisk, hh⟩ := h.fileDenyWrite hx
  exact ⟨_, s', _, live, p, owner, (Prog.run_bind_ok hrun).trans rfl, .denied (by rw [ha.handles, hx]), hinv,
    ha.setHandle hdisk hh⟩

theorem simulated_allowWrite (h : FsInv s (fun _ => 0) live p d r owner) (ha : Abstracts s st r owner)
    (hx : handleOf s f = some x) : Simulated s ⟨.allowWrite f, alloc, memory⟩ st d r := by
  obtain ⟨s', hrun, hinv, hdisk, hh⟩ := h.fileAllowWrite hx
  exact ⟨_, s', _, live, p, owner, (Prog.run_bind_ok hrun).trans rfl, .allowed (by rw [ha.handles, hx]), hinv,
    ha.setHandle hdisk hh⟩

theorem simulated_seek (h : FsInv s (fun _ => 0) live p d r owner) (ha : Abstracts s st r owner)
    (hx : handleOf s f = some x) : Simulated s ⟨.seek f pos, alloc, memory⟩ st d r := by
  obtain ⟨s', hrun, hinv, hdisk, hh⟩ := h.fileSeek hx pos
  exact ⟨_, s', _, live, p, owner, (Prog.run_bind_ok hrun).trans rfl, .sought (by rw [ha.handles, hx]), hinv,
    ha.setHandle hdisk hh⟩

theorem simulated_read (h : FsInv s (fun _ => 0) live p d r owner) (ha : Abstracts s st r owner)
    (hx : handleOf s f = some x) : Simulated s ⟨.read f size, alloc, memory⟩ st d r := by
  obtain ⟨s', e, he, hle, hrun, hinv, hdisk, hh⟩ := h.fileRead hx size
  rw [← ha.content _ e he hle] at hrun hh
  exact ⟨_, s', _, live, p, owner, (Prog.run_bind_ok hrun).trans rfl, .read (by rw [ha.handles, hx]), hinv,
    ha.setHandle hdisk hh⟩

theorem simulated_readAt (h : FsInv s (fun _ => 0) live p d r owner) (ha : Abstracts s st r owner)
    (hx : handleOf s f = some x) : Simulated s ⟨.readAt f size ofs, alloc, memory⟩ st d r := by
  obtain ⟨e, he, hle, hrun⟩ := h.fileReadAt hx size ofs
  rw [← ha.content _ e he hle] at hrun
  exact ⟨_, s, st, live, p, owner, (Prog.run_bind_ok hrun).trans rfl, .readAt (by rw [ha.handles, hx]), h, ha⟩

/-- The root directory is not written with a file. -/
theorem FsInv.table_written (h : FsInv s refs live p d r owner) (hle : 2 ≤ x.id)
    (hw : Written s s' owner x e ofs bytes) : table s'.disk r = table s.disk r := by
  have hroot := hw.other _ _ (by unfold ROOT_DIR_SECTOR; omega) h.rootOwner
  unfold table slots
  refine congrArg _ (List.map_congr_left fun k hk => ?_)
  have hentry := entry_le (List.mem_range.mp hk)
  have hbytes : ∀ disk : Nat → Sector, fileBytes disk r.start (k * ENTRY_SIZE) ENTRY_SIZE =
      slice (contentOf disk r) (k * ENTRY_SIZE) ENTRY_SIZE := by
    intro disk
    rw [slice_contentOf, transferred, Nat.min_eq_left (by omega)]
  rw [hbytes, hbytes, hroot]

theorem simulated_write (h : FsInv s (fun _ => 0) live p d r owner) (ha : Abstracts s st r owner)
    (hx : handleOf s f = some x) : Simulated s ⟨.write f bytes, alloc, memory⟩ st d r := by
  have hx' : st.handles f = some x := by rw [ha.handles, hx]
  obtain ⟨e, he, hle, ⟨hdeny, hrun⟩ | ⟨hfree, s', hrun, hinv, hw, hh⟩⟩ := h.fileWrite hx bytes
  · exact ⟨_, s, st, live, p, owner, (Prog.run_bind_ok hrun).trans rfl,
      .notWrote hx' ((ha.denied_iff _).mpr hdeny), h, ha⟩
  · rw [← ha.content _ e he hle] at hrun hh
    obtain ⟨hnames, hcontent⟩ := ha.setContent (h.table_written hle hw) he hle hw
    refine ⟨_, s', _, live, p, owner, (Prog.run_bind_ok hrun).trans rfl,
      .wrote hx' fun hc => hfree ((ha.denied_iff _).mp hc), hinv, ⟨hnames, ?_, hcontent⟩⟩
    rw [hh, ← ha.handles]
    rfl

theorem simulated_writeAt (h : FsInv s (fun _ => 0) live p d r owner) (ha : Abstracts s st r owner)
    (hx : handleOf s f = some x) : Simulated s ⟨.writeAt f bytes ofs, alloc, memory⟩ st d r := by
  have hx' : st.handles f = some x := by rw [ha.handles, hx]
  obtain ⟨e, he, hle, ⟨hdeny, hrun⟩ | ⟨hfree, s', hrun, hinv, hw, hh⟩⟩ := h.fileWriteAt hx bytes ofs
  · exact ⟨_, s, st, live, p, owner, (Prog.run_bind_ok hrun).trans rfl,
      .notWroteAt hx' ((ha.denied_iff _).mpr hdeny), h, ha⟩
  · rw [← ha.content _ e he hle] at hrun
    obtain ⟨hnames, hcontent⟩ := ha.setContent (h.table_written hle hw) he hle hw
    refine ⟨_, s', _, live, p, owner, (Prog.run_bind_ok hrun).trans rfl,
      .wroteAt hx' fun hc => hfree ((ha.denied_iff _).mp hc), hinv, ⟨hnames, ?_, hcontent⟩⟩
    rw [hh]
    exact ha.handles

theorem simulated_tell (h : FsInv s (fun _ => 0) live p d r owner) (ha : Abstracts s st r owner)
    (hx : handleOf s f = some x) : Simulated s ⟨.tell f, alloc, memory⟩ st d r := by
  have hx' : st.handles f = some x := by rw [ha.handles, hx]
  obtain ⟨-, file, i, hf, -, rfl, -, -⟩ := h.handle hx
  have hrun : (fileTell f).run s = .ok (file.pos, s) := by
    rw [fileTell, Prog.run_bind_ok (run_derefFile hf)]
    rfl
  exact ⟨_, s, st, live, p, owner, (Prog.run_bind_ok hrun).trans rfl, .told hx', h, ha⟩

theorem simulated_length (h : FsInv s (fun _ => 0) live p d r owner) (ha : Abstracts s st r owner)
    (hx : handleOf s f = some x) : Simulated s ⟨.length f, alloc, memory⟩ st d r := by
  have hx' : st.handles f = some x := by rw [ha.handles, hx]
  obtain ⟨-, file, i, hf, hi, rfl, hle, he⟩ := h.handle hx
  have hlen : (st.content i.sector).length = i.data.length.toNat := by
    rw [ha.content _ _ he hle, length_contentOf]
  refine ⟨_, s, st, live, p, owner, (Prog.run_bind_ok (run_fileLength hf hi)).trans rfl, ?_, h, ha⟩
  rw [← hlen]
  exact .measured hx'

theorem simulated_restart (h : FsInv s (fun _ => 0) live p d r owner) (ha : Abstracts s st r owner)
    (hblock : memory.block.length = elemCnt s.capacity) (hstack : memory.stack.length = ENTRY_SIZE) :
    Simulated s ⟨.restart, alloc, memory⟩ st d r := by
  obtain ⟨s', f, hrun, hinv, hdisk, -, hh⟩ := h.restart hblock hstack memory.freeMap memory.inode
  refine ⟨_, s', _, [f], 0, _, (Prog.run_bind_ok hrun).trans rfl, .restarted, hinv, ⟨fun name => ?_, hh.symm, ?_⟩⟩
  · rw [hdisk]
    exact ha.names name
  · intro sec e he hle
    rw [hdisk]
    exact ha.content sec e (namedOwners_some he) hle

/-- **One call** is one of the store. -/
theorem simulated (h : FsInv s (fun _ => 0) live p d r owner) (ha : Abstracts s st r owner) {l} {a : Request}
    (hp : Session.Proper ⟨s, l⟩ a) : Simulated s a st d r := by
  obtain ⟨call, alloc, memory⟩ := a
  have handle : ∀ {f}, handleOf s f ≠ none → ∃ x, handleOf s f = some x := Option.ne_none_iff_exists'.mp
  obtain ⟨hon, hblock, hstack⟩ := hp
  cases call with
  | create name size => exact simulated_create h ha hon
  | remove name => exact simulated_remove h ha
  | openName name => exact simulated_open h ha
  | reopen f =>
    obtain ⟨x, hx⟩ := handle hon
    exact simulated_reopen h ha hx
  | duplicate f =>
    obtain ⟨x, hx⟩ := handle hon
    exact simulated_duplicate h ha hx
  | close f =>
    obtain ⟨x, hx⟩ := handle hon
    exact simulated_close h ha hx
  | denyWrite f =>
    obtain ⟨x, hx⟩ := handle hon
    exact simulated_denyWrite h ha hx
  | allowWrite f =>
    obtain ⟨x, hx⟩ := handle hon
    exact simulated_allowWrite h ha hx
  | read f size =>
    obtain ⟨x, hx⟩ := handle hon
    exact simulated_read h ha hx
  | write f bytes =>
    obtain ⟨x, hx⟩ := handle hon
    exact simulated_write h ha hx
  | readAt f size ofs =>
    obtain ⟨x, hx⟩ := handle hon
    exact simulated_readAt h ha hx
  | writeAt f bytes ofs =>
    obtain ⟨x, hx⟩ := handle hon
    exact simulated_writeAt h ha hx
  | seek f pos =>
    obtain ⟨x, hx⟩ := handle hon
    exact simulated_seek h ha hx
  | tell f =>
    obtain ⟨x, hx⟩ := handle hon
    exact simulated_tell h ha hx
  | length f =>
    obtain ⟨x, hx⟩ := handle hon
    exact simulated_length h ha hx
  | restart => exact simulated_restart h ha hblock hstack

/-! ## Every run -/

/-- The state of a run: in order, and a store that replied the same. -/
def Session.Ok (d r : InodeDisk) (s : Session) : Prop :=
  ∃ st live p owner, FsInv s.fs (fun _ => 0) live p d r owner ∧ Abstracts s.fs st r owner ∧
    Run 0 Store.empty s.log st

theorem Session.Ok.step {u : Session} {a : Request} (h : u.Ok d r) (hp : u.Proper a) :
    ∃ u', u.step a = .ok u' ∧ u'.Ok d r := by
  obtain ⟨st, live, p, owner, hinv, ha, hrun⟩ := h
  obtain ⟨reply, s', st', live', p', owner', hperform, hstep, hinv', ha'⟩ := simulated hinv ha (l := u.log) hp
  refine ⟨{ fs := s', log := u.log ++ [(a.call, reply)] }, ?_, st', live', p', owner', hinv', ha', .snoc hrun hstep⟩
  rw [Session.step, hperform]

theorem Session.Ok.of_reach {u₀ u : Session} (h₀ : u₀.Ok d r) (h : Reach Session.step Session.Proper u₀ u) :
    u.Ok d r := by
  refine h.invariant (I := fun u => u.Ok d r) h₀ fun u a u' hu hp hstep => ?_
  obtain ⟨t, ht, hok⟩ := hu.step hp
  rw [ht] at hstep
  cases hstep
  exact hok

/-- **Formatting** leaves a session in which nothing was called. -/
theorem session_ok {block : List (BitVec 64)} {stack : List Byte} (hf : Formattable capacity) (hcap : capacity ≤ 2 ^ 28)
    (hblock : block.length = elemCnt capacity) (hstack : stack.length = ENTRY_SIZE) (disk : Nat → Sector)
    (freeMap : WordBitmap) (inode : InodeDisk) :
    ∃ fs₀, (filesysInit true block).run (FileSys.boot disk capacity freeMap stack inode) = .ok ((), fs₀) ∧
      Session.Ok (mapData capacity) (rootData capacity) { fs := fs₀, log := [] } := by
  obtain ⟨fs₀, hrun, hformatted⟩ := format_spec hf hblock disk freeMap stack inode
  obtain ⟨hinv, hnames⟩ := hformatted.fsInv hf hcap hstack
  refine ⟨fs₀, hrun, Store.empty, _, _, _, hinv, ⟨fun name => (hnames _).symm, ?_, fun sec e he hle => ?_⟩, .refl⟩
  · exact (handleOf_mapOnly hformatted.freeMapFile hformatted.files).symm
  · rw [update_of_ne (by unfold ROOT_DIR_SECTOR; omega), update_of_ne (by unfold FREE_MAP_SECTOR; omega)] at he
    cases he

/-- **The file system is a store of files**: from formatting on, the replies of any calls are those of a
store, whatever files are open, removed or protected and wherever the kernel is restarted; the store is on the
disk, and no call fails. -/
theorem file_system_is_a_store {block : List (BitVec 64)} {stack : List Byte} (hf : Formattable capacity)
    (hcap : capacity ≤ 2 ^ 28) (hblock : block.length = elemCnt capacity) (hstack : stack.length = ENTRY_SIZE)
    (disk : Nat → Sector) (freeMap : WordBitmap) (inode : InodeDisk) :
    ∃ fs₀, (filesysInit true block).run (FileSys.boot disk capacity freeMap stack inode) = .ok ((), fs₀) ∧
      ∀ u : Session, Reach Session.step Session.Proper { fs := fs₀, log := [] } u →
        (∃ st, Run 0 Store.empty u.log st ∧ Represents u.fs st) ∧
        ∀ a, u.Proper a → ∃ u', u.step a = .ok u' := by
  obtain ⟨fs₀, hrun, h₀⟩ := session_ok hf hcap hblock hstack disk freeMap inode
  refine ⟨fs₀, hrun, fun u hu => ?_⟩
  have hok := Session.Ok.of_reach h₀ hu
  refine ⟨?_, fun a hp => ?_⟩
  · obtain ⟨st, live, p, owner, hinv, ha, hlog⟩ := hok
    exact ⟨st, hlog, ha.represents hinv⟩
  · obtain ⟨u', hstep, -⟩ := hok.step hp
    exact ⟨u', hstep⟩

/-- A disk with 64 sectors. -/
theorem file_system_is_a_store_small : ∃ fs₀,
    (filesysInit true [0]).run
      (FileSys.boot (fun _ _ => 0xff) 64 ⟨0, []⟩ (List.replicate 20 0) ⟨0, 0⟩) = .ok ((), fs₀) ∧
      ∀ u : Session, Reach Session.step Session.Proper { fs := fs₀, log := [] } u →
        (∃ st, Run 0 Store.empty u.log st ∧ Represents u.fs st) ∧
        ∀ a, u.Proper a → ∃ u', u.step a = .ok u' :=
  file_system_is_a_store formattable_small (by decide) rfl rfl _ _ _

/-! ## The sectors of the files -/

/-- The sectors with the inodes of the free map, of the root directory, and of the files with a name or a
handle. -/
def InUse (s : FileSys) (sec : Nat) : Prop :=
  sec = FREE_MAP_SECTOR ∨ sec = ROOT_DIR_SECTOR ∨ (∃ name, namesOf s name = some sec) ∨
    ∃ f x, handleOf s f = some x ∧ x.id = sec

/-- No sector is shared, and the free map has them all, in memory and on the disk. -/
structure Tidy (s : FileSys) : Prop where
  used : ∀ sec x, InUse s sec → Occupies sec (inodeAt s sec) x →
    x < s.capacity ∧ s.freeMap.bits[x]? = some true
  apart : ∀ sec sec' x, InUse s sec → InUse s sec' → sec ≠ sec' → Occupies sec (inodeAt s sec) x →
    ¬ Occupies sec' (inodeAt s sec') x
  names : ∀ name name' sec, namesOf s name = some sec → namesOf s name' = some sec → name = name'
  /-- What is in memory is what the disk has. -/
  cached : ∀ q i, s.inodes q = some i → i.data = inodeAt s i.sector
  stored : (storedMap s (inodeAt s FREE_MAP_SECTOR)).bits = s.freeMap.bits

theorem Session.Ok.tidy {u : Session} (h : u.Ok d r) : Tidy u.fs := by
  obtain ⟨st, live, p, owner, hinv, ha, hrun⟩ := h
  have hrep := ha.represents hinv
  have howner : ∀ {sec}, InUse u.fs sec → owner sec = some (inodeAt u.fs sec) := by
    have hsome : ∀ {sec e}, owner sec = some e → owner sec = some (inodeAt u.fs sec) := by
      intro sec e he
      rw [he, inodeAt, hinv.owned.sector sec e he]
    have hlive : ∀ {sec}, st.Live sec → owner sec = some (inodeAt u.fs sec) := by
      intro sec hl
      obtain ⟨-, e, he⟩ := ha.owner_of_live hinv hl
      exact hsome he
    rintro sec (rfl | rfl | ⟨name, hname⟩ | hhandle)
    · exact hsome hinv.mapOwner
    · exact hsome hinv.rootOwner
    · exact hlive (Or.inl ⟨name, by rw [hrep.names]; exact hname⟩)
    · exact hlive (Or.inr (by rw [hrep.handles]; exact hhandle))
  constructor
  case used =>
    intro sec x hsec hx
    have hused := hinv.owned.used _ _ x (howner hsec) hx
    obtain ⟨hlt, -⟩ := List.getElem?_eq_some_iff.mp hused
    rw [WordBitmap.length_bits, hinv.bitCnt] at hlt
    exact ⟨hlt, hused⟩
  case apart => exact fun sec sec' x hsec hsec' hne =>
    hinv.owned.apart sec _ sec' _ x (howner hsec) (howner hsec') hne
  case names =>
    have hplain := hrun.plain (by rintro k k' id hk; cases hk)
    rw [← hrep.names]
    exact hplain
  case cached =>
    intro q i hq
    rw [inodeAt, hinv.owned.sector _ _ (hinv.inode q i hq)]
  case stored =>
    rw [inodeAt, hinv.owned.sector _ _ hinv.mapOwner]
    exact hinv.stored

/-- **No sector is shared** by two files, the free map and the root directory, and all that they have are in use,
in every state that is reached from formatting on; files that were removed keep theirs until they are
closed. -/
theorem live_files_apart {block : List (BitVec 64)} {stack : List Byte} (hf : Formattable capacity)
    (hcap : capacity ≤ 2 ^ 28) (hblock : block.length = elemCnt capacity) (hstack : stack.length = ENTRY_SIZE)
    (disk : Nat → Sector) (freeMap : WordBitmap) (inode : InodeDisk) :
    ∃ fs₀, (filesysInit true block).run (FileSys.boot disk capacity freeMap stack inode) = .ok ((), fs₀) ∧
      ∀ u : Session, Reach Session.step Session.Proper { fs := fs₀, log := [] } u → Tidy u.fs := by
  obtain ⟨fs₀, hrun, h₀⟩ := session_ok hf hcap hblock hstack disk freeMap inode
  exact ⟨fs₀, hrun, fun u hu => (Session.Ok.of_reach h₀ hu).tidy⟩

theorem live_files_apart_small : ∃ fs₀,
    (filesysInit true [0]).run
      (FileSys.boot (fun _ _ => 0xff) 64 ⟨0, []⟩ (List.replicate 20 0) ⟨0, 0⟩) = .ok ((), fs₀) ∧
      ∀ u : Session, Reach Session.step Session.Proper { fs := fs₀, log := [] } u → Tidy u.fs :=
  live_files_apart formattable_small (by decide) rfl rfl _ _ _

/-! ## Protected files -/

/-- What is read does not change while `f` is open and protects its file. -/
def ReadsSame (u u' : Session) (f : FilePtr) : Prop :=
  ∀ size ofs, ∃ bytes, (fileReadAt f size ofs).run u.fs = .ok (bytes, u.fs) ∧
    (fileReadAt f size ofs).run u'.fs = .ok (bytes, u'.fs)

/-- What a sealed file has is read. -/
theorem Abstracts.read_sealed (ha : Abstracts s st r owner) (h : FsInv s refs live p d r owner) {id : Nat}
    {l : List Byte} (hs : st.Sealed f id l) (size ofs : Nat) :
    (fileReadAt f size ofs).run s = .ok (slice l ofs size, s) := by
  obtain ⟨x, hx, rfl, -, rfl⟩ := hs
  rw [ha.handles] at hx
  obtain ⟨e, he, hle, hrun⟩ := h.fileReadAt hx size ofs
  rw [hrun, ha.content _ e he hle]

theorem Session.Ok.sealed {u u' : Session} (h : u.Ok d r) (hx : handleOf u.fs f = some x) (hdeny : x.deny = true)
    (hu : Reach Session.step (fun u a => u.Proper a ∧ ¬ a.call.Unseals f) u u') : ReadsSame u u' f := by
  obtain ⟨st, live, p, owner, hinv, ha, hrun⟩ := h
  have hs : st.Sealed f x.id (st.content x.id) := ⟨x, by rw [ha.handles]; exact hx, rfl, hdeny, rfl⟩
  -- the file stays sealed, with the content it has now
  have hall : ∃ st' live p owner, FsInv u'.fs (fun _ => 0) live p d r owner ∧ Abstracts u'.fs st' r owner ∧
      st'.Sealed f x.id (st.content x.id) := by
    refine hu.invariant (I := fun u => ∃ st' live p owner, FsInv u.fs (fun _ => 0) live p d r owner ∧
      Abstracts u.fs st' r owner ∧ st'.Sealed f x.id (st.content x.id)) ⟨st, live, p, owner, hinv, ha, hs⟩ ?_
    rintro v a v' ⟨st₁, live₁, p₁, owner₁, hinv₁, ha₁, hs₁⟩ ⟨hp, hc⟩ hstep
    obtain ⟨reply, s', st', live', p', owner', hperform, hstore, hinv', ha'⟩ := simulated hinv₁ ha₁ (l := v.log) hp
    rw [Session.step, hperform] at hstep
    cases hstep
    exact ⟨st', live', p', owner', hinv', ha', hs₁.step hstore hc⟩
  obtain ⟨st', live', p', owner', hinv', ha', hs'⟩ := hall
  exact fun size ofs => ⟨_, ha.read_sealed hinv hs size ofs, ha'.read_sealed hinv' hs' size ofs⟩

/-- **A protected file does not change**: from formatting on, whatever is called while a handle protects its
file, by others or on the handle itself, the same is read from it. -/
theorem protected_file_unchanged {block : List (BitVec 64)} {stack : List Byte} (hf : Formattable capacity)
    (hcap : capacity ≤ 2 ^ 28) (hblock : block.length = elemCnt capacity) (hstack : stack.length = ENTRY_SIZE)
    (disk : Nat → Sector) (freeMap : WordBitmap) (inode : InodeDisk) :
    ∃ fs₀, (filesysInit true block).run (FileSys.boot disk capacity freeMap stack inode) = .ok ((), fs₀) ∧
      ∀ u : Session, Reach Session.step Session.Proper { fs := fs₀, log := [] } u →
        ∀ f x, handleOf u.fs f = some x → x.deny = true → ∀ u',
          Reach Session.step (fun u a => u.Proper a ∧ ¬ a.call.Unseals f) u u' → ReadsSame u u' f := by
  obtain ⟨fs₀, hrun, h₀⟩ := session_ok hf hcap hblock hstack disk freeMap inode
  exact ⟨fs₀, hrun, fun u hu f x hx hdeny u' hu' => (Session.Ok.of_reach h₀ hu).sealed hx hdeny hu'⟩

/-- The calls on a disk with 64 sectors, with memory for every file. -/
def smallRequest (call : Call CStr FilePtr Byte) : Request where
  call := call
  alloc := true
  memory := { block := [0], freeMap := ⟨0, []⟩, stack := List.replicate 20 0, inode := ⟨0, 0⟩ }

def properCheck (u : Session) (a : Request) : Bool :=
  decide (Session.On u.fs a.call) && decide (a.memory.block.length = elemCnt u.fs.capacity) &&
    decide (a.memory.stack.length = ENTRY_SIZE)

theorem proper_of_check (u : Session) (a : Request) (h : properCheck u a = true) : u.Proper a := by
  simp only [properCheck, Bool.and_eq_true, decide_eq_true_eq] at h
  exact ⟨h.1.1, h.1.2, h.2⟩

/-- A file is written and protected, and then somebody else opens it, writes to it and removes it. -/
theorem protected_file_unchanged_others : ∃ fs₀ u x u',
    (filesysInit true [0]).run
      (FileSys.boot (fun _ _ => 0xff) 64 ⟨0, []⟩ (List.replicate 20 0) ⟨0, 0⟩) = .ok ((), fs₀) ∧
      Reach Session.step Session.Proper { fs := fs₀, log := [] } u ∧ handleOf u.fs 7 = some x ∧ x.deny = true ∧
      Reach Session.step (fun u a => u.Proper a ∧ ¬ a.call.Unseals 7) u u' ∧ u'.log.length = 7 ∧ ReadsSame u u' 7 := by
  obtain ⟨fs₀, hinit, hall⟩ := @protected_file_unchanged 64 [0] (List.replicate 20 0) formattable_small
    (by decide) rfl rfl (fun _ _ => 0xff) ⟨0, []⟩ ⟨0, 0⟩
  have hrun : ((filesysInit true [0]).run
      (FileSys.boot (fun _ _ => 0xff) 64 ⟨0, []⟩ (List.replicate 20 0) ⟨0, 0⟩)).toOption.any (fun r =>
      ((execIf Session.step properCheck { fs := r.2, log := [] } ([.create ⟨[97], CStr.noNul_a⟩ 5,
        .openName ⟨[97], CStr.noNul_a⟩, .write 7 [1, 2, 3], .denyWrite 7].map smallRequest)).any fun u =>
      (handleOf u.fs 7).any (·.deny) &&
      ((execIf Session.step (fun u a => properCheck u a && decide (¬ a.call.Unseals 7)) u
        ([.openName ⟨[97], CStr.noNul_a⟩, .write 9 [7], .remove ⟨[97], CStr.noNul_a⟩].map smallRequest)).any fun u' =>
      decide (u'.log.length = 7)))) = true := by
    decide +kernel
  rw [hinit] at hrun
  obtain ⟨u, hu, hcheck⟩ := exists_of_execIf proper_of_check _ hrun
  obtain ⟨hdeny, hmore⟩ := Bool.and_eq_true_iff.mp hcheck
  obtain ⟨x, hx, hxdeny⟩ := (Option.any_eq_true _ _).mp hdeny
  obtain ⟨u', hu', hlen⟩ := exists_of_execIf (C := fun u a => u.Proper a ∧ ¬ a.call.Unseals 7) (fun v a h => by
    obtain ⟨hp, hc⟩ := Bool.and_eq_true_iff.mp h
    exact ⟨proper_of_check v a hp, of_decide_eq_true hc⟩) _ hmore
  exact ⟨fs₀, u, x, u', hinit, hu, hx, hxdeny, hu', of_decide_eq_true hlen, hall u hu 7 x hx hxdeny u' hu'⟩

end Pintos
