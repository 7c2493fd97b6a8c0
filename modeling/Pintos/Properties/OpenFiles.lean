import Mathlib.Data.List.Count
import Pintos.Lib.Machine
import Pintos.Filesys.Inode

/-!
# Open inodes and files

The counters of `struct inode`, in every run of calls that open, close, duplicate and protect files
on any number of inodes, where the allocation of an inode or a file may fail at any point.

* `OpenFiles` — the machine: what is open, and the references of which no file has taken ownership
* `Counts` — the counters are the numbers of open handles
* `open_files_counted` — in every reachable state, and writing is refused where a handle denies it
-/

namespace Pintos

open Function Machine LittleEndian

/-- The file `f` is on the inode `p`. -/
def onInode (files : FilePtr → Option File) (p : InodePtr) (f : FilePtr) : Bool :=
  match files f with
  | none => false
  | some file => file.inode = p

/-- The file `f` denies writes to the inode `p`. -/
def denies (files : FilePtr → Option File) (p : InodePtr) (f : FilePtr) : Bool :=
  match files f with
  | none => false
  | some file => decide (file.inode = p) && file.denyWrite

/-! ## The machine -/

structure OpenFiles extends FileSys where
  /-- References to an inode from `inode_open` and `inode_reopen` that no `struct file` owns. -/
  refs : InodePtr → Nat
  /-- The files that are not closed. -/
  live : List FilePtr

inductive FileAction where
  | inodeOpen (sector : Nat) (alloc : Bool)
  | inodeReopen (p : InodePtr)
  | inodeClose (p : InodePtr)
  | fileOpen (p : InodePtr) (alloc : Bool)
  | fileReopen (f : FilePtr) (alloc : Bool)
  | fileDuplicate (f : FilePtr) (alloc : Bool)
  | fileDenyWrite (f : FilePtr)
  | fileAllowWrite (f : FilePtr)
  | fileClose (f : FilePtr)

namespace OpenFiles

/-- Before anything is opened: after `inode_init`. -/
def boot (disk : Nat → Sector) (capacity : Nat) (freeMap : WordBitmap) (block : InodeDisk) : OpenFiles where
  disk := disk
  capacity := capacity
  freeMap := freeMap
  freeMapFile := none
  openInodes := []
  inodes := fun _ => none
  files := fun _ => none
  brk := 0
  stack := []
  block := block
  refs := fun _ => 0
  live := []

/-- The machine after a call that returned `r`. -/
def after {α : Type} (s : OpenFiles) (r : Except FsFault (α × FileSys))
    (next : OpenFiles → α → OpenFiles) : Except FsFault OpenFiles :=
  match r with
  | .error e => .error e
  | .ok (a, fs) => .ok (next { s with toFileSys := fs } a)

/-- A new file, if there is one. -/
def addFile (s : OpenFiles) : Option FilePtr → OpenFiles
  | none => s
  | some f => { s with live := f :: s.live }

def addRef (s : OpenFiles) (p : InodePtr) : OpenFiles :=
  { s with refs := update s.refs p (s.refs p + 1) }

def dropRef (s : OpenFiles) (p : InodePtr) : OpenFiles :=
  { s with refs := update s.refs p (s.refs p - 1) }

/-- A call on a reference or a file that its caller holds. -/
def step (s : OpenFiles) : FileAction → Except FsFault OpenFiles
  | .inodeOpen sector alloc =>
    s.after ((Pintos.inodeOpen sector alloc).run s.toFileSys) fun s p =>
      match p with
      | none => s
      | some p => s.addRef p
  | .inodeReopen p =>
    if s.refs p = 0 then .error .disabled
    else s.after ((Pintos.inodeReopen p).run s.toFileSys) fun s _ => s.addRef p
  | .inodeClose p =>
    if s.refs p = 0 then .error .disabled
    else s.after ((Pintos.inodeClose (some p)).run s.toFileSys) fun s _ => s.dropRef p
  | .fileOpen p alloc =>
    if s.refs p = 0 then .error .disabled
    else s.after ((Pintos.fileOpen (some p) alloc).run s.toFileSys) fun s f => (s.dropRef p).addFile f
  | .fileReopen f alloc =>
    if f ∉ s.live then .error .disabled
    else s.after ((Pintos.fileReopen f alloc).run s.toFileSys) fun s g => s.addFile g
  | .fileDuplicate f alloc =>
    if f ∉ s.live then .error .disabled
    else s.after ((Pintos.fileDuplicate f alloc).run s.toFileSys) fun s g => s.addFile g
  | .fileDenyWrite f =>
    if f ∉ s.live then .error .disabled
    else s.after ((Pintos.fileDenyWrite f).run s.toFileSys) fun s _ => s
  | .fileAllowWrite f =>
    if f ∉ s.live then .error .disabled
    else s.after ((Pintos.fileAllowWrite f).run s.toFileSys) fun s _ => s
  | .fileClose f =>
    if f ∉ s.live then .error .disabled
    else s.after ((Pintos.fileClose (some f)).run s.toFileSys) fun s _ => { s with live := s.live.erase f }

end OpenFiles

/-! ## Counting -/

/-- A predicate that changes at one element of a list without duplicates. -/
theorem countP_change {l : List FilePtr} {f : FilePtr} {P Q : FilePtr → Bool} (hn : l.Nodup)
    (hf : f ∈ l) (h : ∀ g, g ≠ f → Q g = P g) :
    l.countP Q + (P f).toNat = l.countP P + (Q f).toNat := by
  induction l with
  | nil => cases hf
  | cons g l ih =>
    obtain ⟨hg, hn⟩ := List.nodup_cons.mp hn
    rw [List.countP_cons, List.countP_cons]
    by_cases hgf : g = f
    · subst hgf
      have hrest : l.countP Q = l.countP P := by
        refine List.countP_congr fun x hx => ?_
        rw [h x (fun hc => hg (hc ▸ hx))]
      rw [hrest]
      cases P g <;> cases Q g <;> simp
    · have hmem : f ∈ l := (List.mem_cons.mp hf).resolve_left (Ne.symm hgf)
      rw [h g hgf]
      have hih := ih hn hmem
      omega

theorem countP_same {l : List FilePtr} {f : FilePtr} {P Q : FilePtr → Bool} (hf : f ∉ l)
    (h : ∀ g, g ≠ f → Q g = P g) : l.countP Q = l.countP P :=
  List.countP_congr fun x hx => by rw [h x fun hc => hf (hc ▸ hx)]

/-- The counters of every inode are right. -/
structure Counts (s : FileSys) (refs : InodePtr → Nat) (live : List FilePtr) : Prop where
  nodup : live.Nodup
  nodupOpen : s.openInodes.Nodup
  /-- An inode in memory is on the list, and is not there twice. -/
  listed : ∀ p, p ∈ s.openInodes ↔ s.inodes p ≠ none
  sector : ∀ p q i j, s.inodes p = some i → s.inodes q = some j → i.sector = j.sector → p = q
  /-- A file in memory is open, on an inode in memory. -/
  file : ∀ f, f ∈ live ↔ s.files f ≠ none
  inode : ∀ f file, s.files f = some file → s.inodes file.inode ≠ none
  /-- Pointers from here on were never returned. -/
  fresh : ∀ p, s.brk ≤ p → s.inodes p = none ∧ s.files p = none
  unheld : ∀ p, s.inodes p = none → refs p = 0
  count : ∀ p i, s.inodes p = some i → i.removed = false ∧ 0 < i.openCnt ∧
    i.openCnt = refs p + live.countP (onInode s.files p) ∧
    i.denyWriteCnt = live.countP (denies s.files p)

variable {s s' : FileSys} {refs refs' : InodePtr → Nat} {live : List FilePtr} {p q : InodePtr}
  {f g : FilePtr} {inode inode' : Inode} {file file' : File}

theorem onInode_some {files : FilePtr → Option File} (h : files f = some file) :
    onInode files p f = decide (file.inode = p) := by
  rw [onInode, h]

theorem denies_some {files : FilePtr → Option File} (h : files f = some file) :
    denies files p f = (decide (file.inode = p) && file.denyWrite) := by
  rw [denies, h]

theorem onInode_update_of_ne {files : FilePtr → Option File} (file : Option File) (h : g ≠ f) :
    onInode (update files f file) p g = onInode files p g := by
  simp only [onInode, update_of_ne h]

theorem denies_update_of_ne {files : FilePtr → Option File} (file : Option File) (h : g ≠ f) :
    denies (update files f file) p g = denies files p g := by
  simp only [denies, update_of_ne h]

theorem onInode_congr {files files' : FilePtr → Option File}
    (h : (files' f).map (·.inode) = (files f).map (·.inode)) :
    onInode files' p f = onInode files p f := by
  unfold onInode
  cases hf : files f <;> cases hf' : files' f <;> simp_all

/-- A file that denies is on the inode. -/
theorem denies_le (files : FilePtr → Option File) (p : InodePtr) (live : List FilePtr) :
    live.countP (denies files p) ≤ live.countP (onInode files p) := by
  refine List.countP_mono_left fun f _ hf => ?_
  unfold denies at hf
  unfold onInode
  split at hf
  · cases hf
  · rw [Bool.and_eq_true] at hf
    exact hf.1

/-- No more handles deny than there are. -/
theorem Counts.deny_le (h : Counts s refs live) (hp : s.inodes p = some inode) :
    inode.denyWriteCnt ≤ inode.openCnt := by
  obtain ⟨-, -, hopen, hdeny⟩ := h.count p inode hp
  have hle := denies_le s.files p live
  omega

/-- The inode `p` and the files on it change, but not where they are. -/
theorem Counts.change (h : Counts s refs live) (hp : s.inodes p = some inode) (inode' : Inode)
    (hsector : inode'.sector = inode.sector) {files : FilePtr → Option File}
    (hfiles : ∀ f, (files f).map (·.inode) = (s.files f).map (·.inode))
    (hdeny : ∀ q, q ≠ p → live.countP (denies files q) = live.countP (denies s.files q))
    (hrefs : ∀ q, q ≠ p → refs' q = refs q) (hremoved : inode'.removed = false)
    (hpos : 0 < inode'.openCnt)
    (hopen : inode'.openCnt = refs' p + live.countP (onInode s.files p))
    (hcnt : inode'.denyWriteCnt = live.countP (denies files p)) :
    Counts { s with inodes := update s.inodes p (some inode'), files := files } refs' live := by
  have hon : ∀ q, onInode files q = onInode s.files q := fun q => funext fun f => onInode_congr (hfiles f)
  have hnone : ∀ f, files f = none ↔ s.files f = none := by
    intro f
    rw [← Option.map_eq_none_iff (f := (·.inode)), hfiles f, Option.map_eq_none_iff]
  have hiff : ∀ q, update s.inodes p (some inode') q = none ↔ s.inodes q = none := by
    intro q
    by_cases hq : q = p
    · subst hq
      simp [hp]
    · rw [update_of_ne hq]
  have hget : ∀ q i, update s.inodes p (some inode') q = some i →
      ∃ j, s.inodes q = some j ∧ j.sector = i.sector := by
    intro q i hi
    by_cases hq : q = p
    · subst hq
      rw [update_self] at hi
      cases hi
      exact ⟨inode, hp, hsector.symm⟩
    · rw [update_of_ne hq] at hi
      exact ⟨i, hi, rfl⟩
  constructor
  case nodup => exact h.nodup
  case nodupOpen => exact h.nodupOpen
  case listed => exact fun q => (h.listed q).trans (not_congr (hiff q).symm)
  case sector =>
    intro q r i j hi hj hij
    obtain ⟨i', hi', hsi⟩ := hget q i hi
    obtain ⟨j', hj', hsj⟩ := hget r j hj
    exact h.sector q r i' j' hi' hj' (by rw [hsi, hsj, hij])
  case file => exact fun f => (h.file f).trans (not_congr (hnone f).symm)
  case inode =>
    intro f file hf
    have hmap := hfiles f
    rw [show files f = some file from hf, Option.map_some] at hmap
    obtain ⟨file₀, hf₀, hinode⟩ := Option.map_eq_some_iff.mp hmap.symm
    have hne := h.inode f file₀ hf₀
    rw [hinode] at hne
    exact fun hc => hne ((hiff _).mp hc)
  case fresh =>
    intro q hq
    obtain ⟨hi, hf⟩ := h.fresh q hq
    exact ⟨(hiff q).mpr hi, (hnone q).mpr hf⟩
  case unheld =>
    intro q hq
    have hqp : q ≠ p := by
      rintro rfl
      have hnew : update s.inodes q (some inode') q = none := hq
      rw [update_self] at hnew
      cases hnew
    rw [hrefs q hqp]
    exact h.unheld q ((hiff q).mp hq)
  case count =>
    intro q i hi
    show _ ∧ _ ∧ i.openCnt = refs' q + (live.countP (onInode files q) : Nat) ∧
      i.denyWriteCnt = (live.countP (denies files q) : Nat)
    rw [hon q]
    have hi' : update s.inodes p (some inode') q = some i := hi
    by_cases hq : q = p
    · subst hq
      rw [update_self] at hi'
      cases hi'
      exact ⟨hremoved, hpos, hopen, hcnt⟩
    · rw [update_of_ne hq] at hi'
      rw [hrefs q hq, hdeny q hq]
      exact h.count q i hi'

/-- An inode that was not in memory. -/
theorem Counts.newInode (h : Counts s refs live) (hnew : inode.openCnt = 1)
    (hremoved : inode.removed = false) (hdeny : inode.denyWriteCnt = 0)
    (hsector : ∀ q i, s.inodes q = some i → i.sector ≠ inode.sector) :
    Counts { s.setInode s.brk (some inode) with
        openInodes := s.brk :: s.openInodes
        brk := s.brk + 1 }
      (update refs s.brk (refs s.brk + 1)) live := by
  obtain ⟨hbrk, -⟩ := h.fresh s.brk (Nat.le_refl _)
  -- no file is on the new inode
  have hoff : ∀ f ∈ live, onInode s.files s.brk f = false := by
    intro f _
    unfold onInode
    split
    · rfl
    · next file hf =>
      refine decide_eq_false fun hc => ?_
      exact h.inode f file hf (by rw [hc, hbrk])
  have hon : live.countP (onInode s.files s.brk) = 0 :=
    List.countP_eq_zero.mpr fun f hf => by simp [hoff f hf]
  have hden : live.countP (denies s.files s.brk) = 0 := by
    have hle := denies_le s.files s.brk live
    omega
  constructor
  case nodup => exact h.nodup
  case nodupOpen =>
    refine List.nodup_cons.mpr ⟨fun hc => ?_, h.nodupOpen⟩
    exact (h.listed _).mp hc hbrk
  case listed =>
    intro q
    show q ∈ s.brk :: s.openInodes ↔ update s.inodes s.brk (some inode) q ≠ none
    by_cases hq : q = s.brk
    · simp [hq]
    · rw [update_of_ne hq, List.mem_cons, or_iff_right hq]
      exact h.listed q
  case sector =>
    intro q r i j hi hj hij
    have hi' : update s.inodes s.brk (some inode) q = some i := hi
    have hj' : update s.inodes s.brk (some inode) r = some j := hj
    by_cases hq : q = s.brk <;> by_cases hr : r = s.brk
    · rw [hq, hr]
    · rw [hq, update_self] at hi'
      rw [update_of_ne hr] at hj'
      cases hi'
      exact absurd hij.symm (hsector r j hj')
    · rw [hr, update_self] at hj'
      rw [update_of_ne hq] at hi'
      cases hj'
      exact absurd hij (hsector q i hi')
    · rw [update_of_ne hq] at hi'
      rw [update_of_ne hr] at hj'
      exact h.sector q r i j hi' hj' hij
  case file => exact h.file
  case inode =>
    intro f file hf
    show update s.inodes s.brk (some inode) file.inode ≠ none
    by_cases hq : file.inode = s.brk
    · simp [hq]
    · rw [update_of_ne hq]
      exact h.inode f file hf
  case fresh =>
    intro q (hq : s.brk + 1 ≤ q)
    show update s.inodes s.brk (some inode) q = none ∧ s.files q = none
    have hqb : q ≠ s.brk := by omega
    rw [update_of_ne hqb]
    exact h.fresh q (by omega)
  case unheld =>
    intro q hq
    have hq' : update s.inodes s.brk (some inode) q = none := hq
    by_cases hqb : q = s.brk
    · rw [hqb, update_self] at hq'
      cases hq'
    · rw [update_of_ne hqb] at hq' ⊢
      exact h.unheld q hq'
  case count =>
    intro q i hi
    have hi' : update s.inodes s.brk (some inode) q = some i := hi
    by_cases hqb : q = s.brk
    · subst hqb
      rw [update_self] at hi'
      cases hi'
      show _ ∧ _ ∧ _ = ((update refs s.brk (refs s.brk + 1) s.brk : Nat) : Int) +
        (live.countP (onInode s.files s.brk) : Nat) ∧ _ = ((live.countP (denies s.files s.brk) : Nat) : Int)
      rw [update_self, h.unheld _ hbrk, hon, hden, hnew, hdeny]
      exact ⟨hremoved, by decide, by decide, by decide⟩
    · rw [update_of_ne hqb] at hi' ⊢
      exact h.count q i hi'

/-- The last reference to an inode is given back. -/
theorem Counts.freeInode (h : Counts s refs live) (hp : s.inodes p = some inode)
    (hlast : inode.openCnt = 1) (hheld : refs p ≠ 0) :
    Counts { s.setInode p none with openInodes := s.openInodes.erase p }
      (update refs p (refs p - 1)) live := by
  obtain ⟨-, -, hopen, -⟩ := h.count p inode hp
  have href : refs p = 1 := by omega
  have hon : live.countP (onInode s.files p) = 0 := by omega
  constructor
  case nodup => exact h.nodup
  case nodupOpen => exact h.nodupOpen.erase p
  case listed =>
    intro q
    show q ∈ s.openInodes.erase p ↔ update s.inodes p none q ≠ none
    rw [h.nodupOpen.mem_erase_iff]
    by_cases hq : q = p
    · simp [hq]
    · rw [update_of_ne hq, and_iff_right hq]
      exact h.listed q
  case sector =>
    intro q r i j hi hj hij
    have hi' : update s.inodes p none q = some i := hi
    have hj' : update s.inodes p none r = some j := hj
    have hq : q ≠ p := by
      rintro rfl
      simp at hi'
    have hr : r ≠ p := by
      rintro rfl
      simp at hj'
    rw [update_of_ne hq] at hi'
    rw [update_of_ne hr] at hj'
    exact h.sector q r i j hi' hj' hij
  case file => exact h.file
  case inode =>
    intro f file hf
    show update s.inodes p none file.inode ≠ none
    have hq : file.inode ≠ p := by
      rintro hc
      have hf' : s.files f = some file := hf
      have hlive : f ∈ live := (h.file f).mpr (by simp [hf'])
      have hno := List.countP_eq_zero.mp hon f hlive
      rw [onInode_some hf'] at hno
      simp [hc] at hno
    rw [update_of_ne hq]
    exact h.inode f file hf
  case fresh =>
    intro q hq
    obtain ⟨hi, hf⟩ := h.fresh q hq
    refine ⟨?_, hf⟩
    show update s.inodes p none q = none
    by_cases hqp : q = p
    · rw [hqp, update_self]
    · rw [update_of_ne hqp, hi]
  case unheld =>
    intro q hq
    by_cases hqp : q = p
    · rw [hqp, update_self, href]
    · have hq' : update s.inodes p none q = none := hq
      rw [update_of_ne hqp] at hq' ⊢
      exact h.unheld q hq'
  case count =>
    intro q i hi
    have hi' : update s.inodes p none q = some i := hi
    have hq : q ≠ p := by
      rintro rfl
      simp at hi'
    rw [update_of_ne hq] at hi' ⊢
    exact h.count q i hi'

/-- A file takes ownership of a reference. -/
theorem Counts.newFile (h : Counts s refs live) (hp : s.inodes p = some inode) (hheld : refs p ≠ 0)
    (pos : Nat) :
    Counts { s.setFile s.brk (some { inode := p, pos := pos, denyWrite := false }) with
        brk := s.brk + 1 }
      (update refs p (refs p - 1)) (s.brk :: live) := by
  obtain ⟨-, hbrk⟩ := h.fresh s.brk (Nat.le_refl _)
  have hnot : s.brk ∉ live := fun hc => (h.file _).mp hc hbrk
  constructor
  case nodup => exact List.nodup_cons.mpr ⟨hnot, h.nodup⟩
  case nodupOpen => exact h.nodupOpen
  case listed => exact h.listed
  case sector => exact h.sector
  case file =>
    intro f
    show f ∈ s.brk :: live ↔ update s.files s.brk _ f ≠ none
    by_cases hf : f = s.brk
    · simp [hf]
    · rw [update_of_ne hf, List.mem_cons, or_iff_right hf]
      exact h.file f
  case inode =>
    intro f file hf
    have hf' : update s.files s.brk (some { inode := p, pos := pos, denyWrite := false }) f = some file := hf
    by_cases hfb : f = s.brk
    · rw [hfb, update_self] at hf'
      cases hf'
      show s.inodes p ≠ none
      simp [hp]
    · rw [update_of_ne hfb] at hf'
      exact h.inode f file hf'
  case fresh =>
    intro q (hq : s.brk + 1 ≤ q)
    show s.inodes q = none ∧ update s.files s.brk _ q = none
    have hqb : q ≠ s.brk := by omega
    rw [update_of_ne hqb]
    exact h.fresh q (by omega)
  case unheld =>
    intro q hq
    have hqp : q ≠ p := by
      rintro rfl
      rw [show s.inodes q = none from hq] at hp
      cases hp
    rw [update_of_ne hqp]
    exact h.unheld q hq
  case count =>
    intro q i hi
    obtain ⟨hremoved, hpos, hopen, hdeny⟩ := h.count q i hi
    have hon := countP_same (P := onInode s.files q)
      (Q := onInode (update s.files s.brk (some { inode := p, pos := pos, denyWrite := false })) q)
      hnot fun g hg => onInode_update_of_ne _ hg
    have hden := countP_same (P := denies s.files q)
      (Q := denies (update s.files s.brk (some { inode := p, pos := pos, denyWrite := false })) q)
      hnot fun g hg => denies_update_of_ne _ hg
    refine ⟨hremoved, hpos, ?_, ?_⟩
    · show i.openCnt = _ + ((List.countP (onInode (update s.files s.brk _) q) (s.brk :: live) : Nat) : Int)
      rw [List.countP_cons, hon, onInode_some (update_self _ _ _)]
      by_cases hqp : q = p
      · subst hqp
        simp only [decide_true, if_true, update_self]
        omega
      · rw [update_of_ne hqp, decide_eq_false (fun hc => hqp hc.symm)]
        simpa using hopen
    · show i.denyWriteCnt = ((List.countP (denies (update s.files s.brk _) q) (s.brk :: live) : Nat) : Int)
      rw [List.countP_cons, hden, denies_some (update_self _ _ _)]
      simpa using hdeny

/-- A closed file leaves its reference behind. -/
theorem Counts.freeFile (h : Counts s refs live) (hf : s.files f = some file)
    (hdeny : file.denyWrite = false) :
    Counts (s.setFile f none) (update refs file.inode (refs file.inode + 1)) (live.erase f) := by
  have hlive : f ∈ live := (h.file f).mpr (by simp [hf])
  have hoff : f ∉ live.erase f := fun hc => ((h.nodup.mem_erase_iff).mp hc).1 rfl
  constructor
  case nodup => exact h.nodup.erase f
  case nodupOpen => exact h.nodupOpen
  case listed => exact h.listed
  case sector => exact h.sector
  case file =>
    intro g
    show g ∈ live.erase f ↔ update s.files f none g ≠ none
    rw [h.nodup.mem_erase_iff]
    by_cases hg : g = f
    · simp [hg]
    · rw [update_of_ne hg, and_iff_right hg]
      exact h.file g
  case inode =>
    intro g file' hg
    have hg' : update s.files f none g = some file' := hg
    have hgf : g ≠ f := by
      rintro rfl
      simp at hg'
    rw [update_of_ne hgf] at hg'
    exact h.inode g file' hg'
  case fresh =>
    intro q hq
    obtain ⟨hi, hfq⟩ := h.fresh q hq
    refine ⟨hi, ?_⟩
    show update s.files f none q = none
    by_cases hqf : q = f
    · rw [hqf, update_self]
    · rw [update_of_ne hqf, hfq]
  case unheld =>
    intro q hq
    have hqp : q ≠ file.inode := by
      rintro rfl
      exact h.inode f file hf hq
    rw [update_of_ne hqp]
    exact h.unheld q hq
  case count =>
    intro q i hi
    obtain ⟨hremoved, hpos, hopen, hcnt⟩ := h.count q i hi
    have hon := countP_same (P := onInode s.files q) (Q := onInode (update s.files f none) q)
      hoff fun g hg => onInode_update_of_ne _ hg
    have hden := countP_same (P := denies s.files q) (Q := denies (update s.files f none) q)
      hoff fun g hg => denies_update_of_ne _ hg
    have hperm := (List.perm_cons_erase hlive)
    have hon' := hperm.countP_eq (onInode s.files q)
    have hden' := hperm.countP_eq (denies s.files q)
    rw [List.countP_cons, onInode_some hf] at hon'
    rw [List.countP_cons, denies_some hf, hdeny] at hden'
    simp only [Bool.and_false, Bool.false_eq_true, if_false] at hden'
    refine ⟨hremoved, hpos, ?_, ?_⟩
    · show i.openCnt = _ + ((List.countP (onInode (update s.files f none) q) (live.erase f) : Nat) : Int)
      rw [hon]
      by_cases hqp : q = file.inode
      · subst hqp
        simp only [decide_true, if_true] at hon'
        rw [update_self]
        omega
      · rw [decide_eq_false (fun hc => hqp hc.symm)] at hon'
        simp only [Bool.false_eq_true, if_false] at hon'
        rw [update_of_ne hqp]
        omega
    · show i.denyWriteCnt = ((List.countP (denies (update s.files f none) q) (live.erase f) : Nat) : Int)
      rw [hden]
      omega

/-! ## What each call does -/

theorem findOpen_some {l : List InodePtr} {sector : Nat} (h : s.findOpen sector l = some p) :
    ∃ inode, s.inodes p = some inode ∧ inode.sector = sector := by
  induction l with
  | nil => cases h
  | cons q l ih =>
    rw [FileSys.findOpen] at h
    split at h
    · exact ih h
    · next inode hq =>
      split at h
      · next hsec =>
        cases h
        exact ⟨inode, hq, hsec⟩
      · exact ih h

theorem findOpen_none {l : List InodePtr} {sector : Nat} (h : s.findOpen sector l = none)
    (hq : q ∈ l) (hi : s.inodes q = some inode) : inode.sector ≠ sector := by
  induction l with
  | nil => cases hq
  | cons r l ih =>
    rw [FileSys.findOpen] at h
    rcases List.mem_cons.mp hq with rfl | hmem
    · rw [hi] at h
      simp only at h
      split at h
      · cases h
      · assumption
    · split at h
      · exact ih h hmem
      · split at h
        · cases h
        · exact ih h hmem

/-- The inode after its last reference, or one of several, is given back. -/
def closed (s : FileSys) (p : InodePtr) (inode : Inode) : FileSys :=
  if inode.openCnt = 1 then { s.setInode p none with openInodes := s.openInodes.erase p }
  else s.setInode p (some { inode with openCnt := inode.openCnt - 1 })

theorem run_inodeClose (h : s.inodes p = some inode) (hremoved : inode.removed = false) :
    (inodeClose (some p)).run s = .ok ((), closed s p inode) := by
  rw [inodeClose, inodeCloseCount, Prog.run_bind, Prog.run_lift, h]
  by_cases hlast : inode.openCnt = 1
  · have hz : inode.openCnt - 1 = 0 := by omega
    simp only [hz, if_true, hremoved, Bool.false_eq_true, if_false]
    rw [Pintos.freeInode, Prog.write, Prog.run_lift, closed, if_pos hlast]
    simp only [FileSys.setInode, update_idem]
  · have hz : inode.openCnt - 1 ≠ 0 := by omega
    simp only [hz, if_false]
    rw [closed, if_neg hlast]
    rfl

/-- A reference is given back. -/
theorem Counts.closed (h : Counts s refs live) (hp : s.inodes p = some inode) (hheld : refs p ≠ 0) :
    Counts (Pintos.closed s p inode) (update refs p (refs p - 1)) live := by
  unfold Pintos.closed
  split
  · next hlast => exact h.freeInode hp hlast hheld
  · next hlast =>
    obtain ⟨hremoved, hpos, hopen, hdeny⟩ := h.count p inode hp
    refine h.change hp { inode with openCnt := inode.openCnt - 1 } rfl (fun _ => rfl)
      (fun _ _ => rfl) (fun q hq => update_of_ne hq _ _) hremoved ?_ ?_ hdeny
    · show 0 < inode.openCnt - 1
      omega
    · show inode.openCnt - 1 = _
      rw [update_self]
      omega

/-- One more reference. -/
theorem Counts.reopen (h : Counts s refs live) (hp : s.inodes p = some inode) :
    Counts (s.setInode p (some { inode with openCnt := inode.openCnt + 1 }))
      (update refs p (refs p + 1)) live := by
  obtain ⟨hremoved, hpos, hopen, hdeny⟩ := h.count p inode hp
  refine h.change hp { inode with openCnt := inode.openCnt + 1 } rfl (fun _ => rfl)
    (fun _ _ => rfl) (fun q hq => update_of_ne hq _ _) hremoved ?_ ?_ hdeny
  · show 0 < inode.openCnt + 1
    omega
  · show inode.openCnt + 1 = _
    rw [update_self]
    omega

/-- The files after `f` becomes `file'`, an open file on the same inode. -/
theorem Counts.files_map (hf : s.files f = some file) (file' : File)
    (hinode : file'.inode = file.inode) (g : FilePtr) :
    (update s.files f (some file') g).map (·.inode) = (s.files g).map (·.inode) := by
  by_cases hg : g = f
  · subst hg
    rw [update_self, hf, Option.map_some, Option.map_some, hinode]
  · rw [update_of_ne hg]

/-- A file starts or stops to deny. -/
theorem Counts.setDeny (h : Counts s refs live) (hf : s.files f = some file)
    (hp : s.inodes file.inode = some inode) (deny : Bool) (hne : file.denyWrite ≠ deny) :
    Counts ((s.setFile f (some { file with denyWrite := deny })).setInode file.inode
      (some { inode with denyWriteCnt := inode.denyWriteCnt + (if deny then 1 else -1) })) refs live := by
  obtain ⟨hremoved, hpos, hopen, hdeny⟩ := h.count file.inode inode hp
  have hlive : f ∈ live := (h.file f).mpr (by simp [hf])
  -- the number of files that deny changes at `f` only
  have hcnt : ∀ q, live.countP (denies (update s.files f (some { file with denyWrite := deny })) q) +
      (decide (file.inode = q) && file.denyWrite).toNat =
      live.countP (denies s.files q) + (decide (file.inode = q) && deny).toNat := by
    intro q
    have hchange := countP_change (P := denies s.files q)
      (Q := denies (update s.files f (some { file with denyWrite := deny })) q) h.nodup hlive
      fun g hg => denies_update_of_ne _ hg
    rwa [denies_some hf, denies_some (update_self _ _ _)] at hchange
  refine h.change hp { inode with denyWriteCnt := inode.denyWriteCnt + (if deny then 1 else -1) } rfl
    (Counts.files_map hf _ rfl) ?_ (fun _ _ => rfl) hremoved hpos hopen ?_
  · intro q hq
    have h := hcnt q
    rw [decide_eq_false (fun hc => hq hc.symm)] at h
    simp only [Bool.false_and, Bool.toNat_false, Nat.add_zero] at h
    exact h
  · have h := hcnt file.inode
    show inode.denyWriteCnt + (if deny then 1 else -1) = ((live.countP
      (denies (update s.files f (some { file with denyWrite := deny })) file.inode) : Nat) : Int)
    rw [hdeny]
    simp only [decide_true, Bool.true_and] at h
    revert hne h
    cases file.denyWrite <;> cases deny <;> simp <;> omega

/-- The position of a file is not counted. -/
theorem Counts.setPos (h : Counts s refs live) (hf : s.files f = some file) (pos : Nat) :
    Counts (s.setFile f (some { file with pos := pos })) refs live := by
  obtain ⟨inode, hp⟩ := Option.ne_none_iff_exists'.mp (h.inode f file hf)
  obtain ⟨hremoved, hpos, hopen, hdeny⟩ := h.count file.inode inode hp
  have hcnt : ∀ q, live.countP (denies (update s.files f (some { file with pos := pos })) q) =
      live.countP (denies s.files q) := by
    intro q
    refine List.countP_congr fun g _ => ?_
    by_cases hg : g = f
    · subst hg
      rw [denies_some hf, denies_some (update_self _ _ _)]
    · rw [denies_update_of_ne _ hg]
  have hchange := h.change hp inode rfl (Counts.files_map hf { file with pos := pos } rfl)
    (fun q _ => hcnt q) (fun q _ => Eq.refl (refs q)) hremoved hpos hopen (by rw [hcnt]; exact hdeny)
  rwa [update_eq_self_iff.mpr hp.symm] at hchange

theorem update_add_sub (refs : InodePtr → Nat) (p : InodePtr) :
    update (update refs p (refs p + 1)) p (update refs p (refs p + 1) p - 1) = refs := by
  rw [update_idem, update_self, Nat.add_sub_cancel, update_eq_self]

/-- `inode_open` returns an inode in memory, or one that was not there, or fails. -/
theorem Counts.run_inodeOpen (h : Counts s refs live) (sector : Nat) (alloc : Bool) :
    (inodeOpen sector alloc).run s = .error .disk ∨
    (inodeOpen sector alloc).run s = .ok (none, s) ∨
    ∃ p s', (inodeOpen sector alloc).run s = .ok (some p, s') ∧
      Counts s' (update refs p (refs p + 1)) live ∧ s'.files = s.files := by
  rw [inodeOpen, inodeOpenFind, Prog.run_bind, Prog.run_lift]
  cases hfind : s.findOpen sector s.openInodes with
  | some p =>
    obtain ⟨inode, hp, -⟩ := findOpen_some hfind
    right; right
    simp only [hp]
    exact ⟨p, _, rfl, h.reopen hp, rfl⟩
  | none =>
    cases alloc with
    | false => exact Or.inr (Or.inl rfl)
    | true =>
      simp only [if_true, diskRead, Prog.run_lift]
      split
      · next hsel =>
        right; right
        simp only [FileSys.setInode, update_self, update_idem]
        refine ⟨s.brk, _, rfl, h.newInode rfl rfl rfl fun q i hi => ?_, rfl⟩
        exact findOpen_none hfind ((h.listed q).mpr (by rw [hi]; simp)) hi
      · exact Or.inl rfl

/-- `file_open` takes a reference, and gives it back where there is no memory. -/
theorem Counts.run_fileOpen (h : Counts s refs live) (hheld : refs p ≠ 0) (alloc : Bool) :
    ∃ nf s', (fileOpen (some p) alloc).run s = .ok (nf, s') ∧
      Counts s' (update refs p (refs p - 1)) (nf.toList ++ live) ∧
      (∀ g, nf = some g → s'.files g = some { inode := p, pos := 0, denyWrite := false }) ∧
      ∀ f ∈ live, s'.files f = s.files f := by
  have hp : s.inodes p ≠ none := fun hc => hheld (h.unheld p hc)
  obtain ⟨inode, hp⟩ := Option.ne_none_iff_exists'.mp hp
  cases alloc with
  | true =>
    refine ⟨some s.brk, _, rfl, h.newFile hp hheld 0, fun g hg => ?_, fun f hf => ?_⟩
    · cases hg
      exact update_self _ _ _
    · refine update_of_ne (fun hc => ?_) _ _
      exact (h.file f).mp hf (hc ▸ (h.fresh s.brk (Nat.le_refl _)).2)
  | false =>
    refine ⟨none, Pintos.closed s p inode, ?_, h.closed hp hheld, fun g hg => (by cases hg), fun f _ => ?_⟩
    · show (inodeClose (some p) >>= fun _ => pure none).run s = _
      rw [Prog.run_bind_ok (run_inodeClose hp (h.count p inode hp).1)]
      rfl
    · unfold Pintos.closed
      split <;> rfl

theorem Counts.run_fileReopen (h : Counts s refs live) (hf : s.files f = some file) (alloc : Bool) :
    ∃ nf s', (fileReopen f alloc).run s = .ok (nf, s') ∧ Counts s' refs (nf.toList ++ live) ∧
      (∀ g, nf = some g → s'.files g = some { inode := file.inode, pos := 0, denyWrite := false }) ∧
      ∀ f ∈ live, s'.files f = s.files f := by
  obtain ⟨inode, hp⟩ := Option.ne_none_iff_exists'.mp (h.inode f file hf)
  have hheld : update refs file.inode (refs file.inode + 1) file.inode ≠ 0 := by
    rw [update_self]
    omega
  obtain ⟨nf, s', hrun, hcounts, hnew, hold⟩ := (h.reopen hp).run_fileOpen hheld alloc
  rw [update_add_sub] at hcounts
  refine ⟨nf, s', ?_, hcounts, hnew, hold⟩
  rw [fileReopen, Prog.run_bind_ok (run_derefFile hf), Prog.run_bind_ok (run_inodeReopen hp), hrun]

theorem Counts.run_fileDenyWrite (h : Counts s refs live) (hf : s.files f = some file) :
    ∃ s', (fileDenyWrite f).run s = .ok ((), s') ∧ Counts s' refs live ∧
      s'.files = update s.files f (some { file with denyWrite := true }) := by
  obtain ⟨inode, hp⟩ := Option.ne_none_iff_exists'.mp (h.inode f file hf)
  rw [fileDenyWrite, Prog.run_bind_ok (run_derefFile hf)]
  split
  · next hdeny =>
    refine ⟨s, rfl, h, ?_⟩
    rw [← hdeny, ← hf, update_eq_self]
  · next hdeny =>
    have hset := h.setDeny hf hp true (by simpa using hdeny)
    simp only [if_true] at hset
    refine ⟨_, ?_, hset, rfl⟩
    rw [Prog.run_bind_ok (run_updateFile hf _), inodeDenyWrite, updateInode]
    refine Prog.run_write ?_
    have hle := hset.deny_le (p := file.inode) (update_self _ _ _)
    simp only at hle
    simp only [FileSys.setFile, hp, hle, if_true]

theorem Counts.run_fileAllowWrite (h : Counts s refs live) (hf : s.files f = some file) :
    ∃ s', (fileAllowWrite f).run s = .ok ((), s') ∧ Counts s' refs live ∧
      s'.files = update s.files f (some { file with denyWrite := false }) := by
  obtain ⟨inode, hp⟩ := Option.ne_none_iff_exists'.mp (h.inode f file hf)
  rw [fileAllowWrite, Prog.run_bind_ok (run_derefFile hf)]
  split
  · next hdeny =>
    have hset := h.setDeny hf hp false (by simp [hdeny])
    simp only [Bool.false_eq_true, if_false] at hset
    refine ⟨_, ?_, hset, rfl⟩
    rw [Prog.run_bind_ok (run_updateFile hf _), inodeAllowWrite, updateInode]
    refine Prog.run_write ?_
    obtain ⟨-, -, -, hcnt⟩ := hset.count file.inode _ (update_self _ _ _)
    have hpos : 0 < inode.denyWriteCnt := by
      simp only at hcnt
      omega
    simp only [FileSys.setFile, hp, hpos, h.deny_le hp, and_self, if_true]
    rfl
  · next hdeny =>
    have hoff : file.denyWrite = false := by simpa using hdeny
    exact ⟨s, rfl, h, by rw [← hoff, ← hf, update_eq_self]⟩

theorem Counts.run_fileDuplicate (h : Counts s refs live) (hf : s.files f = some file)
    (alloc : Bool) :
    ∃ nf s', (fileDuplicate f alloc).run s = .ok (nf, s') ∧ Counts s' refs (nf.toList ++ live) ∧
      (∀ g, nf = some g → s'.files g = some file) ∧ ∀ g ∈ live, s'.files g = s.files g := by
  obtain ⟨nf, s₁, hrun, hcounts, hnew, hold⟩ := h.run_fileReopen hf alloc
  have hlive : f ∈ live := (h.file f).mpr (by simp [hf])
  rw [fileReopen] at hrun
  rw [fileDuplicate]
  rw [Prog.run_bind_ok (run_derefFile hf)] at hrun ⊢
  obtain ⟨p, s₀, hreopen, hrun⟩ := Prog.of_run_bind hrun
  rw [Prog.run_bind_ok hreopen, Prog.run_bind_ok hrun]
  cases nf with
  | none => exact ⟨none, s₁, rfl, hcounts, by rintro _ ⟨⟩, hold⟩
  | some g =>
    have hf₁ : s₁.files f = some file := (hold f hlive).trans hf
    have hg := hnew g rfl
    simp only
    rw [Prog.run_bind_ok (run_derefFile hf₁), Prog.run_bind_ok (run_updateFile hg _)]
    have hpos := hcounts.setPos hg file.pos
    have hne : ∀ x ∈ live, x ≠ g := fun x hx hc => (List.nodup_cons.mp hcounts.nodup).1 (hc ▸ hx)
    split
    · next hdeny =>
      obtain ⟨s₂, hrun₂, hcounts₂, hfiles⟩ := hpos.run_fileDenyWrite (f := g) (update_self _ _ _)
      refine ⟨some g, s₂, ?_, hcounts₂, fun x hx => ?_, fun x hx => ?_⟩
      · rw [Prog.run_bind_ok hrun₂]
        rfl
      · cases hx
        rw [hfiles, update_self, ← hdeny]
      · rw [hfiles, update_of_ne (hne x hx)]
        exact (update_of_ne (hne x hx) _ _).trans (hold x hx)
    · next hdeny =>
      have hoff : file.denyWrite = false := by simpa using hdeny
      refine ⟨some g, _, rfl, hpos, fun x hx => ?_, fun x hx => ?_⟩
      · cases hx
        exact (update_self _ _ _).trans (by rw [← hoff])
      · exact (update_of_ne (hne x hx) _ _).trans (hold x hx)

theorem closed_setFile (s : FileSys) (p : InodePtr) (inode : Inode) (f : FilePtr) (file : Option File) :
    (closed s p inode).setFile f file = closed (s.setFile f file) p inode := by
  unfold closed
  split <;> rfl

theorem Counts.run_fileClose (h : Counts s refs live) (hf : s.files f = some file) :
    ∃ s', (fileClose (some f)).run s = .ok ((), s') ∧ Counts s' refs (live.erase f) ∧
      s'.files = update s.files f none := by
  obtain ⟨s₁, hallow, h₁, hfiles⟩ := h.run_fileAllowWrite hf
  have hf₁ : s₁.files f = some { file with denyWrite := false } := by rw [hfiles, update_self]
  obtain ⟨inode, hp⟩ := Option.ne_none_iff_exists'.mp (h₁.inode f _ hf₁)
  have hfree := h₁.freeFile hf₁ rfl
  have hheld : update refs file.inode (refs file.inode + 1) file.inode ≠ 0 := by
    rw [update_self]
    omega
  have hclosed := hfree.closed (p := file.inode) hp hheld
  rw [update_add_sub] at hclosed
  refine ⟨_, ?_, hclosed, ?_⟩
  · rw [fileClose, Prog.run_bind_ok hallow, Prog.run_bind_ok (run_derefFile hf₁),
      Prog.run_bind_ok (run_inodeClose hp (h₁.count _ inode hp).1), ← closed_setFile]
    exact Prog.run_write rfl
  · have hset : (s₁.setFile f none).files = update s.files f none := by
      show update s₁.files f none = _
      rw [hfiles, update_idem]
    unfold Pintos.closed
    split
    · exact hset
    · exact hset

/-! ## Every run -/

theorem counts_boot (disk : Nat → Sector) (capacity : Nat) (freeMap : WordBitmap) (block : InodeDisk) :
    Counts (OpenFiles.boot disk capacity freeMap block).toFileSys (fun _ => 0) [] where
  nodup := List.nodup_nil
  nodupOpen := List.nodup_nil
  listed p := by simp [OpenFiles.boot]
  sector p q i j hi := by cases hi
  file f := by simp [OpenFiles.boot]
  inode f file hf := by cases hf
  fresh p _ := ⟨rfl, rfl⟩
  unheld _ _ := rfl
  count p i hi := by cases hi

/-- The counters of the machine are right. -/
def OpenFiles.Counted (s : OpenFiles) : Prop := Counts s.toFileSys s.refs s.live

/-- A call on a held reference or a live file is carried out, or the driver refuses the sector. -/
theorem counted_step {s : OpenFiles} (h : s.Counted) (a : FileAction) :
    s.step a = .error .disabled ∨ s.step a = .error .disk ∨ ∃ s', s.step a = .ok s' ∧ s'.Counted := by
  have held : ∀ {p}, s.refs p ≠ 0 → ∃ inode, s.inodes p = some inode := fun {p} hheld =>
    Option.ne_none_iff_exists'.mp fun hc => hheld (h.unheld p hc)
  have opened : ∀ {f}, f ∈ s.live → ∃ file, s.files f = some file := fun {f} hf =>
    Option.ne_none_iff_exists'.mp ((h.file f).mp hf)
  cases a with
  | inodeOpen sector alloc =>
    rw [OpenFiles.step]
    rcases h.run_inodeOpen sector alloc with hrun | hrun | ⟨p, fs, hrun, hcounts, -⟩
    · rw [hrun]
      exact Or.inr (Or.inl rfl)
    · rw [hrun]
      exact Or.inr (Or.inr ⟨_, rfl, h⟩)
    · rw [hrun]
      exact Or.inr (Or.inr ⟨_, rfl, hcounts⟩)
  | inodeReopen p =>
    rw [OpenFiles.step]
    split
    · exact Or.inl rfl
    · next hheld =>
      obtain ⟨inode, hp⟩ := held hheld
      rw [run_inodeReopen hp]
      exact Or.inr (Or.inr ⟨_, rfl, h.reopen hp⟩)
  | inodeClose p =>
    rw [OpenFiles.step]
    split
    · exact Or.inl rfl
    · next hheld =>
      obtain ⟨inode, hp⟩ := held hheld
      rw [run_inodeClose hp (h.count p inode hp).1]
      exact Or.inr (Or.inr ⟨_, rfl, h.closed hp hheld⟩)
  | fileOpen p alloc =>
    rw [OpenFiles.step]
    split
    · exact Or.inl rfl
    · next hheld =>
      obtain ⟨nf, fs, hrun, hcounts, -, -⟩ := h.run_fileOpen hheld alloc
      rw [hrun]
      refine Or.inr (Or.inr ⟨_, rfl, ?_⟩)
      cases nf <;> exact hcounts
  | fileReopen f alloc =>
    rw [OpenFiles.step]
    split
    · exact Or.inl rfl
    · next hlive =>
      obtain ⟨file, hf⟩ := opened (not_not.mp hlive)
      obtain ⟨nf, fs, hrun, hcounts, -, -⟩ := h.run_fileReopen hf alloc
      rw [hrun]
      refine Or.inr (Or.inr ⟨_, rfl, ?_⟩)
      cases nf <;> exact hcounts
  | fileDuplicate f alloc =>
    rw [OpenFiles.step]
    split
    · exact Or.inl rfl
    · next hlive =>
      obtain ⟨file, hf⟩ := opened (not_not.mp hlive)
      obtain ⟨nf, fs, hrun, hcounts, -, -⟩ := h.run_fileDuplicate hf alloc
      rw [hrun]
      refine Or.inr (Or.inr ⟨_, rfl, ?_⟩)
      cases nf <;> exact hcounts
  | fileDenyWrite f =>
    rw [OpenFiles.step]
    split
    · exact Or.inl rfl
    · next hlive =>
      obtain ⟨file, hf⟩ := opened (not_not.mp hlive)
      obtain ⟨fs, hrun, hcounts, -⟩ := h.run_fileDenyWrite hf
      rw [hrun]
      exact Or.inr (Or.inr ⟨_, rfl, hcounts⟩)
  | fileAllowWrite f =>
    rw [OpenFiles.step]
    split
    · exact Or.inl rfl
    · next hlive =>
      obtain ⟨file, hf⟩ := opened (not_not.mp hlive)
      obtain ⟨fs, hrun, hcounts, -⟩ := h.run_fileAllowWrite hf
      rw [hrun]
      exact Or.inr (Or.inr ⟨_, rfl, hcounts⟩)
  | fileClose f =>
    rw [OpenFiles.step]
    split
    · exact Or.inl rfl
    · next hlive =>
      obtain ⟨file, hf⟩ := opened (not_not.mp hlive)
      obtain ⟨fs, hrun, hcounts, -⟩ := h.run_fileClose hf
      rw [hrun]
      exact Or.inr (Or.inr ⟨_, rfl, hcounts⟩)

theorem counted_of_reach {disk : Nat → Sector} {capacity : Nat} {freeMap : WordBitmap}
    {block : InodeDisk} {s : OpenFiles}
    (h : Reach OpenFiles.step Always (OpenFiles.boot disk capacity freeMap block) s) : s.Counted := by
  refine h.invariant (I := OpenFiles.Counted) (counts_boot disk capacity freeMap block)
    fun s a s' hs _ hstep => ?_
  rcases counted_step hs a with he | he | ⟨t, ht, hcounted⟩
  · rw [he] at hstep
    cases hstep
  · rw [he] at hstep
    cases hstep
  · rw [ht] at hstep
    cases hstep
    exact hcounted

/-- `file_write` where `inode_write_at` does not look at `deny_write_cnt`. -/
def fileWriteUnchecked (f : FilePtr) (buffer : List Byte) : FsProg Nat := do
  let file ← derefFile f
  let written ← inodeWriteLoop file.inode (fun _ => buffer) buffer.length buffer.length file.pos 0
  advance f written
  pure written

/-- Writing is refused where a handle denies it, and nowhere else. -/
theorem Counts.run_fileWrite (h : Counts s refs live) (hf : s.files f = some file) (buffer : List Byte) :
    (fileWrite f buffer).run s =
      if live.any (denies s.files file.inode) then .ok (0, s)
      else (fileWriteUnchecked f buffer).run s := by
  obtain ⟨inode, hp⟩ := Option.ne_none_iff_exists'.mp (h.inode f file hf)
  obtain ⟨-, -, -, hcnt⟩ := h.count file.inode inode hp
  have hany : live.any (denies s.files file.inode) = true ↔ inode.denyWriteCnt ≠ 0 := by
    rw [List.any_eq_true, hcnt, Ne, Int.natCast_eq_zero, List.countP_eq_zero]
    push Not
    exact Iff.rfl
  rw [fileWrite, fileWriteUnchecked, Prog.run_bind_ok (run_derefFile hf),
    Prog.run_bind_ok (run_derefFile hf)]
  split
  · next hdeny =>
    have hadvance : (advance f 0).run s = .ok ((), s) := by
      refine Prog.run_write ?_
      simp only [hf, FileSys.setFile, Nat.add_zero]
      rw [update_eq_self_iff.mpr hf.symm]
    rw [Prog.run_bind_ok (inodeWriteAt_denied hp (hany.mp hdeny)), Prog.run_bind_ok hadvance]
    rfl
  · next hdeny =>
    rw [inodeWriteAt, Prog.run_bind, Prog.run_bind_ok (run_derefInode hp),
      if_neg (fun hc => hdeny (hany.mpr hc)), ← Prog.run_bind]

end Pintos
