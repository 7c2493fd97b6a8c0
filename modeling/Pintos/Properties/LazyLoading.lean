import Pintos.Userprog.Project2
import Pintos.Userprog.Segments

/-!
# Lazy and eager loading

The eager loop reads from one position of the file that moves, the lazy one records an offset for each page
and seeks later. With the file, the memory and the pages that they need, both give the same pages.

* `run_claimPages` — the recorded pages can be accessed in any order
* `lazy_agrees_eager` — **both ways give the same pages, with the same bytes**
-/

namespace Pintos

open Function LittleEndian

/-- What both ways need: the file has the bytes, the pages are pages of the user that are not there, and there
is memory. -/
structure Loadable (s : Vm) (t : Tid) (f : FilePtr) (inode : Inode) (ofs : Int) (upage : Vaddr)
    (readBytes zeroBytes : BitVec 32) : Prop where
  offset : 0 ≤ ofs ∧ ofs % PGSIZE = 0
  aligned : Aligned upage
  total : (readBytes + zeroBytes).toNat % PGSIZE = 0
  nowrap : readBytes.toNat + zeroBytes.toNat < 2 ^ 32
  there : ∃ file, FileThere s f file inode
  length : inode.data.length < 2 ^ 31
  bytes : ofs + readBytes.toNat ≤ inode.data.length
  user : upage.toNat + (readBytes.toNat + zeroBytes.toNat) ≤ KERN_BASE.toNat
  unmapped : ∀ j, PGSIZE * j < readBytes.toNat + zeroBytes.toNat →
    s.pte t (nthPage upage j) = none ∧ ¬ s.Paged t (nthPage upage j)
  new : s.NewPages t
  allocs : ∀ n, s.allocs n = true
  frames : (readBytes.toNat + zeroBytes.toNat) / PGSIZE ≤ s.userPool.count false

/-- First accesses of recorded pages, one after the other. -/
def claimPages (t : Tid) (upage : Vaddr) : List Nat → VmProg Bool
  | [] => pure true
  | i :: rest => do
    let claimed ← vmClaimPage t (nthPage upage i)
    if claimed then claimPages t upage rest else pure false

/-- The page is there in both, with the same flag and the same bytes. -/
def SamePage (t : Tid) (writable : Bool) (s s' : Vm) (va : Vaddr) : Prop :=
  ∃ pte pte', s.pte t va = some pte ∧ s'.pte t va = some pte' ∧ pte.present = true ∧ pte'.present = true ∧
    pte.writable = writable ∧ pte'.writable = writable ∧ s.bytes pte.kva PGSIZE = s'.bytes pte'.kva PGSIZE

section

variable {s s' : Vm} {t : Tid} {upage va : Vaddr} {writable : Bool} {f : FilePtr} {inode : Inode} {q : PagePtr}
  {page : Page} {kva : Kva} {readBytes : Nat} {xs : List Byte}

/-! ## Accesses in any order -/

/-- Pages that keep their addresses are found as before. -/
theorem Vm.findPage_of_va (h : ∀ q, (s'.pages q).map Page.va = (s.pages q).map Page.va) (l : List PagePtr) :
    s'.findPage va l = s.findPage va l := by
  induction l with
  | nil => rfl
  | cons q rest ih =>
    have hq := h q
    unfold findPage
    rw [ih]
    cases hp : s.pages q with
    | none =>
      rw [hp, Option.map_none, Option.map_eq_none_iff] at hq
      rw [hq]
    | some page =>
      rw [hp, Option.map_some, Option.map_eq_some_iff] at hq
      obtain ⟨page', hp', hva⟩ := hq
      rw [hp']
      dsimp only
      rw [hva]

theorem Shown.findPage (h : Shown t va q page kva xs s s') (hpage : s.pages q = some page) (va' : Vaddr)
    (l : List PagePtr) : s'.findPage va' l = s.findPage va' l := by
  refine Vm.findPage_of_va (fun q' => ?_) l
  by_cases hq : q' = q
  · obtain ⟨page', hpage', hva⟩ := h.same
    rw [hq, hpage, hpage', Option.map_some, Option.map_some, hva]
  · rw [h.pages q' hq]

theorem Shown.fileThere {file : File} (h : Shown t va q page kva xs s s') (hthere : FileThere s f file inode) :
    ∃ file', FileThere s' f file' inode := by
  have hf := h.files f
  rw [hthere.files, Option.map_some, Option.map_eq_some_iff] at hf
  obtain ⟨file', hf', hinode⟩ := hf
  exact ⟨file', hf', by rw [h.inodes, hinode, hthere.inodes], hthere.onDisk.congr h.capacity⟩

/-- A page that was not accessed yet is as before after the access of another one. -/
theorem Shown.lazyPage {va' : Vaddr} {q' : PagePtr} {page' : Page} {info : FileInfo} (h : Shown t va q page kva xs s s')
    (hpage : s.pages q = some page) (hva : page.va = va) (hne : va' ≠ va) (hlazy : LazyPage s t va' q' page' info) :
    LazyPage s' t va' q' page' info := by
  have hqne : q' ≠ q := by
    rintro rfl
    rw [hlazy.there] at hpage
    cases hpage
    exact hne (hlazy.addr.symm.trans hva)
  exact ⟨by rw [h.spt, h.findPage hpage, hlazy.found], (h.pages q' hqne).trans hlazy.there, hlazy.addr,
    hlazy.untouched, hlazy.type, hlazy.init, hlazy.aux, hlazy.user⟩

/-- What the page `i` of a segment refers to. -/
def infoOf (f : FilePtr) (ofs : Int) (readBytes i : Nat) : FileInfo :=
  mapInfo (some f) (wrap32 (ofs + (min readBytes (PGSIZE * i) : Nat))) (readBytes - PGSIZE * i)

/-- The recorded pages can be accessed in any order. -/
theorem run_claimPages {ofs : Nat} {l : List Nat} (hallocs : ∀ n, s.allocs n = true)
    (hframes : l.length ≤ s.userPool.count false) (hthere : ∃ file, FileThere s f file inode)
    (hlt : inode.data.length < 2 ^ 31) (hbytes : ofs + readBytes ≤ inode.data.length.toNat) (hl : l.Nodup)
    (hne : ∀ i ∈ l, ∀ j ∈ l, i ≠ j → nthPage upage i ≠ nthPage upage j)
    (hlazy : ∀ i ∈ l, ∃ q, LazyPage s t (nthPage upage i) q (segmentPage f writable ofs upage readBytes i)
      (infoOf f ofs readBytes i)) :
    ∃ s', (claimPages t upage l).run s = .ok (true, s') ∧
      Filled t upage writable (segmentBytes s.fs.disk inode.data.start ofs readBytes) l s s' := by
  induction l generalizing s with
  | nil => exact ⟨s, rfl, .nil s⟩
  | cons i rest ih =>
    obtain ⟨file, hthere⟩ := hthere
    obtain ⟨q, hq⟩ := hlazy i List.mem_cons_self
    rw [List.length_cons] at hframes
    obtain ⟨kva, hscan, hfree, hcount⟩ := bitmapScan_free (b := s.userPool) (by omega)
    obtain ⟨hi, hrest⟩ := List.nodup_cons.mp hl
    have hofs : (infoOf f ofs readBytes i).ofs = ((ofs + min readBytes (PGSIZE * i) : Nat) : Int) := by
      rw [infoOf, mapInfo, ← Nat.cast_add]
      exact wrap32_of_lt (Int.natCast_nonneg _) (by omega)
    have hread : (infoOf f ofs readBytes i).pageReadBytes = min (readBytes - PGSIZE * i) PGSIZE := rfl
    have hzero : (infoOf f ofs readBytes i).pageZeroBytes = PGSIZE - min (readBytes - PGSIZE * i) PGSIZE := rfl
    have henough : Enough inode (infoOf f ofs readBytes i) := by
      rw [Enough, hofs, hread, Int.toNat_natCast]
      unfold PGSIZE
      omega
    have hfull : (infoOf f ofs readBytes i).pageReadBytes + (infoOf f ofs readBytes i).pageZeroBytes = PGSIZE := by
      rw [hread, hzero]
      omega
    obtain ⟨s₁, hrun, hshown⟩ := hq.claim ⟨hscan, hallocs 0, hallocs 1⟩ nofun rfl (by rw [hofs]; exact Int.natCast_nonneg _)
      hthere henough hfull
    have hbytes₁ : shownBytes s.fs.disk inode.data.start (infoOf f ofs readBytes i) =
        segmentBytes s.fs.disk inode.data.start ofs readBytes i := by
      rw [shownBytes, hofs, hread, hzero, Int.toNat_natCast, segmentBytes]
    rw [hbytes₁] at hshown
    have hput : Put t (nthPage upage i) writable (segmentBytes s.fs.disk inode.data.start ofs readBytes i) kva s s₁ :=
      hshown.put hfree
    have hother : ∀ j ∈ rest, nthPage upage i ≠ nthPage upage j := by
      intro j hj
      refine hne i List.mem_cons_self j (List.mem_cons_of_mem i hj) ?_
      rintro rfl
      exact hi hj
    have hlazy₁ : ∀ j ∈ rest, ∃ q, LazyPage s₁ t (nthPage upage j) q (segmentPage f writable ofs upage readBytes j)
        (infoOf f ofs readBytes j) := by
      intro j hj
      obtain ⟨q', hq'⟩ := hlazy j (List.mem_cons_of_mem i hj)
      exact ⟨q', hshown.lazyPage hq.there rfl (hother j hj).symm hq'⟩
    obtain ⟨s', hrun', hfilled⟩ := ih (s := s₁) (fun n => by rw [hshown.allocs]; exact hallocs _)
      (by rw [hshown.pool]; omega) (hshown.fileThere hthere) hrest
      (fun a ha b hb => hne a (List.mem_cons_of_mem i ha) b (List.mem_cons_of_mem i hb)) hlazy₁
    rw [hshown.disk] at hfilled
    refine ⟨s', ?_, hfilled.cons hput hother⟩
    rw [claimPages, Prog.run_bind_ok hrun, if_pos rfl, hrun']

end

/-! ## Both ways -/

section

variable {s s' : Vm} {t : Tid} {f : FilePtr} {inode : Inode} {ofs : Int} {upage : Vaddr}
  {readBytes zeroBytes : BitVec 32} {writable : Bool}

/-- The number of pages of a segment. -/
def pageCount (readBytes zeroBytes : BitVec 32) : Nat := (readBytes.toNat + zeroBytes.toNat) / PGSIZE

theorem Loadable.count (h : Loadable s t f inode ofs upage readBytes zeroBytes) :
    readBytes.toNat + zeroBytes.toNat = PGSIZE * pageCount readBytes zeroBytes := by
  have htotal := h.total
  have hnowrap := h.nowrap
  rw [BitVec.toNat_add, Nat.mod_eq_of_lt hnowrap] at htotal
  unfold pageCount
  unfold PGSIZE at *
  omega

/-- The assertions at the start of `load_segment` hold. -/
theorem Loadable.asserts (h : Loadable s t f inode ofs upage readBytes zeroBytes) :
    ¬ ((readBytes + zeroBytes).toNat % PGSIZE ≠ 0 ∨ ¬ Aligned upage ∨ ofs % PGSIZE ≠ 0) := by
  rw [not_or, not_or, not_not, not_not, not_not]
  exact ⟨h.total, h.aligned, h.offset.2⟩

/-- The eager way. -/
theorem Loadable.run_eager (h : Loadable s t f inode ofs upage readBytes zeroBytes) (writable : Bool) :
    ∃ s', (Project2.loadSegment t f ofs upage readBytes zeroBytes writable).run s = .ok (true, s') ∧
      Filled t upage writable (segmentBytes s.fs.disk inode.data.start ofs.toNat readBytes.toNat)
        (List.range (pageCount readBytes zeroBytes)) s s' := by
  obtain ⟨file, hthere⟩ := h.there
  have hofs := h.offset.1
  have hbytes := h.bytes
  have hcount := h.count
  have huser := h.user
  rw [hcount] at huser
  have hseek := run_liftFs (run_fileSeek hthere.files hofs)
  set s₁ : Vm := { s with fs := s.fs.setFile f (some { file with pos := ofs.toNat }) } with hs₁
  have hthere₁ : FileThere s₁ f { file with pos := ofs.toNat } inode :=
    ⟨update_self _ _ _, hthere.inodes, hthere.onDisk.congr rfl⟩
  have hpos : ({ file with pos := ofs.toNat } : File).pos = ofs.toNat + min readBytes.toNat (PGSIZE * 0) := by
    rw [Nat.mul_zero, Nat.min_zero, Nat.add_zero]
  have hnone : ∀ i, 0 ≤ i → i < 0 + pageCount readBytes zeroBytes → s₁.pte t (nthPage upage i) = none := by
    intro i _ hi
    refine (h.unmapped i ?_).1
    rw [hcount]
    exact Nat.mul_lt_mul_of_pos_left (by omega) (by decide)
  have hframes : pageCount readBytes zeroBytes ≤ s₁.userPool.count false := h.frames
  have htotal : readBytes.toNat - PGSIZE * 0 + zeroBytes.toNat = PGSIZE * pageCount readBytes zeroBytes := by
    rw [Nat.mul_zero, Nat.sub_zero, hcount]
  obtain ⟨s', hrun, hfilled⟩ := Project2.run_loadPages (s := s₁) h.allocs hframes hthere₁ hpos (by omega) h.aligned
    (by rwa [Nat.zero_add]) hnone htotal le_rfl
  rw [nthPage_zero, Nat.mul_zero, Nat.sub_zero] at hrun
  refine ⟨s', ?_, ?_⟩
  · rw [Project2.loadSegment, if_neg h.asserts, Prog.run_bind_ok hseek]
    exact hrun
  · rw [List.range_eq_range']
    exact ⟨hfilled.page, hfilled.ptes, hfilled.mem, hfilled.pool⟩

/-- The lazy way, up to the accesses. -/
theorem Loadable.run_lazy (h : Loadable s t f inode ofs upage readBytes zeroBytes) (writable : Bool) :
    ∃ s', (loadSegment t f ofs upage readBytes zeroBytes writable).run s = .ok (true, s') ∧
      AddedPages t upage (pageCount readBytes zeroBytes) (segmentPage f writable ofs upage readBytes.toNat) s s' := by
  have hofs := h.offset.1
  have hbytes := h.bytes
  have hlength := h.length
  have hnowrap := h.nowrap
  have hcount := h.count
  have hsmall : pageCount readBytes zeroBytes ≤ 2 ^ 52 := by
    unfold PGSIZE at hcount
    omega
  have hnone : ∀ j < pageCount readBytes zeroBytes, ¬ s.Paged t (nthPage upage j) := by
    intro j hj
    refine (h.unmapped j ?_).2
    rw [hcount]
    exact Nat.mul_lt_mul_of_pos_left hj (by decide)
  obtain ⟨s', hrun⟩ := run_loadPages h.aligned h.new h.allocs hcount le_rfl hsmall hnone
  refine ⟨s', ?_, loadPages_added h.aligned h.new (wrap32_of_lt hofs (by omega)) hcount le_rfl hrun⟩
  rw [loadSegment, if_neg h.asserts]
  exact hrun

/-- The pages that were recorded were not accessed yet. -/
theorem AddedPages.lazyPage {k i : Nat} {rb : Nat} (h : AddedPages t upage k (segmentPage f writable ofs upage rb) s s')
    (hal : Aligned upage) (hu : upage.toNat + PGSIZE * k ≤ KERN_BASE.toNat) (hi : i < k) :
    ∃ q, LazyPage s' t (nthPage upage i) q (segmentPage f writable ofs upage rb i) (infoOf f ofs rb i) := by
  obtain ⟨q, hq, hpage⟩ := h.found i hi
  exact ⟨q, hq, hpage, rfl, rfl, nofun, rfl, rfl, aligned_nthPage hal i, user_nthPage hu hi⟩

theorem Filled.same {bytes : Nat → List Byte} {l l' : List Nat} {s₁ s₂ : Vm} {i : Nat}
    (h : Filled t upage writable bytes l s s') (h' : Filled t upage writable bytes l' s₁ s₂) (hi : i ∈ l) (hi' : i ∈ l') :
    SamePage t writable s' s₂ (nthPage upage i) := by
  obtain ⟨kva, -, hbytes, hpte⟩ := h.page i hi
  obtain ⟨kva', -, hbytes', hpte'⟩ := h'.page i hi'
  exact ⟨_, _, hpte, hpte', rfl, rfl, rfl, rfl, hbytes.trans hbytes'.symm⟩

/-- **Lazy and eager loading agree.** Both return true, record or install the pages of the segment and no other
ones, and give each the same bytes, whatever the order of the accesses. -/
theorem lazy_agrees_eager (h : Loadable s t f inode ofs upage readBytes zeroBytes) {order : List Nat}
    (horder : order.Perm (List.range (pageCount readBytes zeroBytes))) :
    ∃ eager recorded lazy, (Project2.loadSegment t f ofs upage readBytes zeroBytes writable).run s = .ok (true, eager) ∧
      (loadSegment t f ofs upage readBytes zeroBytes writable).run s = .ok (true, recorded) ∧
      (claimPages t upage order).run recorded = .ok (true, lazy) ∧
      (∀ va, recorded.Paged t va ↔ s.Paged t va ∨ ∃ i < pageCount readBytes zeroBytes, va = nthPage upage i) ∧
      (∀ i < pageCount readBytes zeroBytes, SamePage t writable eager lazy (nthPage upage i)) ∧
      ∀ va, (∀ i < pageCount readBytes zeroBytes, va ≠ nthPage upage i) →
        eager.pte t va = s.pte t va ∧ lazy.pte t va = s.pte t va := by
  obtain ⟨eager, hrun, heager⟩ := h.run_eager writable
  obtain ⟨recorded, hrun', hadded⟩ := h.run_lazy writable
  have hcount := h.count
  have huser := h.user
  rw [hcount] at huser
  have hofs := h.offset.1
  have hbytes := h.bytes
  have hmem : ∀ i, i ∈ order ↔ i < pageCount readBytes zeroBytes := by
    intro i
    rw [horder.mem_iff, List.mem_range]
  have hlength : order.length = pageCount readBytes zeroBytes := by
    rw [horder.length_eq, List.length_range]
  have hne : ∀ i ∈ order, ∀ j ∈ order, i ≠ j → nthPage upage i ≠ nthPage upage j := by
    intro i hi j hj hij heq
    have hk : KERN_BASE.toNat = 0x8004000000 := rfl
    rw [hmem] at hi hj
    unfold PGSIZE at huser
    exact hij (nthPage_inj (by omega) (by omega) heq)
  have hthere : ∃ file, FileThere recorded f file inode := by
    obtain ⟨file, hthere⟩ := h.there
    refine ⟨file, ?_, ?_, hthere.onDisk.congr (by rw [hadded.fs])⟩
    · rw [hadded.fs]
      exact hthere.files
    · rw [hadded.fs]
      exact hthere.inodes
  have hlazy : ∀ i ∈ order, ∃ q, LazyPage recorded t (nthPage upage i) q
      (segmentPage f writable (ofs.toNat : Int) upage readBytes.toNat i) (infoOf f (ofs.toNat : Int) readBytes.toNat i) := by
    intro i hi
    rw [Int.toNat_of_nonneg hofs]
    exact hadded.lazyPage h.aligned huser ((hmem i).mp hi)
  obtain ⟨lazy, hrun'', hfilled⟩ := run_claimPages (s := recorded) (fun n => by rw [hadded.allocs]; exact h.allocs _)
    (by rw [hlength, hadded.userPool]; exact h.frames) hthere h.length (by omega) (horder.nodup_iff.mpr List.nodup_range)
    hne hlazy
  rw [hadded.fs] at hfilled
  refine ⟨eager, recorded, lazy, hrun, hrun', hrun'', fun va => ?_, fun i hi => ?_, fun va hva => ⟨?_, ?_⟩⟩
  · by_cases hva : ∃ i < pageCount readBytes zeroBytes, va = nthPage upage i
    · obtain ⟨i, hi, rfl⟩ := hva
      obtain ⟨q, hq, -⟩ := hadded.found i hi
      rw [Vm.Paged, hq]
      simp only [ne_eq, reduceCtorEq, not_false_eq_true, true_iff]
      exact .inr ⟨i, hi, rfl⟩
    · rw [Vm.Paged, hadded.others va fun j hj heq => hva ⟨j, hj, heq⟩, or_iff_left hva]
      exact Iff.rfl
  · exact heager.same hfilled (List.mem_range.mpr hi) ((hmem i).mpr hi)
  · exact heager.ptes va fun i hi => hva i (List.mem_range.mp hi)
  · rw [hfilled.ptes va fun i hi => hva i ((hmem i).mp hi), Vm.pte, Vm.pte, hadded.tables]

end

/-- A process with an open file of 5000 bytes, and two free frames. -/
def twoFrames : Vm :=
  .boot { FileSys.boot (fun _ _ => 0) 16 ⟨0, []⟩ [] ⟨0, 0⟩ with
    inodes := update (fun _ => none) 0 (some
      { sector := 2, openCnt := 1, removed := false, denyWriteCnt := 0, data := ⟨3, 5000⟩ })
    openInodes := [0]
    files := update (fun _ => none) 1 (some { inode := 0, pos := 0, denyWrite := false })
    brk := 2 } [false, false] 0

theorem twoFrames_loadable : Loadable twoFrames 1 1
    { sector := 2, openCnt := 1, removed := false, denyWriteCnt := 0, data := ⟨3, 5000⟩ } 0 0x400000 5000 3192 where
  offset := by decide
  aligned := by decide
  total := by decide
  nowrap := by decide
  there := by
    refine ⟨{ inode := 0, pos := 0, denyWrite := false }, rfl, rfl, by decide, fun i hi => ?_⟩
    have hcap : twoFrames.fs.capacity = 16 := rfl
    dsimp only at hi ⊢
    unfold FileSys.Selects DISK_SECTOR_SIZE
    omega
  length := by decide
  bytes := by decide
  user := by decide
  unmapped := fun _ _ => ⟨rfl, fun h => h rfl⟩
  new := by decide
  allocs := fun _ => rfl
  frames := by decide

/-- A segment of two pages, the second of which is accessed first. -/
theorem lazy_agrees_eager_backwards : ∃ eager recorded lazy,
    (Project2.loadSegment 1 1 0 0x400000 5000 3192 false).run twoFrames = .ok (true, eager) ∧
      (loadSegment 1 1 0 0x400000 5000 3192 false).run twoFrames = .ok (true, recorded) ∧
      (claimPages 1 0x400000 [1, 0]).run recorded = .ok (true, lazy) ∧
      ∀ i < 2, SamePage 1 false eager lazy (nthPage 0x400000 i) := by
  have horder : [1, 0].Perm (List.range (pageCount 5000 3192)) := by decide
  obtain ⟨eager, recorded, lazy, hrun, hrun', hrun'', -, hsame, -⟩ := lazy_agrees_eager twoFrames_loadable horder
  exact ⟨eager, recorded, lazy, hrun, hrun', hrun'', hsame⟩

end Pintos
