import Pintos.Userprog.Buffer
import Pintos.Userprog.Memory

/-!
# Pages in a supplemental page table

* `nthPage` — the pages that follow an address
* `run_vmAllocPage` — a page is added, unless it is there or there is no memory for it
* `Vm.paged_addPage` — the table then has this page and those it had
-/

namespace Pintos

open Function

/-! ## Addresses -/

/-- The page `k` from an address on. -/
def nthPage (a : Vaddr) (k : Nat) : Vaddr := a + BitVec.ofNat 64 (PGSIZE * k)

section

variable {a va : Vaddr} {i k : Nat}

@[simp] theorem nthPage_zero (a : Vaddr) : nthPage a 0 = a := by simp [nthPage]

theorem nthPage_add (a : Vaddr) (i k : Nat) : nthPage (nthPage a i) k = nthPage a (i + k) := by
  unfold nthPage
  rw [BitVec.add_assoc, ← BitVec.ofNat_add, Nat.mul_add]

theorem nthPage_toNat (h : a.toNat + PGSIZE * k < 2 ^ 64) : (nthPage a k).toNat = a.toNat + PGSIZE * k := by
  unfold nthPage
  rw [BitVec.toNat_add, BitVec.toNat_ofNat]
  omega

/-- The pages are different up to the end of the address space. -/
theorem nthPage_inj (hi : i < 2 ^ 52) (hk : k < 2 ^ 52) (h : nthPage a i = nthPage a k) : i = k := by
  unfold nthPage at h
  have hn := congrArg BitVec.toNat (BitVec.add_right_inj a |>.mp h)
  rw [BitVec.toNat_ofNat, BitVec.toNat_ofNat] at hn
  unfold PGSIZE at hn
  omega

/-- After `2 ^ 52` of them they begin again. -/
theorem nthPage_wrap (a : Vaddr) (k : Nat) : nthPage a (k + 2 ^ 52) = nthPage a k := by
  refine BitVec.eq_of_toNat_eq ?_
  unfold nthPage
  rw [BitVec.toNat_add, BitVec.toNat_add, BitVec.toNat_ofNat, BitVec.toNat_ofNat]
  unfold PGSIZE
  omega

theorem aligned_nthPage (h : Aligned a) (k : Nat) : Aligned (nthPage a k) := by
  rw [aligned_iff] at h ⊢
  unfold nthPage
  rw [BitVec.toNat_add, BitVec.toNat_ofNat]
  unfold PGSIZE
  omega

end

/-! ## Pages that are added -/

/-- What a page of a file refers to, with `n` bytes left. -/
def mapInfo (file : Option FilePtr) (ofs : Int) (n : Nat) : FileInfo :=
  { file := file, ofs := ofs, readBytes := n, pageReadBytes := min n PGSIZE,
    pageZeroBytes := PGSIZE - min n PGSIZE }

namespace Vm

/-- `file_length`. -/
def lengthOf (s : Vm) (f : FilePtr) : Int :=
  match s.fs.files f with
  | none => 0
  | some file =>
    match s.fs.inodes file.inode with
    | none => 0
    | some inode => inode.data.length

/-- A request of memory was answered. -/
def asked (s : Vm) : Vm := { s with allocs := fun n => s.allocs (n + 1) }

/-- A new page goes to the front of the table. -/
def addPage (s : Vm) (t : Tid) (page : Page) : Vm :=
  { (s.setPage s.brk (some page)).setSpt t (s.brk :: s.spt t) with brk := s.brk + 1 }

/-- New pages are none of those in the table. -/
def NewPages (s : Vm) (t : Tid) : Prop := ∀ q ∈ s.spt t, q < s.brk

instance (s : Vm) (t : Tid) : Decidable (s.NewPages t) := inferInstanceAs (Decidable (∀ q ∈ s.spt t, q < s.brk))

variable {s s' : Vm} {t : Tid} {va : Vaddr} {page : Page}

@[simp] theorem paged_asked : s.asked.Paged t va ↔ s.Paged t va := by
  unfold Paged
  rw [findPage_congr (s := s) (by rfl)]
  exact Iff.rfl

theorem paged_congr (hp : s'.pages = s.pages) (ht : s'.spt = s.spt) : s'.Paged t va ↔ s.Paged t va := by
  unfold Paged
  rw [findPage_congr hp, ht]

theorem mem_of_findPage {q : PagePtr} {l : List PagePtr} (h : s.findPage va l = some q) : q ∈ l := by
  induction l with
  | nil => cases h
  | cons q' rest ih =>
    unfold findPage at h
    split at h
    · exact List.mem_cons_of_mem _ (ih h)
    · split at h
      · cases h
        exact List.mem_cons_self
      · exact List.mem_cons_of_mem _ (ih h)

theorem pte_setPte {pte : Pte} {va' : Vaddr} :
    (s.setPte t va pte).pte t va' = if va' = va then some pte else s.pte t va' := by
  have htable : (s.setPte t va pte).pte t va' =
      (update s.tables (space t va) ((s.tables (space t va)).insert va pte) (space t va')).lookup va' := rfl
  rw [htable]
  split
  · next hva =>
    subst hva
    rw [update_self, AList.lookup_insert]
  · next hva =>
    by_cases hsp : space t va' = space t va
    · rw [hsp, update_self, AList.lookup_insert_ne hva, Vm.pte, hsp]
    · rw [update_of_ne hsp, Vm.pte]

@[simp] theorem addPage_spt : (s.addPage t page).spt t = s.brk :: s.spt t := update_self t _ s.spt

theorem NewPages.asked (h : s.NewPages t) : s.asked.NewPages t := h

theorem NewPages.addPage (h : s.NewPages t) : (s.addPage t page).NewPages t := by
  intro q hq
  rw [addPage_spt, List.mem_cons] at hq
  rcases hq with rfl | hq
  · exact Nat.lt_succ_self _
  · exact (h q hq).trans (Nat.lt_succ_self _)

/-- Older pages are looked up as before. -/
theorem NewPages.findPage (h : s.NewPages t) :
    (s.addPage t page).findPage va ((s.addPage t page).spt t) =
      if page.va = va then some s.brk else s.findPage va (s.spt t) := by
  have hnew : (s.addPage t page).pages s.brk = some page := update_self s.brk _ s.pages
  have hold : ∀ l : List PagePtr, (∀ q ∈ l, q < s.brk) → (s.addPage t page).findPage va l = s.findPage va l := by
    intro l hl
    induction l with
    | nil => rfl
    | cons q rest ih =>
      have hq : (s.addPage t page).pages q = s.pages q :=
        update_of_ne (hl q List.mem_cons_self).ne _ s.pages
      unfold Vm.findPage
      rw [hq, ih fun r hr => hl r (List.mem_cons_of_mem q hr)]
  rw [addPage_spt, Vm.findPage, hnew]
  dsimp only
  rw [hold _ h]

theorem paged_addPage (h : s.NewPages t) : (s.addPage t page).Paged t va ↔ va = page.va ∨ s.Paged t va := by
  unfold Paged
  rw [h.findPage]
  split
  · next hva => simp [hva]
  · next hva => simp [Ne.symm hva]

end Vm

section

variable {s : Vm} {t : Tid} {upage : Vaddr} {type : VmType} {writable init : Bool} {aux : Option FileInfo}

theorem run_sptFindPage (s : Vm) (t : Tid) (va : Vaddr) :
    (sptFindPage t va).run s = .ok (s.findPage (pgRoundDown va) (s.spt t), s) := Prog.run_read rfl

theorem run_vmAlloc (s : Vm) : vmAlloc.run s = .ok (s.allocs 0, s.asked) := Prog.run_lift _ _

theorem run_vmAllocPage_there (htype : type ≠ .uninit) (h : s.Covered t upage) :
    (vmAllocPage t type upage writable init aux).run s = .ok (false, s) := by
  obtain ⟨q, hq⟩ := Option.ne_none_iff_exists'.mp h
  unfold vmAllocPage
  rw [if_neg htype, Prog.run_bind_ok (run_sptFindPage s t upage), hq]
  rfl

theorem run_vmAllocPage_refused (htype : type ≠ .uninit) (h : ¬ s.Covered t upage) (ha : s.allocs 0 = false) :
    (vmAllocPage t type upage writable init aux).run s = .ok (false, s.asked) := by
  unfold vmAllocPage
  rw [if_neg htype, Prog.run_bind_ok (run_sptFindPage s t upage), not_not.mp h]
  dsimp only
  rw [Prog.run_bind_ok (run_vmAlloc s), ha]
  rfl

/-- The page is added. -/
theorem run_vmAllocPage (htype : type ≠ .uninit) (hal : Aligned upage) (h : ¬ s.Paged t upage)
    (ha : s.allocs 0 = true) : (vmAllocPage t type upage writable init aux).run s =
      .ok (true, s.asked.addPage t (uninitNew upage init type aux writable)) := by
  have hnone : s.findPage upage (s.spt t) = none := not_not.mp h
  have hround : s.findPage (pgRoundDown upage) (s.spt t) = none := by rwa [pgRoundDown_of_aligned hal]
  have hasked : s.asked.findPage upage (s.asked.spt t) = none := by
    rw [← hnone]
    exact Vm.findPage_congr (by rfl) _
  unfold vmAllocPage
  rw [if_neg htype, Prog.run_bind_ok (run_sptFindPage s t upage), hround]
  dsimp only
  rw [Prog.run_bind_ok (run_vmAlloc s), ha, if_pos rfl, Prog.run_lift, hasked]
  rfl

end

end Pintos
