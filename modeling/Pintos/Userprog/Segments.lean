import Pintos.Userprog.Pages

/-!
# Pages of a segment

`load_segment` adds pages of a file to the supplemental page table, and loads nothing yet.

* `AddedPages` — consecutive pages were added, and nothing else has changed
* `loadPages_added` — those that the loop has added when it returns true
* `run_loadPages` — it returns true if no page is there and there is memory
-/

namespace Pintos

open Function

/-- Consecutive pages were added, and nothing else has changed. -/
structure AddedPages (t : Tid) (upage : Vaddr) (k : Nat) (page : Nat → Page) (s s' : Vm) : Prop where
  found : ∀ j < k, ∃ q, s'.findPage (nthPage upage j) (s'.spt t) = some q ∧ s'.pages q = some (page j)
  others : ∀ va, (∀ j < k, va ≠ nthPage upage j) → s'.findPage va (s'.spt t) = s.findPage va (s.spt t)
  fresh : ∀ j < k, s.findPage (nthPage upage j) (s.spt t) = none
  old : ∀ q < s.brk, s'.pages q = s.pages q
  new : s'.NewPages t
  brk : s.brk ≤ s'.brk
  allocs : s'.allocs = fun n => s.allocs (n + 2 * k)
  fs : s'.fs = s.fs
  mem : s'.mem = s.mem
  tables : s'.tables = s.tables
  userPool : s'.userPool = s.userPool

/-- The page `j` of a segment that starts at the offset `ofs`. -/
def segmentPage (file : FilePtr) (writable : Bool) (ofs : Int) (upage : Vaddr) (readBytes j : Nat) : Page :=
  uninitNew (nthPage upage j) true .anon
    (some (mapInfo (some file) (wrap32 (ofs + (min readBytes (PGSIZE * j) : Nat))) (readBytes - PGSIZE * j))) writable

/-- After a page of a segment is added. -/
def Vm.addSegment (s : Vm) (t : Tid) (file : FilePtr) (writable : Bool) (ofs : Int) (upage : Vaddr)
    (readBytes : Nat) : Vm :=
  s.asked.asked.addPage t (uninitNew upage true .anon (some (mapInfo (some file) ofs readBytes)) writable)

section

variable {s s' : Vm} {t : Tid} {file : FilePtr} {writable : Bool} {ofs : Int} {upage va : Vaddr}
  {fuel k readBytes zeroBytes : Nat} {page : Nat → Page}

theorem AddedPages.refl (hnew : s.NewPages t) : AddedPages t upage 0 page s s :=
  ⟨fun j hj => absurd hj (Nat.not_lt_zero j), fun _ _ => rfl, fun j hj => absurd hj (Nat.not_lt_zero j), fun _ _ => rfl,
    hnew, le_rfl, rfl, rfl, rfl, rfl, rfl⟩

/-- A page, and then those that follow it. -/
theorem AddedPages.cons {first : Page} (hnew : s.NewPages t) (hva : first.va = upage) (hp : ¬ s.Paged t upage)
    (hpage : page 0 = first)
    (h : AddedPages t (nthPage upage 1) k (fun j => page (j + 1)) (s.asked.asked.addPage t first) s') :
    AddedPages t upage (k + 1) page s s' := by
  set s₁ := s.asked.asked.addPage t first with hs₁
  have hfind : ∀ va, s₁.findPage va (s₁.spt t) = if upage = va then some s.brk else s.findPage va (s.spt t) := by
    intro va
    have hold : s.asked.asked.findPage va (s.spt t) = s.findPage va (s.spt t) := Vm.findPage_congr (by rfl) _
    rw [hs₁, hnew.asked.asked.findPage, hva]
    split
    · rfl
    · exact hold
  have hnext : ∀ j, nthPage (nthPage upage 1) j = nthPage upage (j + 1) := fun j => by rw [nthPage_add, Nat.add_comm]
  -- the first page is none of those that follow
  have hne : ∀ j < k, nthPage upage (j + 1) ≠ upage := by
    intro j hj heq
    have hnone := h.fresh j hj
    rw [hnext, heq, hfind, if_pos rfl] at hnone
    cases hnone
  obtain ⟨hfs, hmem, htables, hpool⟩ :
      s₁.fs = s.fs ∧ s₁.mem = s.mem ∧ s₁.tables = s.tables ∧ s₁.userPool = s.userPool := by
    simp only [hs₁, Vm.addPage, Vm.asked, Vm.setPage, Vm.setSpt, and_self]
  refine ⟨fun j hj => ?_, fun va hva' => ?_, fun j hj => ?_, fun q hq => ?_, h.new, ?_, ?_, h.fs.trans hfs,
    h.mem.trans hmem, h.tables.trans htables, h.userPool.trans hpool⟩
  · cases j with
    | zero =>
      have hsame := h.others upage fun j hj heq => hne j hj (by rw [← hnext]; exact heq.symm)
      refine ⟨s.brk, ?_, ?_⟩
      · rw [nthPage_zero, hsame, hfind, if_pos rfl]
      · rw [h.old s.brk (Nat.lt_succ_self _), hpage]
        exact update_self s.brk _ s.pages
    | succ j =>
      obtain ⟨q, hq, hpage⟩ := h.found j (Nat.succ_lt_succ_iff.mp hj)
      exact ⟨q, by rwa [← hnext], hpage⟩
  · rw [h.others va fun j hj => by rw [hnext]; exact hva' _ (Nat.succ_lt_succ hj), hfind, if_neg]
    exact fun heq => hva' 0 (Nat.succ_pos _) (by rw [nthPage_zero, heq])
  · cases j with
    | zero =>
      rw [nthPage_zero]
      exact not_not.mp hp
    | succ j =>
      have hnone := h.fresh j (Nat.succ_lt_succ_iff.mp hj)
      rwa [hnext, hfind, if_neg (hne j (Nat.succ_lt_succ_iff.mp hj)).symm] at hnone
  · exact (h.old q (hq.trans (Nat.lt_succ_self _))).trans (update_of_ne hq.ne _ s.pages)
  · exact (Nat.le_succ s.brk).trans h.brk
  · rw [h.allocs]
    funext n
    show s.allocs (n + 2 * k + 1 + 1) = s.allocs (n + 2 * (k + 1))
    congr 1

theorem anon_ne_uninit : VmType.anon ≠ .uninit := nofun

/-- The first page is added. -/
theorem run_loadPages_goes (hal : Aligned upage) (hn : ¬ (readBytes = 0 ∧ zeroBytes = 0)) (h0 : s.allocs 0 = true)
    (h1 : s.allocs 1 = true) (hp : ¬ s.Paged t upage) :
    (loadPages t file writable (fuel + 1) ofs upage readBytes zeroBytes).run s =
      (loadPages t file writable fuel (wrap32 (ofs + (min readBytes PGSIZE : Nat))) (nthPage upage 1)
        (readBytes - min readBytes PGSIZE) (zeroBytes - (PGSIZE - min readBytes PGSIZE))).run
        (s.addSegment t file writable ofs upage readBytes) := by
  have hp' : ¬ s.asked.Paged t upage := by rwa [Vm.paged_asked]
  rw [loadPages, if_neg hn]
  dsimp only
  rw [Prog.run_bind_ok (run_vmAlloc s), h0, if_pos rfl, Prog.run_bind_ok (run_vmAllocPage anon_ne_uninit hal hp' h1),
    if_pos rfl]
  rfl

/-- A loop that returns true has added the first page. -/
theorem of_loadPages_true (hal : Aligned upage) (hn : ¬ (readBytes = 0 ∧ zeroBytes = 0))
    (hrun : (loadPages t file writable (fuel + 1) ofs upage readBytes zeroBytes).run s = .ok (true, s')) :
    s.allocs 0 = true ∧ s.allocs 1 = true ∧ ¬ s.Paged t upage := by
  rw [loadPages, if_neg hn] at hrun
  dsimp only at hrun
  rw [Prog.run_bind_ok (run_vmAlloc s)] at hrun
  cases h0 : s.allocs 0 with
  | false =>
    rw [h0] at hrun
    cases hrun
  | true =>
    rw [h0, if_pos rfl] at hrun
    have hcov : s.asked.Covered t upage ↔ s.Paged t upage := by
      rw [Vm.Covered, pgRoundDown_of_aligned hal, Vm.paged_asked]
    by_cases hp : s.Paged t upage
    · rw [Prog.run_bind_ok (run_vmAllocPage_there anon_ne_uninit (hcov.mpr hp))] at hrun
      cases hrun
    · refine ⟨rfl, ?_, hp⟩
      by_contra h1
      have h1 : s.asked.allocs 0 = false := Bool.eq_false_of_not_eq_true h1
      rw [Prog.run_bind_ok (run_vmAllocPage_refused anon_ne_uninit (fun hc => hp (hcov.mp hc)) h1)] at hrun
      cases hrun

/-- What is left of a segment after a page. -/
theorem segmentPage_succ (j : Nat) :
    segmentPage file writable (wrap32 (ofs + (min readBytes PGSIZE : Nat))) (nthPage upage 1)
      (readBytes - min readBytes PGSIZE) j = segmentPage file writable ofs upage readBytes (j + 1) := by
  have hofs : min readBytes PGSIZE + min (readBytes - min readBytes PGSIZE) (PGSIZE * j) =
      min readBytes (PGSIZE * (j + 1)) := by
    unfold PGSIZE
    omega
  have hleft : readBytes - min readBytes PGSIZE - PGSIZE * j = readBytes - PGSIZE * (j + 1) := by
    unfold PGSIZE
    omega
  unfold segmentPage
  rw [nthPage_add, Nat.add_comm 1 j, wrap32_add, add_assoc, ← Nat.cast_add, hofs, hleft]

/-- What the loop has added when it returns true. -/
theorem loadPages_added (hal : Aligned upage) (hnew : s.NewPages t) (hofs : wrap32 ofs = ofs)
    (htotal : readBytes + zeroBytes = PGSIZE * k) (hle : k ≤ fuel)
    (hrun : (loadPages t file writable fuel ofs upage readBytes zeroBytes).run s = .ok (true, s')) :
    AddedPages t upage k (segmentPage file writable ofs upage readBytes) s s' := by
  induction k generalizing s ofs upage readBytes zeroBytes fuel with
  | zero =>
    have hzero : readBytes = 0 ∧ zeroBytes = 0 := by omega
    cases fuel with
    | zero =>
      cases hrun
      exact .refl hnew
    | succ fuel =>
      rw [loadPages, if_pos hzero] at hrun
      cases hrun
      exact .refl hnew
  | succ k ih =>
    obtain ⟨fuel, rfl⟩ := Nat.exists_eq_succ_of_ne_zero (n := fuel) (by omega)
    have hn : ¬ (readBytes = 0 ∧ zeroBytes = 0) := by
      unfold PGSIZE at htotal
      omega
    obtain ⟨h0, h1, hp⟩ := of_loadPages_true hal hn hrun
    rw [run_loadPages_goes hal hn h0 h1 hp] at hrun
    have hnew₁ : (s.addSegment t file writable ofs upage readBytes).NewPages t := hnew.asked.asked.addPage
    have hrest := ih (aligned_nthPage hal 1) hnew₁ (wrap32_wrap32 _) (by unfold PGSIZE at *; omega)
      (Nat.succ_le_succ_iff.mp hle) hrun
    have hva : (uninitNew upage true .anon (some (mapInfo (some file) ofs readBytes)) writable).va = upage := rfl
    rw [funext segmentPage_succ] at hrest
    refine .cons hnew hva hp ?_ hrest
    rw [segmentPage, nthPage_zero, Nat.mul_zero, Nat.min_zero, Nat.cast_zero, add_zero, hofs, Nat.sub_zero]

/-- The loop returns true if no page is there and there is memory. -/
theorem run_loadPages (hal : Aligned upage) (hnew : s.NewPages t) (hallocs : ∀ n, s.allocs n = true)
    (htotal : readBytes + zeroBytes = PGSIZE * k) (hle : k ≤ fuel) (hk : k ≤ 2 ^ 52)
    (hnone : ∀ j < k, ¬ s.Paged t (nthPage upage j)) :
    ∃ s', (loadPages t file writable fuel ofs upage readBytes zeroBytes).run s = .ok (true, s') := by
  induction k generalizing s ofs upage readBytes zeroBytes fuel with
  | zero =>
    have hzero : readBytes = 0 ∧ zeroBytes = 0 := by omega
    cases fuel with
    | zero => exact ⟨s, rfl⟩
    | succ fuel => exact ⟨s, by rw [loadPages, if_pos hzero]; rfl⟩
  | succ k ih =>
    obtain ⟨fuel, rfl⟩ := Nat.exists_eq_succ_of_ne_zero (n := fuel) (by omega)
    have hn : ¬ (readBytes = 0 ∧ zeroBytes = 0) := by
      unfold PGSIZE at htotal
      omega
    have hp : ¬ s.Paged t upage := by
      have hp := hnone 0 (Nat.succ_pos k)
      rwa [nthPage_zero] at hp
    have hnew₁ : (s.addSegment t file writable ofs upage readBytes).NewPages t := hnew.asked.asked.addPage
    rw [run_loadPages_goes hal hn (hallocs 0) (hallocs 1) hp]
    refine ih (aligned_nthPage hal 1) hnew₁ (fun n => hallocs _) (by unfold PGSIZE at *; omega)
      (Nat.succ_le_succ_iff.mp hle) (by omega) fun j hj hpaged => ?_
    rw [nthPage_add, Nat.add_comm, Vm.addSegment, Vm.paged_addPage hnew.asked.asked, Vm.paged_asked,
      Vm.paged_asked] at hpaged
    rcases hpaged with heq | hpaged
    · have hj0 := nthPage_inj (i := j + 1) (k := 0) (by omega) (by omega) (heq.trans (nthPage_zero upage).symm)
      omega
    · exact hnone (j + 1) (by omega) hpaged

end

end Pintos
