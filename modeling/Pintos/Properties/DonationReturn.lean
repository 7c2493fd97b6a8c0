import Mathlib.Order.Bounds.Basic
import Pintos.Threads.Donations

/-!
# `lock_release` gives back the donations of its lock

The links of the donations list, and what `Pintos/Threads/Interleave.lean` does to the sequence.

* `removeLoop_spec` — the walk keeps the donors that wait for another lock, in their order
* `giveBack_refines` — the two calls of `lock_release` do to the links what `Sys.removeDonation` and
  `Sys.rePriority` do to the sequence
* `giveBack_exact` — what is left in the list, and the priority that follows from it
-/

namespace Pintos.Donations

open Function Interleave

variable {mem : PageMem} {m : Sys} {curr : Tid} {lock : LockId} {P ds : List Tid} {n : Nat}

/-- **The walk of `remove_donation`**, behind the donors `P` that stay. -/
theorem removeLoop_spec (hcurr : IsThread curr) : ∀ {n : Nat} {mem : PageMem} {P ds : List Tid},
    IsList mem (donationsList curr) ((P ++ ds).map dElem) → (∀ d ∈ P ++ ds, IsThread d) →
    ds.length < n →
    ∃ mem', removeLoop m.waitOnLock lock (listTail (donationsList curr)) n mem
        (firstOf (donationsList curr) (ds.map dElem)) = .ok mem' ∧
      IsList mem' (donationsList curr)
        ((P ++ ds.filter fun d => m.waitOnLock d ≠ some lock).map dElem)
  | 0, _, _, _, _, _, hn => absurd hn (Nat.not_lt_zero _)
  | n + 1, mem, P, [], h, _, _ => ⟨mem, if_pos rfl, by simpa using h⟩
  | n + 1, mem, P, d :: ds, h, hds, hn => by
    have hN := elems_donationElems hcurr
    have hsub := listNodes_subset (t := curr) hds
    have hd : IsThread d := hds d (by simp)
    have hassoc : (P ++ d :: ds).map dElem = P.map dElem ++ dElem d :: ds.map dElem := by simp
    have htail : dElem d ≠ listTail (donationsList curr) := by
      rw [hassoc] at h
      exact IsList.firstOf_ne (R := ds.map dElem) (Y := []) (by simpa using h)
    rw [List.map_cons, firstOf_cons, removeLoop, if_neg htail]
    dsimp only
    rw [hd.donorOf_dElem, List.filter_cons]
    by_cases hw : m.waitOnLock d = some lock
    · -- the element goes, and its links lead on
      rw [hassoc] at h hsub
      obtain ⟨mem₁, hrem, h₁, hnext⟩ := h.removeStale hN hsub
      rw [← List.map_append] at h₁
      have hds₁ : ∀ x ∈ P ++ ds, IsThread x := by
        intro x hx
        refine hds x ?_
        rw [List.mem_append] at hx ⊢
        exact hx.imp_right (List.mem_cons_of_mem d)
      obtain ⟨mem', hloop, hlist⟩ := removeLoop_spec hcurr h₁ hds₁ (n := n) (by simpa using hn)
      refine ⟨mem', ?_, by simpa [hw] using hlist⟩
      rw [if_pos hw, hrem]
      show (mem₁.listNext (dElem d) >>= fun e => _) = _
      rw [hnext]
      exact hloop
    · have hnext := IsList.listNext (hassoc ▸ h) hN (hassoc ▸ hsub)
      have hassoc' : P ++ d :: ds = (P ++ [d]) ++ ds := by simp
      rw [hassoc'] at h hds
      obtain ⟨mem', hloop, hlist⟩ := removeLoop_spec hcurr h hds (n := n) (by simpa using hn)
      refine ⟨mem', ?_, by simpa [hw] using hlist⟩
      rw [if_neg hw]
      show (mem.listNext (dElem d) >>= fun e => _) = _
      rw [hnext]
      exact hloop

theorem removeDonation_spec (lock : LockId) (hcurr : IsThread curr)
    (h : IsList mem (donationsList curr) (ds.map dElem)) (hds : ∀ d ∈ ds, IsThread d)
    (hn : ds.length < n) :
    ∃ mem', removeDonation mem m curr lock n = .ok mem' ∧
      IsList mem' (donationsList curr)
        ((ds.filter fun d => m.waitOnLock d ≠ some lock).map dElem) := by
  have hbegin : mem.listBegin (donationsList curr) = firstOf (donationsList curr) (ds.map dElem) := by
    rw [h.begin]
    cases ds <;> rfl
  rw [removeDonation, hbegin]
  exact removeLoop_spec (P := []) hcurr h hds hn

/-- `cmp_donation_priority` puts the higher priority first. -/
theorem byKey_cmpDonationPriority (priority : Tid → Int) :
    ByKey (cmpDonationPriority priority) (fun e => priority (donorOf e)) where
  iff a b := by rw [cmpDonationPriority, decide_eq_true_iff, gt_iff_lt]

/-- **`re_priority`** on the links is `Sys.rePriority` on the sequence. -/
theorem rePriority_spec (hcurr : IsThread curr)
    (h : IsList mem (donationsList curr) ((m.donations curr).map dElem))
    (hds : ∀ d ∈ m.donations curr, IsThread d ∧ d ≠ curr) (hn : (m.donations curr).length < n) :
    ∃ mem', rePriority mem m curr n = .ok (mem', (m.rePriority curr).priority) ∧
      IsList mem' (donationsList curr) (((m.rePriority curr).donations curr).map dElem) := by
  have hN := elems_donationElems hcurr
  have hsub := listNodes_subset (t := curr) fun d hd => (hds d hd).1
  have hfield : (m.rePriority curr).donations curr = listSort (cmpPriority m.priority) (m.donations curr) := by
    simp [Sys.rePriority]
  rw [hfield, rePriority]
  by_cases hnil : m.donations curr = []
  · have hsort : listSort (cmpPriority m.priority) (m.donations curr) = [] := by
      rw [listSort_eq_nil, hnil]
    rw [hnil] at h
    refine ⟨mem, ?_, by rw [hsort]; exact h⟩
    rw [h.listEmpty]
    simp [Sys.rePriority, hsort]
  · -- the donors have the priorities from before
    let priority := update m.priority curr (m.initPriority curr)
    have hprio : ∀ d ∈ m.donations curr, priority d = m.priority d :=
      fun d hd => update_of_ne (hds d hd).2 _ _
    have hsort : listSort (cmpDonationPriority priority) ((m.donations curr).map dElem) =
        (listSort (cmpPriority m.priority) (m.donations curr)).map dElem := by
      refine listSort_map fun x hx y hy => ?_
      rw [cmpDonationPriority, (hds x hx).1.donorOf_dElem, (hds y hy).1.donorOf_dElem, hprio x hx,
        hprio y hy]
      rfl
    obtain ⟨mem', hrun, hlist, -⟩ := h.sort (byKey_cmpDonationPriority priority) hN hsub (n := n)
      (by simpa using hn)
    rw [hsort] at hlist
    refine ⟨mem', ?_, hlist⟩
    rw [h.listEmpty, if_neg (by simpa using hnil), hrun]
    -- the front of the sorted list
    cases hs : listSort (cmpPriority m.priority) (m.donations curr) with
    | nil => exact absurd (listSort_eq_nil.mp hs) hnil
    | cons front rest =>
      rw [hs, List.map_cons] at hlist
      have hmem : front ∈ m.donations curr := by
        have hin : front ∈ listSort (cmpPriority m.priority) (m.donations curr) := by simp [hs]
        exact mem_listSort.mp hin
      have hfront : mem'.listFront (donationsList curr) = .ok (dElem front) := by
        rw [PageMem.listFront, hlist.listEmpty]
        exact congrArg Except.ok hlist.begin
      show (mem'.listFront (donationsList curr) >>= fun e => _) = _
      rw [hfront]
      show Except.ok (mem', if priority curr < priority (donorOf (dElem front)) then _ else _) = _
      rw [(hds front hmem).1.donorOf_dElem, hprio front hmem]
      simp only [Sys.rePriority, hs, priority, update_self]
      split <;> simp [update_idem, (hds front hmem).2]

/-- **The two calls of `lock_release`** do to the links what the model does to the sequence. -/
theorem giveBack_refines (lock : LockId) (hcurr : IsThread curr)
    (h : IsList mem (donationsList curr) ((m.donations curr).map dElem))
    (hds : ∀ d ∈ m.donations curr, IsThread d ∧ d ≠ curr) (hn : (m.donations curr).length < n) :
    ∃ mem', giveBack mem m curr lock n =
        .ok (mem', ((m.removeDonation curr lock).rePriority curr).priority) ∧
      IsList mem' (donationsList curr)
        ((((m.removeDonation curr lock).rePriority curr).donations curr).map dElem) := by
  obtain ⟨mem₁, hrem, h₁⟩ := removeDonation_spec lock (m := m) hcurr h (fun d hd => (hds d hd).1) hn
  have hleft : (m.removeDonation curr lock).donations curr =
      (m.donations curr).filter fun d => m.waitOnLock d ≠ some lock := by
    simp [Sys.removeDonation]
  rw [← hleft] at h₁
  have hlen : ((m.removeDonation curr lock).donations curr).length < n := by
    rw [hleft]
    exact Nat.lt_of_le_of_lt (List.length_filter_le _ _) hn
  have hds₁ : ∀ d ∈ (m.removeDonation curr lock).donations curr, IsThread d ∧ d ≠ curr := by
    intro d hd
    rw [hleft] at hd
    exact hds d (List.mem_of_mem_filter hd)
  obtain ⟨mem', hre, h'⟩ := rePriority_spec hcurr h₁ hds₁ hlen
  refine ⟨mem', ?_, h'⟩
  rw [giveBack, hrem]
  exact hre

/-- The priority after `re_priority`: the larger of its own and those of the donors. -/
theorem rePriority_isGreatest (m : Sys) (curr : Tid) :
    IsGreatest (insert (m.initPriority curr) (m.priority '' {d | d ∈ m.donations curr}))
      ((m.rePriority curr).priority curr) := by
  have hperm := listSort_perm (cmpPriority m.priority) (m.donations curr)
  have hkey : ByKey (cmpPriority m.priority) m.priority :=
    ⟨fun a b => by rw [cmpPriority, decide_eq_true_iff, gt_iff_lt]⟩
  have hsorted := hkey.listSort (m.donations curr)
  simp only [Sys.rePriority, update_self]
  cases hs : listSort (cmpPriority m.priority) (m.donations curr) with
  | nil =>
    rw [listSort_eq_nil] at hs
    rw [hs]
    simp [isGreatest_singleton]
  | cons front rest =>
    rw [hs] at hperm hsorted
    have hle : ∀ d ∈ m.donations curr, m.priority d ≤ m.priority front := by
      intro d hd
      rcases List.mem_cons.mp (hperm.mem_iff.mpr hd) with rfl | hd
      · exact le_rfl
      · exact (List.pairwise_cons.mp hsorted).1 d hd
    have hfront : front ∈ m.donations curr := hperm.mem_iff.mp List.mem_cons_self
    dsimp only
    split
    · next hlt =>
      refine ⟨Or.inr ⟨front, hfront, rfl⟩, ?_⟩
      rintro p (rfl | ⟨d, hd, rfl⟩)
      · exact hlt.le
      · exact hle d hd
    · next hge =>
      refine ⟨Or.inl rfl, ?_⟩
      rintro p (rfl | ⟨d, hd, rfl⟩)
      · exact le_rfl
      · exact (hle d hd).trans (not_lt.mp hge)

/--
**`lock_release` gives back exactly the donations of its lock.** With enough rounds the links spell
the donors that wait for another lock, each once, and the priority is the largest of what is left.
-/
theorem giveBack_exact (hcurr : IsThread curr)
    (h : IsList mem (donationsList curr) ((m.donations curr).map dElem))
    (hds : ∀ d ∈ m.donations curr, IsThread d ∧ d ≠ curr) (lock : LockId) :
    ∃ N, ∀ n, N ≤ n → ∃ mem' priority, ∃ ds : List Tid, giveBack mem m curr lock n = .ok (mem', priority) ∧
      IsList mem' (donationsList curr) (ds.map dElem) ∧ ds.Nodup ∧
      (∀ d, d ∈ ds ↔ d ∈ m.donations curr ∧ m.waitOnLock d ≠ some lock) ∧
      IsGreatest (insert (m.initPriority curr) (m.priority '' {d | d ∈ ds})) (priority curr) ∧
      ∀ u, u ≠ curr → priority u = m.priority u := by
  refine ⟨(m.donations curr).length + 1, fun n hn => ?_⟩
  obtain ⟨mem', hrun, hlist⟩ := giveBack_refines lock hcurr h hds (n := n) hn
  have hmem : ∀ d, d ∈ ((m.removeDonation curr lock).rePriority curr).donations curr ↔
      d ∈ m.donations curr ∧ m.waitOnLock d ≠ some lock := by
    intro d
    simp [Sys.rePriority, Sys.removeDonation]
  refine ⟨mem', _, _, hrun, hlist, ?_, hmem, ?_, fun u hu => ?_⟩
  · have hnd := hlist.nodup
    rw [listNodes] at hnd
    exact (List.nodup_append.mp (List.nodup_cons.mp hnd).2).1.of_map dElem
  · have hgreatest := rePriority_isGreatest (m.removeDonation curr lock) curr
    have hset : {d | d ∈ ((m.removeDonation curr lock).rePriority curr).donations curr} =
        {d | d ∈ (m.removeDonation curr lock).donations curr} := by
      ext d
      simp [Sys.rePriority]
    rw [hset]
    exact hgreatest
  · simp [Sys.rePriority, Sys.removeDonation, hu]

/-- A donations list can be built in any memory. -/
theorem exists_isList (hcurr : IsThread curr) : ∀ {ds : List Tid}, (∀ d ∈ ds, IsThread d) → ds.Nodup →
    ∃ mem, IsList mem (donationsList curr) (ds.map dElem) := by
  have hN := elems_donationElems hcurr
  intro ds
  induction ds with
  | nil =>
    intro _ _
    have hne : donationsList curr ≠ listTail (donationsList curr) := by
      intro hc
      have hn := congrArg BitVec.toNat hc
      rw [hcurr.donationsList_toNat, hcurr.tail_toNat] at hn
      omega
    let mem : PageMem := fun _ _ => 0
    have hinit : IsList (mem.listInit (donationsList curr)) (donationsList curr) [] :=
      (isList_listInit hN (Or.inl (Or.inl rfl)) (Or.inl (Or.inr rfl)) hne).1
    exact ⟨_, hinit⟩
  | cons d ds ih =>
    intro hds hnd
    obtain ⟨hd, hnd⟩ := List.nodup_cons.mp hnd
    have hdt : IsThread d := hds d List.mem_cons_self
    have hds' : ∀ x ∈ ds, IsThread x := fun x hx => hds x (List.mem_cons_of_mem d hx)
    obtain ⟨mem, hlist⟩ := ih hds' hnd
    have hnew : dElem d ∉ listNodes (donationsList curr) (ds.map dElem) := by
      have hca := hcurr.aligned
      have hda := hdt.aligned
      simp only [listNodes, List.mem_cons, List.mem_append, List.mem_map, List.not_mem_nil, or_false]
      rintro (hc | ⟨x, hx, hc⟩ | hc)
      · have hn := congrArg BitVec.toNat hc
        rw [hdt.dElem_toNat, hcurr.donationsList_toNat] at hn
        omega
      · have hxd := congrArg donorOf hc
        rw [(hds' x hx).donorOf_dElem, hdt.donorOf_dElem] at hxd
        exact hd (hxd ▸ hx)
      · have hn := congrArg BitVec.toNat hc
        rw [hdt.dElem_toNat, hcurr.tail_toNat] at hn
        omega
    obtain ⟨mem', -, hlist', -⟩ :=
      hlist.pushFront hN (listNodes_subset hds') (Or.inr ⟨d, hdt, rfl⟩) hnew
    exact ⟨mem', hlist'⟩

/-- The first two of three donors wait for the lock. -/
theorem giveBack_exact_three : ∃ (mem : PageMem) (m : Sys) (n : Nat) (mem' : PageMem)
    (priority : Tid → Int) (ds : List Tid), m.donations 4096 = [8192, 12288, 16384] ∧
    giveBack mem m 4096 0 n = .ok (mem', priority) ∧
    IsList mem' (donationsList 4096) (ds.map dElem) ∧ (∀ d, d ∈ ds ↔ d = 16384) ∧ priority 4096 = 40 := by
  let m : Sys := { boot false (fun _ => 0) fun t => if t = 16384 then 40 else if t = 4096 then 31 else 50 with
    donations := fun _ => [8192, 12288, 16384]
    waitOnLock := fun t => if t = 16384 then some 1 else some 0 }
  have hthread : ∀ k, 0 < k → k < 5 → IsThread (4096 * k) := fun k _ _ => ⟨by omega, by omega, by omega⟩
  have hcurr : IsThread 4096 := hthread 1 (by decide) (by decide)
  have hds : ∀ d ∈ m.donations 4096, IsThread d ∧ d ≠ 4096 := by
    intro d hd
    simp only [m, List.mem_cons, List.not_mem_nil, or_false] at hd
    rcases hd with rfl | rfl | rfl
    · exact ⟨hthread 2 (by decide) (by decide), by decide⟩
    · exact ⟨hthread 3 (by decide) (by decide), by decide⟩
    · exact ⟨hthread 4 (by decide) (by decide), by decide⟩
  obtain ⟨mem, hlist⟩ := exists_isList hcurr (fun d hd => (hds d hd).1) (show [8192, 12288, 16384].Nodup by decide)
  obtain ⟨N, hN⟩ := giveBack_exact (m := m) hcurr hlist hds 0
  obtain ⟨mem', priority, ds, hrun, hlist', -, hmem, hgreatest, -⟩ := hN N le_rfl
  have hleft : ∀ d, d ∈ ds ↔ d = 16384 := by
    intro d
    rw [hmem]
    by_cases hd : d = 16384 <;> simp [m, hd]
  refine ⟨mem, m, N, mem', priority, ds, rfl, hrun, hlist', hleft, ?_⟩
  have h40 : IsGreatest (insert (m.initPriority 4096) (m.priority '' {d | d ∈ ds})) 40 := by
    refine ⟨Or.inr ⟨16384, (hleft _).mpr rfl, rfl⟩, ?_⟩
    rintro p (rfl | ⟨d, hd, rfl⟩)
    · decide
    · rw [(hleft d).mp hd]
      decide
  exact hgreatest.unique h40

end Pintos.Donations
