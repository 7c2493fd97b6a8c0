import Pintos.Threads.ThreadCreate

/-!
# A `thread_create` that fails

The first allocation of `thread_create` is undone by nobody when the second one fails, and
`init_thread` has put the page on `all_list` by then.

* `threadCreate_fails` — the two ways to fail, and what each leaves
* `threadCreate_untouched_iff` — when a failure leaves nothing
-/

namespace Pintos.Threads

open Function

variable {s s' : Threads} {name : List (BitVec 8)} {priority : Int} {function : BitVec 64}
  {others : Threads → Threads} {i : Nat}

/-- The lists and the kernel pages in use are those of before. -/
structure Untouched (s s' : Threads) : Prop where
  all : s'.allList = s.allList
  ready : s'.readyList = s.readyList
  child : (s'.thread s.current).childList = (s.thread s.current).childList
  used : ∀ q, s'.pools.Used false q ↔ s.pools.Used false q

/-- The page `i` of the kernel pool is the first free one. -/
def FirstFree (s : Threads) (i : Nat) : Prop :=
  s.pools.kernelPool.usedMap[i]? = some false ∧
    ∀ j, j < i → s.pools.kernelPool.usedMap[j]? ≠ some false

/-- Besides the first free page of the kernel pool, if there is one, three pages in a row are free. -/
def Roomy (s : Threads) : Prop :=
  ∀ i, s.FirstFree i → ∃ k, ∀ j, k ≤ j → j < k + FDT_PAGES →
    j ≠ i ∧ s.pools.kernelPool.usedMap[j]? = some false

/-! ## The allocations -/

/-- `bitmap_scan` for one bit finds the first free page. -/
theorem scan_eq_some :
    bitmapScan s.pools.kernelPool.usedMap 0 1 false = some i ↔ s.FirstFree i := by
  constructor
  · intro h
    obtain ⟨-, -, hbits⟩ := bitmapScan_some h
    refine ⟨hbits i (Nat.le_refl i) (Nat.lt_succ_self i), fun j hj hbit => ?_⟩
    obtain ⟨k, hjk, hkj, hk⟩ := bitmapScan_first h (Nat.zero_le j) hj
    have hkj' : k = j := by omega
    exact hk (hkj' ▸ hbit)
  · rintro ⟨hbit, hbefore⟩
    cases hs : bitmapScan s.pools.kernelPool.usedMap 0 1 false with
    | none => exact absurd hbit (bitmapScan_none hs (Nat.zero_le i))
    | some k =>
      obtain ⟨-, -, hbits⟩ := bitmapScan_some hs
      have hk := hbits k (Nat.le_refl k) (Nat.lt_succ_self k)
      rcases Nat.lt_trichotomy k i with hlt | rfl | hgt
      · exact absurd hk (hbefore k hlt)
      · rfl
      · obtain ⟨j, hij, hji, hj⟩ := bitmapScan_first hs (Nat.zero_le i) hgt
        have hji' : j = i := by omega
        exact absurd (hji' ▸ hbit) hj

theorem scan_eq_none :
    bitmapScan s.pools.kernelPool.usedMap 0 1 false = none ↔ ∀ i, ¬ s.FirstFree i := by
  constructor
  · intro h i hi
    rw [scan_eq_some.mpr hi] at h
    cases h
  · intro h
    cases hs : bitmapScan s.pools.kernelPool.usedMap 0 1 false with
    | none => rfl
    | some i => exact absurd (scan_eq_some.mp hs) (h i)

/-- The kernel pool's bitmap once the page `i` is taken. -/
def mapWithout (s : Threads) (i : Nat) : Bitmap :=
  bitmapSetMultiple s.pools.kernelPool.usedMap i 1 true

theorem FirstFree.mapWithout (h : s.FirstFree i) (j : Nat) :
    (s.mapWithout i)[j]? = if j = i then some true else s.pools.kernelPool.usedMap[j]? :=
  Pool.bit_setBit (Pool.lt_of_bit h.1) true j

/-- The descriptor table finds its pages exactly when three in a row are left. -/
theorem FirstFree.scan_isSome (h : s.FirstFree i) :
    (bitmapScan (s.mapWithout i) 0 FDT_PAGES false).isSome ↔
      ∃ k, ∀ j, k ≤ j → j < k + FDT_PAGES → j ≠ i ∧ s.pools.kernelPool.usedMap[j]? = some false := by
  constructor
  · intro hsome
    obtain ⟨k, hk⟩ := Option.isSome_iff_exists.mp hsome
    obtain ⟨-, -, hbits⟩ := bitmapScan_some hk
    refine ⟨k, fun j hj hlt => ?_⟩
    have hbit := hbits j hj hlt
    rw [h.mapWithout] at hbit
    split at hbit
    · cases hbit
    · next hne => exact ⟨hne, hbit⟩
  · rintro ⟨k, hk⟩
    have hbits : ∀ j, k ≤ j → j < k + FDT_PAGES → (s.mapWithout i)[j]? = some false := by
      intro j hj hlt
      rw [h.mapWithout, if_neg (hk j hj hlt).1]
      exact (hk j hj hlt).2
    have hlast := hbits (k + 2) (by omega) (by
      show k + 2 < k + 3
      omega)
    have hlen := (List.getElem?_eq_some_iff.mp hlast).1
    exact bitmapScan_isSome (Nat.zero_le k) (by
      show k + 3 ≤ _
      omega) hbits

/-- The pools once the page `i` is taken and zeroed. -/
def takePage (s : Threads) (i : Nat) : Pools where
  mem := memset s.pools.mem (s.pools.kernelPool.page i) 0 1
  kernelPool := { s.pools.kernelPool with usedMap := s.mapWithout i }
  userPool := s.pools.userPool

theorem getPage_some (h : s.FirstFree i) :
    s.pools.pallocGetPage { zero := true } = .ok (some (s.pools.kernelPool.page i), s.takePage i) := by
  simp only [Pools.pallocGetPage, Pools.pallocGetMultiple, Pools.pool, bitmapScanAndFlip,
    Bool.false_eq_true, if_false, scan_eq_some.mpr h]
  rfl

theorem getPage_none (h : ∀ i, ¬ s.FirstFree i) :
    s.pools.pallocGetPage { zero := true } = .ok (none, s.pools) := by
  simp only [Pools.pallocGetPage, Pools.pallocGetMultiple, Pools.pool, bitmapScanAndFlip,
    Bool.false_eq_true, if_false, scan_eq_none.mpr h]

theorem FirstFree.used_takePage (h : s.FirstFree i) (q : Vaddr) :
    (s.takePage i).Used false q ↔ s.pools.Used false q ∨ q = s.pools.kernelPool.page i :=
  Pool.used_setTrue (Pool.lt_of_bit h.1)

/-- `palloc_get_multiple` without the flag `PAL_ASSERT` never panics. -/
theorem getFdt (p : Pools) : p.pallocGetMultiple { zero := true } FDT_PAGES =
    match bitmapScan p.kernelPool.usedMap 0 FDT_PAGES false with
    | none => .ok (none, p)
    | some k => .ok (some (p.kernelPool.page k),
      { p with
        kernelPool := { p.kernelPool with
          usedMap := bitmapSetMultiple p.kernelPool.usedMap k FDT_PAGES true }
        mem := memset p.mem (p.kernelPool.page k) 0 FDT_PAGES }) := by
  simp only [Pools.pallocGetMultiple, Pools.pool, bitmapScanAndFlip, Bool.false_eq_true, if_false]
  cases bitmapScan p.kernelPool.usedMap 0 FDT_PAGES false <;> rfl

/-! ## The call -/

/-- Without a free page nothing happens. -/
theorem threadCreate_noPage (hf : function ≠ 0) (h : ∀ i, ¬ s.FirstFree i) :
    s.threadCreate name priority function others = .ok (none, s) := by
  rw [threadCreate, if_neg hf, getPage_none h]
  rfl

/-- What the call has done when the descriptor table finds no pages. -/
structure LeftBehind (s s' : Threads) (t : Vaddr) : Prop where
  all : s'.allList = s.allList ++ [t]
  ready : s'.readyList = s.readyList
  used : ∀ q, s'.pools.Used false q ↔ s.pools.Used false q ∨ q = t

/-- With a page for the thread and none for its descriptor table, the thread stays on `all_list`. -/
theorem threadCreate_noFdt (name : List (BitVec 8)) (others : Threads → Threads) (hf : function ≠ 0)
    (hp : PRI_MIN ≤ priority ∧ priority ≤ PRI_MAX)
    (h : s.FirstFree i) (hscan : bitmapScan (s.mapWithout i) 0 FDT_PAGES false = none) :
    ∃ s', s.threadCreate name priority function others = .ok (none, s') ∧
      LeftBehind s s' (s.pools.kernelPool.page i) := by
  have hfdt : (s.takePage i).pallocGetMultiple { zero := true } FDT_PAGES = .ok (none, s.takePage i) := by
    rw [getFdt]
    simp only [takePage, hscan]
  rw [threadCreate, if_neg hf, getPage_some h]
  show ∃ s', (initThread _ _ name priority >>= fun s => _) = _ ∧ _
  rw [initThread, if_pos hp]
  show ∃ s', ((s.takePage i).pallocGetMultiple { zero := true } FDT_PAGES >>= fun r => _) = _ ∧ _
  rw [hfdt]
  exact ⟨_, rfl, rfl, rfl, h.used_takePage⟩

/-- With both, the new thread has a tid. -/
theorem threadCreate_succeeds (name : List (BitVec 8)) (others : Threads → Threads) (hf : function ≠ 0)
    (hp : PRI_MIN ≤ priority ∧ priority ≤ PRI_MAX)
    (h : s.FirstFree i) (hscan : (bitmapScan (s.mapWithout i) 0 FDT_PAGES false).isSome) :
    ∃ tid s', s.threadCreate name priority function others = .ok (some tid, s') := by
  obtain ⟨k, hk⟩ := Option.isSome_iff_exists.mp hscan
  have hfdt := getFdt (s.takePage i)
  have hk' : bitmapScan (s.takePage i).kernelPool.usedMap 0 FDT_PAGES false = some k := hk
  rw [hk'] at hfdt
  rw [threadCreate, if_neg hf, getPage_some h]
  show ∃ tid s', (initThread _ _ name priority >>= fun s => _) = _
  rw [initThread, if_pos hp]
  show ∃ tid s', ((s.takePage i).pallocGetMultiple { zero := true } FDT_PAGES >>= fun r => _) = _
  rw [hfdt]
  show ∃ tid s', (threadUnblock _ _ >>= fun s => _) = _
  rw [threadUnblock, if_pos (by simp [openStd, setFdt, setThread])]
  exact ⟨_, _, rfl⟩

/-- A thread that stays on `all_list` is a trace. -/
theorem LeftBehind.not_untouched {t : Vaddr} (h : LeftBehind s s' t) : ¬ Untouched s s' := by
  intro hu
  have hlen := congrArg List.length (h.all.symm.trans hu.all)
  simp at hlen

/--
**A failed `thread_create` leaves no trace** exactly when there was no page for the thread, or would
have been pages for the descriptor table as well.
-/
theorem threadCreate_untouched_iff (name : List (BitVec 8)) (others : Threads → Threads) (hf : function ≠ 0)
    (hp : PRI_MIN ≤ priority ∧ priority ≤ PRI_MAX) :
    (∀ s', s.threadCreate name priority function others = .ok (none, s') → Untouched s s') ↔
      s.Roomy := by
  by_cases hfree : ∃ i, s.FirstFree i
  · obtain ⟨i, hi⟩ := hfree
    have hroomy : s.Roomy ↔ (bitmapScan (s.mapWithout i) 0 FDT_PAGES false).isSome := by
      rw [hi.scan_isSome]
      constructor
      · exact fun h => h i hi
      · intro h j hj
        have hij : j = i := by
          rw [← scan_eq_some] at hi hj
          exact Option.some.inj (hj.symm.trans hi)
        rw [hij]
        exact h
    rw [hroomy]
    cases hscan : bitmapScan (s.mapWithout i) 0 FDT_PAGES false with
    | none =>
      obtain ⟨s', hs, hleft⟩ := threadCreate_noFdt name others hf hp hi hscan
      exact iff_of_false (fun h => hleft.not_untouched (h s' hs)) (by simp)
    | some k =>
      obtain ⟨tid, s', hs⟩ :=
        threadCreate_succeeds name others hf hp hi (by rw [hscan]; rfl)
      refine iff_of_true (fun s'' hs' => ?_) rfl
      rw [hs] at hs'
      cases hs'
  · have hnone : ∀ i, ¬ s.FirstFree i := fun i hi => hfree ⟨i, hi⟩
    refine iff_of_true (fun s' hs => ?_) fun i hi => absurd hi (hnone i)
    rw [threadCreate_noPage hf hnone] at hs
    cases hs
    exact ⟨rfl, rfl, rfl, fun _ => Iff.rfl⟩

/-- The main thread in the first page of the kernel pool, whose pages in use are `usedMap`. -/
def mainOnly (usedMap : Bitmap) : Threads where
  pools := {
    mem := fun _ _ => 0
    kernelPool := { base := 0x8004200000, usedMap := usedMap }
    userPool := { base := 0x8005000000, usedMap := [] } }
  thread _ := {
    tid := 1
    status := .running
    name := []
    priority := PRI_DEFAULT
    initPriority := PRI_DEFAULT
    waitOnLock := none
    donations := []
    nice := 0
    recentCpu := 0
    childList := []
    waitSema := semaInit 0
    freeSema := semaInit 0
    loadSema := semaInit 0
    fdt := none
    fdIndex := 2 }
  allList := [0x8004200000]
  readyList := []
  current := 0x8004200000
  nextTid := 2

/-- With every page in use the call fails and nothing changes. -/
theorem threadCreate_untouched_full : ∃ s', (mainOnly [true, true]).threadCreate [] 31 1 id =
    .ok (none, s') ∧ Untouched (mainOnly [true, true]) s' := by
  refine ⟨_, rfl, ?_⟩
  have hiff := threadCreate_untouched_iff (s := mainOnly [true, true]) [] id
    (show (1 : BitVec 64) ≠ 0 by decide) (show PRI_MIN ≤ 31 ∧ 31 ≤ PRI_MAX by decide)
  refine hiff.mpr ?_ _ rfl
  rintro (_ | _ | i) ⟨hbit, -⟩
  · cases hbit
  · cases hbit
  · cases hbit

/-- With one page left the call fails, and the main thread is no longer alone on `all_list`. -/
theorem threadCreate_leaves_thread : ¬ ∀ (s : Threads) (name : List (BitVec 8)) (priority : Int)
    (function : BitVec 64) (others : Threads → Threads) (s' : Threads), function ≠ 0 →
    PRI_MIN ≤ priority ∧ priority ≤ PRI_MAX →
    s.threadCreate name priority function others = .ok (none, s') → Untouched s s' := by
  intro hall
  have hu := hall (mainOnly [true, false]) [] 31 1 id _ (by decide) (by decide) rfl
  have hlen := congrArg List.length hu.all
  exact absurd hlen (by decide)

end Pintos.Threads
