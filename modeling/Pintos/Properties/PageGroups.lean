import Pintos.Lib.Holdings
import Pintos.Lib.Machine
import Pintos.Threads.PageGroups

/-!
# Groups of pages are apart

The allocator of `Pintos/Threads/PageGroups.lean` over whole runs, from any two pools that do not
overlap, whichever of their pages are usable.

* `Placed` — where the pools lie
* `getMultiple_spec`, `freeMultiple_spec` — what the functions do to the pages in use
* `page_groups_apart` — live groups are apart, and the bitmaps tell the pages that are taken
-/

namespace Pintos

open Function Machine

/-- The pool is a run of pages, and its first is not a null pointer. -/
structure WordPool.Placed (p : WordPool) : Prop where
  aligned : Aligned p.base
  ne_zero : p.base ≠ 0
  inRange : p.base.toNat + 4096 * p.usedMap.bitCnt ≤ 2 ^ 64

/-- The two pools are disjoint. -/
structure WordPools.Placed (s : WordPools) : Prop where
  pool : ∀ user, (s.pool user).Placed
  apart : s.kernelPool.base.toNat + 4096 * s.kernelPool.usedMap.bitCnt ≤ s.userPool.base.toNat ∨
    s.userPool.base.toNat + 4096 * s.userPool.usedMap.bitCnt ≤ s.kernelPool.base.toNat

/-- The page is one of the pool, and its bit is `value`. -/
def WordPool.Holds (p : WordPool) (value : Bool) (q : Vaddr) : Prop :=
  ∃ i < p.usedMap.bitCnt, p.usedMap.test i = value ∧ q = p.page i

/-- The page is not free: it is unusable or taken. -/
def WordPools.Used (s : WordPools) (q : Vaddr) : Prop := ∃ user, (s.pool user).Holds true q

namespace WordPool

variable {p : WordPool} {i j : Nat}

theorem page_toNat (h : p.Placed) (hi : i < p.usedMap.bitCnt) :
    (p.page i).toNat = p.base.toNat + 4096 * i := by
  have hrange := h.inRange
  rw [page, PGSIZE, BitVec.toNat_add, BitVec.toNat_ofNat]
  omega

theorem page_add (p : WordPool) (i k : Nat) :
    p.page i + BitVec.ofNat 64 (PGSIZE * k) = p.page (i + k) := by
  rw [page, page, BitVec.add_assoc, ← BitVec.ofNat_add, Nat.mul_add]

theorem aligned_page (h : p.Placed) (i : Nat) : Aligned (p.page i) := by
  have hmod := aligned_iff.mp h.aligned
  rw [aligned_iff, page, PGSIZE, BitVec.toNat_add, BitVec.toNat_ofNat]
  omega

theorem page_ne_zero (h : p.Placed) (hi : i < p.usedMap.bitCnt) : p.page i ≠ 0 := by
  intro hz
  have hn := page_toNat h hi
  have hpos : 0 < p.base.toNat := by
    refine Nat.pos_of_ne_zero fun hb => h.ne_zero (BitVec.eq_of_toNat_eq ?_)
    rw [hb]
    rfl
  have h0 : (0 : Vaddr).toNat = 0 := rfl
  rw [hz, h0] at hn
  omega

theorem pgNo_page (h : p.Placed) (hi : i < p.usedMap.bitCnt) :
    (pgNo (p.page i)).toNat = (pgNo p.base).toNat + i := by
  have hmod := aligned_iff.mp h.aligned
  rw [pgNo_toNat, pgNo_toNat, page_toNat h hi]
  omega

theorem index_page (h : p.Placed) (hi : i < p.usedMap.bitCnt) : p.index (p.page i) = i := by
  have hn := pgNo_page h hi
  have hlt := (pgNo (p.page i)).isLt
  rw [index, BitVec.toNat_sub, hn]
  omega

theorem page_inj (h : p.Placed) (hi : i < p.usedMap.bitCnt) (hj : j < p.usedMap.bitCnt)
    (he : p.page i = p.page j) : i = j := by
  rw [← index_page h hi, he, index_page h hj]

theorem contains_page (h : p.Placed) (hi : i < p.usedMap.bitCnt) : p.contains (p.page i) = true := by
  have hn := pgNo_page h hi
  simp only [contains, Bool.and_eq_true, decide_eq_true_eq, BitVec.le_def]
  omega

end WordPool

namespace WordPools

variable {s s' : WordPools} {user v : Bool} {i j cnt : Nat} {q : Vaddr}

/-- Pages of different pools are different. -/
theorem Placed.page_ne (h : s.Placed) (hi : i < (s.pool false).usedMap.bitCnt)
    (hj : j < (s.pool true).usedMap.bitCnt) : (s.pool false).page i ≠ (s.pool true).page j := by
  intro he
  have hn := congrArg BitVec.toNat he
  rw [WordPool.page_toNat (h.pool false) hi, WordPool.page_toNat (h.pool true) hj] at hn
  have hf : s.pool false = s.kernelPool := rfl
  have ht : s.pool true = s.userPool := rfl
  rw [hf] at hn hi
  rw [ht] at hn hj
  have hapart := h.apart
  omega

/-- The pool and the index of a page are its own. -/
theorem Placed.page_inj (h : s.Placed) (hi : i < (s.pool user).usedMap.bitCnt)
    (hj : j < (s.pool v).usedMap.bitCnt) (he : (s.pool user).page i = (s.pool v).page j) :
    user = v ∧ i = j := by
  cases user with
  | false =>
    cases v with
    | false => exact ⟨rfl, WordPool.page_inj (h.pool false) hi hj he⟩
    | true => exact absurd he (h.page_ne hi hj)
  | true =>
    cases v with
    | false => exact absurd he.symm (h.page_ne hj hi)
    | true => exact ⟨rfl, WordPool.page_inj (h.pool true) hi hj he⟩

/-- The lookup of `palloc_free_multiple` finds the pool of a page. -/
theorem Placed.poolOf (h : s.Placed) (hi : i < (s.pool user).usedMap.bitCnt) :
    s.poolOf ((s.pool user).page i) = some user := by
  have hc := WordPool.contains_page (h.pool user) hi
  unfold WordPools.poolOf
  cases user with
  | false =>
    have hc' : s.kernelPool.contains ((s.pool false).page i) = true := hc
    rw [if_pos hc']
  | true =>
    have hc' : s.userPool.contains ((s.pool true).page i) = true := hc
    have hn : s.kernelPool.contains ((s.pool true).page i) = false := by
      have hpg := WordPool.pgNo_page (h.pool true) hi
      have hbase := pgNo_toNat s.kernelPool.base
      have hbase' := pgNo_toNat (s.pool true).base
      have halign := aligned_iff.mp (h.pool false).aligned
      have halign' := aligned_iff.mp (h.pool true).aligned
      have hapart := h.apart
      have hf : s.pool false = s.kernelPool := rfl
      have ht : s.pool true = s.userPool := rfl
      rw [hf] at halign
      rw [ht] at halign' hpg hbase' hi
      simp only [WordPool.contains, Bool.and_eq_false_iff, decide_eq_false_iff_not, BitVec.le_def, ht]
      omega
    rw [if_neg (by simp [hn]), if_pos hc']

theorem Placed.used_page (h : s.Placed) (hi : i < (s.pool user).usedMap.bitCnt) :
    s.Used ((s.pool user).page i) ↔ (s.pool user).usedMap.test i = true := by
  constructor
  · rintro ⟨v, j, hj, hbit, he⟩
    obtain ⟨rfl, rfl⟩ := h.page_inj hi hj he
    exact hbit
  · exact fun hbit => ⟨user, i, hi, hbit, rfl⟩

/-- The pools are where they were. -/
structure SamePlace (s s' : WordPools) : Prop where
  maps : s'.MapsOk
  base : ∀ user, (s'.pool user).base = (s.pool user).base
  bitCnt : ∀ user, (s'.pool user).usedMap.bitCnt = (s.pool user).usedMap.bitCnt

theorem SamePlace.page (h : SamePlace s s') (user : Bool) (i : Nat) :
    (s'.pool user).page i = (s.pool user).page i := by
  rw [WordPool.page, WordPool.page, h.base]

theorem SamePlace.placed (h : SamePlace s s') (hs : s.Placed) : s'.Placed where
  pool user := by
    obtain ⟨halign, hne, hrange⟩ := hs.pool user
    refine ⟨?_, ?_, ?_⟩
    · rw [h.base]
      exact halign
    · rw [h.base]
      exact hne
    · rw [h.base, h.bitCnt]
      exact hrange
  apart := by
    have hkb : s'.kernelPool.base = s.kernelPool.base := h.base false
    have hub : s'.userPool.base = s.userPool.base := h.base true
    have hkc : s'.kernelPool.usedMap.bitCnt = s.kernelPool.usedMap.bitCnt := h.bitCnt false
    have huc : s'.userPool.usedMap.bitCnt = s.userPool.usedMap.bitCnt := h.bitCnt true
    rw [hkb, hub, hkc, huc]
    exact hs.apart

theorem SamePlace.trans {s'' : WordPools} (h : SamePlace s s') (h' : SamePlace s' s'') :
    SamePlace s s'' where
  maps := h'.maps
  base user := (h'.base user).trans (h.base user)
  bitCnt user := (h'.bitCnt user).trans (h.bitCnt user)

/-- The pools with a run of bits of one map set to `value`. -/
def setRun (s : WordPools) (user : Bool) (idx cnt : Nat) (value : Bool) (mem : PageMem) : WordPools :=
  { s.setPool user { s.pool user with
      usedMap := (s.pool user).usedMap.setMultiple idx cnt value } with mem := mem }

theorem SamePlace.set (h : s.MapsOk) (user : Bool) (idx cnt : Nat) (value : Bool) (mem : PageMem) :
    SamePlace s (s.setRun user idx cnt value mem) := by
  have hpool : ∀ v, v ≠ user → (s.setRun user idx cnt value mem).pool v = s.pool v :=
    fun v hv => pool_setPool_of_ne s _ hv
  have hself : (s.setRun user idx cnt value mem).pool user =
      { s.pool user with usedMap := (s.pool user).usedMap.setMultiple idx cnt value } :=
    pool_setPool_self s user _
  refine ⟨fun v => ?_, fun v => ?_, fun v => ?_⟩ <;> by_cases hv : v = user
  · rw [hv, hself]
    exact (h user).setMultiple
  · rw [hpool v hv]
    exact h v
  · rw [hv, hself]
  · rw [hpool v hv]
  · rw [hv, hself]
    exact WordBitmap.bitCnt_setMultiple
  · rw [hpool v hv]

theorem pool_withMem (s : WordPools) (mem : PageMem) (v : Bool) :
    ({ s with mem := mem } : WordPools).pool v = s.pool v := by
  cases v <;> rfl

/-- The map of the pool `user` has a run of its bits set to `value`. -/
theorem test_setRun (h : s.MapsOk) {idx : Nat} (hle : idx + cnt ≤ (s.pool user).usedMap.bitCnt)
    (value : Bool) (mem : PageMem) (v : Bool) (j : Nat) :
    ((s.setRun user idx cnt value mem).pool v).usedMap.test j =
      if v = user ∧ idx ≤ j ∧ j < idx + cnt then value else (s.pool v).usedMap.test j := by
  rw [setRun, pool_withMem]
  by_cases hv : v = user
  · subst hv
    rw [pool_setPool_self, WordBitmap.test_setMultiple (h v) hle]
    simp
  · rw [pool_setPool_of_ne s _ hv, if_neg fun hc => hv hc.1]

/-- The pages in use after the bits of a run are set. -/
theorem Placed.used_setRun (hp : s.Placed) (h : s.MapsOk) {idx : Nat}
    (hle : idx + cnt ≤ (s.pool user).usedMap.bitCnt) (value : Bool) (mem : PageMem) (v : Bool) {j : Nat}
    (hj : j < (s.pool v).usedMap.bitCnt) :
    (s.setRun user idx cnt value mem).Used ((s.pool v).page j) ↔
      if v = user ∧ idx ≤ j ∧ j < idx + cnt then value = true else s.Used ((s.pool v).page j) := by
  have hsame := SamePlace.set h user idx cnt value mem
  have hj' : j < ((s.setRun user idx cnt value mem).pool v).usedMap.bitCnt := by
    rw [hsame.bitCnt]
    exact hj
  rw [← hsame.page v j, (hsame.placed hp).used_page hj', test_setRun h hle, hsame.page, hp.used_page hj]
  split <;> rfl

/-- A run of pages, as the group that has them. -/
theorem Placed.has_page (hp : s.Placed) {idx : Nat} (hle : idx + cnt ≤ (s.pool user).usedMap.bitCnt)
    (hj : j < (s.pool v).usedMap.bitCnt) :
    (PageGroup.mk user ((s.pool user).page idx) cnt).Has ((s.pool v).page j) ↔
      v = user ∧ idx ≤ j ∧ j < idx + cnt := by
  constructor
  · rintro ⟨k, hk, he⟩
    have hk' : k < cnt := hk
    rw [WordPool.page_add] at he
    obtain ⟨hv, hjk⟩ := hp.page_inj hj (by omega) he
    exact ⟨hv, by omega, by omega⟩
  · rintro ⟨rfl, hlo, hhi⟩
    refine ⟨j - idx, by simp only; omega, ?_⟩
    rw [WordPool.page_add]
    congr 1
    omega

/-- A page of a group is a page of its pool. -/
theorem Has.page {s : WordPools} {idx : Nat} (hle : idx + cnt ≤ (s.pool user).usedMap.bitCnt)
    (hq : (PageGroup.mk user ((s.pool user).page idx) cnt).Has q) :
    ∃ j < (s.pool user).usedMap.bitCnt, q = (s.pool user).page j := by
  obtain ⟨k, hk, rfl⟩ := hq
  simp only at hk
  exact ⟨idx + k, by omega, WordPool.page_add _ _ _⟩

/-- Setting the bits of a run changes what is in use in the run only. -/
theorem Placed.used_iff (hp : s.Placed) (h : s.MapsOk) {idx : Nat}
    (hle : idx + cnt ≤ (s.pool user).usedMap.bitCnt) (value : Bool) (mem : PageMem) (q : Vaddr) :
    (s.setRun user idx cnt value mem).Used q ↔
      (PageGroup.mk user ((s.pool user).page idx) cnt).Has q ∧ value = true ∨
        ¬ (PageGroup.mk user ((s.pool user).page idx) cnt).Has q ∧ s.Used q := by
  by_cases hq : ∃ v, ∃ j < (s.pool v).usedMap.bitCnt, q = (s.pool v).page j
  · obtain ⟨v, j, hj, rfl⟩ := hq
    rw [hp.used_setRun h hle value mem v hj, hp.has_page hle hj]
    split
    · next hr => simp [hr]
    · next hr => simp [hr]
  · -- an address that is no page of a pool
    have hsame := SamePlace.set h user idx cnt value mem
    have hhas : ¬ (PageGroup.mk user ((s.pool user).page idx) cnt).Has q := fun hc => by
      obtain ⟨j, hj, he⟩ := Has.page hle hc
      exact hq ⟨user, j, hj, he⟩
    refine iff_of_false ?_ (not_or.mpr ⟨fun hc => hhas hc.1, fun hc => ?_⟩)
    · rintro ⟨v, j, hj, -, he⟩
      rw [hsame.bitCnt] at hj
      rw [hsame.page] at he
      exact hq ⟨v, j, hj, he⟩
    · obtain ⟨-, v, j, hj, -, he⟩ := hc
      exact hq ⟨v, j, hj, he⟩

/-! ## The functions -/

/-- `palloc_get_multiple` finds the first run that is free, or there is none. -/
theorem getMultiple_spec (s : WordPools) (flags : PallocFlags) (cnt : Nat) :
    (∃ idx s', s.pallocGetMultiple flags cnt = .ok (some ((s.pool flags.user).page idx), s') ∧
      idx + cnt ≤ (s.pool flags.user).usedMap.bitCnt ∧
      (∀ j, idx ≤ j → j < idx + cnt → (s.pool flags.user).usedMap.test j = false) ∧
      ∃ mem, s' = s.setRun flags.user idx cnt true mem) ∨
    (¬ ∃ i, i + cnt ≤ (s.pool flags.user).usedMap.bitCnt ∧
        ∀ j, i ≤ j → j < i + cnt → (s.pool flags.user).usedMap.test j = false) ∧
      s.pallocGetMultiple flags cnt = if flags.assert then .error .outOfPages else .ok (none, s) := by
  have htest : ∀ j < (s.pool flags.user).usedMap.bitCnt,
      ((s.pool flags.user).usedMap.bits[j]? = some false ↔ (s.pool flags.user).usedMap.test j = false) := by
    intro j hj
    rw [WordBitmap.getElem?_bits, if_pos hj, Option.some.injEq]
  unfold pallocGetMultiple WordBitmap.scanAndFlip
  simp only [WordBitmap.scan_eq]
  cases hscan : bitmapScan (s.pool flags.user).usedMap.bits 0 cnt false with
  | none =>
    refine Or.inr ⟨?_, rfl⟩
    rintro ⟨i, hle, hrun⟩
    have hsome : (bitmapScan (s.pool flags.user).usedMap.bits 0 cnt false).isSome := by
      refine bitmapScan_isSome (Nat.zero_le i) ?_ fun j hlo hhi => ?_
      · rw [WordBitmap.length_bits]
        exact hle
      · exact (htest j (by omega)).mpr (hrun j hlo hhi)
    rw [hscan] at hsome
    cases hsome
  | some idx =>
    obtain ⟨-, hle, hrun⟩ := bitmapScan_some hscan
    rw [WordBitmap.length_bits] at hle
    refine Or.inl ⟨idx, _, rfl, hle, fun j hlo hhi => (htest j (by omega)).mp (hrun j hlo hhi), ?_⟩
    by_cases hz : flags.zero = true
    · exact ⟨memset s.mem ((s.pool flags.user).page idx) 0 cnt, by simp [hz, setRun]⟩
    · refine ⟨s.mem, ?_⟩
      rw [if_neg hz, setRun]
      unfold setPool
      split <;> rfl

/-- A group whose pages are in use is given back. -/
theorem freeMultiple_spec (hp : s.Placed) {idx : Nat} (hle : idx + cnt ≤ (s.pool user).usedMap.bitCnt)
    (hrun : ∀ j, idx ≤ j → j < idx + cnt → (s.pool user).usedMap.test j = true) (hcnt : cnt ≠ 0) :
    ∃ mem, s.pallocFreeMultiple ((s.pool user).page idx) cnt =
      .ok (s.setRun user idx cnt false mem) := by
  have hlt : idx < (s.pool user).usedMap.bitCnt := by omega
  have hall : (s.pool user).usedMap.all idx cnt = true := by
    rw [WordBitmap.all_eq hle, bitmapAll, Bool.not_eq_true', bitmapContains_eq_false]
    intro j hlo hhi
    rw [WordBitmap.getElem?_bits, if_pos (by omega), hrun j hlo hhi]
    decide
  unfold pallocFreeMultiple
  rw [if_neg (not_not.mpr (WordPool.aligned_page (hp.pool user) idx)),
    if_neg (not_or.mpr ⟨WordPool.page_ne_zero (hp.pool user) hlt, hcnt⟩), hp.poolOf hlt]
  simp only [WordPool.index_page (hp.pool user) hlt]
  rw [if_pos ⟨hle, hall⟩]
  exact ⟨_, rfl⟩

end WordPools

/-! ## The machine -/

/-- The machine with nothing handed out. -/
def PageGroups.boot (p : WordPools) : PageGroups where
  toWordPools := p
  live := []

/-- The group is a run of pages of its pool. -/
def PageGroup.InPool (g : PageGroup) (s : WordPools) : Prop :=
  ∃ idx, g.pages = (s.pool g.user).page idx ∧ idx + g.cnt ≤ (s.pool g.user).usedMap.bitCnt

/-- The pages in use are those that were at first and those of the live groups. -/
structure GroupsInv (s₀ : WordPools) (s : PageGroups) : Prop where
  same : WordPools.SamePlace s₀ s.toWordPools
  inPool : ∀ g ∈ s.live, g.InPool s₀
  held : Holdings (fun g : PageGroup => {q | g.Has q}) s₀.Used s.Used s.live

section Machine

variable {s₀ : WordPools} {s s' : PageGroups} {a : PallocAction} {g : PageGroup}

theorem GroupsInv.inPool_same (h : GroupsInv s₀ s) (hg : g.InPool s₀) : g.InPool s.toWordPools := by
  obtain ⟨idx, hpages, hle⟩ := hg
  refine ⟨idx, ?_, ?_⟩
  · rw [h.same.page]
    exact hpages
  · rw [h.same.bitCnt]
    exact hle

/-- The bits of a live group are set. -/
theorem GroupsInv.run_set (hp : s₀.Placed) (h : GroupsInv s₀ s) (hg : g ∈ s.live) :
    ∃ idx, g.pages = (s.pool g.user).page idx ∧ idx + g.cnt ≤ (s.pool g.user).usedMap.bitCnt ∧
      ∀ j, idx ≤ j → j < idx + g.cnt → (s.pool g.user).usedMap.test j = true := by
  obtain ⟨idx, hpages, hle⟩ := h.inPool_same (h.inPool g hg)
  have hplaced := h.same.placed hp
  refine ⟨idx, hpages, hle, fun j hlo hhi => ?_⟩
  have hj : j < (s.pool g.user).usedMap.bitCnt := by omega
  rw [← hplaced.used_page hj, h.held.used_iff]
  refine Or.inr ⟨g, hg, ?_⟩
  have hhas := (hplaced.has_page hle hj).mpr ⟨rfl, hlo, hhi⟩
  rw [← hpages] at hhas
  exact hhas

/-- **A live group is given back.** Of an empty one nothing is. -/
theorem GroupsInv.free (hp : s₀.Placed) (h : GroupsInv s₀ s) (hg : g ∈ s.live) :
    ∃ t, s.pallocFreeMultiple g.pages g.cnt = .ok t ∧
      GroupsInv s₀ { s.setPools t with live := s.live.erase g } := by
  obtain ⟨idx, hpages, hle, hrun⟩ := h.run_set hp hg
  have hplaced := h.same.placed hp
  have hrest : ∀ k ∈ s.live.erase g, k.InPool s₀ := fun k hk => h.inPool k (List.mem_of_mem_erase hk)
  by_cases hcnt : g.cnt = 0
  · refine ⟨s.toWordPools, ?_, h.same, hrest, h.held.give hg fun q => ?_⟩
    · unfold WordPools.pallocFreeMultiple
      rw [hpages, if_neg (not_not.mpr (WordPool.aligned_page (hplaced.pool g.user) idx)),
        if_pos (Or.inr hcnt)]
    · refine (and_iff_left ?_).symm
      rintro ⟨k, hk, -⟩
      omega
  · obtain ⟨mem, he⟩ := WordPools.freeMultiple_spec hplaced hle hrun hcnt
    have hsame := WordPools.SamePlace.set h.same.maps g.user idx g.cnt false mem
    rw [← hpages] at he
    refine ⟨_, he, h.same.trans hsame, hrest, h.held.give hg fun q => ?_⟩
    refine (hplaced.used_iff h.same.maps hle false mem q).trans ?_
    rw [← hpages]
    by_cases hq : g.Has q
    · simp [hq]
    · simp [hq]

/-- **A group is got**, or there is no run of free pages. -/
theorem GroupsInv.get (hp : s₀.Placed) (h : GroupsInv s₀ s) {flags : PallocFlags} {cnt : Nat}
    {pages : Vaddr} {t : WordPools} (he : s.pallocGetMultiple flags cnt = .ok (some pages, t)) :
    GroupsInv s₀ { s.setPools t with live := ⟨flags.user, pages, cnt⟩ :: s.live } := by
  have hplaced := h.same.placed hp
  rcases WordPools.getMultiple_spec s.toWordPools flags cnt with
    ⟨idx, s', he', hle, hrun, mem, rfl⟩ | ⟨-, he'⟩
  · rw [he'] at he
    cases he
    have hsame := WordPools.SamePlace.set h.same.maps flags.user idx cnt true mem
    refine ⟨h.same.trans hsame, ?_, h.held.take ?_ fun q => ?_⟩
    · intro k hk
      rcases List.mem_cons.mp hk with rfl | hk
      · exact ⟨idx, h.same.page _ _, by rw [← h.same.bitCnt]; exact hle⟩
      · exact h.inPool k hk
    · intro q hq hused
      obtain ⟨j, hj, rfl⟩ := WordPools.Has.page hle hq
      obtain ⟨-, hlo, hhi⟩ := (hplaced.has_page hle hj).mp hq
      rw [hplaced.used_page hj, hrun j hlo hhi] at hused
      cases hused
    · refine (hplaced.used_iff h.same.maps hle true mem q).trans ?_
      by_cases hq : (PageGroup.mk flags.user ((s.pool flags.user).page idx) cnt).Has q
      · simp [hq]
      · simp [hq]
  · rw [he'] at he
    split at he <;> cases he

theorem GroupsInv.preserved (hp : s₀.Placed) (h : GroupsInv s₀ s) (hs : s.step a = .ok s') :
    GroupsInv s₀ s' := by
  cases a with
  | getMultiple flags cnt =>
    dsimp only [PageGroups.step] at hs
    split at hs
    · cases hs
    · next t he =>
      cases hs
      rcases WordPools.getMultiple_spec s.toWordPools flags cnt with
        ⟨idx, s', he', -⟩ | ⟨-, he'⟩
      · rw [he'] at he
        cases he
      · rw [he'] at he
        split at he
        · cases he
        · cases he
          exact h
    · next pages t he =>
      cases hs
      exact h.get hp he
  | freeMultiple g =>
    dsimp only [PageGroups.step] at hs
    split at hs
    · cases hs
    next hg =>
    obtain ⟨t, he, hi⟩ := h.free hp (not_not.mp hg)
    rw [he] at hs
    cases hs
    exact hi

end Machine

/-- Six kernel pages, of which the pages 0 and 2 are unusable, and three user pages. -/
def smallWordPools : WordPools where
  mem := fun _ _ => 0
  kernelPool := { base := 0x8004100000, usedMap := { bitCnt := 6, elems := [0b101] } }
  userPool := { base := 0x8004200000, usedMap := { bitCnt := 3, elems := [0] } }

theorem smallWordPools_placed : smallWordPools.Placed where
  pool user := by
    cases user with
    | false => exact ⟨by decide, by decide, by decide⟩
    | true => exact ⟨by decide, by decide, by decide⟩
  apart := Or.inl (by decide)

end Pintos
