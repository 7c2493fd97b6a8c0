import Mathlib.Algebra.BigOperators.Group.List.Basic
import Pintos.Threads.PopulatePools

/-!
# Memory discovery

* `MemoryMap` — an e820 table as firmware leaves it
* `Populating.run_*` — the first loop, from one state to the next
* `split_ok`, `setUsable_ok` — the second loop clears the bits of the usable pages
* `Works` — the kernel's share ends inside the last usable entry or between two of them
* `populate_pools_works_iff` — that is when the memory is discovered
-/

namespace Pintos

/-- An e820 table: its usable entries are made of pages, ascending and disjoint, in physical memory. -/
structure MemoryMap where
  entries : List E820Entry
  some_usable : entries.filter E820Entry.usable ≠ []
  aligned : ∀ e ∈ entries.filter E820Entry.usable, PGSIZE ∣ e.mem ∧ PGSIZE ∣ e.size
  nonempty : ∀ e ∈ entries.filter E820Entry.usable, 0 < e.size
  ascending : (entries.filter E820Entry.usable).Pairwise fun a b => a.mem + a.size ≤ b.mem
  physical : ∀ e ∈ entries.filter E820Entry.usable, e.mem + e.size ≤ 2 ^ 52

/-! ## Entries in pages -/

/-- The pages of some entries. -/
def pageCnt (l : List E820Entry) : Nat := (l.map E820Entry.sizeInPg).sum

@[simp] theorem pageCnt_nil : pageCnt [] = 0 := rfl

@[simp] theorem pageCnt_cons (e : E820Entry) (l : List E820Entry) :
    pageCnt (e :: l) = e.sizeInPg + pageCnt l := by
  simp [pageCnt]

@[simp] theorem pageCnt_append (l l' : List E820Entry) : pageCnt (l ++ l') = pageCnt l + pageCnt l' := by
  simp [pageCnt]

/-- A usable entry, in pages. -/
structure Paged (e : E820Entry) : Prop where
  usable : e.usable = true
  start : e.start = PGSIZE * (e.start / PGSIZE)
  size : e.size = PGSIZE * e.sizeInPg
  pos : 0 < e.sizeInPg

theorem Paged.stop {e : E820Entry} (h : Paged e) : e.stop = PGSIZE * (e.start / PGSIZE + e.sizeInPg) := by
  have hstart := h.start
  have hsize := h.size
  unfold E820Entry.stop
  unfold PGSIZE at *
  omega

namespace MemoryMap

/-- The entries that the loops go on with. -/
def regions (m : MemoryMap) : List E820Entry := m.entries.filter E820Entry.usable

variable (m : MemoryMap)

theorem paged {e : E820Entry} (he : e ∈ m.regions) : Paged e := by
  obtain ⟨hmem, hsize⟩ := m.aligned e he
  have hpos := m.nonempty e he
  have hbase : PGSIZE ∣ KERN_BASE.toNat := by decide
  refine ⟨(List.mem_filter.mp he).2, ?_, ?_, ?_⟩
  · exact (Nat.mul_div_cancel' (Nat.dvd_add hbase hmem)).symm
  · exact (Nat.mul_div_cancel' hsize).symm
  · exact Nat.div_pos (Nat.le_of_dvd hpos hsize) (by decide)

theorem pairwise_stop : m.regions.Pairwise fun a b => a.stop ≤ b.start := by
  refine m.ascending.imp fun h => ?_
  unfold E820Entry.stop E820Entry.start
  omega

end MemoryMap

/-! ## The areas -/

theorem extend_size (area : Area) (e : E820Entry) : (area.extend e).size = area.size + e.size := by
  unfold Area.extend
  split
  · next h => simp [h]
  · rfl

theorem resolveAreaInfo_size : ∀ (l : List E820Entry) (areas : Area × Area),
    (resolveAreaInfo areas l).1.size + (resolveAreaInfo areas l).2.size =
      areas.1.size + areas.2.size + ((l.filter E820Entry.usable).map E820Entry.size).sum
  | [], areas => rfl
  | e :: l, (baseMem, extMem) => by
    rw [resolveAreaInfo, List.filter_cons]
    split
    · have hbase := extend_size baseMem e
      have hext := extend_size extMem e
      rw [List.map_cons, List.sum_cons]
      split
      · have ih := resolveAreaInfo_size l (baseMem.extend e, extMem)
        dsimp only at ih ⊢
        omega
      · have ih := resolveAreaInfo_size l (baseMem, extMem.extend e)
        dsimp only at ih ⊢
        omega
    · exact resolveAreaInfo_size l _

namespace MemoryMap

variable (m : MemoryMap)

theorem sum_size : ∀ {l : List E820Entry}, (∀ e ∈ l, Paged e) →
    (l.map E820Entry.size).sum = PGSIZE * pageCnt l
  | [], _ => rfl
  | e :: l, h => by
    have hrest := sum_size fun e' he => h e' (List.mem_cons_of_mem e he)
    rw [List.map_cons, List.sum_cons, hrest, pageCnt_cons, (h e List.mem_cons_self).size, Nat.mul_add]

/-- `base_mem` and `ext_mem`. -/
def areas : Area × Area := resolveAreaInfo ({}, {}) m.entries

theorem totalPages : (m.areas.1.size + m.areas.2.size) / PGSIZE = pageCnt m.regions := by
  have hsize := resolveAreaInfo_size m.entries ({}, {})
  rw [areas, hsize]
  show (0 + 0 + ((m.regions.map E820Entry.size).sum)) / PGSIZE = _
  rw [sum_size fun e he => m.paged he]
  unfold PGSIZE
  omega

/-- `user_pages`. -/
def userPages (limit : Nat) : Nat := Pintos.userPages m.areas.1 m.areas.2 limit

/-- `kern_pages`. -/
def kernPages (limit : Nat) : Nat := pageCnt m.regions - m.userPages limit

theorem userPages_le (limit : Nat) : 2 * m.userPages limit ≤ pageCnt m.regions := by
  unfold userPages Pintos.userPages
  dsimp only
  rw [m.totalPages]
  split <;> omega

end MemoryMap

/-! ## The first loop -/

namespace Populating

variable {U : Nat} {c : Populating} {e : E820Entry} {l r : List E820Entry}

theorem run_filter (U : Nat) : ∀ (l : List E820Entry) (c : Populating),
    run U c l = run U c (l.filter E820Entry.usable)
  | [], _ => rfl
  | e :: l, c => by
    rw [run, List.filter_cons]
    by_cases he : e.usable = true
    · rw [if_pos he, if_pos he, run, if_pos he]
      split
      · rfl
      · exact run_filter U l _
    · rw [if_neg he, if_neg he]
      exact run_filter U l c

/-- An entry that the loop goes on with. -/
theorem run_cons {c' : Populating} (he : Paged e) (hs : c.step U e = .ok c') :
    run U c (e :: l) = run U c' l := by
  rw [run, if_pos he.usable, hs]

theorem run_cons_error {fault : PopulateFault} (he : Paged e) (hs : c.step U e = .error fault) :
    run U c (e :: l) = .error fault := by
  rw [run, if_pos he.usable, hs]

theorem step_kernStart (hs : c.state = .kernStart) : c.step U e =
    .ok ({ c with stop := e.stop, regionStart := e.start, state := .kern }.kern U e) := by
  cases c
  cases hs
  rfl

theorem step_kern (hs : c.state = .kern) : c.step U e = .ok ({ c with stop := e.stop }.kern U e) := by
  cases c
  cases hs
  rfl

theorem step_userStart (hs : c.state = .userStart) :
    c.step U e = .ok { c with stop := e.stop, regionStart := e.start, state := .user } := by
  cases c
  cases hs
  rfl

theorem step_user (hs : c.state = .user) : c.step U e =
    if c.rem > e.sizeInPg then .ok { c with stop := e.stop, rem := c.rem - e.sizeInPg }
    else if c.rem = e.size then .ok { c with stop := e.stop }
    else .error .assertRem := by
  cases c
  cases hs
  rfl

/-- The first entry starts the region of the kernel pool. -/
theorem run_start (he : Paged e) (hs : c.state = .kernStart) :
    run U c (e :: l) = run U { c with regionStart := e.start, state := .kern } (e :: l) := by
  have hkern : step { c with regionStart := e.start, state := .kern } U e =
      .ok ({ c with stop := e.stop, regionStart := e.start, state := .kern }.kern U e) :=
    step_kern rfl
  rw [run_cons he (step_kernStart hs), run_cons he hkern]

/-- Entries that the kernel pool takes as a whole. -/
theorem run_kern : ∀ {l : List E820Entry} {c : Populating}, (∀ e ∈ l, Paged e) → c.state = .kern →
    pageCnt l < c.rem → ∃ stop, run U c (l ++ r) =
      run U { c with rem := c.rem - pageCnt l, stop := stop } r
  | [], c, _, _, _ => ⟨c.stop, rfl⟩
  | e :: l, c, hp, hs, hlt => by
    rw [pageCnt_cons] at hlt
    have he := hp e List.mem_cons_self
    have hstep : c.step U e = .ok { c with stop := e.stop, rem := c.rem - e.sizeInPg } := by
      rw [step_kern hs, kern, if_pos (by dsimp only; omega)]
    obtain ⟨stop, hrun⟩ := run_kern (l := l) (c := { c with stop := e.stop, rem := c.rem - e.sizeInPg })
      (fun e' he' => hp e' (List.mem_cons_of_mem e he')) hs (by dsimp only; omega)
    refine ⟨stop, ?_⟩
    rw [List.cons_append, run_cons he hstep, hrun, pageCnt_cons, Nat.sub_sub]

/-- The entry in which the kernel pool ends. -/
theorem step_kern_last (hs : c.state = .kern) (hle : c.rem ≤ e.sizeInPg) :
    c.step U e = .ok (
      let pool := initPool c.freeStart c.regionStart (e.start + c.rem * PGSIZE)
      if c.rem = e.sizeInPg then
        { c with stop := e.stop, kernelPool := some pool.1, freeStart := pool.2, rem := U, state := .userStart }
      else
        { c with
          stop := e.stop
          kernelPool := some pool.1
          freeStart := pool.2
          regionStart := e.start + c.rem * PGSIZE
          rem := (U + 2 ^ 64 - e.sizeInPg + c.rem) % 2 ^ 64
          state := .user }) := by
  rw [step_kern hs, kern, if_neg (by dsimp only; omega)]

/-- The end of the last entry. -/
def lastStop : List E820Entry → Nat → Nat
  | [], stop => stop
  | e :: l, _ => lastStop l e.stop

/-- More pages are left than the entries have. -/
theorem run_user : ∀ {l : List E820Entry} {c : Populating}, (∀ e ∈ l, Paged e) → c.state = .user →
    pageCnt l < c.rem → ∃ rem, run U c l = .ok { c with rem := rem, stop := lastStop l c.stop }
  | [], c, _, _, _ => ⟨c.rem, rfl⟩
  | e :: l, c, hp, hs, hlt => by
    rw [pageCnt_cons] at hlt
    have he := hp e List.mem_cons_self
    have hstep : c.step U e = .ok { c with stop := e.stop, rem := c.rem - e.sizeInPg } := by
      rw [step_user hs, if_pos (by omega)]
    obtain ⟨rem, hrun⟩ := run_user (l := l) (c := { c with stop := e.stop, rem := c.rem - e.sizeInPg })
      (fun e' he' => hp e' (List.mem_cons_of_mem e he')) hs (by dsimp only; omega)
    refine ⟨rem, ?_⟩
    rw [run_cons he hstep, hrun, lastStop]

/-- **The assertion compares pages with bytes**, so the last entry of the U pool fails it. -/
theorem run_user_error : ∀ {l : List E820Entry} {c : Populating}, (∀ e ∈ l, Paged e) → c.state = .user →
    c.rem = pageCnt l → l ≠ [] → run U c l = .error .assertRem
  | [], _, _, _, _, hne => absurd rfl hne
  | [e], c, hp, hs, hrem, _ => by
    have he := hp e List.mem_cons_self
    have hpos := he.pos
    have hsize := he.size
    rw [pageCnt_cons, pageCnt_nil] at hrem
    refine run_cons_error he ?_
    unfold PGSIZE at hsize
    rw [step_user hs, if_neg (by omega), if_neg (by omega)]
  | e :: e₁ :: l, c, hp, hs, hrem, _ => by
    have he := hp e List.mem_cons_self
    have hpos := (hp e₁ (List.mem_cons_of_mem e List.mem_cons_self)).pos
    rw [pageCnt_cons, pageCnt_cons] at hrem
    have hstep : c.step U e = .ok { c with stop := e.stop, rem := c.rem - e.sizeInPg } := by
      rw [step_user hs, if_pos (by omega)]
    rw [run_cons he hstep]
    refine run_user_error (fun e' he' => hp e' (List.mem_cons_of_mem e he')) hs ?_ (List.cons_ne_nil _ _)
    dsimp only
    rw [pageCnt_cons]
    omega

/-- The start of the first entry. -/
def firstStart : List E820Entry → Nat
  | [] => 0
  | e :: _ => e.start

/-- Up to the entry in which the kernel pool ends. -/
theorem run_to_last (hp : ∀ e' ∈ l ++ e :: r, Paged e') (hs : c.state = .kernStart)
    (hlt : pageCnt l < c.rem) : ∃ stop, run U c (l ++ e :: r) =
      run U { c with
        state := .kern, rem := c.rem - pageCnt l, regionStart := firstStart (l ++ e :: r), stop := stop }
        (e :: r) := by
  cases l with
  | nil => exact ⟨c.stop, run_start (hp e List.mem_cons_self) hs⟩
  | cons e₀ l =>
    have hp' : ∀ e' ∈ e₀ :: l, Paged e' := fun e' he' => hp e' (List.mem_append_left _ he')
    obtain ⟨stop, hrun⟩ := run_kern (U := U) (r := e :: r)
      (c := { c with regionStart := e₀.start, state := .kern }) hp' rfl hlt
    refine ⟨stop, ?_⟩
    rw [List.cons_append, run_start (hp' e₀ List.mem_cons_self) hs, ← List.cons_append, hrun]
    rfl

/-- The kernel pool ends with an entry. -/
theorem run_between (hp : ∀ e' ∈ l ++ e :: r, Paged e') (hs : c.state = .kernStart)
    (hrem : c.rem = pageCnt l + e.sizeInPg) : run U c (l ++ e :: r) =
      run U
        { state := .userStart
          rem := U
          regionStart := firstStart (l ++ e :: r)
          stop := e.stop
          freeStart := (initPool c.freeStart (firstStart (l ++ e :: r)) e.stop).2
          kernelPool := some (initPool c.freeStart (firstStart (l ++ e :: r)) e.stop).1 } r := by
  have he := hp e (List.mem_append_right l List.mem_cons_self)
  obtain ⟨stop, hrun⟩ := run_to_last (U := U) hp hs (by have hpos := he.pos; omega)
  have hend : e.start + (c.rem - pageCnt l) * PGSIZE = e.stop := by
    have hsize := he.size
    unfold E820Entry.stop
    rw [hrem, Nat.add_sub_cancel_left]
    unfold PGSIZE at *
    omega
  rw [hrun, run_cons he (step_kern_last rfl (by dsimp only; omega)), ← hend]
  dsimp only
  rw [if_pos (by omega)]

/-- The kernel pool ends inside an entry. -/
theorem run_inside {kernelEnd : Nat} (hp : ∀ e' ∈ l ++ e :: r, Paged e') (hs : c.state = .kernStart)
    (hlt : pageCnt l < c.rem) (hle : c.rem < pageCnt l + e.sizeInPg)
    (hend : kernelEnd = e.start + (c.rem - pageCnt l) * PGSIZE) : run U c (l ++ e :: r) =
      run U
        { state := .user
          rem := (U + 2 ^ 64 - e.sizeInPg + (c.rem - pageCnt l)) % 2 ^ 64
          regionStart := kernelEnd
          stop := e.stop
          freeStart := (initPool c.freeStart (firstStart (l ++ e :: r)) kernelEnd).2
          kernelPool := some (initPool c.freeStart (firstStart (l ++ e :: r)) kernelEnd).1 } r := by
  have he := hp e (List.mem_append_right l List.mem_cons_self)
  obtain ⟨stop, hrun⟩ := run_to_last (U := U) hp hs hlt
  rw [hrun, run_cons he (step_kern_last rfl (by dsimp only; omega)), hend]
  dsimp only
  rw [if_neg (by omega)]

end Populating

/-! ## Where the kernel's share ends -/

/-- The `n`-th page lies in one of the entries. -/
theorem exists_entry_of_pageCnt : ∀ {l : List E820Entry} {n : Nat}, 0 < n → n ≤ pageCnt l →
    ∃ l₁ e l₂, l = l₁ ++ e :: l₂ ∧ pageCnt l₁ < n ∧ n ≤ pageCnt l₁ + e.sizeInPg
  | [], n, h0, h => by
    rw [pageCnt_nil] at h
    omega
  | e :: l, n, h0, h => by
    rw [pageCnt_cons] at h
    by_cases hn : n ≤ e.sizeInPg
    · exact ⟨[], e, l, rfl, h0, by simpa using hn⟩
    · obtain ⟨l₁, e₁, l₂, rfl, hlt, hle⟩ := exists_entry_of_pageCnt (l := l) (n := n - e.sizeInPg)
        (by omega) (by omega)
      refine ⟨e :: l₁, e₁, l₂, rfl, ?_, ?_⟩ <;> rw [pageCnt_cons] <;> omega

namespace MemoryMap

/-- The kernel's `K` pages end inside the last usable entry, or at the end of one that another follows:
the ends of the kernel's region, and the start of the user's. -/
inductive Cut (m : MemoryMap) (K : Nat) : Nat → Nat → Prop
  | inside {l : List E820Entry} {e : E820Entry} {kernelEnd : Nat} (hl : m.regions = l ++ [e])
      (hlt : pageCnt l < K) (hle : K < pageCnt l + e.sizeInPg)
      (hend : kernelEnd = e.start + (K - pageCnt l) * PGSIZE) : Cut m K kernelEnd kernelEnd
  | between {l l' : List E820Entry} {a b : E820Entry} (hl : m.regions = l ++ a :: b :: l')
      (hK : K = pageCnt l + a.sizeInPg) : Cut m K a.stop b.start

end MemoryMap

/-- The pools over two ranges. -/
def BootPools.ofRanges (freeStart first kernelEnd userStart last : Nat) : BootPools :=
  let kernel := initPool freeStart first kernelEnd
  let user := initPool kernel.2 userStart last
  { kernelPool := some kernel.1, userPool := user.1, usableBound := user.2 }

/-! ## A pool in pages -/

namespace BootPool

variable {p p' : BootPool} {A N x y n q : Nat}

/-- The pool has `N` pages from page `A` on. -/
structure Spans (p : BootPool) (A N : Nat) : Prop where
  base : p.base = PGSIZE * A
  length : p.usedMap.length = N

/-- The bit of the page is clear. -/
def Free (p : BootPool) (q : Nat) : Prop :=
  p.base / PGSIZE ≤ q ∧ p.usedMap[q - p.base / PGSIZE]? = some false

theorem Spans.base_div (h : p.Spans A N) : p.base / PGSIZE = A := by
  rw [h.base, Nat.mul_div_cancel_left _ (by decide)]

theorem Spans.contains_iff (h : p.Spans A N) : p.contains (PGSIZE * x) = true ↔ A ≤ x ∧ x < A + N := by
  unfold contains
  rw [h.base_div, h.length, Nat.mul_div_cancel_left _ (by decide)]
  simp

theorem Spans.stop (h : p.Spans A N) : p.stop = PGSIZE * (A + N) := by
  rw [BootPool.stop, h.base, h.length]
  unfold PGSIZE
  omega

/-- **`bitmap_set_multiple`** clears the bits of the pages from `x` on. -/
theorem Spans.clear (h : p.Spans A N) (hA : A ≤ x) (hN : x + n ≤ A + N) :
    ∃ p', p.clear (PGSIZE * x) n = .ok p' ∧ p'.Spans A N ∧
      ∀ q, p'.Free q ↔ p.Free q ∨ (x ≤ q ∧ q < x + n) := by
  have hx : PGSIZE * x / PGSIZE = x := Nat.mul_div_cancel_left _ (by decide)
  have hlen := h.length
  refine ⟨{ p with usedMap := bitmapSetMultiple p.usedMap (x - A) n false }, ?_, ⟨h.base, ?_⟩, ?_⟩
  · unfold BootPool.clear
    rw [h.base_div, hx, if_pos (by omega)]
  · rw [length_bitmapSetMultiple]
    exact hlen
  · intro q
    unfold Free
    dsimp only
    rw [h.base_div, getElem?_bitmapSetMultiple]
    split
    · next hin =>
      constructor
      · rintro ⟨hq, -⟩
        exact Or.inr (by omega)
      · rintro (⟨hq, -⟩ | hq)
        · exact ⟨hq, rfl⟩
        · exact ⟨by omega, rfl⟩
    · next hout =>
      constructor
      · exact Or.inl
      · rintro (hq | hq)
        · exact hq
        · omega

theorem Spans.of_clear {start : Nat} (h : p.Spans A N) (hk : p.clear start n = .ok p') :
    p'.Spans A N := by
  unfold BootPool.clear at hk
  dsimp only at hk
  split at hk
  · cases hk
    exact ⟨h.base, (length_bitmapSetMultiple ..).trans h.length⟩
  · cases hk

end BootPool

/-! ## The second loop -/

namespace BootPools

variable {s s' : BootPools} {A N C M b x y q : Nat} {e : E820Entry} {l : List E820Entry}

/-- The kernel pool has `N` pages from page `A` on, and the user pool `M` from page `C` on. -/
structure Spans (s : BootPools) (A N C M b : Nat) : Prop where
  kernel : ∃ p, s.kernelPool = some p ∧ p.Spans A N
  user : s.userPool.Spans C M
  bound : s.usableBound = PGSIZE * b

/-- The page has a bit, and it is clear. -/
def Free (s : BootPools) (q : Nat) : Prop :=
  (∃ p, s.kernelPool = some p ∧ p.Free q) ∨ s.userPool.Free q

theorem setUsable_filter : ∀ (l : List E820Entry) (s : BootPools),
    s.setUsable l = s.setUsable (l.filter E820Entry.usable)
  | [], _ => rfl
  | e :: l, s => by
    rw [setUsable, List.filter_cons]
    by_cases he : e.usable = true
    · rw [if_pos he, if_pos he, setUsable, if_pos he]
      split
      · exact setUsable_filter l s
      · split
        · rfl
        · exact setUsable_filter l _
    · rw [if_neg he, if_neg he]
      exact setUsable_filter l s

/-- The kernel pool's pages from `x` to `y` are cleared. -/
theorem Spans.clear_kernel {p : BootPool} (h : s.Spans A N C M b) (hp : s.kernelPool = some p) (hx : A ≤ x)
    (hxy : x ≤ y) (hy : y ≤ A + N) :
    ∃ p', p.clear (PGSIZE * x) ((PGSIZE * y - PGSIZE * x) / PGSIZE) = .ok p' ∧
      Spans { s with kernelPool := some p' } A N C M b ∧
      ∀ q, Free { s with kernelPool := some p' } q ↔ s.Free q ∨ (x ≤ q ∧ q < y) := by
  obtain ⟨p₀, hp₀, hspans⟩ := h.kernel
  rw [hp] at hp₀
  obtain rfl := Option.some.inj hp₀
  have hcnt : (PGSIZE * y - PGSIZE * x) / PGSIZE = y - x := by
    rw [← Nat.mul_sub, Nat.mul_div_cancel_left _ (by decide)]
  obtain ⟨p', hclear, hspans', hfree⟩ := hspans.clear (n := y - x) hx (by omega)
  rw [hcnt]
  refine ⟨p', hclear, ⟨⟨p', rfl, hspans'⟩, h.user, h.bound⟩, fun q => ?_⟩
  unfold Free
  dsimp only
  simp only [hp, Option.some.injEq, exists_eq_left', hfree]
  have hq : x ≤ q ∧ q < x + (y - x) ↔ x ≤ q ∧ q < y := by omega
  rw [hq]
  exact or_right_comm

theorem Spans.clear_user (h : s.Spans A N C M b) (hx : C ≤ x) (hxy : x ≤ y) (hy : y ≤ C + M) :
    ∃ p', s.userPool.clear (PGSIZE * x) ((PGSIZE * y - PGSIZE * x) / PGSIZE) = .ok p' ∧
      Spans { s with userPool := p' } A N C M b ∧
      ∀ q, Free { s with userPool := p' } q ↔ s.Free q ∨ (x ≤ q ∧ q < y) := by
  have hcnt : (PGSIZE * y - PGSIZE * x) / PGSIZE = y - x := by
    rw [← Nat.mul_sub, Nat.mul_div_cancel_left _ (by decide)]
  obtain ⟨p', hclear, hspans', hfree⟩ := h.user.clear (n := y - x) hx (by omega)
  rw [hcnt]
  refine ⟨p', hclear, ⟨h.kernel, hspans', h.bound⟩, fun q => ?_⟩
  unfold Free
  dsimp only
  rw [hfree]
  have hq : x ≤ q ∧ q < x + (y - x) ↔ x ≤ q ∧ q < y := by omega
  rw [hq]
  exact or_assoc.symm

/-- A pass that ends in the kernel pool. -/
theorem split_kernel {n : Nat} (h : s.Spans A N C M b) (hx : A ≤ x) (hxN : x < A + N) (hxy : x ≤ y)
    (hy : y ≤ A + N) : ∃ s', s.split (n + 1) (PGSIZE * x) (PGSIZE * y) = .ok s' ∧ s'.Spans A N C M b ∧
      ∀ q, s'.Free q ↔ s.Free q ∨ (x ≤ q ∧ q < y) := by
  obtain ⟨p, hp, hspans⟩ := h.kernel
  obtain ⟨p', hclear, hs', hfree⟩ := h.clear_kernel hp hx hxy hy
  refine ⟨_, ?_, hs', hfree⟩
  have hstop : ¬ p.stop < PGSIZE * y := by
    rw [hspans.stop]
    exact not_lt.mpr (Nat.mul_le_mul_left PGSIZE hy)
  rw [split, hp]
  dsimp only
  rw [if_pos (hspans.contains_iff.mpr ⟨hx, hxN⟩), if_neg hstop, hclear]

/-- A pass that ends in the user pool. -/
theorem split_user {n : Nat} (h : s.Spans A N C M b) (hAx : A + N ≤ x) (hx : C ≤ x) (hxM : x < C + M)
    (hxy : x ≤ y) (hy : y ≤ C + M) : ∃ s', s.split (n + 1) (PGSIZE * x) (PGSIZE * y) = .ok s' ∧
      s'.Spans A N C M b ∧ ∀ q, s'.Free q ↔ s.Free q ∨ (x ≤ q ∧ q < y) := by
  obtain ⟨p, hp, hspans⟩ := h.kernel
  obtain ⟨p', hclear, hs', hfree⟩ := h.clear_user hx hxy hy
  refine ⟨_, ?_, hs', hfree⟩
  have hnot : ¬ p.contains (PGSIZE * x) = true := by
    rw [hspans.contains_iff]
    omega
  have hstop : ¬ s.userPool.stop < PGSIZE * y := by
    rw [h.user.stop]
    exact not_lt.mpr (Nat.mul_le_mul_left PGSIZE hy)
  rw [split, hp]
  dsimp only
  rw [if_neg hnot, if_pos (h.user.contains_iff.mpr ⟨hx, hxM⟩), if_neg hstop, hclear]

/-- An entry that begins in the kernel pool and ends in the user pool. -/
theorem split_cross {n : Nat} (h : s.Spans A N C M b) (hx : A ≤ x) (hxN : x < A + N) (hC : A + N = C)
    (hCy : C < y) (hy : y ≤ C + M) : ∃ s', s.split (n + 2) (PGSIZE * x) (PGSIZE * y) = .ok s' ∧
      s'.Spans A N C M b ∧ ∀ q, s'.Free q ↔ s.Free q ∨ (x ≤ q ∧ q < y) := by
  obtain ⟨p, hp, hspans⟩ := h.kernel
  obtain ⟨p', hclear, hs', hfree⟩ := h.clear_kernel hp hx hxN.le le_rfl
  obtain ⟨s₂, hsplit, hs₂, hfree₂⟩ := split_user (n := n) (x := C) (y := y) hs' (by omega) le_rfl
    (by omega) hCy.le hy
  refine ⟨s₂, ?_, hs₂, fun q => ?_⟩
  · have hstop : p.stop < PGSIZE * y := by
      rw [hspans.stop, hC]
      exact Nat.mul_lt_mul_of_pos_left hCy (by decide)
    rw [split, hp]
    dsimp only
    rw [if_pos (hspans.contains_iff.mpr ⟨hx, hxN⟩), if_pos hstop, hspans.stop, hclear]
    dsimp only
    rw [hC]
    exact hsplit
  · rw [hfree₂, hfree]
    have hq : x ≤ q ∧ q < y ↔ (x ≤ q ∧ q < A + N) ∨ (C ≤ q ∧ q < y) := by omega
    rw [hq]
    exact or_assoc

/-- **From the label `split` on**, for pages that the two pools cover. -/
theorem split_ok (h : s.Spans A N C M b) (hAC : A + N ≤ C) (hx : A ≤ x) (hxM : x < C + M) (hxy : x ≤ y)
    (hy : y ≤ C + M) (hcover : y ≤ A + N ∨ C ≤ x ∨ A + N = C) (hend : x = y → x < A + N ∨ C ≤ x) :
    ∃ s', s.split 3 (PGSIZE * x) (PGSIZE * y) = .ok s' ∧ s'.Spans A N C M b ∧
      ∀ q, s'.Free q ↔ s.Free q ∨ (x ≤ q ∧ q < y) := by
  by_cases hxN : x < A + N
  · by_cases hyN : y ≤ A + N
    · exact split_kernel h hx hxN hxy hyN
    · exact split_cross h hx hxN (by omega) (by omega) hy
  · exact split_user h (by omega) (by omega) hxM hxy hy

/-- The page `x` is in no pool. -/
theorem split_error {n stop : Nat} (h : s.Spans A N C M b) (hk : ¬ (A ≤ x ∧ x < A + N))
    (hu : ¬ (C ≤ x ∧ x < C + M)) : s.split (n + 1) (PGSIZE * x) stop = .error .notReached := by
  obtain ⟨p, hp, hspans⟩ := h.kernel
  rw [← hspans.contains_iff] at hk
  rw [← h.user.contains_iff] at hu
  rw [split, hp]
  dsimp only
  rw [if_neg hk, if_neg hu]

/-! ## Every usable entry -/

/-- The page from which on an entry is set usable. -/
theorem pgRoundUp_mul (n : Nat) : pgRoundUp (PGSIZE * n) = PGSIZE * n := by
  unfold pgRoundUp PGSIZE
  omega

theorem pgRoundUp_start (he : Paged e) (h : s.usableBound = PGSIZE * b) :
    pgRoundUp (if e.start ≥ s.usableBound then e.start else s.usableBound) =
      PGSIZE * max (e.start / PGSIZE) b := by
  have hstart := he.start
  rw [h]
  split
  · next hge =>
    have hb : b ≤ e.start / PGSIZE := by
      unfold PGSIZE at *
      omega
    rw [max_eq_left hb, hstart, pgRoundUp_mul, Nat.mul_div_cancel_left _ (by decide)]
  · next hlt =>
    have hb : e.start / PGSIZE ≤ b := by
      unfold PGSIZE at *
      omega
    rw [max_eq_right hb, pgRoundUp_mul]

/-- The pools cover an entry, and its end if nothing else of it is above the bound. -/
structure Covers (A N C M b : Nat) (e : E820Entry) : Prop where
  paged : Paged e
  start_le : A ≤ e.start / PGSIZE
  stop_le : e.start / PGSIZE + e.sizeInPg ≤ C + M
  cover : e.start / PGSIZE + e.sizeInPg ≤ A + N ∨ C ≤ e.start / PGSIZE ∨ A + N = C
  bound : e.start / PGSIZE + e.sizeInPg = b → b < A + N ∨ C ≤ b
  last : b ≠ C + M

/-- **The second loop** clears the bits of the usable pages above the bound. -/
theorem setUsable_ok (hAC : A + N ≤ C) : ∀ {l : List E820Entry} {s : BootPools}, s.Spans A N C M b →
    (∀ e ∈ l, Covers A N C M b e) → ∃ s', s.setUsable l = .ok s' ∧ s'.Spans A N C M b ∧
      ∀ q, s'.Free q ↔
        s.Free q ∨ (b ≤ q ∧ ∃ e ∈ l, e.start / PGSIZE ≤ q ∧ q < e.start / PGSIZE + e.sizeInPg)
  | [], s, h, _ => ⟨s, rfl, h, by simp⟩
  | e :: l, s, h, hl => by
    have hc := hl e List.mem_cons_self
    have hrest : ∀ e' ∈ l, Covers A N C M b e' := fun e' he' => hl e' (List.mem_cons_of_mem e he')
    have hstop := hc.paged.stop
    have hpos := hc.paged.pos
    rw [setUsable, if_pos hc.paged.usable]
    have hskip : e.stop < s.usableBound ↔ e.start / PGSIZE + e.sizeInPg < b := by
      rw [hstop, h.bound]
      exact Nat.mul_lt_mul_left (by decide)
    by_cases hb : e.start / PGSIZE + e.sizeInPg < b
    · obtain ⟨s', hok, hs', hfree⟩ := setUsable_ok hAC h hrest
      refine ⟨s', by rw [if_pos (hskip.mpr hb), hok], hs', fun q => ?_⟩
      rw [hfree]
      constructor
      · rintro (hq | ⟨hbq, e', he', hq⟩)
        · exact Or.inl hq
        · exact Or.inr ⟨hbq, e', List.mem_cons_of_mem e he', hq⟩
      · rintro (hq | ⟨hbq, e', he', hq⟩)
        · exact Or.inl hq
        · rcases List.mem_cons.mp he' with rfl | he'
          · omega
          · exact Or.inr ⟨hbq, e', he', hq⟩
    · obtain ⟨-, hA, hM, hcover, hend, hlast⟩ := hc
      obtain ⟨s₁, hsplit, hs₁, hfree₁⟩ := split_ok h hAC (x := max (e.start / PGSIZE) b)
        (y := e.start / PGSIZE + e.sizeInPg) (by omega) (by omega) (by omega) hM (by omega) (by omega)
      obtain ⟨s', hok, hs', hfree⟩ := setUsable_ok hAC hs₁ hrest
      refine ⟨s', ?_, hs', fun q => ?_⟩
      · rw [if_neg (mt hskip.mp hb), pgRoundUp_start (hl e List.mem_cons_self).paged h.bound, hstop, hsplit]
        exact hok
      · rw [hfree, hfree₁]
        constructor
        · rintro ((hq | hq) | ⟨hbq, e', he', hq⟩)
          · exact Or.inl hq
          · exact Or.inr ⟨by omega, e, List.mem_cons_self, by omega⟩
          · exact Or.inr ⟨hbq, e', List.mem_cons_of_mem e he', hq⟩
        · rintro (hq | ⟨hbq, e', he', hq⟩)
          · exact Or.inl (Or.inl hq)
          · rcases List.mem_cons.mp he' with rfl | he'
            · exact Or.inl (Or.inr (by omega))
            · exact Or.inr ⟨hbq, e', he', hq⟩

/-- An entry that ends at the bound where no pool has the bound's page. -/
theorem setUsable_error (h : s.Spans A N C M b) (hk : ¬ (A ≤ b ∧ b < A + N)) (hu : ¬ (C ≤ b ∧ b < C + M))
    (he : Paged e) (hstop : e.start / PGSIZE + e.sizeInPg = b) {l' : List E820Entry} :
    ∀ {l : List E820Entry}, (∀ e' ∈ l, Paged e' ∧ e'.start / PGSIZE + e'.sizeInPg < b) →
      s.setUsable (l ++ e :: l') = .error .notReached
  | [], _ => by
    have hpos := he.pos
    have hskip : ¬ e.stop < s.usableBound := by
      rw [he.stop, h.bound, hstop]
      exact lt_irrefl _
    have hmax : max (e.start / PGSIZE) b = b := by omega
    rw [List.nil_append, setUsable, if_pos he.usable, if_neg hskip, pgRoundUp_start he h.bound, hmax,
      split_error h hk hu]
  | e₀ :: l, hl => by
    obtain ⟨he₀, hlt⟩ := hl e₀ List.mem_cons_self
    have hskip : e₀.stop < s.usableBound := by
      rw [he₀.stop, h.bound]
      exact Nat.mul_lt_mul_of_pos_left hlt (by decide)
    rw [List.cons_append, setUsable, if_pos he₀.usable, if_pos hskip]
    exact setUsable_error h hk hu he hstop fun e' he' => hl e' (List.mem_cons_of_mem e₀ he')

theorem Spans.setKernel {p p' : BootPool} {start cnt : Nat} (h : s.Spans A N C M b)
    (hp : s.kernelPool = some p) (hk : p.clear start cnt = .ok p') :
    Spans { s with kernelPool := some p' } A N C M b := by
  obtain ⟨p₀, hp₀, hspans⟩ := h.kernel
  rw [hp] at hp₀
  obtain rfl := Option.some.inj hp₀
  exact ⟨⟨p', rfl, hspans.of_clear hk⟩, h.user, h.bound⟩

theorem Spans.setUser {p' : BootPool} {start cnt : Nat} (h : s.Spans A N C M b)
    (hk : s.userPool.clear start cnt = .ok p') : Spans { s with userPool := p' } A N C M b :=
  ⟨h.kernel, h.user.of_clear hk, h.bound⟩

theorem Spans.split : ∀ {fuel start stop : Nat} {s : BootPools}, s.Spans A N C M b →
    s.split fuel start stop = .ok s' → s'.Spans A N C M b
  | 0, _, _, _, _, hs => nomatch hs
  | fuel + 1, start, stop, s, h, hs => by
    rw [BootPools.split] at hs
    split at hs
    · cases hs
    next p hp =>
    split at hs
    · split at hs
      · split at hs
        · cases hs
        · next p' hclear => exact Spans.split (h.setKernel hp hclear) hs
      · split at hs
        · cases hs
        · next p' hclear =>
          cases hs
          exact h.setKernel hp hclear
    · split at hs
      · split at hs
        · split at hs
          · cases hs
          · next p' hclear => exact Spans.split (h.setUser hclear) hs
        · split at hs
          · cases hs
          · next p' hclear =>
            cases hs
            exact h.setUser hclear
      · cases hs

/-- The loop changes only bits. -/
theorem Spans.setUsable : ∀ {l : List E820Entry} {s : BootPools}, s.Spans A N C M b →
    s.setUsable l = .ok s' → s'.Spans A N C M b
  | [], s, h, hs => by
    cases hs
    exact h
  | e :: l, s, h, hs => by
    rw [BootPools.setUsable] at hs
    split at hs
    · split at hs
      · exact Spans.setUsable h hs
      · split at hs
        · cases hs
        · next s₁ h₁ => exact Spans.setUsable (h.split h₁) hs
    · exact Spans.setUsable h hs

end BootPools

/-! ## The pools of a table -/

namespace Populating

theorem lastStop_append {l l' : List E820Entry} {e : E820Entry} {stop : Nat} :
    lastStop (l ++ e :: l') stop = lastStop l' e.stop := by
  induction l generalizing stop with
  | nil => rfl
  | cons e₀ l ih => exact ih

end Populating

open Populating (firstStart lastStop)

/-- Every entry lies between the first start and the last end. -/
theorem within_regions : ∀ {l : List E820Entry}, l.Pairwise (fun a b => a.stop ≤ b.start) →
    ∀ e ∈ l, firstStart l ≤ e.start ∧ ∀ d, e.stop ≤ lastStop l d
  | e₀ :: l, hl, e, he => by
    obtain ⟨hhead, htail⟩ := List.pairwise_cons.mp hl
    have hlast : ∀ e' ∈ l, ∀ d, e'.stop ≤ lastStop l d := fun e' he' => (within_regions htail e' he').2
    rcases List.mem_cons.mp he with rfl | he
    · refine ⟨le_rfl, fun d => ?_⟩
      cases l with
      | nil => exact le_rfl
      | cons e₁ l =>
        have h₁ := hhead e₁ List.mem_cons_self
        have h₂ := hlast e₁ List.mem_cons_self e.stop
        have h₃ : e₁.start ≤ e₁.stop := Nat.le_add_right _ _
        exact h₁.trans (h₃.trans h₂)
    · refine ⟨?_, fun d => hlast e he e₀.stop⟩
      have h₁ := hhead e he
      have h₂ : e₀.start ≤ e₀.stop := Nat.le_add_right _ _
      exact h₂.trans h₁

namespace MemoryMap

variable (m : MemoryMap) {limit image K kernelEnd userStart : Nat}

/-- The start of the first usable entry, and the end of the last. -/
def first : Nat := firstStart m.regions

def last : Nat := lastStop m.regions 0

theorem lastStop_mem : ∀ {l : List E820Entry}, l ≠ [] → ∃ e ∈ l, ∀ d, lastStop l d = e.stop
  | [], h => absurd rfl h
  | [e], _ => ⟨e, List.mem_cons_self, fun _ => rfl⟩
  | e :: e₁ :: l, _ => by
    obtain ⟨e', he', hd⟩ := lastStop_mem (List.cons_ne_nil e₁ l)
    exact ⟨e', List.mem_cons_of_mem e he', fun _ => hd e.stop⟩

/-- Ranges in pages. -/
theorem bounds : ∃ A t, m.first = PGSIZE * A ∧ m.last = PGSIZE * t ∧
    ∀ e ∈ m.regions, A ≤ e.start / PGSIZE ∧ e.start / PGSIZE + e.sizeInPg ≤ t := by
  have hwithin := within_regions m.pairwise_stop
  obtain ⟨e₀, l₀, hl₀⟩ := List.exists_cons_of_ne_nil m.some_usable
  have hreg : m.regions = e₀ :: l₀ := hl₀
  have hfirst : firstStart m.regions = e₀.start := by rw [hreg]; rfl
  obtain ⟨eₙ, heₙ, hd⟩ := lastStop_mem m.some_usable
  have hlast : lastStop m.regions 0 = eₙ.stop := hd 0
  have he₀ := m.paged (hreg ▸ List.mem_cons_self : e₀ ∈ m.regions)
  refine ⟨e₀.start / PGSIZE, eₙ.start / PGSIZE + eₙ.sizeInPg, hfirst.trans he₀.start,
    hlast.trans (m.paged heₙ).stop, fun e he => ?_⟩
  obtain ⟨h₁, h₂⟩ := hwithin e he
  have h₃ := h₂ 0
  rw [hfirst] at h₁
  rw [hlast, (m.paged he).stop, (m.paged heₙ).stop] at h₃
  exact ⟨Nat.div_le_div_right h₁, Nat.le_of_mul_le_mul_left h₃ (by decide)⟩

/-- Entries one behind the other, in pages. -/
theorem stopPg_le {a b : E820Entry} (ha : Paged a) (hb : Paged b) (h : a.stop ≤ b.start) :
    a.start / PGSIZE + a.sizeInPg ≤ b.start / PGSIZE := by
  rw [ha.stop, hb.start] at h
  exact Nat.le_of_mul_le_mul_left h (by decide)

/-- What the cut of the kernel's share says about the entries, in pages. -/
theorem Cut.spec {m : MemoryMap} (hc : m.Cut K kernelEnd userStart) : ∃ A k u t,
    m.first = PGSIZE * A ∧ kernelEnd = PGSIZE * k ∧ userStart = PGSIZE * u ∧ m.last = PGSIZE * t ∧
    A < k ∧ k ≤ u ∧ u < t ∧ ∀ e ∈ m.regions, A ≤ e.start / PGSIZE ∧ e.start / PGSIZE + e.sizeInPg ≤ t ∧
      (e.start / PGSIZE + e.sizeInPg ≤ k ∨ u ≤ e.start / PGSIZE ∨ k = u) := by
  have hpaged : ∀ e ∈ m.regions, Paged e := fun e he => m.paged he
  have hpair := m.pairwise_stop
  obtain ⟨A, t, hA, ht, hbounds⟩ := m.bounds
  cases hc with
  | @inside l e _ hl hlt hle hend =>
    have hmem : e ∈ m.regions := by rw [hl]; exact List.mem_append_right l List.mem_cons_self
    have hstart := (hpaged e hmem).start
    obtain ⟨hAe, hte⟩ := hbounds e hmem
    have hk : kernelEnd = PGSIZE * (e.start / PGSIZE + (K - pageCnt l)) := by
      rw [hend, Nat.mul_add, ← hstart, Nat.mul_comm PGSIZE]
    refine ⟨A, e.start / PGSIZE + (K - pageCnt l), e.start / PGSIZE + (K - pageCnt l), t, hA, hk, hk, ht,
      by omega, le_rfl, by omega, fun e' he' => ?_⟩
    exact ⟨(hbounds e' he').1, (hbounds e' he').2, Or.inr (Or.inr rfl)⟩
  | @between l l' a b hl hK =>
    have hma : a ∈ m.regions := by rw [hl]; exact List.mem_append_right l List.mem_cons_self
    have hmb : b ∈ m.regions := by
      rw [hl]
      exact List.mem_append_right l (List.mem_cons_of_mem a List.mem_cons_self)
    have ha := hpaged a hma
    have hb := hpaged b hmb
    have hposa := ha.pos
    have hposb := hb.pos
    obtain ⟨hAa, -⟩ := hbounds a hma
    obtain ⟨-, htb⟩ := hbounds b hmb
    rw [hl] at hpair
    obtain ⟨-, htail, hcross⟩ := List.pairwise_append.mp hpair
    obtain ⟨hbehind, htail⟩ := List.pairwise_cons.mp htail
    have hab := stopPg_le ha hb (hbehind b List.mem_cons_self)
    refine ⟨A, a.start / PGSIZE + a.sizeInPg, b.start / PGSIZE, t, hA, ha.stop, hb.start, ht, by omega, hab,
      by omega, fun e he => ⟨(hbounds e he).1, (hbounds e he).2, ?_⟩⟩
    have hp := hpaged e he
    have hpos := hp.pos
    rw [hl] at he
    rcases List.mem_append.mp he with he | he
    · have hle := stopPg_le hp ha (hcross e he a List.mem_cons_self)
      exact Or.inl (by omega)
    · rcases List.mem_cons.mp he with rfl | he
      · exact Or.inl le_rfl
      · rcases List.mem_cons.mp he with rfl | he
        · exact Or.inr (Or.inl le_rfl)
        · have hle := stopPg_le hb hp ((List.pairwise_cons.mp htail).1 e he)
          exact Or.inr (Or.inl (by omega))

/-- `populate_pools` on the table. -/
def populate (limit image : Nat) : Except PopulateFault BootPools :=
  populatePools m.areas.1 m.areas.2 m.entries limit image

/-- The end of the kernel image and of the two bitmaps. -/
def bound (image kernelEnd userStart : Nat) : Nat :=
  pgRoundUp image + bmPages ((kernelEnd - m.first) / PGSIZE) + bmPages ((m.last - userStart) / PGSIZE)

/-- The pools of a cut, before their bits are cleared. -/
def poolsOf (image kernelEnd userStart : Nat) : BootPools :=
  BootPools.ofRanges (pgRoundUp image) m.first kernelEnd userStart m.last

/-- The variables of the first loop when it starts. -/
def populating (limit image : Nat) : Populating where
  state := .kernStart
  rem := m.kernPages limit
  regionStart := 0
  stop := 0
  freeStart := pgRoundUp image
  kernelPool := none

theorem populate_of_error {fault : PopulateFault}
    (h : Populating.run (m.userPages limit) (m.populating limit image) m.regions = .error fault) :
    m.populate limit image = .error fault := by
  have hrun : Populating.run (m.userPages limit) (m.populating limit image) m.entries = .error fault := by
    rw [Populating.run_filter]
    exact h
  unfold populating kernPages at hrun
  rw [← m.totalPages] at hrun
  unfold populate populatePools
  dsimp only
  unfold userPages at hrun
  rw [hrun]

theorem populate_of_ok {c : Populating}
    (h : Populating.run (m.userPages limit) (m.populating limit image) m.regions = .ok c) :
    m.populate limit image = BootPools.setUsable
      { kernelPool := c.kernelPool, userPool := (initPool c.freeStart c.regionStart c.stop).1,
        usableBound := (initPool c.freeStart c.regionStart c.stop).2 } m.regions := by
  have hrun : Populating.run (m.userPages limit) (m.populating limit image) m.entries = .ok c := by
    rw [Populating.run_filter]
    exact h
  unfold populating kernPages at hrun
  rw [← m.totalPages] at hrun
  unfold populate populatePools
  dsimp only
  unfold userPages at hrun
  rw [hrun]
  exact BootPools.setUsable_filter m.entries _

theorem kernPages_add (limit : Nat) : m.kernPages limit + m.userPages limit = pageCnt m.regions := by
  have hle := m.userPages_le limit
  unfold kernPages
  omega

/-- **The first loop makes the pools of the cut.** -/
theorem populate_cut (image : Nat) (hc : m.Cut (m.kernPages limit) kernelEnd userStart) :
    m.populate limit image = (m.poolsOf image kernelEnd userStart).setUsable m.regions := by
  have hpaged : ∀ e ∈ m.regions, Paged e := fun e he => m.paged he
  have hsum := m.kernPages_add limit
  cases hc with
  | @inside l e _ hl hlt hle hend =>
    rw [hl] at hpaged
    have hrun := Populating.run_inside (U := m.userPages limit) (c := m.populating limit image) hpaged rfl hlt
      hle hend
    rw [← hl] at hrun
    rw [m.populate_of_ok hrun]
    have hlast : m.last = e.stop := by rw [last, hl, Populating.lastStop_append]; rfl
    unfold poolsOf BootPools.ofRanges
    rw [hlast]
    rfl
  | @between l l' a b hl hK =>
    rw [hl] at hpaged
    have hrun := Populating.run_between (U := m.userPages limit) (c := m.populating limit image) hpaged rfl hK
    have hb := hpaged b (List.mem_append_right l (List.mem_cons_of_mem a List.mem_cons_self))
    have hpos := hb.pos
    have hl' : ∀ e ∈ l', Paged e := fun e he =>
      hpaged e (List.mem_append_right l (List.mem_cons_of_mem a (List.mem_cons_of_mem b he)))
    -- the pages of `b` are not counted, so more are left than there are
    have hleft : pageCnt l' < m.userPages limit := by
      rw [hl, pageCnt_append, pageCnt_cons, pageCnt_cons] at hsum
      omega
    rw [Populating.run_cons hb (Populating.step_userStart rfl)] at hrun
    obtain ⟨rem, huser⟩ := Populating.run_user (U := m.userPages limit) (l := l') (c :=
      { state := .user
        rem := m.userPages limit
        regionStart := b.start
        stop := b.stop
        freeStart := (initPool (pgRoundUp image) (firstStart (l ++ a :: b :: l')) a.stop).2
        kernelPool := some (initPool (pgRoundUp image) (firstStart (l ++ a :: b :: l')) a.stop).1 })
      hl' rfl hleft
    have hok := hrun.trans huser
    rw [← hl] at hok
    rw [m.populate_of_ok hok]
    have hlast : m.last = lastStop l' b.stop := by rw [last, hl, Populating.lastStop_append]; rfl
    unfold poolsOf BootPools.ofRanges
    rw [hlast]
    rfl

theorem sum_size_le {b : Nat} : ∀ {l : List E820Entry} {n : Nat},
    l.Pairwise (fun a c => a.mem + a.size ≤ c.mem) → (∀ e ∈ l, n ≤ e.mem ∧ e.mem + e.size ≤ b) →
    n ≤ b → n + (l.map E820Entry.size).sum ≤ b
  | [], _, _, _, h => h
  | e :: l, n, hp, hl, _ => by
    obtain ⟨hhead, htail⟩ := List.pairwise_cons.mp hp
    obtain ⟨hlo, hle⟩ := hl e List.mem_cons_self
    have hrest := sum_size_le (l := l) (n := e.mem + e.size) htail
      (fun e' he' => ⟨hhead e' he', (hl e' (List.mem_cons_of_mem e he')).2⟩) hle
    rw [List.map_cons, List.sum_cons]
    omega

theorem pageCnt_lt : pageCnt m.regions < 2 ^ 64 := by
  have hsum := sum_size_le (b := 2 ^ 52) (n := 0) m.ascending
    (fun e he => ⟨Nat.zero_le _, m.physical e he⟩) (Nat.zero_le _)
  have hsize := sum_size fun e he => m.paged he
  unfold regions at hsize ⊢
  rw [hsize] at hsum
  unfold PGSIZE at hsum
  omega

/-- **The kernel's share ends inside an entry that another follows**: the assertion fails. -/
theorem populate_inside {l r : List E820Entry} {e : E820Entry} (hl : m.regions = l ++ e :: r)
    (hr : r ≠ []) (hlt : pageCnt l < m.kernPages limit)
    (hle : m.kernPages limit < pageCnt l + e.sizeInPg) : m.populate limit image = .error .assertRem := by
  have hpaged : ∀ e ∈ m.regions, Paged e := fun e he => m.paged he
  have hsum := m.kernPages_add limit
  have hfit := m.pageCnt_lt
  rw [hl] at hpaged
  rw [hl, pageCnt_append, pageCnt_cons] at hsum hfit
  have hrun := Populating.run_inside (U := m.userPages limit) (c := m.populating limit image) hpaged rfl hlt
    hle rfl
  refine m.populate_of_error ?_
  rw [hl, hrun]
  refine Populating.run_user_error (fun e' he' => hpaged e' (List.mem_append_right l (List.mem_cons_of_mem e he')))
    rfl ?_ hr
  show (m.userPages limit + 2 ^ 64 - e.sizeInPg + (m.kernPages limit - pageCnt l)) % 2 ^ 64 = pageCnt r
  omega

/-- The kernel takes everything: the user pool starts where the kernel pool does. -/
theorem populate_all {l : List E820Entry} {e : E820Entry} (hl : m.regions = l ++ [e])
    (hK : m.kernPages limit = pageCnt m.regions) :
    m.populate limit image = (m.poolsOf image m.last m.first).setUsable m.regions := by
  have hpaged : ∀ e ∈ m.regions, Paged e := fun e he => m.paged he
  have hsum : m.kernPages limit = pageCnt l + e.sizeInPg := by
    rw [hK, hl, pageCnt_append, pageCnt_cons, pageCnt_nil, Nat.add_zero]
  rw [hl] at hpaged
  have hrun := Populating.run_between (U := m.userPages limit) (c := m.populating limit image) hpaged rfl hsum
  rw [← hl] at hrun
  rw [m.populate_of_ok hrun]
  have hlast : m.last = e.stop := by rw [last, hl, Populating.lastStop_append]; rfl
  unfold poolsOf BootPools.ofRanges
  rw [hlast]
  rfl

/-- The pools of ranges that are made of pages, before their bits are cleared. -/
theorem poolsOf_spans (image : Nat) {A k u t : Nat} (hA : m.first = PGSIZE * A) (hk : kernelEnd = PGSIZE * k)
    (hu : userStart = PGSIZE * u) (ht : m.last = PGSIZE * t) :
    (∃ b, m.bound image kernelEnd userStart = PGSIZE * b ∧
      (m.poolsOf image kernelEnd userStart).Spans A (k - A) u (t - u) b) ∧
    ∀ q, ¬ (m.poolsOf image kernelEnd userStart).Free q := by
  have hcnt : ∀ x y : Nat, (PGSIZE * y - PGSIZE * x) / PGSIZE = y - x := by
    intro x y
    rw [← Nat.mul_sub, Nat.mul_div_cancel_left _ (by decide)]
  have hbit : ∀ n i : Nat, (List.replicate n true)[i]? ≠ some false := by
    intro n i hb
    have hmem := List.mem_of_getElem? hb
    rw [List.mem_replicate] at hmem
    exact nomatch hmem.2
  refine ⟨⟨m.bound image kernelEnd userStart / PGSIZE, ?_, ⟨_, rfl, ?_, ?_⟩, ⟨?_, ?_⟩, ?_⟩, fun q => ?_⟩
  · unfold bound bmPages pgRoundUp PGSIZE
    omega
  · exact hA
  · show (List.replicate ((kernelEnd - m.first) / PGSIZE) true).length = k - A
    rw [List.length_replicate, hA, hk, hcnt]
  · exact hu
  · show (List.replicate ((m.last - userStart) / PGSIZE) true).length = t - u
    rw [List.length_replicate, hu, ht, hcnt]
  · show m.bound image kernelEnd userStart = _
    unfold bound bmPages pgRoundUp PGSIZE
    omega
  · rintro (⟨p, hp, -, hb⟩ | ⟨-, hb⟩)
    · cases hp
      exact hbit _ _ hb
    · exact hbit _ _ hb

/-! ## When the memory is discovered -/

/-- `populate_pools` returns pools that do not overlap, and a page's bit is clear exactly when the page
lies in a usable entry, at or above the end of the kernel image and the bitmaps. -/
def Discovers (limit image : Nat) : Prop :=
  ∃ s p, m.populate limit image = .ok s ∧ s.kernelPool = some p ∧
    (∀ q, ¬ (p.contains (PGSIZE * q) = true ∧ s.userPool.contains (PGSIZE * q) = true)) ∧
    ∀ q, s.Free q ↔ s.usableBound ≤ PGSIZE * q ∧
      ∃ e ∈ m.entries, e.usable = true ∧ e.start ≤ PGSIZE * q ∧ PGSIZE * q < e.stop

/-- The user pool gets a page, the kernel's share ends inside the last usable entry or at the end of one
that another follows, and the bitmaps end neither at the end of the memory nor at a hole between the
pools. -/
def Works (limit image : Nat) : Prop :=
  0 < m.userPages limit ∧ ∃ kernelEnd userStart, m.Cut (m.kernPages limit) kernelEnd userStart ∧
    m.bound image kernelEnd userStart ≠ m.last ∧
    (m.bound image kernelEnd userStart = kernelEnd → kernelEnd = userStart)

theorem Works.discovers {m : MemoryMap} (h : m.Works limit image) : m.Discovers limit image := by
  obtain ⟨-, kernelEnd, userStart, hc, hlast, hhole⟩ := h
  obtain ⟨A, k, u, t, hA, hk, hu, ht, hAk, hku, hut, hcover⟩ := hc.spec
  obtain ⟨⟨b, hb, hs⟩, hfree⟩ := m.poolsOf_spans image hA hk hu ht
  have hbt : b ≠ t := by
    rintro rfl
    exact hlast (hb.trans ht.symm)
  have hbk : b = k → k = u := by
    rintro rfl
    have hku := hhole (hb.trans hk.symm)
    rw [hk, hu] at hku
    exact Nat.eq_of_mul_eq_mul_left (by decide) hku
  obtain ⟨s', hok, hs', hfree'⟩ := BootPools.setUsable_ok (l := m.regions) (by omega) hs (fun e he => by
    obtain ⟨h₁, h₂, h₃⟩ := hcover e he
    exact ⟨m.paged he, h₁, by omega, by omega, by omega, by omega⟩)
  obtain ⟨p, hp, hspans⟩ := hs'.kernel
  refine ⟨s', p, (m.populate_cut image hc).trans hok, hp, fun q => ?_, fun q => ?_⟩
  · rw [hspans.contains_iff, hs'.user.contains_iff]
    omega
  · rw [hfree', hs'.bound]
    constructor
    · rintro (hq | ⟨hbq, e, he, hlo, hhi⟩)
      · exact absurd hq (hfree q)
      · have hp := m.paged he
        refine ⟨Nat.mul_le_mul_left PGSIZE hbq, e, List.mem_of_mem_filter he, hp.usable, ?_, ?_⟩
        · rw [hp.start]
          exact Nat.mul_le_mul_left PGSIZE hlo
        · rw [hp.stop]
          exact Nat.mul_lt_mul_of_pos_left hhi (by decide)
    · rintro ⟨hbq, e, he, husable, hlo, hhi⟩
      have hmem : e ∈ m.regions := List.mem_filter.mpr ⟨he, husable⟩
      have hp := m.paged hmem
      rw [hp.start] at hlo
      rw [hp.stop] at hhi
      exact Or.inr ⟨Nat.le_of_mul_le_mul_left hbq (by decide), e, hmem,
        Nat.le_of_mul_le_mul_left hlo (by decide), Nat.lt_of_mul_lt_mul_left hhi⟩

/-- The last usable entry. -/
theorem exists_last : ∃ l e, m.regions = l ++ [e] ∧ m.last = e.stop := by
  rcases List.eq_nil_or_concat m.regions with hnil | ⟨l, e, hl⟩
  · exact absurd hnil m.some_usable
  · rw [List.concat_eq_append] at hl
    refine ⟨l, e, hl, ?_⟩
    rw [last, hl, Populating.lastStop_append]
    rfl

/-- With no page for the user pool, the pools overlap. -/
theorem Discovers.userPages_pos {m : MemoryMap} (h : m.Discovers limit image) : 0 < m.userPages limit := by
  obtain ⟨s, p, hok, hp, hdisjoint, -⟩ := h
  by_contra hU
  have hsum := m.kernPages_add limit
  obtain ⟨l, e, hl, hlast⟩ := m.exists_last
  obtain ⟨A, t, hA, ht, hbounds⟩ := m.bounds
  rw [m.populate_all hl (by omega)] at hok
  obtain ⟨⟨b, -, hs⟩, -⟩ := m.poolsOf_spans image hA ht hA ht
  have hs' := hs.setUsable hok
  obtain ⟨p', hp', hspans⟩ := hs'.kernel
  rw [hp] at hp'
  obtain rfl := Option.some.inj hp'
  have hmem : e ∈ m.regions := by rw [hl]; exact List.mem_append_right l List.mem_cons_self
  have hpos := (m.paged hmem).pos
  obtain ⟨h₁, h₂⟩ := hbounds e hmem
  refine hdisjoint A ⟨hspans.contains_iff.mpr ?_, hs'.user.contains_iff.mpr ?_⟩ <;> omega

/-- The kernel's share ends where a user pool can follow. -/
theorem Discovers.cut {m : MemoryMap} (h : m.Discovers limit image) :
    ∃ kernelEnd userStart, m.Cut (m.kernPages limit) kernelEnd userStart := by
  have hU := h.userPages_pos
  have hsum := m.kernPages_add limit
  have hle := m.userPages_le limit
  obtain ⟨s, p, hok, -⟩ := h
  obtain ⟨l, e, l', hl, hlt, hK⟩ := exists_entry_of_pageCnt (l := m.regions) (n := m.kernPages limit)
    (by omega) (by omega)
  rcases hK.lt_or_eq with hin | heq
  · cases l' with
    | nil => exact ⟨_, _, .inside hl hlt hin rfl⟩
    | cons b l' =>
      rw [m.populate_inside hl (List.cons_ne_nil b l') hlt hin] at hok
      cases hok
  · cases l' with
    | nil =>
      rw [hl, pageCnt_append, pageCnt_cons, pageCnt_nil] at hsum
      omega
    | cons b l' => exact ⟨_, _, .between hl heq⟩

/-- A bound at the end of the memory is in no pool. -/
theorem Discovers.bound_ne_last {m : MemoryMap} (h : m.Discovers limit image)
    (hc : m.Cut (m.kernPages limit) kernelEnd userStart) : m.bound image kernelEnd userStart ≠ m.last := by
  intro hbound
  obtain ⟨s, p, hok, -⟩ := h
  obtain ⟨A, k, u, t, hA, hk, hu, ht, hAk, hku, hut, -⟩ := hc.spec
  obtain ⟨⟨b, hb, hs⟩, -⟩ := m.poolsOf_spans image hA hk hu ht
  have hbt : b = t := Nat.eq_of_mul_eq_mul_left (by decide) (hb.symm.trans (hbound.trans ht))
  obtain ⟨l, e, hl, hlast⟩ := m.exists_last
  have hpaged : ∀ e' ∈ l ++ [e], Paged e' := fun e' he' => m.paged (hl ▸ he')
  have he := hpaged e (List.mem_append_right l List.mem_cons_self)
  have hpos := he.pos
  have hstop : e.start / PGSIZE + e.sizeInPg = b := by
    rw [hbt]
    exact Nat.eq_of_mul_eq_mul_left (by decide) (he.stop.symm.trans (hlast.symm.trans ht))
  have hpair := m.pairwise_stop
  rw [hl] at hpair
  obtain ⟨-, -, hcross⟩ := List.pairwise_append.mp hpair
  rw [m.populate_cut image hc, hl, BootPools.setUsable_error hs (by omega) (by omega) he hstop] at hok
  · cases hok
  · intro e' he'
    have hp := hpaged e' (List.mem_append_left [e] he')
    have hle := stopPg_le hp he (hcross e' he' e List.mem_cons_self)
    exact ⟨hp, by omega⟩

/-- A bound at the end of the kernel pool is in the user pool. -/
theorem Discovers.userStart_eq {m : MemoryMap} (h : m.Discovers limit image)
    (hc : m.Cut (m.kernPages limit) kernelEnd userStart)
    (hbound : m.bound image kernelEnd userStart = kernelEnd) : kernelEnd = userStart := by
  obtain ⟨s, p, hok, -⟩ := h
  obtain ⟨A, k, u, t, hA, hk, hu, ht, hAk, hku, hut, -⟩ := hc.spec
  obtain ⟨⟨b, hb, hs⟩, -⟩ := m.poolsOf_spans image hA hk hu ht
  have hbk : b = k := Nat.eq_of_mul_eq_mul_left (by decide) (hb.symm.trans (hbound.trans hk))
  by_contra hne
  have hlt : k < u := by
    refine hku.lt_of_ne ?_
    rintro rfl
    exact hne (hk.trans hu.symm)
  have hcut := m.populate_cut image hc
  cases hc with
  | inside => exact hne rfl
  | @between l l' a c hl hK =>
    have hpaged : ∀ e' ∈ l ++ a :: c :: l', Paged e' := fun e' he' => m.paged (hl ▸ he')
    have ha := hpaged a (List.mem_append_right l List.mem_cons_self)
    have hpos := ha.pos
    have hstop : a.start / PGSIZE + a.sizeInPg = b := by
      rw [hbk]
      exact Nat.eq_of_mul_eq_mul_left (by decide) (ha.stop.symm.trans hk)
    have hpair := m.pairwise_stop
    rw [hl] at hpair
    obtain ⟨-, -, hcross⟩ := List.pairwise_append.mp hpair
    rw [hcut, hl, BootPools.setUsable_error hs (by omega) (by omega) ha hstop] at hok
    · cases hok
    · intro e' he'
      have hp := hpaged e' (List.mem_append_left _ he')
      have hle := stopPg_le hp ha (hcross e' he' a List.mem_cons_self)
      exact ⟨hp, by omega⟩

/-- An entry below 4 GB. -/
def entry (mem len type : BitVec 32) : E820Entry where
  memLo := mem
  memHi := 0
  lenLo := len
  lenHi := 0
  type := type

/-- 128 MB of memory, the last part of it with the ACPI tables. -/
def withAcpi : MemoryMap where
  entries := [entry 0 0x9f000 1, entry 0x9f000 0x1000 2, entry 0x100000 0x7ee0000 1, entry 0x7fe0000 0x20000 3]
  some_usable := by decide
  aligned := by decide
  nonempty := by decide
  ascending := by decide
  physical := by decide

/-- The same memory without the ACPI tables. -/
def withoutAcpi : MemoryMap where
  entries := [entry 0 0x9f000 1, entry 0x9f000 0x1000 2, entry 0x100000 0x7ee0000 1]
  some_usable := by decide
  aligned := by decide
  nonempty := by decide
  ascending := by decide
  physical := by decide

example : withoutAcpi.Works (2 ^ 64 - 1) 0x8004240000 :=
  ⟨by decide, _, _, .inside (l := [entry 0 0x9f000 1]) rfl (by decide) (by decide) rfl, by decide, fun _ => rfl⟩

end MemoryMap

end Pintos
