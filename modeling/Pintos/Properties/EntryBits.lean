import Pintos.Threads.Mmu

/-!
# The bits of a page table entry

* `Pools.leaf` — the entry of a page, as `pml4e_walk` finds it
* `OnlyBit` — one bit of an entry has a value, and nothing else changes
* `pml4GetPage_congr` — addresses and the present bits decide what `pml4_get_page` returns
* `bit_updates_exact` — **`pml4_clear_page` clears one bit. The other two do if they set it, or if the upper half of the
  entry is zero**
-/

namespace Pintos

open Function

namespace Pools

/-! ## Looking up an entry -/

/-- A table that refers to the next one. -/
def lookLevel (next : PageMem → Vaddr → Option PtePtr) (idx : Idx) (mem : PageMem) (table : Vaddr) : Option PtePtr :=
  if table = 0 then none
  else if present (mem table idx) then next mem (ptov (PTE_ADDR (mem table idx)))
  else none

/-- The entry of a page in the last table, if there is one. -/
def leaf (va : Vaddr) : PageMem → Vaddr → Option PtePtr :=
  lookLevel (lookLevel (lookLevel (fun _ table => some (table, PTX va)) (PDX va)) (PDPE va)) (PML4 va)

section

variable {s s' : Pools} {mem mem' : PageMem} {va pml4 table : Vaddr} {idx : Idx} {f : BitVec 64}
  {look : PageMem → Vaddr → Option PtePtr}

theorem walkLevel_eq_look (next : Pools → Vaddr → Except Panic (Option PtePtr × Pools))
    (hnext : ∀ s table, next s table = .ok (look s.mem table, s)) (s : Pools) (table : Vaddr) :
    walkLevel idx false next s table = .ok (lookLevel look idx s.mem table, s) := by
  unfold walkLevel ensureTable lookLevel
  by_cases htable : table = 0
  · rw [if_pos htable, if_pos htable]
  rw [if_neg htable, if_neg htable]
  by_cases hp : present (s.mem table idx) = true
  · rw [if_pos hp, if_pos hp]
    dsimp only
    rw [hnext, nextTable]
    cases look s.mem (ptov (PTE_ADDR (s.mem table idx))) <;> rfl
  · rw [if_neg hp, if_neg hp]
    rfl

/-- Without `create` the walk changes nothing, whatever the tables are. -/
theorem pml4eWalk_eq_leaf (s : Pools) (va pml4 : Vaddr) : s.pml4eWalk va false pml4 = .ok (leaf va s.mem pml4, s) := by
  have hpgdir : ∀ s table, pgdirWalk va false s table =
      .ok (lookLevel (fun _ table => some (table, PTX va)) (PDX va) s.mem table, s) :=
    walkLevel_eq_look (fun s table => .ok (some (table, PTX va), s)) fun _ _ => rfl
  exact walkLevel_eq_look _ (walkLevel_eq_look _ hpgdir) s pml4

theorem lookLevel_congr (hpresent : present (mem table idx) = present (mem' table idx))
    (haddr : PTE_ADDR (mem table idx) = PTE_ADDR (mem' table idx)) (hlook : ∀ table, look mem table = look mem' table) :
    lookLevel look idx mem table = lookLevel look idx mem' table := by
  unfold lookLevel
  rw [hpresent, haddr, hlook]

/-- Addresses and present bits decide where a page is. -/
theorem leaf_congr (hpresent : ∀ table idx, present (mem table idx) = present (mem' table idx))
    (haddr : ∀ table idx, PTE_ADDR (mem table idx) = PTE_ADDR (mem' table idx)) (va pml4 : Vaddr) :
    leaf va mem pml4 = leaf va mem' pml4 :=
  lookLevel_congr (hpresent _ _) (haddr _ _) fun _ => lookLevel_congr (hpresent _ _) (haddr _ _) fun _ =>
    lookLevel_congr (hpresent _ _) (haddr _ _) fun _ => rfl

theorem pml4GetPage_congr (hpresent : ∀ table idx, present (s.mem table idx) = present (s'.mem table idx))
    (haddr : ∀ table idx, PTE_ADDR (s.mem table idx) = PTE_ADDR (s'.mem table idx)) (pml4 uaddr : Vaddr) :
    s.pml4GetPage pml4 uaddr = s'.pml4GetPage pml4 uaddr := by
  unfold pml4GetPage
  rw [pml4eWalk_eq_leaf, pml4eWalk_eq_leaf, leaf_congr hpresent haddr]
  cases leaf uaddr s'.mem pml4 with
  | none => rfl
  | some p =>
    dsimp only
    rw [hpresent, haddr]

/-! ## One bit -/

/-- Nothing changes but one bit of the entry `p`, which has the value. -/
structure OnlyBit (bit : Nat) (value : Bool) (p : Option PtePtr) (s s' : Pools) : Prop where
  pools : s'.kernelPool = s.kernelPool ∧ s'.userPool = s.userPool
  bits : ∀ (q : PtePtr) (i : Nat), (s'.mem q.1 q.2).getLsbD i =
    if p = some q ∧ i = bit then value else (s.mem q.1 q.2).getLsbD i

theorem setEntry_mem (s : Pools) (p q : PtePtr) (e : BitVec 64) :
    (s.setEntry p e).mem q.1 q.2 = if p = q then e else s.mem q.1 q.2 := by
  obtain ⟨t, i⟩ := p
  obtain ⟨u, j⟩ := q
  show update s.mem t (update (s.mem t) i e) u j = _
  by_cases ht : u = t
  · subst ht
    rw [update_self]
    by_cases hi : j = i
    · subst hi
      rw [update_self, if_pos rfl]
    · rw [update_of_ne hi, if_neg fun h => hi (congrArg Prod.snd h).symm]
  · rw [update_of_ne ht, if_neg fun h => ht (congrArg Prod.fst h).symm]

/-- An entry changes in one bit if and only if its new bits are the old ones but that. -/
theorem onlyBit_setEntry {bit : Nat} {value : Bool} (p : PtePtr) (e : BitVec 64) :
    OnlyBit bit value (some p) s (s.setEntry p e) ↔
      ∀ i, e.getLsbD i = if i = bit then value else (s.mem p.1 p.2).getLsbD i := by
  constructor
  · intro h i
    have hbit := h.bits p i
    rw [setEntry_mem, if_pos rfl] at hbit
    rw [hbit]
    by_cases hi : i = bit
    · rw [if_pos ⟨rfl, hi⟩, if_pos hi]
    · rw [if_neg fun hc => hi hc.2, if_neg hi]
  · refine fun h => ⟨⟨rfl, rfl⟩, fun q i => ?_⟩
    rw [setEntry_mem]
    by_cases hq : p = q
    · subst hq
      rw [if_pos rfl, h i]
      by_cases hi : i = bit
      · rw [if_pos hi, if_pos ⟨rfl, hi⟩]
      · rw [if_neg hi, if_neg fun hc => hi hc.2]
    · rw [if_neg hq, if_neg fun hc => hq (Option.some.inj hc.1)]

theorem onlyBit_none {bit : Nat} {value : Bool} : OnlyBit bit value none s s :=
  ⟨⟨rfl, rfl⟩, fun _ _ => (if_neg fun h => nomatch h.1).symm⟩

theorem present_eq (e : BitVec 64) : present e = e.getLsbD 0 := by
  rw [Bool.eq_iff_iff, present_iff, BitVec.getLsbD, Nat.testBit_zero, decide_eq_true_iff]

theorem getLsbD_PTE_ADDR (e : BitVec 64) (i : Nat) : (PTE_ADDR e).getLsbD i = (decide (12 ≤ i) && e.getLsbD i) := by
  by_cases hi : i < 64
  · have hmask : ∀ i < 64, (~~~0xFFF : BitVec 64).getLsbD i = decide (12 ≤ i) := by decide
    rw [PTE_ADDR, BitVec.getLsbD_and, hmask i hi, Bool.and_comm]
  · rw [BitVec.getLsbD_of_ge _ _ (by omega), BitVec.getLsbD_of_ge e _ (by omega), Bool.and_false]

/-- A bit that is neither the present bit nor one of the address does not move a page. -/
theorem OnlyBit.getPage {bit : Nat} {value : Bool} {p : Option PtePtr} (h : OnlyBit bit value p s s') (hbit : 0 < bit)
    (hlow : bit < 12) (pml4 uaddr : Vaddr) : s'.pml4GetPage pml4 uaddr = s.pml4GetPage pml4 uaddr := by
  have hother : ∀ table idx i, i ≠ bit → (s'.mem table idx).getLsbD i = (s.mem table idx).getLsbD i :=
    fun table idx i hi => (h.bits (table, idx) i).trans (if_neg fun hc => hi hc.2)
  refine pml4GetPage_congr (fun table idx => ?_) (fun table idx => ?_) pml4 uaddr
  · rw [present_eq, present_eq, hother _ _ _ (by omega)]
  · refine BitVec.eq_of_getLsbD_eq fun i _ => ?_
    rw [getLsbD_PTE_ADDR, getLsbD_PTE_ADDR]
    by_cases hi : 12 ≤ i
    · rw [hother _ _ _ (by omega)]
    · rw [decide_eq_false hi, Bool.false_and, Bool.false_and]

/-! ## The updates -/

/-- The mask of 32 bits leaves the other bits, if there are none above. -/
theorem clearedBits_iff (e : BitVec 64) {bit : Nat} (hbit : bit < 32) :
    (∀ i, (e &&& (~~~(BitVec.twoPow 64 bit).setWidth 32).setWidth 64).getLsbD i =
      if i = bit then false else e.getLsbD i) ↔ e >>> 32 = 0 := by
  have hmask : ∀ i, ((~~~(BitVec.twoPow 64 bit).setWidth 32).setWidth 64).getLsbD i = decide (i < 32 ∧ i ≠ bit) := by
    intro i
    simp only [BitVec.getLsbD_setWidth, BitVec.getLsbD_not, BitVec.getLsbD_twoPow]
    by_cases hi : i = bit
    · subst hi
      simp [hbit]
    · by_cases h32 : i < 32
      · simp [Ne.symm hi, hi, h32]
        omega
      · simp [h32]
  constructor
  · intro h
    refine BitVec.eq_of_getLsbD_eq fun i _ => ?_
    have hi := h (32 + i)
    rw [BitVec.getLsbD_and, hmask, decide_eq_false (by omega), Bool.and_false, if_neg (by omega)] at hi
    rw [BitVec.getLsbD_ushiftRight, ← hi]
    simp
  · intro h i
    rw [BitVec.getLsbD_and, hmask]
    by_cases hi : i = bit
    · rw [if_pos hi, decide_eq_false fun hc => hc.2 hi, Bool.and_false]
    · rw [if_neg hi]
      by_cases h32 : i < 32
      · rw [decide_eq_true ⟨h32, hi⟩, Bool.and_true]
      · have hzero : (e >>> 32).getLsbD (i - 32) = false := by rw [h]; simp
        rw [BitVec.getLsbD_ushiftRight, Nat.add_sub_cancel' (by omega)] at hzero
        rw [hzero, Bool.false_and]

theorem getLsbD_set (e : BitVec 64) {bit : Nat} (hbit : bit < 64) (i : Nat) :
    (e ||| BitVec.twoPow 64 bit).getLsbD i = if i = bit then true else e.getLsbD i := by
  rw [BitVec.getLsbD_or, BitVec.getLsbD_twoPow, decide_eq_true hbit, Bool.true_and]
  by_cases hi : i = bit
  · rw [if_pos hi, decide_eq_true hi.symm, Bool.or_true]
  · rw [if_neg hi, decide_eq_false (Ne.symm hi), Bool.or_false]

/-- The mask of `pml4_clear_page` has all bits, since `~PTE_P` is negative. -/
theorem getLsbD_clear (e : BitVec 64) (i : Nat) :
    (e &&& ~~~PTE_P).getLsbD i = if i = 0 then false else e.getLsbD i := by
  have hbit : PTE_P = BitVec.twoPow 64 0 := rfl
  rw [BitVec.getLsbD_and, BitVec.getLsbD_not, hbit, BitVec.getLsbD_twoPow, decide_eq_true (show 0 < 64 by decide),
    Bool.true_and]
  by_cases hi : i = 0
  · rw [if_pos hi, decide_eq_true hi.symm, Bool.not_true, Bool.and_false, Bool.and_false]
  · rw [if_neg hi, decide_eq_false (Ne.symm hi), Bool.not_false, Bool.and_true]
    by_cases h64 : i < 64
    · rw [decide_eq_true h64, Bool.and_true]
    · rw [BitVec.getLsbD_of_ge e i (by omega), Bool.false_and]

/-- The call changes the bit, and no page is found elsewhere. -/
def Exact (bit : Nat) (value : Bool) (p : Option PtePtr) (s : Pools) (r : Except Panic Pools) : Prop :=
  ∃ s', r = .ok s' ∧ OnlyBit bit value p s s' ∧
    ∀ pml4 uaddr, s'.pml4GetPage pml4 uaddr = s.pml4GetPage pml4 uaddr

/-- No bit is set above the mask. -/
def LowEntry (s : Pools) (p : Option PtePtr) : Prop := ∀ q, p = some q → s.mem q.1 q.2 >>> 32 = 0

theorem pml4SetFlag_exact {bit : Nat} (hbit : 0 < bit) (hlow : bit < 12) (s : Pools) (pml4 vpage : Vaddr)
    (value : Bool) :
    Exact bit value (leaf vpage s.mem pml4) s (pml4SetFlag (BitVec.twoPow 64 bit) s pml4 vpage value) ↔
      value = true ∨ LowEntry s (leaf vpage s.mem pml4) := by
  have hexact : ∀ {p s'}, OnlyBit bit value p s s' ↔ Exact bit value p s (.ok s') := by
    intro p s'
    refine ⟨fun h => ⟨s', rfl, h, h.getPage hbit hlow⟩, ?_⟩
    rintro ⟨s'', hs, h, -⟩
    exact Except.ok.inj hs ▸ h
  rw [pml4SetFlag, pml4eWalk_eq_leaf]
  cases leaf vpage s.mem pml4 with
  | none => exact iff_of_true (hexact.mp onlyBit_none) (.inr fun _ h => nomatch h)
  | some p =>
    have hentry : LowEntry s (some p) ↔ s.mem p.1 p.2 >>> 32 = 0 := by
      refine ⟨fun h => h p rfl, fun h q hq => ?_⟩
      obtain rfl := Option.some.inj hq
      exact h
    dsimp only
    rw [← hexact, onlyBit_setEntry, hentry]
    cases value with
    | true => exact iff_of_true (getLsbD_set _ (by omega)) (.inl rfl)
    | false => exact (clearedBits_iff _ (by omega)).trans (or_iff_right Bool.false_ne_true).symm

theorem pml4ClearPage_onlyBit (s : Pools) (pml4 : Vaddr) {upage : Vaddr} (haligned : Aligned upage)
    (huser : isUserVaddr upage = true) :
    ∃ s', s.pml4ClearPage pml4 upage = .ok s' ∧ OnlyBit 0 false (leaf upage s.mem pml4) s s' := by
  unfold pml4ClearPage
  rw [if_neg (by rw [huser]; simp [haligned]), pml4eWalk_eq_leaf]
  cases leaf upage s.mem pml4 with
  | none => exact ⟨s, rfl, onlyBit_none⟩
  | some p =>
    refine ⟨_, rfl, ?_⟩
    split
    · exact (onlyBit_setEntry p _).mpr (getLsbD_clear _)
    · next hp =>
      refine ⟨⟨rfl, rfl⟩, fun q i => ?_⟩
      split
      · next hq =>
        obtain ⟨hq, rfl⟩ := hq
        obtain rfl := Option.some.inj hq
        rw [← present_eq]
        exact Bool.eq_false_iff.mpr hp
      · rfl

end

end Pools

/-- **`pml4_clear_page` changes the present bit only. `pml4_set_dirty` and `pml4_set_accessed` change their bit only,
and keep where each page is, if and only if they set it, or the upper half of the entry is zero.** -/
theorem bit_updates_exact {s : Pools} {pml4 upage : Vaddr} {value : Bool} (haligned : Aligned upage)
    (huser : isUserVaddr upage = true) :
    (Pools.Exact 6 value (Pools.leaf upage s.mem pml4) s (s.pml4SetDirty pml4 upage value) ↔
        value = true ∨ s.LowEntry (Pools.leaf upage s.mem pml4)) ∧
      (Pools.Exact 5 value (Pools.leaf upage s.mem pml4) s (s.pml4SetAccessed pml4 upage value) ↔
        value = true ∨ s.LowEntry (Pools.leaf upage s.mem pml4)) ∧
      ∃ s', s.pml4ClearPage pml4 upage = .ok s' ∧ Pools.OnlyBit 0 false (Pools.leaf upage s.mem pml4) s s' :=
  ⟨Pools.pml4SetFlag_exact (by decide) (by decide) s pml4 upage value,
    Pools.pml4SetFlag_exact (by decide) (by decide) s pml4 upage value,
    Pools.pml4ClearPage_onlyBit s pml4 haligned huser⟩

/-- Tables whose entries all refer to the frame behind the first 4 GB. -/
def highTables : Pools where
  mem := fun _ _ => 0x100000041
  kernelPool := { base := 0, usedMap := [] }
  userPool := { base := 0, usedMap := [] }

theorem bit_updates_exact_high :
    (Pools.Exact 6 true (Pools.leaf 0x400000 highTables.mem 0x1000) highTables
        (highTables.pml4SetDirty 0x1000 0x400000 true) ↔
      true = true ∨ highTables.LowEntry (Pools.leaf 0x400000 highTables.mem 0x1000)) ∧
    (Pools.Exact 5 true (Pools.leaf 0x400000 highTables.mem 0x1000) highTables
        (highTables.pml4SetAccessed 0x1000 0x400000 true) ↔
      true = true ∨ highTables.LowEntry (Pools.leaf 0x400000 highTables.mem 0x1000)) ∧
    ∃ s', highTables.pml4ClearPage 0x1000 0x400000 = .ok s' ∧
      Pools.OnlyBit 0 false (Pools.leaf 0x400000 highTables.mem 0x1000) highTables s' :=
  bit_updates_exact (by decide) (by decide)

/-- The address of a frame is lost when the dirty bit is cleared. -/
theorem address_lost : ¬ ∀ (s : Pools) (pml4 upage : Vaddr) (value : Bool), Aligned upage →
    isUserVaddr upage = true →
      Pools.Exact 6 value (Pools.leaf upage s.mem pml4) s (s.pml4SetDirty pml4 upage value) := by
  intro h
  have hexact := h highTables 0x1000 0x400000 false (by decide) (by decide)
  have hlow := (Pools.pml4SetFlag_exact (by decide) (by decide) highTables 0x1000 0x400000 false).mp hexact
  exact absurd (hlow.resolve_left Bool.false_ne_true _ rfl) (by decide)

end Pintos
