import Pintos.Properties.AddressSpace

/-!
# Isolation of address spaces

The machine of `Pintos/Threads/Mmu.lean`: any number of page tables, made, filled, cleared and
destroyed in any order, while the rest of the kernel takes and gives back pages.

* `pagingInit_spec` — the tables of the kernel lie above the user addresses
* `MmuInv` — the tables of `Pintos/Properties/AddressSpace.lean`, in every state
* `address_spaces_isolated` — as long as pages are set below 2^39, each table maps what was set in
  it, and a table that is destroyed gives its frames back
* `shared_kernel_table` — above 2^39 the tables share their pages
-/

namespace Pintos

open Function Machine RadixTree

variable {s s' s₀ : Pools} {base p q : Vaddr} {live others : Set Vaddr}
  {inst : Vaddr → BitVec 64 → Option Vaddr}

/-! ## Booting -/

/-- The tables of the kernel in the middle of `paging_init`, all of them taken since `s₀`. -/
structure Paging (s₀ s : Pools) (base : Vaddr) : Prop where
  ok : s.Ok
  kernel : BaseOk s base
  fresh : ∀ q ∈ pages child s.mem 3 base, s₀.Free false q
  used : ∀ q, s₀.Used false q → s.Used false q
  freed : ∀ q, s.Free false q → s₀.Free false q

theorem ptov_ofNat {n : Nat} (h : 0x8004000000 + 4096 * n < 2 ^ 64) :
    (ptov (BitVec.ofNat 64 (PGSIZE * n))).toNat = 0x8004000000 + 4096 * n := by
  have hk : KERN_BASE.toNat = 0x8004000000 := rfl
  rw [ptov, BitVec.toNat_add, BitVec.toNat_ofNat, hk, PGSIZE]
  omega

/-- A page of the kernel is mapped. -/
theorem Paging.walk {va : Vaddr} {o : Option PtePtr} (h : Paging s₀ s base)
    (hva : 0x8004000000 ≤ va.toNat) (hlt : va.toNat < 2 ^ 48)
    (hw : Walked s s' 3 base (walkPath va) o) (ha : Aside child s.mem s'.mem 2 base (PML4 va)) :
    Paging s₀ s' base := by
  have hne : (0 : Idx) ≠ PML4 va := by
    intro hc
    have hn := congrArg BitVec.toNat hc
    have h0 : (0 : Idx).toNat = 0 := rfl
    rw [h0, PML4_toNat] at hn
    omega
  refine ⟨hw.ok, ⟨hw.tables, ?_, ?_⟩, ?_, fun q hq => (hw.used q).mpr (Or.inl (h.used q hq)),
    fun q hq => h.freed q (hw.freed q hq)⟩
  · rw [ha.entry 0 hne]
    exact h.kernel.entry
  · intro vb hvb
    rw [hw.grows.value _ (by rfl)]
    exact h.kernel.user vb hvb
  · intro q hq
    rcases hw.grows.new hq with hq | hq
    · exact h.fresh q hq
    · exact h.freed q hq

theorem Paging.write {va : Vaddr} {r : PtePtr} {e : BitVec 64} (h : Paging s₀ s base)
    (hva : 0x8004000000 ≤ va.toNat) (hlt : va.toNat < 2 ^ 48)
    (hs : slot child s.mem base (walkPath va) = some r) : Paging s₀ (s.setEntry r e) base := by
  obtain ⟨hpages, hsep, hvalue⟩ := value_write (z := 0) (w := e) h.kernel.tables.sep (by rfl) hs
  have hbase : base ≠ r.1 := by
    rintro rfl
    rw [walkPath, slot_cons (by simp)] at hs
    obtain ⟨d, hd, hslot⟩ := Option.bind_eq_some_iff.mp hs
    exact (h.kernel.tables.sep.1 _ d hd).2 (slot_mem (n := 2) (i := r.2) (by rfl) hslot)
  refine ⟨h.ok.congr (fun _ => rfl) (fun _ => rfl), ⟨⟨hsep, ?_⟩, ?_, ?_⟩, ?_, h.used, h.freed⟩
  · intro q hq
    rw [setEntry_mem, hpages] at hq
    exact h.kernel.tables.used q hq
  · have hm : (s.setEntry r e).mem base = s.mem base := write_of_ne hbase
    rw [hm]
    exact h.kernel.entry
  · intro vb hvb
    have hlow := isUserVaddr_iff.mp hvb
    rw [setEntry_mem, hvalue _ (by rfl), if_neg, h.kernel.user vb hvb]
    rw [walkPath_inj (by omega) hlt]
    intro hc
    have hn := congrArg BitVec.toNat hc
    rw [pgNo_toNat, pgNo_toNat] at hn
    omega
  · intro q hq
    rw [setEntry_mem, hpages] at hq
    exact h.fresh q hq

theorem pagingLoop_spec {text : Vaddr → Bool} : ∀ (k n : Nat) {s : Pools}, Paging s₀ s base →
    0x8004000000 + 4096 * (n + k) ≤ 2 ^ 48 → Pools.pagingLoop base text s n k = .ok s' →
    Paging s₀ s' base
  | 0, _, s, h, _, he => by
    rw [Pools.pagingLoop] at he
    cases he
    exact h
  | k + 1, n, s, h, hmem, he => by
    have hva := ptov_ofNat (n := n) (by omega)
    rw [Pools.pagingLoop] at he
    generalize ptov (BitVec.ofNat 64 (PGSIZE * n)) = va at hva he
    obtain ⟨o, s₁, hwalk, hw, ha⟩ := pml4eWalk_spec h.ok h.kernel.tables va true
    have hge : 0x8004000000 ≤ va.toNat := by rw [hva]; exact Nat.le_add_right _ _
    have hlt : va.toNat < 2 ^ 48 := by rw [hva]; omega
    have h₁ := h.walk hge hlt hw ha
    simp only [hwalk] at he
    cases o with
    | none => exact pagingLoop_spec k (n + 1) h₁ (by omega) he
    | some r =>
      exact pagingLoop_spec k (n + 1) (h₁.write hge hlt (hw.slot r rfl)) (by omega) he

/-- **`paging_init`** maps no user address, and takes fresh pages only. -/
theorem pagingInit_spec {memPages : Nat} {text : Vaddr → Bool} (h : s₀.Ok)
    (hmem : 0x8004000000 + 4096 * memPages ≤ 2 ^ 48)
    (he : s₀.pagingInit memPages text = .ok (base, s')) : Paging s₀ s' base := by
  unfold Pools.pagingInit at he
  cases hget : s₀.pallocGetPage { assert := true, zero := true } with
  | error e =>
    rw [hget] at he
    cases he
  | ok r =>
    obtain ⟨o, s₁⟩ := r
    rw [hget] at he
    rcases Pools.getPage_spec h hget with ⟨rfl, rfl⟩ | ⟨d, rfl, hgot⟩
    · cases he
    · simp only at he
      split at he
      · cases he
      next s₂ hloop =>
      cases he
      have hblank : ∀ k, s₁.mem base k = 0 := by
        intro k
        rw [hgot.mem]
        simp
      have hnone : ∀ k, child (s₁.mem base k) = none := by
        intro k
        rw [hblank k]
        exact child_zero
      have hpages : pages child s₁.mem 3 base = {base} := Grows.pages_blank hnone 3
      refine pagingLoop_spec memPages 0 ⟨hgot.ok, ⟨⟨Grows.sep_blank hnone 3, ?_⟩, hblank 0, ?_⟩,
        ?_, ?_, ?_⟩ (by omega) hloop
      · rintro q hq
        rw [hpages] at hq
        exact (hgot.used q).mpr (Or.inr hq)
      · exact fun va _ => Grows.value_blank (n := 3) hnone hblank (by rfl)
      · intro q hq
        rw [hpages] at hq
        rw [hq]
        exact hgot.free
      · exact fun q hq => (hgot.used q).mpr (Or.inl hq)
      · exact fun q hq => ((hgot.freed q).mp hq).1

/-- No process has a table yet. -/
theorem Paging.inv (h : Paging s₀ s base) (h₀ : s₀.Ok) (hothers : ∀ q ∈ others, s₀.Used false q) :
    Inv s base ∅ inst others where
  ok := h.ok
  kernel := h.kernel
  table _ hp := hp.elim
  apart _ hp := hp.elim
  othersUsed q hq := h.used q (hothers q hq)
  othersBase := Set.disjoint_left.mpr fun q hq hb =>
    Pool.Used.not_free (h₀.pool false) (hothers q hq) (h.fresh q hb)
  othersOwn _ hp := hp.elim

/-! ## Creating a table, and the allocator -/

/-- The page a fresh one is found to be. -/
theorem Got.keeps {flags : PallocFlags} (h : s.Ok) (hg : Pools.Got s s' flags q) :
    Keeps s s' ∅ := by
  refine ⟨hg.ok, fun r hr _ => ?_, hg.contains true⟩
  have hne : r ≠ q := by
    cases hu : flags.user with
    | true =>
      have hfree := hg.free
      rw [hu] at hfree
      obtain ⟨i, hi, rfl⟩ := hfree
      exact h.used_ne hr (Pool.contains_page (h.pool true) (Pool.lt_of_bit hi))
    | false =>
      rintro rfl
      have hfree := hg.free
      rw [hu] at hfree
      exact Pool.Used.not_free (h.pool false) hr hfree
  refine ⟨?_, ?_⟩
  · cases hu : flags.user with
    | true =>
      rw [Pools.Used, hg.other false (by rw [hu]; decide)]
      exact hr
    | false =>
      have hused := hg.used r
      rw [hu] at hused
      exact hused.mpr (Or.inl hr)
  · rw [hg.mem]
    split
    · exact update_of_ne hne _ _
    · rfl

/-- **`pml4_create`** makes a table that maps nothing. -/
theorem Inv.create (h : Inv s base live inst others)
    (he : s.pml4Create base = .ok (some p, s')) :
    p ∉ live ∧ Inv s' base (insert p live) (update inst p fun _ => none) others := by
  unfold Pools.pml4Create at he
  cases hget : s.pallocGetPage {} with
  | error e =>
    rw [hget] at he
    cases he
  | ok r =>
    obtain ⟨o, s₁⟩ := r
    rw [hget] at he
    rcases Pools.getPage_spec h.ok hget with ⟨rfl, rfl⟩ | ⟨d, rfl, hgot⟩
    · cases he
    cases he
    have hfree : s.Free false p := hgot.free
    have hused : ∀ q, s.Used false q → q ≠ p := by
      rintro q hq rfl
      exact Pool.Used.not_free (h.ok.pool false) hq hfree
    have hlive : p ∉ live := fun hp => hused p ((h.table p hp).tables.used p mem_pages_self) rfl
    have hm₁ : s₁.mem = s.mem := hgot.mem
    -- the pages in use are those before the call and `p`
    have hk : Keeps s { s₁ with mem := update s₁.mem p (s₁.mem base) } ∅ := by
      refine ⟨hgot.ok.congr (fun _ => rfl) (fun _ => rfl), fun q hq _ => ?_, hgot.contains true⟩
      refine ⟨(hgot.used q).mpr (Or.inl hq), ?_⟩
      show update s₁.mem p (s₁.mem base) q = s.mem q
      rw [update_of_ne (hused q hq), hm₁]
    have h₁ : Inv { s₁ with mem := update s₁.mem p (s₁.mem base) } base live
        (update inst p fun _ => none) others := by
      refine h.kept hk (by simp) (fun q hq => hq) (by simp) (fun q hq => hq) (by simp) ?_
      intro q hq
      refine update_of_ne ?_ _ _
      rintro rfl
      exact hlive hq
    have hpb : update s₁.mem p (s₁.mem base) p = s.mem base := by rw [update_self, hm₁]
    have hb : ∀ q ∈ pages child s.mem 3 base, update s₁.mem p (s₁.mem base) q = s.mem q :=
      hk.mem_eq h.kernel.tables (by simp)
    have hout : p ∉ pages child s.mem 3 base :=
      fun hc => hused p (h.kernel.tables.used p hc) rfl
    have hown : own (update s₁.mem p (s₁.mem base)) p = {p} := by
      rw [own, hpb, h.kernel.entry, below_none child_zero, insert_empty_eq]
    have hp' : ∀ Y : Set Vaddr, (∀ q ∈ Y, s.Used false q) →
        Disjoint (own (update s₁.mem p (s₁.mem base)) p) Y := by
      intro Y hY
      rw [hown]
      refine Set.disjoint_left.mpr ?_
      rintro q rfl hq
      exact hused q (hY q hq) rfl
    have ht : TableOk { s₁ with mem := update s₁.mem p (s₁.mem base) } base p
        (update inst p (fun _ => none) p) := by
      refine ⟨⟨h.kernel.tables.sep.copy hpb hout hb, ?_⟩, ?_, ?_, ?_, ?_⟩
      · intro q hq
        rcases mem_pages_succ.mp hq with rfl | ⟨i, hq⟩
        · exact (hgot.used q).mpr (Or.inr rfl)
        · have hq' : q ∈ below child (update s₁.mem p (s₁.mem base)) 2
              (update s₁.mem p (s₁.mem base) p i) := hq
          rw [below_copy hpb hb i] at hq'
          exact (hgot.used q).mpr (Or.inl (h.kernel.tables.used q (below_subset hq')))
      · intro i _
        show update s₁.mem p (s₁.mem base) p i = update s₁.mem p (s₁.mem base) base i
        rw [hpb, hb base mem_pages_self]
      · show Disjoint _ (pages child (update s₁.mem p (s₁.mem base)) 3 base)
        rw [pages_congr hb]
        exact hp' _ h.kernel.tables.used
      · intro path hl d hd
        have hz : value child 0 (update s₁.mem p (s₁.mem base)) p (0 :: path) = 0 :=
          value_cons_none (ne_nil_of_length hl) (by rw [hpb, h.kernel.entry]; exact child_zero)
        have hd' : child (value child 0 (update s₁.mem p (s₁.mem base)) p (0 :: path)) = some d := hd
        rw [hz, child_zero] at hd'
        cases hd'
      · intro va hva
        have hz : value child 0 (update s₁.mem p (s₁.mem base)) p (walkPath va) = 0 := by
          rw [walkPath, value_copy (n := 2) hpb hb (by rfl)]
          exact h.kernel.user va hva
        show child (value child 0 (update s₁.mem p (s₁.mem base)) p (walkPath va)) = _
        rw [hz, update_self]
        exact child_zero
    refine ⟨hlive, h₁.addTable ht ?_ (hp' others h.othersUsed)⟩
    intro q hq
    have hmq := hk.mem_eq (h.table q hq).tables (by simp)
    show Disjoint (own (update s₁.mem p (s₁.mem base)) p) (own (update s₁.mem p (s₁.mem base)) q)
    have hoq : own (update s₁.mem p (s₁.mem base)) q = own s.mem q :=
      own_congr hmq
    rw [hoq]
    exact hp' _ fun r hr => (h.table q hq).tables.used r (own_subset hr)

/-- Another part of the kernel takes a page. -/
theorem Inv.got {flags : PallocFlags} (h : Inv s base live inst others)
    (hg : Pools.Got s s' flags q) :
    Inv s' base live inst (if flags.user then others else insert q others) := by
  have hk := Got.keeps h.ok hg
  have h₁ : Inv s' base live inst others :=
    h.kept hk (by simp) (fun q hq => hq) (by simp) (fun q hq => hq) (by simp) fun _ _ => rfl
  split
  · exact h₁
  · next hu =>
    have hfree : s.Free false q := by
      have hf := hg.free
      rw [Bool.not_eq_true] at hu
      rw [hu] at hf
      exact hf
    have hnew : ∀ r, s.Used false r → r ≠ q := by
      rintro r hr rfl
      exact Pool.Used.not_free (h.ok.pool false) hr hfree
    refine { h₁ with othersUsed := ?_, othersBase := ?_, othersOwn := ?_ }
    · rintro r (rfl | hr)
      · have hused := hg.used r
        rw [Bool.not_eq_true] at hu
        rw [hu] at hused
        exact hused.mpr (Or.inr rfl)
      · exact h₁.othersUsed r hr
    · rw [pages_congr (hk.mem_eq h.kernel.tables (by simp))]
      refine Set.disjoint_left.mpr ?_
      rintro r (rfl | hr) hb
      · exact hnew r (h.kernel.tables.used r hb) rfl
      · exact Set.disjoint_left.mp h.othersBase hr hb
    · intro p hp
      rw [own_congr (hk.mem_eq (h.table p hp).tables (by simp))]
      refine Set.disjoint_left.mpr ?_
      rintro r hr (rfl | ho)
      · exact hnew r ((h.table p hp).tables.used r (own_subset hr)) rfl
      · exact Set.disjoint_left.mp (h.othersOwn p hp) hr ho

/-- Another part of the kernel gives back a frame or a page of its own. -/
theorem Inv.freed (h : Inv s base live inst others)
    (hq : s.userPool.contains q = true ∨ q ∈ others) (he : s.pallocFreePage q = .ok s') :
    Inv s' base live inst (others \ {q}) := by
  have hsub : others \ {q} ⊆ others := fun _ hr => hr.1
  rcases hq with hq | hq
  · obtain ⟨user, hg⟩ := Pools.freePage_spec h.ok (Pool.ne_zero_of_contains (h.ok.pool true) hq) he
    cases user with
    | false => exact absurd rfl (h.ok.used_ne hg.was hq)
    | true =>
      exact h.kept (GaveBack.freedFrame h.ok hg).toKeeps (by simp) (fun _ hr => hr) (by simp) hsub
        (by simp) fun _ _ => rfl
  · obtain ⟨s₂, he', hg⟩ := Pools.freePage_of_used h.ok (h.othersUsed q hq)
    rw [he'] at he
    cases he
    refine h.kept (GaveBack.freed hg).toKeeps ?_ (fun _ hr => hr) ?_ hsub ?_ fun _ _ => rfl
    · exact Set.disjoint_singleton_left.mpr (Set.disjoint_left.mp h.othersBase hq)
    · exact fun p hp => Set.disjoint_singleton_left.mpr fun hc =>
        Set.disjoint_left.mp (h.othersOwn p hp) hc hq
    · exact Set.disjoint_singleton_left.mpr fun hc => hc.2 rfl

/-! ## The machine -/

/-- The table an action is about. -/
def MmuAction.table : MmuAction → Option Vaddr
  | .setPage pml4 _ _ _ => some pml4
  | .clearPage pml4 _ => some pml4
  | .destroy pml4 => some pml4
  | _ => none

/-- Pages are set under the entry 0 of the top level only. -/
def LowPages (_ : Mmu) : MmuAction → Prop
  | .setPage _ upage _ _ => upage.toNat < 2 ^ 39
  | _ => True

/-- The tables of the processes are well formed and apart. -/
structure MmuInv (s : Mmu) : Prop where
  inv : Inv s.toPools s.basePml4 {p | p ∈ s.tables} s.installed {q | q ∈ s.others}
  nodup : s.tables.Nodup

theorem PML4_low {va : Vaddr} (h : va.toNat < 2 ^ 39) : PML4 va = 0 := by
  have h0 : (0 : Idx).toNat = 0 := rfl
  rw [← BitVec.toNat_inj, PML4_toNat, h0]
  omega

theorem MmuInv.ofPools {s s' : Mmu} (h : MmuInv s)
    (hi : Inv s'.toPools s.basePml4 {p | p ∈ s.tables} s'.installed {q | q ∈ s'.others})
    (hb : s'.basePml4 = s.basePml4) (ht : s'.tables = s.tables) : MmuInv s' := by
  refine ⟨?_, ?_⟩
  · rw [hb, ht]
    exact hi
  · rw [ht]
    exact h.nodup

theorem MmuInv.destroy {s : Mmu} {pml4 : Vaddr} {t : Pools} (h : MmuInv s) (hp : pml4 ∈ s.tables)
    (he : s.pml4Destroy s.basePml4 pml4 = .ok t) :
    MmuInv { s.setPools t with
      tables := s.tables.erase pml4
      installed := update s.installed pml4 fun _ => none } := by
  have hf := pml4Destroy_spec h.inv.ok (h.inv.table pml4 hp) he
  have hne : ∀ q ∈ s.tables.erase pml4, q ≠ pml4 ∧ q ∈ s.tables :=
    fun q hq => h.nodup.mem_erase_iff.mp hq
  refine ⟨h.inv.kept hf.toKeeps (h.inv.table pml4 hp).apart (fun q hq => (hne q hq).2) ?_
    (fun q hq => hq) (h.inv.othersOwn pml4 hp) ?_, h.nodup.erase pml4⟩
  · exact fun q hq => h.inv.apart pml4 hp q (hne q hq).2 (Ne.symm (hne q hq).1)
  · exact fun q hq => update_of_ne (hne q hq).1 _ _

/-- **Every step keeps the invariant**, as long as pages are set below 2^39. -/
theorem MmuInv.preserved {s s' : Mmu} {a : MmuAction} (h : MmuInv s) (hc : LowPages s a)
    (hs : Mmu.step s a = .ok s') : MmuInv s' := by
  cases a with
  | create =>
    simp only [Mmu.step] at hs
    split at hs
    · cases hs
    · next t he =>
      cases hs
      unfold Pools.pml4Create at he
      split at he
      · cases he
      · next u hget =>
        cases he
        rcases Pools.getPage_spec h.inv.ok hget with ⟨-, rfl⟩ | ⟨d, hd, -⟩
        · exact h.ofPools h.inv rfl rfl
        · cases hd
      · cases he
    · next pml4 t he =>
      cases hs
      obtain ⟨hnew, hi⟩ := h.inv.create he
      refine ⟨?_, List.nodup_cons.mpr ⟨hnew, h.nodup⟩⟩
      have hset : {p | p ∈ pml4 :: s.tables} = insert pml4 {p | p ∈ s.tables} := by
        ext p
        exact List.mem_cons
      show Inv t s.basePml4 {p | p ∈ pml4 :: s.tables} _ _
      rw [hset]
      exact hi
  | setPage pml4 upage kpage w =>
    simp only [Mmu.step] at hs
    split at hs
    · cases hs
    next hg =>
    obtain ⟨hp, hcont⟩ : pml4 ∈ s.tables ∧ s.userPool.contains kpage = true := by
      simpa [not_or] using hg
    split at hs
    · cases hs
    · next t he =>
      cases hs
      exact h.ofPools (h.inv.setPage hp (PML4_low hc) hcont he) rfl rfl
    · next t he =>
      cases hs
      exact h.ofPools (h.inv.setPage hp (PML4_low hc) hcont he) rfl rfl
  | clearPage pml4 upage =>
    simp only [Mmu.step] at hs
    split at hs
    · cases hs
    next hp =>
    split at hs
    · cases hs
    · next t he =>
      cases hs
      exact h.ofPools (h.inv.clearPage (not_not.mp hp) he) rfl rfl
  | destroy pml4 =>
    simp only [Mmu.step] at hs
    split at hs
    · cases hs
    next hp =>
    split at hs
    · cases hs
    · next t he =>
      cases hs
      exact h.destroy (not_not.mp hp) he
  | pallocGet flags =>
    simp only [Mmu.step] at hs
    split at hs
    · cases hs
    · next t he =>
      cases hs
      rcases Pools.getPage_spec h.inv.ok he with ⟨-, rfl⟩ | ⟨d, hd, -⟩
      · exact h.ofPools h.inv rfl rfl
      · cases hd
    · next page t he =>
      cases hs
      rcases Pools.getPage_spec h.inv.ok he with ⟨hd, -⟩ | ⟨d, hd, hg⟩
      · cases hd
      · cases hd
        refine h.ofPools ?_ rfl rfl
        have hi := h.inv.got hg
        show Inv t s.basePml4 _ s.installed {q | q ∈ if flags.user then s.others else page :: s.others}
        split at hi
        · next hu =>
          rw [if_pos hu]
          exact hi
        · next hu =>
          rw [if_neg hu]
          have hset : {q | q ∈ page :: s.others} = insert page {q | q ∈ s.others} := by
            ext q
            exact List.mem_cons
          rw [hset]
          exact hi
  | pallocFree page =>
    simp only [Mmu.step] at hs
    split at hs
    · next hg =>
      split at hs
      · cases hs
      · next t he =>
        cases hs
        refine h.ofPools ?_ rfl rfl
        have hi := h.inv.freed hg he
        have hset : {q | q ∈ s.others.filter (· ≠ page)} = {q | q ∈ s.others} \ {page} := by
          ext q
          simp
        show Inv t s.basePml4 _ s.installed {q | q ∈ s.others.filter (· ≠ page)}
        rw [hset]
        exact hi
    · cases hs

/-- What was set in the other tables is not touched, and they stay. -/
theorem step_others {s s' : Mmu} {a : MmuAction} (h : MmuInv s) (hs : Mmu.step s a = .ok s')
    (hq : q ∈ s.tables) (ha : a.table ≠ some q) :
    q ∈ s'.tables ∧ s'.installed q = s.installed q := by
  cases a with
  | create =>
    simp only [Mmu.step] at hs
    split at hs
    · cases hs
    · cases hs
      exact ⟨hq, rfl⟩
    · next pml4 t he =>
      cases hs
      refine ⟨List.mem_cons_of_mem _ hq, update_of_ne ?_ _ _⟩
      rintro rfl
      exact (h.inv.create he).1 hq
  | setPage pml4 upage kpage w =>
    have hne : q ≠ pml4 := fun hc => ha (by rw [hc]; rfl)
    simp only [Mmu.step] at hs
    split at hs
    · cases hs
    split at hs
    · cases hs
    · cases hs
      exact ⟨hq, rfl⟩
    · cases hs
      exact ⟨hq, update_of_ne hne _ _⟩
  | clearPage pml4 upage =>
    have hne : q ≠ pml4 := fun hc => ha (by rw [hc]; rfl)
    simp only [Mmu.step] at hs
    split at hs
    · cases hs
    split at hs
    · cases hs
    · cases hs
      exact ⟨hq, update_of_ne hne _ _⟩
  | destroy pml4 =>
    have hne : q ≠ pml4 := fun hc => ha (by rw [hc]; rfl)
    simp only [Mmu.step] at hs
    split at hs
    · cases hs
    split at hs
    · cases hs
    · cases hs
      exact ⟨h.nodup.mem_erase_iff.mpr ⟨hne, hq⟩, update_of_ne hne _ _⟩
  | pallocGet flags =>
    simp only [Mmu.step] at hs
    split at hs
    · cases hs
    · cases hs
      exact ⟨hq, rfl⟩
    · cases hs
      exact ⟨hq, rfl⟩
  | pallocFree page =>
    simp only [Mmu.step] at hs
    split at hs
    · split at hs
      · cases hs
      · cases hs
        exact ⟨hq, rfl⟩
    · cases hs

/-- A frame set below 2^39 is one of those `pml4_destroy` gives back. -/
theorem TableOk.installed_own {f : BitVec 64 → Option Vaddr} {va d : Vaddr}
    (hb : BaseOk s base) (ht : TableOk s base p f) (hva : isUserVaddr va = true)
    (hd : f (pgNo va) = some d) : d ∈ ownFrames s.mem p := by
  have hmaps := ht.maps va hva
  rw [hd] at hmaps
  rcases PML4_of_user hva with h0 | ⟨h1, -⟩
  · rw [walkPath, h0] at hmaps
    exact ⟨[PDPE va, PDX va, PTX va], rfl, hmaps⟩
  · have hz := hb.user va hva
    rw [walkPath, h1] at hmaps hz
    rw [ht.value_high (by decide) (by simp), hz, child_zero] at hmaps
    cases hmaps

/-- The invariant holds in every run whose pages are all set below 2^39. -/
theorem MmuInv.of_boot {memPages : Nat} {text : Vaddr → Bool} {s₁ : Pools} {others : List Vaddr} {s : Mmu}
    (h₀ : s₀.Ok) (hmem : 0x8004000000 + 4096 * memPages ≤ 2 ^ 48)
    (hinit : s₀.pagingInit memPages text = .ok (base, s₁)) (hothers : ∀ q ∈ others, s₀.Used false q)
    (h : Reach Mmu.step LowPages (Mmu.boot base s₁ others) s) : MmuInv s := by
  have hpaging := pagingInit_spec h₀ hmem hinit
  have hboot : MmuInv (Mmu.boot base s₁ others) := by
    have hempty : {p | p ∈ (Mmu.boot base s₁ others).tables} = ∅ := by
      ext p
      exact iff_of_false List.not_mem_nil id
    refine ⟨?_, List.nodup_nil⟩
    rw [hempty]
    exact hpaging.inv h₀ hothers
  exact h.invariant hboot fun _ _ _ hi hc hs => hi.preserved hc hs

/--
**Address spaces are isolated** in every run whose pages are all set below 2^39: `pml4_get_page`
finds in each table what was set in it and not cleared since, an operation on one table leaves the
others as they are, and `pml4_destroy` gives back the pages of its table and every frame set in it.
-/
theorem address_spaces_isolated {memPages : Nat} {text : Vaddr → Bool} {s₁ : Pools}
    {others : List Vaddr} {s : Mmu} (h₀ : s₀.Ok) (hmem : 0x8004000000 + 4096 * memPages ≤ 2 ^ 48)
    (hinit : s₀.pagingInit memPages text = .ok (base, s₁))
    (hothers : ∀ q ∈ others, s₀.Used false q)
    (h : Reach Mmu.step LowPages (Mmu.boot base s₁ others) s) :
    (∀ p ∈ s.tables, ∀ va, isUserVaddr va = true →
      s.pml4GetPage p va = .ok ((s.installed p (pgNo va)).map (· + pgOfs va))) ∧
    (∀ a s', LowPages s a → Mmu.step s a = .ok s' → ∀ q ∈ s.tables, a.table ≠ some q →
      q ∈ s'.tables ∧ ∀ va, isUserVaddr va = true → s'.pml4GetPage q va = s.pml4GetPage q va) ∧
    (∀ p s', Mmu.step s (.destroy p) = .ok s' → p ∉ s'.tables ∧
      (∀ q ∈ own s.mem p, ¬ s'.Used false q) ∧
      ∀ va f, isUserVaddr va = true → s.installed p (pgNo va) = some f → ¬ s'.Used true f) := by
  have hinv := MmuInv.of_boot h₀ hmem hinit hothers h
  refine ⟨fun p hp va hva => hinv.inv.getPage hp hva, ?_, ?_⟩
  · intro a s' hc hs q hq ha
    have hinv' := hinv.preserved hc hs
    obtain ⟨hq', hinst⟩ := step_others hinv hs hq ha
    refine ⟨hq', fun va hva => ?_⟩
    rw [hinv.inv.getPage hq hva, hinv'.inv.getPage hq' hva, hinst]
  · intro p s' hs
    simp only [Mmu.step] at hs
    split at hs
    · cases hs
    next hp =>
    rw [not_not] at hp
    split at hs
    · cases hs
    next t he =>
    cases hs
    have hf := pml4Destroy_spec hinv.inv.ok (hinv.inv.table p hp) he
    refine ⟨fun hc => (hinv.nodup.mem_erase_iff.mp hc).1 rfl, hf.gone, ?_⟩
    intro va f hva hi
    exact hf.free f ((hinv.inv.table p hp).installed_own hinv.inv.kernel hva hi)

/-! ## A machine with two tables -/

/-- A machine with 24 kernel pages and 4 frames. -/
def smallPools : Pools where
  mem := fun _ _ => 0
  kernelPool := { base := 0x8004100000, usedMap := List.replicate 24 false }
  userPool := { base := 0x8004200000, usedMap := List.replicate 4 false }

theorem smallPools_ok : smallPools.Ok where
  pool user := by
    cases user with
    | false => exact ⟨by decide, by decide, by decide⟩
    | true => exact ⟨by decide, by decide, by decide⟩
  apart := Or.inl (by decide)

/-- The machine booted from `s₀` passes the test after the actions, which the check `ok` allows. -/
def runs (s₀ : Pools) (ok : Mmu → MmuAction → Bool) (actions : List MmuAction)
    (test : Mmu → Bool) : Bool :=
  match s₀.pagingInit 1 fun _ => false with
  | .error _ => false
  | .ok (base, s₁) =>
    match execIf Mmu.step ok (Mmu.boot base s₁ []) actions with
    | none => false
    | some s => test s

theorem of_runs {ok : Mmu → MmuAction → Bool} {actions : List MmuAction} {test : Mmu → Bool}
    {C : Mmu → MmuAction → Prop} (hC : ∀ s a, ok s a = true → C s a)
    (h : runs s₀ ok actions test = true) :
    ∃ base s₁ s, s₀.pagingInit 1 (fun _ => false) = .ok (base, s₁) ∧
      Reach Mmu.step C (Mmu.boot base s₁ []) s ∧ test s = true := by
  unfold runs at h
  split at h
  · cases h
  next base s₁ hinit =>
  split at h
  · cases h
  next s hrun => exact ⟨base, s₁, s, hinit, reach_of_execIf hC actions hrun, h⟩

/-- The check for `LowPages`. -/
def lowPages (_ : Mmu) : MmuAction → Bool
  | .setPage _ upage _ _ => upage.toNat < 2 ^ 39
  | _ => true

theorem lowPages_sound (s : Mmu) (a : MmuAction) (h : lowPages s a = true) : LowPages s a := by
  cases a with
  | setPage pml4 upage kpage w => simpa [lowPages, LowPages] using h
  | _ => trivial

/-- A frame is set in the first table only. -/
theorem address_spaces_isolated_two_tables :
    ∃ s : Mmu, s.tables = [0x8004105000, 0x8004104000] ∧
      s.pml4GetPage 0x8004104000 0x400000 = .ok (some 0x8004200000) ∧
      s.pml4GetPage 0x8004105000 0x400000 = .ok none ∧
      ∀ s', Mmu.step s (.destroy 0x8004104000) = .ok s' → 0x8004104000 ∉ s'.tables ∧
        ¬ s'.Used true 0x8004200000 := by
  have hrun : runs smallPools lowPages
      [.create, .create, .pallocGet { user := true }, .setPage 0x8004104000 0x400000 0x8004200000 true]
      (fun s => decide (s.tables = [0x8004105000, 0x8004104000]) &&
        decide (s.installed 0x8004104000 (pgNo 0x400000) = some 0x8004200000) &&
        decide (s.installed 0x8004105000 (pgNo 0x400000) = none)) = true := by decide +kernel
  obtain ⟨base, s₁, s, hinit, hreach, htest⟩ := of_runs lowPages_sound hrun
  simp only [Bool.and_eq_true, decide_eq_true_eq] at htest
  obtain ⟨⟨htables, hset⟩, hunset⟩ := htest
  obtain ⟨hget, -, hdestroy⟩ := address_spaces_isolated smallPools_ok (by decide) hinit
    (fun q hq => absurd hq List.not_mem_nil) hreach
  refine ⟨s, htables, ?_, ?_, ?_⟩
  · rw [hget _ (by simp [htables]) _ (by decide), hset]
    rfl
  · rw [hget _ (by simp [htables]) _ (by decide), hunset]
    rfl
  · intro s' hstep
    obtain ⟨hgone, -, hfree⟩ := hdestroy _ s' hstep
    exact ⟨hgone, hfree 0x400000 _ (by decide) hset⟩

/--
At 0x8000000000 the entry 1 of the top level is used, whose tables all processes share: a page set
in the first table is found in the second.
-/
theorem shared_kernel_table :
    ∃ (base : Vaddr) (s₁ : Pools) (s s' : Mmu),
      smallPools.pagingInit 1 (fun _ => false) = .ok (base, s₁) ∧
      Reach Mmu.step Always (Mmu.boot base s₁ []) s ∧
      s.tables = [0x8004105000, 0x8004104000] ∧ isUserVaddr 0x8000000000 = true ∧
      Mmu.step s (.setPage 0x8004104000 0x8000000000 0x8004200000 true) = .ok s' ∧
      s.pml4GetPage 0x8004105000 0x8000000000 = .ok none ∧
      s'.pml4GetPage 0x8004105000 0x8000000000 = .ok (some 0x8004200000) := by
  have hrun : runs smallPools (fun _ _ => true) [.create, .create, .pallocGet { user := true }]
      (fun s => decide (s.tables = [0x8004105000, 0x8004104000]) &&
        match Mmu.step s (.setPage 0x8004104000 0x8000000000 0x8004200000 true) with
        | .error _ => false
        | .ok s' =>
          decide (s.pml4GetPage 0x8004105000 0x8000000000 = .ok none) &&
          decide (s'.pml4GetPage 0x8004105000 0x8000000000 = .ok (some 0x8004200000))) =
      true := by decide +kernel
  obtain ⟨base, s₁, s, hinit, hreach, htest⟩ := of_runs (C := Always) (fun _ _ _ => trivial) hrun
  simp only [Bool.and_eq_true, decide_eq_true_eq] at htest
  obtain ⟨htables, htest⟩ := htest
  split at htest
  · cases htest
  next s' hset =>
  simp only [Bool.and_eq_true, decide_eq_true_eq] at htest
  exact ⟨base, s₁, s, s', hinit, hreach, htables, by decide, hset, htest.1, htest.2⟩

end Pintos
