import Pintos.Userprog.Pages

/-!
# Stack growth

A fault below the pages of the stack grows it only if it is at `rsp - 8` and the bit `VM_MARKER_0` of the
address is set, whatever else is near the stack pointer, and wherever above the lowest byte this is.

* `StackAccess` — an access of the stack, by its address and the stack pointer
* `growsForStack_iff` — **faults are told apart where the two agree**
* `GrowthBounded` — the growth stays within the stack and ends at the next page
* `growthBounded_iff` — **it does so from an address below `USER_STACK`**
-/

namespace Pintos

open Function

/-! ## Which faults grow the stack -/

/-- The lowest address of the stack. -/
def stackLimit : Nat := USER_STACK.toNat - STACK_MAX_SIZE

/-- An access of the stack. `rsp - 8` does not wrap around. -/
def StackAccess (rsp addr : Vaddr) : Prop :=
  stackLimit ≤ addr.toNat ∧ addr.toNat < USER_STACK.toNat ∧ rsp.toNat ≤ addr.toNat + 8

instance (rsp addr : Vaddr) : Decidable (StackAccess rsp addr) := inferInstanceAs (Decidable (_ ∧ _))

/-- A fault at `rsp - 8`, where the bit of the marker is set. -/
def MarkedPush (rsp addr : Vaddr) : Prop := addr = rsp - 8 ∧ addr &&& VM_MARKER_0 ≠ 0

/-- A fault at an address without a page grows the stack if this is an access of it, and changes nothing
otherwise. -/
def GrowsForStack (s : Vm) (t : Tid) (rsp addr : Vaddr) : Prop :=
  (vmTryHandleFault t rsp addr true).run s =
    if StackAccess rsp addr then (do vmStackGrowth t addr; pure true : VmProg Bool).run s else .ok (false, s)

section

variable {s : Vm} {t : Tid} {rsp addr : Vaddr}

/-- What the code does. The lowest byte of the stack has not the bit. -/
theorem run_vmTryHandleFault (rsp : Vaddr) (h : ¬ s.Covered t addr) :
    (MarkedPush rsp addr ∧ stackLimit ≤ addr.toNat →
      (vmTryHandleFault t rsp addr true).run s = (do vmStackGrowth t addr; pure true : VmProg Bool).run s) ∧
    (¬ (MarkedPush rsp addr ∧ stackLimit ≤ addr.toNat) →
      (vmTryHandleFault t rsp addr true).run s = .ok (false, s)) := by
  have hnone : s.findPage (pgRoundDown (pgRoundDown addr)) (s.spt t) = none := by
    rw [pgRoundDown_idem]
    exact not_not.mp h
  have hlow : addr &&& VM_MARKER_0 ≠ 0 → addr.toNat ≠ stackLimit := by
    intro hbit heq
    have haddr : addr = 0x47380000 := BitVec.eq_of_toNat_eq heq
    rw [haddr] at hbit
    exact hbit (by decide)
  unfold vmTryHandleFault
  rw [if_pos rfl, Prog.run_bind_ok (run_sptFindPage s t (pgRoundDown addr)), hnone]
  dsimp only
  refine ⟨fun ⟨⟨heq, hbit⟩, hle⟩ => ?_, fun hn => ?_⟩
  · have hlt : stackLimit < addr.toNat := lt_of_le_of_ne hle (hlow hbit).symm
    rw [if_pos ⟨hlt, hbit, heq⟩]
  · rw [if_neg fun ⟨hlt, hbit, heq⟩ => hn ⟨⟨heq, hbit⟩, hlt.le⟩]
    rfl

/-- A run that grows the stack does not return `false`. -/
theorem growth_ne_false (t : Tid) (addr : Vaddr) (s : Vm) :
    (do vmStackGrowth t addr; pure true : VmProg Bool).run s ≠ .ok (false, s) := by
  intro h
  obtain ⟨_, s₁, -, h⟩ := Prog.of_run_bind h
  cases h

/-- A push that the code sees in the stack is an access of it. -/
theorem MarkedPush.stackAccess (h : MarkedPush rsp addr) (hlow : stackLimit ≤ addr.toNat)
    (hlt : addr.toNat < USER_STACK.toNat) : StackAccess rsp addr := by
  obtain ⟨heq, -⟩ := h
  have hrsp : rsp = addr + 8 := by rw [heq, BitVec.sub_add_cancel]
  refine ⟨hlow, hlt, ?_⟩
  rw [hrsp, BitVec.toNat_add]
  exact Nat.mod_le _ _

/-- **Faults without a page are told apart where every access of the stack is a marked push, and no marked
push lies above the stack.** -/
theorem growsForStack_iff (h : ¬ s.Covered t addr) :
    GrowsForStack s t rsp addr ↔
      (StackAccess rsp addr → MarkedPush rsp addr) ∧ (USER_STACK.toNat ≤ addr.toNat → ¬ MarkedPush rsp addr) := by
  obtain ⟨hgrow, hrefuse⟩ := run_vmTryHandleFault rsp h
  unfold GrowsForStack
  constructor
  · intro heq
    refine ⟨fun hacc => ?_, fun habove hpush => ?_⟩
    · by_contra hpush
      rw [if_pos hacc, hrefuse fun hp => hpush hp.1] at heq
      exact growth_ne_false t addr s heq.symm
    · have hlow : stackLimit ≤ addr.toNat := le_trans (by decide) habove
      rw [if_neg fun hacc => absurd habove hacc.2.1.not_ge, hgrow ⟨hpush, hlow⟩] at heq
      exact growth_ne_false t addr s heq
  · rintro ⟨hpush, habove⟩
    split
    · next hacc => exact hgrow ⟨hpush hacc, hacc.1⟩
    · next hacc =>
      refine hrefuse fun ⟨hp, hlow⟩ => hacc (hp.stackAccess hlow ?_)
      by_contra hlt
      exact habove (not_lt.mp hlt) hp

end

/-- A process with the first page of its stack. -/
def firstStackPage : Vm :=
  { Vm.boot (FileSys.boot (fun _ _ => 0) 0 ⟨0, []⟩ [] ⟨0, 0⟩) [false, false] 0 with
    spt := update (fun _ => []) 1 [0]
    pages := update (fun _ => none) 0 (some
      { operations := .uninit, va := 0x4747f000, frame := none, writable := true, init := false, type := .anon,
        aux := none, swapSlot := 0 })
    brk := 1 }

/-- A push grows the stack. -/
theorem growsForStack_iff_push : GrowsForStack firstStackPage 1 0x4747f000 0x4747eff8 :=
  (growsForStack_iff (by decide)).mpr ⟨fun _ => ⟨by decide, by decide⟩, fun h => absurd h (by decide)⟩

/-- **An access inside a local array does not grow the stack.** -/
theorem local_array_refused : ¬ GrowsForStack firstStackPage 1 0x4747e000 0x4747e800 := by
  intro h
  unfold GrowsForStack at h
  rw [if_pos (by decide), (run_vmTryHandleFault _ (by decide)).2 fun hp => absurd hp.1.1 (by decide)] at h
  exact growth_ne_false _ _ _ h.symm

/-! ## How far it grows -/

/-- The next page of the table, from the page `a` on, is `n` pages further. -/
def NextPage (s : Vm) (t : Tid) (a : Vaddr) (n : Nat) : Prop :=
  (∀ k < n, ¬ s.Paged t (nthPage a k)) ∧ s.Paged t (nthPage a n)

/-- The pages of the table are those it had and the first `j` pages from `a` on. -/
def Grown (t : Tid) (a : Vaddr) (s s' : Vm) (j : Nat) : Prop :=
  ∀ va, s'.Paged t va ↔ s.Paged t va ∨ ∃ k < j, va = nthPage a k

/-- The growth ends at the next page, `n` pages further, and adds the pages before that, which lie in the
stack. If the kernel panics it has added some of them, in their order. -/
structure GrowsTo (s : Vm) (t : Tid) (addr : Vaddr) (n : Nat) : Prop where
  next : NextPage s t (pgRoundDown addr) n
  ends : ∀ fuel, n < fuel →
    (growStack t fuel (pgRoundDown addr)).leave s = (growStack t (n + 1) (pgRoundDown addr)).leave s
  mapped : ∀ s', (vmStackGrowth t addr).leave s ≠ (.error .setPage, s')
  inStack : ∀ r s', (vmStackGrowth t addr).leave s = (r, s') →
    ∀ va, s'.Paged t va → ¬ s.Paged t va → stackLimit ≤ va.toNat ∧ va.toNat < USER_STACK.toNat
  exactly : ∀ r s', (vmStackGrowth t addr).leave s = (r, s') →
    ∃ j ≤ n, Grown t (pgRoundDown addr) s s' j ∧ (r = .ok () → j = n)

def GrowthBounded (s : Vm) (t : Tid) (addr : Vaddr) : Prop := ∃ n, GrowsTo s t addr n

/-- No `struct page` of the growth is refused. -/
def Granted (s : Vm) (t : Tid) (a : Vaddr) : Prop :=
  ∀ i s', (∀ k ≤ i, ¬ s.Paged t (nthPage a k)) → (growStack t i a).run s = .ok ((), s') → s'.allocs 0 = true

/-! ### One round -/

/-- The body of the loop. -/
def growPage (t : Tid) (a : Vaddr) : VmProg Unit := do
  let _ ← vmAllocPage t .anon a true false none
  let _ ← vmClaimPage t a
  pure ()

/-- The page of a round is in the table if it was granted. -/
structure GrewBy (t : Tid) (a : Vaddr) (s s' : Vm) (granted : Bool) : Prop where
  new : s'.NewPages t
  paged : ∀ va, s'.Paged t va ↔ s.Paged t va ∨ granted = true ∧ va = a

section

variable {s s' s₁ : Vm} {t : Tid} {a va : Vaddr} {i n : Nat} {b : Bool}

theorem leave_growStack_there (hal : Aligned a) (h : s.Paged t a) (fuel : Nat) :
    (growStack t fuel a).leave s = (.ok (), s) := by
  cases fuel with
  | zero => rfl
  | succ fuel =>
    obtain ⟨q, hq⟩ := Option.ne_none_iff_exists'.mp h
    rw [growStack, Prog.leave_bind_ok (run_sptFindPage s t a), pgRoundDown_of_aligned hal, hq]
    rfl

theorem growStack_round (hal : Aligned a) (h : ¬ s.Paged t a) (fuel : Nat) :
    (growStack t (fuel + 1) a).leave s =
      (growPage t a >>= fun _ => growStack t fuel (nthPage a 1)).leave s := by
  have hnext : a + BitVec.ofNat 64 PGSIZE = nthPage a 1 := rfl
  rw [growStack, Prog.leave_bind_ok (run_sptFindPage s t a), pgRoundDown_of_aligned hal, not_not.mp h, hnext]
  dsimp only
  rw [growPage]
  simp only [Prog.leave_bind]
  cases (vmAllocPage t .anon a true false none).leave s with
  | mk r s₁ =>
    cases r with
    | error e => rfl
    | ok _ =>
      dsimp only
      cases (vmClaimPage t a).leave s₁ with
      | mk r s₂ => cases r <;> rfl

/-- Where the `struct page` was refused there is nothing to claim. -/
theorem run_vmClaimPage_refused (h : ¬ s.Covered t a) : (vmClaimPage t a).run s.asked = .ok (false, s.asked) := by
  have hfound : s.asked.findPage (pgRoundDown a) (s.asked.spt t) = none := by
    rw [← not_not.mp h]
    exact Vm.findPage_congr (by rfl) _
  rw [vmClaimPage, Prog.run_bind_ok (run_sptFindPage _ t a), hfound]
  rfl

theorem GrewBy.accessing {N : Vaddr → Prop} (h : GrewBy t a s s₁ b) (ha : Accessing N s₁ s') : GrewBy t a s s' b := by
  refine ⟨fun q hq => ?_, fun va => ha.paged.trans (h.paged va)⟩
  rw [ha.spt] at hq
  exact (h.new q hq).trans_le ha.brk

/-- A round that fails has added its page. -/
theorem ends_growPage (hal : Aligned a) (hnew : s.NewPages t) (h : ¬ s.Paged t a) :
    (growPage t a).Ends
      (fun e s' => s.allocs 0 = true ∧ GrewBy t a s s' true ∧ (isUserVaddr a = true → e ≠ .setPage))
      (fun _ s' => GrewBy t a s s' (s.allocs 0)) s := by
  have hcov : ¬ s.Covered t a := by rwa [Vm.Covered, pgRoundDown_of_aligned hal]
  cases ha : s.allocs 0 with
  | false =>
    have hclaim := run_vmClaimPage_refused hcov
    refine Prog.ends_bind <| Prog.ends_of_run (run_vmAllocPage_refused nofun hcov ha) ?_
    refine Prog.ends_bind <| Prog.ends_of_run hclaim ?_
    exact Prog.ends_pure ⟨hnew, fun va => by simp⟩
  | true =>
    set page := uninitNew a false .anon none true with hpage
    set s₁ := s.asked.addPage t page with hs₁
    have hadded : GrewBy t a s s₁ true :=
      ⟨hnew.asked.addPage, fun va => by
        rw [Vm.paged_addPage hnew.asked, Vm.paged_asked, or_comm]
        simp [hpage, uninitNew]⟩
    have hfine : isUserVaddr a = true →
        ∀ q, s₁.findPage (pgRoundDown a) (s₁.spt t) = some q → s₁.Fine q := by
      intro hu q hq page' hpage'
      rw [pgRoundDown_of_aligned hal, hnew.asked.findPage, if_pos (by rfl)] at hq
      cases hq
      have hnewest : s₁.pages s.brk = some page := update_self s.brk _ s.pages
      cases hnewest.symm.trans hpage'
      exact ⟨⟨hal, hu⟩, nofun⟩
    refine Prog.ends_bind <| Prog.ends_of_run (run_vmAllocPage nofun hal h ha) ?_
    refine Prog.ends_bind <| Prog.ends_mono ?_ ?_ <| Prog.wp_ends <|
      wp_vmClaimPage (N := Any) (.refl s₁) fun _ _ => trivial
    · rintro e s' ⟨he, hc⟩
      refine ⟨rfl, hadded.accessing hc.toAccessing, fun hu => ?_⟩
      rintro rfl
      rcases he with he | he | ⟨hf, -⟩
      · exact he
      · cases he
      · exact hf (hfine hu)
    · rintro _ s' ⟨hc, -⟩
      exact Prog.ends_pure (hadded.accessing hc.toAccessing)

/-! ### The loop -/

theorem NextPage.lt (h : NextPage s t a n) : n < 2 ^ 52 := by
  by_contra hn
  obtain ⟨m, rfl⟩ := Nat.exists_eq_add_of_le' (not_lt.mp hn)
  have hpaged := h.2
  rw [nthPage_wrap] at hpaged
  exact h.1 m (by omega) hpaged

/-- After a round the pages that follow are as they were. -/
theorem GrewBy.missing {k : Nat} (h : GrewBy t a s s₁ b) (hk : 0 < k) (hlt : k < 2 ^ 52)
    (hs : ¬ s.Paged t (nthPage a k)) : ¬ s₁.Paged t (nthPage a k) := by
  intro hp
  rcases (h.paged _).mp hp with hp | ⟨-, heq⟩
  · exact hs hp
  · rw [← nthPage_zero a, nthPage_add, Nat.zero_add] at heq
    have hk0 := nthPage_inj hlt (by omega) heq
    omega

/-- What holds after one round and the rounds after it. -/
theorem ends_round {P : VmFault → Vm → Prop} {Q : Unit → Vm → Prop} (hal : Aligned a) (hnew : s.NewPages t)
    (h : ¬ s.Paged t a)
    (hfail : ∀ e s₁, s.allocs 0 = true → GrewBy t a s s₁ true → (isUserVaddr a = true → e ≠ .setPage) → P e s₁)
    (hrest : ∀ s₁, (growPage t a).run s = .ok ((), s₁) → GrewBy t a s s₁ (s.allocs 0) →
      (growStack t n (nthPage a 1)).Ends P Q s₁) : (growStack t (n + 1) a).Ends P Q s := by
  refine Prog.ends_congr (growStack_round hal h n) <| Prog.ends_bind <| Prog.ends_mono ?_ ?_ <|
    Prog.ends_run (ends_growPage hal hnew h)
  · exact fun e s₁ he => hfail e s₁ he.1 he.2.1 he.2.2
  · exact fun _ s₁ hs => hrest s₁ hs.1 hs.2

/-- A round that runs, and the rounds after it. -/
theorem leave_round (hal : Aligned a) (h : ¬ s.Paged t a) (hr : (growPage t a).run s = .ok ((), s₁)) (fuel : Nat) :
    (growStack t (fuel + 1) a).leave s = (growStack t fuel (nthPage a 1)).leave s₁ := by
  rw [growStack_round hal h, Prog.leave_bind_ok hr]

/-- The pages that the loop adds. -/
structure Within (t : Tid) (a : Vaddr) (n : Nat) (s s' : Vm) : Prop where
  new : s'.NewPages t
  old : ∀ va, s.Paged t va → s'.Paged t va
  added : ∀ va, s'.Paged t va → s.Paged t va ∨ ∃ k < n, va = nthPage a k

theorem Within.refl (hnew : s.NewPages t) : Within t a 0 s s := ⟨hnew, fun _ h => h, fun _ h => .inl h⟩

theorem GrewBy.within (h : GrewBy t a s s₁ b) (hrest : Within t (nthPage a 1) n s₁ s') : Within t a (n + 1) s s' := by
  refine ⟨hrest.new, fun va hva => hrest.old va ((h.paged va).mpr (.inl hva)), fun va hva => ?_⟩
  rcases hrest.added va hva with hva | ⟨k, hk, rfl⟩
  · rcases (h.paged va).mp hva with hva | ⟨-, rfl⟩
    · exact .inl hva
    · exact .inr ⟨0, by omega, (nthPage_zero _).symm⟩
  · exact .inr ⟨1 + k, by omega, nthPage_add a 1 k⟩

/-- The pages after the first are missing after a round. -/
theorem GrewBy.rest (h : GrewBy t a s s₁ b) (hlt : n + 1 ≤ 2 ^ 52) (hn : ∀ k < n + 1, ¬ s.Paged t (nthPage a k)) :
    ∀ k < n, ¬ s₁.Paged t (nthPage (nthPage a 1) k) := by
  intro k hk
  rw [nthPage_add]
  exact h.missing (by omega) (by omega) (hn _ (by omega))

/-- Where the loop fails the page of its last round is added. -/
theorem ends_growStack (hal : Aligned a) (hnew : s.NewPages t) (hn : ∀ k < n, ¬ s.Paged t (nthPage a k))
    (hlt : n ≤ 2 ^ 52) :
    (growStack t n a).Ends
      (fun e s' => Within t a n s s' ∧ (∃ k < n, s'.Paged t (nthPage a k)) ∧
        ((∀ k < n, isUserVaddr (nthPage a k) = true) → e ≠ .setPage))
      (fun _ s' => Within t a n s s') s := by
  induction n generalizing s a with
  | zero => exact Prog.ends_pure (.refl hnew)
  | succ n ih =>
    have h0 : ¬ s.Paged t a := by simpa using hn 0 (by omega)
    refine ends_round hal hnew h0 (fun e s₁ _ hg he => ⟨?_, ⟨0, by omega, ?_⟩, fun hu => he ?_⟩) fun s₁ _ hg => ?_
    · refine ⟨hg.new, fun va hva => (hg.paged va).mpr (.inl hva), fun va hva => ?_⟩
      rcases (hg.paged va).mp hva with hva | ⟨-, rfl⟩
      · exact .inl hva
      · exact .inr ⟨0, by omega, (nthPage_zero _).symm⟩
    · rw [nthPage_zero]
      exact (hg.paged a).mpr (.inr ⟨rfl, rfl⟩)
    · simpa using hu 0 (by omega)
    · refine Prog.ends_mono ?_ (fun _ s' h => hg.within h) <|
        ih (aligned_nthPage hal 1) hg.new (hg.rest hlt hn) (by omega)
      rintro e s' ⟨hw, ⟨k, hk, hp⟩, hu⟩
      refine ⟨hg.within hw, ⟨1 + k, by omega, by rwa [← nthPage_add]⟩, fun hall => hu fun k hk => ?_⟩
      rw [nthPage_add]
      exact hall _ (by omega)

/-- The loop does not go beyond the next page. -/
theorem NextPage.leave_eq (hal : Aligned a) (hnew : s.NewPages t) (h : NextPage s t a n) {fuel : Nat}
    (hle : n ≤ fuel) : (growStack t fuel a).leave s = (growStack t n a).leave s := by
  have hlt := h.lt
  obtain ⟨hn, hnext⟩ := h
  induction n generalizing s a fuel with
  | zero =>
    rw [nthPage_zero] at hnext
    exact leave_growStack_there hal hnext fuel
  | succ n ih =>
    have h0 : ¬ s.Paged t a := by simpa using hn 0 (by omega)
    obtain ⟨fuel, rfl⟩ := Nat.exists_eq_add_of_le' (show 1 ≤ fuel by omega)
    rw [growStack_round hal h0, growStack_round hal h0, Prog.leave_bind, Prog.leave_bind]
    have hends := Prog.ends_leave (ends_growPage hal hnew h0)
    cases hr : (growPage t a).leave s with
    | mk r s₁ =>
      cases r with
      | error e => rfl
      | ok u =>
        have hg := hends.1 u s₁ hr
        refine ih (aligned_nthPage hal 1) hg.new (by omega) (by omega) (hg.rest (by omega) hn) ?_
        rw [nthPage_add, Nat.add_comm]
        exact (hg.paged _).mpr (.inl hnext)

/-- The first rounds, and then the others. -/
theorem growStack_split (hal : Aligned a) (hnew : s.NewPages t) (hi : ∀ k < i, ¬ s.Paged t (nthPage a k))
    (hlt : i ≤ 2 ^ 52) (h : (growStack t i a).run s = .ok ((), s₁)) (fuel : Nat) :
    (growStack t (i + fuel) a).leave s = (growStack t fuel (nthPage a i)).leave s₁ := by
  induction i generalizing s a with
  | zero =>
    cases h
    rw [Nat.zero_add, nthPage_zero]
  | succ i ih =>
    have h0 : ¬ s.Paged t a := by simpa using hi 0 (by omega)
    have hleave := Prog.leave_eq_ok.mpr h
    rw [growStack_round hal h0] at hleave
    obtain ⟨_, s₂, hr, hrest⟩ := Prog.of_run_bind (Prog.leave_eq_ok.mp hleave)
    have hg := (Prog.ends_leave (ends_growPage hal hnew h0)).1 _ s₂ (Prog.leave_eq_ok.mpr hr)
    have hsplit := ih (aligned_nthPage hal 1) hg.new (hg.rest hlt hi) (by omega) hrest
    rw [nthPage_add, Nat.add_comm 1 i] at hsplit
    rw [Nat.add_right_comm, leave_round hal h0 hr, hsplit]

theorem Granted.first (h : Granted s t a) (h0 : ¬ s.Paged t a) : s.allocs 0 = true := by
  refine h 0 s (fun k hk => ?_) rfl
  obtain rfl : k = 0 := by omega
  rwa [nthPage_zero]

/-- What is granted in the rounds after the first. -/
theorem Granted.rest (h : Granted s t a) (hal : Aligned a) (h0 : ¬ s.Paged t a)
    (hr : (growPage t a).run s = .ok ((), s₁)) (hg : GrewBy t a s s₁ b) : Granted s₁ t (nthPage a 1) := by
  intro i s' hi hrun
  refine h (i + 1) s' (fun k hk => ?_) ?_
  · cases k with
    | zero => rwa [nthPage_zero]
    | succ k =>
      have hk' := hi k (by omega)
      rw [nthPage_add, Nat.add_comm] at hk'
      exact fun hp => hk' ((hg.paged _).mpr (.inl hp))
  · rw [← Prog.leave_eq_ok, leave_round hal h0 hr, Prog.leave_eq_ok, hrun]

theorem Grown.succ {j : Nat} (hg : GrewBy t a s s₁ true) (h : Grown t (nthPage a 1) s₁ s' j) :
    Grown t a s s' (j + 1) := by
  intro va
  rw [h va, hg.paged va]
  constructor
  · rintro ((hs | ⟨-, rfl⟩) | ⟨k, hk, rfl⟩)
    · exact .inl hs
    · exact .inr ⟨0, by omega, (nthPage_zero _).symm⟩
    · exact .inr ⟨1 + k, by omega, nthPage_add a 1 k⟩
  · rintro (hs | ⟨k, hk, rfl⟩)
    · exact .inl (.inl hs)
    · cases k with
      | zero => exact .inl (.inr ⟨rfl, nthPage_zero a⟩)
      | succ k => exact .inr ⟨k, by omega, by rw [nthPage_add, Nat.add_comm]⟩

theorem Grown.zero (t : Tid) (a : Vaddr) (s : Vm) : Grown t a s s 0 := fun va => by simp

/-- If nothing is refused the pages are added one after the other. -/
theorem ends_growStack_granted (hal : Aligned a) (hnew : s.NewPages t) (hn : ∀ k < n, ¬ s.Paged t (nthPage a k))
    (hlt : n ≤ 2 ^ 52) (h : Granted s t a) :
    (growStack t n a).Ends (fun _ s' => ∃ j ≤ n, Grown t a s s' j) (fun _ s' => Grown t a s s' n) s := by
  induction n generalizing s a with
  | zero => exact Prog.ends_pure (.zero t a s)
  | succ n ih =>
    have h0 : ¬ s.Paged t a := by simpa using hn 0 (by omega)
    refine ends_round hal hnew h0 (fun e s₁ _ hg _ => ⟨1, by omega, fun va => ?_⟩) fun s₁ hr hg => ?_
    · rw [hg.paged va]
      simp
    · have hrest := h.rest hal h0 hr hg
      rw [h.first h0] at hg
      refine Prog.ends_mono ?_ (fun _ s' hs => hs.succ hg) <|
        ih (aligned_nthPage hal 1) hg.new (hg.rest hlt hn) (by omega) hrest
      rintro e s' ⟨j, hj, hs⟩
      exact ⟨j + 1, by omega, hs.succ hg⟩

/-! ### When it is bounded -/

/-- What a growth leaves, whatever is refused. -/
theorem leave_vmStackGrowth (addr : Vaddr) (hnew : s.NewPages t) (h : NextPage s t (pgRoundDown addr) n) :
    (vmStackGrowth t addr).leave s = (growStack t n (pgRoundDown addr)).leave s :=
  h.leave_eq (aligned_pgRoundDown addr) hnew h.lt.le

/-- The first page of the stack is one of the pages from an address below it on. -/
theorem exists_stackPage {addr : Vaddr} (hlt : addr.toNat < USER_STACK.toNat) :
    ∃ k, (pgRoundDown addr).toNat + PGSIZE * k < USER_STACK.toNat ∧
      nthPage (pgRoundDown addr) k = USER_STACK - BitVec.ofNat 64 PGSIZE := by
  have hstack : USER_STACK.toNat = 0x47480000 := rfl
  have hpage : (USER_STACK - BitVec.ofNat 64 PGSIZE).toNat = 0x4747f000 := by decide
  have ha : (pgRoundDown addr).toNat = addr.toNat / 4096 * 4096 := pgRoundDown_toNat addr
  have hsum : (pgRoundDown addr).toNat + PGSIZE * (0x4747f - addr.toNat / 4096) = 0x4747f000 := by
    unfold PGSIZE
    omega
  refine ⟨0x4747f - addr.toNat / 4096, by omega, BitVec.eq_of_toNat_eq ?_⟩
  rw [nthPage_toNat (by omega), hsum, hpage]

theorem NextPage.below {addr : Vaddr} (h : NextPage s t (pgRoundDown addr) n)
    (hfirst : s.Paged t (USER_STACK - BitVec.ofNat 64 PGSIZE)) (hlt : addr.toNat < USER_STACK.toNat) :
    (pgRoundDown addr).toNat + PGSIZE * n < USER_STACK.toNat := by
  obtain ⟨k, hk, hpage⟩ := exists_stackPage hlt
  have hle : n ≤ k := by
    by_contra hkn
    rw [← hpage] at hfirst
    exact h.1 k (not_le.mp hkn) hfirst
  have hmul := Nat.mul_le_mul_left PGSIZE hle
  omega

open Classical in
theorem exists_nextPage {addr : Vaddr} (hfirst : s.Paged t (USER_STACK - BitVec.ofNat 64 PGSIZE))
    (hlt : addr.toNat < USER_STACK.toNat) : ∃ n, NextPage s t (pgRoundDown addr) n := by
  obtain ⟨k, -, hpage⟩ := exists_stackPage hlt
  have hex : ∃ n, s.Paged t (nthPage (pgRoundDown addr) n) := ⟨k, by rwa [hpage]⟩
  exact ⟨Nat.find hex, fun _ => Nat.find_min hex, Nat.find_spec hex⟩

/-- From an address in the stack on, where nothing is refused. -/
theorem growthBounded {addr : Vaddr} (hnew : s.NewPages t)
    (hfirst : s.Paged t (USER_STACK - BitVec.ofNat 64 PGSIZE)) (hlow : stackLimit ≤ addr.toNat)
    (hlt : addr.toNat < USER_STACK.toNat) (h : Granted s t (pgRoundDown addr)) : GrowthBounded s t addr := by
  obtain ⟨n, hnext⟩ := exists_nextPage hfirst hlt
  have hal := aligned_pgRoundDown addr
  have hle := hnext.lt.le
  have hbelow := hnext.below hfirst hlt
  have hstack : USER_STACK.toNat = 0x47480000 := rfl
  have hlimit : stackLimit = 0x47380000 := rfl
  have ha : (pgRoundDown addr).toNat = addr.toNat / 4096 * 4096 := pgRoundDown_toNat addr
  have hpage : ∀ k < n, (nthPage (pgRoundDown addr) k).toNat = (pgRoundDown addr).toNat + PGSIZE * k := by
    intro k hk
    have hmul := Nat.mul_le_mul_left PGSIZE hk.le
    exact nthPage_toNat (by omega)
  have hrange : ∀ k < n, stackLimit ≤ (nthPage (pgRoundDown addr) k).toNat ∧
      (nthPage (pgRoundDown addr) k).toNat < USER_STACK.toNat := by
    intro k hk
    have hmul := Nat.mul_le_mul_left PGSIZE hk.le
    rw [hpage k hk]
    omega
  obtain ⟨hok, herr⟩ := Prog.ends_leave (ends_growStack hal hnew hnext.1 hle)
  obtain ⟨hok', herr'⟩ := Prog.ends_leave (ends_growStack_granted hal hnew hnext.1 hle h)
  have hleave := leave_vmStackGrowth addr hnew hnext
  refine ⟨n, hnext, fun fuel hf => ?_, fun s' hr => ?_, fun r s' hr va hva hold => ?_, fun r s' hr => ?_⟩
  · rw [hnext.leave_eq hal hnew hf.le, hnext.leave_eq hal hnew (Nat.le_succ n)]
  · rw [hleave] at hr
    refine (herr _ s' hr).2.2 (fun k hk => ?_) rfl
    rw [isUserVaddr_iff]
    have hk' := (hrange k hk).2
    omega
  · rw [hleave] at hr
    have hw : Within t (pgRoundDown addr) n s s' := by
      cases r with
      | error e => exact (herr e s' hr).1
      | ok u => exact hok u s' hr
    rcases hw.added va hva with hs | ⟨k, hk, rfl⟩
    · exact absurd hs hold
    · exact hrange k hk
  · rw [hleave] at hr
    cases r with
    | error e =>
      obtain ⟨j, hj, hg⟩ := herr' e s' hr
      exact ⟨j, hj, hg, nofun⟩
    | ok u => exact ⟨n, le_rfl, hok' u s' hr, fun _ => rfl⟩

/-- If the first page is refused it is left out, and a loop that fails has added a later one. -/
theorem ends_growStack_refused (hal : Aligned a) (hnew : s.NewPages t)
    (hn : ∀ k < n + 1, ¬ s.Paged t (nthPage a k)) (hlt : n + 1 ≤ 2 ^ 52) (h : s.allocs 0 = false) :
    (growStack t (n + 1) a).Ends
      (fun _ s' => ¬ s'.Paged t a ∧ ∃ k < n, s'.Paged t (nthPage a (1 + k))) (fun _ s' => ¬ s'.Paged t a) s := by
  have h0 : ¬ s.Paged t a := by simpa using hn 0 (by omega)
  refine ends_round hal hnew h0 (fun e s₁ ha => ?_) fun s₁ _ hg => ?_
  · rw [h] at ha
    cases ha
  · rw [h] at hg
    have hout : ∀ s', Within t (nthPage a 1) n s₁ s' → ¬ s'.Paged t a := by
      intro s' hw hp
      rcases hw.added a hp with hp | ⟨k, hk, heq⟩
      · rcases (hg.paged a).mp hp with hp | ⟨hf, -⟩
        · exact h0 hp
        · cases hf
      · rw [nthPage_add] at heq
        have hk0 := nthPage_inj (i := 0) (by omega) (by omega) ((nthPage_zero a).trans heq)
        omega
    refine Prog.ends_mono ?_ (fun _ s' hw => hout s' hw) <|
      ends_growStack (aligned_nthPage hal 1) hg.new (hg.rest hlt hn) (by omega)
    rintro e s' ⟨hw, ⟨k, hk, hp⟩, -⟩
    exact ⟨hout s' hw, k, hk, by rwa [← nthPage_add]⟩

/-- A growth in which a page is refused does not add what it should. -/
theorem GrowsTo.granted {addr : Vaddr} (hnew : s.NewPages t) (h : GrowsTo s t addr n) :
    Granted s t (pgRoundDown addr) := by
  intro i s₁ hi hrun
  have hal := aligned_pgRoundDown addr
  have hlt := h.next.lt
  have hin : i < n := by
    by_contra hni
    exact hi n (not_lt.mp hni) h.next.2
  obtain ⟨m, rfl⟩ : ∃ m, n = i + (m + 1) := ⟨n - i - 1, by omega⟩
  by_contra ha
  have hbefore : ∀ k < i, ¬ s.Paged t (nthPage (pgRoundDown addr) k) := fun k hk => hi k hk.le
  have hleave := (leave_vmStackGrowth addr hnew h.next).trans
    (growStack_split hal hnew hbefore (by omega) hrun (m + 1))
  have hw := (Prog.ends_leave (ends_growStack hal hnew hbefore (by omega))).1 _ s₁ (Prog.leave_eq_ok.mpr hrun)
  have hrest : ∀ k < m + 1, ¬ s₁.Paged t (nthPage (nthPage (pgRoundDown addr) i) k) := by
    intro k hk hp
    rw [nthPage_add] at hp
    rcases hw.added _ hp with hp | ⟨k', hk', heq⟩
    · exact h.next.1 _ (by omega) hp
    · have hkk := nthPage_inj (by omega) (by omega) heq
      omega
  obtain ⟨hok, herr⟩ := Prog.ends_leave <|
    ends_growStack_refused (aligned_nthPage hal i) hw.new hrest (by omega) (by simpa using ha)
  cases hr : (growStack t (m + 1) (nthPage (pgRoundDown addr) i)).leave s₁ with
  | mk r s' =>
    obtain ⟨j, hj, hg, hall⟩ := h.exactly r s' (hleave.trans hr)
    have hij : i < j → s'.Paged t (nthPage (pgRoundDown addr) i) := fun hij => (hg _).mpr (.inr ⟨i, hij, rfl⟩)
    cases r with
    | ok u =>
      obtain rfl := hall rfl
      exact hok u s' hr (hij hin)
    | error e =>
      obtain ⟨hout, k, hk, hp⟩ := herr e s' hr
      rw [nthPage_add] at hp
      refine hout (hij ?_)
      rcases (hg _).mp hp with hp | ⟨k', hk', heq⟩
      · exact absurd hp (h.next.1 _ (by omega))
      · have hkk := nthPage_inj (by omega) (by omega) heq
        omega

/-- The first page that is added is that of the address. -/
theorem GrowsTo.below {addr : Vaddr} (hnew : s.NewPages t) (h0 : ¬ s.Covered t addr) (h : GrowsTo s t addr n) :
    addr.toNat < USER_STACK.toNat := by
  have hal := aligned_pgRoundDown addr
  have hfirst := (h.granted hnew).first h0
  have hn : n ≠ 0 := by
    rintro rfl
    have hnext := h.next.2
    rw [nthPage_zero] at hnext
    exact h0 hnext
  obtain ⟨m, rfl⟩ := Nat.exists_eq_succ_of_ne_zero hn
  have hlt := h.next.lt
  have hadded : (growStack t (m + 1) (pgRoundDown addr)).Ends (fun _ s' => s'.Paged t (pgRoundDown addr))
      (fun _ s' => s'.Paged t (pgRoundDown addr)) s := by
    refine ends_round hal hnew h0 (fun e s₁ _ hg _ => (hg.paged _).mpr (.inr ⟨rfl, rfl⟩)) fun s₁ _ hg => ?_
    rw [hfirst] at hg
    have hp := (hg.paged (pgRoundDown addr)).mpr (.inr ⟨rfl, rfl⟩)
    exact Prog.ends_mono (fun _ _ hs => hs.1.old _ hp) (fun _ _ hs => hs.old _ hp) <|
      ends_growStack (aligned_nthPage hal 1) hg.new (hg.rest (by omega) h.next.1) (by omega)
  obtain ⟨hok, herr⟩ := Prog.ends_leave hadded
  have hleave := leave_vmStackGrowth addr hnew h.next
  cases hr : (growStack t (m + 1) (pgRoundDown addr)).leave s with
  | mk r s' =>
    have hp : s'.Paged t (pgRoundDown addr) := by
      cases r with
      | ok u => exact hok u s' hr
      | error e => exact herr e s' hr
    have hin := (h.inStack r s' (hleave.trans hr) _ hp h0).2
    have hstack : USER_STACK.toNat = 0x47480000 := rfl
    have ha : (pgRoundDown addr).toNat = addr.toNat / 4096 * 4096 := pgRoundDown_toNat addr
    omega

/-- **Where a fault makes the stack grow, the growth is bounded if and only if the address lies below
`USER_STACK` and no page of it is refused.** -/
theorem growthBounded_iff {rsp addr : Vaddr} (hnew : s.NewPages t)
    (hfirst : s.Paged t (USER_STACK - BitVec.ofNat 64 PGSIZE)) (h0 : ¬ s.Covered t addr)
    (hcall : stackLimit < addr.toNat ∧ MarkedPush rsp addr) :
    GrowthBounded s t addr ↔ addr.toNat < USER_STACK.toNat ∧ Granted s t (pgRoundDown addr) :=
  ⟨fun ⟨_, h⟩ => ⟨h.below hnew h0, h.granted hnew⟩,
    fun ⟨hlt, h⟩ => growthBounded hnew hfirst hcall.1.le hlt h⟩

end

/-- A push right below the first page of the stack. -/
theorem growthBounded_iff_push :
    GrowthBounded firstStackPage 1 0x4747eff8 ↔ (0x4747eff8 : Vaddr).toNat < USER_STACK.toNat ∧
      Granted firstStackPage 1 (pgRoundDown 0x4747eff8) := by
  have hpush : MarkedPush 0x4747f000 0x4747eff8 := ⟨by decide, by decide⟩
  exact growthBounded_iff (by decide) (by decide) (by decide) ⟨by decide, hpush⟩

/-- **A push above the stack grows it beyond `USER_STACK`.** -/
theorem growth_above_stack :
    (stackLimit < (0x47480008 : Vaddr).toNat ∧ MarkedPush 0x47480010 0x47480008 ∧
      firstStackPage.Paged 1 (USER_STACK - BitVec.ofNat 64 PGSIZE) ∧ ¬ firstStackPage.Covered 1 0x47480008) ∧
    ¬ GrowthBounded firstStackPage 1 0x47480008 := by
  refine ⟨⟨by decide, ⟨by decide, by decide⟩, by decide, by decide⟩, ?_⟩
  rintro ⟨n, h⟩
  exact absurd (h.below (by decide) (by decide)) (by decide)

end Pintos
