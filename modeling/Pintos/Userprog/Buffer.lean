import Pintos.Userprog.Access
import Pintos.Vm.Changes

/-!
# The bytes of a user buffer

What happens when the kernel stores to the bytes of a buffer, or loads from them, one after the other.
Where a byte cannot be had the process does not get beyond it.

* `wp_fetch` — after `fetch` the byte is not `Blocked`
* `wp_storeBytes`, `wp_loadBytes` — the bytes of a chunk
* `wp_userLoop` — the loops of `inode_read_at` and `inode_write_at`
-/

namespace Pintos

open Function LittleEndian

/-! ## Bytes that cannot be had -/

/-- The page is in the supplemental page table of the thread. -/
def Vm.Paged (s : Vm) (t : Tid) (va : Vaddr) : Prop := s.findPage va (s.spt t) ≠ none

/-- A page of the thread covers the address. -/
def Vm.Covered (s : Vm) (t : Tid) (va : Vaddr) : Prop := s.Paged t (pgRoundDown va)

instance (s : Vm) (t : Tid) (va : Vaddr) : Decidable (s.Paged t va) := inferInstanceAs (Decidable (_ ≠ none))

instance (s : Vm) (t : Tid) (va : Vaddr) : Decidable (s.Covered t va) :=
  inferInstanceAs (Decidable (s.Paged t (pgRoundDown va)))

/-- The byte is not there, and a page fault does not bring it. -/
def Vm.Blocked (s : Vm) (t : Tid) (va : Vaddr) : Prop :=
  s.mapped t va = false ∧ (¬ s.Covered t va ∨ isUserVaddr va = false)

instance (s : Vm) (t : Tid) (va : Vaddr) : Decidable (s.Blocked t va) :=
  inferInstanceAs (Decidable (_ ∧ _))

/-- The kernel's stack pointer: what lies below it is the kernel's, and is there. -/
def Vm.KernelStack (s : Vm) (rsp : Vaddr) : Prop :=
  isUserVaddr (rsp - 8) = false ∧ (pgRoundDown (rsp - 8)).toNat < KERN_BASE.toNat + s.memEnd

instance (s : Vm) (rsp : Vaddr) : Decidable (s.KernelStack rsp) := inferInstanceAs (Decidable (_ ∧ _))

/-- The page can be loaded, if its address is not there anyway. -/
def Vm.Sound (s : Vm) (q : PagePtr) : Prop :=
  ∀ page, s.pages q = some page →
    Aligned page.va ∧ page.va.toNat < KERN_BASE.toNat + s.memEnd ∧ Aux.Fine page.aux

/-- How an access fails: the process exits, or the page is not loaded. -/
def AccessFault (s : Vm) (e : VmFault) : Prop := (∃ status, e = .exit status) ∨ e.Loads (∀ q, s.Sound q)

section

variable {N : Vaddr → Prop} {s₀ s : Vm} {t : Tid} {rsp va : Vaddr}

theorem AccessFault.plain {e : VmFault} (h : e.Plain) : AccessFault s e := .inr (.inl h)

theorem pgRoundDown_idem (va : Vaddr) : pgRoundDown (pgRoundDown va) = pgRoundDown va := by
  refine BitVec.eq_of_toNat_eq ?_
  rw [pgRoundDown_toNat, pgRoundDown_toNat]
  omega

/-- `KERN_BASE` is the address of a page. -/
theorem isUserVaddr_pgRoundDown (va : Vaddr) : isUserVaddr (pgRoundDown va) = isUserVaddr va := by
  rw [Bool.eq_iff_iff, isUserVaddr_iff, isUserVaddr_iff, pgRoundDown_toNat]
  omega

theorem Accessing.memEnd (h : Accessing N s₀ s) : s.memEnd = s₀.memEnd := by
  have hm : s.still.memEnd = s₀.still.memEnd := by rw [h.still]
  exact hm

theorem Accessing.paged (h : Accessing N s₀ s) : s.Paged t va ↔ s₀.Paged t va := by
  unfold Vm.Paged
  rw [h.findPage, h.spt]

theorem Vm.mapped_kernel (h : isUserVaddr va = false) :
    s.mapped t va = decide ((pgRoundDown va).toNat < KERN_BASE.toNat + s.memEnd) := by
  rw [mapped, h]
  rfl

/-- A mapped user address has a present entry. -/
theorem Vm.mapped_user (h : isUserVaddr va = true) :
    s.mapped t va = true ↔ s.Present (space t (pgRoundDown va)) (pgRoundDown va) := by
  rw [mapped, if_pos h]
  unfold pte Present
  split
  · next hp =>
    rw [hp]
    exact ⟨nofun, by rintro ⟨_, ⟨⟩, _⟩⟩
  · next pte hp =>
    rw [hp]
    constructor
    · exact fun hpr => ⟨pte, rfl, hpr⟩
    · rintro ⟨_, ⟨⟩, hpr⟩
      exact hpr

/-- What is blocked stays blocked. -/
theorem Vm.Blocked.mapped (hb : s₀.Blocked t va) (h : Accessing (s₀.Paged t) s₀ s) : s.mapped t va = false := by
  obtain ⟨hm, hcov⟩ := hb
  cases hu : isUserVaddr va with
  | false =>
    rw [mapped_kernel hu] at hm ⊢
    rwa [h.memEnd]
  | true =>
    rw [← Bool.not_eq_true, mapped_user hu] at hm ⊢
    intro hp
    rcases h.ptes _ _ hp with hp | hp
    · exact hm hp
    · rcases hcov with hcov | hk
      · exact hcov hp
      · rw [hu] at hk
        cases hk

theorem Accessing.sound {q : PagePtr} (h : Accessing N s₀ s) (hq : s₀.Sound q) : s.Sound q := by
  intro page hpage
  obtain ⟨old, hold, hstill⟩ := h.page hpage
  have hva : page.still.va = old.still.va := by rw [hstill]
  have haux : page.still.aux = old.still.aux := by rw [hstill]
  have hva : page.va = old.va := hva
  have haux : page.aux = old.aux := haux
  rw [hva, haux, h.memEnd]
  exact hq old hold

/-- A page for an address that is not there is a user page. -/
theorem Vm.Sound.fine {q : PagePtr} (h : s.Sound q) (hm : s.mapped t va = false) (hq : s.At q (pgRoundDown va)) :
    s.Fine q := by
  intro page hpage
  obtain ⟨hal, hlt, haux⟩ := h page hpage
  have hva : page.va = pgRoundDown va := Vm.At.unique ⟨page, hpage, rfl⟩ hq
  refine ⟨⟨hal, ?_⟩, haux⟩
  rw [hva] at hlt ⊢
  by_contra hu
  rw [isUserVaddr_pgRoundDown, Bool.not_eq_true] at hu
  rw [mapped_kernel hu, decide_eq_false_iff_not] at hm
  exact hm hlt

theorem Vm.KernelStack.congr (h : s₀.KernelStack rsp) (ha : Accessing N s₀ s) : s.KernelStack rsp := by
  unfold KernelStack
  rwa [ha.memEnd]

/-- No page fault is taken right below the kernel's stack pointer. -/
theorem Vm.KernelStack.ne (h : s.KernelStack rsp) (hm : s.mapped t va = false) : va ≠ rsp - 8 := by
  rintro rfl
  rw [mapped_kernel h.1, decide_eq_false_iff_not] at hm
  exact hm h.2

/-! ## Page faults -/

theorem Claiming.of_accessing {s' : Vm} (h : Accessing (s₀.Paged t) s₀ s) (h' : Claiming (s.Paged t) s s') :
    Accessing (s₀.Paged t) s₀ s' := by
  refine .trans _ _ _ h ⟨h'.still, fun sp va hp => ?_, h'.brk⟩
  exact (h'.ptes sp va hp).imp_right h.paged.mp

/-- A page fault that does not let the stack grow brings the page of a user address, or the process exits. -/
theorem wp_pageFault (hm : s.mapped t va = false) (hne : va = rsp - 8 → s.Covered t va) :
    (pageFault t rsp va).wp (Claiming (s.Paged t) s) (AccessFault s)
      (fun _ s' => Claiming (s.Paged t) s s' ∧ s.Covered t va ∧ isUserVaddr va = true) s := by
  have hfind : s.findPage (pgRoundDown (pgRoundDown va)) (s.spt t) = s.findPage (pgRoundDown va) (s.spt t) := by
    rw [pgRoundDown_idem]
  refine Prog.wp_bind ?_
  rw [vmTryHandleFault, if_pos rfl]
  refine Prog.wp_bind <| Prog.wp_read (.refl _) nofun fun found hfound => ?_
  cases hfound
  rw [hfind]
  split
  · next hnone =>
    rw [if_neg fun h => hne h.2.2 hnone]
    refine Prog.wp_pure (.refl _) ?_
    exact Prog.wp_fail (.refl _) (.inl ⟨_, rfl⟩)
  · refine Prog.wp_mono (fun _ h => h) (fun _ he => .inr (he.mono fun hs q hq => ?_)) ?_
      (wp_vmClaimPage (.refl s) fun _ hq => ?_)
    · rintro claimed s' ⟨h', hclaimed⟩
      cases claimed with
      | false => exact Prog.wp_fail h' (.inl ⟨_, rfl⟩)
      | true =>
        obtain ⟨hcov, hu⟩ := hclaimed rfl
        rw [isUserVaddr_pgRoundDown] at hu
        exact Prog.wp_pure h' ⟨h', hcov, hu⟩
    · unfold Vm.Paged
      rw [hq]
      exact nofun
    · exact (hs q).fine hm (Vm.at_of_findPage hq)

theorem wp_fetch (hne : s.mapped t va = false → va = rsp - 8 → s.Covered t va) :
    (fetch t rsp va).wp (Claiming (s.Paged t) s) (AccessFault s)
      (fun _ s' => Claiming (s.Paged t) s s' ∧ ¬ s.Blocked t va) s := by
  refine Prog.wp_bind <| Prog.wp_read (.refl _) nofun fun mapped hmapped => ?_
  cases hmapped
  split
  · next hm => exact Prog.wp_pure (.refl _) ⟨.refl _, fun hb => absurd hb.1 (by rw [hm]; nofun)⟩
  · next hm =>
    have hm : s.mapped t va = false := by simpa using hm
    refine Prog.wp_mono (fun _ h => h) (fun _ h => h) ?_ (wp_pageFault hm (hne hm))
    rintro _ s' ⟨h', hcov, hu⟩
    refine ⟨h', fun hb => ?_⟩
    rcases hb.2 with h | h
    · exact h hcov
    · rw [hu] at h
      cases h

theorem Vm.Blocked.congr (hb : s₀.Blocked t va) (h : Accessing (s₀.Paged t) s₀ s) : s.Blocked t va :=
  ⟨hb.mapped h, hb.2.imp_left (mt h.paged.mp)⟩

end

/-! ## Stores and loads -/

/-- The kernel touched bytes of the buffer below `j` only. -/
structure Touching (s₀ : Vm) (t : Tid) (buffer : Vaddr) (j : Nat) (s : Vm) : Prop where
  accessing : Accessing (s₀.Paged t) s₀ s
  touched : ∀ va ∈ s.touched, va ∈ s₀.touched ∨ ∃ k < j, va = buffer + BitVec.ofNat 64 k

section

variable {s₀ s s' : Vm} {t : Tid} {rsp buffer : Vaddr} {len j k : Nat}

theorem Touching.refl (s : Vm) : Touching s t buffer j s := ⟨.refl s, fun _ => Or.inl⟩

theorem Touching.claiming (h : Touching s₀ t buffer j s) (h' : Claiming (s.Paged t) s s') :
    Touching s₀ t buffer j s' := ⟨Claiming.of_accessing h.accessing h', by rw [h'.touched]; exact h.touched⟩

/-- A byte below `j` is touched. -/
theorem Touching.touch (h : Touching s₀ t buffer j s) (hkj : k < j) (ha : Accessing (s.Paged t) s s')
    (ht : s'.touched = (buffer + BitVec.ofNat 64 k) :: s.touched) : Touching s₀ t buffer j s' := by
  refine ⟨.trans _ _ _ h.accessing ⟨ha.still, fun sp va hp => ?_, ha.brk⟩, fun va hva => ?_⟩
  · exact (ha.ptes sp va hp).imp_right h.accessing.paged.mp
  · rw [ht, List.mem_cons] at hva
    rcases hva with rfl | hva
    · exact .inr ⟨k, hkj, rfl⟩
    · exact h.touched va hva

theorem Accessing.accessFault {N : Vaddr → Prop} {e : VmFault} (h : Accessing N s₀ s) (he : AccessFault s e) :
    AccessFault s₀ e := by
  rcases he with he | he
  · exact .inl he
  · exact .inr (he.mono fun hq q => h.sound (hq q))

/-- The byte `k` is had, and is not the one that is blocked. -/
theorem wp_fetchByte (h : Touching s₀ t buffer j s) (hk : s₀.KernelStack rsp) (hkj : k ≤ j)
    (hstop : k < j ∨ s₀.Blocked t (buffer + BitVec.ofNat 64 j)) :
    (fetch t rsp (buffer + BitVec.ofNat 64 k)).wp (Touching s₀ t buffer j) (AccessFault s₀)
      (fun _ s' => Touching s₀ t buffer j s' ∧ k < j ∧ s'.input = s.input) s := by
  refine Prog.wp_mono (fun _ h' => h.claiming h') (fun _ he => h.accessing.accessFault he) ?_
    (wp_fetch fun hm he => absurd he ((hk.congr h.accessing).ne hm))
  rintro _ s' ⟨h', hb⟩
  refine ⟨h.claiming h', ?_, h'.input⟩
  rcases hstop with hlt | hstop
  · exact hlt
  · refine lt_of_le_of_ne hkj fun he => ?_
    subst he
    exact hb (hstop.congr h.accessing)

theorem accessing_store (s : Vm) (t : Tid) (va : Vaddr) (b : Byte) :
    Accessing (s.Paged t) s (s.store t va b) := by
  unfold Vm.store
  dsimp only
  split
  · split
    · exact .same rfl rfl le_rfl
    · next pte hpte =>
      have hpte' : s.pte t (pgRoundDown va) = some pte := hpte
      have hset : Moving (s.Paged t) s (s.setPte t (pgRoundDown va) { pte with dirty := true }) :=
        .setPte fun hp => .inl ⟨pte, hpte', hp⟩
      exact .trans _ _ _ hset.toAccessing (.same rfl rfl le_rfl)
  · exact .same rfl rfl le_rfl

theorem touched_store (s : Vm) (t : Tid) (va : Vaddr) (b : Byte) :
    (s.store t va b).touched = va :: s.touched ∧ (s.store t va b).input = s.input := by
  unfold Vm.store
  dsimp only
  split
  · split
    · exact ⟨rfl, rfl⟩
    · exact ⟨rfl, rfl⟩
  · exact ⟨rfl, rfl⟩

theorem wp_storeByte {b : Byte} (h : Touching s₀ t buffer j s) (hk : s₀.KernelStack rsp) (hkj : k ≤ j)
    (hstop : k < j ∨ s₀.Blocked t (buffer + BitVec.ofNat 64 j)) :
    (storeByte t rsp (buffer + BitVec.ofNat 64 k) b).wp (Touching s₀ t buffer j) (AccessFault s₀)
      (fun _ s' => Touching s₀ t buffer j s' ∧ k < j ∧ s'.input = s.input) s := by
  refine Prog.wp_bind <| Prog.wp_mono (fun _ h => h) (fun _ h => h) ?_ (wp_fetchByte h hk hkj hstop)
  rintro _ s₁ ⟨h₁, hlt, hin⟩
  refine Prog.wp_write h₁ (fun e he => ?_) (fun s' hs' => ?_)
  · split at he
    · cases he
    · cases he
      exact .plain trivial
  · split at hs'
    · cases hs'
      have h₂ := h₁.touch hlt (accessing_store s₁ t _ b) (touched_store s₁ t _ b).1
      exact ⟨h₂, h₂, hlt, (touched_store s₁ t _ b).2.trans hin⟩
    · cases hs'

theorem wp_loadByte (h : Touching s₀ t buffer j s) (hk : s₀.KernelStack rsp) (hkj : k ≤ j)
    (hstop : k < j ∨ s₀.Blocked t (buffer + BitVec.ofNat 64 j)) :
    (loadByte t rsp (buffer + BitVec.ofNat 64 k)).wp (Touching s₀ t buffer j) (AccessFault s₀)
      (fun _ s' => Touching s₀ t buffer j s' ∧ k < j) s := by
  refine Prog.wp_bind <| Prog.wp_mono (fun _ h => h) (fun _ h => h) ?_ (wp_fetchByte h hk hkj hstop)
  rintro _ s₁ ⟨h₁, hlt, -⟩
  refine Prog.wp_lift h₁ (fun e he => ?_) (fun b s' hs' => ?_)
  · split at he
    · cases he
    · cases he
      exact .plain trivial
  · split at hs'
    · cases hs'
      have h₂ : Touching s₀ t buffer j { s₁ with touched := (buffer + BitVec.ofNat 64 k) :: s₁.touched } :=
        h₁.touch hlt (.same rfl rfl le_rfl) rfl
      exact ⟨h₂, h₂, hlt⟩
    · cases hs'

theorem add_succ (buffer : Vaddr) (k : Nat) :
    buffer + BitVec.ofNat 64 k + 1 = buffer + BitVec.ofNat 64 (k + 1) := by
  rw [BitVec.ofNat_add, BitVec.add_assoc]
  rfl

/-- The bytes from `k` on, of a buffer of `len` bytes. -/
theorem wp_storeBytes (hk : s₀.KernelStack rsp) (hstop : len ≤ j ∨ s₀.Blocked t (buffer + BitVec.ofNat 64 j))
    (bytes : List Byte) (h : Touching s₀ t buffer j s) (hkj : k ≤ j) (hlen : k + bytes.length ≤ len) :
    (storeBytes t rsp (buffer + BitVec.ofNat 64 k) bytes).wp (Touching s₀ t buffer j) (AccessFault s₀)
      (fun _ s' => Touching s₀ t buffer j s' ∧ k + bytes.length ≤ j) s := by
  induction bytes generalizing s k with
  | nil => exact Prog.wp_pure h ⟨h, hkj⟩
  | cons b bytes ih =>
    rw [List.length_cons] at hlen ⊢
    refine Prog.wp_bind <| Prog.wp_mono (fun _ h => h) (fun _ h => h) ?_
      (wp_storeByte h hk hkj (hstop.imp_left fun hl => by omega))
    rintro _ s₁ ⟨h₁, hlt, -⟩
    rw [add_succ]
    have hnext := ih (s := s₁) (k := k + 1) h₁ hlt (by omega)
    rwa [Nat.add_right_comm] at hnext

theorem wp_loadBytes (hk : s₀.KernelStack rsp) (hstop : len ≤ j ∨ s₀.Blocked t (buffer + BitVec.ofNat 64 j))
    (n : Nat) (h : Touching s₀ t buffer j s) (hkj : k ≤ j) (hlen : k + n ≤ len) :
    (loadBytes t rsp n (buffer + BitVec.ofNat 64 k)).wp (Touching s₀ t buffer j) (AccessFault s₀)
      (fun _ s' => Touching s₀ t buffer j s' ∧ k + n ≤ j) s := by
  induction n generalizing s k with
  | zero => exact Prog.wp_pure h ⟨h, hkj⟩
  | succ n ih =>
    refine Prog.wp_bind <| Prog.wp_mono (fun _ h => h) (fun _ h => h) ?_
      (wp_loadByte h hk hkj (hstop.imp_left fun hl => by omega))
    rintro b s₁ ⟨h₁, hlt⟩
    rw [add_succ]
    refine Prog.wp_bind <| Prog.wp_mono (fun _ h => h) (fun _ h => h) ?_
      (ih (s := s₁) (k := k + 1) h₁ hlt (by omega))
    rintro bytes s₂ ⟨h₂, hle⟩
    exact Prog.wp_pure h₂ ⟨h₂, by omega⟩

end

/-! ## Sectors -/

section

variable {s₀ s s' : Vm} {t : Tid} {rsp buffer : Vaddr} {len j k : Nat}

theorem Accessing.setCapacity {N : Vaddr → Prop} (h : Accessing N s₀ s) (c : Nat) :
    Accessing N (s₀.setCapacity c) (s.setCapacity c) := by
  refine ⟨?_, h.ptes, h.brk⟩
  show s.still.setCapacity c = s₀.still.setCapacity c
  rw [h.still]

theorem Accessing.capacity {N : Vaddr → Prop} (h : Accessing N s₀ s) : s.fs.capacity = s₀.fs.capacity := by
  have hc : s.still.fs.capacity = s₀.still.fs.capacity := by rw [h.still]
  exact hc

theorem Vm.findPage_congr {va : Vaddr} (h : s'.pages = s.pages) (l : List PagePtr) :
    s'.findPage va l = s.findPage va l := by
  induction l with
  | nil => rfl
  | cons q rest ih =>
    unfold findPage
    rw [ih, h]

theorem Vm.paged_setCapacity (c : Nat) : (s.setCapacity c).Paged t = s.Paged t := by
  funext va
  have hfind : (s.setCapacity c).findPage va (s.spt t) = s.findPage va (s.spt t) :=
    findPage_congr (s := s) (by rfl) _
  show ((s.setCapacity c).findPage va (s.spt t) ≠ none) = (s.findPage va (s.spt t) ≠ none)
  rw [hfind]

theorem Vm.blocked_setCapacity (c : Nat) {va : Vaddr} : (s.setCapacity c).Blocked t va ↔ s.Blocked t va := by
  unfold Blocked Covered
  rw [paged_setCapacity]
  rfl

theorem Touching.setCapacity (h : Touching s₀ t buffer j s) (c : Nat) :
    Touching (s₀.setCapacity c) t buffer j (s.setCapacity c) := by
  refine ⟨?_, h.touched⟩
  rw [Vm.paged_setCapacity]
  exact h.accessing.setCapacity c

/-- The channel of the disk makes no difference to what is touched. -/
theorem wp_inChannel {α : Type} {p : VmProg α} {P : Prop} (h : Touching s₀ t buffer j s)
    (hp : p.wp (Touching (s₀.setCapacity 0) t buffer j) (AccessFault (s₀.setCapacity 0)) (fun _ _ => P)
      (s.setCapacity 0)) :
    (inChannel p).wp (Touching s₀ t buffer j) (AccessFault s₀) (fun _ s' => Touching s₀ t buffer j s' ∧ P) s := by
  refine Prog.wp_zoom (fun t' s' hs' => ?_) (fun t' s' ht' hs' => ?_) (fun e he => he)
    (fun a t' ht' hP => ⟨ht', hP⟩) h hp
  · have hcap : s'.fs.capacity = 0 := hs'.accessing.capacity
    show s'.setCapacity 0 = s'
    rw [← hcap]
    rfl
  · have hback := hs'.setCapacity s₀.fs.capacity
    rw [ht'.accessing.capacity]
    exact hback

/-- What a part that does not access the buffer does. -/
theorem wp_claiming {α β : Type} {p : VmProg α} {f : α → VmProg β} {Q : β → Vm → Prop}
    (hp : p.Does (Claiming (s.Paged t)) VmFault.Plain) (h : Touching s₀ t buffer j s)
    (hf : ∀ a s', Touching s₀ t buffer j s' → (f a).wp (Touching s₀ t buffer j) (AccessFault s₀) Q s') :
    (p >>= f).wp (Touching s₀ t buffer j) (AccessFault s₀) Q s := by
  refine Prog.wp_bind <| Prog.wp_mono (fun _ h' => h.claiming h') (fun _ he => .plain he)
    (fun a s' h' => hf a s' (h.claiming h')) (hp.wp .trans (.refl s))

theorem does_fs {α : Type} {p : FsProg α} {N : Vaddr → Prop} (hp : p.Does SameHandles FsFault.Plain) :
    (liftFs p).Does (Claiming N) VmFault.Plain := claiming (does_liftFs hp fun _ h => h)

theorem Vm.KernelStack.setCapacity (hk : s.KernelStack rsp) (c : Nat) : (s.setCapacity c).KernelStack rsp := hk

theorem stop_setCapacity {va : Vaddr} (hstop : len ≤ j ∨ s₀.Blocked t va) :
    len ≤ j ∨ (s₀.setCapacity 0).Blocked t va := hstop.imp_right (Vm.blocked_setCapacity 0).mpr

theorem does_bounceBuffer {sectorIdx sectorOfs chunk : Nat} :
    (bounceBuffer sectorIdx sectorOfs chunk).Does SameHandles FsFault.Plain := by
  unfold bounceBuffer
  split
  · exact does_diskRead fun _ bounce => bounce
  · exact .pure _

theorem wp_readToUser (hk : s₀.KernelStack rsp) (hstop : len ≤ j ∨ s₀.Blocked t (buffer + BitVec.ofNat 64 j))
    {sectorIdx sectorOfs chunk : Nat} (h : Touching s₀ t buffer j s) (hkj : k ≤ j) (hlen : k + chunk ≤ len) :
    (readToUser t rsp (buffer + BitVec.ofNat 64 k) sectorIdx sectorOfs chunk).wp (Touching s₀ t buffer j)
      (AccessFault s₀) (fun _ s' => Touching s₀ t buffer j s' ∧ k + chunk ≤ j) s := by
  refine wp_claiming (does_fs (does_diskRead fun _ sector => sector)) h fun sector s h => ?_
  split
  · next hfull =>
    have hcnt : (sectorBytes sector 0 DISK_SECTOR_SIZE).length = chunk := by rw [length_sectorBytes, hfull.2]
    generalize sectorBytes sector 0 DISK_SECTOR_SIZE = bytes at hcnt ⊢
    refine wp_inChannel h ?_
    have hw := wp_storeBytes (hk.setCapacity 0) (stop_setCapacity hstop) bytes (h.setCapacity 0) hkj
      (by rw [hcnt]; exact hlen)
    rw [hcnt] at hw
    exact Prog.wp_mono (fun _ h => h) (fun _ h => h) (fun _ _ h => h.2) hw
  · have hw := wp_storeBytes hk hstop (sectorBytes sector sectorOfs chunk) h hkj
      (by rw [length_sectorBytes]; exact hlen)
    rwa [length_sectorBytes] at hw

theorem wp_writeFromUser (hk : s₀.KernelStack rsp) (hstop : len ≤ j ∨ s₀.Blocked t (buffer + BitVec.ofNat 64 j))
    {sectorIdx sectorOfs chunk : Nat} (h : Touching s₀ t buffer j s) (hkj : k ≤ j) (hlen : k + chunk ≤ len) :
    (writeFromUser t rsp (buffer + BitVec.ofNat 64 k) sectorIdx sectorOfs chunk).wp (Touching s₀ t buffer j)
      (AccessFault s₀) (fun _ s' => Touching s₀ t buffer j s' ∧ k + chunk ≤ j) s := by
  have hdone : ∀ (bytes : FileSys → Sector) s, Touching s₀ t buffer j s ∧ k + chunk ≤ j →
      (liftFs (diskWrite sectorIdx bytes)).wp (Touching s₀ t buffer j) (AccessFault s₀)
        (fun _ s' => Touching s₀ t buffer j s' ∧ k + chunk ≤ j) s := by
    intro bytes s hs
    exact Prog.wp_mono (fun _ h' => hs.1.claiming h') (fun _ he => .plain he)
      (fun _ _ h' => ⟨hs.1.claiming h', hs.2⟩) ((does_fs does_diskWrite).wp .trans (.refl s))
  unfold writeFromUser
  split
  · refine wp_claiming (does_fs (.read .refl fun s e he => ?_)) h fun _ s h => ?_
    · split at he
      · cases he
      · cases he
        exact nofun
    · refine Prog.wp_bind <| Prog.wp_mono (fun _ h => h) (fun _ h => h) (fun bytes s' h' => hdone _ s' h')
        (wp_inChannel h ?_)
      exact Prog.wp_mono (fun _ h => h) (fun _ h => h) (fun _ _ h => h.2)
        (wp_loadBytes (hk.setCapacity 0) (stop_setCapacity hstop) chunk (h.setCapacity 0) hkj hlen)
  · refine wp_claiming (does_fs does_bounceBuffer) h fun bounce s h => ?_
    exact Prog.wp_bind <| Prog.wp_mono (fun _ h => h) (fun _ h => h) (fun bytes s' h' => hdone _ s' h')
        (wp_loadBytes hk hstop chunk h hkj hlen)

end

/-! ## Files -/

/-- The number of bytes that the loop of `inode_read_at` or `inode_write_at` copies. Without a bounce buffer
it stops at the first sector that it does not copy as a whole. -/
def movedBytes (d : InodeDisk) (bounce : Bool) (size offset : Nat) : Nat :=
  if bounce then transferred d size offset
  else if offset % DISK_SECTOR_SIZE = 0 then
    transferred d size offset / DISK_SECTOR_SIZE * DISK_SECTOR_SIZE
  else 0

section

variable {s₀ s s' : Vm} {t : Tid} {rsp buffer : Vaddr} {len j k : Nat} {bounce : Bool}

theorem chunkSize_neg {inode : Inode} {size offset : Nat} (h : inode.data.length ≤ offset) :
    chunkSize inode size offset ≤ 0 := by
  unfold chunkSize
  dsimp only
  split <;> split <;> omega

theorem movedBytes_end {d : InodeDisk} {size offset : Nat} (h : d.length ≤ offset) :
    movedBytes d bounce size offset = 0 := by
  have ht : transferred d size offset = 0 := by
    unfold transferred
    omega
  unfold movedBytes
  rw [ht]
  split
  · rfl
  · split <;> rfl

theorem movedBytes_zero (d : InodeDisk) (bounce : Bool) (offset : Nat) : movedBytes d bounce 0 offset = 0 := by
  have ht : transferred d 0 offset = 0 := by
    unfold transferred
    omega
  unfold movedBytes
  rw [ht]
  split
  · rfl
  · split <;> rfl

/-- A round that copies its bytes. -/
theorem movedBytes_round {inode : Inode} {size offset c : Nat} (h0 : 0 ≤ inode.data.length) (hsize : size ≠ 0)
    (hc : chunkSize inode size offset = c) (hpos : 0 < c)
    (hb : offset % DISK_SECTOR_SIZE = 0 ∧ c = DISK_SECTOR_SIZE ∨ bounce = true) :
    c ≤ size ∧ movedBytes inode.data bounce size offset =
      c + movedBytes inode.data bounce (size - c) (offset + c) := by
  rcases chunkSize_cases offset h0 hsize with ⟨-, hle⟩ | ⟨c', hlt, hc', -, hcs, hcl, -, -⟩
  · omega
  · obtain rfl : c = c' := by omega
    refine ⟨hcs, ?_⟩
    unfold movedBytes transferred DISK_SECTOR_SIZE at *
    rcases hb with ⟨hofs, rfl⟩ | rfl
    · split
      · omega
      · rw [if_pos (by omega)]
        omega
    · rw [if_pos rfl, if_pos rfl]
      omega

/-- A round for which there is no bounce buffer. -/
theorem movedBytes_stop {inode : Inode} {size offset c : Nat} (h0 : 0 ≤ inode.data.length) (hsize : size ≠ 0)
    (hc : chunkSize inode size offset = c) (hpos : 0 < c)
    (hb : ¬ (offset % DISK_SECTOR_SIZE = 0 ∧ c = DISK_SECTOR_SIZE)) :
    movedBytes inode.data false size offset = 0 := by
  rcases chunkSize_cases offset h0 hsize with ⟨-, hle⟩ | ⟨c', hlt, hc', -, hcs, hcl, hsec, hend⟩
  · omega
  · obtain rfl : c = c' := by omega
    unfold movedBytes transferred DISK_SECTOR_SIZE at *
    rw [if_neg nofun]
    split
    · omega
    · rfl

/-- A part that reads the file system. -/
theorem wp_fsRead {α : Type} {p : FsProg α} {P : α → Prop}
    (h : p.wp (· = s.fs) FsFault.Plain (fun a _ => P a) s.fs) :
    (liftFs p).wp (· = s) VmFault.Plain (fun a s' => s' = s ∧ P a) s := by
  unfold liftFs
  refine Prog.wp_zoom ?_ ?_ ?_ ?_ rfl h
  · exact fun _ _ _ => rfl
  · rintro t fs rfl rfl
    rfl
  · exact fun _ he => he
  · exact fun a t ht hP => ⟨ht, hP⟩

theorem wp_fsRead_bind {α β : Type} {p : FsProg α} {P : α → Prop} {f : α → VmProg β} {Q : β → Vm → Prop}
    (hp : p.wp (· = s.fs) FsFault.Plain (fun a _ => P a) s.fs) (h : Touching s₀ t buffer j s)
    (hf : ∀ a, P a → (f a).wp (Touching s₀ t buffer j) (AccessFault s₀) Q s) :
    (liftFs p >>= f).wp (Touching s₀ t buffer j) (AccessFault s₀) Q s := by
  refine Prog.wp_bind <| Prog.wp_mono (fun s' hs' => ?_) (fun _ he => .plain he) ?_ (wp_fsRead hp)
  · rw [hs']
    exact h
  · rintro a _ ⟨rfl, ha⟩
    exact hf a ha

theorem wp_derefInode {fs : FileSys} {p : InodePtr} :
    (derefInode p).wp (· = fs) FsFault.Plain (fun inode _ => fs.inodes p = some inode) fs := by
  refine Prog.wp_read rfl (fun e he => ?_) (fun inode hi => ?_)
  · split at he
    · cases he
      exact nofun
    · cases he
  · split at hi
    · cases hi
    · next hp =>
      cases hi
      exact hp

theorem wp_derefFile {fs : FileSys} {f : FilePtr} :
    (derefFile f).wp (· = fs) FsFault.Plain (fun file _ => fs.files f = some file) fs := by
  refine Prog.wp_read rfl (fun e he => ?_) (fun file hi => ?_)
  · split at he
    · cases he
      exact nofun
    · cases he
  · split at hi
    · cases hi
    · next hf =>
      cases hi
      exact hf

theorem Accessing.inodes {N : Vaddr → Prop} (h : Accessing N s₀ s) : s.fs.inodes = s₀.fs.inodes := by
  have hi : s.still.fs.inodes = s₀.still.fs.inodes := by rw [h.still]
  exact hi

/-- The loop copies `movedBytes`, none of which is the blocked byte. -/
theorem wp_userLoop {round : Vaddr → Nat → Nat → Nat → VmProg Unit} {p : InodePtr}
    (hround : ∀ {s : Vm} {k : Nat} {sectorIdx sectorOfs chunk : Nat}, Touching s₀ t buffer j s → k ≤ j →
      k + chunk ≤ len → (round (buffer + BitVec.ofNat 64 k) sectorIdx sectorOfs chunk).wp (Touching s₀ t buffer j)
        (AccessFault s₀) (fun _ s' => Touching s₀ t buffer j s' ∧ k + chunk ≤ j) s)
    (fuel : Nat) : ∀ {size offset n : Nat} {s : Vm}, Touching s₀ t buffer j s → n ≤ j → n + size ≤ len → size ≤ fuel →
      (userLoop p buffer bounce round fuel size offset n).wp (Touching s₀ t buffer j) (AccessFault s₀)
        (fun r s' => Touching s₀ t buffer j s' ∧ r ≤ j ∧
          ∀ inode, s₀.fs.inodes p = some inode → r = n + movedBytes inode.data bounce size offset) s := by
  induction fuel with
  | zero =>
    intro size offset n s h hn hlen hfuel
    obtain rfl : size = 0 := by omega
    exact Prog.wp_pure h ⟨h, hn, fun inode _ => by rw [movedBytes_zero]; rfl⟩
  | succ fuel ih =>
    intro size offset n s h hn hlen hfuel
    unfold userLoop
    split
    · next hsize =>
      subst hsize
      exact Prog.wp_pure h ⟨h, hn, fun inode _ => by rw [movedBytes_zero]; rfl⟩
    · next hsize =>
      refine wp_fsRead_bind wp_derefInode h fun inode hinode => ?_
      rw [h.accessing.inodes] at hinode
      dsimp only
      have hinode' : ∀ inode', s₀.fs.inodes p = some inode' → inode' = inode := fun inode' h' =>
        Option.some.inj (h'.symm.trans hinode)
      split
      · next hle =>
        refine Prog.wp_pure h ⟨h, hn, fun inode' h' => ?_⟩
        rw [hinode' inode' h']
        by_cases h0 : inode.data.length ≤ offset
        · rw [movedBytes_end h0]
          rfl
        · rcases chunkSize_cases offset (show 0 ≤ inode.data.length by omega) hsize with ⟨h1, -⟩ | ⟨c, -, hc, hpos, -⟩
          · exact absurd h1 h0
          · omega
      · next hle =>
        obtain ⟨c, hc⟩ := Int.eq_ofNat_of_zero_le (show 0 ≤ chunkSize inode size offset by omega)
        have h0 : 0 ≤ inode.data.length := by
          by_contra hneg
          exact hle (chunkSize_neg (by omega))
        rw [hc, Int.toNat_natCast]
        have hpos : 0 < c := by omega
        split
        · next hstop =>
          refine Prog.wp_pure h ⟨h, hn, fun inode' h' => ?_⟩
          rw [hinode' inode' h', hstop.2, movedBytes_stop h0 hsize hc hpos (by simpa using hstop.1)]
          rfl
        · next hgo =>
          have hb : offset % DISK_SECTOR_SIZE = 0 ∧ c = DISK_SECTOR_SIZE ∨ bounce = true := by
            by_cases hfull : offset % DISK_SECTOR_SIZE = 0 ∧ c = DISK_SECTOR_SIZE
            · exact .inl hfull
            · refine .inr ?_
              by_contra hb
              exact hgo ⟨by simpa using hfull, by simpa using hb⟩
          obtain ⟨hcs, hmoved⟩ := movedBytes_round h0 hsize hc hpos hb
          refine Prog.wp_bind <| Prog.wp_mono (fun _ h => h) (fun _ h => h) ?_ (hround h hn (by omega))
          rintro _ s₁ ⟨h₁, hn₁⟩
          have hrest : n + c + (size - c) ≤ len ∧ size - c ≤ fuel := by omega
          refine Prog.wp_mono (fun _ h => h) (fun _ h => h) ?_ (ih h₁ hn₁ hrest.1 hrest.2)
          rintro r s₂ ⟨h₂, hr, heq⟩
          refine ⟨h₂, hr, fun inode' h' => ?_⟩
          have hr' := heq inode' h'
          rw [hinode' inode' h'] at hr' ⊢
          omega

/-- The number of bytes that `file_read`, or `file_write`, copies. -/
def Vm.moved (s : Vm) (writes bounce : Bool) (f : FilePtr) (size : Nat) : Nat :=
  match s.fs.files f with
  | none => 0
  | some file =>
    match s.fs.inodes file.inode with
    | none => 0
    | some inode =>
      if writes ∧ inode.denyWriteCnt ≠ 0 then 0 else movedBytes inode.data bounce size file.pos

/-- The end of `file_read` and `file_write`. -/
theorem wp_advance {f : FilePtr} {n : Nat} {P : Prop} (h : Touching s₀ t buffer j s) (hP : P) :
    (do liftFs (advance f n); pure n : VmProg Nat).wp (Touching s₀ t buffer j) (AccessFault s₀)
      (fun _ s' => Touching s₀ t buffer j s' ∧ P) s :=
  wp_claiming (does_fs does_advance) h fun _ _ h => Prog.wp_pure h ⟨h, hP⟩

theorem wp_fileReadUser {f : FilePtr} {size : Int} (hk : s₀.KernelStack rsp)
    (hstop : len ≤ j ∨ s₀.Blocked t (buffer + BitVec.ofNat 64 j)) (h : Touching s₀ t buffer j s)
    (hfs : s.fs = s₀.fs) (hlen : size.toNat ≤ len) :
    (fileReadUser t rsp bounce f buffer size).wp (Touching s₀ t buffer j) (AccessFault s₀)
      (fun _ s' => Touching s₀ t buffer j s' ∧ s₀.moved false bounce f size.toNat ≤ j) s := by
  refine wp_fsRead_bind wp_derefFile h fun file hfile => ?_
  rw [hfs] at hfile
  refine Prog.wp_bind <| Prog.wp_mono (fun _ h => h) (fun _ h => h) ?_
    (wp_userLoop (wp_readToUser hk hstop) size.toNat h (Nat.zero_le j) (by omega) le_rfl)
  rintro r s₁ ⟨h₁, hr, heq⟩
  refine wp_advance h₁ ?_
  unfold Vm.moved
  rw [hfile]
  dsimp only
  split
  · exact Nat.zero_le j
  · next inode hinode =>
    rw [if_neg (by simp)]
    have hr' := heq inode hinode
    omega

theorem wp_fileWriteUser {f : FilePtr} {size : Int} (hk : s₀.KernelStack rsp)
    (hstop : len ≤ j ∨ s₀.Blocked t (buffer + BitVec.ofNat 64 j)) (h : Touching s₀ t buffer j s)
    (hfs : s.fs = s₀.fs) (hlen : size.toNat ≤ len) :
    (fileWriteUser t rsp bounce f buffer size).wp (Touching s₀ t buffer j) (AccessFault s₀)
      (fun _ s' => Touching s₀ t buffer j s' ∧ s₀.moved true bounce f size.toNat ≤ j) s := by
  refine wp_fsRead_bind wp_derefFile h fun file hfile => ?_
  refine wp_fsRead_bind wp_derefInode h fun inode hinode => ?_
  rw [hfs] at hfile hinode
  have hmoved : s₀.moved true bounce f size.toNat =
      if inode.denyWriteCnt ≠ 0 then 0 else movedBytes inode.data bounce size.toNat file.pos := by
    unfold Vm.moved
    simp only [hfile, hinode, true_and]
  rw [hmoved]
  split
  · exact Prog.wp_bind <| Prog.wp_pure h <| wp_advance h (Nat.zero_le j)
  · refine Prog.wp_bind <| Prog.wp_mono (fun _ h => h) (fun _ h => h) ?_
      (wp_userLoop (wp_writeFromUser hk hstop) size.toNat h (Nat.zero_le j) (by omega) le_rfl)
    rintro r s₁ ⟨h₁, hr, heq⟩
    refine wp_advance h₁ ?_
    have hr' := heq inode hinode
    omega

end

end Pintos
