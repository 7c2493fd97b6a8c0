import Pintos.Filesys.Directory
import Pintos.Lib.Machine
import Pintos.Vm.Vm

/-!
# Slots of the swap disk

Runs of `anon_swap_out`, `anon_swap_in` and `anon_destroy` on the anonymous pages of any processes.

* `SwapAction`, `swapStep` — the machine
* `SlotsAccounted` — the bits that are set are the slots of the pages that are swapped out
* `slots_accounted` — so it is in runs that destroy resident pages only
* `slot_lost_of_destroy` — a slot is lost as soon as another page is destroyed
-/

namespace Pintos

open Function Machine

/-! ## The machine -/

inductive SwapAction where
  /-- `vm_evict_frame` swaps a page out. -/
  | swapOut (t : Tid) (q : PagePtr)
  /-- `vm_do_claim_page` swaps a page in, with the frame it obtained. -/
  | swapIn (t : Tid) (q : PagePtr) (f : FramePtr)
  /-- `vm_dealloc_page`. -/
  | destroy (t : Tid) (q : PagePtr)

/-- `swap_out` of a page, whose frame is then taken away. -/
def evict (t : Tid) (q : PagePtr) (f : FramePtr) : VmProg Unit := do
  let _ ← anonSwapOut t q
  updatePage q fun page => { page with frame := none }
  updateFrame f fun frame => { frame with page := none }

/-- A page gets a frame, and `swap_in` fills it. -/
def claim (t : Tid) (q : PagePtr) (f : FramePtr) : VmProg Unit := do
  updateFrame f fun frame => { frame with page := some q }
  updatePage q fun page => { page with frame := some f }
  let _ ← anonSwapIn t q
  pure ()

/-- A page is swapped out only while it is resident, and in only while it is swapped out. -/
def swapStep (s : Vm) : SwapAction → Except VmFault Vm
  | .swapOut t q =>
    match s.pages q with
    | none => .error .disabled
    | some page =>
      match page.frame with
      | none => .error .disabled
      | some f =>
        if page.operations = .anon then resultState ((evict t q f).run s) else .error .disabled
  | .swapIn t q f =>
    match s.pages q, s.frames f with
    | some page, some frame =>
      if page.operations = .anon ∧ page.frame = none ∧ frame.page = none then
        resultState ((claim t q f).run s)
      else .error .disabled
    | _, _ => .error .disabled
  | .destroy t q =>
    match s.pages q with
    | none => .error .disabled
    | some page =>
      if page.operations = .anon then resultState ((vmDeallocPage t q).run s) else .error .disabled

/-! ## The property -/

/-- A live page that is swapped out. -/
def Vm.SwappedOut (s : Vm) (q : PagePtr) (page : Page) : Prop :=
  s.pages q = some page ∧ page.operations = .anon ∧ page.frame = none

structure SlotsAccounted (s : Vm) : Prop where
  bits : ∀ i : Nat, s.swapBitmap[i]? = some true ↔ ∃ q page, s.SwappedOut q page ∧ page.swapSlot.toNat = i
  distinct : ∀ q q' page page', s.SwappedOut q page → s.SwappedOut q' page' →
    page.swapSlot = page'.swapSlot → q = q'

/-- `vm_anon_init` ran, and every anonymous page is resident. -/
def SwapStart (s : Vm) : Prop :=
  (∃ s₀, vmAnonInit.run s₀ = .ok ((), s)) ∧
    ∀ q page, s.pages q = some page → page.operations = .anon → page.frame ≠ none

/-- No page is destroyed while it is swapped out. -/
def DestroysResident (s : Vm) : SwapAction → Prop
  | .destroy _ q => ∃ page, s.pages q = some page ∧ page.frame ≠ none
  | _ => True

/-! ## The invariant -/

/-- The numbers of the slots fit in a `disk_sector_t`. -/
structure SwapInv (s : Vm) : Prop where
  length : s.swapBitmap.length < 2 ^ 32
  slots : SlotsAccounted s

variable {s s' : Vm} {t : Tid} {q : PagePtr} {f : FramePtr} {page : Page}

theorem SwapStart.inv (h : SwapStart s) : SwapInv s := by
  obtain ⟨⟨s₀, hrun⟩, hres⟩ := h
  have hg := Prog.of_run_write hrun
  split at hg
  · next hsize =>
    cases hg
    have hnone : ∀ q page, ¬ Vm.SwappedOut { s₀ with
        swapBitmap := List.replicate (s₀.swapSize / 8) false, swapLock := none } q page :=
      fun q page hp => hres q page hp.1 hp.2.1 hp.2.2
    constructor
    · show (List.replicate (s₀.swapSize / 8) false).length < 2 ^ 32
      rw [List.length_replicate]
      omega
    · constructor
      · intro i
        constructor
        · intro hi
          have hmem := List.mem_of_getElem? hi
          simp at hmem
        · rintro ⟨q, page, hp, -⟩
          exact absurd hp (hnone q page)
      · exact fun q q' page page' hp => absurd hp (hnone q page)
  · cases hg

/-- What the step does to the pages and the bitmap when it swaps a page out. -/
theorem of_evict {u : Unit} (hq : s.pages q = some page) (h : (evict t q f).run s = .ok (u, s')) :
    ∃ i, bitmapScan s.swapBitmap 0 1 false = some i ∧ s'.swapBitmap = s.swapBitmap.set i true ∧
      s'.pages = update s.pages q (some { page with swapSlot := BitVec.ofNat 32 i, frame := none }) := by
  unfold evict at h
  obtain ⟨_, s₁, h₁, h⟩ := Prog.of_run_bind h
  obtain ⟨page', f', frame, i, disk, hpage, -, -, -, hscan, -, -, rfl⟩ := of_anonSwapOut h₁
  obtain rfl : page = page' := Option.some.inj (hq.symm.trans hpage)
  obtain ⟨_, s₂, h₂, h⟩ := Prog.of_run_bind h
  obtain ⟨page', hpage', rfl⟩ := of_updatePage h₂
  obtain ⟨frame', -, rfl⟩ := of_updateFrame h
  simp only [update_self, Option.some.injEq] at hpage'
  subst hpage'
  refine ⟨i, hscan, rfl, ?_⟩
  simp only [Vm.setPage, Vm.setFrame, update_idem]

/-- What the step does when it swaps a page in. -/
theorem of_claim {u : Unit} (hq : s.pages q = some page) (h : (claim t q f).run s = .ok (u, s')) :
    s'.swapBitmap = s.swapBitmap.set page.swapSlot.toNat false ∧
      s'.pages = update s.pages q (some { page with swapSlot := -1, frame := some f }) := by
  unfold claim at h
  obtain ⟨_, s₁, h₁, h⟩ := Prog.of_run_bind h
  obtain ⟨frame, -, rfl⟩ := of_updateFrame h₁
  obtain ⟨_, s₂, h₂, h⟩ := Prog.of_run_bind h
  obtain ⟨page', hpage', rfl⟩ := of_updatePage h₂
  obtain rfl : page = page' := Option.some.inj (hq.symm.trans hpage')
  obtain ⟨_, s₃, h₃, h⟩ := Prog.of_run_bind h
  obtain ⟨page'', f', frame', mem, hpage'', -, -, -, -, -, -, rfl⟩ := of_anonSwapIn h₃
  simp only [Vm.setPage, Vm.setFrame, update_self, Option.some.injEq] at hpage''
  subst hpage''
  cases h
  refine ⟨rfl, ?_⟩
  simp only [Vm.setPage, Vm.setFrame, update_idem]

/-- What the step does when a page is destroyed: the bitmap stays as it is. -/
theorem of_vmDeallocPage_anon {u : Unit} (hq : s.pages q = some page) (hop : page.operations = .anon)
    (h : (vmDeallocPage t q).run s = .ok (u, s')) :
    s'.swapBitmap = s.swapBitmap ∧ s'.pages = update s.pages q none := by
  unfold vmDeallocPage at h
  obtain ⟨_, s₁, h₁, h⟩ := Prog.of_run_bind h
  have hfree := Prog.of_run_write h
  cases hfree
  unfold destroy at h₁
  obtain ⟨page', s₂, h₂, h₁⟩ := Prog.of_run_bind h₁
  obtain ⟨hpage', rfl⟩ := of_derefPage h₂
  obtain rfl : page = page' := Option.some.inj (hq.symm.trans hpage')
  simp only [hop] at h₁
  obtain ⟨page', -, ⟨-, rfl⟩ | ⟨f, frame, -, -, rfl⟩⟩ := of_anonDestroy h₁
  · exact ⟨rfl, rfl⟩
  · refine ⟨rfl, ?_⟩
    simp only [Vm.setPage, update_idem]

/-! ## Steps -/

/-- Whether a page is swapped out, when one page was changed. -/
theorem Vm.swappedOut_of_update {q' : PagePtr} {page' : Page} {new : Option Page}
    (hp : s'.pages = update s.pages q new) :
    s'.SwappedOut q' page' ↔
      (q' = q ∧ new = some page' ∧ page'.operations = .anon ∧ page'.frame = none) ∨
        (q' ≠ q ∧ s.SwappedOut q' page') := by
  unfold SwappedOut
  rw [hp]
  by_cases hq : q' = q
  · subst hq
    simp
  · simp [hq]

theorem SwapInv.swapOut (h : SwapInv s) (hq : s.pages q = some page) (hop : page.operations = .anon)
    (hres : page.frame ≠ none) {i : Nat} (hscan : bitmapScan s.swapBitmap 0 1 false = some i)
    (hb : s'.swapBitmap = s.swapBitmap.set i true)
    (hp : s'.pages = update s.pages q (some { page with swapSlot := BitVec.ofNat 32 i, frame := none })) :
    SwapInv s' := by
  obtain ⟨-, hle, hfree⟩ := bitmapScan_some hscan
  have hbit : s.swapBitmap[i]? = some false := hfree i (by omega) (by omega)
  have hlen := h.length
  have hslot : (BitVec.ofNat 32 i).toNat = i := by
    rw [BitVec.toNat_ofNat, Nat.mod_eq_of_lt (by omega)]
  -- no page has the slot that was free
  have hnew : ∀ q' page', s.SwappedOut q' page' → page'.swapSlot ≠ BitVec.ofNat 32 i := by
    intro q' page' ho he
    have hset := (h.slots.bits i).mpr ⟨q', page', ho, by rw [he, hslot]⟩
    rw [hbit] at hset
    cases hset
  have hin : s'.SwappedOut q { page with swapSlot := BitVec.ofNat 32 i, frame := none } :=
    (Vm.swappedOut_of_update hp).mpr (.inl ⟨rfl, rfl, hop, rfl⟩)
  have hother : ∀ {q' page'}, s.SwappedOut q' page' → s'.SwappedOut q' page' := by
    intro q' page' ho
    refine (Vm.swappedOut_of_update hp).mpr (.inr ⟨?_, ho⟩)
    rintro rfl
    obtain rfl : page = page' := Option.some.inj (hq.symm.trans ho.1)
    exact hres ho.2.2
  constructor
  · rw [hb, List.length_set]
    exact hlen
  · constructor
    · intro j
      rw [hb, List.getElem?_set]
      by_cases hij : i = j
      · subst hij
        rw [if_pos rfl, if_pos (by omega)]
        exact ⟨fun _ => ⟨q, _, hin, hslot⟩, fun _ => rfl⟩
      · rw [if_neg hij, h.slots.bits j]
        constructor
        · rintro ⟨q', page', ho, hj⟩
          exact ⟨q', page', hother ho, hj⟩
        · rintro ⟨q', page', ho, hj⟩
          rcases (Vm.swappedOut_of_update hp).mp ho with ⟨-, hnew', -, -⟩ | ⟨-, ho⟩
          · cases hnew'
            exact absurd (hslot.symm.trans hj) hij
          · exact ⟨q', page', ho, hj⟩
    · intro q₁ q₂ page₁ page₂ h₁ h₂ he
      rcases (Vm.swappedOut_of_update hp).mp h₁ with ⟨rfl, hn₁, -, -⟩ | ⟨-, ho₁⟩ <;>
        rcases (Vm.swappedOut_of_update hp).mp h₂ with ⟨rfl, hn₂, -, -⟩ | ⟨-, ho₂⟩
      · rfl
      · cases hn₁
        exact absurd he.symm (hnew q₂ page₂ ho₂)
      · cases hn₂
        exact absurd he (hnew q₁ page₁ ho₁)
      · exact h.slots.distinct _ _ _ _ ho₁ ho₂ he

theorem SwapInv.swapIn (h : SwapInv s) (hq : s.SwappedOut q page)
    (hb : s'.swapBitmap = s.swapBitmap.set page.swapSlot.toNat false)
    (hp : s'.pages = update s.pages q (some { page with swapSlot := -1, frame := some f })) :
    SwapInv s' := by
  have hother : ∀ {q' page'}, s'.SwappedOut q' page' ↔ q' ≠ q ∧ s.SwappedOut q' page' := by
    intro q' page'
    rw [Vm.swappedOut_of_update hp]
    constructor
    · rintro (⟨-, hn, -, hnone⟩ | ho)
      · cases hn
        cases hnone
      · exact ho
    · exact .inr
  constructor
  · rw [hb, List.length_set]
    exact h.length
  · constructor
    · intro j
      rw [hb, List.getElem?_set]
      by_cases hj : page.swapSlot.toNat = j
      · -- only this page had the slot
        have hnot : ¬ (if j < s.swapBitmap.length then some false else none) = some true := by
          split <;> simp
        rw [if_pos hj]
        refine ⟨fun hc => absurd (hj ▸ hc) hnot, ?_⟩
        rintro ⟨q', page', ho, hj'⟩
        obtain ⟨hne, ho⟩ := hother.mp ho
        exact absurd (h.slots.distinct _ _ _ _ ho hq (BitVec.eq_of_toNat_eq (hj'.trans hj.symm))) hne
      · rw [if_neg hj, h.slots.bits j]
        constructor
        · rintro ⟨q', page', ho, hj'⟩
          refine ⟨q', page', hother.mpr ⟨?_, ho⟩, hj'⟩
          rintro rfl
          obtain rfl : page = page' := Option.some.inj (hq.1.symm.trans ho.1)
          exact hj hj'
        · rintro ⟨q', page', ho, hj'⟩
          exact ⟨q', page', (hother.mp ho).2, hj'⟩
    · intro q₁ q₂ page₁ page₂ h₁ h₂ he
      exact h.slots.distinct _ _ _ _ (hother.mp h₁).2 (hother.mp h₂).2 he

theorem SwapInv.destroy (h : SwapInv s) (hq : s.pages q = some page) (hres : page.frame ≠ none)
    (hb : s'.swapBitmap = s.swapBitmap) (hp : s'.pages = update s.pages q none) : SwapInv s' := by
  have hsame : ∀ {q' page'}, s'.SwappedOut q' page' ↔ s.SwappedOut q' page' := by
    intro q' page'
    rw [Vm.swappedOut_of_update hp]
    constructor
    · rintro (⟨-, hn, -, -⟩ | ⟨-, ho⟩)
      · cases hn
      · exact ho
    · intro ho
      refine .inr ⟨?_, ho⟩
      rintro rfl
      obtain rfl : page = page' := Option.some.inj (hq.symm.trans ho.1)
      exact hres ho.2.2
  constructor
  · rw [hb]
    exact h.length
  · constructor
    · intro j
      rw [hb, h.slots.bits j]
      simp only [hsame]
    · intro q₁ q₂ page₁ page₂ h₁ h₂
      exact h.slots.distinct _ _ _ _ (hsame.mp h₁) (hsame.mp h₂)

theorem of_swapStep_destroy (hs : swapStep s (.destroy t q) = .ok s') :
    ∃ page, s.pages q = some page ∧ page.operations = .anon ∧ s'.swapBitmap = s.swapBitmap ∧
      s'.pages = update s.pages q none := by
  simp only [swapStep] at hs
  split at hs
  · cases hs
  · next page hq =>
    split at hs
    · next hop =>
      obtain ⟨_, hrun⟩ := resultState_ok hs
      exact ⟨page, hq, hop, of_vmDeallocPage_anon hq hop hrun⟩
    · cases hs

theorem SwapInv.step (h : SwapInv s) {a : SwapAction} (hc : DestroysResident s a)
    (hs : swapStep s a = .ok s') : SwapInv s' := by
  cases a with
  | swapOut t q =>
    simp only [swapStep] at hs
    split at hs
    · cases hs
    · next page hq =>
      split at hs
      · cases hs
      · next f hf =>
        split at hs
        · next hop =>
          obtain ⟨_, hrun⟩ := resultState_ok hs
          obtain ⟨i, hscan, hb, hp⟩ := of_evict hq hrun
          exact h.swapOut hq hop (by rw [hf]; simp) hscan hb hp
        · cases hs
  | swapIn t q f =>
    simp only [swapStep] at hs
    split at hs
    · next page frame hq _ =>
      split at hs
      · next hc =>
        obtain ⟨_, hrun⟩ := resultState_ok hs
        obtain ⟨hb, hp⟩ := of_claim hq hrun
        exact h.swapIn ⟨hq, hc.1, hc.2.1⟩ hb hp
      · cases hs
    · cases hs
  | destroy t q =>
    obtain ⟨page, -, -, hb, hp⟩ := of_swapStep_destroy hs
    obtain ⟨page', hq', hres⟩ := hc
    exact h.destroy hq' hres hb hp

/-! ## The results -/

/-- **As long as only resident pages are destroyed, the slots in use are those of the pages that are
swapped out, each of one page.** -/
theorem slots_accounted {s₀ : Vm} (h₀ : SwapStart s₀) (h : Reach swapStep DestroysResident s₀ s) :
    SlotsAccounted s :=
  (h.invariant h₀.inv fun _ _ _ hi hc hs => hi.step hc hs).slots

/-- **A page that is destroyed while it is swapped out takes its slot with it.** -/
theorem slot_lost_of_destroy (h : SlotsAccounted s) (hc : ¬ DestroysResident s (.destroy t q))
    (hs : swapStep s (.destroy t q) = .ok s') : ¬ SlotsAccounted s' := by
  intro h'
  obtain ⟨page, hq, hop, hb, hp⟩ := of_swapStep_destroy hs
  have hout : s.SwappedOut q page := by
    refine ⟨hq, hop, ?_⟩
    by_contra hf
    exact hc ⟨page, hq, hf⟩
  have hset := (h.bits page.swapSlot.toNat).mpr ⟨q, page, hout, rfl⟩
  rw [← hb] at hset
  -- the bit is still set, so another page would have to have the slot
  obtain ⟨q', page', ho, he⟩ := (h'.bits _).mp hset
  rcases (Vm.swappedOut_of_update hp).mp ho with ⟨-, hn, -, -⟩ | ⟨hne, ho⟩
  · cases hn
  · exact hne (h.distinct _ _ _ _ ho hout (BitVec.eq_of_toNat_eq he))

/-- A swap disk with one slot, and a page at `0x400000` that is resident. -/
def oneSlot : Vm :=
  { Vm.boot (FileSys.boot (fun _ _ => 0) 0 ⟨0, []⟩ [] ⟨0, 0⟩) [true] 8 with
    spt := update (fun _ => []) 1 [0]
    pages := update (fun _ => none) 0 (some
      { operations := .anon, va := 0x400000, frame := some 1, writable := true, init := false, type := .anon,
        aux := none, swapSlot := -1 })
    frames := update (fun _ => none) 1 (some { kva := 0, page := some 0 })
    frameList := [1]
    brk := 2 }

theorem oneSlot_start : SwapStart oneSlot := by
  refine ⟨⟨oneSlot, rfl⟩, fun q page hq _ => ?_⟩
  by_cases h0 : q = 0
  · subst h0
    cases hq
    simp
  · simp [oneSlot, h0] at hq

/-- The check of a step that destroys nothing. -/
def noDestroy (_ : Vm) : SwapAction → Bool
  | .destroy _ _ => false
  | _ => true

theorem destroysResident_of_noDestroy (s : Vm) (a : SwapAction) (h : noDestroy s a = true) :
    DestroysResident s a := by
  cases a with
  | destroy t q => cases h
  | swapOut t q => trivial
  | swapIn t q f => trivial

/-- The page is swapped out, in and out again. -/
theorem slots_accounted_one : ∃ s, Reach swapStep DestroysResident oneSlot s ∧ SlotsAccounted s ∧
    s.swapBitmap = [true] := by
  have h : Reach swapStep DestroysResident oneSlot _ :=
    reach_of_execIf destroysResident_of_noDestroy [.swapOut 1 0, .swapIn 1 0 1, .swapOut 1 0] rfl
  exact ⟨_, h, slots_accounted oneSlot_start h, rfl⟩

/-- The page is destroyed while it is swapped out. -/
theorem slots_unaccounted_after_destroy :
    ∃ s₀, SwapStart s₀ ∧ ∃ s, Reach swapStep Always s₀ s ∧ ¬ SlotsAccounted s := by
  have h : Reach swapStep DestroysResident oneSlot _ :=
    reach_of_execIf destroysResident_of_noDestroy [.swapOut 1 0] rfl
  have hinv := h.invariant oneSlot_start.inv fun _ _ _ hi hc hs => hi.step hc hs
  refine ⟨oneSlot, oneSlot_start, _,
    .tail (a := .destroy 1 0) (h.mono fun _ _ _ => trivial) trivial rfl, ?_⟩
  refine slot_lost_of_destroy (t := 1) (q := 0) hinv.slots ?_ rfl
  rintro ⟨page, hq, hf⟩
  cases hq
  exact hf rfl

end Pintos
