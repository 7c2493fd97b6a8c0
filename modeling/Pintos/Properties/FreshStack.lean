import Pintos.Properties.StackGrowth
import Pintos.Userprog.Elf
import Pintos.Userprog.Loading
import Pintos.Vm.Frames

/-!
# What is in a new page of the stack

`setup_stack` and `vm_stack_growth` claim a page without an initializer of its own. Its frame comes from the user pool
or from a victim, and nothing on the way writes to it.

* `nextFrame` — the frame that a claim gets
* `of_vmGetFrame`, `of_claimFrame`, `contents_of_claim` — the new page shows what was in the frame
* `fresh_stack_iff` — **two states that differ in the old contents of frames show the same zeros if and only if the
  frame held zeros in both**
-/

namespace Pintos

open Function LittleEndian

/-! ## Frames and contents -/

/-- The frame at the front of `frame_list`. -/
def Vm.victimFrame (s : Vm) : Option Kva := (s.frameList.head?.bind s.frames).map Frame.kva

/-- The frame that `vm_get_frame` returns: the first that is free, or that of the victim. -/
def Vm.nextFrame (s : Vm) : Option Kva :=
  match bitmapScan s.userPool 0 1 false with
  | some kva => some kva
  | none => s.victimFrame

/-- What the thread reads in the page. -/
def Vm.contents (s : Vm) (t : Tid) (va : Vaddr) : Option (List Byte) :=
  (s.pte t va).bind fun pte => if pte.present then some (s.bytes pte.kva PGSIZE) else none

def zeroPage : List Byte := List.replicate PGSIZE 0

/-- The states differ only in what is in free frames and in the frame of the victim. -/
structure DifferInFrames (s u : Vm) : Prop where
  same : u = { s with mem := u.mem }
  frames : ∀ kva, u.mem kva ≠ s.mem kva → s.userPool[kva]? = some false ∨ s.victimFrame = some kva

/-- A round of the loop of `vm_stack_growth`. The result is `none` where the loop ends, or else what
`vm_claim_page` returns, which the loop does not look at. -/
def growthRound (t : Tid) (addr : Vaddr) : VmProg (Option Bool) := do
  let found ← sptFindPage t addr
  match found with
  | some _ => pure none
  | none => do
    let _ ← vmAllocPage t .anon addr true false none
    let claimed ← vmClaimPage t addr
    pure (some claimed)

/-- A new page of the stack is claimed. -/
inductive ClaimsStackPage (t : Tid) : Vaddr → Vm → Vm → Prop
  | setup {s s' : Vm} (h : (setupStack t).run s = .ok (true, s')) :
    ClaimsStackPage t (USER_STACK - BitVec.ofNat 64 PGSIZE) s s'
  | growth {va : Vaddr} {s s' : Vm} (hal : Aligned va) (h : (growthRound t va).run s = .ok (some true, s')) :
    ClaimsStackPage t va s s'

section

variable {s s' s₁ u u' : Vm} {t : Tid} {q : PagePtr} {f : FramePtr} {kva : Kva} {va : Vaddr} {page : Page} {b : Bool}

/-! ## Swapping out -/

/-- Memory, the pages and the frames are the same. -/
structure Quiet (s s' : Vm) : Prop where
  mem : s'.mem = s.mem
  pages : s'.pages = s.pages
  frames : s'.frames = s.frames

theorem Quiet.refl (s : Vm) : Quiet s s := ⟨rfl, rfl, rfl⟩

theorem Quiet.trans (s s₁ s' : Vm) (h : Quiet s s₁) (h' : Quiet s₁ s') : Quiet s s' :=
  ⟨h'.mem.trans h.mem, h'.pages.trans h.pages, h'.frames.trans h.frames⟩

theorem quiet_writeDirty : (writeDirty t page va).Does Quiet Any := by
  unfold writeDirty
  split
  · exact .pure _
  refine .bind (.read .refl fun _ _ _ => trivial) fun dirty => ?_
  split
  · refine .bind ?_ fun frame => ?_
    · cases page.frame with
      | none => exact .fail trivial
      | some f => exact .read .refl fun _ _ _ => trivial
    · unfold writeBack
      split
      · exact .fail trivial
      · refine .bind (.read .refl fun _ _ _ => trivial) fun _ => .bind ?_ fun _ => .pure _
        exact does_fileWriteAt.zoom (fun _ _ _ => ⟨rfl, rfl, rfl⟩) fun _ _ => trivial
  · exact .pure _

theorem quiet_pml4SetDirty {dirty : Bool} : (pml4SetDirty t va dirty).Does Quiet Any := by
  refine .write (fun s s' h => ?_) fun _ _ _ => trivial
  split at h
  · cases h
    exact .refl _
  · cases h
    exact ⟨rfl, rfl, rfl⟩

/-- Swapping a page out leaves memory and the other pages alone. It was initialized. -/
theorem quiet_of_swapOut (h : (swapOut t q).run s = .ok (b, s')) :
    (∃ page, s.pages q = some page ∧ page.operations ≠ .uninit) ∧ s'.mem = s.mem ∧ s'.frames = s.frames ∧
      ∀ q', q' ≠ q → s'.pages q' = s.pages q' := by
  obtain ⟨page, s₁, h₁, h⟩ := Prog.of_run_bind h
  obtain ⟨hpage, rfl⟩ := of_derefPage h₁
  split at h
  · rw [Prog.run_fail] at h
    cases h
  · next hop =>
    obtain ⟨page', f, frame, i, disk, -, -, -, -, -, -, -, rfl⟩ := of_anonSwapOut h
    refine ⟨⟨page, hpage, by rw [hop]; nofun⟩, rfl, rfl, fun q' hne => ?_⟩
    exact update_of_ne hne _ _
  · next hop =>
    obtain ⟨page', s₁, h₁, h⟩ := Prog.of_run_bind h
    obtain ⟨-, rfl⟩ := of_derefPage h₁
    obtain ⟨_, s₁, h₁, h⟩ := Prog.of_run_bind h
    have hq₁ : Quiet s s₁ := quiet_writeDirty.run .refl .trans h₁
    obtain ⟨_, s₂, h₂, h⟩ := Prog.of_run_bind h
    have hq₂ : Quiet s s₂ := .trans _ _ _ hq₁ (quiet_pml4SetDirty.run .refl .trans h₂)
    obtain ⟨_, s₃, h₃, h⟩ := Prog.of_run_bind h
    obtain ⟨-, -, rfl⟩ := of_pml4ClearPage h₃
    cases h
    rw [Vm.clearPte_eq]
    exact ⟨⟨page, hpage, by rw [hop]; nofun⟩, hq₂.mem, hq₂.frames, fun _ _ => by rw [← hq₂.pages]⟩

/-! ## A claim -/

/-- `vm_get_frame` returns the next frame and does not write to memory. -/
theorem of_vmGetFrame (hq : s.pages q = some page) (hun : page.operations = .uninit)
    (h : (vmGetFrame t).run s = .ok (f, s')) : ∃ kva, s.nextFrame = some kva ∧ s'.mem = s.mem ∧
      s'.pages q = some page ∧ s'.frames f = some { kva := kva, page := none } := by
  obtain ⟨got, s₁, h₁, h⟩ := Prog.of_run_bind h
  cases got with
  | some kva =>
    obtain ⟨hscan, rfl⟩ := of_pallocGetUser_some h₁
    obtain ⟨g, s₂, h₂, h⟩ := Prog.of_run_bind h
    obtain ⟨rfl, rfl⟩ := of_newFrame h₂
    obtain ⟨rfl, frame, hframe, rfl⟩ := of_addFrame h
    refine ⟨kva, by rw [Vm.nextFrame, hscan], rfl, hq, ?_⟩
    have hnew : update s.frames s.brk (some { kva := kva, page := none }) s.brk = some frame := hframe
    rw [update_self] at hnew
    obtain rfl := Option.some.inj hnew
    exact update_self _ _ _
  | none =>
    obtain ⟨hscan, rfl⟩ := of_pallocGetUser_none h₁
    obtain ⟨g, s₂, h₂, h⟩ := Prog.of_run_bind h
    obtain ⟨victim, s₃, h₃, h₂⟩ := Prog.of_run_bind h₂
    obtain ⟨hhead, rfl⟩ := of_vmGetVictim h₃
    obtain ⟨swapped, s₄, h₄, h₂⟩ := Prog.of_run_bind h₂
    obtain ⟨frame, q', hframe, hq', hout⟩ := of_swapOutVictim h₄
    obtain ⟨⟨page', hpage', hop⟩, hmem, hframes, hpages⟩ := quiet_of_swapOut hout
    obtain ⟨rfl, frame₁, q₁, page₁, hframe₁, hq₁, hpage₁, rfl⟩ := of_takeVictim h₂
    obtain ⟨rfl, frame₂, hframe₂, rfl⟩ := of_addFrame h
    rw [hframes, hframe] at hframe₁
    obtain rfl := Option.some.inj hframe₁
    obtain rfl := Option.some.inj (hq'.symm.trans hq₁)
    -- a page that was not initialized is no victim
    have hne : q ≠ q' := by
      rintro rfl
      obtain rfl := Option.some.inj (hq.symm.trans hpage')
      exact hop hun
    have hvictim : update s₄.frames victim (some { frame with page := none }) victim = some frame₂ := hframe₂
    rw [update_self] at hvictim
    obtain rfl := Option.some.inj hvictim
    refine ⟨frame.kva, ?_, hmem, ?_, update_self _ _ _⟩
    · rw [Vm.nextFrame, hscan]
      dsimp only
      rw [Vm.victimFrame, hhead, Option.bind_some, hframe]
      rfl
    · show update s₄.pages q' _ q = some page
      rw [update_of_ne hne, hpages q hne, hq]

/-- The new page of the stack is mapped to the frame, and its initializer does not write there. -/
theorem of_claimFrame (hq : s.pages q = some (uninitNew va false .anon none true))
    (hf : s.frames f = some { kva := kva, page := none }) (h : (claimFrame t q f).run s = .ok (true, s')) :
    s'.mem = s.mem ∧ s'.pte t va = some { kva := kva, present := true, writable := true, dirty := false } := by
  set page : Page := { uninitNew va false .anon none true with frame := some f } with hpage
  set s₁ := s.setFrame f (some { kva := kva, page := some q }) with hs₁
  set s₂ := s₁.setPage q (some page) with hs₂
  have hq₁ : s₁.pages q = some (uninitNew va false .anon none true) := hq
  have hq₂ : s₂.pages q = some page := update_self _ _ _
  have hf₂ : s₂.frames f = some { kva := kva, page := some q } := update_self _ _ _
  rw [claimFrame, Prog.run_bind_ok (run_updateFrame hf _), Prog.run_bind_ok (run_updatePage hq₁ _),
    Prog.run_bind_ok (run_derefPage hq₂), Prog.run_bind_ok (run_derefFrame hf₂)] at h
  obtain ⟨mapped, s₃, h₃, h⟩ := Prog.of_run_bind h
  obtain ⟨-, ⟨rfl, -⟩ | ⟨rfl, rfl⟩⟩ := of_pml4SetPage h₃
  · cases h
  -- the page is `VM_ANON`, and has no `init`
  set s₃ := s₂.asked.setPte t va { kva := kva, present := true, writable := true, dirty := false } with hs₃
  have hq₃ : s₃.pages q = some page := hq₂
  have hinit : (swapIn t q).run s₃ =
      .ok (true, s₃.setPage q (some { page with operations := .anon, swapSlot := -1 })) := by
    rw [swapIn, Prog.run_bind_ok (run_derefPage hq₃)]
    show (uninitInitialize q).run s₃ = _
    rw [uninitInitialize, Prog.run_bind_ok (run_derefPage hq₃)]
    show (anonInitializer q >>= _).run s₃ = _
    have hanon : (anonInitializer q).run s₃ =
        .ok (true, s₃.setPage q (some { page with operations := .anon, swapSlot := -1 })) := by
      rw [anonInitializer, Prog.run_bind_ok (run_updatePage hq₃ _)]
      rfl
    rw [Prog.run_bind_ok hanon]
    rfl
  rw [if_pos rfl] at h
  cases hinit.symm.trans h
  refine ⟨rfl, ?_⟩
  show (update s₂.asked.tables (space t va) _ (space t va)).lookup va = _
  rw [update_self, AList.lookup_insert]

/-- A page that was added is claimed. -/
theorem contents_of_added (hal : Aligned va)
    (h : (vmClaimPage t va).run (s.asked.addPage t (uninitNew va false .anon none true)) = .ok (true, s')) :
    ∃ kva, s.nextFrame = some kva ∧ s'.contents t va = some (s.bytes kva PGSIZE) := by
  set s₁ := s.asked.addPage t (uninitNew va false .anon none true) with hs₁
  have hq : s₁.pages s.brk = some (uninitNew va false .anon none true) := update_self _ _ _
  have hspt : s₁.spt t = s.brk :: s.spt t := update_self _ _ _
  have hfind : s₁.findPage va (s₁.spt t) = some s.brk := by
    rw [hspt, Vm.findPage, hq]
    exact if_pos rfl
  obtain ⟨found, s₂, h₂, h⟩ := Prog.of_run_bind h
  rw [run_sptFindPage, pgRoundDown_of_aligned hal, hfind] at h₂
  cases h₂
  obtain ⟨f, s₃, h₃, h⟩ := Prog.of_run_bind h
  obtain ⟨kva, hnext, hmem, hq₃, hf₃⟩ := of_vmGetFrame hq rfl h₃
  obtain ⟨hmem', hpte⟩ := of_claimFrame hq₃ hf₃ h
  refine ⟨kva, hnext, ?_⟩
  rw [Vm.contents, hpte, Option.bind_some, if_pos rfl, Vm.bytes, hmem', hmem]
  rfl

/-- **The new page shows what was in the frame.** -/
theorem contents_of_claim (h : ClaimsStackPage t va s s') :
    ∃ kva, s.nextFrame = some kva ∧ s'.contents t va = some (s.bytes kva PGSIZE) := by
  cases h with
  | setup h =>
    have hal : Aligned (USER_STACK - BitVec.ofNat 64 PGSIZE) := by decide
    obtain ⟨added, s₁, h₁, h⟩ := Prog.of_run_bind h
    split at h
    · next hadded =>
      rw [hadded] at h₁
      obtain ⟨-, -, rfl⟩ := of_vmAllocPage_true anon_ne_uninit hal h₁
      exact contents_of_added hal h
    · cases h
  | growth hal h =>
    obtain ⟨found, s₁, h₁, h⟩ := Prog.of_run_bind h
    rw [run_sptFindPage] at h₁
    cases h₁
    cases hfound : s.findPage (pgRoundDown va) (s.spt t) with
    | some q =>
      rw [hfound] at h
      cases h
    | none =>
      rw [hfound] at h
      obtain ⟨added, s₂, h₂, h⟩ := Prog.of_run_bind h
      obtain ⟨claimed, s₃, h₃, h⟩ := Prog.of_run_bind h
      cases h
      cases added with
      | true =>
        obtain ⟨-, -, rfl⟩ := of_vmAllocPage_true anon_ne_uninit hal h₂
        exact contents_of_added hal h₃
      | false =>
        -- the `struct page` was refused, and there is nothing to claim
        have hcov : ¬ s.Covered t va := not_not.mpr hfound
        cases ha : s.allocs 0 with
        | true =>
          rw [run_vmAllocPage anon_ne_uninit hal (by rwa [Vm.Covered, pgRoundDown_of_aligned hal] at hcov) ha] at h₂
          cases h₂
        | false =>
          rw [run_vmAllocPage_refused anon_ne_uninit hcov ha] at h₂
          cases h₂
          rw [run_vmClaimPage_refused hcov] at h₃
          cases h₃

/-- States that differ in the contents of frames claim the same frame. -/
theorem DifferInFrames.nextFrame (h : DifferInFrames s u) : u.nextFrame = s.nextFrame := by
  rw [h.same]
  rfl

/-- **Two claims from states that differ in the old contents of frames show the same zeros if and only if the frame that
they get held zeros in both.** -/
theorem fresh_stack_iff (hdiff : DifferInFrames s u) (hs : ClaimsStackPage t va s s')
    (hu : ClaimsStackPage t va u u') :
    (s'.contents t va = u'.contents t va ∧ s'.contents t va = some zeroPage) ↔
      ∃ kva, s.nextFrame = some kva ∧ s.bytes kva PGSIZE = zeroPage ∧ u.bytes kva PGSIZE = zeroPage := by
  obtain ⟨kva, hnext, hshown⟩ := contents_of_claim hs
  obtain ⟨kva', hnext', hshown'⟩ := contents_of_claim hu
  rw [hdiff.nextFrame, hnext] at hnext'
  obtain rfl := Option.some.inj hnext'
  rw [hshown, hshown', hnext]
  constructor
  · rintro ⟨heq, hzero⟩
    exact ⟨kva, rfl, Option.some.inj hzero, Option.some.inj (heq.symm.trans hzero)⟩
  · rintro ⟨kva', hkva, hzs, hzu⟩
    obtain rfl := Option.some.inj hkva
    rw [hzs, hzu]
    exact ⟨rfl, rfl⟩

end

theorem bytes_of_const {s : Vm} {kva : Kva} {b : Byte} (h : s.mem kva = fun _ => b) :
    s.bytes kva PGSIZE = List.replicate PGSIZE b := by
  rw [Vm.bytes, h, sectorBytes, List.map_const', List.length_range]

/-- A pool with two free frames. `rest` is what is left in the second. -/
def twoFree (rest : Byte) : Vm :=
  { Vm.boot (FileSys.boot (fun _ _ => 0) 0 ⟨0, []⟩ [] ⟨0, 0⟩) [false, false] 0 with
    mem := update (fun _ _ => 0) 1 fun _ => rest }

/-- The only frame belongs to a page of process 2, which has `secret` everywhere. -/
def secretVictim (secret : Byte) : Vm :=
  { Vm.boot (FileSys.boot (fun _ _ => 0) 0 ⟨0, []⟩ [] ⟨0, 0⟩) [true] 8 with
    mem := update (fun _ _ => 0) 0 fun _ => secret
    tables := update (fun _ => ∅) (some 2)
      (AList.singleton 0x400000 { kva := 0, present := true, writable := true, dirty := false })
    spt := update (fun _ => []) 2 [0]
    pages := update (fun _ => none) 0 (some
      { operations := .anon, va := 0x400000, frame := some 0, writable := true, init := false, type := .anon,
        aux := none, swapSlot := -1 })
    frames := update (fun _ => none) 0 (some { kva := 0, page := some 0 })
    frameList := [0]
    brk := 1 }

/-- `setup_stack` of process 1 returns true. -/
def setsUp (s : Vm) : Bool :=
  match (setupStack 1).run s with
  | .ok (true, _) => true
  | _ => false

theorem exists_claim {s : Vm} (h : setsUp s = true) :
    ∃ s', ClaimsStackPage 1 (USER_STACK - BitVec.ofNat 64 PGSIZE) s s' := by
  unfold setsUp at h
  split at h
  · next s' hs => exact ⟨s', .setup hs⟩
  · cases h

/-- What is in the second frame does not show. -/
theorem fresh_stack_iff_two : ∃ s' u',
    ClaimsStackPage 1 (USER_STACK - BitVec.ofNat 64 PGSIZE) (twoFree 0xcc) s' ∧
      ClaimsStackPage 1 (USER_STACK - BitVec.ofNat 64 PGSIZE) (twoFree 7) u' ∧
      s'.contents 1 (USER_STACK - BitVec.ofNat 64 PGSIZE) = u'.contents 1 (USER_STACK - BitVec.ofNat 64 PGSIZE) ∧
      s'.contents 1 (USER_STACK - BitVec.ofNat 64 PGSIZE) = some zeroPage := by
  obtain ⟨s', hs⟩ := exists_claim (show setsUp (twoFree 0xcc) = true by rfl)
  obtain ⟨u', hu⟩ := exists_claim (show setsUp (twoFree 7) = true by rfl)
  have hdiff : DifferInFrames (twoFree 0xcc) (twoFree 7) := by
    refine ⟨rfl, fun kva hne => .inl ?_⟩
    by_cases hkva : kva = 1
    · subst hkva
      rfl
    · refine absurd ?_ hne
      simp [twoFree, hkva]
  have hzero : ∀ rest, (twoFree rest).bytes 0 PGSIZE = zeroPage := fun _ => bytes_of_const rfl
  exact ⟨s', u', hs, hu, (fresh_stack_iff hdiff hs hu).mpr ⟨0, rfl, hzero _, hzero _⟩⟩

/-- **Process 1 reads in its stack what process 2 had in its page.** -/
theorem fresh_stack_leaks : ¬ ∀ (t : Tid) (va : Vaddr) (s u s' u' : Vm), DifferInFrames s u →
    ClaimsStackPage t va s s' → ClaimsStackPage t va u u' →
    s'.contents t va = u'.contents t va ∧ s'.contents t va = some zeroPage := by
  intro h
  obtain ⟨s', hs⟩ := exists_claim (show setsUp (secretVictim 1) = true by rfl)
  obtain ⟨u', hu⟩ := exists_claim (show setsUp (secretVictim 2) = true by rfl)
  have hdiff : DifferInFrames (secretVictim 1) (secretVictim 2) := by
    refine ⟨rfl, fun kva hne => .inr ?_⟩
    by_cases hkva : kva = 0
    · subst hkva
      rfl
    · refine absurd ?_ hne
      simp [secretVictim, hkva]
  obtain ⟨-, hzero⟩ := h _ _ _ _ s' u' hdiff hs hu
  obtain ⟨kva, hnext, hshown⟩ := contents_of_claim hs
  obtain rfl : 0 = kva := Option.some.inj hnext
  rw [hshown, bytes_of_const (show (secretVictim 1).mem 0 = fun _ => 1 from rfl)] at hzero
  have hone : (1 : Byte) = 0 := (List.replicate_right_inj (by decide)).mp (Option.some.inj hzero)
  exact absurd hone (by decide)

end Pintos
