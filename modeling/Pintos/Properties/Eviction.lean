import Pintos.Filesys.Directory
import Pintos.Lib.Machine
import Pintos.Vm.Frames

/-!
# Faults at the same time

Any number of threads run `vm_do_claim_page`. A thread that evicts a page may wait in `swap_out`, while
others go on.

* `Faults`, `Faults.step` — the machine
* `OnePerFrame` — no frame is chosen twice, and none is given to two
* `reach_of_vmDoClaimPage` — a thread that is not disturbed does what `vm_do_claim_page` does
* `one_eviction_per_frame` — so it is exactly as long as no two evictions are in progress
-/

namespace Pintos

open Function Machine LittleEndian

/-! ## The machine -/

/-- Where a thread is. -/
inductive FaultPc : Type 1
  | user
  /-- In `vm_evict_frame`, with what is left of `swap_out` of the victim's page. -/
  | swapping (q : PagePtr) (victim : FramePtr) (rest : VmProg Bool)

structure Faults : Type 1 where
  vm : Vm
  pc : Tid → FaultPc
  /-- The callers of `vm_get_frame` that were given the frame since it was last chosen. -/
  users : FramePtr → List Tid

inductive FaultAction where
  /-- A thread that does not handle a fault touches the page. -/
  | fault (t : Tid) (q : PagePtr)
  /-- A thread in `swap_out` goes on. -/
  | resume (t : Tid)

/-- What is done with a frame that was obtained. -/
def serve (t : Tid) (q : PagePtr) (get : VmProg FramePtr) : VmProg FramePtr := do
  let f ← get
  let f ← addFrame f
  let _ ← claimFrame t q f
  pure f

/-- The frame is obtained and used. -/
def Faults.finish (s : Faults) (t : Tid) (q : PagePtr) (get : VmProg FramePtr) : Except VmFault Faults :=
  match (serve t q get).run s.vm with
  | .error e => .error e
  | .ok (f, vm) => .ok { vm := vm, pc := update s.pc t .user, users := update s.users f (t :: s.users f) }

def Faults.step (s : Faults) : FaultAction → Except VmFault Faults
  | .fault t q =>
    match s.pc t with
    | .swapping _ _ _ => .error .disabled
    | .user =>
      match pallocGetUser.run s.vm with
      | .error e => .error e
      | .ok (some kva, vm) => { s with vm := vm }.finish t q (newFrame kva)
      | .ok (none, vm) =>
        match vmGetVictim.run vm with
        | .error e => .error e
        | .ok (victim, vm) =>
          .ok { vm := vm, pc := update s.pc t (.swapping q victim (swapOutVictim t victim)),
                users := update s.users victim [] }
  | .resume t =>
    match s.pc t with
    | .user => .error .disabled
    | .swapping q victim (.ret swapped) => s.finish t q (takeVictim victim swapped)
    | .swapping q victim (.act g k) =>
      match g s.vm with
      | .error e => .error e
      | .ok (b, vm) => .ok { s with vm := vm, pc := update s.pc t (.swapping q victim (k b)) }

/-! ## The property -/

structure OnePerFrame (s : Faults) : Prop where
  chosen : ∀ t t' q q' f rest rest', s.pc t = .swapping q f rest → s.pc t' = .swapping q' f rest' → t = t'
  used : ∀ f, (s.users f).length ≤ 1

/-- No thread handles a fault. -/
def FaultsStart (s : Faults) : Prop :=
  (∀ t, s.pc t = .user) ∧ (∀ f, s.users f = []) ∧ ∀ f ∈ s.vm.frameList, f < s.vm.brk

/-- A fault that finds the user pool empty comes only while no thread is in `swap_out`. -/
def Serial (s : Faults) : FaultAction → Prop
  | .fault _ _ => bitmapScan s.vm.userPool 0 1 false = none → ∀ t, s.pc t = .user
  | .resume _ => True

/-! ## Frames -/

section

variable {s s' : Vm} {t : Tid} {q : PagePtr} {f r : FramePtr}

/-- The frame that was obtained goes to the back of the list. -/
theorem of_serve {get : VmProg FramePtr} (h : (serve t q get).run s = .ok (f, s')) :
    ∃ s₁, get.run s = .ok (f, s₁) ∧ s'.frameList = s₁.frameList ++ [f] ∧ s'.brk = s₁.brk := by
  unfold serve at h
  obtain ⟨f₁, s₁, h₁, h⟩ := Prog.of_run_bind h
  obtain ⟨f₂, s₂, h₂, h⟩ := Prog.of_run_bind h
  obtain ⟨rfl, frame, -, hs₂⟩ := of_addFrame h₂
  obtain ⟨b, s₃, h₃, h⟩ := Prog.of_run_bind h
  have hpage : Moving Any s₂ s₃ := does_claimFrame.run .refl .trans h₃
  rw [hs₂] at hpage
  cases h
  exact ⟨s₁, h₁, hpage.frameList, hpage.brk_eq⟩

end

/-! ## A fault that is handled alone -/

section

variable {s : Faults} {t : Tid} {q : PagePtr} {victim : FramePtr} {vm : Vm}

/-- The thread goes through `swap_out`. -/
theorem reach_of_rest {rest : VmProg Bool} {b : Bool} (hpc : s.pc t = .swapping q victim rest)
    (h : rest.run s.vm = .ok (b, vm)) :
    Reach Faults.step Always s { s with vm := vm, pc := update s.pc t (.swapping q victim (.ret b)) } := by
  induction rest generalizing s with
  | ret a =>
    cases h
    rw [← hpc, update_eq_self]
    exact .refl
  | act g k ih =>
    rw [Prog.run] at h
    split at h
    · cases h
    · next c vm₁ hg =>
      have hstep : s.step (.resume t) =
          .ok { s with vm := vm₁, pc := update s.pc t (.swapping q victim (k c)) } := by
        simp only [Faults.step, hpc, hg]
      have hrest := ih c (s := { s with vm := vm₁, pc := update s.pc t (.swapping q victim (k c)) })
        (update_self ..) h
      simp only [update_idem] at hrest
      exact (Reach.tail .refl trivial hstep).trans hrest

/-- The frame is obtained, and the page is claimed. -/
theorem finish_of_run {get : VmProg FramePtr} {b : Bool}
    (h : (get >>= fun f => addFrame f >>= fun f => claimFrame t q f).run s.vm = .ok (b, vm)) :
    ∃ s', s.finish t q get = .ok s' ∧ s'.vm = vm ∧ s'.pc = update s.pc t .user := by
  obtain ⟨f, s₁, h₁, h⟩ := Prog.of_run_bind h
  obtain ⟨f', s₂, h₂, h₃⟩ := Prog.of_run_bind h
  have hserve : (serve t q get).run s.vm = .ok (f', vm) := by
    unfold serve
    rw [Prog.run_bind_ok h₁, Prog.run_bind_ok h₂, Prog.run_bind_ok h₃]
    rfl
  refine ⟨{ vm := vm, pc := update s.pc t .user, users := update s.users f' (t :: s.users f') }, ?_, rfl, rfl⟩
  rw [Faults.finish, hserve]

/-- A thread that is not disturbed does what `vm_do_claim_page` does. -/
theorem reach_of_vmDoClaimPage {b : Bool} (hpc : s.pc t = .user)
    (h : (vmDoClaimPage t q).run s.vm = .ok (b, vm)) :
    ∃ s', Reach Faults.step Always s s' ∧ s'.vm = vm ∧ s'.pc = s.pc := by
  have hsame : update s.pc t .user = s.pc := update_eq_self_iff.mpr hpc.symm
  unfold vmDoClaimPage at h
  obtain ⟨f, s₁, h₁, h⟩ := Prog.of_run_bind h
  unfold vmGetFrame at h₁
  obtain ⟨kva, s₂, h₂, h₁⟩ := Prog.of_run_bind h₁
  cases kva with
  | some kva =>
    obtain ⟨f₀, s₃, h₃, h₁⟩ := Prog.of_run_bind h₁
    have hrun : (newFrame kva >>= fun f => addFrame f >>= fun f => claimFrame t q f).run s₂ = .ok (b, vm) := by
      rw [Prog.run_bind_ok h₃, Prog.run_bind_ok h₁, h]
    obtain ⟨s', hs', hvm, hpc'⟩ := finish_of_run (s := { s with vm := s₂ }) hrun
    refine ⟨s', .tail (a := .fault t q) .refl trivial ?_, hvm, hpc'.trans hsame⟩
    simp only [Faults.step, hpc, h₂]
    exact hs'
  | none =>
    obtain ⟨f₀, s₃, h₃, h₁⟩ := Prog.of_run_bind h₁
    unfold vmEvictFrame at h₃
    obtain ⟨victim, s₄, h₄, h₃⟩ := Prog.of_run_bind h₃
    obtain ⟨swapped, s₅, h₅, h₃⟩ := Prog.of_run_bind h₃
    have hchoose : s.step (.fault t q) = .ok
        { vm := s₄, pc := update s.pc t (.swapping q victim (swapOutVictim t victim)),
          users := update s.users victim [] } := by
      simp only [Faults.step, hpc, h₂, h₄]
    have hrest : Reach Faults.step Always
        { vm := s₄, pc := update s.pc t (.swapping q victim (swapOutVictim t victim)),
          users := update s.users victim [] } _ := reach_of_rest (update_self ..) h₅
    have hrun : (takeVictim victim swapped >>= fun f => addFrame f >>= fun f => claimFrame t q f).run s₅ =
        .ok (b, vm) := by
      rw [Prog.run_bind_ok h₃, Prog.run_bind_ok h₁, h]
    simp only [update_idem] at hrest
    obtain ⟨s', hs', hvm, hpc'⟩ := finish_of_run
      (s := { vm := s₅, pc := update s.pc t (.swapping q victim (.ret swapped)),
              users := update s.users victim [] }) hrun
    refine ⟨s', .tail ((Reach.tail .refl trivial hchoose).trans hrest) trivial
      (a := .resume t) ?_, hvm, ?_⟩
    · simp only [Faults.step, update_self]
      exact hs'
    · rw [hpc']
      simp only [update_idem]
      exact hsame

end

/-! ## The invariant -/

structure FaultsInv (s : Faults) : Prop where
  below : ∀ f ∈ s.vm.frameList, f < s.vm.brk
  known : ∀ f, s.users f ≠ [] → f < s.vm.brk
  used : ∀ f, (s.users f).length ≤ 1
  one : ∀ t t', s.pc t ≠ .user → s.pc t' ≠ .user → t = t'
  /-- The victim stays at the front of the list, and nobody uses it. -/
  victim : ∀ t q f rest, s.pc t = .swapping q f rest →
    s.vm.frameList.head? = some f ∧ s.users f = [] ∧ rest.Does (Moving Any) VmFault.Plain

variable {s s' : Faults} {t : Tid} {q : PagePtr}

theorem FaultsStart.inv (h : FaultsStart s) : FaultsInv s where
  below := h.2.2
  known := fun f hf => absurd (h.2.1 f) hf
  used := fun f => by rw [h.2.1 f]; exact Nat.zero_le 1
  one := fun t _ ht => absurd (h.1 t) ht
  victim := fun t q f rest ht => by rw [h.1 t] at ht; cases ht

/-- A frame that nobody uses is given to the thread. -/
theorem FaultsInv.used_cons (h : FaultsInv s) {f : FramePtr} (hf : s.users f = []) (g : FramePtr) :
    (update s.users f (t :: s.users f) g).length ≤ 1 := by
  by_cases hg : g = f
  · subst hg
    rw [update_self, hf]
    exact Nat.le_refl 1
  · rw [update_of_ne hg]
    exact h.used g

/-- A fault that finds a free page of the pool. -/
theorem FaultsInv.new (h : FaultsInv s) (hpc : s.pc t = .user) {kva : Kva} {vm : Vm}
    (hpool : pallocGetUser.run s.vm = .ok (some kva, vm))
    (hs : Faults.finish { s with vm := vm } t q (newFrame kva) = .ok s') : FaultsInv s' := by
  have hsame : update s.pc t .user = s.pc := update_eq_self_iff.mpr hpc.symm
  have hvm : vm.frameList = s.vm.frameList ∧ vm.brk = s.vm.brk := by
    obtain ⟨-, rfl⟩ := of_pallocGetUser_some hpool
    exact ⟨rfl, rfl⟩
  unfold Faults.finish at hs
  split at hs
  · cases hs
  · next f vm' hrun =>
    obtain ⟨s₁, h₁, hl, hb⟩ := of_serve hrun
    obtain ⟨hf, rfl⟩ := of_newFrame h₁
    have hf : f = s.vm.brk := hf.symm.trans hvm.2
    have hl : vm'.frameList = s.vm.frameList ++ [f] := by rw [hl, ← hvm.1]
    have hb : vm'.brk = s.vm.brk + 1 := by rw [hb, ← hf]
    -- the pointer is new, so nobody knows it
    have hnew : s.users f = [] := by
      by_contra hc
      have hlt := h.known f hc
      rw [hf] at hlt
      exact Nat.lt_irrefl _ hlt
    cases hs
    constructor
    · intro g hg
      show g < vm'.brk
      change g ∈ vm'.frameList at hg
      rw [hl, List.mem_append, List.mem_singleton] at hg
      rw [hb]
      rcases hg with hg | rfl
      · exact Nat.lt_succ_of_lt (h.below g hg)
      · rw [hf]
        exact Nat.lt_succ_self _
    · intro g hg
      show g < vm'.brk
      change update s.users f (t :: s.users f) g ≠ [] at hg
      rw [hb]
      by_cases hgf : g = f
      · rw [hgf, hf]
        exact Nat.lt_succ_self _
      · rw [update_of_ne hgf] at hg
        exact Nat.lt_succ_of_lt (h.known g hg)
    · exact h.used_cons hnew
    · intro t₁ t₂ h₁ h₂
      change update s.pc t .user t₁ ≠ _ at h₁
      change update s.pc t .user t₂ ≠ _ at h₂
      rw [hsame] at h₁ h₂
      exact h.one t₁ t₂ h₁ h₂
    · intro t₁ q₁ g rest ht
      change update s.pc t .user t₁ = _ at ht
      rw [hsame] at ht
      obtain ⟨hhead, hfree, hkeep⟩ := h.victim t₁ q₁ g rest ht
      refine ⟨?_, ?_, hkeep⟩
      · show vm'.frameList.head? = some g
        rw [hl, List.head?_append, hhead]
        rfl
      · have hlt := h.below g (List.mem_of_mem_head? hhead)
        show update s.users f (t :: s.users f) g = []
        rw [update_of_ne, hfree]
        rintro rfl
        rw [hf] at hlt
        exact Nat.lt_irrefl _ hlt

/-- A fault that starts an eviction. -/
theorem FaultsInv.choose (h : FaultsInv s) (hall : ∀ t, s.pc t = .user) {victim : FramePtr}
    (hhead : s.vm.frameList.head? = some victim) :
    FaultsInv { s with
      pc := update s.pc t (.swapping q victim (swapOutVictim t victim))
      users := update s.users victim [] } := by
  have hother : ∀ t', update s.pc t (.swapping q victim (swapOutVictim t victim)) t' ≠ .user → t' = t := by
    intro t' ht'
    by_contra hne
    rw [update_of_ne hne] at ht'
    exact ht' (hall t')
  constructor
  · exact h.below
  · intro f hf
    by_cases hfv : f = victim
    · subst hfv
      exact absurd (update_self ..) hf
    · simp only [update_of_ne hfv] at hf
      exact h.known f hf
  · intro f
    by_cases hfv : f = victim
    · subst hfv
      simp only [update_self]
      exact Nat.zero_le 1
    · simp only [update_of_ne hfv]
      exact h.used f
  · exact fun t₁ t₂ h₁ h₂ => (hother t₁ h₁).trans (hother t₂ h₂).symm
  · intro t₁ q₁ f rest ht
    simp only at ht
    have ht₁ : t₁ = t := hother t₁ (by rw [ht]; exact nofun)
    subst ht₁
    rw [update_self] at ht
    cases ht
    exact ⟨hhead, update_self .., does_swapOutVictim⟩

/-- The end of an eviction. -/
theorem FaultsInv.evicted (h : FaultsInv s) {victim : FramePtr} {rest : VmProg Bool} {swapped : Bool}
    (hpc : s.pc t = .swapping q victim rest) (hs : s.finish t q (takeVictim victim swapped) = .ok s') :
    FaultsInv s' := by
  unfold Faults.finish at hs
  split at hs
  · cases hs
  · next f vm' hrun =>
    obtain ⟨s₁, h₁, hl, hb⟩ := of_serve hrun
    obtain ⟨rfl, _, _, _, -, -, -, rfl⟩ := of_takeVictim h₁
    obtain ⟨hhead, hfree, -⟩ := h.victim t q victim rest hpc
    have hlt := h.below victim (List.mem_of_mem_head? hhead)
    have hall : ∀ t', update s.pc t .user t' = .user := by
      intro t'
      by_cases ht' : t' = t
      · subst ht'
        rw [update_self]
      · rw [update_of_ne ht']
        by_contra hc
        exact ht' (h.one t' t hc (by rw [hpc]; exact nofun))
    cases hs
    constructor
    · intro g hg
      simp only at hg ⊢
      rw [hl, List.mem_append, List.mem_singleton] at hg
      rw [hb]
      rcases hg with hg | rfl
      · exact h.below g (List.mem_of_mem_erase hg)
      · exact hlt
    · intro g hg
      simp only at hg ⊢
      rw [hb]
      by_cases hgf : g = victim
      · rw [hgf]
        exact hlt
      · rw [update_of_ne hgf] at hg
        exact h.known g hg
    · exact h.used_cons hfree
    · exact fun t₁ _ h₁ => absurd (hall t₁) h₁
    · intro t₁ q₁ g rest ht
      simp only [hall t₁] at ht
      cases ht

/-- An action of `swap_out`. -/
theorem FaultsInv.act (h : FaultsInv s) {victim : FramePtr} {β : Type} {g : Vm → Except VmFault (β × Vm)}
    {k : β → VmProg Bool} {b : β} {vm : Vm} (hpc : s.pc t = .swapping q victim (.act g k))
    (hg : g s.vm = .ok (b, vm)) :
    FaultsInv { s with vm := vm, pc := update s.pc t (.swapping q victim (k b)) } := by
  obtain ⟨hhead, hfree, hkeep⟩ := h.victim t q victim _ hpc
  have hpage : Moving Any s.vm vm := by
    cases hkeep with
    | act hf _ _ => exact hf _ _ _ hg
  have hne : ∀ t', update s.pc t (.swapping q victim (k b)) t' ≠ .user → s.pc t' ≠ .user := by
    intro t' ht'
    by_cases htt : t' = t
    · subst htt
      rw [hpc]
      exact nofun
    · rwa [update_of_ne htt] at ht'
  constructor
  · intro f hf
    simp only [hpage.frameList] at hf
    simp only [hpage.brk_eq]
    exact h.below f hf
  · intro f hf
    simp only [hpage.brk_eq]
    exact h.known f hf
  · exact h.used
  · exact fun t₁ t₂ h₁ h₂ => h.one t₁ t₂ (hne t₁ h₁) (hne t₂ h₂)
  · intro t₁ q₁ f rest ht
    simp only [hpage.frameList] at ht ⊢
    by_cases htt : t₁ = t
    · subst htt
      rw [update_self] at ht
      cases ht
      refine ⟨hhead, hfree, ?_⟩
      cases hkeep with
      | act _ _ hk => exact hk b
    · rw [update_of_ne htt] at ht
      exact h.victim t₁ q₁ f rest ht

theorem FaultsInv.step (h : FaultsInv s) {a : FaultAction} (hc : Serial s a) (hs : s.step a = .ok s') :
    FaultsInv s' := by
  cases a with
  | fault t q =>
    simp only [Faults.step] at hs
    split at hs
    · cases hs
    · next hpc =>
      split at hs
      · cases hs
      · next hrun => exact h.new hpc hrun hs
      · next vm hrun =>
        obtain ⟨hscan, rfl⟩ := of_pallocGetUser_none hrun
        split at hs
        · cases hs
        · next victim vm hvictim =>
          obtain ⟨hhead, rfl⟩ := of_vmGetVictim hvictim
          cases hs
          exact h.choose (hc hscan) hhead
  | resume t =>
    simp only [Faults.step] at hs
    split at hs
    · cases hs
    · next hpc => exact h.evicted hpc hs
    · next hpc =>
      split at hs
      · cases hs
      · next hg =>
        cases hs
        exact h.act hpc hg

/-! ## The results -/

theorem FaultsInv.onePerFrame (h : FaultsInv s) : OnePerFrame s where
  chosen := fun t t' _ _ _ _ _ ht ht' => h.one t t' (by rw [ht]; exact nofun) (by rw [ht']; exact nofun)
  used := h.used

/-- **As long as no two evictions are in progress, no frame is chosen twice and none is given to two; and the
first eviction that starts while another is in progress chooses the same frame.** -/
theorem one_eviction_per_frame {s₀ : Faults} (h₀ : FaultsStart s₀) (h : Reach Faults.step Serial s₀ s) :
    OnePerFrame s ∧ ∀ a s', ¬ Serial s a → s.step a = .ok s' → ¬ OnePerFrame s' := by
  have hinv := h.invariant h₀.inv fun _ _ _ hi hc hs => hi.step hc hs
  refine ⟨hinv.onePerFrame, fun a s' hc hs hone => ?_⟩
  cases a with
  | resume t => exact hc trivial
  | fault t q =>
    simp only [Serial] at hc
    push Not at hc
    obtain ⟨hscan, t', ht'⟩ := hc
    simp only [Faults.step] at hs
    split at hs
    · cases hs
    · next hpc =>
      split at hs
      · cases hs
      · next kva vm hrun =>
        rw [(of_pallocGetUser_some hrun).1] at hscan
        cases hscan
      · next vm hrun =>
        obtain ⟨-, rfl⟩ := of_pallocGetUser_none hrun
        split at hs
        · cases hs
        · next victim vm hvictim =>
          obtain ⟨hhead, rfl⟩ := of_vmGetVictim hvictim
          cases hs
          cases hsw : s.pc t' with
          | user => exact ht' hsw
          | swapping q' f rest =>
            -- the victim of the other thread is still at the front of the list
            have hf := (hinv.victim t' q' f rest hsw).1
            obtain rfl : victim = f := Option.some.inj (hhead.symm.trans hf)
            have hne : t ≠ t' := by
              rintro rfl
              exact ht' hpc
            refine hne (hone.chosen t t' q q' victim _ rest (update_self ..) ?_)
            simp only [update_of_ne (Ne.symm hne)]
            exact hsw

/-- One page of the pool, which holds the page 0, and two pages of other threads that nobody touched. -/
def oneFrame : Vm :=
  { Vm.boot (FileSys.boot (fun _ _ => 0) 0 ⟨0, []⟩ [] ⟨0, 0⟩) [true] 16 with
    pages := update (update (update (fun _ => none)
      0 (some { uninitNew 0x400000 false .anon none true with operations := .anon, frame := some 1, swapSlot := -1 }))
      2 (some (uninitNew 0x500000 false .anon none true)))
      3 (some (uninitNew 0x600000 false .anon none true))
    frames := update (fun _ => none) 1 (some { kva := 0, page := some 0 })
    frameList := [1]
    brk := 4 }

def oneFrameFaults : Faults where
  vm := oneFrame
  pc := fun _ => .user
  users := fun _ => []

theorem oneFrameFaults_start : FaultsStart oneFrameFaults := by
  refine ⟨fun _ => rfl, fun _ => rfl, fun f hf => ?_⟩
  rw [List.mem_singleton.mp hf]
  decide

/-- The check of a step that is no fault while the pool is empty and a thread is in `swap_out`. -/
def resumes (_ : Faults) : FaultAction → Bool
  | .fault _ _ => false
  | .resume _ => true

theorem serial_of_resumes (s : Faults) (a : FaultAction) (h : resumes s a = true) : Serial s a := by
  cases a with
  | fault t q => cases h
  | resume t => trivial

/-- A fault evicts the page, and is served. -/
theorem one_eviction_per_frame_one : ∃ s, Reach Faults.step Serial oneFrameFaults s ∧ s.users 1 = [1] ∧
    OnePerFrame s := by
  have h₁ : Reach Faults.step Serial oneFrameFaults _ :=
    .tail (a := .fault 1 2) .refl (fun _ _ => rfl) rfl
  have h : Reach Faults.step Serial oneFrameFaults _ :=
    h₁.execIf serial_of_resumes
      (show Machine.execIf Faults.step resumes _ (List.replicate 18 (.resume 1)) = some _ from rfl)
  exact ⟨_, h, rfl, (one_eviction_per_frame oneFrameFaults_start h).1⟩

/-- Another fault comes while the first waits for the swap disk. -/
theorem frame_chosen_twice : ∃ s₀, FaultsStart s₀ ∧ ∃ s, Reach Faults.step Always s₀ s ∧ ¬ OnePerFrame s := by
  refine ⟨oneFrameFaults, oneFrameFaults_start, _,
    reach_of_exec (.fault 1 2 :: List.replicate 6 (.resume 1) ++ [.fault 2 3]) rfl, fun h => ?_⟩
  have hc := h.chosen 1 2 2 3 1 _ _ rfl rfl
  cases hc

end Pintos
