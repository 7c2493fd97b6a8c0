import Pintos.Lib.Machine
import Pintos.Userprog.Loading
import Pintos.Vm.Frames

/-!
# Page faults of several processes

Processes that fault on pages of files. A fault is three steps, and the steps of several faults come in any order:
what is before `lazy_load_segment`, `file_seek`, and what begins with `file_read`.

* `beginFault`, `lazyStart`, `lazyFinish` — the steps
* `run_vmClaimPage_parts` — a process alone does what `vm_claim_page` does
* `Faulting.step` — the machine
-/

namespace Pintos

open Function

/-! ## The steps of a fault -/

/-- `swap_in` up to the call of `lazy_load_segment`, with the argument of the call. -/
def beginSwapIn (t : Tid) (q : PagePtr) : VmProg (Option (Option FileInfo)) := do
  let page ← derefPage q
  match page.operations with
  | .uninit => do
    let page ← derefPage q
    let initialized ← pageInitializer q page.type
    if initialized then
      if page.init then pure (some page.aux) else pure none
    else pure none
  | .anon => do
    let _ ← anonSwapIn t q
    pure none
  | .file => do
    let page ← derefPage q
    pure (some page.aux)

/-- `vm_do_claim_page` up to the call of `lazy_load_segment`. -/
def beginClaim (t : Tid) (q : PagePtr) : VmProg (Option (Option FileInfo)) := do
  let f ← vmGetFrame t
  updateFrame f fun frame => { frame with page := some q }
  updatePage q fun page => { page with frame := some f }
  let page ← derefPage q
  let frame ← derefFrame (some f)
  let mapped ← pml4SetPage t page.va frame.kva page.writable
  if mapped then beginSwapIn t q else pure none

/-- `vm_claim_page` up to the call of `lazy_load_segment`, with the page and the argument of the call. -/
def beginFault (t : Tid) (va : Vaddr) : VmProg (Option (PagePtr × Option FileInfo)) := do
  let found ← sptFindPage t va
  match found with
  | none => pure none
  | some q => do
    let aux ← beginClaim t q
    pure (aux.map fun aux => (q, aux))

/-- `lazy_load_segment` up to the end of `file_seek`, with `kpage`, `file_info` and the file. -/
def lazyStart (q : PagePtr) (aux : Option FileInfo) : VmProg (Kva × FileInfo × FilePtr) := do
  let page ← derefPage q
  let frame ← derefFrame page.frame
  match aux with
  | none => Prog.fail .null
  | some info => do
    let file ← lazySeek info
    pure (frame.kva, info, file)

/-- `lazy_load_segment` from `file_read` on. -/
def lazyFinish (q : PagePtr) (kva : Kva) (info : FileInfo) (file : FilePtr) : VmProg Bool := do
  let bytes ← liftFs (fileRead file info.pageReadBytes)
  Prog.write fun s => .ok (s.copy kva 0 bytes)
  if bytes.length ≠ info.pageReadBytes then do
    let page ← derefPage q
    let frame ← derefFrame page.frame
    pallocFreeUser frame.kva
    pure false
  else do
    Prog.write fun s => .ok (s.copy kva info.pageReadBytes (List.replicate info.pageZeroBytes 0))
    pure true

section

variable {s s₁ s₂ : Vm} {t : Tid} {va : Vaddr} {q : PagePtr} {aux : Option FileInfo} {kva : Kva} {info : FileInfo}
  {file : FilePtr}

/-- What is before `file_read`. -/
theorem of_lazyStart (h : (lazyStart q aux).run s = .ok ((kva, info, file), s₁)) :
    ∃ page f frame, s.pages q = some page ∧ page.frame = some f ∧ s.frames f = some frame ∧ frame.kva = kva ∧
      aux = some info ∧ (lazySeek info).run s = .ok (file, s₁) := by
  obtain ⟨page, s', h₁, h⟩ := Prog.of_run_bind h
  obtain ⟨hpage, rfl⟩ := of_derefPage h₁
  obtain ⟨frame, s', h₁, h⟩ := Prog.of_run_bind h
  obtain ⟨f, hf, hframe, rfl⟩ := of_derefFrame h₁
  cases aux with
  | none => cases h
  | some info' =>
    obtain ⟨file', s', hseek, h⟩ := Prog.of_run_bind h
    cases h
    exact ⟨page, f, frame, hpage, hf, hframe, rfl, rfl, hseek⟩

/-- `file_seek` and what follows are `lazy_load_segment`. -/
theorem run_lazyLoadSegment_parts (h : (lazyStart q aux).run s = .ok ((kva, info, file), s₁)) :
    (lazyLoadSegment q aux).run s = (lazyFinish q kva info file).run s₁ := by
  obtain ⟨page, f, frame, hpage, hf, hframe, rfl, rfl, hseek⟩ := of_lazyStart h
  obtain ⟨-, -, x, -, hs₁⟩ := of_lazySeek hseek
  obtain rfl : s₁ = s.atPos file x info.ofs.toNat := hs₁
  have hfr : (derefFrame page.frame).run s = .ok (frame, s) := by
    rw [hf]
    exact Prog.run_read (by rw [hframe])
  have hpage₁ : ∀ s' : Vm, s'.pages = s.pages → (derefPage q).run s' = .ok (page, s') := fun s' h' =>
    Prog.run_read (by rw [h', hpage])
  have hframe₁ : ∀ s' : Vm, s'.frames = s.frames → (derefFrame page.frame).run s' = .ok (frame, s') := fun s' h' => by
    rw [hf]
    exact Prog.run_read (by rw [h', hframe])
  rw [lazyLoadSegment, Prog.run_bind_ok (hpage₁ s rfl), Prog.run_bind_ok hfr]
  dsimp only
  rw [Prog.run_bind_ok hseek, lazyFinish, Prog.run_bind, Prog.run_bind]
  cases hread : (liftFs (fileRead file info.pageReadBytes)).run (s.atPos file x info.ofs.toNat) with
  | error e => rfl
  | ok r =>
    obtain ⟨bytes, s'⟩ := r
    obtain ⟨fs', -, hs'⟩ := of_liftFs hread
    have hpage₂ := hpage₁ (s'.copy frame.kva 0 bytes) (by rw [hs']; rfl)
    have hframe₂ := hframe₁ (s'.copy frame.kva 0 bytes) (by rw [hs']; rfl)
    dsimp only
    rw [Prog.run_bind_ok (Prog.run_write_ok _ _), Prog.run_bind_ok (Prog.run_write_ok _ _)]
    split
    · rw [Prog.run_bind_ok hpage₂, Prog.run_bind_ok hframe₂]
    · rfl

/-- What `swap_in` does with a page that is loaded. -/
theorem run_swapIn_parts (h : (beginSwapIn t q).run s = .ok (some aux, s₁)) :
    (swapIn t q).run s = (lazyLoadSegment q aux).run s₁ ∨
      (swapIn t q).run s = (do let _ ← lazyLoadSegment q aux; pure true : VmProg Bool).run s₁ := by
  obtain ⟨page, s', h₁, h⟩ := Prog.of_run_bind h
  obtain ⟨hpage, rfl⟩ := of_derefPage h₁
  have hderef : (derefPage q).run s = .ok (page, s) := h₁
  rw [swapIn, Prog.run_bind_ok hderef]
  cases hop : page.operations <;> rw [hop] at h <;> dsimp only at h ⊢
  · obtain ⟨page', s', h₂, h⟩ := Prog.of_run_bind h
    obtain ⟨hpage', rfl⟩ := of_derefPage h₂
    obtain rfl := Option.some.inj (hpage.symm.trans hpage')
    obtain ⟨initialized, s', hinit, h⟩ := Prog.of_run_bind h
    left
    rw [uninitInitialize, Prog.run_bind_ok hderef, Prog.run_bind_ok hinit]
    split at h
    · next hi =>
      split at h
      · next hp =>
        cases h
        rw [if_pos hi, if_pos hp]
      · cases h
    · cases h
  · obtain ⟨_, s', -, h⟩ := Prog.of_run_bind h
    cases h
  · obtain ⟨page', s', h₂, h⟩ := Prog.of_run_bind h
    obtain ⟨hpage', rfl⟩ := of_derefPage h₂
    obtain rfl := Option.some.inj (hpage.symm.trans hpage')
    cases h
    right
    rw [fileBackedSwapIn, Prog.run_bind_ok hderef]

/-- A process alone does what `vm_claim_page` does. -/
theorem run_vmClaimPage_parts {r : Bool} (h : (beginFault t va).run s = .ok (some (q, aux), s₁))
    (hstart : (lazyStart q aux).run s₁ = .ok ((kva, info, file), s₂)) {s' : Vm}
    (hfinish : (lazyFinish q kva info file).run s₂ = .ok (r, s')) :
    (vmClaimPage t va).run s = .ok (r, s') ∨ (vmClaimPage t va).run s = .ok (true, s') := by
  have hload : (lazyLoadSegment q aux).run s₁ = .ok (r, s') := (run_lazyLoadSegment_parts hstart).trans hfinish
  obtain ⟨found, s₃, hfound, h⟩ := Prog.of_run_bind h
  rw [vmClaimPage, Prog.run_bind_ok hfound]
  cases found with
  | none => cases h
  | some q' =>
    dsimp only at h ⊢
    obtain ⟨aux', s₄, hclaim, h⟩ := Prog.of_run_bind h
    cases aux' with
    | none => cases h
    | some aux' =>
      cases h
      obtain ⟨f, s₅, hf, hclaim⟩ := Prog.of_run_bind hclaim
      obtain ⟨_, s₆, hu₁, hclaim⟩ := Prog.of_run_bind hclaim
      obtain ⟨_, s₇, hu₂, hclaim⟩ := Prog.of_run_bind hclaim
      obtain ⟨page, s₈, hp, hclaim⟩ := Prog.of_run_bind hclaim
      obtain ⟨frame, s₉, hfr, hclaim⟩ := Prog.of_run_bind hclaim
      obtain ⟨mapped, s₁₀, hm, hclaim⟩ := Prog.of_run_bind hclaim
      rw [vmDoClaimPage, Prog.run_bind_ok hf, claimFrame, Prog.run_bind_ok hu₁, Prog.run_bind_ok hu₂, Prog.run_bind_ok hp,
        Prog.run_bind_ok hfr, Prog.run_bind_ok hm]
      split at hclaim
      · next hmapped =>
        rw [if_pos hmapped]
        rcases run_swapIn_parts hclaim with hswap | hswap
        · exact .inl (hswap.trans hload)
        · right
          rw [hswap, Prog.run_bind_ok hload]
          rfl
      · cases hclaim

end

/-! ## The machine -/

/-- Where the page fault of a process stands. -/
inductive LoadState
  | idle
  /-- Before `lazy_load_segment` of the page. -/
  | claimed (q : PagePtr) (aux : Option FileInfo)
  /-- Between `file_seek` and `file_read`. -/
  | sought (q : PagePtr) (kva : Kva) (info : FileInfo) (file : FilePtr)

structure Faulting where
  vm : Vm
  load : Tid → LoadState

inductive FaultAct
  | claim (t : Tid) (va : Vaddr)
  | seek (t : Tid)
  | read (t : Tid)

/-- A step of a process. It fails without a fault where it is not the next step of the process. -/
def Faulting.step (s : Faulting) : FaultAct → Except (Option VmFault) Faulting
  | .claim t va =>
    match s.load t with
    | .idle =>
      match (beginFault t va).run s.vm with
      | .error e => .error e
      | .ok (none, vm) => .ok { s with vm := vm }
      | .ok (some (q, aux), vm) => .ok { vm := vm, load := update s.load t (.claimed q aux) }
    | _ => .error none
  | .seek t =>
    match s.load t with
    | .claimed q aux =>
      match (lazyStart q aux).run s.vm with
      | .error e => .error e
      | .ok ((kva, info, file), vm) => .ok { vm := vm, load := update s.load t (.sought q kva info file) }
    | _ => .error none
  | .read t =>
    match s.load t with
    | .sought q kva info file =>
      match (lazyFinish q kva info file).run s.vm with
      | .error e => .error e
      | .ok (_, vm) => .ok { vm := vm, load := update s.load t .idle }
    | _ => .error none

end Pintos
