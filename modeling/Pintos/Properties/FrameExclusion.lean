import Pintos.Filesys.Directory
import Pintos.Lib.Machine
import Pintos.Userprog.Pages
import Pintos.Vm.Frames

/-!
# One page, one frame

Any number of processes claim pages of theirs, one claim at a time. A claim that finds the user pool empty evicts
the page at the front of `frame_list`, whosever it is, and clears the entry in the tables of the thread that runs.

* `PageClaim`, `claimStep` — the machine
* `Exclusive` — no two pages are mapped to one frame
* `frames_exclusive` — so it is as long as no process evicts a page of another one, or has pages where the tables are
  shared, and no file is too short for a page of it
-/

namespace Pintos

open Function Machine

/-! ## The machine -/

/-- A call of `vm_claim_page`: a page fault, or the stack of a process. -/
structure PageClaim where
  t : Tid
  va : Vaddr

def claimStep (s : Vm) (a : PageClaim) : Except VmFault Vm := resultState ((vmClaimPage a.t a.va).run s)

/-! ## The property -/

/-- No two pages of the processes are mapped to one page of the user pool. -/
def Exclusive (procs : Set Tid) (s : Vm) : Prop :=
  ∀ t ∈ procs, ∀ t' ∈ procs, ∀ va va' kva, s.MapsPage (space t va) va kva → s.MapsPage (space t' va') va' kva →
    t = t' ∧ va = va'

/-- No frame is in use, and nothing is mapped. The processes have any pages. -/
structure ClaimStart (s : Vm) : Prop where
  frames : s.frameList = []
  entries : ∀ sp va kva, ¬ s.MapsPage sp va kva
  pages : ∀ q, s.pages q ≠ none → q < s.brk

/-- The thread claims a page of one of the processes. If a page is evicted, it is not one of other tables; the page
that is claimed does not come short, and it lies below the addresses that the tables share. -/
structure Clean (procs : Set Tid) (s : Vm) (a : PageClaim) : Prop where
  member : a.t ∈ procs
  own : bitmapScan s.userPool 0 1 false = none → s.EvictsOwn a.t
  full : ∀ q, s.findPage (pgRoundDown a.va) (s.spt a.t) = some q → ¬ s.ShortPage q
  below : PML4 (pgRoundDown a.va) = 0 ∨ ∀ t ∈ procs, t = a.t

/-! ## The invariant -/

/-- What the tables share is mapped for one process only. -/
structure ClaimInv (procs : Set Tid) (s : Vm) : Prop where
  frames : FramesOk s
  shared : ∀ va kva, s.MapsPage none va kva → ∀ t ∈ procs, ∀ t' ∈ procs, t = t'

variable {procs : Set Tid} {s s' : Vm} {a : PageClaim}

theorem ClaimStart.inv (h : ClaimStart s) : ClaimInv procs s where
  frames := by
    have hnone : ∀ f frame, ¬ s.Listed f frame := fun f frame hf => by
      have hmem := hf.1
      rw [h.frames] at hmem
      cases hmem
    exact {
      pages := h.pages
      known := fun f frame _ hf => absurd hf (hnone f frame)
      below := fun f hf => by rw [h.frames] at hf; cases hf
      nodup := by rw [h.frames]; exact List.nodup_nil
      used := fun f frame hf => absurd hf (hnone f frame)
      distinct := fun f _ frame _ hf => absurd hf (hnone f frame)
      mapped := fun sp va kva hm => absurd hm (h.entries sp va kva)
      single := fun sp va _ _ kva hm => absurd hm (h.entries sp va kva)
      holder := fun _ _ f frame hf => absurd hf (hnone f frame) }
  shared := fun va kva hm => absurd hm (h.entries none va kva)

theorem space_eq_none {t : Tid} {va : Vaddr} : space t va = none ↔ PML4 va ≠ 0 := by
  unfold space
  split
  · next h => exact ⟨nofun, fun hne => absurd h hne⟩
  · next h => exact ⟨fun _ => h, fun _ => rfl⟩

theorem ClaimInv.step (h : ClaimInv procs s) (hc : Clean procs s a) (hs : claimStep s a = .ok s') :
    ClaimInv procs s' := by
  obtain ⟨claimed, hrun⟩ := resultState_ok hs
  obtain ⟨found, s₁, h₁, hrun⟩ := Prog.of_run_bind hrun
  obtain ⟨hfound, rfl⟩ := Prog.of_run_read h₁
  obtain rfl := Except.ok.inj hfound
  cases hfind : s.findPage (pgRoundDown a.va) (s.spt a.t) with
  | none =>
    rw [hfind] at hrun
    cases hrun
    exact h
  | some q =>
    rw [hfind] at hrun
    have hok := h.frames.vmDoClaimPage hc.own (Vm.mem_of_findPage hfind) (hc.full q hfind) hrun
    have hat := Vm.at_of_findPage hfind
    have hclaim : Claiming (fun va => va = pgRoundDown a.va) s s' :=
      (Prog.wp_run (wp_vmDoClaimPage (.refl s) fun va hva => hva.unique hat) hrun).1
    refine ⟨hok, fun va kva hm => ?_⟩
    obtain ⟨pte, hpte, hpresent, -⟩ := hm
    rcases hclaim.ptes none va ⟨pte, hpte, hpresent⟩ with ⟨old, hold, hpresent'⟩ | rfl
    · exact h.shared va old.kva ⟨old, hold, hpresent', rfl⟩
    · -- the page that was claimed lies where the tables are shared
      obtain ⟨t, ht⟩ := (hok.mapped none _ _ ⟨pte, hpte, hpresent, rfl⟩).1.2
      have hone := hc.below.resolve_left (space_eq_none.mp ht.symm)
      exact fun t₁ h₁ t₂ h₂ => (hone t₁ h₁).trans (hone t₂ h₂).symm

/-! ## The results -/

/-- **As long as each process evicts pages of its own, claims pages below 2^39 and has files that are long enough, no
two pages are mapped to one frame, and a frame that is evicted is not mapped any more.** -/
theorem frames_exclusive {s₀ : Vm} (h₀ : ClaimStart s₀) (h : Reach claimStep (Clean procs) s₀ s) :
    Exclusive procs s ∧ ∀ t ∈ procs, s.EvictsOwn t → ∀ f frame s', (vmEvictFrame t).run s = .ok (f, s') →
      s.frames f = some frame → ∀ sp va, ¬ s'.MapsPage sp va frame.kva := by
  have hinv : ClaimInv procs s := h.invariant h₀.inv fun _ _ _ hi hc hs => hi.step hc hs
  refine ⟨fun t ht t' ht' va va' kva hm hm' => ?_, fun t ht hown f frame s' hrun hframe sp va => ?_⟩
  · obtain ⟨hsp, rfl⟩ := hinv.frames.single _ _ _ _ _ hm hm'
    refine ⟨?_, rfl⟩
    by_cases hva : PML4 va = 0
    · unfold space at hsp
      rw [if_pos hva, if_pos hva] at hsp
      exact Option.some.inj hsp
    · rw [space_eq_none.mpr hva] at hm
      exact hinv.shared va kva hm t ht t' ht'
  · obtain ⟨-, frame', hlisted, hdetached⟩ := hinv.frames.vmEvictFrame hown hrun
    obtain rfl : frame' = frame := Option.some.inj (hlisted.2.symm.trans hframe)
    exact hdetached.unmapped sp va

/-- Two processes with a page of their stack each, and a swap disk with one slot. -/
def twoStacks (pool : Bitmap) : Vm :=
  let stack : Page :=
    { operations := .uninit, va := 0x4747f000, frame := none, writable := true, init := false, type := .anon,
      aux := none, swapSlot := 0 }
  { Vm.boot (FileSys.boot (fun _ _ => 0) 0 ⟨0, []⟩ [] ⟨0, 0⟩) pool 8 with
    spt := update (update (fun _ => []) 0 [0]) 1 [1]
    pages := update (update (fun _ => none) 0 (some stack)) 1 (some stack)
    brk := 2 }

theorem twoStacks_start (pool : Bitmap) : ClaimStart (twoStacks pool) where
  frames := rfl
  entries := by
    rintro sp va kva ⟨pte, hpte, -⟩
    cases hpte
  pages := by
    intro q hq
    show q < 2
    by_cases h0 : q = 0
    · rw [h0]
      decide
    · by_cases h1 : q = 1
      · rw [h1]
        decide
      · refine absurd ?_ hq
        show update (update (fun _ => none) 0 _) 1 _ q = none
        rw [update_of_ne h1, update_of_ne h0]

theorem clean_of_free {procs : Set Tid} {s : Vm} {t : Tid} (ht : t ∈ procs) (hscan : bitmapScan s.userPool 0 1 false ≠ none)
    (hfiles : ∀ f, s.fs.files f = none) : Clean procs s ⟨t, 0x4747f000⟩ where
  member := ht
  own := fun hnone => absurd hnone hscan
  full := by
    rintro q - ⟨page, -, info, f, file, inode, -, -, hfile, -⟩
    rw [hfiles] at hfile
    cases hfile
  below := .inl (by decide : PML4 (pgRoundDown 0x4747f000) = 0)

/-- With two frames nothing is evicted. -/
theorem frames_exclusive_two : ∃ s, Reach claimStep (Clean {0, 1}) (twoStacks [false, false]) s ∧
    s.userPool = [true, true] ∧ Exclusive {0, 1} s := by
  have hreach : ∃ s, Reach claimStep (Clean {0, 1}) (twoStacks [false, false]) s ∧ s.userPool = [true, true] :=
    ⟨_, .tail (a := ⟨1, 0x4747f000⟩)
      (.tail (a := ⟨0, 0x4747f000⟩) .refl (clean_of_free (.inl rfl) nofun fun _ => rfl) rfl)
      (clean_of_free (.inr rfl) nofun fun _ => rfl) rfl, rfl⟩
  obtain ⟨s, hs, hpool⟩ := hreach
  exact ⟨s, hs, hpool, (frames_exclusive (twoStacks_start _) hs).1⟩

/-- With one frame, the second process takes it from the first one, which still maps it. -/
theorem frame_shared_after_eviction : ∃ s₀, ClaimStart s₀ ∧
    ∃ s, Reach claimStep (fun _ a => a.t ∈ ({0, 1} : Set Tid)) s₀ s ∧ ¬ Exclusive {0, 1} s := by
  have hreach : ∃ s, Reach claimStep (fun _ a => a.t ∈ ({0, 1} : Set Tid)) (twoStacks [false]) s ∧
      (s.pte 0 0x4747f000 = some { kva := 0, present := true, writable := true, dirty := false } ∧
        s.pte 1 0x4747f000 = some { kva := 0, present := true, writable := true, dirty := false }) := by
    refine ⟨_, .tail (a := ⟨1, 0x4747f000⟩) (.tail (a := ⟨0, 0x4747f000⟩) .refl (.inl rfl) rfl) (.inr rfl) rfl, ?_, ?_⟩
    · rfl
    · rfl
  obtain ⟨s, hs, h₀, h₁⟩ := hreach
  refine ⟨_, twoStacks_start [false], s, hs, fun hexc => ?_⟩
  have hone := (hexc 0 (.inl rfl) 1 (.inr rfl) _ _ 0 ⟨_, h₀, rfl, rfl⟩ ⟨_, h₁, rfl, rfl⟩).1
  exact absurd hone (by decide)

end Pintos
