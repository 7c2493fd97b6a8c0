import Mathlib.Data.BitVec
import Pintos.Lib.Machine
import Pintos.Properties.UserMemory

/-!
# Arguments of system calls and assertions

Runs of a process that makes system calls with any values in its registers, and accesses what is mapped.

* `UserAction`, `userStep` — the machine
* `Moderate` — the condition: no size, position or offset that is negative as an `off_t`, and no mapping
  beyond the kernel's memory
* `arguments_harmless` — then no assertion about an argument fails
-/

namespace Pintos

open Function LittleEndian Machine

/-! ## The machine -/

/-- The user's program may not access a byte that is there. -/
def Vm.forbids (s : Vm) (t : Tid) (va : Vaddr) (store : Bool) : Bool :=
  !isUserVaddr va || store &&
    match s.pte t (pgRoundDown va) with
    | none => false
    | some pte => !pte.writable

/-- An access of the user's program: a load, or a store of a byte. Where the page is still not there after
the fault the instruction is tried again, which is another access. -/
def userAccess (t : Tid) (rsp va : Vaddr) (store : Option Byte) : VmProg Unit := do
  fetch t rsp va
  let mapped ← Prog.read fun s => .ok (s.mapped t va)
  if mapped then do
    let forbidden ← Prog.read fun s => .ok (s.forbids t va store.isSome)
    if forbidden then exit (-1)
    else
      match store with
      | none => pure ()
      | some b => Prog.write fun s => .ok { s.store t va b with touched := s.touched }
  else pure ()

inductive UserAction where
  /-- A system call. -/
  | call (rsp : Vaddr) (bounce : Bool) (name : CStr) (f : Regs)
  /-- An access to a page of the process. -/
  | access (rsp va : Vaddr) (store : Option Byte)

def userStep (t : Tid) (s : Vm) : UserAction → Except VmFault Vm
  | .call rsp bounce name f =>
    if s.KernelStack rsp then resultState ((syscallHandler t rsp bounce name f).run s) else .error .disabled
  | .access rsp va store =>
    if s.Covered t va then resultState ((userAccess t rsp va store).run s) else .error .disabled

/-! ## The condition -/

namespace Vm

/-- `mmap_load_segment` adds the pages up to the page `i`: there is memory, and they are not there yet. -/
def Adds (s : Vm) (t : Tid) (addr : Vaddr) (i : Nat) : Prop :=
  ∀ j ≤ i, s.allocs (2 * j + 1) = true ∧ s.allocs (2 * j + 2) = true ∧
    ¬ s.Covered t (addr + BitVec.ofNat 64 (PGSIZE * j))

/-- The page `i` of a mapping has a file, an offset that is not negative, and an address that is not
beyond the kernel's memory. -/
def Maps (s : Vm) (addr : Vaddr) (offset : Int) (i : Nat) : Prop :=
  s.allocs 0 = true ∧ 0 ≤ wrap32 (offset + (PGSIZE * i : Nat)) ∧
    (addr + BitVec.ofNat 64 (PGSIZE * i)).toNat < KERN_BASE.toNat + s.memEnd

end Vm

/-- The size is not negative as an `off_t`, or `inode_create` is not called. -/
def ModerateCreate (s : Vm) (t : Tid) (file : Vaddr) (size : BitVec 32) : Prop :=
  0 ≤ size.toInt ∨ file = 0 ∨ s.permits t false file = false ∨ s.fs.Full

/-- The position is not negative as an `off_t`, or there is no file. -/
def ModerateSeek (s : Vm) (t : Tid) (fd : Int) (position : BitVec 32) : Prop :=
  0 ≤ position.toInt ∨ s.fileOf t fd = none

/-- Every page that is added can be loaded, or `mmap` refuses. -/
def ModerateMmap (s : Vm) (t : Tid) (addr length : BitVec 64) (fd offset : Int) : Prop :=
  mmapRefuses addr length fd offset = true ∨ s.Covered t addr ∨
    ∀ f, s.fdt t fd.toNat = some f → ∀ i, (PGSIZE * i : Nat) < s.lengthOf f → s.Adds t addr i →
      s.Maps addr offset i

/-- The condition on a step. -/
def Moderate (t : Tid) (s : Vm) : UserAction → Prop
  | .call _ _ _ f =>
    (f.rax = SYS_CREATE → ModerateCreate s t f.rdi (f.rsi.setWidth 32)) ∧
    (f.rax = SYS_SEEK → ModerateSeek s t (intArg f.rdi) (f.rsi.setWidth 32)) ∧
    (f.rax = SYS_MMAP → ModerateMmap s t f.rdi f.rsi (intArg f.r10) (intArg f.r8))
  | .access _ _ _ => True

/-! ## Pages stay sound -/

/-- The pages of processes can be loaded, and new ones are none of them. -/
structure PagesReady (s : Vm) : Prop where
  sound : ∀ q, s.Sound q
  fresh : ∀ t, ∀ q ∈ s.spt t, q < s.brk

structure KeepsReady (s s' : Vm) : Prop where
  memEnd : s'.memEnd = s.memEnd
  ready : PagesReady s → PagesReady s'

/-- No assertion about an argument fails, where the pages can be loaded. -/
def Harmless (s : Vm) (e : VmFault) : Prop := PagesReady s → ¬ e.Argument

section

variable {α β : Type} {N : Vaddr → Prop} {s₀ s s' : Vm} {t : Tid} {rsp va : Vaddr} {q : PagePtr}

theorem KeepsReady.refl (s : Vm) : KeepsReady s s := ⟨rfl, fun h => h⟩

theorem KeepsReady.trans (s s₁ s' : Vm) (h : KeepsReady s s₁) (h' : KeepsReady s₁ s') : KeepsReady s s' :=
  ⟨h'.memEnd.trans h.memEnd, fun hs => h'.ready (h.ready hs)⟩

theorem KeepsReady.of_accessing (h : Accessing N s s') : KeepsReady s s' := by
  refine ⟨h.memEnd, fun hs => ⟨fun q => h.sound (hs.sound q), fun t q hq => ?_⟩⟩
  rw [h.spt] at hq
  exact (hs.fresh t q hq).trans_le h.brk

/-- A page is removed, and pages are left out of the tables. -/
theorem KeepsReady.shrink (hm : s'.memEnd = s.memEnd) (hb : s'.brk = s.brk)
    (hp : ∀ q page, s'.pages q = some page → s.pages q = some page) (ht : ∀ t, s'.spt t ⊆ s.spt t) :
    KeepsReady s s' := by
  refine ⟨hm, fun hs => ⟨fun q page hq => ?_, fun t q hq => ?_⟩⟩
  · rw [hm]
    exact hs.sound q page (hp q page hq)
  · rw [hb]
    exact hs.fresh t q (ht t hq)

theorem VmFault.Plain.not_argument {e : VmFault} (h : e.Plain) : ¬ e.Argument := by
  rintro (rfl | rfl)
  · exact h
  · exact h rfl

theorem Harmless.plain {e : VmFault} (h : e.Plain) : Harmless s e := fun _ => h.not_argument

theorem Harmless.of_access {e : VmFault} (h : AccessFault s e) : Harmless s e := by
  intro hs
  rcases h with ⟨status, rfl⟩ | h | rfl | ⟨hf, -⟩
  · rintro (h | h) <;> cases h
  · exact h.not_argument
  · rintro (h | h) <;> cases h
  · exact absurd hs.sound hf

/-- A call that fails in no assertion about an argument. -/
theorem wp_ready {p : VmProg α} (hp : p.Does KeepsReady VmFault.Plain) :
    p.wp (KeepsReady s) (Harmless s) (fun _ _ => True) s :=
  Prog.wp_mono (fun _ h => h) (fun _ => .plain) (fun _ _ _ => trivial) (hp.wp .trans (.refl s))

theorem wp_exit_bind {f : Unit → VmProg β} {p : VmProg Unit} {P : Prop} {Q : β → Vm → Prop}
    (hp : p.wp (KeepsReady s) (AccessFault s) (fun _ s' => s' = s ∧ P) s)
    (hf : P → (f ()).wp (KeepsReady s) (Harmless s) Q s) : (p >>= f).wp (KeepsReady s) (Harmless s) Q s := by
  refine Prog.wp_bind <| Prog.wp_mono (fun _ h => h) (fun _ => .of_access) ?_ hp
  rintro ⟨⟩ _ ⟨rfl, h⟩
  exact hf h

theorem ready_claiming {p : VmProg α} {E : VmFault → Prop} (hp : p.Does (Claiming Any) E) :
    p.Does KeepsReady E := hp.mono (fun _ _ h => .of_accessing h.toAccessing) fun _ h => h

theorem ready_liftFs {p : FsProg α} (hp : p.Does Steady FsFault.Plain) :
    (liftFs p).Does KeepsReady VmFault.Plain :=
  hp.zoom (fun _ _ _ => .shrink rfl rfl (fun _ _ h => h) fun _ => List.Subset.refl _) fun _ h => h

theorem ready_write {g : Vm → Vm} (h : ∀ s, KeepsReady s (g s)) :
    (Prog.write fun s => .ok (g s) : VmProg Unit).Does KeepsReady VmFault.Plain := by
  refine .write (fun s s' hs => ?_) (fun s e hs => ?_)
  · cases hs
    exact h s
  · cases hs

/-! ## Calls on files -/

theorem does_findFileByFd {fd : Int} : (findFileByFd t fd).Does KeepsReady VmFault.Plain := by
  unfold findFileByFd
  split
  · exact .pure _
  · split
    · exact .pure _
    · refine .read .refl fun s e he => ?_
      split at he <;> cases he

theorem wp_create {file : Vaddr} {name : CStr} {size : BitVec 32} (h : ModerateCreate s t file size) :
    (create t file name size).wp (KeepsReady s) (Harmless s) (fun _ _ => True) s := by
  refine wp_exit_bind (wp_checkAddress (.refl s)) fun ⟨hne, hperm⟩ => ?_
  have hsize : 0 ≤ size.toInt ∨ s.fs.Full := by
    rcases h with h | h | h | h
    · exact .inl h
    · exact absurd h hne
    · rw [hperm] at h
      cases h
    · exact .inr h
  unfold liftFs
  refine Prog.wp_zoom ?_ ?_ ?_ ?_ (.refl s) (wp_filesysCreate hsize)
  · exact fun _ _ _ => rfl
  · exact fun _ _ h _ => .trans _ _ _ h (.shrink rfl rfl (fun _ _ h => h) fun _ => List.Subset.refl _)
  · exact fun e he => Harmless.plain (e := .fs e) he
  · exact fun _ _ _ _ => trivial

theorem does_addFileToFdt {f : FilePtr} : (addFileToFdt t f).Does KeepsReady VmFault.Plain := by
  refine .lift (fun s a s' h => ?_) (fun s e h => ?_)
  · dsimp only at h
    split at h
    · cases h
      exact .shrink rfl rfl (fun _ _ h => h) fun _ => List.Subset.refl _
    · cases h
      exact .shrink rfl rfl (fun _ _ h => h) fun _ => List.Subset.refl _
  · dsimp only at h
    split at h <;> cases h

theorem wp_openFile {file : Vaddr} {name : CStr} :
    (openFile t file name).wp (KeepsReady s) (Harmless s) (fun _ _ => True) s := by
  refine wp_exit_bind (wp_checkAddress (.refl s)) fun _ => wp_ready ?_
  refine (ready_liftFs does_filesysOpen).bind fun fileobj => ?_
  cases fileobj with
  | none => exact .pure _
  | some f =>
    refine does_addFileToFdt.bind fun fd => ?_
    cases fd with
    | none => exact (ready_liftFs does_fileClose).bind fun _ => .pure _
    | some fd => exact .pure _

theorem does_filesize {fd : Int} : (filesize t fd).Does KeepsReady VmFault.Plain := by
  refine does_findFileByFd.bind fun fileobj => ?_
  cases fileobj with
  | null => exact .pure _
  | std => exact .fail trivial
  | file f => exact ready_liftFs (steady does_fileLength)

theorem does_tell {fd : Int} : (tell t fd).Does KeepsReady VmFault.Plain := by
  refine does_findFileByFd.bind fun fileobj => ?_
  cases fileobj with
  | null => exact .pure _
  | std => exact .pure _
  | file f => exact ready_liftFs (steady does_fileTell)

theorem does_close {fd : Int} : (close t fd).Does KeepsReady VmFault.Plain := by
  unfold close
  split
  · exact .pure _
  · refine does_findFileByFd.bind fun fileobj => ?_
    cases fileobj with
    | null => exact .pure _
    | std => exact .pure _
    | file f =>
      refine .bind ?_ fun _ => ready_liftFs does_fileClose
      unfold removeFileFromFdt
      split
      · exact .pure _
      · exact ready_write fun _ => .shrink rfl rfl (fun _ _ h => h) fun _ => List.Subset.refl _

/-- A position that is not negative is accepted. -/
theorem wp_seek {fd : Int} {position : BitVec 32} (h : ModerateSeek s t fd position) :
    (seek t fd position).wp (KeepsReady s) (Harmless s) (fun _ _ => True) s := by
  refine Prog.wp_bind <| Prog.wp_mono (fun _ h => h) (fun _ => .of_access) ?_ (wp_findFileByFd (.refl s))
  rintro r _ ⟨rfl, hr⟩
  cases r with
  | null => exact Prog.wp_pure (.refl _) trivial
  | std => exact Prog.wp_pure (.refl _) trivial
  | file f =>
    rcases hr with ⟨f', -, hf⟩ | ⟨hno, -⟩
    · have hpos : 0 ≤ position.toInt := h.resolve_right (by rw [hf]; nofun)
      refine wp_ready (ready_liftFs (steady (does_fileSeek.weaken fun e he => ?_)))
      exact he.resolve_left (by omega)
    · exact absurd rfl (hno f)

theorem wp_read_ready {bounce : Bool} {fd : Int} {buffer : Vaddr} {length : BitVec 32} (hk : s.KernelStack rsp) :
    (read t rsp bounce fd buffer length).wp (KeepsReady s) (Harmless s) (fun _ _ => True) s :=
  Prog.wp_mono (fun _ h => .of_accessing h.accessing) (fun _ => .of_access) (fun _ _ _ => trivial)
    (wp_read (.refl s) hk (.inl le_rfl))

theorem wp_write_ready {bounce : Bool} {fd : Int} {buffer : Vaddr} {length : BitVec 32} (hk : s.KernelStack rsp) :
    (write t rsp bounce fd buffer length).wp (KeepsReady s) (Harmless s) (fun _ _ => True) s :=
  Prog.wp_mono (fun _ h => .of_accessing h.accessing) (fun _ => .of_access) (fun _ _ _ => trivial)
    (wp_write (.refl s) hk (.inl le_rfl))

/-! ## `munmap` -/

theorem does_vmDeallocPage : (vmDeallocPage t q).Does KeepsReady VmFault.Plain := by
  refine (ready_claiming does_destroy).bind fun _ => ready_write fun s => ?_
  refine .shrink rfl rfl (fun r page hr => ?_) fun _ => List.Subset.refl _
  have hr : update s.pages q none r = some page := hr
  by_cases hq : r = q
  · subst hq
    rw [update_self] at hr
    cases hr
  · rwa [update_of_ne hq] at hr

theorem does_unmapPages (fuel : Nat) :
    ∀ page addr readBytes, (unmapPages t fuel page addr readBytes).Does KeepsReady VmFault.Plain := by
  induction fuel with
  | zero => exact fun _ _ _ => .pure _
  | succ fuel ih =>
    intro page addr readBytes
    cases page with
    | none => exact .pure _
    | some q =>
      unfold unmapPages
      dsimp only
      split
      · exact .pure _
      · refine .bind (ready_write fun s => .shrink rfl rfl (fun _ _ h => h) fun t' => ?_) fun _ =>
          does_vmDeallocPage.bind fun _ => .bind (ready_claiming (claiming (does_read _))) fun _ => ih _ _ _
        show update s.spt t ((s.spt t).erase q) t' ⊆ s.spt t'
        by_cases ht : t' = t
        · subst ht
          rw [update_self]
          exact List.erase_subset
        · rw [update_of_ne ht]
          exact List.Subset.refl _

theorem wp_munmap {addr : Vaddr} : (munmap t addr).wp (KeepsReady s) (Harmless s) (fun _ _ => True) s := by
  refine wp_exit_bind (wp_checkAddress (.refl s)) fun _ => wp_ready ?_
  refine .bind (ready_claiming (claiming (does_read _))) fun found => ?_
  cases found with
  | none => exact .pure _
  | some q =>
    refine (ready_claiming (claiming does_derefPage)).bind fun page => ?_
    split
    · exact .pure _
    · split
      · exact .fail trivial
      · exact does_unmapPages _ _ _ _

/-! ## `mmap` -/

theorem Vm.covered_congr (hp : s'.pages = s.pages) (ht : s'.spt = s.spt) : s'.Covered t va ↔ s.Covered t va := by
  unfold Covered Paged
  rw [findPage_congr hp, ht]

/-- A new page goes to the front of the table. -/
theorem Vm.Covered.push {page : Page} (hs : PagesReady s) (h : s.Covered t va) :
    Vm.Covered (s.addPage t page) t va := (paged_addPage (hs.fresh t)).mpr (.inr h)

/-- `mmap` and `load` add a page. -/
theorem wp_vmAllocPage {type : VmType} {upage : Vaddr} {writable init : Bool} {aux : Option FileInfo}
    (htype : type ≠ .uninit) (hal : Aligned upage) (h : KeepsReady s₀ s)
    (hpage : PagesReady s₀ → s.allocs 0 = true → ¬ s.Covered t upage →
      upage.toNat < KERN_BASE.toNat + s.memEnd ∧ Aux.Fine aux) :
    (vmAllocPage t type upage writable init aux).wp (KeepsReady s₀) (Harmless s₀)
      (fun added s' => KeepsReady s₀ s' ∧ (added = true → s.allocs 0 = true ∧ ¬ s.Covered t upage ∧
        (s'.allocs = fun n => s.allocs (n + 1)) ∧ (PagesReady s → ∀ va, s.Covered t va → s'.Covered t va))) s := by
  unfold vmAllocPage
  rw [if_neg htype]
  refine Prog.wp_bind <| Prog.wp_read h nofun fun found hfound => ?_
  cases hfound
  split
  · exact Prog.wp_pure h ⟨h, nofun⟩
  · next hnone =>
    have hcov : ¬ s.Covered t upage := fun hc => hc hnone
    have hnone' : s.findPage upage (s.spt t) = none := by rwa [pgRoundDown_of_aligned hal] at hnone
    refine Prog.wp_bind <| Prog.wp_lift h nofun fun allocated s₁ hs₁ => ?_
    cases hs₁
    have h₁ : KeepsReady s₀ { s with allocs := fun n => s.allocs (n + 1) } :=
      .trans _ _ _ h (.shrink rfl rfl (fun _ _ h => h) fun _ => List.Subset.refl _)
    refine ⟨h₁, ?_⟩
    split
    · next ha =>
      set s₂ : Vm := { s with allocs := fun n => s.allocs (n + 1) } with hs₂
      have hfind : s₂.findPage upage (s₂.spt t) = none := by
        rw [← hnone']
        exact Vm.findPage_congr (by rfl) _
      refine Prog.wp_lift h₁ (fun e he => ?_) fun added s' hs' => ?_
      · dsimp only at he
        rw [hfind] at he
        cases he
      · dsimp only at hs'
        rw [hfind] at hs'
        cases hs'
        have hadd : KeepsReady s₀ { (s₂.setPage s₂.brk (some (uninitNew upage init type aux writable))).setSpt t
            (s₂.brk :: s₂.spt t) with brk := s₂.brk + 1 } := by
          refine ⟨h₁.memEnd, fun hr => ⟨fun q page hq => ?_, fun t' q hq => ?_⟩⟩
          · have hq : update s₂.pages s₂.brk (some (uninitNew upage init type aux writable)) q = some page := hq
            by_cases hqb : q = s₂.brk
            · subst hqb
              rw [update_self] at hq
              cases hq
              exact ⟨hal, hpage hr ha hcov⟩
            · rw [update_of_ne hqb] at hq
              exact (h₁.ready hr).sound q page hq
          · have hq : q ∈ update s₂.spt t (s₂.brk :: s₂.spt t) t' := hq
            show q < s₂.brk + 1
            have hfresh := (h₁.ready hr).fresh
            by_cases ht : t' = t
            · subst ht
              rw [update_self, List.mem_cons] at hq
              rcases hq with rfl | hq
              · exact Nat.lt_succ_self _
              · exact (hfresh _ q hq).trans (Nat.lt_succ_self _)
            · rw [update_of_ne ht] at hq
              exact (hfresh _ q hq).trans (Nat.lt_succ_self _)
        refine ⟨hadd, hadd, fun _ => ⟨ha, hcov, rfl, fun hr va hva => ?_⟩⟩
        have hr₂ : PagesReady s₂ := ⟨hr.sound, hr.fresh⟩
        have hva₂ : s₂.Covered t va := (Vm.covered_congr (s := s) (by rfl) (by rfl)).mpr hva
        exact hva₂.push hr₂
    · exact Prog.wp_pure h₁ ⟨h₁, nofun⟩

/-- An argument of 32 bits does not wrap around. -/
theorem wrap32_intArg (r : BitVec 64) : wrap32 (intArg r) = intArg r := by
  have hlt := BitVec.toInt_lt (x := r.setWidth 32)
  have hle := BitVec.le_toInt (r.setWidth 32)
  unfold intArg wrap32 toInt32 ofInt32
  split <;> omega

theorem mapPages_done {file : Option FilePtr} {writable : Bool} {fuel : Nat} {ofs : Int} {upage : Vaddr} :
    mapPages t file writable fuel ofs upage 0 = pure true := by
  cases fuel with
  | zero => rfl
  | succ fuel => rfl

/-- After `i` pages: what is left of the memory, and that the pages were not there before. -/
structure Mapping (s₀ : Vm) (t : Tid) (addr : Vaddr) (i : Nat) (s : Vm) : Prop where
  keeps : KeepsReady s₀ s
  allocs : s.allocs = fun n => s₀.allocs (n + (2 * i + 1))
  covered : PagesReady s₀ → ∀ va, s₀.Covered t va → s.Covered t va
  adds : PagesReady s₀ → ∀ j < i, s₀.allocs (2 * j + 1) = true ∧ s₀.allocs (2 * j + 2) = true ∧
    ¬ s₀.Covered t (addr + BitVec.ofNat 64 (PGSIZE * j))

/-- The address of the next page. -/
theorem add_pgsize (addr : Vaddr) (i : Nat) :
    addr + BitVec.ofNat 64 (PGSIZE * i) + BitVec.ofNat 64 PGSIZE = addr + BitVec.ofNat 64 (PGSIZE * (i + 1)) := by
  rw [Nat.mul_succ, BitVec.ofNat_add, BitVec.add_assoc]

theorem aligned_page {addr : Vaddr} (h : Aligned addr) (i : Nat) : Aligned (addr + BitVec.ofNat 64 (PGSIZE * i)) := by
  rw [aligned_iff] at h ⊢
  rw [BitVec.toNat_add, BitVec.toNat_ofNat, show PGSIZE = 4096 from rfl]
  omega

/-- The pages of a mapping of `n` bytes that is moderate. -/
theorem wp_mapPages (writable : Bool) {file : Option FilePtr} {addr : Vaddr} {offset : Int} {n : Nat}
    (hal : Aligned addr) (hfile : file = none → s₀.allocs 0 = false)
    (hmaps : ∀ i, PGSIZE * i < n → s₀.Adds t addr i → s₀.Maps addr offset i) (fuel : Nat) :
    ∀ {i : Nat} {s : Vm}, Mapping s₀ t addr i s → PGSIZE * i ≤ n →
      (mapPages t file writable fuel (wrap32 (offset + (PGSIZE * i : Nat))) (addr + BitVec.ofNat 64 (PGSIZE * i))
        (n - PGSIZE * i)).wp (KeepsReady s₀) (Harmless s₀) (fun _ _ => True) s := by
  induction fuel with
  | zero => exact fun h _ => Prog.wp_pure h.keeps trivial
  | succ fuel ih =>
    intro i s h hi
    unfold mapPages
    split
    · exact Prog.wp_pure h.keeps trivial
    · next hleft =>
      refine Prog.wp_bind <| Prog.wp_lift h.keeps nofun fun allocated s₁ hs₁ => ?_
      cases hs₁
      set s₁ : Vm := { s with allocs := fun n => s.allocs (n + 1) } with hs₁
      have h₁ : KeepsReady s₀ s₁ := .trans _ _ _ h.keeps (.shrink rfl rfl (fun _ _ h => h) fun _ => List.Subset.refl _)
      have hcov₁ : ∀ va, s₁.Covered t va ↔ s.Covered t va := fun va => Vm.covered_congr rfl rfl
      have ha₀ : s.allocs 0 = s₀.allocs (2 * i + 1) := by
        rw [h.allocs]
        exact congrArg s₀.allocs (Nat.zero_add _)
      have ha₁ : s₁.allocs 0 = s₀.allocs (2 * i + 2) := by
        show s.allocs 1 = _
        rw [h.allocs]
        exact congrArg _ (by omega)
      refine ⟨h₁, ?_⟩
      split
      · next ha =>
        have hadds : PagesReady s₀ → s₁.allocs 0 = true → ¬ s₁.Covered t (addr + BitVec.ofNat 64 (PGSIZE * i)) →
            s₀.Adds t addr i := by
          intro hr ha' hc j hj
          rcases Nat.lt_or_eq_of_le hj with hj | rfl
          · exact h.adds hr j hj
          · exact ⟨ha₀ ▸ ha, ha₁ ▸ ha', fun hc₀ => hc ((hcov₁ _).mpr (h.covered hr _ hc₀))⟩
        refine Prog.wp_bind <| Prog.wp_mono (fun _ h => h) (fun _ h => h) ?_
          (wp_vmAllocPage nofun (aligned_page hal i) h₁ fun hr ha' hc => ?_)
        · rintro added s₂ ⟨h₂, hadded⟩
          cases added with
          | false => exact Prog.wp_pure h₂ trivial
          | true =>
            obtain ⟨ha', hc, hal₂, hcov₂⟩ := hadded rfl
            rw [if_pos rfl, add_pgsize, wrap32_add]
            rcases Nat.lt_or_ge (n - PGSIZE * i) PGSIZE with hlast | hmore
            · rw [Nat.min_eq_left hlast.le, Nat.sub_self, mapPages_done]
              exact Prog.wp_pure h₂ trivial
            · have hofs : offset + (PGSIZE * i : Nat) + (min (n - PGSIZE * i) PGSIZE : Nat) =
                  offset + (PGSIZE * (i + 1) : Nat) := by
                rw [Nat.min_eq_right hmore, Nat.mul_succ]
                push_cast
                omega
              have hrest : n - PGSIZE * i - min (n - PGSIZE * i) PGSIZE = n - PGSIZE * (i + 1) := by
                rw [Nat.min_eq_right hmore, Nat.mul_succ]
                omega
              rw [hofs, hrest]
              refine ih ⟨h₂, ?_, fun hr va hva => ?_, fun hr => ?_⟩ (by rw [Nat.mul_succ]; omega)
              · rw [hal₂]
                funext m
                show s.allocs (m + 1 + 1) = _
                rw [h.allocs]
                exact congrArg _ (by omega)
              · exact hcov₂ (h₁.ready hr) va ((hcov₁ va).mpr (h.covered hr va hva))
              · exact fun j hj => hadds hr ha' hc j (Nat.lt_succ_iff.mp hj)
        · obtain ⟨hgranted, hofs, hbelow⟩ := hmaps i (by omega) (hadds hr ha' hc)
          rw [h₁.memEnd]
          refine ⟨hbelow, ?_⟩
          rintro info ⟨⟩
          refine ⟨fun hnone => ?_, hofs⟩
          rw [hfile hnone] at hgranted
          cases hgranted
      · exact Prog.wp_pure h₁ trivial

/-- With memory for it there is a new file. -/
theorem wp_fileReopen {fs : FileSys} {f : FilePtr} {alloc : Bool} :
    (fileReopen f alloc).wp Any FsFault.Plain (fun r _ => r = none → alloc = false) fs := by
  have hdoes : ∀ {α : Type} {p : FsProg α} (fs : FileSys), p.Does Steady FsFault.Plain →
      p.wp Any FsFault.Plain (fun _ => Any) fs := fun fs h =>
    Prog.wp_mono (fun _ _ => trivial) (fun _ h => h) (fun _ _ _ => trivial) (h.wp .trans (.refl fs))
  refine Prog.wp_bind <| Prog.wp_mono (fun _ h => h) (fun _ h => h) (fun file fs _ => ?_)
    (hdoes fs (steady does_derefFile))
  refine Prog.wp_bind <| Prog.wp_mono (fun _ h => h) (fun _ h => h) (fun p fs _ => ?_) (hdoes fs does_inodeReopen)
  cases alloc with
  | false => exact Prog.wp_mono (fun _ h => h) (fun _ h => h) (fun _ _ _ _ => rfl) (hdoes fs does_fileOpen)
  | true =>
    refine Prog.wp_lift trivial nofun fun r fs' h => ?_
    cases h
    exact ⟨trivial, nofun⟩

theorem wp_fileLength {f : FilePtr} :
    (fileLength f).wp (· = s.fs) FsFault.Plain (fun n _ => s.lengthOf f = n) s.fs := by
  refine Prog.wp_bind <| Prog.wp_mono (fun _ h => h) (fun _ h => h) ?_ (Prog.wp_keep wp_derefFile)
  rintro file _ ⟨rfl, hfile⟩
  refine Prog.wp_bind <| Prog.wp_mono (fun _ h => h) (fun _ h => h) ?_ (Prog.wp_keep wp_derefInode)
  rintro inode _ ⟨rfl, hinode⟩
  refine Prog.wp_pure rfl ?_
  unfold Vm.lengthOf
  rw [hfile]
  dsimp only
  rw [hinode]

/-- A read of the file system goes on in the same state. -/
theorem wp_fsRead_ready {p : FsProg α} {P : α → Prop} {f : α → VmProg β} {Q : β → Vm → Prop}
    (hp : p.wp (· = s.fs) FsFault.Plain (fun a _ => P a) s.fs) (h : KeepsReady s₀ s)
    (hf : ∀ a, P a → (f a).wp (KeepsReady s₀) (Harmless s₀) Q s) :
    (liftFs p >>= f).wp (KeepsReady s₀) (Harmless s₀) Q s := by
  refine Prog.wp_bind <| Prog.wp_mono ?_ (fun _ he => .plain he) ?_ (wp_fsRead hp)
  · rintro _ rfl
    exact h
  · rintro a _ ⟨rfl, ha⟩
    exact hf a ha

/-- `mmap_load_segment` for a file whose pages are moderate. -/
theorem wp_mmapLoadSegment {f : FilePtr} {offset : Int} {addr : Vaddr} {writable : Bool} (hal : Aligned addr)
    (hofs : wrap32 offset = offset)
    (hmaps : ∀ i, (PGSIZE * i : Nat) < s.lengthOf f → s.Adds t addr i → s.Maps addr offset i) :
    (mmapLoadSegment t f offset addr writable).wp (KeepsReady s) (Harmless s) (fun _ _ => True) s := by
  refine wp_fsRead_ready wp_fileLength (.refl s) fun length hlength => ?_
  rw [hlength] at hmaps
  refine Prog.wp_bind <| Prog.wp_lift (.refl s) nofun fun allocated s₁ hs₁ => ?_
  cases hs₁
  set s₁ : Vm := { s with allocs := fun n => s.allocs (n + 1) } with hs₁
  have hfs : ∀ fs, KeepsReady s { s₁ with fs := fs } := fun fs =>
    .shrink rfl rfl (fun _ _ h => h) fun _ => List.Subset.refl _
  refine ⟨hfs s.fs, ?_⟩
  have hreopen : (liftFs (fileReopen f (s.allocs 0))).wp (fun s' => ∃ fs, s' = { s₁ with fs := fs }) (Harmless s)
      (fun r s' => (∃ fs, s' = { s₁ with fs := fs }) ∧ (r = none → s.allocs 0 = false)) s₁ := by
    unfold liftFs
    refine Prog.wp_zoom ?_ ?_ ?_ ?_ ⟨s₁.fs, rfl⟩ wp_fileReopen
    · exact fun _ _ _ => rfl
    · rintro _ fs ⟨_, rfl⟩ _
      exact ⟨fs, rfl⟩
    · exact fun e he => Harmless.plain (e := .fs e) he
    · exact fun _ _ hfs h => ⟨hfs, h⟩
  refine Prog.wp_bind <| Prog.wp_mono ?_ (fun _ h => h) ?_ hreopen
  · rintro _ ⟨fs, rfl⟩
    exact hfs fs
  · rintro file _ ⟨⟨fs, rfl⟩, hfile⟩
    have hstart : Mapping s t addr 0 { s₁ with fs := fs } :=
      ⟨hfs fs, rfl, fun _ va hva => (Vm.covered_congr (s := s) (by rfl) (by rfl)).mpr hva, nofun⟩
    have hwp := wp_mapPages writable hal hfile (n := length.toNat) (fun i hi => hmaps i (by omega)) length.toNat hstart
      (Nat.zero_le _)
    rw [Nat.mul_zero, Nat.sub_zero, BitVec.add_zero, Nat.cast_zero, Int.add_zero, hofs] at hwp
    exact hwp

theorem wp_mmap {addr length : BitVec 64} {writable : Bool} {fd offset : Int} (hofs : wrap32 offset = offset)
    (h : ModerateMmap s t addr length fd offset) :
    (mmap t addr length writable fd offset).wp (KeepsReady s) (Harmless s) (fun _ _ => True) s := by
  unfold mmap
  split
  · exact Prog.wp_pure (.refl s) trivial
  · next hr =>
    have hal : Aligned addr := by
      have hround : addr = pgRoundDown addr := by
        by_contra hne
        exact hr (by simp [mmapRefuses, hne])
      have hnat := congrArg BitVec.toNat hround
      rw [pgRoundDown_toNat] at hnat
      rw [aligned_iff]
      omega
    refine Prog.wp_bind <| Prog.wp_read (.refl s) nofun fun found hfound => ?_
    cases hfound
    split
    · exact Prog.wp_pure (.refl s) trivial
    · next hnone =>
      have hmaps := (h.resolve_left hr).resolve_left fun hc => hc hnone
      refine Prog.wp_bind <| Prog.wp_read (.refl s) nofun fun file hfile => ?_
      cases hfile
      split
      · exact Prog.wp_fail (.refl s) (.of_access (.inl ⟨_, rfl⟩))
      · next f hf =>
        refine wp_fsRead_ready wp_fileLength (.refl s) fun readBytes _ => ?_
        split
        · exact Prog.wp_pure (.refl s) trivial
        · refine Prog.wp_bind <| Prog.wp_mono (fun _ h => h) (fun _ h => h) ?_
            (Prog.wp_keep (wp_mmapLoadSegment hal hofs (hmaps f hf)))
          rintro loaded s' ⟨h', -⟩
          split
          · exact Prog.wp_pure h' trivial
          · exact Prog.wp_pure h' trivial

/-! ## Steps and runs -/

/-- An access to a page of the process, whatever the user's stack pointer is. -/
theorem wp_userAccess {store : Option Byte} (hc : s.Covered t va) :
    (userAccess t rsp va store).wp (KeepsReady s) (Harmless s) (fun _ _ => True) s := by
  refine Prog.wp_bind <| Prog.wp_mono (fun _ h => .of_accessing h.toAccessing) (fun _ => .of_access) ?_
    (wp_fetch fun _ _ => hc)
  rintro _ s₁ ⟨h₁, -⟩
  have hk₁ : KeepsReady s s₁ := .of_accessing h₁.toAccessing
  refine Prog.wp_bind <| Prog.wp_read hk₁ nofun fun mapped _ => ?_
  split
  · refine Prog.wp_bind <| Prog.wp_read hk₁ nofun fun forbidden _ => ?_
    split
    · exact Prog.wp_fail hk₁ (.of_access (.inl ⟨_, rfl⟩))
    · cases store with
      | none => exact Prog.wp_pure hk₁ trivial
      | some b =>
        refine Prog.wp_write hk₁ nofun fun s₂ hs₂ => ?_
        cases hs₂
        have hstore : Accessing (s₁.Paged t) s₁ { s₁.store t va b with touched := s₁.touched } :=
          .trans _ _ _ (accessing_store s₁ t va b) (.same rfl rfl le_rfl)
        exact ⟨.trans _ _ _ hk₁ (.of_accessing hstore), trivial⟩
  · exact Prog.wp_pure hk₁ trivial

/-- What follows a call is only its result. -/
theorem wp_result {p : VmProg α} {g : α → BitVec 64}
    (h : p.wp (KeepsReady s) (Harmless s) (fun _ _ => True) s) :
    (do let r ← p; pure (g r) : VmProg (BitVec 64)).wp (KeepsReady s) (Harmless s) (fun _ _ => True) s := by
  refine Prog.wp_bind <| Prog.wp_mono (fun _ h => h) (fun _ h => h) ?_ (Prog.wp_keep h)
  exact fun _ _ h => Prog.wp_pure h.1 trivial

theorem wp_syscallHandler {bounce : Bool} {name : CStr} {f : Regs} (hk : s.KernelStack rsp)
    (h : Moderate t s (.call rsp bounce name f)) :
    (syscallHandler t rsp bounce name f).wp (KeepsReady s) (Harmless s) (fun _ _ => True) s := by
  obtain ⟨hcreate, hseek, hmmap⟩ := h
  unfold syscallHandler
  refine Prog.wp_ite (fun hr => wp_result (wp_create (hcreate hr))) fun _ => ?_
  refine Prog.wp_ite (fun _ => wp_result wp_openFile) fun _ => ?_
  refine Prog.wp_ite (fun _ => wp_result (wp_ready does_filesize)) fun _ => ?_
  refine Prog.wp_ite (fun _ => wp_result (wp_read_ready hk)) fun _ => ?_
  refine Prog.wp_ite (fun _ => wp_result (wp_write_ready hk)) fun _ => ?_
  refine Prog.wp_ite (fun hr => wp_result (wp_seek (hseek hr))) fun _ => ?_
  refine Prog.wp_ite (fun _ => wp_result (wp_ready does_tell)) fun _ => ?_
  refine Prog.wp_ite (fun _ => wp_result (wp_ready does_close)) fun _ => ?_
  refine Prog.wp_ite (fun hr => wp_mmap (wrap32_intArg _) (hmmap hr)) fun _ => ?_
  exact Prog.wp_ite (fun _ => wp_result wp_munmap) fun _ => Prog.wp_fail (.refl s) (.plain trivial)

/-- What a step that meets the condition does. -/
theorem PagesReady.step {a : UserAction} (hr : PagesReady s) (hc : Moderate t s a) :
    (∀ s', userStep t s a = .ok s' → PagesReady s') ∧ ∀ e, userStep t s a = .error e → ¬ e.Argument := by
  have hprog : ∀ {α : Type} {p : VmProg α}, p.wp (KeepsReady s) (Harmless s) (fun _ _ => True) s →
      (∀ s', resultState (p.run s) = .ok s' → PagesReady s') ∧
        ∀ e, resultState (p.run s) = .error e → ¬ e.Argument := by
    intro α p hwp
    constructor
    · intro s' hs'
      obtain ⟨a, ha⟩ := resultState_ok hs'
      exact (Prog.wp_run (Prog.wp_keep hwp) ha).1.ready hr
    · intro e he
      cases hrun : p.run s with
      | error e' =>
        rw [hrun] at he
        cases he
        exact Prog.wp_error hwp hrun hr
      | ok r =>
        rw [hrun] at he
        cases he
  cases a with
  | call rsp bounce name f =>
    dsimp only [userStep]
    split
    · next hk => exact hprog (wp_syscallHandler hk hc)
    · exact ⟨nofun, fun _ he => VmFault.Plain.not_argument (Except.error.inj he ▸ trivial)⟩
  | access rsp va store =>
    dsimp only [userStep]
    split
    · next hcov => exact hprog (wp_userAccess hcov)
    · exact ⟨nofun, fun _ he => VmFault.Plain.not_argument (Except.error.inj he ▸ trivial)⟩

/-- **No assertion about an argument fails in runs that meet the condition.** -/
theorem arguments_harmless {a : UserAction} {e : VmFault} (h₀ : PagesReady s₀)
    (h : Reach (userStep t) (Moderate t) s₀ s) (hc : Moderate t s a) (he : userStep t s a = .error e) :
    ¬ e.Argument :=
  ((h.invariant h₀ fun _ _ s' hr hc hs => (hr.step hc).1 s' hs).step hc).2 e he

end

/-! ## A file of one byte -/

/-- A process with an open file of one byte, and a free page. -/
def oneByteFile : Vm :=
  { Vm.boot { FileSys.boot (fun _ _ => 0) 4 ⟨0, []⟩ [] ⟨0, 0⟩ with
      inodes := update (fun _ => none) 0 (some
        { sector := 2, openCnt := 1, removed := false, denyWriteCnt := 0, data := ⟨3, 1⟩ })
      openInodes := [0]
      files := update (fun _ => none) 1 (some { inode := 0, pos := 0, denyWrite := false })
      brk := 2 } [false] 0 with
    fdt := update (fun _ _ => none) 1 (update (fun _ => none) 2 (some 1)) }

/-- `seek (2, position)`. -/
def seekTo (position : BitVec 64) : UserAction :=
  .call 0x8004010000 true ⟨[], nofun⟩ { rax := SYS_SEEK, rdi := 2, rsi := position, rdx := 0, r10 := 0, r8 := 0 }

/-- `mmap (0x10000000, 1, 0, 2, offset)`. -/
def mapFrom (offset : BitVec 64) : UserAction :=
  .call 0x8004010000 true ⟨[], nofun⟩
    { rax := SYS_MMAP, rdi := 0x10000000, rsi := 1, rdx := 0, r10 := 2, r8 := offset }

theorem oneByteFile_ready : PagesReady oneByteFile := ⟨nofun, nofun⟩

/-- The start of the file is moderate. -/
theorem moderate_mapFrom_zero : Moderate 1 oneByteFile (mapFrom 0) := by
  refine ⟨nofun, nofun, fun _ => .inr (.inr fun f hf i hi _ => ?_)⟩
  cases hf
  have hi : ((PGSIZE * i : Nat) : Int) < 1 := hi
  obtain rfl : i = 0 := by
    unfold PGSIZE at hi
    omega
  exact ⟨rfl, by decide, by decide⟩

/-- A store to the mapping, which is read only, ends the process only. -/
theorem arguments_harmless_one : ∃ s e, Reach (userStep 1) (Moderate 1) oneByteFile s ∧
    userStep 1 s (.access 0 0x10000000 (some 0)) = .error e ∧ ¬ e.Argument := by
  have h : Reach (userStep 1) (Moderate 1) oneByteFile _ := .tail .refl moderate_mapFrom_zero rfl
  exact ⟨_, _, h, rfl, arguments_harmless (a := .access 0 0x10000000 (some 0)) oneByteFile_ready h trivial rfl⟩

/-- **A position of 2 GiB fails an assertion, and so does an access to a mapping from a negative offset.** -/
theorem arguments_harmful : PagesReady oneByteFile ∧
    (∃ e, userStep 1 oneByteFile (seekTo (2 ^ 31)) = .error e ∧ e.Argument) ∧
    ∃ s e, Reach (userStep 1) Always oneByteFile s ∧
      userStep 1 s (.access 0 0x10000000 none) = .error e ∧ e.Argument := by
  have hseek : userStep 1 oneByteFile (seekTo (2 ^ 31)) = .error (.fs .argument) := rfl
  have hmap : ∃ s, userStep 1 oneByteFile (mapFrom (-4096)) = .ok s ∧
      userStep 1 s (.access 0 0x10000000 none) = .error (.fs .argument) := ⟨_, by rfl, by rfl⟩
  obtain ⟨s, hs, he⟩ := hmap
  exact ⟨oneByteFile_ready, ⟨_, hseek, .inr rfl⟩, s, _, .tail .refl trivial hs, he, .inr rfl⟩

end Pintos
