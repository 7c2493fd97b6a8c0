import Pintos.Userprog.Pages
import Pintos.Userprog.Resident
import Pintos.Userprog.Syscall

/-!
# What `read` and `write` touch

`read` and `write` look at the first byte of the buffer only. What keeps them from the other bytes is that
these are not there.

* `Protects` — a call with a byte that is not permitted does not return, and touches no such byte
* `Guarded` — every byte is permitted, the first is refused, or the first that is not permitted is blocked
* `protects_iff_guarded` — **the two agree when the pages of the buffer are there**
* `kernel_overwritten` — **`read` stores to the kernel's memory**
-/

namespace Pintos

open Function LittleEndian

/-! ## Calls -/

/-- A call of `read` or `write`, with the kernel's stack pointer, and whether there is memory for a bounce
buffer. -/
structure BufferCall where
  writes : Bool
  fd : Int
  buffer : Vaddr
  length : BitVec 32
  rsp : Vaddr
  bounce : Bool

namespace BufferCall

def prog (c : BufferCall) (t : Tid) : VmProg Int :=
  if c.writes then write t c.rsp c.bounce c.fd c.buffer c.length
  else read t c.rsp c.bounce c.fd c.buffer c.length

/-- The byte `k` of the buffer. -/
def byte (c : BufferCall) (k : Nat) : Vaddr := c.buffer + BitVec.ofNat 64 k

end BufferCall

namespace Vm

/-- The kernel may store to the byte for the thread, or only load from it. -/
def permits (s : Vm) (t : Tid) (store : Bool) (va : Vaddr) : Bool :=
  isUserVaddr va &&
    match s.findPage (pgRoundDown va) (s.spt t) with
    | none => false
    | some q =>
      match s.pages q with
      | none => false
      | some page => !store || page.writable

/-- No byte was touched yet. -/
def untouched (s : Vm) : Vm := { s with touched := [] }

/-- The file of a descriptor. -/
def fileOf (s : Vm) (t : Tid) (fd : Int) : Option FilePtr :=
  if 2 ≤ fd ∧ fd ≤ FDCOUNT_LIMIT then s.fdt t fd.toNat else none

end Vm

/-- If a byte of the buffer is not permitted the call does not return, and only permitted bytes are touched. -/
structure Protects (s : Vm) (t : Tid) (c : BufferCall) : Prop where
  ends : (∃ k < c.length.toNat, s.permits t (!c.writes) (c.byte k) = false) →
    ∀ r s', (c.prog t).run s.untouched ≠ .ok (r, s')
  accesses : ∀ s', (c.prog t).Passes s.untouched s' → ∀ va ∈ s'.touched, s.permits t (!c.writes) va = true

/-- The check of the first byte. -/
def Vm.accepts (s : Vm) (t : Tid) (c : BufferCall) : Bool :=
  c.buffer ≠ 0 && s.permits t (!c.writes) c.buffer

/-- The call gets to the byte `j`, if the bytes before it are there. -/
def Vm.Reaches (s : Vm) (t : Tid) (c : BufferCall) (j : Nat) : Prop :=
  if c.writes = false ∧ c.fd = 0 then j < c.length.toNat ∧ ∀ k < j, s.input k ≠ 0
  else if c.writes = true ∧ c.fd = 1 then j < c.length.toNat
  else
    match s.fileOf t c.fd with
    | none => False
    | some f => j < s.moved c.writes c.bounce f c.length.toInt.toNat

/-- Every byte is permitted, or the first is refused, or the first that is not permitted is reached and is
blocked. -/
def Guarded (s : Vm) (t : Tid) (c : BufferCall) : Prop :=
  (∀ k < c.length.toNat, s.permits t (!c.writes) (c.byte k) = true) ∨ s.accepts t c = false ∨
    ∃ j < c.length.toNat, (∀ k < j, s.permits t (!c.writes) (c.byte k) = true) ∧
      s.permits t (!c.writes) (c.byte j) = false ∧ s.Reaches t c j ∧ s.Blocked t (c.byte j)

/-! ## What is guarded is protected -/

section

variable {s₀ s : Vm} {t : Tid} {rsp buffer : Vaddr} {len j k : Nat} {bounce : Bool}

/-- The loop on the keyboard, after `i` bytes. -/
theorem wp_readInput (hk : s₀.KernelStack rsp) (hstop : len ≤ j ∨ s₀.Blocked t (buffer + BitVec.ofNat 64 j))
    (n : Nat) : ∀ {i : Nat} {s : Vm}, Touching s₀ t buffer j s → i ≤ j → i + n = len →
      (s.input = fun m => s₀.input (m + i)) →
      (readInput t rsp buffer n i).wp (Touching s₀ t buffer j) (AccessFault s₀)
        (fun _ s' => Touching s₀ t buffer j s' ∧ ¬ (j < len ∧ ∀ m < j, s₀.input m ≠ 0)) s := by
  induction n with
  | zero =>
    intro i s h hi hlen hin
    exact Prog.wp_pure h ⟨h, fun hj => by omega⟩
  | succ n ih =>
    intro i s h hi hlen hin
    refine Prog.wp_bind <| Prog.wp_lift h nofun fun c s₁ hc => ?_
    cases hc
    have h₁ : Touching s₀ t buffer j { s with input := fun m => s.input (m + 1) } :=
      ⟨.trans _ _ _ h.accessing (.same rfl rfl le_rfl), h.touched⟩
    refine ⟨h₁, ?_⟩
    refine Prog.wp_bind <| Prog.wp_mono (fun _ h => h) (fun _ h => h) ?_
      (wp_storeByte h₁ hk hi (hstop.imp_left fun hl => by omega))
    rintro _ s₂ ⟨h₂, hlt, hin₂⟩
    have hc : s.input 0 = s₀.input i := by
      rw [hin]
      exact congrArg _ (Nat.zero_add i)
    split
    · next hzero =>
      refine Prog.wp_pure h₂ ⟨h₂, fun hj => ?_⟩
      rw [hc] at hzero
      exact hj.2 i hlt hzero
    · refine ih h₂ hlt (by omega) ?_
      rw [hin₂]
      funext m
      show s.input (m + 1) = s₀.input (m + (i + 1))
      rw [hin]
      exact congrArg _ (by omega)

theorem wp_exit {α : Type} {I : Vm → Prop} {Q : α → Vm → Prop} {status : Int} (hI : I s) :
    (exit status : VmProg α).wp I (AccessFault s₀) Q s := Prog.wp_fail hI (.inl ⟨_, rfl⟩)

theorem Vm.permits_eq {store : Bool} {va : Vaddr} {q : PagePtr} {page : Page} (hu : isUserVaddr va = true)
    (hq : s.findPage (pgRoundDown va) (s.spt t) = some q) (hp : s.pages q = some page) :
    s.permits t store va = (!store || page.writable) := by
  unfold permits
  rw [hu, hq]
  dsimp only
  rw [hp, Bool.true_and]

theorem wp_checkAddress {va : Vaddr} {I : Vm → Prop} (hI : I s) :
    (checkAddress t va).wp I (AccessFault s₀)
      (fun _ s' => s' = s ∧ va ≠ 0 ∧ s.permits t false va = true) s := by
  unfold checkAddress
  split
  · exact wp_exit hI
  · next hu =>
    push Not at hu
    obtain ⟨hne, hu⟩ := hu
    refine Prog.wp_bind <| Prog.wp_read hI nofun fun found hfound => ?_
    cases hfound
    split
    · exact wp_exit hI
    · next q hq =>
      obtain ⟨page, hpage, -⟩ := Vm.at_of_findPage hq
      refine Prog.wp_pure hI ⟨rfl, hne, ?_⟩
      rw [Vm.permits_eq (by simpa using hu) hq hpage]
      rfl

theorem wp_checkBuffer {va : Vaddr} {I : Vm → Prop} (hI : I s) :
    (checkBuffer t va).wp I (AccessFault s₀)
      (fun _ s' => s' = s ∧ va ≠ 0 ∧ s.permits t true va = true) s := by
  unfold checkBuffer
  split
  · exact wp_exit hI
  · next hu =>
    push Not at hu
    obtain ⟨hne, hu⟩ := hu
    refine Prog.wp_bind <| Prog.wp_read hI nofun fun found hfound => ?_
    cases hfound
    split
    · exact wp_exit hI
    · next q hq =>
      refine Prog.wp_bind <| wp_derefPage hI (.plain trivial) fun page hpage => ?_
      split
      · exact wp_exit hI
      · next hw =>
        refine Prog.wp_pure hI ⟨rfl, hne, ?_⟩
        rw [Vm.permits_eq (by simpa using hu) hq hpage]
        simpa using hw

theorem wp_findFileByFd {fd : Int} {I : Vm → Prop} (hI : I s) :
    (findFileByFd t fd).wp I (AccessFault s₀)
      (fun r s' => s' = s ∧ ((∃ f, r = .file f ∧ s.fileOf t fd = some f) ∨
        (∀ f, r ≠ .file f) ∧ s.fileOf t fd = none)) s := by
  unfold findFileByFd
  by_cases hout : fd < 0 ∨ (FDCOUNT_LIMIT : Int) < fd
  · rw [if_pos hout]
    exact Prog.wp_pure hI ⟨rfl, .inr ⟨nofun, if_neg (by omega)⟩⟩
  · rw [if_neg hout]
    by_cases hstd : fd < 2
    · rw [if_pos hstd]
      exact Prog.wp_pure hI ⟨rfl, .inr ⟨nofun, if_neg (by omega)⟩⟩
    · rw [if_neg hstd, Vm.fileOf, if_pos (by omega)]
      refine Prog.wp_read hI (fun e he => ?_) (fun r hr => ?_)
      · split at he <;> cases he
      · split at hr
        · next hnone =>
          cases hr
          exact ⟨rfl, .inr ⟨nofun, hnone⟩⟩
        · next f hsome =>
          cases hr
          exact ⟨rfl, .inl ⟨f, rfl, hsome⟩⟩

theorem wp_acquireFile (h : Touching s₀ t buffer j s) :
    (acquireFile t).wp (Touching s₀ t buffer j) (AccessFault s₀)
      (fun _ s' => Touching s₀ t buffer j s' ∧ s'.fs = s.fs) s := by
  refine Prog.wp_write h (fun e he => ?_) (fun s' hs' => ?_)
  · split at he
    · cases he
    · split at he
      · cases he
        exact .plain trivial
      · cases he
        exact .plain trivial
  · split at hs'
    · cases hs'
      have h' : Touching s₀ t buffer j { s with fileLock := some t } :=
        ⟨.trans _ _ _ h.accessing (.same rfl rfl le_rfl), h.touched⟩
      exact ⟨h', h', rfl⟩
    · split at hs'
      · cases hs'
      · cases hs'

theorem wp_releaseFile {P : Prop} (h : Touching s₀ t buffer j s) (hP : P) {ret : Int} :
    (do releaseFile t; pure ret : VmProg Int).wp (Touching s₀ t buffer j) (AccessFault s₀)
      (fun _ s' => Touching s₀ t buffer j s' ∧ P) s := by
  refine Prog.wp_bind <| Prog.wp_write h (fun e he => ?_) (fun s' hs' => ?_)
  · split at he
    · cases he
    · cases he
      exact .plain trivial
  · split at hs'
    · cases hs'
      have h' : Touching s₀ t buffer j { s with fileLock := none } :=
        ⟨.trans _ _ _ h.accessing (.same rfl rfl le_rfl), h.touched⟩
      exact ⟨h', Prog.wp_pure h' ⟨h', hP⟩⟩
    · cases hs'

theorem toInt_toNat_le (length : BitVec 32) : length.toInt.toNat ≤ length.toNat := by
  rw [BitVec.toInt_eq_toNat_cond]
  split <;> omega

/-- What `read` and `write` do with a file. -/
theorem wp_fileCall {fd : Int} {size : Nat} {writes : Bool} {io : FilePtr → VmProg Nat}
    (h : Touching s₀ t buffer j s₀)
    (hio : ∀ f s, Touching s₀ t buffer j s → s.fs = s₀.fs → (io f).wp (Touching s₀ t buffer j) (AccessFault s₀)
      (fun _ s' => Touching s₀ t buffer j s' ∧ s₀.moved writes bounce f size ≤ j) s) :
    (do
      let fileobj ← findFileByFd t fd
      match fileobj with
      | .file f => do
        acquireFile t
        let ret ← io f
        releaseFile t
        pure ret
      | _ => pure (-1) : VmProg Int).wp (Touching s₀ t buffer j) (AccessFault s₀)
      (fun _ s' => Touching s₀ t buffer j s' ∧ ∀ f, s₀.fileOf t fd = some f → s₀.moved writes bounce f size ≤ j)
      s₀ := by
  refine Prog.wp_bind <| Prog.wp_mono (fun _ h => h) (fun _ h => h) ?_ (wp_findFileByFd h)
  rintro r _ ⟨rfl, hr⟩
  rcases hr with ⟨f, rfl, hf⟩ | ⟨hr, hnone⟩
  · refine Prog.wp_bind <| Prog.wp_mono (fun _ h => h) (fun _ h => h) ?_ (wp_acquireFile h)
    rintro _ s₁ ⟨h₁, hfs⟩
    refine Prog.wp_bind <| Prog.wp_mono (fun _ h => h) (fun _ h => h) ?_ (hio f s₁ h₁ hfs)
    rintro n s₂ ⟨h₂, hn⟩
    refine wp_releaseFile h₂ fun f' hf' => ?_
    rw [hf] at hf'
    cases hf'
    exact hn
  · cases r with
    | null => exact Prog.wp_pure h ⟨h, fun f hf => absurd (hnone.symm.trans hf) nofun⟩
    | std => exact Prog.wp_pure h ⟨h, fun f hf => absurd (hnone.symm.trans hf) nofun⟩
    | file f => exact absurd rfl (hr f)

theorem Vm.not_reaches_file {s : Vm} {c : BufferCall} (h0 : ¬ (c.writes = false ∧ c.fd = 0))
    (h1 : ¬ (c.writes = true ∧ c.fd = 1))
    (h : ∀ f, s.fileOf t c.fd = some f → s.moved c.writes c.bounce f c.length.toInt.toNat ≤ j) :
    ¬ s.Reaches t c j := by
  rw [Reaches, if_neg h0, if_neg h1]
  split
  · exact not_false
  · next f hf => exact Nat.not_lt.mpr (h f hf)

/-- `read` goes up to the byte that is blocked only. -/
theorem wp_read {fd : Int} {length : BitVec 32} (h : Touching s t buffer j s) (hk : s.KernelStack rsp)
    (hstop : length.toNat ≤ j ∨ s.Blocked t (buffer + BitVec.ofNat 64 j)) :
    (read t rsp bounce fd buffer length).wp (Touching s t buffer j) (AccessFault s)
      (fun _ s' => Touching s t buffer j s' ∧
        ¬ (j < length.toNat ∧ s.Reaches t ⟨false, fd, buffer, length, rsp, bounce⟩ j)) s := by
  refine Prog.wp_bind <| Prog.wp_mono (fun _ h => h) (fun _ h => h) ?_ (wp_checkBuffer h)
  rintro _ _ ⟨rfl, -, -⟩
  split
  · next h0 =>
    refine Prog.wp_bind <| Prog.wp_mono (fun _ h => h) (fun _ h => h) ?_
      (wp_readInput hk hstop length.toNat h (Nat.zero_le j) (Nat.zero_add _) rfl)
    rintro n s' ⟨h', hn⟩
    refine Prog.wp_pure h' ⟨h', fun hj => hn ?_⟩
    rw [Vm.Reaches, if_pos ⟨rfl, h0⟩] at hj
    exact hj.2
  · next h0 =>
    split
    · next h1 =>
      refine Prog.wp_pure h ⟨h, fun hj => Vm.not_reaches_file (fun hc => h0 hc.2) (fun hc => Bool.false_ne_true hc.1) ?_ hj.2⟩
      intro f hf
      rw [Vm.fileOf, if_neg (by dsimp only; omega)] at hf
      cases hf
    · refine Prog.wp_mono (fun _ h => h) (fun _ h => h) ?_
        (wp_fileCall h fun f s₁ h₁ hfs => wp_fileReadUser hk hstop h₁ hfs (toInt_toNat_le length))
      rintro r s' ⟨h', hmoved⟩
      exact ⟨h', fun hj => Vm.not_reaches_file (fun hc => h0 hc.2) (fun hc => Bool.false_ne_true hc.1) hmoved hj.2⟩

theorem wp_write {fd : Int} {length : BitVec 32} (h : Touching s t buffer j s) (hk : s.KernelStack rsp)
    (hstop : length.toNat ≤ j ∨ s.Blocked t (buffer + BitVec.ofNat 64 j)) :
    (write t rsp bounce fd buffer length).wp (Touching s t buffer j) (AccessFault s)
      (fun _ s' => Touching s t buffer j s' ∧
        ¬ (j < length.toNat ∧ s.Reaches t ⟨true, fd, buffer, length, rsp, bounce⟩ j)) s := by
  refine Prog.wp_bind <| Prog.wp_mono (fun _ h => h) (fun _ h => h) ?_ (wp_checkAddress h)
  rintro _ _ ⟨rfl, -, -⟩
  split
  · have hload := wp_loadBytes (k := 0) hk hstop length.toNat h (Nat.zero_le j) (by omega)
    have hzero : buffer + BitVec.ofNat 64 0 = buffer := BitVec.add_zero buffer
    rw [hzero] at hload
    refine Prog.wp_bind <| Prog.wp_mono (fun _ h => h) (fun _ h => h) ?_ hload
    rintro bytes s' ⟨h', hn⟩
    exact Prog.wp_pure h' ⟨h', fun hj => by omega⟩
  · next h1 =>
    split
    · next h0 =>
      refine Prog.wp_pure h ⟨h, fun hj => Vm.not_reaches_file (fun hc => Bool.false_ne_true hc.1.symm) (fun hc => h1 hc.2) ?_ hj.2⟩
      intro f hf
      rw [Vm.fileOf, if_neg (by dsimp only; omega)] at hf
      cases hf
    · refine Prog.wp_mono (fun _ h => h) (fun _ h => h) ?_
        (wp_fileCall h fun f s₁ h₁ hfs => wp_fileWriteUser hk hstop h₁ hfs (toInt_toNat_le length))
      rintro r s' ⟨h', hmoved⟩
      exact ⟨h', fun hj => Vm.not_reaches_file (fun hc => Bool.false_ne_true hc.1.symm) (fun hc => h1 hc.2) hmoved hj.2⟩

/-- A call goes up to the byte that is blocked only. -/
theorem wp_prog (c : BufferCall) (hk : s.KernelStack c.rsp)
    (hstop : c.length.toNat ≤ j ∨ s.Blocked t (c.byte j)) :
    (c.prog t).wp (Touching s t c.buffer j) (AccessFault s)
      (fun _ s' => Touching s t c.buffer j s' ∧ ¬ (j < c.length.toNat ∧ s.Reaches t c j)) s := by
  have h : Touching s t c.buffer j s := .refl s
  obtain ⟨writes, fd, buffer, length, rsp, bounce⟩ := c
  cases writes with
  | false => exact wp_read h hk hstop
  | true => exact wp_write h hk hstop

/-- A call whose first byte is refused touches nothing. -/
theorem wp_refused (c : BufferCall) (h : s.accepts t c = false) :
    (c.prog t).wp (· = s) (AccessFault s) (fun _ _ => False) s := by
  obtain ⟨writes, fd, buffer, length, rsp, bounce⟩ := c
  have hno : ∀ store, (!writes) = store → ¬ (buffer ≠ 0 ∧ s.permits t store buffer = true) := by
    rintro _ rfl ⟨hne, hp⟩
    rw [Vm.accepts, hp] at h
    exact hne (by simpa using h)
  cases writes with
  | false =>
    refine Prog.wp_bind <| Prog.wp_mono (fun _ h => h) (fun _ h => h) ?_ (wp_checkBuffer rfl)
    rintro _ _ ⟨-, hc⟩
    exact absurd hc (hno true rfl)
  | true =>
    refine Prog.wp_bind <| Prog.wp_mono (fun _ h => h) (fun _ h => h) ?_ (wp_checkAddress rfl)
    rintro _ _ ⟨-, hc⟩
    exact absurd hc (hno false rfl)

theorem Vm.covered_untouched {va : Vaddr} : s.untouched.Covered t va ↔ s.Covered t va := by
  have hfind : s.untouched.findPage (pgRoundDown va) (s.spt t) = s.findPage (pgRoundDown va) (s.spt t) :=
    findPage_congr (s := s) (by rfl) _
  show s.untouched.findPage (pgRoundDown va) (s.spt t) ≠ none ↔ s.findPage (pgRoundDown va) (s.spt t) ≠ none
  rw [hfind]

theorem Vm.permits_untouched (s : Vm) (t : Tid) (store : Bool) (va : Vaddr) :
    s.untouched.permits t store va = s.permits t store va := by
  have hfind : s.untouched.findPage (pgRoundDown va) (s.spt t) = s.findPage (pgRoundDown va) (s.spt t) :=
    findPage_congr (s := s) (by rfl) _
  unfold permits
  show (isUserVaddr va && match s.untouched.findPage (pgRoundDown va) (s.spt t) with
    | none => false
    | some q => match s.pages q with
      | none => false
      | some page => !store || page.writable) = _
  rw [hfind]

theorem Vm.blocked_untouched {va : Vaddr} : s.untouched.Blocked t va ↔ s.Blocked t va := by
  unfold Blocked
  rw [covered_untouched]
  rfl

/-- What is guarded is protected. -/
theorem protects_of_guarded {c : BufferCall} (hk : s.KernelStack c.rsp) (h : Guarded s t c) : Protects s t c := by
  have hk₀ : s.untouched.KernelStack c.rsp := hk
  rcases h with hall | hacc | ⟨j, hj, hbelow, -, hreach, hb⟩
  · have hwp := wp_prog (t := t) c (s := s.untouched) hk₀ (.inl le_rfl)
    constructor
    · rintro ⟨k, hk, hbad⟩
      rw [hall k hk] at hbad
      cases hbad
    · intro s' hs' va hva
      rcases (Prog.wp_passes hwp hs').touched va hva with hnil | ⟨k, hk, rfl⟩
      · cases hnil
      · exact hall k hk
  · have hacc₀ : s.untouched.accepts t c = false := by
      rw [Vm.accepts, Vm.permits_untouched]
      exact hacc
    have hwp := wp_refused c hacc₀
    constructor
    · exact fun _ r s' hr => Prog.wp_run hwp hr
    · intro s' hs' va hva
      have he := Prog.wp_passes hwp hs'
      rw [he] at hva
      cases hva
  · have hwp := wp_prog c (s := s.untouched) hk₀ (.inr (Vm.blocked_untouched.mpr hb))
    constructor
    · exact fun _ r s' hr => (Prog.wp_run hwp hr).2 ⟨hj, hreach⟩
    · intro s' hs' va hva
      rcases (Prog.wp_passes hwp hs').touched va hva with hnil | ⟨k, hk, rfl⟩
      · cases hnil
      · exact hbelow k hk

end

/-! ## What is protected is guarded -/

/-- The pages of the buffer are there, and a file that is there can be accessed. -/
structure BufferThere (s : Vm) (t : Tid) (c : BufferCall) : Prop where
  pages : ∀ k < c.length.toNat, s.Covered t (c.byte k) → s.mapped t (c.byte k) = true
  unlocked : s.fileLock = none
  file : ∀ f, s.fileOf t c.fd = some f → ∃ file inode, FileThere s f file inode

/-- The call touches the byte or returns. -/
def Comes {α : Type} (bad : Vaddr) (p : VmProg α) (s : Vm) : Prop :=
  (∃ s', p.Passes s s' ∧ bad ∈ s'.touched) ∨ ∃ r s', p.run s = .ok (r, s')

section

variable {α β : Type} {s₀ s s' : Vm} {t : Tid} {rsp buffer bad : Vaddr} {len j : Nat} {bounce : Bool}

theorem Comes.run_bind {p : VmProg α} {f : α → VmProg β} {a : α} (hr : p.run s = .ok (a, s'))
    (h : Comes bad (f a) s') : Comes bad (p >>= f) s := by
  rcases h with ⟨s'', hs'', hbad⟩ | ⟨r, s'', hrun⟩
  · exact .inl ⟨s'', Prog.passes_bind_right hr hs'', hbad⟩
  · exact .inr ⟨r, s'', (Prog.run_bind_ok hr).trans hrun⟩

theorem Gets.comes_bind {p : VmProg α} {f : α → VmProg β} {P : α → Prop} (hp : Gets t s₀ bad P p s)
    (hf : ∀ a s', Storing t s₀ s' → Comes bad (f a) s') : Comes bad (p >>= f) s := by
  rcases hp with ⟨s', hs', hbad⟩ | ⟨a, s', hrun, hst, -⟩
  · exact .inl ⟨s', Prog.passes_bind_left hs', hbad⟩
  · exact Comes.run_bind hrun (hf a s' hst)

theorem comes_pure (a : α) (s : Vm) : Comes bad (pure a : VmProg α) s := .inr ⟨a, s, rfl⟩

theorem gets_readInput (hbelow : ∀ k < j, s₀.mapped t (buffer + BitVec.ofNat 64 k) = true)
    (hlast : s₀.mapped t (buffer + BitVec.ofNat 64 j) = true ∨ ¬ (j < len ∧ ∀ m < j, s₀.input m ≠ 0)) (n : Nat) :
    ∀ {i : Nat} {s : Vm}, Storing t s₀ s → i ≤ j → i + n = len → (s.input = fun m => s₀.input (m + i)) →
      (∀ m < i, s₀.input m ≠ 0) →
      Gets t s₀ (buffer + BitVec.ofNat 64 j) (fun _ => True) (readInput t rsp buffer n i) s := by
  induction n with
  | zero => exact fun h _ _ _ _ => .pure h trivial
  | succ n ih =>
    intro i s h hi hlen hin hne
    have hth : There t s₀ buffer (i + 1) j := by
      refine ⟨hbelow, ?_⟩
      rcases Nat.lt_or_eq_of_le hi with hlt | rfl
      · exact .inl hlt
      · exact .inr (hlast.resolve_right fun h => h ⟨by omega, hne⟩)
    have h₁ : Storing t s₀ { s with input := fun m => s.input (m + 1) } := h.same rfl rfl rfl
    have hget : (Prog.lift fun s : Vm => .ok (s.input 0, { s with input := fun m => s.input (m + 1) }) :
        VmProg Byte).run s = .ok (s.input 0, { s with input := fun m => s.input (m + 1) }) := by rw [Prog.run_lift]
    refine .run_bind hget ?_
    have hrun := run_storeByte rsp (s.input 0) (hth.mapped h₁ (Nat.lt_succ_self i) hi)
    rcases Nat.lt_or_eq_of_le hi with hlt | rfl
    · refine .run_bind hrun ?_
      have h₂ := h₁.store (buffer + BitVec.ofNat 64 i) (s.input 0)
      have hc : s.input 0 = s₀.input i := by
        rw [hin]
        exact congrArg _ (Nat.zero_add i)
      split
      · exact .pure h₂ trivial
      · next hc0 =>
        refine ih h₂ hlt (by omega) ?_ fun m hm => ?_
        · rw [(touched_store _ t _ _).2]
          funext m
          show s.input (m + 1) = s₀.input (m + (i + 1))
          rw [hin]
          exact congrArg _ (by omega)
        · rcases Nat.lt_succ_iff_lt_or_eq.mp hm with hm | rfl
          · exact hne m hm
          · rwa [← hc]
    · refine .inl ⟨_, Prog.passes_bind_left (Prog.passes_of_run hrun), ?_⟩
      rw [(touched_store _ t _ _).1]
      exact List.mem_cons_self

theorem Vm.of_permits {store : Bool} {va : Vaddr} (h : s.permits t store va = true) :
    isUserVaddr va = true ∧ ∃ q page, s.findPage (pgRoundDown va) (s.spt t) = some q ∧ s.pages q = some page ∧
      (!store || page.writable) = true := by
  unfold permits at h
  rw [Bool.and_eq_true] at h
  obtain ⟨hu, h⟩ := h
  split at h
  · cases h
  · next q hq =>
    split at h
    · cases h
    · next page hpage => exact ⟨hu, q, page, hq, hpage, h⟩

theorem run_checkAddress {va : Vaddr} (hne : va ≠ 0) (hp : s.permits t false va = true) :
    (checkAddress t va).run s = .ok ((), s) := by
  obtain ⟨hu, q, page, hq, -, -⟩ := Vm.of_permits hp
  unfold checkAddress
  rw [if_neg (by rw [hu]; simpa using hne), Prog.run_bind_ok (run_sptFindPage s t va), hq]
  rfl

theorem run_checkBuffer {va : Vaddr} (hne : va ≠ 0) (hp : s.permits t true va = true) :
    (checkBuffer t va).run s = .ok ((), s) := by
  obtain ⟨hu, q, page, hq, hpage, hw⟩ := Vm.of_permits hp
  have hw : page.writable = true := hw
  have hderef : (derefPage q).run s = .ok (page, s) := Prog.run_read (by rw [hpage])
  unfold checkBuffer
  rw [if_neg (by rw [hu]; simpa using hne), Prog.run_bind_ok (run_sptFindPage s t va), hq]
  dsimp only
  rw [Prog.run_bind_ok hderef, hw]
  rfl

theorem run_findFileByFd (s : Vm) (t : Tid) (fd : Int) : ∃ r, (findFileByFd t fd).run s = .ok (r, s) ∧
    ((∃ f, r = .file f ∧ s.fileOf t fd = some f) ∨ ∀ f, r ≠ .file f) := by
  unfold findFileByFd Vm.fileOf
  by_cases hout : fd < 0 ∨ (FDCOUNT_LIMIT : Int) < fd
  · rw [if_pos hout]
    exact ⟨_, rfl, .inr nofun⟩
  · rw [if_neg hout]
    by_cases hstd : fd < 2
    · rw [if_pos hstd]
      exact ⟨_, rfl, .inr nofun⟩
    · rw [if_neg hstd, if_pos (by omega)]
      cases hf : s.fdt t fd.toNat with
      | none => exact ⟨.null, Prog.run_read (by rw [hf]), .inr nofun⟩
      | some f => exact ⟨.file f, Prog.run_read (by rw [hf]), .inl ⟨f, rfl, rfl⟩⟩

/-- What `read` and `write` do with a file. -/
theorem comes_fileCall {fd : Int} {io : FilePtr → VmProg Nat} (hl : s.fileLock = none)
    (hio : ∀ f, s.fileOf t fd = some f →
      Gets t { s with fileLock := some t } bad (fun _ => True) (io f) { s with fileLock := some t }) :
    Comes bad (do
      let fileobj ← findFileByFd t fd
      match fileobj with
      | .file f => do
        acquireFile t
        let ret ← io f
        releaseFile t
        pure ret
      | _ => pure (-1) : VmProg Int) s := by
  obtain ⟨r, hrun, hr⟩ := run_findFileByFd s t fd
  refine Comes.run_bind hrun ?_
  cases r with
  | null => exact comes_pure _ _
  | std => exact comes_pure _ _
  | file f =>
    rcases hr with ⟨f', hf', hof⟩ | hr
    · cases hf'
      have hacq : (acquireFile t).run s = .ok ((), { s with fileLock := some t }) := Prog.run_write (by rw [hl])
      refine Comes.run_bind hacq ((hio f hof).comes_bind fun n s₁ h₁ => ?_)
      have hrel : (releaseFile t).run s₁ = .ok ((), { s₁ with fileLock := none }) :=
        Prog.run_write (if_pos h₁.fileLock)
      exact Comes.run_bind hrel (comes_pure _ _)
    · exact absurd rfl (hr f)

/-- A call whose first byte is accepted comes to a byte that it reaches and that is there. -/
theorem comes_prog {c : BufferCall} (hk : s.KernelStack c.rsp) (hth : BufferThere s t c)
    (hacc : s.accepts t c = true) (hj : j < c.length.toNat) (hbelow : ∀ k < j, s.mapped t (c.byte k) = true)
    (hlast : s.mapped t (c.byte j) = true ∨ ¬ s.Reaches t c j) : Comes (c.byte j) (c.prog t) s := by
  obtain ⟨writes, fd, buffer, length, rsp, bounce⟩ := c
  have hacc : buffer ≠ 0 ∧ s.permits t (!writes) buffer = true := by
    rw [Vm.accepts, Bool.and_eq_true] at hacc
    exact ⟨by simpa using hacc.1, hacc.2⟩
  -- with the lock the process sees the same memory
  have hcall : ∀ f, s.fileOf t fd = some f → ¬ (writes = false ∧ fd = 0) → ¬ (writes = true ∧ fd = 1) →
      There t { s with fileLock := some t } buffer (s.moved writes bounce f length.toInt.toNat) j := by
    intro f hf h0 h1
    refine ⟨hbelow, ?_⟩
    rcases hlast with hm | hr
    · exact .inr hm
    · refine .inl ?_
      rw [Vm.Reaches, if_neg h0, if_neg h1] at hr
      dsimp only at hr
      rw [hf] at hr
      exact Nat.le_of_not_lt hr
  cases writes with
  | false =>
    refine Comes.run_bind (run_checkBuffer hacc.1 hacc.2) ?_
    split
    · next h0 =>
      have hlast₀ : s.mapped t (buffer + BitVec.ofNat 64 j) = true ∨
          ¬ (j < length.toNat ∧ ∀ m < j, s.input m ≠ 0) := by
        rwa [Vm.Reaches, if_pos ⟨rfl, h0⟩] at hlast
      exact (gets_readInput hbelow hlast₀ length.toNat (.refl s) (Nat.zero_le j) (Nat.zero_add _) rfl
        nofun).comes_bind fun _ s₁ _ => comes_pure _ s₁
    · next h0 =>
      split
      · exact comes_pure _ _
      · refine comes_fileCall hth.unlocked fun f hf => ?_
        obtain ⟨file, inode, hfile⟩ := hth.file f hf
        have hmoved := hcall f hf (fun h => h0 h.2) (fun h => Bool.false_ne_true h.1)
        unfold Vm.moved at hmoved
        simp only [hfile.files, hfile.inodes, Bool.false_eq_true, false_and, if_false] at hmoved
        exact gets_fileReadUser hk ⟨hfile.files, hfile.inodes, hfile.onDisk⟩ hmoved
  | true =>
    refine Comes.run_bind (run_checkAddress hacc.1 hacc.2) ?_
    split
    · next h1 =>
      have hmapped : s.mapped t (buffer + BitVec.ofNat 64 j) = true := by
        rcases hlast with hm | hr
        · exact hm
        · rw [Vm.Reaches, if_neg (fun h => Bool.false_ne_true h.1.symm), if_pos ⟨rfl, h1⟩] at hr
          exact absurd hj hr
      have hthere : There t s buffer length.toNat j := ⟨hbelow, .inr hmapped⟩
      have hg := gets_loadBytes rsp hthere length.toNat (.refl s) (Nat.zero_le j) (Nat.zero_add _).le
      have hzero : buffer + BitVec.ofNat 64 0 = buffer := BitVec.add_zero buffer
      rw [hzero] at hg
      exact hg.comes_bind fun _ s₁ _ => comes_pure _ s₁
    · next h1 =>
      split
      · exact comes_pure _ _
      · refine comes_fileCall hth.unlocked fun f hf => ?_
        obtain ⟨file, inode, hfile⟩ := hth.file f hf
        have hmoved := hcall f hf (fun h => Bool.false_ne_true h.1.symm) (fun h => h1 h.2)
        unfold Vm.moved at hmoved
        simp only [hfile.files, hfile.inodes, true_and] at hmoved
        exact gets_fileWriteUser hk ⟨hfile.files, hfile.inodes, hfile.onDisk⟩ hmoved

theorem Vm.Covered.of_permits {store : Bool} {va : Vaddr} (h : s.permits t store va = true) : s.Covered t va := by
  obtain ⟨-, q, page, hq, -, -⟩ := Vm.of_permits h
  unfold Covered Paged
  rw [hq]
  exact nofun

/-- Where the pages of the buffer are there, what is protected is guarded. -/
theorem guarded_of_protects {c : BufferCall} (hk : s.KernelStack c.rsp) (hth : BufferThere s t c)
    (h : Protects s t c) : Guarded s t c := by
  by_contra hg
  unfold Guarded at hg
  push Not at hg
  obtain ⟨hbad, hacc, hnone⟩ := hg
  have hex : ∃ j, j < c.length.toNat ∧ s.permits t (!c.writes) (c.byte j) = false := by
    obtain ⟨j, hj, hp⟩ := hbad
    exact ⟨j, hj, by simpa using hp⟩
  classical
  obtain ⟨hj, hp⟩ := Nat.find_spec hex
  have hbelow : ∀ k < Nat.find hex, s.permits t (!c.writes) (c.byte k) = true := by
    intro k hk
    have hmin := Nat.find_min hex hk
    by_contra hp'
    exact hmin ⟨by omega, by simpa using hp'⟩
  have hlast : s.mapped t (c.byte (Nat.find hex)) = true ∨ ¬ s.Reaches t c (Nat.find hex) := by
    by_cases hr : s.Reaches t c (Nat.find hex)
    · refine .inl ?_
      by_contra hm
      refine hnone _ hj hbelow hp hr ⟨by simpa using hm, ?_⟩
      exact .inl fun hcov => hm (hth.pages _ hj hcov)
    · exact .inr hr
  have hth₀ : BufferThere s.untouched t c :=
    ⟨fun k hk hcov => hth.pages k hk (Vm.covered_untouched.mp hcov), hth.unlocked, fun f hf => by
      obtain ⟨file, inode, hfile⟩ := hth.file f hf
      exact ⟨file, inode, hfile.files, hfile.inodes, hfile.onDisk⟩⟩
  have hacc₀ : s.untouched.accepts t c = true := by
    rw [Vm.accepts, Vm.permits_untouched]
    simpa [Vm.accepts] using hacc
  have hcomes := comes_prog (s := s.untouched) hk hth₀ hacc₀ hj
    (fun k hk => hth.pages k (by omega) (.of_permits (hbelow k hk))) hlast
  rcases hcomes with ⟨s', hs', htouched⟩ | ⟨r, s', hrun⟩
  · have hperm := h.accesses s' hs' _ htouched
    rw [hp] at hperm
    cases hperm
  · exact h.ends ⟨_, hj, hp⟩ r s' hrun

end

/-! ## A page below the kernel -/

/-- A page of a file that was mapped right below `KERN_BASE`, and is there. Something was typed. -/
def belowKernel : Vm :=
  { Vm.boot (FileSys.boot (fun _ _ => 0) 0 ⟨0, []⟩ [] ⟨0, 0⟩) [true] 0 with
    spt := update (fun _ => []) 1 [0]
    pages := update (fun _ => none) 0 (some
      { operations := .file, va := 0x8003fff000, frame := some 1, writable := true, init := true, type := .file,
        aux := some ⟨some 0, 0, 4096, 4096, 0⟩, swapSlot := 0 })
    frames := update (fun _ => none) 1 (some { kva := 0, page := some 0 })
    frameList := [1]
    tables := update (fun _ => ∅) none (AList.insert 0x8003fff000
      { kva := 0, present := true, writable := true, dirty := false } ∅)
    brk := 2
    input := fun _ => 97 }

/-- A call of `read` for two bytes, of which the second is the kernel's. -/
def intoKernel : BufferCall where
  writes := false
  fd := 0
  buffer := 0x8003ffffff
  length := 2
  rsp := 0x8004010000
  bounce := true

end Pintos
