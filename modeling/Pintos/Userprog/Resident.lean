import Pintos.Userprog.Buffer

/-!
# Buffers that are there

Where the bytes of a buffer are there no page fault is taken, and the kernel goes through it: it comes to
a byte that is looked for, or it comes to its end.

* `Storing` — what such a run keeps
* `Gets` — it touches the byte, or ends well
* `gets_userLoop` — the loops of `inode_read_at` and `inode_write_at`
-/

namespace Pintos

open Function LittleEndian

/-- What is there stays there, and only what accesses change has changed. -/
structure Storing (t : Tid) (s₀ s : Vm) : Prop where
  still : s.still = s₀.still
  fileLock : s.fileLock = s₀.fileLock
  mapped : ∀ va, s₀.mapped t va = true → s.mapped t va = true

/-- The program touches the byte, or ends well. -/
def Gets {α : Type} (t : Tid) (s₀ : Vm) (bad : Vaddr) (Q : α → Prop) (p : VmProg α) (s : Vm) : Prop :=
  (∃ s', p.Passes s s' ∧ bad ∈ s'.touched) ∨ ∃ a s', p.run s = .ok (a, s') ∧ Storing t s₀ s' ∧ Q a

section

variable {α β : Type} {s₀ s s' : Vm} {t : Tid} {rsp buffer bad : Vaddr} {total j k : Nat}

theorem Storing.refl (s : Vm) : Storing t s s := ⟨rfl, rfl, fun _ h => h⟩

theorem Storing.same (h : Storing t s₀ s) (hs : s'.still = s.still) (hl : s'.fileLock = s.fileLock)
    (ht : s'.tables = s.tables) : Storing t s₀ s' := by
  refine ⟨hs.trans h.still, hl.trans h.fileLock, fun va hva => ?_⟩
  have hm := h.mapped va hva
  have he : s'.memEnd = s.memEnd := by
    have hm' : s'.still.memEnd = s.still.memEnd := by rw [hs]
    exact hm'
  unfold Vm.mapped Vm.pte at hm ⊢
  rwa [ht, he]

theorem Storing.inodes (h : Storing t s₀ s) : s.fs.inodes = s₀.fs.inodes := by
  have hi : s.still.fs.inodes = s₀.still.fs.inodes := by rw [h.still]
  exact hi

theorem Storing.capacity (h : Storing t s₀ s) : s.fs.capacity = s₀.fs.capacity := by
  have hi : s.still.fs.capacity = s₀.still.fs.capacity := by rw [h.still]
  exact hi

theorem Gets.pure {Q : α → Prop} {a : α} (h : Storing t s₀ s) (hQ : Q a) :
    Gets t s₀ bad Q (Pure.pure a) s := .inr ⟨a, s, rfl, h, hQ⟩

theorem Gets.bind {p : VmProg α} {f : α → VmProg β} {P : α → Prop} {Q : β → Prop} (hp : Gets t s₀ bad P p s)
    (hf : ∀ a s', Storing t s₀ s' → P a → Gets t s₀ bad Q (f a) s') : Gets t s₀ bad Q (p >>= f) s := by
  rcases hp with ⟨s', hs', hbad⟩ | ⟨a, s', hrun, hst, ha⟩
  · exact .inl ⟨s', Prog.passes_bind_left hs', hbad⟩
  · rcases hf a s' hst ha with ⟨s'', hs'', hbad⟩ | ⟨b, s'', hrun', h'⟩
    · exact .inl ⟨s'', Prog.passes_bind_right hrun hs'', hbad⟩
    · exact .inr ⟨b, s'', (Prog.run_bind_ok hrun).trans hrun', h'⟩

/-- A first part whose run is known. -/
theorem Gets.run_bind {p : VmProg α} {f : α → VmProg β} {Q : β → Prop} {a : α} (hr : p.run s = .ok (a, s'))
    (hf : Gets t s₀ bad Q (f a) s') : Gets t s₀ bad Q (p >>= f) s := by
  rcases hf with ⟨s'', hs'', hbad⟩ | ⟨b, s'', hrun', h'⟩
  · exact .inl ⟨s'', Prog.passes_bind_right hr hs'', hbad⟩
  · exact .inr ⟨b, s'', (Prog.run_bind_ok hr).trans hrun', h'⟩

/-! ## Bytes -/

theorem run_fetch {va : Vaddr} (hm : s.mapped t va = true) : (fetch t rsp va).run s = .ok ((), s) := by
  have hread : (Prog.read fun s => .ok (s.mapped t va) : VmProg Bool).run s = .ok (true, s) :=
    Prog.run_read (by rw [hm])
  exact Prog.run_bind_ok hread

theorem run_storeByte (rsp : Vaddr) {va : Vaddr} (b : Byte) (hm : s.mapped t va = true) :
    (storeByte t rsp va b).run s = .ok ((), s.store t va b) := by
  unfold storeByte
  rw [Prog.run_bind_ok (run_fetch hm)]
  exact Prog.run_write (if_pos hm)

theorem run_loadByte (rsp : Vaddr) {va : Vaddr} (hm : s.mapped t va = true) :
    (loadByte t rsp va).run s = .ok (s.load t va, { s with touched := va :: s.touched }) := by
  unfold loadByte
  rw [Prog.run_bind_ok (run_fetch hm), Prog.run_lift, if_pos hm]

theorem Storing.store (h : Storing t s₀ s) (va : Vaddr) (b : Byte) : Storing t s₀ (s.store t va b) := by
  unfold Vm.store
  dsimp only
  split
  · split
    · exact h.same rfl rfl rfl
    · next pte hpte =>
      have hpte' : s.pte t (pgRoundDown va) = some pte := hpte
      refine Storing.same (s := s.setPte t (pgRoundDown va) { pte with dirty := true }) ?_ rfl rfl rfl
      refine ⟨h.still, h.fileLock, fun va' hva' => ?_⟩
      have hm := h.mapped va' hva'
      cases hu : isUserVaddr va' with
      | false =>
        rw [Vm.mapped_kernel hu] at hm ⊢
        exact hm
      | true =>
        rw [Vm.mapped_user hu] at hm ⊢
        obtain ⟨e, he, hpe⟩ := hm
        unfold Vm.Present Vm.setPte
        dsimp only
        by_cases hsp : space t (pgRoundDown va') = space t (pgRoundDown va)
        · rw [hsp] at he ⊢
          rw [update_self]
          by_cases hpg : pgRoundDown va' = pgRoundDown va
          · rw [hpg, AList.lookup_insert]
            rw [hpg] at he
            have heq : e = pte := Option.some.inj (he.symm.trans hpte')
            exact ⟨_, rfl, heq ▸ hpe⟩
          · rw [AList.lookup_insert_ne hpg]
            exact ⟨e, he, hpe⟩
        · rw [update_of_ne hsp]
          exact ⟨e, he, hpe⟩
  · exact h.same rfl rfl rfl

/-- Of a buffer of which `total` bytes are wanted, the bytes below `j` are there, and the byte `j` if it is
wanted. -/
structure There (t : Tid) (s : Vm) (buffer : Vaddr) (total j : Nat) : Prop where
  below : ∀ k < j, s.mapped t (buffer + BitVec.ofNat 64 k) = true
  last : total ≤ j ∨ s.mapped t (buffer + BitVec.ofNat 64 j) = true

theorem There.mapped (h : There t s₀ buffer total j) (hs : Storing t s₀ s) (hk : k < total) (hkj : k ≤ j) :
    s.mapped t (buffer + BitVec.ofNat 64 k) = true := by
  refine hs.mapped _ ?_
  rcases Nat.lt_or_eq_of_le hkj with hlt | rfl
  · exact h.below k hlt
  · rcases h.last with hle | hm
    · omega
    · exact hm

theorem gets_storeByte {b : Byte} (hth : There t s₀ buffer total j) (h : Storing t s₀ s) (hk : k < total)
    (hkj : k ≤ j) :
    Gets t s₀ (buffer + BitVec.ofNat 64 j) (fun _ => k < j)
      (storeByte t rsp (buffer + BitVec.ofNat 64 k) b) s := by
  have hrun := run_storeByte rsp b (hth.mapped h hk hkj)
  rcases Nat.lt_or_eq_of_le hkj with hlt | rfl
  · exact .inr ⟨(), _, hrun, h.store _ b, hlt⟩
  · refine .inl ⟨_, Prog.passes_of_run hrun, ?_⟩
    rw [(touched_store s t _ b).1]
    exact List.mem_cons_self

theorem gets_loadByte (hth : There t s₀ buffer total j) (h : Storing t s₀ s) (hk : k < total) (hkj : k ≤ j) :
    Gets t s₀ (buffer + BitVec.ofNat 64 j) (fun _ => k < j) (loadByte t rsp (buffer + BitVec.ofNat 64 k)) s := by
  have hrun := run_loadByte rsp (hth.mapped h hk hkj)
  rcases Nat.lt_or_eq_of_le hkj with hlt | rfl
  · exact .inr ⟨_, _, hrun, h.same rfl rfl rfl, hlt⟩
  · exact .inl ⟨_, Prog.passes_of_run hrun, List.mem_cons_self⟩

theorem gets_storeBytes (rsp : Vaddr) (hth : There t s₀ buffer total j) (bytes : List Byte) (h : Storing t s₀ s) (hkj : k ≤ j)
    (hk : k + bytes.length ≤ total) :
    Gets t s₀ (buffer + BitVec.ofNat 64 j) (fun _ => k + bytes.length ≤ j)
      (storeBytes t rsp (buffer + BitVec.ofNat 64 k) bytes) s := by
  induction bytes generalizing s k with
  | nil => exact .pure h hkj
  | cons b bytes ih =>
    rw [List.length_cons] at hk ⊢
    refine (gets_storeByte hth h (by omega) hkj).bind fun _ s₁ h₁ hlt => ?_
    rw [add_succ]
    have hnext := ih (s := s₁) (k := k + 1) h₁ hlt (by omega)
    rwa [Nat.add_right_comm] at hnext

theorem gets_loadBytes (rsp : Vaddr) (hth : There t s₀ buffer total j) (n : Nat) (h : Storing t s₀ s) (hkj : k ≤ j)
    (hk : k + n ≤ total) :
    Gets t s₀ (buffer + BitVec.ofNat 64 j) (fun _ => k + n ≤ j)
      (loadBytes t rsp n (buffer + BitVec.ofNat 64 k)) s := by
  induction n generalizing s k with
  | zero => exact .pure h hkj
  | succ n ih =>
    refine (gets_loadByte hth h (by omega) hkj).bind fun b s₁ h₁ hlt => ?_
    rw [add_succ]
    exact (ih (s := s₁) (k := k + 1) h₁ hlt (by omega)).bind fun bytes s₂ h₂ hle => .pure h₂ (by omega)

/-! ## Sectors -/

theorem Storing.setCapacity (h : Storing t s₀ s) (c : Nat) : Storing t (s₀.setCapacity c) (s.setCapacity c) := by
  refine ⟨?_, h.fileLock, h.mapped⟩
  show s.still.setCapacity c = s₀.still.setCapacity c
  rw [h.still]

/-- The channel of the disk makes no difference. -/
theorem gets_inChannel {p : VmProg α} {E : VmFault → Prop} {P : α → Vm → Prop} {Q : α → Prop} (h : Storing t s₀ s)
    (hwp : p.wp (fun s' => s'.fs.capacity = 0) E P (s.setCapacity 0))
    (hp : Gets t (s₀.setCapacity 0) bad Q p (s.setCapacity 0)) : Gets t s₀ bad Q (inChannel p) s := by
  have hget : ∀ t' s' : Vm, s'.fs.capacity = 0 → (s'.setCapacity t'.fs.capacity).setCapacity 0 = s' := by
    intro t' s' hs'
    rw [← hs']
    rfl
  have hset : ∀ t' s' s'' : Vm, s''.setCapacity (s'.setCapacity t'.fs.capacity).fs.capacity =
      s''.setCapacity t'.fs.capacity := fun _ _ _ => rfl
  have hself : ∀ t' : Vm, (t'.setCapacity 0).setCapacity t'.fs.capacity = t' := fun _ => rfl
  unfold inChannel
  rcases hp with ⟨s', hs', hbad⟩ | ⟨a, s', hrun, hst, ha⟩
  · refine .inl ⟨s'.setCapacity s.fs.capacity, ?_, hbad⟩
    exact Prog.passes_zoom (fun s : Vm => s.setCapacity 0) (fun s s' : Vm => s'.setCapacity s.fs.capacity) id hget
      hset hself hwp hs'
  · refine .inr ⟨a, s'.setCapacity s.fs.capacity, ?_, ?_, ha⟩
    · exact Prog.run_zoom_ok (fun s : Vm => s.setCapacity 0) (fun s s' : Vm => s'.setCapacity s.fs.capacity) id hget
        hset hself hwp hrun
    · rw [h.capacity]
      exact hst.setCapacity s₀.fs.capacity

/-- What runs in the channel leaves it as it is. -/
theorem Touching.zero {k : Nat} (h : Touching (s.setCapacity 0) t buffer k s') : s'.fs.capacity = 0 :=
  h.accessing.capacity

theorem There.setCapacity (h : There t s buffer total j) (c : Nat) : There t (s.setCapacity c) buffer total j :=
  ⟨h.below, h.last⟩

theorem Storing.kernelStack (h : Storing t s₀ s) (hk : s₀.KernelStack rsp) : s.KernelStack rsp := by
  have he : s.still.memEnd = s₀.still.memEnd := by rw [h.still]
  have he : s.memEnd = s₀.memEnd := he
  unfold Vm.KernelStack
  rwa [he]

theorem run_liftFs {p : FsProg α} {a : α} {fs : FileSys} (h : p.run s.fs = .ok (a, fs)) :
    (liftFs p).run s = .ok (a, { s with fs := fs }) := by
  unfold liftFs
  rw [Prog.run_zoom Vm.fs (fun s fs => { s with fs := fs }) _ (fun _ _ => rfl) (fun _ _ _ => rfl) fun _ => rfl, h]

theorem Storing.selects {sector : Nat} (h : Storing t s₀ s) (hsel : s₀.fs.Selects sector) :
    s.fs.Selects sector := by
  unfold FileSys.Selects at hsel ⊢
  rwa [h.capacity]

theorem gets_readToUser (hk : s₀.KernelStack rsp) (hth : There t s₀ buffer total j) {sectorIdx sectorOfs chunk : Nat}
    (hsel : s₀.fs.Selects sectorIdx) (h : Storing t s₀ s) (hkj : k ≤ j) (hkt : k + chunk ≤ total) :
    Gets t s₀ (buffer + BitVec.ofNat 64 j) (fun _ => k + chunk ≤ j)
      (readToUser t rsp (buffer + BitVec.ofNat 64 k) sectorIdx sectorOfs chunk) s := by
  refine .run_bind (run_liftFs (run_diskRead (h.selects hsel))) ?_
  generalize s.fs.disk sectorIdx = sector
  split
  · next hfull =>
    have hcnt : (sectorBytes sector 0 DISK_SECTOR_SIZE).length = chunk := by rw [length_sectorBytes, hfull.2]
    generalize sectorBytes sector 0 DISK_SECTOR_SIZE = bytes at hcnt ⊢
    have hwp : (storeBytes t rsp (buffer + BitVec.ofNat 64 k) bytes).wp
        (Touching (s.setCapacity 0) t buffer (k + bytes.length)) _ _ (s.setCapacity 0) :=
      wp_storeBytes ((h.kernelStack hk).setCapacity 0) (.inl le_rfl) bytes (.refl _) (by omega) le_rfl
    refine gets_inChannel h (Prog.wp_mono (fun _ h' => h'.zero) (fun _ h' => h') (fun _ _ h' => h') hwp) ?_
    have hg := gets_storeBytes rsp (hth.setCapacity 0) bytes (h.setCapacity 0) hkj (by omega)
    rwa [hcnt] at hg
  · have hg := gets_storeBytes rsp hth (sectorBytes sector sectorOfs chunk) h hkj
      (by rw [length_sectorBytes]; exact hkt)
    rwa [length_sectorBytes] at hg

theorem run_bounceBuffer {fs : FileSys} {sectorIdx : Nat} (sectorOfs chunk : Nat) (hsel : fs.Selects sectorIdx) :
    ∃ bounce, (bounceBuffer sectorIdx sectorOfs chunk).run fs = .ok (bounce, fs) := by
  unfold bounceBuffer
  split
  · exact ⟨_, run_diskRead hsel⟩
  · exact ⟨_, rfl⟩

/-- The disk is written at the end of a round. -/
theorem gets_diskWrite {sectorIdx : Nat} {bytes : FileSys → Sector} {P : Prop} (hsel : s₀.fs.Selects sectorIdx)
    (h : Storing t s₀ s) (hP : P) :
    Gets t s₀ bad (fun _ => P) (liftFs (diskWrite sectorIdx bytes)) s :=
  .inr ⟨(), _, run_liftFs (run_diskWrite (h.selects hsel)), h.same rfl rfl rfl, hP⟩

theorem gets_writeFromUser (hk : s₀.KernelStack rsp) (hth : There t s₀ buffer total j)
    {sectorIdx sectorOfs chunk : Nat} (hsel : s₀.fs.Selects sectorIdx) (h : Storing t s₀ s) (hkj : k ≤ j)
    (hkt : k + chunk ≤ total) :
    Gets t s₀ (buffer + BitVec.ofNat 64 j) (fun _ => k + chunk ≤ j)
      (writeFromUser t rsp (buffer + BitVec.ofNat 64 k) sectorIdx sectorOfs chunk) s := by
  unfold writeFromUser
  split
  · have hrun : (selectSector sectorIdx).run s.fs = .ok ((), s.fs) := Prog.run_read (if_pos (h.selects hsel))
    refine .run_bind (run_liftFs hrun) ?_
    have hwp : (loadBytes t rsp chunk (buffer + BitVec.ofNat 64 k)).wp
        (Touching (s.setCapacity 0) t buffer (k + chunk)) _ _ (s.setCapacity 0) :=
      wp_loadBytes ((h.kernelStack hk).setCapacity 0) (.inl le_rfl) chunk (.refl _) (by omega) le_rfl
    refine Gets.bind (gets_inChannel h (Prog.wp_mono (fun _ h' => h'.zero) (fun _ h' => h') (fun _ _ h' => h') hwp)
      (gets_loadBytes rsp (hth.setCapacity 0) chunk (h.setCapacity 0) hkj hkt)) fun bytes s₁ h₁ hle => ?_
    exact gets_diskWrite hsel h₁ hle
  · obtain ⟨bounce, hrun⟩ := run_bounceBuffer sectorOfs chunk (h.selects hsel)
    refine .run_bind (run_liftFs hrun) ?_
    exact (gets_loadBytes rsp hth chunk h hkj hkt).bind fun bytes s₁ h₁ hle => gets_diskWrite hsel h₁ hle

/-! ## Files -/

theorem gets_userLoop {round : Vaddr → Nat → Nat → Nat → VmProg Unit} {p : InodePtr} {inode : Inode} {bounce : Bool}
    (hp : s₀.fs.inodes p = some inode) (hd : OnDisk s₀.fs inode.data)
    (hround : ∀ {s : Vm} {k : Nat} {sectorIdx sectorOfs chunk : Nat}, s₀.fs.Selects sectorIdx → Storing t s₀ s →
      k ≤ j → k + chunk ≤ total → Gets t s₀ bad (fun _ => k + chunk ≤ j)
        (round (buffer + BitVec.ofNat 64 k) sectorIdx sectorOfs chunk) s)
    (fuel : Nat) : ∀ {size offset n : Nat} {s : Vm}, Storing t s₀ s → n ≤ j →
      n + movedBytes inode.data bounce size offset ≤ total → size ≤ fuel →
      Gets t s₀ bad (fun _ => True) (userLoop p buffer bounce round fuel size offset n) s := by
  induction fuel with
  | zero => exact fun h _ _ _ => .pure h trivial
  | succ fuel ih =>
    intro size offset n s h hn htotal hfuel
    unfold userLoop
    split
    · exact .pure h trivial
    · next hsize =>
      have hrun : (derefInode p).run s.fs = .ok (inode, s.fs) := run_derefInode (by rw [h.inodes]; exact hp)
      refine .run_bind (run_liftFs hrun) ?_
      dsimp only
      rcases chunkSize_cases offset hd.nonneg hsize with
        ⟨-, hle⟩ | ⟨c, hlt, hc, hpos, hcs, -, -, -⟩
      · rw [if_pos hle]
        exact .pure h trivial
      · rw [hc, if_neg (by omega), Int.toNat_natCast]
        split
        · exact .pure h trivial
        · next hgo =>
          have hb : offset % DISK_SECTOR_SIZE = 0 ∧ c = DISK_SECTOR_SIZE ∨ bounce = true := by
            by_cases hfull : offset % DISK_SECTOR_SIZE = 0 ∧ c = DISK_SECTOR_SIZE
            · exact .inl hfull
            · refine .inr ?_
              by_contra hb
              exact hgo ⟨by simpa using hfull, by simpa using hb⟩
          obtain ⟨-, hmoved⟩ := movedBytes_round hd.nonneg hsize hc hpos hb
          rw [hmoved] at htotal
          have hsel := hd.selects offset hlt
          rw [← byteToSector_eq hd hlt] at hsel
          exact (hround hsel h hn (by omega)).bind fun _ s₁ h₁ hle => ih h₁ hle (by omega) (by omega)

/-- There is the file, its inode and its sectors. -/
structure FileThere (s : Vm) (f : FilePtr) (file : File) (inode : Inode) : Prop where
  files : s.fs.files f = some file
  inodes : s.fs.inodes file.inode = some inode
  onDisk : OnDisk s.fs inode.data

/-- The end of `file_read` and `file_write`. -/
theorem gets_advance {f : FilePtr} {file : File} {n : Nat} (h : Storing t s₀ s) (hf : s₀.fs.files f = some file) :
    Gets t s₀ bad (fun _ => True) (do liftFs (advance f n); pure n : VmProg Nat) s := by
  have hfiles : (s.fs.files f).map (fun file => { file with pos := 0 }) =
      (s₀.fs.files f).map fun file => ({ file with pos := 0 } : File) := by
    have hs : s.still.fs.files f = s₀.still.fs.files f := by rw [h.still]
    exact hs
  rw [hf, Option.map_some] at hfiles
  obtain ⟨file', hf', -⟩ := Option.map_eq_some_iff.mp hfiles
  have hrun : (advance f n).run s.fs =
      .ok ((), s.fs.setFile f (some { file' with pos := file'.pos + n })) := Prog.run_write (by rw [hf'])
  refine .run_bind (run_liftFs hrun) (.pure (h.same ?_ rfl rfl) trivial)
  have hsame := sameHandles_setPos hf' (file'.pos + n)
  unfold SameHandles at hsame
  unfold Vm.still
  simp only [hsame]

theorem gets_fileReadUser {f : FilePtr} {file : File} {inode : Inode} {bounce : Bool} {size : Int}
    (hk : s₀.KernelStack rsp) (hf : FileThere s₀ f file inode)
    (hth : There t s₀ buffer (movedBytes inode.data bounce size.toNat file.pos) j) :
    Gets t s₀ (buffer + BitVec.ofNat 64 j) (fun _ => True) (fileReadUser t rsp bounce f buffer size) s₀ := by
  have hrun : (derefFile f).run s₀.fs = .ok (file, s₀.fs) := Prog.run_read (by rw [hf.files])
  refine .run_bind (run_liftFs hrun) ?_
  refine (gets_userLoop hf.inodes hf.onDisk (gets_readToUser hk hth) size.toNat (.refl s₀) (Nat.zero_le j)
    (Nat.zero_add _).le le_rfl).bind fun n s₁ h₁ _ => ?_
  exact gets_advance h₁ hf.files

theorem gets_fileWriteUser {f : FilePtr} {file : File} {inode : Inode} {bounce : Bool} {size : Int}
    (hk : s₀.KernelStack rsp) (hf : FileThere s₀ f file inode)
    (hth : There t s₀ buffer
      (if inode.denyWriteCnt ≠ 0 then 0 else movedBytes inode.data bounce size.toNat file.pos) j) :
    Gets t s₀ (buffer + BitVec.ofNat 64 j) (fun _ => True) (fileWriteUser t rsp bounce f buffer size) s₀ := by
  have hrun : (derefFile f).run s₀.fs = .ok (file, s₀.fs) := Prog.run_read (by rw [hf.files])
  refine .run_bind (run_liftFs hrun) ?_
  refine .run_bind (run_liftFs (run_derefInode hf.inodes)) ?_
  split
  · exact .run_bind rfl (gets_advance (.refl s₀) hf.files)
  · next hdeny =>
    rw [if_neg hdeny] at hth
    refine (gets_userLoop hf.inodes hf.onDisk (gets_writeFromUser hk hth) size.toNat (.refl s₀) (Nat.zero_le j)
      (Nat.zero_add _).le le_rfl).bind fun n s₁ h₁ _ => ?_
    exact gets_advance h₁ hf.files

end

end Pintos
