import Mathlib.Order.Interval.Finset.Nat
import Pintos.Properties.Descriptors
import Pintos.Properties.OpenByName

/-!
# Descriptors that are used again

`open` looks for an entry from the cursor `fd_index` on, and the cursor never goes back.

* `Reuses` — `open` finds a free descriptor for the file
* `reuses_iff` — when it does
* `full_table_not_reused` — the first of 1534 descriptors is closed, and the next `open` fails
-/

namespace Pintos

open Function Machine

namespace Descriptors

/-- How many files the process has open. -/
def openCount (s : Descs) (t : Tid) : Nat :=
  ((Finset.Ico 2 FDCOUNT_LIMIT).filter fun n => s.fdt t n ≠ .null).card

/-- `open` binds a descriptor that was free to the file that `filesys_open` returns, and leaves the others. -/
def Reuses (s : Descs) (t : Tid) (name : CStr) (f : FilePtr) : Prop :=
  ∃ (d : Nat) (s' : Descs) (sector : Nat), (openFile t true name).run s = .ok ((d : Int), s') ∧ 2 ≤ d ∧
    d < FDCOUNT_LIMIT ∧ s.fdt t d = .null ∧ s'.fdt = update s.fdt t (update (s.fdt t) d (.file f)) ∧
    s.fs.handle f = none ∧ s'.fs.handle = update s.fs.handle f (some (sector, false))

section

variable {s s' : Descs} {t t₀ : Tid} {name : CStr} {f : FilePtr} {fs fs' : FileSys} {index n k : Nat}

/-- `add_file_to_fdt` where there is an entry. -/
theorem run_addFileToFdt (hindex : nextFd (s.fdt t) FDCOUNT_LIMIT (s.fdIndex t) = index)
    (hlt : index < FDCOUNT_LIMIT) :
    (addFileToFdt t f).run s = .ok ((index : Int), (s.setIndex t index).setEntry t index (.file f)) := by
  rw [addFileToFdt, Prog.run_lift]
  dsimp only
  rw [hindex, if_neg (Nat.not_le_of_lt hlt)]

theorem run_addFileToFdt_full (hindex : nextFd (s.fdt t) FDCOUNT_LIMIT (s.fdIndex t) = index)
    (hge : FDCOUNT_LIMIT ≤ index) : (addFileToFdt t f).run s = .ok (-1, s.setIndex t index) := by
  rw [addFileToFdt, Prog.run_lift]
  dsimp only
  rw [hindex, if_pos hge]

theorem run_liftFs_ok {α : Type} {p : FsProg α} {a : α} (h : p.run s.fs = .ok (a, fs')) :
    (liftFs p).run s = .ok (a, { s with fs := fs' }) := by
  rw [run_liftFs, h]

/-- `open` of a file that exists, where there is an entry. -/
theorem run_openFile (hopen : (filesysOpen name).run s.fs = .ok (some f, fs'))
    (hindex : nextFd (s.fdt t) FDCOUNT_LIMIT (s.fdIndex t) = index) (hlt : index < FDCOUNT_LIMIT) :
    (openFile t true name).run s = .ok ((index : Int),
      ((({ s with fs := fs' } : Descs).setIndex t index).setEntry t index (.file f)).setGiven t index (some f)) := by
  have hadd := run_addFileToFdt (s := { s with fs := fs' }) (f := f) hindex hlt
  have hne : (index : Int) ≠ -1 := by omega
  show (liftFs (filesysOpen name) >>= _).run s = _
  rw [Prog.run_bind_ok (run_liftFs_ok hopen)]
  dsimp only
  rw [Prog.run_bind_ok hadd, if_neg hne]
  rfl

/-- Without an entry the file is closed again. -/
theorem run_openFile_full {fs₂ : FileSys} (hopen : (filesysOpen name).run s.fs = .ok (some f, fs'))
    (hclose : (fileClose (some f)).run fs' = .ok ((), fs₂))
    (hindex : nextFd (s.fdt t) FDCOUNT_LIMIT (s.fdIndex t) = index) (hge : FDCOUNT_LIMIT ≤ index) :
    (openFile t true name).run s = .ok (-1, { s.setIndex t index with fs := fs₂ }) := by
  have hadd := run_addFileToFdt_full (s := { s with fs := fs' }) (f := f) hindex hge
  show (liftFs (filesysOpen name) >>= _).run s = _
  rw [Prog.run_bind_ok (run_liftFs_ok hopen)]
  dsimp only
  rw [Prog.run_bind_ok hadd, if_pos rfl,
    Prog.run_bind_ok (run_liftFs_ok (s := ({ s with fs := fs' } : Descs).setIndex t index) hclose)]
  rfl

/-- **`open` finds a free descriptor if and only if there is one from the cursor on.** -/
theorem reuses_iff {C : Descs → Action → Prop} {input : Nat → LittleEndian.Byte} (hfs : fs.Counted)
    (h : Reach step C (boot fs input t₀) s) (ht : s.live t = true)
    (hopen : (filesysOpen name).run s.fs = .ok (some f, fs')) :
    Reuses s t name f ↔ ∃ n, s.fdIndex t ≤ n ∧ n < FDCOUNT_LIMIT ∧ s.fdt t n = .null := by
  have hok := ok_of_reach hfs h
  obtain ⟨hle, hpassed, -⟩ := nextFd_spec (s.fdt t) FDCOUNT_LIMIT (s.fdIndex t)
  have h2 := hok.index t ht
  set index := nextFd (s.fdt t) FDCOUNT_LIMIT (s.fdIndex t) with hindex
  constructor
  · rintro ⟨d, s', sector, hrun, -, hd, -, -⟩
    by_contra hc
    have hge : FDCOUNT_LIMIT ≤ index := by
      by_contra hlt
      exact hc ⟨index, hle, Nat.lt_of_not_le hlt, nextFd_null (Nat.lt_of_not_le hlt)⟩
    have hadd := run_addFileToFdt_full (s := { s with fs := fs' }) (f := f) hindex.symm hge
    obtain ⟨_, s₁, hs₁, hrun⟩ := Prog.of_run_bind hrun
    cases hs₁
    rw [Prog.run_bind_ok (run_liftFs_ok hopen)] at hrun
    dsimp only at hrun
    rw [Prog.run_bind_ok hadd, if_pos rfl] at hrun
    obtain ⟨_, s₂, -, hret⟩ := Prog.of_run_bind hrun
    have hval : (-1 : Int) = d := congrArg Prod.fst (Except.ok.inj hret)
    omega
  · rintro ⟨n, hn, hlt, hnull⟩
    have hidx : index < FDCOUNT_LIMIT := by
      by_contra hge
      exact (hpassed n hn (by omega)).2 hnull
    obtain ⟨sector, -, hr⟩ := handle_filesysOpen hok.counted hopen
    rcases hr with ⟨hnone, -⟩ | ⟨g, hg, hnone, hh⟩
    · cases hnone
    · cases hg
      exact ⟨index, _, sector, run_openFile hopen hindex.symm hidx, by omega, hidx, nextFd_null hidx, rfl, hnone, hh⟩

end

/-! ## A table that fills up -/

/-- A root directory with the file `a`, which has no bytes. -/
def oneName (sector : Nat) : Sector :=
  if sector = ROOT_DIR_SECTOR then sectorOf (InodeDisk.bytes { start := 2, length := 20 })
  else if sector = 2 then
    sectorOf (DirEntry.toBytes { inodeSector := 3, name := 97 :: List.replicate 14 0, inUse := true })
  else sectorOf (InodeDisk.bytes { start := 4, length := 0 })

def oneNameDisk : FileSys := FileSys.boot oneName 5 ⟨0, []⟩ [] { start := 0, length := 0 }

def nameA : CStr := ⟨[97], CStr.noNul_a⟩

theorem oneName_root : InodeDisk.ofSector (oneName ROOT_DIR_SECTOR) = { start := 2, length := 20 } :=
  InodeDisk.ofSector_bytes (d := { start := 2, length := 20 }) (by decide) (by decide) (by decide)

theorem oneName_faithful : Faithful oneNameDisk where
  counted := ⟨[], counts_boot oneName 5 ⟨0, []⟩ { start := 0, length := 0 }⟩
  sound := nofun
  selects := by decide
  onDisk := by
    show OnDisk oneNameDisk (InodeDisk.ofSector (oneName ROOT_DIR_SECTOR))
    rw [oneName_root]
    refine ⟨by decide, fun i hi => ?_⟩
    have hi : (i : Int) < 20 := hi
    have hsec : 2 + i / DISK_SECTOR_SIZE = 2 := by
      unfold DISK_SECTOR_SIZE
      omega
    rw [hsec]
    decide
  length := by
    show (InodeDisk.ofSector (oneName ROOT_DIR_SECTOR)).length < 2 ^ 31
    rw [oneName_root]
    decide

theorem named_a {fs : FileSys} (hdisk : fs.disk = oneName) (hcap : fs.capacity = 5) : InRoot fs nameA 3 := by
  unfold InRoot
  rw [hdisk, oneName_root]
  refine ⟨_, 0, rfl, rfl, ?_, by decide⟩
  rw [hcap]
  decide

/-- The first file that is opened has a descriptor. -/
theorem reuses_first : ∃ f, Reuses (boot oneNameDisk (fun _ => 0) 0) 0 nameA f := by
  obtain ⟨f, fs', hopen, -⟩ := oneName_faithful.run_filesysOpen (named_a rfl rfl)
  exact ⟨f, (reuses_iff (C := Always) oneName_faithful.counted .refl rfl hopen).mpr ⟨2, le_rfl, by decide, rfl⟩⟩

/-- Only `open` and `close` of one process. -/
def OpensCloses (t : Tid) (_ : Descs) (a : Action) : Prop :=
  (∃ valid name, a = .call t (.open valid name)) ∨ ∃ fd, a = .call t (.close fd)

/-- After `k` calls of `open`. -/
structure Filled (k : Nat) (s : Descs) : Prop where
  reach : Reach step (OpensCloses 0) (boot oneNameDisk (fun _ => 0) 0) s
  live : s.live 0 = true
  alone : ∀ u, u ≠ 0 → s.live u = false
  faithful : Faithful s.fs
  disk : s.fs.disk = oneName
  capacity : s.fs.capacity = 5
  entries : ∀ n, 2 ≤ n → (s.fdt 0 n = .null ↔ k + 2 ≤ n)
  index : s.fdIndex 0 = max 2 (k + 1)

section

variable {s : Descs} {k : Nat}

theorem filled_boot : Filled 0 (boot oneNameDisk (fun _ => 0) 0) where
  reach := .refl
  live := rfl
  alone _ hu := update_of_ne hu _ _
  faithful := oneName_faithful
  disk := rfl
  capacity := rfl
  entries n hn := by
    show update (update (fun _ => FdWord.null) 0 .stdin) 1 .stdout n = .null ↔ _
    rw [update_of_ne (by omega), update_of_ne (by omega)]
    exact ⟨fun _ => by omega, fun _ => rfl⟩
  index := rfl

/-- The first empty entry is the next one. -/
theorem Filled.nextFd (h : Filled k s) (hk : k + 2 < FDCOUNT_LIMIT) :
    nextFd (s.fdt 0) FDCOUNT_LIMIT (s.fdIndex 0) = k + 2 := by
  obtain ⟨hle, hpassed, -⟩ := nextFd_spec (s.fdt 0) FDCOUNT_LIMIT (s.fdIndex 0)
  have hindex := h.index
  rcases Nat.lt_trichotomy (Descriptors.nextFd (s.fdt 0) FDCOUNT_LIMIT (s.fdIndex 0)) (k + 2) with hlt | heq | hgt
  · have hnull := (h.entries _ (by omega)).mp (nextFd_null (lt_trans hlt hk))
    omega
  · exact heq
  · exact absurd ((h.entries (k + 2) (by omega)).mpr le_rfl) (hpassed (k + 2) (by omega) hgt).2

theorem Filled.open (h : Filled k s) (hk : k + 2 < FDCOUNT_LIMIT) : ∃ s', Filled (k + 1) s' := by
  obtain ⟨f, fs', hopen, hfaith, hdisk, hcap, -, -, -⟩ := h.faithful.run_filesysOpen (named_a h.disk h.capacity)
  have hrun := run_openFile hopen (h.nextFd hk) hk
  have hstep : step s (.call 0 (.open true nameA)) = .ok
      (((({ s with fs := fs' } : Descs).setIndex 0 (k + 2)).setEntry 0 (k + 2) (.file f)).setGiven 0 (k + 2)
        (some f)) := by
    rw [step, if_pos h.live, Call.prog, run_map, hrun]
    rfl
  refine ⟨_, .tail h.reach (.inl ⟨true, nameA, rfl⟩) hstep, h.live, h.alone, hfaith, hdisk.trans h.disk,
    hcap.trans h.capacity, fun n hn => ?_, ?_⟩
  · show update s.fdt 0 (update (s.fdt 0) (k + 2) (.file f)) 0 n = .null ↔ _
    rw [update_entry]
    split
    · next hc =>
      have heq : n = k + 2 := hc.2
      exact ⟨by rintro ⟨⟩, fun hle => by omega⟩
    · next hc =>
      have hne : n ≠ k + 2 := fun heq => hc ⟨rfl, heq⟩
      rw [h.entries n hn]
      omega
  · show update s.fdIndex 0 (k + 2) 0 = _
    rw [update_self]
    omega

theorem exists_filled : ∀ k, k + 2 ≤ FDCOUNT_LIMIT → ∃ s, Filled k s
  | 0, _ => ⟨_, filled_boot⟩
  | k + 1, hk => by
    obtain ⟨s, hs⟩ := exists_filled k (by omega)
    exact hs.open (by omega)

end

/-- The table is full and descriptor 2 is closed, and `open` of a file that exists fails. -/
theorem full_table_not_reused : ∃ s, Reach step (OpensCloses 0) (boot oneNameDisk (fun _ => 0) 0) s ∧
    openCount s 0 < FDCOUNT_LIMIT - 2 ∧ s.fdt 0 2 = .null ∧
    (∃ f fs', (filesysOpen nameA).run s.fs = .ok (some f, fs') ∧ ¬ Reuses s 0 nameA f) ∧
    ∃ s', (openFile 0 true nameA).run s = .ok (-1, s') := by
  obtain ⟨s, hs⟩ := exists_filled 1534 (by decide)
  have hok := ok_of_reach oneName_faithful.counted hs.reach
  have hlimit : FDCOUNT_LIMIT = 1536 := rfl
  have hentries := hs.entries
  -- descriptor 2 is closed
  obtain ⟨f, hf⟩ := Option.ne_none_iff_exists'.mp fun hn : s.given 0 2 = none => by
    have hnull : s.fdt 0 2 = .null := by
      rw [hok.entry 0 2 hs.live le_rfl, hn]
      rfl
    have hle := (hentries 2 le_rfl).mp hnull
    omega
  obtain ⟨-, -, -, sector, hh⟩ := hok.opened 0 2 f hf
  obtain ⟨file, inode, hfile, -, hpair⟩ := file_of_handle hh
  obtain ⟨fs₁, hclose, hfaith, hdisk, hcap, -⟩ := hs.faithful.run_fileClose hfile (Prod.mk.inj hpair).2.symm
  have hfind : (findFileByFd 0 2).run s = .ok (.file f, s) := by
    cases hok.found hs.live 2 with
    | limit hfd => exact absurd hfd (by decide)
    | null hfd hrun hnone =>
      rw [show Int.toNat 2 = 2 from rfl, hf] at hnone
      cases hnone
    | stdin hfd => exact absurd hfd (by decide)
    | stdout hfd => exact absurd hfd (by decide)
    | file h2 hlt hg hrun =>
      rw [show Int.toNat 2 = 2 from rfl, hf] at hg
      cases hg
      exact hrun
  have hgiven : s.given 0 (Int.toNat 2) = some f := hf
  have hrun := hok.run_close hgiven (by decide) (by decide) hfind
  rw [hclose] at hrun
  have hstep : step s (.call 0 (.close 2)) =
      .ok ((({ s with fs := fs₁ } : Descs).setEntry 0 2 .null).setGiven 0 2 none) := by
    rw [step, if_pos hs.live, Call.prog, run_map, hrun]
    rfl
  have hreach := Reach.tail hs.reach (.inr ⟨2, rfl⟩) hstep
  set s₁ := (({ s with fs := fs₁ } : Descs).setEntry 0 2 .null).setGiven 0 2 none with hs₁
  have hfdt : ∀ n, s₁.fdt 0 n = if n = 2 then .null else s.fdt 0 n := fun n => by
    show update s.fdt 0 (update (s.fdt 0) 2 .null) 0 n = _
    rw [update_self, update_apply]
  -- the cursor is behind every free entry
  obtain ⟨g, fs₂, hopen, hfaith₂, -, -, -, -, p, i, hg, -, -⟩ :=
    hfaith.run_filesysOpen (named_a (hdisk.trans hs.disk) (hcap.trans hs.capacity))
  have hindex : s₁.fdIndex 0 = 1535 := hs.index
  have hfull : FDCOUNT_LIMIT ≤ nextFd (s₁.fdt 0) FDCOUNT_LIMIT (s₁.fdIndex 0) := by
    by_contra hlt
    obtain ⟨hle, -, -⟩ := nextFd_spec (s₁.fdt 0) FDCOUNT_LIMIT (s₁.fdIndex 0)
    have hnull := nextFd_null (Nat.lt_of_not_le hlt)
    rw [hfdt, if_neg (by omega)] at hnull
    have hge := (hentries _ (by omega)).mp hnull
    omega
  obtain ⟨fs₃, hclose₂, -⟩ := hfaith₂.run_fileClose hg rfl
  have hfails := run_openFile_full hopen hclose₂ rfl hfull
  refine ⟨s₁, hreach, ?_, ?_, ⟨g, fs₂, hopen, fun hr => ?_⟩, _, hfails⟩
  · have hsub : ((Finset.Ico 2 FDCOUNT_LIMIT).filter fun n => s₁.fdt 0 n ≠ .null) ⊆ Finset.Ico 3 FDCOUNT_LIMIT := by
      intro n hn
      rw [Finset.mem_filter, Finset.mem_Ico] at hn
      rw [Finset.mem_Ico]
      have hne : n ≠ 2 := by
        rintro rfl
        exact hn.2 ((hfdt 2).trans (if_pos rfl))
      omega
    have hcard := Finset.card_le_card hsub
    rw [Nat.card_Ico] at hcard
    unfold openCount
    omega
  · exact (hfdt 2).trans (if_pos rfl)
  · obtain ⟨d, s', _, hrun, -⟩ := hr
    rw [hfails] at hrun
    have hval : (-1 : Int) = d := congrArg Prod.fst (Except.ok.inj hrun)
    omega

end Descriptors

end Pintos
