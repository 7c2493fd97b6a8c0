import Mathlib.Data.List.Perm.Basic
import Pintos.Properties.Format

/-!
# The free map survives a restart

After formatting, in every run of `free_map_allocate` and of `free_map_release` of runs that were
obtained from it, the free map file holds the free map.

* `MapUse` — the machine: the file system, and the runs that are in use
* `MapUse.Ok` — the invariant
* `free_map_survives_restart` — the map that is read back, at every moment
-/

namespace Pintos

open Function Machine LittleEndian

/-! ## The machine -/

structure MapUse where
  fs : FileSys
  /-- The runs of sectors that were obtained and not released. -/
  runs : List (Nat × Nat)

inductive MapAction where
  | allocate (cnt : Nat)
  | release (sector cnt : Nat)

/-- A call, of which the release is of a run that was obtained. -/
def MapUse.step (s : MapUse) : MapAction → Except FsFault MapUse
  | .allocate cnt =>
    match (freeMapAllocate cnt).run s.fs with
    | .error e => .error e
    | .ok (none, fs) => .ok { s with fs := fs }
    | .ok (some sector, fs) => .ok { fs := fs, runs := (sector, cnt) :: s.runs }
  | .release sector cnt =>
    if (sector, cnt) ∉ s.runs then .error .disabled
    else
      match (freeMapRelease sector cnt).run s.fs with
      | .error e => .error e
      | .ok (_, fs) => .ok { fs := fs, runs := s.runs.erase (sector, cnt) }

/-! ## The invariant -/

/-- The runs have no sector in common. -/
def Apart (x y : Nat × Nat) : Prop := x.1 + x.2 ≤ y.1 ∨ y.1 + y.2 ≤ x.1 ∨ x.2 = 0 ∨ y.2 = 0

theorem Apart.symm {x y : Nat × Nat} (h : Apart x y) : Apart y x := by
  unfold Apart at *
  omega

/-- The free map of a formatted disk whose sectors below `m` are reserved. -/
structure MapUse.Ok (s : MapUse) (capacity m : Nat) : Prop where
  size : s.fs.capacity = capacity
  map : MapFile s.fs 2 (mapData capacity)
  bitCnt : s.fs.freeMap.bitCnt = capacity
  stored : (storedMap s.fs (mapData capacity)).bits = s.fs.freeMap.bits
  sector : InodeDisk.ofSector (s.fs.disk FREE_MAP_SECTOR) = mapData capacity
  reserved : ∀ sec, sec < m → s.fs.freeMap.bits[sec]? = some true
  used : ∀ x ∈ s.runs, x.1 + x.2 ≤ capacity ∧ ∀ i, inRun x.1 x.2 i → m ≤ i ∧ s.fs.freeMap.bits[i]? = some true
  apart : s.runs.Pairwise Apart

variable {s s' : MapUse} {capacity m cnt sector : Nat} {fs : FileSys} {bits : Bitmap}

/-- Everything but the reserved sectors and the runs. -/
theorem MapUse.Ok.next (h : s.Ok capacity m) (hmap : MapIs s.fs fs (mapData capacity) bits)
    (hdisk : SameOn (fun sec => ¬ (mapData capacity).Has sec) fs.disk s.fs.disk)
    {runs : List (Nat × Nat)} (hreserved : ∀ sec, sec < m → bits[sec]? = some true)
    (hused : ∀ x ∈ runs, x.1 + x.2 ≤ capacity ∧ ∀ i, inRun x.1 x.2 i → m ≤ i ∧ bits[i]? = some true)
    (hapart : runs.Pairwise Apart) : MapUse.Ok { fs := fs, runs := runs } capacity m where
  size := by
    show fs.capacity = capacity
    rw [hmap.frame]
    exact h.size
  map := hmap.mapFile h.map
  bitCnt := hmap.bitCnt.trans h.bitCnt
  stored := hmap.stored.trans hmap.memory.symm
  sector := by
    rw [← h.sector]
    refine InodeDisk.ofSector_congr fun k hk => hdisk FREE_MAP_SECTOR ?_ k hk
    show ¬ (mapData capacity).Has FREE_MAP_SECTOR
    rw [mapData_has]
    unfold FREE_MAP_SECTOR
    omega
  reserved := by
    show ∀ sec, sec < m → fs.freeMap.bits[sec]? = some true
    rw [hmap.memory]
    exact hreserved
  used := by
    show ∀ x ∈ runs, x.1 + x.2 ≤ capacity ∧ ∀ i, inRun x.1 x.2 i → m ≤ i ∧ fs.freeMap.bits[i]? = some true
    rw [hmap.memory]
    exact hused
  apart := hapart

theorem MapUse.Ok.allocate (h : s.Ok capacity m) (cnt : Nat) :
    ∃ s', s.step (.allocate cnt) = .ok s' ∧ s'.Ok capacity m := by
  cases hscan : bitmapScan s.fs.freeMap.bits 0 cnt false with
  | none =>
    refine ⟨s, ?_, h⟩
    rw [step, freeMapAllocate_none hscan]
  | some i =>
    obtain ⟨fs, hrun, hmap, hdisk⟩ := h.map.allocate hscan
    obtain ⟨-, hle, hfree⟩ := bitmapScan_some hscan
    rw [WordBitmap.length_bits, h.bitCnt] at hle
    -- the sectors that were found belong to nobody
    have hout : ∀ j : Nat, s.fs.freeMap.bits[j]? = some true → ¬ inRun i cnt j := by
      intro j hj hc
      rw [hfree j hc.1 hc.2] at hj
      cases hj
    have hkeep : ∀ j : Nat, s.fs.freeMap.bits[j]? = some true →
        (bitmapSetMultiple s.fs.freeMap.bits i cnt true)[j]? = some true := by
      intro j hj
      rw [getElem?_bitmapSetMultiple]
      split
      · rfl
      · exact hj
    refine ⟨{ fs := fs, runs := (i, cnt) :: s.runs }, ?_, h.next hmap hdisk ?_ ?_ ?_⟩
    · rw [step, hrun]
    · exact fun sec hsec => hkeep sec (h.reserved sec hsec)
    · intro x hx
      rcases List.mem_cons.mp hx with rfl | hx
      · refine ⟨hle, fun j hj => ⟨?_, ?_⟩⟩
        · by_contra hc
          exact hout j (h.reserved j (by omega)) hj
        · have hlen : s.fs.freeMap.bits.length = capacity := by rw [WordBitmap.length_bits, h.bitCnt]
          unfold inRun at hj
          rw [getElem?_bitmapSetMultiple, if_pos (by omega)]
      · obtain ⟨hx1, hx2⟩ := h.used x hx
        exact ⟨hx1, fun j hj => ⟨(hx2 j hj).1, hkeep j (hx2 j hj).2⟩⟩
    · refine List.pairwise_cons.mpr ⟨fun x hx => ?_, h.apart⟩
      obtain ⟨-, hx2⟩ := h.used x hx
      unfold Apart
      by_contra hc
      -- otherwise the larger of the two starts is in both runs
      have hin : inRun x.1 x.2 (max i x.1) := by
        unfold inRun
        omega
      refine hout _ (hx2 _ hin).2 ?_
      unfold inRun
      omega

theorem MapUse.Ok.release (h : s.Ok capacity m) (hmem : (sector, cnt) ∈ s.runs) :
    ∃ s', s.step (.release sector cnt) = .ok s' ∧ s'.Ok capacity m := by
  obtain ⟨hle, hused⟩ := h.used _ hmem
  obtain ⟨fs, hrun, hmap, hdisk⟩ := h.map.release (a := sector) (n := cnt) (by rw [h.bitCnt]; exact hle)
    fun i hlo hhi => (hused i ⟨hlo, hhi⟩).2
  have hperm := List.perm_cons_erase hmem
  have hpair := (hperm.pairwise_iff fun hxy => Apart.symm hxy).mp h.apart
  obtain ⟨hothers, hrest⟩ := List.pairwise_cons.mp hpair
  have hkeep : ∀ j, ¬ inRun sector cnt j →
      (bitmapSetMultiple s.fs.freeMap.bits sector cnt false)[j]? = s.fs.freeMap.bits[j]? := by
    intro j hj
    unfold inRun at hj
    rw [getElem?_bitmapSetMultiple, if_neg (by omega)]
  refine ⟨{ fs := fs, runs := s.runs.erase (sector, cnt) }, ?_, h.next hmap hdisk ?_ ?_ hrest⟩
  · rw [step, if_neg (not_not.mpr hmem), hrun]
  · intro sec hsec
    rw [hkeep sec fun hc => absurd (hused sec hc).1 (by omega)]
    exact h.reserved sec hsec
  · intro x hx
    obtain ⟨hx1, hx2⟩ := h.used x (List.mem_of_mem_erase hx)
    refine ⟨hx1, fun j hj => ⟨(hx2 j hj).1, ?_⟩⟩
    rw [hkeep j fun hc => ?_]
    · exact (hx2 j hj).2
    · have hap := hothers x hx
      unfold Apart at hap
      unfold inRun at hc hj
      simp only at hap
      omega

/-- A call is carried out, or is not possible. -/
theorem MapUse.Ok.step (h : s.Ok capacity m) (a : MapAction) :
    s.step a = .error .disabled ∨ ∃ s', s.step a = .ok s' ∧ s'.Ok capacity m := by
  cases a with
  | allocate cnt => exact Or.inr (h.allocate cnt)
  | release sector cnt =>
    by_cases hmem : (sector, cnt) ∈ s.runs
    · exact Or.inr (h.release hmem)
    · refine Or.inl ?_
      rw [MapUse.step, if_pos hmem]

theorem MapUse.Ok.of_reach {s₀ : MapUse} (h₀ : s₀.Ok capacity m) (h : Reach MapUse.step Always s₀ s) :
    s.Ok capacity m := by
  refine h.invariant (I := fun s => s.Ok capacity m) h₀ fun s a s' hs _ hstep => ?_
  rcases hs.step a with he | ⟨t, ht, hok⟩
  · rw [he] at hstep
    cases hstep
  · rw [ht] at hstep
    cases hstep
    exact hok

theorem Formatted.mapUse {stack : List Byte} (h : Formatted fs capacity stack) (hf : Formattable capacity) :
    MapUse.Ok { fs := fs, runs := [] } capacity (3 + (mapData capacity).sectors) where
  size := h.size
  map := h.map
  bitCnt := h.bitCnt
  stored := h.stored
  sector := h.mapSector
  reserved sec hsec := by
    have hle := hf.1
    show fs.freeMap.bits[sec]? = some true
    rw [h.bits, getElem?_usedBelow, if_pos (by omega), decide_eq_true hsec]
  used x hx := by cases hx
  apart := List.Pairwise.nil

/-! ## Restarting -/

/-- The free map that `filesys_init` reads after a restart. -/
theorem MapUse.Ok.restart (h : s.Ok capacity m) (hf : Formattable capacity) {block : List (BitVec 64)}
    (hblock : block.length = elemCnt capacity) (freeMap : WordBitmap) (stack : List Byte)
    (inode : InodeDisk) :
    ∃ fs, (filesysInit false block).run (FileSys.boot s.fs.disk capacity freeMap stack inode) = .ok ((), fs) ∧
      fs.freeMap.bits = s.fs.freeMap.bits := by
  have hle := hf.1
  obtain ⟨hok, -⟩ := bits_freeMapInit hblock (by omega)
  generalize hfm : (((WordBitmap.create capacity block).mark FREE_MAP_SECTOR).mark ROOT_DIR_SECTOR) = fm at hok
  have hcnt : fm.bitCnt = capacity := by
    rw [← hfm]
    exact WordBitmap.bitCnt_create
  have hinit : (freeMapInit block).run (FileSys.boot s.fs.disk capacity freeMap stack inode) =
      .ok ((), { FileSys.boot s.fs.disk capacity freeMap stack inode with freeMap := fm }) := by
    rw [← hfm]
    exact Prog.run_write rfl
  obtain ⟨b, hopen, -, -, hbits⟩ := freeMapOpen_spec
    (s := { FileSys.boot s.fs.disk capacity freeMap stack inode with freeMap := fm }) rfl
    (hf.selects rfl (by unfold FREE_MAP_SECTOR; omega))
    (by show (InodeDisk.ofSector (s.fs.disk FREE_MAP_SECTOR)).length = byteCnt fm.bitCnt
        rw [h.sector, hcnt]
        rfl)
    (by show OnDisk _ (InodeDisk.ofSector (s.fs.disk FREE_MAP_SECTOR))
        rw [h.sector]
        exact hf.mapOnDisk rfl)
    hok
  have hsame : b.bits = s.fs.freeMap.bits := by
    rw [hbits, ← h.stored]
    show (storedMap _ (InodeDisk.ofSector (s.fs.disk FREE_MAP_SECTOR))).bits = _
    rw [h.sector]
    unfold storedMap
    simp only [hcnt, h.bitCnt]
    rfl
  refine ⟨_, (?_ : _ = Except.ok ((), { mapOpened
    { FileSys.boot s.fs.disk capacity freeMap stack inode with freeMap := fm } with freeMap := b })), hsame⟩
  rw [filesysInit, Prog.run_bind_ok hinit]
  exact hopen

/-- **The free map survives a restart**: it is read back after every call, and what formatting
reserves stays in use. No call fails. -/
theorem free_map_survives_restart {block : List (BitVec 64)} (hf : Formattable capacity)
    (hblock : block.length = elemCnt capacity) (disk : Nat → Sector) (freeMap : WordBitmap)
    (stack : List Byte) (inode : InodeDisk) :
    ∃ fs₀, (filesysInit true block).run (FileSys.boot disk capacity freeMap stack inode) = .ok ((), fs₀) ∧
      ∀ s : MapUse, Reach MapUse.step Always { fs := fs₀, runs := [] } s →
        (∀ block', block'.length = elemCnt capacity → ∃ f b, s.fs.freeMapFile = some f ∧
          (bitmapRead (WordBitmap.create capacity block') f).run s.fs = .ok ((true, b), s.fs) ∧
          b.bits = s.fs.freeMap.bits) ∧
        (∀ block', block'.length = elemCnt capacity → ∃ fs,
          (filesysInit false block').run (FileSys.boot s.fs.disk capacity freeMap stack inode) = .ok ((), fs) ∧
          fs.freeMap.bits = s.fs.freeMap.bits) ∧
        (∀ sec, sec = FREE_MAP_SECTOR ∨ sec = ROOT_DIR_SECTOR ∨
          (InodeDisk.ofSector (fs₀.disk FREE_MAP_SECTOR)).Has sec ∨
          (InodeDisk.ofSector (fs₀.disk ROOT_DIR_SECTOR)).Has sec → s.fs.freeMap.bits[sec]? = some true) ∧
        ∀ a e, s.step a = .error e → e = .disabled := by
  obtain ⟨fs₀, hrun, hformat⟩ := format_spec hf hblock disk freeMap stack inode
  refine ⟨fs₀, hrun, fun s hs => ?_⟩
  have hok := MapUse.Ok.of_reach (hformat.mapUse hf) hs
  refine ⟨fun block' hblock' => ?_, fun block' hblock' => hok.restart hf hblock' freeMap stack inode,
    fun sec hsec => ?_, fun a e he => ?_⟩
  · obtain ⟨f, -, hfile, -, -⟩ := hok.map.file
    obtain ⟨b, hread, -, -, hbits⟩ := hok.map.bitmapRead (b := WordBitmap.create capacity block') hfile
      (by rw [WordBitmap.bitCnt_create, hok.bitCnt]) (.create hblock')
    exact ⟨f, b, hfile, hread, hbits.trans hok.stored⟩
  · refine hok.reserved sec ?_
    rw [hformat.mapSector, hformat.rootSector, mapData_has, rootData_has] at hsec
    unfold FREE_MAP_SECTOR ROOT_DIR_SECTOR at hsec
    omega
  · rcases hok.step a with hd | ⟨t, ht, -⟩
    · rw [hd] at he
      cases he
      rfl
    · rw [ht] at he
      cases he

/-- A disk with eight sectors, formatted. -/
theorem free_map_survives_restart_eight : ∃ fs₀,
    (filesysInit true [0]).run (FileSys.boot (fun _ _ => 0) 8 ⟨0, []⟩ [] ⟨0, 0⟩) = .ok ((), fs₀) ∧
    ∀ s : MapUse, Reach MapUse.step Always { fs := fs₀, runs := [] } s →
      s.fs.freeMap.bits[0]? = some true ∧ ∀ a e, s.step a = .error e → e = .disabled := by
  have hf : Formattable 8 := ⟨by decide, by decide⟩
  have hblock : ([0] : List (BitVec 64)).length = elemCnt 8 := rfl
  obtain ⟨fs₀, hrun, hall⟩ := free_map_survives_restart hf hblock (fun _ _ => 0) ⟨0, []⟩ [] ⟨0, 0⟩
  refine ⟨fs₀, hrun, fun s hs => ?_⟩
  obtain ⟨-, -, hreserved, hfault⟩ := hall s hs
  exact ⟨hreserved 0 (Or.inl rfl), hfault⟩

end Pintos
