import Mathlib.Data.List.Perm.Subperm
import Pintos.Properties.Format

/-!
# A directory is a finite map

In every run of `dir_add`, `dir_remove`, `dir_lookup` and `dir_readdir` on a directory that
`dir_create` made, the entries are a partial map from names to sectors.

* `dirRemove_spec` — a name is removed
* `DirInv` — the invariant of a directory
* `directory_is_a_map` — the map, with room for as many names as were asked for iff their entries
  fit in a file
-/

namespace Pintos

open Function Machine LittleEndian SlotMap

variable {s s' s₁ : FileSys} {p q : InodePtr} {d r : InodeDisk} {dir : Dir} {name : CStr}
  {e : DirEntry} {inode : Inode} {sector ofs k n : Nat}

/-! ## What is found -/

theorem value_of_findFrom {l : List DirEntry} (h : findFrom name l k = some (e, ofs)) :
    value (l.map DirEntry.slot) name.bytes = some e.inodeSector := by
  induction l generalizing k with
  | nil => cases h
  | cons x l ih =>
    rw [findFrom] at h
    rw [List.map_cons, DirEntry.slot]
    split at h
    · next hx =>
      cases h
      rw [if_pos hx.1, value, if_pos hx.2]
    · next hx =>
      split
      · next huse =>
        rw [value, if_neg fun hc => hx ⟨huse, hc⟩]
        exact ih h
      · exact ih h

/-- What `lookup` finds is what the map has. -/
theorem findFrom_cases (name : CStr) (disk : Nat → Sector) (r : InodeDisk) :
    (findFrom name (slots disk r) 0 = none ∧ value (table disk r) name.bytes = none) ∨
    ∃ e k, findFrom name (slots disk r) 0 = some (e, k * ENTRY_SIZE) ∧
      (slots disk r)[k]? = some e ∧ (table disk r)[k]? = some (some (name.bytes, e.inodeSector)) ∧
      value (table disk r) name.bytes = some e.inodeSector := by
  cases hfind : findFrom name (slots disk r) 0 with
  | none => exact Or.inl ⟨rfl, value_eq_none_iff.mpr (findFrom_none hfind)⟩
  | some x =>
    obtain ⟨e, ofs⟩ := x
    obtain ⟨k, hk, hofs, huse, hstr⟩ := findFrom_some hfind
    rw [Nat.zero_add] at hofs
    refine Or.inr ⟨e, k, by rw [hofs], hk, ?_, value_of_findFrom hfind⟩
    rw [table, List.getElem?_map, hk, Option.map_some, DirEntry.slot, if_pos huse, hstr]

theorem DirOpen.of_inode (h : DirOpen s q r) (hcap : s'.capacity = s.capacity)
    (hq : ∃ inode, s'.inodes q = some inode ∧ inode.data = r ∧ inode.denyWriteCnt = 0) :
    DirOpen s' q r where
  inode := hq
  onDisk := h.onDisk.congr hcap
  length := h.length

/-! ## `dir_remove` -/

/-- The inode in the sector can be opened, and given back where nobody else has it open. -/
def Removable (s : FileSys) (sector : Nat) : Prop :=
  s.findOpen sector s.openInodes = none →
    Releasable s.freeMap.bits sector (InodeDisk.ofSector (s.disk sector))

/-- The inode of the removed file was open, and stays so. -/
def KeptOpen (s s' : FileSys) (sector : Nat) : Prop :=
  ∃ q inode, s.inodes q = some inode ∧ inode.sector = sector ∧
    s' = { s with
      disk := s'.disk
      inodes := update s.inodes q (some { inode with removed := true }) }

/-- The sectors of the removed file were given back. -/
def GivenBack (s s' : FileSys) (d : InodeDisk) (sector : Nat) : Prop :=
  s.findOpen sector s.openInodes = none ∧
    MapIs { s with disk := s'.disk, brk := s.brk + 1 } s' d
      (released s.freeMap.bits sector (InodeDisk.ofSector (s.disk sector)))

theorem setInode_disk (s : FileSys) (q : InodePtr) (inode : Option Inode) (disk : Nat → Sector) :
    ({ s with disk := disk } : FileSys).setInode q inode = { s.setInode q inode with disk := disk } := rfl

/-- The entry is erased, and the file removed. -/
theorem run_dirRemove (hlookup : (lookup dir name).run s = .ok (some (e, ofs), s))
    (hopen : (inodeOpen e.inodeSector true).run s = .ok (some q, s₁)) {disk : Nat → Sector}
    (hwrite : (inodeWriteAt dir.inode (fun _ => { e with inUse := false : DirEntry }.toBytes) ENTRY_SIZE ofs).run s₁ =
      .ok (ENTRY_SIZE, { s₁ with disk := disk }))
    (hq : s₁.inodes q = some inode)
    (hclose : (inodeClose (some q)).run { s₁.setInode q (some { inode with removed := true }) with disk := disk } =
      .ok ((), s')) :
    (dirRemove dir name).run s = .ok (true, s') := by
  have hremove : (inodeRemove q).run { s₁ with disk := disk } =
      .ok ((), { s₁.setInode q (some { inode with removed := true }) with disk := disk }) := by
    rw [inodeRemove, updateInode]
    refine Prog.run_write ?_
    simp only [hq]
    rfl
  rw [dirRemove, Prog.run_bind_ok hlookup]
  simp only
  rw [Prog.run_bind_ok hopen]
  simp only
  rw [Prog.run_bind_ok hwrite, if_pos rfl, Prog.run_bind_ok hremove, Prog.run_bind_ok hclose]
  rfl

/-- **`dir_remove`** of a name of the directory. -/
theorem DirOpen.dirRemove (hd : DirOpen s dir.inode r) (hm : MapFile s p d)
    (hapart : ∀ sec, d.Has sec → ¬ r.Has sec) (hfresh : s.inodes s.brk = none)
    (hpos : ∀ q inode, s.inodes q = some inode → 0 < inode.openCnt)
    (hfind : findFrom name (slots s.disk r) 0 = some (e, k * ENTRY_SIZE))
    (hk : (slots s.disk r)[k]? = some e) (hsel : s.Selects e.inodeSector)
    (hremovable : Removable s e.inodeSector) :
    ∃ s', (Pintos.dirRemove dir name).run s = .ok (true, s') ∧
      table s'.disk r = (table s.disk r).set k none ∧
      SameOn (fun sec => ¬ d.Has sec ∧ ¬ r.Has sec) s'.disk s.disk ∧
      (KeptOpen s s' e.inodeSector ∨ GivenBack s s' d e.inodeSector) := by
  have hlookup : (Pintos.lookup dir name).run s = .ok (some (e, k * ENTRY_SIZE), s) := by
    rw [hd.lookup name, hfind]
  have hwf : ({ e with inUse := false } : DirEntry).Wf := by
    obtain ⟨h1, h2⟩ := wf_of_mem_slots (List.mem_of_getElem? hk)
    exact ⟨h1, h2⟩
  have hklt : k < r.entryCnt := by
    obtain ⟨hlt, -⟩ := List.getElem?_eq_some_iff.mp hk
    rwa [length_slots] at hlt
  -- the erased entry, written while the inode is open
  have erase : ∀ s₁, SameStore s s₁ → DirOpen s₁ dir.inode r → ∃ disk,
      (inodeWriteAt dir.inode (fun _ => { e with inUse := false : DirEntry }.toBytes) ENTRY_SIZE (k * ENTRY_SIZE)).run s₁ =
        .ok (ENTRY_SIZE, { s₁ with disk := disk }) ∧
      SameOn (fun sec => ¬ r.Has sec) disk s.disk ∧ table disk r = (table s.disk r).set k none := by
    intro s₁ hstore hd₁
    obtain ⟨disk, cnt, hrun, hcnt, hother, hslots, -⟩ := hd₁.writeEntry hwf k
    rw [hcnt.mpr hklt] at hrun
    rw [hstore.disk] at hother hslots
    refine ⟨disk, hrun, hother, ?_⟩
    rw [table, hslots, set_table, table]
    rfl
  obtain ⟨inode₀, hp₀, hdata₀, hdeny₀, hsec₀⟩ := hm.inode
  obtain ⟨inode₁, hp₁, hdata₁, hdeny₁⟩ := hd.inode
  rcases inodeOpen_spec hsel with ⟨q, inode, hopen, hq, hsec, hrun⟩ | ⟨hopen, hrun⟩
  · have hd₁ : DirOpen (reopened s q inode) dir.inode r := by
      refine hd.of_inode rfl ?_
      by_cases hdq : dir.inode = q
      · rw [hdq] at hp₁ ⊢
        rw [hq, Option.some.injEq] at hp₁
        subst hp₁
        exact ⟨_, update_self _ _ _, hdata₁, hdeny₁⟩
      · exact ⟨inode₁, (update_of_ne hdq _ _).trans hp₁, hdata₁, hdeny₁⟩
    obtain ⟨disk, hwrite, hother, htable⟩ := erase _ (reopened_sameStore s q inode) hd₁
    have hpos' := hpos q inode hq
    have hclose := run_inodeClose_kept (q := q)
      (s := { (reopened s q inode).setInode q (some { inode with openCnt := inode.openCnt + 1, removed := true }) with disk := disk })
      (update_self _ _ _) (by show inode.openCnt + 1 ≠ 1; omega)
    refine ⟨_, run_dirRemove hlookup hrun hwrite (update_self _ _ _) hclose, htable,
      hother.mono fun sec hs => hs.2, Or.inl ⟨q, inode, hq, hsec, ?_⟩⟩
    simp only [reopened, FileSys.setInode, update_idem, Int.add_sub_cancel]
  · have hne : ∀ {q' i}, s.inodes q' = some i → q' ≠ s.brk := by
      rintro q' i hi rfl
      rw [hfresh] at hi
      cases hi
    have hd₁ : DirOpen (withLoaded s e.inodeSector) dir.inode r :=
      hd.of_inode rfl ⟨inode₁, (update_of_ne (hne hp₁) _ _).trans hp₁, hdata₁, hdeny₁⟩
    obtain ⟨disk, hwrite, hother, htable⟩ := erase _ (withLoaded_sameStore s _) hd₁
    generalize hs₂ : ({ (withLoaded s e.inodeSector).setInode s.brk
      (some { loaded s e.inodeSector with removed := true }) with disk := disk } : FileSys) = s₂
    have hm₂ : MapFile s₂ p d := by
      rw [← hs₂, ← setInode_disk]
      refine (hm.setDisk disk).sameStore ⟨rfl, rfl, rfl, rfl, rfl, rfl⟩ ?_
      show update (update s.inodes s.brk _) s.brk _ p = s.inodes p
      rw [update_idem, update_of_ne (hne hp₀)]
    have hq₂ : s₂.inodes s.brk = some { loaded s e.inodeSector with removed := true } := by
      rw [← hs₂]
      exact update_self _ _ _
    have hbits₂ : s₂.freeMap = s.freeMap := by rw [← hs₂]; rfl
    obtain ⟨s', hclose, hmap, hdisk⟩ := run_inodeClose_removed hm₂ hq₂ (hne hp₀) rfl rfl
      (by rw [hbits₂]; exact hremovable hopen)
    have hdisk₂ : s₂.disk = disk := by rw [← hs₂]
    rw [hdisk₂] at hdisk
    refine ⟨s', run_dirRemove hlookup hrun hwrite (update_self _ _ _) (by rw [hs₂]; exact hclose), ?_, ?_,
      Or.inr ⟨hopen, ?_⟩⟩
    · rw [← htable]
      exact table_congr (hdisk.mono fun sec hs hc => hapart sec hc hs)
    · exact (hdisk.mono fun sec hs => hs.1).trans (hother.mono fun sec hs => hs.2)
    · rw [hbits₂] at hmap
      refine ⟨?_, hmap.ok, ?_, hmap.memory, hmap.stored⟩
      · have hinodes : update (update (update s.inodes s.brk (some (loaded s e.inodeSector))) s.brk
            (some { loaded s e.inodeSector with removed := true })) s.brk none = s.inodes := by
          rw [update_idem, update_idem, ← hfresh, update_eq_self]
        rw [hmap.frame, withoutInode, ← hs₂]
        simp only [FileSys.setInode, withLoaded, List.erase_cons_head, hinodes]
      · rw [hmap.bitCnt]
        show s₂.freeMap.bitCnt = s.freeMap.bitCnt
        rw [hbits₂]

/-- A name that is not there. -/
theorem DirOpen.dirRemove_absent (hd : DirOpen s dir.inode r)
    (hfind : findFrom name (slots s.disk r) 0 = none) :
    (Pintos.dirRemove dir name).run s = .ok (false, s) := by
  rw [Pintos.dirRemove, Prog.run_bind_ok (hd.lookup name), hfind]
  rfl

/-! ## The machine -/

structure DirUse where
  fs : FileSys
  dir : Dir

inductive DirAction where
  | add (name : CStr) (inodeSector : Nat)
  | remove (name : CStr)
  | lookup (name : CStr)
  | readdir

namespace DirUse

/-- The state after a call. -/
def after {α : Type} (r : Except FsFault (α × FileSys)) (next : α → FileSys → DirUse) : Except FsFault DirUse :=
  match r with
  | .error e => .error e
  | .ok (a, fs) => .ok (next a fs)

def step (s : DirUse) : DirAction → Except FsFault DirUse
  | .add name sector => after ((dirAdd s.dir name sector).run s.fs) fun _ fs => { s with fs := fs }
  | .remove name => after ((dirRemove s.dir name).run s.fs) fun _ fs => { s with fs := fs }
  | .lookup name => after ((dirLookup s.dir name).run s.fs) fun _ fs => { s with fs := fs }
  | .readdir => after ((dirReaddir s.dir).run s.fs) fun r fs => { fs := fs, dir := r.2 }

/-- The sectors in the directory are those of inodes: `dir_add` is given a sector of the disk, and
`dir_remove` finds one whose blocks can be released. -/
def Proper (s : DirUse) : DirAction → Prop
  | .add _ sector => s.fs.Selects sector
  | .remove name => ∀ e ofs fs, (lookup s.dir name).run s.fs = .ok (some (e, ofs), fs) → Removable s.fs e.inodeSector
  | _ => True

end DirUse

/-- `dir_readdir` again and again. -/
def readdirs : Nat → Dir → FsProg (List (Option (List Byte)))
  | 0, _ => pure []
  | k + 1, dir => do
    let (name, dir) ← dirReaddir dir
    let rest ← readdirs k dir
    pure (name :: rest)

/-- The directory with the inode `r` is a partial map with room for `n` names. -/
structure IsMap (n : Nat) (s : DirUse) (r : InodeDisk) : Prop where
  /-- No two entries in use have the same name. -/
  unique : ∀ (i j : Nat) e e', (slots s.fs.disk r)[i]? = some e → (slots s.fs.disk r)[j]? = some e' →
    e.inUse → e'.inUse → e.string = e'.string → i = j
  mem : ∀ name, name ∈ keys (table s.fs.disk r) ↔ value (table s.fs.disk r) name ≠ none
  nodup : (keys (table s.fs.disk r)).Nodup
  names : ∀ name ∈ keys (table s.fs.disk r), 1 ≤ name.length ∧ name.length ≤ NAME_MAX
  size : (keys (table s.fs.disk r)).length ≤ n
  add : ∀ name sector, s.Proper (.add name sector) → ∃ ok fs,
    (dirAdd s.dir name sector).run s.fs = .ok (ok, fs) ∧
    (ok = true ↔ ValidName name ∧ value (table s.fs.disk r) name.bytes = none ∧
      (keys (table s.fs.disk r)).length < n) ∧
    value (table fs.disk r) = if ok then update (value (table s.fs.disk r)) name.bytes (some sector)
      else value (table s.fs.disk r)
  remove : ∀ name, s.Proper (.remove name) → ∃ ok fs,
    (dirRemove s.dir name).run s.fs = .ok (ok, fs) ∧
    (ok = true ↔ value (table s.fs.disk r) name.bytes ≠ none) ∧
    value (table fs.disk r) = if ok then update (value (table s.fs.disk r)) name.bytes none
      else value (table s.fs.disk r)
  lookup : ∀ name, ∃ found fs, (dirLookup s.dir name).run s.fs = .ok (found, fs) ∧
    table fs.disk r = table s.fs.disk r ∧
    match value (table s.fs.disk r) name.bytes with
    | none => found = none
    | some sector => ∃ q inode, found = some q ∧ fs.inodes q = some inode ∧ inode.sector = sector
  readdir : ∀ j, (readdirs ((keys (table s.fs.disk r)).length + j) { s.dir with pos := 0 }).run s.fs =
    .ok ((keys (table s.fs.disk r)).map some ++ List.replicate j none, s.fs)

/-! ## Reading all names -/

theorem readFrom_cases (l : List DirEntry) (k : Nat) :
    (keys (l.map DirEntry.slot) = [] ∧ readFrom l k = (none, (k + l.length) * ENTRY_SIZE)) ∨
    ∃ i name, i < l.length ∧ readFrom l k = (some name, (k + i + 1) * ENTRY_SIZE) ∧
      keys (l.map DirEntry.slot) = name :: keys ((l.drop (i + 1)).map DirEntry.slot) := by
  induction l generalizing k with
  | nil => exact Or.inl ⟨rfl, rfl⟩
  | cons e l ih =>
    rw [readFrom, List.map_cons, DirEntry.slot]
    by_cases huse : e.inUse
    · rw [if_pos huse, if_pos huse]
      exact Or.inr ⟨0, e.string, Nat.succ_pos _, rfl, rfl⟩
    · rw [if_neg huse, if_neg huse, keys_none, List.length_cons]
      rcases ih (k + 1) with ⟨hnone, hread⟩ | ⟨i, name, hi, hread, hkeys⟩
      · refine Or.inl ⟨hnone, ?_⟩
        rw [hread]
        congr 2
        omega
      · refine Or.inr ⟨i + 1, name, Nat.succ_lt_succ hi, ?_, hkeys⟩
        rw [hread]
        congr 2
        omega

theorem DirOpen.dirReaddir (hd : DirOpen s dir.inode r) (hpos : dir.pos = k * ENTRY_SIZE)
    (hk : k ≤ r.entryCnt) : (Pintos.dirReaddir dir).run s =
      .ok (((readFrom ((slots s.disk r).drop k) k).1,
        { dir with pos := (readFrom ((slots s.disk r).drop k) k).2 }), s) := by
  have hlt := hd.entryCnt_lt
  have hloop := hd.readdirLoop maxEntries k (by omega) hk
  rw [Pintos.dirReaddir, hpos, Prog.run_bind_ok hloop]
  rfl

/-- The position after a name is read. -/
theorem readFrom_pos (disk : Nat → Sector) (r : InodeDisk) (hk : k ≤ r.entryCnt) :
    ∃ k', (readFrom ((slots disk r).drop k) k).2 = k' * ENTRY_SIZE ∧ k' ≤ r.entryCnt := by
  have hlen : ((slots disk r).drop k).length = r.entryCnt - k := by rw [List.length_drop, length_slots]
  rcases readFrom_cases ((slots disk r).drop k) k with ⟨-, hread⟩ | ⟨i, name, hi, hread, -⟩
  · exact ⟨_, by rw [hread], by omega⟩
  · exact ⟨_, by rw [hread], by omega⟩

/-- Every name is read once, and then none. -/
theorem DirOpen.readdirs (hd : DirOpen s dir.inode r) : ∀ (m k j : Nat) (dir' : Dir),
    dir'.inode = dir.inode → dir'.pos = k * ENTRY_SIZE → k ≤ r.entryCnt →
    m = (keys (((slots s.disk r).drop k).map DirEntry.slot)).length + j →
    (readdirs m dir').run s =
      .ok ((keys (((slots s.disk r).drop k).map DirEntry.slot)).map some ++ List.replicate j none, s)
  | 0, k, j, dir', hinode, hpos, hk, hm => by
    have hz : keys (((slots s.disk r).drop k).map DirEntry.slot) = [] :=
      List.eq_nil_of_length_eq_zero (by omega)
    have hj : j = 0 := by omega
    rw [hz, hj]
    rfl
  | m + 1, k, j, dir', hinode, hpos, hk, hm => by
    have hd' : DirOpen s dir'.inode r := by
      rw [hinode]
      exact hd
    have hlen : ((slots s.disk r).drop k).length = r.entryCnt - k := by
      rw [List.length_drop, length_slots]
    rw [Pintos.readdirs, Prog.run_bind_ok (hd'.dirReaddir hpos hk)]
    simp only
    rcases readFrom_cases ((slots s.disk r).drop k) k with ⟨hnone, hread⟩ | ⟨i, name, hi, hread, hkeys⟩
    · -- from the end on nothing is read
      rw [hnone, List.length_nil, Nat.zero_add] at hm
      have hend : (slots s.disk r).drop (k + (r.entryCnt - k)) = [] := drop_slots_nil (by omega)
      have hrest := hd.readdirs m (k + (r.entryCnt - k)) m
        { dir' with pos := (k + (r.entryCnt - k)) * ENTRY_SIZE } hinode rfl (by omega)
        (by rw [hend, List.map_nil, keys_nil, List.length_nil, Nat.zero_add])
      rw [hend] at hrest
      rw [hread, hlen, Prog.run_bind_ok hrest, hnone, ← hm]
      rfl
    · rw [hkeys, List.length_cons] at hm
      rw [List.drop_drop] at hkeys hm
      have hrest := hd.readdirs m (k + (i + 1)) j { dir' with pos := (k + (i + 1)) * ENTRY_SIZE } hinode rfl
        (by omega) (by omega)
      rw [hread, Nat.add_assoc, Prog.run_bind_ok hrest, hkeys]
      rfl

/-! ## Inodes that stay open -/

/-- The inodes in memory are still there, with their data, and all that are there are open. -/
structure Opened (s fs : FileSys) : Prop where
  kept : ∀ q i, s.inodes q = some i → ∃ j, fs.inodes q = some j ∧ j.data = i.data ∧
    j.denyWriteCnt = i.denyWriteCnt ∧ j.sector = i.sector
  positive : (∀ q i, s.inodes q = some i → 0 < i.openCnt) → ∀ q i, fs.inodes q = some i → 0 < i.openCnt
  fresh : (∀ q, s.brk ≤ q → s.inodes q = none) → ∀ q, fs.brk ≤ q → fs.inodes q = none

theorem Opened.refl (s : FileSys) : Opened s s :=
  ⟨fun _ i hi => ⟨i, hi, rfl, rfl, rfl⟩, fun h => h, fun h => h⟩

/-- One inode is changed. -/
theorem Opened.change {fs : FileSys} (inode' : Inode) (hq : s.inodes q = some inode)
    (hinodes : fs.inodes = update s.inodes q (some inode')) (hbrk : fs.brk = s.brk)
    (hdata : inode'.data = inode.data) (hdeny : inode'.denyWriteCnt = inode.denyWriteCnt)
    (hsector : inode'.sector = inode.sector) (hopen : inode.openCnt ≤ inode'.openCnt) : Opened s fs where
  kept q' i hi := by
    rw [hinodes]
    by_cases hqq : q' = q
    · subst hqq
      rw [hq, Option.some.injEq] at hi
      subst hi
      exact ⟨inode', update_self _ _ _, hdata, hdeny, hsector⟩
    · exact ⟨i, (update_of_ne hqq _ _).trans hi, rfl, rfl, rfl⟩
  positive hpos q' i hi := by
    rw [hinodes] at hi
    by_cases hqq : q' = q
    · rw [hqq, update_self, Option.some.injEq] at hi
      have h0 := hpos q inode hq
      rw [← hi]
      omega
    · rw [update_of_ne hqq] at hi
      exact hpos q' i hi
  fresh hfresh q' hle := by
    rw [hbrk] at hle
    have hnone := hfresh q' hle
    have hqq : q' ≠ q := by
      rintro rfl
      rw [hq] at hnone
      cases hnone
    rw [hinodes, update_of_ne hqq]
    exact hnone

/-- An inode that was not in memory is read. -/
theorem Opened.loaded (hfresh : s.inodes s.brk = none) (sector : Nat) : Opened s (withLoaded s sector) where
  kept q i hi := by
    have hqb : q ≠ s.brk := by
      rintro rfl
      rw [hfresh] at hi
      cases hi
    exact ⟨i, (update_of_ne hqb _ _).trans hi, rfl, rfl, rfl⟩
  positive hpos q i hi := by
    have hi' : update s.inodes s.brk (some (Pintos.loaded s sector)) q = some i := hi
    by_cases hqb : q = s.brk
    · rw [hqb, update_self, Option.some.injEq] at hi'
      rw [← hi']
      exact Int.one_pos
    · rw [update_of_ne hqb] at hi'
      exact hpos q i hi'
  fresh hf q hle := by
    have hlt : s.brk < q := hle
    have hqb : q ≠ s.brk := Nat.ne_of_gt hlt
    exact (update_of_ne hqb _ _).trans (hf q (Nat.le_of_lt hlt))

/-- The free map file is still open. -/
theorem MapFile.opened {fs : FileSys} (h : MapFile s p d) (ho : Opened s fs) (hs : fs.capacity = s.capacity)
    (hm : fs.freeMap = s.freeMap) (hfile : fs.freeMapFile = s.freeMapFile) (hfiles : fs.files = s.files) :
    MapFile fs p d where
  file := by
    rw [hfile, hfiles]
    exact h.file
  inode := by
    obtain ⟨i, hi, hdata, hdeny, hsector⟩ := h.inode
    obtain ⟨j, hj, hdata', hdeny', hsector'⟩ := ho.kept p i hi
    exact ⟨j, hj, hdata'.trans hdata, hdeny'.trans hdeny, hsector'.trans hsector⟩
  length := by
    rw [hm]
    exact h.length
  onDisk := h.onDisk.congr hs
  ok := by
    rw [hm]
    exact h.ok

/-! ## The invariant -/

/-- A directory with the inode `r`, on a disk whose free map file is `d`. -/
structure DirInv (s : DirUse) (p : InodePtr) (d r : InodeDisk) : Prop where
  map : MapFile s.fs p d
  dir : DirOpen s.fs s.dir.inode r
  apart : ∀ sec, d.Has sec → ¬ r.Has sec
  fresh : ∀ q, s.fs.brk ≤ q → s.fs.inodes q = none
  positive : ∀ q inode, s.fs.inodes q = some inode → 0 < inode.openCnt
  stack : s.fs.stack.length = ENTRY_SIZE
  unique : Unique (table s.fs.disk r)
  names : ∀ name ∈ keys (table s.fs.disk r), 1 ≤ name.length ∧ name.length ≤ NAME_MAX
  selects : ∀ name sec, some (name, sec) ∈ table s.fs.disk r → s.fs.Selects sec
  pos : ∃ k, s.dir.pos = k * ENTRY_SIZE ∧ k ≤ r.entryCnt

variable {u : DirUse} {fs fs' : FileSys} {nm : List Byte}

/-- The invariant holds again where the inodes stay open and the entries are in order. -/
theorem DirInv.next (h : DirInv u p d r) (ho : Opened u.fs fs) (hcap : fs.capacity = u.fs.capacity)
    (hmap : MapFile fs p d) (hstack : fs.stack = u.fs.stack) (hunique : Unique (table fs.disk r))
    (hnames : ∀ name ∈ keys (table fs.disk r), 1 ≤ name.length ∧ name.length ≤ NAME_MAX)
    (hselects : ∀ name sec, some (name, sec) ∈ table fs.disk r → u.fs.Selects sec) :
    DirInv { u with fs := fs } p d r where
  map := hmap
  dir := by
    obtain ⟨i, hi, hdata, hdeny⟩ := h.dir.inode
    obtain ⟨j, hj, hdata', hdeny', -⟩ := ho.kept _ i hi
    exact h.dir.of_inode hcap ⟨j, hj, hdata'.trans hdata, hdeny'.trans hdeny⟩
  apart := h.apart
  fresh := ho.fresh h.fresh
  positive := ho.positive h.positive
  stack := by
    show fs.stack.length = ENTRY_SIZE
    rw [hstack]
    exact h.stack
  unique := hunique
  names := hnames
  selects name sec hmem := by
    obtain ⟨h1, h2⟩ := hselects name sec hmem
    exact ⟨by show sec < fs.capacity; rw [hcap]; exact h1, h2⟩
  pos := h.pos

/-- **`dir_add`** adds a valid new name while there is room. -/
theorem DirInv.add (h : DirInv u p d r) (name : CStr) (hsel : u.fs.Selects sector) :
    ∃ ok fs, (dirAdd u.dir name sector).run u.fs = .ok (ok, fs) ∧
      (ok = true ↔ ValidName name ∧ value (table u.fs.disk r) name.bytes = none ∧
        (keys (table u.fs.disk r)).length < r.entryCnt) ∧
      (value (table fs.disk r) = if ok then update (value (table u.fs.disk r)) name.bytes (some sector)
        else value (table u.fs.disk r)) ∧
      (keys (table fs.disk r)).length = (keys (table u.fs.disk r)).length + ok.toNat ∧
      fs.capacity = u.fs.capacity ∧ DirInv { u with fs := fs } p d r := by
  by_cases hname : ValidName name ∧ name.bytes ∉ keys (table u.fs.disk r)
  · obtain ⟨hv, hnew⟩ := hname
    obtain ⟨hlt, hlt28⟩ := hsel
    have hlt32 : sector < 2 ^ 32 := by omega
    obtain ⟨disk, hrun, hother, htable, -⟩ := h.dir.dirAdd h.stack hlt32 hv hnew
    have hmap : MapFile { u.fs with disk := disk } p d := h.map.setDisk disk
    have hopened : Opened u.fs { u.fs with disk := disk } :=
      ⟨(Opened.refl u.fs).kept, (Opened.refl u.fs).positive, (Opened.refl u.fs).fresh⟩
    refine ⟨_, _, hrun, ?_, ?_⟩
    · rw [decide_eq_true_eq, value_eq_none_iff, ← length_keys_lt_iff, length_table]
      exact ⟨fun hroom => ⟨hv, hnew, hroom⟩, fun hc => hc.2.2⟩
    · by_cases hroom : none ∈ table u.fs.disk r
      · have hfree : (table u.fs.disk r)[freeIdx (slots u.fs.disk r)]? = some none :=
          getElem?_freeIdx (freeIdx_lt_iff.mpr hroom)
        have hperm := keys_insert hfree name.bytes sector
        rw [decide_eq_true hroom]
        refine ⟨?_, ?_, rfl, h.next hopened rfl hmap rfl ?_ ?_ ?_⟩
        · rw [htable, value_insert hfree hnew, if_pos rfl]
        · rw [htable, hperm.length_eq]
          rfl
        · rw [htable]
          exact h.unique.insert hfree hnew sector
        · intro nm hnm
          rw [htable] at hnm
          rcases List.mem_cons.mp (hperm.mem_iff.mp hnm) with rfl | hold
          · exact ⟨List.length_pos_iff.mpr hv.1, hv.2⟩
          · exact h.names nm hold
        · intro nm sec hmem
          rw [htable] at hmem
          rcases List.mem_or_eq_of_mem_set hmem with hold | hnew'
          · exact h.selects nm sec hold
          · cases hnew'
            exact ⟨hlt, hlt28⟩
      · -- no slot is free, and what is written is not an entry
        have hsame : table disk r = table u.fs.disk r := by
          rw [htable]
          refine List.set_eq_of_length_le ?_
          rw [table, List.length_map]
          exact Nat.le_of_not_lt (mt freeIdx_lt_iff.mp hroom)
        rw [decide_eq_false hroom]
        refine ⟨?_, ?_, rfl, h.next hopened rfl hmap rfl ?_ ?_ ?_⟩
        · rw [hsame]
          rfl
        · rw [hsame]
          rfl
        · rw [hsame]
          exact h.unique
        · rw [hsame]
          exact h.names
        · rw [hsame]
          exact h.selects
  · have hbad : ¬ ValidName name ∨ name.bytes ∈ keys (table u.fs.disk r) := by
      by_cases hv : ValidName name
      · exact Or.inr (by by_contra hc; exact hname ⟨hv, hc⟩)
      · exact Or.inl hv
    refine ⟨false, u.fs, h.dir.dirAdd_refused sector hbad, ?_, rfl, rfl, rfl, h⟩
    rw [value_eq_none_iff]
    exact iff_of_false (by decide) fun hc => hname ⟨hc.1, hc.2.1⟩

/-- A slot in use has the key and the value it maps. -/
theorem DirInv.selects_value (h : DirInv u p d r) {sec : Nat} (hv : value (table u.fs.disk r) nm = some sec) :
    u.fs.Selects sec := h.selects nm sec (h.unique.value_eq.mp hv)

/-- **`dir_remove`** deletes the name, if it is there. -/
theorem DirInv.remove (h : DirInv u p d r) (name : CStr) (hproper : u.Proper (.remove name)) :
    ∃ ok fs, (dirRemove u.dir name).run u.fs = .ok (ok, fs) ∧
      (ok = true ↔ value (table u.fs.disk r) name.bytes ≠ none) ∧
      (value (table fs.disk r) = if ok then update (value (table u.fs.disk r)) name.bytes none
        else value (table u.fs.disk r)) ∧
      DirInv { u with fs := fs } p d r := by
  rcases findFrom_cases name u.fs.disk r with ⟨hfind, hnone⟩ | ⟨e, k, hfind, hk, hslot, hvalue⟩
  · refine ⟨false, u.fs, h.dir.dirRemove_absent hfind, ?_, rfl, h⟩
    exact iff_of_false (by decide) fun hc => hc hnone
  · have hremovable : Removable u.fs e.inodeSector :=
      hproper e (k * ENTRY_SIZE) u.fs (by rw [h.dir.lookup name, hfind])
    obtain ⟨fs, hrun, htable, -, hhow⟩ := h.dir.dirRemove h.map h.apart (h.fresh _ (Nat.le_refl _)) h.positive
      hfind hk (h.selects_value hvalue) hremovable
    refine ⟨true, fs, hrun, iff_of_true rfl (by rw [hvalue]; simp), ?_, ?_⟩
    · rw [htable, h.unique.value_erase hslot]
      rfl
    have hunique : Unique (table fs.disk r) := by
      rw [htable]
      exact h.unique.erase hslot
    have hnames : ∀ nm ∈ keys (table fs.disk r), 1 ≤ nm.length ∧ nm.length ≤ NAME_MAX := by
      intro nm hnm
      rw [htable] at hnm
      exact h.names nm ((keys_erase hslot).mem_iff.mpr (List.mem_cons_of_mem _ hnm))
    have hselects : ∀ nm sec, some (nm, sec) ∈ table fs.disk r → u.fs.Selects sec := by
      intro nm sec hmem
      rw [htable] at hmem
      rcases List.mem_or_eq_of_mem_set hmem with hold | hnew
      · exact h.selects nm sec hold
      · cases hnew
    rcases hhow with ⟨q, inode, hq, -, hfs⟩ | ⟨-, hmap⟩
    · -- only the mark of the inode changes
      have ho : Opened u.fs fs := Opened.change { inode with removed := true } hq
        (by rw [hfs]) (by rw [hfs]) rfl rfl rfl (Int.le_refl _)
      exact h.next ho (by rw [hfs]) (h.map.opened ho (by rw [hfs]) (by rw [hfs]) (by rw [hfs]) (by rw [hfs]))
        (by rw [hfs]) hunique hnames hselects
    · have ho : Opened u.fs fs := by
        rw [hmap.frame]
        exact ⟨(Opened.refl u.fs).kept, (Opened.refl u.fs).positive,
          fun hf q hle => hf q (Nat.le_of_succ_le hle)⟩
      have hm : MapFile { u.fs with disk := fs.disk, brk := u.fs.brk + 1 } p d := (h.map.setDisk fs.disk).opened
        ⟨(Opened.refl u.fs).kept, (Opened.refl u.fs).positive, fun hf q hle => hf q (Nat.le_of_succ_le hle)⟩
        rfl rfl rfl rfl
      exact h.next ho (by rw [hmap.frame]) (hmap.mapFile hm) (by rw [hmap.frame]) hunique hnames hselects

/-- **`dir_lookup`** opens the inode in the sector of the name. -/
theorem DirInv.lookup (h : DirInv u p d r) (name : CStr) :
    ∃ found fs, (dirLookup u.dir name).run u.fs = .ok (found, fs) ∧ fs.disk = u.fs.disk ∧
      (match value (table u.fs.disk r) name.bytes with
        | none => found = none
        | some sector => ∃ q inode, found = some q ∧ fs.inodes q = some inode ∧ inode.sector = sector) ∧
      DirInv { u with fs := fs } p d r := by
  rcases findFrom_cases name u.fs.disk r with ⟨hfind, hnone⟩ | ⟨e, k, hfind, hk, hslot, hvalue⟩
  · refine ⟨none, u.fs, ?_, rfl, ?_, h⟩
    · rw [dirLookup, Prog.run_bind_ok (h.dir.lookup name), hfind]
      rfl
    · rw [hnone]
  · have hrun : ∀ found fs, (inodeOpen e.inodeSector true).run u.fs = .ok (found, fs) →
        (dirLookup u.dir name).run u.fs = .ok (found, fs) := by
      intro found fs hopen
      rw [dirLookup, Prog.run_bind_ok (h.dir.lookup name), hfind]
      exact hopen
    have hkeep : ∀ fs, SameStore u.fs fs → Opened u.fs fs → DirInv { u with fs := fs } p d r := by
      intro fs hstore ho
      have htable : table fs.disk r = table u.fs.disk r := by rw [hstore.disk]
      refine h.next ho hstore.capacity
        (h.map.opened ho hstore.capacity hstore.freeMap hstore.freeMapFile hstore.files) hstore.stack ?_ ?_ ?_
      · rw [htable]
        exact h.unique
      · rw [htable]
        exact h.names
      · rw [htable]
        exact h.selects
    rw [hvalue]
    rcases inodeOpen_spec (h.selects_value hvalue) with ⟨q, inode, -, hq, hsec, hopen⟩ | ⟨-, hopen⟩
    · exact ⟨some q, _, hrun _ _ hopen, rfl, ⟨q, _, rfl, update_self _ _ _, hsec⟩,
        hkeep _ (reopened_sameStore _ _ _) (Opened.change { inode with openCnt := inode.openCnt + 1 } hq
          rfl rfl rfl rfl rfl (Int.le_add_one (Int.le_refl _)))⟩
    · exact ⟨some u.fs.brk, _, hrun _ _ hopen, rfl, ⟨_, _, rfl, update_self _ _ _, rfl⟩,
        hkeep _ (withLoaded_sameStore _ _) (Opened.loaded (h.fresh _ (Nat.le_refl _)) _)⟩

theorem DirInv.readdir (h : DirInv u p d r) : ∃ name dir, (dirReaddir u.dir).run u.fs = .ok ((name, dir), u.fs) ∧
    DirInv { u with dir := dir } p d r := by
  obtain ⟨k, hk, hle⟩ := h.pos
  exact ⟨_, _, h.dir.dirReaddir hk hle, h.map, h.dir, h.apart, h.fresh, h.positive, h.stack, h.unique,
    h.names, h.selects, readFrom_pos u.fs.disk r hle⟩

/-- **The step lemma.** -/
theorem DirInv.step (h : DirInv u p d r) (a : DirAction) (ha : u.Proper a) :
    ∃ u', u.step a = .ok u' ∧ DirInv u' p d r := by
  cases a with
  | add name sector =>
    obtain ⟨ok, fs, hrun, -, -, -, -, hinv⟩ := h.add name ha
    exact ⟨_, by rw [DirUse.step, hrun]; rfl, hinv⟩
  | remove name =>
    obtain ⟨ok, fs, hrun, -, -, hinv⟩ := h.remove name ha
    exact ⟨_, by rw [DirUse.step, hrun]; rfl, hinv⟩
  | lookup name =>
    obtain ⟨found, fs, hrun, -, -, hinv⟩ := h.lookup name
    exact ⟨_, by rw [DirUse.step, hrun]; rfl, hinv⟩
  | readdir =>
    obtain ⟨name, dir, hrun, hinv⟩ := h.readdir
    exact ⟨_, by rw [DirUse.step, hrun]; rfl, hinv⟩

theorem DirInv.of_reach {u₀ : DirUse} (h₀ : DirInv u₀ p d r) (h : Reach DirUse.step DirUse.Proper u₀ u) :
    DirInv u p d r := by
  refine h.invariant (I := fun u => DirInv u p d r) h₀ fun u a u' hu ha hstep => ?_
  obtain ⟨t, ht, hinv⟩ := hu.step a ha
  rw [ht] at hstep
  cases hstep
  exact hinv

/-- **A directory is a map** with room for the entries its file has. -/
theorem DirInv.isMap (h : DirInv u p d r) : IsMap r.entryCnt u r where
  unique i j e e' hi hj huse huse' hstr := by
    have hslot : ∀ (k : Nat) x, (slots u.fs.disk r)[k]? = some x → x.inUse →
        (table u.fs.disk r)[k]? = some (some (x.string, x.inodeSector)) := by
      intro k x hk hx
      rw [table, List.getElem?_map, hk, Option.map_some, DirEntry.slot, if_pos hx]
    exact h.unique.index_eq (hslot i e hi huse) (by rw [hslot j e' hj huse', hstr])
  mem name := by rw [Ne, value_eq_none_iff, not_not]
  nodup := h.unique
  names := h.names
  size := by
    rw [← length_table u.fs.disk r]
    exact length_keys_le _
  add name sector hp := by
    obtain ⟨ok, fs, hrun, hiff, hval, -, -, -⟩ := h.add name hp
    exact ⟨ok, fs, hrun, hiff, hval⟩
  remove name hp := by
    obtain ⟨ok, fs, hrun, hiff, hval, -⟩ := h.remove name hp
    exact ⟨ok, fs, hrun, hiff, hval⟩
  lookup name := by
    obtain ⟨found, fs, hrun, hdisk, hfound, -⟩ := h.lookup name
    exact ⟨found, fs, hrun, by rw [hdisk], hfound⟩
  readdir j := by
    have hd := h.dir.readdirs _ 0 j { u.dir with pos := 0 } rfl (Nat.zero_mul _).symm (Nat.zero_le _) rfl
    rw [List.drop_zero] at hd
    exact hd

/-! ## Making a directory -/

/-- The sector `sec` is taken for the inode of a directory, on a disk whose free map file is `d`. -/
structure Prepared (s : FileSys) (p : InodePtr) (d : InodeDisk) (sec : Nat) : Prop where
  map : MapFile s p d
  bitCnt : s.freeMap.bitCnt = s.capacity
  capacity : s.capacity ≤ 2 ^ 28
  used : ∀ i, i = sec ∨ d.Has i → s.freeMap.bits[i]? = some true
  apart : ¬ d.Has sec
  unopened : ∀ q i, s.inodes q = some i → i.sector ≠ sec
  fresh : ∀ q, s.brk ≤ q → s.inodes q = none
  positive : ∀ q i, s.inodes q = some i → 0 < i.openCnt
  stack : s.stack.length = ENTRY_SIZE

/-- The length of the file of `n` entries, as an `off_t`. -/
def dirLength (n : Nat) : Int := toInt32 (n * ENTRY_SIZE % 2 ^ 32)

theorem dirLength_lt (n : Nat) : dirLength n < 2 ^ 31 := by
  unfold dirLength toInt32
  split <;> omega

theorem dirLength_nonneg_iff (n : Nat) : 0 ≤ dirLength n ↔ n * ENTRY_SIZE % 2 ^ 32 < 2 ^ 31 := by
  unfold dirLength toInt32
  split <;> omega

/-- An entry of zeros is not in use. -/
theorem slots_zero {start : Nat} {length : Int} (h : ∀ i, (InodeDisk.mk start length).Has i → disk i = fun _ => 0) :
    ∀ e ∈ slots disk ⟨start, length⟩, e.inUse = false := by
  intro e he
  obtain ⟨k, hk, rfl⟩ := List.mem_map.mp he
  have hle := entry_le (List.mem_range.mp hk)
  have hbyte : (fileBytes disk start (k * ENTRY_SIZE) ENTRY_SIZE).getD 19 0 = 0 := by
    rw [fileBytes, List.getD_eq_getElem?_getD, List.getElem?_map, List.getElem?_range (by decide),
      Option.map_some, Option.getD_some, fileByte,
      h _ (InodeDisk.has_div (InodeDisk.mk start length) (by unfold ENTRY_SIZE at *; omega))]
  show decide (_ ≠ _) = false
  rw [decide_eq_false_iff_not, not_not]
  exact hbyte

/-- **`dir_create`** makes a directory without names, or finds no room for it. -/
theorem Prepared.dirCreate (h : Prepared s p d sector) (n : Nat) (h0 : 0 ≤ dirLength n) :
    (bitmapScan s.freeMap.bits 0 (bytesToSectors (dirLength n)) false = none ∧
      (dirCreate sector n).run s = .ok (false, s)) ∨
    ∃ start s₁ bits, (dirCreate sector n).run s = .ok (true, s₁) ∧ MapIs s s₁ d bits ∧
      dirLength n + 511 < 2 ^ 31 ∧ InodeDisk.ofSector (s₁.disk sector) = ⟨start, dirLength n⟩ ∧ OnDisk s₁ ⟨start, dirLength n⟩ ∧
      (∀ i, d.Has i → ¬ (InodeDisk.mk start (dirLength n)).Has i) ∧
      ∀ e ∈ slots s₁.disk ⟨start, dirLength n⟩, e.inUse = false := by
  cases hscan : bitmapScan s.freeMap.bits 0 (bytesToSectors (dirLength n)) false with
  | none => exact Or.inl ⟨rfl, inodeCreate_none h0 (freeMapAllocate_none hscan)⟩
  | some start =>
    right
    obtain ⟨s₁, halloc, hmap, hdisk⟩ := h.map.allocate hscan
    obtain ⟨-, hle, hfree⟩ := bitmapScan_some hscan
    rw [WordBitmap.length_bits, h.bitCnt] at hle
    have hcap := h.capacity
    have hcap₁ : s₁.capacity = s.capacity := by rw [hmap.frame]
    obtain ⟨hsmall, hsectors⟩ := sectors_eq h0 (dirLength_lt n) (by omega) start
    -- the sectors that are found are free
    have hout : ∀ i, i = sector ∨ d.Has i → i < start ∨ start + bytesToSectors (dirLength n) ≤ i := by
      intro i hi
      by_contra hc
      have hf := hfree i (by omega) (by omega)
      rw [h.used i hi] at hf
      cases hf
    have hsel : s₁.Selects sector := by
      obtain ⟨hlt, -⟩ := List.getElem?_eq_some_iff.mp (h.used sector (Or.inl rfl))
      rw [WordBitmap.length_bits, h.bitCnt] at hlt
      exact ⟨by omega, by omega⟩
    have hcreate := inodeCreate_some h0 halloc hsel fun j hj => ⟨by omega, by omega⟩
    have hlen : d.length = byteCnt s.freeMap.bitCnt := h.map.length
    have hdata : ∀ i, (InodeDisk.mk start (dirLength n)).Has i →
        start ≤ i ∧ i < start + bytesToSectors (dirLength n) := by
      intro i hi
      rw [hsectors]
      exact hi
    refine ⟨start, _, _, hcreate, hmap.setDisk hlen fun i hi k _ => ?_, hsmall, ?_, onDisk_of_le h0 ?_ ?_, ?_, ?_⟩
    · rw [created_of_ne]
      · rintro rfl
        exact h.apart hi
      · exact hout i (Or.inr hi)
    · show InodeDisk.ofSector (created s₁.disk sector _ sector) = _
      rw [created_self (hout sector (Or.inl rfl))]
      exact InodeDisk.ofSector_bytes (by show start < 2 ^ 32; omega) h0 (dirLength_lt n)
    · rw [← hsectors]
      show start + _ ≤ s₁.capacity
      omega
    · show s₁.capacity ≤ 2 ^ 28
      omega
    · intro i hi hc
      obtain ⟨h1, h2⟩ := hdata i hc
      have := hout i (Or.inr hi)
      omega
    · exact slots_zero fun i hi => created_data (hdata i hi).1 (hdata i hi).2

/-- A directory is made and opened. -/
def makeDir (sector n : Nat) : FsProg (Option Dir) := do
  let created ← dirCreate sector n
  if created then do
    let inode ← inodeOpen sector true
    dirOpen inode
  else pure none

/-- **A new directory** is in order, and has no names. -/
theorem Prepared.makeDir (h : Prepared s p d sector) (hrun : (makeDir sector n).run s = .ok (some dir, s')) :
    ∃ start, InodeDisk.ofSector (s'.disk sector) = ⟨start, dirLength n⟩ ∧ 0 ≤ dirLength n ∧
      dirLength n + 511 < 2 ^ 31 ∧ DirInv { fs := s', dir := dir } p d ⟨start, dirLength n⟩ ∧
      keys (table s'.disk ⟨start, dirLength n⟩) = [] := by
  have h0 : 0 ≤ dirLength n := by
    by_contra hc
    rw [Pintos.makeDir, Pintos.dirCreate, inodeCreate, if_pos (by unfold dirLength at hc; omega)] at hrun
    cases hrun
  rw [Pintos.makeDir] at hrun
  rcases h.dirCreate n h0 with ⟨-, hnone⟩ | 
    ⟨start, s₁, bits, hcreate, hmap, hsmall, hsector, honDisk, hapart, hempty⟩
  · rw [Prog.run_bind_ok hnone] at hrun
    cases hrun
  rw [Prog.run_bind_ok hcreate] at hrun
  have hinodes : s₁.inodes = s.inodes := by rw [hmap.frame]
  have hbrk : s₁.brk = s.brk := by rw [hmap.frame]
  have hsel : s₁.Selects sector := by
    obtain ⟨hlt, -⟩ := List.getElem?_eq_some_iff.mp (h.used sector (Or.inl rfl))
    rw [WordBitmap.length_bits, h.bitCnt] at hlt
    have hcap := h.capacity
    have hcap₁ : s₁.capacity = s.capacity := by rw [hmap.frame]
    exact ⟨by omega, by omega⟩
  have hfree : s₁.inodes s₁.brk = none := by
    rw [hinodes, hbrk]
    exact h.fresh _ (Nat.le_refl _)
  have hopened := Opened.loaded hfree sector
  simp only [if_true] at hrun
  rcases inodeOpen_spec hsel with ⟨q, inode, -, hq, hsec, -⟩ | ⟨-, hopen⟩
  · rw [hinodes] at hq
    exact absurd hsec (h.unopened q inode hq)
  · rw [Prog.run_bind_ok hopen] at hrun
    cases hrun
    have hnone : ∀ slot ∈ table s₁.disk ⟨start, dirLength n⟩, slot = none := by
      intro slot hslot
      obtain ⟨e, he, rfl⟩ := List.mem_map.mp hslot
      rw [DirEntry.slot, hempty e he]
      rfl
    have hkeys : keys (table s₁.disk ⟨start, dirLength n⟩) = [] := by
      refine List.eq_nil_iff_forall_not_mem.mpr fun name hname => ?_
      obtain ⟨v, hv⟩ := mem_keys.mp hname
      cases hnone _ hv
    refine ⟨start, hsector, h0, hsmall, ?_, hkeys⟩
    constructor
    case map =>
      exact (hmap.mapFile h.map).opened hopened rfl rfl rfl rfl
    case dir =>
      exact ⟨⟨_, update_self _ _ _, hsector, rfl⟩, honDisk.congr rfl, dirLength_lt n⟩
    case apart => exact hapart
    case fresh =>
      refine hopened.fresh ?_
      rw [hinodes, hbrk]
      exact h.fresh
    case positive =>
      refine hopened.positive ?_
      rw [hinodes]
      exact h.positive
    case stack =>
      show s₁.stack.length = ENTRY_SIZE
      rw [hmap.frame]
      exact h.stack
    case unique =>
      show (keys (table s₁.disk ⟨start, dirLength n⟩)).Nodup
      rw [hkeys]
      exact List.nodup_nil
    case names =>
      intro name hname
      have hname' : name ∈ keys (table s₁.disk ⟨start, dirLength n⟩) := hname
      rw [hkeys] at hname'
      cases hname'
    case selects =>
      intro name sec hmem
      cases hnone _ hmem
    case pos => exact ⟨0, (Nat.zero_mul _).symm, Nat.zero_le _⟩

/-! ## A directory that is too small -/

/-- The `k` low hexadecimal digits of `n`, as a name without nulls. -/
def digits : Nat → Nat → List Byte
  | 0, _ => []
  | k + 1, n => BitVec.ofNat 8 (n % 16 + 1) :: digits k (n / 16)

@[simp] theorem length_digits : ∀ k n, (digits k n).length = k
  | 0, _ => rfl
  | k + 1, n => by rw [digits, List.length_cons, length_digits]

theorem digits_inj : ∀ (k : Nat) {m n : Nat}, digits k m = digits k n → m % 16 ^ k = n % 16 ^ k
  | 0, m, n, _ => by rw [Nat.pow_zero, Nat.mod_one, Nat.mod_one]
  | k + 1, m, n, h => by
    rw [digits, digits, List.cons.injEq] at h
    obtain ⟨hdigit, hrest⟩ := h
    have hmod := congrArg BitVec.toNat hdigit
    rw [BitVec.toNat_ofNat, BitVec.toNat_ofNat] at hmod
    rw [Nat.pow_succ', Nat.mod_mul, Nat.mod_mul, digits_inj k hrest]
    omega

theorem zero_not_mem_digits : ∀ k n, (0 : Byte) ∉ digits k n
  | 0, _ => List.not_mem_nil
  | k + 1, n => by
    rw [digits, List.mem_cons, not_or]
    refine ⟨fun hc => ?_, zero_not_mem_digits k _⟩
    have hz := congrArg BitVec.toNat hc
    rw [BitVec.toNat_ofNat] at hz
    have h0 : (0 : Byte).toNat = 0 := rfl
    omega

/-- There is always another name. -/
theorem exists_new_name (l : List (List Byte)) (h : l.length < 2 ^ 28) :
    ∃ name : CStr, ValidName name ∧ name.bytes ∉ l := by
  by_contra hc
  have hall : ∀ i, digits 7 i ∈ l := by
    intro i
    by_contra hi
    refine hc ⟨⟨digits 7 i, zero_not_mem_digits 7 i⟩, ⟨fun hnil => ?_, ?_⟩, hi⟩
    · have hlen := congrArg List.length hnil
      rw [length_digits] at hlen
      cases hlen
    · show (digits 7 i).length ≤ NAME_MAX
      rw [length_digits]
      decide
  -- more names than the list has
  have hnodup : ((List.range (l.length + 1)).map (digits 7)).Nodup := by
    refine List.Nodup.map_on (fun i hi j hj hij => ?_) List.nodup_range
    rw [List.mem_range] at hi hj
    have hmod := digits_inj 7 hij
    rwa [Nat.mod_eq_of_lt (by omega), Nat.mod_eq_of_lt (by omega)] at hmod
  have hsub : (List.range (l.length + 1)).map (digits 7) ⊆ l := by
    intro name hname
    obtain ⟨i, -, rfl⟩ := List.mem_map.mp hname
    exact hall i
  have hle := (hnodup.subperm hsub).length_le
  rw [List.length_map, List.length_range] at hle
  omega

theorem DirInv.entryCnt_lt (h : DirInv u p d r) : r.entryCnt < 2 ^ 28 := by
  have hlen := h.dir.length
  unfold InodeDisk.entryCnt ENTRY_SIZE
  omega

/-- The directory can be filled. -/
theorem DirInv.fill (m : Nat) : ∀ {u : DirUse}, DirInv u p d r → u.fs.Selects sector →
    (keys (table u.fs.disk r)).length + m = r.entryCnt →
    ∃ u', Reach DirUse.step DirUse.Proper u u' ∧ DirInv u' p d r ∧ u'.fs.Selects sector ∧
      (keys (table u'.fs.disk r)).length = r.entryCnt := by
  induction m with
  | zero => exact fun {u} h hsel hm => ⟨u, .refl, h, hsel, hm⟩
  | succ m ih =>
    intro u h hsel hm
    have hlt := h.entryCnt_lt
    obtain ⟨name, hv, hnew⟩ := exists_new_name (keys (table u.fs.disk r)) (by omega)
    obtain ⟨ok, fs, hrun, hiff, -, hlen, hcap, hinv⟩ := h.add name hsel
    have hok : ok = true := hiff.mpr ⟨hv, value_eq_none_iff.mpr hnew, by omega⟩
    have hsel' : fs.Selects sector := ⟨by rw [hcap]; exact hsel.1, hsel.2⟩
    rw [hok] at hlen
    obtain ⟨u', hreach, hinv', hsel'', hfull⟩ := ih hinv hsel'
      (by show (keys (table fs.disk r)).length + m = _; rw [hlen]; simp only [Bool.toNat_true]; omega)
    refine ⟨u', Reach.trans (.tail .refl (a := .add name sector) hsel ?_) hreach, hinv', hsel'', hfull⟩
    rw [DirUse.step, hrun]
    rfl

/-- A full directory is not a map with room for more names. -/
theorem DirInv.not_isMap (h : DirInv u p d r) (hsel : u.fs.Selects sector) (hn : r.entryCnt < n) :
    ∃ u', Reach DirUse.step DirUse.Proper u u' ∧ ¬ IsMap n u' r := by
  have hle : (keys (table u.fs.disk r)).length ≤ r.entryCnt := by
    rw [← length_table u.fs.disk r]
    exact length_keys_le _
  obtain ⟨u', hreach, hinv, hsel', hfull⟩ := h.fill (r.entryCnt - (keys (table u.fs.disk r)).length) hsel
    (by omega)
  refine ⟨u', hreach, fun hmap => ?_⟩
  have hlt := hinv.entryCnt_lt
  obtain ⟨name, hv, hnew⟩ := exists_new_name (keys (table u'.fs.disk r)) (by omega)
  obtain ⟨ok, fs, hrun, hiff, -⟩ := hmap.add name sector hsel'
  obtain ⟨ok', fs', hrun', hiff', -⟩ := hinv.add name hsel'
  rw [hrun, Except.ok.injEq, Prod.mk.injEq] at hrun'
  -- by the claimed size the name is added, by the size of the file it is not
  have hok : ok = true := hiff.mpr ⟨hv, value_eq_none_iff.mpr hnew, by omega⟩
  rw [hrun'.1] at hok
  have hroom := (hiff'.mp hok).2.2
  omega

theorem bitmapScan_zero (b : Bitmap) (v : Bool) : bitmapScan b 0 0 v = some 0 := by
  rw [bitmapScan, if_pos (Nat.zero_le _), List.find?_range'_eq_some]
  exact ⟨rfl, by rw [List.mem_range'_1]; omega, fun j _ hj => absurd hj (Nat.not_lt_zero j)⟩

/-- A disk with `2 ^ 24` sectors. -/
theorem formattable_large : Formattable (2 ^ 24) := ⟨by decide, by decide⟩

theorem Formatted.prepared {capacity : Nat} {stack : List Byte} (h : Formatted s capacity stack)
    (hf : Formattable capacity) (hcap : capacity ≤ 2 ^ 28) (hstack : stack.length = ENTRY_SIZE) :
    Prepared s 2 (mapData capacity) ROOT_DIR_SECTOR where
  map := h.map
  bitCnt := h.bitCnt.trans h.size.symm
  capacity := by rw [h.size]; exact hcap
  used i hi := by
    have hle := hf.1
    rw [mapData_has] at hi
    unfold ROOT_DIR_SECTOR at hi
    rw [h.bits, getElem?_usedBelow, if_pos (by omega), decide_eq_true (by omega)]
  apart := by
    rw [mapData_has]
    unfold ROOT_DIR_SECTOR
    omega
  unopened q i hi := by
    rw [h.inodes] at hi
    by_cases hq : q = 2
    · rw [hq, update_self, Option.some.injEq] at hi
      rw [← hi]
      exact Nat.zero_ne_one
    · rw [update_of_ne hq] at hi
      cases hi
  fresh q hq := by
    rw [h.brk] at hq
    have hne : q ≠ 2 := by
      rintro rfl
      omega
    rw [h.inodes, update_of_ne hne]
  positive q i hi := by
    rw [h.inodes] at hi
    by_cases hq : q = 2
    · rw [hq, update_self, Option.some.injEq] at hi
      rw [← hi]
      exact Int.one_pos
    · rw [update_of_ne hq] at hi
      cases hi
  stack := by rw [h.stack]; exact hstack

/-- On a large disk a directory of any length is made, where rounding up does not overflow. -/
theorem exists_makeDir (n : Nat) (h : n * ENTRY_SIZE % 2 ^ 32 + 511 < 2 ^ 31) :
    ∃ (s s' : FileSys) (p : InodePtr) (d : InodeDisk) (dir : Dir), Prepared s p d ROOT_DIR_SECTOR ∧
      (makeDir ROOT_DIR_SECTOR n).run s = .ok (some dir, s') ∧ s'.Selects ROOT_DIR_SECTOR := by
  have hblock : (List.replicate (elemCnt (2 ^ 24)) (0 : BitVec 64)).length = elemCnt (2 ^ 24) :=
    List.length_replicate
  obtain ⟨s, -, hformat⟩ := format_spec formattable_large hblock (fun _ _ => 0) ⟨0, []⟩ (List.replicate ENTRY_SIZE 0) ⟨0, 0⟩
  have hp := hformat.prepared formattable_large (by decide) List.length_replicate
  have h0 : 0 ≤ dirLength n := (dirLength_nonneg_iff n).mpr (by omega)
  have hsmall : dirLength n + 511 < 2 ^ 31 := by
    unfold dirLength toInt32
    split <;> omega
  rcases hp.dirCreate n h0 with ⟨hscan, -⟩ | ⟨start, s₁, bits, hcreate, hmap, -⟩
  · -- there is a run of every length
    have hsectors : (mapData (2 ^ 24)).sectors = 4096 := by decide
    have hsome : bitmapScan s.freeMap.bits 0 (bytesToSectors (dirLength n)) false ≠ none := by
      rw [hformat.bits, hsectors, bytesToSectors_eq h0 hsmall]
      by_cases hz : ((dirLength n).toNat + 511) / 512 = 0
      · rw [hz, bitmapScan_zero]
        simp
      · rw [scan_usedBelow _ _ _ (by omega) (by omega)]
        simp
    exact absurd hscan hsome
  · have hsel : ∀ s₂ : FileSys, s₂.capacity = s₁.capacity → s₂.Selects ROOT_DIR_SECTOR := by
      intro s₂ hs₂
      have hcap : s₁.capacity = 2 ^ 24 := by rw [hmap.frame, hformat.size]
      exact ⟨by rw [hs₂, hcap]; decide, by decide⟩
    have hmake : ∀ q s₂, (inodeOpen ROOT_DIR_SECTOR true).run s₁ = .ok (some q, s₂) →
        (makeDir ROOT_DIR_SECTOR n).run s = .ok (some { inode := q, pos := 0 }, s₂) := by
      intro q s₂ hopen
      rw [makeDir, Prog.run_bind_ok hcreate]
      simp only [if_true]
      rw [Prog.run_bind_ok hopen]
      rfl
    rcases inodeOpen_spec (hsel s₁ rfl) with ⟨q, inode, -, -, -, hopen⟩ | ⟨-, hopen⟩
    · exact ⟨s, _, 2, _, _, hp, hmake _ _ hopen, hsel _ rfl⟩
    · exact ⟨s, _, 2, _, _, hp, hmake _ _ hopen, hsel _ rfl⟩

/-- In every run on a directory that was made for `n` names it is a map with room for `n` names. -/
def DirectoryMap (n : Nat) : Prop :=
  ∀ (s s' : FileSys) (p : InodePtr) (d : InodeDisk) (sector : Nat) (dir : Dir), Prepared s p d sector →
    (makeDir sector n).run s = .ok (some dir, s') →
    ∀ u, Reach DirUse.step DirUse.Proper { fs := s', dir := dir } u →
      IsMap n u (InodeDisk.ofSector (s'.disk sector))

/-- The file is too short where the number of bytes does not fit. -/
theorem not_directoryMap (h : n * ENTRY_SIZE % 2 ^ 32 + 511 < 2 ^ 31) (hn : 2 ^ 31 ≤ n * ENTRY_SIZE) :
    ¬ DirectoryMap n := by
  intro hmap
  obtain ⟨s, s', p, d, dir, hp, hmake, hsel⟩ := exists_makeDir n h
  obtain ⟨start, hsector, -, -, hinv, -⟩ := hp.makeDir hmake
  have hcnt : (InodeDisk.mk start (dirLength n)).entryCnt < n := by
    have hlen : dirLength n = (n * ENTRY_SIZE % 2 ^ 32 : Nat) := by
      unfold dirLength toInt32
      rw [if_pos (by omega)]
    unfold InodeDisk.entryCnt
    simp only [hlen, Int.toNat_natCast]
    unfold ENTRY_SIZE at *
    omega
  obtain ⟨u', hreach, hno⟩ := hinv.not_isMap hsel hcnt
  have hyes := hmap s s' p d ROOT_DIR_SECTOR dir hp hmake u' hreach
  rw [hsector] at hyes
  exact hno hyes

/-- **A directory is a finite map** with room for the names it was made for iff the bytes of that
many entries are counted in an `off_t`, or so many that no directory is made. -/
theorem directory_is_a_map (n : Nat) :
    DirectoryMap n ↔ n * ENTRY_SIZE < 2 ^ 31 ∨ 2 ^ 31 ≤ n * ENTRY_SIZE % 2 ^ 32 + 511 := by
  constructor
  · intro hmap
    by_contra hc
    rw [not_or] at hc
    exact not_directoryMap (by omega) (by omega) hmap
  · intro hn s s' p d sector dir hp hmake u hu
    obtain ⟨start, hsector, h0, hsmall, hinv, -⟩ := hp.makeDir hmake
    rw [hsector]
    have hcnt : (InodeDisk.mk start (dirLength n)).entryCnt = n := by
      have hlen : dirLength n = (n * ENTRY_SIZE : Nat) := by
        unfold dirLength toInt32 at *
        split at h0 <;> omega
      unfold InodeDisk.entryCnt
      simp only [hlen, Int.toNat_natCast]
      exact Nat.mul_div_cancel n (by decide)
    have hmap := (DirInv.of_reach hinv hu).isMap
    rwa [hcnt] at hmap

/-- **A directory that is too small**: 214748365 entries have `2 ^ 32 + 4` bytes, and the file has
four. -/
theorem directory_too_small : ¬ DirectoryMap 214748365 := not_directoryMap (by decide) (by decide)

end Pintos
