import Pintos.Filesys.Directory
import Pintos.Lib.SlotMap
import Pintos.Properties.FreeMap

/-!
# The entries of a directory

The bytes of a directory are an array of entries, and the loops of `filesys/directory.c` are
searches in it.

* `slots`, `table` — the entries, and the map they are
* `lookup_spec`, `freeSlot_spec`, `readdirLoop_spec` — the searches
* `writeEntry_spec` — a slot is written
* `dirAdd_spec` — a name is added
-/

namespace Pintos

open Function LittleEndian SlotMap

variable {s s' : FileSys} {p : InodePtr} {d : InodeDisk} {disk disk' : Nat → Sector} {dir : Dir}
  {name : CStr} {e : DirEntry} {k : Nat}

/-! ## An entry as bytes -/

/-- The entry fits its fields. -/
structure DirEntry.Wf (e : DirEntry) : Prop where
  sector : e.inodeSector < 2 ^ 32
  name : e.name.length = NAME_MAX + 1

theorem DirEntry.ofBytes_wf {bytes : List Byte} (h : bytes.length = ENTRY_SIZE) :
    (DirEntry.ofBytes bytes).Wf where
  sector := by
    have hlt := ofLe_lt (bytes.take 4)
    have hlen : (bytes.take 4).length = 4 := by
      rw [List.length_take, h]
      decide
    rw [hlen] at hlt
    exact hlt
  name := by
    show ((bytes.drop 4).take (NAME_MAX + 1)).length = NAME_MAX + 1
    rw [List.length_take, List.length_drop, h]
    decide

theorem DirEntry.length_toBytes (h : e.Wf) : e.toBytes.length = ENTRY_SIZE := by
  rw [toBytes, List.length_append, List.length_append, length_leBytes, h.name]
  rfl

/-- **An entry that is written is read back.** -/
theorem DirEntry.ofBytes_toBytes (h : e.Wf) : DirEntry.ofBytes e.toBytes = e := by
  have h4 : (e.toBytes).take 4 = leBytes 4 e.inodeSector := by
    rw [toBytes, List.append_assoc, List.take_left' (length_leBytes 4 _)]
  have h15 : ((e.toBytes).drop 4).take (NAME_MAX + 1) = e.name := by
    rw [toBytes, List.append_assoc, List.drop_left' (length_leBytes 4 _), List.take_left' h.name]
  have h19 : (e.toBytes).getD 19 0 = if e.inUse then 1 else 0 := by
    have hlen : (leBytes 4 e.inodeSector ++ e.name).length = 19 := by
      rw [List.length_append, length_leBytes, h.name]
      rfl
    rw [toBytes, List.getD_eq_getElem?_getD, List.getElem?_append_right (Nat.le_of_eq hlen), hlen]
    rfl
  rw [ofBytes, h4, h15, h19, ofLe_leBytes_of_lt (by simpa using h.sector)]
  obtain ⟨sec, nm, inUse⟩ := e
  cases inUse <;> rfl

/-- The bytes before the null. -/
theorem takeWhile_append_nul (bytes rest : List Byte) (h : (0 : Byte) ∉ bytes) :
    (bytes ++ 0 :: rest).takeWhile (· ≠ 0) = bytes := by
  induction bytes with
  | nil => simp
  | cons b bytes ih =>
    rw [List.mem_cons, not_or] at h
    have hb : b ≠ 0 := fun hc => h.1 hc.symm
    rw [List.cons_append, List.takeWhile_cons_of_pos (by simpa using hb), ih h.2]

theorem takeWhile_strlcpy (dst : List Byte) {name : CStr} (h : name.bytes.length ≤ NAME_MAX) :
    (strlcpy dst name (NAME_MAX + 1)).takeWhile (· ≠ 0) = name.bytes := by
  unfold strlcpy
  simp only
  rw [List.take_of_length_le (by omega), List.append_assoc]
  exact takeWhile_append_nul _ _ name.noNul

theorem length_strlcpy {dst : List Byte} {name : CStr} (h : name.bytes.length ≤ NAME_MAX)
    (hdst : dst.length = NAME_MAX + 1) : (strlcpy dst name (NAME_MAX + 1)).length = NAME_MAX + 1 := by
  unfold strlcpy
  simp only
  rw [List.take_of_length_le (by omega)]
  simp only [List.length_append, List.length_cons, List.length_nil, List.length_drop, hdst]
  omega

/-! ## The array of entries -/

/-- The number of entries a directory has room for. -/
def InodeDisk.entryCnt (d : InodeDisk) : Nat := d.length.toNat / ENTRY_SIZE

/-- The entries of the directory whose inode has the data `d`. -/
def slots (disk : Nat → Sector) (d : InodeDisk) : List DirEntry :=
  (List.range d.entryCnt).map fun k =>
    DirEntry.ofBytes (fileBytes disk d.start (k * ENTRY_SIZE) ENTRY_SIZE)

/-- The name and the sector of an entry that is in use. -/
def DirEntry.slot (e : DirEntry) : Option (List Byte × Nat) :=
  if e.inUse then some (e.string, e.inodeSector) else none

/-- The names of the directory and their sectors, slot by slot. -/
def table (disk : Nat → Sector) (d : InodeDisk) : Table (List Byte) Nat :=
  (slots disk d).map DirEntry.slot

/-- The directory is open on the inode `p` with the data `d`. -/
structure DirOpen (s : FileSys) (p : InodePtr) (d : InodeDisk) : Prop where
  inode : ∃ inode, s.inodes p = some inode ∧ inode.data = d ∧ inode.denyWriteCnt = 0
  onDisk : OnDisk s d
  /-- The length is an `off_t`. -/
  length : d.length < 2 ^ 31

@[simp] theorem length_slots (disk : Nat → Sector) (d : InodeDisk) :
    (slots disk d).length = d.entryCnt := by simp [slots]

@[simp] theorem length_table (disk : Nat → Sector) (d : InodeDisk) :
    (table disk d).length = d.entryCnt := by simp [table]

theorem getElem?_slots (disk : Nat → Sector) (h : k < d.entryCnt) : (slots disk d)[k]? =
    some (DirEntry.ofBytes (fileBytes disk d.start (k * ENTRY_SIZE) ENTRY_SIZE)) := by
  rw [slots, List.getElem?_map, List.getElem?_range h, Option.map_some]

theorem wf_of_mem_slots (h : e ∈ slots disk d) : e.Wf := by
  obtain ⟨k, -, rfl⟩ := List.mem_map.mp h
  exact DirEntry.ofBytes_wf (length_fileBytes _ _ _ _)

theorem entry_le (h : k < d.entryCnt) : k * ENTRY_SIZE + ENTRY_SIZE ≤ d.length.toNat := by
  unfold InodeDisk.entryCnt ENTRY_SIZE at *
  omega

theorem slots_congr (h : SameOn d.Has disk disk') : slots disk d = slots disk' d := by
  refine List.map_congr_left fun k hk => ?_
  rw [fileBytes_congr h (entry_le (List.mem_range.mp hk))]

theorem table_congr (h : SameOn d.Has disk disk') : table disk d = table disk' d := by
  rw [table, table, slots_congr h]

theorem DirOpen.setDisk (h : DirOpen s p d) (disk : Nat → Sector) :
    DirOpen { s with disk := disk } p d where
  inode := h.inode
  onDisk := h.onDisk.congr rfl
  length := h.length

/-- The bytes a read of an entry returns. -/
theorem DirOpen.readEntry (h : DirOpen s p d) (k : Nat) :
    ∃ bytes, (inodeReadAt p ENTRY_SIZE (k * ENTRY_SIZE)).run s = .ok (bytes, s) ∧
      (k < d.entryCnt → bytes = fileBytes s.disk d.start (k * ENTRY_SIZE) ENTRY_SIZE) ∧
      (¬ k < d.entryCnt → bytes.length < ENTRY_SIZE) := by
  obtain ⟨inode, hinode, rfl, -⟩ := h.inode
  refine ⟨_, inodeReadAt_spec hinode h.onDisk _ _, fun hk => ?_, fun hk => ?_⟩
  · have htr : transferred inode.data ENTRY_SIZE (k * ENTRY_SIZE) = ENTRY_SIZE := by
      have hle := entry_le hk
      unfold transferred
      omega
    rw [htr]
  · rw [length_fileBytes]
    unfold transferred
    unfold InodeDisk.entryCnt ENTRY_SIZE at *
    omega

theorem drop_slots (h : k < d.entryCnt) : (slots disk d).drop k =
    DirEntry.ofBytes (fileBytes disk d.start (k * ENTRY_SIZE) ENTRY_SIZE) ::
      (slots disk d).drop (k + 1) := by
  have hk : k < (slots disk d).length := by rw [length_slots]; exact h
  rw [List.drop_eq_getElem_cons hk]
  congr 1
  have hget := getElem?_slots disk h
  rw [List.getElem?_eq_getElem hk, Option.some.injEq] at hget
  exact hget

theorem drop_slots_nil (h : ¬ k < d.entryCnt) : (slots disk d).drop k = [] :=
  List.drop_of_length_le (by rw [length_slots]; omega)

/-! ## Searches -/

/-- The first entry with the name, and its offset. -/
def findFrom (name : CStr) : List DirEntry → Nat → Option (DirEntry × Nat)
  | [], _ => none
  | e :: l, k =>
    if e.inUse ∧ e.string = name.bytes then some (e, k * ENTRY_SIZE) else findFrom name l (k + 1)

theorem findFrom_some {l : List DirEntry} {ofs : Nat} (h : findFrom name l k = some (e, ofs)) :
    ∃ j, l[j]? = some e ∧ ofs = (k + j) * ENTRY_SIZE ∧ e.inUse ∧ e.string = name.bytes := by
  induction l generalizing k with
  | nil => cases h
  | cons x l ih =>
    rw [findFrom] at h
    split at h
    · next hx =>
      cases h
      exact ⟨0, rfl, rfl, hx⟩
    · obtain ⟨j, hj, hofs, hmatch⟩ := ih h
      exact ⟨j + 1, hj, by rw [hofs, Nat.add_assoc, Nat.add_comm 1], hmatch⟩

theorem findFrom_none {l : List DirEntry} (h : findFrom name l k = none) :
    name.bytes ∉ keys (l.map DirEntry.slot) := by
  induction l generalizing k with
  | nil => simp
  | cons x l ih =>
    rw [findFrom] at h
    split at h
    · cases h
    · next hx =>
      rw [List.map_cons, DirEntry.slot]
      split
      · next huse =>
        rw [keys_some, List.mem_cons, not_or]
        exact ⟨fun hc => hx ⟨huse, hc.symm⟩, ih h⟩
      · rw [keys_none]
        exact ih h

theorem DirOpen.entryCnt_lt (h : DirOpen s p d) : d.entryCnt < maxEntries := by
  have hlen := h.length
  unfold InodeDisk.entryCnt maxEntries ENTRY_SIZE
  omega

theorem DirOpen.lookupLoop (h : DirOpen s dir.inode d) (name : CStr) :
    ∀ fuel k, d.entryCnt ≤ k + fuel →
      (lookupLoop dir name fuel (k * ENTRY_SIZE)).run s =
        .ok (findFrom name ((slots s.disk d).drop k) k, s)
  | 0, k, hk => by
    rw [drop_slots_nil (by omega)]
    rfl
  | fuel + 1, k, hk => by
    obtain ⟨bytes, hread, hin, hend⟩ := h.readEntry k
    rw [Pintos.lookupLoop, Prog.run_bind_ok hread]
    by_cases hlt : k < d.entryCnt
    · rw [hin hlt, if_pos (length_fileBytes _ _ _ _), drop_slots hlt, findFrom]
      simp only
      split
      · rfl
      · have hnext := h.lookupLoop name fuel (k + 1) (by omega)
        rw [Nat.succ_mul] at hnext
        exact hnext
    · rw [if_neg (Nat.ne_of_lt (hend hlt)), drop_slots_nil hlt]
      rfl

/-- **`lookup`** finds the first entry with the name. -/
theorem DirOpen.lookup (h : DirOpen s dir.inode d) (name : CStr) :
    (lookup dir name).run s = .ok (findFrom name (slots s.disk d) 0, s) := by
  have hlt := h.entryCnt_lt
  have hloop := h.lookupLoop name maxEntries 0 (by omega)
  rw [Nat.zero_mul, List.drop_zero] at hloop
  exact hloop

/-- The index of the first entry that is not in use. -/
def freeIdx (l : List DirEntry) : Nat := l.findIdx fun e => !e.inUse

theorem DirOpen.freeSlotLoop (h : DirOpen s dir.inode d) :
    ∀ fuel (bytes : List Byte) k, bytes.length = ENTRY_SIZE → d.entryCnt ≤ k + fuel → k ≤ d.entryCnt →
      ∃ bytes', bytes'.length = ENTRY_SIZE ∧
        (freeSlotLoop dir fuel bytes (k * ENTRY_SIZE)).run s =
          .ok ((bytes', (k + freeIdx ((slots s.disk d).drop k)) * ENTRY_SIZE), s)
  | 0, bytes, k, hb, hk, hle => by
    rw [drop_slots_nil (by omega)]
    exact ⟨bytes, hb, rfl⟩
  | fuel + 1, bytes, k, hb, hk, hle => by
    obtain ⟨read, hrun, hin, hend⟩ := h.readEntry k
    rw [Pintos.freeSlotLoop, Prog.run_bind_ok hrun]
    by_cases hlt : k < d.entryCnt
    · have hread := (hin hlt).symm
      have hlen : read.length = ENTRY_SIZE := by rw [← hread, length_fileBytes]
      have hall : read ++ bytes.drop read.length = read := by
        rw [List.drop_of_length_le (by omega), List.append_nil]
      simp only
      rw [if_pos hlen, hall, drop_slots hlt, hread, freeIdx, List.findIdx_cons]
      cases huse : (DirEntry.ofBytes read).inUse with
      | true =>
        obtain ⟨bytes', hb', hrun⟩ := h.freeSlotLoop fuel read (k + 1) hlen (by omega) hlt
        rw [Nat.succ_mul] at hrun
        refine ⟨bytes', hb', ?_⟩
        rw [if_pos rfl, hrun, freeIdx]
        simp only [Bool.not_true, cond_false]
        congr 4
        omega
      | false => exact ⟨read, hlen, rfl⟩
    · have hshort := hend hlt
      simp only
      rw [if_neg (Nat.ne_of_lt hshort), drop_slots_nil hlt]
      refine ⟨read ++ bytes.drop read.length, ?_, rfl⟩
      rw [List.length_append, List.length_drop]
      omega

/-- The first name from slot `k` on, and the offset behind it. -/
def readFrom : List DirEntry → Nat → Option (List Byte) × Nat
  | [], k => (none, k * ENTRY_SIZE)
  | e :: l, k => if e.inUse then (some e.string, (k + 1) * ENTRY_SIZE) else readFrom l (k + 1)

theorem DirOpen.readdirLoop (h : DirOpen s dir.inode d) :
    ∀ fuel k, d.entryCnt ≤ k + fuel → k ≤ d.entryCnt →
      (readdirLoop dir fuel (k * ENTRY_SIZE)).run s = .ok (readFrom ((slots s.disk d).drop k) k, s)
  | 0, k, hk, hle => by
    rw [drop_slots_nil (by omega)]
    rfl
  | fuel + 1, k, hk, hle => by
    obtain ⟨bytes, hread, hin, hend⟩ := h.readEntry k
    rw [Pintos.readdirLoop, Prog.run_bind_ok hread]
    by_cases hlt : k < d.entryCnt
    · rw [hin hlt, if_pos (length_fileBytes _ _ _ _), drop_slots hlt, readFrom]
      simp only
      split
      · rw [Nat.succ_mul]
        rfl
      · have hnext := h.readdirLoop fuel (k + 1) (by omega) hlt
        rw [Nat.succ_mul] at hnext
        exact hnext
    · rw [if_neg (Nat.ne_of_lt (hend hlt)), drop_slots_nil hlt]
      rfl

/-! ## Writing a slot -/

/-- The entries after one of them is written. -/
theorem slots_patched (disk : Nat → Sector) (d : InodeDisk) (k : Nat) (he : e.Wf) :
    slots (patched disk d.start (k * ENTRY_SIZE) e.toBytes) d = (slots disk d).set k e := by
  refine List.ext_getElem (by simp) fun j hj hj' => ?_
  rw [List.getElem_set]
  simp only [slots, List.getElem_map, List.getElem_range]
  have hlen := DirEntry.length_toBytes he
  by_cases hkj : k = j
  · subst hkj
    have hself := fileBytes_patched_self disk d.start (k * ENTRY_SIZE) e.toBytes
    rw [hlen] at hself
    rw [if_pos rfl, hself, DirEntry.ofBytes_toBytes he]
  · rw [if_neg hkj, fileBytes_patched_of_disjoint]
    rw [hlen]
    unfold ENTRY_SIZE
    omega

/-- What is written behind the last entry is not one. -/
theorem slots_patched_end (disk : Nat → Sector) {bytes : List Byte} (hk : d.entryCnt ≤ k) :
    slots (patched disk d.start (k * ENTRY_SIZE) bytes) d = slots disk d := by
  refine List.map_congr_left fun j hj => ?_
  rw [List.mem_range] at hj
  rw [fileBytes_patched_of_disjoint]
  unfold ENTRY_SIZE
  omega

/-- **A slot is written**, if there is one. -/
theorem DirOpen.writeEntry (h : DirOpen s p d) (he : e.Wf) (k : Nat) :
    ∃ disk cnt, (inodeWriteAt p (fun _ => e.toBytes) ENTRY_SIZE (k * ENTRY_SIZE)).run s =
        .ok (cnt, { s with disk := disk }) ∧ (cnt = ENTRY_SIZE ↔ k < d.entryCnt) ∧
      SameOn (fun sec => ¬ d.Has sec) disk s.disk ∧ slots disk d = (slots s.disk d).set k e ∧
      (d.length.toNat % ENTRY_SIZE = 0 → d.entryCnt ≤ k → SameDisk disk s.disk) := by
  obtain ⟨inode, hinode, rfl, hdeny⟩ := h.inode
  have hlen := DirEntry.length_toBytes he
  have hbuf : ∀ disk, (fun _ : FileSys => e.toBytes) { s with disk := disk } = e.toBytes := fun _ => rfl
  obtain ⟨disk, hrun, hsame⟩ := inodeWriteAt_spec (fun _ => e.toBytes) ENTRY_SIZE (k * ENTRY_SIZE) hinode h.onDisk hbuf hdeny
    (Nat.le_of_eq hlen.symm)
  have hle : transferred inode.data ENTRY_SIZE (k * ENTRY_SIZE) ≤ ENTRY_SIZE := by
    unfold transferred
    omega
  have hbytes : (e.toBytes.take (transferred inode.data ENTRY_SIZE (k * ENTRY_SIZE))).length =
      transferred inode.data ENTRY_SIZE (k * ENTRY_SIZE) := by
    rw [List.length_take, hlen]
    omega
  refine ⟨disk, _, hrun, ?_, ?_, ?_, fun hwhole hk => ?_⟩
  · unfold transferred InodeDisk.entryCnt ENTRY_SIZE
    omega
  · by_cases hz : transferred inode.data ENTRY_SIZE (k * ENTRY_SIZE) = 0
    · rw [hz, List.take_zero, patched_nil] at hsame
      exact hsame.sameOn _
    · refine (hsame.sameOn _).trans (sameOn_patched _ ?_)
      rw [hbytes]
      unfold transferred at *
      omega
  · by_cases hk : k < inode.data.entryCnt
    · have htr : transferred inode.data ENTRY_SIZE (k * ENTRY_SIZE) = ENTRY_SIZE := by
        have hle := entry_le hk
        unfold transferred
        omega
      rw [htr, List.take_of_length_le (Nat.le_of_eq hlen)] at hsame
      rw [← slots_patched s.disk inode.data k he]
      exact slots_congr (hsame.sameOn _)
    · rw [List.set_eq_of_length_le (by rw [length_slots]; omega),
        ← slots_patched_end s.disk (Nat.le_of_not_lt hk)]
      exact slots_congr (hsame.sameOn _)
  · have htr : transferred inode.data ENTRY_SIZE (k * ENTRY_SIZE) = 0 := by
      unfold transferred
      unfold InodeDisk.entryCnt ENTRY_SIZE at *
      omega
    rw [htr, List.take_zero, patched_nil] at hsame
    exact hsame

theorem set_table {l : List DirEntry} (k : Nat) (e : DirEntry) :
    (l.set k e).map DirEntry.slot = (l.map DirEntry.slot).set k e.slot := List.map_set

/-! ## `dir_add` -/

/-- The check of `dir_add`. -/
def ValidName (name : CStr) : Prop := name.bytes ≠ [] ∧ name.bytes.length ≤ NAME_MAX

instance (name : CStr) : Decidable (ValidName name) := inferInstanceAs (Decidable (_ ∧ _))

theorem freeIdx_lt_iff {l : List DirEntry} : freeIdx l < l.length ↔ none ∈ l.map DirEntry.slot := by
  rw [freeIdx, List.findIdx_lt_length, List.mem_map]
  refine exists_congr fun e => and_congr_right fun _ => ?_
  unfold DirEntry.slot
  cases e.inUse <;> simp

theorem getElem?_freeIdx {l : List DirEntry} (h : freeIdx l < l.length) :
    (l.map DirEntry.slot)[freeIdx l]? = some none := by
  have hfree := List.findIdx_getElem (p := fun e : DirEntry => !e.inUse) (w := h)
  rw [List.getElem?_map, List.getElem?_eq_getElem h, Option.map_some]
  unfold DirEntry.slot
  unfold freeIdx at *
  rw [Bool.not_eq_true'] at hfree
  simp [hfree]

theorem DirOpen.dirAdd_refused (h : DirOpen s dir.inode d) (sector : Nat)
    (hname : ¬ ValidName name ∨ name.bytes ∈ keys (table s.disk d)) :
    (dirAdd dir name sector).run s = .ok (false, s) := by
  rw [dirAdd]
  by_cases hv : ValidName name
  · rw [if_neg (by unfold ValidName at hv; rintro (hc | hc); exacts [hv.1 hc, by omega]),
      Prog.run_bind_ok (h.lookup name)]
    cases hfind : findFrom name (slots s.disk d) 0 with
    | none => exact absurd (hname.resolve_left (not_not.mpr hv)) (findFrom_none hfind)
    | some r => rfl
  · rw [if_pos]
    · rfl
    · unfold ValidName at hv
      by_cases hnil : name.bytes = []
      · exact Or.inl hnil
      · exact Or.inr (by
          by_contra hc
          exact hv ⟨hnil, by omega⟩)

/-- **`dir_add`** of a new name takes the first free slot, if there is one. -/
theorem DirOpen.dirAdd (h : DirOpen s dir.inode d) (hstack : s.stack.length = ENTRY_SIZE) {sector : Nat}
    (hsector : sector < 2 ^ 32) (hv : ValidName name) (hnew : name.bytes ∉ keys (table s.disk d)) :
    ∃ disk, (dirAdd dir name sector).run s =
        .ok (decide (none ∈ table s.disk d), { s with disk := disk }) ∧
      SameOn (fun sec => ¬ d.Has sec) disk s.disk ∧
      table disk d = (table s.disk d).set (freeIdx (slots s.disk d)) (some (name.bytes, sector)) ∧
      (d.length.toNat % ENTRY_SIZE = 0 → none ∉ table s.disk d → SameDisk disk s.disk) := by
  have hfind : findFrom name (slots s.disk d) 0 = none := by
    cases hf : findFrom name (slots s.disk d) 0 with
    | none => rfl
    | some r =>
      obtain ⟨e, ofs⟩ := r
      obtain ⟨j, hj, -, huse, hstr⟩ := findFrom_some hf
      refine absurd (mem_keys.mpr ⟨e.inodeSector, ?_⟩) hnew
      refine List.mem_map.mpr ⟨e, List.mem_of_getElem? hj, ?_⟩
      rw [DirEntry.slot, if_pos huse, hstr]
  have hlt := h.entryCnt_lt
  obtain ⟨bytes, hb, hloop⟩ := h.freeSlotLoop maxEntries s.stack 0 hstack (by omega) (Nat.zero_le _)
  rw [Nat.zero_mul, List.drop_zero, Nat.zero_add] at hloop
  have hwf : (DirEntry.mk sector (strlcpy (DirEntry.ofBytes bytes).name name (NAME_MAX + 1)) true).Wf :=
    ⟨hsector, length_strlcpy hv.2 (DirEntry.ofBytes_wf hb).name⟩
  obtain ⟨disk, cnt, hwrite, hcnt, hother, hslots, hsame⟩ := h.writeEntry hwf (freeIdx (slots s.disk d))
  have hiff : freeIdx (slots s.disk d) < d.entryCnt ↔ none ∈ table s.disk d := by
    rw [← length_slots s.disk d]
    exact freeIdx_lt_iff
  refine ⟨disk, ?_, hother, ?_, fun hwhole hfull => hsame hwhole (Nat.le_of_not_lt (mt hiff.mp hfull))⟩
  · have hstackRead : (Prog.read fun s : FileSys => .ok s.stack : FsProg (List Byte)).run s =
        .ok (s.stack, s) := Prog.run_read rfl
    rw [Pintos.dirAdd, if_neg (by unfold ValidName at hv; rintro (hc | hc); exacts [hv.1 hc, by omega]),
      Prog.run_bind_ok (h.lookup name), hfind]
    simp only
    rw [Prog.run_bind_ok hstackRead, Prog.run_bind_ok hloop]
    simp only
    rw [Prog.run_bind_ok hwrite, Prog.run_pure]
    congr 2
    rw [decide_eq_decide, hcnt, hiff]
  · rw [table, hslots, set_table, DirEntry.slot, if_pos rfl, DirEntry.string,
      takeWhile_strlcpy _ hv.2, table]

end Pintos
