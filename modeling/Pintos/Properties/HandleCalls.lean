import Pintos.Properties.VolumeCalls

/-!
# The calls on open files keep the invariant

What the functions of `filesys/file.c` do to the bytes of the files and to what is open, and what is
left after a restart.

* `FsInv.filesysOpen`, `FsInv.fileReopen`, `FsInv.fileDuplicate`, `FsInv.fileClose` — handles come and go
* `FsInv.fileDenyWrite`, `FsInv.fileAllowWrite` — a handle protects its file
* `FsInv.fileRead`, `FsInv.fileWrite` — the bytes of a file, as a list
* `FsInv.restart` — the file system is opened again
-/

namespace Pintos

open Function LittleEndian SlotMap FileStore

variable {s s' s₁ s₂ : FileSys} {refs : InodePtr → Nat} {live : List FilePtr} {p q : InodePtr}
  {d r e : InodeDisk} {owner owner' : Nat → Option InodeDisk} {i inode : Inode} {f : FilePtr} {file : File}
  {dir : Dir} {name : CStr} {size : Int} {ok : Bool} {sec a b n k pos offset : Nat} {bits : Bitmap}
  {disk : Nat → Sector} {x : Handle Nat} {bytes : List Byte}

/-! ## The bytes of a file -/

/-- The bytes of the file with the data `e`. -/
def contentOf (disk : Nat → Sector) (e : InodeDisk) : List Byte := fileBytes disk e.start 0 e.length.toNat

theorem length_contentOf (disk : Nat → Sector) (e : InodeDisk) : (contentOf disk e).length = e.length.toNat :=
  length_fileBytes _ _ _ _

theorem contentOf_congr {disk' : Nat → Sector} (h : SameOn e.Has disk' disk) :
    contentOf disk' e = contentOf disk e := fileBytes_congr h (by omega)

/-- What `inode_read_at` reads is a part of the bytes. -/
theorem slice_contentOf (disk : Nat → Sector) (e : InodeDisk) (offset size : Nat) :
    slice (contentOf disk e) offset size = fileBytes disk e.start offset (transferred e size offset) := by
  refine List.ext_getElem ?_ fun j hj hj' => ?_
  · simp only [slice, List.length_take, List.length_drop, length_contentOf, length_fileBytes]
    rfl
  · simp only [slice, contentOf, fileBytes, List.getElem_take, List.getElem_drop, List.getElem_map,
      List.getElem_range, Nat.zero_add]

/-- What `inode_write_at` leaves. -/
theorem contentOf_patched {disk' : Nat → Sector} (size offset : Nat) (hsize : size = bytes.length)
    (h : SameDisk disk' (patched disk e.start offset (bytes.take (transferred e size offset)))) :
    contentOf disk' e = overwrite (contentOf disk e) offset bytes := by
  subst hsize
  refine List.ext_getElem (by rw [length_overwrite, length_contentOf, length_contentOf]) fun j hlt hj' => ?_
  have hj := hlt
  rw [length_contentOf] at hj
  have hleft : (contentOf disk' e)[j] = fileByte disk' e.start j := by
    simp only [contentOf, fileBytes, List.getElem_map, List.getElem_range, Nat.zero_add]
  have hright : ∀ m (hm : m < (contentOf disk e).length), (contentOf disk e)[m] = fileByte disk e.start m := by
    intro m hm
    simp only [contentOf, fileBytes, List.getElem_map, List.getElem_range, Nat.zero_add]
  rw [hleft, h.fileByte, fileByte_patched]
  have hn : (bytes.take (transferred e bytes.length offset)).length = transferred e bytes.length offset := by
    rw [List.length_take]
    unfold transferred
    omega
  rw [hn]
  -- before, in and after the bytes that are written
  by_cases hlo : j < offset
  · rw [if_neg (by omega)]
    have hlen : j < ((contentOf disk e).take offset).length := by
      rw [List.length_take, length_contentOf]
      omega
    simp only [overwrite, List.append_assoc]
    rw [List.getElem_append_left hlen, List.getElem_take, hright]
  · have hofs : ((contentOf disk e).take offset).length = offset := by
      rw [List.length_take, length_contentOf]
      omega
    by_cases hin : j < offset + transferred e bytes.length offset
    · rw [if_pos ⟨by omega, hin⟩]
      have hlt : j - offset < bytes.length := by
        unfold transferred at hin
        omega
      have hmid : j - offset < (bytes.take ((contentOf disk e).length - offset)).length := by
        rw [List.length_take, length_contentOf]
        omega
      simp only [overwrite, List.append_assoc]
      rw [List.getElem_append_right (by omega), List.getElem_append_left (by rw [hofs]; exact hmid),
        List.getElem_take, List.getD_eq_getElem?_getD, List.getElem?_take_of_lt (by omega),
        List.getElem?_eq_getElem hlt, Option.getD_some]
      simp only [hofs]
    · rw [if_neg (by omega)]
      have hall : bytes.length = transferred e bytes.length offset := by
        unfold transferred at hin ⊢
        omega
      have hmid : (bytes.take ((contentOf disk e).length - offset)).length = bytes.length := by
        rw [List.length_take, length_contentOf]
        unfold transferred at hall
        omega
      simp only [overwrite, List.append_assoc]
      rw [List.getElem_append_right (by omega), List.getElem_append_right (by omega), List.getElem_drop, hright]
      congr 1
      omega

/-! ## Files in memory -/

theorem FsInv.freeMapFile_ne (h : FsInv s refs live p d r owner) (hf : s.files f = none) :
    s.freeMapFile ≠ some f := by
  obtain ⟨f₀, file₀, hf₀, hfile₀, -⟩ := h.map.file
  rintro hc
  rw [hc, Option.some.injEq] at hf₀
  rw [← hf₀, hf] at hfile₀
  cases hfile₀

/-- A file that is not that of the free map changes, or comes. -/
theorem handleOf_setFile (hmap : s.freeMapFile ≠ some f) {file' : File} (hi : s.inodes file'.inode = some i) :
    handleOf (s.setFile f (some file')) =
      update (handleOf s) f (some { id := i.sector, pos := file'.pos, deny := file'.denyWrite }) := by
  funext g
  by_cases hg : g = f
  · rw [hg, update_self]
    exact handleOf_eq hmap (update_self _ _ _) hi
  · rw [update_of_ne hg]
    unfold handleOf
    show (if s.freeMapFile = some g then none else (update s.files f _ g).bind _) = _
    rw [update_of_ne hg]
    rfl

theorem handleOf_freeFile (s : FileSys) (f : FilePtr) :
    handleOf (s.setFile f none) = update (handleOf s) f none := by
  funext g
  by_cases hg : g = f
  · rw [hg, update_self, handleOf]
    show (if s.freeMapFile = some f then none else (update s.files f none f).bind _) = _
    rw [update_self]
    split <;> rfl
  · rw [update_of_ne hg]
    unfold handleOf
    show (if s.freeMapFile = some g then none else (update s.files f none g).bind _) = _
    rw [update_of_ne hg]
    rfl

/-- Inodes change, but not where they are. -/
theorem handleOf_inodes {inodes : InodePtr → Option Inode}
    (h : ∀ q, (inodes q).map (·.sector) = (s.inodes q).map (·.sector)) :
    handleOf { s with inodes := inodes } = handleOf s := by
  funext g
  unfold handleOf
  simp only
  split
  · rfl
  · cases s.files g with
    | none => rfl
    | some file =>
      have hmap : ∀ o : Option Inode,
          o.map (fun i => Handle.mk i.sector file.pos file.denyWrite) =
            (o.map (·.sector)).map fun sec => Handle.mk sec file.pos file.denyWrite := by
        intro o
        rw [Option.map_map]
        rfl
      rw [Option.bind_some, Option.bind_some, hmap, hmap, h file.inode]

theorem handleOf_setInode (hq : s.inodes q = some i) {i' : Inode} (hsec : i'.sector = i.sector) :
    handleOf (s.setInode q (some i')) = handleOf s := by
  refine handleOf_inodes fun q' => ?_
  by_cases hqq : q' = q
  · rw [hqq, update_self, hq, Option.map_some, Option.map_some, hsec]
  · rw [update_of_ne hqq]

/-- A file starts or stops to protect its inode. -/
theorem handleOf_setDeny (hmap : s.freeMapFile ≠ some f) (hi : s.inodes file.inode = some i) (deny : Bool)
    (n : Int) :
    handleOf ((s.setFile f (some { file with denyWrite := deny })).setInode file.inode
        (some { i with denyWriteCnt := n })) =
      update (handleOf s) f (some { id := i.sector, pos := file.pos, deny := deny }) := by
  have hset : handleOf (s.setFile f (some { file with denyWrite := deny })) =
      update (handleOf s) f (some { id := i.sector, pos := file.pos, deny := deny }) :=
    handleOf_setFile hmap hi
  rw [← hset]
  exact handleOf_setInode (s := s.setFile f (some { file with denyWrite := deny })) hi rfl

/-- The position of a file changes. -/
theorem FsInv.setPos (h : FsInv s refs live p d r owner) (hf : s.files f = some file) (hmap : s.freeMapFile ≠ some f)
    (pos : Nat) : FsInv (s.setFile f (some { file with pos := pos })) refs live p d r owner := by
  have hcounts : Counts (unremoved (s.setFile f (some { file with pos := pos }))) refs live :=
    h.counts.setPos hf pos
  have hold : ∀ g file', (s.setFile f (some { file with pos := pos })).files g = some file' →
      ∃ file₀, s.files g = some file₀ ∧ file'.inode = file₀.inode ∧ file'.denyWrite = file₀.denyWrite := by
    intro g file' hg
    have hg' : update s.files f (some { file with pos := pos }) g = some file' := hg
    by_cases hgf : g = f
    · rw [hgf, update_self, Option.some.injEq] at hg'
      exact ⟨file, by rw [hgf, hf], by rw [← hg'], by rw [← hg']⟩
    · rw [update_of_ne hgf] at hg'
      exact ⟨file', hg', rfl, rfl⟩
  refine h.memory ⟨?_, h.map.inode, h.map.length, h.map.onDisk.congr rfl, h.map.ok⟩ rfl rfl rfl rfl
    (fun q i hq => ⟨h.inode q i hq, h.removed q i hq⟩) hcounts fun g file' hg => ?_
  · obtain ⟨f₀, file₀, hf₀, hfile₀, hp⟩ := h.map.file
    refine ⟨f₀, file₀, hf₀, (update_of_ne ?_ _ _).trans hfile₀, hp⟩
    rintro rfl
    exact hmap hf₀
  · obtain ⟨file₀, hg₀, hinode, hdeny⟩ := hold g file' hg
    rw [hinode, hdeny]
    exact h.file g file₀ hg₀

/-- A file starts or stops to protect its inode. -/
theorem FsInv.setDeny (h : FsInv s refs live p d r owner) (hf : s.files f = some file) (hmap : s.freeMapFile ≠ some f)
    (hi : s.inodes file.inode = some i) (deny : Bool) (hne : file.denyWrite ≠ deny) :
    FsInv ((s.setFile f (some { file with denyWrite := deny })).setInode file.inode
      (some { i with denyWriteCnt := i.denyWriteCnt + (if deny then 1 else -1) })) refs live p d r owner := by
  obtain ⟨j, hj, hle⟩ := h.fileInode hf hmap
  rw [hi, Option.some.injEq] at hj
  subst hj
  have hpq := h.map_ne hi (by unfold FREE_MAP_SECTOR; omega)
  have hback : ∀ q' i', ((s.setFile f (some { file with denyWrite := deny })).setInode file.inode
      (some { i with denyWriteCnt := i.denyWriteCnt + (if deny then 1 else -1) })).inodes q' = some i' →
      ∃ j, s.inodes q' = some j ∧ i'.sector = j.sector ∧ i'.data = j.data ∧ i'.removed = j.removed := by
    intro q' i' hi'
    have hi'' : update s.inodes file.inode (some { i with denyWriteCnt := i.denyWriteCnt +
      (if deny then 1 else -1) }) q' = some i' := hi'
    by_cases hqq : q' = file.inode
    · rw [hqq, update_self, Option.some.injEq] at hi''
      subst hi''
      exact ⟨i, by rw [hqq, hi], rfl, rfl, rfl⟩
    · rw [update_of_ne hqq] at hi''
      exact ⟨i', hi'', rfl, rfl, rfl⟩
  have hkept : ∀ q' j, s.inodes q' = some j → ∃ i', ((s.setFile f (some { file with denyWrite := deny })).setInode
      file.inode (some { i with denyWriteCnt := i.denyWriteCnt + (if deny then 1 else -1) })).inodes q' = some i' ∧
        i'.sector = j.sector := by
    intro q' j hj
    by_cases hqq : q' = file.inode
    · rw [hqq, hi, Option.some.injEq] at hj
      exact ⟨_, by rw [hqq]; exact update_self _ _ _, by rw [← hj]⟩
    · exact ⟨j, (update_of_ne hqq _ _).trans hj, rfl⟩
  have hcounts : Counts (unremoved ((s.setFile f (some { file with denyWrite := deny })).setInode file.inode
      (some { i with denyWriteCnt := i.denyWriteCnt + (if deny then 1 else -1) }))) refs live := by
    rw [unremoved_setInode]
    exact h.counts.setDeny hf (unremoved_inodes hi) deny hne
  refine h.memory ⟨?_, ?_, h.map.length, h.map.onDisk.congr rfl, h.map.ok⟩ rfl rfl rfl rfl ?_ hcounts ?_
  · obtain ⟨f₀, file₀, hf₀, hfile₀, hp⟩ := h.map.file
    refine ⟨f₀, file₀, hf₀, (update_of_ne ?_ _ _).trans hfile₀, hp⟩
    rintro rfl
    exact hmap hf₀
  · obtain ⟨i₀, hi₀, hrest⟩ := h.map.inode
    exact ⟨i₀, (update_of_ne hpq _ _).trans hi₀, hrest⟩
  · intro q' i' hi'
    obtain ⟨j, hj, hs, hd, hr⟩ := hback q' i' hi'
    rw [hs, hd, hr]
    exact ⟨h.inode q' j hj, h.removed q' j hj⟩
  · intro g file' hg
    have hg' : update s.files f (some { file with denyWrite := deny }) g = some file' := hg
    by_cases hgf : g = f
    · rw [hgf, update_self, Option.some.injEq] at hg'
      subst hg'
      obtain ⟨i', hi', hsec⟩ := hkept _ i hi
      exact Or.inr ⟨i', hi', by rw [hsec]; exact hle⟩
    · rw [update_of_ne hgf] at hg'
      refine (h.file g file' hg').imp_right ?_
      rintro ⟨j, hj, hle'⟩
      obtain ⟨i', hi', hsec⟩ := hkept _ j hj
      exact ⟨i', hi', by rw [hsec]; exact hle'⟩

/-! ## The disk is written -/

/-- The bytes of one file change. -/
theorem FsInv.setData (h : FsInv s refs live p d r owner) (he : owner sec = some e) (hsec : 2 ≤ sec)
    (hdisk : SameOn (fun x => ¬ e.Has x) disk s.disk) :
    FsInv { s with disk := disk } refs live p d r owner ∧
      ∀ sec' e', sec' ≠ sec → owner sec' = some e' → contentOf disk e' = contentOf s.disk e' := by
  have hother : ∀ {sec' e' x}, sec' ≠ sec → owner sec' = some e' → Occupies sec' e' x → ¬ e.Has x :=
    fun hne he' hx hc => h.owned.apart _ _ _ _ _ he' he hne hx (Or.inr hc)
  have hroot : SameOn r.Has disk s.disk := hdisk.mono fun x hx =>
    hother (by unfold ROOT_DIR_SECTOR; omega) h.rootOwner (Or.inr hx)
  have hmapData : SameOn d.Has disk s.disk := hdisk.mono fun x hx =>
    hother (by unfold FREE_MAP_SECTOR; omega) h.mapOwner (Or.inr hx)
  have hinodes : SameOn (fun sec => owner sec ≠ none) disk s.disk := by
    refine hdisk.mono fun sec' hne hc => ?_
    obtain ⟨e', he'⟩ := Option.ne_none_iff_exists'.mp hne
    by_cases hss : sec' = sec
    · subst hss
      exact h.owned.outside _ _ he hc
    · exact hother hss he' (Or.inl rfl) hc
  have hmap : MapIs s { s with disk := disk } d s.freeMap.bits := by
    refine ⟨rfl, h.map.ok, rfl, rfl, ?_⟩
    rw [← h.stored]
    unfold storedMap
    simp only
    rw [fileBytes_congr hmapData (by rw [h.map.length]; omega)]
  refine ⟨h.mapKept hmap rfl (fun _ hx => hx) hinodes hroot, fun sec' e' hne he' => ?_⟩
  exact contentOf_congr (hdisk.mono fun x hx => hother hne he' (Or.inr hx))

/-- The handles that protect an inode are those of its files. -/
theorem FsInv.denied_iff (h : FsInv s refs live p d r owner) (hi : s.inodes q = some i) :
    i.denyWriteCnt ≠ 0 ↔ ∃ f x, handleOf s f = some x ∧ x.id = i.sector ∧ x.deny = true := by
  obtain ⟨-, hcnt⟩ := h.count hi
  have hpos : i.denyWriteCnt ≠ 0 ↔ 0 < live.countP (denies s.files q) := by omega
  rw [hpos, List.countP_pos_iff]
  constructor
  · rintro ⟨f, -, hdeny⟩
    unfold denies at hdeny
    split at hdeny
    · cases hdeny
    · next file hf =>
      obtain ⟨hq, hd⟩ := Bool.and_eq_true_iff.mp hdeny
      have hq := of_decide_eq_true hq
      have hmap : s.freeMapFile ≠ some f := by
        rcases h.file f file hf with ⟨-, hoff⟩ | ⟨j, hj, hle⟩
        · rw [hd] at hoff
          cases hoff
        · intro hc
          obtain ⟨f₀, file₀, hf₀, hfile₀, hp⟩ := h.map.file
          rw [hc, Option.some.injEq] at hf₀
          subst hf₀
          rw [hf, Option.some.injEq] at hfile₀
          subst hfile₀
          obtain ⟨i₀, hi₀, -, -, hsec₀⟩ := h.map.inode
          rw [hp, hi₀, Option.some.injEq] at hj
          rw [← hj, hsec₀] at hle
          exact absurd hle (by decide)
      exact ⟨f, _, handleOf_eq hmap hf (by rw [hq]; exact hi), rfl, hd⟩
  · rintro ⟨f, x, hx, hid, hd⟩
    obtain ⟨-, file, j, hf, hj, rfl⟩ := handleOf_some hx
    have hq : file.inode = q := h.inode_unique hj hi hid
    refine ⟨f, (h.counts.file f).mpr ?_, ?_⟩
    · show s.files f ≠ none
      rw [hf]
      exact Option.some_ne_none _
    · rw [denies_some hf, hq, decide_eq_true rfl, Bool.true_and]
      exact hd

/-- What is known of a handle. -/
theorem FsInv.handle (h : FsInv s refs live p d r owner) (hx : handleOf s f = some x) :
    s.freeMapFile ≠ some f ∧ ∃ file i, s.files f = some file ∧ s.inodes file.inode = some i ∧
      x = { id := i.sector, pos := file.pos, deny := file.denyWrite } ∧ 2 ≤ i.sector ∧
      owner i.sector = some i.data := by
  obtain ⟨hmap, file, i, hf, hi, rfl⟩ := handleOf_some hx
  obtain ⟨j, hj, hle⟩ := h.fileInode hf hmap
  rw [hi, Option.some.injEq] at hj
  subst hj
  exact ⟨hmap, file, i, hf, hi, rfl, hle, h.inode _ i hi⟩

/-! ## Reading and writing -/

/-- **`file_read`**. -/
theorem FsInv.fileRead (h : FsInv s refs live p d r owner) (hx : handleOf s f = some x) (size : Nat) :
    ∃ s' e, owner x.id = some e ∧ 2 ≤ x.id ∧
      (Pintos.fileRead f size).run s = .ok (slice (contentOf s.disk e) x.pos size, s') ∧
      FsInv s' refs live p d r owner ∧ s'.disk = s.disk ∧
      handleOf s' = update (handleOf s) f
        (some { x with pos := x.pos + (slice (contentOf s.disk e) x.pos size).length }) := by
  obtain ⟨hmap, file, i, hf, hi, rfl, hle, he⟩ := h.handle hx
  refine ⟨_, i.data, he, hle, ?_, h.setPos hf hmap (file.pos + transferred i.data size file.pos), rfl, ?_⟩
  · rw [run_fileRead hf hi (h.onDisk he), slice_contentOf]
  · rw [slice_contentOf, length_fileBytes]
    exact handleOf_setFile hmap hi

/-- **`file_read_at`**. -/
theorem FsInv.fileReadAt (h : FsInv s refs live p d r owner) (hx : handleOf s f = some x) (size offset : Nat) :
    ∃ e, owner x.id = some e ∧ 2 ≤ x.id ∧
      (Pintos.fileReadAt f size offset).run s = .ok (slice (contentOf s.disk e) offset size, s) := by
  obtain ⟨hmap, file, i, hf, hi, rfl, hle, he⟩ := h.handle hx
  refine ⟨i.data, he, hle, ?_⟩
  rw [Pintos.fileReadAt, Prog.run_bind_ok (run_derefFile hf), inodeReadAt_spec hi (h.onDisk he), slice_contentOf]

/-- **`inode_write_at`** to a file that nobody protects. -/
theorem FsInv.inodeWriteAt (h : FsInv s refs live p d r owner) (hi : s.inodes q = some i) (hle : 2 ≤ i.sector)
    (hdeny : i.denyWriteCnt = 0) (bytes : List Byte) (offset : Nat) :
    ∃ disk, (Pintos.inodeWriteAt q (fun _ => bytes) bytes.length offset).run s =
        .ok (min bytes.length ((contentOf s.disk i.data).length - offset), { s with disk := disk }) ∧
      contentOf disk i.data = overwrite (contentOf s.disk i.data) offset bytes ∧
      FsInv { s with disk := disk } refs live p d r owner ∧
      ∀ sec' e', sec' ≠ i.sector → owner sec' = some e' → contentOf disk e' = contentOf s.disk e' := by
  have he := h.inode q i hi
  obtain ⟨disk, hrun, hsame⟩ := inodeWriteAt_spec (fun _ => bytes) bytes.length offset hi (h.onDisk he)
    (fun _ => rfl) hdeny (Nat.le_refl _)
  have hbound : SameOn (fun x => ¬ i.data.Has x) disk s.disk := by
    by_cases hempty : transferred i.data bytes.length offset = 0
    · rw [hempty, List.take_zero, patched_nil] at hsame
      exact hsame.sameOn _
    · refine (hsame.sameOn _).trans (sameOn_patched s.disk ?_)
      rw [List.length_take]
      unfold transferred at hempty ⊢
      omega
  obtain ⟨hinv, hother⟩ := h.setData he hle hbound
  refine ⟨disk, ?_, contentOf_patched _ offset rfl hsame, hinv, hother⟩
  rw [hrun, length_contentOf]
  rfl

/-- What a call that writes does to the file of the handle `x`, and to no other. -/
structure Written (s s' : FileSys) (owner : Nat → Option InodeDisk) (x : Handle Nat) (e : InodeDisk) (offset : Nat)
    (bytes : List Byte) : Prop where
  content : contentOf s'.disk e = overwrite (contentOf s.disk e) offset bytes
  other : ∀ sec' e', sec' ≠ x.id → owner sec' = some e' → contentOf s'.disk e' = contentOf s.disk e'

/-- **`file_write`**: refused, or the bytes are replaced. -/
theorem FsInv.fileWrite (h : FsInv s refs live p d r owner) (hx : handleOf s f = some x) (bytes : List Byte) :
    ∃ e, owner x.id = some e ∧ 2 ≤ x.id ∧
      (((∃ g y, handleOf s g = some y ∧ y.id = x.id ∧ y.deny = true) ∧
          (Pintos.fileWrite f bytes).run s = .ok (0, s)) ∨
        (¬ (∃ g y, handleOf s g = some y ∧ y.id = x.id ∧ y.deny = true) ∧ ∃ s',
          (Pintos.fileWrite f bytes).run s = .ok (min bytes.length ((contentOf s.disk e).length - x.pos), s') ∧
          FsInv s' refs live p d r owner ∧ Written s s' owner x e x.pos bytes ∧
          handleOf s' = update (handleOf s) f
            (some { x with pos := x.pos + min bytes.length ((contentOf s.disk e).length - x.pos) }))) := by
  obtain ⟨hmap, file, i, hf, hi, rfl, hle, he⟩ := h.handle hx
  refine ⟨i.data, he, hle, ?_⟩
  by_cases hdeny : i.denyWriteCnt = 0
  · refine Or.inr ⟨fun hc => (h.denied_iff hi).mpr hc hdeny, ?_⟩
    obtain ⟨disk, hrun, hcontent, hinv, hother⟩ := h.inodeWriteAt hi hle hdeny bytes file.pos
    have hadvance : (advance f (min bytes.length ((contentOf s.disk i.data).length - file.pos))).run
        { s with disk := disk } = .ok ((), ({ s with disk := disk } : FileSys).setFile f
          (some { file with pos := file.pos + min bytes.length ((contentOf s.disk i.data).length - file.pos) })) :=
      Prog.run_write (by simp only [hf])
    refine ⟨_, ?_, hinv.setPos hf hmap _, ⟨hcontent, hother⟩, handleOf_setFile (s := { s with disk := disk }) hmap hi⟩
    rw [Pintos.fileWrite, Prog.run_bind_ok (run_derefFile hf), Prog.run_bind_ok hrun, Prog.run_bind_ok hadvance]
    rfl
  · refine Or.inl ⟨(h.denied_iff hi).mp hdeny, ?_⟩
    have hadvance : (advance f 0).run s = .ok ((), s) := by
      refine Prog.run_write ?_
      rw [hf]
      show Except.ok (s.setFile f (some file)) = _
      rw [FileSys.setFile, update_eq_self_iff.mpr hf.symm]
    rw [Pintos.fileWrite, Prog.run_bind_ok (run_derefFile hf), Prog.run_bind_ok (inodeWriteAt_denied hi hdeny),
      Prog.run_bind_ok hadvance]
    rfl

/-- **`file_write_at`**: refused, or the bytes are replaced. -/
theorem FsInv.fileWriteAt (h : FsInv s refs live p d r owner) (hx : handleOf s f = some x) (bytes : List Byte)
    (offset : Nat) :
    ∃ e, owner x.id = some e ∧ 2 ≤ x.id ∧
      (((∃ g y, handleOf s g = some y ∧ y.id = x.id ∧ y.deny = true) ∧
          (Pintos.fileWriteAt f (fun _ => bytes) bytes.length offset).run s = .ok (0, s)) ∨
        (¬ (∃ g y, handleOf s g = some y ∧ y.id = x.id ∧ y.deny = true) ∧ ∃ s',
          (Pintos.fileWriteAt f (fun _ => bytes) bytes.length offset).run s =
            .ok (min bytes.length ((contentOf s.disk e).length - offset), s') ∧
          FsInv s' refs live p d r owner ∧ Written s s' owner x e offset bytes ∧ handleOf s' = handleOf s)) := by
  obtain ⟨hmap, file, i, hf, hi, rfl, hle, he⟩ := h.handle hx
  refine ⟨i.data, he, hle, ?_⟩
  by_cases hdeny : i.denyWriteCnt = 0
  · refine Or.inr ⟨fun hc => (h.denied_iff hi).mpr hc hdeny, ?_⟩
    obtain ⟨disk, hrun, hcontent, hinv, hother⟩ := h.inodeWriteAt hi hle hdeny bytes offset
    refine ⟨_, ?_, hinv, ⟨hcontent, hother⟩, rfl⟩
    rw [Pintos.fileWriteAt, Prog.run_bind_ok (run_derefFile hf), hrun]
  · refine Or.inl ⟨(h.denied_iff hi).mp hdeny, ?_⟩
    rw [Pintos.fileWriteAt, Prog.run_bind_ok (run_derefFile hf), inodeWriteAt_denied hi hdeny]

/-! ## Handles come -/

/-- **`file_open`** of an inode whose reference the caller holds. -/
theorem FsInv.fileOpen (h : FsInv s refs live p d r owner) (hq : s.inodes q = some i) (hle : 2 ≤ i.sector)
    (hheld : refs q ≠ 0) :
    ∃ s', (Pintos.fileOpen (some q) true).run s = .ok (some s.brk, s') ∧ s'.disk = s.disk ∧
      FsInv s' (update refs q (refs q - 1)) (s.brk :: live) p d r owner ∧
      handleOf s' = update (handleOf s) s.brk (some { id := i.sector, pos := 0, deny := false }) ∧
      s'.files s.brk = some { inode := q, pos := 0, denyWrite := false } ∧ s'.inodes = s.inodes ∧
      (∀ g, g ≠ s.brk → s'.files g = s.files g) ∧ s'.freeMapFile = s.freeMapFile := by
  have hmap := h.freeMapFile_ne (h.fresh (Nat.le_refl s.brk)).2
  refine ⟨_, rfl, rfl, ?_, handleOf_setFile hmap hq, update_self _ _ _, rfl, fun g hg => update_of_ne hg _ _, rfl⟩
  refine h.memory ⟨?_, h.map.inode, h.map.length, h.map.onDisk.congr rfl, h.map.ok⟩ rfl rfl rfl rfl
    (fun q i hq => ⟨h.inode q i hq, h.removed q i hq⟩) (h.counts.newFile (unremoved_inodes hq) hheld 0) ?_
  · obtain ⟨f₀, file₀, hf₀, hfile₀, hp⟩ := h.map.file
    refine ⟨f₀, file₀, hf₀, (update_of_ne ?_ _ _).trans hfile₀, hp⟩
    rintro rfl
    exact hmap hf₀
  · intro g file' hg
    have hg' : update s.files s.brk (some { inode := q, pos := 0, denyWrite := false }) g = some file' := hg
    by_cases hgf : g = s.brk
    · rw [hgf, update_self, Option.some.injEq] at hg'
      subst hg'
      exact Or.inr ⟨i, hq, hle⟩
    · rw [update_of_ne hgf] at hg'
      exact h.file g file' hg'

/-- **`dir_lookup`** in the root directory. -/
theorem FsInv.dirLookup (h : FsInv s refs live p d r owner) (hq : s.inodes q = some i)
    (hsec : i.sector = ROOT_DIR_SECTOR) (name : CStr) :
    (value (table s.disk r) name.bytes = none ∧
      (Pintos.dirLookup { inode := q, pos := 0 } name).run s = .ok (none, s)) ∨
    ∃ sec q' j s', value (table s.disk r) name.bytes = some sec ∧ 2 ≤ sec ∧
      (Pintos.dirLookup { inode := q, pos := 0 } name).run s = .ok (some q', s') ∧ SameStore s s' ∧
      s'.inodes q' = some j ∧ j.sector = sec ∧
      FsInv s' (update refs q' (refs q' + 1)) live p d r owner ∧ StillOpen s s' := by
  have hdir : DirOpen s (Dir.mk q 0).inode r := h.dirOpen hq hsec
  rcases findFrom_cases name s.disk r with ⟨hfind, hnone⟩ | ⟨e, k, hfind, hk, hslot, hvalue⟩
  · refine Or.inl ⟨hnone, ?_⟩
    rw [Pintos.dirLookup, Prog.run_bind_ok (hdir.lookup name), hfind]
    rfl
  · have hmem : e.inodeSector ∈ keys (swapped (table s.disk r)) := (mem_keys_swapped h.names).mpr ⟨_, hvalue⟩
    obtain ⟨q', j, s', hrun, hstore, hj, hjsec, -, hinv, hstill⟩ := h.inodeOpen (Or.inr hmem)
    refine Or.inr ⟨e.inodeSector, q', j, s', hvalue, (h.entry _ hmem).1, ?_, hstore, hj, hjsec, hinv, hstill⟩
    rw [Pintos.dirLookup, Prog.run_bind_ok (hdir.lookup name), hfind]
    exact hrun

/-- What a call that opens leaves: a new handle. -/
structure NewHandle (s s' : FileSys) (refs : InodePtr → Nat) (live : List FilePtr) (p : InodePtr) (d r : InodeDisk)
    (owner : Nat → Option InodeDisk) (f : FilePtr) (x : Handle Nat) : Prop where
  fresh : handleOf s f = none
  inv : FsInv s' refs (f :: live) p d r owner
  disk : s'.disk = s.disk
  handles : handleOf s' = update (handleOf s) f (some x)

/-- **`filesys_open`** of a name that is there, or nothing. -/
theorem FsInv.filesysOpen (h : FsInv s refs live p d r owner) (name : CStr) :
    (value (table s.disk r) name.bytes = none ∧ ∃ s', (Pintos.filesysOpen name).run s = .ok (none, s') ∧
      FsInv s' refs live p d r owner ∧ s'.disk = s.disk ∧ handleOf s' = handleOf s) ∨
    ∃ sec f s', value (table s.disk r) name.bytes = some sec ∧
      (Pintos.filesysOpen name).run s = .ok (some f, s') ∧
      NewHandle s s' refs live p d r owner f { id := sec, pos := 0, deny := false } := by
  obtain ⟨q, i, s₁, hopen, hstore₁, hq, hsec, h₁, hstill₁⟩ := h.dirOpenRoot
  have hheld : update refs q (refs q + 1) q ≠ 0 := by
    rw [update_self]
    omega
  have hle₁ : handleOf s₁ = handleOf s := hstill₁.handleOf h h₁
  rcases h₁.dirLookup hq hsec name with
    ⟨hnone, hrun⟩ | ⟨sec, q', j, s₂, hvalue, hle, hrun, hstore₂, hj, hjsec, h₂, hstill₂⟩
  · obtain ⟨s', hclose, hstore₃, h₃, hstill₃⟩ := h₁.dirCloseRoot hq hsec hheld
    rw [update_add_sub] at h₃
    rw [hstore₁.disk] at hnone
    refine Or.inl ⟨hnone, s', ?_, h₃, hstore₃.disk.trans hstore₁.disk,
      (hstill₃.handleOf h₁ h₃).trans hle₁⟩
    rw [Pintos.filesysOpen, Prog.run_bind_ok hopen]
    simp only
    rw [Prog.run_bind_ok hrun, Prog.run_bind_ok hclose]
    rfl
  · -- the root directory is another inode
    obtain ⟨i₂, hi₂⟩ := h₂.held (q := q) (by
      by_cases hqq : q = q'
      · rw [hqq, update_self]
        omega
      · rw [update_of_ne hqq, update_self]
        omega)
    have hsec₂ : i₂.sector = ROOT_DIR_SECTOR := by
      have hlt : q < s₁.brk := Nat.lt_of_not_le fun hc => by
        rw [(h₁.fresh hc).1] at hq
        cases hq
      obtain ⟨i₁, hi₁, hs⟩ := hstill₂.inode q i₂ hlt hi₂
      rw [hq, Option.some.injEq] at hi₁
      rw [hs, ← hi₁, hsec]
    have hne : q ≠ q' := by
      rintro rfl
      rw [hj, Option.some.injEq] at hi₂
      rw [hi₂, hsec₂] at hjsec
      rw [← hjsec] at hle
      exact absurd hle (by decide)
    obtain ⟨s₃, hclose, hstore₃, h₃, hstill₃⟩ := h₂.dirCloseRoot hi₂ hsec₂ (by
      rw [update_of_ne hne]
      exact hheld)
    have hheld' : update (update (update refs q (refs q + 1)) q' (update refs q (refs q + 1) q' + 1)) q
        (update (update refs q (refs q + 1)) q' (update refs q (refs q + 1) q' + 1) q - 1) q' ≠ 0 := by
      rw [update_of_ne (Ne.symm hne), update_self]
      omega
    obtain ⟨j₃, hj₃⟩ := h₃.held hheld'
    have hsec₃ : j₃.sector = sec := by
      have hlt : q' < s₂.brk := Nat.lt_of_not_le fun hc => by
        rw [(h₂.fresh hc).1] at hj
        cases hj
      obtain ⟨j₂, hj₂, hs⟩ := hstill₃.inode q' j₃ hlt hj₃
      rw [hj, Option.some.injEq] at hj₂
      rw [hs, ← hj₂, hjsec]
    obtain ⟨s', hfile, hdisk, h₄, hhandles, -⟩ := h₃.fileOpen hj₃ (by rw [hsec₃]; exact hle) hheld'
    have hrefs : update (update (update (update refs q (refs q + 1)) q' (update refs q (refs q + 1) q' + 1)) q
        (update (update refs q (refs q + 1)) q' (update refs q (refs q + 1) q' + 1) q - 1)) q'
        (update (update (update refs q (refs q + 1)) q' (update refs q (refs q + 1) q' + 1)) q
        (update (update refs q (refs q + 1)) q' (update refs q (refs q + 1) q' + 1) q - 1) q' - 1) = refs := by
      funext x
      by_cases hxq' : x = q'
      · subst hxq'
        simp only [update_self, update_of_ne (Ne.symm hne), Nat.add_sub_cancel]
      · rw [update_of_ne hxq']
        by_cases hxq : x = q
        · subst hxq
          simp only [update_self, update_of_ne hne, Nat.add_sub_cancel]
        · rw [update_of_ne hxq, update_of_ne hxq', update_of_ne hxq]
    rw [hrefs] at h₄
    have hhandles₃ : handleOf s₃ = handleOf s :=
      ((hstill₃.handleOf h₂ h₃).trans (hstill₂.handleOf h₁ h₂)).trans hle₁
    rw [hstore₁.disk] at hvalue
    refine Or.inr ⟨sec, s₃.brk, s', hvalue, ?_, ?_, h₄, ?_, ?_⟩
    · rw [Pintos.filesysOpen, Prog.run_bind_ok hopen]
      simp only
      rw [Prog.run_bind_ok hrun, Prog.run_bind_ok hclose, hfile]
    · rw [← hhandles₃]
      exact h₃.handleOf_brk
    · rw [hdisk, hstore₃.disk, hstore₂.disk, hstore₁.disk]
    · rw [hhandles, hhandles₃, hsec₃]

/-- **`file_seek`**. -/
theorem FsInv.fileSeek (h : FsInv s refs live p d r owner) (hx : handleOf s f = some x) (pos : Nat) :
    ∃ s', (Pintos.fileSeek f pos).run s = .ok ((), s') ∧ FsInv s' refs live p d r owner ∧ s'.disk = s.disk ∧
      handleOf s' = update (handleOf s) f (some { x with pos := pos }) := by
  obtain ⟨hmap, file, i, hf, hi, rfl, -, -⟩ := h.handle hx
  exact ⟨_, run_fileSeek hf (Int.natCast_nonneg pos), h.setPos hf hmap pos, rfl, handleOf_setFile hmap hi⟩

/-- **`file_deny_write`**. -/
theorem FsInv.fileDenyWrite (h : FsInv s refs live p d r owner) (hx : handleOf s f = some x) :
    ∃ s', (Pintos.fileDenyWrite f).run s = .ok ((), s') ∧ FsInv s' refs live p d r owner ∧ s'.disk = s.disk ∧
      handleOf s' = update (handleOf s) f (some { x with deny := true }) := by
  obtain ⟨hmap, file, i, hf, hi, rfl, -, -⟩ := h.handle hx
  rw [Pintos.fileDenyWrite, Prog.run_bind_ok (run_derefFile hf)]
  split
  · next hdeny =>
    refine ⟨s, rfl, h, rfl, ?_⟩
    rw [← hdeny, ← hx, update_eq_self]
  · next hdeny =>
    have hinv := h.setDeny hf hmap hi true (by simpa using hdeny)
    simp only [if_true] at hinv
    refine ⟨_, ?_, hinv, rfl, ?_⟩
    · rw [Prog.run_bind_ok (run_updateFile hf _), inodeDenyWrite, updateInode]
      refine Prog.run_write ?_
      have hle := hinv.counts.deny_le (unremoved_inodes (update_self _ _ _))
      simp only at hle
      simp only [FileSys.setFile, hi, hle, if_true]
    · exact handleOf_setDeny hmap hi _ _

/-- **`file_allow_write`**. -/
theorem FsInv.fileAllowWrite (h : FsInv s refs live p d r owner) (hx : handleOf s f = some x) :
    ∃ s', (Pintos.fileAllowWrite f).run s = .ok ((), s') ∧ FsInv s' refs live p d r owner ∧ s'.disk = s.disk ∧
      handleOf s' = update (handleOf s) f (some { x with deny := false }) := by
  obtain ⟨hmap, file, i, hf, hi, rfl, -, -⟩ := h.handle hx
  rw [Pintos.fileAllowWrite, Prog.run_bind_ok (run_derefFile hf)]
  split
  · next hdeny =>
    have hinv := h.setDeny hf hmap hi false (by simp [hdeny])
    simp only [Bool.false_eq_true, if_false] at hinv
    refine ⟨_, ?_, hinv, rfl, ?_⟩
    · rw [Prog.run_bind_ok (run_updateFile hf _), inodeAllowWrite, updateInode]
      refine Prog.run_write ?_
      obtain ⟨-, hcnt⟩ := hinv.count (update_self _ _ _)
      obtain ⟨hpos, -⟩ := h.count hi
      have hle := h.counts.deny_le (unremoved_inodes hi)
      simp only at hcnt hle
      have hlt : 0 < i.denyWriteCnt := by omega
      simp only [FileSys.setFile, hi, hlt, hle, and_self, if_true]
      rfl
    · exact handleOf_setDeny hmap hi _ _
  · next hdeny =>
    have hoff : file.denyWrite = false := by simpa using hdeny
    refine ⟨s, rfl, h, rfl, ?_⟩
    rw [← hoff, ← hx, update_eq_self]

/-- **`file_reopen`**, with and without memory for another file. -/
theorem FsInv.fileReopen (h : FsInv s refs live p d r owner) (hx : handleOf s f = some x) :
    (Pintos.fileReopen f false).run s = .ok (none, s) ∧
    ∃ g s', (Pintos.fileReopen f true).run s = .ok (some g, s') ∧ g ≠ f ∧ s'.files f = s.files f ∧
      s'.freeMapFile = s.freeMapFile ∧
      NewHandle s s' refs live p d r owner g { x with pos := 0, deny := false } := by
  obtain ⟨hmap, file, i, hf, hi, rfl, hle, he⟩ := h.handle hx
  obtain ⟨hpos, -⟩ := h.count hi
  refine ⟨run_fileReopen_refused hf hi (by omega), ?_⟩
  obtain ⟨hre, hstill⟩ := h.reopened hi (by unfold FREE_MAP_SECTOR; omega)
  have hheld : update refs file.inode (refs file.inode + 1) file.inode ≠ 0 := by
    rw [update_self]
    omega
  have hi' : (Pintos.reopened s file.inode i).inodes file.inode = some { i with openCnt := i.openCnt + 1 } :=
    update_self _ _ _
  obtain ⟨s', hrun, hdisk, hinv, hhandles, -, -, hother, hmapFile⟩ := hre.fileOpen hi' hle hheld
  rw [update_add_sub] at hinv
  rw [hstill.handleOf h hre] at hhandles
  have hne : s.brk ≠ f := by
    rintro rfl
    rw [(h.fresh (Nat.le_refl _)).2] at hf
    cases hf
  refine ⟨s.brk, s', ?_, hne, hother f (Ne.symm hne), hmapFile, h.handleOf_brk, hinv, hdisk, hhandles⟩
  rw [Pintos.fileReopen, Prog.run_bind_ok (run_derefFile hf), Prog.run_bind_ok (run_inodeReopen hi)]
  exact hrun

/-- **`file_duplicate`**, with and without memory for another file. -/
theorem FsInv.fileDuplicate (h : FsInv s refs live p d r owner) (hx : handleOf s f = some x) :
    (Pintos.fileDuplicate f false).run s = .ok (none, s) ∧
    ∃ g s', (Pintos.fileDuplicate f true).run s = .ok (some g, s') ∧ NewHandle s s' refs live p d r owner g x := by
  obtain ⟨hrefused, g, s₁, hrun, hgf, hfiles, hmapFile, hnew⟩ := h.fileReopen hx
  have hx₁ : handleOf s₁ f = some x := by rw [hnew.handles, update_of_ne (Ne.symm hgf), hx]
  have hg₁ : handleOf s₁ g = some { x with pos := 0, deny := false } := by rw [hnew.handles, update_self]
  obtain ⟨-, file, i, hf, hi, rfl, -⟩ := h.handle hx
  -- the first steps are those of `file_reopen`
  have refused : ∀ {alloc t}, (Pintos.fileReopen f alloc).run s = .ok (none, t) →
      (Pintos.fileDuplicate f alloc).run s = .ok (none, t) := by
    intro alloc t hrun
    rw [Pintos.fileReopen, Prog.run_bind_ok (run_derefFile hf)] at hrun
    obtain ⟨q, s₀, hreopen, hrun⟩ := Prog.of_run_bind hrun
    rw [Pintos.fileDuplicate, Prog.run_bind_ok (run_derefFile hf), Prog.run_bind_ok hreopen,
      Prog.run_bind_ok hrun]
    rfl
  have starts : ∀ {alloc nf t}, (Pintos.fileReopen f alloc).run s = .ok (some nf, t) →
      (Pintos.fileDuplicate f alloc).run s = (do
        let file ← derefFile f
        updateFile nf fun nfile => { nfile with pos := file.pos }
        if file.denyWrite then do
          Pintos.fileDenyWrite nf
          pure (some nf)
        else pure (some nf) : FsProg (Option FilePtr)).run t := by
    intro alloc nf t hrun
    rw [Pintos.fileReopen, Prog.run_bind_ok (run_derefFile hf)] at hrun
    obtain ⟨q, s₀, hreopen, hrun⟩ := Prog.of_run_bind hrun
    rw [Pintos.fileDuplicate, Prog.run_bind_ok (run_derefFile hf), Prog.run_bind_ok hreopen,
      Prog.run_bind_ok hrun]
  refine ⟨refused hrefused, ?_⟩
  have hf₁ : s₁.files f = some file := hfiles.trans hf
  obtain ⟨hmapg, fileg, ig, hfg, hig, hxg, -, -⟩ := hnew.inv.handle hg₁
  have hset := hnew.inv.setPos hfg hmapg file.pos
  have hgset : handleOf (s₁.setFile g (some { fileg with pos := file.pos })) =
      update (handleOf s) g (some { id := i.sector, pos := file.pos, deny := false }) := by
    have hset : handleOf (s₁.setFile g (some { fileg with pos := file.pos })) =
        update (handleOf s₁) g (some { id := ig.sector, pos := file.pos, deny := fileg.denyWrite }) :=
      handleOf_setFile hmapg hig
    simp only [Handle.mk.injEq] at hxg
    rw [hset, hnew.handles, update_idem, hxg.1, ← hxg.2.2]
  rw [starts hrun, Prog.run_bind_ok (run_derefFile hf₁), Prog.run_bind_ok (run_updateFile hfg _)]
  split
  · next hdeny =>
    obtain ⟨s', hrun', hinv', hdisk', hhandles'⟩ := hset.fileDenyWrite
      (by rw [hgset]; exact update_self _ _ _)
    refine ⟨g, s', ?_, hnew.fresh, hinv', hdisk'.trans hnew.disk, ?_⟩
    · rw [Prog.run_bind_ok hrun']
      rfl
    · rw [hhandles', hgset, update_idem, hdeny]
  · next hdeny =>
    have hoff : file.denyWrite = false := by simpa using hdeny
    exact ⟨g, _, rfl, hnew.fresh, hset, hnew.disk, by rw [hgset, hoff]⟩

/-! ## Handles go -/

/-- The invariant after the memory of a file is given back, and before its reference is. -/
theorem FsInv.freeFile (h : FsInv s refs live p d r owner) (hf : s.files f = some file)
    (hdeny : file.denyWrite = false) (hmap : s.freeMapFile ≠ some f) :
    FsInv (s.setFile f none) (update refs file.inode (refs file.inode + 1)) (live.erase f) p d r owner := by
  refine h.memory ⟨?_, h.map.inode, h.map.length, h.map.onDisk.congr rfl, h.map.ok⟩ rfl rfl rfl rfl
    (fun q i hq => ⟨h.inode q i hq, h.removed q i hq⟩) (h.counts.freeFile hf hdeny) ?_
  · obtain ⟨f₀, file₀, hf₀, hfile₀, hp⟩ := h.map.file
    refine ⟨f₀, file₀, hf₀, (update_of_ne ?_ _ _).trans hfile₀, hp⟩
    rintro rfl
    exact hmap hf₀
  · intro g file' hg
    have hg' : update s.files f none g = some file' := hg
    by_cases hgf : g = f
    · rw [hgf, update_self] at hg'
      cases hg'
    · rw [update_of_ne hgf] at hg'
      exact h.file g file' hg'

/-- **`file_close`** gives the sectors of a removed file back where nobody else has it open. -/
theorem FsInv.fileClose (h : FsInv s refs live p d r owner) (hx : handleOf s f = some x) :
    ∃ s' owner', (Pintos.fileClose (some f)).run s = .ok ((), s') ∧
      FsInv s' refs (live.erase f) p d r owner' ∧ (∀ sec e, owner' sec = some e → owner sec = some e) ∧
      SameOn (fun sec => ¬ d.Has sec) s'.disk s.disk ∧ handleOf s' = update (handleOf s) f none := by
  obtain ⟨s₁, hallow, h₁, hdisk₁, hhandles₁⟩ := h.fileAllowWrite hx
  have hx₁ : handleOf s₁ f = some { x with deny := false } := by rw [hhandles₁, update_self]
  obtain ⟨hmap, file, i, hf, hi, hxf, hle, -⟩ := h₁.handle hx₁
  have hdeny : file.denyWrite = false := by
    simp only [Handle.mk.injEq] at hxf
    exact hxf.2.2.symm
  have hsec : i.sector ≠ FREE_MAP_SECTOR := by
    unfold FREE_MAP_SECTOR
    omega
  obtain ⟨s₂, hclose, hclosed⟩ := h₁.run_inodeClose hi hsec
  have hfree := h₁.freeFile hf hdeny hmap
  obtain ⟨owner', hinv, hstill, howner, hdisk⟩ := hfree.closed (q := file.inode) hi hsec
    (by rw [update_self]; omega) (hclosed.setFile f none)
  have hback := hstill.handleOf hfree hinv
  rw [update_add_sub] at hinv
  refine ⟨s₂.setFile f none, owner', ?_, hinv, howner, ?_, ?_⟩
  · rw [Pintos.fileClose, Prog.run_bind_ok hallow, Prog.run_bind_ok (run_derefFile hf), Prog.run_bind_ok hclose]
    exact Prog.run_write rfl
  · rw [← hdisk₁]
    exact hdisk
  · rw [hback, handleOf_freeFile, hhandles₁, update_idem]

end Pintos
