import Pintos.Lib.Independence
import Pintos.Properties.DescriptorReuse

/-!
# Descriptors after a fork

The table of a child is a copy, and from then on parent and child do not see what the other does to its
descriptors. The inodes are shared, but a call depends on their lengths and on whether they deny writes,
which no call on a descriptor changes. Two runs are related by what one process sees of them.

* `readLoop_agrees`, `writeLoop_agrees` — as many bytes are moved, whatever the disk holds
* `Alike` — what one process sees of its descriptors
* `alike_call`, `alike_other` — calls of the process agree, and other calls are not seen
* `fork_separates` — the copy, and every run from there on
-/

namespace Pintos

open Function LittleEndian

/-! ## Inodes that are alike -/

/-- What the number of bytes depends on. -/
structure SameInode (i j : Inode) : Prop where
  data : j.data = i.data
  deny : j.denyWriteCnt = i.denyWriteCnt

theorem SameInode.refl (i : Inode) : SameInode i i := ⟨rfl, rfl⟩

theorem SameInode.trans {i j k : Inode} (h : SameInode i j) (h' : SameInode j k) : SameInode i k :=
  ⟨h'.data.trans h.data, h'.deny.trans h.deny⟩

theorem SameInode.symm {i j : Inode} (h : SameInode i j) : SameInode j i := ⟨h.data.symm, h.deny.symm⟩

section

variable {fs gs fs' : FileSys} {p : InodePtr} {i j : Inode} {f : FilePtr} {file : File}

theorem SameInode.byteToSector (h : SameInode i j) (offset : Nat) : byteToSector j offset = byteToSector i offset := by
  unfold Pintos.byteToSector
  rw [h.data]

theorem SameInode.chunkSize (h : SameInode i j) (size offset : Nat) :
    chunkSize j size offset = chunkSize i size offset := by
  unfold Pintos.chunkSize
  rw [h.data]

/-- A read of the disk that returns as many bytes on both. -/
theorem diskRead_agrees {sector n : Nat} {g : Sector → List Byte} {bytes : List Byte}
    (hcap : gs.capacity = fs.capacity) (hg : ∀ x, (g x).length = n)
    (hr : (diskRead sector fun s x => .ok (g x, s)).run fs = .ok (bytes, fs')) :
    fs' = fs ∧ ∃ bytes', (diskRead sector fun s x => .ok (g x, s)).run gs = .ok (bytes', gs) ∧
      bytes'.length = bytes.length := by
  rw [diskRead, Prog.run_lift] at hr
  split at hr
  · next hsel =>
    cases hr
    have hsel' : gs.Selects sector := by
      rw [FileSys.Selects, hcap]
      exact hsel
    exact ⟨rfl, _, run_diskRead hsel', (hg _).trans (hg _).symm⟩
  · cases hr

theorem readChunk_agrees {sector ofs chunk : Nat} {bytes : List Byte} (hcap : gs.capacity = fs.capacity)
    (hr : (readChunk sector ofs chunk).run fs = .ok (bytes, fs')) :
    fs' = fs ∧ ∃ bytes', (readChunk sector ofs chunk).run gs = .ok (bytes', gs) ∧ bytes'.length = bytes.length := by
  unfold readChunk at hr ⊢
  split at hr
  · next hfull =>
    rw [if_pos hfull]
    exact diskRead_agrees hcap (fun x => length_sectorBytes x 0 DISK_SECTOR_SIZE) hr
  · next hpart =>
    rw [if_neg hpart]
    exact diskRead_agrees hcap (fun x => length_sectorBytes x ofs chunk) hr

/-- As many bytes are read. -/
theorem readLoop_agrees (hi : fs.inodes p = some i) (hj : gs.inodes p = some j) (h : SameInode i j)
    (hcap : gs.capacity = fs.capacity) : ∀ (fuel size offset : Nat) {bytes : List Byte} {fs' : FileSys},
    (inodeReadLoop p fuel size offset).run fs = .ok (bytes, fs') →
      fs' = fs ∧ ∃ bytes', (inodeReadLoop p fuel size offset).run gs = .ok (bytes', gs) ∧
        bytes'.length = bytes.length
  | 0, size, offset, bytes, fs', hr => by
    cases hr
    exact ⟨rfl, [], rfl, rfl⟩
  | fuel + 1, size, offset, bytes, fs', hr => by
    rw [inodeReadLoop] at hr ⊢
    split at hr
    · next hsize =>
      cases hr
      rw [if_pos hsize]
      exact ⟨rfl, [], rfl, rfl⟩
    · next hsize =>
      rw [Prog.run_bind_ok (run_derefInode hi)] at hr
      rw [if_neg hsize, Prog.run_bind_ok (run_derefInode hj)]
      simp only [h.chunkSize, h.byteToSector] at hr ⊢
      split at hr
      · next hchunk =>
        cases hr
        rw [if_pos hchunk]
        exact ⟨rfl, [], rfl, rfl⟩
      · next hchunk =>
        obtain ⟨b₁, fs₁, h₁, hr⟩ := Prog.of_run_bind hr
        obtain ⟨b₂, fs₂, h₂, hr⟩ := Prog.of_run_bind hr
        cases hr
        obtain ⟨he₁, b₁', hg₁, hl₁⟩ := readChunk_agrees hcap h₁
        rw [he₁] at h₂
        obtain ⟨he₂, b₂', hg₂, hl₂⟩ := readLoop_agrees hi hj h hcap fuel _ _ h₂
        refine ⟨he₂, b₁' ++ b₂', ?_, by rw [List.length_append, List.length_append, hl₁, hl₂]⟩
        rw [if_neg hchunk, Prog.run_bind_ok hg₁, Prog.run_bind_ok hg₂]
        rfl

/-- Only the bytes of the disk have changed. -/
def NewBytes (fs fs' : FileSys) : Prop := ∃ disk, fs' = { fs with disk := disk }

theorem NewBytes.trans {fs₁ : FileSys} (h : NewBytes fs fs₁) (h' : NewBytes fs₁ fs') : NewBytes fs fs' := by
  obtain ⟨d, rfl⟩ := h
  obtain ⟨d', rfl⟩ := h'
  exact ⟨d', rfl⟩

theorem diskWrite_agrees {sector : Nat} {b b' : FileSys → Sector} {u : Unit} (hcap : gs.capacity = fs.capacity)
    (hr : (diskWrite sector b).run fs = .ok (u, fs')) :
    NewBytes fs fs' ∧ ∃ gs', (diskWrite sector b').run gs = .ok ((), gs') ∧ NewBytes gs gs' := by
  rw [diskWrite, Prog.run_lift] at hr
  split at hr
  · next hsel =>
    cases hr
    have hsel' : gs.Selects sector := by
      rw [FileSys.Selects, hcap]
      exact hsel
    exact ⟨⟨_, rfl⟩, _, run_diskWrite hsel', _, rfl⟩
  · cases hr

theorem writeChunk_agrees {sector ofs chunk : Nat} {b : FileSys → List Byte} {u : Unit}
    (hcap : gs.capacity = fs.capacity) (hr : (writeChunk sector ofs chunk b).run fs = .ok (u, fs')) :
    NewBytes fs fs' ∧ ∃ gs', (writeChunk sector ofs chunk b).run gs = .ok ((), gs') ∧ NewBytes gs gs' := by
  unfold writeChunk at hr ⊢
  split at hr
  · next hfull =>
    rw [if_pos hfull]
    exact diskWrite_agrees hcap hr
  · next hpart =>
    rw [if_neg hpart]
    split at hr
    · next hbounce =>
      rw [if_pos hbounce]
      obtain ⟨x, fs₁, hread, hr⟩ := Prog.of_run_bind hr
      rw [diskRead, Prog.run_lift] at hread
      split at hread
      · next hsel =>
        cases hread
        have hsel' : gs.Selects sector := by
          rw [FileSys.Selects, hcap]
          exact hsel
        rw [Prog.run_bind, run_diskRead hsel']
        exact diskWrite_agrees hcap hr
      · cases hread
    · next hbounce =>
      rw [if_neg hbounce]
      obtain ⟨x, fs₁, hread, hr⟩ := Prog.of_run_bind hr
      obtain ⟨-, rfl⟩ := Prog.of_run_read hread
      rw [Prog.run_bind_ok (Prog.run_read_ok (fun s => splice (fun _ => 0) ofs (b s)) gs)]
      exact diskWrite_agrees hcap hr

/-- As many bytes are written. -/
theorem writeLoop_agrees {b : FileSys → List Byte} (h : SameInode i j) :
    ∀ (fuel size offset written : Nat) (fs gs : FileSys) {fs' : FileSys} {n : Nat}, fs.inodes p = some i →
      gs.inodes p = some j →
      gs.capacity = fs.capacity → (inodeWriteLoop p b fuel size offset written).run fs = .ok (n, fs') →
      NewBytes fs fs' ∧ ∃ gs', (inodeWriteLoop p b fuel size offset written).run gs = .ok (n, gs') ∧ NewBytes gs gs'
  | 0, size, offset, written, fs, gs, fs', n, hi, hj, hcap, hr => by
    cases hr
    exact ⟨⟨_, rfl⟩, _, rfl, _, rfl⟩
  | fuel + 1, size, offset, written, fs, gs, fs', n, hi, hj, hcap, hr => by
    rw [inodeWriteLoop] at hr ⊢
    split at hr
    · next hsize =>
      cases hr
      rw [if_pos hsize]
      exact ⟨⟨_, rfl⟩, _, rfl, _, rfl⟩
    · next hsize =>
      rw [Prog.run_bind_ok (run_derefInode hi)] at hr
      rw [if_neg hsize, Prog.run_bind_ok (run_derefInode hj)]
      simp only [h.chunkSize, h.byteToSector] at hr ⊢
      split at hr
      · next hchunk =>
        cases hr
        rw [if_pos hchunk]
        exact ⟨⟨_, rfl⟩, _, rfl, _, rfl⟩
      · next hchunk =>
        obtain ⟨u, fs₁, h₁, hr⟩ := Prog.of_run_bind hr
        obtain ⟨hd, gs₁, hg₁, hd'⟩ := writeChunk_agrees hcap h₁
        rw [if_neg hchunk, Prog.run_bind_ok hg₁]
        have hrest : ∃ d d', fs₁ = { fs with disk := d } ∧ gs₁ = { gs with disk := d' } := by
          obtain ⟨d, rfl⟩ := hd
          obtain ⟨d', rfl⟩ := hd'
          exact ⟨d, d', rfl, rfl⟩
        obtain ⟨d, d', rfl, rfl⟩ := hrest
        obtain ⟨hd₂, gs', hg, hd₂'⟩ := writeLoop_agrees h fuel _ _ _ { fs with disk := d } { gs with disk := d' }
          hi hj hcap hr
        exact ⟨hd.trans hd₂, gs', hg, hd'.trans hd₂'⟩

/-! ## Calls on a file -/

/-- A file that is the same in two states, on inodes that are alike. -/
structure SameFile (fs gs : FileSys) (f : FilePtr) (file : File) : Prop where
  left : fs.files f = some file
  right : gs.files f = some file
  inode : ∃ i j, fs.inodes file.inode = some i ∧ gs.inodes file.inode = some j ∧ SameInode i j
  capacity : gs.capacity = fs.capacity

theorem SameFile.symm (h : SameFile fs gs f file) : SameFile gs fs f file := by
  obtain ⟨i, j, hi, hj, hij⟩ := h.inode
  exact ⟨h.right, h.left, ⟨j, i, hj, hi, hij.symm⟩, h.capacity.symm⟩

/-- The file has another position, and the disk other bytes. -/
def Moves (f : FilePtr) (file : File) (pos : Nat) (fs fs' : FileSys) : Prop :=
  ∃ disk, fs' = { fs with disk := disk, files := update fs.files f (some { file with pos := pos }) }

theorem advance_moves {n : Nat} {u : Unit} (disk : Nat → Sector) (hf : fs.files f = some file)
    (hr : (advance f n).run { fs with disk := disk } = .ok (u, fs')) : Moves f file (file.pos + n) fs fs' := by
  have hrun : (advance f n).run { fs with disk := disk } =
      .ok ((), FileSys.setFile { fs with disk := disk } f (some { file with pos := file.pos + n })) :=
    Prog.run_write (by
      dsimp only
      rw [hf])
  rw [hrun] at hr
  cases hr
  exact ⟨disk, rfl⟩

theorem run_advance {n : Nat} (hf : fs.files f = some file) (disk : Nat → Sector) :
    ∃ fs', (advance f n).run { fs with disk := disk } = .ok ((), fs') ∧ Moves f file (file.pos + n) fs fs' := by
  refine ⟨_, Prog.run_write ?_, disk, rfl⟩
  dsimp only
  rw [hf]
  rfl

theorem fileRead_agrees {size : Nat} {bytes : List Byte} (h : SameFile fs gs f file)
    (hr : (fileRead f size).run fs = .ok (bytes, fs')) : ∃ pos bytes' gs',
      (fileRead f size).run gs = .ok (bytes', gs') ∧ bytes'.length = bytes.length ∧
      Moves f file pos fs fs' ∧ Moves f file pos gs gs' := by
  obtain ⟨i, j, hi, hj, hij⟩ := h.inode
  rw [fileRead, Prog.run_bind_ok (run_derefFile h.left)] at hr
  obtain ⟨b, fs₁, hread, hr⟩ := Prog.of_run_bind hr
  obtain ⟨_, fs₂, hadv, hr⟩ := Prog.of_run_bind hr
  cases hr
  obtain ⟨he, b', hread', hlen⟩ := readLoop_agrees hi hj hij h.capacity _ _ _ hread
  have hreads : (inodeReadAt file.inode size file.pos).run gs = .ok (b', gs) := hread'
  rw [he] at hadv
  obtain ⟨gs', hadv', hmoves⟩ := run_advance (n := b'.length) h.right gs.disk
  refine ⟨_, b', gs', ?_, hlen, advance_moves fs.disk h.left hadv, hlen ▸ hmoves⟩
  rw [fileRead, Prog.run_bind_ok (run_derefFile h.right), Prog.run_bind_ok hreads, Prog.run_bind_ok hadv']
  rfl

theorem fileWrite_agrees {buffer : List Byte} {n : Nat} (h : SameFile fs gs f file)
    (hr : (fileWrite f buffer).run fs = .ok (n, fs')) : ∃ pos gs', (fileWrite f buffer).run gs = .ok (n, gs') ∧
      Moves f file pos fs fs' ∧ Moves f file pos gs gs' := by
  obtain ⟨i, j, hi, hj, hij⟩ := h.inode
  rw [fileWrite, Prog.run_bind_ok (run_derefFile h.left)] at hr
  obtain ⟨w, fs₁, hwrite, hr⟩ := Prog.of_run_bind hr
  obtain ⟨_, fs₂, hadv, hr⟩ := Prog.of_run_bind hr
  cases hr
  have hagrees : NewBytes fs fs₁ ∧
      ∃ gs₁, (inodeWriteAt file.inode (fun _ => buffer) buffer.length file.pos).run gs = .ok (n, gs₁) ∧
        NewBytes gs gs₁ := by
    rw [inodeWriteAt, Prog.run_bind_ok (run_derefInode hi)] at hwrite
    rw [inodeWriteAt, Prog.run_bind_ok (run_derefInode hj), hij.deny]
    split at hwrite
    · next hdeny =>
      cases hwrite
      rw [if_pos hdeny]
      exact ⟨⟨_, rfl⟩, _, rfl, _, rfl⟩
    · next hdeny =>
      rw [if_neg hdeny]
      exact writeLoop_agrees hij _ _ _ _ fs gs hi hj h.capacity hwrite
  obtain ⟨⟨d, rfl⟩, gs₁, hwrite', d', rfl⟩ := hagrees
  obtain ⟨gs', hadv', hmoves⟩ := run_advance (n := n) h.right d'
  refine ⟨_, gs', ?_, advance_moves d h.left hadv, hmoves⟩
  rw [fileWrite, Prog.run_bind_ok (run_derefFile h.right), Prog.run_bind_ok hwrite', Prog.run_bind_ok hadv']
  rfl

theorem fileSeek_agrees {pos : Int} {u : Unit} (h : SameFile fs gs f file)
    (hr : (fileSeek f pos).run fs = .ok (u, fs')) : ∃ k gs', (fileSeek f pos).run gs = .ok ((), gs') ∧
      Moves f file k fs fs' ∧ Moves f file k gs gs' := by
  have hpos : 0 ≤ pos := by
    by_contra hneg
    rw [fileSeek, if_pos (by omega), Prog.run_fail] at hr
    cases hr
  rw [run_fileSeek h.left hpos] at hr
  cases hr
  exact ⟨pos.toNat, _, run_fileSeek h.right hpos, ⟨fs.disk, rfl⟩, gs.disk, rfl⟩

theorem run_fileTell (hf : fs.files f = some file) : (fileTell f).run fs = .ok (file.pos, fs) := by
  rw [fileTell, Prog.run_bind_ok (run_derefFile hf)]
  rfl

/-! ## Closing a file -/

/-- The inodes that are left are alike. -/
structure Kept (fs fs' : FileSys) : Prop where
  capacity : fs'.capacity = fs.capacity
  inodes : ∀ p i', fs'.inodes p = some i' → ∃ i, fs.inodes p = some i ∧ SameInode i i'

theorem Kept.refl (fs : FileSys) : Kept fs fs := ⟨rfl, fun _ i hi => ⟨i, hi, .refl i⟩⟩

theorem Moves.kept {pos : Nat} (h : Moves f file pos fs fs') : Kept fs fs' := by
  obtain ⟨d, rfl⟩ := h
  exact ⟨rfl, fun _ i hi => ⟨i, hi, .refl i⟩⟩

theorem closed_kept (hp : fs.inodes p = some i) : Kept fs (closed fs p i) ∧ (closed fs p i).files = fs.files := by
  unfold closed
  split
  · refine ⟨⟨rfl, fun q k hq => ?_⟩, rfl⟩
    by_cases hqp : q = p
    · subst hqp
      cases (update_self _ _ _).symm.trans hq
    · exact ⟨k, (update_of_ne hqp _ _).symm.trans hq, .refl k⟩
  · refine ⟨⟨rfl, fun q k hq => ?_⟩, rfl⟩
    by_cases hqp : q = p
    · subst hqp
      cases (update_self _ _ _).symm.trans hq
      exact ⟨i, hp, rfl, rfl⟩
    · exact ⟨k, (update_of_ne hqp _ _).symm.trans hq, .refl k⟩

theorem fileClose_kept {sector : Nat} (hc : fs.Counted) (hh : fs.handle f = some (sector, false)) :
    ∃ fs', (fileClose (some f)).run fs = .ok ((), fs') ∧ Kept fs fs' ∧ fs'.files = update fs.files f none := by
  obtain ⟨live, hc⟩ := hc
  obtain ⟨file, i, hf, hp, hpair⟩ := file_of_handle hh
  obtain ⟨i', hp', hrun⟩ := hc.run_fileClose_closed hf (Prod.mk.inj hpair).2.symm
  rw [hp] at hp'
  cases hp'
  obtain ⟨hkept, hfiles⟩ := closed_kept hp
  refine ⟨_, hrun, ⟨hkept.capacity, hkept.inodes⟩, ?_⟩
  rw [← hfiles]
  rfl

end

namespace Descriptors

/-! ## What one process sees -/

/-- The calls on a descriptor that is open. -/
def Call.onDescriptor : Call → Bool
  | .seek _ _ | .tell _ | .read _ _ _ | .write _ _ _ _ | .close _ => true
  | _ => false

/-- What a call tells of files: what the keyboard sends is left out. -/
def Call.seen : Call → Option Int → Option Int
  | .read _ fd _, r => if fd = 0 then none else r
  | _, r => r

/-- Process `t` has the same files in both states. -/
structure Alike (t : Tid) (s u : Descs) : Prop where
  left : Ok s
  right : Ok u
  liveLeft : s.live t = true
  liveRight : u.live t = true
  fdt : u.fdt t = s.fdt t
  given : u.given t = s.given t
  capacity : u.fs.capacity = s.fs.capacity
  files : ∀ n f, s.given t n = some f → ∃ file, SameFile s.fs u.fs f file

/-- A step that leaves inodes alike, and process `t` files it had. -/
structure Leaves (t : Tid) (s s' : Descs) : Prop where
  ok : Ok s'
  live : s'.live t = true
  kept : Kept s.fs s'.fs
  given : ∀ n f, s'.given t n = some f → s.given t n = some f
  files : ∀ n f, s'.given t n = some f → ∃ file file', s.fs.files f = some file ∧ s'.fs.files f = some file' ∧
    file'.inode = file.inode

section

variable {s s' u u' : Descs} {t o : Tid} {n : Nat} {f : FilePtr} {fd : Int} {c : Call} {r : Option Int}

/-- The inode of a file is in memory. -/
theorem Ok.inode_ne {file : File} (h : Ok s) (hg : s.given t n = some f) (hf : s.fs.files f = some file) :
    ∃ i, s.fs.inodes file.inode = some i := by
  obtain ⟨-, -, -, sector, hh⟩ := h.opened t n f hg
  obtain ⟨file', i, hf', hp, -⟩ := file_of_handle hh
  rw [hf] at hf'
  cases hf'
  exact ⟨i, hp⟩

/-- Both sides take a step. -/
theorem Alike.step (h : Alike t s u) (hs : Leaves t s s') (hu : Leaves t u u') (hfdt : u'.fdt t = s'.fdt t)
    (hgiven : u'.given t = s'.given t)
    (hfiles : ∀ n f, s'.given t n = some f → u'.fs.files f = s'.fs.files f) : Alike t s' u' := by
  refine ⟨hs.ok, hu.ok, hs.live, hu.live, hfdt, hgiven, ?_, fun n f hg => ?_⟩
  · rw [hu.kept.capacity, hs.kept.capacity, h.capacity]
  · obtain ⟨file, file', hf, hf', hinode⟩ := hs.files n f hg
    obtain ⟨file₀, hl, hr, ⟨i, j, hi, hj, hij⟩, hcap⟩ := h.files n f (hs.given n f hg)
    obtain rfl : file = file₀ := Option.some.inj (hf.symm.trans hl)
    have hg' : u'.given t n = some f := by rw [hgiven, hg]
    have hright : u'.fs.files f = some file' := (hfiles n f hg).trans hf'
    obtain ⟨i', hi'⟩ := hs.ok.inode_ne hg hf'
    obtain ⟨j', hj'⟩ := hu.ok.inode_ne hg' hright
    obtain ⟨i₀, hi₀, hsame⟩ := hs.kept.inodes _ _ hi'
    obtain ⟨j₀, hj₀, hsame'⟩ := hu.kept.inodes _ _ hj'
    rw [hinode] at hi₀ hj₀
    obtain rfl : i = i₀ := Option.some.inj (hi.symm.trans hi₀)
    obtain rfl : j = j₀ := Option.some.inj (hj.symm.trans hj₀)
    refine ⟨file', hf', hright, ⟨i', j', hi', hj', hsame.symm.trans (hij.trans hsame')⟩, ?_⟩
    rw [hu.kept.capacity, hs.kept.capacity, h.capacity]

theorem Leaves.refl (h : Ok s) (ht : s.live t = true) : Leaves t s s := by
  refine ⟨h, ht, .refl _, fun _ _ hg => hg, fun n f hg => ?_⟩
  obtain ⟨file, hf⟩ := Option.ne_none_iff_exists'.mp (h.files_ne hg)
  exact ⟨file, file, hf, hf, rfl⟩

/-- A file is moved. -/
theorem Moves.leaves {file : File} {pos : Nat} {fs' : FileSys} (h : Ok s) (ht : s.live t = true)
    (hf : s.fs.files f = some file) (hm : Moves f file pos s.fs fs') (hok : Ok { s with fs := fs' }) :
    Leaves t s { s with fs := fs' } := by
  refine ⟨hok, ht, hm.kept, fun _ _ hg => hg, fun m g hg => ?_⟩
  obtain ⟨file₀, hg₀⟩ := Option.ne_none_iff_exists'.mp (h.files_ne hg)
  obtain ⟨d, rfl⟩ := hm
  by_cases hgf : g = f
  · subst hgf
    rw [hg₀] at hf
    cases hf
    exact ⟨_, _, hg₀, update_self _ _ _, rfl⟩
  · exact ⟨_, _, hg₀, (update_of_ne hgf _ _).trans hg₀, rfl⟩

/-- What a call of process `o` on a descriptor does in two states. -/
inductive Joint (o : Tid) (s u s' u' : Descs) : Prop
  /-- At most the keyboard is read. -/
  | same {input input' : Nat → Byte} (hs : s' = { s with input := input }) (hu : u' = { u with input := input' })
  | moves {n : Nat} {f : FilePtr} {file : File} {pos : Nat} {fs' gs' : FileSys} (hg : s.given o n = some f)
      (hfile : SameFile s.fs u.fs f file) (hm : Moves f file pos s.fs fs') (hm' : Moves f file pos u.fs gs')
      (hs : s' = { s with fs := fs' }) (hu : u' = { u with fs := gs' })
  | closes {n : Nat} {f : FilePtr} {fs' gs' : FileSys} (hg : s.given o n = some f) (hk : Kept s.fs fs')
      (hk' : Kept u.fs gs') (hf : fs'.files = update s.fs.files f none) (hf' : gs'.files = update u.fs.files f none)
      (hs : s' = (({ s with fs := fs' } : Descs).setEntry o n .null).setGiven o n none)
      (hu : u' = (({ u with fs := gs' } : Descs).setEntry o n .null).setGiven o n none)

/-- What is found depends on the table. -/
theorem find_congr {w : FdWord} (hfdt : u.fdt o = s.fdt o) (hr : (findFileByFd o fd).run s = .ok (w, s)) :
    (findFileByFd o fd).run u = .ok (w, u) := by
  unfold findFileByFd at hr ⊢
  split at hr
  · next hout =>
    rw [if_pos hout]
    cases hr
    rfl
  · next hin =>
    rw [if_neg hin]
    obtain ⟨hload, -⟩ := Prog.of_run_read hr
    refine Prog.run_read ?_
    split at hload
    · next hlt =>
      rw [if_pos hlt, hfdt]
      exact hload
    · cases hload

/-- The loop over the keyboard ends, and only takes from it. -/
theorem readInput_runs : ∀ (k i : Nat) (s : Descs),
    ∃ n input, (readInput k i).run s = .ok (n, { s with input := input })
  | 0, _, _ => ⟨_, _, rfl⟩
  | k + 1, i, s => by
    rw [readInput, Prog.run_bind, Prog.run_lift]
    dsimp only
    split
    · exact ⟨_, _, rfl⟩
    · exact readInput_runs k (i + 1) { s with input := fun n => s.input (n + 1) }

/-- Nothing is done in either state. -/
theorem joint_idle {r r' : Option Int} (hr : (c.prog o).run s = .ok (r', s')) (hs : (c.prog o).run s = .ok (r, s))
    (hu : (c.prog o).run u = .ok (r, u)) :
    ∃ r₁ u', (c.prog o).run u = .ok (r₁, u') ∧ c.seen r₁ = c.seen r' ∧ Joint o s u s' u' := by
  rw [hs] at hr
  cases hr
  exact ⟨r, u, hu, rfl, .same rfl rfl⟩

/-- A call moves the file of a descriptor in both states. -/
theorem joint_moves {α : Type} {p : FsProg α} {out : α → Option Int} (h : Alike o s u)
    (hg : s.given o n = some f) (hs : (c.prog o).run s = (out <$> liftFs p).run s)
    (hu : (c.prog o).run u = (out <$> liftFs p).run u)
    (hagrees : ∀ {file a fs'}, SameFile s.fs u.fs f file → p.run s.fs = .ok (a, fs') → ∃ pos a' gs',
      p.run u.fs = .ok (a', gs') ∧ out a' = out a ∧ Moves f file pos s.fs fs' ∧ Moves f file pos u.fs gs')
    (hr : (c.prog o).run s = .ok (r, s')) :
    ∃ r' u', (c.prog o).run u = .ok (r', u') ∧ c.seen r' = c.seen r ∧ Joint o s u s' u' := by
  obtain ⟨file, hfile⟩ := h.files n f hg
  rw [hs, run_map, run_liftFs] at hr
  rw [hu, run_map, run_liftFs]
  cases hp : p.run s.fs with
  | error e =>
    rw [hp] at hr
    cases hr
  | ok x =>
    obtain ⟨a, fs'⟩ := x
    rw [hp] at hr
    cases hr
    obtain ⟨pos, a', gs', hrun, hout, hm, hm'⟩ := hagrees hfile hp
    rw [hrun]
    exact ⟨out a', _, rfl, congrArg c.seen hout, .moves hg hfile hm hm' rfl rfl⟩

theorem run_seek (h : Ok s) (hg : s.given o fd.toNat = some f)
    (hf : (findFileByFd o fd).run s = .ok (.file f, s)) (position : BitVec 32) :
    ((Call.seek fd position).prog o).run s = ((fun _ => none) <$> liftFs (fileSeek f position.toInt)).run s := by
  rw [Call.prog, run_map, run_map, seek, Prog.run_bind_ok hf, if_neg (show ¬ (FdWord.file f).small = true by rintro ⟨⟩),
    Prog.run_bind_ok (h.run_asFile hg)]

theorem run_tell (h : Ok s) (hg : s.given o fd.toNat = some f)
    (hf : (findFileByFd o fd).run s = .ok (.file f, s)) :
    ((Call.tell fd).prog o).run s = ((fun pos : Nat => some (pos : Int)) <$> liftFs (fileTell f)).run s := by
  rw [Call.prog, run_map, run_map, tell, Prog.run_bind_ok hf, if_neg (show ¬ (FdWord.file f).small = true by rintro ⟨⟩),
    Prog.run_bind_ok (h.run_asFile hg), Prog.run_bind]
  cases (liftFs (fileTell f)).run s with
  | error e => rfl
  | ok x => rfl

/-- `read` from a number other than 0 and 1. -/
theorem read_eq {length : BitVec 32} (h0 : fd ≠ 0) (h1 : fd ≠ 1) :
    read o true fd length = (findFileByFd o fd >>= fun fileobj =>
      if fileobj = .null then pure (-1)
      else do
        let f ← asFile o fd fileobj
        let bytes ← liftFs (fileRead f length.toInt.toNat)
        pure (bytes.length : Int)) := by
  show (if fd = 0 then _ else _ : DescProg Int) = _
  rw [if_neg h0, if_neg h1]

theorem write_eq {length : BitVec 32} {buffer : Nat → Byte} (h0 : fd ≠ 0) (h1 : fd ≠ 1) :
    write o true fd buffer length = (findFileByFd o fd >>= fun fileobj =>
      if fileobj = .null then pure (-1)
      else do
        let f ← asFile o fd fileobj
        let ret ← liftFs (fileWrite f ((List.range length.toInt.toNat).map buffer))
        pure (ret : Int)) := by
  show (if fd = 1 then _ else _ : DescProg Int) = _
  rw [if_neg h1, if_neg h0]

theorem run_read {length : BitVec 32} (h : Ok s) (h2 : 2 ≤ fd) (hg : s.given o fd.toNat = some f)
    (hf : (findFileByFd o fd).run s = .ok (.file f, s)) :
    ((Call.read true fd length).prog o).run s =
      ((fun bytes => some (bytes.length : Int)) <$> liftFs (fileRead f length.toInt.toNat)).run s := by
  rw [Call.prog, run_map, run_map, read_eq (by omega) (by omega), Prog.run_bind_ok hf, if_neg (by rintro ⟨⟩),
    Prog.run_bind_ok (h.run_asFile hg), Prog.run_bind]
  cases (liftFs (fileRead f length.toInt.toNat)).run s with
  | error e => rfl
  | ok x => rfl

theorem run_write {length : BitVec 32} {buffer : Nat → Byte} (h : Ok s) (h2 : 2 ≤ fd)
    (hg : s.given o fd.toNat = some f) (hf : (findFileByFd o fd).run s = .ok (.file f, s)) :
    ((Call.write true fd buffer length).prog o).run s = ((fun n : Nat => some (n : Int)) <$>
      liftFs (fileWrite f ((List.range length.toInt.toNat).map buffer))).run s := by
  rw [Call.prog, run_map, run_map, write_eq (by omega) (by omega), Prog.run_bind_ok hf, if_neg (by rintro ⟨⟩),
    Prog.run_bind_ok (h.run_asFile hg), Prog.run_bind]
  cases (liftFs (fileWrite f ((List.range length.toInt.toNat).map buffer))).run s with
  | error e => rfl
  | ok x => rfl

/-- What is found: an error, a word that is no pointer, or a file. -/
theorem Ok.found_cases (h : Ok s) (ht : s.live o = true) (fd : Int) :
    (findFileByFd o fd).run s = .error .outside ∨
    (∃ w : FdWord, w.small = true ∧ (fd ≠ 0 → fd ≠ 1 → w = .null) ∧ (findFileByFd o fd).run s = .ok (w, s)) ∨
    ∃ f, 2 ≤ fd ∧ fd < FDCOUNT_LIMIT ∧ s.given o fd.toNat = some f ∧ (findFileByFd o fd).run s = .ok (.file f, s) := by
  cases h.found ht fd with
  | limit _ hrun => exact .inl hrun
  | null _ hrun _ => exact .inr (.inl ⟨.null, rfl, fun _ _ => rfl, hrun⟩)
  | stdin hfd hrun => exact .inr (.inl ⟨.stdin, rfl, fun hne => absurd hfd hne, hrun⟩)
  | stdout hfd hrun => exact .inr (.inl ⟨.stdout, rfl, fun _ hne => absurd hfd hne, hrun⟩)
  | file h2 hlt hg hrun => exact .inr (.inr ⟨_, h2, hlt, hg, hrun⟩)

/-- **A call on a descriptor does the same where the process has the same files.** -/
theorem joint_call (h : Alike o s u) (hc : c.onDescriptor = true) (hr : (c.prog o).run s = .ok (r, s')) :
    ∃ r' u', (c.prog o).run u = .ok (r', u') ∧ c.seen r' = c.seen r ∧ Joint o s u s' u' := by
  have hgu : ∀ {n f}, s.given o n = some f → u.given o n = some f := fun hg => by rw [h.given, hg]
  cases c with
  | «open» valid name => cases hc
  | filesize fd => cases hc
  | mmap addr length fd offset found alloc => cases hc
  | seek fd position =>
    rcases h.left.found_cases h.liveLeft fd with hrun | ⟨w, hw, -, hrun⟩ | ⟨f, h2, hlt, hg, hrun⟩
    · rw [Call.prog, run_map, seek, run_bind_error hrun] at hr
      cases hr
    · refine joint_idle (r := none) hr ?_ ?_
      · rw [Call.prog, run_map, seek, Prog.run_bind_ok hrun, if_pos hw]
        rfl
      · rw [Call.prog, run_map, seek, Prog.run_bind_ok (find_congr h.fdt hrun), if_pos hw]
        rfl
    · refine joint_moves h hg (run_seek h.left hg hrun position)
        (run_seek h.right (hgu hg) (find_congr h.fdt hrun) position) (fun hfile ha => ?_) hr
      obtain ⟨k, gs', hrun', hm, hm'⟩ := fileSeek_agrees hfile ha
      exact ⟨k, (), gs', hrun', rfl, hm, hm'⟩
  | tell fd =>
    rcases h.left.found_cases h.liveLeft fd with hrun | ⟨w, hw, -, hrun⟩ | ⟨f, h2, hlt, hg, hrun⟩
    · rw [Call.prog, run_map, tell, run_bind_error hrun] at hr
      cases hr
    · refine joint_idle (r := none) hr ?_ ?_
      · rw [Call.prog, run_map, tell, Prog.run_bind_ok hrun, if_pos hw]
        rfl
      · rw [Call.prog, run_map, tell, Prog.run_bind_ok (find_congr h.fdt hrun), if_pos hw]
        rfl
    · refine joint_moves h hg (run_tell h.left hg hrun) (run_tell h.right (hgu hg) (find_congr h.fdt hrun))
        (fun {file} {a} {fs'} hfile ha => ?_) hr
      rw [run_fileTell hfile.left] at ha
      cases ha
      refine ⟨file.pos, file.pos, u.fs, run_fileTell hfile.right, rfl, ⟨s.fs.disk, ?_⟩, u.fs.disk, ?_⟩
      · rw [update_eq_self_iff.mpr hfile.left.symm]
      · rw [update_eq_self_iff.mpr hfile.right.symm]
  | read valid fd length =>
    cases valid with
    | false => cases hr
    | true =>
      by_cases h0 : fd = 0
      · subst h0
        obtain ⟨n, input, hin⟩ := readInput_runs length.toNat 0 s
        obtain ⟨n', input', hin'⟩ := readInput_runs length.toNat 0 u
        have hread : ∀ {s s' : Descs} {n : Nat}, (readInput length.toNat 0).run s = .ok (n, s') →
            ((Call.read true 0 length).prog o).run s = .ok (some (n : Int), s') := by
          intro s s' n hin
          show (some <$> (readInput length.toNat 0 >>= fun ret => pure (ret : Int))).run s = _
          rw [run_map, Prog.run_bind_ok hin]
          rfl
        rw [hread hin] at hr
        cases hr
        exact ⟨_, _, hread hin', rfl, .same rfl rfl⟩
      · by_cases h1 : fd = 1
        · subst h1
          exact joint_idle (r := some (-1)) hr rfl rfl
        · rcases h.left.found_cases h.liveLeft fd with hrun | ⟨w, -, hw, hrun⟩ | ⟨f, h2, hlt, hg, hrun⟩
          · rw [Call.prog, run_map, read_eq h0 h1, run_bind_error hrun] at hr
            cases hr
          · obtain rfl := hw h0 h1
            refine joint_idle (r := some (-1)) hr ?_ ?_
            · rw [Call.prog, run_map, read_eq h0 h1, Prog.run_bind_ok hrun, if_pos rfl]
              rfl
            · rw [Call.prog, run_map, read_eq h0 h1, Prog.run_bind_ok (find_congr h.fdt hrun), if_pos rfl]
              rfl
          · refine joint_moves h hg (run_read h.left h2 hg hrun)
              (run_read h.right h2 (hgu hg) (find_congr h.fdt hrun)) (fun hfile ha => ?_) hr
            obtain ⟨pos, bytes', gs', hrun', hlen, hm, hm'⟩ := fileRead_agrees hfile ha
            exact ⟨pos, bytes', gs', hrun', congrArg (fun n : Nat => some (n : Int)) hlen, hm, hm'⟩
  | write valid fd buffer length =>
    cases valid with
    | false => cases hr
    | true =>
      by_cases h1 : fd = 1
      · subst h1
        exact joint_idle (r := some length.toInt) hr rfl rfl
      · by_cases h0 : fd = 0
        · subst h0
          exact joint_idle (r := some (-1)) hr rfl rfl
        · rcases h.left.found_cases h.liveLeft fd with hrun | ⟨w, -, hw, hrun⟩ | ⟨f, h2, hlt, hg, hrun⟩
          · rw [Call.prog, run_map, write_eq h0 h1, run_bind_error hrun] at hr
            cases hr
          · obtain rfl := hw h0 h1
            refine joint_idle (r := some (-1)) hr ?_ ?_
            · rw [Call.prog, run_map, write_eq h0 h1, Prog.run_bind_ok hrun, if_pos rfl]
              rfl
            · rw [Call.prog, run_map, write_eq h0 h1, Prog.run_bind_ok (find_congr h.fdt hrun), if_pos rfl]
              rfl
          · refine joint_moves h hg (run_write h.left h2 hg hrun)
              (run_write h.right h2 (hgu hg) (find_congr h.fdt hrun)) (fun hfile ha => ?_) hr
            obtain ⟨pos, gs', hrun', hm, hm'⟩ := fileWrite_agrees hfile ha
            exact ⟨pos, _, gs', hrun', rfl, hm, hm'⟩
  | close fd =>
    by_cases hstd : fd = 0 ∨ fd = 1
    · have hidle : ∀ s : Descs, ((Call.close fd).prog o).run s = .ok (none, s) := by
        intro s
        rw [Call.prog, run_map, close, if_pos hstd]
        rfl
      exact joint_idle hr (hidle s) (hidle u)
    · have hclose : ∀ s : Descs, ((Call.close fd).prog o).run s = ((close o fd).run s).map fun x => (none, x.2) :=
        fun s => by rw [Call.prog, run_map]
      rcases h.left.found_cases h.liveLeft fd with hrun | ⟨w, -, hw, hrun⟩ | ⟨f, h2, hlt, hg, hrun⟩
      · rw [hclose, close, if_neg hstd, run_bind_error hrun] at hr
        cases hr
      · obtain rfl := hw (fun hc => hstd (.inl hc)) (fun hc => hstd (.inr hc))
        refine joint_idle (r := none) hr ?_ ?_
        · rw [hclose, close, if_neg hstd, Prog.run_bind_ok hrun, if_pos rfl]
          rfl
        · rw [hclose, close, if_neg hstd, Prog.run_bind_ok (find_congr h.fdt hrun), if_pos rfl]
          rfl
      · obtain ⟨-, -, -, sector, hh⟩ := h.left.opened o _ f hg
        obtain ⟨-, -, -, sector', hh'⟩ := h.right.opened o _ f (hgu hg)
        obtain ⟨fs', hc, hk, hf⟩ := fileClose_kept h.left.counted hh
        obtain ⟨gs', hc', hk', hf'⟩ := fileClose_kept h.right.counted hh'
        rw [hclose, h.left.run_close hg h2 hlt hrun, hc] at hr
        cases hr
        have hu := h.right.run_close (hgu hg) h2 hlt (find_congr h.fdt hrun)
        rw [hc'] at hu
        refine ⟨none, _, ?_, rfl, .closes hg hk hk' hf hf' rfl rfl⟩
        rw [hclose, hu]
        rfl

/-! ## One call in two states -/

theorem Joint.swap (hj : Joint o s u s' u') (hgiven : u.given o = s.given o) : Joint o u s u' s' := by
  cases hj with
  | same hs hu => exact .same hu hs
  | moves hg hfile hm hm' hs hu => exact .moves (hgiven ▸ hg) hfile.symm hm' hm hu hs
  | closes hg hk hk' hf hf' hs hu => exact .closes (hgiven ▸ hg) hk' hk hf' hf hu hs

/-- The table of another process is as it was, and so are its files. -/
theorem Joint.leaves (hj : Joint o s u s' u') (h : Ok s) (hok : Ok s') (ht : s.live t = true) : Leaves t s s' := by
  cases hj with
  | same hs hu =>
    subst hs
    obtain ⟨-, -, hk, hg, hf⟩ := Leaves.refl h ht
    exact ⟨hok, ht, hk, hg, hf⟩
  | moves hg hfile hm hm' hs hu =>
    subst hs
    exact Moves.leaves h ht hfile.left hm hok
  | @closes n f fs' gs' hg hk hk' hf hf' hs hu =>
    subst hs
    have hgiven : ∀ m g, update s.given o (update (s.given o) n none) t m = some g →
        s.given t m = some g ∧ g ≠ f := by
      intro m g hm
      rw [update_entry] at hm
      split at hm
      · cases hm
      · next hc => exact ⟨hm, fun he => hc (h.own t m o n f (he ▸ hm) hg)⟩
    refine ⟨hok, ht, hk, fun m g hm => (hgiven m g hm).1, fun m g hm => ?_⟩
    obtain ⟨hm, hne⟩ := hgiven m g hm
    obtain ⟨file, hfile⟩ := Option.ne_none_iff_exists'.mp (h.files_ne hm)
    refine ⟨file, file, hfile, ?_, rfl⟩
    show fs'.files g = some file
    rw [hf, update_of_ne hne, hfile]

theorem Ok.call (h : Ok s) (ht : s.live t = true) (hr : (c.prog t).run s = .ok (r, s')) : Ok s' :=
  h.effect ht ((Prog.ends_leave (ends_call h ht c)).1 _ _ (Prog.leave_eq_ok.mpr hr))

/-- The files of the process are the same afterwards. -/
theorem Joint.alike (hj : Joint o s u s' u') (h : Alike o s u) (hs : Ok s') (hu : Ok u') : Alike o s' u' := by
  have hl := hj.leaves h.left hs h.liveLeft
  have hr := (hj.swap h.given).leaves h.right hu h.liveRight
  have hsame : ∀ n f, s.given o n = some f → u.fs.files f = s.fs.files f := by
    intro n f hg
    obtain ⟨file, hfile⟩ := h.files n f hg
    rw [hfile.right, hfile.left]
  cases hj with
  | same hs hu =>
    subst hs hu
    exact h.step hl hr h.fdt h.given hsame
  | @moves n f file pos fs' gs' hg hfile hm hm' hs hu =>
    subst hs hu
    refine h.step hl hr h.fdt h.given fun m g hgm => ?_
    obtain ⟨d, rfl⟩ := hm
    obtain ⟨d', rfl⟩ := hm'
    by_cases hgf : g = f
    · subst hgf
      show update u.fs.files g _ g = update s.fs.files g _ g
      rw [update_self, update_self]
    · exact (update_of_ne hgf _ _).trans ((hsame m g hgm).trans (update_of_ne hgf _ _).symm)
  | @closes n f fs' gs' hg hk hk' hf hf' hs hu =>
    subst hs hu
    have hfdt : update u.fdt o (update (u.fdt o) n .null) o = update s.fdt o (update (s.fdt o) n .null) o := by
      rw [update_self, update_self, h.fdt]
    have hgiven : update u.given o (update (u.given o) n none) o =
        update s.given o (update (s.given o) n none) o := by
      rw [update_self, update_self, h.given]
    refine h.step hl hr hfdt hgiven fun m g hgm => ?_
    show gs'.files g = fs'.files g
    rw [hf, hf']
    by_cases hgf : g = f
    · rw [hgf, update_self, update_self]
    · rw [update_of_ne hgf, update_of_ne hgf, hsame m g (hl.given m g hgm)]

/-- **Calls of the process agree.** -/
theorem alike_call (h : Alike o s u) (hc : c.onDescriptor = true) (hr : (c.prog o).run s = .ok (r, s')) :
    ∃ r' u', (c.prog o).run u = .ok (r', u') ∧ c.seen r' = c.seen r ∧ Alike o s' u' := by
  obtain ⟨r', u', hrun, hseen, hj⟩ := joint_call h hc hr
  exact ⟨r', u', hrun, hseen, hj.alike h (h.left.call h.liveLeft hr) (h.right.call h.liveRight hrun)⟩

theorem Alike.refl (h : Ok s) (ht : s.live t = true) : Alike t s s := by
  refine ⟨h, h, ht, ht, rfl, rfl, rfl, fun n f hg => ?_⟩
  obtain ⟨file, hf⟩ := Option.ne_none_iff_exists'.mp (h.files_ne hg)
  obtain ⟨i, hi⟩ := h.inode_ne hg hf
  exact ⟨file, hf, hf, ⟨i, i, hi, hi, .refl i⟩, rfl⟩

/-- **Calls of another process are not seen.** -/
theorem alike_other (h : Alike t s u) (hne : t ≠ o) (ho : s.live o = true) (hc : c.onDescriptor = true)
    (hr : (c.prog o).run s = .ok (r, s')) : Alike t s' u := by
  obtain ⟨r', s₁, hrun, -, hj⟩ := joint_call (Alike.refl h.left ho) hc hr
  rw [hr] at hrun
  cases hrun
  have hl := hj.leaves h.left (h.left.call ho hr) h.liveLeft
  have hsame : ∀ n f, s.given t n = some f → u.fs.files f = s.fs.files f := by
    intro n f hg
    obtain ⟨file, hfile⟩ := h.files n f hg
    rw [hfile.right, hfile.left]
  have hu := Leaves.refl h.right h.liveRight
  cases hj with
  | same hs hs' =>
    subst hs
    exact h.step hl hu h.fdt h.given hsame
  | @moves n f file pos fs' gs' hg hfile hm hm' hs hs' =>
    subst hs
    refine h.step hl hu h.fdt h.given fun m g hgm => ?_
    have hgf : g ≠ f := fun he => hne (h.left.own t m o n f (he ▸ hgm) hg).1
    obtain ⟨d, rfl⟩ := hm
    exact (hsame m g hgm).trans (update_of_ne hgf _ _).symm
  | @closes n f fs' gs' hg hk hk' hf hf' hs hs' =>
    subst hs
    refine h.step hl hu (h.fdt.trans (update_of_ne hne _ _).symm) (h.given.trans (update_of_ne hne _ _).symm)
      fun m g hgm => ?_
    have hgm' := hl.given m g hgm
    have hgf : g ≠ f := fun he => hne (h.left.own t m o n f (he ▸ hgm') hg).1
    show u.fs.files g = fs'.files g
    rw [hf, update_of_ne hgf, hsame m g hgm']

/-! ## Every run from a fork on -/

/-- A call of a process, and what it tells of files. -/
def callStep (s : Descs) (a : Tid × Call) : Except DescFault (Option Int × Descs) :=
  match (a.2.prog a.1).run s with
  | .error e => .error e
  | .ok (r, s') => .ok (a.2.seen r, s')

theorem callStep_ok {a : Tid × Call} (h : callStep s a = .ok (r, s')) :
    ∃ r', (a.2.prog a.1).run s = .ok (r', s') ∧ r = a.2.seen r' := by
  unfold callStep at h
  split at h
  · cases h
  · next r' s₁ hr =>
    cases h
    exact ⟨r', hr, rfl⟩

theorem live_call (h : Ok s) (ht : s.live t = true) (hr : (c.prog t).run s = .ok (r, s')) : s'.live = s.live := by
  cases (Prog.ends_leave (ends_call h ht c)).1 _ _ (Prog.leave_eq_ok.mpr hr) with
  | same ha => exact ha.live
  | maps ha => exact ha.live
  | opens ha => exact ha.live
  | closes ha => exact ha.live

/-- Calls on descriptors by two processes, of which one is looked at. -/
theorem independent (p q t : Tid) : Machine.Independent callStep
    (fun a => (a.1 = p ∨ a.1 = q) ∧ a.2.onDescriptor = true) (fun a => decide (a.1 = t))
    (fun s u => Alike t s u ∧ s.live p = true ∧ s.live q = true) where
  agrees s u a r s' hc ha hR hs := by
    obtain ⟨h, hp, hq⟩ := hR
    obtain ⟨r', hr, rfl⟩ := callStep_ok hs
    obtain ⟨o, c⟩ := a
    obtain rfl : o = t := of_decide_eq_true ha
    obtain ⟨r₁, u', hu, hseen, h'⟩ := alike_call h hc.2 hr
    have hlive := live_call h.left h.liveLeft hr
    refine ⟨u', ?_, h', hlive ▸ hp, hlive ▸ hq⟩
    show callStep u (o, c) = _
    unfold callStep
    rw [hu]
    exact congrArg (fun x => Except.ok (x, u')) hseen
  unseen s u a r s' hc ha hR hs := by
    obtain ⟨h, hp, hq⟩ := hR
    obtain ⟨r', hr, rfl⟩ := callStep_ok hs
    obtain ⟨o, c⟩ := a
    have hne : t ≠ o := fun he => of_decide_eq_false ha he.symm
    have ho : s.live o = true := by
      rcases hc.1 with rfl | rfl
      · exact hp
      · exact hq
    have hlive := live_call h.left ho hr
    exact ⟨alike_other h hne ho hc.2 hr, hlive ▸ hp, hlive ▸ hq⟩

/-- What a process sees of a descriptor: the inode, the position and whether writes are denied. -/
def view (s : Descs) (t : Tid) (n : Nat) : Option File :=
  match s.fdt t n with
  | .file f => s.fs.files f
  | _ => none

theorem Ok.given_of_fdt (h : Ok s) (ht : s.live t = true) (hf : s.fdt t n = .file f) : s.given t n = some f := by
  have h2 : 2 ≤ n := by
    by_contra hlt
    obtain rfl | rfl : n = 0 ∨ n = 1 := by omega
    · rw [h.stdin t ht] at hf
      cases hf
    · rw [h.stdout t ht] at hf
      cases hf
  rw [h.entry t n ht h2] at hf
  cases hg : s.given t n with
  | none =>
    rw [hg] at hf
    cases hf
  | some g =>
    rw [hg] at hf
    cases hf
    rfl

theorem Alike.view (h : Alike t s u) : view u t = view s t := by
  funext n
  unfold Descriptors.view
  rw [h.fdt]
  cases hf : s.fdt t n with
  | file f =>
    obtain ⟨file, hfile⟩ := h.files n f (h.left.given_of_fdt h.liveLeft hf)
    exact hfile.right.trans hfile.left.symm
  | _ => rfl

/-- The entry of a child after a fork: a file is duplicated, and every other word copied. -/
def Duplicated (s s' : Descs) (parent child : Tid) (n : Nat) : Prop :=
  match s.fdt parent n with
  | .file f => ∃ g file, s'.fdt child n = .file g ∧ g ≠ f ∧ s.fs.files f = some file ∧ s'.fs.files f = some file ∧
      s'.fs.files g = some file
  | w => s'.fdt child n = w

/-- A file is duplicated where there is memory for it. -/
theorem Copied.duplicated {s₀ : Descs} {parent child : Tid} {allocs : Nat → Bool} {n : Nat}
    (hcopied : Copied (s.newThread child) s₀ parent child allocs 0) (hok : Ok s) (hp : s.live parent = true)
    (hpc : parent ≠ child) (hn : n < FDCOUNT_LIMIT) (halloc : ∀ f, s.fdt parent n = .file f → allocs n = true) :
    Duplicated s s₀ parent child n := by
  have hlc : s₀.live child = true := by
    rw [hcopied.live]
    exact update_self _ _ _
  unfold Duplicated
  by_cases h0 : n = 0
  · rw [h0, hok.stdin parent hp]
    exact hcopied.ok.stdin child hlc
  by_cases h1 : n = 1
  · rw [h1, hok.stdout parent hp]
    exact hcopied.ok.stdout child hlc
  have hcopy := hcopied.copies n (Nat.zero_le n) hn
  have hgiven : (s.newThread child).given parent n = s.given parent n := congrFun (update_of_ne hpc _ _) n
  rw [hgiven] at hcopy
  rw [hok.entry parent n hp (by omega)] at halloc ⊢
  rw [hcopied.ok.entry child n hlc (by omega)]
  cases hg : s.given parent n with
  | none =>
    rw [hg] at hcopy
    exact congrArg wordOf hcopy
  | some f =>
    rw [hg] at halloc
    rw [hg, CopyOf, if_pos (halloc f rfl)] at hcopy
    obtain ⟨g, hgc, hnone, hsame, -⟩ := hcopy
    obtain ⟨file, hfile⟩ := Option.ne_none_iff_exists'.mp (hok.files_ne hg)
    refine ⟨g, file, congrArg wordOf hgc, fun he => ?_, hfile, ?_, hsame.trans hfile⟩
    · rw [he] at hnone
      exact hok.files_ne hg hnone
    · exact (hcopied.files f (hok.files_ne hg)).trans hfile

/-- **The table of a child is a copy, and from then on parent and child are independent.** -/
theorem fork_separates {C : Descs → Action → Prop} {fs : FileSys} {input : Nat → Byte} {t₀ parent child : Tid}
    (hfs : fs.Counted) (h : Machine.Reach step C (boot fs input t₀) s) (hp : s.live parent = true)
    (hc : s.live child = false) :
    ∃ s₁, (fork parent child fun _ => true).run s = .ok ((), s₁) ∧ s₁.fdt parent = s.fdt parent ∧
      s₁.fdIndex child = s.fdIndex parent ∧ (∀ n < FDCOUNT_LIMIT, Duplicated s s₁ parent child n) ∧
      ∀ as os s₂, (∀ a ∈ as, (a.1 = parent ∨ a.1 = child) ∧ Call.onDescriptor a.2 = true) →
        Machine.outputs callStep s₁ as = .ok (os, s₂) → ∀ t, t = parent ∨ t = child →
        ∃ u, Machine.outputs callStep s₁ (as.filter fun a => decide (a.1 = t)) =
          .ok (os.filter fun o => decide (o.1.1 = t), u) ∧ view u t = view s₂ t := by
  have hok := ok_of_reach hfs h
  have hpc : parent ≠ child := by
    rintro rfl
    rw [hp] at hc
    cases hc
  have hends : (fork parent child fun _ => true).Ends (fun _ _ => False) _ s := ends_fork hok hp hc
  obtain ⟨_, s₁, hrun, s₀, hcopied, rfl⟩ := Prog.ends_total hends
  have hfdt : s₀.fdt parent = s.fdt parent := (hcopied.others parent hpc).1.trans (update_of_ne hpc _ _)
  have hlive : ∀ u, s₀.live u = update s.live child true u := fun u => congrFun hcopied.live u
  have hlp : s₀.live parent = true := by rw [hlive, update_of_ne hpc, hp]
  have hlc : s₀.live child = true := by rw [hlive, update_self]
  have hok₁ : Ok (s₀.setIndex child (s.fdIndex parent)) := hcopied.ok.setIndex (hok.index parent hp)
  refine ⟨_, hrun, hfdt, update_self _ _ _, fun n hn => ?_, fun as os s₂ has hr t ht => ?_⟩
  · exact hcopied.duplicated hok hp hpc hn fun _ _ => rfl
  · have hlt : s₀.live t = true := by
      rcases ht with rfl | rfl
      · exact hlp
      · exact hlc
    obtain ⟨u, hu, halike, -⟩ := (independent parent child t).run ⟨Alike.refl hok₁ hlt, hlp, hlc⟩ has hr
    exact ⟨u, hu, halike.view⟩

/-- A process with one open file forks. -/
theorem fork_separates_open : ∃ s s₁ f g file, s.fdt 0 2 = .file f ∧
    (fork 0 1 fun _ => true).run s = .ok ((), s₁) ∧ s₁.fdt 1 2 = .file g ∧ g ≠ f ∧
    s₁.fs.files f = some file ∧ s₁.fs.files g = some file := by
  obtain ⟨s, hs⟩ := exists_filled 1 (by decide)
  have hok := ok_of_reach oneName_faithful.counted hs.reach
  obtain ⟨s₁, hrun, -, -, hdup, -⟩ :=
    fork_separates oneName_faithful.counted hs.reach hs.live (hs.alone 1 (by decide))
  have hne : s.fdt 0 2 ≠ .null := fun hnull => by
    have hle := (hs.entries 2 le_rfl).mp hnull
    omega
  have hcopy := hdup 2 (by decide)
  have hentry := hok.entry 0 2 hs.live le_rfl
  cases hg : s.given 0 2 with
  | none =>
    rw [hg] at hentry
    exact absurd hentry hne
  | some f =>
    rw [hg] at hentry
    unfold Duplicated at hcopy
    rw [hentry] at hcopy
    obtain ⟨g, file, hgc, hgf, -, hf, hsame⟩ := hcopy
    exact ⟨s, s₁, f, g, file, hentry, hrun, hgc, hgf, hf, hsame⟩

end

end Descriptors

end Pintos
