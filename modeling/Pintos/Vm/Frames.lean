import Pintos.Filesys.Buffers
import Pintos.Vm.Changes

/-!
# Frames, and the entries that map them

* `Vm.MapsPage`, `Vm.Listed` — the entries that are present, and the frames in `frame_list`
* `FramesOk` — no page of the pool has two frames or two entries, and a frame that is mapped belongs to the page there
* `Settled` — what changes neither
* `FramesOk.evict`, `FramesOk.getFrame`, `FramesOk.claimFrame` — a claim keeps it, if the page that it evicts
  is one of the thread that runs
-/

namespace Pintos

open Function LittleEndian

/-! ## What is mapped -/

/-- The tables map an address to a page of the pool. -/
def Vm.MapsPage (s : Vm) (sp : Space) (va : Vaddr) (kva : Kva) : Prop :=
  ∃ pte, (s.tables sp).lookup va = some pte ∧ pte.present = true ∧ pte.kva = kva

/-- A frame in `frame_list`. -/
def Vm.Listed (s : Vm) (f : FramePtr) (frame : Frame) : Prop := f ∈ s.frameList ∧ s.frames f = some frame

/-- The page of the pool is allocated. -/
def Vm.Used (s : Vm) (kva : Kva) : Prop := s.userPool[kva]? = some true

/-- A page of the thread, with the tables that its address is in. -/
def Vm.Owns (s : Vm) (sp : Space) (va : Vaddr) (q : PagePtr) : Prop :=
  s.At q va ∧ ∃ t, q ∈ s.spt t ∧ sp = space t va

/-- If the page is still there, it is one of the address. -/
def Vm.OwnsLive (s : Vm) (sp : Space) (va : Vaddr) (q : PagePtr) : Prop := s.pages q ≠ none → s.Owns sp va q

structure FramesOk (s : Vm) : Prop where
  pages : ∀ q, s.pages q ≠ none → q < s.brk
  known : ∀ f frame q, s.Listed f frame → frame.page = some q → q < s.brk
  below : ∀ f ∈ s.frameList, f < s.brk
  nodup : s.frameList.Nodup
  used : ∀ f frame, s.Listed f frame → s.Used frame.kva
  distinct : ∀ f f' frame frame', s.Listed f frame → s.Listed f' frame' → frame.kva = frame'.kva → f = f'
  mapped : ∀ sp va kva, s.MapsPage sp va kva → (Aligned va ∧ ∃ t, sp = space t va) ∧ s.Used kva
  single : ∀ sp va sp' va' kva, s.MapsPage sp va kva → s.MapsPage sp' va' kva → sp = sp' ∧ va = va'
  holder : ∀ sp va f frame, s.Listed f frame → s.MapsPage sp va frame.kva → ∃ q, frame.page = some q ∧ s.OwnsLive sp va q

/-- A frame that is in no list, and its page of the pool is nowhere else. -/
structure Detached (s : Vm) (f : FramePtr) (kva : Kva) : Prop where
  out : f ∉ s.frameList
  below : f < s.brk
  there : s.frames f = some { kva := kva, page := none }
  used : s.Used kva
  only : ∀ f' frame, s.Listed f' frame → frame.kva ≠ kva
  unmapped : ∀ sp va, ¬ s.MapsPage sp va kva

/-- What leaves the frames alone, and maps nothing. -/
structure Settled (s s' : Vm) : Prop where
  frames : s'.frames = s.frames
  pool : s'.userPool = s.userPool
  maps : ∀ sp va kva, s'.MapsPage sp va kva → s.MapsPage sp va kva

section

variable {s s' s₁ : Vm} {t : Tid} {q : PagePtr} {f r : FramePtr} {kva : Kva} {va : Vaddr} {sp : Space} {b : Bool}

theorem Vm.mapsPage_congr (h : s'.tables = s.tables) : s'.MapsPage sp va kva ↔ s.MapsPage sp va kva := by
  unfold Vm.MapsPage
  rw [h]

theorem Vm.mapsPage_setPte {va' : Vaddr} {pte : Pte} : (s.setPte t va pte).MapsPage sp va' kva ↔
    (sp = space t va ∧ va' = va ∧ pte.present = true ∧ pte.kva = kva) ∨
      (¬ (sp = space t va ∧ va' = va) ∧ s.MapsPage sp va' kva) := by
  have hlookup : ((s.setPte t va pte).tables sp).lookup va' =
      if sp = space t va ∧ va' = va then some pte else (s.tables sp).lookup va' := by
    show (update s.tables (space t va) ((s.tables (space t va)).insert va pte) sp).lookup va' = _
    by_cases hsp : sp = space t va
    · subst hsp
      rw [update_self]
      by_cases hva : va' = va
      · rw [if_pos ⟨rfl, hva⟩, hva, AList.lookup_insert]
      · rw [if_neg fun h => hva h.2, AList.lookup_insert_ne hva]
    · rw [update_of_ne hsp, if_neg fun h => hsp h.1]
  unfold Vm.MapsPage
  rw [hlookup]
  by_cases hhere : sp = space t va ∧ va' = va
  · rw [if_pos hhere]
    constructor
    · rintro ⟨e, he, hp, hk⟩
      cases he
      exact .inl ⟨hhere.1, hhere.2, hp, hk⟩
    · rintro (⟨-, -, hp, hk⟩ | ⟨hn, -⟩)
      · exact ⟨pte, rfl, hp, hk⟩
      · exact absurd hhere hn
  · rw [if_neg hhere]
    constructor
    · exact fun h => .inr ⟨hhere, h⟩
    · rintro (⟨hsp, hva, -⟩ | ⟨-, h⟩)
      · exact absurd ⟨hsp, hva⟩ hhere
      · exact h

/-- The entry that is cleared is not present any more, and the others are as before. -/
theorem Vm.mapsPage_clearPte {va' : Vaddr} : (s.clearPte t va).MapsPage sp va' kva ↔
    ¬ (sp = space t va ∧ va' = va) ∧ s.MapsPage sp va' kva := by
  have hnone : ∀ {sp va' kva}, (∀ pte, s.pte t va = some pte → pte.present = false) → s.MapsPage sp va' kva →
      ¬ (sp = space t va ∧ va' = va) := by
    rintro sp va' kva hp ⟨pte, hlookup, hpresent, -⟩ ⟨rfl, rfl⟩
    rw [hp pte hlookup] at hpresent
    cases hpresent
  unfold Vm.clearPte
  split
  · next hpte =>
    refine ⟨fun h => ⟨hnone (fun pte hsome => ?_) h, h⟩, And.right⟩
    rw [hpte] at hsome
    cases hsome
  · next pte hpte =>
    split
    · rw [Vm.mapsPage_setPte]
      constructor
      · rintro (⟨-, -, hp, -⟩ | h)
        · cases hp
        · exact h
      · exact .inr
    · next hp =>
      refine ⟨fun h => ⟨hnone (fun pte' hsome => ?_) h, h⟩, And.right⟩
      rw [hpte] at hsome
      cases hsome
      exact Bool.eq_false_iff.mpr hp

/-! ## What the functions on frames do -/

theorem of_pallocGetUser_none (h : pallocGetUser.run s = .ok (none, s')) :
    bitmapScan s.userPool 0 1 false = none ∧ s = s' := by
  rw [pallocGetUser, Prog.run_lift, bitmapScanAndFlip] at h
  cases hscan : bitmapScan s.userPool 0 1 false with
  | none =>
    rw [hscan] at h
    cases h
    exact ⟨rfl, rfl⟩
  | some i =>
    rw [hscan] at h
    cases h

theorem of_pallocGetUser_some (h : pallocGetUser.run s = .ok (some kva, s')) :
    bitmapScan s.userPool 0 1 false = some kva ∧
      s' = { s with userPool := bitmapSetMultiple s.userPool kva 1 true } := by
  rw [pallocGetUser, Prog.run_lift, bitmapScanAndFlip] at h
  cases hscan : bitmapScan s.userPool 0 1 false with
  | none =>
    rw [hscan] at h
    cases h
  | some i =>
    rw [hscan] at h
    cases h
    exact ⟨rfl, rfl⟩

theorem of_vmGetVictim (h : vmGetVictim.run s = .ok (f, s')) : s.frameList.head? = some f ∧ s = s' := by
  obtain ⟨hg, hs⟩ := Prog.of_run_read h
  split at hg
  · cases hg
  · next hl =>
    cases hg
    rw [hl]
    exact ⟨rfl, hs⟩

theorem of_newFrame (h : (newFrame kva).run s = .ok (f, s')) :
    s.brk = f ∧ s' = { s with
      frames := update s.frames f (some { kva := kva, page := none })
      brk := f + 1
      allocs := fun n => s.allocs (n + 1) } := by
  unfold newFrame at h
  obtain ⟨allocated, s₁, h₁, h⟩ := Prog.of_run_bind h
  rw [vmAlloc, Prog.run_lift] at h₁
  cases h₁
  split at h
  · rw [Prog.run_lift] at h
    cases h
    exact ⟨rfl, rfl⟩
  · rw [Prog.run_fail] at h
    cases h

theorem of_addFrame (h : (addFrame f).run s = .ok (r, s')) :
    f = r ∧ ∃ frame, s.frames f = some frame ∧ s' = { s with
      frameList := s.frameList ++ [f]
      frames := update s.frames f (some { frame with page := none }) } := by
  unfold addFrame at h
  obtain ⟨_, s₁, h₁, h⟩ := Prog.of_run_bind h
  have hlist := Prog.of_run_write h₁
  cases hlist
  obtain ⟨_, s₂, h₂, h⟩ := Prog.of_run_bind h
  obtain ⟨frame, hframe, rfl⟩ := of_updateFrame h₂
  cases h
  exact ⟨rfl, frame, hframe, rfl⟩

theorem of_takeVictim {swapped : Bool} (h : (takeVictim f swapped).run s = .ok (r, s')) :
    f = r ∧ ∃ frame q page, s.frames f = some frame ∧ frame.page = some q ∧ s.pages q = some page ∧
      s' = { s with
        frameList := s.frameList.erase f
        pages := update s.pages q (some { page with frame := none })
        frames := update s.frames f (some { frame with page := none }) } := by
  unfold takeVictim at h
  split at h
  · obtain ⟨_, s₁, h₁, h⟩ := Prog.of_run_bind h
    have hlist := Prog.of_run_write h₁
    cases hlist
    obtain ⟨frame, s₂, h₂, h⟩ := Prog.of_run_bind h
    obtain ⟨f', hff', hframe, rfl⟩ := of_derefFrame h₂
    obtain rfl := Option.some.inj hff'
    split at h
    · rw [Prog.run_fail] at h
      cases h
    · next q hq =>
      obtain ⟨_, s₃, h₃, h⟩ := Prog.of_run_bind h
      obtain ⟨page, hpage, rfl⟩ := of_updatePage h₃
      obtain ⟨_, s₄, h₄, h⟩ := Prog.of_run_bind h
      obtain ⟨frame', hframe', rfl⟩ := of_updateFrame h₄
      obtain rfl : frame = frame' := Option.some.inj (hframe.symm.trans hframe')
      cases h
      exact ⟨rfl, frame, q, page, hframe, hq, hpage, rfl⟩
  · rw [Prog.run_fail] at h
    cases h

theorem of_swapOutVictim (h : (swapOutVictim t f).run s = .ok (b, s')) :
    ∃ frame q, s.frames f = some frame ∧ frame.page = some q ∧ (swapOut t q).run s = .ok (b, s') := by
  obtain ⟨frame, s₁, h₁, h⟩ := Prog.of_run_bind h
  obtain ⟨f', hff', hframe, rfl⟩ := of_derefFrame h₁
  obtain rfl := Option.some.inj hff'
  split at h
  · rw [Prog.run_fail] at h
    cases h
  · next q hq => exact ⟨frame, q, hframe, hq, h⟩

/-! ## What leaves the frames alone -/

theorem Settled.refl (s : Vm) : Settled s s := ⟨rfl, rfl, fun _ _ _ h => h⟩

theorem Settled.trans (s s₁ s' : Vm) (h : Settled s s₁) (h' : Settled s₁ s') : Settled s s' :=
  ⟨h'.frames.trans h.frames, h'.pool.trans h.pool, fun sp va kva hm => h.maps sp va kva (h'.maps sp va kva hm)⟩

theorem Settled.same (hf : s'.frames = s.frames) (hp : s'.userPool = s.userPool) (ht : s'.tables = s.tables) :
    Settled s s' := ⟨hf, hp, fun _ _ _ h => (Vm.mapsPage_congr ht).mp h⟩

theorem Settled.clearPte (s : Vm) (t : Tid) (va : Vaddr) : Settled s (s.clearPte t va) := by
  refine ⟨?_, ?_, fun _ _ _ h => (Vm.mapsPage_clearPte.mp h).2⟩
  · rw [Vm.clearPte_eq]
  · rw [Vm.clearPte_eq]

theorem settled_derefFrame {fp : Option FramePtr} : (derefFrame fp).Does Settled Any := by
  cases fp with
  | none => exact .fail trivial
  | some f => exact .read .refl fun _ _ _ => trivial

theorem settled_updatePage {g : Page → Page} : (updatePage q g).Does Settled Any := by
  refine .write (fun s s' h => ?_) fun _ _ _ => trivial
  split at h
  · cases h
  · cases h
    exact .same rfl rfl rfl

theorem settled_liftFs {α : Type} {p : FsProg α} {R : FileSys → FileSys → Prop} {E : FsFault → Prop} (hp : p.Does R E) :
    (liftFs p).Does Settled Any :=
  hp.zoom (fun _ _ _ => .same rfl rfl rfl) fun _ _ => trivial

theorem settled_pml4SetDirty {dirty : Bool} : (pml4SetDirty t va dirty).Does Settled Any := by
  refine .write (fun s s' h => ?_) fun _ _ _ => trivial
  split at h
  · cases h
    exact .refl _
  · next pte hpte =>
    cases h
    refine ⟨rfl, rfl, fun sp va' kva hm => ?_⟩
    rcases Vm.mapsPage_setPte.mp hm with ⟨rfl, rfl, hp, hk⟩ | ⟨-, hm⟩
    · exact ⟨pte, hpte, hp, hk⟩
    · exact hm

theorem settled_writeDirty {page : Page} : (writeDirty t page va).Does Settled Any := by
  unfold writeDirty
  split
  · exact .pure _
  · refine .bind (.read .refl fun _ _ _ => trivial) fun dirty => ?_
    split
    · refine settled_derefFrame.bind fun frame => ?_
      unfold writeBack
      split
      · exact .fail trivial
      · exact .bind (.read .refl fun _ _ _ => trivial) fun _ => (settled_liftFs does_fileWriteAt).bind fun _ => .pure _
    · exact .pure _

/-- A page that is swapped out is not mapped any more by the thread that runs. -/
theorem of_swapOut (h : (swapOut t q).run s = .ok (b, s')) :
    Settled s s' ∧ ∀ va kva, s.At q va → Aligned va → ¬ s'.MapsPage (space t va) va kva := by
  obtain ⟨page, s₁, h₁, h⟩ := Prog.of_run_bind h
  obtain ⟨hpage, rfl⟩ := of_derefPage h₁
  have hgone : ∀ {s₁ : Vm}, Settled s s₁ → s'.tables = (s₁.clearPte t (pgRoundDown page.va)).tables →
      ∀ va kva, s.At q va → Aligned va → ¬ s'.MapsPage (space t va) va kva := by
    rintro s₁ - ht va kva ⟨page', hpage', rfl⟩ hal hm
    obtain rfl : page = page' := Option.some.inj (hpage.symm.trans hpage')
    rw [pgRoundDown_of_aligned hal] at ht
    exact (Vm.mapsPage_clearPte.mp ((Vm.mapsPage_congr ht).mp hm)).1 ⟨rfl, rfl⟩
  split at h
  · rw [Prog.run_fail] at h
    cases h
  · obtain ⟨page', f, frame, i, disk, hpage', -, -, -, -, -, -, rfl⟩ := of_anonSwapOut h
    obtain rfl : page = page' := Option.some.inj (hpage.symm.trans hpage')
    exact ⟨⟨rfl, rfl, fun _ _ _ hm => (Vm.mapsPage_clearPte.mp ((Vm.mapsPage_congr rfl).mp hm)).2⟩, hgone (.refl s) rfl⟩
  · obtain ⟨page', s₁, h₁, h⟩ := Prog.of_run_bind h
    obtain ⟨hpage', rfl⟩ := of_derefPage h₁
    obtain rfl : page = page' := Option.some.inj (hpage.symm.trans hpage')
    obtain ⟨_, s₁, h₁, h⟩ := Prog.of_run_bind h
    have hs₁ : Settled s s₁ := settled_writeDirty.run .refl .trans h₁
    obtain ⟨_, s₂, h₂, h⟩ := Prog.of_run_bind h
    have hs₂ : Settled s s₂ := .trans _ _ _ hs₁ (settled_pml4SetDirty.run .refl .trans h₂)
    obtain ⟨_, s₃, h₃, h⟩ := Prog.of_run_bind h
    obtain ⟨-, -, rfl⟩ := of_pml4ClearPage h₃
    cases h
    exact ⟨.trans _ _ _ hs₂ (.clearPte _ _ _), hgone hs₂ rfl⟩

/-! ## Lazy loading -/

/-- The file has fewer bytes than are loaded. -/
def Vm.Short (s : Vm) (aux : Option FileInfo) : Prop :=
  ∃ info f file inode, aux = some info ∧ info.file = some f ∧ s.fs.files f = some file ∧
    s.fs.inodes file.inode = some inode ∧ 0 < info.pageReadBytes ∧ inode.data.length < info.ofs + info.pageReadBytes

/-- A page for which the file has fewer bytes than are loaded. -/
def Vm.ShortPage (s : Vm) (q : PagePtr) : Prop := ∃ page, s.pages q = some page ∧ s.Short page.aux

/-- A read that returns fewer bytes than it was asked for. -/
theorem short_of_fileRead {info : FileInfo} {file : File} {fs : FileSys} {bytes : List Byte}
    (hfile : info.file = some f) (hofs : 0 ≤ info.ofs) (hf : s.fs.files f = some file)
    (h : (fileRead f info.pageReadBytes).run (s.fs.setFile f (some { file with pos := info.ofs.toNat })) =
      .ok (bytes, fs)) (hshort : bytes.length ≠ info.pageReadBytes) : s.Short (some info) := by
  have hf' : (s.fs.setFile f (some { file with pos := info.ofs.toNat })).files f =
      some { file with pos := info.ofs.toNat } := update_self _ _ _
  obtain ⟨file', fs₁, h₁, h⟩ := Prog.of_run_bind h
  obtain ⟨hfile', rfl⟩ := Prog.of_run_read h₁
  rw [hf'] at hfile'
  cases hfile'
  obtain ⟨bytes', fs₁, h₁, h⟩ := Prog.of_run_bind h
  obtain ⟨_, fs₂, -, h⟩ := Prog.of_run_bind h
  cases h
  have hpos : 0 < info.pageReadBytes := by
    by_contra hzero
    have hzero : info.pageReadBytes = 0 := by omega
    rw [hzero] at h₁ hshort
    cases h₁
    exact hshort rfl
  cases hi : s.fs.inodes file.inode with
  | none =>
    -- the first round of the loop fails
    obtain ⟨n, hn⟩ := Nat.exists_eq_succ_of_ne_zero hpos.ne'
    rw [hn, inodeReadAt, inodeReadLoop, if_neg (Nat.succ_ne_zero n)] at h₁
    obtain ⟨inode, fs₂, h₂, -⟩ := Prog.of_run_bind h₁
    obtain ⟨hinode, -⟩ := Prog.of_run_read h₂
    have hnone : (s.fs.setFile f (some { file with pos := info.ofs.toNat })).inodes file.inode = none := hi
    rw [hnone] at hinode
    cases hinode
  | some inode =>
    refine ⟨info, f, file, inode, rfl, hfile, hf, hi, hpos, ?_⟩
    by_contra hlen
    have hi' : (s.fs.setFile f (some { file with pos := info.ofs.toNat })).inodes file.inode = some inode := hi
    exact hshort (length_inodeReadLoop hi' le_rfl (by dsimp only; omega) h₁)

/-- What `file_seek` did. -/
theorem of_lazySeek {info : FileInfo} (h : (lazySeek info).run s = .ok (f, s')) :
    info.file = some f ∧ 0 ≤ info.ofs ∧ ∃ file, s.fs.files f = some file ∧
      s' = { s with fs := s.fs.setFile f (some { file with pos := info.ofs.toNat }) } := by
  unfold lazySeek at h
  split at h
  · rw [Prog.run_fail] at h
    cases h
  · next g hg =>
    obtain ⟨_, s₁, h₁, h⟩ := Prog.of_run_bind h
    cases h
    obtain ⟨fs, hseek, rfl⟩ := of_liftFs h₁
    unfold fileSeek at hseek
    split at hseek
    · rw [Prog.run_fail] at hseek
      cases hseek
    · next hofs =>
      have hset := Prog.of_run_write hseek
      split at hset
      · cases hset
      · next file hfile =>
        cases hset
        exact ⟨hg, by omega, file, hfile, rfl⟩

/-- A page that comes short is given back to the pool, though it stays mapped. -/
theorem of_lazyLoadSegment {aux : Option FileInfo} (h : (lazyLoadSegment q aux).run s = .ok (b, s')) :
    (b = true ∧ Settled s s') ∨ (b = false ∧ s.Short aux) := by
  obtain ⟨page, s₁, h₁, h⟩ := Prog.of_run_bind h
  obtain ⟨-, rfl⟩ := of_derefPage h₁
  obtain ⟨frame, s₂, h₂, h⟩ := Prog.of_run_bind h
  obtain ⟨fr, -, -, rfl⟩ := of_derefFrame h₂
  cases aux with
  | none =>
    rw [Prog.run_fail] at h
    cases h
  | some info =>
    obtain ⟨f, s₁, h₁, h⟩ := Prog.of_run_bind h
    obtain ⟨hfile, hofs, file, hf, hs₁⟩ := of_lazySeek h₁
    have hseek : Settled s s₁ := by
      rw [hs₁]
      exact .same rfl rfl rfl
    obtain ⟨bytes, s₂, h₂, h⟩ := Prog.of_run_bind h
    have hread : Settled s s₂ := .trans _ _ _ hseek ((settled_liftFs does_fileRead).run .refl .trans h₂)
    obtain ⟨_, s₃, h₃, h⟩ := Prog.of_run_bind h
    cases Prog.of_run_write h₃
    split at h
    · next hshort =>
      obtain ⟨_, s₄, h₄, h⟩ := Prog.of_run_bind h
      cases h
      obtain ⟨fs', hrun, -⟩ := of_liftFs h₂
      rw [hs₁] at hrun
      exact .inr ⟨rfl, short_of_fileRead hfile hofs hf hrun hshort⟩
    · obtain ⟨_, s₄, h₄, h⟩ := Prog.of_run_bind h
      cases Prog.of_run_write h₄
      cases h
      exact .inl ⟨rfl, .trans _ _ _ hread (.same rfl rfl rfl)⟩

/-- Reading, writing and seeking make no file shorter. -/
theorem Accessing.short {N : Vaddr → Prop} {aux : Option FileInfo} (h : Accessing N s s') (hs : s'.Short aux) : s.Short aux := by
  obtain ⟨info, f, file, inode, haux, hfile, hf, hi, hpos, hlen⟩ := hs
  have hfs : s'.fs.handles = s.fs.handles := congrArg Vm.fs h.still
  have hfiles : s'.fs.handles.files f = s.fs.handles.files f := by rw [hfs]
  have hinodes : s'.fs.handles.inodes = s.fs.handles.inodes := by rw [hfs]
  have hfiles : (s'.fs.files f).map (fun file => ({ file with pos := 0 } : File)) =
      (s.fs.files f).map fun file => { file with pos := 0 } := hfiles
  have hinodes : s'.fs.inodes = s.fs.inodes := hinodes
  rw [hf, Option.map_some, eq_comm, Option.map_eq_some_iff] at hfiles
  obtain ⟨file', hf', he⟩ := hfiles
  have hinode : file'.inode = file.inode := (File.mk.inj he).1
  exact ⟨info, f, file', inode, haux, hfile, hf', by rw [hinode, ← hinodes, hi], hpos, hlen⟩

theorem settled_pageInitializer {type : VmType} : (pageInitializer q type).Does Settled Any := by
  cases type with
  | uninit => exact .fail trivial
  | anon => exact settled_updatePage.bind fun _ => .pure _
  | file => exact settled_updatePage.bind fun _ => .read .refl fun _ _ _ => trivial

/-- A page that does not come short. -/
theorem of_swapIn (h : (swapIn t q).run s = .ok (b, s')) (hfull : ¬ s.ShortPage q) : Settled s s' := by
  obtain ⟨page, s₁, h₁, h⟩ := Prog.of_run_bind h
  obtain ⟨hpage, rfl⟩ := of_derefPage h₁
  split at h
  · obtain ⟨page', s₁, h₁, h⟩ := Prog.of_run_bind h
    obtain ⟨hpage', rfl⟩ := of_derefPage h₁
    obtain rfl : page = page' := Option.some.inj (hpage.symm.trans hpage')
    obtain ⟨initialized, s₁, h₁, h⟩ := Prog.of_run_bind h
    have hs₁ : Settled s s₁ := settled_pageInitializer.run .refl .trans h₁
    have hm : Moving Any s s₁ := does_pageInitializer.run .refl .trans h₁
    split at h
    · split at h
      · rcases of_lazyLoadSegment h with ⟨-, hs'⟩ | ⟨-, hshort⟩
        · exact .trans _ _ _ hs₁ hs'
        · exact absurd ⟨page, hpage, hm.toAccessing.short hshort⟩ hfull
      · cases h
        exact hs₁
    · cases h
      exact hs₁
  · obtain ⟨page', f, frame, mem, hpage', -, -, -, -, -, -, rfl⟩ := of_anonSwapIn h
    exact .same rfl rfl rfl
  · obtain ⟨page', s₁, h₁, h⟩ := Prog.of_run_bind h
    obtain ⟨hpage', rfl⟩ := of_derefPage h₁
    obtain rfl : page = page' := Option.some.inj (hpage.symm.trans hpage')
    obtain ⟨loaded, s₁, h₁, h⟩ := Prog.of_run_bind h
    cases h
    rcases of_lazyLoadSegment h₁ with ⟨-, hs'⟩ | ⟨-, hshort⟩
    · exact hs'
    · exact absurd ⟨page, hpage, hshort⟩ hfull

/-! ## Claims -/

/-- The page at the front of `frame_list` is in no tables but those of the thread. -/
def Vm.EvictsOwn (s : Vm) (t : Tid) : Prop :=
  ∀ f frame q sp va, s.frameList.head? = some f → s.frames f = some frame → frame.page = some q → s.Owns sp va q →
    sp = space t va

/-- A frame of no page, that is not mapped. -/
def Vm.FreshFrame (s : Vm) (f : FramePtr) (kva : Kva) : Prop :=
  s.Listed f { kva := kva, page := none } ∧ ∀ sp va, ¬ s.MapsPage sp va kva

theorem Accessing.at_iff {N : Vaddr → Prop} (h : Accessing N s s') : s'.At q va ↔ s.At q va := by
  refine ⟨h.at, ?_⟩
  rintro ⟨page, hpage, rfl⟩
  have hp := h.pages q
  rw [hpage, Option.map_some, Option.map_eq_some_iff] at hp
  obtain ⟨page', hpage', hstill⟩ := hp
  have hva : page'.still.va = page.still.va := by rw [hstill]
  exact ⟨page', hpage', hva⟩

theorem Accessing.pages_eq_none {N : Vaddr → Prop} (h : Accessing N s s') : s'.pages q = none ↔ s.pages q = none := by
  rw [← Option.map_eq_none_iff (f := Page.still), h.pages q, Option.map_eq_none_iff]

theorem Accessing.ownsLive {N : Vaddr → Prop} (h : Accessing N s s') (hq : s.OwnsLive sp va q) : s'.OwnsLive sp va q := by
  intro hne
  obtain ⟨hat, howner⟩ := hq (mt h.pages_eq_none.mpr hne)
  exact ⟨h.at_iff.mpr hat, by rwa [h.spt]⟩

theorem Accessing.shortPage {N : Vaddr → Prop} (h : Accessing N s s') (hs : s'.ShortPage q) : s.ShortPage q := by
  obtain ⟨page, hpage, hshort⟩ := hs
  obtain ⟨old, hold, hstill⟩ := h.page hpage
  have haux : page.still.aux = old.still.aux := by rw [hstill]
  have haux : page.aux = old.aux := haux
  exact ⟨old, hold, h.short (haux ▸ hshort)⟩

/-- Frames leave the list, entries are cleared, and pages of the pool are taken. -/
theorem FramesOk.mono (h : FramesOk s) (hlist : s'.frameList.Sublist s.frameList) (hbrk : s.brk ≤ s'.brk)
    (hlisted : ∀ f frame, s'.Listed f frame → s.Listed f frame) (hused : ∀ kva, s.Used kva → s'.Used kva)
    (hmaps : ∀ sp va kva, s'.MapsPage sp va kva → s.MapsPage sp va kva)
    (hpages : ∀ q, s.pages q = none → s'.pages q = none)
    (hholds : ∀ sp va q, s.OwnsLive sp va q → s'.OwnsLive sp va q) : FramesOk s' where
  pages := fun q hq => (h.pages q (mt (hpages q) hq)).trans_le hbrk
  known := fun f frame q hf hq => (h.known f frame q (hlisted f frame hf) hq).trans_le hbrk
  below := fun f hf => (h.below f (hlist.subset hf)).trans_le hbrk
  nodup := h.nodup.sublist hlist
  used := fun f frame hf => hused _ (h.used f frame (hlisted f frame hf))
  distinct := fun f f' frame frame' hf hf' => h.distinct f f' frame frame' (hlisted _ _ hf) (hlisted _ _ hf')
  mapped := fun sp va kva hm => (h.mapped sp va kva (hmaps _ _ _ hm)).imp_right (hused kva)
  single := fun sp va sp' va' kva hm hm' => h.single sp va sp' va' kva (hmaps _ _ _ hm) (hmaps _ _ _ hm')
  holder := fun sp va f frame hf hm => by
    obtain ⟨q, hq, ho⟩ := h.holder sp va f frame (hlisted _ _ hf) (hmaps _ _ _ hm)
    exact ⟨q, hq, hholds sp va q ho⟩

theorem FramesOk.settled (h : FramesOk s) (hm : Moving Any s s') (hs : Settled s s') : FramesOk s' := by
  refine h.mono (by rw [hm.frameList]) hm.brk_eq.ge (fun f frame hf => ?_) (fun kva hu => ?_) hs.maps
    (fun q hq => hm.toAccessing.pages_eq_none.mpr hq) fun sp va q ho => hm.toAccessing.ownsLive ho
  · unfold Vm.Listed at hf
    rwa [hm.frameList, hs.frames] at hf
  · unfold Vm.Used at hu ⊢
    rwa [hs.pool]

/-- What a page refers to as its frame does not matter. -/
theorem Vm.OwnsLive.setFrame {page page' : Page} {q' : PagePtr} (h : s.OwnsLive sp va q') (hq : s.pages q = some page)
    (hp : s'.pages = update s.pages q (some page')) (hva : page'.va = page.va) (hspt : s'.spt = s.spt) :
    s'.OwnsLive sp va q' := by
  intro hne
  by_cases hqq : q' = q
  · subst hqq
    obtain ⟨⟨old, hold, rfl⟩, t, ht, hsp⟩ := h (by rw [hq]; nofun)
    obtain rfl : page = old := Option.some.inj (hq.symm.trans hold)
    exact ⟨⟨page', by rw [hp, update_self], hva⟩, t, by rwa [hspt], hsp⟩
  · have hsame : s'.pages q' = s.pages q' := by rw [hp, update_of_ne hqq]
    rw [hsame] at hne
    obtain ⟨⟨old, hold, hold'⟩, t, ht, hsp⟩ := h hne
    exact ⟨⟨old, hsame.trans hold, hold'⟩, t, by rwa [hspt], hsp⟩

/-- After an eviction nothing maps the frame. -/
theorem FramesOk.vmEvictFrame (h : FramesOk s) (hown : s.EvictsOwn t) (hrun : (vmEvictFrame t).run s = .ok (f, s')) :
    FramesOk s' ∧ ∃ frame, s.Listed f frame ∧ Detached s' f frame.kva := by
  obtain ⟨victim, s₁, h₁, hrun⟩ := Prog.of_run_bind hrun
  obtain ⟨hhead, rfl⟩ := of_vmGetVictim h₁
  obtain ⟨swapped, s₁, h₁, hrun⟩ := Prog.of_run_bind hrun
  have hm : Moving Any s s₁ := does_swapOutVictim.run .refl .trans h₁
  obtain ⟨frame, q, hframe, hq, hout⟩ := of_swapOutVictim h₁
  obtain ⟨hs, hgone⟩ := of_swapOut hout
  obtain ⟨rfl, frame', q', page, hframe', hq', hpage, rfl⟩ := of_takeVictim hrun
  rw [hs.frames, hframe] at hframe'
  obtain rfl := Option.some.inj hframe'
  rw [hq] at hq'
  obtain rfl := Option.some.inj hq'
  have h₁ := h.settled hm hs
  have hmem : victim ∈ s.frameList := List.mem_of_mem_head? hhead
  have hlisted : s.Listed victim frame := ⟨hmem, hframe⟩
  -- the only entry that may map the frame is the one that was cleared
  have hunmapped : ∀ sp va, ¬ s₁.MapsPage sp va frame.kva := by
    intro sp va hmap
    have hold := hs.maps _ _ _ hmap
    obtain ⟨q', hq', hholds⟩ := h.holder sp va victim frame hlisted hold
    rw [hq] at hq'
    obtain rfl := Option.some.inj hq'
    have howns := hholds (mt hm.toAccessing.pages_eq_none.mpr (by rw [hpage]; nofun))
    have hsp := hown victim frame q sp va hhead hframe hq howns
    rw [hsp] at hmap
    exact hgone va _ howns.1 (h.mapped _ _ _ hold).1.1 hmap
  have hlisted₁ : s₁.Listed victim frame := ⟨by rwa [hm.frameList], by rw [hs.frames, hframe]⟩
  set s' : Vm := { s₁ with
    frameList := s₁.frameList.erase victim
    pages := update s₁.pages q (some { page with frame := none })
    frames := update s₁.frames victim (some { frame with page := none }) } with hs'
  have hlisted' : ∀ f fr, s'.Listed f fr → f ≠ victim ∧ s₁.Listed f fr := by
    rintro f fr ⟨hf, hfr⟩
    have hne : f ≠ victim := (h₁.nodup.mem_erase_iff.mp hf).1
    refine ⟨hne, List.mem_of_mem_erase hf, ?_⟩
    have hfr : update s₁.frames victim (some { frame with page := none }) f = some fr := hfr
    rwa [update_of_ne hne] at hfr
  have hpages : ∀ q', s₁.pages q' = none → s'.pages q' = none := by
    intro q' hnone
    have hne : q' ≠ q := by
      rintro rfl
      rw [hpage] at hnone
      cases hnone
    show update s₁.pages q (some { page with frame := none }) q' = none
    rw [update_of_ne hne, hnone]
  refine ⟨h₁.mono (List.erase_sublist ..) le_rfl (fun f fr hf => (hlisted' f fr hf).2) (fun _ hu => hu)
    (fun _ _ _ hm => hm) hpages fun sp va q' ho => ho.setFrame hpage rfl rfl rfl, frame, hlisted, ?_⟩
  exact {
    out := fun hmem => (h₁.nodup.mem_erase_iff.mp hmem).1 rfl
    below := h₁.below victim hlisted₁.1
    there := update_self _ _ _
    used := h₁.used victim frame hlisted₁
    only := fun f' fr hf' he => (hlisted' f' fr hf').1 (h₁.distinct f' victim fr frame (hlisted' f' fr hf').2 hlisted₁ he)
    unmapped := hunmapped }

/-- A page of the pool that is free. -/
theorem FramesOk.newFrame (h : FramesOk s) (hscan : bitmapScan s.userPool 0 1 false = some kva)
    (hrun : (newFrame kva).run { s with userPool := bitmapSetMultiple s.userPool kva 1 true } = .ok (f, s')) :
    FramesOk s' ∧ Detached s' f kva := by
  obtain ⟨-, hle, hfree⟩ := bitmapScan_some hscan
  have hbit : s.userPool[kva]? = some false := hfree kva le_rfl (by omega)
  obtain ⟨hf, rfl⟩ := of_newFrame hrun
  have hnot : ¬ s.Used kva := by
    unfold Vm.Used
    rw [hbit]
    nofun
  have hused : ∀ k, s.Used k ∨ k = kva → (bitmapSetMultiple s.userPool kva 1 true)[k]? = some true := by
    intro k hk
    rw [getElem?_bitmapSetMultiple]
    split
    · rfl
    · rcases hk with hk | rfl
      · exact hk
      · omega
  have hnew : ∀ g ∈ s.frameList, g ≠ f := fun g hg => by
    rw [← hf]
    exact (h.below g hg).ne
  have hframe : ∀ {g frame}, g ∈ s.frameList →
      update s.frames f (some { kva := kva, page := none }) g = some frame → s.Listed g frame := by
    intro g frame hg hframe
    rw [update_of_ne (hnew g hg)] at hframe
    exact ⟨hg, hframe⟩
  refine ⟨h.mono (List.Sublist.refl _) (hf ▸ Nat.le_succ _) (fun g frame hg => hframe hg.1 hg.2)
    (fun k hk => hused k (.inl hk)) (fun _ _ _ hm => hm) (fun _ hq => hq) fun _ _ _ ho => ho, ?_⟩
  exact {
    out := fun hmem => hnew f hmem rfl
    below := Nat.lt_succ_self f
    there := update_self _ _ _
    used := hused kva (.inr rfl)
    only := fun g frame hg he => hnot (he ▸ h.used g frame (hframe hg.1 hg.2))
    unmapped := fun sp va hm => hnot (h.mapped sp va kva hm).2 }

/-- A frame that was detached goes to the list. -/
theorem FramesOk.addFrame (h : FramesOk s) (hf : Detached s f kva) (hrun : (addFrame f).run s = .ok (r, s')) :
    f = r ∧ FramesOk s' ∧ s'.FreshFrame f kva := by
  obtain ⟨rfl, frame, hframe, rfl⟩ := of_addFrame hrun
  obtain rfl : { kva := kva, page := none } = frame := Option.some.inj (hf.there.symm.trans hframe)
  have hsame : update s.frames f (some { kva := kva, page := none }) = s.frames := by
    rw [← hframe, update_eq_self]
  rw [hsame]
  set s' : Vm := { s with frameList := s.frameList ++ [f] } with hs'
  have hlisted : ∀ {g frame}, s'.Listed g frame → s.Listed g frame ∨ g = f ∧ frame = { kva := kva, page := none } := by
    rintro g frame ⟨hg, hframe'⟩
    rcases List.mem_append.mp hg with hg | hg
    · exact .inl ⟨hg, hframe'⟩
    · obtain rfl := List.mem_singleton.mp hg
      exact .inr ⟨rfl, (Option.some.inj (hf.there.symm.trans hframe')).symm⟩
  refine ⟨rfl, ⟨h.pages, fun g frame q hg hq => ?_, ?_, ?_, ?_, ?_, h.mapped, h.single, ?_⟩, ⟨List.mem_append_right _ List.mem_cons_self, hframe⟩, hf.unmapped⟩
  · rcases hlisted hg with hg | ⟨-, rfl⟩
    · exact h.known g frame q hg hq
    · cases hq
  · intro g hg
    rcases List.mem_append.mp hg with hg | hg
    · exact h.below g hg
    · obtain rfl := List.mem_singleton.mp hg
      exact hf.below
  · exact List.nodup_append.mpr ⟨h.nodup, List.nodup_singleton f, fun g hg g' hg' hne =>
      hf.out (List.mem_singleton.mp hg' ▸ hne ▸ hg)⟩
  · intro g frame hg
    rcases hlisted hg with hg | ⟨-, rfl⟩
    · exact h.used g frame hg
    · exact hf.used
  · intro g g' frame frame' hg hg' he
    rcases hlisted hg with h₁ | ⟨hgf, rfl⟩ <;> rcases hlisted hg' with h₂ | ⟨hgf', rfl⟩
    · exact h.distinct g g' frame frame' h₁ h₂ he
    · exact absurd he (hf.only g frame h₁)
    · exact absurd he.symm (hf.only g' frame' h₂)
    · exact hgf.trans hgf'.symm
  · intro sp va g frame hg hm
    rcases hlisted hg with hg | ⟨rfl, rfl⟩
    · exact h.holder sp va g frame hg hm
    · exact absurd hm (hf.unmapped sp va)

/-- A frame is found, for which a page of the thread may be evicted. -/
theorem FramesOk.vmGetFrame (h : FramesOk s) (hown : bitmapScan s.userPool 0 1 false = none → s.EvictsOwn t)
    (hrun : (vmGetFrame t).run s = .ok (f, s')) : FramesOk s' ∧ ∃ kva, s'.FreshFrame f kva := by
  obtain ⟨free, s₁, h₁, hrun⟩ := Prog.of_run_bind hrun
  have hdetached : ∃ g s₂ kva, FramesOk s₂ ∧ Detached s₂ g kva ∧ (Pintos.addFrame g).run s₂ = .ok (f, s') := by
    cases free with
    | none =>
      obtain ⟨g, s₂, h₂, hadd⟩ := Prog.of_run_bind hrun
      obtain ⟨hscan, rfl⟩ := of_pallocGetUser_none h₁
      obtain ⟨hs₂, frame, -, hd⟩ := h.vmEvictFrame (hown hscan) h₂
      exact ⟨g, s₂, frame.kva, hs₂, hd, hadd⟩
    | some kva =>
      obtain ⟨g, s₂, h₂, hadd⟩ := Prog.of_run_bind hrun
      obtain ⟨hscan, rfl⟩ := of_pallocGetUser_some h₁
      obtain ⟨hs₂, hd⟩ := h.newFrame hscan h₂
      exact ⟨g, s₂, kva, hs₂, hd, hadd⟩
  obtain ⟨g, s₂, kva, hs₂, hd, hadd⟩ := hdetached
  obtain ⟨rfl, hs', hfresh⟩ := hs₂.addFrame hd hadd
  exact ⟨hs', kva, hfresh⟩

theorem of_pml4SetPage {rw : Bool} (h : (pml4SetPage t va kva rw).run s = .ok (b, s')) : Aligned va ∧
    ((b = false ∧ s' = { s with allocs := fun n => s.allocs (n + 1) }) ∨
      (b = true ∧ s' = { s with allocs := fun n => s.allocs (n + 1) }.setPte t va
        { kva := kva, present := true, writable := rw, dirty := false })) := by
  unfold pml4SetPage at h
  split at h
  · rw [Prog.run_fail] at h
    cases h
  · next hal =>
    push Not at hal
    refine ⟨hal.1, ?_⟩
    obtain ⟨walked, s₁, h₁, h⟩ := Prog.of_run_bind h
    rw [vmAlloc, Prog.run_lift] at h₁
    cases h₁
    split at h
    · obtain ⟨_, s₂, h₂, h⟩ := Prog.of_run_bind h
      cases Prog.of_run_write h₂
      cases h
      exact .inr ⟨rfl, rfl⟩
    · cases h
      exact .inl ⟨rfl, rfl⟩

/-- The page of a frame that is not mapped is mapped to it. -/
theorem FramesOk.setPte (h : FramesOk s) (t : Tid) (va : Vaddr) (pte : Pte) (hf : s.Listed f { kva := pte.kva, page := some q })
    (hun : ∀ sp va, ¬ s.MapsPage sp va pte.kva) (hal : Aligned va) (hq : s.Owns (space t va) va q) :
    FramesOk (s.setPte t va pte) := by
  have hmaps : ∀ {sp va' kva}, (s.setPte t va pte).MapsPage sp va' kva →
      sp = space t va ∧ va' = va ∧ pte.kva = kva ∨ s.MapsPage sp va' kva := by
    intro sp va' kva hm
    rcases Vm.mapsPage_setPte.mp hm with ⟨hsp, hva, -, hk⟩ | ⟨-, hm⟩
    · exact .inl ⟨hsp, hva, hk⟩
    · exact .inr hm
  refine ⟨h.pages, h.known, h.below, h.nodup, h.used, h.distinct, fun sp va' kva hm => ?_,
    fun sp va₁ sp' va₂ kva hm hm' => ?_, fun sp va' g frame hg hm => ?_⟩
  · rcases hmaps hm with ⟨rfl, rfl, rfl⟩ | hm
    · exact ⟨⟨hal, t, rfl⟩, h.used f _ hf⟩
    · exact h.mapped sp va' kva hm
  · rcases hmaps hm with ⟨rfl, rfl, rfl⟩ | h₁ <;> rcases hmaps hm' with ⟨rfl, rfl, hk⟩ | h₂
    · exact ⟨rfl, rfl⟩
    · exact absurd h₂ (hun _ _)
    · exact absurd h₁ (hk ▸ hun _ _)
    · exact h.single sp va₁ sp' va₂ kva h₁ h₂
  · rcases hmaps hm with ⟨rfl, rfl, hk⟩ | hm
    · have hgf := h.distinct g f frame _ hg hf hk.symm
      subst hgf
      obtain rfl := Option.some.inj (hg.2.symm.trans hf.2)
      exact ⟨q, rfl, fun _ => hq⟩
    · exact h.holder sp va' g frame hg hm

/-- A page of the thread gets the frame. -/
theorem FramesOk.claimFrame (h : FramesOk s) (hf : s.FreshFrame f kva) (hq : q ∈ s.spt t) (hfull : ¬ s.ShortPage q)
    (hrun : (claimFrame t q f).run s = .ok (b, s')) : FramesOk s' := by
  obtain ⟨_, s₁, h₁, hrun⟩ := Prog.of_run_bind hrun
  obtain ⟨frame, hframe, hs₁⟩ := of_updateFrame h₁
  obtain rfl : { kva := kva, page := none } = frame := Option.some.inj (hf.1.2.symm.trans hframe)
  obtain ⟨_, s₂, h₂, hrun⟩ := Prog.of_run_bind hrun
  obtain ⟨page, hpage, hs₂⟩ := of_updatePage h₂
  obtain ⟨page', s₃, h₃, hrun⟩ := Prog.of_run_bind hrun
  obtain ⟨hpage', rfl⟩ := of_derefPage h₃
  obtain ⟨frame', s₄, h₄, hrun⟩ := Prog.of_run_bind hrun
  obtain ⟨f', hff, hframe', rfl⟩ := of_derefFrame h₄
  obtain rfl := Option.some.inj hff
  have hpages : s₂.pages = update s.pages q (some { page with frame := some f }) := by
    rw [hs₂, hs₁]
    rfl
  have hpage₀ : s.pages q = some page := by rwa [hs₁] at hpage
  rw [hpages, update_self] at hpage'
  obtain rfl := Option.some.inj hpage'
  have hframes : s₂.frames = update s.frames f (some { kva := kva, page := some q }) := by
    rw [hs₂, hs₁]
    rfl
  rw [hframes, update_self] at hframe'
  obtain rfl := Option.some.inj hframe'
  have hspt : s₂.spt = s.spt := by rw [hs₂, hs₁]; rfl
  have hlist : s₂.frameList = s.frameList := by rw [hs₂, hs₁]; rfl
  have hlisted : ∀ {g frame}, s₂.Listed g frame → s.Listed g frame ∨ g = f ∧ frame = { kva := kva, page := some q } := by
    rintro g frame ⟨hg, hframe⟩
    rw [hlist] at hg
    rw [hframes] at hframe
    by_cases hgf : g = f
    · rw [hgf, update_self] at hframe
      exact .inr ⟨hgf, (Option.some.inj hframe).symm⟩
    · rw [update_of_ne hgf] at hframe
      exact .inl ⟨hg, hframe⟩
  have hmaps : ∀ {sp va kva}, s₂.MapsPage sp va kva ↔ s.MapsPage sp va kva := by
    intro sp va kva
    exact Vm.mapsPage_congr (by rw [hs₂, hs₁]; rfl)
  have hholds : ∀ {sp va q'}, s.OwnsLive sp va q' → s₂.OwnsLive sp va q' := fun ho => ho.setFrame hpage₀ hpages rfl hspt
  have hbrk : s₂.brk = s.brk := by rw [hs₂, hs₁]; rfl
  have hbelow : q < s.brk := h.pages q (by rw [hpage₀]; nofun)
  have hthere : s₂.pages q ≠ none := by
    rw [hpages, update_self]
    nofun
  have hused : ∀ {kva}, s₂.Used kva ↔ s.Used kva := by
    intro kva
    unfold Vm.Used
    rw [hs₂, hs₁]
    rfl
  have hok : FramesOk s₂ := by
    refine ⟨fun q' hq' => ?_, fun g frame q' hg hq' => ?_, by rw [hlist, hbrk]; exact h.below,
      by rw [hlist]; exact h.nodup, fun g frame hg => ?_,
      fun g g' frame frame' hg hg' he => ?_, fun sp va k hm => (h.mapped sp va k (hmaps.mp hm)).imp_right hused.mpr,
      fun sp va sp' va' k hm hm' => h.single sp va sp' va' k (hmaps.mp hm) (hmaps.mp hm'), fun sp va g frame hg hm => ?_⟩
    · rw [hbrk]
      by_cases hqq : q' = q
      · rw [hqq]
        exact hbelow
      · rw [hpages, update_of_ne hqq] at hq'
        exact h.pages q' hq'
    · rw [hbrk]
      rcases hlisted hg with ha | ⟨-, rfl⟩
      · exact h.known g frame q' ha hq'
      · cases hq'
        exact hbelow
    · rcases hlisted hg with ha | ⟨-, rfl⟩
      · exact hused.mpr (h.used g frame ha)
      · exact hused.mpr (h.used f { kva := kva, page := none } hf.1)
    · rcases hlisted hg with ha | ⟨hgf, rfl⟩ <;> rcases hlisted hg' with hb | ⟨hgf', rfl⟩
      · exact h.distinct g g' frame frame' ha hb he
      · exact (h.distinct g f frame _ ha hf.1 he).trans hgf'.symm
      · exact hgf.trans (h.distinct f g' _ frame' hf.1 hb he)
      · exact hgf.trans hgf'.symm
    · rcases hlisted hg with ha | ⟨rfl, rfl⟩
      · obtain ⟨q', hq', ho⟩ := h.holder sp va g frame ha (hmaps.mp hm)
        exact ⟨q', hq', hholds ho⟩
      · exact absurd (hmaps.mp hm) (hf.2 sp va)
  obtain ⟨mapped, s₃, h₅, hrun⟩ := Prog.of_run_bind hrun
  have hm₁ : Moving Any s s₁ := does_updateFrame.run .refl .trans h₁
  have hm₂ : Moving Any s₁ s₂ :=
    (does_updatePage (g := fun page => { page with frame := some f }) fun _ => rfl).run .refl .trans h₂
  have hm₃ : Accessing Any s s₃ :=
    (Moving.trans _ _ _ (.trans _ _ _ hm₁ hm₂) ((does_pml4SetPage trivial).run .refl .trans h₅)).toAccessing
  obtain ⟨hal, hset⟩ := of_pml4SetPage h₅
  rcases hset with ⟨rfl, rfl⟩ | ⟨rfl, rfl⟩
  · cases hrun
    exact hok.settled ⟨⟨⟨rfl, fun _ _ h => .inl h, le_rfl⟩, rfl⟩, rfl⟩ (.same rfl rfl rfl)
  · rw [if_pos rfl] at hrun
    set s₃ : Vm := { s₂ with allocs := fun n => s₂.allocs (n + 1) } with hs₃
    have hok₃ : FramesOk s₃ :=
      hok.settled ⟨⟨⟨rfl, fun _ _ h => .inl h, le_rfl⟩, rfl⟩, rfl⟩ (.same rfl rfl rfl)
    have hlisted₃ : s₃.Listed f { kva := kva, page := some q } := by
      refine ⟨?_, ?_⟩
      · show f ∈ s₂.frameList
        rw [hlist]
        exact hf.1.1
      · show s₂.frames f = _
        rw [hframes, update_self]
    have howns₃ : s₃.Owns (space t page.va) page.va q := hholds (fun _ => ⟨⟨page, hpage₀, rfl⟩, t, hq, rfl⟩) hthere
    have hset := hok₃.setPte t page.va { kva := kva, present := true, writable := page.writable, dirty := false } hlisted₃
      (fun sp va hm => hf.2 sp va (hmaps.mp hm)) hal howns₃
    exact hset.settled (does_swapIn.run .refl .trans hrun) (of_swapIn hrun fun hshort => hfull (hm₃.shortPage hshort))

/-- **A claim keeps the frames in order.** -/
theorem FramesOk.vmDoClaimPage (h : FramesOk s) (hown : bitmapScan s.userPool 0 1 false = none → s.EvictsOwn t)
    (hq : q ∈ s.spt t) (hfull : ¬ s.ShortPage q) (hrun : (vmDoClaimPage t q).run s = .ok (b, s')) : FramesOk s' := by
  obtain ⟨f, s₁, h₁, hrun⟩ := Prog.of_run_bind hrun
  have hc : Claiming Any s s₁ := does_vmGetFrame.run .refl .trans h₁
  obtain ⟨hs₁, kva, hfresh⟩ := h.vmGetFrame hown h₁
  exact hs₁.claimFrame hfresh (by rwa [hc.spt]) (fun hshort => hfull (hc.shortPage hshort)) hrun

end

end Pintos
