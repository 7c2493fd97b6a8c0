import Pintos.Filesys.Directory
import Pintos.Lib.Machine
import Pintos.Userprog.Syscall

/-!
# The words of a descriptor table

The system calls of `userprog/syscall.c` that take a descriptor, and the loop of `__do_fork` over the
table. An entry is the word that the kernel finds there, and an index is checked against the pages of
the table. Memory of the user is left out: a call is told whether the check of its pointer passes, and
`write` what the buffer holds. Each call runs alone.

* `Call.prog` — the calls
* `fork` — a new table, copied from the one of the parent
* `step` — one of them, by any process
-/

namespace Pintos

open Function LittleEndian

namespace Descriptors

/-- An entry of `fdt`. The entries 0 and 1 hold the words 1 and 2. -/
inductive FdWord where
  | null
  | stdin
  | stdout
  | file (f : FilePtr)
  deriving DecidableEq, Repr

inductive DescFault where
  | fs (e : FsFault)
  /-- The table is indexed outside of its pages. -/
  | outside
  /-- A word is followed that is no open file of the process. -/
  | notFile
  /-- `exit (-1)`. -/
  | exit
  | disabled
  deriving DecidableEq, Repr

structure Descs where
  fs : FileSys
  fdt : Tid → Nat → FdWord
  fdIndex : Tid → Nat
  live : Tid → Bool
  /-- What the keyboard sends. -/
  input : Nat → Byte
  /-- History: the file that `open` or `file_duplicate` gave for a descriptor, until it is closed. -/
  given : Tid → Nat → Option FilePtr

abbrev DescProg := Prog DescFault Descs

namespace Descs

def setEntry (s : Descs) (t : Tid) (n : Nat) (w : FdWord) : Descs :=
  { s with fdt := update s.fdt t (update (s.fdt t) n w) }

def setIndex (s : Descs) (t : Tid) (index : Nat) : Descs :=
  { s with fdIndex := update s.fdIndex t index }

def setGiven (s : Descs) (t : Tid) (n : Nat) (f : Option FilePtr) : Descs :=
  { s with given := update s.given t (update (s.given t) n f) }

end Descs

/-- A call into `filesys/`. -/
def liftFs {α : Type} (p : FsProg α) : DescProg α :=
  p.zoom Descs.fs (fun s fs => { s with fs := fs }) .fs

/-- `fdt[i]`. -/
def loadEntry (t : Tid) (i : Int) : DescProg FdWord :=
  Prog.read fun s => if 0 ≤ i ∧ i < FDCOUNT_LIMIT then .ok (s.fdt t i.toNat) else .error .outside

/-- `fdt[i] = w`. -/
def storeEntry (t : Tid) (i : Int) (w : FdWord) : DescProg Unit :=
  Prog.write fun s =>
    if 0 ≤ i ∧ i < FDCOUNT_LIMIT then .ok (s.setEntry t i.toNat w) else .error .outside

/-- The word of descriptor `fd` where it is followed as a `struct file *`. -/
def asFile (t : Tid) (fd : Int) : FdWord → DescProg FilePtr
  | .file f =>
    Prog.read fun s =>
      if s.given t fd.toNat = some f ∧ s.fs.files f ≠ none then .ok f else .error .notFile
  | _ => Prog.fail .notFile

/-- `check_address` and `check_buffer`. -/
def checkPointer (valid : Bool) : DescProg Unit := if valid then pure () else Prog.fail .exit

/-! ## The table -/

/-- The loop of `add_file_to_fdt`. -/
def nextFd (fdt : Nat → FdWord) : Nat → Nat → Nat
  | 0, index => index
  | fuel + 1, index =>
    if index < FDCOUNT_LIMIT ∧ fdt index ≠ .null then nextFd fdt fuel (index + 1) else index

/-- `add_file_to_fdt`. -/
def addFileToFdt (t : Tid) (f : FilePtr) : DescProg Int :=
  Prog.lift fun s =>
    let index := nextFd (s.fdt t) FDCOUNT_LIMIT (s.fdIndex t)
    let s := s.setIndex t index
    if FDCOUNT_LIMIT ≤ index then .ok (-1, s) else .ok (index, s.setEntry t index (.file f))

def findFileByFd (t : Tid) (fd : Int) : DescProg FdWord :=
  if fd < 0 ∨ (FDCOUNT_LIMIT : Int) < fd then pure .null else loadEntry t fd

def removeFileFromFdt (t : Tid) (fd : Int) : DescProg Unit :=
  if fd < 0 ∨ (FDCOUNT_LIMIT : Int) < fd then pure () else storeEntry t fd .null

def setGiven (t : Tid) (fd : Int) (f : Option FilePtr) : DescProg Unit :=
  Prog.write fun s => .ok (s.setGiven t fd.toNat f)

/-! ## System calls -/

/-- `open`. -/
def openFile (t : Tid) (valid : Bool) (name : CStr) : DescProg Int := do
  checkPointer valid
  let fileobj ← liftFs (filesysOpen name)
  match fileobj with
  | none => pure (-1)
  | some f => do
    let fd ← addFileToFdt t f
    if fd = -1 then do
      liftFs (fileClose (some f))
      pure fd
    else do
      setGiven t fd (some f)
      pure fd

def filesize (t : Tid) (fd : Int) : DescProg Int := do
  let fileobj ← findFileByFd t fd
  if fileobj = .null then pure (-1)
  else do
    let f ← asFile t fd fileobj
    liftFs (fileLength f)

/-- The loop of `read` from the keyboard, with `i` bytes read. -/
def readInput : Nat → Nat → DescProg Nat
  | 0, i => pure i
  | k + 1, i => do
    let c ← Prog.lift fun s => .ok (s.input 0, { s with input := fun n => s.input (n + 1) })
    if c = 0 then pure i else readInput k (i + 1)

/-- `read`: `file_read` takes the length as an `off_t`. -/
def read (t : Tid) (valid : Bool) (fd : Int) (length : BitVec 32) : DescProg Int := do
  checkPointer valid
  if fd = 0 then do
    let ret ← readInput length.toNat 0
    pure ret
  else if fd = 1 then pure (-1)
  else do
    let fileobj ← findFileByFd t fd
    if fileobj = .null then pure (-1)
    else do
      let f ← asFile t fd fileobj
      let bytes ← liftFs (fileRead f length.toInt.toNat)
      pure bytes.length

/-- `write` of the bytes from `buffer` on. -/
def write (t : Tid) (valid : Bool) (fd : Int) (buffer : Nat → Byte) (length : BitVec 32) : DescProg Int := do
  checkPointer valid
  if fd = 1 then pure length.toInt
  else if fd = 0 then pure (-1)
  else do
    let fileobj ← findFileByFd t fd
    if fileobj = .null then pure (-1)
    else do
      let f ← asFile t fd fileobj
      let ret ← liftFs (fileWrite f ((List.range length.toInt.toNat).map buffer))
      pure ret

/-- `fileobj <= 2`. -/
def FdWord.small : FdWord → Bool
  | .file _ => false
  | _ => true

/-- `seek`: the position becomes an `off_t`. -/
def seek (t : Tid) (fd : Int) (position : BitVec 32) : DescProg Unit := do
  let fileobj ← findFileByFd t fd
  if fileobj.small then pure ()
  else do
    let f ← asFile t fd fileobj
    liftFs (fileSeek f position.toInt)

/-- `tell`. Without a file it returns no value. -/
def tell (t : Tid) (fd : Int) : DescProg (Option Nat) := do
  let fileobj ← findFileByFd t fd
  if fileobj.small then pure none
  else do
    let f ← asFile t fd fileobj
    let pos ← liftFs (fileTell f)
    pure (some pos)

def close (t : Tid) (fd : Int) : DescProg Unit :=
  if fd = 0 ∨ fd = 1 then pure ()
  else do
    let fileobj ← findFileByFd t fd
    if fileobj = .null then pure ()
    else do
      removeFileFromFdt t fd
      let f ← asFile t fd fileobj
      liftFs (fileClose (some f))
      setGiven t fd none

/-- `mmap`, as far as it uses the file of the descriptor. `found` is whether there is a page already, and
`alloc` whether `file_reopen` finds memory. -/
def mmap (t : Tid) (addr length : BitVec 64) (fd offset : Int) (found alloc : Bool) : DescProg Unit :=
  if mmapRefuses addr length fd offset then pure ()
  else if found then pure ()
  else do
    let file ← loadEntry t fd
    if file = .null then Prog.fail .exit
    else do
      let f ← asFile t fd file
      let readBytes ← liftFs (fileLength f)
      if readBytes = 0 then pure ()
      else do
        let _ ← liftFs (fileReopen f alloc)
        pure ()

inductive Call where
  | open (valid : Bool) (name : CStr)
  | filesize (fd : Int)
  | read (valid : Bool) (fd : Int) (length : BitVec 32)
  | write (valid : Bool) (fd : Int) (buffer : Nat → Byte) (length : BitVec 32)
  | seek (fd : Int) (position : BitVec 32)
  | tell (fd : Int)
  | close (fd : Int)
  | mmap (addr length : BitVec 64) (fd offset : Int) (found alloc : Bool)

/-- A call, with the number it returns. -/
def Call.prog (t : Tid) : Call → DescProg (Option Int)
  | .open valid name => some <$> openFile t valid name
  | .filesize fd => some <$> Descriptors.filesize t fd
  | .read valid fd length => some <$> Descriptors.read t valid fd length
  | .write valid fd buffer length => some <$> Descriptors.write t valid fd buffer length
  | .seek fd position => (fun _ => none) <$> Descriptors.seek t fd position
  | .tell fd => (fun pos => pos.map Nat.cast) <$> Descriptors.tell t fd
  | .close fd => (fun _ => none) <$> Descriptors.close t fd
  | .mmap addr length fd offset found alloc =>
    (fun _ => none) <$> Descriptors.mmap t addr length fd offset found alloc

/-! ## `fork` -/

/-- The table of a thread that `thread_create` made. -/
def Descs.newThread (s : Descs) (t : Tid) : Descs :=
  { s with
    fdt := update s.fdt t (update (update (fun _ => .null) 0 .stdin) 1 .stdout)
    fdIndex := update s.fdIndex t 2
    given := update s.given t fun _ => none
    live := update s.live t true }

/-- The loop of `__do_fork` over the table of the parent, with the memory that `file_duplicate` finds for
each entry. -/
def duplicateFiles (t parent : Tid) (allocs : Nat → Bool) : Nat → Nat → DescProg Unit
  | 0, _ => pure ()
  | k + 1, i => do
    let file ← loadEntry parent i
    if file = .null then duplicateFiles t parent allocs k (i + 1)
    else if file.small then do
      storeEntry t i file
      duplicateFiles t parent allocs k (i + 1)
    else do
      let f ← asFile parent i file
      let file ← liftFs (fileDuplicate f (allocs i))
      setGiven t i file
      storeEntry t i (match file with
        | none => .null
        | some f => .file f)
      duplicateFiles t parent allocs k (i + 1)

/-- What `__do_fork` does with descriptors. -/
def fork (parent child : Tid) (allocs : Nat → Bool) : DescProg Unit := do
  Prog.write fun s => .ok (s.newThread child)
  duplicateFiles child parent allocs FDCOUNT_LIMIT 0
  Prog.write fun s => .ok (s.setIndex child (s.fdIndex parent))

/-! ## Runs -/

inductive Action where
  | call (t : Tid) (c : Call)
  /-- `fork`, where the rest of `__do_fork` succeeds. -/
  | fork (parent child : Tid) (allocs : Nat → Bool)

/-- What is left, without the result. -/
def after {α : Type} : Except DescFault (α × Descs) → Except DescFault Descs
  | .error e => .error e
  | .ok (_, s) => .ok s

def step (s : Descs) : Action → Except DescFault Descs
  | .call t c => if s.live t then after ((c.prog t).run s) else .error .disabled
  | .fork parent child allocs =>
    if s.live parent ∧ s.live child = false then after ((Descriptors.fork parent child allocs).run s)
    else .error .disabled

/-- A first process, with no file open. -/
def boot (fs : FileSys) (input : Nat → Byte) (t : Tid) : Descs :=
  Descs.newThread
    { fs := fs, fdt := fun _ _ => .null, fdIndex := fun _ => 0, live := fun _ => false, input := input,
      given := fun _ _ => none } t

end Descriptors

end Pintos
