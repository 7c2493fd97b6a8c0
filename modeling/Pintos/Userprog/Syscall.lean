import Pintos.Filesys.Directory
import Pintos.Userprog.Access
import Pintos.Userprog.Memory

/-!
# `userprog/syscall.c`

The system calls on files and mappings. `t` is the thread that runs, and `rsp` the kernel's stack
pointer where it takes a page fault. A name is the string that the pointer refers to.
-/

namespace Pintos

open Function LittleEndian

/-! ## Checks -/

def checkAddress (t : Tid) (useradd : Vaddr) : VmProg Unit :=
  if useradd = 0 ∨ isUserVaddr useradd = false then exit (-1)
  else do
    let page ← sptFindPage t useradd
    match page with
    | none => exit (-1)
    | some _ => pure ()

def checkBuffer (t : Tid) (useradd : Vaddr) : VmProg Unit :=
  if useradd = 0 ∨ isUserVaddr useradd = false then exit (-1)
  else do
    let page ← sptFindPage t useradd
    match page with
    | none => exit (-1)
    | some q => do
      let page ← derefPage q
      if page.writable = false then exit (-1) else pure ()

/-! ## File descriptors -/

def FDCOUNT_LIMIT : Nat := 3 * 512

/-- What an entry of the table holds: the entries 0 and 1 are no pointers. -/
inductive FdEntry where
  | null
  | std
  | file (f : FilePtr)

/-- `find_file_by_fd`. -/
def findFileByFd (t : Tid) (fd : Int) : VmProg FdEntry :=
  if fd < 0 ∨ (FDCOUNT_LIMIT : Int) < fd then pure .null
  else if fd < 2 then pure .std
  else
    Prog.read fun s =>
      match s.fdt t fd.toNat with
      | none => .ok .null
      | some f => .ok (.file f)

/-- The loop of `add_file_to_fdt`. -/
def nextFd (fdt : Nat → Option FilePtr) : Nat → Nat → Nat
  | 0, index => index
  | fuel + 1, index =>
    if index < FDCOUNT_LIMIT ∧ fdt index ≠ none then nextFd fdt fuel (index + 1) else index

def addFileToFdt (t : Tid) (f : FilePtr) : VmProg (Option Nat) :=
  Prog.lift fun s =>
    let index := nextFd (s.fdt t) FDCOUNT_LIMIT (s.fdIndex t)
    let s := { s with fdIndex := update s.fdIndex t index }
    if FDCOUNT_LIMIT ≤ index then .ok (none, s)
    else .ok (some index, { s with fdt := update s.fdt t (update (s.fdt t) index (some f)) })

def removeFileFromFdt (t : Tid) (fd : Int) : VmProg Unit :=
  if fd < 0 ∨ (FDCOUNT_LIMIT : Int) < fd then pure ()
  else Prog.write fun s => .ok { s with fdt := update s.fdt t (update (s.fdt t) fd.toNat none) }

/-! ## `file_lock` -/

def acquireFile (t : Tid) : VmProg Unit :=
  Prog.write fun s =>
    match s.fileLock with
    | none => .ok { s with fileLock := some t }
    | some holder => if holder = t then .error .assertion else .error .disabled

def releaseFile (t : Tid) : VmProg Unit :=
  Prog.write fun s => if s.fileLock = some t then .ok { s with fileLock := none } else .error .assertion

/-! ## System calls -/

/-- The loop of `read` from the keyboard, with `i` bytes read. -/
def readInput (t : Tid) (rsp buffer : Vaddr) : Nat → Nat → VmProg Nat
  | 0, i => pure i
  | k + 1, i => do
    let c ← Prog.lift fun s => .ok (s.input 0, { s with input := fun n => s.input (n + 1) })
    storeByte t rsp (buffer + BitVec.ofNat 64 i) c
    if c = 0 then pure i else readInput t rsp buffer k (i + 1)

/-- `read`, with a `length` of 32 bits that `file_read` takes as an `off_t`. -/
def read (t : Tid) (rsp : Vaddr) (bounce : Bool) (fd : Int) (buffer : Vaddr) (length : BitVec 32) :
    VmProg Int := do
  checkBuffer t buffer
  if fd = 0 then do
    let ret ← readInput t rsp buffer length.toNat 0
    pure ret
  else if fd = 1 then pure (-1)
  else do
    let fileobj ← findFileByFd t fd
    match fileobj with
    | .file f => do
      acquireFile t
      let ret ← fileReadUser t rsp bounce f buffer length.toInt
      releaseFile t
      pure ret
    | _ => pure (-1)

/-- `write`. -/
def write (t : Tid) (rsp : Vaddr) (bounce : Bool) (fd : Int) (buffer : Vaddr) (length : BitVec 32) :
    VmProg Int := do
  checkAddress t buffer
  if fd = 1 then do
    let _ ← loadBytes t rsp length.toNat buffer
    pure length.toInt
  else if fd = 0 then pure (-1)
  else do
    let fileobj ← findFileByFd t fd
    match fileobj with
    | .file f => do
      acquireFile t
      let ret ← fileWriteUser t rsp bounce f buffer length.toInt
      releaseFile t
      pure ret
    | _ => pure (-1)

/-- `create`: `initial_size` becomes an `off_t`. -/
def create (t : Tid) (file : Vaddr) (name : CStr) (initialSize : BitVec 32) : VmProg Bool := do
  checkAddress t file
  liftFs (filesysCreate name initialSize.toInt)

def openFile (t : Tid) (file : Vaddr) (name : CStr) : VmProg Int := do
  checkAddress t file
  let fileobj ← liftFs (filesysOpen name)
  match fileobj with
  | none => pure (-1)
  | some f => do
    let fd ← addFileToFdt t f
    match fd with
    | some fd => pure fd
    | none => do
      liftFs (fileClose (some f))
      pure (-1)

def filesize (t : Tid) (fd : Int) : VmProg Int := do
  let fileobj ← findFileByFd t fd
  match fileobj with
  | .null => pure (-1)
  | .std => Prog.fail .null
  | .file f => liftFs (fileLength f)

/-- `seek`: `position` becomes an `off_t`. -/
def seek (t : Tid) (fd : Int) (position : BitVec 32) : VmProg Unit := do
  let fileobj ← findFileByFd t fd
  match fileobj with
  | .file f => liftFs (fileSeek f position.toInt)
  | _ => pure ()

/-- `tell`, of a file. -/
def tell (t : Tid) (fd : Int) : VmProg Nat := do
  let fileobj ← findFileByFd t fd
  match fileobj with
  | .file f => liftFs (fileTell f)
  | _ => pure 0

def close (t : Tid) (fd : Int) : VmProg Unit :=
  if fd = 0 ∨ fd = 1 then pure ()
  else do
    let fileobj ← findFileByFd t fd
    match fileobj with
    | .file f => do
      removeFileFromFdt t fd
      liftFs (fileClose (some f))
    | _ => pure ()

/-- The checks of `mmap` on its arguments alone. -/
def mmapRefuses (addr length : BitVec 64) (fd offset : Int) : Bool :=
  addr = 0 ∨ isKernelVaddr addr ∨ isKernelVaddr (addr - length) ∨ addr ≠ pgRoundDown addr ∨
    ¬ (1 < fd ∧ fd ≤ 63) ∨ length = 0 ∨ offset.tmod PGSIZE ≠ 0

/-- `mmap`: the loop of its check always looks at `addr`. The result is `NULL` or `addr`. -/
def mmap (t : Tid) (addr length : BitVec 64) (writable : Bool) (fd offset : Int) : VmProg Vaddr :=
  if mmapRefuses addr length fd offset then pure 0
  else do
    let found ← sptFindPage t addr
    match found with
    | some _ => pure 0
    | none => do
      let file ← Prog.read fun s => .ok (s.fdt t fd.toNat)
      match file with
      | none => exit (-1)
      | some f => do
        let readBytes ← liftFs (fileLength f)
        if readBytes = 0 then pure 0
        else do
          let loaded ← mmapLoadSegment t f offset addr writable
          if loaded then pure addr else pure 0

def munmap (t : Tid) (addr : Vaddr) : VmProg Unit := do
  checkAddress t addr
  doMunmap t addr

/-! ## `syscall_handler` -/

/-- The registers of the frame that it uses. -/
structure Regs where
  rax : BitVec 64
  rdi : BitVec 64
  rsi : BitVec 64
  rdx : BitVec 64
  r10 : BitVec 64
  r8 : BitVec 64

/-- A register as an `int`. -/
def intArg (r : BitVec 64) : Int := (r.setWidth 32).toInt

/-- The numbers of the calls that are modelled here. -/
def SYS_CREATE : BitVec 64 := 5
def SYS_OPEN : BitVec 64 := 7
def SYS_FILESIZE : BitVec 64 := 8
def SYS_READ : BitVec 64 := 9
def SYS_WRITE : BitVec 64 := 10
def SYS_SEEK : BitVec 64 := 11
def SYS_TELL : BitVec 64 := 12
def SYS_CLOSE : BitVec 64 := 13
def SYS_MMAP : BitVec 64 := 14
def SYS_MUNMAP : BitVec 64 := 15

/-- `syscall_handler`: the new value of `rax`. -/
def syscallHandler (t : Tid) (rsp : Vaddr) (bounce : Bool) (name : CStr) (f : Regs) : VmProg (BitVec 64) :=
  if f.rax = SYS_CREATE then do
    let r ← create t f.rdi name (f.rsi.setWidth 32)
    pure (if r then 1 else 0)
  else if f.rax = SYS_OPEN then do
    let r ← openFile t f.rdi name
    pure (BitVec.ofInt 64 r)
  else if f.rax = SYS_FILESIZE then do
    let r ← filesize t (intArg f.rdi)
    pure (BitVec.ofInt 64 r)
  else if f.rax = SYS_READ then do
    let r ← read t rsp bounce (intArg f.rdi) f.rsi (f.rdx.setWidth 32)
    pure (BitVec.ofInt 64 r)
  else if f.rax = SYS_WRITE then do
    let r ← write t rsp bounce (intArg f.rdi) f.rsi (f.rdx.setWidth 32)
    pure (BitVec.ofInt 64 r)
  else if f.rax = SYS_SEEK then do
    seek t (intArg f.rdi) (f.rsi.setWidth 32)
    pure f.rax
  else if f.rax = SYS_TELL then do
    let r ← tell t (intArg f.rdi)
    pure (BitVec.ofNat 64 r)
  else if f.rax = SYS_CLOSE then do
    close t (intArg f.rdi)
    pure f.rax
  else if f.rax = SYS_MMAP then
    mmap t f.rdi f.rsi (decide (intArg f.rdx ≠ 0)) (intArg f.r10) (intArg f.r8)
  else if f.rax = SYS_MUNMAP then do
    munmap t f.rdi
    pure f.rax
  else Prog.fail .disabled

end Pintos
