import Pintos.Userprog.Syscall

/-!
# Images of processes

`process_exec`, `__do_fork` and `process_exit` of `userprog/process.c`.
-/

namespace Pintos

open Function

/-! ## `process_exec` -/

def setRunnFile (t : Tid) (f : FilePtr) : VmProg Unit :=
  Prog.write fun s => .ok { s with runnFile := update s.runnFile t (some f) }

/-- `load`. The headers are read with `file_read`, which moves the position of the file only: `phdrs` is what
they say, if the file is an executable. -/
def loadImage (t : Tid) (name : CStr) (phdrs : Option (List Phdr)) : VmProg Bool := do
  -- `pml4_create`
  let created ← vmAlloc
  if created then do
    let file ← liftFs (filesysOpen name)
    match file with
    | none => pure false
    | some f => do
      setRunnFile t f
      liftFs (fileDenyWrite f)
      match phdrs with
      | none => pure false
      | some phdrs => load t f phdrs
  else pure false

/-- `process_exec`, up to the stack of arguments. The file the process ran before stays open. -/
def processExec (t : Tid) (name : CStr) (phdrs : Option (List Phdr)) : VmProg Bool := do
  processCleanup t
  loadImage t name phdrs

/-! ## `process_fork` -/

/-- A `struct thread` that is zeroed, and has a table of files. -/
def Vm.newProcess (s : Vm) (t : Tid) : Vm :=
  { s with
    tables := update s.tables (some t) ∅
    spt := update s.spt t []
    fdt := update s.fdt t fun _ => none
    fdIndex := update s.fdIndex t 2
    runnFile := update s.runnFile t none }

/-- The loop of `__do_fork` over the open files, from entry `i` on. -/
def duplicateFiles (t parent : Tid) : Nat → Nat → VmProg Unit
  | 0, _ => pure ()
  | k + 1, i => do
    let file ← Prog.read fun s => .ok (s.fdt parent i)
    match file with
    | none => duplicateFiles t parent k (i + 1)
    | some f => do
      let allocated ← vmAlloc
      let file ← liftFs (fileDuplicate f allocated)
      Prog.write fun s => .ok { s with fdt := update s.fdt t (update (s.fdt t) i file) }
      duplicateFiles t parent k (i + 1)

/-- `__do_fork`: whether the new process runs. It is not told what its parent runs. -/
def doFork (t parent : Tid) : VmProg Bool := do
  Prog.write fun s => .ok (s.newProcess t)
  -- `pml4_create`
  let created ← vmAlloc
  if created then do
    let copied ← supplementalPageTableCopy t parent
    if copied then do
      duplicateFiles t parent FDCOUNT_LIMIT 0
      Prog.write fun s => .ok { s with fdIndex := update s.fdIndex t (s.fdIndex parent) }
      pure true
    else pure false
  else pure false

/-! ## `process_exit` -/

/-- The loop of `process_exit` over the open files, from descriptor `i` on. -/
def closeAll (t : Tid) : Nat → Nat → VmProg Unit
  | 0, _ => pure ()
  | k + 1, i => do
    close t i
    closeAll t k (i + 1)

/-- `process_exit`, up to the semaphores. -/
def processExit (t : Tid) : VmProg Unit := do
  closeAll t FDCOUNT_LIMIT 0
  processCleanup t
  let file ← Prog.read fun s => .ok (s.runnFile t)
  liftFs (fileClose file)

end Pintos
