import Bincows.Sched.ElfLoading
import Bincows.Sched.ProcessIds
import Bincows.Syscalls.Descriptors

set_option autoImplicit false

/-! Memory is kept as far as it is mapped or not; the bytes of the caller are those that the checks of the arguments read. -/

namespace Bincows.Exec

open Sched (MemMap)
open Vfs (FastDirent Str)
open Vfs.OpenTable (OpenFlags)
open Vfs.HandleTable (FileTable vfsOpenFile vfsHandleDup vfsCloseFile)
open Syscalls.Descriptors (Fd maxFds)

def stackTop : Nat := 0x8000000000

def stackSize : Nat := 32 * 1024

def stackBase : Nat := stackTop - stackSize

def gpRegsSize : Nat := 160

structure Thread where
  tid : Nat
  stackBase : Nat
  stackSize : Nat
  blocked : Bool
  deriving DecidableEq

structure Process where
  pid : BitVec 32
  ppid : BitVec 32
  fds : Fin maxFds -> Fd
  cwd : List Byte
  memMap : MemMap
  segs : List Segment
  heapBegin : Nat
  brk : Nat
  threads : List Thread

structure Kernel (F : Type) where
  processes : List Process
  lastPid : BitVec 32
  table : FileTable F
  space : Space

structure ScExecArgs where
  -- `args_sz == sizeof(struct sc_exec_args)`
  sized : Bool
  args : BitVec 64
  argsSz : BitVec 64
  env : BitVec 64
  envSz : BitVec 64
  newProcess : Bool
  fdMask : BitVec 32

structure Outside (F : Type) where
  found : Str -> Option (F × FastDirent)
  openAnswer : Option Int
  -- what `vfs_tell_file` and `vfs_read_file` give
  fileSize : Nat
  elfData : List Byte
  -- what `create_empty_pd` and `alloc_page_table` give
  newMap : MemMap
  spare : Nat -> BitVec 64
  dupAnswer : Fin maxFds -> Option Int

variable {F : Type}

def liftMapping {A : Type} (x : Except Sched.Fault A) : Except Fault A := x.mapError .mapping

def liftTable {A : Type} (x : Except Vfs.HandleTable.Fault A) : Except Fault A :=
  x.mapError fun _ => .badHandle

-- `true` where the source returns 0
def checkArgs (proc : Process) (args argsSz : BitVec 64) : Bool :=
  let inRange (base size : Nat) : Bool := base ≤ args.toNat ∧ args.toNat + argsSz.toNat ≤ (base + size) % 2 ^ 64
  if 2 ^ 64 ≤ args.toNat + argsSz.toNat then false
  else
    proc.threads.any (fun t => inRange t.stackBase t.stackSize) ||
      (proc.heapBegin ≤ args.toNat ∧ args.toNat + argsSz.toNat ≤ proc.brk) ||
      proc.segs.any fun seg => inRange seg.base seg.length

def checkList (proc : Process) (memory : ByteMemory) (list size : BitVec 64) : Bool :=
  1 ≤ size.toNat ∧ checkArgs proc list size ∧ memory (list.toNat + (size.toNat - 1)) = 0

def strlen (m : ByteMemory) : Nat -> Nat -> Nat
  | 0, _ => 0
  | fuel + 1, p => if m p = 0 then 0 else strlen m fuel (p + 1) + 1

def stringAt (memory : ByteMemory) (fuel p : Nat) : List Byte :=
  (List.range (strlen memory fuel p)).map fun k => memory (p + k)

def getAbsolutePath (cwd path : List Byte) : Str :=
  let bytes := if path.head? = some 0x2f then path else cwd ++ 0x2f :: path
  bytes.map fun b => Char.ofNat b.toNat

def freeProcessMemory (s : Space) (map : MemMap) : Space :=
  { s with pages := fun dir page => if dir = map.privatePd ∨ dir = map.sharedPd then false else s.pages dir page }

-- The process has no thread yet, so the first place is free.
def allocStack (spare : Nat -> BitVec 64) (s : Space) : Except Fault (Space × Nat) := do
  let s ← allocPages spare s (stackBase / 4096) (stackSize / 4096)
  return (s, stackBase)

def freeStack (s : Space) (base : Nat) : Space :=
  let unmapped := (pageRange (base / 4096) (stackSize / 4096)).map offset
  let stackDir := Paging.extractPointer (s.pml4 (slot (base / 4096)))
  { s with pages := fun dir page => if dir = stackDir ∧ page ∈ unmapped then false else s.pages dir page }

def createThread (tid base size : Nat) : Thread × Int :=
  ({ tid, stackBase := base, stackSize := size, blocked := true }, 0)

def createMainThread (spare : Nat -> BitVec 64) (s : Space) : Except Fault (Space × Option Thread) := do
  let (s, base) ← allocStack spare s
  if base = 0 then return (s, none)
  else
    let (thread, res) := createThread 1 base stackSize
    if res ≠ 0 then return (freeStack s base, none)
    else return (s, some thread)

variable [DecidableEq F]

def dupFd (table : FileTable F) (fd : Fd) (answer : Option Int) : Except Fault (FileTable F × Fd) :=
  match fd with
  | .none => .ok (table, .none)
  | .dir dirBoff => .ok (table, .dir dirBoff)
  | .file none => .error .nullHandle
  | .file (some handle) => do
    let (table, new) ← liftTable (vfsHandleDup table handle answer)
    match new with
    | some new => return (table, .file (some new))
    -- A refused handle leaves interrupts on, and `create_main_thread` stops.
    | none => .error .interruptsEnabled

def inheritFd (fds : Fin maxFds -> Fd) (fdMask : BitVec 32) (answer : Fin maxFds -> Option Int)
    (s : FileTable F × (Fin maxFds -> Fd)) (i : Fin maxFds) : Except Fault (FileTable F × (Fin maxFds -> Fd)) :=
  if fdMask.getLsbD i then .ok (s.1, Function.update s.2 i .none)
  else do
    let (table, fd) ← dupFd s.1 (fds i) (answer i)
    return (table, Function.update s.2 i fd)

def inheritFds (table : FileTable F) (fds : Fin maxFds -> Fd) (fdMask : BitVec 32)
    (answer : Fin maxFds -> Option Int) : Except Fault (FileTable F × (Fin maxFds -> Fd)) :=
  (List.finRange maxFds).foldlM (inheritFd fds fdMask answer) (table, fun _ => .none)

def startProcess (k : Kernel F) (parent : Process) (o : Outside F) (fdMask : BitVec 32)
    (space : Space) (segs : List Segment) : Except Fault (Kernel F × Option Process) := do
  let (table, fds) ← inheritFds k.table parent.fds fdMask o.dupAnswer
  let lastPid := k.lastPid + 1
  let elfEnd := (segs.map fun seg => (seg.base + seg.length) % 2 ^ 64).foldl max 0
  let heapBegin := (elfEnd + 0xfff) % 2 ^ 64 / 4096 * 4096
  let (space, thread) ← createMainThread o.spare space
  match thread with
  | none => return ({ k with table, lastPid, space := freeProcessMemory space o.newMap }, none)
  | some thread =>
    let pml4 ← liftMapping (Sched.processUnmap space.pml4)
    return ({ k with table, lastPid, space := { space with pml4 } }, some {
      pid := lastPid &&& ProcessIds.maxPid
      ppid := parent.pid
      fds
      cwd := parent.cwd
      memMap := o.newMap
      segs
      heapBegin
      brk := heapBegin
      threads := [thread] })

def withProgram (k : Kernel F) (parent : Process) (o : Outside F) (fdMask : BitVec 32)
    (space : Space) : Option (List Segment) -> Except Fault (Kernel F × Option Process)
  | none => .ok ({ k with space := freeProcessMemory space o.newMap }, none)
  | some segs => startProcess k parent o fdMask space segs

def createProcess (k : Kernel F) (parent : Process) (o : Outside F) (fdMask : BitVec 32) :
    Except Fault (Kernel F × Option Process) := do
  if ← liftMapping (Sched.isProcessMapped k.space.pml4 none) then .error (.mapping .anotherMapped)
  let pml4 ← liftMapping (Sched.userMap k.space.pml4 o.newMap)
  let (space, program) ← elfLoad o.spare o.elfData { k.space with pml4 }
  withProgram k parent o fdMask space program

def schedGetProcess (k : Kernel F) (pid : BitVec 32) : Option Process :=
  k.processes.reverse.find? fun p => p.pid = pid

def addProcess (k : Kernel F) : Option Process -> Kernel F × Option (BitVec 32)
  | none => (k, none)
  | some p => ({ k with processes := k.processes ++ [p] }, some p.pid)

def schedCreateProcess (k : Kernel F) (ppid : BitVec 32) (o : Outside F) (fdMask : BitVec 32) :
    Except Fault (Kernel F × Option (BitVec 32)) :=
  match schedGetProcess k ppid with
  | none => .ok (k, none)
  | some parent => do
    let (k, new) ← createProcess k parent o fdMask
    return addProcess k new

def align16 (n : Nat) : Nat := (n + 15) % 2 ^ 64 / 16 * 16

def userFrameBegin (top argvSz envpSz : Nat) : Nat :=
  (top + 2 * 2 ^ 64 - align16 argvSz - align16 envpSz - 8) % 2 ^ 64

def entryRsp (top argvSz envpSz : Nat) : Nat :=
  (userFrameBegin top argvSz envpSz + 2 ^ 64 - gpRegsSize) % 2 ^ 64

def setProcessEntryArguments (s : Space) (thread : Thread) (argvSz envpSz : Nat) : Except Fault Bool := do
  let top := thread.stackBase + thread.stackSize
  let begin := userFrameBegin top argvSz envpSz
  touch s begin 8
  if entryRsp top argvSz envpSz ≤ thread.stackBase then return false
  else
    touch s ((begin + 8 + align16 envpSz) % 2 ^ 64) (align16 argvSz)
    touch s ((begin + 8) % 2 ^ 64) (align16 envpSz)
    touch s (entryRsp top argvSz envpSz) gpRegsSize
    return true

def schedUnblock (processes : List Process) (pid : BitVec 32) : List Process :=
  processes.map fun p => if p.pid = pid then { p with threads := p.threads.map fun t => { t with blocked := false } } else p

def enterProcess (k : Kernel F) (proc : Process) (a : ScExecArgs) (pid : BitVec 32) :
    Except Fault (Kernel F × Option (BitVec 32)) :=
  match schedGetProcess k pid with
  | none => .error .noProcess
  | some new =>
    match new.threads with
    | [] => .error .noProcess
    | thread :: _ => do
      let pml4 ← liftMapping (Sched.processMap k.space.pml4 new.memMap)
      let done ← setProcessEntryArguments { k.space with pml4 } thread a.argsSz.toNat a.envSz.toNat
      let pml4 ← liftMapping (Sched.processMap pml4 proc.memMap)
      let k := { k with space := { k.space with pml4 } }
      if done then return ({ k with processes := schedUnblock k.processes new.pid }, some new.pid)
      else return (k, none)

def withCreated (k : Kernel F) (proc : Process) (a : ScExecArgs) :
    Option (BitVec 32) -> Except Fault (Kernel F × Option (BitVec 32))
  | none => do
    let pml4 ← liftMapping (Sched.processMap k.space.pml4 proc.memMap)
    return ({ k with space := { k.space with pml4 } }, none)
  | some pid => enterProcess k proc a pid

def execFile (k : Kernel F) (proc : Process) (a : ScExecArgs) (o : Outside F) :
    Except Fault (Kernel F × Option (BitVec 32)) :=
  if o.elfData.length ≠ o.fileSize then .error .shortRead
  else if ¬ a.newProcess then .error .notReplaced
  else do
    let pml4 ← liftMapping (Sched.processUnmap k.space.pml4)
    let (k, created) ← schedCreateProcess { k with space := { k.space with pml4 } } proc.pid o a.fdMask
    withCreated k proc a created

def readOnly : OpenFlags := { read := true, write := false, create := false }

def executable (proc : Process) (memory : ByteMemory) (a : ScExecArgs) : Str :=
  getAbsolutePath proc.cwd (stringAt memory a.argsSz.toNat a.args.toNat)

def scExec (k : Kernel F) (proc : Process) (memory : ByteMemory) (a : ScExecArgs) (o : Outside F) :
    Except Fault (Kernel F × Option (BitVec 32)) :=
  if ¬ a.sized then .ok (k, none)
  else if ¬ checkList proc memory a.args a.argsSz then .ok (k, none)
  else if ¬ checkList proc memory a.env a.envSz then .ok (k, none)
  else do
    let path := executable proc memory a
    let (table, handle) ← liftTable (vfsOpenFile k.table (o.found path) path readOnly o.openAnswer)
    match handle with
    | none => return ({ k with table }, none)
    | some handle =>
      let table ← liftTable (vfsCloseFile table handle)
      execFile { k with table } proc a o

end Bincows.Exec
