import Bincows.Shared.Execution
import Bincows.Shared.RefCounts
import Bincows.Shared.Tables

set_option autoImplicit false

/-! `shm.c`, and `memfs.c` on top of it. A directory is its address, `pd` is 0 for none, `ptr` is
where an instance lives on the heap. `freed` is no variable of the source: the directories given to
`free_shm`, with the slots as they were then. -/

namespace Bincows.SharedMemory

open Keyed Tables Function

def shmSizeMax : Nat := 1024 * 1024 * 1024

def userSharedBegin : Nat := 0x0000010000000000

def userSharedEnd : Nat := 0x0000018000000000

def pageR1Size : Nat := 1024 * 1024 * 1024

def kernelPid : Nat := 0

inductive Fault where
  | noShm
  | noInstances
  | noProcess
  | outsideShared
  | notPresent
  | noFile
  | noInstance
  | openInstances
  | badPointer
  | kernelProcess
  deriving DecidableEq

structure Shm where
  id : Nat
  nInsts : Nat
  pdPaddr : Nat
  size : Nat
  pfree : Bool
  deriving DecidableEq

def Shm.addInst (s : Shm) : Shm := { s with nInsts := s.nInsts + 1 }

def Shm.dropInst (s : Shm) : Shm := { s with nInsts := s.nInsts - 1 }

structure ShmInstance where
  ptr : Nat
  target : Nat
  vaddr : Nat
  pid : Nat
  deriving DecidableEq

structure FileInstance where
  shm : Nat
  hid : Nat
  pid : Nat
  deriving DecidableEq

structure Memfsf where
  id : Nat
  name : String
  instances : List FileInstance
  kernel : Bool
  deriving DecidableEq

abbrev Directories := Nat -> Option (Nat -> Option Nat)

def Directories.slot (dirs : Directories) (pid i : Nat) : Option Nat := (dirs pid).bind fun d => d i

structure Freed where
  pd : Nat
  dirs : Directories

structure World where
  shms : List Shm
  -- an `int` in the source
  cur : Nat
  instances : List ShmInstance
  nextPtr : Nat
  dirs : Directories
  files : List Memfsf
  freed : List Freed

def getShm (w : World) (id : Nat) : Option Shm := lookup Shm.id w.shms id

def shmIndex (shms : List Shm) (id : Nat) : Nat := shms.findIdx fun s => s.id = id

-- The last record is not removed: `n_shms` goes down only with the move.
def removeShm (shms : List Shm) (id : Nat) : List Shm :=
  if shmIndex shms id + 1 ≠ shms.length then swapRemove shms (shmIndex shms id) else shms

def freeSlot (d : Nat -> Option Nat) : Nat -> Nat -> Option Nat
  | 0, _ => none
  | fuel + 1, i => if d i = none then some i else freeSlot d fuel (i + 1)

def slotAddress (i : Nat) : Nat := userSharedBegin ||| (i * pageR1Size)

def mapShm (w : World) (pd pid : Nat) : Option (Directories × Nat) :=
  match w.dirs pid with
  | none => none
  | some d =>
    match freeSlot d 512 0 with
    | none => none
    | some i => some (update w.dirs pid (some (update d i (some pd))), slotAddress i)

def unmapShm (w : World) (pid vaddr : Nat) : Except Fault Directories :=
  match w.dirs pid with
  | none => .error .noProcess
  | some d =>
    if vaddr < userSharedBegin ∨ userSharedEnd - pageR1Size < vaddr then .error .outsideShared
    else
      let i := (vaddr - userSharedBegin) / pageR1Size
      if d i = none then .error .notPresent
      else .ok (update w.dirs pid (some (update d i none)))

def newInstance (w : World) (target vaddr pid : Nat) : World :=
  { w with instances := w.instances ++ [{ ptr := w.nextPtr, target, vaddr, pid }], nextPtr := w.nextPtr + 1 }

def insertShm (w : World) (pd size : Nat) (pfree : Bool) : World :=
  { w with
    cur := w.cur + 1
    shms := w.shms ++ [{ id := w.cur + 1, nInsts := 1, pdPaddr := pd, size, pfree }] }

def shmCreateFromKernel (w : World) (initialSize pd : Nat) (pfree : Bool) : World :=
  if initialSize = 0 ∨ shmSizeMax < initialSize ∨ pd = 0 then w
  else newInstance (insertShm w pd initialSize pfree) (w.cur + 1) 0 kernelPid

-- The address that the instance gets is the outer `vaddr`, which is `NULL`.
def shmCreate (w : World) (initialSize pid pd : Nat) : World × Bool :=
  if initialSize = 0 ∨ shmSizeMax < initialSize ∨ pd = 0 then (w, false)
  else
    let inserted := insertShm w pd initialSize true
    match mapShm inserted pd pid with
    | none => ({ inserted with shms := removeShm inserted.shms (w.cur + 1) }, false)
    | some (dirs, _) => (newInstance { inserted with dirs } (w.cur + 1) 0 pid, true)

def shmOpen (w : World) (id pid : Nat) : World × Bool :=
  match getShm w id with
  | none => (w, false)
  | some s =>
    match mapShm w s.pdPaddr pid with
    | none => (w, false)
    | some (dirs, vaddr) =>
      (newInstance { w with dirs, shms := modify Shm.id id Shm.addInst w.shms } id vaddr pid, true)

def releaseShm (w : World) (s : Shm) : World :=
  let shms := modify Shm.id s.id Shm.dropInst w.shms
  if s.nInsts - 1 = 0 then
    { w with shms := removeShm shms s.id, freed := w.freed ++ [{ pd := s.pdPaddr, dirs := w.dirs }] }
  else { w with shms }

-- `proc` is the process of the instance, and `NULL` for an instance of the kernel.
def unmapInstance (w : World) (ins : ShmInstance) : Except Fault Directories :=
  if ins.pid = kernelPid then .ok w.dirs else unmapShm w ins.pid ins.vaddr

def shmClose (w : World) (ptr : Nat) : Except Fault World :=
  match lookup ShmInstance.ptr w.instances ptr with
  | none => .error .badPointer
  | some ins =>
    match getShm w ins.target with
    | none => .error .noShm
    | some s =>
      if s.nInsts = 0 then .error .noInstances
      else do
        let released := releaseShm w s
        let dirs ← unmapInstance released ins
        return { released with dirs, instances := remove ShmInstance.ptr ptr released.instances }

def memfsRegisterFile (w : World) (name : String) (id : Nat) : World :=
  { w with files := w.files ++ [{ id, name, instances := [], kernel := true }] }

def findFile (w : World) (id : Nat) : Option Memfsf := lookup Memfsf.id w.files id

def setInstances (w : World) (id : Nat) (instances : List FileInstance) : World :=
  { w with files := modify Memfsf.id id (fun f => { f with instances }) w.files }

def memfsOpenInstance (w : World) (addr hid pid : Nat) : Except Fault World :=
  match findFile w addr with
  | none => .error .noFile
  | some file =>
    if (file.instances.find? fun fi => fi.pid = pid).isSome then .ok w
    else
      let (opened, found) := shmOpen w addr pid
      if found then .ok (setInstances opened addr (file.instances ++ [{ shm := w.nextPtr, hid, pid }]))
      else .error .noShm

def closeInstance (w : World) (addr hid : Nat) : Except Fault World :=
  match findFile w addr with
  | none => .error .noFile
  | some file =>
    let i := file.instances.findIdx fun fi => fi.hid = hid
    if i < file.instances.length then .ok (setInstances w addr (swapRemove file.instances i))
    else .error .noInstance

def closeFile (w : World) (addr : Nat) : Except Fault World :=
  match findFile w addr with
  | none => .error .noFile
  | some file =>
    if file.instances ≠ [] then .error .openInstances
    else if file.kernel then .ok w
    else .ok { w with files := swapRemove w.files (w.files.findIdx fun f => f.id = addr) }

def addDirent (w : World) (dirAddr : Nat) (name : String) (regular : Bool) (pid pd : Nat) : Except Fault World :=
  if pid = kernelPid then .error .kernelProcess
  else if dirAddr ≠ 0 ∨ !regular then .ok w
  else
    let (created, done) := shmCreate w 1 pid pd
    if done then .ok (memfsRegisterFile created name (w.cur + 1)) else .error .noShm

inductive Action where
  | createFromKernel (initialSize pd : Nat) (pfree : Bool)
  | create (initialSize pid pd : Nat)
  | openShm (id pid : Nat)
  | close (ptr : Nat)
  | registerFile (name : String) (id : Nat)
  | addDirent (dirAddr : Nat) (name : String) (regular : Bool) (pid pd : Nat)
  | openInstance (addr hid pid : Nat)
  | closeInstance (addr hid : Nat)
  | closeFile (addr : Nat)
  | spawn (pid : Nat)
  | exit (pid : Nat)

/-- A page directory that is shared is not shared again; a process that is freed has closed its instances. -/
def Allowed (w : World) : Action -> Prop
  | .createFromKernel _ pd _ => ∀ s ∈ w.shms, s.pdPaddr ≠ pd
  | .create _ _ pd => ∀ s ∈ w.shms, s.pdPaddr ≠ pd
  | .addDirent _ _ _ _ pd => ∀ s ∈ w.shms, s.pdPaddr ≠ pd
  | .spawn pid => pid ≠ kernelPid ∧ w.dirs pid = none
  | .exit pid => ∀ ins ∈ w.instances, ins.pid ≠ pid
  | _ => True

def perform (w : World) : Action -> Except Fault World
  | .createFromKernel initialSize pd pfree => .ok (shmCreateFromKernel w initialSize pd pfree)
  | .create initialSize pid pd => .ok (shmCreate w initialSize pid pd).1
  | .openShm id pid => .ok (shmOpen w id pid).1
  | .close ptr => shmClose w ptr
  | .registerFile name id => .ok (memfsRegisterFile w name id)
  | .addDirent dirAddr name regular pid pd => addDirent w dirAddr name regular pid pd
  | .openInstance addr hid pid => memfsOpenInstance w addr hid pid
  | .closeInstance addr hid => closeInstance w addr hid
  | .closeFile addr => closeFile w addr
  | .spawn pid => .ok { w with dirs := update w.dirs pid (some fun _ => none) }
  | .exit pid => .ok { w with dirs := update w.dirs pid none }

def start : World := { shms := [], cur := 0, instances := [], nextPtr := 0, dirs := fun _ => none, files := [], freed := [] }

def Step (w w' : World) : Prop := ∃ action, Allowed w action ∧ perform w action = .ok w'

/-- A call that creates an object fails before it inserts the record; the last instance of an object is the kernel's own, and
then the record is not the last one. -/
def Proper (w : World) : Action -> Prop
  | .create initialSize _ pd => initialSize = 0 ∨ shmSizeMax < initialSize ∨ pd = 0
  | .addDirent dirAddr _ regular _ _ => dirAddr ≠ 0 ∨ regular = false
  | .close ptr =>
    ∀ ins s, lookup ShmInstance.ptr w.instances ptr = some ins -> getShm w ins.target = some s ->
      s.nInsts = 1 -> ins.pid = kernelPid ∧ shmIndex w.shms s.id + 1 ≠ w.shms.length
  | _ => True

def ProperStep (w w' : World) : Prop :=
  ∃ action, Allowed w action ∧ Proper w action ∧ perform w action = .ok w'

/-- What is claimed of the counts, the slots and the frames. The kernel's own instances have no slot. -/
structure Shared (w : World) : Prop where
  counts : ∀ s ∈ w.shms, s.nInsts = w.instances.countP fun ins => ins.target = s.id
  positive : ∀ s ∈ w.shms, 0 < s.nInsts
  live : ∀ ins ∈ w.instances, ∃ s ∈ w.shms, s.id = ins.target
  ids : (w.shms.map Shm.id).Nodup
  slots : ∀ ins ∈ w.instances, ins.pid ≠ kernelPid -> ∃ s ∈ w.shms, s.id = ins.target ∧
    ∃ i < 512, ins.vaddr = slotAddress i ∧ w.dirs.slot ins.pid i = some s.pdPaddr
  freed : ∀ f ∈ w.freed, ∀ pid i, f.dirs.slot pid i ≠ some f.pd

end Bincows.SharedMemory
