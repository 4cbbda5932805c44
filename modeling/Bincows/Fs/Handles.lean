import Bincows.Shared.Execution
import Bincows.Shared.Keyed

set_option autoImplicit false

/-! The handles of `vfs_files.c` for a file system with `cacheable = 1`, FAT32. `content` is the bytes of each file by its
address; a file without one gets it with its first write. Calls come one after the other. -/

namespace Bincows.Vfs

open Keyed

inductive Fault where
  | noHandle (handle : Nat)
  | noVfile (id : Nat)
  | useAfterFree (handle : Nat)
  | noAddr
  | sectorOffset
  | outsideBuffer
  | writeSize
  | readSize
  deriving DecidableEq

structure Flags where
  read : Bool
  write : Bool
  append : Bool
  seekable : Bool
  truncatable : Bool
  deriving DecidableEq

structure Handle (A : Type) where
  handleId : Nat
  bufferValid : Bool
  sectorOffset : Nat
  sectorCount : Nat
  fileOffset : Nat
  sectorBuff : Nat -> A
  vfileId : Nat
  flags : Flags

structure FileEnt (P : Type) where
  addr : Nat
  fileSize : Nat
  id : Nat
  path : P
  modified : Bool
  fhs : List Nat

structure Dirent where
  ino : Nat
  fileSize : Nat
  isRegular : Bool
  readable : Bool
  writable : Bool
  seekable : Bool
  truncatable : Bool
  deriving DecidableEq

structure State (A P : Type) where
  openFiles : List (FileEnt P)
  curId : Nat
  handles : List (Handle A)
  nextHandle : Nat
  content : Nat -> Nat -> A

variable {A P : Type} (gran : Nat)

def getHandle (s : State A P) (handle : Nat) : Except Fault (Handle A) :=
  match lookup Handle.handleId s.handles handle with
  | some h => .ok h
  | none => .error (.noHandle handle)

def setHandle (s : State A P) (h : Handle A) : State A P :=
  { s with handles := modify Handle.handleId h.handleId (fun _ => h) s.handles }

def acquireVfile (s : State A P) (id : Nat) : Except Fault (FileEnt P) :=
  match lookup FileEnt.id s.openFiles id with
  | some e => .ok e
  | none => .error (.noVfile id)

def setVfile (s : State A P) (e : FileEnt P) : State A P :=
  { s with openFiles := modify FileEnt.id e.id (fun _ => e) s.openFiles }

def searchOrInsertFile (s : State A P) (addr fileLen : Nat) (path : P) : State A P × Nat :=
  match s.openFiles.find? fun e => e.addr = addr with
  | some e => (s, e.id)
  | none =>
    let e := { addr, fileSize := fileLen, id := s.curId + 1, path, modified := false, fhs := [] }
    ({ s with openFiles := s.openFiles ++ [e], curId := s.curId + 1 }, s.curId + 1)

def registerHandleToVfile (s : State A P) (vfileId : Nat) (h : Handle A) : Except Fault (State A P) := do
  let e ← acquireVfile s vfileId
  let s := setVfile s { e with fhs := e.fhs ++ [h.handleId] }
  return { s with handles := s.handles ++ [{ h with vfileId }] }

-- `sector_buff` starts with what the heap block holds.
def createHandler (s : State A P) (dirent : Dirent) (path : P) (flags : Flags)
    (garbage : Nat -> A) : Except Fault (State A P × Handle A) := do
  let handle : Handle A :=
    { handleId := s.nextHandle
      bufferValid := false
      sectorOffset := 0
      sectorCount := 0
      fileOffset := 0
      sectorBuff := garbage
      vfileId := 0
      flags }
  let s := { s with nextHandle := s.nextHandle + 1 }
  let (s, vfileId) := searchOrInsertFile s dirent.ino dirent.fileSize path
  let s ← registerHandleToVfile s vfileId handle
  return (s, { handle with vfileId })

def setStreamOffset (h : Handle A) (absoluteOffset : Nat) : Handle A :=
  { h with
    fileOffset := absoluteOffset
    sectorOffset := absoluteOffset % gran
    sectorCount := absoluteOffset / gran
    bufferValid := false }

-- `none` for a null pointer.
def vfsOpenFileFrom (s : State A P) (dirent : Dirent) (path : P) (flags : Flags)
    (garbage : Nat -> A) : Except Fault (State A P × Option Nat) :=
  if ¬ dirent.isRegular then .ok (s, none)
  else if flags.write ∧ ¬ dirent.writable then .ok (s, none)
  else if flags.read ∧ ¬ dirent.readable then .ok (s, none)
  else do
    let flags :=
      { flags with
        seekable := flags.seekable || dirent.seekable
        truncatable := flags.truncatable || dirent.truncatable }
    let (s, h) ← createHandler s dirent path flags garbage
    let s := if flags.append then setHandle s (setStreamOffset gran h dirent.fileSize) else s
    return (s, some h.handleId)

def vfsHandleDup (s : State A P) (source : Nat) (garbage : Nat -> A) : Except Fault (State A P × Nat) := do
  let h ← getHandle s source
  let hid := s.nextHandle
  let s := { s with nextHandle := s.nextHandle + 1 }
  let new := { h with handleId := hid, bufferValid := false, sectorBuff := garbage }
  let s ← registerHandleToVfile s h.vfileId new
  return (s, hid)

def invalidateHandlersBuffer (s : State A P) (self : Nat) : List Nat -> Except Fault (State A P)
  | [] => .ok s
  | handle :: rest =>
    if handle = self then invalidateHandlersBuffer s self rest
    else
      match lookup Handle.handleId s.handles handle with
      | none => .error (.useAfterFree handle)
      | some h => invalidateHandlersBuffer (setHandle s { h with bufferValid := false }) self rest

def updateVfile (s : State A P) (vfileId addr fileSize updater : Nat) : Except Fault (State A P) := do
  let e ← acquireVfile s vfileId
  let s ← invalidateHandlersBuffer s updater e.fhs
  return setVfile s { e with addr, fileSize }

structure FlushArgs (P : Type) where
  path : P
  addr : Nat
  fileSize : Nat

def flush (vfile : FileEnt P) : Option (FlushArgs P) :=
  if vfile.modified then some ⟨vfile.path, vfile.addr, vfile.fileSize⟩ else none

/-- Closing the last handle of a file gives its metadata to be flushed. The freed handle stays in `fhs`. -/
def vfsCloseFile (s : State A P) (handle : Nat) : Except Fault (State A P × Option (FlushArgs P)) := do
  let h ← getHandle s handle
  let e ← acquireVfile s h.vfileId
  let e := { e with fhs := e.fhs.dropLast, modified := e.modified || h.flags.write }
  let handles := remove Handle.handleId handle s.handles
  if e.fhs = [] then
    return ({ s with openFiles := remove FileEnt.id e.id s.openFiles, handles }, flush e)
  else return (setVfile { s with handles } e, none)

def readFileSectors (s : State A P) (addr begin : Nat) : Except Fault (Nat -> A) :=
  if addr = 0 then .error .noAddr else .ok fun k => s.content addr (begin * gran + k)

inductive ReadResult (A : Type) where
  | refused
  | bytes (data : List A)

def copyFrom (buf : Nat -> A) (first count : Nat) : List A :=
  (List.range count).map fun k => buf (first + k)

def readBuffered (h : Handle A) (bsize : Nat) : Handle A × List A :=
  let unalignedSize := min (gran - h.sectorOffset) bsize
  let data := copyFrom h.sectorBuff h.sectorOffset unalignedSize
  let h := { h with sectorOffset := h.sectorOffset + unalignedSize, fileOffset := h.fileOffset + unalignedSize }
  if h.sectorOffset = gran then
    ({ h with sectorOffset := 0, bufferValid := false, sectorCount := h.sectorCount + 1 }, data)
  else (h, data)

def readUnbuffered (s : State A P) (addr : Nat) (h : Handle A) (bsize : Nat) : Except Fault (Handle A × List A) := do
  let mustRead := (h.sectorOffset + bsize) % 2 ^ 32
  let readBlocks := (mustRead + gran - 1) % 2 ^ 32 / gran
  let endOffset := mustRead % gran
  let readBufSize := readBlocks * gran % 2 ^ 32
  let readBuf ← readFileSectors gran s addr h.sectorCount
  if readBlocks * gran < h.sectorOffset + bsize then .error .outsideBuffer
  else
    let h := if endOffset ≠ 0 then
        { h with sectorBuff := fun k => readBuf (readBufSize - gran + k), bufferValid := true }
      else h
    let fileOffset := (h.fileOffset + bsize) % 2 ^ 64
    return ({ h with sectorOffset := endOffset, fileOffset, sectorCount := fileOffset / gran },
      copyFrom readBuf h.sectorOffset bsize)

def vfsReadFile (s : State A P) (handle size : Nat) : Except Fault (State A P × ReadResult A) := do
  let h ← getHandle s handle
  if ¬ h.flags.read then return (s, .refused)
  else
    let file ← acquireVfile s h.vfileId
    if file.fileSize ≠ 2 ^ 64 - 1 ∧ file.fileSize ≤ h.fileOffset then return (s, .bytes [])
    else
      let maxRead := (file.fileSize + 2 ^ 64 - h.fileOffset) % 2 ^ 64
      let bsize := min size maxRead % 2 ^ 32
      if bsize = 0 then return (s, .bytes [])
      else if h.bufferValid then
        if gran < h.sectorOffset then .error .sectorOffset
        else
          let (h', first) := readBuffered gran h bsize
          let bsize := bsize - first.length
          if bsize = 0 then return (setHandle s h', .bytes first)
          else if h'.sectorOffset ≠ 0 ∨ h'.fileOffset ≠ gran * h'.sectorCount then .error .sectorOffset
          else
            let (h', rest) ← readUnbuffered gran s file.addr h' bsize
            if file.fileSize < bsize then .error .readSize else return (setHandle s h', .bytes (first ++ rest))
      else
        let (h', data) ← readUnbuffered gran s file.addr h bsize
        if file.fileSize < bsize then .error .readSize else return (setHandle s h', .bytes data)

structure WriteEnv (A : Type) where
  /-- The bytes of a new heap block. -/
  garbage : Nat -> A
  /-- The address of the file, if it had none. -/
  newAddr : Nat
  /-- How many sectors fit on the drive. -/
  stored : Nat

def overlay (buf : Nat -> A) (first count : Nat) (data : Nat -> A) (k : Nat) : A :=
  if first ≤ k ∧ k < first + count then data (k - first) else buf k

def writeFileSectors (s : State A P) (env : WriteEnv A) (addr begin n : Nat) (buf : Nat -> A) : State A P × Nat :=
  let addr := if addr = 0 then env.newAddr else addr
  let stored := overlay (s.content addr) (begin * gran) (min env.stored n * gran) buf
  ({ s with content := Function.update s.content addr stored }, addr)

inductive WriteResult where
  | refused
  | written (size : Nat)
  deriving DecidableEq

structure WritePlan where
  writeBlocks : Nat
  endOffset : Nat

def writePlan (h : Handle A) (size : Nat) : WritePlan :=
  let mustWrite := (h.sectorOffset + size) % 2 ^ 32
  { writeBlocks := (mustWrite + gran - 1) % 2 ^ 32 / gran, endOffset := mustWrite % gran }

-- The condition for reading the first sector before it is written.
def needsFirst (h : Handle A) (fileSize size : Nat) : Bool :=
  (h.sectorOffset ≠ 0 ∧ h.fileOffset - h.sectorOffset < fileSize) ∨
    (h.sectorOffset + size < gran ∧ (h.fileOffset + size) % 2 ^ 64 < fileSize)

def loadFirst (s : State A P) (addr fileSize : Nat) (h : Handle A) (size : Nat) (buf : Nat -> A) : Except Fault (Nat -> A) :=
  if ¬ needsFirst gran h fileSize size then .ok buf
  else if ¬ h.bufferValid then do
    let sector ← readFileSectors gran s addr h.sectorCount
    return overlay buf 0 gran sector
  else
    let buf := overlay buf 0 h.sectorOffset h.sectorBuff
    let next := size + h.sectorOffset
    .ok (overlay buf next (gran - next) fun k => h.sectorBuff (next + k))

def loadLast (s : State A P) (addr fileSize : Nat) (h : Handle A) (size : Nat) (plan : WritePlan)
    (buf : Nat -> A) : Except Fault (Handle A × (Nat -> A)) :=
  if h.sectorCount + plan.writeBlocks - 1 = h.sectorCount then .ok (h, buf)
  else
    let h := { h with bufferValid := false }
    if plan.endOffset ≠ 0 ∧ (h.fileOffset + size) % 2 ^ 64 < fileSize then do
      let sector ← readFileSectors gran s addr (h.sectorCount + plan.writeBlocks - 1)
      return ({ h with bufferValid := true, sectorBuff := sector }, overlay buf (plan.writeBlocks * gran - gran) gran sector)
    else .ok (h, buf)

def writeBuffer (s : State A P) (env : WriteEnv A) (addr fileSize : Nat) (h : Handle A)
    (data : List A) (plan : WritePlan) : Except Fault (Handle A × (Nat -> A)) :=
  let source := fun k => data[k]?.getD (env.garbage k)
  if h.sectorOffset = 0 ∧ plan.endOffset = 0 then .ok (h, source)
  else do
    let buf ← loadFirst gran s addr fileSize h data.length env.garbage
    let (h, buf) ← loadLast gran s addr fileSize h data.length plan buf
    return (h, overlay buf h.sectorOffset data.length source)

-- The handle as the write starts: at the end of the file in append mode.
def writeStart (h : Handle A) (fileSize : Nat) : Handle A :=
  if h.flags.append then setStreamOffset gran h fileSize else h

def grows (h : Handle A) (fileSize size : Nat) : Prop :=
  fileSize ≠ 2 ^ 64 - 1 ∧ fileSize < (h.fileOffset + size) % 2 ^ 64

instance (h : Handle A) (fileSize size : Nat) : Decidable (grows h fileSize size) :=
  inferInstanceAs (Decidable (_ ∧ _))

def vfsWriteFile (s : State A P) (handle : Nat) (data : List A) (env : WriteEnv A) :
    Except Fault (State A P × WriteResult) := do
  let h ← getHandle s handle
  if ¬ h.flags.write then return (s, .refused)
  else if data = [] then return (s, .written 0)
  else
    let file ← acquireVfile s h.vfileId
    let h := writeStart gran h file.fileSize
    let plan := writePlan gran h data.length
    if plan.writeBlocks * gran < h.sectorOffset + data.length then .error .writeSize
    else
      let (h', buf) ← writeBuffer gran s env file.addr file.fileSize h data plan
      let (s, addr) := writeFileSectors gran s env file.addr h.sectorCount plan.writeBlocks buf
      let fileOffset := (h.fileOffset + data.length) % 2 ^ 64
      let s := setHandle s { h' with sectorOffset := plan.endOffset, fileOffset, sectorCount := fileOffset / gran }
      if grows h file.fileSize data.length ∨ addr ≠ file.addr then
        let fileSize := if grows h file.fileSize data.length then fileOffset else file.fileSize
        let s ← updateVfile s file.id addr fileSize handle
        return (s, .written data.length)
      else return (s, .written data.length)

inductive Whence where
  | set
  | cur
  | fromEnd
  | other
  deriving DecidableEq

-- `none` for `-1`.
def vfsSeekFile (s : State A P) (handle offset : Nat) (whence : Whence) : Except Fault (State A P × Option Nat) := do
  let h ← getHandle s handle
  if ¬ h.flags.seekable then return (s, none)
  else
    match whence with
    | .other => return (s, none)
    | .set => return (setHandle s (setStreamOffset gran h offset), some offset)
    | .cur =>
      let absoluteOffset := (offset + h.fileOffset) % 2 ^ 64
      return (setHandle s (setStreamOffset gran h absoluteOffset), some absoluteOffset)
    | .fromEnd =>
      let file ← acquireVfile s h.vfileId
      let absoluteOffset := (offset + file.fileSize) % 2 ^ 64
      return (setHandle s (setStreamOffset gran h absoluteOffset), some absoluteOffset)

end Bincows.Vfs
