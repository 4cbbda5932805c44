import Bincows.Fs.Handles
import Bincows.Fs.DirectoryTrees

set_option autoImplicit false

/-! The open file table for every mounted file system, with the directory cache and the directories
on the disks. Handles are the record they refer to and whether they may write; what a write stores is left out. -/

namespace Bincows.Vfs.OpenTable

open Keyed

variable {F : Type}

structure VFile (F : Type) where
  fs : F
  addr : Nat
  fileSize : Nat
  id : Nat
  path : Str
  modified : Bool
  nInsts : Nat

structure OpenHandle where
  handleId : Nat
  vfileId : Nat
  write : Bool
  deriving DecidableEq

structure VfsState (F : Type) where
  files : F -> FileSystem
  cache : DirCache F
  openFiles : List (VFile F)
  curId : Nat
  handles : List OpenHandle
  nextHandle : Nat
  lazyFlush : List (FlushArgs Str)

structure OpenFlags where
  read : Bool
  write : Bool
  create : Bool

-- What `strrchr` points behind.
def lastName (path : Str) : Str := (path.reverse.takeWhile (· ≠ '/')).reverse

def acquireVfile (v : VfsState F) (id : Nat) : Except VfsFault (VFile F) :=
  match lookup VFile.id v.openFiles id with
  | some e => .ok e
  | none => .error .noVfile

def handleOf (v : VfsState F) (handle : Nat) : Except VfsFault OpenHandle :=
  match lookup OpenHandle.handleId v.handles handle with
  | some h => .ok h
  | none => .error .noHandle

def registerHandleToVfile (v : VfsState F) (vfileId : Nat) (write : Bool) : Except VfsFault (VfsState F) := do
  let e ← acquireVfile v vfileId
  return { v with
    openFiles := modify VFile.id e.id (fun e => { e with nInsts := e.nInsts + 1 }) v.openFiles
    handles := v.handles ++ [{ handleId := v.nextHandle, vfileId, write }]
    nextHandle := v.nextHandle + 1 }

def vfsUpdateMetadataCache (cache : DirCache F) (path : Str) (addr fileSize : Nat) : Except VfsFault (DirCache F) :=
  match getCacheEntry cache (simplifyPath path) with
  | none => .ok cache
  | some ent =>
    if ent.entry.type ≠ .reg then .error .notRegular
    else .ok (Function.update cache (cacheSlot (simplifyPath path))
      (some { ent with entry := { ent.entry with ino := addr, fileSize } }))

variable [DecidableEq F]

def searchOrInsertFile (v : VfsState F) (fs : F) (addr fileLen : Nat) (path : Str) : VfsState F × Nat :=
  match v.openFiles.find? fun e => e.addr = addr ∧ e.fs = fs with
  | some e => (v, e.id)
  | none =>
    let e := { fs, addr, fileSize := fileLen, id := v.curId + 1, path, modified := false, nInsts := 0 }
    ({ v with openFiles := v.openFiles ++ [e], curId := v.curId + 1 }, v.curId + 1)

variable (tree : Mounts F)

def lookupPath (v : VfsState F) (path : Str) : Except VfsFault (VfsState F × Option (F × FastDirent)) :=
  match vfsOpen v.files tree path v.cache with
  | .error fault => .error (.lookup fault)
  | .ok (cache, found) => .ok ({ v with cache }, found)

def listPath (v : VfsState F) (path : Str) : Except VfsFault (VfsState F) :=
  match vfsOpendir v.files tree path v.cache with
  | .error fault => .error (.lookup fault)
  | .ok (cache, _) => .ok { v with cache }

-- `true` for the return value 0.
def vfsCreate (v : VfsState F) (path : Str) : Except VfsFault (VfsState F × Bool) := do
  let pathbuf := simplifyPath path
  let (v, parent) ← lookupPath tree v (cutLast pathbuf)
  if lastName pathbuf = [] then .error .noName
  else
    match parent with
    | none => return (v, false)
    | some (fs, parentdir) =>
      if parentdir.type ≠ .dir then return (v, false)
      else
        let changed := (v.files fs).addDirent parentdir.ino (lastName pathbuf)
        return ({ v with files := Function.update v.files fs changed }, true)

def openedEntry (v : VfsState F) (path : Str) (flags : OpenFlags) :
    Except VfsFault (VfsState F × Option (F × FastDirent)) := do
  let (v, found) ← lookupPath tree v path
  match found with
  | some point => return (v, some point)
  | none =>
    if ¬ flags.create then return (v, none)
    else
      let (v, created) ← vfsCreate tree v path
      if ¬ created then return (v, none)
      else
        let (v, found) ← lookupPath tree v path
        match found with
        | none => .error .notFound
        | some point => return (v, some point)

def vfsOpenFileFrom (v : VfsState F) (fs : F) (dirent : FastDirent) (path : Str)
    (flags : OpenFlags) : Except VfsFault (VfsState F) :=
  if dirent.type ≠ .reg then .ok v
  else if flags.write ∧ ¬ dirent.rights.testBit 1 then .ok v
  else if flags.read ∧ ¬ dirent.rights.testBit 0 then .ok v
  else
    let (v, vfileId) := searchOrInsertFile v fs dirent.ino dirent.fileSize path
    registerHandleToVfile v vfileId flags.write

def vfsOpenFile (v : VfsState F) (path : Str) (flags : OpenFlags) : Except VfsFault (VfsState F) := do
  let (v, found) ← openedEntry tree v path flags
  match found with
  | none => return v
  | some (fs, dirent) => vfsOpenFileFrom v fs dirent path flags

omit [DecidableEq F] in
def vfsHandleDup (v : VfsState F) (source : Nat) : Except VfsFault (VfsState F) := do
  let h ← handleOf v source
  registerHandleToVfile v h.vfileId h.write

def vfsWriteFile (v : VfsState F) (handle addr fileSize : Nat) : Except VfsFault (VfsState F) := do
  let h ← handleOf v handle
  if ¬ h.write then return v
  else
    let e ← acquireVfile v h.vfileId
    return { v with openFiles := modify VFile.id e.id (fun e => { e with addr, fileSize }) v.openFiles }

def flush (v : VfsState F) (e : VFile F) : Except VfsFault (VfsState F) :=
  if ¬ e.modified then .ok v
  else do
    let cache ← vfsUpdateMetadataCache v.cache e.path e.addr e.fileSize
    return { v with cache, lazyFlush := v.lazyFlush ++ [{ path := e.path, addr := e.addr, fileSize := e.fileSize }] }

def vfsCloseFile (v : VfsState F) (handle : Nat) : Except VfsFault (VfsState F) := do
  let h ← handleOf v handle
  let e ← acquireVfile v h.vfileId
  let e := { e with nInsts := e.nInsts - 1, modified := e.modified || h.write }
  let v := { v with handles := remove OpenHandle.handleId handle v.handles }
  if e.nInsts = 0 then
    let v ← flush v e
    return { v with openFiles := remove VFile.id e.id v.openFiles }
  else return { v with openFiles := modify VFile.id e.id (fun _ => e) v.openFiles }

def vfsUpdateMetadataDisk (v : VfsState F) (args : FlushArgs Str) : Except VfsFault (VfsState F) := do
  let pathbuf := simplifyPath args.path
  let parentPath := if cutLast pathbuf = [] then ['/'] else cutLast pathbuf
  let (v, found) ← lookupPath tree v parentPath
  match found with
  | none => .error .notFound
  | some (fs, parent) =>
    if parent.type ≠ .dir then .error .notDirectory
    else if parent.fileSize ≠ 0 then .error .directorySize
    else
      let changed ← (v.files fs).updateDirent parent.ino (lastName pathbuf) args.addr args.fileSize
      return { v with files := Function.update v.files fs changed }

def vfsLazyFlush (v : VfsState F) : Except VfsFault (VfsState F) :=
  v.lazyFlush.foldlM (vfsUpdateMetadataDisk tree) { v with lazyFlush := [] }

end Bincows.Vfs.OpenTable
