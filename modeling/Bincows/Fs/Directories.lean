import Bincows.Fs.Mounts

set_option autoImplicit false

/-! The directory cache and the path lookup of `vfs_dirs.c`. A file system is what its `read_dir` tells. Listing a directory
puts its entries into the cache; an entry goes when another path with its hash comes in. -/

namespace Bincows.Vfs

inductive FileType where
  | dir
  | reg
  | other
  deriving DecidableEq

structure FastDirent where
  ino : Nat
  fileSize : Nat
  type : FileType
  rights : Nat
  deriving DecidableEq

structure DirEntry where
  name : Str
  fast : FastDirent
  deriving DecidableEq

structure FileSystem where
  rootAddr : Nat
  readDir : Nat -> List DirEntry

structure DirCacheEnt (F : Type) where
  path : Str
  fs : F
  entry : FastDirent
  deriving DecidableEq

abbrev DirCache (F : Type) := Nat -> Option (DirCacheEnt F)

inductive DirFault where
  | pathTooLong
  | notDirectory
  | noRights
  | otherFs
  deriving DecidableEq

def maxPath : Nat := 4095

def cacheSize : Nat := 4096

def byteOf (c : Char) : Nat := c.toNat % 2 ^ 8

def pathHashFrom (i res : Nat) : Str -> Nat
  | a :: b :: rest =>
    let entropyBits := byteOf a ^^^ (byteOf b <<< 4)
    let entropyBits := entropyBits ^^^ (entropyBits <<< 4)
    pathHashFrom (i + 1) ((res ^^^ (entropyBits + i)) &&& 8191) rest
  | _ => res

def pathHash (path : Str) : Nat := pathHashFrom 0 0 path

def cacheSlot (path : Str) : Nat := pathHash path &&& (cacheSize - 1)

section lookup

variable {F : Type}

def emptyCache : DirCache F := fun _ => none

def addCacheEntry (cache : DirCache F) (path : Str) (fs : F) (dent : FastDirent) : DirCache F :=
  Function.update cache (cacheSlot path) (some { path, fs, entry := dent })

def getCacheEntry (cache : DirCache F) (path : Str) : Option (DirCacheEnt F) :=
  (cache (cacheSlot path)).filter (·.path = path)

def cacheListing (fs : F) (dirPath : Str) (cache : DirCache F) (ents : List DirEntry) : Except DirFault (DirCache F) :=
  ents.foldlM (fun cache dent =>
    if dent.name.length + dirPath.length + 1 < maxPath then
      .ok (addCacheEntry cache (dirPath ++ '/' :: dent.name) fs dent.fast)
    else .error .pathTooLong) cache

variable (files : F -> FileSystem)

def readDir (fs : F) (ino : Nat) (dirPath : Str) (cache : DirCache F) : Except DirFault (DirCache F × List DirEntry) := do
  let ents := (files fs).readDir ino
  let cache ← cacheListing fs dirPath cache ents
  .ok (cache, ents)

def findFsChild (fs : F) (parent : FastDirent) (name parentPath : Str) (cache : DirCache F) :
    Except DirFault (DirCache F × Option FastDirent) :=
  if parent.type ≠ .dir then .error .notDirectory
  else do
    let (cache, ents) ← readDir files fs parent.ino parentPath cache
    match ents.find? (·.name = name) with
    | none => .ok (cache, none)
    | some ent => if ent.fast.type = .dir ∨ ent.fast.rights ≠ 0 then .ok (cache, some ent.fast) else .error .noRights

variable [DecidableEq F]

/-- The loop of `vfs_open`. `pre` is the path buffer up to `name_sep`, the character in front of the first of the
names; a miss writes a `/` over that character. With the entry comes the buffer. -/
def openFrom (fs : F) (cur : FastDirent) (pre : Str) (cache : DirCache F) :
    List Str -> Except DirFault (DirCache F × Option (Str × FastDirent))
  | [] => .ok (cache, some (pre.dropLast, cur))
  | name :: names =>
    match getCacheEntry cache (pre ++ name) with
    | some ent => if ent.fs ≠ fs then .error .otherFs else openFrom fs ent.entry (pre ++ name ++ ['/']) cache names
    | none => do
      let (cache, child) ← findFsChild files fs cur name pre.dropLast cache
      match child with
      | none => .ok (cache, none)
      | some child => openFrom fs child (pre.dropLast ++ '/' :: name ++ ['/']) cache names

def rootDirent (fs : FileSystem) : FastDirent :=
  { ino := fs.rootAddr, fileSize := 0, type := .dir, rights := 0 }

def parentBuffer (m path : Str) : Str :=
  if (path.drop m.length).head? = some '/' then m ++ ['/'] else m

/-- `none` is `FS_NO`. -/
def vfsOpen (tree : Mounts F) (path : Str) (cache : DirCache F) : Except DirFault (DirCache F × Option (F × FastDirent)) :=
  let pathbuf := simplifyPath path
  match getCacheEntry cache pathbuf with
  | some ent => .ok (cache, some (ent.fs, ent.entry))
  | none =>
    match getFsVdir tree pathbuf with
    | none => .ok (cache, none)
    | some (m, fs) =>
      if pathbuf.drop m.length = [] then .ok (cache, some (fs, rootDirent (files fs)))
      else do
        let (cache, found) ← openFrom files fs (rootDirent (files fs)) (parentBuffer m pathbuf) cache (openNames m pathbuf)
        match found with
        | none => .ok (cache, none)
        | some (pathbuf, dir) =>
          if dir.type = .dir ∨ dir.rights ≠ 0 then .ok (addCacheEntry cache pathbuf fs dir, some (fs, dir))
          else .error .noRights

def vfsOpendir (tree : Mounts F) (path : Str) (cache : DirCache F) :
    Except DirFault (DirCache F × Option (List DirEntry)) := do
  let pathbuff := simplifyPath path
  let (cache, found) ← vfsOpen files tree pathbuff cache
  match found with
  | none => .ok (cache, none)
  | some (fs, fdir) =>
    if fdir.type ≠ .dir then .ok (cache, none)
    else do
      let (cache, list) ← readDir files fs fdir.ino pathbuff cache
      .ok (cache, some list)

end lookup

section cache

variable {F : Type} {cache : DirCache F} {path : Str} {ent : DirCacheEnt F}

theorem getCacheEntry_eq_some : getCacheEntry cache path = some ent ↔
    cache (cacheSlot path) = some ent ∧ ent.path = path := by
  rw [getCacheEntry, Option.filter_eq_some_iff, decide_eq_true_eq]

theorem getCacheEntry_add {p : Str} {fs : F} {dent : FastDirent}
    (found : getCacheEntry (addCacheEntry cache path fs dent) p = some ent) :
    (p = path ∧ ent = { path, fs, entry := dent }) ∨ getCacheEntry cache p = some ent := by
  obtain ⟨stored, same⟩ := getCacheEntry_eq_some.mp found
  rw [addCacheEntry, Function.update_apply] at stored
  split at stored
  · cases stored
    exact .inl ⟨same.symm, rfl⟩
  · exact .inr (getCacheEntry_eq_some.mpr ⟨stored, same⟩)

end cache

section tree

def FileSystem.child (fs : FileSystem) (parent : FastDirent) (name : Str) : Option FastDirent :=
  if parent.type = .dir then ((fs.readDir parent.ino).find? (·.name = name)).map (·.fast) else none

def FileSystem.descend (fs : FileSystem) : FastDirent -> List Str -> Option FastDirent
  | cur, [] => some cur
  | cur, name :: rest => (fs.child cur name).bind (fs.descend · rest)

structure FileSystem.WellFormed (fs : FileSystem) : Prop where
  names : ∀ ino, ∀ e ∈ fs.readDir ino, ValidName e.name
  distinct : ∀ ino, ((fs.readDir ino).map DirEntry.name).Nodup
  rights : ∀ ino, ∀ e ∈ fs.readDir ino, e.fast.type = .dir ∨ e.fast.rights ≠ 0

variable {fs : FileSystem} {cur d : FastDirent} {names : List Str} {name : Str} {e : DirEntry}

theorem FileSystem.descend_append (fs : FileSystem) (cur : FastDirent) (names names' : List Str) :
    fs.descend cur (names ++ names') = (fs.descend cur names).bind (fs.descend · names') := by
  induction names generalizing cur with
  | nil => rfl
  | cons name names ih =>
    rw [List.cons_append, descend, descend, Option.bind_assoc]
    exact Option.bind_congr fun child _ => ih child

theorem FileSystem.descend_concat (fs : FileSystem) (reached : fs.descend cur names = some d)
    (name : Str) : fs.descend cur (names ++ [name]) = fs.child d name := by
  rw [descend_append, reached, Option.bind_some]
  exact Option.bind_fun_some _

theorem FileSystem.WellFormed.child_of_mem (wf : fs.WellFormed) (dir : d.type = .dir)
    (listed : e ∈ fs.readDir d.ino) : fs.child d e.name = some e.fast := by
  rw [child, if_pos dir]
  cases found : (fs.readDir d.ino).find? (·.name = e.name) with
  | none => exact absurd (decide_eq_true rfl) (List.find?_eq_none.mp found e listed)
  | some e' =>
    have same : e' = e := List.inj_on_of_nodup_map (wf.distinct d.ino) (List.mem_of_find?_eq_some found) listed
      (by simpa using List.find?_some found)
    rw [same]
    rfl

theorem FileSystem.mem_of_child (found : fs.child cur name = some d) :
    ∃ e ∈ fs.readDir cur.ino, cur.type = .dir ∧ e.name = name ∧ e.fast = d := by
  rw [child] at found
  split at found
  · rename_i dir
    obtain ⟨e, listed, same⟩ := Option.map_eq_some_iff.mp found
    exact ⟨e, List.mem_of_find?_eq_some listed, dir, by simpa using List.find?_some listed, same⟩
  · cases found

theorem FileSystem.WellFormed.child_rights (wf : fs.WellFormed)
    (found : fs.child cur name = some d) : d.type = .dir ∨ d.rights ≠ 0 := by
  obtain ⟨e, listed, -, -, rfl⟩ := mem_of_child found
  exact wf.rights _ e listed

theorem FileSystem.WellFormed.descend_rights (wf : fs.WellFormed) (start : cur.type = .dir ∨ cur.rights ≠ 0)
    (reached : fs.descend cur names = some d) : d.type = .dir ∨ d.rights ≠ 0 := by
  induction names generalizing cur with
  | nil =>
    cases reached
    exact start
  | cons name names ih =>
    obtain ⟨child, found, rest⟩ := Option.bind_eq_some_iff.mp reached
    exact ih (wf.child_rights found) rest

end tree

end Bincows.Vfs
