import Bincows.Fs.KnownFiles

set_option autoImplicit false

/-! `vfs_open_file` with the callbacks: `add_dirent` may refuse an entry, `open_instance` a handle. A directory that is passed
through the cache is not listed, so which assertions are reached depends on the cache. -/

namespace Bincows.Vfs.Opening

open OpenTable Function List

variable {F : Type} {rest dir : List Str}

inductive Answer (A : Type) where
  | done (value : A)
  | refused
  -- an assertion of the file system fails
  | stops

structure Callbacks (F : Type) where
  -- the entries that are added to the listing of the directory
  addDirent : F -> Nat -> Str -> Answer (List DirEntry)
  openInstance : F -> Nat -> Nat -> Answer Unit

inductive OpenFault where
  | vfs (fault : VfsFault)
  | callback
  | entryRefused
  | flags

def creates (flags : BitVec 32) : Bool := flags.getLsbD 2

def flagsEnd : Int := 256

-- `VFS_READ`, `VFS_WRITE` and the rights of the entry.
def permitted (dirent : FastDirent) (flags : BitVec 32) : Bool :=
  (!flags.getLsbD 1 || dirent.rights.testBit 1) && (!flags.getLsbD 0 || dirent.rights.testBit 0)

def append (fs : FileSystem) (dir : Nat) (more : List DirEntry) : FileSystem :=
  { fs with readDir := update fs.readDir dir (fs.readDir dir ++ more) }

section code

variable [DecidableEq F] (callbacks : Callbacks F) (tree : Mounts F)

def openPath (v : VfsState F) (path : Str) : Except OpenFault (VfsState F × Option (F × FastDirent)) :=
  (lookupPath tree v path).mapError .vfs

def addEntry (v : VfsState F) (parent : Option (F × FastDirent)) (name : Str) : Except OpenFault (VfsState F × Bool) :=
  match parent with
  | none => .ok (v, false)
  | some (fs, parentdir) =>
    if parentdir.type ≠ .dir then .ok (v, false)
    else
      match callbacks.addDirent fs parentdir.ino name with
      | .stops => .error .callback
      | .refused => .error .entryRefused
      | .done more => .ok ({ v with files := update v.files fs (append (v.files fs) parentdir.ino more) }, true)

-- `true` for the return value 0.
def vfsCreate (v : VfsState F) (path : Str) : Except OpenFault (VfsState F × Bool) := do
  let pathbuf := simplifyPath path
  let (v, parent) ← openPath tree v (cutLast pathbuf)
  if lastName pathbuf = [] then .error (.vfs .noName) else addEntry callbacks v parent (lastName pathbuf)

def reopen (v : VfsState F) (path : Str) : Except OpenFault (VfsState F × Option (F × FastDirent)) := do
  let (v, found) ← openPath tree v path
  match found with
  | none => .error (.vfs .notFound)
  | some point => .ok (v, some point)

def createAndOpen (v : VfsState F) (path : Str) : Except OpenFault (VfsState F × Option (F × FastDirent)) := do
  let (v, created) ← vfsCreate callbacks tree v path
  if created then reopen tree v path else .ok (v, none)

def openedEntry (v : VfsState F) (path : Str) (flags : BitVec 32) :
    Except OpenFault (VfsState F × Option (F × FastDirent)) := do
  let (v, found) ← openPath tree v path
  match found with
  | some point => .ok (v, some point)
  | none => if creates flags then createAndOpen callbacks tree v path else .ok (v, none)

def createHandler (v : VfsState F) (fs : F) (dirent : FastDirent) (path : Str) (flags : BitVec 32) :
    Except OpenFault (VfsState F × Option Nat) :=
  let hid := v.nextHandle
  match callbacks.openInstance fs dirent.ino hid with
  | .stops => .error .callback
  | .refused => .ok ({ v with nextHandle := hid + 1 }, none)
  | .done _ => do
    let (v, vfileId) := OpenTable.searchOrInsertFile v fs dirent.ino dirent.fileSize path
    let v ← (OpenTable.registerHandleToVfile v vfileId (flags.getLsbD 1)).mapError .vfs
    .ok (v, some hid)

def vfsOpenFileFrom (v : VfsState F) (fs : F) (dirent : FastDirent) (path : Str)
    (flags : BitVec 32) : Except OpenFault (VfsState F × Option Nat) :=
  if ¬ flags.toInt < flagsEnd then .error .flags
  else if dirent.type ≠ .reg then .ok (v, none)
  else if ¬ permitted dirent flags then .ok (v, none)
  else createHandler callbacks v fs dirent path flags

def vfsOpenFile (v : VfsState F) (path : Str) (flags : BitVec 32) : Except OpenFault (VfsState F × Option Nat) := do
  let (v, found) ← openedEntry callbacks tree v path flags
  match found with
  | none => .ok (v, none)
  | some (fs, dirent) => vfsOpenFileFrom callbacks v fs dirent path flags

end code

def Agrees (h : MountHistory F) (files : F -> FileSystem) (whole : List Str) (cache : DirCache F) : Prop :=
  ∀ dir, dir <+: whole -> ∀ ent, getCacheEntry cache (render dir) = some ent -> Refers h files dir (some (ent.fs, ent.entry))

def Listed (fs : FileSystem) (cache : DirCache F) (dir : List Str) (cur : FastDirent) (rest : List Str) : Prop :=
  ∀ done name rest' d, rest = done ++ name :: rest' -> fs.descend cur done = some d ->
    getCacheEntry cache (render (dir ++ (done ++ [name]))) = none -> Listable fs (joined (dir ++ done)) d

section walk

variable {h : MountHistory F} {files : F -> FileSystem} {whole names front rest : List Str} {fs : F}
  {cur d : FastDirent} {cache : DirCache F} {path : Str}

structure OnWay (h : MountHistory F) (whole front : List Str) (fs : F) (names : List Str) : Prop where
  represents : Represents h
  valid : Valid whole
  owner : IsOwner h.mounts (render whole) (some (render front, fs))
  below : front <+: names
  within : names <+: whole

theorem OnWay.validNames (way : OnWay h whole front fs names) : Valid names :=
  way.valid.shorter way.within

theorem OnWay.validFront (way : OnWay h whole front fs names) : Valid front :=
  way.validNames.shorter way.below

theorem OnWay.ownerNames (way : OnWay h whole front fs names) : Owns h front fs names :=
  way.owner.shorten way.represents way.valid way.below way.within

theorem OnWay.refers_iff (way : OnWay h whole front fs (front ++ rest)) (files : F -> FileSystem)
    {found : Option (F × FastDirent)} : Refers h files (front ++ rest) found ↔
      found = ((files fs).descend (rootDirent (files fs)) rest).map (fs, ·) := by
  have here := refers_of_owner files way.validFront way.ownerNames
  constructor
  · exact fun refers => refers.unique way.represents here way.validNames
  · rintro rfl
    exact here

theorem OnWay.refers_some_iff (way : OnWay h whole front fs (front ++ rest)) (files : F -> FileSystem) {fs' : F} :
    Refers h files (front ++ rest) (some (fs', d)) ↔ fs' = fs ∧ (files fs).descend (rootDirent (files fs)) rest = some d := by
  rw [way.refers_iff files, eq_comm, Option.map_eq_some_iff]
  constructor
  · rintro ⟨d', reached, same⟩
    cases same
    exact ⟨rfl, reached⟩
  · rintro ⟨rfl, reached⟩
    exact ⟨d, reached, rfl⟩

theorem OnWay.shorter (way : OnWay h whole front fs names) (below : front <+: dir)
    (within : dir <+: names) : OnWay h whole front fs dir :=
  { way with below, within := within.trans way.within }

theorem Agrees.listing {done : List Str} {cache' : DirCache F} (agrees : Agrees h files whole cache)
    (way : OnWay h whole front fs (front ++ done)) (wf : (files fs).WellFormed)
    (reached : (files fs).descend (rootDirent (files fs)) done = some cur) (dir : cur.type = .dir)
    (added : Adds ((files fs).readDir cur.ino) fs (joined (front ++ done)) cache cache') : Agrees h files whole cache' := by
  intro names within ent found
  rcases added _ ent found with ⟨e, member, same, rfl⟩ | before
  · rw [joined_concat] at same
    have valid : Valid names := way.valid.shorter within
    have split := render_injective valid (way.validNames.concat (wf.names _ e member)) same
    rw [append_assoc] at split
    subst split
    have next : OnWay h whole front fs (front ++ (done ++ [e.name])) := { way with below := prefix_append _ _, within }
    refine (next.refers_some_iff files).mpr ⟨rfl, ?_⟩
    rw [(files fs).descend_concat reached]
    exact wf.child_of_mem dir member
  · exact agrees names within ent before

section

variable {fs : FileSystem} {dir done : List Str} (listed : Listed fs cache dir cur done)
include listed

theorem Listed.concat (name : Str) (reached : fs.descend cur done = some d)
    (here : getCacheEntry cache (render (dir ++ (done ++ [name]))) = none -> Listable fs (joined (dir ++ done)) d) :
    Listed fs cache dir cur (done ++ [name]) := by
  intro done' name' rest' d' split reached' uncached
  rcases eq_nil_or_concat' rest' with rfl | ⟨rest', last, rfl⟩
  · obtain ⟨rfl, same⟩ := append_inj' split rfl
    cases same
    cases reached.symm.trans reached'
    exact here uncached
  · rw [← cons_append, ← append_assoc] at split
    exact listed done' name' rest' d' (append_inj' split rfl).1 reached' uncached

theorem Listed.missing (missing : fs.descend cur done = none) : Listed fs cache dir cur (done ++ rest) := by
  intro done' name' rest' d' split reached uncached
  rcases append_eq_append_iff.mp split with ⟨further, rfl, -⟩ | ⟨_ | ⟨name, back⟩, rfl, later⟩
  · rw [fs.descend_append, missing] at reached
    cases reached
  · rw [append_nil, reached] at missing
    cases missing
  · obtain ⟨rfl, -⟩ := cons.inj later
    exact listed done' name' back d' rfl reached uncached

end

-- What the cache lacked below `done` when the walk began with `cache`, it lacks still.
structure Passes (h : MountHistory F) (files : F -> FileSystem) (whole front : List Str) (fs : F) (rest : List Str)
    (cache : DirCache F) (done : List Str) (d : FastDirent) (cache' : DirCache F) : Prop where
  agrees : Agrees h files whole cache'
  reached : (files fs).descend (rootDirent (files fs)) done = some d
  listed : Listed (files fs) cache front (rootDirent (files fs)) done
  lacks : ∀ below, below ≠ [] -> done ++ below <+: rest -> getCacheEntry cache (render (front ++ (done ++ below))) = none ->
    getCacheEntry cache' (render (front ++ (done ++ below))) = none

theorem OnWay.walks (way : OnWay h whole front fs (front ++ rest)) (wf : (files fs).WellFormed) (cache : DirCache F) :
    Walks files fs front rest (¬ Walkable (files fs) (joined front) (rootDirent (files fs)) rest)
      (Passes h files whole front fs rest cache)
      fun cache' => Agrees h files whole cache' ∧ (files fs).descend (rootDirent (files fs)) rest = none ∧
        Listed (files fs) cache front (rootDirent (files fs)) rest := by
  rintro done name rest cur cache₁ rfl ⟨agrees, reached, listed, lacks⟩
  have next : OnWay h whole front fs (front ++ (done ++ [name])) := way.shorter (prefix_append _ _) (by simp)
  have further : (files fs).descend (rootDirent (files fs)) (done ++ [name]) = (files fs).child cur name :=
    (files fs).descend_concat reached name
  have lacksNext : ∀ below, done ++ [name] ++ below <+: done ++ name :: rest ->
      getCacheEntry cache (render (front ++ (done ++ [name] ++ below))) = none ->
      getCacheEntry cache₁ (render (front ++ (done ++ [name] ++ below))) = none := by
    intro below within
    rw [append_assoc] at within ⊢
    exact lacks _ (by simp) within
  split
  · rename_i ent hit
    obtain ⟨sameFs, found⟩ := (next.refers_some_iff files).mp (agrees _ next.within ent hit)
    refine ⟨sameFs, agrees, found, listed.concat _ reached fun uncached => ?_, fun below _ => lacksNext below⟩
    rw [lacks [name] (by simp) (by simp) uncached] at hit
    cases hit
  refine (findFsChild_adds name (joined (front ++ done)) fun _ => wf.rights cur.ino).mono (fun _ stuck walkable => ?_) ?_
  · rw [joined_append] at stuck
    exact stuck (walkable.listable reached)
  rintro ⟨cache₂, child⟩ ⟨listable, rfl, added⟩
  have agrees' := agrees.listing (next.shorter (prefix_append _ _) (by simp)) wf reached listable.1 added
  have listed' := listed.concat name reached fun _ => listable
  cases found : (files fs).child cur name with
  | none =>
    rw [found] at further
    rw [append_cons]
    exact ⟨agrees', by rw [(files fs).descend_append, further]; rfl, listed'.missing further⟩
  | some child =>
    refine ⟨agrees', further.trans found, listed', fun below deep within uncached => ?_⟩
    rw [Option.eq_none_iff_forall_ne_some]
    intro ent there
    rcases added _ ent there with ⟨e, member, same, -⟩ | before
    · -- the new entries are one level below the directory
      have valid : Valid (front ++ (done ++ [name] ++ below)) :=
        way.validNames.shorter ((prefix_append_right_inj front).mpr within)
      have validDir : Valid (front ++ done) := fun n member => next.validNames n (by simp at member ⊢; tauto)
      rw [joined_concat] at same
      have lengths := congrArg length (render_injective valid (validDir.concat (wf.names _ e member)) same)
      have some := length_pos_iff.mpr deep
      simp only [length_append, length_singleton] at lengths
      omega
    · rw [lacksNext below within uncached] at before
      cases before

variable [DecidableEq F]

theorem vfsOpen_walks (wf : (files fs).WellFormed) (agrees : Agrees h files whole cache)
    (way : OnWay h whole front fs (front ++ rest)) (separated : Separated h.mounts (render (front ++ rest)))
    (canonical : simplifyPath path = render (front ++ rest)) :
    (vfsOpen files h.tree path cache).Ensures (fun _ => ¬ Walkable (files fs) (joined front) (rootDirent (files fs)) rest)
      fun result => Agrees h files whole result.1 ∧ result.2 = ((files fs).descend (rootDirent (files fs)) rest).map (fs, ·) ∧
        (getCacheEntry cache (render (front ++ rest)) = none ->
          Listed (files fs) cache front (rootDirent (files fs)) rest) := by
  refine vfsOpen_ensures way.represents way.validNames separated canonical (fun ent hit => ?_) (fun nobody => ?_) ?_
  · exact ⟨agrees, (way.refers_iff files).mp (agrees _ way.within ent hit), fun uncached => nomatch hit.symm.trans uncached⟩
  · cases nobody.unique way.represents way.ownerNames
  · intro front' rest' fs' split validFront owner uncached
    obtain ⟨paths, rfl⟩ := Prod.mk.inj (Option.some.inj (owner.unique way.represents way.ownerNames))
    cases render_injective validFront way.validFront paths
    cases append_cancel_left split
    refine ⟨_, _, way.walks wf cache,
      ⟨agrees, rfl, fun done name rest' d split => absurd split (by simp), fun _ _ _ => id⟩, ?_, ?_⟩
    · exact fun cache' ⟨agrees', missing, listed⟩ => ⟨agrees', by rw [missing]; rfl, fun _ => listed⟩
    rintro d cache' ⟨agrees', reached, listed, -⟩
    rw [reached]
    refine ⟨wf.descend_rights (.inl rfl) reached, ⟨agrees', rfl, fun _ => listed⟩, ?_, rfl, fun _ => listed⟩
    intro dir within ent there
    rcases getCacheEntry_add there with ⟨same, rfl⟩ | before
    · have valid : Valid dir := way.valid.shorter within
      rw [render_injective valid way.validNames same]
      exact (way.refers_some_iff files).mpr ⟨rfl, reached⟩
    · exact agrees' dir within ent before

theorem vfsOpen_unowned (represents : Represents h) (valid : Valid names) (separated : Separated h.mounts (render names))
    (nobody : IsOwner h.mounts (render names) none) (agrees : Agrees h files names cache)
    (canonical : simplifyPath path = render names) : vfsOpen files h.tree path cache = .ok (cache, none) := by
  have owner := ((resolves_iff represents valid).mpr separated).1.unique represents nobody
  rw [vfsOpen, canonical]
  cases hit : getCacheEntry cache (render names) with
  | none => simp only [owner]
  | some ent =>
    obtain ⟨front, rest, -, -, owns, -⟩ := (agrees names prefix_rfl ent hit).reached
    cases owns.unique represents nobody

end walk

section added

variable {fs : FileSystem} {cur d child : FastDirent} {names done : List Str} {name dirPath : Str}
  {more : List DirEntry}

theorem readDir_append (ino : Nat) : (append fs d.ino more).readDir ino =
    if ino = d.ino then fs.readDir d.ino ++ more else fs.readDir ino := by
  rw [append]
  exact update_apply _ _ _ _

theorem child_append_of_some (found : fs.child cur name = some child) :
    (append fs d.ino more).child cur name = some child := by
  rw [FileSystem.child] at found ⊢
  split at found
  · rename_i dir
    obtain ⟨e, listed, rfl⟩ := Option.map_eq_some_iff.mp found
    rw [if_pos dir, readDir_append]
    split
    · rename_i same
      rw [same] at listed
      rw [find?_append, listed]
      rfl
    · rw [listed]
      rfl
  · cases found

theorem descend_append_of_some (reached : fs.descend cur names = some child) :
    (append fs d.ino more).descend cur names = some child := by
  induction names generalizing cur with
  | nil => exact reached
  | cons name names ih =>
    obtain ⟨next, found, later⟩ := Option.bind_eq_some_iff.mp reached
    rw [FileSystem.descend, child_append_of_some found, Option.bind_some]
    exact ih later

theorem child_append_of_none (dir : d.type = .dir) (absent : fs.child d name = none) :
    (append fs d.ino more).child d name = (more.find? (·.name = name)).map (·.fast) := by
  rw [FileSystem.child, if_pos dir] at absent ⊢
  rw [readDir_append, if_pos rfl, find?_append, Option.map_eq_none_iff.mp absent, Option.none_or]

theorem walkable_iff : Walkable fs dirPath cur rest ↔
    ∀ done name rest' d, rest = done ++ name :: rest' -> fs.descend cur done = some d ->
      Listable fs (dirPath ++ joined done) d := by
  constructor
  · rintro walkable done name rest' d rfl reached
    exact walkable.listable reached
  intro listable
  induction rest generalizing cur dirPath with
  | nil => trivial
  | cons name rest ih =>
    have here := listable [] name rest cur rfl rfl
    rw [show dirPath ++ joined [] = dirPath from append_nil _] at here
    refine ⟨here.1, here.2, fun child found => ih fun done name' rest' d split reached => ?_⟩
    have later :=
      listable (name :: done) name' rest' d (by rw [split]; rfl) (by rw [FileSystem.descend, found]; exact reached)
    rw [append_assoc]
    exact later

theorem walkable_append (walkable : Walkable fs dirPath cur (done ++ [name])) (reached : fs.descend cur done = some d)
    (short : ∀ e ∈ more, e.name.length + (dirPath ++ joined done).length + 1 < maxPath) :
    Walkable (append fs d.ino more) dirPath cur (done ++ [name]) := by
  rw [walkable_iff] at walkable ⊢
  intro done' name' rest' d' split reached'
  have within : done' <+: done := by
    rcases eq_nil_or_concat' rest' with rfl | ⟨rest', last, rfl⟩
    · exact (append_inj' split rfl).1 ▸ prefix_rfl
    · rw [← cons_append, ← append_assoc] at split
      exact (append_inj' split rfl).1 ▸ prefix_append _ _
  obtain ⟨further, rfl⟩ := within
  -- directories on the way were there before
  obtain ⟨d'', before, -⟩ := Option.bind_eq_some_iff.mp ((fs.descend_append _ _ _) ▸ reached)
  have same := reached'.symm.trans (descend_append_of_some before)
  cases same
  have listable := walkable done' name' rest' d' split before
  refine ⟨listable.1, fun e listed => ?_⟩
  rw [readDir_append] at listed
  split at listed
  · rename_i sameIno
    rcases mem_append.mp listed with old | new
    · exact listable.2 e (sameIno ▸ old)
    · have := short e new
      rw [joined_append, length_append, length_append] at this
      rw [length_append]
      omega
  · exact listable.2 e listed

end added

section parents

variable {h : MountHistory F} {dir front : List Str} {name : Str} {fs : F} {e : Str × F}

theorem render_prefix_concat (dir : List Str) (name : Str) : render dir <+: render (dir ++ [name]) := by
  rw [← joined_concat]
  cases dir with
  | nil => exact ⟨name, rfl⟩
  | cons first dir => exact ⟨'/' :: name, rfl⟩

section

variable (represents : Represents h) (valid : Valid (dir ++ [name]))
include represents valid

theorem componentPrefix_concat (member : e ∈ h.mounts)
    (below : ComponentPrefix e.1 (render dir)) : ComponentPrefix e.1 (render (dir ++ [name])) := by
  obtain ⟨names, validNames, path⟩ := represents.canonical e member
  have validDir : Valid dir := valid.left
  rw [path] at below ⊢
  rw [componentPrefix_render validNames validDir] at below
  exact (componentPrefix_render validNames valid).mpr (below.trans (prefix_append _ _))

theorem componentPrefix_parent (member : e ∈ h.mounts)
    (within : e.1 <+: render dir) (below : ComponentPrefix e.1 (render (dir ++ [name]))) :
      ComponentPrefix e.1 (render dir) := by
  obtain ⟨names, validNames, path⟩ := represents.canonical e member
  have validDir : Valid dir := valid.left
  rw [path] at within below ⊢
  rw [componentPrefix_render validNames valid] at below
  refine (componentPrefix_render validNames validDir).mpr ?_
  rcases prefix_concat_iff.mp below with whole | inside
  · subst whole
    have same := within.eq_of_length_le (render_prefix_concat dir name).length_le
    have lengths := congrArg length (render_injective valid validDir same)
    simp at lengths
  · exact inside

theorem separated_parent
    (separated : Separated h.mounts (render (dir ++ [name]))) (owner : Owns h front fs (dir ++ [name]))
    (below : front <+: dir) : Separated h.mounts (render dir) := by
  have validDir : Valid dir := valid.left
  have validFront : Valid front := validDir.shorter below
  intro e member within
  rcases separated e member (within.trans (render_prefix_concat dir name)) with component | ⟨e', member', component', longer⟩
  · exact .inl (componentPrefix_parent represents valid member within component)
  · have largest := owner.2.2 e' member' component'
    exact .inr ⟨_, owner.1, (componentPrefix_render validFront validDir).mpr below, by omega⟩

theorem unowned_parent
    (separated : Separated h.mounts (render (dir ++ [name]))) (nobody : IsOwner h.mounts (render (dir ++ [name])) none) :
    IsOwner h.mounts (render dir) none ∧ Separated h.mounts (render dir) := by
  refine ⟨fun e member below => nobody e member (componentPrefix_concat represents valid member below), ?_⟩
  intro e member within
  rcases separated e member (within.trans (render_prefix_concat dir name)) with component | ⟨e', member', component', -⟩
  · exact absurd component (nobody e member)
  · exact absurd component' (nobody e' member')

end

end parents

structure Setting (F : Type) where
  mounts : MountHistory F
  mounted : Relation.ReflTransGen MountStep { tree := vfsInit, mounts := [] } mounts
  files : F -> FileSystem
  wf : ∀ fs, (files fs).WellFormed
  callbacks : Callbacks F
  adds : ∀ fs dir name more, ValidName name -> (∀ e ∈ (files fs).readDir dir, e.name ≠ name) ->
    callbacks.addDirent fs dir name = .done more -> (append (files fs) dir more).WellFormed

def NewEntry (s : Setting F) (dir : List Str) (name : Str) (parent entry : Option (F × FastDirent)) : Prop :=
  match parent with
  | none => entry = none
  | some (fs, d) => ∃ more e, s.callbacks.addDirent fs d.ino name = .done more ∧
      (∀ e ∈ more, e.name.length + (joined dir).length + 1 < maxPath) ∧ more.find? (·.name = name) = some e ∧
      entry = some (fs, e.fast)

def Opened (s : Setting F) (names : List Str) (flags : BitVec 32) (entry : Option (F × FastDirent)) : Prop :=
  ∃ found, Refers s.mounts s.files names found ∧
    match found with
    | some point => entry = some point
    | none => if creates flags then
        ∃ dir name parent, names = dir ++ [name] ∧ Refers s.mounts s.files dir parent ∧ NewEntry s dir name parent entry
      else entry = none

structure Named (s : Setting F) (path : Str) (names : List Str) : Prop where
  valid : Valid names
  separated : Separated s.mounts.mounts (render names)
  canonical : simplifyPath path = render names

structure Creating (s : Setting F) (path : Str) (flags : BitVec 32) (front done : List Str)
    (name : Str) (fs : F) : Prop extends Named s path (front ++ (done ++ [name])) where
  way : OnWay s.mounts (front ++ (done ++ [name])) front fs (front ++ (done ++ [name]))
  missing : (s.files fs).descend (rootDirent (s.files fs)) (done ++ [name]) = none
  asked : creates flags = true

section opening

variable {s : Setting F} {names front done : List Str} {name path : Str} {flags : BitVec 32}
  {fs : F} {d : FastDirent} {v : VfsState F} {entry entry' : Option (F × FastDirent)}

theorem Setting.represents (s : Setting F) : Represents s.mounts := mountSteps_represent s.mounted

theorem NewEntry.unique {parent : Option (F × FastDirent)} (first : NewEntry s dir name parent entry)
    (second : NewEntry s dir name parent entry') : entry = entry' := by
  cases parent with
  | none => exact first.trans second.symm
  | some point =>
    obtain ⟨more, e, added, -, listed, rfl⟩ := first
    obtain ⟨more', e', added', -, listed', rfl⟩ := second
    cases added.symm.trans added'
    cases listed.symm.trans listed'
    rfl

theorem Opened.unique (valid : Valid names) (first : Opened s names flags entry)
    (second : Opened s names flags entry') : entry = entry' := by
  obtain ⟨found, refers, first⟩ := first
  obtain ⟨found', refers', second⟩ := second
  cases refers.unique s.represents refers' valid
  cases found with
  | some point => exact first.trans second.symm
  | none =>
    dsimp only at first second
    split at first
    · rw [if_pos ‹_›] at second
      obtain ⟨dir, name, parent, rfl, refersDir, first⟩ := first
      obtain ⟨dir', name', parent', split, refersDir', second⟩ := second
      obtain ⟨rfl, same⟩ := append_inj' split rfl
      cases same
      have validDir : Valid dir := valid.left
      cases refersDir.unique s.represents refersDir' validDir
      exact first.unique second
    · rw [if_neg ‹_›] at second
      exact first.trans second.symm

theorem Opened.absent (missing : Refers s.mounts s.files names none)
    (asked : creates flags = false) : Opened s names flags none := by
  refine ⟨none, missing, ?_⟩
  rw [asked]
  rfl

namespace Creating

variable (creating : Creating s path flags front done name fs)

theorem split (_ : Creating s path flags front done name fs) : front ++ (done ++ [name]) = front ++ done ++ [name] :=
  (append_assoc _ _ _).symm

include creating

theorem validSplit : Valid (front ++ done ++ [name]) := creating.split ▸ creating.valid

theorem parentWay : OnWay s.mounts (front ++ (done ++ [name])) front fs (front ++ done) :=
  creating.way.shorter (prefix_append _ _) (by simp)

theorem refers : Refers s.mounts s.files (front ++ (done ++ [name])) none :=
  (creating.way.refers_iff s.files).mpr (by rw [creating.missing]; rfl)

theorem uncached {cache : DirCache F} (agrees : Agrees s.mounts s.files (front ++ (done ++ [name])) cache) :
    getCacheEntry cache (render (front ++ (done ++ [name]))) = none := by
  rw [Option.eq_none_iff_forall_ne_some]
  intro ent found
  cases (agrees _ prefix_rfl ent found).unique s.represents creating.refers creating.valid

theorem opened_iff : Opened s (front ++ (done ++ [name])) flags entry ↔
    NewEntry s (front ++ done) name (((s.files fs).descend (rootDirent (s.files fs)) done).map (fs, ·)) entry := by
  have parent := (creating.parentWay.refers_iff s.files).mpr rfl
  constructor
  · rintro ⟨found, refers, opens⟩
    cases refers.unique s.represents creating.refers creating.valid
    rw [if_pos creating.asked] at opens
    obtain ⟨dir, name', parent', split, refersDir, new⟩ := opens
    obtain ⟨rfl, same⟩ := append_inj' (creating.split.symm.trans split) rfl
    cases same
    cases refersDir.unique s.represents parent creating.parentWay.validNames
    exact new
  · intro new
    refine ⟨none, creating.refers, ?_⟩
    rw [if_pos creating.asked]
    exact ⟨_, name, _, creating.split, parent, new⟩

end Creating

variable [DecidableEq F]

theorem openPath_ensures {tree : Mounts F} {fault : Prop} {post : DirCache F × Option (F × FastDirent) -> Prop}
    (opened : (vfsOpen v.files tree path v.cache).Ensures (fun _ => fault) post) :
    (openPath tree v path).Ensures (fun _ => fault) fun result =>
      ∃ cache, result.1 = { v with cache } ∧ post (cache, result.2) := by
  rw [openPath, lookupPath]
  cases result : vfsOpen v.files tree path v.cache with
  | error e => exact opened.of_error result
  | ok both => exact ⟨both.1, rfl, opened.of_ok result⟩

theorem refers_append {h : MountHistory F} {files : F -> FileSystem} {fs' : F} {d' : FastDirent}
    {more : List DirEntry} (refers : Refers h files names (some (fs', d'))) :
    Refers h (update files fs (append (files fs) d.ino more)) names (some (fs', d')) := by
  obtain ⟨front, rest, validFront, rfl, owner, reached⟩ := refers.reached
  refine ⟨_, owner, front, rest, validFront, rfl, rfl, ?_⟩
  by_cases same : fs' = fs
  · subst same
    have root : rootDirent (append (files fs') d.ino more) = rootDirent (files fs') := rfl
    rw [update_self, root, descend_append_of_some reached]
    rfl
  · rw [update_of_ne same, reached]
    rfl

def Enters (s : Setting F) (names : List Str) (flags : BitVec 32) (hid : Nat)
    (call : Except OpenFault (VfsState F × Option (F × FastDirent))) : Prop :=
  call.Ensures (fun _ => ¬ (Passable s.mounts s.files names ∧ ∃ entry, Opened s names flags entry))
    fun result => result.1.nextHandle = hid ∧ Opened s names flags result.2

theorem reopen_enters {more : List DirEntry} (creating : Creating s path flags front done name fs)
    (reached : (s.files fs).descend (rootDirent (s.files fs)) done = some d) (dir : d.type = .dir)
    (added : s.callbacks.addDirent fs d.ino name = .done more)
    (agrees : Agrees s.mounts s.files (front ++ (done ++ [name])) v.cache)
    (files : v.files = update s.files fs (append (s.files fs) d.ino more)) :
    Enters s (front ++ (done ++ [name])) flags v.nextHandle (reopen s.mounts.tree v path) := by
  have absent : (s.files fs).child d name = none := (s.files fs).descend_concat reached name ▸ creating.missing
  have here : v.files fs = append (s.files fs) d.ino more := by rw [files, update_self]
  have again : (v.files fs).descend (rootDirent (v.files fs)) done = some d := by
    rw [here]
    exact descend_append_of_some reached
  have wf : (v.files fs).WellFormed := by
    rw [here]
    refine s.adds fs d.ino name more (creating.valid name (by simp)) (fun e listed same => ?_) added
    rw [FileSystem.child, if_pos dir, Option.map_eq_none_iff] at absent
    exact find?_eq_none.mp absent e listed (decide_eq_true same)
  have agrees' : Agrees s.mounts v.files (front ++ (done ++ [name])) v.cache := by
    rw [files]
    exact fun names within ent found => refers_append (agrees names within ent found)
  have opened : ∀ entry, Opened s (front ++ (done ++ [name])) flags entry ↔
      NewEntry s (front ++ done) name (some (fs, d)) entry := by
    intro entry
    rw [creating.opened_iff, reached]
    rfl
  have looked := openPath_ensures (vfsOpen_walks wf agrees' creating.way creating.separated creating.canonical)
  rw [Enters, reopen]
  refine (looked.mono (fun _ stuck both => stuck ?_) fun _ => id).bind ?_
  · obtain ⟨passable, entry, opens⟩ := both
    obtain ⟨more', e, added', short, -⟩ := (opened entry).mp opens
    cases added.symm.trans added'
    rw [here]
    refine walkable_append (passable front _ fs rfl creating.way.owner) reached fun e member => ?_
    rw [← joined_append]
    exact short e member
  rintro ⟨v', result⟩ ⟨cache, rfl, -, rfl, listed⟩
  have uncached := creating.uncached agrees
  have short : ∀ e ∈ more, e.name.length + (joined (front ++ done)).length + 1 < maxPath := by
    intro e member
    refine (listed uncached done name [] d rfl again uncached).2 e ?_
    rw [here, readDir_append, if_pos rfl]
    exact mem_append_right _ member
  rw [(v.files fs).descend_concat again, here, child_append_of_none dir absent]
  cases entry : more.find? (·.name = name) with
  | none =>
    rintro ⟨-, opens⟩
    obtain ⟨more', e, added', -, found, -⟩ := (opened _).mp opens.choose_spec
    cases added.symm.trans added'
    cases entry.symm.trans found
  | some e => exact ⟨rfl, (opened _).mpr ⟨more, e, added, short, entry, rfl⟩⟩

theorem createAndOpen_enters (creating : Creating s path flags front done name fs) (files : v.files = s.files)
    (agrees : Agrees s.mounts s.files (front ++ (done ++ [name])) v.cache)
    (listable : ∀ d, (s.files fs).descend (rootDirent (s.files fs)) done = some d ->
      Listable (s.files fs) (joined (front ++ done)) d) :
    Enters s (front ++ (done ++ [name])) flags v.nextHandle (createAndOpen s.callbacks s.mounts.tree v path) := by
  have separatedDir : Separated s.mounts.mounts (render (front ++ done)) :=
    separated_parent s.represents creating.validSplit (creating.split ▸ creating.separated)
      (creating.split ▸ creating.way.owner) (prefix_append _ _)
  have agrees' : Agrees s.mounts v.files (front ++ (done ++ [name])) v.cache := files ▸ agrees
  have looked := openPath_ensures (vfsOpen_walks (files ▸ s.wf fs) agrees' creating.parentWay separatedDir
    (simplifyPath_joined creating.parentWay.validNames))
  rw [files] at looked
  have cut : cutLast (render (front ++ (done ++ [name]))) = joined (front ++ done) := by
    rw [creating.split, cutLast_render creating.validSplit]
  have last : lastName (render (front ++ (done ++ [name]))) = name := by
    rw [creating.split, lastName_render creating.validSplit]
  rw [Enters, createAndOpen, vfsCreate, creating.canonical, cut, last, bind_assoc]
  refine (looked.mono (fun _ stuck both => stuck ?_) fun _ => id).bind ?_
  · have walkable := walkable_iff.mp (both.1 front _ fs rfl creating.way.owner)
    exact walkable_iff.mpr fun done' name' rest' d' split reached' =>
      walkable done' name' (rest' ++ [name]) d' (by rw [split]; simp) reached'
  rintro ⟨v₁, parent⟩ ⟨cache, rfl, agrees₁, same, -⟩
  dsimp only at same ⊢
  rw [if_neg (creating.valid name (by simp)).some]
  subst same
  cases reached : (s.files fs).descend (rootDirent (s.files fs)) done with
  | none => exact ⟨rfl, creating.opened_iff.mpr (by rw [reached]; rfl)⟩
  | some d =>
    have dir := (listable d reached).1
    -- an answer of the file system other than the new entries
    have unanswered : (∀ more, s.callbacks.addDirent fs d.ino name ≠ .done more) ->
        ¬ ∃ entry, Opened s (front ++ (done ++ [name])) flags entry := by
      rintro never ⟨entry, opened⟩
      rw [creating.opened_iff, reached] at opened
      obtain ⟨more, e, added, -⟩ := opened
      exact never more added
    rw [Option.map_some, addEntry, if_neg (not_not_intro dir)]
    cases added : s.callbacks.addDirent fs d.ino name with
    | stops => exact fun both => unanswered (by simp [added]) both.2
    | refused => exact fun both => unanswered (by simp [added]) both.2
    | done more => exact reopen_enters creating reached dir added agrees₁ rfl

section

variable (named : Named s path names) (agrees : Agrees s.mounts v.files names v.cache)
  (nobody : IsOwner s.mounts.mounts (render names) none)
include named agrees nobody

theorem openPath_unowned : openPath s.mounts.tree v path = .ok (v, none) := by
  rw [openPath, lookupPath, vfsOpen_unowned s.represents named.valid named.separated nobody agrees named.canonical]
  rfl

theorem createAndOpen_unowned (asked : creates flags = true) :
    Enters s names flags v.nextHandle (createAndOpen s.callbacks s.mounts.tree v path) := by
  have missing : Refers s.mounts s.files names none := ⟨none, nobody, rfl⟩
  have creates {v' : VfsState F} {parent : Option (F × FastDirent)}
      (looked : openPath s.mounts.tree v (cutLast (simplifyPath path)) = .ok (v', parent)) :
      vfsCreate s.callbacks s.mounts.tree v path = if lastName (simplifyPath path) = [] then .error (.vfs .noName)
        else addEntry s.callbacks v' parent (lastName (simplifyPath path)) := by
    rw [vfsCreate, looked]
    rfl
  rw [Enters, createAndOpen]
  obtain ⟨valid, separated, canonical⟩ := named
  rw [canonical] at creates
  rcases eq_nil_or_concat' names with rfl | ⟨dir, name, rfl⟩
  · -- the assertion on the length of the name
    rw [creates (openPath_unowned ⟨valid, separated, rfl⟩ agrees nobody), if_pos (by decide)]
    rintro ⟨-, entry, found, refers, opens⟩
    cases refers.unique s.represents missing valid
    rw [if_pos asked] at opens
    obtain ⟨dir, name, parent, split, -⟩ := opens
    simp at split
  · have validDir : Valid dir := valid.left
    obtain ⟨nobodyDir, separatedDir⟩ := unowned_parent s.represents valid separated nobody
    have agreesDir : Agrees s.mounts v.files dir v.cache :=
      fun names within => agrees names (within.trans (prefix_append _ _))
    rw [cutLast_render valid, lastName_render valid] at creates
    rw [creates (openPath_unowned ⟨validDir, separatedDir, simplifyPath_joined validDir⟩ agreesDir nobodyDir),
      if_neg (valid name (by simp)).some]
    refine ⟨rfl, none, missing, ?_⟩
    rw [if_pos asked]
    exact ⟨dir, name, none, rfl, ⟨none, nobodyDir, rfl⟩, rfl⟩

end

omit [DecidableEq F] in
theorem passable_iff (way : OnWay s.mounts (front ++ rest) front fs (front ++ rest)) :
    Passable s.mounts s.files (front ++ rest) ↔ Walkable (s.files fs) (joined front) (rootDirent (s.files fs)) rest := by
  refine ⟨fun all => all front rest fs rfl way.owner, fun walkable front' rest' fs' split owner => ?_⟩
  obtain ⟨paths, rfl⟩ := Prod.mk.inj (Option.some.inj (owner.unique s.represents way.owner))
  have validFront : Valid front' := fun n member => way.valid n (split ▸ mem_append_left _ member)
  cases render_injective validFront way.validFront paths
  rwa [← append_cancel_left split]

omit [DecidableEq F] in
theorem Named.owner (named : Named s path names) : IsOwner s.mounts.mounts (render names) none ∨
    ∃ front rest fs, names = front ++ rest ∧ OnWay s.mounts (front ++ rest) front fs (front ++ rest) := by
  obtain ⟨owner, behind⟩ := (resolves_iff s.represents named.valid).mpr named.separated
  cases selected : getFsVdir s.mounts.tree (render names) with
  | none => exact .inl (selected ▸ owner)
  | some point =>
    obtain ⟨front, -, same, split⟩ := behind _ selected
    have owns : Owns s.mounts front point.2 names := by
      rw [Owns, ← same, ← selected]
      exact owner
    exact .inr ⟨front, _, point.2, split, s.represents, split ▸ named.valid, split ▸ owns, prefix_append _ _, prefix_rfl⟩

theorem openedEntry_enters (named : Named s path names) (files : v.files = s.files)
    (agrees : Agrees s.mounts s.files names v.cache) :
    Enters s names flags v.nextHandle (openedEntry s.callbacks s.mounts.tree v path flags) := by
  have agrees' : Agrees s.mounts v.files names v.cache := files ▸ agrees
  rw [Enters, openedEntry]
  rcases named.owner with nobody | ⟨front, rest, fs, rfl, way⟩
  · rw [openPath_unowned named agrees' nobody]
    cases asked : creates flags with
    | false => exact ⟨rfl, .absent ⟨none, nobody, rfl⟩ asked⟩
    | true => exact createAndOpen_unowned named agrees' nobody asked
  have looked := openPath_ensures (vfsOpen_walks (files ▸ s.wf fs) agrees' way named.separated named.canonical)
  rw [files] at looked
  refine (looked.mono (fun _ stuck both => stuck ((passable_iff way).mp both.1)) fun _ => id).bind ?_
  rintro ⟨v₁, found⟩ ⟨cache, rfl, agrees₁, same, listed⟩
  have refers := (way.refers_iff s.files).mpr same
  subst same
  cases reached : (s.files fs).descend (rootDirent (s.files fs)) rest with
  | some d => exact ⟨rfl, _, refers, by rw [reached]; rfl⟩
  | none =>
    rw [reached] at refers
    rw [Option.map_none]
    dsimp only
    cases asked : creates flags with
    | false => exact ⟨rfl, .absent refers asked⟩
    | true =>
      rcases eq_nil_or_concat' rest with rfl | ⟨done, name, rfl⟩
      · cases reached
      · have creating : Creating s path flags front done name fs := ⟨named, way, reached, asked⟩
        have uncached := creating.uncached agrees
        rw [if_pos rfl]
        exact createAndOpen_enters creating rfl agrees₁ fun d parent => listed uncached done name [] d rfl parent uncached

theorem openedEntry_cold (named : Named s path names) (files : v.files = s.files)
    (cold : ∀ dir, dir <+: names -> getCacheEntry v.cache (render dir) = none) {result : VfsState F × Option (F × FastDirent)}
    (returned : openedEntry s.callbacks s.mounts.tree v path flags = .ok result) : Passable s.mounts s.files names := by
  rcases named.owner with nobody | ⟨front, rest, fs, rfl, way⟩
  · intro front rest fs split owner
    cases owner.unique s.represents nobody
  have agrees : Agrees s.mounts v.files (front ++ rest) v.cache := by
    intro dir within ent hit
    rw [cold dir within] at hit
    cases hit
  have looked := openPath_ensures (vfsOpen_walks (files ▸ s.wf fs) agrees way named.separated named.canonical)
  rw [openedEntry] at returned
  obtain ⟨_, opened, -⟩ := bind_eq_ok.mp returned
  obtain ⟨_, -, -, -, listed⟩ := looked.of_ok opened
  rw [files] at listed
  refine (passable_iff way).mpr (walkable_iff.mpr fun done name rest' d split reached => ?_)
  have within : front ++ (done ++ [name]) <+: front ++ rest := by simp [split]
  rw [← joined_append]
  exact listed (cold _ prefix_rfl) done name rest' d split reached (cold _ within)

end opening

def HandleMade (callbacks : Callbacks F) (flags : BitVec 32) : Option (F × FastDirent) -> Prop
  | none => True
  | some (fs, d) => flags.toInt < flagsEnd ∧
      (d.type = .reg -> permitted d flags = true -> ∀ hid, callbacks.openInstance fs d.ino hid ≠ .stops)

structure Opens (s : Setting F) (names : List Str) (flags : BitVec 32) : Prop where
  passable : Passable s.mounts s.files names
  entry : ∃ entry, Opened s names flags entry ∧ HandleMade s.callbacks flags entry

section every

variable [DecidableEq F]

def Returns (s : Setting F) (path : Str) (flags : BitVec 32) : Prop :=
  ∀ v : VfsState F, v.files = s.files -> Agrees s.mounts s.files (tokens (simplifyPath path)) v.cache ->
    ∃ result, vfsOpenFile s.callbacks s.mounts.tree v path flags = .ok result

theorem registerHandle_returns (v : VfsState F) (fs : F) (addr fileLen : Nat) (path : Str) {made : VfsState F × Nat}
    (makes : made = OpenTable.searchOrInsertFile v fs addr fileLen path) (write : Bool) :
    ∃ v', OpenTable.registerHandleToVfile made.1 made.2 write = .ok v' := by
  have there : ∃ e, Keyed.lookup VFile.id made.1.openFiles made.2 = some e := by
    rw [makes, OpenTable.searchOrInsertFile]
    cases known : v.openFiles.find? fun e => e.addr = addr ∧ e.fs = fs with
    | some e =>
      cases found : Keyed.lookup VFile.id v.openFiles e.id with
      | some e' => exact ⟨e', rfl⟩
      | none => exact absurd rfl (Keyed.lookup_none found (mem_of_find?_eq_some known))
    | none =>
      rw [Keyed.lookup_append, if_pos rfl]
      cases Keyed.lookup VFile.id v.openFiles (v.curId + 1) with
      | some e => exact ⟨e, rfl⟩
      | none => exact ⟨_, rfl⟩
  obtain ⟨e, there⟩ := there
  rw [OpenTable.registerHandleToVfile, OpenTable.acquireVfile, there]
  exact ⟨_, rfl⟩

theorem vfsOpenFileFrom_exactly (callbacks : Callbacks F) (v : VfsState F) (fs : F) (d : FastDirent) (path : Str)
    (flags : BitVec 32) : (vfsOpenFileFrom callbacks v fs d path flags).Exactly (flags.toInt < flagsEnd ∧
      (d.type = .reg -> permitted d flags = true ->
        callbacks.openInstance fs d.ino v.nextHandle ≠ .stops)) fun _ => True := by
  rw [vfsOpenFileFrom]
  by_cases small : flags.toInt < flagsEnd
  · rw [if_neg (not_not_intro small)]
    by_cases reg : d.type = .reg
    · rw [if_neg (not_not_intro reg)]
      by_cases allowed : permitted d flags = true
      · rw [if_neg (not_not_intro allowed), createHandler]
        cases answer : callbacks.openInstance fs d.ino v.nextHandle with
        | stops => exact .error fun both => both.2 reg allowed rfl
        | refused => exact .ok ⟨small, nofun⟩ trivial
        | done _ =>
          obtain ⟨v', registered⟩ := registerHandle_returns v fs d.ino d.fileSize path rfl (flags.getLsbD 1)
          dsimp only
          rw [registered]
          exact .ok ⟨small, nofun⟩ trivial
      · rw [if_pos allowed]
        exact .ok ⟨small, fun _ allowed' => absurd allowed' allowed⟩ trivial
    · rw [if_pos reg]
      exact .ok ⟨small, fun reg' => absurd reg' reg⟩ trivial
  · rw [if_pos small]
    exact .error fun both => small both.1

theorem open_returns_iff (s : Setting F) (path : Str) (flags : BitVec 32)
    (separated : Separated s.mounts.mounts (simplifyPath path)) :
    Returns s path flags ↔ Opens s (tokens (simplifyPath path)) flags := by
  obtain ⟨names, valid, canonical⟩ := simplifyPath_canonical path
  have named : Named s path names := ⟨valid, canonical ▸ separated, canonical⟩
  rw [Returns, canonical, tokens_render valid]
  constructor
  · intro returns
    -- nothing is in the cache, and any number is the next one of a handle
    have entered : ∀ hid, Passable s.mounts s.files names ∧ ∃ entry, Opened s names flags entry ∧
        ∀ fs d, entry = some (fs, d) -> flags.toInt < flagsEnd ∧
          (d.type = .reg -> permitted d flags = true -> s.callbacks.openInstance fs d.ino hid ≠ .stops) := by
      intro hid
      let v : VfsState F :=
        { files := s.files, cache := emptyCache, openFiles := [], curId := 0, handles := [], nextHandle := hid, lazyFlush := [] }
      have agrees : Agrees s.mounts s.files names v.cache := nofun
      obtain ⟨result, returned⟩ := returns v rfl agrees
      obtain ⟨⟨v', entry⟩, entered, rest⟩ := bind_eq_ok.mp returned
      obtain ⟨sameHid, opened⟩ := (openedEntry_enters named rfl agrees).of_ok entered
      refine ⟨openedEntry_cold named rfl (fun _ _ => rfl) entered, entry, opened, ?_⟩
      rintro fs d rfl
      have made := ((vfsOpenFileFrom_exactly s.callbacks v' fs d path flags).2 result rest).1
      rwa [show v'.nextHandle = hid from sameHid] at made
    obtain ⟨passable, entry, opened, -⟩ := entered 0
    refine ⟨passable, entry, opened, ?_⟩
    cases entry with
    | none => trivial
    | some point =>
      have made : ∀ hid, flags.toInt < flagsEnd ∧
          (point.2.type = .reg -> permitted point.2 flags = true ->
            s.callbacks.openInstance point.1 point.2.ino hid ≠ .stops) := by
        intro hid
        obtain ⟨-, entry', opened', made⟩ := entered hid
        exact made _ _ (opened'.unique valid opened)
      exact ⟨(made 0).1, fun reg allowed hid => (made hid).2 reg allowed⟩
  · rintro ⟨passable, entry, opened, made⟩ v files agrees
    obtain ⟨⟨v', entry'⟩, entered, -, opened'⟩ := (openedEntry_enters named files agrees).returns
      fun _ never => never ⟨passable, entry, opened⟩
    have same : entry' = entry := opened'.unique valid opened
    subst same
    rw [vfsOpenFile, entered]
    cases entry' with
    | none => exact ⟨_, rfl⟩
    | some point =>
      refine (vfsOpenFileFrom_exactly s.callbacks v' point.1 point.2 path flags).1 ?_
      exact ⟨made.1, fun reg allowed => made.2 reg allowed _⟩

def sampleCallbacks : Callbacks Nat where
  addDirent fs _ name := if fs = 0 then .done [{ name, fast := newFile }] else .refused
  openInstance _ _ _ := .done ()

def sampleSetting : Setting Nat where
  mounts := sampleMounts
  mounted := sampleMounts_reached
  files := sampleFiles
  wf := sampleFiles_wellFormed
  callbacks := sampleCallbacks
  adds fs dir name more valid new added := by
    change (if fs = 0 then Answer.done [{ name, fast := newFile }] else .refused) = .done more at added
    split at added
    · cases added
      exact addDirent_wellFormed (sampleFiles_wellFormed fs) valid new
    · cases added

theorem nested_file_opens : Returns sampleSetting "/a/./x".toList 1#32 := by
  refine (open_returns_iff sampleSetting "/a/./x".toList 1#32 (by decide)).mpr ?_
  have names : tokens (simplifyPath "/a/./x".toList) = ["a".toList, "x".toList] := by decide
  rw [names]
  have owner : IsOwner sampleMounts.mounts (render ["a".toList, "x".toList]) (some (render [], 0)) :=
    ⟨by decide, by decide, by decide⟩
  have refers : Refers sampleMounts sampleFiles ["a".toList, "x".toList] (some (0, sampleFile 4)) :=
    ⟨_, owner, [], ["a".toList, "x".toList], by decide, rfl, rfl, rfl⟩
  exact ⟨sampleMounts_passable, some (0, sampleFile 4), ⟨_, refers, rfl⟩, by decide, fun _ _ _ => nofun⟩

def sampleState : VfsState Nat :=
  { files := sampleFiles, cache := emptyCache, openFiles := [], curId := 0, handles := [], nextHandle := 0, lazyFlush := [] }

theorem open_stops_kernel :
    Agrees sampleMounts sampleFiles (tokens (simplifyPath "/a/x/y".toList)) sampleState.cache ∧
      vfsOpenFile sampleCallbacks sampleMounts.tree sampleState "/a/x/y".toList 1#32 = .error (.vfs (.lookup .notDirectory)) ∧
      ¬ Returns sampleSetting "/a/x/y".toList 1#32 ∧
      vfsOpenFile sampleCallbacks sampleMounts.tree sampleState "/dev/new".toList 6#32 = .error .entryRefused ∧
      ¬ Returns sampleSetting "/dev/new".toList 6#32 := by
  have agrees : ∀ names, Agrees sampleMounts sampleFiles names sampleState.cache := nofun
  have through : vfsOpenFile sampleCallbacks sampleMounts.tree sampleState "/a/x/y".toList 1#32 =
    .error (.vfs (.lookup .notDirectory)) := rfl
  have refused : vfsOpenFile sampleCallbacks sampleMounts.tree sampleState "/dev/new".toList
      6#32 = .error .entryRefused := rfl
  refine ⟨agrees _, through, fun returns => ?_, refused, fun returns => ?_⟩
  · obtain ⟨result, returned⟩ := returns sampleState rfl (agrees _)
    cases returned.symm.trans through
  · obtain ⟨result, returned⟩ := returns sampleState rfl (agrees _)
    cases returned.symm.trans refused

end every

end Bincows.Vfs.Opening
