import Bincows.Fs.Lookups

set_option autoImplicit false

namespace Bincows.Vfs

open Function List

variable {F : Type}

inductive VfsFault where
  | lookup (fault : DirFault)
  | noHandle
  | noVfile
  | noName
  | notFound
  | notDirectory
  | directorySize
  | notRegular
  deriving DecidableEq

/-- The entry that `fat32_add_dirent` makes for a file, as it is read back: no cluster yet, and all of the rights. -/
def newFile : FastDirent := { ino := 0, fileSize := 0, type := .reg, rights := 31 }

def FileSystem.addDirent (fs : FileSystem) (dir : Nat) (name : Str) : FileSystem :=
  { fs with readDir := update fs.readDir dir (fs.readDir dir ++ [{ name, fast := newFile }]) }

def setMetadata (name : Str) (addr fileSize : Nat) : List DirEntry -> List DirEntry
  | [] => []
  | e :: rest =>
    if e.name = name then { e with fast := { e.fast with ino := addr, fileSize } } :: rest
    else e :: setMetadata name addr fileSize rest

def FileSystem.updateDirent (fs : FileSystem) (dir : Nat) (name : Str) (addr fileSize : Nat) : Except VfsFault FileSystem :=
  match (fs.readDir dir).find? (·.name = name) with
  | none => .error .notFound
  | some e =>
    if e.fast.type ≠ .reg then .error .notRegular
    else .ok { fs with readDir := update fs.readDir dir (setMetadata name addr fileSize (fs.readDir dir)) }

structure FileSystem.Keeps (fs fs' : FileSystem) : Prop where
  root : fs'.rootAddr = fs.rootAddr
  dirs : ∀ ino e, e.fast.type = .dir -> (e ∈ fs'.readDir ino ↔ e ∈ fs.readDir ino)
  kept : ∀ ino, ∀ e ∈ fs.readDir ino, ∃ e' ∈ fs'.readDir ino,
    e'.name = e.name ∧ e'.fast.type = e.fast.type ∧ e'.fast.rights = e.fast.rights

namespace FileSystem

variable {fs fs' : FileSystem} {cur d : FastDirent} {names : List Str} {name : Str}

theorem Keeps.rootDirent (keeps : fs.Keeps fs') : rootDirent fs' = rootDirent fs := by
  rw [Vfs.rootDirent, Vfs.rootDirent, keeps.root]

theorem dir_of_descend (reached : fs.descend cur names = some d) (dir : d.type = .dir) : cur.type = .dir := by
  cases names with
  | nil =>
    cases reached
    exact dir
  | cons name names =>
    obtain ⟨child, found, -⟩ := Option.bind_eq_some_iff.mp reached
    obtain ⟨-, -, curDir, -⟩ := mem_of_child found
    exact curDir

theorem descend_concat_eq_some : fs.descend cur (names ++ [name]) = some d ↔
    ∃ dir, fs.descend cur names = some dir ∧ dir.type = .dir ∧ fs.child dir name = some d := by
  rw [descend_append, Option.bind_eq_some_iff]
  refine exists_congr fun dir => and_congr_right fun _ => ?_
  have single : fs.descend dir [name] = fs.child dir name := Option.bind_fun_some _
  rw [single]
  refine ⟨fun found => ⟨?_, found⟩, And.right⟩
  obtain ⟨-, -, dirType, -⟩ := mem_of_child found
  exact dirType

section

variable (keeps : fs.Keeps fs') (wf : fs.WellFormed) (wf' : fs'.WellFormed)
include keeps wf wf'

theorem Keeps.child_dir (dir : d.type = .dir) :
    fs'.child cur name = some d ↔ fs.child cur name = some d := by
  constructor
  · intro found
    obtain ⟨e, listed, curDir, rfl, rfl⟩ := mem_of_child found
    exact wf.child_of_mem curDir ((keeps.dirs _ e dir).mp listed)
  · intro found
    obtain ⟨e, listed, curDir, rfl, rfl⟩ := mem_of_child found
    exact wf'.child_of_mem curDir ((keeps.dirs _ e dir).mpr listed)

theorem Keeps.descend_dir (dir : d.type = .dir) :
    fs'.descend cur names = some d ↔ fs.descend cur names = some d := by
  induction names generalizing cur with
  | nil => exact Iff.rfl
  | cons name names ih =>
    rw [descend, descend, Option.bind_eq_some_iff, Option.bind_eq_some_iff]
    constructor
    · rintro ⟨child, found, reached⟩
      exact ⟨child, (keeps.child_dir wf wf' (dir_of_descend reached dir)).mp found, ih.mp reached⟩
    · rintro ⟨child, found, reached⟩
      have before := ih.mpr reached
      exact ⟨child, (keeps.child_dir wf wf' (dir_of_descend before dir)).mpr found, before⟩

theorem Keeps.descend (reached : fs.descend cur names = some d) :
    ∃ d', fs'.descend cur names = some d' ∧ d'.type = d.type ∧ d'.rights = d.rights ∧ (d.type = .dir -> d' = d) := by
  by_cases dir : d.type = .dir
  · exact ⟨d, (keeps.descend_dir wf wf' dir).mpr reached, rfl, rfl, fun _ => rfl⟩
  rcases eq_nil_or_concat' names with rfl | ⟨front, name, rfl⟩
  · cases reached
    exact ⟨cur, rfl, rfl, rfl, fun _ => rfl⟩
  · rw [descend_concat_eq_some] at reached
    obtain ⟨parent, above, parentDir, found⟩ := reached
    obtain ⟨e, listed, -, rfl, rfl⟩ := mem_of_child found
    obtain ⟨e', listed', sameName, sameType, sameRights⟩ := keeps.kept _ e listed
    refine ⟨e'.fast, ?_, sameType, sameRights, fun impossible => absurd impossible dir⟩
    rw [descend_concat_eq_some]
    exact ⟨parent, (keeps.descend_dir wf wf' parentDir).mpr above, parentDir, sameName ▸ wf'.child_of_mem parentDir listed'⟩

theorem Keeps.descend_back (reached : fs'.descend cur names = some d) :
    (∃ d', fs.descend cur names = some d') ∨ ∃ front name dir, names = front ++ [name] ∧ fs.descend cur front = some dir ∧
      dir.type = .dir ∧ fs.child dir name = none ∧ fs'.child dir name = some d := by
  rcases eq_nil_or_concat' names with rfl | ⟨front, name, rfl⟩
  · exact .inl ⟨cur, rfl⟩
  obtain ⟨dir, above, dirType, found⟩ := descend_concat_eq_some.mp reached
  rw [keeps.descend_dir wf wf' dirType] at above
  cases before : fs.child dir name with
  | none => exact .inr ⟨front, name, dir, rfl, above, dirType, before, found⟩
  | some d' => exact .inl ⟨d', descend_concat_eq_some.mpr ⟨dir, above, dirType, before⟩⟩

end

end FileSystem

section changes

variable {fs fs' : FileSystem} {name : Str} {addr fileSize dir : Nat} {ents : List DirEntry}
  {e : DirEntry}

theorem mem_setMetadata (distinct : (ents.map DirEntry.name).Nodup) :
    e ∈ setMetadata name addr fileSize ents ↔ (e ∈ ents ∧ e.name ≠ name) ∨
      ∃ old ∈ ents, old.name = name ∧ e = { old with fast := { old.fast with ino := addr, fileSize } } := by
  induction ents with
  | nil => simp [setMetadata]
  | cons head rest ih =>
    rw [map_cons, nodup_cons] at distinct
    rw [setMetadata]
    by_cases here : head.name = name
    · have others : ∀ x ∈ rest, x.name ≠ name := fun x member same =>
        distinct.1 (mem_map.mpr ⟨x, member, same.trans here.symm⟩)
      rw [if_pos here]
      simp only [mem_cons]
      constructor
      · rintro (rfl | member)
        · exact .inr ⟨head, .inl rfl, here, rfl⟩
        · exact .inl ⟨.inr member, others e member⟩
      · rintro (⟨rfl | member, different⟩ | ⟨old, rfl | member, same, rfl⟩)
        · exact absurd here different
        · exact .inr member
        · exact .inl rfl
        · exact absurd same (others old member)
    · rw [if_neg here]
      simp only [mem_cons, ih distinct.2]
      constructor
      · rintro (rfl | ⟨member, different⟩ | ⟨old, member, same, rfl⟩)
        · exact .inl ⟨.inl rfl, here⟩
        · exact .inl ⟨.inr member, different⟩
        · exact .inr ⟨old, .inr member, same, rfl⟩
      · rintro (⟨rfl | member, different⟩ | ⟨old, rfl | member, same, rfl⟩)
        · exact .inl rfl
        · exact .inr (.inl ⟨member, different⟩)
        · exact absurd same here
        · exact .inr (.inr ⟨old, member, same, rfl⟩)

theorem map_name_setMetadata (name : Str) (addr fileSize : Nat) (ents : List DirEntry) :
    (setMetadata name addr fileSize ents).map DirEntry.name = ents.map DirEntry.name := by
  induction ents with
  | nil => rfl
  | cons head rest ih =>
    rw [setMetadata]
    split
    · rfl
    · rw [map_cons, map_cons, ih]

structure Updated (fs fs' : FileSystem) (dir : Nat) (name : Str) (addr fileSize : Nat) : Prop where
  root : fs'.rootAddr = fs.rootAddr
  names : ∀ ino, (fs'.readDir ino).map DirEntry.name = (fs.readDir ino).map DirEntry.name
  regular : ∀ e ∈ fs.readDir dir, e.name = name -> e.fast.type = .reg
  entries : ∀ ino e, e ∈ fs'.readDir ino ↔ (e ∈ fs.readDir ino ∧ ¬ (ino = dir ∧ e.name = name)) ∨
    (ino = dir ∧ ∃ old ∈ fs.readDir dir, old.name = name ∧ e = { old with fast := { old.fast with ino := addr, fileSize } })

theorem updateDirent_updated (wf : fs.WellFormed) (returns : fs.updateDirent dir name addr fileSize = .ok fs') :
    Updated fs fs' dir name addr fileSize := by
  rw [FileSystem.updateDirent] at returns
  cases found : (fs.readDir dir).find? (·.name = name) with
  | none =>
    rw [found] at returns
    cases returns
  | some old =>
    rw [found] at returns
    dsimp only at returns
    split at returns
    · cases returns
    rename_i regular
    cases returns
    have regular : old.fast.type = .reg := Decidable.not_not.mp regular
    have member := mem_of_find?_eq_some found
    have sameName : old.name = name := by simpa using find?_some found
    refine ⟨rfl, ?_, ?_, ?_⟩
    · intro ino
      show map DirEntry.name (update fs.readDir dir _ ino) = _
      rw [update_apply]
      split
      · rename_i here
        rw [here, map_name_setMetadata]
      · rfl
    · intro e listed same
      have := inj_on_of_nodup_map (wf.distinct dir) listed member (same.trans sameName.symm)
      rw [this, regular]
    · intro ino e
      simp only [update_apply]
      by_cases here : ino = dir
      · subst here
        simp only [if_true, true_and, mem_setMetadata (wf.distinct ino)]
      · simp [here]

section

variable (updated : Updated fs fs' dir name addr fileSize)
include updated

theorem Updated.keeps : fs.Keeps fs' := by
  refine ⟨updated.root, ?_, ?_⟩
  · intro ino e isDir
    rw [updated.entries]
    constructor
    · rintro (⟨listed, -⟩ | ⟨-, old, member, same, rfl⟩)
      · exact listed
      · have regular := updated.regular old member same
        rw [regular] at isDir
        cases isDir
    · intro listed
      refine .inl ⟨listed, ?_⟩
      rintro ⟨rfl, same⟩
      have regular := updated.regular e listed same
      rw [regular] at isDir
      cases isDir
  · intro ino e listed
    by_cases here : ino = dir ∧ e.name = name
    · exact ⟨_, (updated.entries ino _).mpr (.inr ⟨here.1, e, here.1 ▸ listed, here.2, rfl⟩), rfl, rfl, rfl⟩
    · exact ⟨e, (updated.entries ino e).mpr (.inl ⟨listed, here⟩), rfl, rfl, rfl⟩

theorem Updated.wellFormed (wf : fs.WellFormed) : fs'.WellFormed := by
  refine ⟨?_, ?_, ?_⟩
  · intro ino e listed
    rcases (updated.entries ino e).mp listed with ⟨old, -⟩ | ⟨-, old, member, -, rfl⟩
    · exact wf.names ino e old
    · exact wf.names dir old member
  · intro ino
    rw [updated.names]
    exact wf.distinct ino
  · intro ino e listed
    rcases (updated.entries ino e).mp listed with ⟨old, -⟩ | ⟨-, old, member, -, rfl⟩
    · exact wf.rights ino e old
    · exact wf.rights dir old member

theorem Updated.child_eq_none {cur : FastDirent} {n : Str} (absent : fs.child cur n = none) : fs'.child cur n = none := by
  by_contra present
  obtain ⟨d, found⟩ := Option.ne_none_iff_exists'.mp present
  obtain ⟨e, listed, curDir, rfl, rfl⟩ := FileSystem.mem_of_child found
  have named : e.name ∈ (fs.readDir cur.ino).map DirEntry.name := updated.names cur.ino ▸ mem_map.mpr ⟨e, listed, rfl⟩
  obtain ⟨old, member, same⟩ := mem_map.mp named
  rw [FileSystem.child, if_pos curDir, Option.map_eq_none_iff, find?_eq_none] at absent
  exact absent old member (decide_eq_true same)

end

theorem mem_addDirent (ino : Nat) : e ∈ (fs.addDirent dir name).readDir ino ↔
    e ∈ fs.readDir ino ∨ (ino = dir ∧ e = { name, fast := newFile }) := by
  show e ∈ update fs.readDir dir _ ino ↔ _
  rw [update_apply]
  by_cases here : ino = dir
  · subst here
    simp
  · simp [here]

theorem addDirent_keeps (fs : FileSystem) (dir : Nat) (name : Str) : fs.Keeps (fs.addDirent dir name) := by
  refine ⟨rfl, ?_, ?_⟩
  · intro ino e isDir
    rw [mem_addDirent]
    refine ⟨?_, .inl⟩
    rintro (listed | ⟨-, rfl⟩)
    · exact listed
    · cases isDir
  · intro ino e listed
    exact ⟨e, (mem_addDirent ino).mpr (.inl listed), rfl, rfl, rfl⟩

theorem addDirent_wellFormed (wf : fs.WellFormed) (valid : ValidName name)
    (new : ∀ e ∈ fs.readDir dir, e.name ≠ name) : (fs.addDirent dir name).WellFormed := by
  refine ⟨?_, ?_, ?_⟩
  · intro ino e listed
    rcases (mem_addDirent ino).mp listed with old | ⟨-, rfl⟩
    · exact wf.names ino e old
    · exact valid
  · intro ino
    show (map DirEntry.name (update fs.readDir dir _ ino)).Nodup
    rw [update_apply]
    split
    · exact (wf.distinct dir).map_concat new
    · exact wf.distinct ino
  · intro ino e listed
    rcases (mem_addDirent ino).mp listed with old | ⟨-, rfl⟩
    · exact wf.rights ino e old
    · exact .inr (show newFile.rights ≠ 0 by decide)

end changes

structure World (h : MountHistory F) (files : F -> FileSystem) : Prop where
  represents : Represents h
  once : ∀ e ∈ h.mounts, ∀ e' ∈ h.mounts, e.2 = e'.2 -> e = e'
  wf : ∀ fs, (files fs).WellFormed
  owned : Owned h files
  dirs : ∀ fs rest rest' d d', (files fs).descend (rootDirent (files fs)) rest = some d ->
    (files fs).descend (rootDirent (files fs)) rest' = some d' -> d.type = .dir -> d'.type = .dir ->
      d.ino = d'.ino -> rest = rest'

namespace World

variable [DecidableEq F] {h : MountHistory F} {files : F -> FileSystem} {fs fs' : F}
  {changed : FileSystem} {names : List Str} {d : FastDirent}

omit [DecidableEq F] in
theorem admits (world : World h files) : Admits h files fun names fs d => Refers h files names (some (fs, d)) :=
  refers_admits world.represents world.wf world.owned

theorem refers_other (other : fs' ≠ fs) (refers : Refers h (update files fs changed) names (some (fs', d))) :
    Refers h files names (some (fs', d)) := by
  obtain ⟨front, rest, validFront, rfl, owner, reached⟩ := refers.reached
  rw [update_of_ne other] at reached
  have next := refers_of_owner files validFront owner
  rwa [reached] at next

section

variable (world : World h files) (keeps : (files fs).Keeps changed) (wf' : changed.WellFormed)
include world keeps wf'

theorem change (new : ∀ front rest name dir, Valid front -> (render front, fs) ∈ h.mounts ->
      (files fs).descend (rootDirent (files fs)) rest = some dir -> dir.type = .dir -> (files fs).child dir name = none ->
      changed.child dir name ≠ none -> getFsVdir h.tree (render (front ++ (rest ++ [name]))) = some (render front, fs)) :
    World h (update files fs changed) := by
  have allKeep : ∀ fs', (files fs').Keeps (update files fs changed fs') := by
    intro fs'
    rw [update_apply]
    split
    · rename_i same
      exact same ▸ keeps
    · exact ⟨rfl, fun _ _ _ => Iff.rfl, fun _ e listed => ⟨e, listed, rfl, rfl, rfl⟩⟩
  have allWf : ∀ fs', (update files fs changed fs').WellFormed := by
    intro fs'
    rw [update_apply]
    split
    · exact wf'
    · exact world.wf fs'
  refine ⟨world.represents, world.once, allWf, ?_, ?_⟩
  · intro front fs' validFront mounted rest some reached
    obtain ⟨d, reached⟩ := Option.ne_none_iff_exists'.mp reached
    rw [(allKeep fs').rootDirent] at reached
    rcases (allKeep fs').descend_back (world.wf fs') (allWf fs') reached with ⟨d', before⟩ | added
    · exact world.owned front fs' validFront mounted rest some (by simp [before])
    obtain ⟨dirs, name, dir, rfl, above, dirType, absent, found⟩ := added
    by_cases same : fs' = fs
    · subst same
      rw [update_self] at found
      exact new front dirs name dir validFront mounted above dirType absent (by simp [found])
    · rw [update_of_ne same, absent] at found
      cases found
  · intro fs' rest rest' d d' reached reached' dirType dirType' same
    rw [(allKeep fs').rootDirent, (allKeep fs').descend_dir (world.wf fs') (allWf fs') ‹_›] at reached reached'
    exact world.dirs fs' rest rest' d d' reached reached' dirType dirType' same

theorem refers_kept (refers : Refers h files names (some (fs', d))) :
    ∃ d', Refers h (update files fs changed) names (some (fs', d')) ∧ d'.type = d.type ∧
      d'.rights = d.rights ∧ (d.type = .dir -> d' = d) := by
  obtain ⟨front, rest, validFront, rfl, owner, reached⟩ := refers.reached
  by_cases same : fs' = fs
  · subst same
    obtain ⟨d', reached', facts⟩ := keeps.descend (world.wf fs') wf' reached
    refine ⟨d', ?_, facts⟩
    have next := refers_of_owner (update files fs' changed) validFront owner
    rwa [update_self, keeps.rootDirent, reached'] at next
  · refine ⟨d, ?_, rfl, rfl, fun _ => rfl⟩
    have next := refers_of_owner (update files fs changed) validFront owner
    rwa [update_of_ne same, reached] at next

theorem refers_changed
    (valid : Valid names) (refers : Refers h (update files fs changed) names (some (fs, d))) (file : d.type ≠ .dir) :
    ∃ front rest dir e, names = front ++ (rest ++ [e.name]) ∧ Valid front ∧ (render front, fs) ∈ h.mounts ∧
      (files fs).descend (rootDirent (files fs)) rest = some dir ∧ dir.type = .dir ∧
      Refers h files (front ++ rest) (some (fs, dir)) ∧ e ∈ changed.readDir dir.ino ∧ e.fast = d := by
  obtain ⟨front, rest, validFront, rfl, owner, reached⟩ := refers.reached
  rw [update_self, keeps.rootDirent] at reached
  rcases eq_nil_or_concat' rest with rfl | ⟨rest, name, rfl⟩
  · cases reached
    exact absurd rfl file
  obtain ⟨dir, above, dirType, found⟩ := FileSystem.descend_concat_eq_some.mp reached
  rw [keeps.descend_dir (world.wf fs) wf' dirType] at above
  obtain ⟨e, listed, -, rfl, rfl⟩ := FileSystem.mem_of_child found
  have within : front ++ rest <+: front ++ (rest ++ [e.name]) := by simp
  have next := refers_of_owner files validFront (owner.shorten world.represents valid (prefix_append front rest) within)
  rw [above] at next
  exact ⟨front, rest, dir, e, rfl, validFront, owner.1, above, dirType, next, listed, rfl⟩

end

omit [DecidableEq F] in
theorem unique_dir (world : World h files) {front front' rest rest' : List Str} {dir dir' : FastDirent}
    (mounted : (render front, fs) ∈ h.mounts) (mounted' : (render front', fs) ∈ h.mounts) (valid : Valid front)
    (valid' : Valid front') (reached : (files fs).descend (rootDirent (files fs)) rest = some dir)
    (reached' : (files fs).descend (rootDirent (files fs)) rest' = some dir') (isDir : dir.type = .dir)
    (isDir' : dir'.type = .dir) (same : dir.ino = dir'.ino) : front = front' ∧ rest = rest' := by
  have points := world.once _ mounted _ mounted' rfl
  exact ⟨render_injective valid valid' (Prod.mk.inj points).1,
    world.dirs fs rest rest' dir dir' reached reached' isDir isDir' same⟩

end World

end Bincows.Vfs
