import Bincows.Fs.Directories

set_option autoImplicit false

namespace Bincows.Vfs

open List

variable {F : Type} {name dirPath : Str}

def Refers (h : MountHistory F) (files : F -> FileSystem) (names : List Str) (found : Option (F × FastDirent)) : Prop :=
  ∃ owner, IsOwner h.mounts (render names) owner ∧
    match owner with
    | none => found = none
    | some (m, fs) => ∃ front rest, Valid front ∧ m = render front ∧ names = front ++ rest ∧
        found = ((files fs).descend (rootDirent (files fs)) rest).map (fs, ·)

def Owned (h : MountHistory F) (files : F -> FileSystem) : Prop :=
  ∀ front fs, Valid front -> (render front, fs) ∈ h.mounts -> ∀ rest, rest ≠ [] ->
    (files fs).descend (rootDirent (files fs)) rest ≠ none ->
      getFsVdir h.tree (render (front ++ rest)) = some (render front, fs)

def Walkable (fs : FileSystem) : Str -> FastDirent -> List Str -> Prop
  | _, _, [] => True
  | dirPath, cur, name :: rest =>
    cur.type = .dir ∧ (∀ e ∈ fs.readDir cur.ino, e.name.length + dirPath.length + 1 < maxPath) ∧
      ∀ child, fs.child cur name = some child -> Walkable fs (dirPath ++ '/' :: name) child rest

def Passable (h : MountHistory F) (files : F -> FileSystem) (names : List Str) : Prop :=
  ∀ front rest fs, names = front ++ rest -> IsOwner h.mounts (render names)
    (some (render front, fs)) -> Walkable (files fs) (joined front) (rootDirent (files fs)) rest

abbrev Owns (h : MountHistory F) (front : List Str) (fs : F) (names : List Str) : Prop :=
  IsOwner h.mounts (render names) (some (render front, fs))

section owners

theorem Valid.concat {names : List Str} (valid : Valid names) (validName : ValidName name) :
    Valid (names ++ [name]) := by
  exact forall_mem_concat valid validName

variable {h : MountHistory F} {names front rest : List Str} {fs : F}

theorem IsOwner.unique (represents : Represents h) {owner owner' : Option (Str × F)}
    (first : IsOwner h.mounts (render names) owner)
    (second : IsOwner h.mounts (render names) owner') : owner = owner' := by
  match owner, owner' with
  | none, none => rfl
  | none, some m => exact absurd second.2.1 (first m second.1)
  | some m, none => exact absurd first.2.1 (second m first.1)
  | some m, some m' =>
    have shorter := first.2.2 m' second.1 second.2.1
    have longer := second.2.2 m first.1 first.2.1
    have paths : m.1 = m'.1 := IsPrefix.eq_of_length_le
      (prefix_of_prefix_length_le (first.2.1.within names) (second.2.1.within names) longer) shorter
    have files : m.2 = m'.2 := represents.unique m.1 first.1 (paths ▸ second.1)
    exact congrArg some (Prod.ext paths files)

theorem IsOwner.shorten {whole : List Str} (represents : Represents h) (valid : Valid whole)
    (owner : Owns h front fs whole) (below : front <+: names) (within : names <+: whole) :
    Owns h front fs names := by
  have validNames : Valid names := valid.shorter within
  have validFront : Valid front := validNames.shorter below
  refine ⟨owner.1, (componentPrefix_render validFront validNames).mpr below, ?_⟩
  intro e member prefixed
  obtain ⟨names', valid', path⟩ := represents.canonical e member
  refine owner.2.2 e member ?_
  rw [path] at prefixed ⊢
  exact (componentPrefix_render valid' valid).mpr (((componentPrefix_render valid' validNames).mp prefixed).trans within)

theorem refers_of_owner (files : F -> FileSystem) (validFront : Valid front)
    (owner : Owns h front fs (front ++ rest)) :
    Refers h files (front ++ rest) (((files fs).descend (rootDirent (files fs)) rest).map (fs, ·)) :=
  ⟨_, owner, front, rest, validFront, rfl, rfl, rfl⟩

theorem Refers.unique {files : F -> FileSystem} (represents : Represents h) {found found' : Option (F × FastDirent)}
    (first : Refers h files names found) (second : Refers h files names found') (valid : Valid names) : found = found' := by
  obtain ⟨owner, owns, first⟩ := first
  obtain ⟨owner', owns', second⟩ := second
  cases owns.unique represents owns'
  match owner with
  | none => exact first.trans second.symm
  | some (m, fs) =>
    obtain ⟨front, rest, validFront, same, rfl, rfl⟩ := first
    obtain ⟨front', rest', validFront', same', split, rfl⟩ := second
    have fronts : front = front' := render_injective validFront validFront' (same ▸ same')
    subst fronts
    rw [append_cancel_left split]

end owners

section admitted

variable {h : MountHistory F} {files : F -> FileSystem} {may : List Str -> F -> FastDirent -> Prop}
  {names front : List Str} {fs : F} {cur d : FastDirent} {cache : DirCache F}

/-- `may names fs d`: a lookup of the names may find `d` on `fs`. Roots and listings give only what may be found. -/
structure Admits (h : MountHistory F) (files : F -> FileSystem) (may : List Str -> F -> FastDirent -> Prop) : Prop where
  owned : ∀ names fs d, Valid names -> may names fs d ->
    ∃ front, Valid front ∧ front <+: names ∧ IsOwner h.mounts (render names) (some (render front, fs))
  root : ∀ front fs, Valid front -> IsOwner h.mounts (render front) (some (render front, fs)) ->
    may front fs (rootDirent (files fs))
  child : ∀ names fs d, Valid names -> may names fs d -> d.type = .dir ->
    ∀ e ∈ (files fs).readDir d.ino, ValidName e.name ∧ may (names ++ [e.name]) fs e.fast
  rights : ∀ names fs d, may names fs d -> d.type = .dir ∨ d.rights ≠ 0

def Holds (may : List Str -> F -> FastDirent -> Prop) (cache : DirCache F) : Prop :=
  ∀ names, Valid names -> ∀ ent, getCacheEntry cache (render names) = some ent -> may names ent.fs ent.entry

def Listable (fs : FileSystem) (dirPath : Str) (cur : FastDirent) : Prop :=
  cur.type = .dir ∧ ∀ e ∈ fs.readDir cur.ino, e.name.length + dirPath.length + 1 < maxPath

def Blocked (files : F -> FileSystem) (may : List Str -> F -> FastDirent -> Prop) (front : List Str)
    (fs : F) (names : List Str) : Prop :=
  ∃ dir cur name, front <+: dir ∧ dir ++ [name] <+: names ∧ may dir fs cur ∧ ¬ Listable (files fs) (joined dir) cur

def Missing (files : F -> FileSystem) (may : List Str -> F -> FastDirent -> Prop) (front : List Str)
    (fs : F) (names : List Str) : Prop :=
  ∃ dir cur name, front <+: dir ∧ dir ++ [name] <+: names ∧ may dir fs cur ∧ (files fs).child cur name = none

theorem Holds.hit (holds : Holds may cache) (valid : Valid names) {ent : DirCacheEnt F}
    (found : getCacheEntry cache (render names) = some ent) : may names ent.fs ent.entry := holds names valid ent found

theorem Holds.add (holds : Holds may cache) (valid : Valid names) {path : Str} (canonical : path = render names)
    (admitted : may names fs d) : Holds may (addCacheEntry cache path fs d) := by
  intro names' valid' ent found
  rcases getCacheEntry_add found with ⟨same, rfl⟩ | before
  · rw [render_injective valid' valid (same.trans canonical)]
    exact admitted
  · exact holds names' valid' ent before

def Adds (ents : List DirEntry) (fs : F) (dirPath : Str) (cache cache' : DirCache F) : Prop :=
  ∀ p ent, getCacheEntry cache' p = some ent ->
    (∃ e ∈ ents, p = dirPath ++ '/' :: e.name ∧ ent = { path := p, fs, entry := e.fast }) ∨ getCacheEntry cache p = some ent

theorem cacheListing_adds (fs : F) (dirPath : Str) (ents : List DirEntry) (cache : DirCache F) :
    (cacheListing fs dirPath cache ents).Ensures (fun _ => ¬ ∀ e ∈ ents, e.name.length + dirPath.length + 1 < maxPath)
      fun cache' => (∀ e ∈ ents, e.name.length + dirPath.length + 1 < maxPath) ∧ Adds ents fs dirPath cache cache' := by
  induction ents generalizing cache with
  | nil => exact ⟨nofun, fun _ _ => .inr⟩
  | cons e ents ih =>
    rw [cacheListing, foldlM_cons]
    split
    next short =>
      refine (ih (addCacheEntry cache (dirPath ++ '/' :: e.name) fs e.fast)).mono ?_ ?_
      · exact fun _ long all => long fun e' member => all e' (mem_cons_of_mem _ member)
      rintro cache' ⟨shorts, added⟩
      refine ⟨forall_mem_cons.mpr ⟨short, shorts⟩, fun p ent found => ?_⟩
      rcases added p ent found with ⟨e', member, same⟩ | before
      · exact .inl ⟨e', mem_cons_of_mem _ member, same⟩
      · rcases getCacheEntry_add before with ⟨same, rfl⟩ | before
        · subst same
          exact .inl ⟨e, mem_cons_self, rfl, rfl⟩
        · exact .inr before
    next short =>
      exact fun all => short (all e mem_cons_self)

theorem findFsChild_adds (name dirPath : Str)
    (rights : cur.type = .dir -> ∀ e ∈ (files fs).readDir cur.ino, e.fast.type = .dir ∨ e.fast.rights ≠ 0) :
    (findFsChild files fs cur name dirPath cache).Ensures (fun _ => ¬ Listable (files fs) dirPath cur)
      fun result => Listable (files fs) dirPath cur ∧ result.2 = (files fs).child cur name ∧
        Adds ((files fs).readDir cur.ino) fs dirPath cache result.1 := by
  rw [findFsChild]
  by_cases dir : cur.type = .dir
  · rw [if_neg (not_not_intro dir), readDir, bind_assoc]
    have listed : (cacheListing fs dirPath cache ((files fs).readDir cur.ino)).Ensures
        (fun _ => ¬ Listable (files fs) dirPath cur) _ :=
      (cacheListing_adds fs dirPath _ cache).mono (fun _ long listable => long listable.2) fun _ => id
    refine listed.bind ?_
    rintro cache' ⟨short, added⟩
    rw [FileSystem.child, if_pos dir]
    simp only [bind, Except.bind]
    cases found : ((files fs).readDir cur.ino).find? (·.name = name) with
    | none => exact ⟨⟨dir, short⟩, rfl, added⟩
    | some ent =>
      dsimp only
      rw [if_pos (rights dir ent (mem_of_find?_eq_some found))]
      exact ⟨⟨dir, short⟩, rfl, added⟩
  · rw [if_pos dir]
    exact fun listable => dir listable.1

theorem joined_concat (names : List Str) (name : Str) : joined names ++ '/' :: name = render (names ++ [name]) := by
  rw [render, if_neg (by simp), joined_append]
  simp [joined]

theorem double_slash_ne_render (name : Str) (valid : Valid names) : '/' :: '/' :: name ≠ render names := by
  intro same
  cases names with
  | nil => cases same
  | cons first names =>
    have clean := valid first mem_cons_self
    have slash : '/' :: name = first ++ joined names := (cons.inj same).2
    cases first with
    | nil => exact absurd rfl clean.some
    | cons c first =>
      rw [cons_append, cons.injEq] at slash
      exact absurd (slash.1 ▸ mem_cons_self) clean.noSlash

theorem Holds.listing {cache' : DirCache F} (holds : Holds may cache) (admits : Admits h files may)
    (valid : Valid names) (admitted : may names fs cur) (dir : cur.type = .dir)
    (path : dirPath = joined names ∨ dirPath = render names)
    (added : Adds ((files fs).readDir cur.ino) fs dirPath cache cache') : Holds may cache' := by
  intro names' valid' ent found
  rcases added _ ent found with ⟨e, member, same, rfl⟩ | before
  · obtain ⟨validName, next⟩ := admits.child names fs cur valid admitted dir e member
    have joins : dirPath = joined names -> may names' fs e.fast := by
      rintro rfl
      rw [joined_concat] at same
      rw [render_injective valid' (valid.concat validName) same]
      exact next
    rcases path with direct | canonical
    · exact joins direct
    cases names with
    | cons name names => exact joins canonical
    | nil =>
      subst canonical
      exact absurd same.symm (double_slash_ne_render e.name valid')
  · exact holds names' valid' ent before

theorem findFsChild_holds (admits : Admits h files may) (holds : Holds may cache)
    (valid : Valid names) (admitted : may names fs cur) (name : Str) :
    (findFsChild files fs cur name (joined names) cache).Ensures (fun _ => ¬ Listable (files fs) (joined names) cur)
      fun result => Holds may result.1 ∧ result.2 = (files fs).child cur name := by
  have rights : cur.type = .dir -> ∀ e ∈ (files fs).readDir cur.ino, e.fast.type = .dir ∨ e.fast.rights ≠ 0 :=
    fun dir e member => admits.rights _ _ _ (admits.child names fs cur valid admitted dir e member).2
  refine (findFsChild_adds name (joined names) rights).mono (fun _ => id) ?_
  rintro ⟨cache', child⟩ ⟨listable, same, added⟩
  exact ⟨holds.listing admits valid admitted listable.1 (.inl rfl) added, same⟩

variable {done rest whole : List Str} {stuck : Prop}
  {reaches : List Str -> FastDirent -> DirCache F -> Prop} {misses : DirCache F -> Prop}

/-- `reaches done cur cache`: the names behind the mount point `front` have led to `cur`. The next
one is found in the cache or in a listing. -/
def Walks (files : F -> FileSystem) (fs : F) (front whole : List Str) (stuck : Prop)
    (reaches : List Str -> FastDirent -> DirCache F -> Prop) (misses : DirCache F -> Prop) : Prop :=
  ∀ done name rest cur cache, whole = done ++ name :: rest -> reaches done cur cache ->
    match getCacheEntry cache (render (front ++ (done ++ [name]))) with
    | some ent => ent.fs = fs ∧ reaches (done ++ [name]) ent.entry cache
    | none => (findFsChild files fs cur name (joined (front ++ done)) cache).Ensures (fun _ => stuck) fun result =>
        result.2.elim (misses result.1) (reaches (done ++ [name]) · result.1)

theorem Walks.openFrom [DecidableEq F] (walks : Walks files fs front whole stuck reaches misses)
    (split : whole = done ++ rest) (start : reaches done cur cache) :
    (openFrom files fs cur (joined (front ++ done) ++ ['/']) cache rest).Ensures (fun _ => stuck) fun result =>
      result.2.elim (misses result.1) fun (path, d) => path = joined (front ++ whole) ∧ reaches whole d result.1 := by
  induction rest generalizing done cur cache with
  | nil =>
    rw [append_nil] at split
    rw [Vfs.openFrom, dropLast_concat, split]
    exact ⟨rfl, start⟩
  | cons name rest ih =>
    have step := walks done name rest cur cache split start
    have next : joined (front ++ done) ++ '/' :: name = joined (front ++ (done ++ [name])) := by
      rw [joined_concat, render, if_neg (by simp), append_assoc]
    rw [append_cons] at split
    rw [render, if_neg (by simp)] at step
    rw [Vfs.openFrom, append_assoc, singleton_append, dropLast_concat, next]
    cases hit : getCacheEntry cache (joined (front ++ (done ++ [name]))) with
    | some ent =>
      rw [hit] at step
      dsimp only
      rw [if_neg (not_not_intro step.1)]
      exact ih split step.2
    | none =>
      rw [hit] at step
      refine step.bind ?_
      rintro ⟨cache', child⟩ found
      cases child with
      | none => exact found
      | some child => exact ih split found

theorem Admits.walks (admits : Admits h files may) (represents : Represents h)
    (valid : Valid (front ++ rest)) (owner : Owns h front fs (front ++ rest))
    (blocks : Blocked files may front fs (front ++ rest) -> stuck) :
    Walks files fs front rest stuck (fun done d cache => Holds may cache ∧ may (front ++ done) fs d)
      fun cache => Holds may cache ∧ Missing files may front fs (front ++ rest) := by
  rintro done name rest cur cache rfl ⟨holds, reached⟩
  have onWay : front ++ done ++ [name] <+: front ++ (done ++ name :: rest) := by simp
  have validNext : Valid (front ++ done ++ [name]) := valid.shorter onWay
  have validDone : Valid (front ++ done) := validNext.left
  beta_reduce
  rw [← append_assoc front done [name]]
  split
  · rename_i ent hit
    have next := holds.hit validNext hit
    -- the entry has the owner of the whole path, so the assertion holds
    have sameFs : ent.fs = fs := by
      obtain ⟨front', -, -, owner'⟩ := admits.owned _ _ _ validNext next
      have same := owner'.unique represents (owner.shorten represents valid (by simp) onWay)
      exact (Prod.mk.inj (Option.some.inj same)).2
    exact ⟨sameFs, holds, sameFs ▸ next⟩
  · refine (findFsChild_holds admits holds validDone reached name).mono (fun _ stuck => ?_) ?_
    · exact blocks ⟨front ++ done, cur, name, prefix_append _ _, onWay, reached, stuck⟩
    rintro ⟨cache', child⟩ ⟨holds', rfl⟩
    cases found : (files fs).child cur name with
    | none => exact ⟨holds', front ++ done, cur, name, prefix_append _ _, onWay, reached, found⟩
    | some child =>
      obtain ⟨e, listed, dir, rfl, rfl⟩ := FileSystem.mem_of_child found
      exact ⟨holds', (admits.child _ fs cur validDone reached dir e listed).2⟩

end admitted

section buffers

theorem parentBuffer_append (front : List Str) {rest : List Str} (some : rest ≠ []) (valid : Valid (front ++ rest)) :
    parentBuffer (render front) (render (front ++ rest)) = joined front ++ ['/'] := by
  obtain ⟨name, rest, rfl⟩ := exists_cons_of_ne_nil some
  have whole : render (front ++ name :: rest) = joined front ++ joined (name :: rest) := by
    rw [render, if_neg (by simp), joined_append]
  cases front with
  | nil =>
    have clean := valid name (by simp)
    cases name with
    | nil => exact absurd rfl clean.some
    | cons c name =>
      have first : c ≠ '/' := fun same => clean.noSlash (by simp [same])
      rw [parentBuffer, whole]
      exact if_neg fun same => first (Option.some.inj same)
  | cons n front =>
    have above : render (n :: front) = joined (n :: front) := if_neg (by simp)
    rw [parentBuffer, whole, above, drop_left]
    exact if_pos rfl

theorem drop_render_eq_nil (front rest : List Str) (valid : Valid (front ++ rest)) :
    (render (front ++ rest)).drop (render front).length = [] ↔ rest = [] := by
  have names := openNames_append front rest valid
  constructor
  · intro empty
    rw [openNames, empty] at names
    exact names.symm
  · rintro rfl
    rw [append_nil, drop_length]

end buffers

section opening

variable [DecidableEq F] {h : MountHistory F} {files : F -> FileSystem}
  {may : List Str -> F -> FastDirent -> Prop} {names : List Str} {cache : DirCache F} {path : Str}

def Opens (h : MountHistory F) (files : F -> FileSystem) (may : List Str -> F -> FastDirent -> Prop)
    (names : List Str) : Option (F × FastDirent) -> Prop
  | some (fs, d) => may names fs d
  | none => IsOwner h.mounts (render names) none ∨
      ∃ front fs, Valid front ∧ IsOwner h.mounts (render names) (some (render front, fs)) ∧ Missing files may front fs names

section

variable (represents : Represents h) (valid : Valid names)
  (separated : Separated h.mounts (render names)) (canonical : simplifyPath path = render names)
include represents valid separated canonical

theorem vfsOpen_ensures {stuck : Prop} {post : DirCache F × Option (F × FastDirent) -> Prop}
    (hit : ∀ ent, getCacheEntry cache (render names) = some ent -> post (cache, some (ent.fs, ent.entry)))
    (unowned : IsOwner h.mounts (render names) none -> post (cache, none))
    (owned : ∀ front rest fs, names = front ++ rest -> Valid front -> Owns h front fs names ->
      getCacheEntry cache (render names) = none -> ∃ reaches misses, Walks files fs front rest stuck reaches misses ∧
        reaches [] (rootDirent (files fs)) cache ∧ (∀ cache', misses cache' -> post (cache', none)) ∧
        ∀ d cache', reaches rest d cache' -> (d.type = .dir ∨ d.rights ≠ 0) ∧ post (cache', some (fs, d)) ∧
          post (addCacheEntry cache' (render names) fs d, some (fs, d))) :
    (vfsOpen files h.tree path cache).Ensures (fun _ => stuck) post := by
  rw [vfsOpen, canonical]
  cases cached : getCacheEntry cache (render names) with
  | some ent => exact hit ent cached
  | none =>
    obtain ⟨owner, behind⟩ := (resolves_iff represents valid).mpr separated
    cases selected : getFsVdir h.tree (render names) with
    | none => exact unowned (selected ▸ owner)
    | some point =>
      obtain ⟨m, fs⟩ := point
      rw [selected] at owner
      obtain ⟨front, validFront, same, split⟩ := behind _ selected
      subst same
      dsimp only at split ⊢
      generalize openNames (render front) (render names) = rest at split ⊢
      obtain ⟨reaches, misses, walks, start, missing, found⟩ := owned front rest fs split validFront owner cached
      subst split
      by_cases root : rest = []
      · rw [if_pos ((drop_render_eq_nil front rest valid).mpr root)]
        exact (found _ _ (root ▸ start)).2.1
      rw [if_neg fun empty => root ((drop_render_eq_nil front rest valid).mp empty), parentBuffer_append front root valid]
      have walked := walks.openFrom (nil_append rest).symm start
      rw [append_nil] at walked
      refine walked.bind ?_
      rintro ⟨cache', _ | ⟨buffer, d⟩⟩ ends
      · exact missing _ ends
      · obtain ⟨rfl, reached⟩ := ends
        obtain ⟨rights, -, added⟩ := found d cache' reached
        have whole : joined (front ++ rest) = render (front ++ rest) := (if_neg (by simp [root])).symm
        dsimp only
        rw [if_pos rights, whole]
        exact added

variable (admits : Admits h files may) (holds : Holds may cache)
include admits holds

theorem vfsOpen_holds :
    (vfsOpen files h.tree path cache).Ensures
      (fun _ => ∃ front fs, Valid front ∧ Owns h front fs names ∧
        Blocked files may front fs names)
      fun result => Holds may result.1 ∧ Opens h files may names result.2 := by
  refine vfsOpen_ensures represents valid separated canonical (fun ent hit => ⟨holds, holds.hit valid hit⟩)
    (fun owner => ⟨holds, .inl owner⟩) fun front rest fs split validFront owner _ => ?_
  subst split
  have start := admits.root front fs validFront (owner.shorten represents valid prefix_rfl (prefix_append _ _))
  refine ⟨_, _, admits.walks represents valid owner fun blocked =>
    ⟨front, fs, validFront, owner, blocked⟩, ⟨holds, (append_nil front).symm ▸ start⟩, ?_, ?_⟩
  · exact fun cache' gone => ⟨gone.1, .inr ⟨front, fs, validFront, owner, gone.2⟩⟩
  · exact fun d cache' reached => ⟨admits.rights _ _ _ reached.2, reached, reached.1.add valid rfl reached.2, reached.2⟩

theorem vfsOpendir_holds : (vfsOpendir files h.tree path cache).Ensures (fun _ => True) fun result => Holds may result.1 := by
  have again : simplifyPath (simplifyPath path) = render names := by rw [canonical, simplifyPath_render valid]
  have opened := vfsOpen_holds represents valid separated again admits holds
  rw [vfsOpendir]
  refine (opened.mono (fun _ _ => trivial) fun _ => id).bind ?_
  rintro ⟨cache', found⟩ ⟨holds', opens⟩
  cases found with
  | none => exact holds'
  | some point =>
    obtain ⟨fs, fdir⟩ := point
    dsimp only
    by_cases dir : fdir.type = .dir
    · rw [if_neg (not_not_intro dir)]
      rw [readDir, bind_assoc]
      refine ((cacheListing_adds fs _ _ cache').mono (fun _ _ => trivial) fun _ => id).bind ?_
      exact fun cache'' listed => holds'.listing admits valid opens dir (.inr canonical) listed.2
    · rw [if_pos dir]
      exact holds'

end

end opening

section exact

variable {h : MountHistory F} {files : F -> FileSystem} {names front rest : List Str} {fs : F}
  {d : FastDirent}

theorem Refers.reached (refers : Refers h files names (some (fs, d))) :
    ∃ front rest, Valid front ∧ names = front ++ rest ∧ Owns h front fs names ∧
      (files fs).descend (rootDirent (files fs)) rest = some d := by
  obtain ⟨owner, owns, refers⟩ := refers
  match owner with
  | none => cases refers
  | some (m, fs') =>
    obtain ⟨front, rest, validFront, rfl, rfl, found⟩ := refers
    obtain ⟨d', reached, same⟩ := Option.map_eq_some_iff.mp found.symm
    cases same
    exact ⟨front, rest, validFront, rfl, owns, reached⟩

theorem isOwner_of_selected (represents : Represents h) (validFront : Valid front) (valid : Valid names)
    (below : front <+: names) (selected : getFsVdir h.tree (render names) = some (render front, fs)) :
    Owns h front fs names := by
  have longest := getFsVdir_longest represents (slash_le_render names)
  rw [selected] at longest
  exact ⟨longest.1, (componentPrefix_render validFront valid).mpr below,
    fun e member prefixed => longest.2.2 e member (prefixed.within _)⟩

theorem refers_admits (represents : Represents h) (wf : ∀ fs, (files fs).WellFormed) (owned : Owned h files) :
    Admits h files fun names fs d => Refers h files names (some (fs, d)) := by
  refine ⟨?_, ?_, ?_, ?_⟩
  · intro names fs d valid refers
    obtain ⟨front, rest, validFront, rfl, owner, -⟩ := refers.reached
    exact ⟨front, validFront, prefix_append _ _, owner⟩
  · intro front fs validFront owner
    rw [← append_nil front] at owner ⊢
    exact refers_of_owner files validFront (by simpa using owner)
  · intro names fs d valid refers dir e listed
    have validName := (wf fs).names _ e listed
    refine ⟨validName, ?_⟩
    obtain ⟨front, rest, validFront, rfl, owner, reached⟩ := refers.reached
    have further : (files fs).descend (rootDirent (files fs)) (rest ++ [e.name]) = some e.fast := by
      rw [(files fs).descend_concat reached]
      exact (wf fs).child_of_mem dir listed
    have selected := owned front fs validFront owner.1 (rest ++ [e.name]) (by simp) (by simp [further])
    have validRest := valid.concat validName
    rw [append_assoc] at validRest ⊢
    have owner' := isOwner_of_selected represents validFront validRest (prefix_append _ _) selected
    have next := refers_of_owner files validFront owner'
    rwa [further] at next
  · intro names fs d refers
    obtain ⟨front, rest, -, -, -, reached⟩ := refers.reached
    exact (wf fs).descend_rights (.inl rfl) reached

theorem Walkable.listable {fs : FileSystem} {cur d : FastDirent} {done rest : List Str}
    (walkable : Walkable fs dirPath cur (done ++ name :: rest)) (reached : fs.descend cur done = some d) :
    Listable fs (dirPath ++ joined done) d := by
  induction done generalizing dirPath cur with
  | nil =>
    cases reached
    have empty : dirPath ++ joined [] = dirPath := append_nil _
    rw [empty]
    exact ⟨walkable.1, walkable.2.1⟩
  | cons first done ih =>
    obtain ⟨child, found, reached⟩ := Option.bind_eq_some_iff.mp reached
    have below := ih (walkable.2.2 child found) reached
    rw [append_assoc] at below
    exact below

theorem onWay_reached (represents : Represents h) (valid : Valid names) (validFront : Valid front)
    (owner : Owns h front fs names) {dir : List Str} (below : front <+: dir)
    (onWay : dir ++ [name] <+: names) (refers : Refers h files dir (some (fs, d))) :
    ∃ done rest, dir = front ++ done ∧ names = front ++ (done ++ name :: rest) ∧
      (files fs).descend (rootDirent (files fs)) done = some d := by
  obtain ⟨done, rfl⟩ := below
  obtain ⟨rest, rfl⟩ := onWay
  have ownerDir := owner.shorten represents valid (prefix_append front done) (by simp)
  have validDir : Valid (front ++ done) := fun n member => valid n (by simp at member ⊢; tauto)
  have same := refers.unique represents (refers_of_owner files validFront ownerDir) validDir
  obtain ⟨d', reached, same⟩ := Option.map_eq_some_iff.mp same.symm
  cases same
  exact ⟨done, rest, rfl, by simp, reached⟩

def Sound (h : MountHistory F) (files : F -> FileSystem) (cache : DirCache F) : Prop :=
  Holds (fun names fs d => Refers h files names (some (fs, d))) cache

theorem vfsOpen_refers [DecidableEq F] {cache : DirCache F} {path : Str} (represents : Represents h)
    (wf : ∀ fs, (files fs).WellFormed) (owned : Owned h files) (sound : Sound h files cache) (valid : Valid names)
    (separated : Separated h.mounts (render names)) (canonical : simplifyPath path = render names) :
    (vfsOpen files h.tree path cache).Ensures (fun _ => ¬ Passable h files names)
      fun result => Sound h files result.1 ∧ Refers h files names result.2 := by
  refine (vfsOpen_holds represents valid separated canonical (refers_admits represents wf owned) sound).mono ?_ ?_
  · rintro _ ⟨front, fs, validFront, owner, dir, cur, name, below, onWay, refers, stuck⟩ passable
    obtain ⟨done, rest, rfl, rfl, reached⟩ := onWay_reached represents valid validFront owner below onWay refers
    have listable := (passable front _ fs rfl owner).listable reached
    rw [← joined_append] at listable
    exact stuck listable
  rintro ⟨cache', found⟩ ⟨sound', opens⟩
  refine ⟨sound', ?_⟩
  cases found with
  | some point => exact opens
  | none =>
    rcases opens with nobody | ⟨front, fs, validFront, owner, dir, cur, name, below, onWay, refers, missing⟩
    · exact ⟨none, nobody, rfl⟩
    obtain ⟨done, rest, rfl, rfl, reached⟩ := onWay_reached represents valid validFront owner below onWay refers
    have absent : (files fs).descend (rootDirent (files fs)) (done ++ name :: rest) = none := by
      rw [FileSystem.descend_append, reached, Option.bind_some, FileSystem.descend, missing]
      rfl
    have next := refers_of_owner files validFront owner
    rwa [absent] at next

end exact

section runs

inductive Lookup where
  | open (path : Str)
  | opendir (path : Str)

def Lookup.path : Lookup -> Str
  | .open path => path
  | .opendir path => path

variable [DecidableEq F]

def execLookup (tree : Mounts F) (files : F -> FileSystem) (cache : DirCache F) : Lookup -> Except DirFault (DirCache F)
  | .open path => (vfsOpen files tree path cache).map Prod.fst
  | .opendir path => (vfsOpendir files tree path cache).map Prod.fst

def LookupStep (h : MountHistory F) (files : F -> FileSystem) (cache cache' : DirCache F) : Prop :=
  ∃ lookup : Lookup, Separated h.mounts (simplifyPath lookup.path) ∧ execLookup h.tree files cache lookup = .ok cache'

variable {h : MountHistory F} {files : F -> FileSystem} {cache cache' : DirCache F}

section

variable (represents : Represents h) (wf : ∀ fs, (files fs).WellFormed) (owned : Owned h files)
include represents wf owned

theorem lookupStep_sound (sound : Sound h files cache) (step : LookupStep h files cache cache') : Sound h files cache' := by
  obtain ⟨lookup, separated, returns⟩ := step
  obtain ⟨names, valid, canonical⟩ := simplifyPath_canonical lookup.path
  rw [canonical] at separated
  cases lookup with
  | «open» path =>
    have opened := vfsOpen_refers represents wf owned sound valid separated canonical
    exact (opened.mono (fun _ _ => trivial) fun _ both => both.1).map.of_ok returns
  | opendir path =>
    have admits := refers_admits represents wf owned
    exact (vfsOpendir_holds represents valid separated canonical admits sound).map.of_ok returns

theorem lookups_sound (run : ReflTransGen (LookupStep h files) emptyCache cache) : Sound h files cache := by
  refine run.invariant (Sound h files) ?_ fun _ _ sound step => lookupStep_sound represents wf owned sound step
  nofun

end

theorem lookup_cache_transparent (mounted : Relation.ReflTransGen MountStep { tree := vfsInit, mounts := [] } h)
    (wf : ∀ fs, (files fs).WellFormed) (owned : Owned h files)
    (run : Relation.ReflTransGen (LookupStep h files) emptyCache cache) (path : Str)
    (separated : Separated h.mounts (simplifyPath path)) (passable : Passable h files (tokens (simplifyPath path))) :
    ∃ cache' found, vfsOpen files h.tree path cache = .ok (cache', found) ∧
      Refers h files (tokens (simplifyPath path)) found := by
  have represents := mountSteps_represent mounted
  obtain ⟨names, valid, canonical⟩ := simplifyPath_canonical path
  rw [canonical] at separated passable ⊢
  rw [tokens_render valid] at passable ⊢
  have opened := vfsOpen_refers represents wf owned (lookups_sound represents wf owned run) valid separated canonical
  obtain ⟨⟨cache', found⟩, returns, -, refers⟩ := opened.returns fun _ stuck => stuck passable
  exact ⟨cache', found, returns, refers⟩

def sampleFile (ino : Nat) : FastDirent := { ino, fileSize := 0, type := .reg, rights := 1 }

def sampleDir (ino : Nat) : FastDirent := { ino, fileSize := 0, type := .dir, rights := 0 }

def sampleFiles : Nat -> FileSystem
  | 0 => { rootAddr := 2, readDir := fun
    | 2 => [{ name := "a".toList, fast := sampleDir 3 }]
    | 3 => [{ name := "x".toList, fast := sampleFile 4 }]
    | _ => [] }
  | _ => { rootAddr := 9, readDir := fun
    | 9 => [{ name := "tty".toList, fast := sampleFile 1 }]
    | _ => [] }

theorem sampleFiles_wellFormed (fs : Nat) : (sampleFiles fs).WellFormed := by
  have listing : ∀ ino, (∀ e ∈ (sampleFiles fs).readDir ino, ValidName e.name ∧ (e.fast.type = .dir ∨ e.fast.rights ≠ 0)) ∧
      (((sampleFiles fs).readDir ino).map DirEntry.name).Nodup := by
    intro ino
    cases fs <;> simp only [sampleFiles] <;> split <;> decide
  exact ⟨fun ino e member => ((listing ino).1 e member).1, fun ino => (listing ino).2,
    fun ino e member => ((listing ino).1 e member).2⟩

def sampleMounts : MountHistory Nat :=
  { tree := { rootFs := some 0, vdirs := .cons "/dev".toList (some 1) .nil .nil }
    mounts := [("/dev".toList, 1), ("/".toList, 0)] }

theorem sampleMounts_reached : ReflTransGen MountStep { tree := vfsInit, mounts := [] } sampleMounts :=
  .tail (.tail .refl (.mount "/".toList 0 rfl)) (.mount "/dev".toList 1 rfl)

theorem singleton_child {fs : FileSystem} {cur fast child : FastDirent} {name' : Str}
    (listing : fs.readDir cur.ino = [{ name, fast }]) (found : fs.child cur name' = some child) :
      name' = name ∧ child = fast := by
  rw [FileSystem.child, listing] at found
  split at found
  · by_cases same : name = name'
    · simp only [find?_singleton, same, decide_true, if_true, Option.map_some] at found
      exact ⟨same.symm, (Option.some.inj found).symm⟩
    · simp [same] at found
  · cases found

theorem sampleMounts_owned : Owned sampleMounts sampleFiles := by
  intro front fs valid mounted rest some reached
  obtain ⟨name, rest, rfl⟩ := exists_cons_of_ne_nil some
  obtain ⟨d, reached⟩ := Option.ne_none_iff_exists'.mp reached
  obtain ⟨child, found, reached⟩ := Option.bind_eq_some_iff.mp reached
  have file : ∀ (fs : FileSystem) ino rest d, fs.descend (sampleFile ino) rest = Option.some d -> rest = [] := by
    intro fs ino rest d reached
    cases rest with
    | nil => rfl
    | cons name rest => cases reached
  rcases mem_cons.mp mounted with dev | root
  · obtain ⟨path, rfl⟩ := Prod.mk.inj dev
    have same : front = ["dev".toList] := render_injective valid (by decide) path
    obtain ⟨rfl, rfl⟩ := singleton_child rfl found
    cases file _ _ _ _ reached
    subst same
    rfl
  · obtain ⟨path, rfl⟩ := Prod.mk.inj (mem_singleton.mp root)
    have same : front = [] := render_injective valid (by decide) path
    subst same
    obtain ⟨rfl, rfl⟩ := singleton_child rfl found
    cases rest with
    | nil => rfl
    | cons name rest =>
      obtain ⟨child, found, reached⟩ := Option.bind_eq_some_iff.mp reached
      obtain ⟨rfl, rfl⟩ := singleton_child rfl found
      cases file _ _ _ _ reached
      rfl

theorem sampleMounts_passable : Passable sampleMounts sampleFiles ["a".toList, "x".toList] := by
  intro front rest fs split owner
  have valid : Valid (front ++ rest) := split ▸ (by decide)
  have validFront : Valid front := valid.left
  rcases mem_cons.mp owner.1 with dev | root
  · have same : front = ["dev".toList] := render_injective validFront (by decide) (Prod.mk.inj dev).1
    subst same
    exact absurd (cons.inj split).1 (by decide)
  obtain ⟨path, rfl⟩ := Prod.mk.inj (mem_singleton.mp root)
  have same : front = [] := render_injective validFront (by decide) path
  subst same
  rw [nil_append] at split
  subst split
  refine ⟨rfl, by decide, fun child found => ?_⟩
  obtain ⟨-, rfl⟩ := singleton_child rfl found
  exact ⟨rfl, by decide, fun _ _ => trivial⟩

theorem lookup_cache_transparent_nested :
    ∃ cache : DirCache Nat, Relation.ReflTransGen (LookupStep sampleMounts sampleFiles) emptyCache cache ∧
      getCacheEntry cache "/a".toList = some { path := "/a".toList, fs := 0, entry := sampleDir 3 } ∧
      ∃ cache' found, vfsOpen sampleFiles sampleMounts.tree "/a/../a/x".toList cache = .ok (cache', found) ∧
        Refers sampleMounts sampleFiles ["a".toList, "x".toList] found := by
  have run : ReflTransGen (LookupStep sampleMounts sampleFiles) emptyCache _ :=
    .tail (.tail .refl ⟨.open "/a".toList, by decide, rfl⟩) ⟨.open "/dev/tty".toList, by decide, rfl⟩
  have names : tokens (simplifyPath "/a/../a/x".toList) = ["a".toList, "x".toList] := by decide
  refine ⟨_, run, by decide, ?_⟩
  exact lookup_cache_transparent sampleMounts_reached sampleFiles_wellFormed sampleMounts_owned run "/a/../a/x".toList
    (by decide) (names ▸ sampleMounts_passable)

def shadowedFiles : Nat -> FileSystem
  | 0 => { rootAddr := 2, readDir := fun
    | 2 => [{ name := "a".toList, fast := sampleFile 3 }, { name := "dev".toList, fast := sampleDir 4 }]
    | _ => [] }
  | _ => { rootAddr := 9, readDir := fun
    | 9 => [{ name := "tty".toList, fast := sampleFile 1 }]
    | _ => [] }

theorem lookup_finds_shadowed_entry :
    ∃ cache : DirCache Nat, Relation.ReflTransGen (LookupStep sampleMounts shadowedFiles) emptyCache cache ∧
      (vfsOpen shadowedFiles sampleMounts.tree "/dev".toList cache).map Prod.snd = .ok (some (0, sampleDir 4)) ∧
      Refers sampleMounts shadowedFiles ["dev".toList] (some (1, sampleDir 9)) ∧
      ¬ Refers sampleMounts shadowedFiles ["dev".toList] (some (0, sampleDir 4)) := by
  have run : ReflTransGen (LookupStep sampleMounts shadowedFiles) emptyCache _ :=
    .tail .refl ⟨.open "/a".toList, by decide, rfl⟩
  have owner : IsOwner sampleMounts.mounts (render ["dev".toList]) (some (render ["dev".toList], 1)) :=
    ⟨by decide, by decide, by decide⟩
  have refers : Refers sampleMounts shadowedFiles ["dev".toList] (some (1, sampleDir 9)) :=
    ⟨_, owner, ["dev".toList], [], by decide, rfl, rfl, rfl⟩
  refine ⟨_, run, rfl, refers, fun wrong => ?_⟩
  exact absurd (wrong.unique (mountSteps_represent sampleMounts_reached) refers (by decide)) (by decide)

end runs

end Bincows.Vfs
