import Bincows.Fs.OpenFiles

set_option autoImplicit false

namespace Bincows.Vfs.OpenTable

open Function List

variable {F : Type} [DecidableEq F]

variable {cache' : DirCache F} {stored' : Str -> F -> FastDirent -> Prop} {addr fileSize : Nat}

section known

variable {h : MountHistory F} {files : F -> FileSystem}
  {stored tells : Str -> F -> FastDirent -> Prop} {names : List Str} {fs : F}
  {d : FastDirent} {cache : DirCache F}

def Known (h : MountHistory F) (files : F -> FileSystem) (tells : Str -> F -> FastDirent -> Prop)
    (names : List Str) (fs : F) (d : FastDirent) : Prop :=
  ∃ d', Refers h files names (some (fs, d')) ∧ d.type = d'.type ∧ d.rights = d'.rights ∧
    (d.type = .dir -> d = d') ∧ (d.type ≠ .dir -> tells (render names) fs d)

structure Located (h : MountHistory F) (stored tells : Str -> F -> FastDirent -> Prop)
    (files : F -> FileSystem) (cache : DirCache F) : Prop where
  world : World h files
  implies : ∀ path fs d, stored path fs d -> tells path fs d
  disk : ∀ names fs d, Valid names -> Refers h files names (some (fs, d)) -> d.type ≠ .dir -> stored (render names) fs d
  cache : Holds (Known h files tells) cache

section

variable (located : Located h stored tells files cache)
include located

omit [DecidableEq F] in
theorem Located.known (valid : Valid names) (refers : Refers h files names (some (fs, d))) : Known h files tells names fs d :=
  ⟨d, refers, rfl, rfl, fun _ => rfl, fun file => located.implies _ _ _ (located.disk names fs d valid refers file)⟩

omit [DecidableEq F] in
theorem Located.admits : Admits h files (Known h files tells) := by
  have exact := located.world.admits
  refine ⟨?_, ?_, ?_, ?_⟩
  · rintro names fs d valid ⟨d', refers, -⟩
    exact exact.owned names fs d' valid refers
  · intro front fs validFront owner
    exact located.known validFront (exact.root front fs validFront owner)
  · rintro names fs d valid ⟨d', refers, -, -, same, -⟩ dir e listed
    cases same dir
    obtain ⟨validName, next⟩ := exact.child names fs d valid refers dir e listed
    exact ⟨validName, located.known (valid.concat validName) next⟩
  · rintro names fs d ⟨d', refers, sameType, sameRights, -⟩
    rw [sameType, sameRights]
    exact exact.rights names fs d' refers

theorem Located.vfsOpen {path : Str} {found : Option (F × FastDirent)} (valid : Valid names)
    (separated : Separated h.mounts (render names))
    (canonical : simplifyPath path = render names) (returns : vfsOpen files h.tree path cache = .ok (cache', found)) :
    Located h stored tells files cache' ∧ Opens h files (Known h files tells) names found := by
  obtain ⟨holds, opens⟩ :=
    (vfsOpen_holds located.world.represents valid separated canonical located.admits located.cache).of_ok returns
  exact ⟨{ located with cache := holds }, opens⟩

end

def IsFile (h : MountHistory F) (files : F -> FileSystem) (names : List Str) (fs : F) : Prop :=
  ∃ d, Refers h files names (some (fs, d)) ∧ d.type ≠ .dir

variable {changed : FileSystem}

theorem isFile_kept (world : World h files) (keeps : (files fs).Keeps changed)
    (wf : changed.WellFormed) {fs' : F} (file : IsFile h files names fs') :
    IsFile h (update files fs changed) names fs' := by
  obtain ⟨d, refers, file⟩ := file
  obtain ⟨d', refers', sameType, -⟩ := world.refers_kept keeps wf refers
  exact ⟨d', refers', sameType ▸ file⟩

variable (located : Located h stored tells files cache)
include located

theorem Located.change (keeps : (files fs).Keeps changed) (wf : changed.WellFormed)
    (world : World h (update files fs changed)) (implies : ∀ path fs d, stored' path fs d -> tells path fs d)
    (disk : ∀ names fs' d, Valid names -> Refers h (update files fs changed) names (some (fs', d)) ->
      d.type ≠ .dir -> stored' (render names) fs' d) :
    Located h stored' tells (update files fs changed) cache := by
  refine ⟨world, implies, disk, fun names valid ent found => ?_⟩
  obtain ⟨d', refers, sameType, sameRights, same, told⟩ := located.cache names valid ent found
  obtain ⟨d'', refers', type', rights', exact⟩ := located.world.refers_kept keeps wf refers
  refine ⟨d'', refers', sameType.trans type'.symm, sameRights.trans rights'.symm, fun dir => ?_, told⟩
  rw [exact (sameType ▸ dir), same dir]

variable {front : List Str}

omit [DecidableEq F] in
theorem Located.absent (valid : Valid names)
    (validFront : Valid front) (owns : Owns h front fs names)
    (missing : Missing files (Known h files tells) front fs names) :
    ∃ rest, rest ≠ [] ∧ names = front ++ rest ∧ (files fs).descend (rootDirent (files fs)) rest = none := by
  obtain ⟨dir, cur, name, below, onWay, ⟨d, refers, sameType, -, exact, -⟩, noChild⟩ := missing
  obtain ⟨done, rest, rfl, rfl, reached⟩ := onWay_reached located.world.represents valid validFront owns below onWay refers
  refine ⟨done ++ name :: rest, by simp, rfl, ?_⟩
  rw [FileSystem.descend_append, reached, Option.bind_some, FileSystem.descend]
  cases found : (files fs).child d name with
  | none => rfl
  | some child =>
    obtain ⟨-, -, isDir, -⟩ := FileSystem.mem_of_child found
    rw [exact (sameType.trans isDir), found] at noChild
    cases noChild

variable {name : Str}

omit [DecidableEq F] in
theorem Located.missing_in_dir {rest : List Str} (valid : Valid (front ++ (rest ++ [name]))) (validFront : Valid front)
    (opens : Opens h files (Known h files tells) (front ++ (rest ++ [name])) none)
    (owns : Owns h front fs (front ++ rest)) :
    IsOwner h.mounts (render (front ++ (rest ++ [name]))) (some (render front, fs)) ∧
      (files fs).descend (rootDirent (files fs)) (rest ++ [name]) = none := by
  have represents := located.world.represents
  rcases opens with nobody | ⟨front', fs', validFront', owner', missing⟩
  · have below := (componentPrefix_render validFront valid).mpr (prefix_append front (rest ++ [name]))
    exact absurd below (nobody _ owns.1)
  have below : front' <+: front ++ rest := by
    obtain ⟨dir, -, n, below, onWay, -⟩ := missing
    rw [← append_assoc, prefix_concat_iff] at onWay
    rcases onWay with whole | within
    · exact (append_inj_left' whole rfl) ▸ below
    · exact below.trans ((prefix_append dir [n]).trans within)
  have within : front ++ rest <+: front ++ (rest ++ [name]) := by simp
  have same := (owner'.shorten represents valid below within).unique represents owns
  obtain ⟨fronts, rfl⟩ := Prod.mk.inj (Option.some.inj same)
  have fronts := render_injective validFront' validFront fronts
  subst fronts
  obtain ⟨rest', -, split, absent⟩ := located.absent valid validFront owner' missing
  rw [← append_cancel_left split] at absent
  exact ⟨owner', absent⟩

omit [DecidableEq F] in
theorem Located.not_refers (valid : Valid names)
    (opens : Opens h files (Known h files tells) names none) (fs : F) (d : FastDirent) :
    ¬ Refers h files names (some (fs, d)) := by
  intro refers
  have represents := located.world.represents
  obtain ⟨front, rest, validFront, rfl, owns, reached⟩ := refers.reached
  rcases opens with nobody | ⟨front', fs', validFront', owns', missing⟩
  · cases nobody.unique represents owns
  obtain ⟨rest', -, split, absent⟩ := located.absent valid validFront' owns' missing
  obtain ⟨fronts, rfl⟩ := Prod.mk.inj (Option.some.inj (owns'.unique represents owns))
  have fronts := render_injective validFront' validFront fronts
  subst fronts
  rw [← append_cancel_left split, reached] at absent
  cases absent

theorem Located.disk_changed (keeps : (files fs).Keeps changed) (wf : changed.WellFormed)
    (others : ∀ names fs' d, Valid names -> fs' ≠ fs -> Refers h files names (some (fs', d)) ->
      stored (render names) fs' d -> stored' (render names) fs' d)
    (entries : ∀ front rest dir e, Valid (front ++ (rest ++ [e.name])) -> Valid front -> (render front, fs) ∈ h.mounts ->
      (files fs).descend (rootDirent (files fs)) rest = some dir -> dir.type = .dir -> e ∈ changed.readDir dir.ino ->
      (e ∈ (files fs).readDir dir.ino -> e.fast.type ≠ .dir -> stored (render (front ++ (rest ++ [e.name]))) fs e.fast) ->
      e.fast.type ≠ .dir -> stored' (render (front ++ (rest ++ [e.name]))) fs e.fast) :
    ∀ names fs' d, Valid names -> Refers h (update files fs changed) names (some (fs', d)) ->
      d.type ≠ .dir -> stored' (render names) fs' d := by
  intro names fs' d valid refers file
  by_cases same : fs' = fs
  · subst same
    obtain ⟨front, rest, dir, e, rfl, validFront, mounted, above, dirType, refersDir, listed, rfl⟩ :=
      located.world.refers_changed keeps wf valid refers file
    refine entries front rest dir e valid validFront mounted above dirType listed (fun old file => ?_) file
    have validDir : Valid (front ++ rest) := fun n member => valid n (by simp at member ⊢; tauto)
    obtain ⟨-, next⟩ := located.world.admits.child _ _ _ validDir refersDir dirType e old
    rw [append_assoc] at next
    exact located.disk _ _ _ valid next file
  · have before := World.refers_other same refers
    exact others names fs' d valid same before (located.disk names fs' d valid before file)

variable {dirNames : List Str}

theorem Located.create
    (valid : Valid (dirNames ++ [name])) (separated : Separated h.mounts (render (dirNames ++ [name])))
    (opens : Opens h files (Known h files tells) (dirNames ++ [name]) none) (parent : Known h files tells dirNames fs d)
    (isDir : d.type = .dir) (told : stored (render (dirNames ++ [name])) fs newFile) :
    Located h stored tells (update files fs ((files fs).addDirent d.ino name)) cache ∧
      ∀ names fs', IsFile h files names fs' -> IsFile h (update files fs ((files fs).addDirent d.ino name)) names fs' := by
  have world := located.world
  obtain ⟨d', refers, -, -, exact, -⟩ := parent
  cases exact isDir
  obtain ⟨front, rest, validFront, rfl, owns, reached⟩ := refers.reached
  have validName : ValidName name := valid name (by simp)
  rw [append_assoc] at valid separated opens told
  obtain ⟨ownsNew, absent⟩ := located.missing_in_dir valid validFront opens owns
  rw [(files fs).descend_concat reached] at absent
  have new : ∀ e ∈ (files fs).readDir d.ino, e.name ≠ name := by
    rintro e listed rfl
    rw [(world.wf fs).child_of_mem isDir listed] at absent
    cases absent
  have wf := addDirent_wellFormed (world.wf fs) validName new
  have keeps := addDirent_keeps (files fs) d.ino name
  refine ⟨located.change keeps wf (world.change keeps wf ?_) located.implies ?_,
    fun _ _ file => isFile_kept world keeps wf file⟩
  · intro front' rest' name' dir validFront' mounted above dirType noChild present
    obtain ⟨d', found⟩ := Option.ne_none_iff_exists'.mp present
    obtain ⟨e, listed, -, rfl, rfl⟩ := FileSystem.mem_of_child found
    rcases (mem_addDirent _).mp listed with old | ⟨sameIno, rfl⟩
    · rw [(world.wf fs).child_of_mem dirType old] at noChild
      cases noChild
    · obtain ⟨rfl, rfl⟩ := world.unique_dir mounted owns.1 validFront' validFront above reached dirType isDir sameIno
      have selected := ((resolves_iff world.represents valid).mpr separated).1
      exact selected.unique world.represents ownsNew
  · refine located.disk_changed keeps wf (fun _ _ _ _ _ _ => id) ?_
    intro front' rest' dir e validNames validFront' mounted above dirType listed before file
    rcases (mem_addDirent _).mp listed with old | ⟨sameIno, rfl⟩
    · exact before old file
    · obtain ⟨rfl, rfl⟩ := world.unique_dir mounted owns.1 validFront' validFront above reached dirType isDir sameIno
      exact told

theorem Located.update (valid : Valid (dirNames ++ [name]))
    (parent : Known h files tells dirNames fs d) (isDir : d.type = .dir)
      (returns : (files fs).updateDirent d.ino name addr fileSize = .ok changed)
    (implies : ∀ path fs d, stored' path fs d -> tells path fs d) (file : IsFile h files (dirNames ++ [name]) fs)
    (others : ∀ path fs' d', path ≠ render (dirNames ++ [name]) -> stored path fs' d' -> stored' path fs' d')
    (told : ∀ old : FastDirent, stored' (render (dirNames ++ [name])) fs { old with ino := addr, fileSize }) :
    Located h stored' tells (update files fs changed) cache ∧
      ∀ names fs', IsFile h files names fs' -> IsFile h (update files fs changed) names fs' := by
  have world := located.world
  obtain ⟨d', refers, -, -, exact, -⟩ := parent
  cases exact isDir
  obtain ⟨front, rest, validFront, rfl, owns, reached⟩ := refers.reached
  have updated := updateDirent_updated (world.wf fs) returns
  have wf := updated.wellFormed (world.wf fs)
  refine ⟨located.change updated.keeps wf (world.change updated.keeps wf ?_) implies ?_,
    fun _ _ file => isFile_kept world updated.keeps wf file⟩
  · intro front' rest' name' dir validFront' mounted above dirType noChild present
    exact absurd (updated.child_eq_none noChild) present
  refine located.disk_changed updated.keeps wf (fun names' fs' d' valid' other refers' => others _ fs' d' fun same => ?_) ?_
  · -- the path leads to one file system only
    obtain ⟨d, refers, -⟩ := file
    rw [render_injective valid' valid same] at refers'
    exact other (Prod.mk.inj (Option.some.inj (refers'.unique world.represents refers valid))).1
  intro front' rest' dir e validNames validFront' mounted above dirType listed before file
  rcases (updated.entries _ _).mp listed with ⟨old, different⟩ | ⟨sameIno, old, -, rfl, rfl⟩
  · refine others _ _ _ (fun same => ?_) (before old file)
    -- an entry with the same path is the one with the same name in the same directory
    have paths := render_injective validNames valid same
    have fronts := render_injective validFront' validFront (Prod.mk.inj (world.once _ mounted _ owns.1 rfl)).1
    subst fronts
    rw [append_assoc] at paths
    obtain ⟨rfl, names⟩ := append_inj' (append_cancel_left paths) rfl
    rw [above] at reached
    cases reached
    exact different ⟨rfl, (cons.inj names).1⟩
  · obtain ⟨rfl, rfl⟩ := world.unique_dir mounted owns.1 validFront' validFront above reached dirType isDir sameIno
    rw [← append_assoc]
    exact told old.fast

end known

section state

variable {h : MountHistory F} {stored tells : Str -> F -> FastDirent -> Prop} {v v' : VfsState F}
  {names dirNames : List Str}
  {name path : Str} {fs : F} {d : FastDirent} {found : Option (F × FastDirent)}

theorem cutLast_render (valid : Valid (dirNames ++ [name])) : cutLast (render (dirNames ++ [name])) = joined dirNames := by
  rw [← joined_concat]
  exact cutLast_joined dirNames (valid name (by simp)).noSlash

theorem lastName_render (valid : Valid (dirNames ++ [name])) : lastName (render (dirNames ++ [name])) = name := by
  have clean : ∀ c ∈ name.reverse, decide (c ≠ '/') = true := by
    intro c member
    rw [mem_reverse] at member
    exact decide_eq_true fun same => (valid name (by simp)).noSlash (same ▸ member)
  rw [lastName, ← joined_concat, reverse_append, reverse_cons, append_assoc, singleton_append, takeWhile_append_of_pos clean]
  simp

theorem simplifyPath_joined (valid : Valid names) : simplifyPath (joined names) = render names := by
  cases names with
  | nil => rfl
  | cons name names =>
    have whole : joined (name :: names) = render (name :: names) := (if_neg (by simp)).symm
    rw [whole, simplifyPath_render valid]

structure Moved (h : MountHistory F) (v v' : VfsState F) : Prop where
  tables : v' = { v with files := v'.files, cache := v'.cache }
  files : ∀ names fs, IsFile h v.files names fs -> IsFile h v'.files names fs

omit [DecidableEq F] in
theorem Moved.trans {v'' : VfsState F} (first : Moved h v v') (second : Moved h v' v'') : Moved h v v'' := by
  refine ⟨?_, fun names fs file => second.files names fs (first.files names fs file)⟩
  rw [second.tables, first.tables]

def SafePath (h : MountHistory F) (path : Str) : Prop :=
  Separated h.mounts (simplifyPath path) ∧ Separated h.mounts (simplifyPath (cutLast (simplifyPath path)))

instance (h : MountHistory F) (path : Str) : Decidable (SafePath h path) :=
  inferInstanceAs (Decidable (_ ∧ _))

section

variable (located : Located h stored tells v.files v.cache) (valid : Valid names)
  (separated : Separated h.mounts (render names)) (canonical : simplifyPath path = render names)
include located valid separated canonical

theorem lookupPath_located (returns : lookupPath h.tree v path = .ok (v', found)) :
    Moved h v v' ∧ Located h stored tells v'.files v'.cache ∧
      Opens h v'.files (Known h v'.files tells) names found ∧ v'.files = v.files := by
  rw [lookupPath] at returns
  split at returns <;> cases returns
  case h_2 opened =>
    obtain ⟨located', opens⟩ := located.vfsOpen valid separated canonical opened
    exact ⟨⟨rfl, fun _ _ => id⟩, located', opens, rfl⟩

theorem listPath_located (returns : listPath h.tree v path = .ok v') : Moved h v v' ∧
    Located h stored tells v'.files v'.cache := by
  rw [listPath] at returns
  split at returns <;> cases returns
  case h_2 listed =>
    have holds := (vfsOpendir_holds located.world.represents valid separated canonical located.admits
      located.cache).of_ok listed
    exact ⟨⟨rfl, fun _ _ => id⟩, { located with cache := holds }⟩

end

theorem looks_located (located : Located h stored tells v.files v.cache) (separated : Separated h.mounts (simplifyPath path))
    (returns : (lookupPath h.tree v path).map Prod.fst = .ok v' ∨ listPath h.tree v path = .ok v') :
    Moved h v v' ∧ Located h stored tells v'.files v'.cache := by
  obtain ⟨names, valid, canonical⟩ := simplifyPath_canonical path
  rw [canonical] at separated
  rcases returns with looked | listed
  · obtain ⟨result, found, rfl⟩ := Except.map_eq_ok looked
    obtain ⟨moved, located', -⟩ := lookupPath_located located valid separated canonical found
    exact ⟨moved, located'⟩
  · exact listPath_located located valid separated canonical listed

def Welcomes (h : MountHistory F) (stored : Str -> F -> FastDirent -> Prop) (files : F -> FileSystem) : Prop :=
  ∀ names fs, Valid names -> (∀ fs' d, ¬ Refers h files names (some (fs', d))) -> stored (render names) fs newFile

section

variable (located : Located h stored tells v.files v.cache) (welcomes : Welcomes h stored v.files)
  (valid : Valid names) (safe : SafePath h path) (canonical : simplifyPath path = render names)
include located welcomes valid safe canonical

theorem vfsCreate_located {created : Bool} (opens : Opens h v.files (Known h v.files tells) names none)
    (returns : vfsCreate h.tree v path = .ok (v', created)) :
    Moved h v v' ∧ Located h stored tells v'.files v'.cache := by
  obtain ⟨separated, separatedDir⟩ := safe
  rw [vfsCreate, canonical] at returns
  rw [canonical] at separated separatedDir
  obtain ⟨⟨v₁, parent⟩, looked, rest⟩ := bind_eq_ok.mp returns
  rcases eq_nil_or_concat' names with rfl | ⟨dirNames, name, rfl⟩
  · change (if _ then _ else _) = _ at rest
    rw [if_pos (by decide)] at rest
    cases rest
  have validDir : Valid dirNames := valid.left
  rw [cutLast_render valid] at looked separatedDir
  rw [simplifyPath_joined validDir] at separatedDir
  obtain ⟨moved, located₁, opensDir, sameFiles⟩ :=
    lookupPath_located located validDir separatedDir (simplifyPath_joined validDir) looked
  change (if _ then _ else _) = _ at rest
  rw [lastName_render valid, if_neg (valid name (by simp)).some] at rest
  match parent with
  | none =>
    cases rest
    exact ⟨moved, located₁⟩
  | some (fs, parentdir) =>
    dsimp only at rest
    by_cases isDir : parentdir.type = .dir
    · rw [if_neg (not_not_intro isDir)] at rest
      cases rest
      rw [← sameFiles] at opens welcomes
      have told := welcomes _ fs valid (located₁.not_refers valid opens)
      obtain ⟨located', files⟩ := located₁.create valid separated opens opensDir isDir told
      exact ⟨moved.trans ⟨rfl, files⟩, located'⟩
    · rw [if_pos isDir] at rest
      cases rest
      exact ⟨moved, located₁⟩

theorem openedEntry_located {flags : OpenFlags} (returns : openedEntry h.tree v path flags = .ok (v', found)) :
    Moved h v v' ∧ Located h stored tells v'.files v'.cache ∧
      ∀ fs d, found = some (fs, d) -> Known h v'.files tells names fs d := by
  have separated : Separated h.mounts (render names) := canonical ▸ safe.1
  rw [openedEntry] at returns
  obtain ⟨⟨v₁, first⟩, looked, rest⟩ := bind_eq_ok.mp returns
  obtain ⟨moved, located₁, opens, sameFiles⟩ := lookupPath_located located valid separated canonical looked
  match first with
  | some point =>
    cases rest
    refine ⟨moved, located₁, ?_⟩
    rintro fs d ⟨⟩
    exact opens
  | none =>
    dsimp only at rest
    by_cases create : flags.create = true
    · rw [if_neg (not_not_intro create)] at rest
      obtain ⟨⟨v₂, created⟩, made, rest⟩ := bind_eq_ok.mp rest
      rw [← sameFiles] at welcomes
      obtain ⟨moved₂, located₂⟩ := vfsCreate_located located₁ welcomes valid safe canonical opens made
      cases created with
      | false =>
        cases rest
        exact ⟨moved.trans moved₂, located₂, nofun⟩
      | true =>
        obtain ⟨⟨v₃, second⟩, again, rest⟩ := bind_eq_ok.mp rest
        obtain ⟨moved₃, located₃, opens₃, -⟩ := lookupPath_located located₂ valid separated canonical again
        match second with
        | none => cases rest
        | some point =>
          cases rest
          refine ⟨(moved.trans moved₂).trans moved₃, located₃, ?_⟩
          rintro fs d ⟨⟩
          exact opens₃
    · rw [if_pos create] at rest
      cases rest
      exact ⟨moved, located₁, nofun⟩

end

variable {files : F -> FileSystem}

omit [DecidableEq F] in
theorem IsFile.ne_nil (file : IsFile h files names fs) : names ≠ [] := by
  rintro rfl
  obtain ⟨d, refers, notDir⟩ := file
  obtain ⟨front, rest, -, split, -, reached⟩ := refers.reached
  rw [(append_eq_nil_iff.mp split.symm).2] at reached
  cases reached
  exact notDir rfl

omit [DecidableEq F] in
theorem IsFile.dir (world : World h files) (valid : Valid (dirNames ++ [name]))
    (file : IsFile h files (dirNames ++ [name]) fs) : ∃ dir, Refers h files dirNames (some (fs, dir)) := by
  obtain ⟨d, refers, notDir⟩ := file
  obtain ⟨front, rest, validFront, split, owns, reached⟩ := refers.reached
  rcases eq_nil_or_concat' rest with rfl | ⟨rest, last, rfl⟩
  · cases reached
    exact absurd rfl notDir
  rw [← append_assoc] at split
  obtain ⟨rfl, -⟩ := append_inj' split rfl
  obtain ⟨dir, above, -⟩ := FileSystem.descend_concat_eq_some.mp reached
  have next := refers_of_owner files validFront
    (owns.shorten world.represents valid (prefix_append front rest) (prefix_append _ _))
  rw [above] at next
  exact ⟨dir, next⟩

variable {cache : DirCache F}

omit [DecidableEq F] in
theorem Located.weaken {tells' : Str -> F -> FastDirent -> Prop}
    (located : Located h stored tells files cache) (stores : ∀ path fs d, stored path fs d -> stored' path fs d)
    (tell : ∀ path fs d, tells path fs d -> tells' path fs d) (implies : ∀ path fs d, stored' path fs d -> tells' path fs d) :
    Located h stored' tells' files cache := by
  refine ⟨located.world, implies, ?_, ?_⟩
  · exact fun names fs d valid refers file => stores _ _ _ (located.disk names fs d valid refers file)
  · intro names valid ent found
    obtain ⟨d', refers, sameType, sameRights, exact, told⟩ := located.cache names valid ent found
    exact ⟨d', refers, sameType, sameRights, exact, fun file => tell _ _ _ (told file)⟩

omit [DecidableEq F] in
theorem vfsUpdateMetadataCache_located (located : Located h stored tells files cache)
    (valid : Valid names) (canonical : simplifyPath path = render names)
    (file : IsFile h files names fs) (told : ∀ old : FastDirent, tells (render names) fs { old with ino := addr, fileSize })
    (returns : vfsUpdateMetadataCache cache path addr fileSize = .ok cache') : Located h stored tells files cache' := by
  rw [vfsUpdateMetadataCache, canonical] at returns
  cases hit : getCacheEntry cache (render names) with
  | none =>
    rw [hit] at returns
    cases returns
    exact located
  | some ent =>
    rw [hit] at returns
    dsimp only at returns
    split at returns
    · cases returns
    rename_i regular
    have regular : ent.entry.type = .reg := Decidable.not_not.mp regular
    cases returns
    obtain ⟨d', refers, sameType, sameRights, -, -⟩ := located.cache.hit valid hit
    obtain ⟨-, path⟩ := getCacheEntry_eq_some.mp hit
    -- the entry is on the file system of the file
    have sameFs : ent.fs = fs := by
      obtain ⟨d'', refers', -⟩ := file
      exact (Prod.mk.inj (Option.some.inj (refers.unique located.world.represents refers' valid))).1
    have known : Known h files tells names ent.fs { ent.entry with ino := addr, fileSize } :=
      ⟨d', refers, sameType, sameRights, fun dir => by simp [regular] at dir, fun _ => sameFs ▸ told ent.entry⟩
    have holds := located.cache.add valid rfl known
    rw [addCacheEntry, ← path] at holds
    rw [← path]
    exact { located with cache := holds }

theorem vfsUpdateMetadataDisk_located {args : FlushArgs Str}
    (located : Located h stored tells v.files v.cache) (valid : Valid names) (safe : SafePath h args.path)
    (canonical : simplifyPath args.path = render names) (file : IsFile h v.files names fs)
    (implies : ∀ path fs d, stored' path fs d -> tells path fs d)
    (others : ∀ path fs' d', path ≠ render names -> stored path fs' d' -> stored' path fs' d')
    (told : ∀ old : FastDirent, stored' (render names) fs { old with ino := args.addr, fileSize := args.fileSize })
    (returns : vfsUpdateMetadataDisk h.tree v args = .ok v') :
    Moved h v v' ∧ Located h stored' tells v'.files v'.cache := by
  obtain ⟨-, separatedDir⟩ := safe
  rw [vfsUpdateMetadataDisk, canonical] at returns
  rw [canonical] at separatedDir
  rcases eq_nil_or_concat' names with rfl | ⟨dirNames, name, rfl⟩
  · exact absurd rfl file.ne_nil
  have validDir : Valid dirNames := valid.left
  rw [cutLast_render valid] at separatedDir
  rw [simplifyPath_joined validDir] at separatedDir
  have parentPath : simplifyPath (if joined dirNames = [] then ['/'] else joined dirNames) = render dirNames := by
    split
    · rename_i empty
      rw [joined_eq_nil.mp empty]
      rfl
    · exact simplifyPath_joined validDir
  rw [cutLast_render valid, lastName_render valid] at returns
  obtain ⟨⟨v₁, parent⟩, looked, rest⟩ := bind_eq_ok.mp returns
  obtain ⟨moved, located₁, opensDir, sameFiles⟩ := lookupPath_located located validDir separatedDir parentPath looked
  match parent with
  | none => cases rest
  | some (fs', parentdir) =>
    dsimp only at rest
    by_cases isDir : parentdir.type = .dir
    · rw [if_neg (not_not_intro isDir)] at rest
      split at rest
      · cases rest
      obtain ⟨changed, updates, rest⟩ := bind_eq_ok.mp rest
      cases rest
      -- the directory is on the file system of the file
      have sameFs : fs' = fs := by
        obtain ⟨dir, refers⟩ := (moved.files _ _ file).dir located₁.world valid
        obtain ⟨dir', refers', -⟩ := opensDir
        have same := refers'.unique located₁.world.represents refers validDir
        exact (Prod.mk.inj (Option.some.inj same)).1
      subst sameFs
      obtain ⟨located', files⟩ := located₁.update valid opensDir isDir updates implies (moved.files _ _ file) others told
      exact ⟨moved.trans ⟨rfl, files⟩, located'⟩
    · rw [if_pos isDir] at rest
      cases rest

/-- Every pending entry names a file, and what it writes is right while those behind it are pending. -/
def Announced (h : MountHistory F) (files : F -> FileSystem) (list : List (FlushArgs Str))
    (stored : List (FlushArgs Str) -> Str -> F -> FastDirent -> Prop) : Prop :=
  ∀ args rest, args :: rest <:+ list -> SafePath h args.path ∧ ∃ names fs, Valid names ∧
    simplifyPath args.path = render names ∧ IsFile h files names fs ∧
    ∀ old : FastDirent, stored rest (render names) fs { old with ino := args.addr, fileSize := args.fileSize }

theorem lazyFlush_located (stored : List (FlushArgs Str) -> Str -> F -> FastDirent -> Prop)
    (list : List (FlushArgs Str)) (located : Located h (stored list) tells v.files v.cache)
    (implies : ∀ rest, rest <:+ list -> ∀ path fs d, stored rest path fs d -> tells path fs d)
    (others : ∀ args rest, args :: rest <:+ list -> ∀ path fs d, path ≠ simplifyPath args.path ->
      stored (args :: rest) path fs d -> stored rest path fs d)
    (pending : Announced h v.files list stored)
    (returns : list.foldlM (vfsUpdateMetadataDisk h.tree) v = .ok v') :
    Moved h v v' ∧ Located h (stored []) tells v'.files v'.cache := by
  induction list generalizing v with
  | nil =>
    cases returns
    exact ⟨⟨rfl, fun _ _ => id⟩, located⟩
  | cons args list ih =>
    rw [foldlM_cons] at returns
    obtain ⟨v₁, updates, rest⟩ := bind_eq_ok.mp returns
    have tail : list <:+ args :: list := suffix_cons args list
    obtain ⟨safe, names, fs, valid, canonical, file, told⟩ := pending args list suffix_rfl
    have others₁ := others args list suffix_rfl
    rw [canonical] at others₁
    obtain ⟨moved, located₁⟩ :=
      vfsUpdateMetadataDisk_located located valid safe canonical file (implies list tail) others₁ told updates
    have later : Announced h v₁.files list stored := by
      intro args' rest' within
      obtain ⟨safe', names', fs', valid', canonical', file', told'⟩ := pending args' rest' (within.trans tail)
      exact ⟨safe', names', fs', valid', canonical', moved.files _ _ file', told'⟩
    obtain ⟨moved', located'⟩ := ih located₁ (fun rest within => implies rest (within.trans tail))
      (fun args' rest within => others args' rest (within.trans tail)) later rest
    exact ⟨moved.trans moved', located'⟩

end state

end Bincows.Vfs.OpenTable
