import Bincows.Fs.FileRecords

set_option autoImplicit false

namespace Bincows.Vfs.OpenTable

open Keyed Function List

variable {F : Type}

structure Written (F : Type) where
  tracked : Tracked F
  last : Str -> Option (Nat × Nat)

def lastWritten (w : Written F) : Action -> Str -> Option (Nat × Nat)
  | .write handle addr fileSize =>
    match target w.tracked.state handle with
    | some (x, _) => if x.write then update w.last (w.tracked.opened handle) (some (addr, fileSize)) else w.last
    | none => w.last
  | _ => w.last

def observe [DecidableEq F] (w : Written F) (a : Action) (state : VfsState F) : Written F :=
  { tracked := track w.tracked a state, last := lastWritten w a }

def Dirty (v : VfsState F) (path : Str) : Prop :=
  ∃ e ∈ v.openFiles, simplifyPath e.path = path ∧ (e.modified = true ∨ ∃ x ∈ v.handles, x.vfileId = e.id ∧ x.write = true)

def lastPending (path : Str) : List (FlushArgs Str) -> Option (Nat × Nat)
  | [] => none
  | args :: rest =>
    (lastPending path rest).or (if simplifyPath args.path = path then some (args.addr, args.fileSize) else none)

def Undisturbed [DecidableEq F] (h : MountHistory F) (w : Written F) : Action -> Prop
  | .close handle => ∀ x e, target w.tracked.state handle = some (x, e) -> e.nInsts = 1 -> (e.modified || x.write) = true ->
      getCacheEntry w.tracked.state.cache (simplifyPath e.path) ≠ none
  | a => ∀ state, perform h.tree w.tracked.state a = .ok state -> ∀ path, lastPending path w.tracked.state.lazyFlush ≠ none ->
      ¬ Dirty w.tracked.state path -> state.cache (cacheSlot path) = w.tracked.state.cache (cacheSlot path)

def WrittenStep [DecidableEq F] (h : MountHistory F) (w w' : Written F) : Prop :=
  ∃ a state, Granted w.tracked a ∧ perform h.tree w.tracked.state a = .ok state ∧ w' = observe w a state

def MetadataStep [DecidableEq F] (h : MountHistory F) (w w' : Written F) : Prop :=
  ∃ a state, Granted w.tracked a ∧ Safe h w.tracked a ∧ Undisturbed h w a ∧
    perform h.tree w.tracked.state a = .ok state ∧ w' = observe w a state

variable {cache : DirCache F} {v : VfsState F} {fs : F} {d : FastDirent}

variable {path : Str} {write : Bool}

section current

variable {h : MountHistory F} {w w' : Written F} {list : List (FlushArgs Str)}

def Told (w : Written F) (list : List (FlushArgs Str)) (path : Str) (fs : F) (d : FastDirent) : Prop :=
  Given w.tracked.owner path fs d ∧ ∀ m, w.last path = some m -> ¬ Dirty w.tracked.state path ->
    lastPending path list = none -> (d.ino, d.fileSize) = m

structure Current (h : MountHistory F) (w : Written F) : Prop where
  tables : Tables h w.tracked
  located : Located h (Told w w.tracked.state.lazyFlush) (Told w w.tracked.state.lazyFlush) w.tracked.state.files
    w.tracked.state.cache
  records : ∀ e ∈ w.tracked.state.openFiles, ∀ m, w.last (simplifyPath e.path) = some m -> (e.addr, e.fileSize) = m
  pending : ∀ path m m', w.last path = some m -> ¬ Dirty w.tracked.state path ->
    lastPending path w.tracked.state.lazyFlush = some m' -> m' = m ∧
      ∃ ent, getCacheEntry w.tracked.state.cache path = some ent ∧ (ent.entry.ino, ent.entry.fileSize) = m
  files : ∀ path, w.last path ≠ none -> ∃ names fs, Valid names ∧ path = render names ∧
    IsFile h w.tracked.state.files names fs

theorem getCacheEntry_congr {cache' : DirCache F}
    (same : cache' (cacheSlot path) = cache (cacheSlot path)) : getCacheEntry cache' path = getCacheEntry cache path := by
  rw [getCacheEntry, getCacheEntry, same]

theorem Current.keep (current : Current h w) (tables : Tables h w'.tracked)
    (last : ∀ path, Dirty w'.tracked.state path ∨ w'.last path = w.last path)
    (owner : ∀ fs addr path, w.tracked.owner fs addr = some path -> w'.tracked.owner fs addr = some path)
    (list : w'.tracked.state.lazyFlush = w.tracked.state.lazyFlush)
    (located : Located h (Told w w.tracked.state.lazyFlush) (Told w w.tracked.state.lazyFlush) w'.tracked.state.files
      w'.tracked.state.cache)
    (dirty : ∀ path, Dirty w.tracked.state path -> Dirty w'.tracked.state path)
    (records : ∀ e ∈ w'.tracked.state.openFiles, ∀ m, w'.last (simplifyPath e.path) = some m -> (e.addr, e.fileSize) = m)
    (slots : ∀ path, lastPending path w.tracked.state.lazyFlush ≠ none -> ¬ Dirty w.tracked.state path ->
      w'.tracked.state.cache (cacheSlot path) = w.tracked.state.cache (cacheSlot path))
    (files : ∀ names fs, IsFile h w.tracked.state.files names fs -> IsFile h w'.tracked.state.files names fs) :
    Current h w' := by
  have unwritten : ∀ path, ¬ Dirty w'.tracked.state path -> w'.last path = w.last path :=
    fun path clean => (last path).resolve_left clean
  have told : ∀ path fs d, Told w w.tracked.state.lazyFlush path fs d -> Told w' w'.tracked.state.lazyFlush path fs d := by
    rintro path fs d ⟨given, right⟩
    refine ⟨fun address => owner _ _ _ (given address), fun m written clean none => ?_⟩
    rw [unwritten path clean] at written
    rw [list] at none
    exact right m written (fun before => clean (dirty path before)) none
  refine ⟨tables, located.weaken told told fun _ _ _ => id, records, ?_, ?_⟩
  · intro path m m' written clean found
    rw [unwritten path clean] at written
    rw [list] at found
    have clean := fun before => clean (dirty path before)
    rw [getCacheEntry_congr (slots path (by simp [found]) clean)]
    exact current.pending path m m' written clean found
  · intro path written
    rcases last path with ⟨e, member, rfl, -⟩ | same
    · obtain ⟨-, names, valid, canonical, file, -⟩ := tables.backed e member
      exact ⟨names, e.fs, valid, canonical, file⟩
    · rw [same] at written
      obtain ⟨names, fs, valid, same, file⟩ := current.files path written
      exact ⟨names, fs, valid, same, files names fs file⟩

variable {v' : VfsState F}

theorem Moved.dirty (moved : Moved h v v') (path : Str) : Dirty v' path ↔ Dirty v path := by
  rw [moved.tables]
  exact Iff.rfl

theorem Dirty.modify {k : Nat} {f : VFile F -> VFile F}
    (ids : (v.openFiles.map VFile.id).Nodup) (records : v'.openFiles = modify VFile.id k f v.openFiles)
    (keeps : ∀ e, (f e).id = e.id ∧ (f e).path = e.path ∧ (e.modified = true -> (f e).modified = true))
    (still : ∀ x ∈ v.handles, x.write = true -> x ∈ v'.handles ∨ x.vfileId = k ∧ ∀ e, (f e).modified = true)
    (dirty : Dirty v path) : Dirty v' path := by
  obtain ⟨e, member, same, unsaved⟩ := dirty
  rw [Dirty, records]
  by_cases here : e.id = k
  · obtain ⟨keptId, keptPath, keptFlag⟩ := keeps e
    refine ⟨f e, (Counted.mem_modify ids).mpr (.inr ⟨e, member, here, rfl⟩), by rw [keptPath, same], ?_⟩
    rw [keptId]
    rcases unsaved with modified | ⟨x, inside, named, write⟩
    · exact .inl (keptFlag modified)
    · exact (still x inside write).symm.imp (fun gone => gone.2 e) fun there => ⟨x, there, named, write⟩
  · refine ⟨e, (Counted.mem_modify ids).mpr (.inl ⟨member, here⟩), same, unsaved.imp_right ?_⟩
    rintro ⟨x, inside, named, write⟩
    exact ⟨x, (still x inside write).resolve_right fun gone => here (named.symm.trans gone.1), named, write⟩

theorem Current.moved (current : Current h w) (moved : Moved h w.tracked.state v')
    (located : Located h (Told w w.tracked.state.lazyFlush) (Told w w.tracked.state.lazyFlush) v'.files v'.cache)
    (slots : ∀ path, lastPending path w.tracked.state.lazyFlush ≠ none -> ¬ Dirty w.tracked.state path ->
      v'.cache (cacheSlot path) = w.tracked.state.cache (cacheSlot path)) :
    Current h { w with tracked := { w.tracked with state := v' } } := by
  have given : Located h (Given w.tracked.owner) (Given w.tracked.owner) v'.files v'.cache :=
    located.weaken (fun _ _ _ => And.left) (fun _ _ _ => And.left) fun _ _ _ => id
  have list : v'.lazyFlush = w.tracked.state.lazyFlush := by rw [moved.tables]
  have records : v'.openFiles = w.tracked.state.openFiles := by rw [moved.tables]
  refine current.keep (current.tables.moved moved given) (fun _ => .inr rfl)
    (fun _ _ _ => id) list located (fun path => (moved.dirty path).mpr) ?_ slots moved.files
  exact fun e member => current.records e (records ▸ member)

theorem Registered.current {opened : Nat -> Str}
    (registered : Registered w.tracked.state fs d path write v') (current : Current h w)
    (tables : Tables h { w.tracked with state := v', opened })
    (right : ∀ m, w.last (simplifyPath path) = some m ->
      ¬ Dirty w.tracked.state (simplifyPath path) -> (d.ino, d.fileSize) = m) :
    Current h { w with tracked := { w.tracked with state := v', opened } } := by
  have ids := current.tables.counted.ids
  cases registered with
  | shared e member addr sameFs =>
    refine current.keep tables (fun _ => .inr rfl)
      (fun _ _ _ => id) rfl current.located ?_ ?_ (fun _ _ _ => rfl) fun _ _ => id
    · exact fun p => Dirty.modify ids rfl (fun _ => ⟨rfl, rfl, id⟩) fun x inside _ => .inl (mem_append_left _ inside)
    · exact Counted.forall_mem_modify ids current.records current.records
  | new none =>
    refine current.keep tables (fun _ => .inr rfl)
      (fun _ _ _ => id) rfl current.located ?_ ?_ (fun _ _ _ => rfl) fun _ _ => id
    · rintro p ⟨e', there, same, dirty⟩
      refine ⟨e', mem_append_left _ there, same, ?_⟩
      rcases dirty with modified | ⟨x, inside, facts⟩
      · exact .inl modified
      · exact .inr ⟨x, mem_append_left _ inside, facts⟩
    refine forall_mem_concat current.records fun m written => right m written ?_
    -- a record of the file would be the new one, but has an older id
    rintro ⟨e', there, same, -⟩
    have single := tables.single e' (mem_append_left _ there) _ mem_concat_self same
    have older := current.tables.fresh e' there
    rw [single] at older
    exact absurd older (Nat.not_succ_le_self _)

theorem Current.rename (current : Current h w) (path : Str) :
    Current h
      { w with
        tracked := { w.tracked with opened := update w.tracked.opened w.tracked.state.nextHandle path } } :=
  current.keep (current.tables.rename path) (fun _ => .inr rfl) (fun _ _ _ =>
    id) rfl current.located (fun _ => id) current.records (fun _ _ _ => rfl) fun _ _ => id

end current

variable {names : List Str}

section calls

variable {h : MountHistory F} {w : Written F} {v' : VfsState F} {path : Str} {flags : OpenFlags}
  {handle addr fileSize : Nat}

variable {tree : Mounts F} {ent : DirCacheEnt F} {files : F -> FileSystem}

theorem told_welcomes (current : Current h w) (list : List (FlushArgs Str)) :
    Welcomes h (Told w list) w.tracked.state.files := by
  intro names fs valid absent
  refine ⟨fun address => absurd rfl address, fun m written => ?_⟩
  obtain ⟨names', fs', valid', same, d, refers, -⟩ := current.files (render names) (by simp [written])
  rw [render_injective valid valid' same] at absent
  exact absurd refers (absent fs' d)

theorem Current.entry_right (current : Current h w)
    (known : Known h files (Told w w.tracked.state.lazyFlush) names fs d) (file : d.type ≠ .dir)
    (hit : ∀ ent, getCacheEntry w.tracked.state.cache (render names) = some ent -> d = ent.entry) (m : Nat × Nat)
    (written : w.last (render names) = some m) (clean : ¬ Dirty w.tracked.state (render names)) :
    (d.ino, d.fileSize) = m := by
  obtain ⟨-, -, -, -, -, told⟩ := known
  cases pending : lastPending (render names) w.tracked.state.lazyFlush with
  | none => exact (told file).2 m written clean pending
  | some m' =>
    obtain ⟨-, ent, cached, right⟩ := current.pending _ m m' written clean pending
    rw [hit ent cached]
    exact right

theorem Registered.cache_eq (registered : Registered v fs d path write v') : v'.cache = v.cache := by
  cases registered <;> rfl

variable {x : OpenHandle} {e : VFile F}

theorem dup_registered (returns : vfsHandleDup v handle = .ok v') (found : target v handle = some (x, e)) :
    Registered v e.fs ⟨e.addr, e.fileSize, .reg, 0⟩ e.path x.write v' := by
  obtain ⟨x', foundHandle, rest⟩ := Option.bind_eq_some_iff.mp found
  obtain ⟨e', foundRecord, same⟩ := Option.map_eq_some_iff.mp rest
  cases same
  obtain ⟨there, sameId⟩ := lookup_some foundRecord
  rw [vfsHandleDup, handleOf, foundHandle] at returns
  change registerHandleToVfile v x.vfileId x.write = _ at returns
  rw [registerHandleToVfile, acquireVfile, foundRecord] at returns
  cases returns
  rw [← sameId]
  exact .shared e there rfl rfl

theorem lastPending_append (path : Str) (front rest : List (FlushArgs Str)) :
    lastPending path (front ++ rest) = (lastPending path rest).or (lastPending path front) := by
  induction front with
  | nil => exact Option.or_none.symm
  | cons args front ih => rw [cons_append, lastPending, ih, Option.or_assoc, lastPending]

variable {p : Str}

theorem getCacheEntry_update {q : Str} {ent' : DirCacheEnt F}
    (cached : getCacheEntry cache p = some ent) (path : ent'.path = p) :
    getCacheEntry (update cache (cacheSlot p) (some ent')) q = if q = p then some ent' else getCacheEntry cache q := by
  obtain ⟨stored, before⟩ := getCacheEntry_eq_some.mp cached
  by_cases own : q = p
  · subst own
    rw [if_pos rfl, getCacheEntry_eq_some, update_self]
    exact ⟨rfl, path⟩
  rw [if_neg own]
  by_cases slot : cacheSlot q = cacheSlot p
  · rw [getCacheEntry, getCacheEntry, slot, update_self, stored]
    have other : ¬ ent.path = q := fun same => own (same.symm.trans before)
    have other' : ¬ ent'.path = q := fun same => own (same.symm.trans path)
    simp [Option.filter, other, other']
  · exact getCacheEntry_congr (update_of_ne slot _ _)

theorem Closed.dirty (closes : Closed w.tracked.state x e v') (tables : Tables h w.tracked)
    (aimed : target w.tracked.state handle = some (x, e)) (dirty : Dirty w.tracked.state p) :
    Dirty v' p ∨ (p = simplifyPath e.path ∧ e.nInsts = 1 ∧ (e.modified || x.write) = true) := by
  obtain ⟨inside, -, there, same, -⟩ := tables.of_target aimed
  have ids := tables.counted.ids
  -- a handle that is not the closed one is left
  have left : ∀ y ∈ w.tracked.state.handles, y = x ∨ y ∈ remove OpenHandle.handleId x.handleId w.tracked.state.handles := by
    intro y member
    by_cases closing : y.handleId = x.handleId
    · exact .inl (unique tables.handleIds member inside closing)
    · exact .inr ((mem_remove tables.handleIds).mpr ⟨member, closing⟩)
  cases closes with
  | kept several =>
    refine .inl (Dirty.modify ids rfl (fun e => ⟨rfl, rfl, fun set => by simp [set]⟩) (fun y handle write => ?_) dirty)
    rcases left y handle with rfl | remains
    · exact .inr ⟨same.symm, fun e => by simp [write]⟩
    · exact .inl remains
  | last single flushed =>
    rename_i v₁
    have frame : v₁.openFiles = w.tracked.state.openFiles ∧
        v₁.handles = remove OpenHandle.handleId x.handleId w.tracked.state.handles := by
      rcases flush_cases flushed with ⟨-, rfl⟩ | ⟨-, cache, -, rfl⟩
      · exact ⟨rfl, rfl⟩
      · exact ⟨rfl, rfl⟩
    obtain ⟨e', member, rfl, unsaved⟩ := dirty
    by_cases own : e'.id = e.id
    · have counted := tables.counted.discard (lookup_of_mem tables.handleIds inside) there same single
      cases unique ids member there own
      refine .inr ⟨rfl, single, ?_⟩
      rcases unsaved with modified | ⟨y, handle, named, write⟩
      · simp [modified]
      · rcases left y handle with rfl | remains
        · simp [write]
        · obtain ⟨e'', record, sameId⟩ := counted.live y remains
          exact absurd (sameId.trans named) ((mem_remove ids).mp record).2
    · refine .inl ⟨e', ?_, rfl, ?_⟩
      · rw [frame.1]
        exact (mem_remove ids).mpr ⟨member, own⟩
      · rcases unsaved with modified | ⟨y, handle, named, write⟩
        · exact .inl modified
        · rcases left y handle with rfl | remains
          · exact absurd (named.symm.trans same.symm) own
          · exact .inr ⟨y, frame.2 ▸ remains, named, write⟩

variable {w' : Written F}

theorem Current.flushed (current : Current h w) (tables : Tables h w'.tracked) (there : e ∈ w.tracked.state.openFiles)
    (cached : getCacheEntry w.tracked.state.cache (simplifyPath e.path) = some ent) (last : w'.last = w.last)
    (owner : w'.tracked.owner = w.tracked.owner) (files : w'.tracked.state.files = w.tracked.state.files)
    (updates : vfsUpdateMetadataCache w.tracked.state.cache e.path e.addr e.fileSize = .ok w'.tracked.state.cache)
    (cache : w'.tracked.state.cache = update w.tracked.state.cache (cacheSlot (simplifyPath e.path))
      (some { ent with entry := { ent.entry with ino := e.addr, fileSize := e.fileSize } }))
    (list : w'.tracked.state.lazyFlush = w.tracked.state.lazyFlush ++ [⟨e.path, e.addr, e.fileSize⟩])
    (dirty : ∀ q, Dirty w.tracked.state q -> Dirty w'.tracked.state q ∨ q = simplifyPath e.path)
    (records : ∀ y ∈ w'.tracked.state.openFiles, ∀ m, w.last (simplifyPath y.path) = some m -> (y.addr, y.fileSize) = m) :
    Current h w' := by
  obtain ⟨-, names, valid, canonical, file, given⟩ := current.tables.backed e there
  have path := (getCacheEntry_eq_some.mp cached).2
  have pending : ∀ q, lastPending q w'.tracked.state.lazyFlush =
      if simplifyPath e.path = q then some (e.addr, e.fileSize) else lastPending q w.tracked.state.lazyFlush := by
    intro q
    rw [list, lastPending_append]
    by_cases own : simplifyPath e.path = q <;> simp [lastPending, own]
  -- nothing is told of the closed file while it is on the list
  have told : ∀ q fs d, Told w w.tracked.state.lazyFlush q fs d -> Told w' w'.tracked.state.lazyFlush q fs d := by
    rintro q fs d ⟨given, right⟩
    rw [Told, last, owner]
    refine ⟨given, fun m written clean none => ?_⟩
    rw [pending q] at none
    split at none
    · cases none
    · rename_i other
      refine right m written (fun before => ?_) none
      exact (dirty q before).elim clean fun same => other same.symm
  have weaker := current.located.weaken told told fun _ _ _ => id
  have nothing : ∀ old : FastDirent, Told w' w'.tracked.state.lazyFlush (render names) e.fs
      { old with ino := e.addr, fileSize := e.fileSize } := by
    intro old
    rw [Told, owner]
    refine ⟨given, fun m _ _ none => ?_⟩
    rw [pending, if_pos canonical] at none
    cases none
  have located := vfsUpdateMetadataCache_located weaker valid canonical file nothing updates
  rw [← files] at located
  refine ⟨tables, located, ?_, ?_, ?_⟩
  · rw [last]
    exact records
  · intro q m m' written clean found
    rw [last] at written
    rw [pending q] at found
    rw [cache, getCacheEntry_update cached (by exact path)]
    split at found
    · rename_i own
      subst own
      rw [if_pos rfl]
      have right := current.records e there m written
      exact ⟨(Option.some.inj found).symm.trans right, _, rfl, right⟩
    · rename_i other
      rw [if_neg fun same => other same.symm]
      refine current.pending q m m' written (fun before => ?_) found
      exact (dirty q before).elim clean fun same => other same.symm
  · rw [last, files]
    exact current.files

variable {rest list : List (FlushArgs Str)}

theorem lastPending_of_suffix (within : rest <:+ list)
    (absent : lastPending path list = none) : lastPending path rest = none := by
  obtain ⟨front, rfl⟩ := within
  rw [lastPending_append] at absent
  exact (Option.or_eq_none_iff.mp absent).1

theorem lastPending_suffix {m : Nat × Nat} (within : rest <:+ list)
    (found : lastPending path rest = some m) : lastPending path list = some m := by
  obtain ⟨front, rfl⟩ := within
  rw [lastPending_append, found, Option.some_or]

variable [DecidableEq F]

theorem vfsOpen_hit (hit : getCacheEntry cache (simplifyPath path) = some ent) :
    vfsOpen files tree path cache = .ok (cache, some (ent.fs, ent.entry)) := by
  rw [vfsOpen]
  simp only [hit]

theorem openedEntry_hit (hit : getCacheEntry v.cache (simplifyPath path) = some ent) :
    openedEntry tree v path flags = .ok (v, some (ent.fs, ent.entry)) := by
  simp only [openedEntry, lookupPath, vfsOpen_hit hit]
  rfl

theorem openFile_current (current : Current h w) (safe : Safe h w.tracked (.openFile path flags))
    (undisturbed : Undisturbed h w (.openFile path flags))
      (returns : vfsOpenFile h.tree w.tracked.state path flags = .ok v') :
    Current h (observe w (.openFile path flags) v') := by
  have tables := openFile_tables current.tables safe returns
  obtain ⟨names, valid, canonical⟩ := simplifyPath_canonical path
  obtain ⟨v₁, found, entry, -, opens⟩ := openFile_cases current.tables safe.1 returns
  obtain ⟨moved, located, known⟩ := openedEntry_located current.located (told_welcomes current _) valid safe.1 canonical entry
  have sameCache : v'.cache = v₁.cache := by
    rcases opens with rfl | ⟨fs, d, -, -, registers⟩
    · rfl
    · exact registers.cache_eq
  have current₁ := current.moved moved located fun p pending clean => sameCache ▸ undisturbed v' returns p pending clean
  have next : v₁.nextHandle = w.tracked.state.nextHandle := by rw [moved.tables]
  have renamed := current₁.rename (simplifyPath path)
  rw [next] at renamed
  rcases opens with rfl | ⟨fs, d, rfl, regular, registers⟩
  · exact renamed
  have hit : ∀ ent, getCacheEntry w.tracked.state.cache (render names) = some ent -> d = ent.entry := by
    intro ent cached
    rw [← canonical] at cached
    rw [openedEntry_hit cached] at entry
    cases entry
    rfl
  have right : ∀ m, w.last (simplifyPath path) = some m -> ¬ Dirty v₁ (simplifyPath path) -> (d.ino, d.fileSize) = m := by
    intro m written clean
    rw [moved.dirty] at clean
    rw [canonical] at written clean
    exact current.entry_right (known fs d rfl) (by simp [regular]) hit m written clean
  exact Registered.current (w := { w with tracked := { w.tracked with state := v₁ } }) registers current₁ tables right

theorem write_current (current : Current h w) (granted : Granted w.tracked (.write handle addr fileSize))
    (returns : vfsWriteFile w.tracked.state handle addr fileSize = .ok v') :
    Current h (observe w (.write handle addr fileSize) v') := by
  have tables := write_tables current.tables granted returns
  obtain ⟨x, e, aimed, writes⟩ := wrote current.tables returns
  obtain ⟨inside, -, there, same, canonical⟩ := current.tables.of_target aimed
  have ids := current.tables.counted.ids
  rcases writes with ⟨readOnly, rfl⟩ | ⟨write, rfl⟩
  · have last : lastWritten w (.write handle addr fileSize) = w.last := by
      simp [lastWritten, aimed, readOnly]
    refine current.keep tables (fun _ => .inr (congrFun last _)) (fun _ _ _ =>
      grant_mono granted) rfl current.located (fun _ => id) ?_ (fun _ _ _ => rfl) fun _ _ => id
    exact fun e member m written => current.records e member m ((congrFun last _).symm.trans written)
  have last : lastWritten w (.write handle addr fileSize) =
      update w.last (w.tracked.opened handle) (some (addr, fileSize)) := by
    simp only [lastWritten, aimed, write, if_true]
  refine current.keep tables ?_ (fun _ _ _ => grant_mono granted) rfl current.located ?_ ?_ (fun _ _ _ => rfl) fun _ _ => id
  · intro path
    by_cases own : path = w.tracked.opened handle
    · refine .inl ⟨_, (Counted.mem_modify ids).mpr (.inr ⟨e, there, rfl, rfl⟩), ?_, .inr ⟨x, inside, same.symm, write⟩⟩
      rw [own]
      exact canonical
    · refine .inr ((congrFun last path).trans ?_)
      rw [update_of_ne own]
  · exact fun path => Dirty.modify ids rfl (fun _ => ⟨rfl, rfl, id⟩) fun x inside _ => .inl inside
  · intro y member m written
    replace written := (congrFun last _).symm.trans written
    rcases (Counted.mem_modify ids).mp member with ⟨old, other⟩ | ⟨e'', there', sameId, rfl⟩
    · have different : simplifyPath y.path ≠ w.tracked.opened handle := by
        intro own
        exact other (congrArg VFile.id (current.tables.single y old e there (own.trans canonical.symm)))
      rw [update_of_ne different] at written
      exact current.records y old m written
    · cases unique ids there' there sameId
      rw [canonical, update_self] at written
      exact Option.some.inj written

theorem close_current (current : Current h w) (undisturbed : Undisturbed h w (.close handle))
    (returns : vfsCloseFile w.tracked.state handle = .ok v') : Current h (observe w (.close handle) v') := by
  have tables := close_tables current.tables returns
  obtain ⟨x, e, aimed, closes⟩ := closed current.tables returns
  have dirty := fun p => closes.dirty (p := p) current.tables aimed
  obtain ⟨inside, -, there, same, -⟩ := current.tables.of_target aimed
  have ids := current.tables.counted.ids
  cases closes with
  | kept several =>
    refine current.keep tables (fun _ => .inr rfl)
      (fun _ _ _ => id) rfl current.located (fun p before => ?_) ?_ (fun _ _ _ => rfl) fun _ _ => id
    · exact (dirty p before).resolve_right fun last => by omega
    · exact Counted.forall_mem_modify ids current.records current.records
  | last single flushed =>
    have records : ∀ y ∈ remove VFile.id e.id w.tracked.state.openFiles, ∀ m, w.last (simplifyPath y.path) = some m ->
        (y.addr, y.fileSize) = m := fun y member => current.records y ((mem_remove ids).mp member).1
    rcases flush_cases flushed with ⟨unmodified, rfl⟩ | ⟨modified, cache, updates, rfl⟩
    · refine current.keep tables (fun _ => .inr rfl) (fun _ _ _ =>
        id) rfl current.located (fun p before => ?_) records (fun _ _ _ => rfl) fun _ _ => id
      change (e.modified || x.write) = false at unmodified
      rw [unmodified] at dirty
      exact (dirty p before).resolve_right fun last => Bool.false_ne_true last.2.2
    obtain ⟨ent, cached⟩ := Option.ne_none_iff_exists'.mp (undisturbed x e aimed single modified)
    have updated : cache = update w.tracked.state.cache (cacheSlot (simplifyPath e.path))
        (some { ent with entry := { ent.entry with ino := e.addr, fileSize := e.fileSize } }) := by
      rw [vfsUpdateMetadataCache] at updates
      rw [cached] at updates
      dsimp only at updates
      split at updates
      · cases updates
      · exact (Except.ok.inj updates).symm
    exact current.flushed tables there cached rfl rfl rfl updates updated rfl
      (fun q before => (dirty q before).imp_right And.left) records

theorem lazyFlush_current (current : Current h w) (undisturbed : Undisturbed h w .lazyFlush)
    (returns : vfsLazyFlush h.tree w.tracked.state = .ok v') : Current h (observe w .lazyFlush v') := by
  have tables := lazyFlush_tables current.tables returns
  have pending : Announced h w.tracked.state.files w.tracked.state.lazyFlush (Told w) := by
    intro args rest within
    obtain ⟨fs, safe, names, valid, canonical, file, given⟩ := current.tables.pending args (within.subset mem_cons_self)
    refine ⟨safe, names, fs, valid, canonical, file, fun _ => ⟨given, fun m written clean none => ?_⟩⟩
    -- without a later entry, this is the last one for the file
    have here : lastPending (render names) (args :: rest) = some (args.addr, args.fileSize) := by
      rw [lastPending, none, if_pos canonical]
      rfl
    exact (current.pending _ m _ written clean (lastPending_suffix within here)).1
  have others : ∀ args rest, args :: rest <:+ w.tracked.state.lazyFlush -> ∀ path fs d, path ≠ simplifyPath args.path ->
      Told w (args :: rest) path fs d -> Told w rest path fs d := by
    rintro args rest - path fs d other ⟨given, right⟩
    refine ⟨given, fun m written clean none => right m written clean ?_⟩
    rw [lastPending, none, if_neg (Ne.symm other)]
    rfl
  have implies : ∀ rest, rest <:+ w.tracked.state.lazyFlush -> ∀ path fs d, Told w rest path fs d ->
      Told w w.tracked.state.lazyFlush path fs d := by
    rintro rest within path fs d ⟨given, right⟩
    exact ⟨given, fun m written clean none => right m written clean (lastPending_of_suffix within none)⟩
  have flushes := lazyFlush_located (v := { w.tracked.state with lazyFlush := [] }) (Told w) w.tracked.state.lazyFlush
    current.located implies others pending returns
  obtain ⟨moved, located⟩ := flushes
  have empty : v'.lazyFlush = [] := by rw [moved.tables]
  have records : v'.openFiles = w.tracked.state.openFiles := by rw [moved.tables]
  have dirty : ∀ path, Dirty v' path ↔ Dirty w.tracked.state path := moved.dirty
  have told : ∀ path fs d, Told w [] path fs d -> Told (observe w .lazyFlush v') v'.lazyFlush path fs d := by
    rintro path fs d ⟨given, right⟩
    exact ⟨given, fun m written clean _ => right m written (fun before => clean ((dirty path).mpr before)) rfl⟩
  refine ⟨tables, ⟨located.world, fun _ _ _ => id, ?_, ?_⟩, ?_, ?_, ?_⟩
  · exact fun names fs d valid refers file => told _ _ _ (located.disk names fs d valid refers file)
  · intro names valid ent found
    obtain ⟨d', refers, sameType, sameRights, exact, before⟩ := located.cache names valid ent found
    refine ⟨d', refers, sameType, sameRights, exact, fun file => ⟨(before file).1, fun m written clean _ => ?_⟩⟩
    have clean : ¬ Dirty w.tracked.state (render names) := fun dirtied => clean ((dirty _).mpr dirtied)
    cases listed : lastPending (render names) w.tracked.state.lazyFlush with
    | none => exact (before file).2 m written clean listed
    | some m' =>
      -- the flush left the entry of a file on the list in its place
      obtain ⟨-, ent', cached, right⟩ := current.pending _ m m' written clean listed
      change getCacheEntry v'.cache (render names) = some ent at found
      rw [getCacheEntry_congr (undisturbed v' returns _ (by simp [listed]) clean), cached] at found
      cases found
      exact right
  · exact fun e member => current.records e (records ▸ member)
  · intro path m m' _ _ found
    change lastPending path v'.lazyFlush = some m' at found
    rw [empty] at found
    cases found
  · intro path written
    obtain ⟨names, fs, valid, same, file⟩ := current.files path written
    exact ⟨names, fs, valid, same, moved.files names fs file⟩

theorem step_current (current : Current h w) (step : MetadataStep h w w') : Current h w' := by
  obtain ⟨a, state, granted, safe, undisturbed, returns, rfl⟩ := step
  cases a with
  | openFile path flags => exact openFile_current current safe undisturbed returns
  | dup handle =>
    have tables := dup_tables current.tables returns
    obtain ⟨x, found, -⟩ := bind_eq_ok.mp (returns : vfsHandleDup w.tracked.state handle = .ok state)
    obtain ⟨inside, rfl⟩ := lookup_some (handleOf_ok found)
    obtain ⟨e, there, same, -⟩ := current.tables.handle_record inside
    have registers := dup_registered returns (current.tables.target_of_mem inside there same)
    exact registers.current current tables fun m written _ => current.records e there m written
  | write handle addr fileSize => exact write_current current granted returns
  | close handle => exact close_current current undisturbed returns
  | lookup path =>
    obtain ⟨moved, located⟩ := looks_located current.located safe (.inl returns)
    exact current.moved moved located (undisturbed state returns)
  | list path =>
    obtain ⟨moved, located⟩ := looks_located current.located safe (.inr returns)
    exact current.moved moved located (undisturbed state returns)
  | lazyFlush => exact lazyFlush_current current undisturbed returns

end calls

section runs

variable [DecidableEq F] {h : MountHistory F} {files : F -> FileSystem}
  {owner : F -> Nat -> Option Str} {w : Written F}

def startWritten (files : F -> FileSystem) (owner : F -> Nat -> Option Str) (opened : Nat -> Str) : Written F :=
  { tracked := { state := bootState files, opened, owner }, last := fun _ => none }

omit [DecidableEq F] in
theorem start_current (world : World h files) (disk : OnDisk h files owner) (opened : Nat -> Str) :
    Current h (startWritten files owner opened) := by
  have located : Located h (Told (startWritten files owner opened) []) (Told (startWritten files owner opened) []) files
      emptyCache := by
    refine ⟨world, fun _ _ _ => id, ?_, nofun⟩
    exact fun names fs d valid refers file => ⟨disk names fs d valid refers file, nofun⟩
  refine ⟨boot_tables world disk opened, located, ?_, ?_, ?_⟩
  · nofun
  · nofun
  · exact fun path impossible => absurd rfl impossible

theorem lookup_returns {stored tells : Str -> F -> FastDirent -> Prop}
    (located : Located h stored tells v.files v.cache) (valid : Valid names) (separated : Separated h.mounts (render names))
    (canonical : simplifyPath path = render names) (passable : Passable h v.files names) :
    ∃ cache found, vfsOpen v.files h.tree path v.cache = .ok (cache, found) := by
  have opens := vfsOpen_holds located.world.represents valid separated canonical located.admits located.cache
  obtain ⟨⟨cache, found⟩, returns, -⟩ := opens.returns fun fault blocked => by
    obtain ⟨front, fs, validFront, owns, dir, cur, name, below, onWay, known, stuck⟩ := blocked
    obtain ⟨d, refers, sameType, -, sameDir, -⟩ := known
    obtain ⟨done, rest, rfl, rfl, reached⟩ := onWay_reached located.world.represents valid validFront owns below onWay refers
    have listable := (passable front _ fs rfl owns).listable reached
    rw [← joined_append] at listable
    rw [sameDir (sameType.trans listable.1)] at stuck
    exact stuck listable
  exact ⟨cache, found, returns⟩

theorem safe_runs_keep_metadata (world : World h files) (disk : OnDisk h files owner) (opened : Nat -> Str)
    (run : Relation.ReflTransGen (MetadataStep h) (startWritten files owner opened) w) (path : Str) {addr fileSize : Nat}
    (written : w.last (simplifyPath path) = some (addr, fileSize))
    (closed : ∀ x ∈ w.tracked.state.handles, w.tracked.opened x.handleId ≠ simplifyPath path)
    (separated : Separated h.mounts (simplifyPath path))
    (passable : Passable h w.tracked.state.files (tokens (simplifyPath path))) :
    ∃ v fs d, lookupPath h.tree w.tracked.state path = .ok (v, some (fs, d)) ∧ d.ino = addr ∧ d.fileSize = fileSize := by
  have current :=
    run.invariant (Current h) (start_current world disk opened) fun _ _ current step => step_current current step
  obtain ⟨names, valid, canonical⟩ := simplifyPath_canonical path
  rw [canonical] at written closed separated passable
  rw [tokens_render valid] at passable
  have clean : ¬ Dirty w.tracked.state (render names) := by
    rintro ⟨e, member, same, -⟩
    obtain ⟨x, inside, named⟩ := current.tables.counted.referenced member
    exact closed x inside ((current.tables.opened x inside e member named.symm).symm.trans same)
  obtain ⟨cache, found, opens⟩ := lookup_returns current.located valid separated canonical passable
  have returns : lookupPath h.tree w.tracked.state path = .ok ({ w.tracked.state with cache }, found) := by
    simp only [lookupPath, opens]
  obtain ⟨-, -, finds, -⟩ := lookupPath_located current.located valid separated canonical returns
  obtain ⟨names', fs', valid', same, d', refers, file⟩ := current.files (render names) (by simp [written])
  have sameNames := render_injective valid valid' same
  subst sameNames
  rcases found with _ | ⟨fs, d⟩
  · exact absurd refers (current.located.not_refers valid finds fs' d')
  · have hit : ∀ ent, getCacheEntry w.tracked.state.cache (render names) = some ent -> d = ent.entry := by
      intro ent cached
      rw [← canonical] at cached
      rw [vfsOpen_hit cached] at opens
      cases opens
      rfl
    have notDir : d.type ≠ .dir := by
      obtain ⟨d'', refers', sameType, -⟩ := finds
      cases refers'.unique world.represents refers valid
      rw [sameType]
      exact file
    have right := current.entry_right finds notDir hit _ written clean
    exact ⟨_, fs, d, returns, (Prod.mk.inj right).1, (Prod.mk.inj right).2⟩

end runs

theorem passable_root {files : Nat -> FileSystem} {name : Str} (validName : ValidName name)
    (short : ∀ e ∈ (files 0).readDir (files 0).rootAddr, e.name.length + 1 < maxPath) :
    Passable rootMount files [name] := by
  intro front rest fs split owns
  have valid : Valid front := by
    intro n member
    have inside : n ∈ [name] := split ▸ mem_append_left rest member
    exact mem_singleton.mp inside ▸ validName
  obtain ⟨path, rfl⟩ := Prod.mk.inj (mem_singleton.mp owns.1)
  have empty : front = [] := render_injective valid (by decide) path
  subst empty
  rw [nil_append] at split
  subst split
  exact ⟨rfl, fun e listed => short e listed, fun _ _ => trivial⟩

def sampleWritten : Written Nat := startWritten (fun _ => flatFs sampleEnts) sampleOwner fun _ => []

theorem safe_runs_keep_metadata_flushed :
    (∃ w : Written Nat, Relation.ReflTransGen (MetadataStep rootMount) sampleWritten w ∧
      w.tracked.state.lazyFlush.length = 1 ∧
      ∃ v fs d, lookupPath rootMount.tree w.tracked.state "/a".toList = .ok (v, some (fs, d)) ∧ d.ino = 9 ∧ d.fileSize = 3) ∧
    ∃ w : Written Nat, Relation.ReflTransGen (MetadataStep rootMount) sampleWritten w ∧
      w.last "/a".toList = some (9, 3) ∧ w.tracked.state.lazyFlush = [] ∧
      ∃ v fs d, lookupPath rootMount.tree w.tracked.state "/a".toList = .ok (v, some (fs, d)) ∧
        d.ino = 9 ∧ d.fileSize = 3 := by
  have world : World rootMount fun _ => flatFs sampleEnts := flatFs_world (by decide) (by decide) (by decide) (by decide)
  have disk : OnDisk rootMount (fun _ => flatFs sampleEnts) sampleOwner := flatFs_onDisk (by decide) (by decide)
  have kept : ∀ w : Written Nat, ReflTransGen (MetadataStep rootMount) sampleWritten w ->
      w.last "/a".toList = some (9, 3) -> w.tracked.state.handles = [] ->
      (∀ e ∈ (w.tracked.state.files 0).readDir (w.tracked.state.files 0).rootAddr, e.name.length + 1 < maxPath) ->
      ∃ v fs d, lookupPath rootMount.tree w.tracked.state "/a".toList = .ok (v, some (fs, d)) ∧
        d.ino = 9 ∧ d.fileSize = 3 := by
    intro w run written none short
    have path : simplifyPath "/a".toList = "/a".toList := by decide
    have names : tokens (simplifyPath "/a".toList) = ["a".toList] := by decide
    refine safe_runs_keep_metadata world disk _ run "/a".toList (path ▸ written) (by simp [none]) (by decide) ?_
    rw [names]
    exact passable_root (by decide) short
  have run : ReflTransGen (MetadataStep rootMount) sampleWritten _ :=
    .tail (.tail (.tail .refl
      ⟨.openFile "/a".toList ⟨true, true, false⟩, _, trivial, ⟨by decide, by
        intro v fs d _ handle x e aimed
        cases aimed⟩, fun _ _ _ pending => absurd rfl pending, rfl, rfl⟩)
      ⟨.write 0 9 3, _, granted_first rfl rfl rfl, trivial, fun _ _ _ pending => absurd rfl pending, rfl, rfl⟩)
      ⟨.close 0, _, trivial, trivial, by
        intro x e aimed _ _
        cases aimed
        decide, rfl, rfl⟩
  have flushed := run.tail ⟨.lazyFlush, _, trivial, trivial, by
    intro state returns path _ _
    cases returns
    rfl, rfl, rfl⟩
  exact ⟨⟨_, run, rfl, kept _ run rfl rfl (by decide)⟩, _, flushed, rfl, rfl, kept _ flushed rfl rfl (by decide)⟩

theorem listing_restores_old_metadata :
    ∃ w : Written Nat, Relation.ReflTransGen (WrittenStep rootMount) sampleWritten w ∧
      w.last "/a".toList = some (9, 3) ∧ w.tracked.state.handles = [] ∧
      (lookupPath rootMount.tree w.tracked.state "/a".toList).map Prod.snd = .ok (some (0, newFile)) ∧
      ∃ w' : Written Nat, WrittenStep rootMount w w' ∧ w'.last "/a".toList = some (9, 3) ∧ w'.tracked.state.lazyFlush = [] ∧
        (lookupPath rootMount.tree w'.tracked.state "/a".toList).map Prod.snd = .ok (some (0, newFile)) := by
  have run : ReflTransGen (WrittenStep rootMount) sampleWritten _ :=
    .tail (.tail (.tail (.tail .refl
      ⟨.openFile "/a".toList ⟨true, true, false⟩, _, trivial, rfl, rfl⟩)
      ⟨.write 0 9 3, _, granted_first rfl rfl rfl, rfl, rfl⟩)
      ⟨.close 0, _, trivial, rfl, rfl⟩)
      ⟨.lookup "/c".toList, _, trivial, rfl, rfl⟩
  exact ⟨_, run, rfl, rfl, rfl, _, ⟨.lazyFlush, _, trivial, rfl, rfl⟩, rfl, rfl, rfl⟩

end Bincows.Vfs.OpenTable
