import Bincows.Fs.KnownFiles
import Bincows.Shared.RefCounts

set_option autoImplicit false

namespace Bincows.Vfs.OpenTable

open Keyed Function List

variable {F : Type}

inductive Action where
  | openFile (path : Str) (flags : OpenFlags)
  | dup (handle : Nat)
  | write (handle addr fileSize : Nat)
  | close (handle : Nat)
  | lookup (path : Str)
  | list (path : Str)
  | lazyFlush

def perform [DecidableEq F] (tree : Mounts F) (v : VfsState F) : Action -> Except VfsFault (VfsState F)
  | .openFile path flags => vfsOpenFile tree v path flags
  | .dup handle => vfsHandleDup v handle
  | .write handle addr fileSize => vfsWriteFile v handle addr fileSize
  | .close handle => vfsCloseFile v handle
  | .lookup path => (lookupPath tree v path).map Prod.fst
  | .list path => listPath tree v path
  | .lazyFlush => vfsLazyFlush tree v

structure Tracked (F : Type) where
  state : VfsState F
  opened : Nat -> Str
  owner : F -> Nat -> Option Str

def target (v : VfsState F) (handle : Nat) : Option (OpenHandle × VFile F) :=
  (Keyed.lookup OpenHandle.handleId v.handles handle).bind fun x =>
    (Keyed.lookup VFile.id v.openFiles x.vfileId).map fun e => (x, e)

def grant [DecidableEq F] (t : Tracked F) (handle addr : Nat) : F -> Nat -> Option Str :=
  match target t.state handle with
  | some (x, e) =>
    if x.write ∧ e.addr = 0 ∧ addr ≠ 0 then
      update t.owner e.fs (update (t.owner e.fs) addr (some (t.opened handle)))
    else t.owner
  | none => t.owner

def track [DecidableEq F] (t : Tracked F) (a : Action) (state : VfsState F) : Tracked F :=
  { state
    opened :=
      match a with
      | .openFile path _ => update t.opened t.state.nextHandle (simplifyPath path)
      | .dup handle => update t.opened t.state.nextHandle (t.opened handle)
      | _ => t.opened
    owner :=
      match a with
      | .write handle addr _ => grant t handle addr
      | _ => t.owner }

/-- The file system keeps the first cluster of a file, and gives a file without one a cluster that no file has. -/
def Granted (t : Tracked F) : Action -> Prop
  | .write handle addr _ => ∀ x e, target t.state handle = some (x, e) -> x.write ->
      (e.addr ≠ 0 -> addr = e.addr) ∧ (e.addr = 0 -> addr = 0 ∨ t.owner e.fs addr = none)
  | _ => True

def Step [DecidableEq F] (h : MountHistory F) (t t' : Tracked F) : Prop :=
  ∃ a state, Granted t a ∧ perform h.tree t.state a = .ok state ∧ t' = track t a state

/-- The first cluster that the directory has for the file is the one in its record, and only this file is open
without a cluster if it is 0. -/
def Distinguished (t : Tracked F) (path : Str) (fs : F) (dirent : FastDirent) : Prop :=
  ∀ handle x e, target t.state handle = some (x, e) ->
    (t.opened handle = simplifyPath path -> e.addr = dirent.ino) ∧
      (dirent.ino = 0 -> e.fs = fs -> e.addr = 0 -> t.opened handle = simplifyPath path)

def Safe [DecidableEq F] (h : MountHistory F) (t : Tracked F) : Action -> Prop
  | .openFile path flags => SafePath h path ∧
      ∀ v fs dirent, openedEntry h.tree t.state path flags = .ok (v, some (fs, dirent)) -> Distinguished t path fs dirent
  | .lookup path => Separated h.mounts (simplifyPath path)
  | .list path => Separated h.mounts (simplifyPath path)
  | _ => True

def SafeStep [DecidableEq F] (h : MountHistory F) (t t' : Tracked F) : Prop :=
  ∃ a state, Granted t a ∧ Safe h t a ∧ perform h.tree t.state a = .ok state ∧ t' = track t a state

variable {t' : Tracked F} {fs : F} {e : VFile F} {x : OpenHandle} {handle : Nat} {write : Bool}

section tables

variable {h : MountHistory F} {t : Tracked F} {v v' : VfsState F}

def Given (owner : F -> Nat -> Option Str) (path : Str) (fs : F) (d : FastDirent) : Prop :=
  d.ino ≠ 0 -> owner fs d.ino = some path

def Backed (h : MountHistory F) (t : Tracked F) (path : Str) (fs : F) (addr : Nat) : Prop :=
  SafePath h path ∧ ∃ names, Valid names ∧ simplifyPath path = render names ∧
    IsFile h t.state.files names fs ∧ (addr ≠ 0 -> t.owner fs addr = some (render names))

structure Tables (h : MountHistory F) (t : Tracked F) : Prop where
  located : Located h (Given t.owner) (Given t.owner) t.state.files t.state.cache
  counted : Counted VFile.id VFile.nInsts OpenHandle.vfileId t.state.openFiles t.state.handles
  fresh : ∀ e ∈ t.state.openFiles, e.id ≤ t.state.curId
  handleIds : (t.state.handles.map OpenHandle.handleId).Nodup
  next : ∀ x ∈ t.state.handles, x.handleId < t.state.nextHandle
  backed : ∀ e ∈ t.state.openFiles, Backed h t e.path e.fs e.addr
  pending : ∀ args ∈ t.state.lazyFlush, ∃ fs, Backed h t args.path fs args.addr
  opened : ∀ x ∈ t.state.handles, ∀ e ∈ t.state.openFiles, e.id = x.vfileId -> simplifyPath e.path = t.opened x.handleId
  single : ∀ e ∈ t.state.openFiles, ∀ e' ∈ t.state.openFiles, simplifyPath e.path = simplifyPath e'.path -> e = e'

theorem Backed.mono {path : Str} {addr : Nat} (backed : Backed h t path fs addr)
    (files : ∀ names fs, IsFile h t.state.files names fs -> IsFile h t'.state.files names fs)
    (owner : ∀ fs addr path, t.owner fs addr = some path -> t'.owner fs addr = some path) : Backed h t' path fs addr := by
  obtain ⟨safe, names, valid, canonical, file, given⟩ := backed
  exact ⟨safe, names, valid, canonical, files names fs file, fun some => owner _ _ _ (given some)⟩

section

variable (tables : Tables h t)
include tables

theorem Tables.retable (located : Located h (Given t'.owner) (Given t'.owner) t'.state.files t'.state.cache)
    (counted : Counted VFile.id VFile.nInsts OpenHandle.vfileId t'.state.openFiles t'.state.handles)
    (handleIds : (t'.state.handles.map OpenHandle.handleId).Nodup)
    (next : ∀ x ∈ t'.state.handles, x.handleId < t'.state.nextHandle) (curId : t.state.curId ≤ t'.state.curId)
    (files : ∀ names fs, IsFile h t.state.files names fs -> IsFile h t'.state.files names fs)
    (owner : ∀ fs addr path, t.owner fs addr = some path -> t'.owner fs addr = some path)
    (back : ∀ y ∈ t'.state.openFiles, ∃ e ∈ t.state.openFiles, e.id = y.id ∧ e.path = y.path ∧
      e.fs = y.fs ∧ (e.addr = y.addr ∨ Backed h t' y.path y.fs y.addr))
    (pending : ∀ args ∈ t'.state.lazyFlush, args ∈ t.state.lazyFlush ∨ ∃ fs, Backed h t' args.path fs args.addr)
    (opened : ∀ x ∈ t'.state.handles, ∀ e ∈ t.state.openFiles, e.id = x.vfileId ->
      simplifyPath e.path = t'.opened x.handleId) : Tables h t' := by
  refine ⟨located, counted, ?_, handleIds, next, ?_, ?_, ?_, ?_⟩
  · intro y member
    obtain ⟨e, inside, sameId, -⟩ := back y member
    exact sameId ▸ (tables.fresh e inside).trans curId
  · intro y member
    obtain ⟨e, inside, -, samePath, sameFs, sameAddr | backed⟩ := back y member
    · rw [← samePath, ← sameFs, ← sameAddr]
      exact (tables.backed e inside).mono files owner
    · exact backed
  · intro args member
    rcases pending args member with old | backed
    · obtain ⟨fs, there⟩ := tables.pending args old
      exact ⟨fs, there.mono files owner⟩
    · exact backed
  · intro x member y inside same
    obtain ⟨e, there, sameId, samePath, -⟩ := back y inside
    rw [← samePath]
    exact opened x member e there (sameId.trans same)
  · intro y member y' member' samePath
    obtain ⟨e, inside, id, path, -⟩ := back y member
    obtain ⟨e', inside', id', path', -⟩ := back y' member'
    have same := tables.single e inside e' inside' (by rw [path, path', samePath])
    exact unique counted.ids member member' (by rw [← id, ← id', same])

theorem Tables.moved (moved : Moved h t.state v')
    (located : Located h (Given t.owner) (Given t.owner) v'.files v'.cache) : Tables h { t with state := v' } := by
  have files := moved.files
  obtain ⟨files', cache, openFiles, curId, handles, nextHandle, lazyFlush⟩ := v'
  cases moved.tables
  exact tables.retable located tables.counted tables.handleIds tables.next (Nat.le_refl _) files (fun _ _ _ => id)
    (fun y member => ⟨y, member, rfl, rfl, rfl, .inl rfl⟩) (fun _ => .inl) tables.opened

theorem Tables.addedIds (vfileId : Nat) (write : Bool) :
    (map OpenHandle.handleId (t.state.handles ++ [{ handleId := t.state.nextHandle, vfileId, write }])).Nodup ∧
      ∀ x : OpenHandle, x ∈ t.state.handles ++ [{ handleId := t.state.nextHandle, vfileId, write }] ->
        x.handleId < t.state.nextHandle + 1 := by
  constructor
  · exact tables.handleIds.map_concat fun x there => (tables.next x there).ne
  · exact forall_mem_concat (fun x old => (tables.next x old).trans (Nat.lt_succ_self _)) (Nat.lt_succ_self _)

theorem Tables.addHandle (member : e ∈ t.state.openFiles) (path : Str)
    (same : simplifyPath e.path = path) (write : Bool) : Tables h
      { t with
        state :=
          { t.state with
            openFiles := modify VFile.id e.id (fun e => { e with nInsts := e.nInsts + 1 }) t.state.openFiles
            handles := t.state.handles ++ [{ handleId := t.state.nextHandle, vfileId := e.id, write }]
            nextHandle := t.state.nextHandle + 1 }
        opened := update t.opened t.state.nextHandle path } := by
  have ids := tables.addedIds e.id write
  refine tables.retable tables.located ?_ ids.1 ids.2 (Nat.le_refl _) (fun _ _ => id) (fun _ _ _ => id) ?_ (fun _ => .inl) ?_
  · exact tables.counted.acquire (fun _ => rfl) (fun _ => rfl) member rfl
  · exact Counted.forall_mem_modify tables.counted.ids (fun y old =>
      ⟨y, old, rfl, rfl, rfl, .inl rfl⟩) fun y old => ⟨y, old, rfl, rfl, rfl, .inl rfl⟩
  · intro x inside e' there sameId
    show simplifyPath e'.path = update t.opened t.state.nextHandle path x.handleId
    rcases mem_concat.mp inside with old | rfl
    · rw [update_of_ne (Nat.ne_of_lt (tables.next x old))]
      exact tables.opened x old e' there sameId
    · rw [unique tables.counted.ids there member sameId, update_self]
      exact same

theorem Tables.addRecord (id : e.id = t.state.curId + 1) (one : e.nInsts = 1)
    (backed : Backed h t e.path e.fs e.addr) (new : ∀ e' ∈ t.state.openFiles, simplifyPath e'.path ≠ simplifyPath e.path)
    (write : Bool) :
    Tables h
      { t with
        state :=
          { t.state with
            openFiles := t.state.openFiles ++ [e]
            curId := t.state.curId + 1
            handles := t.state.handles ++ [{ handleId := t.state.nextHandle, vfileId := t.state.curId + 1, write }]
            nextHandle := t.state.nextHandle + 1 }
        opened := update t.opened t.state.nextHandle (simplifyPath e.path) } := by
  have unusedId : ∀ e' ∈ t.state.openFiles, e'.id ≠ e.id := by
    intro e' member
    have := tables.fresh e' member
    omega
  have ids := tables.addedIds (t.state.curId + 1) write
  refine ⟨tables.located, ?_, ?_, ids.1, ids.2, ?_, tables.pending, ?_, ?_⟩
  · exact tables.counted.insert unusedId one id.symm
  · exact forall_mem_concat (fun e' old => (tables.fresh e' old).trans (Nat.le_succ _)) id.le
  · exact forall_mem_concat tables.backed backed
  · intro x inside e' there sameId
    show simplifyPath e'.path = update t.opened t.state.nextHandle (simplifyPath e.path) x.handleId
    rcases mem_concat.mp inside with old | rfl
    · rw [update_of_ne (Nat.ne_of_lt (tables.next x old))]
      obtain ⟨e₀, member, same⟩ := tables.counted.live x old
      rcases mem_concat.mp there with oldRecord | rfl
      · exact tables.opened x old e' oldRecord sameId
      · exact absurd (same.trans sameId.symm) (unusedId e₀ member)
    · rw [update_self]
      rcases mem_concat.mp there with oldRecord | rfl
      · exact absurd (sameId.trans id.symm) (unusedId e' oldRecord)
      · rfl
  · intro e₁ member₁ e₂ member₂ same
    rcases mem_concat.mp member₁ with old₁ | rfl
    · rcases mem_concat.mp member₂ with old₂ | rfl
      · exact tables.single e₁ old₁ e₂ old₂ same
      · exact absurd same (new e₁ old₁)
    · rcases mem_concat.mp member₂ with old₂ | rfl
      · exact absurd same.symm (new e₂ old₂)
      · rfl

theorem Tables.handle_record (member : x ∈ t.state.handles) :
    ∃ e ∈ t.state.openFiles, e.id = x.vfileId ∧ simplifyPath e.path = t.opened x.handleId := by
  obtain ⟨e, inside, same⟩ := tables.counted.live x member
  exact ⟨e, inside, same, tables.opened x member e inside same⟩

theorem Tables.target_of_mem (handle : x ∈ t.state.handles)
    (record : e ∈ t.state.openFiles) (same : e.id = x.vfileId) : target t.state x.handleId = some (x, e) := by
  rw [target, lookup_of_mem tables.handleIds handle, Option.bind_some, ← same, lookup_of_mem tables.counted.ids record]
  rfl

end

theorem mem_of_target (found : target v handle = some (x, e)) :
    x ∈ v.handles ∧ x.handleId = handle ∧ e ∈ v.openFiles ∧ e.id = x.vfileId := by
  obtain ⟨x', foundHandle, rest⟩ := Option.bind_eq_some_iff.mp found
  obtain ⟨e', foundRecord, same⟩ := Option.map_eq_some_iff.mp rest
  cases same
  obtain ⟨inside, rfl⟩ := lookup_some foundHandle
  obtain ⟨there, sameId⟩ := lookup_some foundRecord
  exact ⟨inside, rfl, there, sameId⟩

theorem Tables.of_target (tables : Tables h t) (found : target t.state handle = some (x, e)) :
    x ∈ t.state.handles ∧ x.handleId = handle ∧ e ∈ t.state.openFiles ∧ e.id = x.vfileId ∧
      simplifyPath e.path = t.opened handle := by
  obtain ⟨inside, rfl, there, sameId⟩ := mem_of_target found
  exact ⟨inside, rfl, there, sameId, tables.opened x inside e there sameId⟩

theorem Tables.rename (tables : Tables h t) (path : Str) :
    Tables h { t with opened := update t.opened t.state.nextHandle path } := by
  refine tables.retable tables.located tables.counted tables.handleIds tables.next (Nat.le_refl _) (fun _ _ => id)
    (fun _ _ _ => id) (fun y member => ⟨y, member, rfl, rfl, rfl, .inl rfl⟩) (fun _ => .inl) ?_
  intro x inside e there same
  show simplifyPath e.path = update t.opened t.state.nextHandle path x.handleId
  rw [update_of_ne (Nat.ne_of_lt (tables.next x inside))]
  exact tables.opened x inside e there same

end tables

section opening

variable [DecidableEq F] {h : MountHistory F} {t : Tracked F} {v v' : VfsState F} {path : Str}
  {flags : OpenFlags} {names : List Str} {fs : F} {d : FastDirent}

inductive Registered (v : VfsState F) (fs : F) (d : FastDirent) (path : Str) (write : Bool) : VfsState F -> Prop
  | shared (e : VFile F) (member : e ∈ v.openFiles) (addr : e.addr = d.ino) (sameFs : e.fs = fs) :
      Registered v fs d path write
        { v with
          openFiles := modify VFile.id e.id (fun e => { e with nInsts := e.nInsts + 1 }) v.openFiles
          handles := v.handles ++ [{ handleId := v.nextHandle, vfileId := e.id, write }]
          nextHandle := v.nextHandle + 1 }
  | new (none : ∀ e ∈ v.openFiles, ¬ (e.addr = d.ino ∧ e.fs = fs)) :
      Registered v fs d path write
        { v with
          openFiles := v.openFiles ++ [{ fs, addr := d.ino, fileSize := d.fileSize, id := v.curId + 1, path,
                                         modified := false, nInsts := 1 }]
          curId := v.curId + 1
          handles := v.handles ++ [{ handleId := v.nextHandle, vfileId := v.curId + 1, write }]
          nextHandle := v.nextHandle + 1 }

theorem registered (ids : (v.openFiles.map VFile.id).Nodup) (fresh : ∀ e ∈ v.openFiles, e.id ≤ v.curId)
    (returns : registerHandleToVfile (searchOrInsertFile v fs d.ino d.fileSize path).1
      (searchOrInsertFile v fs d.ino d.fileSize path).2 write = .ok v') : Registered v fs d path write v' := by
  rw [searchOrInsertFile] at returns
  cases found : v.openFiles.find? fun e => e.addr = d.ino ∧ e.fs = fs with
  | some e =>
    rw [found] at returns
    have member := mem_of_find?_eq_some found
    have same : e.addr = d.ino ∧ e.fs = fs := by simpa using find?_some found
    rw [registerHandleToVfile, acquireVfile, lookup_of_mem ids member] at returns
    cases returns
    exact .shared e member same.1 same.2
  | none =>
    rw [found] at returns
    have new : ∀ e ∈ v.openFiles, e.id ≠ v.curId + 1 := by
      intro e member
      have := fresh e member
      omega
    have nodup : (map VFile.id (v.openFiles ++ [⟨fs, d.ino, d.fileSize, v.curId + 1, path, false, 0⟩])).Nodup :=
      ids.map_concat new
    have record := lookup_of_mem nodup mem_concat_self
    rw [registerHandleToVfile, acquireVfile] at returns
    rw [record] at returns
    cases returns
    have last : modify VFile.id (v.curId + 1) (fun e => { e with nInsts := e.nInsts + 1 })
        (v.openFiles ++ [⟨fs, d.ino, d.fileSize, v.curId + 1, path, false, 0⟩]) =
          v.openFiles ++ [⟨fs, d.ino, d.fileSize, v.curId + 1, path, false, 1⟩] :=
      modify_split rfl new
    rw [last]
    exact .new fun e member => by simpa using find?_eq_none.mp found e member

omit [DecidableEq F] in
theorem given_welcomes (owner : F -> Nat -> Option Str) (files : F -> FileSystem) : Welcomes h (Given owner) files :=
  fun _ _ _ _ address => absurd rfl address

omit [DecidableEq F] in
theorem Registered.tables (tables : Tables h t) (registered : Registered t.state fs d path write v')
    (safe : SafePath h path) (valid : Valid names) (canonical : simplifyPath path = render names)
    (known : Known h t.state.files (Given t.owner) names fs d) (file : d.type ≠ .dir)
    (distinguished : Distinguished t path fs d) :
    Tables h { t with state := v', opened := update t.opened t.state.nextHandle (simplifyPath path) } := by
  obtain ⟨d', refers, sameType, -, -, given⟩ := known
  have given := given file
  -- the condition on handles, for the records they name
  have records : ∀ e ∈ t.state.openFiles, (simplifyPath e.path = simplifyPath path -> e.addr = d.ino) ∧
      (d.ino = 0 -> e.fs = fs -> e.addr = 0 -> simplifyPath e.path = simplifyPath path) := by
    intro e member
    obtain ⟨x, inside, same⟩ := tables.counted.referenced member
    rw [tables.opened x inside e member same.symm]
    exact distinguished x.handleId x e (tables.target_of_mem inside member same.symm)
  cases registered with
  | shared e member addr sameFs =>
    refine tables.addHandle member (simplifyPath path) ?_ write
    by_cases zero : d.ino = 0
    · exact (records e member).2 zero sameFs (addr.trans zero)
    obtain ⟨-, names', -, canonical', -, given'⟩ := tables.backed e member
    have owners := given' (addr ▸ zero)
    rw [addr, sameFs, given zero] at owners
    rw [canonical', canonical]
    exact (Option.some.inj owners).symm
  | new none =>
    have backed : Backed h t path fs d.ino := ⟨safe, names, valid, canonical, ⟨d', refers, sameType ▸ file⟩, given⟩
    refine tables.addRecord rfl rfl backed ?_ write
    intro e member same
    have sameFs : e.fs = fs := by
      obtain ⟨-, names', valid', canonical', ⟨d'', refers', -⟩, -⟩ := tables.backed e member
      have names : names' = names := render_injective valid' valid (by rw [← canonical', ← canonical]; exact same)
      subst names
      have found := refers'.unique tables.located.world.represents refers valid
      exact (Prod.mk.inj (Option.some.inj found)).1
    exact none e member ⟨(records e member).1 same, sameFs⟩

theorem openFile_cases (tables : Tables h t) (safe : SafePath h path)
    (returns : vfsOpenFile h.tree t.state path flags = .ok v') :
    ∃ v₁ found, openedEntry h.tree t.state path flags = .ok (v₁, found) ∧ Moved h t.state v₁ ∧
      (v' = v₁ ∨ ∃ fs d, found = some (fs, d) ∧ d.type = .reg ∧ Registered v₁ fs d path flags.write v') := by
  obtain ⟨names, valid, canonical⟩ := simplifyPath_canonical path
  rw [vfsOpenFile] at returns
  obtain ⟨⟨v₁, found⟩, entry, rest⟩ := bind_eq_ok.mp returns
  obtain ⟨moved, -⟩ := openedEntry_located tables.located (given_welcomes _ _) valid safe canonical entry
  refine ⟨v₁, found, entry, moved, ?_⟩
  match found with
  | none =>
    cases rest
    exact .inl rfl
  | some (fs, d) =>
    dsimp only at rest
    rw [vfsOpenFileFrom] at rest
    by_cases regular : d.type = .reg
    · rw [if_neg (not_not_intro regular)] at rest
      split at rest
      · cases rest
        exact .inl rfl
      split at rest
      · cases rest
        exact .inl rfl
      · have ids : (v₁.openFiles.map VFile.id).Nodup := by
          rw [moved.tables]
          exact tables.counted.ids
        have fresh : ∀ e ∈ v₁.openFiles, e.id ≤ v₁.curId := by
          rw [moved.tables]
          exact tables.fresh
        exact .inr ⟨fs, d, rfl, regular, registered ids fresh rest⟩
    · rw [if_pos regular] at rest
      cases rest
      exact .inl rfl

theorem openFile_tables (tables : Tables h t) (safe : Safe h t (.openFile path flags))
    (returns : vfsOpenFile h.tree t.state path flags = .ok v') : Tables h (track t (.openFile path flags) v') := by
  obtain ⟨safePath, distinguished⟩ := safe
  obtain ⟨names, valid, canonical⟩ := simplifyPath_canonical path
  obtain ⟨v₁, found, entry, -, opens⟩ := openFile_cases tables safePath returns
  obtain ⟨moved, located, known⟩ := openedEntry_located tables.located (given_welcomes _ _) valid safePath canonical entry
  have tables₁ := tables.moved moved located
  have next : v₁.nextHandle = t.state.nextHandle := by rw [moved.tables]
  rcases opens with rfl | ⟨fs, d, rfl, regular, registers⟩
  · have renamed := tables₁.rename (simplifyPath path)
    rw [next] at renamed
    exact renamed
  have told : Distinguished { t with state := v₁ } path fs d := by
    intro handle x e there
    refine distinguished v₁ fs d entry handle x e ?_
    rw [target, moved.tables] at there
    exact there
  have opened := registers.tables tables₁ safePath valid canonical (known fs d rfl) (by simp [regular]) told
  rw [next] at opened
  exact opened

end opening

section calls

variable {h : MountHistory F} {t : Tracked F} {v' : VfsState F} {handle addr fileSize : Nat}
  {path : Str}

variable {v : VfsState F}

theorem handleOf_ok (returns : handleOf v handle = .ok x) : Keyed.lookup OpenHandle.handleId v.handles handle = some x := by
  rw [handleOf] at returns
  split at returns
  · cases returns
    assumption
  · cases returns

theorem acquireVfile_ok {id : Nat} (returns : acquireVfile v id = .ok e) : Keyed.lookup VFile.id v.openFiles id = some e := by
  rw [acquireVfile] at returns
  split at returns
  · cases returns
    assumption
  · cases returns

theorem dup_tables (tables : Tables h t) (returns : vfsHandleDup t.state handle = .ok v') :
    Tables h { t with state := v', opened := update t.opened t.state.nextHandle (t.opened handle) } := by
  rw [vfsHandleDup] at returns
  obtain ⟨x, found, rest⟩ := bind_eq_ok.mp returns
  obtain ⟨inside, rfl⟩ := lookup_some (handleOf_ok found)
  rw [registerHandleToVfile] at rest
  obtain ⟨e, record, rest⟩ := bind_eq_ok.mp rest
  obtain ⟨there, same⟩ := lookup_some (acquireVfile_ok record)
  cases rest
  rw [← same]
  exact tables.addHandle there _ (tables.opened x inside e there same) x.write

theorem grant_mono [DecidableEq F] (granted : Granted t (.write handle addr fileSize)) {a : Nat}
    {p : Str} (before : t.owner fs a = some p) : grant t handle addr fs a = some p := by
  cases aimed : target t.state handle with
  | none => simpa only [grant, aimed] using before
  | some point =>
    obtain ⟨x, e⟩ := point
    simp only [grant, aimed]
    split
    next allocates =>
      rcases ((granted x e aimed allocates.1).2 allocates.2.1) with zero | free
      · exact absurd zero allocates.2.2
      by_cases sameFs : fs = e.fs
      · subst sameFs
        rw [update_self, update_of_ne]
        · exact before
        · rintro rfl
          rw [free] at before
          cases before
      · rw [update_of_ne sameFs]
        exact before
    · exact before

theorem wrote (tables : Tables h t) (returns : vfsWriteFile t.state handle addr fileSize = .ok v') :
    ∃ x e, target t.state handle = some (x, e) ∧
      (x.write = false ∧ v' = t.state ∨ x.write = true ∧
        v' = { t.state with openFiles := modify VFile.id e.id (fun e => { e with addr, fileSize }) t.state.openFiles }) := by
  rw [vfsWriteFile] at returns
  obtain ⟨x, found, rest⟩ := bind_eq_ok.mp returns
  obtain ⟨inside, rfl⟩ := lookup_some (handleOf_ok found)
  obtain ⟨e, there, same, -⟩ := tables.handle_record inside
  refine ⟨x, e, tables.target_of_mem inside there same, ?_⟩
  by_cases write : x.write = true
  · rw [if_neg (not_not_intro write)] at rest
    obtain ⟨e', record, rest⟩ := bind_eq_ok.mp rest
    obtain ⟨there', same'⟩ := lookup_some (acquireVfile_ok record)
    cases unique tables.counted.ids there' there (same'.trans same.symm)
    cases rest
    exact .inr ⟨write, rfl⟩
  · rw [if_pos write] at rest
    cases rest
    exact .inl ⟨by simpa using write, rfl⟩

theorem write_tables [DecidableEq F] (tables : Tables h t) (granted : Granted t (.write handle addr fileSize))
    (returns : vfsWriteFile t.state handle addr fileSize = .ok v') :
    Tables h (track t (.write handle addr fileSize) v') := by
  obtain ⟨x, e, aimed, writes⟩ := wrote tables returns
  obtain ⟨inside, -, there, same, canonical⟩ := tables.of_target aimed
  have located : Located h (Given (grant t handle addr)) (Given (grant t handle addr)) t.state.files t.state.cache :=
    tables.located.weaken (fun _ _ _ given address => grant_mono granted (given address))
      (fun _ _ _ given address => grant_mono granted (given address)) fun _ _ _ => id
  rcases writes with ⟨-, rfl⟩ | ⟨write, rfl⟩
  · exact tables.retable located tables.counted tables.handleIds tables.next (Nat.le_refl _) (fun _ _ => id)
      (fun _ _ _ => grant_mono granted) (fun y member => ⟨y, member, rfl, rfl, rfl, .inl rfl⟩) (fun _ => .inl) tables.opened
  obtain ⟨kept, -⟩ := granted x e aimed write
  obtain ⟨safe, names, valid, path, file, given⟩ := tables.backed e there
  have given' : addr ≠ 0 -> grant t handle addr e.fs addr = some (render names) := by
    intro some
    by_cases zero : e.addr = 0
    · simp only [grant, aimed]
      rw [if_pos ⟨write, zero, some⟩, update_self, update_self, ← canonical, path]
    · rw [kept zero]
      exact grant_mono (kept zero ▸ granted) (given zero)
  refine tables.retable located (tables.counted.modify (fun _ => rfl) fun _ => rfl) tables.handleIds tables.next
    (Nat.le_refl _) (fun _ _ => id) (fun _ _ _ => grant_mono granted) ?_ (fun _ => .inl) tables.opened
  intro y member
  rcases (Counted.mem_modify tables.counted.ids).mp member with ⟨old, -⟩ | ⟨e', there', sameId, rfl⟩
  · exact ⟨y, old, rfl, rfl, rfl, .inl rfl⟩
  · cases unique tables.counted.ids there' there sameId
    exact ⟨e, there, rfl, rfl, rfl, .inr ⟨safe, names, valid, path, file, given'⟩⟩

theorem flush_cases (returns : flush v e = .ok v') :
    (e.modified = false ∧ v' = v) ∨
      e.modified = true ∧ ∃ cache, vfsUpdateMetadataCache v.cache e.path e.addr e.fileSize = .ok cache ∧
        v' = { v with cache, lazyFlush := v.lazyFlush ++ [⟨e.path, e.addr, e.fileSize⟩] } := by
  rw [flush] at returns
  by_cases modified : e.modified = true
  · rw [if_neg (not_not_intro modified)] at returns
    obtain ⟨cache, updates, rest⟩ := bind_eq_ok.mp returns
    cases rest
    exact .inr ⟨modified, cache, updates, rfl⟩
  · rw [if_pos modified] at returns
    cases returns
    exact .inl ⟨by simpa using modified, rfl⟩

inductive Closed (v : VfsState F) (x : OpenHandle) (e : VFile F) : VfsState F -> Prop
  | kept (several : 1 < e.nInsts) :
      Closed v x e
        { v with
          openFiles := modify VFile.id e.id
            (fun e => { e with nInsts := e.nInsts - 1, modified := e.modified || x.write }) v.openFiles
          handles := remove OpenHandle.handleId x.handleId v.handles }
  | last (single : e.nInsts = 1) {v' : VfsState F}
      (flushed : flush { v with handles := remove OpenHandle.handleId x.handleId v.handles }
        { e with nInsts := 0, modified := e.modified || x.write } = .ok v') :
      Closed v x e { v' with openFiles := remove VFile.id e.id v'.openFiles }

theorem modify_const {R : Type} {key : R -> Nat} {xs : List R} {e : R} {f : R -> R} (ids : (xs.map key).Nodup)
    (member : e ∈ xs) : modify key (key e) (fun _ => f e) xs = modify key (key e) f xs := by
  rw [modify_eq_map ids, modify_eq_map ids]
  refine map_congr_left fun y inside => ?_
  by_cases same : key y = key e
  · rw [if_pos same, if_pos same, unique ids inside member same]
  · rw [if_neg same, if_neg same]

theorem closed (tables : Tables h t) (returns : vfsCloseFile t.state handle = .ok v') :
    ∃ x e, target t.state handle = some (x, e) ∧ Closed t.state x e v' := by
  rw [vfsCloseFile] at returns
  obtain ⟨x, found, rest⟩ := bind_eq_ok.mp returns
  obtain ⟨e, record, rest⟩ := bind_eq_ok.mp rest
  obtain ⟨inside, rfl⟩ := lookup_some (handleOf_ok found)
  obtain ⟨there, same⟩ := lookup_some (acquireVfile_ok record)
  refine ⟨x, e, tables.target_of_mem inside there same, ?_⟩
  have positive := tables.counted.positive e there
  by_cases last : e.nInsts - 1 = 0
  · rw [last] at rest
    obtain ⟨v₁, flushed, rest⟩ := bind_eq_ok.mp rest
    cases rest
    exact .last (by omega) flushed
  have rest := (if_neg last).symm.trans rest
  cases rest
  have kept := Closed.kept (v := t.state) (x := x) (e := e) (by omega)
  rw [← modify_const tables.counted.ids there] at kept
  exact kept

theorem close_tables (tables : Tables h t) (returns : vfsCloseFile t.state handle = .ok v') :
    Tables h { t with state := v' } := by
  obtain ⟨x, e, aimed, closes⟩ := closed tables returns
  obtain ⟨inside, -, there, same, -⟩ := tables.of_target aimed
  have handle := lookup_of_mem tables.handleIds inside
  have fewer : ((remove OpenHandle.handleId x.handleId t.state.handles).map OpenHandle.handleId).Nodup :=
    nodup_remove tables.handleIds
  have left : ∀ y ∈ remove OpenHandle.handleId x.handleId t.state.handles, y ∈ t.state.handles :=
    fun y member => (remove_sublist _ _).subset member
  have next := fun y member => tables.next y (left y member)
  have opened := fun y member => tables.opened y (left y member)
  cases closes with
  | kept several =>
    refine tables.retable tables.located ?_ fewer next (Nat.le_refl _) (fun _ _ => id) (fun _ _ _ => id) ?_ (fun _ => .inl)
      opened
    · exact tables.counted.release (fun _ => rfl) (fun _ => rfl) handle there same several
    · exact Counted.forall_mem_modify tables.counted.ids (fun y old =>
        ⟨y, old, rfl, rfl, rfl, .inl rfl⟩) fun y old => ⟨y, old, rfl, rfl, rfl, .inl rfl⟩
  | last single flushed =>
    have backed := tables.backed e there
    have counted := tables.counted.discard handle there same single
    have back : ∀ y ∈ remove VFile.id e.id t.state.openFiles, ∃ e ∈ t.state.openFiles, e.id = y.id ∧
        e.path = y.path ∧ e.fs = y.fs ∧ (e.addr = y.addr ∨ Backed h t y.path y.fs y.addr) :=
      fun y member => ⟨y, ((mem_remove tables.counted.ids).mp member).1, rfl, rfl, rfl, .inl rfl⟩
    rcases flush_cases flushed with ⟨-, rfl⟩ | ⟨-, cache, updates, rfl⟩
    · exact tables.retable tables.located counted fewer next (Nat.le_refl _) (fun _ _ => id)
        (fun _ _ _ => id) back (fun _ => .inl) opened
    have located : Located h (Given t.owner) (Given t.owner) t.state.files cache := by
      obtain ⟨-, names, valid, canonical, file, given⟩ := backed
      exact vfsUpdateMetadataCache_located tables.located valid canonical file (fun _ => given) updates
    refine tables.retable located counted fewer next (Nat.le_refl _) (fun _ _ => id) (fun _ _ _ => id) back ?_ opened
    exact forall_mem_concat (fun _ => .inl) (.inr ⟨e.fs, backed⟩)

variable [DecidableEq F]

theorem lazyFlush_tables (tables : Tables h t) (returns : vfsLazyFlush h.tree t.state = .ok v') :
    Tables h { t with state := v' } := by
  have emptied : Tables h { t with state := { t.state with lazyFlush := [] } } :=
    tables.retable tables.located tables.counted tables.handleIds tables.next (Nat.le_refl _) (fun _ _ => id)
      (fun _ _ _ => id) (fun y member => ⟨y, member, rfl, rfl, rfl, .inl rfl⟩) (fun _ member => by cases member) tables.opened
  have pending : Announced h t.state.files t.state.lazyFlush (fun _ => Given t.owner) := by
    intro args rest within
    obtain ⟨fs, safe, names, valid, canonical, file, given⟩ := tables.pending args (within.subset mem_cons_self)
    exact ⟨safe, names, fs, valid, canonical, file, fun _ => given⟩
  have flushes := lazyFlush_located (fun _ => Given t.owner) t.state.lazyFlush emptied.located
    (fun _ _ _ _ _ => id) (fun _ _ _ _ _ _ _ => id) pending returns
  exact emptied.moved flushes.1 flushes.2

theorem step_tables (tables : Tables h t) (step : SafeStep h t t') : Tables h t' := by
  obtain ⟨a, state, granted, safe, returns, rfl⟩ := step
  cases a with
  | openFile path flags => exact openFile_tables tables safe returns
  | dup handle => exact dup_tables tables returns
  | write handle addr fileSize => exact write_tables tables granted returns
  | close handle => exact close_tables tables returns
  | lookup path =>
    obtain ⟨moved, located⟩ := looks_located tables.located safe (.inl returns)
    exact tables.moved moved located
  | list path =>
    obtain ⟨moved, located⟩ := looks_located tables.located safe (.inr returns)
    exact tables.moved moved located
  | lazyFlush => exact lazyFlush_tables tables returns

end calls

def bootState (files : F -> FileSystem) : VfsState F :=
  { files, cache := emptyCache, openFiles := [], curId := 0, handles := [], nextHandle := 0, lazyFlush := [] }

def OnDisk (h : MountHistory F) (files : F -> FileSystem) (owner : F -> Nat -> Option Str) : Prop :=
  ∀ names fs d, Valid names -> Refers h files names (some (fs, d)) -> d.type ≠ .dir -> Given owner (render names) fs d

section flat

def rootMount : MountHistory Nat :=
  { tree := { rootFs := some 0, vdirs := .nil }
    mounts := [("/".toList, 0)] }

def flatFs (ents : List DirEntry) : FileSystem :=
  { rootAddr := 2
    readDir := fun ino => if ino = 2 then ents else [] }

variable {ents : List DirEntry}

theorem mem_flatFs {ino : Nat} {e : DirEntry} (listed : e ∈ (flatFs ents).readDir ino) : e ∈ ents := by
  change e ∈ (if ino = 2 then ents else []) at listed
  split at listed
  · exact listed
  · cases listed

theorem flatFs_descend (regular : ∀ e ∈ ents, e.fast.type = .reg) {rest : List Str} {d : FastDirent}
    (reached : (flatFs ents).descend (rootDirent (flatFs ents)) rest = some d) :
    (rest = [] ∧ d.type = .dir) ∨ ∃ e ∈ ents, rest = [e.name] ∧ d = e.fast := by
  cases rest with
  | nil =>
    cases reached
    exact .inl ⟨rfl, rfl⟩
  | cons name rest =>
    obtain ⟨child, found, reached⟩ := Option.bind_eq_some_iff.mp reached
    obtain ⟨e, listed, -, rfl, rfl⟩ := FileSystem.mem_of_child found
    have member := mem_flatFs listed
    cases rest with
    | nil =>
      cases reached
      exact .inr ⟨e, member, rfl, rfl⟩
    | cons name rest =>
      obtain ⟨child, found, -⟩ := Option.bind_eq_some_iff.mp reached
      obtain ⟨-, -, dir, -⟩ := FileSystem.mem_of_child found
      rw [regular e member] at dir
      cases dir

theorem flatFs_world (names : ∀ e ∈ ents, ValidName e.name) (distinct : (ents.map DirEntry.name).Nodup)
    (regular : ∀ e ∈ ents, e.fast.type = .reg) (rights : ∀ e ∈ ents, e.fast.rights ≠ 0) :
    World rootMount fun _ => flatFs ents := by
  refine ⟨mountSteps_represent (.tail .refl (.mount "/".toList 0 rfl)), ?_, fun _ => ⟨?_, ?_, ?_⟩, ?_, ?_⟩
  · intro e member e' member' _
    rw [mem_singleton.mp member, mem_singleton.mp member']
  · exact fun ino e listed => names e (mem_flatFs listed)
  · intro ino
    show (map DirEntry.name (if ino = 2 then ents else [])).Nodup
    split
    · exact distinct
    · exact .nil
  · exact fun ino e listed => .inr (rights e (mem_flatFs listed))
  · intro front fs valid mounted rest _ _
    obtain ⟨path, rfl⟩ := Prod.mk.inj (mem_singleton.mp mounted)
    rw [path]
    rfl
  · intro fs rest rest' d d' reached reached' dir dir' _
    rcases flatFs_descend regular reached with ⟨rfl, -⟩ | ⟨e, member, -, rfl⟩
    · rcases flatFs_descend regular reached' with ⟨rfl, -⟩ | ⟨e, member, -, rfl⟩
      · rfl
      · rw [regular e member] at dir'
        cases dir'
    · rw [regular e member] at dir
      cases dir

theorem flatFs_onDisk {owner : Nat -> Nat -> Option Str} (regular : ∀ e ∈ ents, e.fast.type = .reg)
    (given : ∀ e ∈ ents, e.fast.ino ≠ 0 -> owner 0 e.fast.ino = some (render [e.name])) :
    OnDisk rootMount (fun _ => flatFs ents) owner := by
  intro names fs d valid refers file address
  obtain ⟨front, rest, validFront, rfl, owns, reached⟩ := refers.reached
  obtain ⟨path, rfl⟩ := Prod.mk.inj (mem_singleton.mp owns.1)
  have empty : front = [] := render_injective validFront (by decide) path
  subst empty
  rcases flatFs_descend regular reached with ⟨-, dir⟩ | ⟨e, member, rfl, rfl⟩
  · exact absurd dir file
  · exact given e member address

end flat

section runs

variable [DecidableEq F] {h : MountHistory F} {files : F -> FileSystem}
  {owner : F -> Nat -> Option Str} {t : Tracked F}

omit [DecidableEq F] in
theorem boot_tables (world : World h files) (disk : OnDisk h files owner) (opened : Nat -> Str) :
    Tables h { state := bootState files, opened, owner } := by
  have located : Located h (Given owner) (Given owner) files emptyCache := ⟨world, fun _ _ _ => id, disk, nofun⟩
  refine ⟨located, ⟨.nil, ?_, ?_, ?_⟩, ?_, .nil, ?_, ?_, ?_, ?_, ?_⟩
  all_goals
    nofun

theorem safe_runs_share_records (world : World h files) (disk : OnDisk h files owner) (opened : Nat -> Str)
    (run : Relation.ReflTransGen (SafeStep h) { state := bootState files, opened, owner } t) {x y : OpenHandle}
    (first : x ∈ t.state.handles) (second : y ∈ t.state.handles) :
    (∃ e ∈ t.state.openFiles, e.id = x.vfileId ∧ e.id = y.vfileId) ↔ t.opened x.handleId = t.opened y.handleId := by
  have tables := run.invariant (Tables h) (boot_tables world disk opened) fun _ _ tables step => step_tables tables step
  constructor
  · rintro ⟨e, member, idX, idY⟩
    rw [← tables.opened x first e member idX, ← tables.opened y second e member idY]
  · intro same
    obtain ⟨e, member, idX, pathX⟩ := tables.handle_record first
    obtain ⟨e', member', idY, pathY⟩ := tables.handle_record second
    cases tables.single e member e' member' (by rw [pathX, pathY, same])
    exact ⟨e, member, idX, idY⟩

end runs

theorem granted_first {t : Tracked F} {addr fileSize : Nat} (aimed : target t.state handle = some (x, e))
    (zero : e.addr = 0) (free : t.owner e.fs addr = none) : Granted t (.write handle addr fileSize) := by
  intro x' e' aimed' _
  cases aimed.symm.trans aimed'
  exact ⟨fun some => absurd zero some, fun _ => .inr free⟩

def sampleEnts : List DirEntry := [⟨"a".toList, newFile⟩, ⟨"b".toList, { newFile with ino := 7, fileSize := 1 }⟩]

def sampleOwner (_ addr : Nat) : Option Str := if addr = 7 then some "/b".toList else none

def sampleStart : Tracked Nat :=
  { state := bootState fun _ => flatFs sampleEnts, opened := fun _ => [], owner := sampleOwner }

theorem safe_runs_share_records_written :
    ∃ t : Tracked Nat, Relation.ReflTransGen (SafeStep rootMount) sampleStart t ∧
      t.state.handles = [⟨0, 1, true⟩, ⟨1, 1, true⟩, ⟨2, 2, false⟩] ∧
      ((∃ e ∈ t.state.openFiles, e.id = 1 ∧ e.id = 1) ↔ t.opened 0 = t.opened 1) ∧
      ((∃ e ∈ t.state.openFiles, e.id = 1 ∧ e.id = 2) ↔ t.opened 0 = t.opened 2) := by
  have world : World rootMount fun _ => flatFs sampleEnts := flatFs_world (by decide) (by decide) (by decide) (by decide)
  have disk : OnDisk rootMount (fun _ => flatFs sampleEnts) sampleOwner := flatFs_onDisk (by decide) (by decide)
  have run : ReflTransGen (SafeStep rootMount) sampleStart _ :=
    .tail (.tail (.tail (.tail .refl
      ⟨.openFile "/a".toList ⟨true, true, false⟩, _, trivial, ⟨by decide, by
        intro v fs d _ handle x e aimed
        cases aimed⟩, rfl, rfl⟩)
      ⟨.dup 0, _, trivial, trivial, rfl, rfl⟩)
      ⟨.write 0 9 3, _, granted_first rfl rfl rfl, trivial, rfl, rfl⟩)
      ⟨.openFile "/b".toList ⟨true, false, false⟩, _, trivial, ⟨by decide, by
        intro v fs d entry handle x e aimed
        cases entry
        obtain ⟨inside, rfl, -⟩ := mem_of_target aimed
        refine ⟨fun same => absurd same ?_, fun zero => absurd zero (by decide)⟩
        rcases mem_cons.mp inside with rfl | later
        · decide
        · rw [mem_singleton.mp later]
          decide⟩, rfl, rfl⟩
  refine ⟨_, run, rfl, ?_, ?_⟩
  · exact safe_runs_share_records world disk _ run (x := ⟨0, 1, true⟩) (y := ⟨1, 1, true⟩) (by decide) (by decide)
  · exact safe_runs_share_records world disk _ run (x := ⟨0, 1, true⟩) (y := ⟨2, 2, false⟩) (by decide) (by decide)

def emptyStart : Tracked Nat :=
  { state := bootState fun _ => flatFs [], opened := fun _ => [], owner := fun _ _ => none }

theorem empty_files_share_record :
    World rootMount (fun _ => flatFs []) ∧
      (∃ t : Tracked Nat, Relation.ReflTransGen (Step rootMount) emptyStart t ∧
        t.state.handles = [⟨0, 1, true⟩, ⟨1, 1, true⟩] ∧ t.opened 0 = "/a".toList ∧ t.opened 1 = "/b".toList) ∧
      ∃ t : Tracked Nat, Relation.ReflTransGen (Step rootMount) emptyStart t ∧
        t.state.handles = [⟨0, 1, true⟩, ⟨1, 2, true⟩] ∧ t.opened 0 = "/a".toList ∧ t.opened 1 = "/a".toList := by
  have twoFiles : ReflTransGen (Step rootMount) emptyStart _ :=
    .tail (.tail .refl ⟨.openFile "/a".toList ⟨true, true, true⟩, _, trivial, rfl, rfl⟩)
      ⟨.openFile "/b".toList ⟨true, true, true⟩, _, trivial, rfl, rfl⟩
  have reopened : ReflTransGen (Step rootMount) emptyStart _ :=
    .tail (.tail (.tail .refl ⟨.openFile "/a".toList ⟨true, true, true⟩, _, trivial, rfl, rfl⟩)
      ⟨.write 0 9 3, _, granted_first rfl rfl rfl, rfl, rfl⟩)
      ⟨.openFile "/a".toList ⟨true, true, true⟩, _, trivial, rfl, rfl⟩
  exact ⟨flatFs_world (by decide) (by decide) (by decide) (by decide), ⟨_, twoFiles, rfl, by decide, by decide⟩,
    _, reopened, rfl, by decide, by decide⟩

end Bincows.Vfs.OpenTable
