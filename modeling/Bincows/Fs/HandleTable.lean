import Bincows.Fs.OpenFiles
import Bincows.Shared.RefCounts

set_option autoImplicit false

/-! Each record keeps the array `fhs` of its handles, each file system counts the handles on its
files. `vfs_open_file` is taken from the entry that the search for its path found or created. -/

namespace Bincows.Vfs.HandleTable

open Keyed OpenTable Function List

inductive Fault where
  | noHandle
  | noVfile
  | negativeInsts
  | negativeOpenFiles
  deriving DecidableEq

variable {F : Type}

structure FileEnt (F : Type) extends VFile F where
  fhs : List Nat

structure Handle (F : Type) where
  handleId : Nat
  vfileId : Nat
  fs : F
  write : Bool

structure FileTable (F : Type) where
  openFiles : List (FileEnt F)
  curId : Nat
  handles : List (Handle F)
  nextId : Nat
  nOpenFiles : F -> Int
  lazyFlush : List (FlushArgs Str)

def FileEnt.key (e : FileEnt F) : Nat := e.id

def FileEnt.count (e : FileEnt F) : Nat := e.nInsts

def FileEnt.registered (e : FileEnt F) : List Nat := e.fhs.take e.nInsts

def acquireVfile (s : FileTable F) (id : Nat) : Except Fault (FileEnt F) :=
  match lookup FileEnt.key s.openFiles id with
  | some e => .ok e
  | none => .error .noVfile

def handleOf (s : FileTable F) (handle : Nat) : Except Fault (Handle F) :=
  match lookup Handle.handleId s.handles handle with
  | some h => .ok h
  | none => .error .noHandle

-- `realloc` keeps the first `n_insts` elements.
def FileEnt.register (handle : Nat) (e : FileEnt F) : FileEnt F :=
  { e with nInsts := e.nInsts + 1, fhs := e.registered ++ [handle] }

def registerHandleToVfile (s : FileTable F) (h : Handle F) : Except Fault (FileTable F) := do
  let e ← acquireVfile s h.vfileId
  return { s with openFiles := modify FileEnt.key e.id (FileEnt.register h.handleId) s.openFiles, handles := s.handles ++ [h] }

def FileEnt.unregister (write : Bool) (e : FileEnt F) : FileEnt F :=
  { e with nInsts := e.nInsts - 1, modified := e.modified || write }

variable [DecidableEq F]

def searchOrInsertFile (s : FileTable F) (fs : F) (addr fileLen : Nat) (path : Str) : FileTable F × Nat :=
  let s := { s with nOpenFiles := update s.nOpenFiles fs (s.nOpenFiles fs + 1) }
  match s.openFiles.find? fun e => e.addr = addr ∧ e.fs = fs with
  | some e => (s, e.id)
  | none =>
    let e := { fs, addr, fileSize := fileLen, id := s.curId + 1, path, modified := false, nInsts := 0, fhs := [] }
    ({ s with openFiles := s.openFiles ++ [e], curId := s.curId + 1 }, s.curId + 1)

def createHandler (s : FileTable F) (fs : F) (dirent : FastDirent) (path : Str) (write : Bool)
    (answer : Option Int) : Except Fault (FileTable F × Option Nat) :=
  let hid := s.nextId
  let s := { s with nextId := s.nextId + 1 }
  if answer.getD 0 ≠ 0 then .ok (s, none)
  else do
    let (s, vfileId) := searchOrInsertFile s fs dirent.ino dirent.fileSize path
    let s ← registerHandleToVfile s { handleId := hid, vfileId, fs, write }
    return (s, some hid)

def vfsOpenFileFrom (s : FileTable F) (fs : F) (dirent : FastDirent) (path : Str)
    (flags : OpenFlags) (answer : Option Int) : Except Fault (FileTable F × Option Nat) :=
  if dirent.type ≠ .reg then .ok (s, none)
  else if flags.write ∧ ¬ dirent.rights.testBit 1 then .ok (s, none)
  else if flags.read ∧ ¬ dirent.rights.testBit 0 then .ok (s, none)
  else createHandler s fs dirent path flags.write answer

def vfsOpenFile (s : FileTable F) (found : Option (F × FastDirent)) (path : Str) (flags : OpenFlags)
    (answer : Option Int) : Except Fault (FileTable F × Option Nat) :=
  match found with
  | none => .ok (s, none)
  | some (fs, dirent) => vfsOpenFileFrom s fs dirent path flags answer

def vfsHandleDup (s : FileTable F) (source : Nat) (answer : Option Int) : Except Fault (FileTable F × Option Nat) := do
  let h ← handleOf s source
  let hid := s.nextId
  let s := { s with nextId := s.nextId + 1 }
  let _ ← acquireVfile s h.vfileId
  -- here 0 is the refusal
  if answer.getD 1 = 0 then return (s, none)
  else
    let s := { s with nOpenFiles := update s.nOpenFiles h.fs (s.nOpenFiles h.fs + 1) }
    let s ← registerHandleToVfile s { h with handleId := hid }
    return (s, some hid)

/-- Without `close_instance` and `close_file` of the file system: they leave the table as it is, but may fail assertions. -/
def vfsCloseFile (s : FileTable F) (handle : Nat) : Except Fault (FileTable F) := do
  let h ← handleOf s handle
  let e ← acquireVfile s h.vfileId
  if e.nInsts = 0 then .error .negativeInsts
  else if s.nOpenFiles h.fs < 1 then .error .negativeOpenFiles
  else
    let closed := e.unregister h.write
    let s := { s with
      handles := remove Handle.handleId handle s.handles
      nOpenFiles := update s.nOpenFiles h.fs (s.nOpenFiles h.fs - 1) }
    if closed.nInsts = 0 then
      let flushed := if closed.modified then [⟨e.path, e.addr, e.fileSize⟩] else []
      return { s with openFiles := remove FileEnt.key e.id s.openFiles, lazyFlush := s.lazyFlush ++ flushed }
    else return { s with openFiles := modify FileEnt.key e.id (FileEnt.unregister h.write) s.openFiles }

inductive Action (F : Type) where
  | openFile (found : Option (F × FastDirent)) (path : Str) (flags : OpenFlags) (answer : Option Int)
  | dup (source : Nat) (answer : Option Int)
  | close (handle : Nat)

def perform (s : FileTable F) : Action F -> Except Fault (FileTable F)
  | .openFile found path flags answer => (vfsOpenFile s found path flags answer).map Prod.fst
  | .dup source answer => (vfsHandleDup s source answer).map Prod.fst
  | .close handle => vfsCloseFile s handle

def TableStep (s s' : FileTable F) : Prop := ∃ a, perform s a = .ok s'

def ClosesLast (s : FileTable F) : Action F -> Prop
  | .close handle => ∀ h e, lookup Handle.handleId s.handles handle = some h ->
      lookup FileEnt.key s.openFiles h.vfileId = some e -> e.registered.getLast? = some handle
  | _ => True

def LastStep (s s' : FileTable F) : Prop := ∃ a, ClosesLast s a ∧ perform s a = .ok s'

def vfsFilesInit : FileTable F :=
  { openFiles := [], curId := 0, handles := [], nextId := 0, nOpenFiles := fun _ => 0, lazyFlush := [] }

structure Consistent (s : FileTable F) : Prop where
  counted : Counted FileEnt.key FileEnt.count Handle.vfileId s.openFiles s.handles
  ids : ∀ e ∈ s.openFiles, e.id ≤ s.curId
  handleIds : (s.handles.map Handle.handleId).Nodup
  used : ∀ h ∈ s.handles, h.handleId < s.nextId
  opened : ∀ fs, s.nOpenFiles fs = s.handles.countP fun h => h.fs = fs

def Registered (s : FileTable F) : Prop :=
  ∀ e ∈ s.openFiles, e.registered = (s.handles.filter fun h => h.vfileId = e.id).map Handle.handleId

def FileTable.join (s : FileTable F) (h : Handle F) : FileTable F :=
  { s with
    openFiles := modify FileEnt.key h.vfileId (FileEnt.register h.handleId) s.openFiles
    handles := s.handles ++ [h]
    nextId := s.nextId + 1
    nOpenFiles := update s.nOpenFiles h.fs (s.nOpenFiles h.fs + 1) }

def FileTable.create (s : FileTable F) (e : FileEnt F) (h : Handle F) : FileTable F :=
  { s with
    openFiles := s.openFiles ++ [e.register h.handleId]
    curId := s.curId + 1
    handles := s.handles ++ [h]
    nextId := s.nextId + 1
    nOpenFiles := update s.nOpenFiles h.fs (s.nOpenFiles h.fs + 1) }

section steps

variable {s s' : FileTable F} {h : Handle F} {e : FileEnt F} {hid : Option Nat} {handle id : Nat}

section

omit [DecidableEq F]

theorem acquireVfile_ok : acquireVfile s id = .ok e ↔ lookup FileEnt.key s.openFiles id = some e := by
  rw [acquireVfile]
  cases lookup FileEnt.key s.openFiles id <;> simp

theorem handleOf_ok : handleOf s handle = .ok h ↔ lookup Handle.handleId s.handles handle = some h := by
  rw [handleOf]
  cases lookup Handle.handleId s.handles handle <;> simp

theorem FileEnt.register_registered (handle : Nat) (e : FileEnt F) :
    (e.register handle).registered = e.registered ++ [handle] := by
  refine take_of_length_le ?_
  show (e.registered ++ [handle]).length ≤ e.nInsts + 1
  rw [length_append, length_singleton]
  exact Nat.succ_le_succ (length_take_le _ _)

theorem filter_append_other (handles : List (Handle F)) (other : h.vfileId ≠ id) :
    (handles ++ [h]).filter (fun h => h.vfileId = id) = handles.filter fun h => h.vfileId = id := by
  simp [other]

theorem registerHandleToVfile_eq (found : lookup FileEnt.key s.openFiles h.vfileId = some e) :
    registerHandleToVfile s h = .ok { s with
      openFiles := modify FileEnt.key e.id (FileEnt.register h.handleId) s.openFiles, handles := s.handles ++ [h] } := by
  rw [registerHandleToVfile, acquireVfile_ok.mpr found]
  rfl

end

theorem vfsOpenFileFrom_allowed (s : FileTable F) (fs : F) {dirent : FastDirent} (path : Str) {flags : OpenFlags}
    (answer : Option Int) (regular : dirent.type = .reg) (writes : flags.write -> dirent.rights.testBit 1)
    (reads : flags.read -> dirent.rights.testBit 0) :
    vfsOpenFileFrom s fs dirent path flags answer = createHandler s fs dirent path flags.write answer := by
  rw [vfsOpenFileFrom, if_neg (by simp [regular]), if_neg (by tauto), if_neg (by tauto)]

inductive Opens (s : FileTable F) : FileTable F -> Option Nat -> Prop where
  | same : Opens s s none
  | skip : Opens s { s with nextId := s.nextId + 1 } none
  | join (e : FileEnt F) (h : Handle F) (member : e ∈ s.openFiles) (here : h.vfileId = e.id)
      (fresh : h.handleId = s.nextId) : Opens s (s.join h) (some h.handleId)
  | create (e : FileEnt F) (h : Handle F) (new : e.id = s.curId + 1) (empty : e.nInsts = 0) (here : h.vfileId = e.id)
      (fresh : h.handleId = s.nextId) : Opens s (s.create e h) (some h.handleId)

def FileTable.drop (s : FileTable F) (h : Handle F) : FileTable F :=
  { s with
    handles := remove Handle.handleId h.handleId s.handles
    nOpenFiles := update s.nOpenFiles h.fs (s.nOpenFiles h.fs - 1) }

inductive Closes (s : FileTable F) (e : FileEnt F) (h : Handle F) : FileTable F -> Prop where
  | leave (several : 1 < e.nInsts) :
      Closes s e h { s.drop h with openFiles := modify FileEnt.key e.id (FileEnt.unregister h.write) s.openFiles }
  | discard (last : e.nInsts = 1) (lazyFlush : List (FlushArgs Str)) :
      Closes s e h { s.drop h with openFiles := remove FileEnt.key e.id s.openFiles, lazyFlush }

def FileTable.live (s : FileTable F) : List Nat := s.handles.map Handle.handleId

theorem Opens.live_none (opens : Opens s s' none) : s'.live = s.live := by
  cases opens with
  | same => rfl
  | skip => rfl

section

variable (consistent : Consistent s)
include consistent

theorem Consistent.keys_new : ∀ e ∈ s.openFiles, e.key ≠ s.curId + 1 := by
  intro e member same
  exact absurd (consistent.ids e member) (by rw [show e.id = _ from same]; omega)

theorem Consistent.handleIds_append (fresh : h.handleId = s.nextId) : ((s.handles ++ [h]).map Handle.handleId).Nodup :=
  consistent.handleIds.map_concat fun h' there => fresh ▸ (consistent.used h' there).ne

theorem Consistent.used_append (fresh : h.handleId = s.nextId) : ∀ h' ∈ s.handles ++ [h], h'.handleId < s.nextId + 1 :=
  forall_mem_concat (fun h' old => Nat.lt_succ_of_lt (consistent.used h' old)) (fresh ▸ Nat.lt_succ_self _)

theorem Consistent.opened_append (fs : F) :
    update s.nOpenFiles h.fs (s.nOpenFiles h.fs + 1) fs = ((s.handles ++ [h]).countP fun h => h.fs = fs : Nat) := by
  by_cases same : fs = h.fs
  · subst same
    simp [consistent.opened]
  · simp [update_of_ne same, consistent.opened, Ne.symm same]

theorem Consistent.skip : Consistent { s with nextId := s.nextId + 1 } :=
  { consistent with used := fun h member => Nat.lt_succ_of_lt (consistent.used h member) }

theorem Consistent.join (member : e ∈ s.openFiles) (here : h.vfileId = e.id)
    (fresh : h.handleId = s.nextId) : Consistent (s.join h) where
  counted := by
    rw [FileTable.join, here]
    exact consistent.counted.acquire (fun _ => rfl) (fun _ => rfl) member here
  ids := Counted.forall_mem_modify consistent.counted.ids consistent.ids consistent.ids
  handleIds := consistent.handleIds_append fresh
  used := consistent.used_append fresh
  opened := consistent.opened_append

theorem Consistent.create (new : e.id = s.curId + 1) (empty : e.nInsts = 0)
    (here : h.vfileId = e.id) (fresh : h.handleId = s.nextId) : Consistent (s.create e h) where
  counted := by
    refine consistent.counted.insert ?_ (congrArg (· + 1) empty) here
    intro e' member
    exact fun same => consistent.keys_new e' member (same.trans new)
  ids := forall_mem_concat (fun e' old => Nat.le_succ_of_le (consistent.ids e' old)) new.le
  handleIds := consistent.handleIds_append fresh
  used := consistent.used_append fresh
  opened := consistent.opened_append

theorem Registered.join (registered : Registered s) : Registered (s.join h) := by
  intro e' inside
  show _ = ((s.handles ++ [h]).filter _).map _
  rcases (Counted.mem_modify consistent.counted.ids).mp inside with ⟨old, other⟩ | ⟨e, there, same, rfl⟩
  · have different : h.vfileId ≠ e'.id := Ne.symm other
    rw [filter_append_other _ different]
    exact registered e' old
  · rw [FileEnt.register_registered, registered e there, show (e.register h.handleId).id = h.vfileId from same,
      show e.id = h.vfileId from same]
    simp

theorem Registered.create (registered : Registered s) (new : e.id = s.curId + 1)
    (empty : e.nInsts = 0) (here : h.vfileId = e.id) : Registered (s.create e h) := by
  have others : ∀ h' ∈ s.handles, h'.vfileId ≠ e.id := by
    intro h' member same
    obtain ⟨e', there, target⟩ := consistent.counted.live h' member
    exact consistent.keys_new e' there (target.trans (same.trans new))
  intro e' inside
  show _ = ((s.handles ++ [h]).filter _).map _
  rcases mem_append.mp inside with old | last
  · have other : h.vfileId ≠ e'.id := fun same => consistent.keys_new e' old (same.symm.trans (here.trans new))
    rw [filter_append_other _ other]
    exact registered e' old
  have none : s.handles.filter (fun h => h.vfileId = e.id) = [] := by
    simpa [filter_eq_nil_iff] using others
  rw [mem_singleton.mp last, FileEnt.register_registered, show (e.register h.handleId).id = e.id from rfl,
    filter_append, none, FileEnt.registered, empty]
  simp [here]

theorem Opens.preserves (opens : Opens s s' hid) : Consistent s' := by
  cases opens with
  | same => exact consistent
  | skip => exact consistent.skip
  | join e h member here fresh => exact consistent.join member here fresh
  | create e h new empty here fresh => exact consistent.create new empty here fresh

theorem Opens.registered (opens : Opens s s' hid) (registered : Registered s) : Registered s' := by
  cases opens with
  | same => exact registered
  | skip => exact registered
  | join e h member here fresh => exact registered.join consistent
  | create e h new empty here fresh => exact registered.create consistent new empty here

theorem createHandler_opens (fs : F) (dirent : FastDirent) (path : Str) (write : Bool)
    (answer : Option Int) : ∃ s' hid, createHandler s fs dirent path write answer = .ok (s', hid) ∧
      Opens s s' hid ∧ (answer.getD 0 = 0 -> hid ≠ none) := by
  rw [createHandler]
  by_cases refuses : answer.getD 0 ≠ 0
  · exact ⟨_, none, if_pos refuses, .skip, fun allowed => absurd allowed refuses⟩
  rw [if_neg refuses]
  cases found : s.openFiles.find? fun e => e.addr = dirent.ino ∧ e.fs = fs with
  | some e =>
    have member := mem_of_find?_eq_some found
    have there : lookup FileEnt.key s.openFiles e.id = some e := lookup_of_mem consistent.counted.ids member
    refine ⟨_, some s.nextId, ?_, .join e ⟨s.nextId, e.id, fs, write⟩ member rfl rfl, nofun⟩
    have registers := registerHandleToVfile_eq (h := ⟨s.nextId, e.id, fs, write⟩) (s := { s with
      nextId := s.nextId + 1, nOpenFiles := update s.nOpenFiles fs (s.nOpenFiles fs + 1) }) there
    simp only [searchOrInsertFile, found]
    rw [registers]
    rfl
  | none =>
    let e : FileEnt F :=
      { fs, addr := dirent.ino, fileSize := dirent.fileSize, id := s.curId + 1, path, modified := false, nInsts := 0, fhs := [] }
    have unique : ((s.openFiles ++ [e]).map FileEnt.key).Nodup := consistent.counted.ids.map_concat consistent.keys_new
    have there : lookup FileEnt.key (s.openFiles ++ [e]) (s.curId + 1) = some e := lookup_of_mem unique mem_concat_self
    have modified : modify FileEnt.key (s.curId + 1) (.register s.nextId) (s.openFiles ++ [e]) = _ :=
      modify_split rfl consistent.keys_new
    refine ⟨_, some s.nextId, ?_, .create e ⟨s.nextId, e.id, fs, write⟩ rfl rfl rfl rfl, nofun⟩
    have registers := registerHandleToVfile_eq (h := ⟨s.nextId, e.id, fs, write⟩) (s := { s with
      nextId := s.nextId + 1
      nOpenFiles := update s.nOpenFiles fs (s.nOpenFiles fs + 1)
      openFiles := s.openFiles ++ [e]
      curId := s.curId + 1 }) there
    simp only [searchOrInsertFile, found]
    rw [registers, FileTable.create, ← modified]
    rfl

theorem vfsOpenFile_opens (found : Option (F × FastDirent)) (path : Str) (flags : OpenFlags)
    (answer : Option Int) : ∃ s' hid, vfsOpenFile s found path flags answer = .ok (s', hid) ∧ Opens s s' hid := by
  cases found with
  | none => exact ⟨s, none, rfl, .same⟩
  | some point =>
    obtain ⟨fs, dirent⟩ := point
    rw [vfsOpenFile, vfsOpenFileFrom]
    split
    · exact ⟨s, none, rfl, .same⟩
    split
    · exact ⟨s, none, rfl, .same⟩
    · split
      · exact ⟨s, none, rfl, .same⟩
      · obtain ⟨s', hid, returns, opens, -⟩ := createHandler_opens consistent fs dirent path flags.write answer
        exact ⟨s', hid, returns, opens⟩

theorem Consistent.record (member : h ∈ s.handles) :
    ∃ e ∈ s.openFiles, e.id = h.vfileId ∧ lookup FileEnt.key s.openFiles h.vfileId = some e := by
  obtain ⟨e, there, here⟩ := consistent.counted.live h member
  exact ⟨e, there, here, here ▸ lookup_of_mem consistent.counted.ids there⟩

theorem vfsHandleDup_opens {source : Nat} (live : lookup Handle.handleId s.handles source = some h) (answer : Option Int) :
    ∃ s' hid, vfsHandleDup s source answer = .ok (s', hid) ∧ Opens s s' hid ∧ (answer ≠ some 0 -> hid ≠ none) := by
  obtain ⟨member, -⟩ := lookup_some live
  obtain ⟨e, there, key, record⟩ := consistent.record member
  by_cases refuses : answer.getD 1 = 0
  · have zero : answer = some 0 := by
      cases answer with
      | none => cases refuses
      | some i => exact congrArg some refuses
    refine ⟨_, none, ?_, .skip, fun allowed => absurd zero allowed⟩
    simp only [vfsHandleDup, handleOf, live, acquireVfile, record, refuses, bind, Except.bind, if_true]
    rfl
  · refine ⟨_, some s.nextId, ?_, .join e { h with handleId := s.nextId } there key.symm rfl, nofun⟩
    simp only [vfsHandleDup, handleOf, live, acquireVfile, record, refuses, registerHandleToVfile,
      bind, Except.bind, if_false]
    rw [FileTable.join]
    simp only [← key]
    rfl

theorem vfsCloseFile_closes
    (live : lookup Handle.handleId s.handles handle = some h) (found : lookup FileEnt.key s.openFiles h.vfileId = some e) :
    ∃ s', vfsCloseFile s handle = .ok s' ∧ Closes s e h s' := by
  obtain ⟨member, rfl⟩ := lookup_some live
  have positive : 0 < e.nInsts := consistent.counted.positive e (lookup_some found).1
  have counted : 1 ≤ s.nOpenFiles h.fs := by
    have some : 0 < s.handles.countP fun h' => h'.fs = h.fs := countP_pos_iff.mpr ⟨h, member, decide_eq_true rfl⟩
    rw [consistent.opened]
    omega
  rw [vfsCloseFile, handleOf_ok.mpr live]
  simp only [acquireVfile_ok.mpr found, bind, Except.bind]
  rw [if_neg (by omega), if_neg (by omega)]
  by_cases last : e.nInsts = 1
  · have none : (e.unregister h.write).nInsts = 0 := by rw [FileEnt.unregister, last]
    rw [if_pos none]
    exact ⟨_, rfl, .discard last _⟩
  have some : (e.unregister h.write).nInsts ≠ 0 := by
    show e.nInsts - 1 ≠ 0
    omega
  rw [if_neg some]
  exact ⟨_, rfl, .leave (by omega)⟩

theorem Consistent.opened_remove (live : lookup Handle.handleId s.handles h.handleId = some h)
    (fs : F) : (s.drop h).nOpenFiles fs = (s.drop h).handles.countP fun h => h.fs = fs := by
  have total := countP_remove (fun h => decide (h.fs = fs)) live
  have before := consistent.opened fs
  show update s.nOpenFiles h.fs _ fs = _
  by_cases same : fs = h.fs
  · subst same
    rw [decide_eq_true rfl, if_pos rfl] at total
    rw [update_self, before, total]
    show _ = ((remove Handle.handleId h.handleId s.handles).countP _ : Int)
    omega
  · rw [decide_eq_false (Ne.symm same), if_neg (by simp)] at total
    rw [update_of_ne same, before, total]
    rfl

theorem Consistent.filter_drop (member : h ∈ s.handles) (other : h.vfileId ≠ id) :
    (s.drop h).handles.filter (fun h => h.vfileId = id) = s.handles.filter fun h => h.vfileId = id := by
  show (remove Handle.handleId h.handleId s.handles).filter _ = _
  rw [remove_eq_filter consistent.handleIds, filter_filter]
  refine filter_congr fun h' inside => ?_
  by_cases same : h'.handleId = h.handleId
  · rw [unique consistent.handleIds inside member same]
    simp [other]
  · simp [same]

section

variable (closes : Closes s e h s') (live : lookup Handle.handleId s.handles h.handleId = some h)
  (found : lookup FileEnt.key s.openFiles h.vfileId = some e)
include closes live found

theorem Closes.preserves :
    Consistent s' := by
  obtain ⟨member, here⟩ := lookup_some found
  have fewer : remove Handle.handleId h.handleId s.handles ⊆ s.handles := (remove_sublist h.handleId s.handles).subset
  cases closes with
  | leave several =>
    exact
      { counted := consistent.counted.release (fun _ => rfl) (fun _ => rfl) live member here several
        ids := Counted.forall_mem_modify consistent.counted.ids consistent.ids consistent.ids
        handleIds := nodup_remove consistent.handleIds
        used := fun h' inside => consistent.used h' (fewer inside)
        opened := consistent.opened_remove live }
  | discard last lazyFlush =>
    exact
      { counted := consistent.counted.discard live member here last
        ids := fun e' inside => consistent.ids e' ((mem_remove consistent.counted.ids).mp inside).1
        handleIds := nodup_remove consistent.handleIds
        used := fun h' inside => consistent.used h' (fewer inside)
        opened := consistent.opened_remove live }

theorem Closes.registered (last : e.registered.getLast? = some h.handleId) (registered : Registered s) : Registered s' := by
  obtain ⟨member, here⟩ := lookup_some found
  obtain ⟨inside, -⟩ := lookup_some live
  have untouched : ∀ e' ∈ s.openFiles, e'.key ≠ e.key ->
      e'.registered = ((s.drop h).handles.filter fun h => h.vfileId = e'.id).map Handle.handleId := by
    intro e' old other
    have different : h.vfileId ≠ e'.id := fun same => other (same.symm.trans here.symm)
    rw [consistent.filter_drop inside different]
    exact registered e' old
  cases closes with
  | leave several =>
    intro e' changed
    rcases (Counted.mem_modify consistent.counted.ids).mp changed with ⟨old, other⟩ | ⟨e', there, same, rfl⟩
    · exact untouched e' old other
    obtain rfl : e' = e := unique consistent.counted.ids there member same
    obtain ⟨rest, ends⟩ := getLast?_eq_some_iff.mp last
    have size : rest.length = e'.nInsts - 1 := by
      have counts : e'.nInsts = _ := consistent.counted.counts e' there
      have length := congrArg length (registered e' there)
      rw [length_map, ← countP_eq_length_filter, ends, length_append, length_singleton] at length
      exact Nat.eq_sub_of_add_eq (length.trans counts.symm)
    have dropped : (e'.unregister h.write).registered = rest :=
      calc e'.fhs.take (e'.nInsts - 1)
        _ = e'.registered.take (e'.nInsts - 1) := by rw [FileEnt.registered, take_take, min_eq_left (Nat.sub_le _ _)]
        _ = rest := by rw [ends, take_left' size]
    rw [dropped]
    exact (filter_remove_last consistent.handleIds ((registered e' there).symm.trans ends)).symm
  | discard single lazyFlush =>
    intro e' kept
    obtain ⟨old, other⟩ := (mem_remove consistent.counted.ids).mp kept
    exact untouched e' old other

end

theorem Opens.live_some (opens : Opens s s' (some handle)) : s'.live = s.live ++ [handle] ∧ handle ∉ s.live := by
  have new : s.nextId ∉ s.live := by
    intro inside
    obtain ⟨h, member, same⟩ := mem_map.mp inside
    exact absurd (consistent.used h member) (by omega)
  cases opens with
  | join e h member here fresh => exact ⟨map_append, fresh ▸ new⟩
  | create e h first empty here fresh => exact ⟨map_append, fresh ▸ new⟩

theorem vfsCloseFile_live (member : handle ∈ s.live) :
    ∃ s', vfsCloseFile s handle = .ok s' ∧ Consistent s' ∧ ∀ x, x ∈ s'.live ↔ x ∈ s.live ∧ x ≠ handle := by
  obtain ⟨h, there, rfl⟩ := mem_map.mp member
  have live := lookup_of_mem consistent.handleIds there
  obtain ⟨e, -, -, found⟩ := consistent.record there
  obtain ⟨s', returns, closes⟩ := vfsCloseFile_closes consistent live found
  refine ⟨s', returns, closes.preserves consistent live found, ?_⟩
  have handles : s'.handles = remove Handle.handleId h.handleId s.handles := by
    cases closes with
    | leave several => rfl
    | discard last lazyFlush => rfl
  intro x
  rw [FileTable.live, handles, mem_map, FileTable.live, mem_map]
  constructor
  · rintro ⟨h', inside, rfl⟩
    obtain ⟨old, other⟩ := (mem_remove consistent.handleIds).mp inside
    exact ⟨⟨h', old, rfl⟩, other⟩
  · rintro ⟨⟨h', old, rfl⟩, other⟩
    exact ⟨h', (mem_remove consistent.handleIds).mpr ⟨old, other⟩, rfl⟩

theorem perform_cases {a : Action F} (returns : perform s a = .ok s') :
    (∃ hid, Opens s s' hid) ∨ ∃ h e, a = .close h.handleId ∧ lookup Handle.handleId s.handles h.handleId = some h ∧
      lookup FileEnt.key s.openFiles h.vfileId = some e ∧ Closes s e h s' := by
  cases a with
  | openFile found path flags answer =>
    obtain ⟨next, hid, result, opens⟩ := vfsOpenFile_opens consistent found path flags answer
    rw [perform, result] at returns
    cases returns
    exact .inl ⟨hid, opens⟩
  | dup source answer =>
    cases live : lookup Handle.handleId s.handles source with
    | none =>
      rw [perform, vfsHandleDup, handleOf, live] at returns
      cases returns
    | some h =>
      obtain ⟨next, hid, result, opens, -⟩ := vfsHandleDup_opens consistent live answer
      rw [perform, result] at returns
      cases returns
      exact .inl ⟨hid, opens⟩
  | close handle =>
    cases live : lookup Handle.handleId s.handles handle with
    | none =>
      rw [perform, vfsCloseFile, handleOf, live] at returns
      cases returns
    | some h =>
      obtain ⟨member, rfl⟩ := lookup_some live
      obtain ⟨e, -, -, found⟩ := consistent.record member
      obtain ⟨next, result, closes⟩ := vfsCloseFile_closes consistent live found
      rw [perform, result] at returns
      cases returns
      exact .inr ⟨h, e, rfl, live, found, closes⟩

theorem step_consistent (step : TableStep s s') : Consistent s' := by
  obtain ⟨a, returns⟩ := step
  rcases perform_cases consistent returns with ⟨hid, opens⟩ | ⟨h, e, -, live, found, closes⟩
  · exact opens.preserves consistent
  · exact closes.preserves consistent live found

theorem step_registered (registered : Registered s) (step : LastStep s s') : Registered s' := by
  obtain ⟨a, last, returns⟩ := step
  rcases perform_cases consistent returns with ⟨hid, opens⟩ | ⟨h, e, rfl, live, found, closes⟩
  · exact opens.registered consistent registered
  · exact closes.registered consistent live found (last h e live found) registered

end

theorem init_consistent : Consistent (vfsFilesInit : FileTable F) where
  counted := ⟨.nil, nofun, nofun, nofun⟩
  ids := nofun
  handleIds := .nil
  used := nofun
  opened := fun _ => rfl

theorem run_consistent (run : ReflTransGen TableStep vfsFilesInit s) : Consistent s :=
  run.invariant Consistent init_consistent fun _ _ consistent step => step_consistent consistent step

theorem run_registered (run : ReflTransGen LastStep vfsFilesInit s) : Registered s := by
  have both := run.invariant (fun s => Consistent s ∧ Registered s) ⟨init_consistent, nofun⟩ fun s s' both step => by
    obtain ⟨a, last, returns⟩ := step
    exact ⟨step_consistent both.1 ⟨a, returns⟩, step_registered both.1 both.2 ⟨a, last, returns⟩⟩
  exact both.2

end steps

/-- In every run a record is there as long as a handle refers to it, and the counts are right; the array of a record
holds its handles as long as each handle closed was the last one registered on its record. -/
theorem open_table_counts_handles {s : FileTable F} (run : Relation.ReflTransGen TableStep vfsFilesInit s) :
    (s.openFiles.map fun e => e.id).Nodup ∧ (∀ id, (∃ e ∈ s.openFiles, e.id = id) ↔ ∃ h ∈ s.handles,
      h.vfileId = id) ∧ (∀ e ∈ s.openFiles, e.nInsts = s.handles.countP fun h => h.vfileId = e.id) ∧
      (∀ fs, s.nOpenFiles fs = s.handles.countP fun h => h.fs = fs) ∧
      (Relation.ReflTransGen LastStep vfsFilesInit s -> ∀ e ∈ s.openFiles,
        e.fhs.take e.nInsts = (s.handles.filter fun h => h.vfileId = e.id).map Handle.handleId) := by
  have consistent := run_consistent run
  refine ⟨consistent.counted.ids, ?_, consistent.counted.counts, consistent.opened, run_registered⟩
  intro id
  constructor
  · rintro ⟨e, member, rfl⟩
    exact consistent.counted.referenced member
  · rintro ⟨h, member, rfl⟩
    exact consistent.counted.live h member

instance (s : FileTable F) (a : Action F) : Decidable (ClosesLast s a) :=
  match a with
  | .openFile _ _ _ _ | .dup _ _ => .isTrue trivial
  | .close handle =>
    decidable_of_iff (∀ h ∈ lookup Handle.handleId s.handles handle,
      ∀ e ∈ lookup FileEnt.key s.openFiles h.vfileId, e.registered.getLast? = some handle)
      ⟨fun all h e live found => all h live e found, fun all h live e found => all h e live found⟩

def sampleOpen : Action Unit :=
  .openFile (some ((), { ino := 5, fileSize := 0, type := .reg, rights := 31 })) []
    { read := true, write := true, create := false }
    none

theorem open_table_counts_handles_three :
    ∃ s : FileTable Unit, Relation.ReflTransGen LastStep vfsFilesInit s ∧ s.nOpenFiles () = 2 ∧
      ∀ e ∈ s.openFiles, e.fhs.take e.nInsts = [0, 1] := by
  have run : ReflTransGen LastStep _ _ := .of_guarded ClosesLast perform .noHandle vfsFilesInit
    [sampleOpen, sampleOpen, .dup 0 none, .close 2] (fun _ a _ last returns => ⟨a, last, returns⟩) rfl
  have any := Relation.ReflTransGen.mono (fun _ _ (step : LastStep _ _) => by
    obtain ⟨a, -, returns⟩ := step
    exact (⟨a, returns⟩ : TableStep _ _)) _ _ run
  obtain ⟨-, -, -, opened, arrays⟩ := open_table_counts_handles any
  refine ⟨_, run, (opened ()).trans rfl, ?_⟩
  intro e member
  have array := arrays run e member
  obtain rfl := mem_singleton.mp member
  exact array

theorem close_keeps_freed_handle :
    ∃ s : FileTable Unit, Relation.ReflTransGen TableStep vfsFilesInit s ∧ s.handles.map Handle.handleId = [1] ∧
      s.openFiles.map (fun e => e.fhs.take e.nInsts) = [[0]] := by
  have run := Relation.ReflTransGen.of_foldlM (fun s a s' returns => (⟨a, returns⟩ : TableStep s s'))
    (show foldlM perform vfsFilesInit [sampleOpen, sampleOpen, .close 0] = Except.ok _ from rfl)
  exact ⟨_, run, rfl, rfl⟩

end Bincows.Vfs.HandleTable
