import Bincows.Shared.RefCounts
import Bincows.Shared.Tokens

set_option autoImplicit false

/-! The operations of `vfs_files.c`, run by several threads. What holds `vfile_lock` is one step, what a file system does with
the copy of the file another. `acquire_vfile` keeps the lock when it finds no record. -/

namespace Bincows.Vfs.FileAccess

open Keyed Function List

inductive Fault where
  | nullVfile
  | negativeInsts
  | notAccessed
  | noInstance
  deriving DecidableEq

structure File (F : Type) where
  addr : Nat
  fs : F
  fileSize : Nat
  deriving DecidableEq

structure Record (F : Type) where
  id : Nat
  file : File F
  accessed : Bool
  nInsts : Nat

inductive Op where
  | read
  | write
  | truncate
  | close
  deriving DecidableEq

/-- Where a thread is. `base` is the file as it was copied, `new` and `made` what the operation made of it. -/
inductive Pc (F : Type) where
  | idle
  | register (id : Nat)
  | want (op : Op) (id : Nat)
  | hold (op : Op) (id : Nat) (base : File F)
  | changed (id : Nat) (base new : File F)
  | leave (id : Nat) (base made : File F)

/-- The table with the threads, and for each access that has ended the file it copied and the one it made. -/
structure FileState (T F : Type) where
  records : List (Record F)
  curId : Nat
  locked : Bool
  pc : T -> Pc F
  log : List (Tokens.Access Nat (File F))

/-- What the file system does to the copy: nothing that is kept, a write that ends at an offset, or a truncation. -/
inductive Outcome where
  | unchanged
  | written (addr fileOffset : Nat)
  | truncated (addr fileSize : Nat)

inductive Action (T F : Type) where
  | openFile (t : T) (fs : F) (addr fileLen : Nat)
  | dup (t : T) (id : Nat) (allowed : Bool)
  | register (t : T)
  | look (t : T) (id : Nat)
  | request (t : T) (op : Op) (id : Nat)
  | acquire (t : T)
  | work (t : T) (outcome : Outcome)
  | update (t : T)
  | close (t : T) (closes : Bool)
  | release (t : T)

variable {T F : Type}

def infinite : Nat := 2 ^ 64 - 1

def File.write (file : File F) (addr fileOffset : Nat) : File F :=
  if file.fileSize ≠ infinite ∧ file.fileSize < fileOffset then { file with addr, fileSize := fileOffset }
  else { file with addr }

def Pc.work [DecidableEq F] (id : Nat) (base : File F) : Outcome -> Pc F
  | .unchanged => .leave id base base
  | .written addr fileOffset =>
    let new := base.write addr fileOffset
    if new.addr ≠ base.addr ∨ new.fileSize ≠ base.fileSize then .changed id base new else .leave id base base
  | .truncated addr fileSize => .changed id base { base with addr, fileSize }

def acquireVfile (s : FileState T F) (id : Nat) : Except Fault (Record F) :=
  match lookup Record.id s.records id with
  | some e => .ok e
  | none => .error .nullVfile

def Record.setAccessed (accessed : Bool) (e : Record F) : Record F := { e with accessed }

def File.update (file new : File F) : File F :=
  { file with addr := new.addr, fileSize := new.fileSize }

def Record.update (new : File F) (e : Record F) : Record F := { e with file := e.file.update new }

variable [DecidableEq T]

def FileState.go (s : FileState T F) (t : T) (pc : Pc F) : FileState T F :=
  { s with pc := update s.pc t pc }

def FileState.modify (s : FileState T F) (id : Nat) (f : Record F -> Record F) : FileState T F :=
  { s with records := Keyed.modify Record.id id f s.records }

def acquireFileAccess (s : FileState T F) (t : T) (op : Op) (id : Nat) : FileState T F :=
  match lookup Record.id s.records id with
  | none => { s.go t .idle with locked := true }
  | some e => if e.accessed then s else (s.modify id (.setAccessed true)).go t (.hold op id e.file)

def FileState.ended (s : FileState T F) (id : Nat) (base left : File F) : FileState T F :=
  { s with log := s.log ++ [⟨id, base, left⟩] }

def releaseFileAccess (s : FileState T F) (t : T) (id : Nat) (base made : File F) : Except Fault (FileState T F) := do
  let e ← acquireVfile s id
  if ¬ e.accessed then .error .notAccessed
  else return ((s.modify id (.setAccessed false)).go t .idle).ended id base made

def updateVfile (s : FileState T F) (t : T) (id : Nat) (base new : File F) : Except Fault (FileState T F) := do
  let _ ← acquireVfile s id
  return (s.modify id (.update new)).go t (.leave id base (base.update new))

/-- The part of `vfs_close_file` under the lock; the last close removes the record with its token. `closes` tells whether
`close_instance` of the file system passes its assertions. -/
def closeVfile (s : FileState T F) (t : T) (id : Nat) (base : File F) (closes : Bool) : Except Fault (FileState T F) := do
  let e ← acquireVfile s id
  if ¬ closes then .error .noInstance
  else if e.nInsts = 0 then .error .negativeInsts
  else if e.nInsts = 1 then return { s.go t .idle with records := remove Record.id id s.records }.ended id base base
  else return (s.modify id fun e => { e with nInsts := e.nInsts - 1 }).go t (.leave id base base)

section operations

variable [DecidableEq F]

def searchOrInsertFile (s : FileState T F) (t : T) (fs : F) (addr fileLen : Nat) : FileState T F :=
  match s.records.find? fun e => e.file.addr = addr ∧ e.file.fs = fs with
  | some e => s.go t (.register e.id)
  | none =>
    let file := { addr, fs, fileSize := fileLen }
    let e := { id := s.curId + 1, file, accessed := false, nInsts := 0 }
    { s.go t (.register (s.curId + 1)) with records := s.records ++ [e], curId := s.curId + 1 }.ended (s.curId + 1) file file

def perform (s : FileState T F) : Action T F -> Except Fault (FileState T F)
  | .openFile t fs addr fileLen => .ok (searchOrInsertFile s t fs addr fileLen)
  | .dup t id allowed => do
    let _ ← acquireVfile s id
    return if allowed then s.go t (.register id) else s
  | .register t =>
    match s.pc t with
    | .register id => do
      let _ ← acquireVfile s id
      return (s.modify id fun e => { e with nInsts := e.nInsts + 1 }).go t .idle
    | _ => .ok s
  -- `vfs_flush_file` and `vfs_seek_file`
  | .look _ id => do
    let _ ← acquireVfile s id
    return s
  | .request t op id => .ok (s.go t (.want op id))
  | .acquire t =>
    match s.pc t with
    | .want op id => .ok (acquireFileAccess s t op id)
    | _ => .ok s
  | .work t outcome =>
    match s.pc t with
    | .hold _ id base => .ok (s.go t (.work id base outcome))
    | _ => .ok s
  | .update t =>
    match s.pc t with
    | .changed id base new => updateVfile s t id base new
    | _ => .ok s
  | .close t closes =>
    match s.pc t with
    | .hold .close id base => closeVfile s t id base closes
    | _ => .ok s
  | .release t =>
    match s.pc t with
    | .leave id base made => releaseFileAccess s t id base made
    | _ => .ok s

def Op.Allows : Op -> Outcome -> Prop
  | .read, .unchanged => True
  | .write, .unchanged => True
  | .write, .written _ _ => True
  | .truncate, .unchanged => True
  | .truncate, .truncated _ _ => True
  | _, _ => False

def Enabled (s : FileState T F) : Action T F -> Prop
  | .openFile t _ _ _ => s.pc t = .idle ∧ s.locked = false
  | .dup t _ _ => s.pc t = .idle ∧ s.locked = false
  | .register t => (∃ id, s.pc t = .register id) ∧ s.locked = false
  | .look t _ => s.pc t = .idle ∧ s.locked = false
  | .request t _ _ => s.pc t = .idle
  | .acquire t => (∃ op id, s.pc t = .want op id) ∧ s.locked = false
  | .work t outcome => ∃ op id base, s.pc t = .hold op id base ∧ op.Allows outcome
  | .update t => (∃ id base new, s.pc t = .changed id base new) ∧ s.locked = false
  | .close t _ => (∃ id base, s.pc t = .hold .close id base) ∧ s.locked = false
  | .release t => (∃ id base made, s.pc t = .leave id base made) ∧ s.locked = false

def Step (s s' : FileState T F) : Prop := ∃ a, Enabled s a ∧ perform s a = .ok s'

end operations

def start : FileState T F :=
  { records := [], curId := 0, locked := false, pc := fun _ => .idle, log := [] }

def Pc.access : Pc F -> Option (Nat × File F)
  | .hold _ id base => some (id, base)
  | .changed id base _ => some (id, base)
  | .leave id base _ => some (id, base)
  | .idle | .register _ | .want _ _ => none

-- What the record holds meanwhile.
def Pc.current : Pc F -> Option (Nat × File F)
  | .hold _ id base => some (id, base)
  | .changed id base _ => some (id, base)
  | .leave id _ made => some (id, made)
  | .idle | .register _ | .want _ _ => none

structure Simulates (s : FileState T F) (a : Tokens Nat T (File F)) : Prop where
  ids : (s.records.map Record.id).Nodup
  below : ∀ e ∈ s.records, e.id ≤ s.curId
  log : a.log = s.log
  used : ∀ x ∈ a.log, x.object ≤ s.curId
  value : ∀ id, a.value id = (lookup Record.id s.records id).map Record.file
  holder : ∀ id t base, a.holder id = some (t, base) ↔ (s.pc t).access = some (id, base)
  present : ∀ t id base, (s.pc t).access = some (id, base) -> ∃ e, lookup Record.id s.records id = some e
  free : ∀ id e, lookup Record.id s.records id = some e -> e.accessed = false -> a.holder id = none
  fresh : ∀ t id file, (s.pc t).current = some (id, file) -> a.value id = some file

section simulation

variable {s s' : FileState T F} {a : Tokens Nat T (File F)} {t t' : T} {id : Nat} {e e' : Record F}
  {base new : File F} {f : Record F -> Record F} {pc : Pc F}

omit [DecidableEq T] in
theorem Pc.current_access : ∀ (pc : Pc F) (p : Nat × File F), pc.current = some p -> ∃ base, pc.access = some (p.1, base)
  | .hold _ _ base, _, rfl => ⟨base, rfl⟩
  | .changed _ base _, _, rfl => ⟨base, rfl⟩
  | .leave _ base _, _, rfl => ⟨base, rfl⟩

omit [DecidableEq T] in
theorem acquireVfile_ok : acquireVfile s id = .ok e ↔ lookup Record.id s.records id = some e := by
  rw [acquireVfile]
  cases lookup Record.id s.records id <;> simp

@[simp] theorem go_self (s : FileState T F) (t : T) (pc : Pc F) : (s.go t pc).pc t = pc :=
  update_self ..

theorem go_other (s : FileState T F) (pc : Pc F) (other : t' ≠ t) : (s.go t pc).pc t' = s.pc t' :=
  update_of_ne other ..

theorem Simulates.go (simulates : Simulates s a) (access : pc.access = (s.pc t).access)
    (current : ∀ p, pc.current = some p -> (s.pc t).current = some p) : Simulates (s.go t pc) a := by
  have same : ∀ t', ((s.go t pc).pc t').access = (s.pc t').access := by
    intro t'
    by_cases here : t' = t
    · rw [here, go_self, access]
    · rw [go_other s pc here]
  refine { simulates with holder := ?_, present := ?_, fresh := ?_ }
  · intro id t' base
    rw [same]
    exact simulates.holder id t' base
  · intro t' id base held
    exact simulates.present t' id base (same t' ▸ held)
  · intro t' id base waits
    by_cases here : t' = t
    · subst here
      rw [go_self] at waits
      exact simulates.fresh t' id base (current _ waits)
    · rw [go_other s pc here] at waits
      exact simulates.fresh t' id base waits

section

omit [DecidableEq T]

theorem Simulates.modify_ids (simulates : Simulates s a) (keeps : ∀ e, (f e).id = e.id) (id : Nat) :
    ((Keyed.modify Record.id id f s.records).map Record.id).Nodup ∧
      ∀ e ∈ Keyed.modify Record.id id f s.records, e.id ≤ s.curId := by
  constructor
  · rw [map_modify fun e same => (keeps e).trans same]
    exact simulates.ids
  · exact Counted.forall_mem_modify simulates.ids simulates.below fun e there => keeps e ▸ simulates.below e there

theorem lookup_modified (keeps : ∀ e, (f e).id = e.id) (j : Nat) :
    lookup Record.id (s.modify id f).records j = (lookup Record.id s.records j).map fun e => if j = id then f e else e := by
  rw [FileState.modify, lookup_modify keeps]
  by_cases same : j = id
  · simp [same]
  · simp [same]

theorem lookup_updated (keeps : ∀ e, (f e).id = e.id) (found : lookup Record.id s.records id = some e) (j : Nat) :
    lookup Record.id (s.modify id f).records j = update (lookup Record.id s.records) id (some (f e)) j := by
  rw [FileState.modify, lookup_modify keeps, found, update_apply]
  rfl

end

section

variable (simulates : Simulates s a)
include simulates

omit [DecidableEq T] in
theorem Simulates.keep (keeps : ∀ e, (f e).id = e.id) (same : ∀ e, (f e).file = e.file ∧
    (f e).accessed = e.accessed) : Simulates (s.modify id f) a := by
  obtain ⟨ids, below⟩ := simulates.modify_ids keeps id
  have same (j : Nat) (e : Record F) : (if j = id then f e else e).file = e.file ∧
      (if j = id then f e else e).accessed = e.accessed := by
    split
    · exact same e
    · exact ⟨rfl, rfl⟩
  refine { simulates with ids, below, value := fun j => ?_, present := fun t j base held => ?_, free := fun j e found free => ?_ }
  · simp [simulates.value, lookup_modified keeps, Function.comp_def, same]
  · obtain ⟨e, found⟩ := simulates.present t j base held
    exact ⟨_, by rw [lookup_modified keeps, found]; rfl⟩
  · rw [lookup_modified keeps] at found
    obtain ⟨old, there, rfl⟩ := Option.map_eq_some_iff.mp found
    exact simulates.free j old there ((same j old).2 ▸ free)

omit [DecidableEq T] in
theorem Simulates.holder_only (held : (s.pc t).access = some (id, base)) {base' : File F}
    (other : (s.pc t').access = some (id, base')) : t' = t := by
  have first := (simulates.holder id t base).mpr held
  have second := (simulates.holder id t' base').mpr other
  cases first.symm.trans second
  rfl

-- A step on the record of `id` by `t`, which alone may have its access: `now` is the record and `copy` the copy `t` then has.
theorem Simulates.access {s' : FileState T F} {a' : Tokens Nat T (File F)} (now : Option (Record F)) (copy : Option (File F))
    (was : (s.pc t).access = none ∧ a.holder id = none ∨ ∃ base, (s.pc t).access = some (id, base))
    (moves : s'.pc = update s.pc t pc) (access : pc.access = copy.map (Prod.mk id))
    (found : ∀ j, lookup Record.id s'.records j = update (lookup Record.id s.records) id now j)
    (ids : (s'.records.map Record.id).Nodup) (below : ∀ e ∈ s'.records, e.id ≤ s'.curId) (log : a'.log = s'.log)
    (used : ∀ x ∈ a'.log, x.object ≤ s'.curId) (value : a'.value = update a.value id (now.map Record.file))
    (holder : a'.holder = update a.holder id (copy.map (Prod.mk t))) (present : now = none -> copy = none)
    (free : ∀ e, now = some e -> e.accessed = false -> copy = none)
    (fresh : ∀ p, pc.current = some p -> now.map Record.file = some p.2) : Simulates s' a' := by
  have cases' : ∀ t' j base', (s'.pc t').access = some (j, base') ↔
      t' = t ∧ j = id ∧ copy = some base' ∨ t' ≠ t ∧ j ≠ id ∧ (s.pc t').access = some (j, base') := by
    intro t' j base'
    rw [moves]
    by_cases here : t' = t
    · simp [here, access, and_comm, eq_comm]
    simp only [here, update_of_ne, ne_eq, not_false_eq_true, true_and, false_and, false_or, iff_and_self]
    rintro other rfl
    rcases was with ⟨-, unheld⟩ | ⟨base, held⟩
    · cases unheld.symm.trans ((simulates.holder _ _ _).mpr other)
    · exact here (simulates.holder_only held other)
  have before : ∀ t' j base', j ≠ id ->
      ((s.pc t').access = some (j, base') ↔ t' ≠ t ∧ (s.pc t').access = some (j, base')) := by
    intro t' j base' other
    refine ⟨fun held => ⟨?_, held⟩, And.right⟩
    rintro rfl
    rcases was with ⟨none', -⟩ | ⟨base, mine⟩
    · cases none'.symm.trans held
    · cases mine.symm.trans held
      exact other rfl
  constructor
  case ids => exact ids
  case below => exact below
  case log => exact log
  case used => exact used
  case value =>
    intro j
    rw [value, found]
    by_cases same : j = id
    · rw [same, update_self, update_self]
    · rw [update_of_ne same, update_of_ne same, simulates.value]
  case holder =>
    intro j t' base'
    rw [cases', holder, update_eq, simulates.holder]
    by_cases same : j = id
    · simp [same, and_comm, eq_comm]
    · simpa [same] using before t' j base' same
  case present =>
    intro t' j base' held
    rw [found]
    rcases (cases' t' j base').mp held with ⟨-, rfl, copied⟩ | ⟨-, other, held⟩
    · rw [update_self]
      cases now with
      | none => cases (present rfl).symm.trans copied
      | some e => exact ⟨e, rfl⟩
    · rw [update_of_ne other]
      exact simulates.present t' j base' held
  case free =>
    intro j e there unused
    rw [found] at there
    rw [holder, update_eq]
    rcases update_eq.mp there with ⟨same, rfl⟩ | ⟨other, there⟩
    · exact .inl ⟨same, by rw [free e rfl unused]; rfl⟩
    · exact .inr ⟨other, simulates.free j e there unused⟩
  case fresh =>
    intro t' j file waits
    obtain ⟨base', held⟩ := Pc.current_access _ _ waits
    rw [value, update_eq]
    rcases (cases' t' j base').mp held with ⟨rfl, rfl, copied⟩ | ⟨here, other, -⟩
    · rw [moves, update_self] at waits
      exact .inl ⟨rfl, fresh _ waits⟩
    · rw [moves, update_of_ne here] at waits
      exact .inr ⟨other, simulates.fresh t' j file waits⟩

theorem Simulates.create [DecidableEq F] (idle : (s.pc t).access = none) (addr fileLen : Nat)
    (fs : F) (missing : (s.records.find? fun e => e.file.addr = addr ∧ e.file.fs = fs) = none) :
    ∃ a', ReflTransGen Tokens.Step a a' ∧ Simulates (searchOrInsertFile s t fs addr fileLen) a' := by
  have unused : a.accesses (s.curId + 1) = [] := by
    rw [Tokens.accesses, filter_eq_nil_iff]
    intro x member same
    exact absurd (simulates.used x member) (by rw [of_decide_eq_true same]; omega)
  have absent : lookup Record.id s.records (s.curId + 1) = none := by
    cases found : lookup Record.id s.records (s.curId + 1) with
    | none => rfl
    | some e =>
      obtain ⟨member, same⟩ := lookup_some found
      exact absurd (simulates.below e member) (by omega)
  have unheld : a.holder (s.curId + 1) = none := by
    refine Option.eq_none_iff_forall_ne_some.mpr fun p held => ?_
    obtain ⟨e, found⟩ := simulates.present p.1 _ p.2 ((simulates.holder _ _ _).mp held)
    cases absent.symm.trans found
  refine ⟨_, .single (.create (s.curId + 1) { addr, fs, fileSize := fileLen } unheld unused), ?_⟩
  rw [searchOrInsertFile, missing]
  refine simulates.access (some ⟨s.curId + 1, ⟨addr, fs, fileLen⟩, false, 0⟩) none (.inl ⟨idle, unheld⟩) rfl rfl (fun j => ?_)
    (simulates.ids.map_concat fun e => lookup_none absent)
    (forall_mem_concat (fun e old => Nat.le_succ_of_le (simulates.below e old)) (Nat.le_refl _))
    (congrArg (· ++ [_]) simulates.log)
    (forall_mem_concat (fun x old => Nat.le_succ_of_le (simulates.used x old)) (Nat.le_refl _))
    rfl (eq_update_self_iff.mpr unheld) (fun _ => rfl) (fun _ _ _ => rfl) (by rintro _ ⟨⟩)
  show lookup Record.id (s.records ++ [_]) j = _
  rw [lookup_append]
  by_cases same : j = s.curId + 1
  · simp [same, absent]
  · simp [same, Ne.symm same]

omit [DecidableEq T] in
theorem Simulates.used_append (found : lookup Record.id s.records id = some e) (left : File F) :
    ∀ x ∈ a.log ++ [⟨id, base, left⟩], x.object ≤ s.curId := by
  obtain ⟨member, rfl⟩ := lookup_some found
  exact forall_mem_concat simulates.used (simulates.below e member)

section

variable (found : lookup Record.id s.records id = some e)
include found

omit [DecidableEq T] in
theorem Simulates.value_found : a.value id = some e.file := by
  rw [simulates.value, found]
  rfl

theorem Simulates.take (asks : (s.pc t).access = none) (unused : e.accessed = false) (op : Op) :
    ∃ a', ReflTransGen Tokens.Step a a' ∧ Simulates ((s.modify id (.setAccessed true)).go t (.hold op id e.file)) a' := by
  have unheld := simulates.free id e found unused
  have there := simulates.value_found found
  have keeps : ∀ e : Record F, (e.setAccessed true).id = e.id := fun _ => rfl
  obtain ⟨ids, below⟩ := simulates.modify_ids keeps id
  exact ⟨_, .single (.take t id e.file unheld there), simulates.access _ (some e.file) (.inl ⟨asks, unheld⟩) rfl rfl
    (lookup_updated keeps found) ids below simulates.log simulates.used (eq_update_self_iff.mpr there) rfl nofun
    (by rintro _ ⟨⟩ ⟨⟩) (by rintro _ ⟨⟩; rfl)⟩

theorem Simulates.give {made : File F} (leaves : s.pc t = .leave id base made) :
    ∃ a', ReflTransGen Tokens.Step a a' ∧
      Simulates (((s.modify id (.setAccessed false)).go t .idle).ended id base made) a' := by
  have held : (s.pc t).access = some (id, base) := by rw [leaves]; rfl
  obtain rfl : e.file = made := by
    have fresh := simulates.fresh t id made (by rw [leaves]; rfl)
    rw [simulates.value_found found] at fresh
    exact Option.some.inj fresh
  have there := simulates.value_found found
  have keeps : ∀ e : Record F, (e.setAccessed false).id = e.id := fun _ => rfl
  obtain ⟨ids, below⟩ := simulates.modify_ids keeps id
  exact ⟨_, .single (.give t id base e.file ((simulates.holder id t base).mpr held) there),
    simulates.access _ none (.inr ⟨base, held⟩)
    rfl rfl (lookup_updated keeps found) ids below (congrArg (· ++ [_]) simulates.log) (simulates.used_append found e.file)
    (eq_update_self_iff.mpr there) rfl nofun (fun _ _ _ => rfl) nofun⟩

theorem Simulates.discard (closes : s.pc t = .hold .close id base) :
    ∃ a', ReflTransGen Tokens.Step a a' ∧
      Simulates ({ s.go t .idle with records := remove Record.id id s.records }.ended id base base) a' := by
  have held : (s.pc t).access = some (id, base) := by rw [closes]; rfl
  have there : a.value id = some base := simulates.fresh t id base (by rw [closes]; rfl)
  refine ⟨_, .single (.discard t id base base ((simulates.holder id t base).mpr held) there), simulates.access none none
    (.inr ⟨base, held⟩) rfl rfl (fun j => ?_) (nodup_remove simulates.ids)
      (fun e' inside => simulates.below e' ((mem_remove simulates.ids).mp inside).1)
    (congrArg (· ++ [_]) simulates.log) (simulates.used_append found base) rfl rfl (fun _ => rfl) nofun nofun⟩
  rw [update_apply]
  exact lookup_remove simulates.ids j

theorem Simulates.store (pending : s.pc t = .changed id base new) :
    ∃ a', ReflTransGen Tokens.Step a a' ∧
      Simulates ((s.modify id (.update new)).go t (.leave id base (base.update new))) a' := by
  have held : (s.pc t).access = some (id, base) := by rw [pending]; rfl
  have holds := (simulates.holder id t base).mpr held
  have fresh : a.value id = some base := simulates.fresh t id base (by rw [pending]; rfl)
  have keeps : ∀ e : Record F, (e.update new).id = e.id := fun _ => rfl
  obtain ⟨ids, below⟩ := simulates.modify_ids keeps id
  refine ⟨_, .single (.store t id base (e.update new).file holds fresh),
    simulates.access _ (some base) (.inr ⟨base, held⟩) rfl rfl
    (lookup_updated keeps found) ids below simulates.log simulates.used rfl (eq_update_self_iff.mpr holds) nofun ?_ ?_⟩
  · rintro _ ⟨⟩ unused
    cases (simulates.free id e found unused).symm.trans holds
  · rintro _ ⟨⟩
    rw [simulates.value_found found] at fresh
    cases fresh
    rfl

end

end

section steps

variable [DecidableEq F]

omit [DecidableEq T] in
theorem Pc.work_access (id : Nat) (base : File F) (outcome : Outcome) :
    (Pc.work id base outcome).access = some (id, base) ∧ (Pc.work id base outcome).current = some (id, base) := by
  cases outcome with
  | unchanged => exact ⟨rfl, rfl⟩
  | written addr fileOffset =>
    rw [Pc.work]
    split <;> exact ⟨rfl, rfl⟩
  | truncated addr fileSize => exact ⟨rfl, rfl⟩

inductive Does (s : FileState T F) : FileState T F -> Prop
  | stay : Does s s
  | quiet (t : T) (pc : Pc F) (locked : Bool) : pc.access = (s.pc t).access ->
      (∀ p, pc.current = some p -> (s.pc t).current = some p) -> Does s { s.go t pc with locked }
  | count (t : T) (id : Nat) (n : Record F -> Nat) (pc : Pc F) : pc.access = (s.pc t).access ->
      (∀ p, pc.current = some p -> (s.pc t).current = some p) ->
      Does s ((s.modify id fun e => { e with nInsts := n e }).go t pc)
  | create (t : T) (fs : F) (addr fileLen : Nat) : (s.pc t).access = none ->
      (s.records.find? fun e => e.file.addr = addr ∧ e.file.fs = fs) = none -> Does s (searchOrInsertFile s t fs addr fileLen)
  | take (t : T) (op : Op) (id : Nat) (e : Record F) : (s.pc t).access = none -> lookup Record.id s.records id = some e ->
      e.accessed = false -> Does s ((s.modify id (.setAccessed true)).go t (.hold op id e.file))
  | give (t : T) (id : Nat) (base made : File F) (e : Record F) : s.pc t = .leave id base made ->
      lookup Record.id s.records id = some e ->
      Does s (((s.modify id (.setAccessed false)).go t .idle).ended id base made)
  | discard (t : T) (id : Nat) (base : File F) (e : Record F) : s.pc t = .hold .close id base ->
      lookup Record.id s.records id = some e ->
      Does s ({ s.go t .idle with records := remove Record.id id s.records }.ended id base base)
  | store (t : T) (id : Nat) (base new : File F) (e : Record F) : s.pc t = .changed id base new ->
      lookup Record.id s.records id = some e ->
      Does s ((s.modify id (.update new)).go t (.leave id base (base.update new)))

theorem Step.does (step : Step s s') : Does s s' := by
  obtain ⟨action, enabled, returns⟩ := step
  cases action with
  | openFile t fs addr fileLen =>
    cases returns
    have idle : (s.pc t).access = none := by rw [enabled.1]; rfl
    cases found : s.records.find? fun e => e.file.addr = addr ∧ e.file.fs = fs with
    | some e =>
      rw [searchOrInsertFile, found]
      exact .quiet t _ s.locked idle.symm nofun
    | none => exact .create t fs addr fileLen idle found
  | dup t id allowed =>
    obtain ⟨e, -, returns⟩ := bind_eq_ok.mp returns
    cases returns
    cases allowed with
    | true => exact .quiet t _ s.locked (by rw [enabled.1]; rfl) nofun
    | false => exact .stay
  | register t =>
    obtain ⟨⟨id, pc⟩, -⟩ := enabled
    simp only [perform, pc] at returns
    obtain ⟨e, -, returns⟩ := bind_eq_ok.mp returns
    cases returns
    exact .count t id _ .idle (by rw [pc]; rfl) nofun
  | look t id =>
    obtain ⟨e, -, returns⟩ := bind_eq_ok.mp returns
    cases returns
    exact .stay
  | request t op id =>
    cases returns
    exact .quiet t _ s.locked (by rw [show s.pc t = .idle from enabled]; rfl) nofun
  | acquire t =>
    obtain ⟨⟨op, id, pc⟩, -⟩ := enabled
    have asks : (s.pc t).access = none := by rw [pc]; rfl
    simp only [perform, pc, acquireFileAccess] at returns
    cases returns
    cases found : lookup Record.id s.records id with
    | none => exact .quiet t .idle true asks.symm nofun
    | some e =>
      by_cases busy : e.accessed
      · simp only [busy, if_true]
        exact .stay
      · simp only [busy]
        exact .take t op id e asks found (Bool.eq_false_iff.mpr busy)
  | work t outcome =>
    obtain ⟨op, id, base, pc, -⟩ := enabled
    simp only [perform, pc] at returns
    cases returns
    obtain ⟨access, current⟩ := Pc.work_access id base outcome
    exact .quiet t _ s.locked (by rw [access, pc]; rfl) fun p same => by rw [pc, ← same, current]; rfl
  | update t =>
    obtain ⟨⟨id, base, new, pc⟩, -⟩ := enabled
    simp only [perform, pc, updateVfile] at returns
    obtain ⟨e, found, returns⟩ := bind_eq_ok.mp returns
    cases returns
    exact .store t id base new e pc (acquireVfile_ok.mp found)
  | close t closes =>
    obtain ⟨⟨id, base, pc⟩, -⟩ := enabled
    simp only [perform, pc, closeVfile] at returns
    obtain ⟨e, found, returns⟩ := bind_eq_ok.mp returns
    split_ifs at returns
    · cases returns
      exact .discard t id base e pc (acquireVfile_ok.mp found)
    · cases returns
      exact .count t id _ _ (by rw [pc]; rfl) fun p same => by rw [pc]; exact same
  | release t =>
    obtain ⟨⟨id, base, made, pc⟩, -⟩ := enabled
    simp only [perform, pc, releaseFileAccess] at returns
    obtain ⟨e, found, returns⟩ := bind_eq_ok.mp returns
    split_ifs at returns
    cases returns
    exact .give t id base made e pc (acquireVfile_ok.mp found)

theorem step_simulates (simulates : Simulates s a) (step : Step s s') :
    ∃ a', ReflTransGen Tokens.Step a a' ∧ Simulates s' a' := by
  cases step.does with
  | stay => exact ⟨a, .refl, simulates⟩
  | quiet t pc locked access current => exact ⟨a, .refl, { simulates.go access current with }⟩
  | count t id n pc access current =>
    have counted : Simulates (s.modify id fun e => { e with nInsts := n e }) a :=
      simulates.keep (fun _ => rfl) fun _ => ⟨rfl, rfl⟩
    exact ⟨a, .refl, counted.go access current⟩
  | create t fs addr fileLen idle missing => exact simulates.create idle addr fileLen fs missing
  | take t op id e asks found unused => exact simulates.take found asks unused op
  | give t id base made e leaves found => exact simulates.give found leaves
  | discard t id base e closes found => exact simulates.discard found closes
  | store t id base new e pending found => exact simulates.store found pending

omit [DecidableEq T] [DecidableEq F] in
theorem start_simulates : Simulates (start : FileState T F) Tokens.start where
  ids := .nil
  below := nofun
  log := rfl
  used := nofun
  value := fun _ => rfl
  holder := fun _ _ _ => ⟨nofun, nofun⟩
  present := nofun
  free := nofun
  fresh := nofun

theorem run_simulates (run : ReflTransGen Step start s) : ∃ a, Tokens.Serial a ∧ Simulates s a := by
  obtain ⟨a, tokens, simulates⟩ :=
    run.simulate Simulates start_simulates fun _ _ _ simulates step => step_simulates simulates step
  exact ⟨a, Tokens.run_serial tokens, simulates⟩

omit [DecidableEq T] [DecidableEq F] in
theorem file_modify {j : Nat} (found : lookup Record.id s.records j = some e)
    (after : lookup Record.id (s.modify id f).records j = some e') (keeps : ∀ e, (f e).id = e.id)
    (files : ∀ e, (f e).file = e.file) : e'.file = e.file := by
  rw [lookup_modified keeps, found] at after
  cases after
  split
  · exact files e
  · rfl

theorem Simulates.file_changes (simulates : Simulates s a) (step : Step s s')
    (found : lookup Record.id s.records id = some e) (after : lookup Record.id s'.records id = some e')
    (differs : e'.file ≠ e.file) : ∃ t new, s.pc t = .changed id e.file new ∧ e'.file = (e.update new).file := by
  have unchanged (same : lookup Record.id s'.records id = some e) : False := by
    cases same.symm.trans after
    exact differs rfl
  cases step.does with
  | stay => exact (unchanged found).elim
  | quiet t pc locked access pending => exact (unchanged found).elim
  | count t j n pc access pending => exact absurd (file_modify found after (fun _ => rfl) fun _ => rfl) differs
  | create t fs addr fileLen idle missing =>
    refine (unchanged ?_).elim
    rw [searchOrInsertFile, missing]
    show lookup Record.id (s.records ++ [_]) id = some e
    rw [lookup_append, found]
    rfl
  | take t op j _ asks there unused => exact absurd (file_modify found after (fun _ => rfl) fun _ => rfl) differs
  | give t j base made _ leaves there => exact absurd (file_modify found after (fun _ => rfl) fun _ => rfl) differs
  | discard t j base _ closes there =>
    change lookup Record.id (remove Record.id j s.records) id = some e' at after
    rw [lookup_remove simulates.ids, found] at after
    split at after
    · cases after
    · cases after
      exact absurd rfl differs
  | store t j base new old pending there =>
    have keeps : ∀ e : Record F, (e.update new).id = e.id := fun _ => rfl
    change lookup Record.id (s.modify j (.update new)).records id = some e' at after
    rw [lookup_modified keeps, found] at after
    cases after
    dsimp only at differs ⊢
    split at differs
    case isTrue same =>
      have copied : a.value id = some base := simulates.fresh t id base (by rw [pending, same]; rfl)
      rw [simulates.value_found found] at copied
      cases copied
      exact ⟨t, new, same ▸ pending, by rw [if_pos same]⟩
    case isFalse => exact absurd rfl differs

end steps

end simulation

/-- At most one thread holds the access of a file; it works on the copy that the access before it has left, and an update
replaces the file that was copied. -/
theorem file_access_serial [DecidableEq F] {s : FileState T F} (run : Relation.ReflTransGen Step start s) :
    (∀ t t' id base base', (s.pc t).access = some (id, base) -> (s.pc t').access = some (id, base') -> t = t') ∧
      (∀ t id base, (s.pc t).access = some (id, base) ->
        (s.log.filter fun x => x.object = id).getLast?.map Tokens.Access.left = some base) ∧
      (∀ id, (s.log.filter fun x => x.object = id).IsChain fun x y => y.copy = x.left) ∧
      ∀ s' id e e', Step s s' -> lookup Record.id s.records id = some e -> lookup Record.id s'.records id = some e' ->
        e'.file ≠ e.file -> ∃ t new, s.pc t = .changed id e.file new ∧ e'.file = (e.update new).file := by
  obtain ⟨a, serial, simulates⟩ := run_simulates run
  refine ⟨?_, ?_, ?_, ?_⟩
  · intro t t' id base base' held held'
    exact simulates.holder_only held' held
  · intro t id base held
    rw [← simulates.log]
    exact serial.held id t base ((simulates.holder id t base).mpr held)
  · intro id
    rw [← simulates.log]
    exact serial.chain id
  · intro s' id e e' step found after differs
    exact simulates.file_changes step found after differs

def opened : FileState Bool Unit :=
  ((searchOrInsertFile start true () 0 0).modify 1 fun e => { e with nInsts := e.nInsts + 1 }).go true .idle

theorem opened_reached : ReflTransGen Step start opened :=
  (Relation.ReflTransGen.refl.tail ⟨.openFile true () 0 0, ⟨rfl, rfl⟩, rfl⟩).tail ⟨.register true, ⟨⟨1, rfl⟩, rfl⟩, rfl⟩

theorem file_access_serial_writers :
    ∃ s : FileState Bool Unit, Relation.ReflTransGen Step start s ∧ s.pc false = .hold .write 1 ⟨7, (), 100⟩ ∧
      (s.log.filter fun x => x.object = 1).getLast?.map Tokens.Access.left = some ⟨7, (), 100⟩ := by
  have asked := (opened_reached.tail ⟨.request true .write 1, rfl, rfl⟩).tail ⟨.request false .write 1, rfl, rfl⟩
  have waits := (asked.tail ⟨.acquire true, ⟨⟨.write, 1, rfl⟩, rfl⟩, rfl⟩).tail ⟨.acquire false, ⟨⟨.write, 1, rfl⟩, rfl⟩, rfl⟩
  have written := waits.tail ⟨.work true (.written 7 100), ⟨.write, 1, _, rfl, trivial⟩, rfl⟩
  have updated := (written.tail ⟨.update true, ⟨⟨1, _, _, rfl⟩, rfl⟩, rfl⟩).tail ⟨.release true, ⟨⟨1, _, _, rfl⟩, rfl⟩, rfl⟩
  have run := updated.tail ⟨.acquire false, ⟨⟨.write, 1, rfl⟩, rfl⟩, rfl⟩
  obtain ⟨-, copies, -, -⟩ := file_access_serial run
  exact ⟨_, run, rfl, copies false 1 _ rfl⟩

def Present (s : FileState T F) (id : Nat) : Prop := ∃ e, lookup Record.id s.records id = some e

-- The record that `acquire_vfile` looks for is in the table, a close finds the handle counted and `close_instance` passes.
def Finds (s : FileState T F) : Action T F -> Prop
  | .dup _ id _ | .look _ id => Present s id
  | .register t => ∀ id, s.pc t = .register id -> Present s id
  | .acquire t => ∀ op id, s.pc t = .want op id -> Present s id
  | .close t closes =>
    closes = true ∧ ∀ id base e, s.pc t = .hold .close id base -> lookup Record.id s.records id = some e -> e.nInsts ≠ 0
  | .openFile _ _ _ _ | .request _ _ _ | .work _ _ | .update _ | .release _ => True

/--
The interrupt flag when the part of a function that is the step is left, none where it asserts on
the flag at its entry. `_sti` sets the flag, `set_rflags` restores it: in `register_handle_to_vfile`
and at the end of `vfs_handle_dup`, but not where that is refused.
-/
def interruptsAfter (entry : Bool) : Action T F -> Option Bool
  | .request _ _ _ | .work _ _ | .register _ => some entry
  | .dup _ _ allowed => some (if allowed then entry else true)
  | .openFile _ _ _ _ | .look _ _ => some true
  | .acquire _ | .update _ | .close _ _ | .release _ => if entry then some true else none

def RestoresFlags : Action T F -> Prop
  | .request _ _ _ | .work _ _ | .register _ => True
  | .dup _ _ allowed => allowed = true
  | _ => False

omit [DecidableEq T] in
theorem interruptsAfter_iff (entry : Bool) (action : Action T F) :
    interruptsAfter entry action = some entry ↔ entry = true ∨ RestoresFlags action := by
  cases entry <;> cases action <;> simp [interruptsAfter, RestoresFlags]

omit [DecidableEq T] in
theorem acquireVfile_returns {s next : FileState T F} {id : Nat} (unlocked : next.locked = false) :
    (∃ s', (acquireVfile s id >>= fun _ => pure next) = .ok s' ∧ s'.locked = false) ↔ Present s id := by
  rw [acquireVfile, Present]
  cases lookup Record.id s.records id with
  | none =>
    constructor
    · rintro ⟨s', returns, -⟩
      cases returns
    · rintro ⟨e, impossible⟩
      cases impossible
  | some e => exact iff_of_true ⟨next, rfl, unlocked⟩ ⟨e, rfl⟩

theorem acquireFileAccess_unlocked {s : FileState T F} (unlocked : s.locked = false) (t : T)
    (op : Op) (id : Nat) : (acquireFileAccess s t op id).locked = false ↔ Present s id := by
  rw [acquireFileAccess, Present]
  cases lookup Record.id s.records id with
  | none => simp
  | some e =>
    refine iff_of_true ?_ ⟨e, rfl⟩
    show (if e.accessed then s else _).locked = false
    split
    · exact unlocked
    · exact unlocked

theorem perform_unlocked [DecidableEq F] {s : FileState T F} (action : Action T F)
    (run : ReflTransGen Step start s) (unlocked : s.locked = false) (enabled : Enabled s action) :
    (∃ s', perform s action = .ok s' ∧ s'.locked = false) ↔ Finds s action := by
  obtain ⟨a, -, simulates⟩ := run_simulates run
  cases action with
  | openFile t fs addr fileLen =>
    refine iff_of_true ⟨_, rfl, ?_⟩ trivial
    rw [searchOrInsertFile]
    split
    · exact unlocked
    · exact unlocked
  | dup t id allowed =>
    refine acquireVfile_returns ?_
    split
    · exact unlocked
    · exact unlocked
  | look t id => exact acquireVfile_returns unlocked
  | request t op id => exact iff_of_true ⟨_, rfl, unlocked⟩ trivial
  | register t =>
    obtain ⟨⟨id, pc⟩, -⟩ := enabled
    simp only [perform, Finds, pc, Pc.register.injEq, forall_eq']
    exact acquireVfile_returns unlocked
  | acquire t =>
    obtain ⟨⟨op, id, pc⟩, -⟩ := enabled
    simp only [perform, Finds, pc, Pc.want.injEq, and_imp, forall_eq', forall_apply_eq_imp_iff,
      Except.ok.injEq, exists_eq_left']
    exact acquireFileAccess_unlocked unlocked t op id
  | work t outcome =>
    obtain ⟨op, id, base, pc, -⟩ := enabled
    simp only [perform, pc]
    exact iff_of_true ⟨_, rfl, unlocked⟩ trivial
  | update t =>
    obtain ⟨⟨id, base, new, pc⟩, -⟩ := enabled
    simp only [perform, pc, updateVfile]
    have present : Present s id := simulates.present t id base (by rw [pc]; rfl)
    refine iff_of_true ((acquireVfile_returns ?_).mpr present) trivial
    exact unlocked
  | close t closes =>
    obtain ⟨⟨id, base, pc⟩, -⟩ := enabled
    obtain ⟨e, found⟩ := simulates.present t id base (by rw [pc]; rfl)
    have finds : Finds s (.close t closes) ↔ closes = true ∧ e.nInsts ≠ 0 := by
      refine and_congr_right fun _ => ⟨fun finds => finds id base e pc found, ?_⟩
      intro counted id' base' e' pc' found'
      cases pc.symm.trans pc'
      cases found.symm.trans found'
      exact counted
    simp only [perform, pc, finds, closeVfile, acquireVfile_ok.mpr found]
    change (∃ s', (if ¬ closes then _ else if e.nInsts = 0 then _ else _) = _ ∧ _) ↔ _
    by_cases passes : closes = true
    case neg => simp [passes]
    by_cases zero : e.nInsts = 0
    · simp [passes, zero]
    rw [if_neg (not_not.mpr passes), if_neg zero]
    refine iff_of_true ?_ ⟨passes, zero⟩
    split_ifs
    · exact ⟨_, rfl, unlocked⟩
    · exact ⟨_, rfl, unlocked⟩
  | release t =>
    obtain ⟨⟨id, base, made, pc⟩, -⟩ := enabled
    have held : (s.pc t).access = some (id, base) := by rw [pc]; rfl
    obtain ⟨e, found⟩ := simulates.present t id base held
    have accessed : e.accessed = true := by
      by_contra free
      have unheld := simulates.free id e found (Bool.eq_false_iff.mpr free)
      cases unheld.symm.trans ((simulates.holder id t base).mpr held)
    simp only [perform, pc, releaseFileAccess, acquireVfile_ok.mpr found]
    change (∃ s', (if ¬ e.accessed then _ else _) = _ ∧ _) ↔ _
    rw [if_neg (not_not.mpr accessed)]
    exact iff_of_true ⟨_, rfl, unlocked⟩ trivial

end Bincows.Vfs.FileAccess
