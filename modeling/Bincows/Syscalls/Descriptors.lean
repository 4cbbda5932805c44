import Bincows.Fs.HandleTable

set_option autoImplicit false

/-! The descriptor table of a process over the table of all handles. `own` lists the handles that the process has opened. -/

namespace Bincows.Syscalls.Descriptors

open Keyed Function List
open Vfs (FastDirent Str)
open Vfs.OpenTable (OpenFlags)
open Vfs.HandleTable

abbrev maxFds : Nat := 32

def noFd : Nat := 2 ^ 32 - 1

inductive Fault where
  | table (fault : Vfs.HandleTable.Fault)
  | flags
  | pipe
  deriving DecidableEq

inductive Fd where
  | none
  | file (handle : Option Nat)
  | dir (dirBoff : Nat)
  deriving DecidableEq

structure Process (F : Type) where
  table : FileTable F
  curPipe : Nat
  fds : Fin maxFds -> Fd
  own : List Nat

structure ScOpenFlags where
  directory : Bool
  wronly : Bool
  trunc : Bool
  append : Bool
  creat : Bool
  vfs : OpenFlags
  -- below `2 * VFS_TRUNCATABLE`
  small : Bool

structure ScOpenArgs (F : Type) where
  valid : Bool
  pathFits : Bool
  path : Str
  flags : ScOpenFlags
  dirFound : Bool
  found : Option (F × FastDirent)
  answer : Option Int

variable {F : Type}

def lift {A : Type} (x : Except Vfs.HandleTable.Fault A) : Except Fault A := x.mapError .table

def Process.set (p : Process F) (i : Fin maxFds) (fd : Fd) : Process F :=
  { p with fds := update p.fds i fd }

def findAvailableFd (p : Process F) : Option (Fin maxFds) :=
  (finRange maxFds).find? fun i => p.fds i = .none

variable [DecidableEq F]

def scOpen (p : Process F) (a : ScOpenArgs F) : Except Fault (Process F × Option Nat) :=
  if ¬ a.valid then .ok (p, none)
  else if ¬ a.pathFits then .ok (p, none)
  else
    match findAvailableFd p with
    | none => .ok (p, none)
    | some fd =>
      if a.flags.directory then
        if a.flags.wronly ∨ a.flags.trunc ∨ a.flags.append ∨ a.flags.creat then .ok (p, none)
        else if a.dirFound then .ok (p.set fd (.dir 0), some fd)
        else .ok (p, none)
      else if a.found.isSome ∧ ¬ a.flags.small then .error .flags
      else do
        let (table, handle) ← lift (vfsOpenFile p.table a.found a.path a.flags.vfs a.answer)
        match handle with
        | none => return ({ p with table }, none)
        | some h => return ({ p with table, own := p.own ++ [h] }.set fd (.file (some h)), some fd)

def closeHandle (p : Process F) (handle : Option Nat) : Except Fault (Process F) :=
  match handle with
  | none => .error (.table .noHandle)
  | some h => do
    let table ← lift (vfsCloseFile p.table h)
    return { p with table }

def atomicCloseFd (p : Process F) (i : Fin maxFds) : Except Fault (Process F × Option Nat) :=
  match p.fds i with
  | .file handle => do
    let p ← closeHandle (p.set i .none) handle
    return (p, some 0)
  | .dir _ => .ok (p.set i .none, some 0)
  | .none => .ok (p.set i .none, none)

def scClose (p : Process F) (valid : Bool) (fd : Nat) : Except Fault (Process F × Option Nat) :=
  if ¬ valid then .ok (p, none)
  else if bound : fd < maxFds then atomicCloseFd p ⟨fd, bound⟩
  else .ok (p, none)

def closeFd (p : Process F) (i : Fin maxFds) : Except Fault (Process F) :=
  match p.fds i with
  | .file none => .ok p
  | .file (some h) => do
    let p ← closeHandle p (some h)
    return p.set i .none
  | .dir _ => .ok (p.set i .none)
  | .none => .ok p

def dupFd (p : Process F) (source target : Fin maxFds) (answer : Option Int) : Except Fault (Process F) :=
  match p.fds source with
  | .file none => .error (.table .noHandle)
  | .file (some h) => do
    let (table, new) ← lift (vfsHandleDup p.table h answer)
    return { p with table, own := p.own ++ new.toList }.set target (.file new)
  | .dir dirBoff => .ok (p.set target (.dir dirBoff))
  | .none => .ok (p.set target .none)

def scDup (p : Process F) (valid : Bool) (fd fd2 : Nat) (answer : Option Int) : Except Fault (Process F × Option Nat) :=
  if ¬ valid then .ok (p, none)
  else if source : fd < maxFds then
    if p.fds ⟨fd, source⟩ = .none then .ok (p, none)
    else if fd2 ≠ noFd then
      if target : fd2 < maxFds then do
        let p ← closeFd p ⟨fd2, target⟩
        let p ← dupFd p ⟨fd, source⟩ ⟨fd2, target⟩ answer
        return (p, some fd2)
      else .ok (p, none)
    else
      match findAvailableFd p with
      | none => .ok (p, none)
      | some target => do
        let p ← dupFd p ⟨fd, source⟩ target answer
        return (p, some target)
  else .ok (p, none)

variable (pipefs : F)

def pipeOut (id : Nat) : FastDirent :=
  { ino := id, fileSize := 2 ^ 64 - 1, type := .reg, rights := 1 }

def pipeIn (id : Nat) : FastDirent :=
  { ino := id + 2 ^ 63, fileSize := 2 ^ 64 - 1, type := .reg, rights := 2 }

def createPipe (p : Process F) : Except Fault (Process F × Nat × Nat) := do
  let id := p.curPipe + 1
  let (table, out) ← lift (vfsOpenFileFrom p.table pipefs (pipeOut id) ("/pipe/out/".toList ++ (toString id).toList)
    { read := true, write := false, create := false } none)
  let (table, ins) ← lift (vfsOpenFileFrom table pipefs (pipeIn id) ("/pipe/in/".toList ++ (toString id).toList)
    { read := false, write := true, create := false } none)
  match out, ins with
  | some out, some ins => return ({ p with table, curPipe := id, own := p.own ++ [out] ++ [ins] }, out, ins)
  | _, _ => .error .pipe

def closeBoth (p : Process F) (out ins : Nat) : Except Fault (Process F × Option Nat) := do
  let p ← closeHandle p (some ins)
  let p ← closeHandle p (some out)
  return (p, none)

def scPipe (p : Process F) (valid : Bool) : Except Fault (Process F × Option Nat) :=
  if ¬ valid then .ok (p, none)
  else do
    let (p, out, ins) ← createPipe pipefs p
    match findAvailableFd p with
    | none => closeBoth p out ins
    | some fd1 =>
      let p := p.set fd1 (.file (some out))
      match findAvailableFd p with
      | none => closeBoth p out ins
      | some fd2 => return (p.set fd2 (.file (some ins)), some (fd2 * 2 ^ 32 + fd1))

inductive Syscall (F : Type) where
  | openFile (a : ScOpenArgs F)
  | close (valid : Bool) (fd : Nat)
  | dup (valid : Bool) (fd fd2 : Nat) (answer : Option Int)
  | pipe (valid : Bool)

def perform (p : Process F) : Syscall F -> Except Fault (Process F × Option Nat)
  | .openFile a => scOpen p a
  | .close valid fd => scClose p valid fd
  | .dup valid fd fd2 answer => scDup p valid fd fd2 answer
  | .pipe valid => scPipe pipefs p valid

def Fits (p : Process F) : Syscall F -> Prop
  | .dup _ _ _ answer => answer ≠ some 0
  | .pipe valid => valid -> ∀ i, p.fds i = .none -> ∃ j, j ≠ i ∧ p.fds j = .none
  | _ => True

def FittingStep (p p' : Process F) : Prop :=
  ∃ call result, Fits p call ∧ perform pipefs p call = .ok (p', result)

/-- The handles of `extra` are open and not in a slot; all the others that the process has opened are. -/
structure Loose (p : Process F) (extra : List Nat) : Prop where
  consistent : Vfs.HandleTable.Consistent p.table
  live : ∀ i handle, p.fds i = .file handle -> ∃ h ∈ p.table.live, handle = some h
  distinct : ∀ i j handle, p.fds i = .file handle -> p.fds j = .file handle -> i = j
  owned : ∀ h ∈ p.own, h ∈ p.table.live -> h ∈ extra ∨ ∃ i, p.fds i = .file (some h)
  held : ∀ h ∈ extra, h ∈ p.table.live
  once : extra.Nodup
  apart : ∀ h ∈ extra, ∀ i, p.fds i ≠ .file (some h)

section slots

variable {p p' : Process F} {extra extra' : List Nat} {i j : Fin maxFds} {h : Nat}
  {table : FileTable F}

section

omit [DecidableEq F]

theorem set_self (p : Process F) (i : Fin maxFds) (fd : Fd) : (p.set i fd).fds i = fd :=
  update_self ..

theorem set_other (p : Process F) (fd : Fd) (other : j ≠ i) : (p.set i fd).fds j = p.fds j :=
  update_of_ne other ..

theorem set_fds {fd fd' : Fd} :
    (p.set i fd).fds j = fd' ↔ j = i ∧ fd = fd' ∨ j ≠ i ∧ p.fds j = fd' := update_eq

end

theorem Loose.opened (loose : Loose p extra) (opens : Opens p.table table (some h)) :
    Loose { p with table, own := p.own ++ [h] } (extra ++ [h]) := by
  obtain ⟨live, new⟩ := opens.live_some loose.consistent
  have more : ∀ x ∈ p.table.live, x ∈ table.live := fun x member => live ▸ mem_append_left _ member
  have here : h ∈ table.live := live ▸ mem_concat_self
  constructor
  case consistent => exact opens.preserves loose.consistent
  case live =>
    intro i handle slot
    obtain ⟨x, member, same⟩ := loose.live i handle slot
    exact ⟨x, more x member, same⟩
  case distinct => exact loose.distinct
  case owned =>
    intro x mine alive
    by_cases same : x = h
    · exact .inl (by simp [same])
    have old : x ∈ p.own := by simpa [same] using mine
    have before : x ∈ p.table.live := by
      rw [live] at alive
      simpa [same] using alive
    rcases loose.owned x old before with free | slot
    · exact .inl (mem_append_left _ free)
    · exact .inr slot
  case held => exact forall_mem_concat (fun x old => more x (loose.held x old)) here
  case once => exact nodup_append_comm.mpr (nodup_cons.mpr ⟨fun inside => new (loose.held h inside), loose.once⟩)
  case apart =>
    refine forall_mem_concat loose.apart fun j slot => ?_
    obtain ⟨y, alive, same⟩ := loose.live j _ slot
    cases same
    exact new alive

theorem Loose.openEnd (loose : Loose p extra) (fs : F) (dirent : FastDirent) (path : Str) (flags : OpenFlags)
    (regular : dirent.type = .reg) (writes : flags.write -> dirent.rights.testBit 1)
    (reads : flags.read -> dirent.rights.testBit 0) :
    ∃ table h, vfsOpenFileFrom p.table fs dirent path flags none = .ok (table, some h) ∧
      Loose { p with table, own := p.own ++ [h] } (extra ++ [h]) := by
  rw [vfsOpenFileFrom_allowed _ _ _ _ regular writes reads]
  obtain ⟨table, h, returns, opens, given⟩ := createHandler_opens loose.consistent fs dirent path flags.write none
  cases h with
  | none => exact absurd rfl (given rfl)
  | some h => exact ⟨table, h, returns, loose.opened opens⟩

theorem Loose.refused (loose : Loose p extra) (opens : Opens p.table table none) :
    Loose { p with table } extra := by
  have live := opens.live_none
  constructor
  case consistent => exact opens.preserves loose.consistent
  case live => exact live ▸ loose.live
  case distinct => exact loose.distinct
  case owned => exact live ▸ loose.owned
  case held => exact live ▸ loose.held
  case once => exact loose.once
  case apart => exact loose.apart

theorem Loose.perm (loose : Loose p extra) (perm : extra.Perm extra') : Loose p extra' :=
  { loose with
    owned := fun x mine alive => (loose.owned x mine alive).imp_left perm.mem_iff.mp
    held := fun x member => loose.held x (perm.mem_iff.mpr member)
    once := perm.nodup_iff.mp loose.once
    apart := fun x member => loose.apart x (perm.mem_iff.mpr member) }

theorem Loose.place (loose : Loose p (h :: extra)) (free : p.fds i = .none) : Loose (p.set i (.file (some h))) extra := by
  obtain ⟨new, once⟩ := nodup_cons.mp loose.once
  constructor
  case consistent => exact loose.consistent
  case live =>
    intro j handle slot
    rcases set_fds.mp slot with ⟨-, ⟨⟩⟩ | ⟨-, old⟩
    · exact ⟨h, loose.held h mem_cons_self, rfl⟩
    · exact loose.live j handle old
  case distinct =>
    intro j k handle first second
    rcases set_fds.mp first with ⟨rfl, ⟨⟩⟩ | ⟨-, old⟩ <;> rcases set_fds.mp second with ⟨rfl, ⟨⟩⟩ | ⟨-, old'⟩
    · rfl
    · exact absurd old' (loose.apart h mem_cons_self k)
    · exact absurd old (loose.apart h mem_cons_self j)
    · exact loose.distinct j k handle old old'
  case owned =>
    intro x mine alive
    by_cases same : x = h
    · exact .inr ⟨i, by rw [same, set_self]⟩
    rcases loose.owned x mine alive with member | ⟨j, slot⟩
    · exact .inl (by simpa [same] using member)
    · refine .inr ⟨j, set_fds.mpr (.inr ⟨?_, slot⟩)⟩
      rintro rfl
      cases free.symm.trans slot
  case held => exact fun x member => loose.held x (mem_cons_of_mem _ member)
  case once => exact once
  case apart =>
    intro x member j slot
    rcases set_fds.mp slot with ⟨-, ⟨⟩⟩ | ⟨-, old⟩
    · exact new member
    · exact loose.apart x (mem_cons_of_mem _ member) j old

theorem Loose.set (loose : Loose p extra) {fd : Fd} (before : ∀ handle, p.fds i ≠ .file handle)
    (after : ∀ handle, fd ≠ .file handle) : Loose (p.set i fd) extra := by
  have same : ∀ j handle, (p.set i fd).fds j = .file handle ↔ p.fds j = .file handle := by
    intro j handle
    rw [set_fds]
    by_cases here : j = i
    · simp [here, before handle, after handle]
    · simp [here]
  refine { loose with live := ?_, distinct := ?_, owned := ?_, apart := ?_ }
  · exact fun j handle slot => loose.live j handle ((same j handle).mp slot)
  · exact fun j k handle first second => loose.distinct j k handle ((same j handle).mp first) ((same k handle).mp second)
  · intro x mine alive
    rcases loose.owned x mine alive with member | ⟨j, slot⟩
    · exact .inl member
    · exact .inr ⟨j, (same j _).mpr slot⟩
  · exact fun x member j slot => loose.apart x member j ((same j _).mp slot)

theorem Loose.take (loose : Loose p extra) (slot : p.fds i = .file (some h)) : Loose (p.set i .none) (h :: extra) := by
  have fewer : ∀ j handle, (p.set i .none).fds j = .file handle -> j ≠ i ∧ p.fds j = .file handle := by
    rintro j handle there
    rcases set_fds.mp there with ⟨-, ⟨⟩⟩ | old
    exact old
  have alive : h ∈ p.table.live := by
    obtain ⟨x, member, same⟩ := loose.live i _ slot
    cases same
    exact member
  constructor
  case consistent => exact loose.consistent
  case live => exact fun j handle there => loose.live j handle (fewer j handle there).2
  case distinct =>
    exact fun j k handle first second => loose.distinct j k handle (fewer j handle first).2 (fewer k handle second).2
  case owned =>
    intro x mine here
    rcases loose.owned x mine here with member | ⟨j, there⟩
    · exact .inl (mem_cons_of_mem _ member)
    by_cases same : j = i
    · subst same
      cases slot.symm.trans there
      exact .inl mem_cons_self
    · exact .inr ⟨j, set_fds.mpr (.inr ⟨same, there⟩)⟩
  case held => exact forall_mem_cons.mpr ⟨alive, loose.held⟩
  case once => exact nodup_cons.mpr ⟨fun member => loose.apart h member i slot, loose.once⟩
  case apart =>
    intro x member j there
    obtain ⟨other, old⟩ := fewer j _ there
    rcases mem_cons.mp member with rfl | inside
    · exact other (loose.distinct j i _ old slot)
    · exact loose.apart x inside j old

theorem Loose.close (loose : Loose p (h :: extra)) :
    ∃ table, vfsCloseFile p.table h = .ok table ∧ Loose { p with table } extra := by
  obtain ⟨new, once⟩ := nodup_cons.mp loose.once
  obtain ⟨table, returns, consistent, live⟩ := vfsCloseFile_live loose.consistent (loose.held h mem_cons_self)
  refine ⟨table, returns, ?_⟩
  constructor
  case consistent => exact consistent
  case live =>
    intro j handle slot
    obtain ⟨x, member, rfl⟩ := loose.live j handle slot
    refine ⟨x, (live x).mpr ⟨member, ?_⟩, rfl⟩
    rintro rfl
    exact loose.apart x mem_cons_self j slot
  case distinct => exact loose.distinct
  case owned =>
    intro x mine alive
    obtain ⟨before, other⟩ := (live x).mp alive
    rcases loose.owned x mine before with member | slot
    · exact .inl (by simpa [other] using member)
    · exact .inr slot
  case held =>
    intro x member
    refine (live x).mpr ⟨loose.held x (mem_cons_of_mem _ member), ?_⟩
    rintro rfl
    exact new member
  case once => exact once
  case apart => exact fun x member => loose.apart x (mem_cons_of_mem _ member)

end slots

def Kept (p : Process F) (r : Process F × Option Nat) : Prop :=
  Loose r.1 [] ∧ (r.2 = none -> r.1.fds = p.fds)

section calls

variable {p : Process F} {i : Fin maxFds} {h : Nat} {table : FileTable F} {answer : Option Int}

omit [DecidableEq F] in
theorem findAvailableFd_free (found : findAvailableFd p = some i) : p.fds i = .none := by
  simpa using find?_some found

omit [DecidableEq F] in
theorem findAvailableFd_none (full : findAvailableFd p = none) (i : Fin maxFds) : p.fds i ≠ .none := by
  simpa using find?_eq_none.mp full i (mem_finRange i)

theorem closeHandle_eq (returns : vfsCloseFile p.table h = .ok table) : closeHandle p (some h) = .ok { p with table } := by
  rw [closeHandle, returns]
  rfl

section

variable (loose : Loose p [])
include loose

theorem scOpen_kept (a : ScOpenArgs F) : (scOpen p a).Ensures (· = .flags) (Kept p) := by
  have unchanged : (Except.ok (p, none) : Except Fault _).Ensures (· = .flags) (Kept p) := .ok ⟨loose, fun _ => rfl⟩
  rw [scOpen]
  split
  · exact unchanged
  split
  · exact unchanged
  split
  · exact unchanged
  rename_i fd found
  have free := findAvailableFd_free found
  split_ifs
  · exact unchanged
  · refine .ok ⟨loose.set (fun handle slot => ?_) nofun, nofun⟩
    cases free.symm.trans slot
  · exact unchanged
  · exact .error rfl
  · obtain ⟨table, handle, returns, opens⟩ :=
      vfsOpenFile_opens loose.consistent a.found a.path a.flags.vfs a.answer
    rw [returns]
    cases handle with
    | none => exact .ok ⟨loose.refused opens, fun _ => rfl⟩
    | some h => exact .ok ⟨(loose.opened opens).place free, nofun⟩

theorem atomicCloseFd_kept (i : Fin maxFds) : (atomicCloseFd p i).Returns (Kept p) := by
  rw [atomicCloseFd]
  split
  · rename_i handle slot
    obtain ⟨h, -, rfl⟩ := loose.live i handle slot
    obtain ⟨table, returns, closed⟩ := (loose.take slot).close
    rw [closeHandle_eq returns]
    exact .ok ⟨closed, nofun⟩
  · rename_i slot
    exact .ok ⟨loose.set (fun handle there => by cases slot.symm.trans there) nofun, nofun⟩
  · rename_i slot
    refine .ok ⟨loose.set (fun handle there => by cases slot.symm.trans there) nofun, fun _ => ?_⟩
    exact update_eq_self_iff.mpr slot.symm

theorem scClose_kept (valid : Bool) (fd : Nat) : (scClose p valid fd).Returns (Kept p) := by
  rw [scClose]
  split
  · exact .ok ⟨loose, fun _ => rfl⟩
  · split
    · exact atomicCloseFd_kept loose _
    · exact .ok ⟨loose, fun _ => rfl⟩

theorem closeFd_kept (i : Fin maxFds) : (closeFd p i).Returns fun p' => Loose p' [] ∧ p'.fds i = .none := by
  rw [closeFd]
  split
  · rename_i slot
    obtain ⟨h, -, impossible⟩ := loose.live i none slot
    cases impossible
  · rename_i h slot
    obtain ⟨table, returns, closed⟩ := (loose.take slot).close
    have returns : vfsCloseFile p.table h = .ok table := returns
    rw [closeHandle_eq returns]
    exact .ok ⟨closed, set_self _ i .none⟩
  · rename_i slot
    exact .ok ⟨loose.set (fun handle there => by cases slot.symm.trans there) nofun, set_self _ i .none⟩
  · rename_i slot
    exact .ok ⟨loose, slot⟩

theorem dupFd_kept (source : Fin maxFds) {target : Fin maxFds} (free : p.fds target = .none)
    (allowed : answer ≠ some 0) :
    (dupFd p source target answer).Returns fun p' => Loose p' [] := by
  have empty : ∀ handle, p.fds target ≠ .file handle := fun handle slot => by cases free.symm.trans slot
  rw [dupFd]
  split
  · rename_i slot
    obtain ⟨h, -, impossible⟩ := loose.live source none slot
    cases impossible
  · rename_i h slot
    obtain ⟨x, member, same⟩ := loose.live source _ slot
    cases same
    obtain ⟨handle, there, rfl⟩ := mem_map.mp member
    have live := lookup_of_mem loose.consistent.handleIds there
    obtain ⟨table, new, returns, opens, given⟩ := vfsHandleDup_opens loose.consistent live answer
    rw [returns]
    cases new with
    | none => exact absurd rfl (given allowed)
    | some h => exact .ok ((loose.opened opens).place free)
  · exact .ok (loose.set empty nofun)
  · exact .ok (loose.set empty nofun)

theorem scDup_kept (valid : Bool) (fd fd2 : Nat) (allowed : answer ≠ some 0) :
    (scDup p valid fd fd2 answer).Returns (Kept p) := by
  have unchanged : (Except.ok (p, none) : Except Fault _).Returns (Kept p) := .ok ⟨loose, fun _ => rfl⟩
  rw [scDup]
  split
  · exact unchanged
  split_ifs with source _ _ target
  · exact unchanged
  · refine (closeFd_kept loose ⟨fd2, target⟩).bind fun closed kept => ?_
    refine (dupFd_kept kept.1 ⟨fd, source⟩ kept.2 allowed).bind fun dupped kept => ?_
    exact .ok ⟨kept, nofun⟩
  · exact unchanged
  · split
    · exact unchanged
    · rename_i target found
      refine (dupFd_kept loose ⟨fd, source⟩ (findAvailableFd_free found) allowed).bind fun dupped kept => ?_
      exact .ok ⟨kept, nofun⟩
  · exact unchanged

theorem createPipe_ok : ∃ p' out ins, createPipe pipefs p = .ok (p', out, ins) ∧ Loose p' [out, ins] ∧ p'.fds = p.fds := by
  obtain ⟨table, out, outEnd, first⟩ := loose.openEnd pipefs (pipeOut (p.curPipe + 1))
    ("/pipe/out/".toList ++ (toString (p.curPipe + 1)).toList) ⟨true, false, false⟩ rfl (by simp) (by simp [pipeOut])
  obtain ⟨table', ins, inEnd, both⟩ := first.openEnd pipefs (pipeIn (p.curPipe + 1))
    ("/pipe/in/".toList ++ (toString (p.curPipe + 1)).toList) ⟨false, true,
      false⟩ rfl (by simp [pipeIn, Nat.testBit]) (by simp)
  refine ⟨{ p with table := table', curPipe := p.curPipe + 1, own := p.own ++ [out] ++ [ins] }, out,
    ins, ?_, { both with }, rfl⟩
  simp only [createPipe, lift, outEnd, inEnd, Except.mapError, bind, Except.bind]
  rfl

end

theorem closeBoth_kept {out ins : Nat} (loose : Loose p [out, ins]) :
    (closeBoth p out ins).Returns fun r => Loose r.1 [] ∧ r.1.fds = p.fds := by
  obtain ⟨table, returns, one⟩ := (loose.perm (.swap ins out [])).close
  obtain ⟨table', returns', closed⟩ := one.close
  rw [closeBoth, closeHandle_eq returns]
  show (closeHandle { p with table } (some out) >>= _).Ensures _ _
  rw [closeHandle_eq returns']
  exact .ok ⟨closed, rfl⟩

theorem scPipe_kept (loose : Loose p []) (valid : Bool)
    (room : valid -> ∀ i, p.fds i = .none -> ∃ j, j ≠ i ∧ p.fds j = .none) :
    (scPipe pipefs p valid).Returns (Kept p) := by
  rw [scPipe]
  split
  · exact .ok ⟨loose, fun _ => rfl⟩
  rename_i accepted
  obtain ⟨p', out, ins, returns, both, same⟩ := createPipe_ok pipefs loose
  rw [returns]
  simp only [bind, Except.bind]
  cases found : findAvailableFd p' with
  | none => exact (closeBoth_kept both).mono nofun fun r kept => ⟨kept.1, fun _ => kept.2.trans same⟩
  | some fd1 =>
    have free := findAvailableFd_free found
    have placed := both.place free
    cases second : findAvailableFd (p'.set fd1 (.file (some out))) with
    | none =>
      obtain ⟨j, other, free'⟩ := room (by simpa using accepted) fd1 (same ▸ free)
      refine absurd ?_ (findAvailableFd_none second j)
      rw [set_other p' _ other, same]
      exact free'
    | some fd2 =>
      simp only [second]
      exact .ok ⟨placed.place (findAvailableFd_free second), nofun⟩

theorem perform_kept (loose : Loose p []) (call : Syscall F) (fits : Fits p call) :
    (perform pipefs p call).Ensures (· = .flags) (Kept p) := by
  cases call with
  | openFile a => exact scOpen_kept loose a
  | close valid fd => exact (scClose_kept loose valid fd).mono nofun fun _ kept => kept
  | dup valid fd fd2 answer => exact (scDup_kept loose valid fd fd2 fits).mono nofun fun _ kept => kept
  | pipe valid => exact (scPipe_kept pipefs loose valid fits).mono nofun fun _ kept => kept

end calls

/-- In every run of calls that fit, from any table that is in order: each file slot has an open handle, no two have the same
one, each open handle of the process is in a slot, and a call that fails leaves the slots as they were. -/
theorem descriptors_own_handles {p p' : Process F} (loose : Loose p [])
    (run : Relation.ReflTransGen (FittingStep pipefs) p p') :
    (∀ i handle, p'.fds i = .file handle -> ∃ h ∈ p'.table.live, handle = some h) ∧
      (∀ i j handle, p'.fds i = .file handle -> p'.fds j = .file handle -> i = j) ∧
      (∀ h ∈ p'.own, h ∈ p'.table.live -> ∃ i, p'.fds i = .file (some h)) ∧
      ∀ call next, Fits p' call -> perform pipefs p' call = .ok (next, none) -> next.fds = p'.fds := by
  have kept := run.invariant (fun p => Loose p []) loose fun _ _ loose step => by
    obtain ⟨call, result, fits, returns⟩ := step
    exact ((perform_kept pipefs loose call fits).of_ok returns).1
  refine ⟨kept.live, kept.distinct, ?_, ?_⟩
  · intro h mine alive
    exact (kept.owned h mine alive).resolve_left nofun
  · intro call next fits returns
    exact ((perform_kept pipefs kept call fits).of_ok returns).2 rfl

def emptyProcess : Process F :=
  { table := Vfs.HandleTable.vfsFilesInit, curPipe := 0, fds := fun _ => .none, own := [] }

theorem emptyProcess_loose : Loose (emptyProcess : Process F) [] where
  consistent := init_consistent
  live := fun _ _ slot => by cases slot
  distinct := fun _ _ _ slot => by cases slot
  owned := nofun
  held := nofun
  once := .nil
  apart := nofun

def sampleFile : Syscall Unit :=
  .openFile
    { valid := true, pathFits := true, path := [], dirFound := false, answer := none
      flags :=
        { directory := false, wronly := false, trunc := false, append := false, creat := false, small := true
          vfs := { read := true, write := false, create := false } }
      found := some ((), { ino := 5, fileSize := 0, type := .reg, rights := 31 }) }

instance (p : Process F) (call : Syscall F) : Decidable (Fits p call) :=
  match call with
  | .openFile _ | .close _ _ => .isTrue trivial
  | .dup _ _ _ answer => inferInstanceAs (Decidable (answer ≠ some 0))
  | .pipe _ => inferInstanceAs (Decidable (_ -> ∀ i, p.fds i = .none -> ∃ j, j ≠ i ∧ p.fds j = .none))

set_option maxRecDepth 8000 in
theorem descriptors_own_handles_pipe :
    ∃ p : Process Unit, Relation.ReflTransGen (FittingStep ()) emptyProcess p ∧
      p.fds 0 = .file (some 4) ∧ 4 ∈ p.table.live := by
  have run : ReflTransGen (FittingStep ()) _ _ := .of_guarded Fits (fun p call => (perform () p call).map Prod.fst)
    .flags emptyProcess [sampleFile, .dup true 0 noFd none, .pipe true, .dup true 2 0 none] (by
      intro p call p' fits returns
      obtain ⟨r, result, rfl⟩ := Except.map_eq_ok returns
      exact ⟨call, r.2, fits, result⟩) rfl
  obtain ⟨slots, -, -, -⟩ := descriptors_own_handles () emptyProcess_loose run
  obtain ⟨h, live, same⟩ := slots 0 (some 4) rfl
  cases same
  exact ⟨_, run, rfl, live⟩

def sampleFull : Process Unit :=
  { (emptyProcess : Process Unit) with fds := fun i => if i.val = 31 then .none else .dir 0 }

set_option maxRecDepth 8000 in
theorem pipe_leaves_closed_handle :
    Loose sampleFull [] ∧
      (∃ p, perform () sampleFull (.pipe true) = .ok (p, none) ∧ p.fds 31 = .file (some 0) ∧ 0 ∉ p.table.live) ∧
      ∃ p p', perform () emptyProcess sampleFile = .ok (p, some 0) ∧
        perform () p (.dup true 0 noFd (some 0)) = .ok (p', some 1) ∧ p'.fds 1 = .file none := by
  refine ⟨?_, ⟨_, rfl, rfl, by decide⟩, _, _, rfl, rfl, rfl⟩
  have none : ∀ i handle, sampleFull.fds i ≠ .file handle := by
    intro i handle slot
    change (if i.val = 31 then Fd.none else .dir 0) = .file handle at slot
    split at slot <;> cases slot
  exact
    { emptyProcess_loose with
      live := fun i handle slot => absurd slot (none i handle)
      distinct := fun i _ handle slot => absurd slot (none i handle)
      apart := nofun
      owned := nofun }

end Bincows.Syscalls.Descriptors
