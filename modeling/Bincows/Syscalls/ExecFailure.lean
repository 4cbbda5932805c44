import Bincows.Syscalls.Exec

set_option autoImplicit false

namespace Bincows.Exec

open List
open Paging (presentEntry extractPointer pml4Offset)
open Sched
open Vfs (FastDirent)
open Vfs.HandleTable
open Syscalls.Descriptors (Fd maxFds)

variable {F : Type}

def Space.user (s : Space) (view : Option MemMap) : Space :=
  { s with pml4 := userSlots s.pml4 view }

def UserPage (page : Nat) : Prop :=
  slot page = pml4Offset privateBase ∨ slot page = pml4Offset sharedBase

variable {page : Nat}

theorem user_view_other (s : Space) (view : Option MemMap) (other : ¬ UserPage page) :
    (s.user view).view page = s.view page := by
  have kept : (s.user view).pml4 (slot page) = s.pml4 (slot page) :=
    userSlots_other s.pml4 view (fun here => other (.inl here)) fun here => other (.inr here)
  unfold Space.view
  rw [kept]
  rfl

theorem present_private (map : MemMap) : presentEntry (privateSlot (some map)) = true := by
  rw [privateSlot, Paging.presentEntry_or]
  simp [show presentEntry privateFlags = true by decide]

theorem present_shared (map : MemMap) : presentEntry (sharedSlot (some map)) = true := by
  rw [sharedSlot, Paging.presentEntry_or]
  simp [show presentEntry sharedFlags = true by decide]

variable {s : Space}

variable {map : MemMap}

theorem dir_user (spare : Nat -> BitVec 64) (valid : map.Valid) (shows : Shows s.pml4 (some map)) :
    s.dir spare (pml4Offset privateBase) = map.privatePd ∧ s.dir spare (pml4Offset sharedBase) = map.sharedPd := by
  obtain ⟨isPrivate, isShared⟩ := masterPd_some valid shows
  unfold Space.dir
  rw [if_pos (by rw [shows.1]; exact present_private map), if_pos (by rw [shows.2]; exact present_shared map)]
  exact ⟨isPrivate, isShared⟩

variable {spare : Nat -> BitVec 64}

variable {pages : List Nat}

theorem Mapped.shows {s' : Space}
    (mapped : Mapped spare s s' pages) (shows : Shows s.pml4 (some map)) : Shows s'.pml4 (some map) := by
  constructor
  · rw [mapped.kept _ (by rw [shows.1]; exact present_private map)]
    exact shows.1
  · rw [mapped.kept _ (by rw [shows.2]; exact present_shared map)]
    exact shows.2

variable [DecidableEq F]

structure Call (F : Type) [DecidableEq F] where
  kernel : Kernel F
  proc : Process
  memory : ByteMemory
  args : ScExecArgs
  outside : Outside F
  caller : schedGetProcess kernel proc.pid = some proc
  consistent : Consistent kernel.table
  handles : ∀ i h, proc.fds i = .file (some h) -> h ∈ kernel.table.live
  valid : proc.memMap.Valid
  mapped : Shows kernel.space.pml4 (some proc.memMap)
  newValid : outside.newMap.Valid
  sound : Sound outside.spare (kernel.space.user (some outside.newMap))
  unused : ∀ i < 512, (kernel.space.user (some outside.newMap)).dir outside.spare i ≠ proc.memMap.privatePd ∧
    (kernel.space.user (some outside.newMap)).dir outside.spare i ≠ proc.memMap.sharedPd
  empty : ∀ page, kernel.space.pages outside.newMap.privatePd page = false ∧
    kernel.space.pages outside.newMap.sharedPd page = false

structure Same (k k' : Kernel F) : Prop where
  processes : k'.processes = k.processes
  space : ∀ page, k'.space.view page = k.space.view page
  handles : ∀ h, h ∈ k'.table.live ↔ h ∈ k.table.live

variable (c : Call F)

def Call.loading : Space := c.kernel.space.user (some c.outside.newMap)

def Call.path : Vfs.Str := executable c.proc c.memory c.args

structure Call.Begins : Prop where
  sized : c.args.sized = true
  args : checkList c.proc c.memory c.args.args c.args.argsSz = true
  env : checkList c.proc c.memory c.args.env c.args.envSz = true
  opened : ∃ fs dirent, c.outside.found c.path = some (fs, dirent) ∧ dirent.type = .reg ∧
    dirent.rights.testBit 0 = true ∧ c.outside.openAnswer.getD 0 = 0
  read : c.outside.elfData.length = c.outside.fileSize
  new : c.args.newProcess = true

def Call.Strays : Prop :=
  c.Begins ∧ ∃ ps, Accepts c.outside.elfData c.loading ps false ∧ ∃ page ∈ imagePages ps, ¬ UserPage page

def stackPages : List Nat := pageRange (stackBase / 4096) (stackSize / 4096)

def Call.Inherits : Prop :=
  ∀ i : Fin maxFds, c.args.fdMask.getLsbD i = false -> ∀ handle, c.proc.fds i = .file handle ->
    handle ≠ none ∧ c.outside.dupAnswer i ≠ some 0

def Call.frame : Nat := userFrameBegin stackTop c.args.argsSz.toNat c.args.envSz.toNat

def Call.TooLong : Prop :=
  c.Begins ∧ c.Inherits ∧ ∃ ps, Accepts c.outside.elfData c.loading ps true ∧
    (ps.map Phdr.pageCount).sum + stackSize / 4096 ≤ c.kernel.space.memory ∧
    Free c.loading (imagePages ps ++ stackPages) ∧
    entryRsp stackTop c.args.argsSz.toNat c.args.envSz.toNat ≤ stackBase ∧
    -- the word in front of the arguments is written all the same
    c.frame / 4096 % 2 ^ 36 ∈ (imagePages ps ++ stackPages).map (· % 2 ^ 36)

theorem Call.loading_shows : Shows c.loading.pml4 (some c.outside.newMap) := userSlots_shows _ _

theorem Call.apart : c.outside.newMap.Apart c.proc.memMap := by
  obtain ⟨isPrivate, isShared⟩ := dir_user c.outside.spare c.newValid c.loading_shows
  constructor
  · rw [← isPrivate]
    exact (c.unused _ (by decide)).1
  · rw [← isShared]
    exact (c.unused _ (by decide)).2

theorem Call.own_dirs (d : BitVec 64) (own : d = c.proc.memMap.privatePd ∨ d = c.proc.memMap.sharedPd) :
    ∀ i < 512, d ≠ c.loading.dir c.outside.spare i := by
  intro i small same
  rcases own with rfl | rfl
  · exact (c.unused i small).1 same.symm
  · exact (c.unused i small).2 same.symm

def Call.restored (s : Space) : Space :=
  (freeProcessMemory s c.outside.newMap).user (some c.proc.memMap)

theorem Call.new_dirs : c.loading.dir c.outside.spare (pml4Offset privateBase) = c.outside.newMap.privatePd ∧
    c.loading.dir c.outside.spare (pml4Offset sharedBase) = c.outside.newMap.sharedPd :=
  dir_user c.outside.spare c.newValid c.loading_shows

theorem freed_pages (s : Space) {d : BitVec 64} (notPrivate : d ≠ map.privatePd)
    (notShared : d ≠ map.sharedPd) : (freeProcessMemory s map).pages d = s.pages d := by
  funext page
  exact if_neg (not_or.mpr ⟨notPrivate, notShared⟩)

section

variable {pages : List Nat} (mapped : Mapped c.outside.spare c.loading s pages)
include mapped

theorem Call.restored_user (user : UserPage page) : (c.restored s).view page = c.kernel.space.view page := by
  have shows : Shows (c.restored s).pml4 (some c.proc.memMap) := userSlots_shows _ _
  obtain ⟨isPrivate, isShared⟩ := masterPd_some c.valid c.mapped
  -- The directories of the caller are neither freed nor filled.
  have own (d : BitVec 64) (mine : d = c.proc.memMap.privatePd ∨ d = c.proc.memMap.sharedPd) :
      (c.restored s).pages d = c.kernel.space.pages d := by
    have apart := c.own_dirs d mine
    refine (freed_pages s ?_ ?_).trans (mapped.others d apart)
    · rw [← c.new_dirs.1]
      exact apart _ (by decide)
    · rw [← c.new_dirs.2]
      exact apart _ (by decide)
  have entry : (c.restored s).pml4 (slot page) = c.kernel.space.pml4 (slot page) ∧
      (extractPointer (c.kernel.space.pml4 (slot page)) = c.proc.memMap.privatePd ∨
        extractPointer (c.kernel.space.pml4 (slot page)) = c.proc.memMap.sharedPd) := by
    rcases user with here | here
    · rw [here]
      exact ⟨shows.1.trans c.mapped.1.symm, .inl isPrivate⟩
    · rw [here]
      exact ⟨shows.2.trans c.mapped.2.symm, .inr isShared⟩
  simp only [Space.view, entry.1, own _ entry.2]

theorem Call.restored_other (other : ¬ UserPage page) : (c.restored s).view page = s.view page := by
  rw [Call.restored, user_view_other _ _ other]
  simp only [Space.view, show (freeProcessMemory s c.outside.newMap).pml4 = s.pml4 from rfl]
  cases present : presentEntry (s.pml4 (slot page)) with
  | false => rfl
  | true =>
    have dir : extractPointer (s.pml4 (slot page)) = c.loading.dir c.outside.spare (slot page) := by
      rw [← mapped.dirs, Space.dir, if_pos present]
    have kept : (freeProcessMemory s c.outside.newMap).pages (extractPointer (s.pml4 (slot page))) =
        s.pages (extractPointer (s.pml4 (slot page))) := by
      refine freed_pages s ?_ ?_
      · rw [dir, ← c.new_dirs.1]
        exact fun same => other (.inl (c.sound.distinct _ (slot_lt page) _ (by decide) same))
      · rw [dir, ← c.new_dirs.2]
        exact fun same => other (.inr (c.sound.distinct _ (slot_lt page) _ (by decide) same))
    rw [kept]

theorem Call.restored_iff (free : Free c.loading pages) :
    (∀ page, (c.restored s).view page = c.kernel.space.view page) ↔ ∀ page ∈ pages, UserPage page := by
  constructor
  · intro same page member
    by_contra other
    have after := mapped.view_of_mem member
    have before := free.unmapped page member
    rw [← c.restored_other mapped other, same] at after
    rw [Call.loading, user_view_other _ _ other, after] at before
    cases before
  · intro inside page
    by_cases user : UserPage page
    · exact c.restored_user mapped user
    rw [c.restored_other mapped user, mapped.view, if_neg, Call.loading, user_view_other _ _ user]
    intro member
    obtain ⟨q, there, same⟩ := mem_map.mp member
    have place : slot page = slot q := (same_place.mpr same.symm).1
    have := inside q there
    unfold UserPage at this user
    rw [place] at user
    exact user this

end

variable {A : Type}

theorem ok_bind {B : Type} (a : A) (f : A -> Except Fault B) : (Except.ok a >>= f) = f a := rfl

variable {a : A}

theorem liftMapping_ok {x : Except Sched.Fault A} (result : x = .ok a) : liftMapping x = .ok a := by
  rw [result]
  rfl

def Call.unmapped (table : FileTable F) : Kernel F :=
  { c.kernel with table, space := c.kernel.space.user none }

def Call.load (table : FileTable F) : Except Fault (Kernel F × Option (BitVec 32)) :=
  execFile { c.kernel with table } c.proc c.args c.outside

theorem Call.execFile_eq (begins : c.Begins) (table : FileTable F) :
    c.load table =
      schedCreateProcess (c.unmapped table) c.proc.pid c.outside c.args.fdMask >>= fun r =>
        withCreated r.1 c.proc c.args r.2 := by
  rw [Call.load, execFile, if_neg (not_not.mpr begins.read), if_neg (by simp [begins.new]),
    liftMapping_ok (processUnmap_eq c.valid c.mapped)]
  rfl

theorem Call.schedCreateProcess_eq (table : FileTable F) :
    schedCreateProcess (c.unmapped table) c.proc.pid c.outside c.args.fdMask =
      createProcess (c.unmapped table) c.proc c.outside c.args.fdMask >>= fun r => .ok (addProcess r.1 r.2) := by
  have found : schedGetProcess (c.unmapped table) c.proc.pid = some c.proc := c.caller
  rw [schedCreateProcess, found]
  rfl

theorem Call.createProcess_eq (table : FileTable F) :
    createProcess (c.unmapped table) c.proc c.outside c.args.fdMask =
      elfLoad c.outside.spare c.outside.elfData c.loading >>= fun r =>
        withProgram (c.unmapped table) c.proc c.outside c.args.fdMask r.1 r.2 := by
  have shows : Shows (c.unmapped table).space.pml4 none := userSlots_shows _ _
  have nothing : ∀ other ∈ (none : Option MemMap), other.Valid ∧ other.Apart c.outside.newMap := by simp
  have free := isProcessMapped_any (fun o m => (nothing o m).1) shows
  have placed : userMap (c.unmapped table).space.pml4 c.outside.newMap = .ok c.loading.pml4 := by
    have result := processMap_eq c.newValid shows (fun o m => (nothing o m).1) fun o m => (nothing o m).2
    rw [Sched.processMap, Call.unmapped, Space.user, userSlots_userSlots] at result
    exact result
  rw [createProcess, liftMapping_ok free, liftMapping_ok placed]
  rfl

variable {table : FileTable F}

theorem Call.execFile_refused (begins : c.Begins) (mapped : Mapped c.outside.spare c.loading s pages)
    (loaded : elfLoad c.outside.spare c.outside.elfData c.loading = .ok (s, none)) :
    c.load table = .ok ({ c.kernel with table, space := c.restored s }, none) := by
  have shows : Shows (freeProcessMemory s c.outside.newMap).pml4 (some c.outside.newMap) := mapped.shows c.loading_shows
  have again := processMap_eq c.valid shows (fun o m => Option.some.inj m ▸ c.newValid) fun o m => Option.some.inj m ▸ c.apart
  rw [c.execFile_eq begins, c.schedCreateProcess_eq, c.createProcess_eq, loaded]
  show (liftMapping (Sched.processMap (freeProcessMemory s c.outside.newMap).pml4 c.proc.memMap) >>= _) = _
  rw [liftMapping_ok again]
  rfl

omit [DecidableEq F] in
theorem liftTable_ok {x : Except Vfs.HandleTable.Fault A} (result : x = .ok a) : liftTable x = .ok a := by
  rw [result]
  rfl

variable {table' : FileTable F}

theorem vfsHandleDup_refused {source : Nat} {new : Option Nat}
    (returns : vfsHandleDup table source (some 0) = .ok (table', new)) : new = none := by
  obtain ⟨h, -, returns⟩ := bind_eq_ok.mp returns
  obtain ⟨_, -, returns⟩ := bind_eq_ok.mp returns
  cases returns
  rfl

theorem dupFd_exactly (consistent : Consistent table) {fd : Fd} (answer : Option Int)
    (live : ∀ h, fd = .file (some h) -> h ∈ table.live) :
    (dupFd table fd answer).Exactly (∀ handle, fd = .file handle -> handle ≠ none ∧ answer ≠ some 0) fun r =>
      Consistent r.1 ∧ ∀ h ∈ table.live, h ∈ r.1.live := by
  match fd with
  | .none => exact .ok nofun ⟨consistent, fun _ member => member⟩
  | .dir _ => exact .ok nofun ⟨consistent, fun _ member => member⟩
  | .file none => exact .error fun all => (all none rfl).1 rfl
  | .file (some h) =>
    obtain ⟨entry, there, rfl⟩ := mem_map.mp (live h rfl)
    have found := Keyed.lookup_of_mem consistent.handleIds there
    obtain ⟨table', new, returns, opens, allowed⟩ := vfsHandleDup_opens consistent found answer
    rw [dupFd, liftTable_ok returns]
    cases new with
    | none => exact .error fun all => allowed (all _ rfl).2 rfl
    | some new =>
      refine .ok ?_ ⟨opens.preserves consistent, fun x member => ?_⟩
      · rintro _ ⟨⟩
        refine ⟨nofun, ?_⟩
        rintro rfl
        cases vfsHandleDup_refused returns
      · rw [(opens.live_some consistent).1]
        exact mem_append_left _ member

theorem Call.inheritFds_exactly (consistent : Consistent table) (live : ∀ h ∈ c.kernel.table.live, h ∈ table.live) :
    (inheritFds table c.proc.fds c.args.fdMask c.outside.dupAnswer).Exactly c.Inherits fun _ => True := by
  let inv (s : FileTable F × (Fin maxFds -> Fd)) : Prop := Consistent s.1 ∧ ∀ h ∈ c.kernel.table.live, h ∈ s.1.live
  have step (s : FileTable F × (Fin maxFds -> Fd)) (i : Fin maxFds) (here : inv s) :
      (inheritFd c.proc.fds c.args.fdMask c.outside.dupAnswer s i).Exactly
        (c.args.fdMask.getLsbD i = false -> ∀ handle, c.proc.fds i = .file handle ->
          handle ≠ none ∧ c.outside.dupAnswer i ≠ some 0) inv := by
    unfold inheritFd
    cases masked : c.args.fdMask.getLsbD i with
    | true => exact .ok nofun here
    | false =>
      have dup := dupFd_exactly here.1 (c.outside.dupAnswer i) fun h slot => here.2 h (c.handles i h slot)
      refine (dup.bind_total fun r _ post => ?_).mono ⟨fun all _ => all, fun all => all rfl⟩ fun _ _ post => post
      exact ⟨_, rfl, post.1, fun h member => post.2 h (here.2 h member)⟩
  refine (Except.Exactly.foldlM step ⟨consistent, live⟩ (finRange maxFds)).mono ?_ fun _ _ _ => trivial
  simp [Call.Inherits]

def mainThread : Thread := { tid := 1, stackBase, stackSize, blocked := true }

theorem createMainThread_exactly (sound : Sound spare s) :
    (createMainThread spare s).Exactly (stackSize / 4096 ≤ s.memory ∧ Free s stackPages) fun r =>
      Mapped spare s r.1 stackPages ∧ r.2 = some mainThread := by
  have alloc := allocPages_exactly sound (stackBase / 4096) (stackSize / 4096)
  have stack : (allocStack spare s).Exactly (stackSize / 4096 ≤ s.memory ∧ Free s stackPages) fun r =>
      Mapped spare s r.1 stackPages ∧ r.2 = stackBase :=
    alloc.bind_total fun s' _ post => ⟨_, rfl, post.1, rfl⟩
  refine stack.bind_total fun r _ post => ?_
  obtain ⟨s', base⟩ := r
  obtain ⟨mapped, rfl⟩ := post
  exact ⟨(s', some mainThread), rfl, mapped, rfl⟩

def Call.Started (table : FileTable F) (s : Space) (r : Kernel F × Option Process) : Prop :=
  ∃ s' table' lastPid p, Mapped c.outside.spare s s' stackPages ∧
    r = ({ c.unmapped table with table := table', lastPid, space := s'.user none }, some p) ∧
    p.memMap = c.outside.newMap ∧ p.threads = [mainThread]

theorem Call.startProcess_exactly (consistent : Consistent table)
    (live : ∀ h ∈ c.kernel.table.live, h ∈ table.live) (sound : Sound c.outside.spare s)
    (shows : Shows s.pml4 (some c.outside.newMap)) (segs : List Segment) :
    (startProcess (c.unmapped table) c.proc c.outside c.args.fdMask s segs).Exactly
      (c.Inherits ∧ stackSize / 4096 ≤ s.memory ∧ Free s stackPages) (c.Started table s) := by
  refine (c.inheritFds_exactly consistent live).bind fun r _ _ => ?_
  refine (createMainThread_exactly sound).bind_total fun t _ post => ?_
  obtain ⟨s', thread⟩ := t
  obtain ⟨mapped, rfl⟩ := post
  have unmap := liftMapping_ok (processUnmap_eq c.newValid (mapped.shows shows))
  refine ⟨_, bind_eq_ok.mpr ⟨_, unmap, rfl⟩, ⟨s', _, _, _, mapped, rfl, rfl, rfl⟩⟩

theorem frame_aligned (argvSz envpSz : Nat) : userFrameBegin stackTop argvSz envpSz % 16 = 8 := by
  simp only [userFrameBegin, align16, stackTop]
  omega

variable {argvSz envpSz : Nat}

theorem frame_low (refused : entryRsp stackTop argvSz envpSz ≤ stackBase) :
    userFrameBegin stackTop argvSz envpSz / 4096 < 2 ^ 27 := by
  have bound : userFrameBegin stackTop argvSz envpSz < 2 ^ 64 := Nat.mod_lt _ (by decide)
  have base : stackBase = 549755781120 := rfl
  have regs : gpRegsSize = 160 := rfl
  unfold entryRsp at refused
  omega

theorem touch_frame (refused : entryRsp stackTop argvSz envpSz ≤ stackBase) :
    touch s (userFrameBegin stackTop argvSz envpSz) 8 = .ok () ↔
      (s.view (userFrameBegin stackTop argvSz envpSz / 4096)).isSome = true := by
  have aligned := frame_aligned argvSz envpSz
  have low := frame_low refused
  have one : touched (userFrameBegin stackTop argvSz envpSz) 8 = 1 := by
    unfold touched
    rw [if_neg (by decide)]
    omega
  have canonical : Canonical (userFrameBegin stackTop argvSz envpSz / 4096 + 0) := by
    unfold Canonical
    omega
  unfold touch
  rw [one]
  constructor
  · intro written
    split at written
    · next all => exact (all 0 (by decide)).2
    · cases written
  · intro there
    refine if_pos fun k small => ?_
    obtain rfl : k = 0 := by omega
    exact ⟨canonical, there⟩

theorem setProcessEntryArguments_refuses :
    setProcessEntryArguments s mainThread argvSz envpSz = .ok false ↔
      entryRsp stackTop argvSz envpSz ≤ stackBase ∧
        (s.view (userFrameBegin stackTop argvSz envpSz / 4096)).isSome = true := by
  constructor
  · intro returns
    obtain ⟨_, written, returns⟩ := bind_eq_ok.mp returns
    split at returns
    · next refused => exact ⟨refused, (touch_frame refused).mp written⟩
    · obtain ⟨_, -, returns⟩ := bind_eq_ok.mp returns
      obtain ⟨_, -, returns⟩ := bind_eq_ok.mp returns
      obtain ⟨_, -, returns⟩ := bind_eq_ok.mp returns
      cases returns
  · rintro ⟨refused, there⟩
    refine bind_eq_ok.mpr ⟨(), (touch_frame refused).mpr there, ?_⟩
    exact if_pos refused

theorem Call.view_frame (mapped : Mapped c.outside.spare c.loading s pages)
    (low : page < 2 ^ 27) : (s.view page).isSome = true ↔ page % 2 ^ 36 ∈ pages.map (· % 2 ^ 36) := by
  rw [mapped.view]
  split
  next member =>
    exact iff_of_true rfl member
  next member =>
  refine iff_of_false ?_ member
  have first : slot page = pml4Offset privateBase := by
    show slot page = 0
    unfold slot
    omega
  rw [(show Sound c.outside.spare c.loading from c.sound).view, first, c.new_dirs.1]
  have nothing : c.loading.pages c.outside.newMap.privatePd (offset page) = false := (c.empty _).1
  rw [nothing]
  simp

def Call.after (table : FileTable F) (lastPid : BitVec 32) (s : Space) (processes : List Process) : Kernel F :=
  { processes, lastPid, table, space := s.user (some c.proc.memMap) }

theorem Call.withCreated_eq {lastPid : BitVec 32} {p : Process}
    (mapped : Mapped c.outside.spare c.loading s pages) (memMap : p.memMap = c.outside.newMap)
      (threads : p.threads = [mainThread]) :
    withCreated { processes := c.kernel.processes ++ [p], lastPid, table, space := s.user none } c.proc c.args (some p.pid) =
      setProcessEntryArguments s mainThread c.args.argsSz.toNat c.args.envSz.toNat >>= fun done =>
        if done then .ok (c.after table lastPid s (schedUnblock (c.kernel.processes ++ [p]) p.pid), some p.pid)
        else .ok (c.after table lastPid s (c.kernel.processes ++ [p]), none) := by
  let k : Kernel F := { processes := c.kernel.processes ++ [p], lastPid, table, space := s.user none }
  have found : schedGetProcess k p.pid = some p := by
    simp [k, schedGetProcess]
  have shows : Shows s.pml4 (some c.outside.newMap) := mapped.shows c.loading_shows
  have nothing : ∀ other ∈ (none : Option MemMap), other.Valid ∧ other.Apart c.outside.newMap := by simp
  have first : Sched.processMap (userSlots s.pml4 none) p.memMap = .ok s.pml4 := by
    rw [memMap, processMap_eq c.newValid (userSlots_shows _ _) (fun o m => (nothing o m).1) fun o m => (nothing o m).2,
      userSlots_userSlots, userSlots_of_shows shows]
  have second := processMap_eq c.valid shows (fun o m => Option.some.inj m ▸ c.newValid) fun o m =>
    Option.some.inj m ▸ c.apart
  rw [withCreated, enterProcess, found]
  simp only [threads]
  rw [show k.space.pml4 = userSlots s.pml4 none from rfl, liftMapping_ok first]
  have same : ({ k.space with pml4 := s.pml4 } : Space) = s := rfl
  rw [ok_bind, same]
  refine bind_congr fun done => ?_
  rw [liftMapping_ok second, ok_bind]
  rfl

variable {segs : List Segment}

theorem Call.execFile_loaded (begins : c.Begins)
    (loaded : elfLoad c.outside.spare c.outside.elfData c.loading = .ok (s, some segs)) :
    c.load table =
      startProcess (c.unmapped table) c.proc c.outside c.args.fdMask s segs >>= fun r =>
        withCreated (addProcess r.1 r.2).1 c.proc c.args (addProcess r.1 r.2).2 := by
  rw [c.execFile_eq begins, c.schedCreateProcess_eq, c.createProcess_eq, loaded]
  exact bind_assoc _ _ _

variable {ps : List Phdr} {k' : Kernel F} {handle : Nat}

section

def Call.Overflows (ps : List Phdr) : Prop :=
  (ps.map Phdr.pageCount).sum + stackSize / 4096 ≤ c.kernel.space.memory ∧ Free c.loading (imagePages ps ++ stackPages) ∧
    entryRsp stackTop c.args.argsSz.toNat c.args.envSz.toNat ≤ stackBase ∧
    c.frame / 4096 % 2 ^ 36 ∈ (imagePages ps ++ stackPages).map (· % 2 ^ 36)

variable (begins : c.Begins) (consistent : Consistent table)
  (live : ∀ h ∈ c.kernel.table.live, h ∈ table.live) (image : Image c.outside.spare c.loading s ps)
  (loaded : elfLoad c.outside.spare c.outside.elfData c.loading = .ok (s, some segs))
include begins consistent live image loaded

theorem Call.execFile_loaded_none (free : Free c.loading (imagePages ps))
    (fails : c.load table = .ok (k', none)) : c.Inherits ∧ c.Overflows ps := by
  have start := c.startProcess_exactly consistent live image.mapped.sound (image.mapped.shows c.loading_shows) segs
  rw [c.execFile_loaded begins loaded] at fails
  obtain ⟨r, started, fails⟩ := bind_eq_ok.mp fails
  obtain ⟨⟨inherits, room, stack⟩, s', table', lastPid, p, mapped, rfl, memMap, threads⟩ := start.2 r started
  have whole := image.mapped.trans mapped
  have total : s.memory + (ps.map Phdr.pageCount).sum = c.kernel.space.memory := image.memory
  rw [addProcess, show (c.unmapped table).processes = c.kernel.processes from rfl,
    c.withCreated_eq whole memMap threads] at fails
  obtain ⟨done, entered, fails⟩ := bind_eq_ok.mp fails
  cases done with
  | true => cases fails
  | false =>
    obtain ⟨refused, written⟩ := setProcessEntryArguments_refuses.mp entered
    exact ⟨inherits, by omega, image.mapped.free_append.mpr ⟨free, stack⟩, refused,
      (c.view_frame whole (frame_low refused)).mp written⟩

theorem Call.execFile_too_long (inherits : c.Inherits) (overflows : c.Overflows ps) :
    ∃ k' p, c.load table = .ok (k', none) ∧
      k'.processes = c.kernel.processes ++ [p] := by
  obtain ⟨room, free, refused, written⟩ := overflows
  have start := c.startProcess_exactly consistent live image.mapped.sound (image.mapped.shows c.loading_shows) segs
  have total : s.memory + (ps.map Phdr.pageCount).sum = c.kernel.space.memory := image.memory
  obtain ⟨r, started, s', table', lastPid, p, mapped, rfl, memMap, threads⟩ :=
    start.returns ⟨inherits, by omega, (image.mapped.free_append.mp free).2⟩
  have whole := image.mapped.trans mapped
  refine ⟨c.after table' lastPid s' (c.kernel.processes ++ [p]), p, ?_, rfl⟩
  rw [c.execFile_loaded begins loaded]
  refine bind_eq_ok.mpr ⟨_, started, ?_⟩
  rw [addProcess, show (c.unmapped table).processes = c.kernel.processes from rfl, c.withCreated_eq whole memMap threads]
  refine bind_eq_ok.mpr ⟨false, ?_, rfl⟩
  exact setProcessEntryArguments_refuses.mpr ⟨refused, (c.view_frame whole (frame_low refused)).mpr written⟩

end

abbrev Call.open :=
  vfsOpenFile c.kernel.table (c.outside.found c.path) c.path readOnly c.outside.openAnswer

theorem Call.open_cases : ∃ table handle,
    c.open = .ok (table, handle) ∧
      Opens c.kernel.table table handle ∧
      (handle ≠ none ↔ ∃ fs dirent, c.outside.found c.path = some (fs, dirent) ∧
        dirent.type = .reg ∧ dirent.rights.testBit 0 = true ∧ c.outside.openAnswer.getD 0 = 0) := by
  obtain ⟨table, handle, result, opens⟩ :=
    vfsOpenFile_opens c.consistent (c.outside.found c.path) c.path readOnly c.outside.openAnswer
  refine ⟨table, handle, result, opens, ?_⟩
  cases point : c.outside.found c.path with
  | none =>
    rw [point] at result
    cases result
    simp
  | some found =>
    obtain ⟨fs, dirent⟩ := found
    rw [point] at result
    change vfsOpenFileFrom c.kernel.table fs dirent c.path readOnly c.outside.openAnswer = _ at result
    by_cases allowed : dirent.type = .reg ∧ dirent.rights.testBit 0 = true
    · rw [vfsOpenFileFrom_allowed _ _ _ _ allowed.1 (by simp [readOnly]) fun _ => allowed.2] at result
      obtain ⟨table', hid, made, -, accepted⟩ := createHandler_opens c.consistent fs dirent c.path readOnly.write
        c.outside.openAnswer
      cases made.symm.trans result
      constructor
      · intro some
        refine ⟨fs, dirent, rfl, allowed.1, allowed.2, ?_⟩
        by_contra refuses
        rw [createHandler, if_pos refuses] at made
        cases made
        exact some rfl
      · rintro ⟨_, _, -, -, -, zero⟩
        exact accepted zero
    · have refused : vfsOpenFileFrom c.kernel.table fs dirent c.path readOnly c.outside.openAnswer =
          .ok (c.kernel.table, none) := by
        unfold vfsOpenFileFrom
        by_cases regular : dirent.type = .reg
        · rw [if_neg (not_not.mpr regular), if_neg (by simp [readOnly]), if_pos ⟨rfl, fun bit => allowed ⟨regular, bit⟩⟩]
        · rw [if_pos regular]
      cases refused.symm.trans result
      refine iff_of_false (fun some => some rfl) ?_
      rintro ⟨_, _, ⟨⟩, regular, bit, -⟩
      exact allowed ⟨regular, bit⟩

def Call.Checked : Prop :=
  c.args.sized = true ∧ checkList c.proc c.memory c.args.args c.args.argsSz = true ∧
    checkList c.proc c.memory c.args.env c.args.envSz = true

section

variable {handle : Option Nat} (checked : c.Checked)
  (opened : c.open = .ok (table, handle))
include checked opened

theorem Call.scExec_opened :
    scExec c.kernel c.proc c.memory c.args c.outside =
      match handle with
      | none => .ok ({ c.kernel with table }, none)
      | some handle => liftTable (vfsCloseFile table handle) >>= fun table =>
          c.load table := by
  rw [scExec, if_neg (not_not.mpr checked.1), if_neg (not_not.mpr checked.2.1), if_neg (not_not.mpr checked.2.2)]
  show (liftTable (c.open) >>= _) = _
  rw [liftTable_ok opened]
  cases handle <;> rfl

end

theorem Call.scExec_some (checked : c.Checked)
    (opened : c.open = .ok (table, some handle))
    (closed : vfsCloseFile table handle = .ok table') :
    scExec c.kernel c.proc c.memory c.args c.outside = c.load table' := by
  rw [c.scExec_opened checked opened]
  show (liftTable (vfsCloseFile table handle) >>= _) = _
  rw [liftTable_ok closed]
  rfl

theorem Call.closed_again (opens : Opens c.kernel.table table (some handle)) :
    ∃ table', vfsCloseFile table handle = .ok table' ∧ Consistent table' ∧ ∀ h, h ∈ table'.live ↔
      h ∈ c.kernel.table.live := by
  obtain ⟨live, new⟩ := opens.live_some c.consistent
  have here : handle ∈ table.live := live ▸ mem_concat_self
  obtain ⟨table', closed, consistent, rest⟩ := vfsCloseFile_live (opens.preserves c.consistent) here
  refine ⟨table', closed, consistent, fun h => ?_⟩
  rw [rest, live, mem_append, mem_singleton]
  constructor
  · rintro ⟨old | last, different⟩
    · exact old
    · exact absurd last different
  · intro old
    exact ⟨.inl old, fun same => new (same ▸ old)⟩

theorem Call.Begins.exec {c : Call F} (begins : c.Begins) : ∃ table,
    scExec c.kernel c.proc c.memory c.args c.outside = c.load table ∧
      Consistent table ∧ ∀ h, h ∈ table.live ↔ h ∈ c.kernel.table.live := by
  obtain ⟨table, handle, opened, opens, regular⟩ := c.open_cases
  obtain ⟨handle, rfl⟩ := Option.ne_none_iff_exists'.mp (regular.mpr begins.opened)
  obtain ⟨table', closed, consistent, live⟩ := c.closed_again opens
  exact ⟨table', c.scExec_some ⟨begins.sized, begins.args, begins.env⟩ opened closed, consistent, live⟩

theorem Call.execFile_same (begins : c.Begins) (noStray : ¬ c.Strays) (fits : ¬ c.TooLong)
    (consistent : Consistent table) (live : ∀ h, h ∈ table.live ↔ h ∈ c.kernel.table.live)
    (fails : c.load table = .ok (k', none)) : Same c.kernel k' := by
  have load := elfLoad_exactly c.outside.elfData c.sound
  cases loaded : elfLoad c.outside.spare c.outside.elfData c.loading with
  | error e =>
    rw [c.execFile_eq begins, c.schedCreateProcess_eq, c.createProcess_eq, loaded] at fails
    cases fails
  | ok r =>
    obtain ⟨s, program⟩ := r
    have post := (load.2 _ loaded).2
    cases program with
    | none =>
      -- The pages that were mapped before the file was refused.
      obtain ⟨pages, mapped, free, inside⟩ : ∃ pages, Mapped c.outside.spare c.loading s pages ∧
          Free c.loading pages ∧ ∀ page ∈ pages, UserPage page := by
        rcases post with ⟨-, ⟨⟩⟩ | ⟨ps, fine, accepts, image, program⟩
        · exact ⟨[], .refl c.sound, ⟨.nil, nofun⟩, nofun⟩
        cases fine with
        | true => cases program
        | false =>
          refine ⟨imagePages ps, image.mapped, accepts.2.2.free, fun page member => ?_⟩
          by_contra outside
          exact noStray ⟨begins, ps, accepts, page, member, outside⟩
      cases (c.execFile_refused begins mapped loaded).symm.trans fails
      exact ⟨rfl, (c.restored_iff mapped free).mpr inside, live⟩
    | some segs =>
      rcases post with ⟨-, ⟨⟩⟩ | ⟨ps, fine, accepts, image, program⟩
      cases fine with
      | false => cases program
      | true =>
        have long := c.execFile_loaded_none begins consistent (fun h member =>
          (live h).mpr member) image loaded accepts.2.2.free fails
        exact absurd ⟨begins, long.1, ps, accepts, long.2⟩ fits

/--
A call that fails changes neither the process table nor the address space nor the set of open handles, exactly if the file
is not refused behind pages outside of the user region and the arguments fit the stack of a process that could be created.
-/
theorem failed_exec_unchanged_iff (c : Call F) :
    (∀ k', scExec c.kernel c.proc c.memory c.args c.outside = .ok (k', none) -> Same c.kernel k') ↔
      ¬ c.Strays ∧ ¬ c.TooLong := by
  constructor
  · intro unchanged
    constructor
    · rintro ⟨begins, ps, accepts, page, member, outside⟩
      obtain ⟨table, exec, -, -⟩ := begins.exec
      obtain ⟨s, loaded, image⟩ := accepts.loaded c.sound
      have same := unchanged _ (exec.trans (c.execFile_refused begins image.mapped loaded))
      exact outside ((c.restored_iff image.mapped accepts.2.2.free).mp same.space page member)
    rintro ⟨begins, inherits, ps, accepts, overflows⟩
    obtain ⟨table, exec, consistent, live⟩ := begins.exec
    obtain ⟨s, loaded, image⟩ := accepts.loaded c.sound
    obtain ⟨k', p, fails, processes⟩ :=
      c.execFile_too_long begins consistent (fun h member => (live h).mpr member) image loaded
      inherits overflows
    have same := (unchanged k' (exec.trans fails)).processes
    rw [processes] at same
    simp at same
  · rintro ⟨noStray, fits⟩ k' fails
    have nothing : Same c.kernel c.kernel := ⟨rfl, fun _ => rfl, fun _ => .rfl⟩
    by_cases checked : c.Checked
    · obtain ⟨table, handle, opened, opens, regular⟩ := c.open_cases
      cases handle with
      | none =>
        cases (c.scExec_opened checked opened).symm.trans fails
        refine ⟨rfl, fun _ => rfl, fun h => ?_⟩
        rw [opens.live_none]
      | some handle =>
        obtain ⟨table', closed, consistent, live⟩ := c.closed_again opens
        rw [c.scExec_some checked opened closed] at fails
        by_cases read : c.outside.elfData.length = c.outside.fileSize
        · by_cases new : c.args.newProcess = true
          · have begins : c.Begins := ⟨checked.1, checked.2.1, checked.2.2, regular.mp nofun, read, new⟩
            exact c.execFile_same begins noStray fits consistent live fails
          · rw [Call.load, execFile, if_neg (not_not.mpr read), if_pos new] at fails
            cases fails
        · rw [Call.load, execFile, if_pos read] at fails
          cases fails
    · have unread : scExec c.kernel c.proc c.memory c.args c.outside = .ok (c.kernel, none) := by
        unfold scExec
        split_ifs with sized args env
        · exact absurd ⟨sized, args, env⟩ checked
        all_goals rfl
      cases unread.symm.trans fails
      exact nothing

def emptyElf : List Byte :=
  [0x7f, 0x45, 0x4c, 0x46, 2, 1, 1, 0] ++ replicate 8 0 ++ [2, 0, 0x3e, 0, 1, 0, 0,
    0] ++ replicate 28 0 ++ [64, 0, 56, 0] ++ replicate 8 0

def smallProcess : Process where
  pid := 1
  ppid := 0
  fds := fun _ => .none
  cwd := []
  memMap := { privatePd := 0x20000, sharedPd := 0x21000 }
  segs := []
  heapBegin := 0x1000
  brk := 0x100000
  threads := []

def smallKernel : Kernel Unit where
  processes := [smallProcess]
  lastPid := 1
  table := Vfs.HandleTable.vfsFilesInit
  space := { pml4 := userSlots (fun _ => 0) (some smallProcess.memMap), pages := fun _ _ => false, memory := 100 }

def freshFrames : Outside Unit where
  found := fun _ => some ((), { ino := 5, fileSize := 64, type := .reg, rights := 1 })
  openAnswer := none
  fileSize := 64
  elfData := emptyElf
  newMap := { privatePd := 0x10000, sharedPd := 0x11000 }
  spare := fun i => BitVec.ofNat 64 ((i + 4096) * 4096)
  dupAnswer := fun _ => none

theorem freshFrames_valid : freshFrames.newMap.Valid := ⟨by decide, by decide, by decide, by decide⟩

theorem smallKernel_dirs : ∀ i < 512, ((smallKernel.space.user (some freshFrames.newMap)).dir freshFrames.spare i).toNat =
    if i = 0 then 0x10000 else if i = 2 then 0x11000 else (i + 4096) * 4096 := by
  decide +kernel

def longCall : Call Unit where
  kernel := smallKernel
  proc := smallProcess
  memory := fun _ => 0
  args := { sized := true, args := 0x1000, argsSz := 32600, env := 0x20000, envSz := 1, newProcess := true, fdMask := 0 }
  outside := freshFrames
  caller := by simp [schedGetProcess, smallKernel]
  consistent := Vfs.HandleTable.init_consistent
  handles := nofun
  valid := ⟨by decide, by decide, by decide, by decide⟩
  mapped := userSlots_shows _ _
  newValid := freshFrames_valid
  sound := by
    refine ⟨by decide +kernel, fun i small j small' same => ?_, fun _ _ _ _ => rfl⟩
    have values := congrArg BitVec.toNat same
    rw [smallKernel_dirs i small, smallKernel_dirs j small'] at values
    split_ifs at values <;> omega
  unused := by decide +kernel
  empty := fun _ => ⟨rfl, rfl⟩

theorem long_arguments_leave_process :
    ∃ k' p, scExec longCall.kernel longCall.proc longCall.memory longCall.args longCall.outside = .ok (k', none) ∧
      k'.processes = longCall.kernel.processes ++ [p] := by
  have begins : longCall.Begins := ⟨rfl, by decide, by decide, ⟨(), _, rfl, rfl, rfl, rfl⟩, rfl, rfl⟩
  have accepts : Accepts longCall.outside.elfData longCall.loading [] true :=
    ⟨by decide, rfl, Nat.zero_le _, ⟨.nil, nofun⟩, nofun⟩
  have free : Free longCall.loading (imagePages [] ++ stackPages) := by
    refine ⟨by decide, fun page _ => ?_⟩
    simp only [Space.view, show longCall.loading.pages = fun _ _ => false from rfl, Bool.and_false]
    rfl
  obtain ⟨table, exec, consistent, live⟩ := begins.exec
  obtain ⟨s, loaded, image⟩ := accepts.loaded longCall.sound
  obtain ⟨k', p, fails, processes⟩ :=
    longCall.execFile_too_long begins consistent (fun h member => (live h).mpr member) image loaded
    (fun _ _ => nofun) ⟨by decide, free, by decide, by decide⟩
  exact ⟨k', p, exec.trans fails, processes⟩

end Bincows.Exec
