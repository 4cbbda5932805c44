import Bincows.Fs.HandleWrites

set_option autoImplicit false

/-! Any sequence of calls from empty tables on. The file system may hold anything, and gives a file without an address any
address that no open file has. -/

namespace Bincows.Vfs

open Keyed List

variable {A P : Type} {gran : Nat} {s s' : State A P}

inductive Op (A P : Type) where
  | openFile (dirent : Dirent) (path : P) (flags : Flags) (garbage : Nat -> A)
  | dup (handle : Nat) (garbage : Nat -> A)
  | read (handle size : Nat)
  | write (handle : Nat) (data : List A) (env : WriteEnv A)
  | seek (handle offset : Nat) (whence : Whence)
  | close (handle : Nat)

def exec (gran : Nat) (s : State A P) : Op A P -> Except Fault (State A P)
  | .openFile dirent path flags garbage => return (← vfsOpenFileFrom gran s dirent path flags garbage).1
  | .dup handle garbage => return (← vfsHandleDup s handle garbage).1
  | .read handle size => return (← vfsReadFile gran s handle size).1
  | .write handle data env => return (← vfsWriteFile gran s handle data env).1
  | .seek handle offset whence => return (← vfsSeekFile gran s handle offset whence).1
  | .close handle => return (← vfsCloseFile s handle).1

def Fits (s : State A P) : Op A P -> Prop
  | .openFile dirent _ _ _ => dirent.fileSize < 2 ^ 64
  | .write handle _ env => ∀ h file, Target s handle h file -> Allocates s file env
  | .seek _ offset _ => offset < 2 ^ 64
  | _ => True

def Safe (gran : Nat) (s : State A P) : Op A P -> Prop
  | .write handle data env => ∀ h file, Target s handle h file -> h.flags.write = true ->
    data ≠ [] -> OwnSafe gran (writeStart gran h file.fileSize) file.fileSize data.length ∧
      OthersSafe gran s (writeStart gran h file.fileSize) file env data.length
  | _ => True

def Step (gran : Nat) (s s' : State A P) : Prop := ∃ op, Fits s op ∧ exec gran s op = .ok s'

def SafeStep (gran : Nat) (s s' : State A P) : Prop :=
  ∃ op, Fits s op ∧ Safe gran s op ∧ exec gran s op = .ok s'

def initial (content : Nat -> Nat -> A) : State A P :=
  { openFiles := [], curId := 0, handles := [], nextHandle := 0, content }

theorem initial_good (content : Nat -> Nat -> A) : Good gran (initial content : State A P) := by
  refine ⟨.nil, ?_, .nil, ?_, .nil, ?_, ?_, ?_, ?_, ?_, ?_⟩
  all_goals
    intro x member
    cases member

theorem exec_good (good : Good gran s) (divides : gran ∣ 2 ^ 64) (positive : 0 < gran) {op : Op A P} (fits : Fits s op)
    (safe : Safe gran s op) (returns : exec gran s op = .ok s') : Good gran s' := by
  cases op <;> obtain ⟨⟨s₁, result⟩, called, done⟩ := bind_eq_ok.mp returns <;> cases done
  case openFile => exact vfsOpenFileFrom_good good positive fits called
  case dup => exact vfsHandleDup_good good called
  case read => exact (vfsReadFile_exact good called).1
  case write =>
    rcases vfsWriteFile_wrote good positive called with rfl | ⟨h, file, target, allowed, some, -, h', m, r, buf, wrote⟩
    · exact good
    have ids := writeStart_ids gran h file.fileSize
    have placed := writeStart_placed positive (good.placed h target.live) (good.sizes file target.record)
    obtain ⟨own, others⟩ := safe h file target allowed some
    refine wrote.good good divides ?_ ids.2 placed (fits h file target) own others
    rw [ids.1, target.id]
    exact target
  case seek => exact vfsSeekFile_good good positive fits called
  case close => exact vfsCloseFile_good good called

def BuffersCoherent (gran : Nat) (s : State A P) : Prop :=
  ∀ h ∈ s.handles, ∀ e ∈ s.openFiles, e.id = h.vfileId -> h.Coherent gran (s.content e.addr)

def ReadsCurrent (gran : Nat) (s : State A P) : Prop :=
  ∀ handle size s' result, vfsReadFile gran s handle size = .ok (s', result) ->
    ∃ h file, Target s handle h file ∧ result = if h.flags.read then
        .bytes (copyFrom (s.content file.addr) h.fileOffset (readable file.fileSize h.fileOffset size))
      else .refused

def WritesWindow (gran : Nat) (s : State A P) : Prop :=
  ∀ handle data env s' result, vfsWriteFile gran s handle data env = .ok (s', result) ->
    s' = s ∨ ∃ h file, Target s handle h file ∧ result = .written data.length ∧
      Stores gran s s' (writeStart gran h file.fileSize) file data env

theorem Good.reads_current (good : Good gran s) : ReadsCurrent gran s := by
  intro handle size s' result returns
  obtain ⟨-, h, live, id, e, record, vfile, bytes⟩ := vfsReadFile_exact good returns
  exact ⟨h, e, ⟨live, id, record, vfile⟩, bytes⟩

theorem Good.writes_window (good : Good gran s) (positive : 0 < gran) : WritesWindow gran s := by
  intro handle data env s' result returns
  rcases vfsWriteFile_wrote good positive returns with same | ⟨h, file, target, -, -, written, h', m, r, buf, wrote⟩
  · exact .inl same
  · have placed := writeStart_placed positive (good.placed h target.live) (good.sizes file target.record)
    exact .inr ⟨h, file, target, written, wrote.stored placed⟩

theorem safe_runs_coherent {content : Nat -> Nat -> A} (divides : gran ∣ 2 ^ 64)
    (run : Relation.ReflTransGen (SafeStep gran) (initial content : State A P) s) :
    BuffersCoherent gran s ∧ ReadsCurrent gran s ∧ WritesWindow gran s := by
  have positive : 0 < gran := Nat.pos_of_dvd_of_pos divides (by decide)
  have good : Good gran s := by
    refine run.invariant (Good gran) (initial_good content) ?_
    rintro s s' good ⟨op, fits, safe, returns⟩
    exact exec_good good divides positive fits safe returns
  exact ⟨good.coherent, good.reads_current, good.writes_window positive⟩

section shared

def sharedDirent : Dirent :=
  { ino := 2, fileSize := 600, isRegular := true, readable := true, writable := true, seekable := true, truncatable := true }

def sharedFlags : Flags :=
  { read := true, write := true, append := false, seekable := true, truncatable := true }

def sharedHandle (handleId : Nat) : Handle Nat :=
  { handleId, bufferValid := false, sectorOffset := 0, sectorCount := 0, fileOffset := 0, sectorBuff := fun _ => 0,
    vfileId := 1, flags := sharedFlags }

def sharedState : State Nat Unit :=
  { openFiles := [{ addr := 2, fileSize := 600, id := 1, path := (), modified := false, fhs := [0, 1] }]
    curId := 1
    handles := [sharedHandle 0, sharedHandle 1]
    nextHandle := 2
    content := fun _ _ => 0 }

def readBytes : ReadResult Nat -> List Nat
  | .refused => []
  | .bytes data => data

def sharedWrite : Op Nat Unit := .write 0 [7] { garbage := fun _ => 0, newAddr := 0, stored := 1 }

theorem sharedState_reached : ReflTransGen (SafeStep 512) (initial fun _ _ => 0) sharedState := by
  have size : sharedDirent.fileSize < 2 ^ 64 := by decide
  exact .tail (.tail .refl ⟨.openFile sharedDirent () sharedFlags fun _ => 0, size, trivial, rfl⟩)
    ⟨.openFile sharedDirent () sharedFlags fun _ => 0, size, trivial, rfl⟩

theorem sharedWrite_fits {s : State Nat Unit} (addrs : ∀ e ∈ s.openFiles, e.addr ≠ 0) : Fits s sharedWrite :=
  fun _ file target none => absurd none (addrs file target.record)

theorem sharedWrite_safe : Safe 512 sharedState sharedWrite := by
  have checked : ∀ h ∈ sharedState.handles, h.handleId = 0 -> ∀ file ∈ sharedState.openFiles,
      OwnSafe 512 (writeStart 512 h file.fileSize) file.fileSize 1 ∧ ∀ x ∈ sharedState.handles, x.bufferValid = false := by
    simp only [OwnSafe]
    decide
  intro h file target _ _
  obtain ⟨own, empty⟩ := checked h target.live target.id file target.record
  refine ⟨own, fun x member _ _ valid => ?_⟩
  rw [empty x member] at valid
  cases valid

theorem safe_runs_coherent_shared :
    ∃ s : State Nat Unit, Relation.ReflTransGen (SafeStep 512) (initial fun _ _ => 0) s ∧
      (vfsReadFile 512 s 1 3).toOption.map (fun read => readBytes read.2) = some [7, 0, 0] ∧
      BuffersCoherent 512 s ∧ ReadsCurrent 512 s ∧ WritesWindow 512 s := by
  have run : ReflTransGen (SafeStep 512) (initial fun _ _ => 0) _ :=
    .tail sharedState_reached ⟨sharedWrite, sharedWrite_fits (by decide), sharedWrite_safe, rfl⟩
  exact ⟨_, run, by decide, safe_runs_coherent (by decide) run⟩

theorem write_leaves_stale_buffer :
    ∃ s : State Nat Unit, Relation.ReflTransGen (Step 512) (initial fun _ _ => 0) s ∧
      ¬ BuffersCoherent 512 s ∧ s.content 2 20 = 7 ∧
      (vfsReadFile 512 s 1 11).toOption.map (fun read => readBytes read.2) = some (replicate 11 0) := by
  have start : ReflTransGen (Step 512) (initial fun _ _ => 0) sharedState :=
    Relation.ReflTransGen.mono (fun _ _ ⟨op, fits, _, returns⟩ => ⟨op, fits, returns⟩) _ _ sharedState_reached
  have offset : 20 < 2 ^ 64 := by decide
  have run : ReflTransGen (Step 512) (initial fun _ _ => 0) _ :=
    .tail (.tail (.tail start ⟨.read 1 10, trivial, rfl⟩) ⟨.seek 0 20 .set, offset, rfl⟩)
      ⟨sharedWrite, sharedWrite_fits (by decide), rfl⟩
  refine ⟨_, run, ?_, by decide, by decide⟩
  intro coherent
  have current := coherent _ (.tail _ (.head _)) _ (.head _) rfl rfl 20 (by decide)
  revert current
  decide

end shared

section calls

variable {handle size : Nat} {h : Handle A} {file : FileEnt P}

-- A handle in the middle of the second of two sectors.
def middleHandle : Handle Nat :=
  { sharedHandle 0 with sectorOffset := 8, sectorCount := 1, fileOffset := 520 }

def middleState : State Nat Unit :=
  { sharedState with
    openFiles := [{ addr := 2, fileSize := 600, id := 1, path := (), modified := false, fhs := [0] }]
    handles := [middleHandle] }

def largeState : State Nat Unit :=
  { sharedState with
    openFiles := [{ addr := 2, fileSize := 2 ^ 32 - 1, id := 1, path := (), modified := false, fhs := [0, 1] }] }

def oneSector : WriteEnv Nat := { garbage := fun _ => 0, newAddr := 0, stored := 1 }

theorem middle_target : Target middleState 0 middleHandle ⟨2, 600, 1, (), false, [0]⟩ :=
  ⟨.head _, rfl, .head _, rfl⟩

end calls

end Bincows.Vfs
