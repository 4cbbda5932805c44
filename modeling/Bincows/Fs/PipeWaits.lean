import Bincows.Fs.Pipes
import Bincows.Sched.Blocking

set_option autoImplicit false

/-! The calls on a pipe with their threads. A thread that holds the file is not interrupted;
`wait_for_buffer` enables interrupts before `sched_block`, so another thread can run between its
entry in `waiters` and the block. -/

namespace Bincows.Pipefs.PipeWaits

open Sched (Cpu)

inductive Pc (A : Type) where
  | out
  | holding (c : Call A)
  | decided (c : Call A)
  | blocked (c : Call A)

def Pc.isDecided {A : Type} : Pc A -> Bool
  | .decided _ => true
  | _ => false

def Pc.isHolding {A : Type} : Pc A -> Bool
  | .holding _ => true
  | _ => false

structure World (T A : Type) where
  cpu : Cpu T
  file : File A
  removed : Bool
  locked : Bool
  waiters : List T
  pc : T -> Pc A

variable {T A : Type} [DecidableEq T] {w w' : World T A} {t : T} {c : Call A} {cpu : Cpu T}

def World.go (w : World T A) (p : Pc A) : World T A :=
  { w with pc := Function.update w.pc w.cpu.current p }

def broadcastWaiters (w : World T A) : World T A :=
  { w with cpu := w.cpu.unblockAll w.waiters, waiters := [] }

def waitForBuffer (w : World T A) (c : Call A) : World T A :=
  { w with locked := false, waiters := w.waiters ++ [w.cpu.current] }.go (.decided c)

def finish (w : World T A) : World T A := { w with locked := false }.go .out

def pipefsRead (w : World T A) (c : Call A) : Except Fault (World T A) := do
  let b ← readBatch w.file c.remaining
  let data := (w.file.buffer.drop w.file.head).take b.size
  let c := { c with buf := data ++ c.buf.drop data.length, remaining := c.remaining - b.size }
  let w := { w with file := { w.file with head := advance w.file.head b } }
  let w := if b.size ≠ 0 then broadcastWaiters w else w
  if b.block then
    if c.n = c.remaining then return waitForBuffer w c else return finish w
  else return w.go (.holding c)

def write (w : World T A) (c : Call A) : Except Fault (World T A) := do
  let b ← writeBatch w.file c.remaining
  let file :=
    { w.file with
      buffer := CircularBuffer.store w.file.buffer w.file.tail (c.buf.take b.size)
      tail := advance w.file.tail b }
  let c := { c with remaining := c.remaining - b.size }
  let w := { w with file }
  let w := if b.size ≠ 0 then broadcastWaiters w else w
  if b.block then return waitForBuffer w c else return w.go (.holding c)

def round (w : World T A) (c : Call A) : Except Fault (World T A) :=
  if c.remaining = 0 ∨ w.file.broken ≠ none then .ok (finish w)
  else
    match c.kind with
    | .read => pipefsRead w c
    | .write => write w c

def startCall (w : World T A) (kind : Kind) (buf : List A) : Except Fault (World T A) :=
  if w.removed then .ok w
  else if w.locked then .error .spins
  else if buf.length = 0 then .ok { w with locked := true }
  else
    .ok ({ w with locked := true }.go (.holding { kind, n := buf.length, remaining := buf.length % 2 ^ 32, buf }))

def resume (w : World T A) (c : Call A) : Except Fault (World T A) :=
  if w.removed then
    if c.kind = .write then .error .nullPointer else .ok (w.go .out)
  else if w.locked then .error .spins
  else .ok ({ w with locked := true }.go (.holding c))

/-- `sched_block` was interrupted. The entry in `waiters` stays. -/
def leaveWait (w : World T A) (c : Call A) : Except Fault (World T A) :=
  if c.kind = .write then .error .nullPointer else .ok (w.go .out)

def closeFile (w : World T A) (which : PipeEnd) : Except Fault (World T A) :=
  if w.removed then .error .noFile
  else if w.locked then .error .spins
  else
    match w.file.broken with
    | none => .ok (broadcastWaiters { w with file := { w.file with broken := some which } })
    | some other => if other = which then .error .closedTwice else .ok { w with removed := true, waiters := [] }

/-- The step of the current thread, an interrupt, or a thread unblocked for another reason, as by a signal. A thread that is
outside of the pipe may also block elsewhere. -/
inductive Action (T A : Type) where
  | call (kind : Kind) (buf : List A)
  | close (which : PipeEnd)
  | round
  | block (next : T)
  | resume
  | leaveWait
  | blockElsewhere (next : T)
  | interrupt (next : T)
  | unblock (t : T)

def switch (w : World T A) : Option (Cpu T) -> Except Fault (World T A)
  | none => .error .idle
  | some cpu => .ok { w with cpu }

-- What the current thread cannot do where it is, is `idle`.
def perform (w : World T A) (action : Action T A) : Except Fault (World T A) :=
  match w.pc w.cpu.current, action with
  | .out, .call kind buf => startCall w kind buf
  | .out, .close which => closeFile w which
  | .out, .blockElsewhere next => switch w (w.cpu.schedBlock next)
  | .holding c, .round => round w c
  | .decided c, .block next => switch (w.go (.blocked c)) (w.cpu.schedBlock next)
  | .blocked c, .resume => resume w c
  | .blocked c, .leaveWait => leaveWait w c
  | pc, .interrupt next => if pc.isHolding then .error .idle else switch w (w.cpu.interrupt next)
  | pc, .unblock t => if pc.isHolding then .error .idle else .ok { w with cpu := w.cpu.schedUnblock t }
  | _, _ => .error .idle

def createFile (cpu : Cpu T) (buffer : List A) : World T A :=
  { cpu, file := { buffer, head := 0, tail := 0, broken := none }, removed := false, locked := false, waiters := []
    pc := fun _ => .out }

def Step (w w' : World T A) : Prop := ∃ action, perform w action = .ok w'

def roundSize (w : World T A) (c : Call A) : Nat :=
  match if c.kind = .read then readBatch w.file c.remaining else writeBatch w.file c.remaining with
  | .ok b => b.size
  | .error _ => 0

def broadcasts (w : World T A) : Action T A -> Bool
  | .close _ => w.file.broken.isNone
  | .round =>
    match w.pc w.cpu.current with
    | .holding c => c.remaining ≠ 0 && w.file.broken.isNone && roundSize w c ≠ 0
    | _ => false
  | _ => false

def Quiet (w : World T A) (action : Action T A) : Prop :=
  broadcasts w action = true -> ∀ t, (w.pc t).isDecided = false

instance [Fintype T] (w : World T A) (action : Action T A) : Decidable (Quiet w action) :=
  inferInstanceAs (Decidable (_ -> _))

def QuietStep (w w' : World T A) : Prop := ∃ action, Quiet w action ∧ perform w action = .ok w'

structure Waits (w : World T A) : Prop where
  cpu : w.cpu.Sound
  blocked : ∀ t c, w.pc t = .blocked c -> w.cpu.Blocked t -> t ∈ w.waiters
  decided : ∀ t c, w.pc t = .decided c -> t ∈ w.waiters
  broken : w.file.broken ≠ none -> w.waiters = []

omit [DecidableEq T] in
theorem createFile_waits {buffer : List A} (sound : cpu.Sound) : Waits (createFile cpu buffer) where
  cpu := sound
  blocked := fun _ _ => nofun
  decided := fun _ _ => nofun
  broken := fun _ => rfl

section

variable (waits : Waits w)
include waits

theorem Waits.go (p : Pc A) (entry : ∀ c, p = .decided c -> w.cpu.current ∈ w.waiters) : Waits (w.go p) := by
  refine ⟨waits.cpu, fun t c => ?_, fun t c => ?_, waits.broken⟩ <;> by_cases moved : t = w.cpu.current
  · intro _ blocked
    exact absurd (moved ▸ blocked) waits.cpu.current_awake
  · simpa [World.go, moved] using waits.blocked t c
  · subst moved
    simpa [World.go] using entry c
  · simpa [World.go, moved] using waits.decided t c

section

omit [DecidableEq T]

theorem Waits.wake (sound : cpu.Sound) (fewer : ∀ t, cpu.Blocked t -> w.cpu.Blocked t) : Waits { w with cpu } :=
  { waits with cpu := sound, blocked := fun t c waiting blocked => waits.blocked t c waiting (fewer t blocked) }

theorem Waits.locks (locked : Bool) : Waits { w with locked } := { waits with }

theorem Waits.file {file : File A} (same : file.broken = w.file.broken) : Waits { w with file } :=
  { waits with broken := fun broken => waits.broken (same ▸ broken) }

end

theorem Waits.finish : Waits (finish w) := (waits.locks false).go .out nofun

theorem Waits.wait (whole : w.file.broken = none) : Waits (waitForBuffer w c) := by
  have more : Waits { w with locked := false, waiters := w.waiters ++ [w.cpu.current] } :=
    ⟨waits.cpu, fun t c waiting blocked => List.mem_append_left _ (waits.blocked t c waiting blocked),
      fun t c waiting => List.mem_append_left _ (waits.decided t c waiting), fun broken => absurd whole broken⟩
  exact more.go (.decided c) fun _ _ => by simp

-- The entries are gone, and with them every thread that was blocked on one.
theorem Waits.broadcast (file : File A) (quiet : ∀ t, (w.pc t).isDecided = false) :
    Waits (broadcastWaiters { w with file }) := by
  obtain ⟨sound, -, blocked⟩ := Cpu.unblockAll_blocked waits.cpu w.waiters
  refine ⟨sound, fun t c waiting still => ?_, fun t c decided => ?_, fun _ => rfl⟩
  · obtain ⟨before, missing⟩ := (blocked t).mp still
    exact absurd (waits.blocked t c waiting before) missing
  · have none := quiet t
    rw [show w.pc t = .decided c from decided] at none
    cases none

theorem Waits.transfer (file : File A) {size : Nat} (same : file.broken = w.file.broken)
    (quiet : size ≠ 0 -> ∀ t, (w.pc t).isDecided = false) :
    Waits (if size ≠ 0 then broadcastWaiters { w with file } else { w with file }) ∧
      (if size ≠ 0 then broadcastWaiters { w with file } else { w with file }).file = file := by
  split
  case isTrue moved => exact ⟨waits.broadcast file (quiet moved), rfl⟩
  case isFalse => exact ⟨waits.file same, rfl⟩

theorem pipefsRead_waits (whole : w.file.broken = none) (kind : c.kind = .read)
    (quiet : roundSize w c ≠ 0 -> ∀ t, (w.pc t).isDecided = false) (returns : pipefsRead w c = .ok w') : Waits w' := by
  obtain ⟨b, batch, rest⟩ := bind_eq_ok.mp returns
  rw [roundSize, if_pos kind, batch] at quiet
  obtain ⟨moved, file⟩ := waits.transfer { w.file with head := advance w.file.head b } rfl quiet
  dsimp only at rest
  split at rest
  · split at rest
    · cases rest
      exact moved.wait (by rw [file]; exact whole)
    · cases rest
      exact moved.finish
  · cases rest
    exact moved.go _ nofun

theorem write_waits (whole : w.file.broken = none) (kind : c.kind = .write)
    (quiet : roundSize w c ≠ 0 -> ∀ t, (w.pc t).isDecided = false) (returns : write w c = .ok w') : Waits w' := by
  obtain ⟨b, batch, rest⟩ := bind_eq_ok.mp returns
  rw [roundSize, kind, if_neg nofun, batch] at quiet
  obtain ⟨moved, file⟩ := waits.transfer
    { w.file with
      buffer := CircularBuffer.store w.file.buffer w.file.tail (c.buf.take b.size)
      tail := advance w.file.tail b } rfl quiet
  dsimp only at rest
  split at rest
  · cases rest
    exact moved.wait (by rw [file]; exact whole)
  · cases rest
    exact moved.go _ nofun

theorem round_waits (running : w.pc w.cpu.current = .holding c) (quiet : Quiet w .round)
    (returns : round w c = .ok w') : Waits w' := by
  unfold round at returns
  split at returns
  case isTrue =>
    cases returns
    exact waits.finish
  case isFalse more =>
    obtain ⟨some', whole⟩ := not_or.mp more
    have whole := not_not.mp whole
    have quiet : roundSize w c ≠ 0 -> ∀ t, (w.pc t).isDecided = false := by
      intro moved
      exact quiet (by simp [broadcasts, running, some', whole, moved])
    split at returns
    case h_1 kind => exact pipefsRead_waits waits whole kind quiet returns
    case h_2 kind => exact write_waits waits whole kind quiet returns

theorem startCall_waits {kind : Kind} {buf : List A} (returns : startCall w kind buf = .ok w') : Waits w' := by
  unfold startCall at returns
  split_ifs at returns <;> cases returns
  · exact waits
  · exact waits.locks true
  · exact (waits.locks true).go _ nofun

theorem resume_waits (returns : resume w c = .ok w') : Waits w' := by
  unfold resume at returns
  split_ifs at returns <;> cases returns
  · exact waits.go .out nofun
  · exact (waits.locks true).go _ nofun

theorem closeFile_waits {which : PipeEnd} (quiet : Quiet w (.close which))
    (returns : closeFile w which = .ok w') : Waits w' := by
  unfold closeFile at returns
  split_ifs at returns
  split at returns
  case h_1 whole =>
    cases returns
    exact waits.broadcast _ (quiet (by simp [broadcasts, whole]))
  case h_2 other broken =>
    split_ifs at returns
    cases returns
    -- the first close has emptied `waiters`
    have none : w.waiters = [] := waits.broken (by simp [broken])
    exact ⟨waits.cpu, none ▸ waits.blocked, none ▸ waits.decided, fun _ => rfl⟩

theorem block_waits {next : T} (running : w.pc w.cpu.current = .decided c)
    (switches : w.cpu.schedBlock next = some cpu) : Waits { w.go (.blocked c) with cpu } := by
  obtain ⟨sound, -, blocked⟩ := Cpu.schedBlock_blocked waits.cpu switches
  have moved := waits.go (.blocked c) nofun
  refine ⟨sound, fun t c waiting still => ?_, moved.decided, waits.broken⟩
  obtain rfl | before := (blocked t).mp still
  · exact waits.decided _ _ running
  · exact moved.blocked t c waiting before

theorem perform_waits {action : Action T A} (quiet : Quiet w action) (returns : perform w action = .ok w') : Waits w' := by
  have switched : ∀ (w₁ : World T A) cpu, switch w₁ cpu = .ok w' -> ∃ cpu', cpu = some cpu' ∧
      w' = { w₁ with cpu := cpu' } := by
    rintro w₁ (_ | cpu) returns <;> cases returns
    exact ⟨cpu, rfl, rfl⟩
  unfold perform at returns
  split at returns
  case h_1 => exact startCall_waits waits returns
  case h_2 => exact closeFile_waits waits quiet returns
  case h_3 outside =>
    obtain ⟨cpu, switches, rfl⟩ := switched _ _ returns
    obtain ⟨sound, -, blocked⟩ := Cpu.schedBlock_blocked waits.cpu switches
    refine ⟨sound, fun t c waiting still => ?_, waits.decided, waits.broken⟩
    obtain rfl | before := (blocked t).mp still
    · rw [show w.pc w.cpu.current = .blocked c from waiting] at outside
      cases outside
    · exact waits.blocked t c waiting before
  case h_4 running => exact round_waits waits running quiet returns
  case h_5 running =>
    obtain ⟨cpu, switches, rfl⟩ := switched _ _ returns
    exact block_waits waits running switches
  case h_6 => exact resume_waits waits returns
  case h_7 =>
    unfold leaveWait at returns
    split_ifs at returns
    cases returns
    exact waits.go .out nofun
  case h_8 =>
    split_ifs at returns
    obtain ⟨cpu, switches, rfl⟩ := switched _ _ returns
    obtain ⟨sound, -, blocked⟩ := Cpu.interrupt_blocked waits.cpu switches
    exact waits.wake sound fun t => (blocked t).mp
  case h_9 =>
    split_ifs at returns
    cases returns
    obtain ⟨sound, -, blocked⟩ := Cpu.schedUnblock_blocked waits.cpu _
    exact waits.wake sound fun t still => ((blocked t).mp still).1
  case h_10 => cases returns

end

theorem quiet_waiters_keep_entries {cpu : Cpu T} {buffer : List A} (sound : cpu.Sound)
    (run : Relation.ReflTransGen QuietStep (createFile cpu buffer) w) :
    ∀ t c, w.pc t = .blocked c -> w.cpu.state t = .blocked -> t ∈ w.waiters := by
  have waits : Waits w := run.invariant Waits (createFile_waits sound) fun _ _ waits ⟨_, quiet, returns⟩ =>
    perform_waits waits quiet returns
  exact waits.blocked

def twoThreads : Cpu Bool :=
  { state := fun t => if t then .running else .ready, shouldBlock := fun _ => false, current := true }

theorem twoThreads_sound : twoThreads.Sound := ⟨fun _ => rfl, by decide⟩

def read (n : Nat) : Call Nat := { kind := .read, n, remaining := n, buf := List.replicate n 0 }

-- `true` reads and blocks; `false` writes a byte and wakes it; it takes the byte and blocks for another one.
theorem quiet_waiters_keep_entries_reader :
    ∃ w : World Bool Nat, Relation.ReflTransGen QuietStep (createFile twoThreads (List.replicate pipeSize 0)) w ∧
      w.pc true = .blocked (read 1) ∧ w.cpu.state true = .blocked ∧ true ∈ w.waiters := by
  have run : Relation.ReflTransGen QuietStep _ _ :=
    .of_guarded Quiet perform .idle (createFile twoThreads (List.replicate pipeSize 0))
    [.call .read [0], .round, .block false, .call .write [7], .round, .round, .interrupt true, .resume, .round, .round,
      .call .read [0], .round, .block false] (fun _ action _ quiet returns => ⟨action, quiet, returns⟩) rfl
  exact ⟨_, run, rfl, rfl, quiet_waiters_keep_entries twoThreads_sound run true (read 1) rfl rfl⟩

theorem reader_misses_broadcast :
    ∃ w : World Bool Nat, Relation.ReflTransGen Step (createFile twoThreads (List.replicate pipeSize 0)) w ∧
      w.pc true = .blocked (read 1) ∧ w.cpu.state true = .blocked ∧ w.waiters = [] ∧ w.file.tail = 1 := by
  have run : Relation.ReflTransGen Step _ _ := .of_foldlM (fun _ action _ returns => ⟨action, returns⟩)
    (rfl : [.call .read [0], .round, .interrupt false, .call .write [7], .round, .round, .interrupt true, .block false].foldlM
      perform (createFile twoThreads (List.replicate pipeSize 0)) = .ok _)
  exact ⟨_, run, rfl, rfl, rfl, rfl⟩

end Bincows.Pipefs.PipeWaits
