import Bincows.Sched.Blocking

set_option autoImplicit false

/-! `futex_wait` and `futex_wake` with the timed `sleep` they rest on. Interrupts come where they
are enabled: each `Pc` is one such point, and the code up to the next is one step. -/

namespace Bincows.Syscalls.Futexes

open Function List

open Sched (Cpu)
open Tables (swapRemove)

inductive Fault where
  | notSleeping
  | idle
  deriving DecidableEq

structure FutexWaiter (T : Type) where
  uaddr : Nat
  tid : T

structure SleepingThread (T : Type) where
  tid : T
  wakeupTime : Nat

/-- Where a thread is in `sc_futex_wait`: before `sleep`, with the clock read, in `sched_block`, back from it, about to block
once more, and back from `sleep`. -/
inductive Pc where
  | out
  | pushed (timeout : Nat)
  | timed (wakeupTime : Nat)
  | blocked (wakeupTime : Nat)
  | awake (wakeupTime : Nat)
  | again (wakeupTime : Nat)
  | slept (res : Nat)
  deriving DecidableEq

structure Ended (T : Type) where
  tid : T
  byWake : Bool
  value : Int

/-- `main` is the thread with tid 1, the only one that signals interrupt. `removed` and `ended` record what happened. -/
structure World (T : Type) where
  cpu : Cpu T
  main : T
  clock : Nat
  memory : Nat -> Nat
  futexWaiters : List (FutexWaiter T)
  sleepingThreads : List (SleepingThread T)
  futexSignaled : T -> Bool
  shouldExit : T -> Bool
  sigPending : Bool
  pc : T -> Pc
  removed : T -> Bool
  ended : List (Ended T)

variable {T : Type} [DecidableEq T] {w w' : World T} {t : T}

def World.go (w : World T) (p : Pc) : World T := { w with pc := update w.pc w.cpu.current p }

def World.leave (w : World T) (value : Int) : World T :=
  { w.go .out with
    removed := update w.removed w.cpu.current false
    ended := w.ended ++ [{ tid := w.cpu.current, byWake := w.removed w.cpu.current, value }] }

def insertPosition (wakeupTime : Nat) : List (SleepingThread T) -> Nat
  | [] => 0
  | s :: rest => if wakeupTime < s.wakeupTime then 0 else insertPosition wakeupTime rest + 1

def registerSleepingThread (w : World T) (tid : T) (wakeupTime : Nat) : World T :=
  { w with
    sleepingThreads := w.sleepingThreads.insertIdx (insertPosition wakeupTime w.sleepingThreads) { tid, wakeupTime } }

def wakeupThreads (w : World T) : World T :=
  let due := w.sleepingThreads.takeWhile fun s => s.wakeupTime < w.clock
  { w with cpu := w.cpu.unblockAll (due.map SleepingThread.tid), sleepingThreads := w.sleepingThreads.drop due.length }

def findSleeping (tid : T) : List (SleepingThread T) -> Nat -> Option Nat -> Option Nat
  | [], _, found => found
  | s :: rest, i, found => findSleeping tid rest (i + 1) (if s.tid = tid then some i else found)

/-- `sleep_cancel`, `none` where it returns -1. -/
def sleepCancel (w : World T) (tid : T) : Option (World T) :=
  match findSleeping tid w.sleepingThreads 0 none with
  | none => none
  | some i => some { w with sleepingThreads := w.sleepingThreads.eraseIdx i, cpu := w.cpu.schedUnblock tid }

-- The element that `futex_drop_waiter` puts at `i` is not looked at.
def dropFrom (tid : T) : Nat -> Nat -> List (FutexWaiter T) -> List (FutexWaiter T)
  | 0, _, waiters => waiters
  | fuel + 1, i, waiters =>
    match waiters[i]? with
    | none => waiters
    | some e => dropFrom tid fuel (i + 1) (if e.tid = tid then swapRemove waiters i else waiters)

def processFutexDropWaiter (waiters : List (FutexWaiter T)) (tid : T) : List (FutexWaiter T) :=
  dropFrom tid waiters.length 0 waiters

-- `assert(j < max_pop)` never fires: a waiter is taken only while both counts are left.
def takeFrom (uaddr : Nat) : Nat -> Nat -> Nat -> List (FutexWaiter T) -> List T -> List T × List (FutexWaiter T)
  | 0, _, _, waiters, taken => (taken, waiters)
  | fuel + 1, i, num, waiters, taken =>
    if num = 0 then (taken, waiters)
    else
      match waiters[i]? with
      | none => (taken, waiters)
      | some e =>
        if e.uaddr = uaddr then takeFrom uaddr fuel i (num - 1) (swapRemove waiters i) (taken ++ [e.tid])
        else takeFrom uaddr fuel (i + 1) num waiters taken

def wakeLimit (waiters : List (FutexWaiter T)) (num : Int) : Nat :=
  if num < 0 then waiters.length else num.toNat

def cancelAll : List T -> World T -> Except Fault (World T)
  | [], w => .ok w
  | tid :: rest, w =>
    match sleepCancel w tid with
    | none => .error .notSleeping
    | some w => cancelAll rest w

def processFutexWake (w : World T) (uaddr : Nat) (num : Int) : Except Fault (World T) :=
  let (taken, waiters) := takeFrom uaddr w.futexWaiters.length 0 (wakeLimit w.futexWaiters num) w.futexWaiters []
  cancelAll taken
    { w with
      futexWaiters := waiters
      futexSignaled := fun t => if t ∈ taken then true else w.futexSignaled t
      removed := fun t => if t ∈ taken then true else w.removed t }

def scFutexWait (w : World T) (mapped : Bool) (addr value timeout : Nat) : World T :=
  if !mapped then w.leave (-1)
  else if w.memory addr = value then
    World.go { w with futexWaiters := w.futexWaiters ++ [{ uaddr := addr, tid := w.cpu.current }] } (.pushed timeout)
  else w.leave (-1)

def blockResult (w : World T) : World T × Nat :=
  let t := w.cpu.current
  if w.futexSignaled t || w.shouldExit t then ({ w with futexSignaled := update w.futexSignaled t false }, 2)
  else if t = w.main ∧ w.sigPending then (w, 1)
  else (w, 0)

-- Whatever interrupted the block, `sleep` returns 1.
def sleepBack (w : World T) (wakeupTime : Nat) : World T :=
  let (w, interrupted) := blockResult w
  if interrupted ≠ 0 then w.go (.slept 1) else w.go (.awake wakeupTime)

def endWait (w : World T) (res : Nat) : World T :=
  if res = 1 then
    { w with futexWaiters := processFutexDropWaiter w.futexWaiters w.cpu.current }.leave (-1)
  else if res = 2 then w.leave 0
  else { w with futexWaiters := processFutexDropWaiter w.futexWaiters w.cpu.current }.leave (-1)

def interruptSleep (w : World T) (tid : T) : World T :=
  let w := (sleepCancel w tid).getD w
  { w with cpu := w.cpu.schedUnblock tid }

inductive Action (T : Type) where
  | wait (mapped : Bool) (addr value timeout : Nat)
  | wake (uaddr : Nat) (num : Int)
  | readClock
  | sleep (next : T)
  | wakeup
  | checkClock
  | sleepAgain (next : T)
  | endWait
  | blockElsewhere (next : T)
  | store (addr value : Nat)
  | interrupt (next : T)
  | timer (clock : Nat)
  | signal
  | delivered
  | kill (t : T)
  | unblock (t : T)

def switch (w : World T) : Option (Cpu T) -> Except Fault (World T)
  | none => .error .idle
  | some cpu => .ok { w with cpu }

def perform (w : World T) (action : Action T) : Except Fault (World T) :=
  match w.pc w.cpu.current, action with
  | .out, .wait mapped addr value timeout => .ok (scFutexWait w mapped addr value timeout)
  | .out, .wake uaddr num => processFutexWake w uaddr num
  | .out, .blockElsewhere next => switch w (w.cpu.schedBlock next)
  | .pushed timeout, .readClock =>
    .ok (w.go (.timed ((w.clock + timeout % 2 ^ 32 * 1000 * 1000) % 2 ^ 64)))
  | .timed wakeupTime, .sleep next =>
    switch ((registerSleepingThread w w.cpu.current wakeupTime).go (.blocked wakeupTime)) (w.cpu.schedBlock next)
  | .blocked wakeupTime, .wakeup => .ok (sleepBack w wakeupTime)
  | .awake wakeupTime, .checkClock =>
    .ok (w.go (if w.clock < wakeupTime then .again wakeupTime else .slept 0))
  | .again wakeupTime, .sleepAgain next => switch (w.go (.blocked wakeupTime)) (w.cpu.schedBlock next)
  | .slept res, .endWait => .ok (endWait w res)
  | _, .store addr value => .ok { w with memory := update w.memory addr value }
  | _, .interrupt next => switch w (w.cpu.interrupt next)
  | _, .timer clock => if w.clock ≤ clock then .ok (wakeupThreads { w with clock }) else .error .idle
  | _, .signal => .ok (interruptSleep { w with sigPending := true } w.main)
  | _, .delivered => .ok { w with sigPending := false }
  | _, .kill t => .ok (interruptSleep { w with shouldExit := update w.shouldExit t true } t)
  | _, .unblock t => .ok { w with cpu := w.cpu.schedUnblock t }
  | _, _ => .error .idle

def fresh (cpu : Cpu T) (main : T) (clock : Nat) (memory : Nat -> Nat)
    (sleepingThreads : List (SleepingThread T)) : World T :=
  { cpu, main, clock, memory, sleepingThreads
    futexWaiters := []
    futexSignaled := fun _ => false
    shouldExit := fun _ => false
    sigPending := false
    pc := fun _ => .out
    removed := fun _ => false
    ended := [] }

def Step (w w' : World T) : Prop := ∃ action, perform w action = .ok w'

def Idle (w : World T) : Action T -> Prop
  | .wake uaddr num => num = 0 ∨ ∀ e ∈ w.futexWaiters, e.uaddr ≠ uaddr
  | _ => True

def IdleStep (w w' : World T) : Prop := ∃ action, Idle w action ∧ perform w action = .ok w'

/-- A wait that a wake ended returns 0 and one that ended otherwise -1; who is not waiting has no entry, and who was woken is
not blocked. -/
structure Protocol (w : World T) : Prop where
  woken : ∀ e ∈ w.ended, e.byWake = true -> e.value = 0
  interrupted : ∀ e ∈ w.ended, e.byWake = false -> e.value = -1
  dropped : ∀ t, w.pc t = .out -> ∀ e ∈ w.futexWaiters, e.tid ≠ t
  resumes : ∀ t, w.removed t = true -> ¬ w.cpu.Blocked t

variable {tid : T} {fuel i : Nat} {waiters : List (FutexWaiter T)}

theorem dropFrom_absent (absent : ∀ e ∈ waiters, e.tid ≠ tid) : dropFrom tid fuel i waiters = waiters := by
  induction fuel generalizing i with
  | zero => rfl
  | succ fuel ih =>
    unfold dropFrom
    split
    case h_1 => rfl
    case h_2 e found =>
      rw [if_neg (absent e (mem_of_getElem? found))]
      exact ih

omit [DecidableEq T] in
theorem passed_succ {passes : FutexWaiter T -> Prop} {e : FutexWaiter T} (found : waiters[i]? = some e)
    (before : ∀ e ∈ waiters.take i, passes e) (here : passes e) : ∀ e ∈ waiters.take (i + 1), passes e := by
  rw [take_add_one, found]
  exact forall_mem_concat before here

theorem dropFrom_drops (once : (waiters.map FutexWaiter.tid).Nodup)
    (passed : ∀ e ∈ waiters.take i, e.tid ≠ tid) (enough : waiters.length ≤ i + fuel) :
    ((dropFrom tid fuel i waiters).map FutexWaiter.tid).Nodup ∧
      ∀ e ∈ dropFrom tid fuel i waiters, e ∈ waiters ∧ e.tid ≠ tid := by
  induction fuel generalizing i with
  | zero =>
    rw [take_of_length_le (show waiters.length ≤ i from enough)] at passed
    exact ⟨once, fun e member => ⟨member, passed e member⟩⟩
  | succ fuel ih =>
    unfold dropFrom
    split
    case h_1 missing =>
      rw [take_of_length_le (getElem?_eq_none_iff.mp missing)] at passed
      exact ⟨once, fun e member => ⟨member, passed e member⟩⟩
    case h_2 e found =>
      by_cases same : e.tid = tid
      · obtain ⟨kept, others⟩ := Tables.nodup_swapRemove FutexWaiter.tid found once
        rw [if_pos same, dropFrom_absent (same ▸ others)]
        exact ⟨kept, fun z member => ⟨Tables.mem_of_swapRemove found member, same ▸ others z member⟩⟩
      · rw [if_neg same]
        exact ih (passed_succ found passed same) (by omega)

theorem processFutexDropWaiter_drops (once : (waiters.map FutexWaiter.tid).Nodup) (tid : T) :
    ((processFutexDropWaiter waiters tid).map FutexWaiter.tid).Nodup ∧
      ∀ e ∈ processFutexDropWaiter waiters tid, e ∈ waiters ∧ e.tid ≠ tid :=
  dropFrom_drops once nofun (by omega)

variable {uaddr num : Nat}

section

omit [DecidableEq T]

theorem countP_passed (passed : ∀ e ∈ waiters.take i, e.uaddr ≠ uaddr)
    (short : waiters.length ≤ i) : waiters.countP (·.uaddr = uaddr) = 0 := by
  rw [take_of_length_le short] at passed
  exact countP_eq_zero.mpr fun e member => by simpa using passed e member

theorem takeFrom_takes (num : Nat) (taken : List T) (passed : ∀ e ∈ waiters.take i, e.uaddr ≠ uaddr)
    (enough : waiters.length ≤ i + fuel) :
    ∃ gone, (takeFrom uaddr fuel i num waiters taken).1 = taken ++ gone.map FutexWaiter.tid ∧
      waiters ~ gone ++ (takeFrom uaddr fuel i num waiters taken).2 ∧ (∀ e ∈ gone, e.uaddr = uaddr) ∧
      gone.length = min num (waiters.countP (·.uaddr = uaddr)) := by
  induction fuel generalizing i num waiters taken with
  | zero => exact ⟨[], by simp [takeFrom], .refl _, nofun, by simp [countP_passed passed enough]⟩
  | succ fuel ih =>
    unfold takeFrom
    split
    case isTrue zero => exact ⟨[], by simp, .refl _, nofun, by simp [zero]⟩
    case isFalse more =>
      split
      case h_1 missing =>
        have none := countP_passed passed (getElem?_eq_none_iff.mp missing)
        exact ⟨[], by simp, .refl _, nofun, by simp [none]⟩
      case h_2 e found =>
        split
        case isTrue here =>
          have perm := Tables.swapRemove_perm found
          have fewer := perm.length_eq
          rw [length_cons] at fewer
          -- the element that is moved to `i` is looked at next
          obtain ⟨gone, tids, rest, all, count⟩ := ih (num - 1) (taken ++ [e.tid])
            (Tables.take_swapRemove found ▸ passed) (by omega)
          refine ⟨e :: gone, by simp [tids], perm.trans (rest.cons e), forall_mem_cons.mpr ⟨here, all⟩, ?_⟩
          rw [length_cons, count, perm.countP_eq, countP_cons_of_pos (by simpa using here)]
          omega
        case isFalse other => exact ih num taken (passed_succ found passed other) (by omega)

theorem takeFrom_selects (waiters : List (FutexWaiter T)) (uaddr : Nat) (num : Int) :
    ∃ gone kept, takeFrom uaddr waiters.length 0 (wakeLimit waiters num) waiters [] = (gone.map FutexWaiter.tid, kept) ∧
      waiters ~ gone ++ kept ∧ (∀ e ∈ gone, e.uaddr = uaddr) ∧
      gone.length = if num < 0 then waiters.countP (·.uaddr = uaddr) else min num.toNat
        (waiters.countP (·.uaddr = uaddr)) := by
  have passed : ∀ e ∈ waiters.take 0, e.uaddr ≠ uaddr := by simp
  obtain ⟨gone, tids, perm, all, count⟩ :=
    takeFrom_takes (wakeLimit waiters num) [] passed (show waiters.length ≤ 0 + waiters.length by omega)
  refine ⟨gone, _, Prod.ext tids rfl, perm, all, ?_⟩
  have most : waiters.countP (·.uaddr = uaddr) ≤ waiters.length := countP_le_length
  rw [count, wakeLimit]
  split
  · exact min_eq_right most
  · rfl

theorem takeFrom_none {taken : List T}
    (nobody : num = 0 ∨ ∀ e ∈ waiters, e.uaddr ≠ uaddr) : takeFrom uaddr fuel i num waiters taken = (taken, waiters) := by
  induction fuel generalizing i with
  | zero => rfl
  | succ fuel ih =>
    unfold takeFrom
    split
    case isTrue => rfl
    case isFalse more =>
      split
      case h_1 => rfl
      case h_2 e found =>
        have nobody' := nobody.resolve_left more
        rw [if_neg (nobody' e (mem_of_getElem? found))]
        exact ih

end

theorem processFutexWake_idle {num : Int} (idle : num = 0 ∨ ∀ e ∈ w.futexWaiters, e.uaddr ≠ uaddr) :
    processFutexWake w uaddr num = .ok w := by
  have nobody : wakeLimit w.futexWaiters num = 0 ∨ ∀ e ∈ w.futexWaiters, e.uaddr ≠ uaddr :=
    idle.imp_left fun zero => by simp [wakeLimit, zero]
  simp [processFutexWake, takeFrom_none nobody, cancelAll]

theorem findSleeping_finds (tid : T) (sleeping : List (SleepingThread T)) (k : Nat) (found : Option Nat) :
    findSleeping tid sleeping k found = found ∧ (∀ s ∈ sleeping, s.tid ≠ tid) ∨
      ∃ j s, findSleeping tid sleeping k found = some (k + j) ∧ sleeping[j]? = some s ∧ s.tid = tid := by
  induction sleeping generalizing k found with
  | nil => exact .inl ⟨rfl, nofun⟩
  | cons s rest ih =>
    rw [findSleeping]
    rcases ih (k + 1) (if s.tid = tid then some k else found) with ⟨same, nobody⟩ | ⟨j, s', same, there, isTid⟩
    · by_cases here : s.tid = tid
      · exact .inr ⟨0, s, by rw [same, if_pos here, Nat.add_zero], rfl, here⟩
      · exact .inl ⟨by rw [same, if_neg here], forall_mem_cons.mpr ⟨here, nobody⟩⟩
    · exact .inr ⟨j + 1, s', by rw [same, Nat.add_assoc, Nat.add_comm 1], there, isTid⟩

def World.asleep (w : World T) : List T := w.sleepingThreads.map SleepingThread.tid

theorem sleepCancel_cancels (asleep : tid ∈ w.asleep) :
    ∃ rest, sleepCancel w tid = some { w with sleepingThreads := rest, cpu := w.cpu.schedUnblock tid } ∧
      rest <+ w.sleepingThreads ∧ w.asleep ~ tid :: rest.map SleepingThread.tid := by
  obtain ⟨s, member, isTid⟩ := mem_map.mp asleep
  rcases findSleeping_finds tid w.sleepingThreads 0 none with ⟨-, nobody⟩ | ⟨j, s', found, there, rfl⟩
  · exact absurd isTid (nobody s member)
  · obtain ⟨bound, rfl⟩ := List.getElem?_eq_some_iff.mp there
    rw [Nat.zero_add] at found
    rw [sleepCancel, found]
    exact ⟨_, rfl, eraseIdx_sublist .., ((getElem_cons_eraseIdx_perm bound).map SleepingThread.tid).symm⟩

theorem cancelAll_cancels {tids : List T} (asleep : tids <+~ w.asleep) :
    ∃ rest, cancelAll tids w = .ok { w with sleepingThreads := rest, cpu := w.cpu.unblockAll tids } ∧
      rest <+ w.sleepingThreads ∧ w.asleep ~ tids ++ rest.map SleepingThread.tid := by
  induction tids generalizing w with
  | nil => exact ⟨_, rfl, .refl _, .refl _⟩
  | cons tid tids ih =>
    obtain ⟨rest, cancels, fewer, perm⟩ := sleepCancel_cancels (asleep.subset mem_cons_self)
    have later : tids <+~ rest.map SleepingThread.tid := (subperm_cons tid).mp (perm.subperm_left.mp asleep)
    obtain ⟨rest', returns, fewer', perm'⟩ :=
      ih (w := { w with sleepingThreads := rest, cpu := w.cpu.schedUnblock tid }) later
    rw [cancelAll, cancels]
    exact ⟨rest', returns, fewer'.trans fewer, perm.trans (perm'.cons tid)⟩

theorem futex_wake_selects (w : World T) (uaddr : Nat) (num : Int) (distinct : (w.futexWaiters.map FutexWaiter.tid).Nodup)
    (asleep : ∀ e ∈ w.futexWaiters, e.tid ∈ w.asleep) :
    ∃ gone w', processFutexWake w uaddr num = .ok w' ∧ w.futexWaiters ~ gone ++ w'.futexWaiters ∧
      (∀ e ∈ gone, e.uaddr = uaddr) ∧
      gone.length = (if num < 0 then w.futexWaiters.countP (·.uaddr = uaddr)
        else min num.toNat (w.futexWaiters.countP (·.uaddr = uaddr))) ∧
      (∀ t, w'.futexSignaled t = true ↔ t ∈ gone.map FutexWaiter.tid ∨ w.futexSignaled t = true) ∧
      w'.sleepingThreads <+ w.sleepingThreads ∧ w.asleep ~ gone.map FutexWaiter.tid ++ w'.asleep ∧
      w'.cpu = w.cpu.unblockAll (gone.map FutexWaiter.tid) := by
  obtain ⟨gone, kept, taken, perm, all, count⟩ := takeFrom_selects w.futexWaiters uaddr num
  have nodup := (perm.map FutexWaiter.tid).nodup_iff.mp distinct
  rw [map_append] at nodup
  have sleeping : gone.map FutexWaiter.tid ⊆ w.asleep := by
    intro t member
    obtain ⟨e, inside, rfl⟩ := mem_map.mp member
    exact asleep e (perm.mem_iff.mpr (mem_append_left _ inside))
  let woken : World T :=
    { w with
      futexWaiters := kept
      futexSignaled := fun t => if t ∈ gone.map FutexWaiter.tid then true else w.futexSignaled t
      removed := fun t => if t ∈ gone.map FutexWaiter.tid then true else w.removed t }
  obtain ⟨rest, returns, fewer, cancelled⟩ := cancelAll_cancels (w := woken) (nodup.of_append_left.subperm sleeping)
  refine ⟨gone, { woken with sleepingThreads := rest, cpu := _ }, ?_, perm, all, count, fun t => ?_, fewer, cancelled, rfl⟩
  · rw [processFutexWake, taken]
    exact returns
  · simp [woken]

def twoThreads : Cpu Bool :=
  { state := fun t => if t then .running else .ready, shouldBlock := fun _ => false, current := true }

def bothWait : World Bool :=
  { fresh twoThreads true 0 (fun _ => 5) [⟨false, 9⟩, ⟨true, 9⟩] with futexWaiters := [⟨0, true⟩, ⟨0, false⟩] }

theorem futex_wake_selects_bothWait :
    ∃ gone w', processFutexWake bothWait 0 1 = .ok w' ∧ gone.length = 1 ∧ bothWait.asleep ~ gone ++ w'.asleep := by
  obtain ⟨gone, w', returns, -, -, count, -, -, cancelled, -⟩ := futex_wake_selects bothWait 0 1 (by decide) (by decide)
  exact ⟨gone.map FutexWaiter.tid, w', returns, by rw [length_map, count]; decide, cancelled⟩

def World.book (w : World T) : List (FutexWaiter T) × List (Ended T) × (T -> Bool) × (T -> Pc) :=
  (w.futexWaiters, w.ended, w.removed, w.pc)

theorem sleepCancel_book (cancels : sleepCancel w tid = some w') : w'.book = w.book := by
  unfold sleepCancel at cancels
  split at cancels <;> cases cancels
  rfl

theorem interruptSleep_book (w : World T) (tid : T) : (interruptSleep w tid).book = w.book := by
  have cancelled : ((sleepCancel w tid).getD w).book = w.book := by
    cases cancels : sleepCancel w tid with
    | none => rfl
    | some w₁ => exact sleepCancel_book cancels
  exact cancelled

variable {cpu : Option (Cpu T)}

omit [DecidableEq T] in
theorem switch_book (returns : switch w cpu = .ok w') : w'.book = w.book := by
  cases cpu <;> cases returns
  rfl

theorem sleepBack_book (w : World T) (wakeupTime : Nat) :
    (sleepBack w wakeupTime).book = (w.go (.slept 1)).book ∨
      (sleepBack w wakeupTime).book = (w.go (.awake wakeupTime)).book := by
  unfold sleepBack blockResult
  by_cases woken : (w.futexSignaled w.cpu.current || w.shouldExit w.cpu.current) = true
  · simp only [woken, if_true]
    exact .inl rfl
  by_cases signal : w.cpu.current = w.main ∧ w.sigPending = true
  · simp only [if_neg woken, if_pos signal]
    exact .inl rfl
  · simp only [if_neg woken, if_neg signal]
    exact .inr rfl

inductive Change (w w' : World T) : Prop where
  | kept (same : w'.book = w.book)
  | moved (p : Pc) (inside : w.pc w.cpu.current ≠ .out) (stays : p ≠ .out)
      (result : ∀ res, p = .slept res -> res ≤ 1) (same : w'.book = (w.go p).book)
  | pushed (addr timeout : Nat) (outside : w.pc w.cpu.current = .out)
      (same : w'.book =
        (World.go { w with futexWaiters := w.futexWaiters ++ [{ uaddr := addr, tid := w.cpu.current }] }
          (.pushed timeout)).book)
  | refused (outside : w.pc w.cpu.current = .out) (same : w'.book = (w.leave (-1)).book)
  | ended (same : w'.book =
      (World.leave { w with futexWaiters := processFutexDropWaiter w.futexWaiters w.cpu.current } (-1)).book)

variable {action : Action T}

theorem perform_changes (results : ∀ t res, w.pc t = .slept res -> res ≤ 1) (idle : Idle w action)
    (returns : perform w action = .ok w') : Change w w' := by
  unfold perform at returns
  split at returns
  case h_1 mapped addr value timeout outside =>
    cases returns
    unfold scFutexWait
    split_ifs
    · exact .refused outside rfl
    · exact .pushed addr timeout outside rfl
    · exact .refused outside rfl
  case h_2 =>
    rw [processFutexWake_idle idle] at returns
    cases returns
    exact .kept rfl
  case h_3 => exact .kept (switch_book returns)
  case h_4 inside =>
    cases returns
    exact .moved (.timed _) (by simp [inside]) nofun nofun rfl
  case h_5 wakeupTime next inside =>
    have same := switch_book returns
    exact .moved (.blocked wakeupTime) (by simp [inside]) nofun nofun same
  case h_6 wakeupTime inside =>
    cases returns
    obtain same | same := sleepBack_book w wakeupTime
    · exact .moved (.slept 1) (by simp [inside]) nofun (fun _ is => by cases is; rfl) same
    · exact .moved (.awake wakeupTime) (by simp [inside]) nofun nofun same
  case h_7 inside =>
    cases returns
    refine .moved _ (by simp [inside]) ?_ ?_ rfl <;> split_ifs <;> simp
  case h_8 inside => exact .moved (.blocked _) (by simp [inside]) nofun nofun (switch_book returns)
  case h_9 res inside =>
    cases returns
    have small := results _ _ inside
    unfold endWait
    split_ifs
    · exact .ended rfl
    · omega
    · exact .ended rfl
  case h_10 =>
    cases returns
    exact .kept rfl
  case h_11 => exact .kept (switch_book returns)
  case h_12 =>
    split_ifs at returns
    cases returns
    exact .kept rfl
  case h_13 =>
    cases returns
    exact .kept (interruptSleep_book _ _)
  case h_14 =>
    cases returns
    exact .kept rfl
  case h_15 =>
    cases returns
    exact .kept (interruptSleep_book _ _)
  case h_16 =>
    cases returns
    exact .kept rfl
  case h_17 => cases returns

structure Registered (w : World T) : Prop where
  once : (w.futexWaiters.map FutexWaiter.tid).Nodup
  inside : ∀ e ∈ w.futexWaiters, w.pc e.tid ≠ .out
  results : ∀ t res, w.pc t = .slept res -> res ≤ 1
  failed : ∀ e ∈ w.ended, e.value = -1

section

variable (registered : Registered w)
include registered

omit [DecidableEq T] in
theorem Registered.of_book (same : w'.book = w.book) : Registered w' := by
  cases w
  cases w'
  cases same
  exact { registered with }

theorem Registered.go {p : Pc} (stays : p ≠ .out) (result : ∀ res, p = .slept res -> res ≤ 1) : Registered (w.go p) := by
  refine ⟨registered.once, fun e member => ?_, fun t res => ?_, registered.failed⟩
  · by_cases moved : e.tid = w.cpu.current
    · simpa [World.go, moved] using stays
    · simpa [World.go, moved] using registered.inside e member
  · by_cases moved : t = w.cpu.current
    · subst moved
      simpa [World.go] using result res
    · simpa [World.go, moved] using registered.results t res

theorem Registered.push (outside : w.pc w.cpu.current = .out) (addr timeout : Nat) :
    Registered (World.go { w with futexWaiters := w.futexWaiters ++ [{ uaddr := addr, tid := w.cpu.current }] }
      (.pushed timeout)) := by
  -- a thread outside has no entry yet
  have new : ∀ e ∈ w.futexWaiters, e.tid ≠ w.cpu.current := fun e member same =>
    registered.inside e member (same ▸ outside)
  refine ⟨registered.once.map_concat new, forall_mem_concat (fun e old => ?_) ?_,
    (registered.go (p := .pushed timeout) nofun nofun).results, registered.failed⟩
  · simpa [World.go, new e old] using registered.inside e old
  · simp [World.go]

theorem Registered.leave (absent : ∀ e ∈ w.futexWaiters, e.tid ≠ w.cpu.current) : Registered (w.leave (-1)) := by
  refine ⟨registered.once, fun e member => ?_, fun t res => ?_, forall_mem_concat registered.failed rfl⟩
  · simpa [World.leave, World.go, absent e member] using registered.inside e member
  · by_cases moved : t = w.cpu.current
    · simp [World.leave, World.go, moved]
    · simpa [World.leave, World.go, moved] using registered.results t res

omit [DecidableEq T] in
theorem Registered.drop (once : (waiters.map FutexWaiter.tid).Nodup)
    (members : ∀ e ∈ waiters, e ∈ w.futexWaiters) : Registered { w with futexWaiters := waiters } :=
  ⟨once, fun e member => registered.inside e (members e member), registered.results, registered.failed⟩

end

theorem Change.registered (change : Change w w') (registered : Registered w) : Registered w' := by
  cases change with
  | kept same => exact registered.of_book same
  | moved p inside stays result same => exact (registered.go stays result).of_book same
  | pushed addr timeout outside same => exact (registered.push outside addr timeout).of_book same
  | refused outside same =>
    exact (registered.leave fun e member tid => registered.inside e member (tid ▸ outside)).of_book same
  | ended same =>
    obtain ⟨once, members⟩ := processFutexDropWaiter_drops registered.once w.cpu.current
    have dropped : Registered { w with futexWaiters := processFutexDropWaiter w.futexWaiters w.cpu.current } :=
      registered.drop once fun e member => (members e member).1
    exact (dropped.leave fun e member => (members e member).2).of_book same

structure Unwoken (w : World T) : Prop where
  removed : ∀ t, w.removed t = false
  ended : ∀ e ∈ w.ended, e.byWake = false

omit [DecidableEq T] in
theorem Unwoken.of_book (unwoken : Unwoken w) (same : w'.book = w.book) : Unwoken w' := by
  cases w
  cases w'
  cases same
  exact ⟨unwoken.removed, unwoken.ended⟩

theorem Unwoken.leave (unwoken : Unwoken w) (value : Int) : Unwoken (w.leave value) := by
  refine ⟨fun t => ?_, forall_mem_concat unwoken.ended (unwoken.removed _)⟩
  by_cases left : t = w.cpu.current
  · simp [World.leave, left]
  · simpa [World.leave, World.go, left] using unwoken.removed t

theorem Change.unwoken (change : Change w w') (unwoken : Unwoken w) : Unwoken w' := by
  cases change with
  | kept same => exact unwoken.of_book same
  | moved p inside stays result same => exact Unwoken.of_book (w := w.go p) ⟨unwoken.1, unwoken.2⟩ same
  | pushed addr timeout outside same =>
    exact Unwoken.of_book (w := World.go { w with futexWaiters := _ } _) ⟨unwoken.1, unwoken.2⟩ same
  | refused outside same => exact (unwoken.leave _).of_book same
  | ended same =>
    have dropped : Unwoken { w with futexWaiters := processFutexDropWaiter w.futexWaiters w.cpu.current } :=
      ⟨unwoken.1, unwoken.2⟩
    exact (dropped.leave _).of_book same

omit [DecidableEq T] in
theorem switch_asserts : switch w cpu ≠ .error .notSleeping := by
  cases cpu <;> nofun

theorem perform_asserts (idle : Idle w action) : perform w action ≠ .error .notSleeping := by
  intro fails
  unfold perform at fails
  split at fails
  case h_2 =>
    rw [processFutexWake_idle idle] at fails
    cases fails
  case h_3 | h_5 | h_8 | h_11 => exact switch_asserts fails
  case h_12 => split_ifs at fails; cases fails
  all_goals cases fails

theorem idle_wakes_keep_protocol {cpu : Cpu T} {main : T} {clock : Nat} {memory : Nat -> Nat}
    {sleepingThreads : List (SleepingThread T)}
    (run : Relation.ReflTransGen IdleStep (fresh cpu main clock memory sleepingThreads) w) :
    Protocol w ∧ ∀ action, Idle w action -> perform w action ≠ .error .notSleeping := by
  obtain ⟨registered, unwoken⟩ : Registered w ∧ Unwoken w := by
    refine run.invariant (fun w => Registered w ∧ Unwoken w) ⟨?_, ?_⟩ ?_
    · exact ⟨nodup_nil, nofun, nofun, nofun⟩
    · exact ⟨fun _ => rfl, nofun⟩
    · rintro w₁ w₂ ⟨registered, unwoken⟩ ⟨action, idle, returns⟩
      have change := perform_changes registered.results idle returns
      exact ⟨change.registered registered, change.unwoken unwoken⟩
  refine ⟨⟨fun e member woken => ?_, fun e member _ => registered.failed e member, fun t outside e member same => ?_,
    fun t removed => ?_⟩, fun action idle => perform_asserts idle⟩
  · rw [unwoken.ended e member] at woken
    cases woken
  · exact registered.inside e member (same ▸ outside)
  · rw [unwoken.removed t] at removed
    cases removed

def waiting : World Bool := fresh twoThreads true 0 (fun _ => 5) []

-- `true` waits for 10 ms; the wake of `false` is for another address.
theorem idle_wakes_keep_protocol_timeout :
    ∃ w, Relation.ReflTransGen IdleStep waiting w ∧ w.ended = [⟨true, false, -1⟩] ∧ w.futexWaiters = [] ∧ Protocol w := by
  have run := Relation.ReflTransGen.refl (r := IdleStep) (a := waiting)
    |>.tail ⟨.wait true 0 5 10, trivial, rfl⟩
    |>.tail ⟨.readClock, trivial, rfl⟩
    |>.tail ⟨.sleep false, trivial, rfl⟩
    |>.tail ⟨.wake 4 1, .inr (by rintro e (_ | ⟨_, ⟨⟩⟩); decide), rfl⟩
    |>.tail ⟨.timer 20000000, trivial, rfl⟩
    |>.tail ⟨.interrupt true, trivial, rfl⟩
    |>.tail ⟨.wakeup, trivial, rfl⟩
    |>.tail ⟨.checkClock, trivial, rfl⟩
    |>.tail ⟨.endWait, trivial, rfl⟩
  exact ⟨_, run, rfl, rfl, (idle_wakes_keep_protocol run).1⟩

theorem wake_breaks_protocol :
    (∃ w, Relation.ReflTransGen Step waiting w ∧ w.ended = [⟨true, true, -1⟩]) ∧
      ∃ w, Relation.ReflTransGen Step waiting w ∧ perform w (.wake 0 1) = .error .notSleeping := by
  constructor
  · have run : Relation.ReflTransGen Step _ _ := .of_foldlM (fun _ action _ returns => ⟨action, returns⟩)
      (rfl : [.wait true 0 5 10, .readClock, .sleep false, .wake 0 1, .interrupt true, .wakeup, .endWait].foldlM
        perform waiting = .ok _)
    exact ⟨_, run, rfl⟩
  · have run : Relation.ReflTransGen Step _ _ := .of_foldlM (fun _ action _ returns => ⟨action, returns⟩)
      (rfl : [.wait true 0 5 10, .interrupt false].foldlM perform waiting = .ok _)
    exact ⟨_, run, rfl⟩

end Bincows.Syscalls.Futexes
