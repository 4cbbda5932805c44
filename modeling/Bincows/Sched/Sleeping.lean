import Bincows.Sched.Blocking
import Bincows.Shared.Histories
import Mathlib.Data.List.TakeWhile

set_option autoImplicit false

/-! `sleep` registers the thread once and then blocks until its time has come or `sched_block` reports an interruption.
`sleep_cancel` removes the entry and unblocks the thread. -/

namespace Bincows.Sched.Sleeping

open Histories Function List

structure ThreadId where
  pid : Nat
  tid : Nat
  deriving DecidableEq

def idle : ThreadId := { pid := 0, tid := 1 }

def mainThread (pid : Nat) : ThreadId := { pid, tid := 1 }

structure SleepingThread where
  thread : ThreadId
  wakeupTime : Nat
  deriving DecidableEq

inductive Pc where
  | out
  | starting (wakeupTime : Nat)
  | blocked (wakeupTime : Nat)
  -- `sched_block` has returned 0
  | woken (wakeupTime : Nat)
  -- the clock is still before the wakeup time
  | again (wakeupTime : Nat)
  deriving DecidableEq

structure World where
  cpu : Cpu ThreadId
  clock : Nat
  sleeping : List SleepingThread
  pc : ThreadId -> Pc
  sigPending : Nat -> BitVec 32
  -- `none` for `NOSIG`
  sigCurrent : Nat -> Option Nat
  ignMask : Nat -> BitVec 32
  futexSignaled : ThreadId -> Bool
  shouldExit : ThreadId -> Bool

variable (w : World)

def go (p : Pc) : World := { w with pc := update w.pc w.cpu.current p }

def insertPosition (wakeupTime : Nat) : Nat := w.sleeping.findIdx fun e => wakeupTime < e.wakeupTime

def registerSleepingThread (t : ThreadId) (wakeupTime : Nat) : World :=
  { w with sleeping := w.sleeping.insertIdx (insertPosition w wakeupTime) { thread := t, wakeupTime } }

def wakeupThreads : World :=
  let due := w.sleeping.takeWhile fun e => e.wakeupTime < w.clock
  { w with cpu := w.cpu.unblockAll (due.map SleepingThread.thread), sleeping := w.sleeping.drop due.length }

def cancelled (t : ThreadId) : List SleepingThread :=
  (w.sleeping.reverse.eraseP fun e => e.thread = t).reverse

def sleepCancel (t : ThreadId) : World :=
  if w.sleeping.any fun e => e.thread = t then { w with cpu := w.cpu.schedUnblock t, sleeping := cancelled w t } else w

/-- `sched_block` up to the switch; `p` is where the thread goes on when it is scheduled again. -/
def switch (p : Pc) (next : ThreadId) : World :=
  match w.cpu.schedBlock next with
  | none => w
  | some cpu => { go w p with cpu }

def interruptedBlock (t : ThreadId) : Bool :=
  (t.tid = 1 ∧ w.sigCurrent t.pid = none ∧ w.sigPending t.pid ≠ 0) ∨ w.futexSignaled t ∨ w.shouldExit t

def schedBlockReturns (wakeupTime : Nat) : World :=
  let t := w.cpu.current
  if interruptedBlock w t then
    go { w with futexSignaled := update w.futexSignaled t false } .out
  else go w (.woken wakeupTime)

inductive Step where
  | sleep (ms : BitVec 32)
  | block (next : ThreadId)
  | resume
  | check
  deriving DecidableEq

-- The kernel process does not block, nor sleep in this way. A thread outside of `sleep` may block for other reasons.
def ownStep : Step -> World
  | .sleep ms =>
    match w.pc w.cpu.current with
    | .out =>
      if w.cpu.current.pid = 0 then w else go w (.starting ((w.clock + ms.toNat * 1000 * 1000) % 2 ^ 64))
    | _ => w
  | .block next =>
    match w.pc w.cpu.current with
    | .out => if w.cpu.current.pid = 0 then w else switch w .out next
    | .starting wakeupTime =>
      -- interrupts are disabled from the registration to the switch
      if (w.cpu.schedBlock next).isSome then
        switch (registerSleepingThread w w.cpu.current wakeupTime) (.blocked wakeupTime) next
      else w
    | .again wakeupTime => switch w (.blocked wakeupTime) next
    | _ => w
  | .resume =>
    match w.pc w.cpu.current with
    | .blocked wakeupTime => schedBlockReturns w wakeupTime
    | _ => w
  | .check =>
    match w.pc w.cpu.current with
    | .woken wakeupTime => if w.clock < wakeupTime then go w (.again wakeupTime) else go w .out
    | _ => w

def sigBit (signal : Nat) : BitVec 32 := 1 <<< signal

/-- The first half of `process_trigger_signal`; the second is a `sleep_cancel` and a `sched_unblock` of the main thread. -/
def raise (pid signal : Nat) : World :=
  if w.ignMask pid &&& sigBit signal ≠ 0 then w
  else { w with sigPending := update w.sigPending pid (w.sigPending pid ||| sigBit signal) }

def handleSignal (pid : Nat) : World :=
  match (range 32).find? (w.sigPending pid).getLsbD with
  | none => w
  | some which =>
    if w.sigCurrent pid = none ∧ w.pc (mainThread pid) = .out ∧ w.cpu.state (mainThread pid) ≠ .running then
      let w := { w with
        sigCurrent := update w.sigCurrent pid (some which)
        sigPending := update w.sigPending pid (w.sigPending pid &&& ~~~sigBit which) }
      let w := sleepCancel w (mainThread pid)
      { w with cpu := w.cpu.schedUnblock (mainThread pid) }
    else w

inductive Event where
  | tick
  | interrupt (next : ThreadId)
  | cancel (t : ThreadId)
  | unblock (t : ThreadId)
  | raise (pid signal : Nat)
  | handle (pid : Nat)
  | sigreturn (pid : Nat)
  | futexSignal (t : ThreadId)
  | exit (t : ThreadId)
  deriving DecidableEq

def happen : Event -> World
  | .tick => wakeupThreads w
  | .interrupt next =>
    match w.cpu.interrupt next with
    | none => w
    | some cpu => { w with cpu }
  | .cancel t => sleepCancel w t
  | .unblock t => { w with cpu := w.cpu.schedUnblock t }
  | .raise pid signal => raise w pid signal
  | .handle pid => handleSignal w pid
  | .sigreturn pid => { w with sigCurrent := update w.sigCurrent pid none }
  | .futexSignal t => { w with futexSignaled := update w.futexSignaled t true }
  | .exit t => { w with shouldExit := update w.shouldExit t true }

inductive Action where
  | own (step : Step)
  | event (e : Event)
  | time (now : Nat)
  deriving DecidableEq

/-- A thread comes back from the switch inside `sched_block` with interrupts disabled. -/
def masked : Bool :=
  match w.pc w.cpu.current with
  | .blocked _ => true
  | _ => false

def perform : Action -> World
  | .own step => ownStep w step
  | .event e => if masked w then w else happen w e
  | .time now => if w.clock ≤ now then { w with clock := now } else w

def start (current : ThreadId) (ignMask : Nat -> BitVec 32) : World where
  cpu := { state := fun t => if t = current then .running else .ready, shouldBlock := fun _ => false, current }
  clock := 0
  sleeping := []
  pc := fun _ => .out
  sigPending := fun _ => 0
  sigCurrent := fun _ => none
  ignMask := ignMask
  futexSignaled := fun _ => false
  shouldExit := fun _ => false

def Inside (t : ThreadId) (wakeupTime : Nat) : Prop :=
  w.pc t = .starting wakeupTime ∨ w.pc t = .blocked wakeupTime ∨ w.pc t = .woken wakeupTime ∨ w.pc t = .again wakeupTime

/--
A thread that is blocked inside of `sleep` before its time has an entry, and the first tick behind the time of an entry
unblocks its thread.
-/
structure Registered : Prop where
  entry : ∀ t wakeupTime, Inside w t wakeupTime -> w.cpu.Blocked t -> w.clock < wakeupTime -> ∃ e ∈ w.sleeping, e.thread = t
  wakes : ∀ e ∈ w.sleeping, e.wakeupTime < w.clock -> ¬ (wakeupThreads w).cpu.Blocked e.thread

def Lasting (entries : List SleepingThread) (t : ThreadId) (wakeupTime : Nat) : Prop :=
  ∃ e ∈ entries, e.thread = t ∧ wakeupTime ≤ e.wakeupTime + 1

/--
A `sleep_cancel` for a thread that is before its wakeup time finds the thread inside of `sched_block`, with a flag that
makes it report an interruption, or leaves an entry that lasts until the wakeup time.
-/
def Fine : Action -> Prop
  | .event (.cancel t) => masked w = false -> ∀ wakeupTime, w.clock < wakeupTime ->
      (w.pc t = .blocked wakeupTime -> interruptedBlock w t = true ∨ Lasting (cancelled w t) t wakeupTime) ∧
      (w.pc t = .woken wakeupTime ∨ w.pc t = .again wakeupTime -> Lasting (cancelled w t) t wakeupTime)
  | _ => True

def Sorted (entries : List SleepingThread) : Prop :=
  entries.Pairwise fun a b => a.wakeupTime ≤ b.wakeupTime

variable {w} {w' : World} {t u : ThreadId} {wakeupTime : Nat} {entries : List SleepingThread}
  {e : SleepingThread}

theorem Sorted.insert (sorted : Sorted entries) (new : SleepingThread) :
    Sorted (entries.insertIdx (entries.findIdx fun e => new.wakeupTime < e.wakeupTime) new) := by
  induction entries with
  | nil => exact pairwise_singleton _ _
  | cons head rest ih =>
    obtain ⟨least, sorted⟩ := pairwise_cons.mp sorted
    rw [findIdx_cons]
    by_cases before : new.wakeupTime < head.wakeupTime
    · simp only [before, decide_true, cond_true, insertIdx_zero]
      refine pairwise_cons.mpr ⟨forall_mem_cons.mpr ⟨before.le, fun e later => ?_⟩, pairwise_cons.mpr ⟨least, sorted⟩⟩
      exact before.le.trans (least e later)
    · simp only [before, decide_false, cond_false, insertIdx_succ_cons]
      refine pairwise_cons.mpr ⟨?_, ih sorted⟩
      intro e member
      rcases eq_or_mem_of_mem_insertIdx member with rfl | later
      · exact Nat.le_of_not_lt before
      · exact least e later

theorem mem_registered (t : ThreadId) (wakeupTime : Nat) :
    e ∈ (registerSleepingThread w t wakeupTime).sleeping ↔ e = ⟨t, wakeupTime⟩ ∨ e ∈ w.sleeping :=
  mem_insertIdx findIdx_le_length

theorem cancelled_sublist : (cancelled w t).Sublist w.sleeping := by
  rw [← reverse_sublist, cancelled, reverse_reverse]
  exact eraseP_sublist

theorem mem_cancelled_other (other : e.thread ≠ t) : e ∈ cancelled w t ↔ e ∈ w.sleeping := by
  rw [cancelled, mem_reverse, mem_eraseP_of_neg (by simpa using other), mem_reverse]

-- The entries are sorted, so those behind the first that is not due are not due either.
theorem late_of_dropWhile {now : Nat} (sorted : Sorted entries)
    (member : e ∈ entries.dropWhile fun e => e.wakeupTime < now) : now ≤ e.wakeupTime := by
  induction entries with
  | nil => cases member
  | cons head rest ih =>
    obtain ⟨least, sorted⟩ := pairwise_cons.mp sorted
    by_cases due : head.wakeupTime < now
    · rw [dropWhile_cons_of_pos (by simpa using due)] at member
      exact ih sorted member
    · rw [dropWhile_cons_of_neg (by simpa using due)] at member
      rcases mem_cons.mp member with rfl | later
      · exact Nat.le_of_not_lt due
      · exact (Nat.le_of_not_lt due).trans (least e later)

theorem due_or_late (now : Nat) (member : e ∈ entries) :
    e ∈ entries.takeWhile (fun e => e.wakeupTime < now) ∨ e ∈ entries.dropWhile fun e => e.wakeupTime < now := by
  rw [← mem_append, takeWhile_append_dropWhile]
  exact member

theorem wakeupThreads_sleeping : (wakeupThreads w).sleeping = w.sleeping.dropWhile fun e => e.wakeupTime < w.clock := by
  have split := @takeWhile_append_dropWhile _ (fun e => decide (e.wakeupTime < w.clock)) w.sleeping
  exact (congrArg (drop _) split.symm).trans drop_left

theorem Lasting.tick (lasting : Lasting w.sleeping t wakeupTime) (before : w.clock < wakeupTime) :
    Lasting (wakeupThreads w).sleeping t wakeupTime := by
  obtain ⟨e, member, same, late⟩ := lasting
  refine ⟨e, ?_, same, late⟩
  rw [wakeupThreads_sleeping]
  have notDue : ¬ e.wakeupTime < w.clock := by omega
  rcases due_or_late w.clock member with front | back
  · exact absurd (by simpa using mem_takeWhile_imp front) notDue
  · exact back

inductive ListCall where
  | register (t : ThreadId) (wakeupTime : Nat)
  | wakeup (now : Nat)
  | cancel (t : ThreadId)
  deriving DecidableEq

def listCall (w : World) : ListCall -> World
  | .register t wakeupTime => registerSleepingThread w t wakeupTime
  | .wakeup now => wakeupThreads { w with clock := now }
  | .cancel t => sleepCancel w t

-- What a call does to the list and to the threads.
def Effect (w w' : World) : ListCall -> Prop
  | .register t wakeupTime =>
    w'.cpu = w.cpu ∧ ∃ front back, w.sleeping = front ++ back ∧ w'.sleeping = front ++ ⟨t, wakeupTime⟩ :: back
  | .wakeup now =>
    w'.cpu = w.cpu.unblockAll ((w.sleeping.filter fun e => e.wakeupTime < now).map SleepingThread.thread) ∧
      w'.sleeping = w.sleeping.filter fun e => now ≤ e.wakeupTime
  | .cancel t =>
    ((∀ e ∈ w.sleeping, e.thread ≠ t) ∧ w' = w) ∨
      w'.cpu = w.cpu.schedUnblock t ∧ ∃ front e back, w.sleeping = front ++ e :: back ∧
        e.thread = t ∧ w'.sleeping = front ++ back

theorem cancelled_split (present : ∃ e ∈ w.sleeping, e.thread = t) :
    ∃ front e back, w.sleeping = front ++ e :: back ∧ e.thread = t ∧ cancelled w t = front ++ back := by
  obtain ⟨e, member, same⟩ := present
  -- the loop keeps the last entry of the thread, the first one from the end
  obtain ⟨last, before, after, -, found, split, erased⟩ :=
    exists_of_eraseP (p := fun e => e.thread = t) (mem_reverse.mpr member) (by simpa using same)
  refine ⟨after.reverse, last, before.reverse, ?_, by simpa using found, ?_⟩
  · rw [← reverse_reverse w.sleeping, split]
    simp
  · rw [cancelled, erased, reverse_append]

theorem due_late_filter (now : Nat) (sorted : Sorted entries) :
    (entries.takeWhile fun e => e.wakeupTime < now) = (entries.filter fun e => e.wakeupTime < now) ∧
      (entries.dropWhile fun e => e.wakeupTime < now) = entries.filter fun e => now ≤ e.wakeupTime := by
  have split := takeWhile_append_dropWhile (p := fun e => decide (e.wakeupTime < now)) (l := entries)
  have due : ∀ e ∈ entries.takeWhile (fun e => e.wakeupTime < now), e.wakeupTime < now := by
    intro e member
    simpa using mem_takeWhile_imp member
  have late : ∀ e ∈ entries.dropWhile (fun e => e.wakeupTime < now), now ≤ e.wakeupTime := fun e => late_of_dropWhile sorted
  constructor
  · conv_rhs => rw [← split, filter_append]
    rw [filter_eq_self.mpr (by simpa using due), filter_eq_nil_iff.mpr (by simpa using late), append_nil]
  · conv_rhs => rw [← split, filter_append]
    rw [filter_eq_nil_iff.mpr (by simpa using due), filter_eq_self.mpr (by simpa using late), nil_append]

theorem listCall_effect (sorted : Sorted w.sleeping) (call : ListCall) : Effect w (listCall w call) call := by
  cases call with
  | register t wakeupTime =>
    obtain ⟨front, back, split, -, inserted⟩ :=
      exists_of_modifyTailIdx (cons ⟨t, wakeupTime⟩) (show insertPosition w wakeupTime ≤ _ from findIdx_le_length)
    exact ⟨rfl, front, back, split, inserted⟩
  | wakeup now =>
    obtain ⟨due, late⟩ := due_late_filter now sorted
    rw [Effect, ← due, ← late]
    exact ⟨rfl, wakeupThreads_sleeping⟩
  | cancel t =>
    by_cases present : ∃ e ∈ w.sleeping, e.thread = t
    · have found : (w.sleeping.any fun e => e.thread = t) = true := by simpa using present
      refine .inr ?_
      rw [listCall, sleepCancel, if_pos found]
      exact ⟨rfl, cancelled_split present⟩
    · refine .inl ⟨fun e member same => present ⟨e, member, same⟩, ?_⟩
      rw [listCall, sleepCancel, if_neg (by simpa using present)]

theorem listCall_sorted (sorted : Sorted w.sleeping) (call : ListCall) : Sorted (listCall w call).sleeping := by
  cases call with
  | register t wakeupTime => exact sorted.insert ⟨t, wakeupTime⟩
  | wakeup now => exact List.Pairwise.sublist (drop_sublist _ _) sorted
  | cancel t =>
    rw [listCall, sleepCancel]
    split_ifs
    · exact List.Pairwise.sublist cancelled_sublist sorted
    · exact sorted

theorem sleep_list_calls (w : World) (calls : List ListCall) (call : ListCall) :
    let reached := after listCall { w with sleeping := [] } calls
    Sorted reached.sleeping ∧ Effect reached (listCall reached call) call := by
  have sorted : Sorted (after listCall { w with sleeping := [] } calls).sleeping := by
    induction calls using reverseRecOn with
    | nil => exact .nil
    | append_singleton front last ih =>
      rw [after_concat]
      exact listCall_sorted ih last
  exact ⟨sorted, listCall_effect sorted call⟩

end Bincows.Sched.Sleeping
