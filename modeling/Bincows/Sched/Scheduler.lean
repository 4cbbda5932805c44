import Bincows.Sched.AddressSpace
import Bincows.Shared.Tables

set_option autoImplicit false

/-! `sched.c` with the parts of `process.c`, `thread.c` and `time.c` that it calls. A pointer to a process or a thread is its
index, read again after each call that may change it. Locks, register contexts and stacks are left out: `room` says whether
the kernel stack of the main thread has room for the frame of a signal handler. -/

namespace Bincows.Sched

open Tables (swapRemove)

def maxPid : Nat := 0xffff

def maxTid : Nat := 0xffff

def firstTid : Nat := 1

def sigchld : Fin 32 := 17

inductive ThreadState where
  | ready
  | running
  | blocked
  deriving DecidableEq

structure Thread where
  pid : Nat
  tid : Nat
  state : ThreadState := .blocked
  shouldBlock : Bool := false
  shouldExit : Bool := false
  uninterruptible : Bool := false
  sigWait : Bool := false
  futexSignaled : Bool := false
  deriving DecidableEq

def Thread.id (t : Thread) : Td := ⟨t.pid, t.tid⟩

structure Process where
  pid : Nat
  ppid : Nat
  memMap : MemMap
  threads : List Thread
  ignMask : BitVec 32 := 0xffffffff
  sigPending : BitVec 32 := 0
  -- `none` is `NOSIG`.
  sigCurrent : Option (Fin 32) := none
  -- Whether `sig_return_context` is set.
  sigReturnContext : Bool := false
  deriving DecidableEq

structure SleepingThread where
  pid : Nat
  tid : Nat
  wakeupTime : Nat
  deriving DecidableEq

structure State where
  processes : List Process
  killedProcesses : List Process
  pqueue : PriorityQueue
  nReadyThreads : Int
  currentPid : Nat
  currentTid : Nat
  schedRunning : Bool
  currentlyInIrq : Bool
  sleepingThreads : List SleepingThread
  pml4 : Pml4

def Process.setThread (p : Process) (j : Nat) (t : Thread) : Process :=
  { p with threads := p.threads.set j t }

def State.setProcess (s : State) (i : Nat) (p : Process) : State :=
  { s with processes := s.processes.set i p }

def State.threadCount (s : State) : Nat := (s.processes.map (·.threads.length)).sum

def schedPushReadyThread (s : State) (pid tid : Nat) : Except Fault State :=
  if maxPid < pid then .error (.badPid pid)
  else if maxTid < tid then .error (.badTid tid)
  else do
    let pqueue ← pqueuePush s.pqueue ⟨pid, tid⟩
    return { s with pqueue, nReadyThreads := s.nReadyThreads + 1 }

def popReadyThread (s : State) : Except Fault (State × Td) := do
  let (thread, pqueue) ← pqueuePop s.pqueue
  if maxPid < thread.pid then .error (.badPid thread.pid)
  else if maxTid < thread.tid then .error (.badTid thread.tid)
  else return ({ s with pqueue, nReadyThreads := s.nReadyThreads - 1 }, thread)

-- The search goes on after a match.
def findProcess (pid : Nat) : List Process -> Nat -> Option (Nat × Process) -> Option (Nat × Process)
  | [], _, found => found
  | p :: rest, i, found => findProcess pid rest (i + 1) (if p.pid = pid then some (i, p) else found)

def schedGetProcess (s : State) (pid : Nat) : Option (Nat × Process) :=
  findProcess pid s.processes 0 none

def findThread (tid : Nat) : List Thread -> Nat -> Option (Nat × Thread)
  | [], _ => none
  | t :: rest, j => if t.tid = tid then some (j, t) else findThread tid rest (j + 1)

def schedGetThreadByTid (p : Process) (tid : Nat) : Option (Nat × Thread) :=
  findThread tid p.threads 0

def schedUnblockThread (s : State) (i : Nat) (p : Process) (j : Nat) (t : Thread) : Except Fault State :=
  if t.state ≠ .blocked then .ok s
  else schedPushReadyThread (s.setProcess i (p.setThread j { t with state := .ready })) t.pid t.tid

def schedUnblock (s : State) (pid tid : Nat) : Except Fault State :=
  match schedGetProcess s pid with
  | none => .ok s
  | some (i, p) =>
    match schedGetThreadByTid p tid with
    | none => .ok s
    | some (j, t) => schedUnblockThread s i p j t

def findSleeping (pid tid : Nat) : List SleepingThread -> Nat -> Option Nat -> Option Nat
  | [], _, found => found
  | sti :: rest, i, found =>
    findSleeping pid tid rest (i + 1) (if sti.pid = pid ∧ sti.tid = tid then some i else found)

def sleepCancel (s : State) (pid tid : Nat) : Except Fault (State × Int) :=
  match findSleeping pid tid s.sleepingThreads 0 none with
  | none => .ok (s, -1)
  | some idx => do
    let s ← schedUnblock { s with sleepingThreads := s.sleepingThreads.eraseIdx idx } pid tid
    return (s, 0)

def schedUnblockAll (pid : Nat) : List Nat -> State -> Except Fault State
  | [], s => .ok s
  | tid :: rest, s => do
    let s ← schedUnblock s pid tid
    schedUnblockAll pid rest s

def unblockSigwaitThreads (s : State) (i : Nat) (p : Process) : Except Fault State :=
  let tids := (p.threads.filter (·.sigWait)).map (·.tid)
  let p := { p with threads := p.threads.map fun t => { t with sigWait := false } }
  schedUnblockAll p.pid tids (s.setProcess i p)

def signalBit (signal : Fin 32) : BitVec 32 := 1 <<< signal.val

def processTriggerSignal (s : State) (pid : Nat) (signal : Fin 32) : Except Fault (State × Int) :=
  match schedGetProcess s pid with
  | none => .ok (s, -1)
  | some (i, p) =>
    if p.ignMask &&& signalBit signal ≠ 0 then .ok (s, 0)
    else if p.threads = [] then .error (.noThreads pid)
    else do
      let s ← unblockSigwaitThreads s i { p with sigPending := p.sigPending ||| signalBit signal }
      let (s, _) ← sleepCancel s pid 1
      let s ← schedUnblock s pid 1
      return (s, 0)

def removeProcess (s : State) (pid : Nat) : Except Fault State :=
  match s.processes.findIdx? (·.pid = pid) with
  | none => (processTriggerSignal s 0 sigchld).map Prod.fst
  | some i =>
    match s.processes[i]? with
    | none => .error .outOfBounds
    | some p =>
      if p.threads ≠ [] then .error (.threadsLeft pid)
      else
        let s := { s with
          killedProcesses := s.killedProcesses ++ [p]
          processes := swapRemove s.processes i }
        (processTriggerSignal s p.ppid sigchld).map Prod.fst

-- `__builtin_ffs` less one.
def firstSignal (pending : BitVec 32) : Option (Fin 32) :=
  (List.finRange 32).find? fun signal => pending.getLsbD signal

def wakeMainThread (s : State) (i pid tid : Nat) : Except Fault State := do
  let (s, _) ← sleepCancel s pid tid
  match s.processes[i]? with
  | none => .error .outOfBounds
  | some p =>
    match p.threads with
    | [] => .error (.noThreads pid)
    | thread0 :: _ => if thread0.state = .blocked then schedUnblockThread s i p 0 thread0 else .ok s

def prepareProcessSignal (room : Bool) (s : State) (i : Nat) (p : Process) (signal : Fin 32) : Except Fault State :=
  if p.sigPending &&& signalBit signal = 0 then .error .signalNotPending
  else
    match p.threads with
    | [] => .error (.noThreads p.pid)
    | thread0 :: _ =>
      if thread0.state = .running then .error .mainThreadRunning
      else if p.sigReturnContext then .error .signalContextSet
      else
        let s := s.setProcess i { p with
          sigCurrent := some signal
          sigPending := p.sigPending &&& ~~~ signalBit signal
          sigReturnContext := true }
        if room then wakeMainThread s i p.pid thread0.tid else .ok s

def processHandleSignal (room : Bool) (s : State) (i : Nat) (p : Process) : Except Fault State :=
  match p.threads with
  | [] => .error (.noThreads p.pid)
  | thread0 :: _ =>
    if p.sigPending = 0 then .ok s
    else if p.sigCurrent.isSome then .ok s
    else if thread0.uninterruptible then .ok s
    else
      match firstSignal p.sigPending with
      | none => .error .signalNotPending
      | some which => prepareProcessSignal room s i p which

def processEndOfSignal (s : State) (i : Nat) (p : Process) : Except Fault (State × Int) := do
  let mapped ← isProcessMapped s.pml4 (some p.memMap)
  if !mapped then .error .notMapped
  else if p.sigCurrent = none then .ok (s, -1)
  else if !p.sigReturnContext then .error .signalContextMissing
  else .ok (s.setProcess i { p with sigCurrent := none, sigReturnContext := false }, 0)

structure Selected where
  i : Nat
  p : Process
  j : Nat
  t : Thread
  deriving DecidableEq

def chooseNext (s : State) : Except Fault (State × Selected) := do
  let (s, ids) ← popReadyThread s
  match schedGetProcess s ids.pid with
  | none => .error (.noProcess ids.pid)
  | some (i, p) =>
    match schedGetThreadByTid p ids.tid with
    | none => .error (.noThread ids.pid ids.tid)
    | some (j, t) =>
      if t.state ≠ .ready then .error (.threadNotReady ids.pid ids.tid)
      else return (s, { i, p, j, t })

def checkSelected (sel : Selected) : Except Fault Unit :=
  if sel.t.pid ≠ sel.p.pid then .error (.foreignThread sel.p.pid)
  else if sel.p.threads.length = 0 then .error (.noThreads sel.p.pid)
  else if sel.t.tid = 0 then .error (.badTid sel.t.tid)
  else if sel.t.state ≠ .ready then .error (.threadNotReady sel.t.pid sel.t.tid)
  else .ok ()

-- The exit hooks and the memory it frees are left out.
def threadTerminate (t : Thread) : Except Fault Unit :=
  if t.uninterruptible then .error .threadUninterruptible else .ok ()

def terminateMapped (pml4 : Pml4) (map : MemMap) (t : Thread) : Except Fault Pml4 := do
  let mapped ← isProcessMapped pml4 (some map)
  if mapped then do
    threadTerminate t
    return pml4
  else do
    let pml4 ← processMap pml4 map
    threadTerminate t
    processUnmap pml4

def lazyKill (s : State) (sel : Selected) : Except Fault State := do
  let pml4 ← terminateMapped s.pml4 sel.p.memMap sel.t
  let p := { sel.p with threads := swapRemove sel.p.threads sel.j }
  let s := { s with pml4 }.setProcess sel.i p
  if p.threads.length = 0 then removeProcess s p.pid else .ok s

def selectThread : Nat -> State -> Except Fault (State × Selected)
  | 0, _ => .error .diverges
  | fuel + 1, s => do
    let (s, sel) ← chooseNext s
    checkSelected sel
    if sel.t.shouldExit && !sel.t.uninterruptible then do
      let s ← lazyKill s sel
      selectThread fuel s
    else return (s, sel)

def deliverSignal (room : Bool) (s : State) (sel : Selected) : Except Fault State :=
  match sel.p.threads with
  | [] => .error (.noThreads sel.p.pid)
  | thread0 :: _ =>
    if sel.p.sigPending ≠ 0 ∧ !thread0.uninterruptible ∧ sel.p.sigCurrent = none then
      processHandleSignal room s sel.i sel.p
    else .ok s

def resume (s : State) (i j : Nat) : Except Fault State :=
  match s.processes[i]? with
  | none => .error .outOfBounds
  | some p =>
    match p.threads[j]? with
    | none => .error .outOfBounds
    | some t => do
      let pml4 ← mapSelected s.pml4 s.currentPid p.pid p.memMap
      if p.sigCurrent.isSome ∧ !p.sigReturnContext then .error .signalContextMissing
      else if t.state ≠ .ready then .error (.threadNotReady t.pid t.tid)
      else return { s.setProcess i (p.setThread j { t with state := .running }) with
        pml4, currentPid := p.pid, currentTid := t.tid, currentlyInIrq := false }

def schedule (room : Bool) (s : State) : Except Fault State :=
  if !s.schedRunning then .error .notRunning
  else do
    let (s, sel) ← selectThread (s.threadCount + 1) s
    let s ← deliverSignal room s sel
    resume s sel.i sel.j

def schedSave (s : State) : Except Fault State :=
  match schedGetProcess s s.currentPid with
  | none => .error (.noProcess s.currentPid)
  | some (i, p) =>
    match schedGetThreadByTid p s.currentTid with
    | none => .error (.noThread s.currentPid s.currentTid)
    | some (j, t) =>
      let s := { s with currentlyInIrq := true }
      if t.shouldBlock then
        .ok (s.setProcess i (p.setThread j { t with shouldBlock := false, state := .blocked }))
      else
        schedPushReadyThread (s.setProcess i (p.setThread j { t with state := .ready })) s.currentPid s.currentTid

-- Whether the interrupted thread is still there or not, the code reschedules.
def schedIrqAck (room : Bool) (s : State) : Except Fault State :=
  if !s.currentlyInIrq then .error .notInIrq
  else
    match schedGetProcess s s.currentPid with
    | none => .error (.noProcess s.currentPid)
    | some _ => schedule room s

def schedBlock (room : Bool) (s : State) : Except Fault State :=
  if s.currentlyInIrq then .error .alreadyInIrq
  else if s.currentPid = kernelPid then .error .kernelBlocks
  else
    match schedGetProcess s s.currentPid with
    | none => .error (.noProcess s.currentPid)
    | some (i, p) =>
      match schedGetThreadByTid p s.currentTid with
      | none => .error (.noThread s.currentPid s.currentTid)
      | some (j, t) => do
        let s ← schedSave (s.setProcess i (p.setThread j { t with shouldBlock := true }))
        schedule room s

def schedLaunchThread (s : State) (i : Nat) (p : Process) (j : Nat) (t : Thread) : Except Fault State :=
  schedPushReadyThread (s.setProcess i (p.setThread j { t with state := .ready })) t.pid t.tid

def allocTidLoop : List Thread -> Nat -> Nat -> Nat × Nat
  | [], pref, alt => (pref, alt)
  | t :: rest, pref, alt =>
    allocTidLoop rest (if pref ≤ t.tid then t.tid + 1 else pref) (if t.tid = alt then alt + 1 else alt)

def allocTid (p : Process) : Nat :=
  let (pref, alt) := allocTidLoop p.threads 1 1
  if pref ≤ maxTid then pref else if alt ≤ maxTid then alt else 0

def processCreateThread (s : State) (i : Nat) (p : Process) : Except Fault (State × Nat) := do
  let mapped ← isProcessMapped s.pml4 (some p.memMap)
  if !mapped then .error .notMapped
  else
    let tid := allocTid p
    if tid = 0 then .ok (s, 0)
    else do
      let t : Thread := { pid := p.pid, tid }
      let s ← schedLaunchThread s i { p with threads := p.threads ++ [t] } p.threads.length t
      return (s, tid)

def schedCreateThread (s : State) (pid : Nat) : Except Fault (State × Option Nat) :=
  match schedGetProcess s pid with
  | none => .ok (s, some 0)
  | some (i, p) =>
    match schedGetThreadByTid p s.currentTid with
    | none => .error (.noThread pid s.currentTid)
    | some (_, th) =>
      if th.shouldExit then .ok (s, none)
      else do
        let (s, tid) ← processCreateThread s i p
        return (s, some tid)

/--
`sched_create_process`, the program being loaded; `pid` is what `alloc_pid` gives and `map` what
`process_create_mem_map` makes.
-/
def schedCreateProcess (s : State) (ppid pid : Nat) (map : MemMap) : Except Fault (State × Int) :=
  match schedGetProcess s ppid with
  | none => .ok (s, -1)
  | some (_, parent) => do
    let mapped ← isProcessMapped s.pml4 none
    if mapped then .error .anotherMapped
    else do
      let pml4 ← userMap s.pml4 map
      let new : Process := { pid, ppid := parent.pid, memMap := map, threads := [{ pid, tid := firstTid }] }
      let pml4 ← processUnmap pml4
      return ({ s with pml4, processes := s.processes ++ [new] }, pid)

def schedKillProcess (s : State) (pid : Nat) : State :=
  match schedGetProcess s pid with
  | none => s
  | some (i, p) =>
    s.setProcess i { p with threads := p.threads.map fun t => { t with shouldExit := true } }

-- The flags that the rest of the kernel sets on a thread.
def setThreadFlags (s : State) (pid tid : Nat) (shouldExit uninterruptible sigWait futexSignaled : Bool) : State :=
  match schedGetProcess s pid with
  | none => s
  | some (i, p) =>
    match schedGetThreadByTid p tid with
    | none => s
    | some (j, t) =>
      s.setProcess i (p.setThread j { t with shouldExit, uninterruptible, sigWait, futexSignaled })

-- The handler address and the mask of blocked signals play no part here.
def processRegisterSignalSetup (s : State) (pid : Nat) (ignMask : BitVec 32) : State :=
  match schedGetProcess s pid with
  | none => s
  | some (i, p) => s.setProcess i { p with ignMask }

-- The kernel process has no user memory.
def kernelProcess : Process :=
  { pid := kernelPid, ppid := kernelPid, memMap := ⟨0, 0⟩, threads := [{ pid := kernelPid, tid := 1 }] }

def schedInit : Except Fault State :=
  schedUnblock
    { processes := [kernelProcess]
      killedProcesses := []
      pqueue := initPqueue
      nReadyThreads := 0
      currentPid := kernelPid
      currentTid := 0
      schedRunning := false
      currentlyInIrq := false
      sleepingThreads := []
      pml4 := fun _ => 0 }
    kernelPid 1

def schedStart (s : State) : Except Fault State := schedule true { s with schedRunning := true }

end Bincows.Sched
