import Bincows.Shared.Histories
import Bincows.Shared.Tables

set_option autoImplicit false

/-! `pthread_create` starts the child before it inserts its record, and the kernel reuses thread ids. What is done under the
locks, between the two system calls of a creation, at an exit and at each check of a join, is one step. -/

namespace Bincows.Threads

open Tables Histories

abbrev Tid := Nat

def maxTid : Tid := 0xffff

structure ThreadInfo where
  tid : Tid
  ret : UInt64
  done : Bool
  joined : Bool
  joinable : Bool
  deriving DecidableEq

inductive Point where
  | running
  -- in `pthread_create`, before `insert_thread_info`
  | creating (child : Nat)
  -- in the loop of `pthread_join`, with the record of a child
  | waiting (child : Nat)
  -- in `pthread_join`, before `remove_thread_info`
  | joined (tid : Tid)
  -- in `pthread_exit`, before `remove_thread_info`
  | leaving
  -- in `_thread_exit`
  | exiting
  | ended
  deriving DecidableEq

/--
A thread that was started. `info` is the record that `pthread_create` makes for it and `retval` the value it calls
`pthread_exit` with.
-/
structure Thread where
  tid : Tid
  joinable : Bool
  point : Point
  info : Option ThreadInfo
  retval : Option UInt64
  deriving DecidableEq

/-- Threads are numbered as they start: `live` is the kernel's list of threads, `table` is `thread_table`. -/
structure State where
  threads : List Thread
  live : List Nat
  table : List Nat
  deriving DecidableEq

def start : State :=
  { threads := [{ tid := 1, joinable := false, point := .running, info := none, retval := none }], live := [0], table := [] }

def allocTid (tids : List Tid) : Tid :=
  let pref := tids.foldl (fun pref tid => if pref ≤ tid then tid + 1 else pref) 1
  let alt := tids.foldl (fun alt tid => if tid = alt then alt + 1 else alt) 1
  if pref ≤ maxTid then pref else if alt ≤ maxTid then alt else 0

variable (s : State)

def tids : List Tid := s.live.filterMap fun i => s.threads[i]?.map Thread.tid

def point (n : Nat) : Option Point := s.threads[n]?.map Thread.point

def setPoint (n : Nat) (p : Point) : State :=
  { s with threads := s.threads.modify n fun t => { t with point := p } }

def setInfo (n : Nat) (f : ThreadInfo -> ThreadInfo) : State :=
  { s with threads := s.threads.modify n fun t => { t with info := t.info.map f } }

def leave (n : Nat) (retval : UInt64) (p : Point) : State :=
  { s with threads := s.threads.modify n fun t => { t with retval := some retval, point := p } }

def hasTid (tid : Tid) (i : Nat) : Bool :=
  (s.threads[i]?.bind Thread.info).any fun info => info.tid = tid

def acquireThreadInfo (tid : Tid) : Option Nat := s.table.find? (hasTid s tid)

def infoOf (i : Nat) : Option ThreadInfo := s.threads[i]?.bind Thread.info

def removeThreadInfo (tid : Tid) : State :=
  match s.table.findIdx? (hasTid s tid) with
  | none => s
  | some i => { s with table := swapRemove s.table i }

def threadCreate (n : Nat) (joinable : Bool) : State :=
  let tid := allocTid (tids s)
  -- EAGAIN
  if tid = 0 then s
  else
    let child := s.threads.length
    let thread := { tid, joinable, point := .running, info := none, retval := none }
    setPoint { s with threads := s.threads ++ [thread], live := s.live ++ [child] } n (.creating child)

def insertThreadInfo (n child : Nat) : State :=
  let fresh (t : Thread) : Thread :=
    { t with info := some { tid := t.tid, ret := 0, done := false, joined := !t.joinable, joinable := t.joinable } }
  setPoint { s with threads := s.threads.modify child fresh, table := s.table ++ [child] } n .running

def pthreadExit (n : Nat) (thread : Thread) (retval : UInt64) : State :=
  match acquireThreadInfo s thread.tid with
  -- taken for a detached thread
  | none => leave s n retval .exiting
  | some i =>
    if (infoOf s i).any fun info => info.joinable then
      leave (setInfo s i fun info => { info with ret := retval, done := true }) n retval .exiting
    else leave s n retval .leaving

-- The wait on the condition variable is this check, at any time.
def checkDone (n child : Nat) : State :=
  match infoOf s child with
  | some info => setPoint s n (if info.done then .joined info.tid else .waiting child)
  | none => s

def pthreadJoin (n : Nat) (th : Tid) : State :=
  match acquireThreadInfo s th with
  | none => s
  | some i =>
    -- EINVAL
    if (infoOf s i).any fun info => info.joined then s
    else checkDone (setInfo s i fun info => { info with joined := true }) n i

def terminate (n : Nat) : State :=
  match s.live.findIdx? fun i => i = n with
  | none => s
  | some i => setPoint { s with live := swapRemove s.live i } n .ended

inductive Action where
  | create (n : Nat) (joinable : Bool)
  | insert (n : Nat)
  | exit (n : Nat) (retval : UInt64)
  | join (n : Nat) (th : Tid)
  -- the thread goes on: a join checks again or removes the record, an exit ends
  | proceed (n : Nat)
  deriving DecidableEq

def perform : Action -> State
  | .create n joinable => if point s n = some .running then threadCreate s n joinable else s
  | .insert n =>
    match point s n with
    | some (.creating child) => insertThreadInfo s n child
    | _ => s
  | .exit n retval =>
    match s.threads[n]? with
    | some thread => if thread.point = .running then pthreadExit s n thread retval else s
    | none => s
  | .join n th => if point s n = some .running then pthreadJoin s n th else s
  | .proceed n =>
    match s.threads[n]? with
    | some thread =>
      match thread.point with
      | .waiting child => checkDone s n child
      | .joined tid => setPoint (removeThreadInfo s tid) n .running
      | .leaving => setPoint (removeThreadInfo s thread.tid) n .exiting
      | .exiting => terminate s n
      | _ => s
    | none => s

def run (actions : List Action) : State := after perform start actions

def Thread.Marked (t : Thread) : Prop :=
  t.joinable = true -> ∀ v info, t.retval = some v -> t.info = some info -> info.done = true ∧
    info.ret = v

structure Recorded : Prop where
  marked : ∀ (i : Nat) (t : Thread), s.threads[i]? = some t -> t.Marked
  joins : ∀ n child t v, point s n = some (.waiting child) -> s.threads[child]? = some t ->
    t.retval = some v -> ∃ info, t.info = some info ∧ info.done = true ∧ info.ret = v

/--
A record is inserted before its child ends. A thread that ends finds its own record, and where it finds another one
it does not replace the value of a child that has ended.
-/
def Fine : Action -> Prop
  | .insert n => ∀ child t, point s n = some (.creating child) -> s.threads[child]? = some t ->
      t.joinable = true -> t.retval = none
  | .exit n v => ∀ t, s.threads[n]? = some t -> t.point = .running ->
      (∀ info, t.joinable = true -> t.info = some info ->
        acquireThreadInfo s t.tid = some n ∨ info.done = true ∧ info.ret = v) ∧
      ∀ i other w, acquireThreadInfo s t.tid = some i -> i ≠ n -> s.threads[i]? = some other ->
        other.joinable = true -> other.retval = some w -> w = v
  | _ => True

end Bincows.Threads
