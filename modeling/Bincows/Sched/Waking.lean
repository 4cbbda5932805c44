import Bincows.Sched.Scheduler

set_option autoImplicit false

namespace Bincows.Sched

open Tables List

def Thread.idIf (state : ThreadState) (t : Thread) : Multiset Td :=
  if t.state = state then {t.id} else 0

def Process.idsIn (state : ThreadState) (p : Process) : Multiset Td :=
  (p.threads.map (Thread.idIf state)).sum

def State.idsIn (state : ThreadState) (s : State) : Multiset Td :=
  (s.processes.map (Process.idsIn state)).sum

variable {state : ThreadState} {t : Thread}

theorem idIf_same (same : t.state = state) : t.idIf state = {t.id} := if_pos same

theorem idIf_other (other : t.state ≠ state) : t.idIf state = 0 := if_neg other

variable {A : Type}

theorem mem_list_sum {sums : List (Multiset A)} {x : A} : x ∈ sums.sum ↔ ∃ m ∈ sums, x ∈ m := by
  induction sums with
  | nil => simp
  | cons m rest ih => simp [ih]

variable {s : State}

theorem mem_idsIn {id : Td} : id ∈ s.idsIn state ↔ ∃ p ∈ s.processes, ∃ t ∈ p.threads, t.state = state ∧ t.id = id := by
  simp only [State.idsIn, Process.idsIn, mem_list_sum, mem_map, exists_exists_and_eq_and]
  refine exists_congr fun p => and_congr_right fun _ => exists_congr fun t => and_congr_right fun _ => ?_
  by_cases matching : t.state = state
  · simp [Thread.idIf, matching, eq_comm]
  · simp [Thread.idIf, matching]

variable {pid tid base i j : Nat} {p : Process}

section search

variable {x : A} {xs : List A} {es : List (A × Nat)}

theorem find_place {q : A × Nat -> Bool} (perm : es ~ xs.zipIdx)
    (result : (es.find? q).map Prod.swap = some (i, x)) : xs[i]? = some x ∧ q (x, i) = true := by
  obtain ⟨e, found, ⟨⟩⟩ := Option.map_eq_some_iff.mp result
  exact ⟨mem_zipIdx_iff_getElem?.mp (perm.mem_iff.mp (mem_of_find?_eq_some found)), find?_some found⟩

theorem place_found (key : A -> Nat) (nodup : (xs.map key).Nodup) (perm : es ~ xs.zipIdx) (there : xs[i]? = some x) :
    (es.find? fun e => key e.1 = key x).map Prod.swap = some (i, x) := by
  have member : (x, i) ∈ es := perm.mem_iff.mpr (mem_zipIdx_iff_getElem?.mpr there)
  obtain ⟨e, found⟩ := Option.isSome_iff_exists.mp (find?_isSome (p := fun e => key e.1 = key x).mpr ⟨_, member, by simp⟩)
  rw [found]
  obtain ⟨place, same⟩ := find_place perm (congrArg (Option.map Prod.swap) found)
  obtain ⟨rfl, rfl⟩ := index_unique key nodup place there (of_decide_eq_true same)
  rfl

end search

theorem findProcess_eq (ps : List Process) (found : Option (Nat × Process)) : findProcess pid ps base found =
    (((ps.zipIdx base).reverse.find? fun e => e.1.pid = pid).map Prod.swap).or found := by
  induction ps generalizing base found with
  | nil => rfl
  | cons p rest ih =>
    rw [findProcess, ih, zipIdx_cons, reverse_cons, find?_append, Option.map_or, Option.or_assoc]
    by_cases same : p.pid = pid <;> simp [same]

theorem schedGetProcess_some (result : schedGetProcess s pid = some (i, p)) : s.processes[i]? = some p ∧ p.pid = pid := by
  rw [schedGetProcess, findProcess_eq, Option.or_none] at result
  simpa using find_place (reverse_perm _) result

theorem schedGetProcess_finds (pids : (s.processes.map Process.pid).Nodup)
    (there : s.processes[i]? = some p) : schedGetProcess s p.pid = some (i, p) := by
  rw [schedGetProcess, findProcess_eq, Option.or_none]
  exact place_found Process.pid pids (reverse_perm _) there

theorem findThread_eq (ts : List Thread) :
    findThread tid ts base = ((ts.zipIdx base).find? fun e => e.1.tid = tid).map Prod.swap := by
  induction ts generalizing base with
  | nil => rfl
  | cons t rest ih =>
    rw [findThread, ih, zipIdx_cons, find?_cons]
    by_cases same : t.tid = tid <;> simp [same]

theorem schedGetThreadByTid_some (result : schedGetThreadByTid p tid = some (j, t)) :
    p.threads[j]? = some t ∧ t.tid = tid := by
  rw [schedGetThreadByTid, findThread_eq] at result
  simpa using find_place (.refl _) result

theorem schedGetThreadByTid_finds (tids : (p.threads.map Thread.tid).Nodup)
    (there : p.threads[j]? = some t) : schedGetThreadByTid p t.tid = some (j, t) := by
  rw [schedGetThreadByTid, findThread_eq]
  exact place_found Thread.tid tids (.refl _) there

section

variable (there : s.processes[i]? = some p)
include there

theorem idsIn_setProcess (state : ThreadState) (p' : Process) :
    (s.setProcess i p').idsIn state + p.idsIn state = s.idsIn state + p'.idsIn state :=
  sum_set (Process.idsIn state) there p'

variable (slot : p.threads[j]? = some t)
include slot

theorem idsIn_setThread (state : ThreadState) (t' : Thread) :
    (s.setProcess i (p.setThread j t')).idsIn state + t.idIf state = s.idsIn state + t'.idIf state := by
  have table := idsIn_setProcess there state (p.setThread j t')
  have threads : (p.setThread j t').idsIn state + t.idIf state = p.idsIn state + t'.idIf state :=
    sum_set (Thread.idIf state) slot t'
  generalize (s.setProcess i (p.setThread j t')).idsIn state = ids at table ⊢
  have both : ids + t.idIf state + p.idsIn state = s.idsIn state + t'.idIf state + p.idsIn state := by
    calc ids + t.idIf state + p.idsIn state
        = ids + p.idsIn state + t.idIf state := by abel
      _ = s.idsIn state + ((p.setThread j t').idsIn state + t.idIf state) := by rw [table, add_assoc]
      _ = s.idsIn state + t'.idIf state + p.idsIn state := by rw [threads]; abel
  exact add_right_cancel both

theorem idsIn_enter (t' : Thread) (before : t.state ≠ state) (after : t'.state = state) :
    (s.setProcess i (p.setThread j t')).idsIn state = s.idsIn state + {t'.id} := by
  have ids := idsIn_setThread there slot state t'
  rwa [idIf_other before, idIf_same after, add_zero] at ids

theorem idsIn_leave (t' : Thread) (before : t.state = state) (after : t'.state ≠ state) :
    (s.setProcess i (p.setThread j t')).idsIn state + {t.id} = s.idsIn state := by
  have ids := idsIn_setThread there slot state t'
  rwa [idIf_same before, idIf_other after, add_zero] at ids

theorem idsIn_stay (t' : Thread) (before : t.state ≠ state) (after : t'.state ≠ state) :
    (s.setProcess i (p.setThread j t')).idsIn state = s.idsIn state := by
  have ids := idsIn_setThread there slot state t'
  rwa [idIf_other before, idIf_other after, add_zero, add_zero] at ids

end

structure Thread.Wakes (t t' : Thread) : Prop where
  id : t'.id = t.id
  shouldBlock : t'.shouldBlock = t.shouldBlock
  shouldExit : t'.shouldExit = t.shouldExit
  uninterruptible : t'.uninterruptible = t.uninterruptible
  state : t'.state = t.state ∨ t.state = .blocked ∧ t'.state = .ready

structure Process.Wakes (p p' : Process) : Prop where
  pid : p'.pid = p.pid
  memMap : p'.memMap = p.memMap
  threads : Forall₂ Thread.Wakes p.threads p'.threads
  signal : p.sigReturnContext = p.sigCurrent.isSome -> p'.sigReturnContext = p'.sigCurrent.isSome

structure Wakes (s s' : State) : Prop where
  processes : Forall₂ Process.Wakes s.processes s'.processes
  pml4 : s'.pml4 = s.pml4
  currentPid : s'.currentPid = s.currentPid
  currentTid : s'.currentTid = s.currentTid
  schedRunning : s'.schedRunning = s.schedRunning
  currentlyInIrq : s'.currentlyInIrq = s.currentlyInIrq
  woken : ∃ woken : List Td, s'.idsIn .ready = s.idsIn .ready + woken ∧
    ∀ queue, Represents s.pqueue queue -> s.nReadyThreads = queue.length ->
      Represents s'.pqueue (queue ++ woken) ∧ s'.nReadyThreads = (queue ++ woken).length

theorem Thread.Wakes.refl (t : Thread) : t.Wakes t := ⟨rfl, rfl, rfl, rfl, .inl rfl⟩

theorem Thread.Wakes.trans {t' t'' : Thread} (first : t.Wakes t') (second : t'.Wakes t'') : t.Wakes t'' where
  id := second.id.trans first.id
  shouldBlock := second.shouldBlock.trans first.shouldBlock
  shouldExit := second.shouldExit.trans first.shouldExit
  uninterruptible := second.uninterruptible.trans first.uninterruptible
  state := by
    rcases first.state with same | ⟨blocked, ready⟩
    · rw [← same]
      exact second.state
    · rcases second.state with same | ⟨blocked', -⟩
      · exact .inr ⟨blocked, same.trans ready⟩
      · rw [ready] at blocked'
        cases blocked'

theorem Process.Wakes.refl (p : Process) : p.Wakes p :=
  ⟨rfl, rfl, forall₂_refl Thread.Wakes.refl _, fun same => same⟩

variable {p' : Process}

theorem Process.Wakes.trans {p'' : Process} (first : p.Wakes p') (second : p'.Wakes p'') : p.Wakes p'' where
  pid := second.pid.trans first.pid
  memMap := second.memMap.trans first.memMap
  threads := forall₂_trans first.threads second.threads fun _ _ _ => Thread.Wakes.trans
  signal := fun same => second.signal (first.signal same)

theorem Wakes.refl (s : State) : Wakes s s where
  processes := forall₂_refl Process.Wakes.refl _
  pml4 := rfl
  currentPid := rfl
  currentTid := rfl
  schedRunning := rfl
  currentlyInIrq := rfl
  woken := ⟨[], by simp, fun queue ring count => by simpa using ⟨ring, count⟩⟩

variable {s' : State} {pending : BitVec 32} {signal : Fin 32}

theorem Wakes.trans {s'' : State} (first : Wakes s s') (second : Wakes s' s'') : Wakes s s'' where
  processes := forall₂_trans first.processes second.processes fun _ _ _ => Process.Wakes.trans
  pml4 := second.pml4.trans first.pml4
  currentPid := second.currentPid.trans first.currentPid
  currentTid := second.currentTid.trans first.currentTid
  schedRunning := second.schedRunning.trans first.schedRunning
  currentlyInIrq := second.currentlyInIrq.trans first.currentlyInIrq
  woken := by
    obtain ⟨woken, ready, queued⟩ := first.woken
    obtain ⟨woken', ready', queued'⟩ := second.woken
    refine ⟨woken ++ woken', ?_, ?_⟩
    · rw [ready', ready, add_assoc, Multiset.coe_add]
    · intro queue ring count
      obtain ⟨ring₁, count₁⟩ := queued queue ring count
      rw [← append_assoc]
      exact queued' _ ring₁ count₁

structure Healthy (s : State) : Prop where
  queue : ∃ queue, Represents s.pqueue queue ∧ s.nReadyThreads = queue.length
  bounds : ∀ p ∈ s.processes, ∀ t ∈ p.threads, t.pid ≤ maxPid ∧ t.tid ≤ maxTid
  threads : ∀ p ∈ s.processes, p.threads ≠ []

-- The faults of the calls below: none in a healthy state, and never one about the mapped region.
def Quiet (s : State) (e : Fault) : Prop := e.aboutMapping = false ∧ ¬ Healthy s

theorem Wakes.healthy (wakes : Wakes s s') (healthy : Healthy s) : Healthy s' where
  queue := by
    obtain ⟨queue, ring, count⟩ := healthy.queue
    obtain ⟨woken, -, queued⟩ := wakes.woken
    exact ⟨queue ++ woken, queued queue ring count⟩
  bounds := by
    intro p' member' t' inside'
    obtain ⟨p, member, related⟩ := forall₂_mem_right wakes.processes member'
    obtain ⟨t, inside, same⟩ := forall₂_mem_right related.threads inside'
    have pid := congrArg Td.pid same.id
    have tid := congrArg Td.tid same.id
    have bounds := healthy.bounds p member t inside
    exact ⟨(le_of_eq pid).trans bounds.1, (le_of_eq tid).trans bounds.2⟩
  threads := by
    intro p' member' empty
    obtain ⟨p, member, related⟩ := forall₂_mem_right wakes.processes member'
    apply healthy.threads p member
    have length := related.threads.length_eq
    rw [empty] at length
    exact eq_nil_of_length_eq_zero length

theorem Wakes.quiet (wakes : Wakes s s') (e : Fault) (fault : Quiet s' e) : Quiet s e :=
  ⟨fault.1, fun healthy => fault.2 (wakes.healthy healthy)⟩

-- Chains two calls of this module.
theorem wakes_bind {x : Except Fault A} {f : A -> Except Fault State} {next : A -> State}
    (first : x.Ensures (Quiet s) fun a => Wakes s (next a))
    (rest : ∀ a, (f a).Ensures (Quiet (next a)) (Wakes (next a))) :
    (x >>= f).Ensures (Quiet s) (Wakes s) :=
  first.bind fun a woke => (rest a).mono woke.quiet fun _ => woke.trans

theorem moveUp_faults {exp head : Nat} {buffer : List Td} :
    (moveUp exp head i buffer).Ensures (·.aboutMapping = false) fun _ => True := by
  induction i generalizing buffer with
  | zero => trivial
  | succ i ih =>
    rw [moveUp]
    split
    · trivial
    split
    · split
      · exact ih
      · rfl
    · rfl

theorem pqueueExpand_faults (q : PriorityQueue) : (pqueueExpand q).Ensures (·.aboutMapping = false) fun _ => True := by
  rw [pqueueExpand]
  split
  · rfl
  · split
    · exact moveUp_faults.bind fun _ _ => trivial
    · trivial

theorem pqueuePush_faults (q : PriorityQueue) (thread : Td) :
    (pqueuePush q thread).Ensures (·.aboutMapping = false) fun _ => True := by
  rw [pqueuePush]
  split
  · exact (pqueueExpand_faults q).bind fun _ _ => trivial
  · trivial

theorem schedPushReadyThread_pushes (s : State) (pid tid : Nat) :
    (schedPushReadyThread s pid tid).Ensures
      (fun e => e.aboutMapping = false ∧ ¬ ((∃ queue, Represents s.pqueue queue) ∧ pid ≤ maxPid ∧ tid ≤ maxTid))
      (fun s' => ∃ pqueue, s' = { s with pqueue, nReadyThreads := s.nReadyThreads + 1 } ∧
        ∀ queue : List Td, Represents s.pqueue queue -> s.nReadyThreads = queue.length ->
          Represents pqueue (queue ++ [⟨pid, tid⟩]) ∧ s.nReadyThreads + 1 = (queue ++ [⟨pid, tid⟩] : List Td).length) := by
  rw [schedPushReadyThread]
  by_cases badPid : maxPid < pid
  · rw [if_pos badPid]
    exact ⟨rfl, fun bounds => by omega⟩
  by_cases badTid : maxTid < tid
  · rw [if_neg badPid, if_pos badTid]
    exact ⟨rfl, fun bounds => by omega⟩
  · rw [if_neg badPid, if_neg badTid]
    cases result : pqueuePush s.pqueue ⟨pid, tid⟩ with
    | ok pqueue =>
      refine ⟨pqueue, rfl, ?_⟩
      intro queue ring count
      obtain ⟨pushed, pushes, ring'⟩ := pqueuePush_represents ring ⟨pid, tid⟩
      rw [result] at pushes
      cases pushes
      refine ⟨ring', ?_⟩
      rw [length_append, length_singleton, count]
      rfl
    | error e =>
      refine ⟨(pqueuePush_faults _ _).of_error result, ?_⟩
      rintro ⟨⟨queue, ring⟩, -⟩
      obtain ⟨pushed, pushes, -⟩ := pqueuePush_represents ring ⟨pid, tid⟩
      rw [result] at pushes
      cases pushes

theorem schedUnblockThread_wakes (there : s.processes[i]? = some p) (slot : p.threads[j]? = some t) :
    (schedUnblockThread s i p j t).Ensures (Quiet s) (Wakes s) := by
  rw [schedUnblockThread]
  by_cases blocked : t.state = .blocked
  · rw [if_neg (not_not.2 blocked)]
    refine (schedPushReadyThread_pushes _ t.pid t.tid).mono ?_ ?_
    · rintro e ⟨notMapping, unhealthy⟩
      refine ⟨notMapping, fun healthy => unhealthy ⟨?_, ?_⟩⟩
      · obtain ⟨queue, ring, -⟩ := healthy.queue
        exact ⟨queue, ring⟩
      · exact healthy.bounds p (mem_of_getElem? there) t (mem_of_getElem? slot)
    rintro s' ⟨pqueue, rfl, pushed⟩
    have woke : t.Wakes { t with state := .ready } := ⟨rfl, rfl, rfl, rfl, .inr ⟨blocked, rfl⟩⟩
    refine ⟨forall₂_set Process.Wakes.refl there ?_, rfl, rfl, rfl, rfl, rfl, [t.id], ?_, ?_⟩
    · exact ⟨rfl, rfl, forall₂_set Thread.Wakes.refl slot woke, fun same => same⟩
    · rw [Multiset.coe_singleton]
      exact idsIn_enter there slot _ (by rw [blocked]; decide) rfl
    · exact pushed
  · rw [if_pos blocked]
    exact Wakes.refl s

theorem schedUnblock_wakes (s : State) (pid tid : Nat) : (schedUnblock s pid tid).Ensures (Quiet s) (Wakes s) := by
  rw [schedUnblock]
  split
  · exact Wakes.refl s
  next i p found =>
  split
  · exact Wakes.refl s
  · next j t foundThread =>
    exact schedUnblockThread_wakes (schedGetProcess_some found).1 (schedGetThreadByTid_some foundThread).1

theorem sleepCancel_wakes (s : State) (pid tid : Nat) :
    (sleepCancel s pid tid).Ensures (Quiet s) fun result => Wakes s result.1 := by
  rw [sleepCancel]
  split
  · exact Wakes.refl s
  next idx _ =>
  have listed : Wakes s { s with sleepingThreads := s.sleepingThreads.eraseIdx idx } :=
    ⟨forall₂_refl Process.Wakes.refl _, rfl, rfl, rfl, rfl, rfl, (Wakes.refl s).woken⟩
  refine ((schedUnblock_wakes _ pid tid).mono listed.quiet fun _ => listed.trans).bind ?_
  intro s' woke
  exact woke

theorem schedUnblockAll_wakes (pid : Nat) (tids : List Nat) (s : State) :
    (schedUnblockAll pid tids s).Ensures (Quiet s) (Wakes s) := by
  induction tids generalizing s with
  | nil => exact Wakes.refl s
  | cons tid rest ih => exact wakes_bind (schedUnblock_wakes s pid tid) ih

-- A change of the process record that leaves the threads as ready as they were.
theorem wakes_setProcess (there : s.processes[i]? = some p)
    (related : p.Wakes p') (ready : p'.idsIn .ready = p.idsIn .ready) : Wakes s (s.setProcess i p') := by
  refine ⟨forall₂_set Process.Wakes.refl there related, rfl, rfl, rfl, rfl, rfl, [], ?_, ?_⟩
  · have ids := idsIn_setProcess there .ready p'
    rw [ready] at ids
    simpa using ids
  · intro queue ring count
    simpa using ⟨ring, count⟩

theorem idsIn_map (state : ThreadState) {f : Thread -> Thread} (threads : List Thread)
    (same : ∀ t, (f t).idIf state = t.idIf state) :
    ((threads.map f).map (Thread.idIf state)).sum = (threads.map (Thread.idIf state)).sum := by
  rw [map_map]
  congr 1
  exact map_congr_left fun t _ => same t

theorem unblockSigwaitThreads_wakes (pending : BitVec 32) (there : s.processes[i]? = some p) :
    (unblockSigwaitThreads s i { p with sigPending := pending }).Ensures (Quiet s) (Wakes s) := by
  have cleared : Wakes s (s.setProcess i { p with
      sigPending := pending, threads := p.threads.map fun t => { t with sigWait := false } }) := by
    refine wakes_setProcess there ⟨rfl, rfl, ?_, fun same => same⟩ ?_
    · exact forall₂_map_right_iff.2 (forall₂_same.2 fun t _ => ⟨rfl, rfl, rfl, rfl, .inl rfl⟩)
    · exact idsIn_map .ready p.threads fun t => rfl
  exact (schedUnblockAll_wakes p.pid _ _).mono cleared.quiet fun _ => cleared.trans

theorem processTriggerSignal_wakes (s : State) (pid : Nat) (signal : Fin 32) :
    (processTriggerSignal s pid signal).Ensures (Quiet s) fun result => Wakes s result.1 := by
  rw [processTriggerSignal]
  split
  · exact Wakes.refl s
  next i p found =>
  have there := (schedGetProcess_some found).1
  split
  · exact Wakes.refl s
  split
  · next empty =>
    exact ⟨rfl, fun healthy => healthy.threads p (mem_of_getElem? there) empty⟩
  · refine (unblockSigwaitThreads_wakes _ there).bind fun s₁ woke₁ => ?_
    refine ((sleepCancel_wakes s₁ pid 1).mono woke₁.quiet fun _ => woke₁.trans).bind ?_
    rintro ⟨s₂, code⟩ woke₂
    refine ((schedUnblock_wakes s₂ pid 1).mono woke₂.quiet fun _ => woke₂.trans).bind ?_
    intro s₃ woke₃
    exact woke₃

theorem getLsbD_signalBit (signal : Fin 32) : (signalBit signal).getLsbD signal = true := by
  revert signal
  decide

theorem firstSignal_pending (found : firstSignal pending = some signal) :
    pending &&& signalBit signal ≠ 0 := by
  intro clear
  have bit : pending.getLsbD signal = true := find?_some (p := fun k : Fin 32 => pending.getLsbD k) found
  have both : (pending &&& signalBit signal).getLsbD signal = true := by
    rw [BitVec.getLsbD_and, bit, getLsbD_signalBit, Bool.and_self]
  rw [clear] at both
  simp at both

theorem firstSignal_none (none : firstSignal pending = none) : pending = 0 := by
  apply BitVec.eq_of_getLsbD_eq
  intro k bound
  have clear := find?_eq_none.1 none ⟨k, bound⟩ (mem_finRange _)
  simpa using clear

theorem wakeMainThread_wakes (pid tid : Nat) (inside : i < s.processes.length) :
    (wakeMainThread s i pid tid).Ensures (Quiet s) (Wakes s) := by
  refine (sleepCancel_wakes s pid tid).bind ?_
  rintro ⟨s₁, code⟩ woke
  obtain ⟨p₁, there₁, -⟩ := forall₂_getElem? woke.processes (getElem?_eq_getElem inside)
  simp only [there₁]
  cases threads : p₁.threads with
  | nil =>
    refine woke.quiet _ ⟨rfl, fun healthy => ?_⟩
    exact healthy.threads p₁ (mem_of_getElem? there₁) threads
  | cons thread0 rest =>
    simp only
    split
    · have slot : p₁.threads[0]? = some thread0 := by rw [threads, getElem?_cons_zero]
      exact (schedUnblockThread_wakes there₁ slot).mono woke.quiet fun _ => woke.trans
    · exact woke

-- The asserts of the delivery hold when no thread runs and the context is kept with the signal.
def Deliverable (s : State) (p : Process) : Prop :=
  Healthy s ∧ s.idsIn .running = 0 ∧ p.sigReturnContext = p.sigCurrent.isSome

variable {room : Bool}

theorem prepareProcessSignal_wakes
    (there : s.processes[i]? = some p) (pending : p.sigPending &&& signalBit signal ≠ 0)
    (idle : p.sigCurrent = none) :
    (prepareProcessSignal room s i p signal).Ensures (fun e => e.aboutMapping = false ∧ ¬ Deliverable s p) (Wakes s) := by
  rw [prepareProcessSignal, if_neg pending]
  cases threads : p.threads with
  | nil => exact ⟨rfl, fun good => good.1.threads p (mem_of_getElem? there) threads⟩
  | cons thread0 rest =>
    simp only
    split
    next running =>
      refine ⟨rfl, fun good => ?_⟩
      have member : thread0.id ∈ s.idsIn .running :=
        mem_idsIn.2 ⟨p, mem_of_getElem? there, thread0, by simp [threads], running, rfl⟩
      rw [good.2.1] at member
      exact absurd member (Multiset.notMem_zero _)
    · split
      next context =>
        refine ⟨rfl, fun good => ?_⟩
        have kept := good.2.2
        rw [context, idle] at kept
        cases kept
      have marked : Wakes s (s.setProcess i { p with
          sigCurrent := some signal
          sigPending := p.sigPending &&& ~~~ signalBit signal
          sigReturnContext := true }) :=
        wakes_setProcess there ⟨rfl, rfl, forall₂_refl Thread.Wakes.refl _, fun _ => rfl⟩ rfl
      rw [threads] at marked
      split
      · refine (wakeMainThread_wakes p.pid thread0.tid ?_).mono ?_ fun _ => marked.trans
        · exact (length_set ..).symm ▸ (lt_of_getElem? there)
        · intro e fault
          exact ⟨fault.1, fun good => (marked.quiet e fault).2 good.1⟩
      · exact marked

theorem deliverSignal_wakes {sel : Selected} (there : s.processes[sel.i]? = some sel.p) :
    (deliverSignal room s sel).Ensures (fun e => e.aboutMapping = false ∧ ¬ Deliverable s sel.p) (Wakes s) := by
  have noThreads : sel.p.threads = [] -> ¬ Deliverable s sel.p := fun empty good =>
    good.1.threads sel.p (mem_of_getElem? there) empty
  rw [deliverSignal]
  cases threads : sel.p.threads with
  | nil => exact ⟨rfl, noThreads threads⟩
  | cons thread0 rest =>
    simp only
    split
    · next wanted =>
      obtain ⟨pending, interruptible, idle⟩ := wanted
      have calm : ¬ thread0.uninterruptible = true := by simpa using interruptible
      have noSignal : ¬ sel.p.sigCurrent.isSome = true := by rw [idle]; decide
      simp only [processHandleSignal, threads]
      rw [if_neg pending, if_neg noSignal, if_neg calm]
      cases found : firstSignal sel.p.sigPending with
      | none => exact absurd (firstSignal_none found) pending
      | some signal => exact prepareProcessSignal_wakes there (firstSignal_pending found) idle
    · exact Wakes.refl s

end Bincows.Sched
