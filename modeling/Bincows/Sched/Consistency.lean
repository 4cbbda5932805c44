import Bincows.Sched.Isolation

set_option autoImplicit false

/-! `Consistent s popped`: the ready queue holds the ids of the `READY` threads, each once, but for those in `popped`, which
`choose_next` has taken out and `schedule` has not yet run or killed. -/

namespace Bincows.Sched

open Tables List

structure Process.Sound (p : Process) : Prop where
  threads : p.threads ≠ []
  owner : ∀ t ∈ p.threads, t.pid = p.pid
  tids : (p.threads.map Thread.tid).Nodup
  pidBound : p.pid ≤ maxPid
  tidBounds : ∀ t ∈ p.threads, 0 < t.tid ∧ t.tid ≤ maxTid
  signal : p.sigReturnContext = p.sigCurrent.isSome
  -- The kernel process is the idle process: it never blocks nor exits.
  kernel : p.pid = kernelPid -> ∀ t ∈ p.threads, t.state ≠ .blocked ∧ t.shouldExit = false ∧ t.shouldBlock = false

structure Consistent (s : State) (popped : Multiset Td) : Prop where
  pids : (s.processes.map Process.pid).Nodup
  sound : ∀ p ∈ s.processes, p.Sound
  kernel : ∃ p ∈ s.processes, p.pid = kernelPid
  queue : ∃ queue : List Td, Represents s.pqueue queue ∧ s.nReadyThreads = queue.length ∧ s.idsIn .ready = queue + popped

variable {s : State} {popped : Multiset Td}

theorem Consistent.healthy (consistent : Consistent s popped) : Healthy s where
  queue := by
    obtain ⟨queue, ring, count, -⟩ := consistent.queue
    exact ⟨queue, ring, count⟩
  bounds := by
    intro p member t inside
    have sound := consistent.sound p member
    exact ⟨(sound.owner t inside).le.trans sound.pidBound, (sound.tidBounds t inside).2⟩
  threads := fun p member => (consistent.sound p member).threads

theorem Consistent.unmarked (consistent : Consistent s popped) : KernelUnmarked s :=
  fun p member kernel t inside =>
  ((consistent.sound p member).kernel kernel t inside).2.1

variable {p p' : Process}

theorem Process.Wakes.sound (wakes : p.Wakes p') (sound : p.Sound) : p'.Sound where
  threads := fun empty => sound.threads (forall₂_nil_right_iff.1 (empty ▸ wakes.threads))
  owner := by
    intro t' inside'
    obtain ⟨t, inside, same⟩ := forall₂_mem_right wakes.threads inside'
    have pid : t'.pid = t.pid := congrArg Td.pid same.id
    rw [pid, wakes.pid]
    exact sound.owner t inside
  tids := by
    rw [forall₂_map_eq wakes.threads Thread.tid fun _ _ same => congrArg Td.tid same.id]
    exact sound.tids
  pidBound := wakes.pid ▸ sound.pidBound
  tidBounds := by
    intro t' inside'
    obtain ⟨t, inside, same⟩ := forall₂_mem_right wakes.threads inside'
    have tid : t'.tid = t.tid := congrArg Td.tid same.id
    rw [tid]
    exact sound.tidBounds t inside
  signal := wakes.signal sound.signal
  kernel := by
    intro isKernel t' inside'
    obtain ⟨t, inside, same⟩ := forall₂_mem_right wakes.threads inside'
    obtain ⟨awake, stays, unblocked⟩ := sound.kernel (wakes.pid ▸ isKernel) t inside
    refine ⟨?_, same.shouldExit ▸ stays, same.shouldBlock ▸ unblocked⟩
    rcases same.state with state | ⟨blocked, -⟩
    · rw [state]
      exact awake
    · exact absurd blocked awake

variable {s' : State}

theorem Wakes.consistent (wakes : Wakes s s') (consistent : Consistent s popped) : Consistent s' popped where
  pids := wakes.pids ▸ consistent.pids
  sound := by
    intro p' member'
    obtain ⟨p, member, related⟩ := forall₂_mem_right wakes.processes member'
    exact related.sound (consistent.sound p member)
  kernel := by
    obtain ⟨p, member, kernel⟩ := consistent.kernel
    obtain ⟨i, there⟩ := getElem?_of_mem member
    obtain ⟨p', there', related⟩ := forall₂_getElem? wakes.processes there
    exact ⟨p', mem_of_getElem? there', related.pid.trans kernel⟩
  queue := by
    obtain ⟨queue, ring, count, ready⟩ := consistent.queue
    obtain ⟨woken, ready', queued⟩ := wakes.woken
    obtain ⟨ring', count'⟩ := queued queue ring count
    refine ⟨queue ++ woken, ring', count', ?_⟩
    rw [ready', ready, ← Multiset.coe_add]
    abel

theorem Wakes.running (wakes : Wakes s s') : s'.idsIn .running = s.idsIn .running := by
  have thread : ∀ t t' : Thread, t.Wakes t' -> t'.idIf .running = t.idIf .running := by
    intro t t' same
    rcases same.state with state | ⟨blocked, ready⟩
    · rw [Thread.idIf, Thread.idIf, state, same.id]
    · rw [idIf_other (by rw [ready]; decide), idIf_other (by rw [blocked]; decide)]
  have process : ∀ p p' : Process, p.Wakes p' -> p'.idsIn .running = p.idsIn .running := by
    intro p p' related
    rw [Process.idsIn, Process.idsIn, forall₂_map_eq related.threads (Thread.idIf .running) thread]
  rw [State.idsIn, State.idsIn, forall₂_map_eq wakes.processes (Process.idsIn .running) process]

theorem Wakes.threadCount (wakes : Wakes s s') : s'.threadCount = s.threadCount := by
  rw [State.threadCount, State.threadCount,
    forall₂_map_eq wakes.processes (fun p => p.threads.length) fun _ _ related => related.threads.length_eq.symm]

theorem popReadyThread_eq {id : Td} {rest : List Td} (ring : Represents s.pqueue (id :: rest))
    (pidBound : id.pid ≤ maxPid) (tidBound : id.tid ≤ maxTid) :
    ∃ pqueue, popReadyThread s = .ok ({ s with pqueue, nReadyThreads := s.nReadyThreads - 1 }, id) ∧
      Represents pqueue rest := by
  obtain ⟨pqueue, popped, ring'⟩ := pqueuePop_represents ring
  refine ⟨pqueue, ?_, ring'⟩
  rw [popReadyThread, popped]
  show (if _ then _ else _) = _
  rw [if_neg (by omega), if_neg (by omega)]
  rfl

-- The kernel thread is ready whenever no thread runs.
theorem Consistent.queue_busy (consistent : Consistent s 0) (idle : s.idsIn .running = 0) :
    ∃ id rest, Represents s.pqueue (id :: rest) ∧ s.nReadyThreads = (id :: rest).length ∧
      s.idsIn .ready = (rest : Multiset Td) + {id} := by
  obtain ⟨queue, ring, count, ready⟩ := consistent.queue
  obtain ⟨k, member, kernel⟩ := consistent.kernel
  have sound := consistent.sound k member
  obtain ⟨t, others, threads⟩ := exists_cons_of_ne_nil sound.threads
  have inside : t ∈ k.threads := by simp [threads]
  have isReady : t.state = .ready := by
    cases state : t.state with
    | ready => rfl
    | running =>
      have running : t.id ∈ s.idsIn .running := mem_idsIn.2 ⟨k, member, t, inside, state, rfl⟩
      rw [idle] at running
      exact absurd running (Multiset.notMem_zero _)
    | blocked => exact absurd state (sound.kernel kernel t inside).1
  have queued : t.id ∈ s.idsIn .ready := mem_idsIn.2 ⟨k, member, t, inside, isReady, rfl⟩
  rw [add_zero] at ready
  rw [ready, Multiset.mem_coe] at queued
  cases queue with
  | nil => cases queued
  | cons id rest =>
    refine ⟨id, rest, ring, count, ?_⟩
    rw [ready, ← Multiset.cons_coe, ← Multiset.singleton_add, add_comm]

theorem chooseNext_consistent (consistent : Consistent s 0) (idle : s.idsIn .running = 0) :
    ∃ s' sel, chooseNext s = .ok (s', sel) ∧ sel.PointsInto s' ∧ sel.t.state = .ready ∧
      Consistent s' {sel.t.id} ∧ ∃ pqueue count, s' = { s with pqueue, nReadyThreads := count } := by
  obtain ⟨id, rest, ring, count, ready⟩ := consistent.queue_busy idle
  have entry : id ∈ s.idsIn .ready := by simp [ready]
  obtain ⟨p, member, t, inside, isReady, rfl⟩ := mem_idsIn.1 entry
  have sound := consistent.sound p member
  have owner := sound.owner t inside
  obtain ⟨i, there⟩ := getElem?_of_mem member
  obtain ⟨j, slot⟩ := getElem?_of_mem inside
  obtain ⟨pqueue, popped, ring'⟩ := popReadyThread_eq ring (owner.le.trans sound.pidBound) (sound.tidBounds t inside).2
  refine ⟨{ s with pqueue, nReadyThreads := s.nReadyThreads - 1 }, { i, p, j, t }, ?_, ⟨there, slot⟩, isReady,
    ⟨consistent.pids, consistent.sound, consistent.kernel, rest, ring', ?_, ready⟩, pqueue, _, rfl⟩
  · have found : schedGetProcess { s with pqueue, nReadyThreads := s.nReadyThreads - 1 } t.id.pid = some (i, p) := by
      show schedGetProcess _ t.pid = _
      rw [owner]
      exact schedGetProcess_finds consistent.pids there
    have foundThread : schedGetThreadByTid p t.id.tid = some (j, t) := schedGetThreadByTid_finds sound.tids slot
    rw [chooseNext, popped]
    simp only [bind, Except.bind, found, foundThread, isReady]
    rfl
  · rw [count, length_cons]
    push_cast
    omega

variable {sel : Selected}

theorem checkSelected_passes (consistent : Consistent s popped) (points : sel.PointsInto s)
    (ready : sel.t.state = .ready) : checkSelected sel = .ok () := by
  have sound := consistent.sound sel.p (mem_of_getElem? points.1)
  have inside := mem_of_getElem? points.2
  have some : sel.p.threads.length ≠ 0 := fun zero => sound.threads (eq_nil_of_length_eq_zero zero)
  have positive : sel.t.tid ≠ 0 := (sound.tidBounds sel.t inside).1.ne'
  rw [checkSelected, if_neg (not_not.2 (sound.owner sel.t inside)), if_neg some, if_neg positive, if_neg (not_not.2 ready)]

-- One thread fewer, in the table and in the accounts.
structure Removes (s s' : State) (t : Thread) : Prop where
  ids : ∀ state, s'.idsIn state + t.idIf state = s.idsIn state
  count : s'.threadCount + 1 = s.threadCount

variable {i j : Nat} {t : Thread}

theorem removes_setThreads (pml4 : Pml4) (there : s.processes[i]? = some p) (slot : p.threads[j]? = some t) :
    Removes s ({ s with pml4 }.setProcess i { p with threads := swapRemove p.threads j }) t := by
  generalize after : ({ p with threads := swapRemove p.threads j } : Process) = p'
  constructor
  · intro state
    have table := idsIn_setProcess there state p'
    have threads : p.idsIn state = t.idIf state + p'.idsIn state := by
      rw [← after]
      exact sum_swapRemove (Thread.idIf state) slot
    rw [threads, ← add_assoc] at table
    exact add_right_cancel table
  · have total : (({ s with pml4 } : State).setProcess i p').threadCount + p.threads.length =
        s.threadCount + p'.threads.length := sum_set (fun p : Process => p.threads.length) there p'
    have shorter : p.threads.length = p'.threads.length + 1 := after ▸ (swapRemove_perm slot).length_eq
    omega

theorem Process.Sound.withoutThread (sound : p.Sound) (slot : p.threads[j]? = some t) (left : swapRemove p.threads j ≠ []) :
    ({ p with threads := swapRemove p.threads j } : Process).Sound where
  threads := left
  owner := fun u inside => sound.owner u (mem_of_swapRemove slot inside)
  tids := (nodup_swapRemove Thread.tid slot sound.tids).1
  pidBound := sound.pidBound
  tidBounds := fun u inside => sound.tidBounds u (mem_of_swapRemove slot inside)
  signal := sound.signal
  kernel := fun kernel u inside => sound.kernel kernel u (mem_of_swapRemove slot inside)

theorem removed_queue (ready : t.state = .ready) (consistent : Consistent s {t.id})
    (removes : Removes s s' t) (sameQueue : s'.pqueue = s.pqueue) (sameCount : s'.nReadyThreads = s.nReadyThreads) :
    ∃ queue : List Td, Represents s'.pqueue queue ∧ s'.nReadyThreads = queue.length ∧ s'.idsIn .ready = queue + 0 := by
  obtain ⟨queue, ring, count, ids⟩ := consistent.queue
  refine ⟨queue, sameQueue ▸ ring, sameCount.trans count, ?_⟩
  have left := removes.ids .ready
  rw [idIf_same ready, ids] at left
  rw [add_zero]
  exact add_right_cancel left

theorem findIdx_pid (pids : (s.processes.map Process.pid).Nodup)
    (there : s.processes[i]? = some p) : s.processes.findIdx? (·.pid = p.pid) = some i := by
  rw [List.findIdx?_eq_some_iff_getElem]
  obtain ⟨bound, value⟩ := List.getElem?_eq_some_iff.1 there
  refine ⟨bound, by simp [value], ?_⟩
  intro k below same
  have earlier : s.processes[k]? = some s.processes[k] := List.getElem?_eq_getElem _
  have := (index_unique Process.pid pids earlier there (by simpa using same)).1
  omega

theorem threadTerminate_calm (calm : t.uninterruptible = false) : threadTerminate t = .ok () := by
  rw [threadTerminate, calm]
  rfl

theorem terminateMapped_faults (pml4 : Pml4) (map : MemMap) (calm : t.uninterruptible = false) :
    (terminateMapped pml4 map t).Ensures (·.aboutMapping) fun _ => True := by
  refine (isProcessMapped_faults pml4 _).bind fun mapped _ => ?_
  rw [threadTerminate_calm calm]
  cases mapped with
  | true => trivial
  | false => exact (processMap_faults pml4 map).bind fun pml4 _ => processUnmap_faults pml4

-- The state after the thread at `sel` has left its process.
def afterKill (s : State) (pml4 : Pml4) (sel : Selected) : State :=
  { s with pml4 }.setProcess sel.i { sel.p with threads := swapRemove sel.p.threads sel.j }

section kill

variable {s : State} {sel : Selected} (pml4 : Pml4)

theorem afterKill_there (points : sel.PointsInto s) :
    (afterKill s pml4 sel).processes[sel.i]? = some { sel.p with threads := swapRemove sel.p.threads sel.j } :=
  List.getElem?_set_self (lt_of_getElem? points.1)

theorem afterKill_pids (consistent : Consistent s {sel.t.id}) (points : sel.PointsInto s) :
    ((afterKill s pml4 sel).processes.map Process.pid).Nodup := by
  have same := map_set_same Process.pid points.1 { sel.p with threads := swapRemove sel.p.threads sel.j } rfl
  show ((s.processes.set sel.i _).map Process.pid).Nodup
  rw [same]
  exact consistent.pids

theorem kill_keepsProcess (consistent : Consistent s {sel.t.id}) (points : sel.PointsInto s)
    (ready : sel.t.state = .ready) (user : sel.p.pid ≠ kernelPid)
    (left : swapRemove sel.p.threads sel.j ≠ []) : Consistent (afterKill s pml4 sel) 0 where
  pids := afterKill_pids pml4 consistent points
  sound := forall_mem_set ((consistent.sound sel.p (mem_of_getElem? points.1)).withoutThread points.2 left) consistent.sound
  kernel := by
    obtain ⟨k, member, kernel⟩ := consistent.kernel
    exact ⟨k, mem_set_of_ne points.1 member (fun same => user (same ▸ kernel)) _, kernel⟩
  queue := removed_queue ready consistent (removes_setThreads pml4 points.1 points.2) rfl rfl

-- The process had no other thread and leaves the table too.
theorem kill_removesProcess (killedProcesses : List Process) (consistent : Consistent s {sel.t.id})
    (points : sel.PointsInto s) (ready : sel.t.state = .ready) (user : sel.p.pid ≠ kernelPid)
    (empty : swapRemove sel.p.threads sel.j = []) {s' : State}
    (after : s' = { afterKill s pml4 sel with
      killedProcesses, processes := swapRemove (afterKill s pml4 sel).processes sel.i }) :
    Consistent s' 0 ∧ Removes s s' sel.t := by
  have there := afterKill_there pml4 points
  have removes := removes_setThreads pml4 points.1 points.2
  have removes' : Removes s s' sel.t := by
    subst after
    constructor
    · intro state
      have table : (afterKill s pml4 sel).idsIn state = _ := sum_swapRemove (Process.idsIn state) there
      have nothing : ({ sel.p with threads := swapRemove sel.p.threads sel.j } : Process).idsIn state = 0 := by
        rw [Process.idsIn, empty]
        rfl
      rw [nothing, zero_add] at table
      rw [← removes.ids state]
      exact congrArg (· + sel.t.idIf state) table.symm
    · have table : (afterKill s pml4 sel).threadCount = _ := sum_swapRemove (fun p : Process => p.threads.length) there
      rw [empty, length_nil, zero_add] at table
      rw [← removes.count]
      exact congrArg (· + 1) table.symm
  obtain ⟨pids, different⟩ := nodup_swapRemove Process.pid there (afterKill_pids pml4 consistent points)
  subst after
  refine ⟨⟨pids, ?_, ?_, removed_queue ready consistent removes' rfl rfl⟩, removes'⟩
  · intro q member
    rcases mem_set_iff (mem_of_swapRemove there member) with same | inside
    · exact absurd (congrArg Process.pid same) (different q member)
    · exact consistent.sound q inside
  obtain ⟨k, member, kernel⟩ := consistent.kernel
  have stays := mem_set_of_ne points.1 member (fun same => user (same ▸ kernel))
    { sel.p with threads := swapRemove sel.p.threads sel.j }
  refine ⟨k, mem_swapRemove_of_ne there stays ?_, kernel⟩
  rintro rfl
  exact user kernel

end kill

theorem lazyKill_consistent (consistent : Consistent s {sel.t.id})
    (points : sel.PointsInto s) (ready : sel.t.state = .ready) (marked : sel.t.shouldExit = true)
    (calm : sel.t.uninterruptible = false) (idle : s.idsIn .running = 0) :
    (lazyKill s sel).Ensures (·.aboutMapping)
      fun s' => Consistent s' 0 ∧ s'.idsIn .running = 0 ∧ s'.threadCount < s.threadCount ∧
        s'.schedRunning = s.schedRunning := by
  have user : sel.p.pid ≠ kernelPid := by
    intro kernel
    have stays := consistent.unmarked sel.p (mem_of_getElem? points.1) kernel sel.t (mem_of_getElem? points.2)
    rw [marked] at stays
    cases stays
  have stillIdle : ∀ s' : State, Removes s s' sel.t -> s'.idsIn .running = 0 := by
    intro s' removes
    have left := removes.ids .running
    rwa [idIf_other (by rw [ready]; decide), add_zero, idle] at left
  refine (terminateMapped_faults s.pml4 sel.p.memMap calm).bind fun pml4 _ => ?_
  show Except.Ensures (if (swapRemove sel.p.threads sel.j).length = 0 then
    removeProcess (afterKill s pml4 sel) sel.p.pid else .ok (afterKill s pml4 sel)) _ _
  by_cases last : (swapRemove sel.p.threads sel.j).length = 0
  · have empty := eq_nil_of_length_eq_zero last
    have there := afterKill_there pml4 points
    have found := findIdx_pid (afterKill_pids pml4 consistent points) there
    rw [if_pos last, removeProcess, found]
    simp only [there]
    rw [if_neg (not_not.2 empty)]
    obtain ⟨consistent', removes⟩ := kill_removesProcess pml4
      ((afterKill s pml4 sel).killedProcesses ++ [{ sel.p with threads := swapRemove sel.p.threads sel.j }])
      consistent points ready user empty rfl
    refine ((processTriggerSignal_wakes _ sel.p.ppid sigchld).mono ?_ ?_).map
    · intro e fault
      exact absurd consistent'.healthy fault.2
    · rintro ⟨s', code⟩ wakes
      have fewer := removes.count
      refine ⟨wakes.consistent consistent', wakes.running.trans (stillIdle _ removes), ?_, wakes.schedRunning⟩
      rw [wakes.threadCount]
      exact Nat.lt_of_succ_le fewer.le
  · rw [if_neg last]
    have removes := removes_setThreads pml4 points.1 points.2
    have fewer := removes.count
    refine ⟨kill_keepsProcess pml4 consistent points ready user ?_, stillIdle _ removes, ?_, rfl⟩
    · intro empty
      exact last (by rw [empty]; rfl)
    · exact Nat.lt_of_succ_le fewer.le

theorem selectThread_consistent {fuel : Nat} (consistent : Consistent s 0)
    (idle : s.idsIn .running = 0) (enough : s.threadCount < fuel) :
    (selectThread fuel s).Ensures (·.aboutMapping)
      fun result => Consistent result.1 {result.2.t.id} ∧ result.2.PointsInto result.1 ∧
        result.2.t.state = .ready ∧ result.1.idsIn .running = 0 ∧
        result.1.schedRunning = s.schedRunning := by
  induction fuel generalizing s with
  | zero => exact absurd enough (Nat.not_lt_zero _)
  | succ fuel ih =>
    obtain ⟨s₁, sel, chosen, points, ready, consistent₁, pqueue, count, rfl⟩ := chooseNext_consistent consistent idle
    rw [selectThread, chosen]
    show Except.Ensures (checkSelected sel >>= _) _ _
    rw [checkSelected_passes consistent₁ points ready]
    split
    · next dies =>
      rw [Bool.and_eq_true, Bool.not_eq_true'] at dies
      refine (lazyKill_consistent consistent₁ points ready dies.1 dies.2 idle).bind ?_
      rintro s₂ ⟨consistent₂, idle₂, fewer, running⟩
      have fewer' : s₂.threadCount < s.threadCount := fewer
      refine (ih consistent₂ idle₂ (by omega)).mono (fun _ fault => fault) ?_
      rintro result ⟨consistent', points', ready', idle', running'⟩
      exact ⟨consistent', points', ready', idle', running'.trans running⟩
    · exact ⟨consistent₁, points, ready, idle, rfl⟩

theorem Process.Sound.setThread {t' : Thread} (sound : p.Sound) (slot : p.threads[j]? = some t) (id : t'.id = t.id)
    (kernel : p.pid = kernelPid -> t'.state ≠ .blocked ∧ t'.shouldExit = false ∧ t'.shouldBlock = false) :
    (p.setThread j t').Sound where
  threads := fun empty => sound.threads ((set_eq_nil_iff _ _).1 empty)
  owner := forall_mem_set ((congrArg Td.pid id).trans (sound.owner t (mem_of_getElem? slot))) sound.owner
  tids := by
    show ((p.threads.set j t').map Thread.tid).Nodup
    rw [map_set_same Thread.tid slot t' (congrArg Td.tid id)]
    exact sound.tids
  pidBound := sound.pidBound
  tidBounds := by
    refine forall_mem_set ?_ sound.tidBounds
    rw [show t'.tid = t.tid from congrArg Td.tid id]
    exact sound.tidBounds t (mem_of_getElem? slot)
  signal := sound.signal
  kernel := fun isKernel => forall_mem_set (kernel isKernel) (sound.kernel isKernel)

variable {popped' : Multiset Td}

-- What a change of one process leaves to check is the process and the queue.
theorem Consistent.replaceProcess (consistent : Consistent s popped) (there : s.processes[i]? = some p)
    (table : s'.processes = s.processes.set i p') (pid : p'.pid = p.pid) (sound : p'.Sound)
    (queue : ∃ queue : List Td, Represents s'.pqueue queue ∧ s'.nReadyThreads = queue.length ∧
      s'.idsIn .ready = queue + popped') : Consistent s' popped' where
  pids := by
    rw [table, map_set_same Process.pid there p' pid]
    exact consistent.pids
  sound := table ▸ forall_mem_set sound consistent.sound
  kernel := by
    obtain ⟨k, member, isKernel⟩ := consistent.kernel
    rw [table]
    by_cases same : k = p
    · exact ⟨p', mem_set (lt_of_getElem? there) _, pid.trans (same ▸ isKernel)⟩
    · exact ⟨k, mem_set_of_ne there member same _, isKernel⟩
  queue := queue

theorem Consistent.setThread (consistent : Consistent s popped) (there : s.processes[i]? = some p)
    (slot : p.threads[j]? = some t) (t' : Thread) (id : t'.id = t.id)
    (kernel : p.pid = kernelPid -> t'.state ≠ .blocked ∧ t'.shouldExit = false ∧ t'.shouldBlock = false)
    (table : s'.processes = s.processes.set i (p.setThread j t'))
    (queue : ∃ queue : List Td, Represents s'.pqueue queue ∧ s'.nReadyThreads = queue.length ∧
      s'.idsIn .ready = queue + popped') : Consistent s' popped' :=
  consistent.replaceProcess there table rfl ((consistent.sound p (mem_of_getElem? there)).setThread slot id kernel) queue

theorem resume_consistent (consistent : Consistent s {t.id})
    (there : s.processes[i]? = some p) (slot : p.threads[j]? = some t) (ready : t.state = .ready)
    (idle : s.idsIn .running = 0) :
    (resume s i j).Ensures (·.aboutMapping)
      fun s' => Consistent s' 0 ∧ s'.idsIn .running = {⟨s'.currentPid, s'.currentTid⟩} ∧
        s'.currentlyInIrq = false ∧ s'.schedRunning = s.schedRunning := by
  have sound := consistent.sound p (mem_of_getElem? there)
  have inside := mem_of_getElem? slot
  have owner := sound.owner t inside
  rw [resume, there]
  simp only [slot]
  refine (mapSelected_faults s.pml4 s.currentPid p.pid p.memMap).bind fun pml4 _ => ?_
  have kept : ¬ (p.sigCurrent.isSome = true ∧ (!p.sigReturnContext) = true) := by
    rw [sound.signal]
    cases p.sigCurrent <;> simp
  rw [if_neg kept, if_neg (not_not.2 ready)]
  refine ⟨consistent.setThread there slot { t with state := .running } rfl ?_ rfl ?_, ?_, rfl, rfl⟩
  · intro kernel
    exact ⟨by simp, (sound.kernel kernel t inside).2⟩
  · obtain ⟨queue, ring, count, ids⟩ := consistent.queue
    refine ⟨queue, ring, count, ?_⟩
    have left := idsIn_leave there slot { t with state := .running } ready (by simp)
    rw [ids] at left
    rw [add_zero]
    exact add_right_cancel left
  · have enters : (s.setProcess i (p.setThread j { t with state := .running })).idsIn .running =
        s.idsIn .running + {t.id} := idsIn_enter there slot _ (by simp [ready]) rfl
    rw [idle, zero_add] at enters
    rw [← owner]
    exact enters

theorem schedule_consistent (room : Bool) (consistent : Consistent s 0)
    (idle : s.idsIn .running = 0) (started : s.schedRunning = true) :
    (schedule room s).Ensures (·.aboutMapping)
      fun s' => Consistent s' 0 ∧ s'.idsIn .running = {⟨s'.currentPid, s'.currentTid⟩} ∧
        s'.currentlyInIrq = false ∧ s'.schedRunning = true := by
  have notStopped : ¬ (!s.schedRunning) = true := by simp [started]
  rw [schedule, if_neg notStopped]
  refine (selectThread_consistent consistent idle (Nat.lt_succ_self _)).bind ?_
  rintro ⟨s₁, sel⟩ ⟨consistent₁, points, ready, idle₁, running⟩
  have sound := consistent₁.sound sel.p (mem_of_getElem? points.1)
  refine ((deliverSignal_wakes points.1).mono ?_ fun _ wakes => wakes).bind ?_
  · intro e fault
    exact absurd ⟨consistent₁.healthy, idle₁, sound.signal⟩ fault.2
  intro s₂ wakes
  obtain ⟨p, there, related⟩ := forall₂_getElem? wakes.processes points.1
  obtain ⟨t, slot, same⟩ := forall₂_getElem? related.threads points.2
  have ready₂ : t.state = .ready := by
    rcases same.state with state | ⟨blocked, -⟩
    · exact state.trans ready
    · rw [ready] at blocked
      cases blocked
  have consistent₂ : Consistent s₂ {t.id} := by
    rw [same.id]
    exact wakes.consistent consistent₁
  refine (resume_consistent consistent₂ there slot ready₂ (wakes.running.trans idle₁)).mono (fun _ fault => fault) ?_
  rintro s' ⟨consistent', current, outside, running'⟩
  exact ⟨consistent', current, outside, running'.trans (wakes.schedRunning.trans (running.trans started))⟩

end Bincows.Sched
