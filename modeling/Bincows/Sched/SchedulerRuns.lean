import Bincows.Sched.Consistency

set_option autoImplicit false

/-! Interrupts, and between them whatever the running thread and the handlers do to threads and processes. Nested interrupts
and the shutdown are left out. -/

namespace Bincows.Sched

open Tables List

inductive Event where
  -- `int_common_handler` up to the handler of the interrupt, and after it.
  | irq
  | irqAck (room : Bool)
  | block (room : Bool)
  | unblock (pid tid : Nat)
  | sleepCancel (pid tid : Nat)
  -- Threads that go to sleep and that the timer wakes up.
  | setSleeping (sleepingThreads : List SleepingThread)
  | triggerSignal (pid : Nat) (signal : Fin 32)
  | createThread
  | createProcess (ppid pid : Nat) (map : MemMap)
  | killProcess (pid : Nat)
  | setFlags (pid tid : Nat) (shouldExit uninterruptible sigWait futexSignaled : Bool)
  | registerSignals (pid : Nat) (ignMask : BitVec 32)
  | endOfSignal
  | unmapUser
  | mapUser

def run (s : State) : Event -> Except Fault State
  | .irq => schedSave s
  | .irqAck room => schedIrqAck room s
  | .block room => schedBlock room s
  | .unblock pid tid => schedUnblock s pid tid
  | .sleepCancel pid tid => (sleepCancel s pid tid).map Prod.fst
  | .setSleeping sleepingThreads => .ok { s with sleepingThreads }
  | .triggerSignal pid signal => (processTriggerSignal s pid signal).map Prod.fst
  | .createThread => (schedCreateThread s s.currentPid).map Prod.fst
  | .createProcess ppid pid map => (schedCreateProcess s ppid pid map).map Prod.fst
  | .killProcess pid => .ok (schedKillProcess s pid)
  | .setFlags pid tid shouldExit uninterruptible sigWait futexSignaled =>
    .ok (setThreadFlags s pid tid shouldExit uninterruptible sigWait futexSignaled)
  | .registerSignals pid ignMask => .ok (processRegisterSignalSetup s pid ignMask)
  | .endOfSignal =>
    match schedGetProcess s s.currentPid with
    | none => .error (.noProcess s.currentPid)
    | some (i, p) => (processEndOfSignal s i p).map Prod.fst
  | .unmapUser => (processUnmap s.pml4).map fun pml4 => { s with pml4 }
  | .mapUser =>
    match schedGetProcess s s.currentPid with
    | none => .error (.noProcess s.currentPid)
    | some (_, p) => (processMap s.pml4 p.memMap).map fun pml4 => { s with pml4 }

def OwnMapped (s : State) : Prop := ∃ p ∈ s.processes, p.pid = s.currentPid ∧ p.pid ≠ kernelPid ∧
  Shows s.pml4 (some p.memMap)

/--
When an event may happen. New processes and threads get ids and page directories that no other one has; only
the idle process, which is the kernel, is never blocked nor killed.
-/
def Allowed (s : State) : Event -> Prop
  | .irq => s.currentlyInIrq = false
  | .irqAck _ => s.currentlyInIrq = true
  | .block _ => s.currentlyInIrq = false ∧ s.currentPid ≠ kernelPid
  | .createThread => s.currentlyInIrq = false ∧ OwnMapped s ∧
    ∀ p ∈ s.processes, p.pid = s.currentPid -> ∀ t ∈ p.threads, t.tid ≠ allocTid p
  | .createProcess _ pid map => Shows s.pml4 none ∧ 0 < pid ∧ pid ≤ maxPid ∧ map.Valid ∧
    ∀ p ∈ s.processes, p.pid ≠ pid ∧ (p.pid ≠ kernelPid -> p.memMap.Apart map)
  | .killProcess pid => pid ≠ kernelPid
  | .setFlags pid _ _ _ _ _ => pid ≠ kernelPid
  | .endOfSignal => OwnMapped s
  | .unmapUser => OwnMapped s
  | .mapUser => Shows s.pml4 none ∧ s.currentPid ≠ kernelPid
  | _ => True

def Step (s s' : State) : Prop := ∃ event, Allowed s event ∧ run s event = .ok s'

def boot : Except Fault State := schedInit >>= schedStart

def Reaches (s : State) : Prop := ∃ booted, boot = .ok booted ∧ Relation.ReflTransGen Step booted s

structure Invariant (s : State) : Prop where
  consistent : Consistent s 0
  separated : Separated s
  mapped : Shows s.pml4 none ∨ OwnMapped s
  started : s.schedRunning = true
  current : ∃ p ∈ s.processes, p.pid = s.currentPid
  outside : s.currentlyInIrq = false -> s.idsIn .running = {⟨s.currentPid, s.currentTid⟩}
  inside : s.currentlyInIrq = true -> s.idsIn .running = 0

variable {s s' : State}

theorem Wakes.inherits (wakes : Wakes s s') : Inherits s s' := by
  intro p' member'
  obtain ⟨p, member, related⟩ := forall₂_mem_right wakes.processes member'
  exact ⟨p, member, related.pid, related.memMap⟩

variable {p : Process}

theorem Wakes.process (wakes : Wakes s s') (member : p ∈ s.processes) :
    ∃ p' ∈ s'.processes, p'.pid = p.pid ∧ p'.memMap = p.memMap := by
  obtain ⟨i, there⟩ := getElem?_of_mem member
  obtain ⟨p', there', related⟩ := forall₂_getElem? wakes.processes there
  exact ⟨p', mem_of_getElem? there', related.pid, related.memMap⟩

variable {i j : Nat} {p' : Process} {t : Thread} {pqueue : PriorityQueue}

theorem inherits_set (there : s.processes[i]? = some p) (table : s'.processes = s.processes.set i p')
    (pid : p'.pid = p.pid) (memMap : p'.memMap = p.memMap) : Inherits s s' := by
  intro q' member'
  rw [table] at member'
  rcases mem_set_iff member' with rfl | old
  · exact ⟨p, mem_of_getElem? there, pid, memMap⟩
  · exact ⟨q', old, rfl, rfl⟩

theorem idsIn_setThread_same (slot : p.threads[j]? = some t) (t' : Thread)
    (id : t'.id = t.id) (state : t'.state = t.state) (st : ThreadState) :
    (p.setThread j t').idsIn st = p.idsIn st := by
  have threads : (p.setThread j t').idsIn st + t.idIf st = p.idsIn st + t'.idIf st := sum_set (Thread.idIf st) slot t'
  have same : t'.idIf st = t.idIf st := by
    rw [Thread.idIf, Thread.idIf, id, state]
  rw [same] at threads
  exact add_right_cancel threads

theorem schedule_invariant (room : Bool) (consistent : Consistent s 0) (separated : Separated s)
    (mapped : Shows s.pml4 none ∨ OwnMapped s) (idle : s.idsIn .running = 0) (started : s.schedRunning = true) :
    (schedule room s).Returns Invariant := by
  obtain ⟨view, isolated⟩ := isolated_of_mapped consistent.pids separated consistent.unmarked mapped
  refine ((schedule_consistent room consistent idle started).and (schedule_isolated room isolated)).mono ?_ ?_
  · rintro e ⟨about, notAbout⟩
    rw [about] at notAbout
    cases notAbout
  rintro s' ⟨⟨consistent', current, outside, started'⟩, p, member, t, inside, -, pid, tid, isolated'⟩
  refine ⟨consistent', isolated'.separated, ?_, started', ⟨p, member, pid⟩, fun _ => current, ?_⟩
  · have shows := isolated'.shows
    split at shows
    · exact .inl shows
    next kernel =>
      exact .inr ⟨p, member, pid, kernel, shows⟩
  · intro inIrq
    rw [outside] at inIrq
    cases inIrq

theorem Process.Sound.addThread (sound : p.Sound) (user : p.pid ≠ kernelPid) (t : Thread)
    (owner : t.pid = p.pid) (bounds : 0 < t.tid ∧ t.tid ≤ maxTid) (fresh : ∀ u ∈ p.threads, u.tid ≠ t.tid) :
    ({ p with threads := p.threads ++ [t] } : Process).Sound where
  threads := by simp
  owner := forall_mem_concat sound.owner owner
  tids := sound.tids.map_concat fresh
  pidBound := sound.pidBound
  tidBounds := forall_mem_concat sound.tidBounds bounds
  signal := sound.signal
  kernel := fun kernel => absurd kernel user

theorem allocTid_le (p : Process) : allocTid p ≤ maxTid := by
  rw [allocTid]
  simp only
  split
  · next small => exact small
  · split
    · next small => exact small
    · exact Nat.zero_le _

section

variable (invariant : Invariant s)
include invariant

theorem Invariant.never (e : Fault) (quiet : Quiet s e) : False :=
  quiet.2 invariant.consistent.healthy

-- Both states have the same processes, up to what the invariant does not speak of.
theorem Invariant.carry (inherits : Inherits s s')
    (survives : ∀ p ∈ s.processes, ∃ p' ∈ s'.processes, p'.pid = p.pid ∧ p'.memMap = p.memMap) (pml4 : s'.pml4 = s.pml4)
    (current : s'.currentPid = s.currentPid ∧ s'.currentTid = s.currentTid)
    (started : s'.schedRunning = s.schedRunning) (inIrq : s'.currentlyInIrq = s.currentlyInIrq)
    (running : s'.idsIn .running = s.idsIn .running) (consistent : Consistent s' 0) : Invariant s' := by
  refine ⟨consistent, invariant.separated.inherit inherits, ?_, started.trans invariant.started, ?_, ?_, ?_⟩
  · rw [pml4]
    rcases invariant.mapped with nothing | ⟨p, member, own, user, shows⟩
    · exact .inl nothing
    · obtain ⟨p', member', same, map⟩ := survives p member
      exact .inr ⟨p', member', by rw [same, own, current.1], same ▸ user, by rw [map, pml4]; exact shows⟩
  · obtain ⟨p, member, own⟩ := invariant.current
    obtain ⟨p', member', same, -⟩ := survives p member
    exact ⟨p', member', by rw [same, own, current.1]⟩
  · rw [inIrq, running, current.1, current.2]
    exact invariant.outside
  · rw [inIrq, running]
    exact invariant.inside

theorem Invariant.woken (wakes : Wakes s s') : Invariant s' :=
  invariant.carry wakes.inherits (fun _ member => wakes.process member) wakes.pml4 ⟨wakes.currentPid, wakes.currentTid⟩
    wakes.schedRunning wakes.currentlyInIrq wakes.running (wakes.consistent invariant.consistent)

section

variable (there : s.processes[i]? = some p)
include there

theorem Invariant.replaceProcess {nReadyThreads : Int} (pid : p'.pid = p.pid)
    (memMap : p'.memMap = p.memMap) (running : (s.setProcess i p').idsIn .running = s.idsIn .running)
    (consistent : Consistent { s.setProcess i p' with pqueue, nReadyThreads } 0) :
    Invariant { s.setProcess i p' with pqueue, nReadyThreads } := by
  refine invariant.carry (inherits_set there rfl pid memMap) ?_ rfl ⟨rfl, rfl⟩ rfl rfl running consistent
  intro q old
  by_cases same : q = p
  · exact ⟨p', mem_set (lt_of_getElem? there) _, same ▸ pid, same ▸ memMap⟩
  · exact ⟨q, mem_set_of_ne there old same _, rfl, rfl⟩

-- A record with the same threads in the same states keeps the accounts.
theorem Invariant.setProcess (pid : p'.pid = p.pid) (memMap : p'.memMap = p.memMap)
    (ids : ∀ state, p'.idsIn state = p.idsIn state) (sound : p'.Sound) : Invariant (s.setProcess i p') := by
  have accounts : ∀ state, (s.setProcess i p').idsIn state = s.idsIn state := by
    intro state
    have table := idsIn_setProcess there state p'
    rw [ids] at table
    exact add_right_cancel table
  have consistent : Consistent (s.setProcess i p') 0 := by
    apply invariant.consistent.replaceProcess there rfl pid sound
    rw [accounts]
    exact invariant.consistent.queue
  exact invariant.replaceProcess there pid memMap (accounts .running) consistent

theorem Invariant.setFlags (slot : p.threads[j]? = some t) (user : p.pid ≠ kernelPid) (t' : Thread)
    (id : t'.id = t.id) (state : t'.state = t.state) :
    Invariant (s.setProcess i (p.setThread j t')) := by
  have sound := invariant.consistent.sound p (mem_of_getElem? there)
  exact invariant.setProcess there rfl rfl (idsIn_setThread_same slot t' id state)
    (sound.setThread slot id fun kernel => absurd kernel user)

end

theorem Invariant.running (outside : s.currentlyInIrq = false) :
    ∃ i p j t, s.processes[i]? = some p ∧ p.threads[j]? = some t ∧ t.state = .running ∧
      t.id = ⟨s.currentPid, s.currentTid⟩ ∧ p.pid = s.currentPid ∧
      schedGetProcess s s.currentPid = some (i, p) ∧ schedGetThreadByTid p s.currentTid = some (j, t) := by
  have only : (⟨s.currentPid, s.currentTid⟩ : Td) ∈ s.idsIn .running := by
    rw [invariant.outside outside]
    exact Multiset.mem_singleton_self _
  obtain ⟨p, member, t, inside, running, id⟩ := mem_idsIn.1 only
  have sound := invariant.consistent.sound p member
  have tid : t.tid = s.currentTid := congrArg Td.tid id
  have pid : p.pid = s.currentPid := (sound.owner t inside).symm.trans (congrArg Td.pid id)
  obtain ⟨i, there⟩ := getElem?_of_mem member
  obtain ⟨j, slot⟩ := getElem?_of_mem inside
  refine ⟨i, p, j, t, there, slot, running, id, pid, ?_, ?_⟩
  · rw [← pid]
    exact schedGetProcess_finds invariant.consistent.pids there
  · rw [← tid]
    exact schedGetThreadByTid_finds sound.tids slot

theorem Invariant.currentProcess :
    ∃ i p, s.processes[i]? = some p ∧ p.pid = s.currentPid ∧ schedGetProcess s s.currentPid = some (i, p) := by
  obtain ⟨p, member, current⟩ := invariant.current
  obtain ⟨i, there⟩ := getElem?_of_mem member
  refine ⟨i, p, there, current, ?_⟩
  rw [← current]
  exact schedGetProcess_finds invariant.consistent.pids there

theorem Invariant.ownProcess (there : s.processes[i]? = some p) (pid : p.pid = s.currentPid)
    (mapped : OwnMapped s) : p.pid ≠ kernelPid ∧ p.memMap.Valid ∧ Shows s.pml4 (some p.memMap) := by
  obtain ⟨q, member, current, user, shows⟩ := mapped
  obtain rfl := inj_on_of_nodup_map invariant.consistent.pids member (mem_of_getElem? there) (current.trans pid.symm)
  exact ⟨user, invariant.separated.valid q member user, shows⟩

-- The interrupted thread has left the CPU; its process stays where it is.
theorem Invariant.saved
    (outside : s.currentlyInIrq = false) (there : s.processes[i]? = some p) (slot : p.threads[j]? = some t)
    (running : t.state = .running) (pid : p.pid = s.currentPid) (t' : Thread) (stopped : t'.state ≠ .running)
    {nReadyThreads : Int}
    (consistent : Consistent { s.setProcess i (p.setThread j t') with pqueue, nReadyThreads, currentlyInIrq := true } 0) :
    Invariant { s.setProcess i (p.setThread j t') with pqueue, nReadyThreads, currentlyInIrq := true } where
  consistent := consistent
  separated := invariant.separated.inherit (inherits_set there rfl rfl rfl)
  mapped := by
    rcases invariant.mapped with nothing | own
    · exact .inl nothing
    · obtain ⟨user, -, shows⟩ := invariant.ownProcess there pid own
      exact .inr ⟨_, mem_set (lt_of_getElem? there) _, pid, user, shows⟩
  started := invariant.started
  current := ⟨_, mem_set (lt_of_getElem? there) _, pid⟩
  outside := nofun
  inside := by
    intro _
    have left := idsIn_leave there slot t' running stopped
    rw [invariant.outside outside] at left
    have sizes := congrArg Multiset.card left
    rw [Multiset.card_add, Multiset.card_singleton, Multiset.card_singleton] at sizes
    exact Multiset.card_eq_zero.1 (Nat.add_right_cancel (sizes.trans (Nat.zero_add 1).symm))

theorem schedSave_invariant (outside : s.currentlyInIrq = false) :
    (schedSave s).Returns fun s' => Invariant s' ∧ s'.currentlyInIrq = true := by
  obtain ⟨i, p, j, t, there, slot, running, id, pid, found, foundThread⟩ := invariant.running outside
  have sound := invariant.consistent.sound p (mem_of_getElem? there)
  have inside := mem_of_getElem? slot
  obtain ⟨queue, ring, count, ready⟩ := invariant.consistent.queue
  rw [schedSave, found]
  simp only [foundThread]
  split
  next shouldBlock =>
    have user : p.pid ≠ kernelPid := by
      intro kernel
      have unblocked := (sound.kernel kernel t inside).2.2
      rw [shouldBlock] at unblocked
      cases unblocked
    refine ⟨invariant.saved outside there slot running pid { t with shouldBlock := false, state := .blocked } nofun ?_, rfl⟩
    refine invariant.consistent.setThread there slot { t with shouldBlock := false, state := .blocked } rfl
      (fun kernel => absurd kernel user) rfl ⟨queue, ring, count, ?_⟩
    rw [← ready]
    exact idsIn_stay there slot _ (by simp [running]) (by simp)
  · have idTid : s.currentTid = t.tid := (congrArg Td.tid id).symm
    refine (schedPushReadyThread_pushes _ _ _).mono ?_ ?_
    · rintro e ⟨-, full⟩
      refine full ⟨⟨queue, ring⟩, ?_, ?_⟩
      · exact pid ▸ sound.pidBound
      · exact idTid ▸ (sound.tidBounds t inside).2
    rintro s' ⟨pqueue, rfl, pushed⟩
    obtain ⟨ring', count'⟩ := pushed queue ring count
    refine ⟨invariant.saved outside there slot running pid { t with state := .ready } nofun ?_, rfl⟩
    refine invariant.consistent.setThread there slot { t with state := .ready } rfl ?_ rfl
      ⟨_, ring', count', ?_⟩
    · intro kernel
      exact ⟨by simp, (sound.kernel kernel t inside).2⟩
    · have enters : (s.setProcess i (p.setThread j { t with state := .ready })).idsIn .ready =
          s.idsIn .ready + {t.id} := idsIn_enter there slot _ (by simp [running]) rfl
      rw [ready, id] at enters
      rw [← Multiset.coe_add, Multiset.coe_singleton, add_zero]
      rw [add_zero] at enters
      exact enters

theorem schedIrqAck_invariant (room : Bool) (inIrq : s.currentlyInIrq = true) : (schedIrqAck room s).Returns Invariant := by
  obtain ⟨i, p, -, -, found⟩ := invariant.currentProcess
  have entered : ¬ (!s.currentlyInIrq) = true := by simp [inIrq]
  rw [schedIrqAck, if_neg entered, found]
  exact schedule_invariant room invariant.consistent invariant.separated invariant.mapped
    (invariant.inside inIrq) invariant.started

theorem schedBlock_invariant (room : Bool) (outside : s.currentlyInIrq = false)
    (user : s.currentPid ≠ kernelPid) : (schedBlock room s).Returns Invariant := by
  obtain ⟨i, p, j, t, there, slot, running, id, pid, found, foundThread⟩ := invariant.running outside
  have notInIrq : ¬ s.currentlyInIrq = true := by simp [outside]
  rw [schedBlock, if_neg notInIrq, if_neg user, found]
  simp only [foundThread]
  have marked : Invariant (s.setProcess i (p.setThread j { t with shouldBlock := true })) :=
    invariant.setFlags there slot (pid ▸ user) _ rfl rfl
  refine (schedSave_invariant marked outside).bind ?_
  rintro s' ⟨invariant', inIrq⟩
  exact schedule_invariant room invariant'.consistent invariant'.separated invariant'.mapped
    (invariant'.inside inIrq) invariant'.started

-- The new thread stands at the end of the array and is queued at once.
theorem schedLaunchThread_invariant
    (there : s.processes[i]? = some p) (user : p.pid ≠ kernelPid) (t : Thread) (owner : t.pid = p.pid)
    (bounds : 0 < t.tid ∧ t.tid ≤ maxTid) (fresh : ∀ u ∈ p.threads, u.tid ≠ t.tid) :
    (schedLaunchThread s i { p with threads := p.threads ++ [t] } p.threads.length t).Ensures (fun _ => False) Invariant := by
  have sound := invariant.consistent.sound p (mem_of_getElem? there)
  let launched : Thread := { t with state := .ready }
  let p' : Process := { p with threads := p.threads ++ [launched] }
  have appended : ({ p with threads := p.threads ++ [t] } : Process).setThread p.threads.length launched = p' := by
    rw [Process.setThread]
    simp only [set_split, p']
  have accounts : ∀ state, (s.setProcess i p').idsIn state = s.idsIn state + launched.idIf state := by
    intro state
    have table := idsIn_setProcess there state p'
    have grown : p'.idsIn state = launched.idIf state + p.idsIn state := by
      simp [p', Process.idsIn, add_comm]
    rw [grown, ← add_assoc] at table
    exact add_right_cancel table
  obtain ⟨queue, ring, count, ready⟩ := invariant.consistent.queue
  rw [schedLaunchThread, appended]
  refine (schedPushReadyThread_pushes _ _ _).mono ?_ ?_
  · rintro e ⟨-, full⟩
    exact full ⟨⟨queue, ring⟩, owner.le.trans sound.pidBound, bounds.2⟩
  rintro s' ⟨pqueue, rfl, pushed⟩
  obtain ⟨ring', count'⟩ := pushed queue ring count
  refine invariant.replaceProcess there rfl rfl ?_ ?_
  · exact (accounts .running).trans (by simp [launched, Thread.idIf])
  refine invariant.consistent.replaceProcess there rfl rfl (sound.addThread user launched owner bounds fresh)
    ⟨_, ring', count', ?_⟩
  have queued : launched.idIf .ready = {⟨t.pid, t.tid⟩} := idIf_same rfl
  refine (accounts .ready).trans ?_
  rw [queued, ready, add_zero, add_zero, ← Multiset.coe_add, Multiset.coe_singleton]

theorem processCreateThread_invariant (there : s.processes[i]? = some p) (user : p.pid ≠ kernelPid) (valid : p.memMap.Valid)
    (shows : Shows s.pml4 (some p.memMap)) (fresh : ∀ t ∈ p.threads, t.tid ≠ allocTid p) :
    (processCreateThread s i p).Returns fun result => Invariant result.1 := by
  rw [processCreateThread, isProcessMapped_same valid shows]
  by_cases none : allocTid p = 0
  · rw [if_pos none]
    exact invariant
  · rw [if_neg none]
    refine (schedLaunchThread_invariant invariant there user _ rfl ⟨Nat.pos_of_ne_zero none, allocTid_le p⟩ fresh).bind ?_
    intro s' invariant'
    exact invariant'

theorem schedCreateThread_invariant (outside : s.currentlyInIrq = false)
    (mapped : OwnMapped s) (fresh : ∀ p ∈ s.processes, p.pid = s.currentPid -> ∀ t ∈ p.threads, t.tid ≠ allocTid p) :
    (schedCreateThread s s.currentPid).Returns fun result => Invariant result.1 := by
  obtain ⟨i, p, j, t, there, slot, running, id, pid, found, foundThread⟩ := invariant.running outside
  obtain ⟨user, valid, shows⟩ := invariant.ownProcess there pid mapped
  rw [schedCreateThread, found]
  simp only [foundThread]
  split
  · exact invariant
  · refine (processCreateThread_invariant invariant there user valid shows (fresh p (mem_of_getElem? there) pid)).bind ?_
    intro result invariant'
    exact invariant'

variable {pid : Nat} {map : MemMap}

-- The main thread is blocked until the creator unblocks it.
theorem Invariant.addProcess {ppid : Nat} {new : Process} {s' : State}
    (pml4 : Pml4) (nothing : Shows pml4 none) (positive : 0 < pid) (bound : pid ≤ maxPid) (valid : map.Valid)
    (fresh : ∀ p ∈ s.processes, p.pid ≠ pid ∧ (p.pid ≠ kernelPid -> p.memMap.Apart map))
    (made : new = { pid, ppid, memMap := map, threads := [{ pid, tid := firstTid }] })
    (after : s' = { s with pml4, processes := s.processes ++ [new] }) : Invariant s' := by
  have user : pid ≠ kernelPid := positive.ne'
  have accounts : ∀ state, state ≠ .blocked -> s'.idsIn state = s.idsIn state := by
    intro state awake
    have asleep : ({ pid, tid := firstTid } : Thread).idIf state = 0 := idIf_other (Ne.symm awake)
    simp [State.idsIn, Process.idsIn, asleep, after, made]
  subst made after
  refine ⟨⟨?_, ?_, ?_, ?_⟩, ⟨?_, ?_⟩, .inl nothing, invariant.started, ?_, ?_, ?_⟩
  · exact invariant.consistent.pids.map_concat fun p inside => (fresh p inside).1
  · refine forall_mem_concat invariant.consistent.sound ?_
    exact ⟨by simp, by simp, by simp, bound, by simp [firstTid, maxTid], rfl, fun kernel => absurd kernel user⟩
  · obtain ⟨k, member, kernel⟩ := invariant.consistent.kernel
    exact ⟨k, mem_append_left _ member, kernel⟩
  · rw [accounts .ready (by decide)]
    exact invariant.consistent.queue
  · exact forall_mem_concat invariant.separated.valid (fun _ => valid)
  · intro p member q qMember isUser qUser different
    rcases mem_concat.1 member with old | rfl
    · rcases mem_concat.1 qMember with qOld | rfl
      · exact invariant.separated.apart p old q qOld isUser qUser different
      · exact (fresh p old).2 isUser
    · rcases mem_concat.1 qMember with qOld | rfl
      · exact ⟨((fresh q qOld).2 qUser).1.symm, ((fresh q qOld).2 qUser).2.symm⟩
      · exact absurd rfl different
  · obtain ⟨p, member, current⟩ := invariant.current
    exact ⟨p, mem_append_left _ member, current⟩
  · rw [accounts .running (by decide)]
    exact invariant.outside
  · rw [accounts .running (by decide)]
    exact invariant.inside

theorem schedCreateProcess_invariant (ppid : Nat)
    (nothing : Shows s.pml4 none) (positive : 0 < pid) (bound : pid ≤ maxPid)
    (valid : map.Valid) (fresh : ∀ p ∈ s.processes, p.pid ≠ pid ∧ (p.pid ≠ kernelPid -> p.memMap.Apart map)) :
    (schedCreateProcess s ppid pid map).Returns fun result => Invariant result.1 := by
  rw [schedCreateProcess]
  split
  · exact invariant
  next k parent _ =>
  obtain ⟨mapped, maps, showsMap⟩ := processMap_shows valid nothing (by simp) (by simp)
  obtain ⟨pml4, unmaps, showsNone⟩ := processUnmap_shows valid showsMap
  have anyMapped : isProcessMapped s.pml4 none = .ok false := isProcessMapped_any (by simp) nothing
  have maps' : userMap s.pml4 map = .ok mapped := maps
  rw [anyMapped]
  rw [maps']
  show Except.Ensures (processUnmap mapped >>= _) _ _
  rw [unmaps]
  exact invariant.addProcess pml4 showsNone positive bound valid fresh rfl rfl

theorem schedKillProcess_invariant (user : pid ≠ kernelPid) : Invariant (schedKillProcess s pid) := by
  rw [schedKillProcess]
  split
  · exact invariant
  next i p found =>
  obtain ⟨there, same⟩ := schedGetProcess_some found
  have sound := invariant.consistent.sound p (mem_of_getElem? there)
  refine invariant.setProcess there rfl rfl (fun state => idsIn_map state p.threads fun t => rfl) ?_
  constructor
  · simpa using sound.threads
  · simpa using sound.owner
  · simpa [Function.comp_def] using sound.tids
  · exact sound.pidBound
  · simpa using sound.tidBounds
  · exact sound.signal
  · intro kernel
    exact absurd kernel (same ▸ user)

theorem setThreadFlags_invariant (user : pid ≠ kernelPid)
    (tid : Nat) (shouldExit uninterruptible sigWait futexSignaled : Bool) :
    Invariant (setThreadFlags s pid tid shouldExit uninterruptible sigWait futexSignaled) := by
  rw [setThreadFlags]
  split
  · exact invariant
  next i p found =>
  obtain ⟨there, same⟩ := schedGetProcess_some found
  split
  · exact invariant
  · next j t foundThread =>
    exact invariant.setFlags there (schedGetThreadByTid_some foundThread).1 (same ▸ user) _ rfl rfl

theorem processRegisterSignalSetup_invariant (pid : Nat)
    (ignMask : BitVec 32) : Invariant (processRegisterSignalSetup s pid ignMask) := by
  rw [processRegisterSignalSetup]
  split
  · exact invariant
  · next i p found =>
    obtain ⟨there, -⟩ := schedGetProcess_some found
    exact invariant.setProcess there rfl rfl (fun _ => rfl) { invariant.consistent.sound p (mem_of_getElem? there) with }

theorem processEndOfSignal_invariant
    (there : s.processes[i]? = some p) (valid : p.memMap.Valid) (shows : Shows s.pml4 (some p.memMap)) :
    (processEndOfSignal s i p).Returns fun result => Invariant result.1 := by
  have sound := invariant.consistent.sound p (mem_of_getElem? there)
  rw [processEndOfSignal, isProcessMapped_same valid shows]
  by_cases idle : p.sigCurrent = none
  · rw [if_pos idle]
    exact invariant
  have context : ¬ (!p.sigReturnContext) = true := by
    rw [sound.signal, Option.isSome_iff_ne_none.2 idle]
    decide
  rw [if_neg idle, if_neg context]
  exact invariant.setProcess there rfl rfl (fun _ => rfl) { sound with signal := rfl }

theorem Invariant.remap (pml4 : Pml4) (mapped : Shows pml4 none ∨ OwnMapped { s with pml4 }) : Invariant { s with pml4 } :=
  { invariant with consistent := { invariant.consistent with }, separated := { invariant.separated with }, mapped }

end

theorem run_invariant {event : Event} (invariant : Invariant s) (allowed : Allowed s event) :
    (run s event).Returns Invariant := by
  have woken : ∀ {s' : State}, Wakes s s' -> Invariant s' := fun wakes => invariant.woken wakes
  cases event with
  | irq => exact (schedSave_invariant invariant allowed).mono (fun _ fault => fault) fun _ => And.left
  | irqAck room => exact schedIrqAck_invariant invariant room allowed
  | block room => exact schedBlock_invariant invariant room allowed.1 allowed.2
  | unblock pid tid => exact (schedUnblock_wakes s pid tid).mono invariant.never fun _ => woken
  | sleepCancel pid tid => exact ((sleepCancel_wakes s pid tid).mono invariant.never fun _ => woken).map
  | setSleeping sleepingThreads =>
    exact woken ⟨forall₂_refl Process.Wakes.refl _, rfl, rfl, rfl, rfl, rfl, (Wakes.refl s).woken⟩
  | triggerSignal pid signal =>
    exact ((processTriggerSignal_wakes s pid signal).mono invariant.never fun _ => woken).map
  | createThread => exact (schedCreateThread_invariant invariant allowed.1 allowed.2.1 allowed.2.2).map
  | createProcess ppid pid map =>
    obtain ⟨nothing, positive, bound, valid, fresh⟩ := allowed
    exact (schedCreateProcess_invariant invariant ppid nothing positive bound valid fresh).map
  | killProcess pid => exact schedKillProcess_invariant invariant allowed
  | setFlags pid tid shouldExit uninterruptible sigWait futexSignaled =>
    exact setThreadFlags_invariant invariant allowed tid shouldExit uninterruptible sigWait futexSignaled
  | registerSignals pid ignMask => exact processRegisterSignalSetup_invariant invariant pid ignMask
  | endOfSignal =>
    obtain ⟨i, p, there, current, found⟩ := invariant.currentProcess
    obtain ⟨user, valid, shows⟩ := invariant.ownProcess there current allowed
    rw [run, found]
    exact (processEndOfSignal_invariant invariant there valid shows).map
  | unmapUser =>
    obtain ⟨p, member, current, user, shows⟩ := allowed
    obtain ⟨pml4, unmaps, nothing⟩ := processUnmap_shows (invariant.separated.valid p member user) shows
    rw [run, unmaps]
    exact invariant.remap pml4 (.inl nothing)
  | mapUser =>
    obtain ⟨nothing, user⟩ := allowed
    obtain ⟨i, p, there, current, found⟩ := invariant.currentProcess
    have member := mem_of_getElem? there
    have isUser : p.pid ≠ kernelPid := current ▸ user
    obtain ⟨pml4, maps, shows⟩ := processMap_shows (invariant.separated.valid p member isUser) nothing (by simp) (by simp)
    rw [run, found]
    simp only [maps]
    exact invariant.remap pml4 (.inr ⟨p, member, current, isUser, shows⟩)

def initialized : State :=
  { processes := [{ kernelProcess with threads := [{ pid := kernelPid, tid := 1, state := .ready }] }]
    killedProcesses := []
    pqueue := ⟨[⟨kernelPid, 1⟩, filler, filler], 0, 1, 3⟩
    nReadyThreads := 1
    currentPid := kernelPid
    currentTid := 0
    schedRunning := false
    currentlyInIrq := false
    sleepingThreads := []
    pml4 := fun _ => 0 }

theorem schedInit_eq : schedInit = .ok initialized := rfl

theorem initialized_consistent : Consistent { initialized with schedRunning := true } 0 where
  pids := nodup_singleton _
  sound := by
    intro p member
    rw [mem_singleton.1 member]
    exact ⟨by simp, by simp [kernelProcess], by simp, by decide, by simp [maxTid], rfl, by simp⟩
  kernel := ⟨_, mem_singleton_self _, rfl⟩
  queue := by
    obtain ⟨pqueue, pushed, ring⟩ := pqueuePush_represents represents_init ⟨kernelPid, 1⟩
    cases pushed
    exact ⟨[⟨kernelPid, 1⟩], ring, rfl, rfl⟩

theorem boot_invariant : boot.Returns Invariant := by
  have onlyKernel : ∀ p ∈ initialized.processes, ¬ p.pid ≠ kernelPid := by decide
  rw [boot, schedInit_eq]
  refine schedule_invariant true initialized_consistent ⟨?_, ?_⟩ (.inl ⟨rfl, rfl⟩) rfl rfl
  · intro p member user
    exact absurd user (onlyKernel p member)
  · intro p member q _ user
    exact absurd user (onlyKernel p member)

theorem reaches_invariant (reaches : Reaches s) : Invariant s := by
  obtain ⟨booted, boots, steps⟩ := reaches
  refine steps.invariant Invariant (boot_invariant.of_ok boots) ?_
  rintro s s' invariant ⟨event, allowed, result⟩
  exact (run_invariant invariant allowed).of_ok result

theorem sum_coe {A B : Type} (f : A -> List B) (xs : List A) :
    (xs.map fun x => (f x : Multiset B)).sum = (xs.flatMap f : List B) := by
  rw [← Multiset.coe_bind, ← Multiset.sum_coe]
  rfl

theorem process_idsIn_eq (state : ThreadState) (p : Process) :
    p.idsIn state = ((p.threads.filter (·.state = state)).map Thread.id : List Td) := by
  rw [Process.idsIn]
  induction p.threads with
  | nil => rfl
  | cons t rest ih =>
    rw [map_cons, sum_cons, ih]
    by_cases matching : t.state = state
    · rw [idIf_same matching, filter_cons_of_pos (by simpa using matching), map_cons,
        Multiset.singleton_add, Multiset.cons_coe]
    · rw [idIf_other matching, filter_cons_of_neg (by simpa using matching), zero_add]

variable {popped : Multiset Td}

theorem Consistent.ids_nodup (consistent : Consistent s popped) (state : ThreadState) : (s.idsIn state).Nodup := by
  have flat : s.idsIn state = (s.processes.flatMap fun p =>
      (p.threads.filter (·.state = state)).map Thread.id : List Td) := by
    rw [State.idsIn, ← sum_coe]
    congr 1
    exact map_congr_left fun p _ => process_idsIn_eq state p
  rw [flat, Multiset.coe_nodup, nodup_flatMap]
  constructor
  · intro p member
    have sound := consistent.sound p member
    have tids : (((p.threads.filter (·.state = state)).map Thread.id).map Td.tid).Nodup := by
      rw [map_map]
      exact sound.tids.sublist (filter_sublist.map Thread.tid)
    exact tids.of_map _
  · refine (Pairwise.of_map Process.pid (fun _ _ same => same) consistent.pids).imp_of_mem ?_
    intro p q member qMember different id inP inQ
    obtain ⟨t, tInside, rfl⟩ := mem_map.1 inP
    obtain ⟨u, uInside, same⟩ := mem_map.1 inQ
    have pid := (consistent.sound p member).owner t (mem_of_mem_filter tInside)
    have qPid := (consistent.sound q qMember).owner u (mem_of_mem_filter uInside)
    exact different (by rw [← pid, ← qPid]; exact (congrArg Td.pid same).symm)

-- Ids name threads.
theorem Consistent.thread_unique (consistent : Consistent s popped)
    {q : Process} {u : Thread} (member : p ∈ s.processes) (qMember : q ∈ s.processes)
    (inside : t ∈ p.threads) (uInside : u ∈ q.threads) (same : t.id = u.id) : t = u := by
  have pid := (consistent.sound p member).owner t inside
  have qPid := (consistent.sound q qMember).owner u uInside
  have samePid : p.pid = q.pid := by
    rw [← pid, ← qPid]
    exact congrArg Td.pid same
  obtain rfl := inj_on_of_nodup_map consistent.pids member qMember samePid
  exact inj_on_of_nodup_map (consistent.sound p member).tids inside uInside (congrArg Td.tid same)

theorem Consistent.count_ready (consistent : Consistent s 0) (member : p ∈ s.processes)
    (inside : t ∈ p.threads) : (s.idsIn .ready).count t.id = if t.state = .ready then 1 else 0 := by
  split
  · next ready =>
    exact Multiset.count_eq_one_of_mem (consistent.ids_nodup .ready) (mem_idsIn.2 ⟨p, member, t, inside, ready, rfl⟩)
  next notReady =>
  apply Multiset.count_eq_zero_of_notMem
  intro queued
  obtain ⟨q, qMember, u, uInside, ready, same⟩ := mem_idsIn.1 queued
  rw [consistent.thread_unique qMember member uInside inside same] at ready
  exact notReady ready

/--
In every run of the scheduler the ready queue holds each `READY` thread once and no other thread, one thread
runs outside interrupts, and no event that may come next stops at an assertion: in particular the queue is
never empty when `choose_next` pops it.
-/
theorem ready_queue_exact {s : State} (reaches : Reaches s) :
    (∀ p ∈ s.processes, ∀ t ∈ p.threads, s.pqueue.entries.count t.id = if t.state = .ready then 1 else 0) ∧
    (∀ id ∈ s.pqueue.entries, ∃ p ∈ s.processes, ∃ t ∈ p.threads, t.id = id) ∧
    s.nReadyThreads = s.pqueue.entries.length ∧
    (s.currentlyInIrq = false -> s.idsIn .running = {⟨s.currentPid, s.currentTid⟩}) ∧
    ∀ event, Allowed s event -> ∃ s', run s event = .ok s' := by
  have invariant := reaches_invariant reaches
  obtain ⟨queue, ring, count, ready⟩ := invariant.consistent.queue
  rw [add_zero] at ready
  rw [entries_eq ring]
  refine ⟨?_, ?_, count, invariant.outside, ?_⟩
  · intro p member t inside
    rw [← Multiset.coe_count, ← ready]
    exact invariant.consistent.count_ready member inside
  · intro id queued
    rw [← Multiset.mem_coe, ← ready] at queued
    obtain ⟨p, member, t, inside, -, same⟩ := mem_idsIn.1 queued
    exact ⟨p, member, t, inside, same⟩
  · intro event allowed
    obtain ⟨s', result, -⟩ := (run_invariant invariant allowed).returns fun _ impossible => impossible
    exact ⟨s', result⟩

-- The kernel thread runs.
def booted : State :=
  { initialized with
    processes := [{ kernelProcess with threads := [{ pid := kernelPid, tid := 1, state := .running }] }]
    pqueue := ⟨[⟨kernelPid, 1⟩, filler, filler], 1, 1, 3⟩
    nReadyThreads := 0
    currentTid := 1
    schedRunning := true }

def firstMap : MemMap := ⟨0x1000, 0x2000⟩

-- A first process is created and its thread unblocked, then an interrupt comes.
def created : State := (run booted (.createProcess kernelPid 1 firstMap)).toOption.getD booted

def unblocked : State := (run created (.unblock 1 1)).toOption.getD created

def interrupted : State := (run unblocked .irq).toOption.getD unblocked

theorem reaches_interrupted : Reaches interrupted := by
  have create : Step booted created := by
    refine ⟨.createProcess kernelPid 1 firstMap, ⟨⟨rfl, rfl⟩, by decide, by decide, ?_, ?_⟩, rfl⟩
    · exact ⟨by decide, by decide, by decide, by decide⟩
    · intro p member
      rw [mem_singleton.1 member]
      exact ⟨by decide, fun user => absurd rfl user⟩
  have unblock : Step created unblocked := ⟨.unblock 1 1, trivial, rfl⟩
  have interrupt : Step unblocked interrupted := ⟨.irq, rfl, rfl⟩
  exact ⟨booted, rfl, ((Relation.ReflTransGen.single create).tail unblock).tail interrupt⟩

theorem ready_queue_exact_interrupted :
    interrupted.pqueue.entries = [⟨1, 1⟩, ⟨0, 1⟩] ∧ interrupted.nReadyThreads = 2 ∧
      ∃ s', run interrupted (.irqAck true) = .ok s' := by
  have exact := ready_queue_exact reaches_interrupted
  have entries : interrupted.pqueue.entries = [⟨1, 1⟩, ⟨0, 1⟩] := by decide
  refine ⟨entries, ?_, exact.2.2.2.2 (.irqAck true) rfl⟩
  rw [exact.2.2.1, entries]
  rfl

/-- In every run user spaces stay apart, none but the current process's own is mapped, and the end of an interrupt resumes
a thread in its own space. -/
theorem runs_isolate {s : State} (reaches : Reaches s) :
    Separated s ∧ (Shows s.pml4 none ∨ OwnMapped s) ∧
      (s.currentlyInIrq = true -> ∀ room, ∃ s', schedule room s = .ok s' ∧ Resumed s') := by
  have invariant := reaches_invariant reaches
  obtain ⟨view, isolated⟩ := isolated_of_mapped invariant.consistent.pids invariant.separated
    invariant.consistent.unmarked invariant.mapped
  refine ⟨invariant.separated, invariant.mapped, fun inIrq room => ?_⟩
  obtain ⟨s', result, -⟩ := (schedule_invariant room invariant.consistent invariant.separated invariant.mapped
    (invariant.inside inIrq) invariant.started).returns fun _ impossible => impossible
  exact ⟨s', result, (schedule_isolated room isolated).of_ok result⟩

theorem runs_isolate_interrupted : ∃ s', schedule true interrupted = .ok s' ∧ Resumed s' :=
  (runs_isolate reaches_interrupted).2.2 rfl true

end Bincows.Sched
