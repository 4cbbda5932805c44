import Bincows.Sched.Waking

set_option autoImplicit false

namespace Bincows.Sched

open Tables List

structure Separated (s : State) : Prop where
  valid : ∀ p ∈ s.processes, p.pid ≠ kernelPid -> p.memMap.Valid
  apart : ∀ p ∈ s.processes, ∀ q ∈ s.processes, p.pid ≠ kernelPid -> q.pid ≠ kernelPid ->
    p.pid ≠ q.pid -> p.memMap.Apart q.memMap

def Inherits (s s' : State) : Prop := ∀ p' ∈ s'.processes, ∃ p ∈ s.processes, p'.pid = p.pid ∧
  p'.memMap = p.memMap

variable {s s' : State} {view : Option MemMap}

theorem Separated.inherit (separated : Separated s) (inherits : Inherits s s') : Separated s' := by
  constructor
  · intro p' member' user
    obtain ⟨p, member, pid, map⟩ := inherits p' member'
    rw [map]
    exact separated.valid p member (pid ▸ user)
  · intro p' member' q' qMember' user qUser different
    obtain ⟨p, member, pid, map⟩ := inherits p' member'
    obtain ⟨q, qMember, qPid, qMap⟩ := inherits q' qMember'
    rw [map, qMap]
    exact separated.apart p member q qMember (pid ▸ user) (qPid ▸ qUser) (pid ▸ qPid ▸ different)

def KernelUnmarked (s : State) : Prop :=
  ∀ p ∈ s.processes, p.pid = kernelPid -> ∀ t ∈ p.threads, t.shouldExit = false

/--
The slots show `view`: nothing, or the space of the interrupted process, which may be gone from the table
by then.
-/
structure Isolated (s : State) (view : Option MemMap) : Prop where
  pids : (s.processes.map Process.pid).Nodup
  separated : Separated s
  unmarked : KernelUnmarked s
  shows : Shows s.pml4 view
  viewValid : ∀ map ∈ view, map.Valid ∧ s.currentPid ≠ kernelPid
  viewOwn : ∀ map ∈ view, ∀ p ∈ s.processes, p.pid = s.currentPid -> p.memMap = map
  viewOther : ∀ map ∈ view, ∀ p ∈ s.processes, p.pid ≠ kernelPid -> p.pid ≠ s.currentPid -> map.Apart p.memMap

-- Every process of `s'` was one of `s`, with the same space and no newly marked thread.
def Descends (s s' : State) : Prop :=
  ∀ p' ∈ s'.processes, ∃ p ∈ s.processes, p'.pid = p.pid ∧ p'.memMap = p.memMap ∧
    ∀ t' ∈ p'.threads, ∃ t ∈ p.threads, t'.shouldExit = t.shouldExit

theorem Descends.refl (s : State) : Descends s s :=
  fun p member => ⟨p, member, rfl, rfl, fun t inside => ⟨t, inside, rfl⟩⟩

theorem Isolated.descends {view' : Option MemMap} (isolated : Isolated s view)
    (descends : Descends s s') (pids : (s'.processes.map Process.pid).Nodup)
    (current : s'.currentPid = s.currentPid) (shows : Shows s'.pml4 view')
    (fewer : view' = view ∨ view' = none) : Isolated s' view' where
  pids := pids
  separated := by
    apply isolated.separated.inherit
    intro p' member'
    obtain ⟨p, member, pid, map, -⟩ := descends p' member'
    exact ⟨p, member, pid, map⟩
  unmarked := by
    intro p' member' kernel t' inside'
    obtain ⟨p, member, pid, -, threads⟩ := descends p' member'
    obtain ⟨t, inside, same⟩ := threads t' inside'
    rw [same]
    exact isolated.unmarked p member (pid ▸ kernel) t inside
  shows := shows
  viewValid := by
    rcases fewer with rfl | rfl
    · exact current ▸ isolated.viewValid
    · simp
  viewOwn := by
    intro map shown p' member' own
    obtain ⟨p, member, pid, same, -⟩ := descends p' member'
    rcases fewer with rfl | rfl
    · rw [same]
      exact isolated.viewOwn map shown p member (by rw [← pid, own, current])
    · cases shown
  viewOther := by
    intro map shown p' member' user other
    obtain ⟨p, member, pid, same, -⟩ := descends p' member'
    rcases fewer with rfl | rfl
    · rw [same]
      exact isolated.viewOther map shown p member (pid ▸ user) (by rw [← pid, ← current]; exact other)
    · cases shown

theorem Wakes.descends (wakes : Wakes s s') : Descends s s' := by
  intro p' member'
  obtain ⟨p, member, related⟩ := forall₂_mem_right wakes.processes member'
  refine ⟨p, member, related.pid, related.memMap, ?_⟩
  intro t' inside'
  obtain ⟨t, inside, same⟩ := forall₂_mem_right related.threads inside'
  exact ⟨t, inside, same.shouldExit⟩

theorem Wakes.pids (wakes : Wakes s s') : s'.processes.map Process.pid = s.processes.map Process.pid :=
  forall₂_map_eq wakes.processes Process.pid fun _ _ related => related.pid

theorem Wakes.isolated (wakes : Wakes s s') (isolated : Isolated s view) : Isolated s' view :=
  isolated.descends wakes.descends (wakes.pids ▸ isolated.pids) wakes.currentPid (wakes.pml4 ▸ isolated.shows) (.inl rfl)

def Selected.PointsInto (sel : Selected) (s : State) : Prop :=
  s.processes[sel.i]? = some sel.p ∧ sel.p.threads[sel.j]? = some sel.t

theorem popReadyThread_pops (s : State) :
    (popReadyThread s).Ensures (·.aboutMapping = false)
      fun result => ∃ pqueue count, result.1 = { s with pqueue, nReadyThreads := count } := by
  have popped : (pqueuePop s.pqueue).Ensures (·.aboutMapping = false) fun _ => True := by
    rw [pqueuePop]
    split
    · rfl
    · split
      · trivial
      · rfl
  refine popped.bind ?_
  rintro ⟨thread, pqueue⟩ -
  show Except.Ensures (if _ then _ else _) _ _
  split
  · rfl
  · split
    · rfl
    · exact ⟨_, _, rfl⟩

theorem chooseNext_points (s : State) :
    (chooseNext s).Ensures (·.aboutMapping = false)
      fun result => result.2.PointsInto result.1 ∧ ∃ pqueue count, result.1 = { s with pqueue, nReadyThreads := count } := by
  refine (popReadyThread_pops s).bind ?_
  rintro ⟨s₁, ids⟩ popped
  simp only
  split
  · rfl
  next i p found =>
  split
  · rfl
  · next j t foundThread =>
    split
    · rfl
    · exact ⟨⟨(schedGetProcess_some found).1, (schedGetThreadByTid_some foundThread).1⟩, popped⟩

variable {t : Thread}

theorem terminateMapped_shows {pml4 : Pml4} {map : MemMap}
    (valid : map.Valid) (shows : Shows pml4 view) (validView : ∀ other ∈ view, other.Valid)
    (own : ∀ other ∈ view, other = map ∨ other.Apart map) (calm : t.uninterruptible = false) :
    ∃ pml4' view', terminateMapped pml4 map t = .ok pml4' ∧ Shows pml4' view' ∧ (view' = view ∨ view' = none) := by
  have terminates : threadTerminate t = .ok () := by
    rw [threadTerminate, calm]
    rfl
  by_cases mine : view = some map
  · subst mine
    refine ⟨pml4, some map, ?_, shows, .inl rfl⟩
    rw [terminateMapped, isProcessMapped_same valid shows]
    rw [terminates]
    rfl
  · have apart : ∀ other ∈ view, other.Apart map := by
      intro other shown
      rcases own other shown with rfl | apart
      · exact absurd shown mine
      · exact apart
    obtain ⟨mapped, maps, showsMap⟩ := processMap_shows valid shows validView apart
    obtain ⟨cleared, unmaps, showsNone⟩ := processUnmap_shows valid showsMap
    refine ⟨cleared, none, ?_, showsNone, .inr rfl⟩
    rw [terminateMapped, isProcessMapped_other valid shows validView apart]
    rw [maps]
    rw [terminates]
    exact unmaps

-- Either the process has left the table, or it was not found in it.
theorem removeProcess_removes (s : State) (pid : Nat) :
    (removeProcess s pid).Ensures (·.aboutMapping = false) fun s' => ∃ s₁, Wakes s₁ s' ∧
      (s₁ = s ∨ ∃ i p killedProcesses, s.processes[i]? = some p ∧
        s₁ = { s with killedProcesses, processes := swapRemove s.processes i }) := by
  rw [removeProcess]
  split
  · refine ((processTriggerSignal_wakes s 0 sigchld).mono (fun _ => And.left) ?_).map
    intro result wakes
    exact ⟨s, wakes, .inl rfl⟩
  next i _ =>
  split
  · rfl
  next p there =>
  split
  · rfl
  · refine ((processTriggerSignal_wakes _ p.ppid sigchld).mono (fun _ => And.left) ?_).map
    intro result wakes
    exact ⟨_, wakes, .inr ⟨i, p, _, there, rfl⟩⟩

variable {i j : Nat} {p : Process}

theorem descends_setThreads (pml4 : Pml4) (there : s.processes[i]? = some p) (slot : p.threads[j]? = some t) :
    Descends s ({ s with pml4 }.setProcess i { p with threads := swapRemove p.threads j }) := by
  refine forall_mem_set ⟨p, mem_of_getElem? there, rfl, rfl, ?_⟩ (Descends.refl s)
  exact fun t' inside => ⟨t', mem_of_swapRemove slot inside, rfl⟩

theorem lazyKill_isolated {sel : Selected} (isolated : Isolated s view)
    (points : sel.PointsInto s) (marked : sel.t.shouldExit = true) (calm : sel.t.uninterruptible = false) :
    (lazyKill s sel).Ensures (·.aboutMapping = false) fun s' => ∃ view', Isolated s' view' ∧
      s'.currentPid = s.currentPid := by
  obtain ⟨there, slot⟩ := points
  have member := mem_of_getElem? there
  have user : sel.p.pid ≠ kernelPid := by
    intro kernel
    have unmarked := isolated.unmarked sel.p member kernel sel.t (mem_of_getElem? slot)
    rw [marked] at unmarked
    cases unmarked
  have own : ∀ other ∈ view, other = sel.p.memMap ∨ other.Apart sel.p.memMap := by
    intro other shown
    by_cases current : sel.p.pid = s.currentPid
    · exact .inl (isolated.viewOwn other shown sel.p member current).symm
    · exact .inr (isolated.viewOther other shown sel.p member user current)
  obtain ⟨pml4, view', terminated, shows, fewer⟩ := terminateMapped_shows
    (isolated.separated.valid sel.p member user) isolated.shows
    (fun other shown => (isolated.viewValid other shown).1) own calm
  rw [lazyKill, terminated]
  show Except.Ensures (if _ then _ else _) _ _
  have isolated₁ : Isolated ({ s with pml4 }.setProcess sel.i
      { sel.p with threads := swapRemove sel.p.threads sel.j }) view' := by
    refine isolated.descends (descends_setThreads pml4 there slot) ?_ rfl shows fewer
    have same := map_set_same Process.pid there { sel.p with threads := swapRemove sel.p.threads sel.j } rfl
    show ((s.processes.set sel.i _).map Process.pid).Nodup
    rw [same]
    exact isolated.pids
  split
  · refine (removeProcess_removes _ _).mono (fun _ notMapping => notMapping) ?_
    rintro s' ⟨s₁, wakes, rfl | ⟨i, p, killed, found, rfl⟩⟩
    · exact ⟨view', wakes.isolated isolated₁, wakes.currentPid⟩
    · refine ⟨view', wakes.isolated (isolated₁.descends ?_ ?_ rfl shows (.inl rfl)), wakes.currentPid⟩
      · exact fun q inside => Descends.refl _ q (mem_of_swapRemove found inside)
      · exact (nodup_swapRemove Process.pid found isolated₁.pids).1
  · exact ⟨view', isolated₁, rfl⟩

theorem checkSelected_faults (sel : Selected) : (checkSelected sel).Ensures (·.aboutMapping = false) fun _ => True := by
  rw [checkSelected]
  split
  · rfl
  split
  · rfl
  · split
    · rfl
    · split
      · rfl
      · trivial

theorem selectThread_isolated {fuel : Nat} (isolated : Isolated s view) :
    (selectThread fuel s).Ensures (·.aboutMapping = false)
      fun result => result.2.PointsInto result.1 ∧ ∃ view', Isolated result.1 view' := by
  induction fuel generalizing s view with
  | zero => rfl
  | succ fuel ih =>
    refine (chooseNext_points s).bind ?_
    rintro ⟨s₁, sel⟩ ⟨points, pqueue, count, rfl⟩
    have isolated₁ : Isolated { s with pqueue, nReadyThreads := count } view :=
      isolated.descends (Descends.refl s) isolated.pids rfl isolated.shows (.inl rfl)
    refine (checkSelected_faults sel).bind fun _ _ => ?_
    split
    · next dies =>
      rw [Bool.and_eq_true, Bool.not_eq_true'] at dies
      refine (lazyKill_isolated isolated₁ points dies.1 dies.2).bind ?_
      rintro s₂ ⟨view', isolated₂, -⟩
      exact ih isolated₂
    · exact ⟨points, view, isolated₁⟩

section

variable (pids : (s.processes.map Process.pid).Nodup) (separated : Separated s)
  (unmarked : KernelUnmarked s)
include pids separated unmarked

theorem isolated_nothing (shows : Shows s.pml4 none) : Isolated s none := by
  refine ⟨pids, separated, unmarked, shows, ?_, ?_, ?_⟩ <;> intro map shown <;> cases shown

theorem isolated_current (member : p ∈ s.processes)
    (current : p.pid = s.currentPid) (user : p.pid ≠ kernelPid) (shows : Shows s.pml4 (some p.memMap)) :
    Isolated s (some p.memMap) := by
  refine ⟨pids, separated, unmarked, shows, ?_, ?_, ?_⟩
  · rintro map ⟨⟩
    exact ⟨separated.valid p member user, current ▸ user⟩
  · rintro map ⟨⟩ q qMember own
    obtain ⟨i, there⟩ := getElem?_of_mem member
    obtain ⟨k, elsewhere⟩ := getElem?_of_mem qMember
    rw [(index_unique Process.pid pids there elsewhere (current.trans own.symm)).2]
  · rintro map ⟨⟩ q qMember qUser other
    exact separated.apart p member q qMember user qUser fun same => other (same ▸ current)

theorem isolated_of_mapped
    (mapped : Shows s.pml4 none ∨ ∃ p ∈ s.processes, p.pid = s.currentPid ∧ p.pid ≠ kernelPid ∧
      Shows s.pml4 (some p.memMap)) :
    ∃ view, Isolated s view := by
  rcases mapped with shows | ⟨p, member, current, user, shows⟩
  · exact ⟨none, isolated_nothing pids separated unmarked shows⟩
  · exact ⟨some p.memMap, isolated_current pids separated unmarked member current user shows⟩

end

-- Running the selected thread changes neither spaces nor marks.
theorem Isolated.resumed (isolated : Isolated s view) (pml4 : Pml4)
    (there : s.processes[i]? = some p) (slot : p.threads[j]? = some t)
    (shows : Shows pml4 (if p.pid = kernelPid then none else some p.memMap)) :
    Isolated { s.setProcess i (p.setThread j { t with state := .running }) with
      pml4, currentPid := p.pid, currentTid := t.tid, currentlyInIrq := false }
      (if p.pid = kernelPid then none else some p.memMap) := by
  let runs := p.setThread j { t with state := .running }
  have descends : Descends s (s.setProcess i runs) := by
    refine forall_mem_set ⟨p, mem_of_getElem? there, rfl, rfl, ?_⟩ (Descends.refl s)
    exact forall_mem_set ⟨t, mem_of_getElem? slot, rfl⟩ fun t' inside => ⟨t', inside, rfl⟩
  have pids : ((s.processes.set i runs).map Process.pid).Nodup := by
    rw [map_set_same Process.pid there runs rfl]
    exact isolated.pids
  have table := isolated.descends descends pids rfl isolated.shows (.inl rfl)
  have member : runs ∈ s.processes.set i runs := mem_set (lt_of_getElem? there) _
  split
  · next kernel =>
    rw [if_pos kernel] at shows
    exact isolated_nothing pids ⟨table.separated.valid, table.separated.apart⟩ table.unmarked shows
  · next user =>
    rw [if_neg user] at shows
    exact isolated_current (p := runs) pids
      ⟨table.separated.valid, table.separated.apart⟩ table.unmarked member rfl user shows

def Resumed (s : State) : Prop :=
  ∃ p ∈ s.processes, ∃ t ∈ p.threads, t.state = .running ∧ p.pid = s.currentPid ∧
    t.tid = s.currentTid ∧ Isolated s (if p.pid = kernelPid then none else some p.memMap)

theorem resume_isolated (isolated : Isolated s view) (i j : Nat) :
    (resume s i j).Ensures (·.aboutMapping = false) Resumed := by
  rw [resume]
  split
  · rfl
  next p there =>
  split
  · rfl
  next t slot =>
  have member := mem_of_getElem? there
  obtain ⟨pml4, mapped, shows⟩ := mapSelected_shows isolated.shows
    (fun other shown => (isolated.viewValid other shown).1) (isolated.separated.valid p member)
    fun own other shown => ⟨own ▸ (isolated.viewValid other shown).2, (isolated.viewOwn other shown p member own).symm⟩
  rw [mapped]
  split
  · rfl
  split
  · rfl
  · refine ⟨p.setThread j { t with state := .running }, ?_, { t with state := .running }, ?_, rfl, rfl,
      rfl, isolated.resumed pml4 there slot shows⟩
    · exact mem_set (lt_of_getElem? there) _
    · exact mem_set (lt_of_getElem? slot) _

theorem schedule_isolated (room : Bool) (isolated : Isolated s view) :
    (schedule room s).Ensures (·.aboutMapping = false) Resumed := by
  rw [schedule]
  split
  · rfl
  refine (selectThread_isolated isolated).bind ?_
  rintro ⟨s₁, sel⟩ ⟨points, view₁, isolated₁⟩
  refine ((deliverSignal_wakes points.1).mono (fun _ => And.left) fun _ wakes => wakes).bind ?_
  intro s₂ wakes
  exact resume_isolated (wakes.isolated isolated₁) sel.i sel.j

/--
Whatever the ready queue holds and however many of its threads die first, `schedule` resumes a thread with
the space of its own process mapped, and none of its assertions on the mapped region fails.
-/
theorem schedule_isolates (room : Bool) {s : State} (pids : (s.processes.map Process.pid).Nodup)
    (separated : Separated s) (unmarked : KernelUnmarked s)
    (mapped : Shows s.pml4 none ∨ ∃ p ∈ s.processes, p.pid = s.currentPid ∧ p.pid ≠ kernelPid ∧
      Shows s.pml4 (some p.memMap)) :
    (∀ s', schedule room s = .ok s' ->
      ∃ p ∈ s'.processes, ∃ t ∈ p.threads, t.state = .running ∧ p.pid = s'.currentPid ∧
        t.tid = s'.currentTid ∧ Shows s'.pml4 (if p.pid = kernelPid then none else some p.memMap)) ∧
    ∀ e, schedule room s = .error e -> e.aboutMapping = false := by
  obtain ⟨view, isolated⟩ := isolated_of_mapped pids separated unmarked mapped
  have ensures := schedule_isolated room isolated
  refine ⟨?_, fun e result => ensures.of_error result⟩
  intro s' result
  obtain ⟨p, member, t, inside, running, pid, tid, isolated'⟩ := ensures.of_ok result
  exact ⟨p, member, t, inside, running, pid, tid, isolated'.shows⟩

-- Process 1 was interrupted and is mapped; the only thread of process 2 dies before process 1 resumes.
def twoProcesses (kernelExits : Bool) (second : MemMap) : State :=
  { processes :=
      [{ kernelProcess with
          threads := [{ pid := kernelPid, tid := 1, state := .ready, shouldExit := kernelExits }] },
        { pid := 1, ppid := 0, memMap := ⟨0x1000, 0x2000⟩, threads := [{ pid := 1, tid := 1, state := .ready }] },
        { pid := 2, ppid := 1, memMap := second,
          threads := [{ pid := 2, tid := 1, state := .ready, shouldExit := true }] }]
    killedProcesses := []
    pqueue := ⟨[⟨0, 1⟩, ⟨2, 1⟩, ⟨1, 1⟩, filler, filler, filler], if kernelExits then 0 else 1, 3, 6⟩
    nReadyThreads := if kernelExits then 3 else 2
    currentPid := 1
    currentTid := 1
    schedRunning := true
    currentlyInIrq := true
    sleepingThreads := []
    pml4 := Function.update (Function.update (fun _ => 0) 0 (privateFlags ||| 0x1000)) 2 (sharedFlags ||| 0x2000) }

def secondMap : MemMap := ⟨0x3000, 0x4000⟩

theorem twoProcesses_pids (kernelExits : Bool) (second : MemMap) :
    ((twoProcesses kernelExits second).processes.map Process.pid).Nodup := by
  show ([0, 1, 2] : List Nat).Nodup
  decide

theorem twoProcesses_separated (kernelExits : Bool) : Separated (twoProcesses kernelExits secondMap) := by
  have first : (⟨0x1000, 0x2000⟩ : MemMap).Valid := ⟨by decide, by decide, by decide, by decide⟩
  have second : secondMap.Valid := ⟨by decide, by decide, by decide, by decide⟩
  constructor
  · simp only [twoProcesses, forall_mem_cons]
    exact ⟨absurd rfl, fun _ => first, fun _ => second, nofun⟩
  have apart : (⟨0x1000, 0x2000⟩ : MemMap).Apart secondMap ∧ secondMap.Apart ⟨0x1000, 0x2000⟩ :=
    ⟨⟨by decide, by decide⟩, by decide, by decide⟩
  simp only [twoProcesses, forall_mem_cons]
  exact ⟨⟨absurd rfl, absurd rfl, absurd rfl, nofun⟩,
    ⟨fun _ => absurd rfl, fun _ _ => absurd rfl, fun _ _ _ => apart.1, nofun⟩,
    ⟨fun _ => absurd rfl, fun _ _ _ => apart.2, fun _ _ => absurd rfl, nofun⟩, nofun⟩

theorem twoProcesses_mapped (kernelExits : Bool) (second : MemMap) :
    Shows (twoProcesses kernelExits second).pml4 none ∨ ∃ p ∈ (twoProcesses kernelExits second).processes,
      p.pid = (twoProcesses kernelExits second).currentPid ∧ p.pid ≠ kernelPid ∧
      Shows (twoProcesses kernelExits second).pml4 (some p.memMap) := by
  right
  refine ⟨_, mem_cons_of_mem _ mem_cons_self, rfl, by decide, ?_⟩
  exact ⟨rfl, rfl⟩

theorem schedule_isolates_twoProcesses :
    ∃ s', schedule true (twoProcesses false secondMap) = .ok s' ∧ s'.killedProcesses.length = 1 ∧
      ∃ p ∈ s'.processes, ∃ t ∈ p.threads, t.state = .running ∧ p.pid = s'.currentPid ∧ t.tid = s'.currentTid ∧
        Shows s'.pml4 (if p.pid = kernelPid then none else some p.memMap) := by
  have unmarked : KernelUnmarked (twoProcesses false secondMap) := by
    unfold KernelUnmarked
    decide
  have isolates := schedule_isolates true (twoProcesses_pids false secondMap)
    (twoProcesses_separated false) unmarked (twoProcesses_mapped false secondMap)
  have evaluated : (schedule true (twoProcesses false secondMap)).map (fun s' =>
      s'.killedProcesses.length) = .ok 1 := by decide
  obtain ⟨s', result, killed⟩ := Except.map_eq_ok evaluated
  exact ⟨s', result, killed, isolates.1 s' result⟩

theorem error_of_map {A : Type} {x : Except Fault A} {e : Fault}
    (mapped : x.map (fun _ => ()) = .error e) : x = .error e := by
  cases x with
  | error e' => rw [Except.error.inj mapped]
  | ok a => cases mapped

theorem schedule_mapping_fails :
    ((∀ kernelExits second, ((twoProcesses kernelExits second).processes.map Process.pid).Nodup ∧
      (Shows (twoProcesses kernelExits second).pml4 none ∨
        ∃ p ∈ (twoProcesses kernelExits second).processes,
          p.pid = (twoProcesses kernelExits second).currentPid ∧ p.pid ≠ kernelPid ∧
          Shows (twoProcesses kernelExits second).pml4 (some p.memMap)))) ∧
    Separated (twoProcesses true secondMap) ∧
    schedule true (twoProcesses true secondMap) = .error .notMapped ∧
    KernelUnmarked (twoProcesses false ⟨0x1000, 0x4000⟩) ∧
    schedule true (twoProcesses false ⟨0x1000, 0x4000⟩) = .error .halfMapped ∧
    KernelUnmarked (twoProcesses false ⟨0, 0⟩) ∧
    schedule true (twoProcesses false ⟨0, 0⟩) = .error .notMapped := by
  refine ⟨fun kernelExits second => ⟨twoProcesses_pids _ _, twoProcesses_mapped _ _⟩,
    twoProcesses_separated true, error_of_map (by decide), ?_, error_of_map (by decide), ?_,
    error_of_map (by decide)⟩ <;>
  · unfold KernelUnmarked
    decide

end Bincows.Sched
