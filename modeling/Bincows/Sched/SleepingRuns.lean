import Bincows.Sched.Sleeping
import Mathlib.Data.List.TakeWhile

set_option autoImplicit false

namespace Bincows.Sched.Sleeping

open Histories Function

variable {w w' : World} {t u : ThreadId} {e : SleepingThread} {p : Pc} {action : Action}

structure Guarded (w : World) (t : ThreadId) : Prop where
  kernel : w.pc t ≠ .out -> t.pid ≠ 0
  starting : ∀ wakeupTime, w.pc t = .starting wakeupTime -> ¬ w.cpu.Blocked t
  blocked : ∀ wakeupTime, w.pc t = .blocked wakeupTime -> w.clock < wakeupTime ->
    Lasting w.sleeping t wakeupTime ∨ interruptedBlock w t = true ∧ ¬ w.cpu.Blocked t
  awake : ∀ wakeupTime, w.pc t = .woken wakeupTime ∨ w.pc t = .again wakeupTime ->
    ¬ w.cpu.Blocked t ∧ (w.clock < wakeupTime -> Lasting w.sleeping t wakeupTime)

structure Safe (w : World) : Prop where
  sound : w.cpu.Sound
  sorted : Sorted w.sleeping
  idle : ∀ t, t.pid = 0 -> ¬ w.cpu.Blocked t
  guarded : ∀ t, Guarded w t

theorem Guarded.mono (guarded : Guarded w t) (pc : w'.pc t = w.pc t) (clock : w.clock ≤ w'.clock)
    (lasting : ∀ wakeupTime, Inside w t wakeupTime -> w'.clock < wakeupTime ->
      Lasting w.sleeping t wakeupTime -> Lasting w'.sleeping t wakeupTime)
    (flags : ∀ wakeupTime, w.pc t = .blocked wakeupTime -> interruptedBlock w t = true -> interruptedBlock w' t = true)
    (awake : w'.cpu.Blocked t -> w.cpu.Blocked t) : Guarded w' t := by
  constructor
  · rw [pc]
    exact guarded.kernel
  · intro time stands blocked
    exact guarded.starting time (pc ▸ stands) (awake blocked)
  · intro time stands before
    rw [pc] at stands
    rcases guarded.blocked time stands (clock.trans_lt before) with entry | ⟨flagged, running⟩
    · exact .inl (lasting time (.inr (.inl stands)) before entry)
    · exact .inr ⟨flags time stands flagged, fun blocked => running (awake blocked)⟩
  · intro time stands
    rw [pc] at stands
    obtain ⟨running, entry⟩ := guarded.awake time stands
    refine ⟨fun blocked => running (awake blocked), fun before => ?_⟩
    exact lasting time (.inr (.inr stands)) before (entry (clock.trans_lt before))

def Stands (w : World) (t : ThreadId) : Pc -> Prop
  | .out => True
  | .starting _ => t.pid ≠ 0 ∧ ¬ w.cpu.Blocked t
  | .blocked time => t.pid ≠ 0 ∧ (w.clock < time ->
      Lasting w.sleeping t time ∨ interruptedBlock w t = true ∧ ¬ w.cpu.Blocked t)
  | .woken time | .again time => t.pid ≠ 0 ∧ ¬ w.cpu.Blocked t ∧ (w.clock < time -> Lasting w.sleeping t time)

theorem Guarded.of_stands (pc : w.pc t = p) (stands : Stands w t p) : Guarded w t := by
  subst pc
  constructor
  · intro inside
    cases pc : w.pc t <;> simp_all [Stands]
  · intro time pc
    simp_all [Stands]
  · intro time pc before
    simp_all [Stands]
  · rintro time (pc | pc) <;> simp_all [Stands]

theorem Guarded.of_out (out : w.pc t = .out) : Guarded w t := .of_stands out trivial

section

variable (safe : Safe w)
include safe

theorem Safe.setCpu {cpu : Cpu ThreadId} (sound : cpu.Sound)
    (awake : ∀ t, cpu.Blocked t -> w.cpu.Blocked t) : Safe { w with cpu } where
  sound := sound
  sorted := safe.sorted
  idle t kernel blocked := safe.idle t kernel (awake t blocked)
  guarded t := (safe.guarded t).mono rfl (Nat.le_refl _) (fun _ _ _ => id) (fun _ _ => id) (awake t)

theorem Safe.unblock (t : ThreadId) : Safe { w with cpu := w.cpu.schedUnblock t } := by
  obtain ⟨sound, -, blocked⟩ := Cpu.schedUnblock_blocked safe.sound t
  exact safe.setCpu sound fun u holds => ((blocked u).mp holds).1

theorem Safe.interrupt (next : ThreadId) : Safe (happen w (.interrupt next)) := by
  simp only [happen]
  cases switches : w.cpu.interrupt next with
  | none => exact safe
  | some cpu =>
    obtain ⟨sound, -, blocked⟩ := Cpu.interrupt_blocked safe.sound switches
    exact safe.setCpu sound fun u => (blocked u).mp

theorem Safe.tick : Safe (wakeupThreads w) := by
  obtain ⟨sound, -, blocked⟩ := Cpu.unblockAll_blocked safe.sound
    ((w.sleeping.takeWhile fun e => e.wakeupTime < w.clock).map SleepingThread.thread)
  have awake (u : ThreadId) (holds : (wakeupThreads w).cpu.Blocked u) : w.cpu.Blocked u := ((blocked u).mp holds).1
  constructor
  · exact sound
  · exact List.Pairwise.sublist (List.drop_sublist _ _) safe.sorted
  · exact fun t kernel holds => safe.idle t kernel (awake t holds)
  · exact fun t => (safe.guarded t).mono rfl (Nat.le_refl _)
      (fun _ _ before entry => entry.tick before) (fun _ _ => id) (awake t)

theorem Safe.time {now : Nat} (later : w.clock ≤ now) : Safe { w with clock := now } :=
  { safe with guarded := fun t => (safe.guarded t).mono rfl later (fun _ _ _ => id) (fun _ _ => id) id }

end

theorem interruptedBlock_iff : interruptedBlock w t = true ↔
    (t.tid = 1 ∧ w.sigCurrent t.pid = none ∧ w.sigPending t.pid ≠ 0) ∨ w.futexSignaled t = true ∨ w.shouldExit t = true := by
  rw [interruptedBlock, decide_eq_true_eq]

-- `w'` differs from `w` in the flags only.
theorem Safe.flags {sigPending : Nat -> BitVec 32} {sigCurrent : Nat -> Option Nat}
    {futexSignaled shouldExit : ThreadId -> Bool}
    (safe : Safe w) (signals : ∀ t time, w.pc t = .blocked time -> t.tid = 1 -> w.sigCurrent t.pid = none ->
      w.sigPending t.pid ≠ 0 -> sigCurrent t.pid = none ∧ sigPending t.pid ≠ 0)
    (futex : ∀ t, w.futexSignaled t = true -> futexSignaled t = true)
      (exits : ∀ t, w.shouldExit t = true -> shouldExit t = true) :
    Safe { w with sigPending, sigCurrent, futexSignaled, shouldExit } where
  sound := safe.sound
  sorted := safe.sorted
  idle := safe.idle
  guarded t := by
    refine (safe.guarded t).mono rfl (Nat.le_refl _) (fun _ _ _ => id) (fun time stands flagged => ?_) id
    rw [interruptedBlock_iff] at flagged ⊢
    exact flagged.imp (fun ⟨main, free, pending⟩ => ⟨main, signals t time stands main free pending⟩)
      (.imp (futex t) (exits t))

theorem Safe.raise (safe : Safe w) (pid signal : Nat) : Safe (raise w pid signal) := by
  unfold Sleeping.raise
  split
  · exact safe
  refine safe.flags (fun t _ _ _ free pending => ⟨free, ?_⟩) (fun _ => id) fun _ => id
  by_cases same : t.pid = pid
  · subst same
    rw [update_self]
    intro zero
    exact pending (BitVec.or_eq_zero_iff.mp zero).1
  · rwa [update_of_ne same]

theorem Safe.sigreturn (safe : Safe w) (pid : Nat) : Safe (happen w (.sigreturn pid)) := by
  refine safe.flags (fun t _ _ _ free pending => ⟨?_, pending⟩) (fun _ => id) fun _ => id
  by_cases same : t.pid = pid
  · rw [same, update_self]
  · rwa [update_of_ne same]

theorem update_true {f : ThreadId -> Bool} (holds : f t = true) : update f u true t = true := by
  by_cases same : t = u
  · rw [same, update_self]
  · rwa [update_of_ne same]

theorem Safe.futexSignal (safe : Safe w) (u : ThreadId) : Safe (happen w (.futexSignal u)) :=
  safe.flags (fun _ _ _ _ free pending => ⟨free, pending⟩) (fun _ => update_true) fun _ => id

theorem Safe.exit (safe : Safe w) (u : ThreadId) : Safe (happen w (.exit u)) :=
  safe.flags (fun _ _ _ _ free pending => ⟨free, pending⟩) (fun _ => id) fun _ => update_true

theorem sleepCancel_absent (absent : ∀ e ∈ w.sleeping, e.thread ≠ t) : sleepCancel w t = w := by
  rw [sleepCancel, if_neg]
  simpa using absent

theorem sleepCancel_present (member : e ∈ w.sleeping) :
    sleepCancel w e.thread = { w with cpu := w.cpu.schedUnblock e.thread, sleeping := cancelled w e.thread } := by
  rw [sleepCancel, if_pos]
  simp only [List.any_eq_true, decide_eq_true_eq]
  exact ⟨e, member, rfl⟩

theorem Safe.cancel_others (safe : Safe w) (here : Guarded (sleepCancel w t) t) : Safe (sleepCancel w t) := by
  by_cases present : ∃ e ∈ w.sleeping, e.thread = t
  · obtain ⟨e, member, rfl⟩ := present
    obtain ⟨sound, -, blocked⟩ := Cpu.schedUnblock_blocked safe.sound e.thread
    rw [sleepCancel_present member] at here ⊢
    refine ⟨sound, safe.sorted.sublist cancelled_sublist, fun t kernel holds =>
      safe.idle t kernel ((blocked t).mp holds).1, ?_⟩
    intro u
    by_cases same : u = e.thread
    · exact same ▸ here
    · refine (safe.guarded u).mono rfl (Nat.le_refl _) ?_ (fun _ _ => id) fun holds => ((blocked u).mp holds).1
      rintro time - - ⟨other, inside, own, late⟩
      exact ⟨other, (mem_cancelled_other (own ▸ same)).mpr inside, own, late⟩
  · push Not at present
    rw [sleepCancel_absent present]
    exact safe

theorem Safe.cancel_out (safe : Safe w) (out : w.pc t = .out) : Safe (sleepCancel w t) := by
  refine safe.cancel_others (.of_out ?_)
  unfold sleepCancel
  split
  · exact out
  · exact out

theorem Safe.handleSignal (safe : Safe w) (pid : Nat) : Safe (handleSignal w pid) := by
  unfold Sleeping.handleSignal
  split
  · exact safe
  next which _ =>
    split
    next ready =>
      have marked : Safe { w with
          sigCurrent := update w.sigCurrent pid (some which)
          sigPending := update w.sigPending pid (w.sigPending pid &&& ~~~sigBit which) } := by
        refine safe.flags (fun t _ stands main free pending => ?_) (fun _ => id) fun _ => id
        -- The main thread of this process is in no system call.
        have other : t.pid ≠ pid := by
          rintro rfl
          have same : mainThread t.pid = t := by
            rw [mainThread, ← main]
          rw [← same] at stands
          cases ready.2.1.symm.trans stands
        rw [update_of_ne other, update_of_ne other]
        exact ⟨free, pending⟩
      exact (marked.cancel_out ready.2.1).unblock _
    next => exact safe

theorem Guarded.fine {time : Nat} (guarded : Guarded w t) (before : w.clock < time) :
    (w.pc t = .blocked time -> interruptedBlock w t = true ∨ Lasting w.sleeping t time) ∧
      (w.pc t = .woken time ∨ w.pc t = .again time -> Lasting w.sleeping t time) := by
  refine ⟨fun stands => ?_, fun stands => (guarded.awake time stands).2 before⟩
  rcases guarded.blocked time stands before with entry | ⟨flagged, -⟩
  · exact .inr entry
  · exact .inl flagged

theorem Safe.cancel_iff (safe : Safe w) (open' : masked w = false) : Safe (sleepCancel w t) ↔
    Fine w (.event (.cancel t)) := by
  by_cases present : ∃ e ∈ w.sleeping, e.thread = t
  · obtain ⟨e, member, rfl⟩ := present
    obtain ⟨-, -, blocked⟩ := Cpu.schedUnblock_blocked safe.sound e.thread
    constructor
    · intro after _ time before
      rw [sleepCancel_present member] at after
      exact (after.guarded e.thread).fine before
    intro fine
    refine safe.cancel_others ?_
    rw [sleepCancel_present member]
    have running : ¬ (w.cpu.schedUnblock e.thread).Blocked e.thread := fun holds => ((blocked e.thread).mp holds).2 rfl
    refine ⟨(safe.guarded e.thread).kernel, fun _ _ => running, fun time stands before => ?_, fun time stands => ?_⟩
    · rcases (fine open' time before).1 stands with flagged | entry
      · exact .inr ⟨flagged, running⟩
      · exact .inl entry
    · exact ⟨running, fun before => (fine open' time before).2 stands⟩
  · push Not at present
    have same : cancelled w t = w.sleeping := by
      rw [cancelled, List.eraseP_of_forall_not (by simpa using present), List.reverse_reverse]
    rw [sleepCancel_absent present]
    refine iff_of_true safe ?_
    intro _ time before
    rw [same]
    exact (safe.guarded t).fine before

theorem Guarded.go_other (guarded : Guarded w t) (other : t ≠ w.cpu.current) : Guarded (go w p) t :=
  guarded.mono (update_of_ne other _ _) (Nat.le_refl _) (fun _ _ _ => id) (fun _ _ => id) id

theorem go_pc (p : Pc) : (go w p).pc w.cpu.current = p := update_self ..

section

variable (safe : Safe w)
include safe

theorem Safe.go (here : Guarded (go w p) w.cpu.current) : Safe (go w p) where
  sound := safe.sound
  sorted := safe.sorted
  idle := safe.idle
  guarded t := by
    by_cases same : t = w.cpu.current
    · exact same ▸ here
    · exact (safe.guarded t).go_other same

theorem Safe.sleep (ms : BitVec 32) : Safe (ownStep w (.sleep ms)) := by
  simp only [ownStep]
  split
  · split
    · exact safe
    next user =>
      exact safe.go (.of_stands (go_pc _) ⟨user, safe.sound.current_awake⟩)
  · exact safe

theorem Safe.check : Safe (ownStep w .check) := by
  simp only [ownStep]
  split
  next time stands =>
    have user := (safe.guarded w.cpu.current).kernel (by rw [stands]; exact Pc.noConfusion)
    obtain ⟨running, entry⟩ := (safe.guarded w.cpu.current).awake time (.inl stands)
    split
    · exact safe.go (.of_stands (go_pc _) ⟨user, running, entry⟩)
    · exact safe.go (.of_out (go_pc _))
  · exact safe

theorem Safe.resume : Safe (ownStep w .resume) := by
  simp only [ownStep]
  split
  next time stands =>
    have user := (safe.guarded w.cpu.current).kernel (by rw [stands]; exact Pc.noConfusion)
    have running := safe.sound.current_awake
    simp only [schedBlockReturns]
    split
    next =>
      -- The flag is the one of the current thread, which leaves.
      refine ⟨safe.sound, safe.sorted, safe.idle, fun t => ?_⟩
      by_cases same : t = w.cpu.current
      · rw [same]
        exact .of_out (go_pc _)
      refine (safe.guarded t).mono (update_of_ne same _ _) (Nat.le_refl _) (fun _ _ _ => id) ?_ id
      intro _ _ flagged
      rw [interruptedBlock_iff] at flagged ⊢
      refine flagged.imp_right (Or.imp_left fun holds => ?_)
      exact (update_of_ne same _ _).trans holds
    next notFlagged =>
      refine safe.go (.of_stands (go_pc _) ⟨user, running, fun before => ?_⟩)
      rcases (safe.guarded w.cpu.current).blocked time stands before with entry | ⟨flagged, -⟩
      · exact entry
      · exact absurd flagged notFlagged
  · exact safe

theorem Safe.switch {next : ThreadId} (user : w.cpu.current.pid ≠ 0)
    (stands : p = .out ∨ ∃ time, p = .blocked time ∧ (w.clock < time -> Lasting w.sleeping w.cpu.current time)) :
    Safe (switch w p next) := by
  unfold Sleeping.switch
  cases switches : w.cpu.schedBlock next with
  | none => exact safe
  | some cpu =>
    obtain ⟨sound, -, blocked⟩ := Cpu.schedBlock_blocked safe.sound switches
    refine ⟨sound, safe.sorted, fun t kernel holds => ?_, fun t => ?_⟩
    · rcases (blocked t).mp holds with rfl | before
      · exact user kernel
      · exact safe.idle t kernel before
    by_cases same : t = w.cpu.current
    · subst same
      rcases stands with rfl | ⟨time, rfl, entry⟩
      · exact .of_out (go_pc _)
      · exact .of_stands (go_pc _) ⟨user, fun before => .inl (entry before)⟩
    · refine (safe.guarded t).mono (update_of_ne same _ _) (Nat.le_refl _) (fun _ _ _ => id) (fun _ _ => id) ?_
      intro holds
      exact ((blocked t).mp holds).resolve_left same

theorem Safe.register (t : ThreadId) (time : Nat) : Safe (registerSleepingThread w t time) where
  sound := safe.sound
  sorted := safe.sorted.insert ⟨t, time⟩
  idle := safe.idle
  guarded u := (safe.guarded u).mono rfl (Nat.le_refl _)
    (fun _ _ _ ⟨e, member, own, late⟩ => ⟨e, (mem_registered t time).mpr (.inr member), own, late⟩) (fun _ _ => id) id

theorem Safe.block (next : ThreadId) : Safe (ownStep w (.block next)) := by
  have user {p : Pc} (stands : w.pc w.cpu.current = p) (inside : p ≠ .out) : w.cpu.current.pid ≠ 0 :=
    (safe.guarded w.cpu.current).kernel (stands ▸ inside)
  simp only [ownStep]
  split
  · split
    · exact safe
    next notKernel => exact safe.switch notKernel (.inl rfl)
  next time stands =>
    split
    · refine (safe.register w.cpu.current time).switch (user stands Pc.noConfusion) (.inr ⟨time, rfl, fun _ => ?_⟩)
      exact ⟨⟨w.cpu.current, time⟩, (mem_registered _ _).mpr (.inl rfl), rfl, Nat.le_succ time⟩
    · exact safe
  next time stands =>
    refine safe.switch (user stands Pc.noConfusion) (.inr ⟨time, rfl, ?_⟩)
    exact ((safe.guarded w.cpu.current).awake time (.inr stands)).2
  · exact safe

end

theorem Safe.registered (safe : Safe w) : Registered w := by
  constructor
  · intro t time inside blocked before
    rcases inside with stands | stands | stands
    · exact absurd blocked ((safe.guarded t).starting time stands)
    · rcases (safe.guarded t).blocked time stands before with ⟨e, member, own, -⟩ | ⟨-, running⟩
      · exact ⟨e, member, own⟩
      · exact absurd blocked running
    · exact absurd blocked ((safe.guarded t).awake time stands).1
  · intro e member due blocked
    obtain ⟨-, -, unblocked⟩ := Cpu.unblockAll_blocked safe.sound
      ((w.sleeping.takeWhile fun e => e.wakeupTime < w.clock).map SleepingThread.thread)
    refine ((unblocked e.thread).mp blocked).2 (List.mem_map_of_mem ?_)
    rcases due_or_late w.clock member with front | back
    · exact front
    · exact absurd due (late_of_dropWhile safe.sorted back).not_gt

theorem start_safe (current : ThreadId) (ignMask : Nat -> BitVec 32) : Safe (start current ignMask) := by
  have awake (t : ThreadId) : ¬ (start current ignMask).cpu.Blocked t := by
    show ¬ (if t = current then ThreadState.running else .ready) = .blocked
    split <;> exact ThreadState.noConfusion
  refine ⟨⟨fun _ => rfl, fun t => ?_⟩, List.Pairwise.nil, fun t _ => awake t, fun t => .of_out rfl⟩
  show (if t = current then ThreadState.running else .ready) = .running ↔ t = current
  split <;> simp_all

def Action.isCancel : Action -> Bool
  | .event (.cancel _) => true
  | _ => false

theorem perform_event {e : Event} (hidden : masked w = false) : perform w (.event e) = happen w e := by
  simp only [perform, hidden, Bool.false_eq_true, if_false]

theorem safe_perform (safe : Safe w) : Safe (perform w action) ↔ Fine w action := by
  cases action with
  | own step =>
    refine iff_of_true ?_ trivial
    cases step with
    | sleep ms => exact safe.sleep ms
    | block next => exact safe.block next
    | resume => exact safe.resume
    | check => exact safe.check
  | time now =>
    refine iff_of_true ?_ trivial
    simp only [perform]
    split
    next later => exact safe.time later
    next => exact safe
  | event e =>
    cases hidden : masked w with
    | true =>
      have same : perform w (.event e) = w := by
        simp only [perform, hidden, if_true]
      rw [same]
      refine iff_of_true safe ?_
      cases e with
      | cancel t => exact fun open' => absurd (hidden.symm.trans open') (by decide)
      | _ => trivial
    | false =>
      rw [perform_event hidden]
      cases e with
      | cancel t => exact safe.cancel_iff hidden
      | tick => exact iff_of_true safe.tick trivial
      | interrupt next => exact iff_of_true (safe.interrupt next) trivial
      | unblock t => exact iff_of_true (safe.unblock t) trivial
      | raise pid signal => exact iff_of_true (safe.raise pid signal) trivial
      | handle pid => exact iff_of_true (safe.handleSignal pid) trivial
      | sigreturn pid => exact iff_of_true (safe.sigreturn pid) trivial
      | futexSignal t => exact iff_of_true (safe.futexSignal t) trivial
      | exit t => exact iff_of_true (safe.exit t) trivial

def Lost (w : World) : Prop := ∃ more : List Action, (∀ a ∈ more, a.isCancel = false) ∧
  ¬ Registered (after perform w more)

theorem Lost.of_perform (action : Action) (lost : Lost (perform w action)) (other : action.isCancel = false) : Lost w := by
  obtain ⟨more, calmly, fails⟩ := lost
  exact ⟨action :: more, List.forall_mem_cons.mpr ⟨other, calmly⟩, fails⟩

structure Forgotten (w : World) (time : Nat) : Prop where
  sound : w.cpu.Sound
  idle : ¬ w.cpu.Blocked idle
  user : w.cpu.current.pid ≠ 0
  before : w.clock < time
  missing : ∀ e ∈ w.sleeping, e.thread ≠ w.cpu.current

namespace Forgotten

variable {time : Nat}

section

variable (forgotten : Forgotten w time)
include forgotten

theorem go (p : Pc) : Forgotten (go w p) time := { forgotten with }

theorem lost_again (stands : w.pc w.cpu.current = .again time) : Lost w := by
  have other : Sleeping.idle ≠ w.cpu.current := fun same => forgotten.user (same ▸ rfl)
  obtain ⟨cpu, switches⟩ := Cpu.schedBlock_returns forgotten.sound other forgotten.idle
  obtain ⟨-, -, blocked⟩ := Cpu.schedBlock_blocked forgotten.sound switches
  have result : perform w (.own (.block Sleeping.idle)) = { Sleeping.go w (.blocked time) with cpu } := by
    simp only [perform, ownStep, stands, switch, switches]
  refine ⟨[.own (.block Sleeping.idle)], by simp [Action.isCancel], fun registered => ?_⟩
  rw [after, List.foldl_cons, List.foldl_nil, result] at registered
  obtain ⟨e, member, own⟩ := registered.entry w.cpu.current time (.inr (.inl (go_pc _)))
    ((blocked w.cpu.current).mpr (.inl rfl)) forgotten.before
  exact forgotten.missing e member own

theorem lost_woken (stands : w.pc w.cpu.current = .woken time) : Lost w := by
  have result : perform w (.own .check) = Sleeping.go w (.again time) := by
    simp only [perform, ownStep, stands, if_pos forgotten.before]
  refine Lost.of_perform (.own .check) ?_ rfl
  rw [result]
  exact (forgotten.go _).lost_again (go_pc _)

theorem lost_blocked (stands : w.pc w.cpu.current = .blocked time)
    (notFlagged : interruptedBlock w w.cpu.current = false) : Lost w := by
  have result : perform w (.own .resume) = Sleeping.go w (.woken time) := by
    simp only [perform, ownStep, stands, schedBlockReturns, notFlagged, Bool.false_eq_true, if_false]
  refine Lost.of_perform (.own .resume) ?_ rfl
  rw [result]
  exact (forgotten.go _).lost_woken (go_pc _)

end

end Forgotten

theorem masked_congr (hidden : masked w = false) (pc : w'.pc = w.pc)
    (current : w'.cpu.current = w.cpu.current) : masked w' = false := by
  unfold masked
  rw [pc, current]
  exact hidden

theorem lost_of_missing {time : Nat} (sound : w.cpu.Sound) (sorted : Sorted w.sleeping) (awake : ¬ w.cpu.Blocked idle)
    (hidden : masked w = false) (user : t.pid ≠ 0) (running : ¬ w.cpu.Blocked t) (before : w.clock < time)
    (missing : ¬ Lasting w.sleeping t time)
    (stands : w.pc t = .blocked time ∧ interruptedBlock w t = false ∨ w.pc t = .woken time ∨ w.pc t = .again time) :
    Lost w := by
  have passes : perform w (.time (time - 1)) = { w with clock := time - 1 } := if_pos (by omega)
  refine Lost.of_perform (.time (time - 1)) ?_ rfl
  rw [passes]
  refine Lost.of_perform (.event .tick) ?_ rfl
  rw [perform_event (w := { w with clock := time - 1 }) hidden, happen]
  obtain ⟨sound, current, unblocked⟩ := Cpu.unblockAll_blocked sound
    ((w.sleeping.takeWhile fun e => e.wakeupTime < time - 1).map SleepingThread.thread)
  obtain ⟨cpu, switches⟩ := Cpu.interrupt_returns sound fun blocked => running ((unblocked t).mp blocked).1
  obtain ⟨sound, chosen, blocked⟩ := Cpu.interrupt_blocked sound switches
  refine Lost.of_perform (.event (.interrupt t)) ?_ rfl
  let w' := wakeupThreads { w with clock := time - 1 }
  have ticked : masked w' = false := masked_congr hidden rfl current
  have scheduled : happen w' (.interrupt t) = { w' with cpu } := by
    simp only [happen]
    rw [show w'.cpu.interrupt t = some cpu from switches]
  rw [perform_event ticked, scheduled]
  have forgotten : Forgotten { w' with cpu } time := by
    refine ⟨sound, fun holds => awake ((unblocked idle).mp ((blocked idle).mp holds)).1, ?_, ?_, ?_⟩
    · rwa [chosen]
    · show time - 1 < time
      omega
    · intro e member own
      have late : time - 1 ≤ e.wakeupTime := by
        have kept : e ∈ w'.sleeping := member
        rw [wakeupThreads_sleeping] at kept
        exact late_of_dropWhile sorted kept
      refine missing ⟨e, List.mem_of_mem_drop member, own.trans chosen, ?_⟩
      omega
  rcases stands with ⟨stands, notFlagged⟩ | stands | stands
  · refine forgotten.lost_blocked ?_ ?_
    · exact (congrArg w.pc chosen).trans stands
    · exact (congrArg (interruptedBlock w) chosen).trans notFlagged
  · exact forgotten.lost_woken ((congrArg w.pc chosen).trans stands)
  · exact forgotten.lost_again ((congrArg w.pc chosen).trans stands)

theorem lost_of_cancelled {time : Nat} (safe : Safe w) (hidden : masked w = false) (member : e ∈ w.sleeping)
    (before : w.clock < time) (missing : ¬ Lasting (cancelled w e.thread) e.thread time)
    (stands : w.pc e.thread = .blocked time ∧ interruptedBlock w e.thread = false ∨
      w.pc e.thread = .woken time ∨ w.pc e.thread = .again time) :
    Lost (sleepCancel w e.thread) := by
  obtain ⟨sound, current, blocked⟩ := Cpu.schedUnblock_blocked safe.sound e.thread
  have user : e.thread.pid ≠ 0 := by
    refine (safe.guarded e.thread).kernel ?_
    rcases stands with ⟨stands, -⟩ | stands | stands <;> rw [stands] <;> exact Pc.noConfusion
  rw [sleepCancel_present member]
  refine lost_of_missing sound (safe.sorted.sublist cancelled_sublist) ?_ (masked_congr hidden rfl current) user ?_
    before missing stands
  · exact fun holds => safe.idle idle rfl ((blocked idle).mp holds).1
  · exact fun holds => ((blocked e.thread).mp holds).2 rfl

theorem lost_of_perform (safe : Safe w) (fails : ¬ Safe (perform w action)) : Lost (perform w action) := by
  have notFine : ¬ Fine w action := fun fine => fails ((safe_perform safe).mpr fine)
  unfold Fine at notFine
  split at notFine
  next t =>
    simp only [not_forall] at notFine
    obtain ⟨hidden, time, before, broken⟩ := notFine
    rw [perform_event hidden] at fails ⊢
    have present : ∃ e ∈ w.sleeping, e.thread = t := by
      by_contra absent
      push Not at absent
      refine fails ?_
      rw [happen, sleepCancel_absent absent]
      exact safe
    obtain ⟨e, member, rfl⟩ := present
    rcases not_and_or.mp broken with asleep | awake
    · obtain ⟨stands, neither⟩ := Classical.not_imp.mp asleep
      obtain ⟨notFlagged, missing⟩ := not_or.mp neither
      exact lost_of_cancelled safe hidden member before missing (.inl ⟨stands, by simpa using notFlagged⟩)
    · obtain ⟨stands, missing⟩ := Classical.not_imp.mp awake
      exact lost_of_cancelled safe hidden member before missing (.inr stands)
  next => exact absurd trivial notFine

/--
The sleepers of a history are registered throughout, also when no further `sleep_cancel` follows, just when each
`sleep_cancel` in it meets its condition.
-/
theorem sleepers_registered_iff (current : ThreadId) (ignMask : Nat -> BitVec 32) (actions : List Action) :
    (∀ front more, front <+: actions -> (∀ a ∈ more, a.isCancel = false) ->
        Registered (after perform (start current ignMask) (front ++ more))) ↔
      ∀ front action, front ++ [action] <+: actions -> Fine (after perform (start current ignMask) front) action := by
  refine always_quiet_iff (start_safe current ignMask) (fun _ _ => safe_perform) (fun _ => Safe.registered) ?_ ?_
  · intro w action calm safe
    refine (safe_perform safe).mpr ?_
    unfold Fine
    split
    · cases calm
    · trivial
  · intro w action
    exact lost_of_perform

def signalInHandler : List Action :=
  [.event (.raise 1 10), .event (.handle 1), .event (.interrupt ⟨1, 1⟩), .own (.sleep 1000), .own (.block ⟨2, 1⟩),
    .event (.raise 1 12), .event (.cancel ⟨1, 1⟩), .event (.unblock ⟨1, 1⟩), .event (.interrupt ⟨1, 1⟩), .own .resume,
    .own .check, .own (.block ⟨2, 1⟩)]

theorem signal_in_handler_forgets :
    let w := after perform (start ⟨2, 1⟩ fun _ => 0) signalInHandler
    w.pc ⟨1, 1⟩ = .blocked 1000000000 ∧ w.cpu.state ⟨1, 1⟩ = .blocked ∧ w.clock = 0 ∧ w.sleeping = [] ∧ ¬ Registered w := by
  refine ⟨by decide, by decide, by decide, by decide, fun registered => ?_⟩
  obtain ⟨e, member, -⟩ := registered.entry ⟨1,
    1⟩ 1000000000 (.inr (.inl (by decide))) (by unfold Cpu.Blocked; decide) (by decide)
  have empty : (after perform (start ⟨2, 1⟩ fun _ => 0) signalInHandler).sleeping = [] := by decide
  rw [empty] at member
  cases member

end Bincows.Sched.Sleeping
