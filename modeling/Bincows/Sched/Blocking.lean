import Bincows.Sched.Scheduler

set_option autoImplicit false

/-! What `sched_block`, `sched_unblock` and the interrupts do to the states of the threads. `next`
is the thread that `schedule` takes, any one that is ready. `sched_block` from its `_cli` to the switch is one step. -/

namespace Bincows.Sched

open Function

structure Cpu (T : Type) where
  state : T -> ThreadState
  shouldBlock : T -> Bool
  current : T

namespace Cpu

variable {T : Type} [DecidableEq T] {cpu cpu' : Cpu T} {t u next : T}

def schedSave (cpu : Cpu T) : Cpu T :=
  if cpu.shouldBlock cpu.current then
    { cpu with
      shouldBlock := update cpu.shouldBlock cpu.current false
      state := update cpu.state cpu.current .blocked }
  else { cpu with state := update cpu.state cpu.current .ready }

def schedule (cpu : Cpu T) (next : T) : Option (Cpu T) :=
  if cpu.state next = .ready then
    some { cpu with state := update cpu.state next .running, current := next }
  else none

def interrupt (cpu : Cpu T) (next : T) : Option (Cpu T) := cpu.schedSave.schedule next

def schedBlock (cpu : Cpu T) (next : T) : Option (Cpu T) :=
  interrupt { cpu with shouldBlock := update cpu.shouldBlock cpu.current true } next

-- `sched_unblock_thread` leaves a thread alone that is not blocked.
def schedUnblock (cpu : Cpu T) (t : T) : Cpu T :=
  if cpu.state t = .blocked then { cpu with state := update cpu.state t .ready } else cpu

def unblockAll (cpu : Cpu T) (threads : List T) : Cpu T := threads.foldl schedUnblock cpu

structure Sound (cpu : Cpu T) : Prop where
  flags : ∀ t, cpu.shouldBlock t = false
  runs : ∀ t, cpu.state t = .running ↔ t = cpu.current

def Blocked (cpu : Cpu T) (t : T) : Prop := cpu.state t = .blocked

section

variable (sound : cpu.Sound)
include sound

omit [DecidableEq T] in
theorem Sound.current_awake : ¬ cpu.Blocked cpu.current := by
  intro blocked
  have running := (sound.runs cpu.current).mpr rfl
  rw [Blocked, running] at blocked
  cases blocked

theorem schedule_switches {stopped : ThreadState} (idle : stopped ≠ .running)
    (switches : schedule { cpu with state := update cpu.state cpu.current stopped } next = some cpu') :
    cpu'.Sound ∧ cpu'.current = next ∧ ∀ t, cpu'.Blocked t ↔
      if t = cpu.current then stopped = .blocked else cpu.Blocked t := by
  unfold schedule at switches
  split at switches
  case isFalse => cases switches
  case isTrue ready =>
    cases switches
    refine ⟨⟨sound.flags, fun t => ?_⟩, rfl, fun t => ?_⟩
    · by_cases chosen : t = next
      · simp [chosen]
      · by_cases running : t = cpu.current
        · subst running
          simp [chosen, idle]
        · simp [chosen, running, sound.runs t]
    · simp only [Blocked] at ready ⊢
      by_cases chosen : t = next
      · by_cases running : t = cpu.current <;> simp_all
      · by_cases running : t = cpu.current
        · subst running
          simp [chosen]
        · simp [chosen, running]

theorem interrupt_blocked (switches : cpu.interrupt next = some cpu') :
    cpu'.Sound ∧ cpu'.current = next ∧ ∀ t, cpu'.Blocked t ↔ cpu.Blocked t := by
  have saved : cpu.schedSave = { cpu with state := update cpu.state cpu.current .ready } := by
    simp [schedSave, sound.flags]
  rw [interrupt, saved] at switches
  obtain ⟨after, chosen, blocked⟩ := schedule_switches sound (by decide) switches
  refine ⟨after, chosen, fun t => (blocked t).trans ?_⟩
  by_cases running : t = cpu.current
  · simp [running, sound.current_awake]
  · simp [running]

theorem schedBlock_blocked (switches : cpu.schedBlock next = some cpu') :
    cpu'.Sound ∧ cpu'.current = next ∧ ∀ t, cpu'.Blocked t ↔ t = cpu.current ∨ cpu.Blocked t := by
  have flags : update (update cpu.shouldBlock cpu.current true) cpu.current false = cpu.shouldBlock := by
    rw [update_idem, ← sound.flags cpu.current, update_eq_self]
  have saved : schedSave { cpu with shouldBlock := update cpu.shouldBlock cpu.current true } =
      { cpu with state := update cpu.state cpu.current .blocked } := by
    simp [schedSave, flags]
  rw [schedBlock, interrupt, saved] at switches
  obtain ⟨after, chosen, blocked⟩ := schedule_switches sound (by decide) switches
  refine ⟨after, chosen, fun t => (blocked t).trans ?_⟩
  by_cases running : t = cpu.current <;> simp [running]

omit [DecidableEq T] in
theorem Sound.ready (other : next ≠ cpu.current) (awake : ¬ cpu.Blocked next) : cpu.state next = .ready := by
  cases value : cpu.state next with
  | ready => rfl
  | running => exact absurd ((sound.runs next).mp value) other
  | blocked => exact absurd value awake

-- A thread that is not blocked can be chosen.
theorem interrupt_returns (awake : ¬ cpu.Blocked next) : ∃ cpu', cpu.interrupt next = some cpu' := by
  have saved : cpu.schedSave.state next = .ready := by
    rw [schedSave, sound.flags, if_neg Bool.false_ne_true]
    by_cases same : next = cpu.current
    · rw [same]
      exact update_self ..
    · exact (update_of_ne same _ _).trans (sound.ready same awake)
  exact ⟨_, if_pos saved⟩

theorem schedBlock_returns (other : next ≠ cpu.current) (awake : ¬ cpu.Blocked next) :
    ∃ cpu', cpu.schedBlock next = some cpu' := by
  refine ⟨_, if_pos ?_⟩
  rw [schedSave, if_pos (update_self ..)]
  exact (update_of_ne other _ _).trans (sound.ready other awake)

theorem schedUnblock_blocked (u : T) :
    (cpu.schedUnblock u).Sound ∧ (cpu.schedUnblock u).current = cpu.current ∧
      ∀ t, (cpu.schedUnblock u).Blocked t ↔ cpu.Blocked t ∧ t ≠ u := by
  unfold schedUnblock
  split
  case isTrue blocked =>
    refine ⟨⟨sound.flags, fun t => ?_⟩, rfl, fun t => ?_⟩ <;> by_cases same : t = u
    · have other : u ≠ cpu.current := fun at' => sound.current_awake (at' ▸ blocked)
      simp [same, other]
    · simp [same, sound.runs t]
    · simp [same, Blocked]
    · simp [same, Blocked]
  case isFalse awake =>
    refine ⟨sound, rfl, fun t => ⟨fun blocked => ⟨blocked, ?_⟩, fun blocked => blocked.1⟩⟩
    rintro rfl
    exact awake blocked

theorem unblockAll_blocked (threads : List T) :
    (cpu.unblockAll threads).Sound ∧ (cpu.unblockAll threads).current = cpu.current ∧
      ∀ t, (cpu.unblockAll threads).Blocked t ↔ cpu.Blocked t ∧ t ∉ threads := by
  induction threads generalizing cpu with
  | nil => exact ⟨sound, rfl, by simp [unblockAll]⟩
  | cons u rest ih =>
    obtain ⟨after, current, blocked⟩ := schedUnblock_blocked sound u
    obtain ⟨last, kept, left⟩ := ih after
    refine ⟨last, kept.trans current, fun t => ?_⟩
    rw [List.mem_cons, not_or, ← and_assoc, ← blocked t]
    exact left t

end

end Cpu

end Bincows.Sched
