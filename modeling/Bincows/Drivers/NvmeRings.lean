import Bincows.Drivers.NvmeQueues

set_option autoImplicit false

/-! The interrupt handler moves the tail over all new entries and then handles them one by one. The controller may post at
any moment in between. -/

namespace Bincows.Nvme

open List

variable {A : Type}

def ioQueueSize : Nat := 64

def taskIdAsyncRead : Nat := 0x1000

def taskIdAsyncWrite : Nat := 0x3000

def cmdTaskIdMask : Nat := 0xf000

def cmdIndexMask : Nat := 0x0fff

structure AsyncRead where
  targetBuffer : Option Nat
  size : Nat
  deriving DecidableEq

/-- `pages i` is what the page `prps[i]` holds; `copied` are the copies to target buffers, in order. -/
structure Drive (A : Type) where
  queues : QueuePair
  ring : Nat -> CompQueueE
  readQueue : Nat -> AsyncRead
  pages : Nat -> List A
  copied : List (Nat × List A)
  capacity : Nat
  blockSizeShift : Nat

def copyRead (d : Drive A) (i : Nat) : Except Fault (Drive A) :=
  if ioQueueSize ≤ i then .error .index
  else if (d.readQueue i).size = 0 then .error .size
  else
    match (d.readQueue i).targetBuffer with
    | none => .error .target
    | some target => .ok
      { d with
        copied := d.copied ++ [(target, (d.pages i).take (d.readQueue i).size)]
        readQueue := Function.update d.readQueue i { d.readQueue i with targetBuffer := none } }

def handleEntry (d : Drive A) (entry : CompQueueE) : Except Fault (Drive A) :=
  if entry.status ≠ 0 then .error .status
  else if entry.cmdId &&& cmdTaskIdMask = taskIdAsyncRead then copyRead d (entry.cmdId &&& cmdIndexMask)
  else .ok d

def handleQueue (d : Drive A) : Except Fault (Option (Drive A)) :=
  if queueEmpty d.queues.cq then .ok none
  else do
    let d ← handleEntry d (d.ring d.queues.cq.head)
    let cq ← queueConsume d.queues.cq
    .ok (some { d with queues := { d.queues with cq } })

def asyncCommand (queues : QueuePair) : Except Fault QueuePair := do
  let sq ← queueProduce queues.sq
  .ok { queues with sq }

inductive Stage where
  | idle
  | updating
  | handling
  deriving DecidableEq

structure Machine (A : Type) where
  drive : Drive A
  stage : Stage
  issued : Nat
  posted : List CompQueueE
  handled : List CompQueueE

inductive Action where
  | submit
  | post (cmdId status : Nat)
  | interrupt
  | update
  | handle

def post (m : Machine A) (cmdId status : Nat) : Machine A :=
  let size := m.drive.queues.cq.size
  let entry := { cmdId, phase := !PhaseRing.lap size m.posted.length, status }
  { m with
    drive := { m.drive with ring := Function.update m.drive.ring (m.posted.length % size) entry }
    posted := m.posted ++ [entry] }

def perform (m : Machine A) : Action -> Except Fault (Machine A)
  | .submit => do
    let queues ← asyncCommand m.drive.queues
    .ok { m with drive := { m.drive with queues }, issued := m.issued + 1 }
  | .post cmdId status => .ok (post m cmdId status)
  | .interrupt => .ok { m with stage := .updating }
  | .update => do
    match ← updateQueues m.drive.ring m.drive.queues with
    | none => .ok { m with stage := .handling }
    | some queues => .ok { m with drive := { m.drive with queues } }
  | .handle => do
    match ← handleQueue m.drive with
    | none => .ok { m with stage := .idle }
    | some drive => .ok { m with drive, handled := m.handled ++ [m.drive.ring m.drive.queues.cq.head] }

def Allowed (m : Machine A) : Action -> Prop
  | .submit => m.issued + 1 < m.handled.length + m.drive.queues.sq.size
  | .post _ _ => m.posted.length < m.issued
  | .interrupt => m.stage = .idle
  | .update => m.stage = .updating
  | .handle => m.stage = .handling

instance (m : Machine A) (a : Action) : Decidable (Allowed m a) :=
  match a with
  | .submit => inferInstanceAs (Decidable (_ < _))
  | .post _ _ => inferInstanceAs (Decidable (_ < _))
  | .interrupt => inferInstanceAs (Decidable (_ = _))
  | .update => inferInstanceAs (Decidable (_ = _))
  | .handle => inferInstanceAs (Decidable (_ = _))

def Step (m m' : Machine A) : Prop := ∃ a, Allowed m a ∧ perform m a = .ok m'

def DriverStep (m m' : Machine A) : Prop :=
  ∃ a, (a = .interrupt ∨ a = .update ∨ a = .handle) ∧ Allowed m a ∧ perform m a = .ok m'

def boot (exponent : Nat) (d : Drive A) : Machine A :=
  { drive := { d with queues := createQueues (2 ^ exponent), ring := fun _ => { cmdId := 0, phase := false, status := 0 } }
    stage := .idle
    issued := 0
    posted := []
    handled := [] }

section handling

def NotOfQueue (fault : Fault) : Prop := fault ≠ .full ∧ fault ≠ .empty

theorem copyRead_ensures (d : Drive A) (i : Nat) :
    (copyRead d i).Ensures NotOfQueue fun d' => d'.queues = d.queues ∧ d'.ring = d.ring := by
  rw [copyRead]
  split_ifs
  · exact .error ⟨nofun, nofun⟩
  · exact .error ⟨nofun, nofun⟩
  · split
    · exact .error ⟨nofun, nofun⟩
    · exact .ok ⟨rfl, rfl⟩

theorem handleEntry_ensures (d : Drive A) (entry : CompQueueE) :
    (handleEntry d entry).Ensures NotOfQueue fun d' => d'.queues = d.queues ∧ d'.ring = d.ring := by
  rw [handleEntry]
  split_ifs
  · exact .error ⟨nofun, nofun⟩
  · exact copyRead_ensures d _
  · exact .ok ⟨rfl, rfl⟩

end handling

section invariant

variable {exponent seen : Nat} {m m' : Machine A}

structure Consistent (exponent : Nat) (m : Machine A) (seen : Nat) : Prop where
  positions : m.drive.queues.At (2 ^ exponent) m.issued seen m.handled.length
  stamped : PhaseRing.Stamped CompQueueE.phase (2 ^ exponent) m.drive.ring m.posted
  done : m.handled.length ≤ seen
  known : seen ≤ m.posted.length
  answered : m.posted.length ≤ m.issued
  outstanding : m.issued + 1 ≤ m.handled.length + 2 ^ exponent
  order : m.handled <+: m.posted
  idle : m.stage = .idle -> seen = m.handled.length

theorem boot_consistent (exponent : Nat) (d : Drive A) :
    Consistent exponent (boot exponent d) 0 where
  positions := createQueues_at _
  stamped := .nil fun _ => rfl
  done := le_rfl
  known := le_rfl
  answered := le_rfl
  outstanding := by
    have positive := Nat.two_pow_pos exponent
    show 0 + 1 ≤ 0 + 2 ^ exponent
    omega
  order := prefix_rfl
  idle := fun _ => rfl

def StoppedAt (m : Machine A) : Prop := ∃ e fault, m.posted[m.handled.length]? = some e ∧
  handleEntry m.drive e = .error fault

theorem Consistent.all_handled (consistent : Consistent exponent m m.posted.length)
    (idle : m.stage = .idle) :
    m.handled = m.posted := consistent.order.eq_of_length (consistent.idle idle).symm

variable (consistent : Consistent exponent m seen)
include consistent

theorem submit_consistent (allowed : Allowed m .submit) : ∃ m', perform m .submit = .ok m' ∧
    Consistent exponent m' seen := by
  have positions := consistent.positions
  have room : m.issued + 1 < m.handled.length + 2 ^ exponent := positions.sq.slots ▸ allowed
  have done := consistent.done
  have known := consistent.known
  have answered := consistent.answered
  obtain ⟨sq, produced, sqAt⟩ := positions.sq.produce (by omega) (by omega)
  refine ⟨{ m with drive := { m.drive with queues := { m.drive.queues with sq } }, issued := m.issued + 1 }, ?_, ?_⟩
  · simp only [perform, asyncCommand, produced]
    rfl
  · exact
      { consistent with
        positions := ⟨sqAt, positions.cq, positions.counter⟩
        answered := answered.trans (Nat.le_succ _)
        outstanding := room }

theorem post_consistent {cmdId status : Nat}
    (allowed : Allowed m (.post cmdId status)) : Consistent exponent (post m cmdId status) seen := by
  have size : m.drive.queues.cq.size = 2 ^ exponent := consistent.positions.cq.slots
  have length : (post m cmdId status).posted.length = m.posted.length + 1 := length_append
  exact
    { consistent with
      stamped := by
        simp only [post, size]
        exact consistent.stamped.push rfl
      known := length ▸ consistent.known.trans (Nat.le_succ _)
      answered := length ▸ allowed
      order := consistent.order.trans (prefix_append _ _) }

theorem Consistent.next (left : m.handled.length < seen) :
    m.posted[m.handled.length]? = some (m.drive.ring m.drive.queues.cq.head) := by
  have known := consistent.known
  have answered := consistent.answered
  have outstanding := consistent.outstanding
  have there := getElem?_eq_getElem (show m.handled.length < m.posted.length by omega)
  rw [there, consistent.positions.cq.head, (consistent.stamped.next_there there (by omega)).1]

theorem handle_consistent (allowed : Allowed m .handle) :
    (seen = m.handled.length ∧ perform m .handle = .ok { m with stage := .idle } ∧
      Consistent exponent { m with stage := .idle } seen) ∨
    (∃ e fault, m.posted[m.handled.length]? = some e ∧ handleEntry m.drive e = .error fault ∧
      perform m .handle = .error fault) ∨
    (∃ m', perform m .handle = .ok m' ∧ Consistent exponent m' seen ∧ m'.stage = .handling ∧ m'.posted = m.posted ∧
      m'.handled.length = m.handled.length + 1 ∧ m'.handled.length ≤ seen) := by
  have done := consistent.done
  have known := consistent.known
  have answered := consistent.answered
  have outstanding := consistent.outstanding
  rcases Nat.lt_or_eq_of_le done with left | none
  · right
    have next := consistent.next left
    have notEmpty : queueEmpty m.drive.queues.cq = false := by
      rw [← Bool.not_eq_true, consistent.positions.cq.empty_iff done (by omega)]
      exact left.ne
    cases handles : handleEntry m.drive (m.drive.ring m.drive.queues.cq.head) with
    | error fault =>
      refine .inl ⟨_, fault, next, handles, ?_⟩
      simp only [perform, handleQueue, notEmpty, handles]
      rfl
    | ok d =>
      right
      obtain ⟨queues, ring⟩ := (handleEntry_ensures _ _).of_ok handles
      obtain ⟨cq, consumed, cqAt⟩ := consistent.positions.cq.consume left (by omega)
      refine ⟨{ m with
        drive := { d with queues := { d.queues with cq } }
        handled := m.handled ++ [m.drive.ring m.drive.queues.cq.head] }, ?_, ?_, allowed, rfl, length_append, ?_⟩
      · simp only [perform, handleQueue, notEmpty, handles]
        simp only [bind, Except.bind, queues, consumed]
        rfl
      · have length : (m.handled ++ [m.drive.ring m.drive.queues.cq.head]).length = m.handled.length + 1 := length_append
        exact
          { positions := ⟨by simpa only [queues] using consistent.positions.sq, length ▸ cqAt,
              by simpa only [queues] using consistent.positions.counter⟩
            stamped := by simpa only [ring] using consistent.stamped
            done := length ▸ left
            known
            answered
            outstanding := by
              show m.issued + 1 ≤ (m.handled ++ [m.drive.ring m.drive.queues.cq.head]).length + 2 ^ exponent
              omega
            order := by
              obtain ⟨rest, split⟩ := consistent.order
              rw [← split, getElem?_append_right le_rfl, Nat.sub_self] at next
              obtain ⟨e, rest, rfl⟩ : ∃ e more, rest = e :: more := by
                cases rest with
                | nil => cases next
                | cons e more => exact ⟨e, more, rfl⟩
              cases next
              exact ⟨rest, by rw [append_assoc]; exact split⟩
            idle := fun idle => by
              rw [show m.stage = .handling from allowed] at idle
              cases idle }
      · rw [length_append]
        exact left
  · refine .inl ⟨none.symm, ?_, { consistent with idle := fun _ => none.symm }⟩
    have empty := (consistent.positions.cq.empty_iff done (by omega)).mpr none
    simp only [perform, handleQueue, empty]
    rfl

theorem handle_loop (handling : m.stage = .handling) :
    ∃ m', ReflTransGen DriverStep m m' ∧ m'.posted = m.posted ∧
      ((Consistent exponent m' seen ∧ m'.stage = .idle) ∨ StoppedAt m') := by
  -- the number of entries left to handle
  induction left : seen - m.handled.length using Nat.strong_induction_on generalizing m with
  | _ left ih =>
    rcases handle_consistent consistent handling with
      ⟨-, returns, next⟩ | ⟨e, fault, next, stops, -⟩ | ⟨m', returns, next, stage, posted, more, bound⟩
    · exact ⟨_, .single ⟨.handle, .inr (.inr rfl), handling, returns⟩, rfl, .inl ⟨next, rfl⟩⟩
    · exact ⟨m, .refl, rfl, .inr ⟨e, fault, next, stops⟩⟩
    · obtain ⟨last, run, same, ends⟩ := ih _ (by omega) next stage rfl
      exact ⟨last, .head ⟨.handle, .inr (.inr rfl), handling, returns⟩ run, same.trans posted, ends⟩

variable (narrow : exponent < 16)
include narrow

theorem update_consistent (allowed : Allowed m .update) :
    (seen = m.posted.length ∧ perform m .update = .ok { m with stage := .handling } ∧
      Consistent exponent { m with stage := .handling } seen) ∨
    (seen < m.posted.length ∧ ∃ queues, perform m .update = .ok { m with drive := { m.drive with queues } } ∧
      Consistent exponent { m with drive := { m.drive with queues } } (seen + 1)) := by
  rcases updateQueues_at consistent.positions narrow consistent.stamped consistent.done consistent.known
    consistent.answered consistent.outstanding with ⟨all, stops⟩ | ⟨new, queues, continues, positions⟩
  · refine .inl ⟨all, ?_, { consistent with idle := nofun }⟩
    simp only [perform, stops]
    rfl
  refine .inr ⟨new, queues, ?_, ?_⟩
  · simp only [perform, continues]
    rfl
  exact
    { consistent with
      positions
      done := consistent.done.trans (Nat.le_succ _)
      known := new
      idle := fun idle => by
        rw [show m.stage = .updating from allowed] at idle
        cases idle }

theorem perform_ensures {a : Action} (allowed : Allowed m a) :
    (perform m a).Ensures NotOfQueue fun m' => ∃ seen, Consistent exponent m' seen := by
  cases a with
  | submit =>
    obtain ⟨m', returns, next⟩ := submit_consistent consistent allowed
    rw [returns]
    exact ⟨seen, next⟩
  | post cmdId status => exact ⟨seen, post_consistent consistent allowed⟩
  | interrupt => exact ⟨seen, { consistent with idle := nofun }⟩
  | update =>
    rcases update_consistent consistent narrow allowed with ⟨-, returns, next⟩ | ⟨-, queues, returns, next⟩
    all_goals
      rw [returns]
      exact ⟨_, next⟩
  | handle =>
    rcases handle_consistent consistent allowed with ⟨-, returns, next⟩ | ⟨e, fault, -, handles,
      stops⟩ | ⟨m', returns, next, -⟩
    · rw [returns]
      exact ⟨seen, next⟩
    · rw [stops]
      exact (handleEntry_ensures _ _).of_error handles
    · rw [returns]
      exact ⟨seen, next⟩

theorem update_loop (updating : m.stage = .updating) :
    ∃ m', ReflTransGen DriverStep m m' ∧ Consistent exponent m' m.posted.length ∧
      m'.stage = .handling ∧ m'.posted = m.posted := by
  -- the number of entries the driver has not seen
  induction left : m.posted.length - seen using Nat.strong_induction_on generalizing m seen with
  | _ left ih =>
    rcases update_consistent consistent narrow updating with ⟨all, returns, next⟩ | ⟨new, queues, returns, next⟩
    · exact ⟨_, .single ⟨.update, .inr (.inl rfl), updating, returns⟩, all ▸ next, rfl, rfl⟩
    · obtain ⟨m', run, rest⟩ := ih (m.posted.length - (seen + 1)) (by omega) next updating rfl
      exact ⟨m', .head ⟨.update, .inr (.inl rfl), updating, returns⟩ run, rest⟩

def Drains (m : Machine A) : Prop :=
  ∃ m', ReflTransGen DriverStep m m' ∧ m'.posted = m.posted ∧
    ((m'.stage = .idle ∧ m'.handled = m.posted) ∨ StoppedAt m')

theorem interrupt_handles (idle : m.stage = .idle) : Drains m := by
  have started : Consistent exponent { m with stage := .updating } seen :=
    { consistent with idle := nofun }
  obtain ⟨middle, first, consistent, handling, posted⟩ := update_loop started narrow rfl
  obtain ⟨last, second, same, ends⟩ := handle_loop consistent handling
  have run : ReflTransGen DriverStep m last := .head ⟨.interrupt, .inl rfl, idle, rfl⟩ (first.trans second)
  have samePosted : last.posted = m.posted := same.trans posted
  refine ⟨last, run, samePosted, ?_⟩
  rcases ends with ⟨consistent, idle⟩ | stopped
  · have all := Consistent.all_handled (m := last) (samePosted ▸ consistent) idle
    exact .inl ⟨idle, all.trans samePosted⟩
  · exact .inr stopped

theorem handler_handles : Drains m := by
  -- an interrupt that is being handled ends first
  have ends : ∃ m' seen', ReflTransGen DriverStep m m' ∧ m'.posted = m.posted ∧
      ((Consistent exponent m' seen' ∧ m'.stage = .idle) ∨ StoppedAt m') := by
    cases stage : m.stage with
    | idle => exact ⟨m, seen, .refl, rfl, .inl ⟨consistent, stage⟩⟩
    | updating =>
      obtain ⟨middle, first, consistent, handling, posted⟩ := update_loop consistent narrow stage
      obtain ⟨last, second, same, ends⟩ := handle_loop consistent handling
      exact ⟨last, _, first.trans second, same.trans posted, ends⟩
    | handling =>
      obtain ⟨last, run, same, ends⟩ := handle_loop consistent stage
      exact ⟨last, _, run, same, ends⟩
  obtain ⟨middle, seen', first, posted, ⟨consistent, idle⟩ | stopped⟩ := ends
  · obtain ⟨last, second, same, ends⟩ := interrupt_handles consistent narrow idle
    rw [posted] at same ends
    exact ⟨last, first.trans second, same, ends⟩
  · exact ⟨middle, first, posted, .inr stopped⟩

end invariant

theorem step_consistent {exponent : Nat} {m m' : Machine A} (narrow : exponent < 16)
    (consistent : ∃ seen, Consistent exponent m seen)
    (step : Step m m') : ∃ seen, Consistent exponent m' seen := by
  obtain ⟨seen, consistent⟩ := consistent
  obtain ⟨a, allowed, returns⟩ := step
  exact (perform_ensures consistent narrow allowed).of_ok returns

/-- Every completion is handled once and in order, on every lap; the handler stops before the end only at an entry with an
error, or for a read that nobody waits for. -/
theorem completions_handled_in_order {exponent : Nat} (narrow : exponent < 16) {d : Drive A}
    {m : Machine A} (run : Relation.ReflTransGen Step (boot exponent d) m) :
    m.handled <+: m.posted ∧ (∀ a fault, Allowed m a -> perform m a = .error fault -> fault ≠ .full ∧ fault ≠ .empty) ∧
      ∃ m', Relation.ReflTransGen DriverStep m m' ∧ m'.posted = m.posted ∧
        ((m'.stage = .idle ∧ m'.handled = m.posted) ∨ StoppedAt m') := by
  obtain ⟨seen, consistent⟩ := run.invariant (fun m => ∃ seen, Consistent exponent m seen)
    ⟨0, boot_consistent exponent d⟩ fun _ _ consistent step => step_consistent narrow consistent step
  exact ⟨consistent.order, fun a fault allowed stops =>
    (perform_ensures consistent narrow allowed).of_error stops, handler_handles consistent narrow⟩

def sampleDrive : Drive Nat :=
  { queues := createQueues 2
    ring := fun _ => { cmdId := 0, phase := false, status := 0 }
    readQueue := fun _ => { targetBuffer := none, size := 0 }
    pages := fun _ => []
    copied := []
    capacity := 100
    blockSizeShift := 9 }

def sampleRound : List Action :=
  [.submit, .post 0x3000 0, .interrupt, .update, .update, .handle, .handle]

theorem completions_handled_in_order_wrapped :
    ∃ m : Machine Nat, Relation.ReflTransGen Step (boot 1 sampleDrive) m ∧
      m.posted.map CompQueueE.phase = [true, true, false] ∧
      m.handled.length = 2 ∧ m.handled <+: m.posted ∧
      ∃ m', Relation.ReflTransGen DriverStep m m' ∧ m'.posted = m.posted ∧
        ((m'.stage = .idle ∧ m'.handled = m.posted) ∨ StoppedAt m') := by
  have run : ReflTransGen Step _ _ := .of_guarded Allowed perform .full (boot 1 sampleDrive)
    (sampleRound ++ sampleRound ++ [.submit, .post 0x3000 0]) (fun _ a _ allowed returns => ⟨a, allowed, returns⟩) rfl
  obtain ⟨order, -, handles⟩ := completions_handled_in_order (by decide) run
  exact ⟨_, run, rfl, rfl, order, handles⟩

end Bincows.Nvme
