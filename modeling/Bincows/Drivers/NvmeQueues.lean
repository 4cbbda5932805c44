import Bincows.Shared.PhaseRing
import Bincows.Shared.Execution

set_option autoImplicit false

/-! The driver moves the tail of the completion queue, and the head of the submission queue with it, when the phase bit of the
entry at the tail is not the one predicted from the counter of completions. -/

namespace Bincows.Nvme

inductive Fault where
  | full
  | empty
  | status
  | index
  | size
  | target
  | range
  | block
  deriving DecidableEq

structure Queue where
  size : Nat
  head : Nat
  tail : Nat
  deriving DecidableEq

def createQueue (size : Nat) : Queue := { size, head := 0, tail := 0 }

def nextIndex (q : Queue) (index : Nat) : Nat := (index + 1) % q.size

def queueFull (q : Queue) : Bool := nextIndex q q.tail == q.head

def queueEmpty (q : Queue) : Bool := q.tail == q.head

def queueProduce (q : Queue) : Except Fault Queue :=
  if queueFull q then .error .full else .ok { q with tail := nextIndex q q.tail }

def queueConsume (q : Queue) : Except Fault Queue :=
  if queueEmpty q then .error .empty else .ok { q with head := nextIndex q q.head }

structure CompQueueE where
  cmdId : Nat
  phase : Bool
  status : Nat
  deriving DecidableEq

structure QueuePair where
  sq : Queue
  cq : Queue
  completionCounter : Nat
  deriving DecidableEq

def createQueues (size : Nat) : QueuePair :=
  { sq := createQueue size, cq := createQueue size, completionCounter := 0 }

def cqTailPhase (queues : QueuePair) : Bool := queues.completionCounter / queues.cq.size % 2 == 1

def updateQueues (ring : Nat -> CompQueueE) (queues : QueuePair) :
    Except Fault (Option QueuePair) :=
  if (ring queues.cq.tail).phase == cqTailPhase queues then .ok none
  else do
    let cq ← queueProduce queues.cq
    let sq ← queueConsume queues.sq
    .ok (some { sq, cq, completionCounter := (queues.completionCounter + 1) % 2 ^ 32 })

structure Queue.At (q : Queue) (size first last : Nat) : Prop where
  slots : q.size = size
  head : q.head = first % size
  tail : q.tail = last % size

section positions

variable {q : Queue} {size first last : Nat}

theorem createQueue_at (size : Nat) : (createQueue size).At size 0 0 :=
  ⟨rfl, (Nat.zero_mod _).symm, (Nat.zero_mod _).symm⟩

section

variable (positions : q.At size first last)
include positions

theorem Queue.At.empty_iff (ordered : first ≤ last) (fits : last < first + size) :
    queueEmpty q = true ↔ first = last := by
  rw [queueEmpty, beq_iff_eq, positions.head, positions.tail]
  exact ⟨CircularBuffer.eq_of_mod_eq ordered fits, fun same => by rw [same]⟩

theorem Queue.At.not_full (ordered : first ≤ last) (room : last + 1 < first + size) :
    queueFull q = false := by
  rw [queueFull, nextIndex, positions.head, positions.tail, positions.slots, Nat.mod_add_mod,
    beq_eq_false_iff_ne]
  intro same
  have := CircularBuffer.eq_of_mod_eq (by omega) room same
  omega

theorem Queue.At.full (full : last + 1 = first + size) : queueFull q = true := by
  rw [queueFull, nextIndex, positions.head, positions.tail, positions.slots, Nat.mod_add_mod, full,
    Nat.add_mod_right, beq_self_eq_true]

theorem Queue.At.produce (ordered : first ≤ last) (room : last + 1 < first + size) :
    ∃ q', queueProduce q = .ok q' ∧ q'.At size first (last + 1) := by
  rw [queueProduce, positions.not_full ordered room]
  refine ⟨_, rfl, positions.slots, positions.head, ?_⟩
  rw [nextIndex, positions.slots, positions.tail, Nat.mod_add_mod]

theorem Queue.At.consume (ordered : first < last) (fits : last < first + size) :
    ∃ q', queueConsume q = .ok q' ∧ q'.At size (first + 1) last := by
  have notEmpty : queueEmpty q = false := by
    rw [← Bool.not_eq_true, positions.empty_iff ordered.le fits]
    exact ordered.ne
  rw [queueConsume, notEmpty]
  refine ⟨_, rfl, positions.slots, ?_, positions.tail⟩
  rw [nextIndex, positions.slots, positions.head, Nat.mod_add_mod]

end

end positions

structure QueuePair.At (queues : QueuePair) (size issued seen handled : Nat) : Prop where
  sq : queues.sq.At size seen issued
  cq : queues.cq.At size handled seen
  counter : queues.completionCounter = seen % 2 ^ 32

section update

variable {queues : QueuePair} {ring : Nat -> CompQueueE} {posted : List CompQueueE}
  {exponent issued seen handled : Nat}

theorem createQueues_at (size : Nat) : (createQueues size).At size 0 0 0 :=
  ⟨createQueue_at size, createQueue_at size, rfl⟩

theorem QueuePair.At.phase (positions : queues.At (2 ^ exponent) issued seen handled)
    (narrow : exponent < 16) : cqTailPhase queues = PhaseRing.lap (2 ^ exponent) seen := by
  rw [cqTailPhase, positions.counter, positions.cq.slots]
  exact PhaseRing.lap_mod (by omega) seen

theorem updateQueues_at (positions : queues.At (2 ^ exponent) issued seen handled)
    (narrow : exponent < 16)
    (stamped : PhaseRing.Stamped CompQueueE.phase (2 ^ exponent) ring posted) (done : handled ≤ seen)
    (known : seen ≤ posted.length) (answered : posted.length ≤ issued) (outstanding : issued + 1 ≤ handled + 2 ^ exponent) :
    (seen = posted.length ∧ updateQueues ring queues = .ok none) ∨
      (seen < posted.length ∧ ∃ queues', updateQueues ring queues = .ok (some queues') ∧
        queues'.At (2 ^ exponent) issued (seen + 1) handled) := by
  have positive : 0 < 2 ^ exponent := Nat.two_pow_pos exponent
  rcases Nat.lt_or_eq_of_le known with new | rfl
  · refine .inr ⟨new, ?_⟩
    obtain ⟨slot, phase⟩ := stamped.next_there (List.getElem?_eq_getElem new) (by omega)
    obtain ⟨cq, produced, cqAt⟩ := positions.cq.produce done (by omega)
    obtain ⟨sq, consumed, sqAt⟩ := positions.sq.consume (by omega) (by omega)
    have other : ((ring queues.cq.tail).phase == cqTailPhase queues) = false := by
      rw [positions.phase narrow, positions.cq.tail, slot, beq_eq_false_iff_ne]
      exact phase
    refine ⟨{ sq, cq, completionCounter := (queues.completionCounter + 1) % 2 ^ 32 }, ?_, sqAt, cqAt, ?_⟩
    · simp only [updateQueues, other, produced, consumed]
      rfl
    · rw [positions.counter, Nat.mod_add_mod]
  · refine .inl ⟨rfl, ?_⟩
    have same : ((ring queues.cq.tail).phase == cqTailPhase queues) = true := by
      rw [positions.phase narrow, positions.cq.tail, stamped.next_missing positive, beq_self_eq_true]
    rw [updateQueues, same]
    rfl

end update

end Bincows.Nvme
