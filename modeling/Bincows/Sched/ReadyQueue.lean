import Bincows.Shared.CircularBuffer
import Bincows.Shared.Execution

set_option autoImplicit false

/-! A ring that doubles when it is full; one cell always stays free. `Represents q xs`: the ring
holds `xs`, next one first. -/

namespace Bincows.Sched

open CircularBuffer List

inductive Fault where
  | queueNotFull
  | expandBounds
  | queueEmpty
  | outOfBounds
  | badPid (pid : Nat)
  | badTid (tid : Nat)
  | noProcess (pid : Nat)
  | noThread (pid tid : Nat)
  | threadNotReady (pid tid : Nat)
  | foreignThread (pid : Nat)
  | noThreads (pid : Nat)
  | threadsLeft (pid : Nat)
  | threadUninterruptible
  | notRunning
  | alreadyInIrq
  | notInIrq
  | kernelBlocks
  | signalNotPending
  | mainThreadRunning
  | signalContextSet
  | signalContextMissing
  | unalignedPd
  | halfMapped
  | alreadyMapped
  | notMapped
  | anotherMapped
  | diverges
  deriving DecidableEq

def Fault.aboutMapping : Fault -> Bool
  | .unalignedPd | .halfMapped | .alreadyMapped | .notMapped | .anotherMapped => true
  | _ => false

structure Td where
  pid : Nat
  tid : Nat
  deriving DecidableEq

structure PriorityQueue where
  buffer : List Td
  head : Nat
  tail : Nat
  cap : Nat
  deriving DecidableEq

-- What `memset(.., 0xef, ..)` leaves in a cell, and what stands here for uninitialised memory.
def filler : Td := ⟨0xefefefef, 0xefefefef⟩

def initPqueue : PriorityQueue := { buffer := replicate 3 filler, head := 0, tail := 0, cap := 3 }

def moveUp (exp head : Nat) : Nat -> List Td -> Except Fault (List Td)
  | 0, buffer => .ok buffer
  | i + 1, buffer =>
    if i < head then .ok buffer
    else if i + exp < buffer.length then
      match buffer[i]? with
      | some thread => moveUp exp head i (buffer.set (i + exp) thread)
      | none => .error .outOfBounds
    else .error .expandBounds

def pqueueExpand (q : PriorityQueue) : Except Fault PriorityQueue :=
  if (q.tail + 1) % q.cap ≠ q.head then .error .queueNotFull
  else
    let oldCap := q.cap
    let cap := q.cap * 2
    let buffer := q.buffer ++ replicate (cap - oldCap) filler
    if 0 < q.head then do
      let exp := cap - oldCap
      let buffer ← moveUp exp q.head oldCap buffer
      return { buffer, head := q.head + exp, tail := q.tail, cap }
    else .ok { buffer, head := q.head, tail := q.tail, cap }

def pqueuePush (q : PriorityQueue) (thread : Td) : Except Fault PriorityQueue := do
  let q ← if (q.tail + 1) % q.cap = q.head then pqueueExpand q else .ok q
  return { q with buffer := q.buffer.set q.tail thread, tail := (q.tail + 1) % q.cap }

def pqueuePop (q : PriorityQueue) : Except Fault (Td × PriorityQueue) :=
  if q.tail = q.head then .error .queueEmpty
  else
    match q.buffer[q.head]? with
    | some thread => .ok (thread, { q with head := (q.head + 1) % q.cap })
    | none => .error .outOfBounds

def PriorityQueue.entries (q : PriorityQueue) : List Td :=
  (range ((q.tail + q.cap - q.head) % q.cap)).filterMap fun k => q.buffer[(q.head + k) % q.cap]?

structure Represents (q : PriorityQueue) (xs : List Td) : Prop where
  length : q.buffer.length = q.cap
  headBound : q.head < q.cap
  tail : q.tail = (q.head + xs.length) % q.cap
  room : xs.length < q.cap
  window : Window q.buffer q.head xs

theorem represents_init : Represents initPqueue [] where
  length := rfl
  headBound := by decide
  tail := rfl
  room := by decide
  window := window_nil _ _

variable {buffer buffer' : List Td}

-- The cells `[head, i)` move up by `exp`, which lands above all of them; no other cell changes.
theorem moveUp_moves (exp head i : Nat) (buffer : List Td) (apart : i ≤ exp) (inside : i + exp ≤ buffer.length) :
    ∃ buffer', moveUp exp head i buffer = .ok buffer' ∧ buffer'.length = buffer.length ∧
      (∀ k, head ≤ k -> k < i -> buffer'[k + exp]? = buffer[k]?) ∧
      (∀ k, k < exp + head ∨ exp + i ≤ k -> buffer'[k]? = buffer[k]?) := by
  induction i generalizing buffer with
  | zero => exact ⟨buffer, rfl, rfl, fun k _ below => absurd below (Nat.not_lt_zero _), fun _ _ => rfl⟩
  | succ i ih =>
    by_cases done : i < head
    · refine ⟨buffer, by rw [moveUp, if_pos done], rfl, ?_, fun _ _ => rfl⟩
      intro k above below
      omega
    obtain ⟨thread, cell⟩ : ∃ thread, buffer[i]? = some thread := ⟨buffer[i], getElem?_eq_getElem (by omega)⟩
    obtain ⟨buffer', moved, length, movedCells, otherCells⟩ :=
      ih (buffer.set (i + exp) thread) (by omega) (by rw [length_set]; omega)
    refine ⟨buffer', ?_, length.trans (length_set ..), ?_, ?_⟩
    · rw [moveUp, if_neg done, if_pos (by omega), cell]
      exact moved
    · intro k above below
      by_cases last : k = i
      · subst last
        rw [otherCells _ (.inr (by omega)), getElem?_set_self (by omega), cell]
      · rw [movedCells k above (by omega), getElem?_set_ne (by omega)]
    · intro k outside
      rw [otherCells k (by omega), getElem?_set_ne (by omega)]

variable {q : PriorityQueue} {xs : List Td}

theorem full_iff (ring : Represents q xs) : (q.tail + 1) % q.cap = q.head ↔ xs.length + 1 = q.cap := by
  have ⟨_, bound, tail, room, _⟩ := ring
  have next : (q.tail + 1) % q.cap = (q.head + (xs.length + 1)) % q.cap := by
    rw [tail, Nat.mod_add_mod, Nat.add_assoc]
  rw [next]
  constructor
  · intro full
    by_contra notFull
    have := eq_of_mod_eq (Nat.le_add_right ..) (by omega) (full.trans (Nat.mod_eq_of_lt bound).symm)
    omega
  · intro full
    rw [full, Nat.add_mod_right, Nat.mod_eq_of_lt bound]

theorem window_extend {extra : Nat} (window : Window buffer 0 xs) : Window (buffer ++ replicate extra filler) 0 xs := by
  refine ⟨by rw [length_append]; exact window.1.trans (Nat.le_add_right _ _), ?_⟩
  intro k inside
  have below : k < buffer.length := inside.trans_le window.1
  have cell := window.2 k inside
  rw [Nat.zero_add, Nat.mod_eq_of_lt below] at cell
  rw [Nat.zero_add, length_append, Nat.mod_eq_of_lt (by omega), getElem?_append_left below, cell]

-- The threads from `head` to the end of the old buffer are now at the end of the new one.
theorem window_moved {head : Nat} (bound : head < buffer.length)
    (length : buffer'.length = buffer.length * 2) (window : Window buffer head xs)
    (moved : ∀ k, head ≤ k -> k < buffer.length -> buffer'[k + buffer.length]? = buffer[k]?)
    (kept : ∀ k, k < buffer.length -> buffer'[k]? = buffer[k]?) :
    Window buffer' (head + buffer.length) xs := by
  refine ⟨by have := window.1; omega, ?_⟩
  intro k inside
  have inside' : k < buffer.length := inside.trans_le window.1
  have cell := window.2 k inside
  by_cases wraps : head + k < buffer.length
  · rw [Nat.mod_eq_of_lt wraps] at cell
    rw [length, Nat.mod_eq_of_lt (by omega), ← cell, ← moved (head + k) (by omega) wraps]
    congr 1
    omega
  have old : (head + k) % buffer.length = head + k - buffer.length := by
    rw [Nat.mod_eq_sub_mod (by omega), Nat.mod_eq_of_lt (by omega)]
  have new : (head + buffer.length + k) % (buffer.length * 2) = head + k - buffer.length := by
    rw [Nat.mod_eq_sub_mod (by omega), Nat.mod_eq_of_lt (by omega)]
    omega
  rw [old] at cell
  rw [length, new, kept _ (by omega), cell]

theorem pqueueExpand_represents (ring : Represents q xs) (full : (q.tail + 1) % q.cap = q.head) :
    ∃ q', pqueueExpand q = .ok q' ∧ Represents q' xs ∧ q'.tail = q.tail ∧ xs.length + 1 < q'.cap := by
  have size : xs.length + 1 = q.cap := (full_iff ring).1 full
  have ⟨length, bound, tail, _, _⟩ := ring
  have double : (q.buffer ++ replicate (q.cap * 2 - q.cap) filler).length = q.buffer.length * 2 := by
    rw [length_append, length_replicate]
    omega
  have enlarged : q.cap * 2 - q.cap = q.cap := by omega
  by_cases front : 0 < q.head
  · obtain ⟨buffer', moved, length', movedCells, otherCells⟩ :=
      moveUp_moves (q.cap * 2 - q.cap) q.head q.cap (q.buffer ++ replicate (q.cap * 2 - q.cap) filler) (by omega) (by omega)
    rw [double] at length'
    refine ⟨⟨buffer', q.head + (q.cap * 2 - q.cap), q.tail, q.cap * 2⟩, ?_,
      ⟨length'.trans (by rw [length]), by dsimp only; omega, ?_, by dsimp only; omega, ?_⟩, rfl, by dsimp only; omega⟩
    · rw [pqueueExpand, if_neg (not_not.2 full), if_pos front]
      show (moveUp (q.cap * 2 - q.cap) q.head q.cap _ >>= _) = _
      rw [moved]
      rfl
    · show q.tail = (q.head + (q.cap * 2 - q.cap) + xs.length) % (q.cap * 2)
      have before : q.tail = q.head - 1 := by
        rw [tail, Nat.mod_eq_sub_mod (by omega), Nat.mod_eq_of_lt (by omega)]
        omega
      rw [before, Nat.mod_eq_sub_mod (by omega), Nat.mod_eq_of_lt (by omega)]
      omega
    · rw [enlarged, ← length]
      refine window_moved (by omega) length' ring.window ?_ ?_
      · intro k above below
        have cell := movedCells k above (by omega)
        rw [enlarged, ← length] at cell
        rw [cell, getElem?_append_left below]
      · intro k below
        rw [otherCells k (.inl (by omega)), getElem?_append_left below]
  · have zero : q.head = 0 := by omega
    refine ⟨⟨_, q.head, q.tail, q.cap * 2⟩, ?_,
      ⟨double.trans (by rw [length]), by dsimp only; omega, ?_, by dsimp only; omega, ?_⟩, rfl, by dsimp only; omega⟩
    · rw [pqueueExpand, if_neg (not_not.2 full), if_neg front]
    · show q.tail = (q.head + xs.length) % (q.cap * 2)
      rw [tail, zero, Nat.zero_add, Nat.mod_eq_of_lt (by omega), Nat.mod_eq_of_lt (by omega)]
    · have window := ring.window
      rw [zero] at window
      rw [zero]
      exact window_extend window

theorem represents_append (ring : Represents q xs) (room : xs.length + 1 < q.cap) (thread : Td) :
    Represents { q with buffer := q.buffer.set q.tail thread, tail := (q.tail + 1) % q.cap } (xs ++ [thread]) where
  length := (length_set ..).trans ring.length
  headBound := ring.headBound
  tail := by
    rw [ring.tail, Nat.mod_add_mod, length_append, length_singleton, Nat.add_assoc]
  room := by simpa using room
  window := by
    rw [ring.tail, ← ring.length]
    exact window_push (by rw [ring.length]; omega) ring.window thread

theorem pqueuePush_represents (ring : Represents q xs) (thread : Td) :
    ∃ q', pqueuePush q thread = .ok q' ∧ Represents q' (xs ++ [thread]) := by
  by_cases full : (q.tail + 1) % q.cap = q.head
  · obtain ⟨larger, expanded, ring', sameTail, room⟩ := pqueueExpand_represents ring full
    refine ⟨_, ?_, represents_append ring' room thread⟩
    rw [pqueuePush, if_pos full, expanded]
    rfl
  have room : xs.length + 1 < q.cap := by
    have := ring.room
    have := mt (full_iff ring).2 full
    omega
  refine ⟨_, ?_, represents_append ring room thread⟩
  rw [pqueuePush, if_neg full]
  rfl

theorem pqueuePop_represents {thread : Td} (ring : Represents q (thread :: xs)) :
    ∃ q', pqueuePop q = .ok (thread, q') ∧ Represents q' xs := by
  have ⟨length, bound, tail, room, _⟩ := ring
  have busy : q.tail ≠ q.head := by
    intro empty
    have := eq_of_mod_eq (Nat.le_add_right ..) (by omega) ((tail.symm.trans empty).trans (Nat.mod_eq_of_lt bound).symm)
    simp at this
  have first : q.buffer[q.head]? = some thread := window_head (by omega) ring.window
  refine ⟨{ q with head := (q.head + 1) % q.cap }, ?_, ⟨length, Nat.mod_lt _ (by omega), ?_, ?_, ?_⟩⟩
  · rw [pqueuePop, if_neg busy, first]
  · rw [tail, Nat.mod_add_mod, length_cons]
    congr 1
    omega
  · exact (Nat.lt_succ_self _).trans (by simpa using room)
  · rw [← length]
    exact window_tail ring.window

theorem filterMap_range (xs : List Td) : (range xs.length).filterMap (fun k => xs[k]?) = xs := by
  induction xs using reverseRecOn with
  | nil => rfl
  | append_singleton xs x ih =>
    have earlier : ∀ k ∈ range xs.length, (xs ++ [x])[k]? = xs[k]? := by
      intro k inside
      rw [getElem?_append_left (mem_range.1 inside)]
    rw [length_append, length_singleton, range_succ, filterMap_append, filterMap_congr earlier, ih]
    simp

theorem entries_eq (ring : Represents q xs) : q.entries = xs := by
  have ⟨length, bound, tail, room, _⟩ := ring
  have size : (q.tail + q.cap - q.head) % q.cap = xs.length := by
    rw [tail]
    by_cases wraps : q.head + xs.length < q.cap
    · rw [Nat.mod_eq_of_lt wraps, Nat.mod_eq_sub_mod (by omega), Nat.mod_eq_of_lt (by omega)]
      omega
    · have rest : (q.head + xs.length) % q.cap = q.head + xs.length - q.cap := by
        rw [Nat.mod_eq_sub_mod (by omega), Nat.mod_eq_of_lt (by omega)]
      rw [rest, Nat.mod_eq_of_lt (by omega)]
      omega
  rw [PriorityQueue.entries, size]
  have cells : ∀ k ∈ range xs.length, q.buffer[(q.head + k) % q.cap]? = xs[k]? := by
    intro k inside
    rw [← length]
    exact ring.window.2 k (mem_range.1 inside)
  rw [filterMap_congr cells, filterMap_range]

inductive QueueOp where
  | push (thread : Td)
  | pop
  deriving DecidableEq

-- The threads that the pops return, in order, and the queue at the end.
def runQueue : PriorityQueue -> List QueueOp -> Except Fault (List Td × PriorityQueue)
  | q, [] => .ok ([], q)
  | q, .push thread :: ops => do
    let q ← pqueuePush q thread
    runQueue q ops
  | q, .pop :: ops => do
    let (thread, q) ← pqueuePop q
    let (popped, q) ← runQueue q ops
    return (thread :: popped, q)

def pushed : List QueueOp -> List Td
  | [] => []
  | .push thread :: ops => thread :: pushed ops
  | .pop :: ops => pushed ops

def pops : List QueueOp -> Nat
  | [] => 0
  | .push _ :: ops => pops ops
  | .pop :: ops => pops ops + 1

def NeverEmpty (waiting : Nat) (ops : List QueueOp) : Prop :=
  ∀ front, front <+: ops -> pops front ≤ waiting + (pushed front).length

theorem runQueue_represents {ops : List QueueOp} (ring : Represents q xs) (nonempty : NeverEmpty xs.length ops) :
    ∃ q', runQueue q ops = .ok ((xs ++ pushed ops).take (pops ops), q') ∧
      Represents q' ((xs ++ pushed ops).drop (pops ops)) := by
  induction ops generalizing q xs with
  | nil => exact ⟨q, rfl, by simpa [pushed, pops] using ring⟩
  | cons op ops ih =>
    cases op with
    | push thread =>
      obtain ⟨q₁, stored, ring₁⟩ := pqueuePush_represents ring thread
      have rest : NeverEmpty (xs ++ [thread]).length ops := by
        intro front inside
        have bound := nonempty (.push thread :: front) (prefix_cons_inj _ |>.mpr inside)
        simp only [pops, pushed, length_cons, length_append, length_nil] at bound ⊢
        omega
      obtain ⟨q', ran, ring'⟩ := ih ring₁ rest
      rw [append_assoc] at ran ring'
      refine ⟨q', ?_, ring'⟩
      rw [runQueue, stored]
      exact ran
    | pop =>
      cases xs with
      | nil =>
        have bound := nonempty [.pop] (prefix_cons_inj _ |>.mpr nil_prefix)
        simp [pops, pushed] at bound
      | cons thread xs =>
        obtain ⟨q₁, taken, ring₁⟩ := pqueuePop_represents ring
        have rest : NeverEmpty xs.length ops := by
          intro front inside
          have bound := nonempty (.pop :: front) (prefix_cons_inj _ |>.mpr inside)
          simp only [pops, pushed, length_cons] at bound
          omega
        obtain ⟨q', ran, ring'⟩ := ih ring₁ rest
        refine ⟨q', ?_, ring'⟩
        rw [runQueue, taken]
        show (runQueue q₁ ops >>= _) = _
        rw [ran]
        rfl

theorem ready_ring_fifo (ops : List QueueOp) (nonempty : NeverEmpty 0 ops) :
    ∃ q, runQueue initPqueue ops = .ok ((pushed ops).take (pops ops), q) ∧ q.entries = (pushed ops).drop (pops ops) := by
  obtain ⟨q, ran, ring⟩ := runQueue_represents represents_init nonempty
  exact ⟨q, ran, entries_eq ring⟩

def twoRounds : List QueueOp :=
  [.push ⟨1, 1⟩, .push ⟨2, 1⟩, .pop, .push ⟨3, 1⟩, .push ⟨4, 1⟩, .push ⟨5, 1⟩, .pop]

-- The ring grows with its head at cell 1: the two threads from there on move to the end.
theorem ready_ring_fifo_grown :
    ∃ q, runQueue initPqueue twoRounds = .ok ([⟨1, 1⟩, ⟨2, 1⟩], q) ∧ q.entries = [⟨3, 1⟩, ⟨4, 1⟩, ⟨5, 1⟩] := by
  refine ready_ring_fifo twoRounds fun front inside => ?_
  obtain ⟨n, rfl⟩ : ∃ n, front = twoRounds.take n := ⟨_, prefix_iff_eq_take.mp inside⟩
  have all : ∀ n < 8, pops (twoRounds.take n) ≤ 0 + (pushed (twoRounds.take n)).length := by decide
  by_cases short : n < 8
  · exact all n short
  · rw [take_of_length_le (Nat.le_of_not_lt short |>.trans' (by decide))]
    decide

end Bincows.Sched
