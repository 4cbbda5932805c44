import Bincows.Shared.CircularBuffer
import Bincows.Shared.Execution

set_option autoImplicit false

/-! An event that reaches the end of the buffer is stored in two parts, with `buff_head` 0 in
between. `block_pop_chars` sleeps where there is no byte, so steps of several calls and of an append alternate. -/

namespace Bincows.KeyboardRing

open CircularBuffer List

def bufferSize : Nat := 1000

def eventSize : Nat := 28

structure PopCall where
  count : Nat
  returned : Bool
  deriving DecidableEq

/--
`pending` is what `append_event` has still to store. `accepted` records the events for which there was room, `popped` the
bytes in the order in which the calls stored them, each with its call.
-/
structure Ring where
  fileBuffer : List UInt8
  head : Nat
  tail : Nat
  pending : Option (List UInt8)
  calls : List PopCall
  accepted : List (List UInt8)
  popped : List (Nat × UInt8)
  deriving DecidableEq

def start : Ring :=
  { fileBuffer := replicate bufferSize 0, head := 0, tail := 0, pending := none, calls := [], accepted := [], popped := [] }

variable (r : Ring)

-- `wrap_end` is signed.
def overrun (len : Nat) : Bool :=
  let wrapEnd := (r.head : Int) + len - bufferSize
  (r.head < r.tail ∧ r.tail ≤ r.head + len) ∨ (r.tail < r.head ∧ (r.tail : Int) ≤ wrapEnd)

def beginAppend (event : List UInt8) : Ring :=
  if overrun r event.length then r
  else if bufferSize ≤ r.head + event.length then
    let firstPart := bufferSize - r.head
    { r with
      fileBuffer := store r.fileBuffer r.head (event.take firstPart)
      head := 0
      pending := some (event.drop firstPart)
      accepted := r.accepted ++ [event] }
  else { r with pending := some event, accepted := r.accepted ++ [event] }

def endAppend (rest : List UInt8) : Ring :=
  { r with fileBuffer := store r.fileBuffer r.head rest, head := r.head + rest.length, pending := none }

-- The buffer of a call.
def chars (call : Nat) : List UInt8 := (r.popped.filter fun entry => entry.1 = call).map Prod.snd

def popChar (call : Nat) : Ring :=
  { r with tail := (r.tail + 1) % bufferSize, popped := r.popped ++ [(call, r.fileBuffer.getD r.tail 0)] }

def Returns (call : Nat) (c : PopCall) : Prop := (chars r call).length = c.count ∨ r.tail = r.head

inductive Step : Ring -> Ring -> Prop
  | beginAppend (r : Ring) (event : List UInt8) (size : event.length = eventSize)
      (idle : r.pending = none) : Step r (beginAppend r event)
  | endAppend (r : Ring) (rest : List UInt8) (busy : r.pending = some rest) :
    Step r (endAppend r rest)
  | beginPop (r : Ring) (count : Nat) :
    Step r { r with calls := r.calls ++ [{ count, returned := false }] }
  | popChar (r : Ring) (call : Nat) (c : PopCall) (there : r.calls[call]? = some c) (runs : c.returned = false)
      (more : (chars r call).length < c.count) (some : r.tail ≠ r.head) : Step r (popChar r call)
  | returnPop (r : Ring) (call : Nat) (c : PopCall) (there : r.calls[call]? = some c) (returns : Returns r call c) :
      Step r { r with calls := r.calls.set call { c with returned := true } }

structure Queue (r : Ring) (unread : List UInt8) : Prop where
  size : r.fileBuffer.length = bufferSize
  headBound : r.head < bufferSize
  tailBound : r.tail < bufferSize
  window : Window r.fileBuffer r.tail unread
  next : r.head = (r.tail + unread.length) % bufferSize
  room : unread.length + (r.pending.getD []).length < bufferSize
  fits : r.head + (r.pending.getD []).length < bufferSize
  bytes : r.accepted.flatten = r.popped.map Prod.snd ++ unread ++ r.pending.getD []

variable {r} {unread : List UInt8}

theorem start_queue : Queue start [] :=
  ⟨length_replicate, by decide, by decide, window_nil _ _, by decide, by decide, by decide, rfl⟩

section

variable (queue : Queue r unread)
include queue

theorem Queue.room_of_not_overrun {len : Nat} (idle : r.pending = none) (small : len < bufferSize)
    (fine : overrun r len = false) : unread.length + len < bufferSize := by
  have room := queue.room
  have next := queue.next
  have tail := queue.tailBound
  have clear : ¬ ((r.head < r.tail ∧ r.tail ≤ r.head + len) ∨
      (r.tail < r.head ∧ (r.tail : Int) ≤ (r.head : Int) + len - bufferSize)) :=
    of_decide_eq_false fine
  rw [idle, Option.getD_none, length_nil] at room
  simp only [bufferSize] at *
  omega

theorem Queue.beginAppend {event : List UInt8} (idle : r.pending = none)
    (size : event.length = eventSize) : ∃ new, Queue (beginAppend r event) (unread ++ new) := by
  have small : event.length < bufferSize := by
    rw [size]
    decide
  unfold KeyboardRing.beginAppend
  by_cases full : overrun r event.length
  · rw [if_pos full]
    exact ⟨[], by rwa [append_nil]⟩
  have room := queue.room_of_not_overrun idle small (Bool.eq_false_iff.mpr full)
  have bytes := queue.bytes
  have next := queue.next
  have head := queue.headBound
  have tail := queue.tailBound
  rw [idle, Option.getD_none, append_nil] at bytes
  rw [if_neg full]
  split
  next cut =>
    have length : (event.take (bufferSize - r.head)).length = bufferSize - r.head := by
      rw [length_take]
      omega
    have inside : r.head + (event.take (bufferSize - r.head)).length ≤ r.fileBuffer.length := by
      rw [length, queue.size]
      omega
    refine ⟨event.take (bufferSize - r.head), ?_, (by decide : 0 < bufferSize), tail, ?_, ?_, ?_, ?_, ?_⟩
    · rw [length_store inside, queue.size]
    · refine window_append queue.window ?_ inside ?_
      · rw [queue.size, ← next, Nat.mod_eq_of_lt head]
      · rw [length, queue.size]
        omega
    · rw [length_append, length]
      simp only [bufferSize] at *
      omega
    · show (unread ++ _).length + (event.drop _).length < _
      rw [length_append, length, length_drop]
      omega
    · show 0 + (event.drop _).length < _
      rw [length_drop]
      omega
    · show (r.accepted ++ [event]).flatten = r.popped.map Prod.snd ++ (unread ++ _) ++ event.drop _
      rw [flatten_append, bytes, flatten_singleton, ← append_assoc (r.popped.map _),
        append_assoc _ (event.take _), take_append_drop]
  next cut =>
    refine ⟨[], queue.size, head, tail, ?_, ?_, ?_, ?_, ?_⟩
    · rw [append_nil]
      exact queue.window
    · rw [append_nil]
      exact next
    · rw [append_nil]
      exact room
    · exact Nat.not_le.mp cut
    · show (r.accepted ++ [event]).flatten = r.popped.map Prod.snd ++ (unread ++ []) ++ event
      rw [flatten_append, bytes, flatten_singleton, append_nil]

theorem Queue.endAppend {rest : List UInt8} (busy : r.pending = some rest) :
    Queue (endAppend r rest) (unread ++ rest) := by
  have room := queue.room
  have fits := queue.fits
  have bytes := queue.bytes
  have next := queue.next
  have head := queue.headBound
  rw [busy, Option.getD_some] at room fits bytes
  have inside : r.head + rest.length ≤ r.fileBuffer.length := by
    rw [queue.size]
    omega
  refine ⟨?_, fits, queue.tailBound, ?_, ?_, ?_, fits, ?_⟩
  · exact (length_store inside).trans queue.size
  · refine window_append (queue.window : Window r.fileBuffer r.tail unread) ?_ inside ?_
    · show r.head % _ = (r.tail + unread.length) % _
      rw [queue.size, ← next, Nat.mod_eq_of_lt head]
    · rw [queue.size]
      omega
  · show r.head + rest.length = (r.tail + _) % bufferSize
    rw [length_append]
    simp only [bufferSize] at *
    omega
  · rw [length_append]
    exact room
  · show r.accepted.flatten = r.popped.map Prod.snd ++ (unread ++ rest) ++ []
    rw [bytes, append_nil, append_assoc]

theorem Queue.popChar {call : Nat} (some : r.tail ≠ r.head) :
    ∃ char rest, unread = char :: rest ∧ Queue (popChar r call) rest := by
  have next := queue.next
  have tail := queue.tailBound
  have room := queue.room
  cases unread with
  | nil =>
    rw [length_nil, Nat.add_zero, Nat.mod_eq_of_lt tail] at next
    exact absurd next.symm some
  | cons char rest =>
    have first : r.fileBuffer.getD r.tail 0 = char := by
      rw [getD_eq_getElem?_getD, window_head (by rw [queue.size]; exact tail) queue.window, Option.getD_some]
    rw [length_cons] at next room
    refine ⟨char, rest, rfl, queue.size, queue.headBound, Nat.mod_lt _ (by decide), ?_, ?_, ?_, queue.fits, ?_⟩
    · have moved := window_tail queue.window
      rwa [queue.size] at moved
    · show r.head = ((r.tail + 1) % bufferSize + rest.length) % bufferSize
      simp only [bufferSize] at *
      omega
    · show rest.length + (r.pending.getD []).length < bufferSize
      omega
    · show r.accepted.flatten = (r.popped ++ [(call, _)]).map Prod.snd ++ rest ++ r.pending.getD []
      rw [first, queue.bytes]
      simp

theorem Queue.step {r' : Ring} (step : Step r r') : ∃ unread', Queue r' unread' := by
  cases step with
  | beginAppend event size idle =>
    obtain ⟨new, after⟩ := queue.beginAppend idle size
    exact ⟨_, after⟩
  | endAppend rest busy => exact ⟨_, queue.endAppend busy⟩
  | beginPop count => exact ⟨unread, { queue with }⟩
  | popChar call c there runs more some =>
    obtain ⟨_, rest, -, after⟩ := queue.popChar some
    exact ⟨rest, after⟩
  | returnPop call c there returns => exact ⟨unread, { queue with }⟩

end

inductive AppendStep : Ring -> Ring -> Prop
  | first (r : Ring) (event : List UInt8) (size : event.length = eventSize)
      (idle : r.pending = none) : AppendStep r (beginAppend r event)
  | last (r : Ring) (rest : List UInt8) (busy : r.pending = some rest) :
    AppendStep r (endAppend r rest)

theorem Queue.append_keeps {r' : Ring} (queue : Queue r unread) (step : AppendStep r r') :
    ∀ k < unread.length, r'.fileBuffer[(r.tail + k) % bufferSize]? = r.fileBuffer[(r.tail + k) % bufferSize]? := by
  have keeps : ∀ new, Queue r' (unread ++ new) -> r'.tail = r.tail ->
      ∀ k < unread.length, r'.fileBuffer[(r.tail + k) % bufferSize]? = r.fileBuffer[(r.tail + k) % bufferSize]? := by
    intro new after same k small
    have before := queue.window.2 k small
    have now := after.window.2 k (by rw [length_append]; omega)
    rw [queue.size] at before
    rw [after.size, same, getElem?_append_left small] at now
    exact now.trans before.symm
  cases step with
  | first event size idle =>
    obtain ⟨new, after⟩ := queue.beginAppend idle size
    refine keeps new after ?_
    unfold KeyboardRing.beginAppend
    split_ifs <;> rfl
  | last rest busy => exact keeps rest (queue.endAppend busy) rfl

/-- What the calls have stored, in the order of the stores, is a prefix of the bytes of the accepted events. -/
theorem keyboard_ring_fifo {r : Ring} (run : Relation.ReflTransGen Step start r) :
    ∃ unread, Queue r unread ∧ ∀ r', AppendStep r r' ->
      ∀ k < unread.length, r'.fileBuffer[(r.tail + k) % bufferSize]? = r.fileBuffer[(r.tail + k) % bufferSize]? := by
  obtain ⟨unread, queue⟩ := run.invariant (fun r => ∃ unread, Queue r unread) ⟨[], start_queue⟩
    fun _ _ ⟨_, queue⟩ step => queue.step step
  exact ⟨unread, queue, fun _ => queue.append_keeps⟩

-- Two calls share the first event.
theorem keyboard_ring_fifo_event : ∃ r unread, Relation.ReflTransGen Step start r ∧ Queue r unread ∧
    r.accepted = [(range 28).map UInt8.ofNat] ∧ chars r 0 = [1] ∧ chars r 1 = [0, 2] := by
  have run := Relation.ReflTransGen.refl (r := Step) (a := start)
    |>.tail (.beginAppend _ ((range 28).map UInt8.ofNat) (by decide) rfl)
    |>.tail (.endAppend _ ((range 28).map UInt8.ofNat) (by decide))
    |>.tail (.beginPop _ 1)
    |>.tail (.beginPop _ 9)
    |>.tail (.popChar _ 1 ⟨9, false⟩ (by decide) rfl (by decide) (by decide))
    |>.tail (.popChar _ 0 ⟨1, false⟩ (by decide) rfl (by decide) (by decide))
    |>.tail (.popChar _ 1 ⟨9, false⟩ (by decide) rfl (by decide) (by decide))
  obtain ⟨unread, queue, -⟩ := keyboard_ring_fifo run
  exact ⟨_, unread, run, queue, by decide, by decide, by decide⟩

end Bincows.KeyboardRing
