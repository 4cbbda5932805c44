import Bincows.Shared.CircularBuffer
import Bincows.Shared.Execution

set_option autoImplicit false

/-! A pipe of `pipefs.c`. A call gives up the lock only in `wait_for_buffer`, so each round of the loops of `pipefs_read` and
`write` is one action. `accepted` and `delivered` are no fields of the source. -/

namespace Bincows.Pipefs

open CircularBuffer

def pipeSize : Nat := 1024

inductive Fault where
  | idle
  | spins
  | noWaiter
  | nullPointer
  | blockAndWrap
  | noFile
  | closedTwice
  deriving DecidableEq

inductive PipeEnd where
  | input
  | output
  deriving DecidableEq

structure File (A : Type) where
  buffer : List A
  head : Nat
  tail : Nat
  broken : Option PipeEnd

inductive Kind where
  | read
  | write
  deriving DecidableEq

structure Call (A : Type) where
  kind : Kind
  n : Nat
  remaining : Nat
  buf : List A

structure State (A : Type) where
  file : File A
  removed : Bool
  locked : Bool
  holder : Option (Call A)
  waiting : List (Call A)
  woken : List (Call A)
  accepted : List A
  delivered : List A

variable {A : Type}

structure Batch where
  size : Nat
  wrap : Bool
  block : Bool
  deriving DecidableEq

def limitBatch (position size : Nat) (block : Bool) : Except Fault Batch :=
  if pipeSize - position < size then
    if block then .error .blockAndWrap else .ok { size := pipeSize - position, wrap := true, block }
  else .ok { size, wrap := false, block }

def readBatch (f : File A) (remaining : Nat) : Except Fault Batch :=
  if f.head ≤ f.tail ∧ f.tail < (f.head + remaining) % 2 ^ 32 then limitBatch f.head (f.tail - f.head) true
  else limitBatch f.head remaining false

def writeBatch (f : File A) (remaining : Nat) : Except Fault Batch :=
  if f.tail < f.head ∧ f.head ≤ (f.tail + remaining) % 2 ^ 32 then limitBatch f.tail (f.head - f.tail - 1) true
  else limitBatch f.tail remaining false

def advance (position : Nat) (b : Batch) : Nat := if b.wrap then 0 else position + b.size

/-- How many bytes a call has transferred, as the `int` it returns counts them. -/
def Call.count (c : Call A) : Nat := c.n % 2 ^ 32 - c.remaining

def broadcastWaiters (s : State A) : State A :=
  { s with waiting := [], woken := s.woken ++ s.waiting }

def waitForBuffer (s : State A) (c : Call A) : State A :=
  { s with locked := false, holder := none, waiting := s.waiting ++ [c] }

def finish (s : State A) (c : Call A) : State A :=
  match c.kind with
  | .read => { s with locked := false, holder := none, delivered := s.delivered ++ c.buf.take c.count }
  | .write => { s with locked := false, holder := none }

def pipefsRead (s : State A) (c : Call A) : Except Fault (State A) := do
  let b ← readBatch s.file c.remaining
  let data := (s.file.buffer.drop s.file.head).take b.size
  let c := { c with buf := data ++ c.buf.drop data.length, remaining := c.remaining - b.size }
  let s := { s with file := { s.file with head := advance s.file.head b }, holder := some c }
  let s := if b.size ≠ 0 then broadcastWaiters s else s
  if b.block then
    if c.n = c.remaining then return waitForBuffer s c else return finish s c
  else return s

-- `memcpy` copies from `buf` in every round.
def write (s : State A) (c : Call A) : Except Fault (State A) := do
  let b ← writeBatch s.file c.remaining
  let file :=
    { s.file with
      buffer := store s.file.buffer s.file.tail (c.buf.take b.size)
      tail := advance s.file.tail b }
  let accepted := s.accepted ++ (c.buf.drop c.count).take b.size
  let c := { c with remaining := c.remaining - b.size }
  let s := { s with file, accepted, holder := some c }
  let s := if b.size ≠ 0 then broadcastWaiters s else s
  if b.block then return waitForBuffer s c else return s

inductive Action (A : Type) where
  | call (kind : Kind) (buf : List A)
  | round
  | resume (waiter : Nat)
  | signal (waiter : Nat)
  | close (which : PipeEnd)

def startCall (s : State A) (kind : Kind) (buf : List A) : Except Fault (State A) :=
  if s.removed then .ok s
  else if s.locked then .error .spins
  else if buf.length = 0 then .ok { s with locked := true }
  else
    .ok { s with locked := true, holder := some { kind, n := buf.length, remaining := buf.length % 2 ^ 32, buf } }

def round (s : State A) : Except Fault (State A) :=
  match s.holder with
  | none => .error .idle
  | some c =>
    if c.remaining = 0 ∨ s.file.broken ≠ none then .ok (finish s c)
    else
      match c.kind with
      | .read => pipefsRead s c
      | .write => write s c

def resume (s : State A) (waiter : Nat) : Except Fault (State A) :=
  match s.woken[waiter]? with
  | none => .error .noWaiter
  | some c =>
    let s := { s with woken := s.woken.eraseIdx waiter }
    if s.removed then
      if c.kind = .write then .error .nullPointer else .ok s
    else if s.locked then .error .spins
    else .ok { s with locked := true, holder := some c }

def signal (s : State A) (waiter : Nat) : Except Fault (State A) :=
  match s.waiting[waiter]? with
  | none => .error .noWaiter
  | some c =>
    if c.kind = .write then .error .nullPointer else .ok { s with waiting := s.waiting.eraseIdx waiter }

def closeFile (s : State A) (which : PipeEnd) : Except Fault (State A) :=
  if s.removed then .error .noFile
  else if s.locked then .error .spins
  else
    match s.file.broken with
    | none => .ok (broadcastWaiters { s with file := { s.file with broken := some which } })
    | some other => if other = which then .error .closedTwice else .ok { s with removed := true }

def exec (s : State A) : Action A -> Except Fault (State A)
  | .call kind buf => startCall s kind buf
  | .round => round s
  | .resume waiter => resume s waiter
  | .signal waiter => signal s waiter
  | .close which => closeFile s which

def createFile (buffer : List A) : State A :=
  { file := { buffer, head := 0, tail := 0, broken := none }
    removed := false
    locked := false
    holder := none
    waiting := []
    woken := []
    accepted := []
    delivered := [] }

end Bincows.Pipefs
