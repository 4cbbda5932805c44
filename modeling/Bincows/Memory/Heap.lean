import Bincows.Shared.ByteMemory
import Bincows.Shared.Execution

set_option autoImplicit false

/-! `heap.c` over byte memory, with the segment headers inside the heap. `alloc_pages` only makes more memory usable. -/

namespace Bincows.Heap

def heapBegin : Nat := 0xffffffff80300000

def headerSize : Nat := 16

def minExpandSize : Nat := 1024

def minSegmentSize : Nat := 32

def word64 : Nat := 2 ^ 64

inductive Fault where
  | notInHeap
  | badHeader
  | noSegment
  | notAllocated
  | diverges
  deriving DecidableEq

structure State where
  memory : ByteMemory
  heapSize : Nat
  nAllocations : Nat
  currentSegment : Nat
  -- The `static int i` of `free`.
  frees : Nat

-- The fields of the `seg_header` at an address.
def nextOf (memory : ByteMemory) (seg : Nat) : Nat := memory.load seg 8

def sizeOf (memory : ByteMemory) (seg : Nat) : Nat := memory.load (seg + 8) 4

def freeOf (memory : ByteMemory) (seg : Nat) : Nat := memory.load (seg + 12) 4

def setNext (memory : ByteMemory) (seg next : Nat) : ByteMemory := memory.store seg 8 next

def setSize (memory : ByteMemory) (seg size : Nat) : ByteMemory := memory.store (seg + 8) 4 size

def setFree (memory : ByteMemory) (seg free : Nat) : ByteMemory := memory.store (seg + 12) 4 free

def heapGetBrk (s : State) : Nat := (heapBegin + s.heapSize) % word64

def heapAssertSeg (s : State) (seg : Nat) : Except Fault Unit :=
  if seg < heapBegin ∨ heapGetBrk s ≤ seg then .error .notInHeap
  else if heapGetBrk s < (seg + sizeOf s.memory seg) % word64 then .error .notInHeap
  else if 1 < freeOf s.memory seg then .error .badHeader
  else if nextOf s.memory seg ≠ 0 ∧
      (nextOf s.memory seg < heapBegin ∨ heapGetBrk s ≤ nextOf s.memory seg) then .error .badHeader
  else .ok ()

def expandHeap (s : State) (size : Nat) : State :=
  let newSegment := heapGetBrk s
  let memory := setNext s.memory newSegment s.currentSegment
  let memory := setSize memory newSegment ((size + (word64 - headerSize)) % word64)
  let memory := setFree memory newSegment 1
  { s with
    memory := memory
    currentSegment := newSegment
    heapSize := (s.heapSize + size) % word64 }

def defragmentLoop : Nat -> State -> Nat -> Nat -> Nat -> Except Fault State
  | 0, _, _, _, _ => .error .diverges
  | fuel + 1, s, pred2, pred, seg =>
    if seg = 0 then .ok s
    else do
      heapAssertSeg s seg
      if freeOf s.memory seg ≠ 0 ∧ freeOf s.memory pred ≠ 0 then
        let s :=
          if pred2 = 0 then { s with currentSegment := seg }
          else { s with memory := setNext s.memory pred2 seg }
        let merged := sizeOf s.memory seg + headerSize + sizeOf s.memory pred
        let s := { s with memory := setSize s.memory seg merged }
        defragmentLoop fuel s pred2 seg (nextOf s.memory seg)
      else defragmentLoop fuel s pred seg (nextOf s.memory seg)

-- A walk over the segments takes fewer turns than the heap has bytes.
def defragment (s : State) : Except Fault State :=
  if s.currentSegment = 0 then .error .noSegment
  else defragmentLoop (s.heapSize + 1) s 0 s.currentSegment (nextOf s.memory s.currentSegment)

def splitSegment (memory : ByteMemory) (pred tosplit size : Nat) : ByteMemory × Nat :=
  let newSegment := (tosplit + headerSize + size) % word64
  let memory := if pred ≠ 0 then setNext memory pred newSegment else memory
  let memory := setNext memory newSegment tosplit
  let memory := setFree memory newSegment 1
  let memory := setSize memory newSegment (sizeOf memory tosplit - size - headerSize)
  (setSize memory tosplit size, newSegment)

def heapInit (memory : ByteMemory) : State :=
  expandHeap { memory := memory, heapSize := 0, nAllocations := 0, currentSegment := 0, frees := 0 } minExpandSize

def roundSize (size : Nat) : Nat := max ((size + 7) % word64 / 8 * 8) minSegmentSize

def findSegment (s : State) (size : Nat) : Nat -> Nat -> Nat -> Except Fault (Option (Nat × Nat))
  | 0, _, _ => .error .diverges
  | fuel + 1, pred, seg =>
    if seg = 0 then .ok none
    else do
      heapAssertSeg s seg
      if freeOf s.memory seg = 0 ∨ sizeOf s.memory seg < size then
        findSegment s size fuel seg (nextOf s.memory seg)
      else return some (pred, seg)

def takeSegment (s : State) (pred seg size : Nat) : State × Nat :=
  let s :=
    if (size + headerSize + minSegmentSize) % word64 ≤ sizeOf s.memory seg then
      let (memory, newSeg) := splitSegment s.memory pred seg size
      if pred = 0 then { s with memory := memory, currentSegment := newSeg }
      else { s with memory := setNext memory pred newSeg }
    else s
  ({ s with memory := setFree s.memory seg 0, nAllocations := s.nAllocations + 1 }, seg + headerSize)

def mallocLoop : Nat -> State -> Nat -> Except Fault (State × Nat)
  | 0, _, _ => .error .diverges
  | fuel + 1, s, request => do
    let size := roundSize request
    match ← findSegment s size (s.heapSize + 1) 0 s.currentSegment with
    | some (pred, seg) => return takeSegment s pred seg size
    | none =>
      mallocLoop fuel (expandHeap s (max ((size + headerSize) % word64) minExpandSize)) size

-- Each retry follows an expansion by at least 1024 bytes, and 2 GB of addresses lie above
-- `KERNEL_HEAP_BEGIN`: the recursion is never deeper than this.
def malloc (s : State) (size : Nat) : Except Fault (State × Nat) := mallocLoop 0x200000 s size

def free (s : State) (ptr : Nat) : Except Fault State := do
  let header := ptr - headerSize
  heapAssertSeg s header
  if freeOf s.memory header ≠ 0 then .error .notAllocated
  else
    let s := { s with memory := setFree s.memory header 1 }
    let s ← if s.frees % 32 = 0 then defragment s else pure s
    return { s with frees := s.frees + 1, nAllocations := s.nAllocations - 1 }

def realloc (s : State) (ptr size : Nat) : Except Fault (State × Nat) :=
  if ptr = 0 then malloc s size
  else if size = 0 then do
    let s ← free s ptr
    return (s, 0)
  else
    let headerSizeField := sizeOf s.memory (ptr - headerSize)
    if size < headerSizeField ∧ (headerSizeField / 2 < size ∨ headerSizeField - size < minSegmentSize * 2) then
      .ok (s, ptr)
    else do
      let (s, newPtr) ← malloc s size
      let s := { s with memory := s.memory.copy newPtr ptr (min headerSizeField size) }
      let s ← free s ptr
      return (s, newPtr)

def heapDefragment (s : State) : Except Fault State := defragment s

end Bincows.Heap
