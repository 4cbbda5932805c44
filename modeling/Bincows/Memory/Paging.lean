import Bincows.Shared.Execution
import Mathlib.Data.BitVec

set_option autoImplicit false

/-! `memory table index` is the entry at `index` of the table at the physical address `table`; `translate_address` is the
identity. The physical allocator is the list of pages it will hand out next; `physfree` stops at a page that is in no range
(`found`) or not handed out (`inUse`), and clears the page. -/

namespace Bincows.Paging

def presentFlag : BitVec 64 := 1

def plRW : BitVec 64 := 2

def plUS : BitVec 64 := 4

def ptaabSize : Nat := 64

def ptaabRefill : Nat := 16

inductive Fault where
  | unaligned
  | nullAddress
  | outOfMemory
  | outOfBufferedPages
  | alreadyMapped (flags physicalAddr virtualAddr old : BitVec 64)
  | entryNotPresent (index : Nat)
  | notMapped (virtualAddr : BitVec 64)
  | badFree (page : BitVec 64)
  | diverges
  deriving DecidableEq

structure State where
  memory : BitVec 64 -> Nat -> BitVec 64
  pml4 : BitVec 64
  -- `page_table_allocator_buffer`, the last page stored first.
  buffer : List (BitVec 64)
  pool : List (BitVec 64)
  found : BitVec 64 -> Bool
  inUse : BitVec 64 -> Bool
  allocPageTableRealloc : Bool

def ptOffset (virt : BitVec 64) : Nat := ((virt >>> 12) &&& 0x1ff).toNat

def pdOffset (virt : BitVec 64) : Nat := ((virt >>> 21) &&& 0x1ff).toNat

def pdptOffset (virt : BitVec 64) : Nat := ((virt >>> 30) &&& 0x1ff).toNat

def pml4Offset (virt : BitVec 64) : Nat := ((virt >>> 39) &&& 0x1ff).toNat

def createTableEntry (entry flags : BitVec 64) : Except Fault (BitVec 64) :=
  if entry &&& 0xfff ≠ 0 then .error .unaligned else .ok (flags ||| entry)

def extractPointer (entry : BitVec 64) : BitVec 64 := 0x000ffffffffff000 &&& entry

def presentEntry (entry : BitVec 64) : Bool := entry &&& presentFlag ≠ 0

def setEntry (s : State) (table : BitVec 64) (index : Nat) (entry : BitVec 64) : State :=
  { s with memory := Function.update s.memory table (Function.update (s.memory table) index entry) }

def zeroPages (memory : BitVec 64 -> Nat -> BitVec 64) (pages : List (BitVec 64)) : BitVec 64 -> Nat -> BitVec 64 :=
  fun page index => if page ∈ pages then 0 else memory page index

-- `physalloc` with `page_table_allocator_callback`, then `zero_page_table_page` on each new page.
def refill (s : State) (count : Nat) : Except Fault State :=
  if s.pool.length < count then .error .outOfMemory
  else
    let pages := s.pool.take count
    .ok
      { s with
        memory := zeroPages s.memory pages
        buffer := pages.reverse ++ s.buffer
        pool := s.pool.drop count
        inUse := fun page => page ∈ pages || s.inUse page }

def fillPageTableAllocatorBuffer (s : State) (n : Nat) : Except Fault State :=
  if n < s.buffer.length then .ok s else refill s (n - s.buffer.length)

def allocPageTable (s : State) : Except Fault (State × BitVec 64) :=
  match s.buffer with
  | page :: rest => .ok ({ s with buffer := rest }, page)
  | [] =>
    if s.allocPageTableRealloc then do
      let s ← refill s ptaabRefill
      match s.buffer with
      | page :: rest => return ({ s with buffer := rest }, page)
      | [] => .error .outOfBufferedPages
    else .error .outOfBufferedPages

def getEntryOrAllocate (s : State) (table : BitVec 64) (index : Nat) : Except Fault (State × BitVec 64) :=
  let entry := s.memory table index
  if presentEntry entry then .ok (s, entry)
  else do
    let (s, page) ← allocPageTable s
    let e ← createTableEntry page (presentFlag ||| plUS ||| plRW)
    return (setEntry s table index e, e)

def mapTable (flags table : BitVec 64) : Nat -> State -> Nat -> BitVec 64 -> BitVec 64 ->
    Except Fault (State × Nat × BitVec 64 × BitVec 64)
  | 0, s, _, physicalAddr, virtualAddr => .ok (s, 0, physicalAddr, virtualAddr)
  | count + 1, s, pti, physicalAddr, virtualAddr =>
    if pti < 512 then do
      let e ← createTableEntry physicalAddr flags
      let old := s.memory table pti
      if presentEntry old then
        .error (.alreadyMapped flags physicalAddr virtualAddr (extractPointer old))
      else
        mapTable flags table count (setEntry s table pti e) (pti + 1) (physicalAddr + 0x1000) (virtualAddr + 0x1000)
    else .ok (s, count + 1, physicalAddr, virtualAddr)

-- Every turn maps a page, so `count` turns are enough.
def internalMapPages (flags : BitVec 64) : Nat -> State -> BitVec 64 -> BitVec 64 -> Nat -> Except Fault State
  | 0, s, _, _, count => if count = 0 then .ok s else .error .diverges
  | fuel + 1, s, physicalAddr, virtualAddr, count =>
    if count = 0 then .ok s
    else do
      let (s, pml4entry) ← getEntryOrAllocate s s.pml4 (pml4Offset virtualAddr)
      let (s, pdptentry) ← getEntryOrAllocate s (extractPointer pml4entry) (pdptOffset virtualAddr)
      let (s, pdentry) ← getEntryOrAllocate s (extractPointer pdptentry) (pdOffset virtualAddr)
      let (s, count, physicalAddr, virtualAddr) ←
        mapTable flags (extractPointer pdentry) count s (ptOffset virtualAddr) physicalAddr virtualAddr
      internalMapPages flags fuel s physicalAddr virtualAddr count

def mapChunks (flags : BitVec 64) : Nat -> State -> BitVec 64 -> BitVec 64 -> Nat -> Except Fault State
  | 0, _, _, _, _ => .error .diverges
  | fuel + 1, s, physicalAddr, virtualAddr, count => do
    let s ← fillPageTableAllocatorBuffer s ptaabSize
    if ptaabSize < count then
      let s ← internalMapPages flags 64 s physicalAddr virtualAddr 64
      mapChunks flags fuel s (physicalAddr + 0x1000 * 64) (virtualAddr + 0x1000 * 64) (count - 64)
    else internalMapPages flags count s physicalAddr virtualAddr count

def mapPages (s : State) (physicalAddr virtualAddr : BitVec 64) (count : Nat) (flags : BitVec 64) : Except Fault State :=
  if physicalAddr = 0 ∨ virtualAddr = 0 then .error .nullAddress
  else mapChunks flags (count + 1) s physicalAddr virtualAddr count

def getEntryOrPanic (s : State) (table : BitVec 64) (index : Nat) : Except Fault (BitVec 64) :=
  let entry := s.memory table index
  if presentEntry entry then .ok entry else .error (.entryNotPresent index)

def getPageTableOrPanic (s : State) (virtualAddr : BitVec 64) : Except Fault (BitVec 64) := do
  let pml4entry ← getEntryOrPanic s s.pml4 (pml4Offset virtualAddr)
  let pdptentry ← getEntryOrPanic s (extractPointer pml4entry) (pdptOffset virtualAddr)
  let pdentry ← getEntryOrPanic s (extractPointer pdptentry) (pdOffset virtualAddr)
  return extractPointer pdentry

def physfree (s : State) (page : BitVec 64) : Except Fault State :=
  if s.found page && s.inUse page then
    .ok
      { s with
        memory := zeroPages s.memory [page]
        pool := s.pool ++ [page]
        inUse := Function.update s.inUse page false }
  else .error (.badFree page)

def unmapTable (free : Bool) (table : BitVec 64) : Nat -> State -> Nat -> BitVec 64 -> Except Fault (State × Nat × BitVec 64)
  | 0, s, _, virtualAddr => .ok (s, 0, virtualAddr)
  | count + 1, s, pti, virtualAddr =>
    if pti < 512 then
      let entry := s.memory table pti
      if presentEntry entry then do
        let s ← (if free then physfree s (extractPointer entry) else .ok s)
        unmapTable free table count (setEntry s table pti 0) (pti + 1) (virtualAddr + 0x1000)
      else .error (.notMapped virtualAddr)
    else .ok (s, count + 1, virtualAddr)

def unmapLoop (free : Bool) : Nat -> State -> BitVec 64 -> Nat -> Except Fault State
  | 0, s, _, count => if count = 0 then .ok s else .error .diverges
  | fuel + 1, s, virtualAddr, count =>
    if count = 0 then .ok s
    else do
      let table ← getPageTableOrPanic s virtualAddr
      let (s, count, virtualAddr) ← unmapTable free table count s (ptOffset virtualAddr) virtualAddr
      unmapLoop free fuel s virtualAddr count

def unmapPages (s : State) (virtualAddr : BitVec 64) (count : Nat) (free : Bool) : Except Fault State :=
  unmapLoop free count s virtualAddr count

def getPhysAddr (s : State) (vaddr : BitVec 64) : BitVec 64 :=
  let pageOffset := vaddr &&& 0xfff
  let pml4entry := s.memory s.pml4 (pml4Offset vaddr)
  if !presentEntry pml4entry then 0
  else
    let pdptentry := s.memory (extractPointer pml4entry) (pdptOffset vaddr)
    if !presentEntry pdptentry then 0
    else
      let pdentry := s.memory (extractPointer pdptentry) (pdOffset vaddr)
      if !presentEntry pdentry then 0
      else
        let ptentry := s.memory (extractPointer pdentry) (ptOffset vaddr)
        if !presentEntry ptentry then 0 else extractPointer ptentry ||| pageOffset

end Bincows.Paging
