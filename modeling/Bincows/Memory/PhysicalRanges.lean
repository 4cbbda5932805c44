import Bincows.Shared.Bitmap
import Bincows.Shared.Execution

set_option autoImplicit false

/-! The sorted table of memory ranges, their header pages with four bitmaps, and the four lists they
are kept on. `callback` only records what it is called with. -/

namespace Bincows.Pmm

open Function

abbrev Level := Fin 4

instance levelsNonempty : NeZero 4 := ⟨by decide⟩

-- Pages covered by one bit of each bitmap level.
def granularity : Level -> Nat := ![1, 4, 8, 16]

def maxSize : Nat := 16384

inductive Fault where
  | unaligned
  | outOfMemory (size : Nat) (virtualAddr : BitVec 64)
  | noRange
  | pageInUse
  | pageNotInUse
  | availableUnderflow
  | noBlockFound
  | outsideRanges
  | rangeTooSmall
  | checkFailed
  | diverges
  deriving DecidableEq

structure MemoryRange where
  base : Nat
  length : Nat
  deriving DecidableEq

structure MRHeader where
  available : Level -> Nat
  bitmap : Level -> Bitmap.Bytes

structure State where
  nRanges : Nat
  range : Nat -> MemoryRange
  header : Nat -> MRHeader
  next : Nat -> Option Nat
  mrLists : Level -> Option Nat
  totalAvailablePages : Nat

-- Physical address of page `page` of a range; the page before it is the header.
def MemoryRange.pageAddr (range : MemoryRange) (page : Nat) : Nat :=
  range.base + (page + 1) * 0x1000

def blocks (length : Nat) (level : Level) : Nat :=
  (length + granularity level - 1) / granularity level

-- `available` is a `uint32_t`: both directions wrap.
def decrement32 (n : Nat) : Nat := (n + 0xffffffff) % 0x100000000

def increment32 (n : Nat) : Nat := (n + 1) % 0x100000000

def initHeader (length : Nat) : MRHeader where
  available := fun level => blocks (length - 1) level
  bitmap := fun _ _ => 0

def firstAvailable (header : MRHeader) : Option Level :=
  [3, 2, 1, 0].find? (fun level => header.available level != 0)

def initMemoryRange (s : State) (addr length : Nat) : Except Fault State :=
  if addr % 0x1000 ≠ 0 then .error .unaligned
  else if length ≤ 1 then .error .rangeTooSmall
  else
    let j := s.nRanges
    let header := initHeader length
    let (next, mrLists) := match firstAvailable header with
      | none => (s.next, s.mrLists)
      | some level =>
        (update s.next j (s.mrLists level), update s.mrLists level (some j))
    .ok
      { s with
        nRanges := j + 1
        range := update s.range j { base := addr, length := length - 1 }
        header := update s.header j header
        next := next
        mrLists := mrLists }

def emptyState : State where
  nRanges := 0
  range := fun _ => { base := 0, length := 0 }
  header := fun _ => initHeader 0
  next := fun _ => none
  mrLists := fun _ => none
  totalAvailablePages := 0

def initRanges : State -> List (Nat × Nat) -> Except Fault State
  | s, [] => .ok s
  | s, (addr, length) :: rest => do
    let s ← initMemoryRange s addr length
    initRanges s rest

-- The end of `init_pmm`: every range spends one page on its header.
def initPmm (pieces : List (Nat × Nat)) : Except Fault State := do
  let s ← initRanges emptyState pieces
  return { s with totalAvailablePages := (pieces.map Prod.snd).sum - s.nRanges }

def getMR (mrLists : Level -> Option Nat) : Except Fault (Nat × Level) :=
  match mrLists 3, mrLists 2, mrLists 1, mrLists 0 with
  | some range, _, _, _ => .ok (range, 3)
  | none, some range, _, _ => .ok (range, 2)
  | none, none, some range, _ => .ok (range, 1)
  | none, none, none, some range => .ok (range, 0)
  | none, none, none, none => .error .noRange

def levelMask (page : Nat) (level : Level) : BitVec 8 := 1#8 <<< (page / granularity level % 8)

def levelByte (page : Nat) (level : Level) : Nat := page / 8 / granularity level

def allocPageBitmaps (header : MRHeader) (page : Nat) : Except Fault MRHeader :=
  let byte := fun level => header.bitmap level (levelByte page level)
  if byte 0 &&& levelMask page 0 ≠ 0 then .error .pageInUse
  else
    let available := fun level =>
      if level = 0 ∨ byte level &&& levelMask page level = 0 then
        decrement32 (header.available level)
      else header.available level
    if ∃ level, available level = 0xffffffff then .error .availableUnderflow
    else
      .ok
        { available := available
          bitmap := fun level =>
            update (header.bitmap level) (levelByte page level) (byte level ||| levelMask page level) }

def freePageBitmaps (header : MRHeader) (page : Nat) : Except Fault MRHeader :=
  let byte := fun level => header.bitmap level (levelByte page level)
  let lv1_0_mask : BitVec 8 := 0xf#8 <<< (4 * (page / 4 % 2))
  let lv2_1_mask : BitVec 8 := 0x3#8 <<< (2 * (page / 8 % 4))
  let lv3_2_mask : BitVec 8 := 0x3#8 <<< (2 * (page / 16 % 4))
  if ∃ level, byte level &&& levelMask page level = 0 then .error .pageNotInUse
  else
    let lv0 := byte 0 &&& ~~~ levelMask page 0
    let free1 := decide (lv0 &&& lv1_0_mask = 0)
    let lv1 := if free1 then byte 1 &&& ~~~ levelMask page 1 else byte 1
    let free2 := decide (lv1 &&& lv2_1_mask = 0)
    let lv2 := if free2 then byte 2 &&& ~~~ levelMask page 2 else byte 2
    let free3 := decide (lv2 &&& lv3_2_mask = 0)
    let lv3 := if free3 then byte 3 &&& ~~~ levelMask page 3 else byte 3
    let freed : Level -> Bool := ![true, free1, free2, free3]
    let bytes : Level -> BitVec 8 := ![lv0, lv1, lv2, lv3]
    .ok
      { available := fun level =>
          if freed level then increment32 (header.available level) else header.available level
        bitmap := fun level =>
          update (header.bitmap level) (levelByte page level) (bytes level) }

structure Lists where
  next : Nat -> Option Nat
  heads : Level -> Option Nat

-- Written for a range on top of list `level`, as the source demands.
def moveRegionIfFull (lists : Lists) (range : Nat) (header : MRHeader) : Nat -> Bool -> Lists × Bool
  | 0, moved =>
    if header.available 0 ≠ 0 then (lists, moved)
    else ({ lists with heads := update lists.heads 0 (lists.next range) }, true)
  | level + 1, moved =>
    let here : Level := Fin.ofNat 4 (level + 1)
    let below : Level := Fin.ofNat 4 level
    if header.available here ≠ 0 then (lists, moved)
    else
      let removed := update lists.heads here (lists.next range)
      let lists :=
        { next := update lists.next range (removed below)
          heads := update removed below (some range) }
      moveRegionIfFull lists range header level true

structure Progress where
  header : MRHeader
  size : Nat
  virtualAddr : BitVec 64
  callbacks : List (Nat × BitVec 64)
  foundBlock : Bool

def allocPage (range : MemoryRange) (page : Nat) (p : Progress) : Except Fault Progress := do
  let header ← allocPageBitmaps p.header page
  return {
    header := header
    size := p.size - 1
    virtualAddr := p.virtualAddr + 0x1000
    callbacks := p.callbacks ++ [(range.pageAddr page, p.virtualAddr)]
    foundBlock := true }

def allocBlock (range : MemoryRange) : Nat -> Nat -> Progress -> Except Fault (Progress × Bool)
  | 0, _, p => .ok (p, false)
  | j + 1, currPage, p => do
    let p ← allocPage range currPage p
    if currPage + 1 ≥ range.length ∨ p.size = 0 then return (p, true)
    else allocBlock range j (currPage + 1) p

def scanChunk (range : MemoryRange) (level : Level) (currentBlock : Nat) :
    Nat -> BitVec 64 -> Progress -> Except Fault (Progress × Nat)
  | 0, _, _ => .error .diverges
  | fuel + 1, freeChunks, p =>
    let ffs := Bitmap.ffsll freeChunks
    if ffs = 0 then .ok (p, currentBlock + 64)
    else
      let bitPos := ffs - 1
      let localBlock := currentBlock + bitPos
      if localBlock ≥ blocks range.length level then .ok (p, localBlock)
      else do
        let (p, done) ← allocBlock range (granularity level) (localBlock * granularity level) p
        if done then return (p, localBlock)
        else scanChunk range level currentBlock fuel (freeChunks &&& ~~~ (1#64 <<< bitPos)) p

def scanRange (index : Nat) (range : MemoryRange) (level : Level) :
    Nat -> Nat -> Nat -> Progress -> Lists -> Except Fault (Progress × Lists)
  | 0, _, _, _, _ => .error .diverges
  | fuel + 1, chunk, currentBlock, p, lists =>
    if currentBlock < blocks range.length level then
      let freeChunks := ~~~ Bitmap.chunk64 (p.header.bitmap level) chunk
      if freeChunks = 0 then scanRange index range level fuel (chunk + 1) (currentBlock + 64) p lists
      else do
        let (p, currentBlock) ← scanChunk range level currentBlock 65 freeChunks p
        let (lists, moved) := moveRegionIfFull lists index p.header level.val false
        if moved then return (p, lists)
        else if p.size = 0 then return (p, lists)
        else scanRange index range level fuel (chunk + 1) currentBlock p lists
    else .ok (p, lists)

/-- The loop over the memory ranges. Every turn takes a page or fails `assert(found_block)`. -/
def physallocLoop : Nat -> State -> Nat -> BitVec 64 -> List (Nat × BitVec 64) ->
    Except Fault (State × List (Nat × BitVec 64))
  | 0, s, size, _, callbacks => if size = 0 then .ok (s, callbacks) else .error .diverges
  | fuel + 1, s, size, virtualAddr, callbacks =>
    if size = 0 then .ok (s, callbacks)
    else do
      let (index, level) ← getMR s.mrLists
      let range := s.range index
      let (p, lists) ← scanRange index range level (blocks range.length level + size + 1) 0 0
        { header := s.header index
          size := size
          virtualAddr := virtualAddr
          callbacks := callbacks
          foundBlock := false }
        { next := s.next, heads := s.mrLists }
      if p.foundBlock then
        physallocLoop fuel
          { s with
            header := update s.header index p.header
            next := lists.next
            mrLists := lists.heads }
          p.size p.virtualAddr p.callbacks
      else .error .noBlockFound

def physalloc (s : State) (size : Nat) (virtualAddr : BitVec 64) : Except Fault (State × List (Nat × BitVec 64)) :=
  if virtualAddr &&& 0xfff ≠ 0 then .error .unaligned
  else if s.totalAvailablePages < size then .error (.outOfMemory size virtualAddr)
  else
    physallocLoop size { s with totalAvailablePages := s.totalAvailablePages - size } size virtualAddr []

-- The dichotomy of `get_memory_range` between the table entries `a` and `b`.
def searchRange (s : State) (addr : Nat) : Nat -> Nat -> Nat -> Except Fault Nat
  | 0, _, _ => .error .diverges
  | fuel + 1, a, b =>
    if addr > (s.range a).base + (s.range a).length * 0x1000 then
      let c := (a + b) / 2
      if addr < (s.range c).base then searchRange s addr fuel a c
      else searchRange s addr fuel c b
    else if addr = (s.range a).base then .error .outsideRanges
    else .ok a

def getMemoryRange (s : State) (addr : Nat) : Except Fault Nat :=
  let last := s.nRanges - 1
  if addr > (s.range last).base then
    if addr < (s.range last).base + (s.range last).length * 0x1000 then .ok last
    else .error .outsideRanges
  else if addr > (s.range 0).base then searchRange s addr (s.nRanges + 1) 0 last
  else .error .outsideRanges

def physfree (s : State) (physicalPageAddr : Nat) : Except Fault State :=
  if physicalPageAddr % 0x1000 ≠ 0 then .error .unaligned
  else do
    let index ← getMemoryRange s physicalPageAddr
    let position := (physicalPageAddr - (s.range index).base) / 0x1000 - 1
    let header ← freePageBitmaps (s.header index) position
    return { s with
      header := update s.header index header
      totalAvailablePages := s.totalAvailablePages + 1 }

end Bincows.Pmm
