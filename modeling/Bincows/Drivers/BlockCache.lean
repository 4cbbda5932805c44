import Bincows.Shared.Blocks
import Bincows.Shared.Execution

set_option autoImplicit false

/-! A page that is not mapped is fetched: the read is issued and recorded; `target_sync` waits for the device and maps the
recorded pages. Writes go to the mapped frames and through to the device. -/

namespace Bincows.BlockCache

open Function

variable {S : Type}

def maxPageFetches : Nat := 256

inductive Fault where
  | notLocked
  | relocked
  | waits
  | shift
  | range
  | capacity
  | remap
  | pageFault
  deriving DecidableEq

structure PageFetch where
  lba : Nat
  paddr : Nat
  pfId : Nat
  deriving DecidableEq

structure BlockPageCache where
  lbashift : Nat
  capacity : Nat
  virtSize : Nat
  mapped : Nat -> Option Nat
  pageFetches : List PageFetch
  locked : Option Nat

def BlockPageCache.sectorsPerPage (cache : BlockPageCache) : Nat := 0x1000 >>> cache.lbashift

def BlockPageCache.page (cache : BlockPageCache) (lba : Nat) : Nat := lba / cache.sectorsPerPage

def BlockPageCache.pageBegin (cache : BlockPageCache) (lba : Nat) : Nat :=
  cache.page lba * cache.sectorsPerPage

structure Host (S : Type) where
  cache : BlockPageCache
  disk : Nat -> S
  reads : List PageFetch
  frames : Nat -> Nat -> S
  nextFrame : Nat

def checkPresentPage (cache : BlockPageCache) (lba : Nat) : Bool :=
  (cache.mapped (cache.page lba)).isSome

def lockCache (pid : Nat) (h : Host S) : Except Fault (Host S) :=
  match h.cache.locked with
  | none => .ok { h with cache := { h.cache with locked := some pid } }
  | some holder => .error (if holder = pid then .relocked else .waits)

def unlockCache (h : Host S) : Host S := { h with cache := { h.cache with locked := none } }

def isFetching (cache : BlockPageCache) (lba : Nat) : Bool :=
  cache.pageFetches.any fun f => f.lba == cache.pageBegin lba

def issueFetch (h : Host S) (lba : Nat) : Host S :=
  let fetch := { lba := h.cache.pageBegin lba, paddr := h.nextFrame, pfId := 0 }
  { h with
    cache := { h.cache with pageFetches := h.cache.pageFetches ++ [fetch] }
    reads := h.reads ++ [fetch]
    nextFrame := h.nextFrame + 1 }

def load (disk : Nat -> S) (frames : Nat -> Nat -> S) (f : PageFetch) : Nat -> Nat -> S :=
  update frames f.paddr fun offset => disk (f.lba + offset)

def deviceSync (h : Host S) : Host S :=
  { h with frames := h.reads.foldl (load h.disk) h.frames, reads := [] }

def mapFetch (cache : BlockPageCache) (f : PageFetch) : Except Fault BlockPageCache :=
  match cache.mapped (cache.page f.lba) with
  | some _ => .error .remap
  | none => .ok { cache with mapped := update cache.mapped (cache.page f.lba) (some f.paddr) }

def mapFetched (cache : BlockPageCache) (lastId : Nat) : Except Fault BlockPageCache := do
  let ready := cache.pageFetches.takeWhile fun f => f.pfId ≤ lastId
  let mapped ← ready.foldlM mapFetch cache
  .ok { mapped with pageFetches := mapped.pageFetches.drop ready.length }

def targetSync (pid : Nat) (h : Host S) : Except Fault (Host S) := do
  let h ← lockCache pid h
  match h.cache.pageFetches.getLast? with
  | none => .ok (unlockCache h)
  | some last =>
    let h := deviceSync (unlockCache h)
    let h ← lockCache pid h
    let cache ← mapFetched h.cache last.pfId
    .ok (unlockCache { h with cache })

def fetchPage (pid : Nat) (h : Host S) (lba : Nat) : Except Fault (Host S) :=
  if h.cache.locked ≠ some pid then .error .notLocked
  else if 12 ≤ h.cache.lbashift then .error .shift
  else if isFetching h.cache lba then .ok h
  else do
    let h ← if maxPageFetches ≤ h.cache.pageFetches.length then do
        let h ← targetSync pid (unlockCache h)
        lockCache pid h
      else .ok h
    -- the loop would go round again
    if maxPageFetches ≤ h.cache.pageFetches.length then .error .waits
    else .ok (issueFetch h lba)

def sectorsInIteration (lba count sectorsPerPage : Nat) : Nat :=
  let pageOffset := lba % sectorsPerPage
  if sectorsPerPage - pageOffset < count then sectorsPerPage - pageOffset else count

def eachPage {T : Type} (sectorsPerPage : Nat) (body : T -> Nat -> Nat -> Except Fault T) :
    Nat -> Nat -> Nat -> T -> Except Fault T
  | 0, _, _, t => .ok t
  | fuel + 1, lba, count, t =>
    if count = 0 then .ok t
    else do
      let taken := sectorsInIteration lba count sectorsPerPage
      let t ← body t lba taken
      eachPage sectorsPerPage body fuel (lba + taken) (count - taken) t

def prefetchPage (pid : Nat) (h : Host S) (lba _ : Nat) : Except Fault (Host S) := do
  let h ← lockCache pid h
  let h ← if checkPresentPage h.cache lba then .ok h else fetchPage pid h lba
  .ok (unlockCache h)

def prefetch (pid : Nat) (h : Host S) (lba count : Nat) : Except Fault (Host S) :=
  if 12 ≤ h.cache.lbashift then .error .shift
  else do
    let h ← eachPage h.cache.sectorsPerPage (prefetchPage pid) count lba count h
    targetSync pid h

def blockingReadCache (pid : Nat) (h : Host S) (lba : Nat) : Except Fault (Host S) :=
  if h.cache.locked ≠ some pid then .error .notLocked
  else if checkPresentPage h.cache lba then .ok h
  else do
    let h ← if isFetching h.cache lba then .ok h else fetchPage pid h lba
    let h ← targetSync pid (unlockCache h)
    lockCache pid h

def checkSector (cache : BlockPageCache) (lba : Nat) : Except Fault Unit :=
  if cache.capacity ≤ lba then .error .capacity
  else if cache.virtSize ≤ lba <<< cache.lbashift then .error .range
  else .ok ()

def copyOut (h : Host S) (lba count : Nat) : Except Fault (List S) :=
  match h.cache.mapped (h.cache.page lba) with
  | none => .error .pageFault
  | some frame => .ok (Blocks.readBlocks (h.frames frame) (lba % h.cache.sectorsPerPage) count)

def copyIn (h : Host S) (lba : Nat) (buf : List S) : Except Fault (Host S) :=
  match h.cache.mapped (h.cache.page lba) with
  | none => .error .pageFault
  | some frame =>
    let sectors := Blocks.writeBlocks (h.frames frame) (lba % h.cache.sectorsPerPage) buf
    .ok { h with frames := update h.frames frame sectors }

def readPage (pid : Nat) (t : Host S × List S) (lba count : Nat) :
    Except Fault (Host S × List S) := do
  checkSector t.1.cache lba
  let h ← blockingReadCache pid t.1 lba
  let sectors ← copyOut h lba count
  .ok (h, t.2 ++ sectors)

def read (pid : Nat) (h : Host S) (lba count : Nat) : Except Fault (Host S × List S) := do
  let h ← prefetch pid h lba count
  let h ← lockCache pid h
  let (h, buf) ← eachPage h.cache.sectorsPerPage (readPage pid) count lba count (h, [])
  .ok (unlockCache h, buf)

def allocPage (h : Host S) (lba : Nat) : Host S :=
  { h with
    cache := { h.cache with mapped := update h.cache.mapped (h.cache.page lba) (some h.nextFrame) }
    nextFrame := h.nextFrame + 1 }

def preparePage (pid : Nat) (h : Host S) (lba count : Nat) : Except Fault (Host S) :=
  if count < h.cache.sectorsPerPage then blockingReadCache pid h lba
  else if checkPresentPage h.cache lba then .ok h
  else .ok (allocPage h lba)

def writePage (pid : Nat) (t : Host S × List S) (lba count : Nat) :
    Except Fault (Host S × List S) := do
  checkSector t.1.cache lba
  let h ← preparePage pid t.1 lba count
  let h ← copyIn h lba (t.2.take count)
  .ok (unlockCache h, t.2.drop count)

def writeCache (pid : Nat) (h : Host S) (lba : Nat) (buf : List S) : Except Fault (Host S) :=
  if 12 ≤ h.cache.lbashift then .error .shift
  else do
    let h ← lockCache pid h
    let (h, _) ← eachPage h.cache.sectorsPerPage (writePage pid) buf.length lba buf.length (h, buf)
    .ok h

def blockCacheWrite (pid : Nat) (h : Host S) (lba : Nat) (buf : List S) :
    Except Fault (Host S) := do
  let h ← writeCache pid h lba buf
  let h := deviceSync h
  .ok { h with disk := Blocks.writeBlocks h.disk lba buf }

def blockCacheAsyncRead (pid : Nat) (h : Host S) (lba count : Nat) :
    Except Fault (Host S × List S) := read pid h lba count

end Bincows.BlockCache
