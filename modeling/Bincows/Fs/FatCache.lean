import Bincows.Fs.Fat32
import Bincows.Shared.WriteBack

set_option autoImplicit false

/-! The table behind the sector cache of `fat32.c`. A pointer into the buffer of the cache is the number of a sector. On a hit
`cache_access` returns the pointer for `lba` and not the one of the entry. -/

namespace Bincows.Fat32

open WriteBack Function

def fatCacheSize : Nat := 2048

abbrev Sector := Nat -> BitVec 32

/-- `disk_part_t` and `block_cache_t`: the lines are the entries with their part of the buffer. -/
structure CachedVolume extends Memory Nat Nat Sector where
  allocStart : Nat

inductive CacheFault where
  | fat (fault : Fault)
  | outsideCache (pointer : Nat)
  | wrongTag (lba : Nat)
  deriving DecidableEq

-- `lba & (FAT_CACHE_SIZE - 1)`.
def lbaHash (lba : Nat) : Nat := lba % fatCacheSize

variable (g : Geometry)

def setupCache (disk : Nat -> Sector) (garbage : Nat -> Sector) : CachedVolume :=
  { backing := disk
    lines := fun i => { tag := 0, modified := false, value := garbage i }
    allocStart := g.fatBegin }

def writeSector (c : CachedVolume) (lba : Nat) (sector : Sector) : Except CacheFault CachedVolume :=
  if g.partSize < lba then .error (.fat (.outsidePartition lba))
  else .ok { c with backing := update c.backing lba sector }

def cacheAccess (c : CachedVolume) (lba : Nat) : Option Nat :=
  if (c.lines (lbaHash lba)).tag = lba then some lba else none

-- What a pointer into the buffer points to.
def load (c : CachedVolume) (pointer : Nat) : Except CacheFault Sector :=
  if pointer < fatCacheSize then .ok (c.lines pointer).value else .error (.outsideCache pointer)

def addCacheEntry (c : CachedVolume) (lba : Nat) : Except CacheFault (CachedVolume × Nat) := do
  let e := c.lines (lbaHash lba)
  let c ← if e.modified then
      (writeSector g c e.tag e.value).map fun c =>
        { c with lines := update c.lines (lbaHash lba) { e with modified := false } }
    else .ok c
  let c := { c with lines := update c.lines (lbaHash lba) { c.lines (lbaHash lba) with tag := lba } }
  return (c, lbaHash lba)

def fetchFatSector (c : CachedVolume) (lba : Nat) : Except CacheFault (CachedVolume × Nat) :=
  if lba < g.fatBegin ∨ g.fatBegin + g.fatSize ≤ lba then .error (.fat (.outsideFat lba))
  else
    match cacheAccess c lba with
    | some pointer => .ok (c, pointer)
    | none => do
      let (c, pointer) ← addCacheEntry g c lba
      if g.partSize ≤ lba then .error (.fat (.outsidePartition lba))
      else
        let e := { c.lines pointer with value := c.backing lba }
        return ({ c with lines := update c.lines pointer e }, pointer)

def markModified (c : CachedVolume) (lba : Nat) : Except CacheFault CachedVolume :=
  let e := c.lines (lbaHash lba)
  if e.tag ≠ lba then .error (.wrongTag lba)
  else .ok { c with lines := update c.lines (lbaHash lba) { e with modified := true } }

def entryPlace (cluster : Nat) : Nat × Nat :=
  let offset := cluster * 4 % 2 ^ 32
  (g.fatBegin + offset / g.blockSize, offset % g.blockSize / 4)

namespace CachedVolume

variable (c : CachedVolume)

def readFAT (cluster : Nat) : Except CacheFault (CachedVolume × Nat) := do
  let (lba, word) := entryPlace g cluster
  let (c, pointer) ← fetchFatSector g c lba
  let sector ← load c pointer
  let ent := sector word &&& 0x0fffffff
  if ent = 0 then .error (.fat (.freeEntry cluster))
  else if ent = 1 then .error (.fat (.reservedEntry cluster))
  else if 0x0ffffff8 ≤ ent then return (c, 0)
  else return (c, ent.toNat)

end CachedVolume

def findFreeWord (sector : Sector) : Nat -> Nat -> Option Nat
  | 0, _ => none
  | count + 1, i => if sector i = 0 then some i else findFreeWord sector count (i + 1)

def searchCached (last lastSector : Nat) : Nat -> CachedVolume -> Nat -> Except CacheFault (CachedVolume × Option (Nat × Nat))
  | 0, _, _ => .error (.fat .diverges)
  | fuel + 1, c, lba =>
    if lba = lastSector then .ok (c, none)
    else do
      let (c, pointer) ← fetchFatSector g c lba
      let sector ← load c pointer
      let begin := if lba = g.fatBegin then 2 else 0
      match findFreeWord sector (g.entriesPerSector - begin) begin with
      | some i => return (c, some (lba, i))
      | none => searchCached last lastSector fuel c (if lba = last then g.fatBegin else lba + 1)

namespace CachedVolume

variable (c : CachedVolume)

def allocFAT : Except CacheFault (CachedVolume × Nat) :=
  if c.allocStart < g.fatBegin then .error (.fat (.allocStart c.allocStart))
  else if g.fatBegin + g.fatSize ≤ c.allocStart then .error (.fat (.allocStart c.allocStart))
  else do
    let last := g.fatBegin + g.fatSize - 1
    let lastSector := if c.allocStart = g.fatBegin then g.fatBegin + g.fatSize - 1 else c.allocStart - 1
    let (c, found) ← searchCached g last lastSector (g.fatSize + 1) c c.allocStart
    match found with
    | some (lba, i) => return ({ c with allocStart := lba }, (lba - g.fatBegin) * g.entriesPerSector + i)
    | none => return (c, 0)

def linkFAT (source : Nat) (target : BitVec 32) : Except CacheFault CachedVolume := do
  let (lba, word) := entryPlace g source
  let (c, pointer) ← fetchFatSector g c lba
  let sector ← load c pointer
  let ent := sector word
  if ¬ (0x0ffffff8 ≤ ent &&& 0x0fffffff ∨ ent = 0) then .error (.fat (.notLast source))
  else if target &&& 0xf0000000 ≠ 0 then .error (.fat (.badTarget target.toNat))
  else
    let e := { c.lines pointer with value := update sector word (target ||| (ent &&& 0xf0000000)) }
    markModified { c with lines := update c.lines pointer e } lba

end CachedVolume

def flushFrom : Nat -> Nat -> CachedVolume -> Except CacheFault CachedVolume
  | 0, _, c => .ok c
  | count + 1, i, c => do
    let e := c.lines i
    let c ← if e.modified then
        writeSector g { c with lines := update c.lines i { e with modified := false } } e.tag e.value
      else .ok c
    flushFrom count (i + 1) c

def flushFatCache (c : CachedVolume) : Except CacheFault CachedVolume :=
  flushFrom g fatCacheSize 0 c

end Bincows.Fat32
