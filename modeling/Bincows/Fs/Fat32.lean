import Bincows.Shared.Blocks
import Bincows.Shared.Execution

set_option autoImplicit false

/-! The table and the sector access of `fat32.c`. Fetching a sector of the table gives its current
content. Sectors of data have contents of any type; sector numbers are relative to the partition. -/

namespace Bincows.Fat32

open Blocks

inductive Fault where
  | outsideFat (lba : Nat)
  | allocStart (lba : Nat)
  | freeEntry (cluster : Nat)
  | reservedEntry (cluster : Nat)
  | notLast (cluster : Nat)
  | badTarget (cluster : Nat)
  | notEmpty
  | noAddr
  | noCluster
  | insideFile
  | clusterEnd
  | beyondEnd
  | outsidePartition (lba : Nat)
  | diverges
  deriving DecidableEq

structure Geometry where
  lbashift : Nat
  clusterSize : Nat
  fatBegin : Nat
  fatSize : Nat
  dataBegin : Nat
  partSize : Nat
  sectorSizes : 9 ≤ lbashift ∧ lbashift ≤ 12
  clusterSizes : 0 < clusterSize ∧ clusterSize < 256
  fatSizes : 0 < fatSize ∧ fatSize * (2 ^ lbashift / 4) ≤ 0x0ffffff8
  fatBefore : fatBegin + fatSize ≤ dataBegin

theorem sectorSizes_least : 9 ≤ 9 ∧ 9 ≤ 12 := by decide

theorem fatSizes_two : 0 < 2 ∧ 2 * (2 ^ 9 / 4) ≤ 0x0ffffff8 := by decide

variable {A : Type} (g : Geometry)

def Geometry.blockSize : Nat := 2 ^ g.lbashift

def Geometry.entriesPerSector : Nat := g.blockSize / 4

def Geometry.fatEntries : Nat := g.fatSize * g.entriesPerSector

structure Volume (A : Type) where
  fat : Nat -> BitVec 32
  allocStart : Nat
  disk : Nat -> A

-- `addr` is 0 for a file without clusters.
structure File where
  addr : Nat
  fileSize : Nat
  deriving DecidableEq

def endOfChain : BitVec 32 := 0x0fffffff

def write (v : Volume A) (lba : Nat) (sectors : List A) : Except Fault (Volume A) :=
  if g.partSize < lba then .error (.outsidePartition lba)
  else .ok { v with disk := writeBlocks v.disk lba sectors }

def asyncRead (v : Volume A) (lba count : Nat) : Except Fault (List A) :=
  if g.partSize ≤ lba then .error (.outsidePartition lba) else .ok (readBlocks v.disk lba count)

-- The subtraction of 2 is in 32 bits.
def clusterBegin (cluster : Nat) : Nat :=
  ((cluster + (2 ^ 32 - 2)) * g.clusterSize + g.dataBegin) % 2 ^ 32

def lastSector (begin n : Nat) : Nat := (begin + n + (2 ^ 64 - 1)) % 2 ^ 64

def entryIndex (cluster : Nat) : Except Fault Nat :=
  let offset := cluster * 4 % 2 ^ 32
  let lba := g.fatBegin + offset / g.blockSize
  let sectorOffset := offset % g.blockSize
  if lba < g.fatBegin ∨ g.fatBegin + g.fatSize ≤ lba then .error (.outsideFat lba)
  else .ok ((lba - g.fatBegin) * g.entriesPerSector + sectorOffset / 4)

-- 0 at the end of the chain.
def readFAT (v : Volume A) (cluster : Nat) : Except Fault Nat := do
  let index ← entryIndex g cluster
  let ent := v.fat index &&& 0x0fffffff
  if ent = 0 then .error (.freeEntry cluster)
  else if ent = 1 then .error (.reservedEntry cluster)
  else if 0x0ffffff8 ≤ ent then return 0
  else return ent.toNat

def findFree (v : Volume A) (base : Nat) : Nat -> Nat -> Option Nat
  | 0, _ => none
  | count + 1, i => if v.fat (base + i) = 0 then some i else findFree v base count (i + 1)

def searchFAT (v : Volume A) (last lastSector : Nat) : Nat -> Nat -> Except Fault (Option (Nat × Nat))
  | 0, _ => .error .diverges
  | fuel + 1, lba =>
    if lba = lastSector then .ok none
    else if lba < g.fatBegin ∨ g.fatBegin + g.fatSize ≤ lba then .error (.outsideFat lba)
    else
      let begin := if lba = g.fatBegin then 2 else 0
      match findFree v ((lba - g.fatBegin) * g.entriesPerSector) (g.entriesPerSector - begin) begin with
      | some i => .ok (some (lba, i))
      | none => searchFAT v last lastSector fuel (if lba = last then g.fatBegin else lba + 1)

-- 0 when the drive is full.
def allocFAT (v : Volume A) : Except Fault (Volume A × Nat) :=
  if v.allocStart < g.fatBegin then .error (.allocStart v.allocStart)
  else if g.fatBegin + g.fatSize ≤ v.allocStart then .error (.allocStart v.allocStart)
  else do
    let last := g.fatBegin + g.fatSize - 1
    let lastSector := if v.allocStart = g.fatBegin then g.fatBegin + g.fatSize - 1 else v.allocStart - 1
    match ← searchFAT g v last lastSector (g.fatSize + 1) v.allocStart with
    | some (lba, i) => return ({ v with allocStart := lba }, (lba - g.fatBegin) * g.entriesPerSector + i)
    | none => return (v, 0)

def linkFAT (v : Volume A) (source : Nat) (target : BitVec 32) : Except Fault (Volume A) := do
  let index ← entryIndex g source
  let ent := v.fat index
  if ¬ (0x0ffffff8 ≤ ent &&& 0x0fffffff ∨ ent = 0) then .error (.notLast source)
  else if target &&& 0xf0000000 ≠ 0 then .error (.badTarget target.toNat)
  else return { v with fat := Function.update v.fat index (target ||| (ent &&& 0xf0000000)) }

def readOrAllocateFAT (v : Volume A) (cluster : Nat) : Except Fault (Volume A × Nat) := do
  let next ← readFAT g v cluster
  if next ≠ 0 then return (v, next)
  else
    let (v, next) ← allocFAT g v
    if next = 0 then return (v, 0)
    else
      let v ← linkFAT g v next endOfChain
      let v ← linkFAT g v cluster (BitVec.ofNat 32 next)
      return (v, next)

/--
The loop of `fetch_cluster` with `remaining` steps to go; `none` for `end` set to `~0`. The counter has
32 bits: when it comes round the chain is a cycle, and the loop never ends.
-/
def fetchFrom (v : Volume A) : Nat -> Nat -> Nat -> Except Fault (Nat × Option Nat)
  | 0, _, cluster => .ok (cluster, none)
  | remaining + 1, i, cluster =>
    if i = 2 ^ 32 then .error .diverges
    else do
      let next ← readFAT g v cluster
      if next ≠ 0 then fetchFrom v remaining (i + 1) next else return (cluster, some i)

def fetchCluster (v : Volume A) (fd : File) (off : Nat) : Except Fault (Nat × Option Nat) :=
  fetchFrom g v off 0 fd.addr

def allocFileCluster (v : Volume A) (fd : File) : Except Fault (Volume A × File) :=
  if fd.fileSize ≠ 0 then .error .notEmpty
  else do
    let (v, addr) ← allocFAT g v
    let v ← linkFAT g v addr endOfChain
    return (v, { fd with addr })

inductive WriteResult where
  | full (returned : Nat)
  | complete (written : Nat)
  deriving DecidableEq

def extendChain : Nat -> Volume A -> Nat -> Except Fault (Volume A × Option Nat)
  | 0, v, cluster => .ok (v, some cluster)
  | count + 1, v, cluster => do
    let (v, cl) ← allocFAT g v
    if cl = 0 then return (v, none)
    else
      let v ← linkFAT g v cl endOfChain
      let v ← linkFAT g v cluster (BitVec.ofNat 32 cl)
      extendChain count v cl

def writeClusters : Nat -> Volume A -> Nat -> Nat -> List A -> Nat -> Except Fault (Volume A × WriteResult)
  | 0, v, _, _, buf, written => if buf = [] then .ok (v, .complete written) else .error .diverges
  | fuel + 1, v, cluster, clusterOffset, buf, written =>
    if buf = [] then .ok (v, .complete written)
    else if cluster = 0 then .error .noCluster
    else do
      let lba := clusterBegin g cluster + clusterOffset
      let clusterRemaining := g.clusterSize - clusterOffset
      let writeSize := if clusterRemaining < buf.length then clusterRemaining else buf.length
      let clusterOffset := if clusterRemaining < buf.length then 0 else clusterOffset
      let v ← write g v lba (buf.take writeSize)
      let buf := buf.drop writeSize
      let written := written + 1
      if buf = [] then return (v, .complete written)
      else
        let (v, cluster) ← readOrAllocateFAT g v cluster
        if cluster = 0 then return (v, .full buf.length)
        else writeClusters fuel v cluster clusterOffset buf written

def writeFrom (v : Volume A) (fd : File) (begin : Nat) (buf : List A) : Except Fault (Volume A × File × WriteResult) := do
  let firstCluster := begin / g.clusterSize % 2 ^ 32
  let clusterOffset := begin % g.clusterSize
  let (cluster, clusterend) ← fetchCluster g v fd firstCluster
  if cluster = 0 then .error .noCluster
  else
    match clusterend with
    | none => do
      let (v, result) ← writeClusters g buf.length v cluster clusterOffset buf 0
      return (v, fd, result)
    | some clusterend =>
      if lastSector begin buf.length * g.clusterSize * g.blockSize % 2 ^ 64 < fd.fileSize then .error .insideFile
      else if firstCluster ≤ clusterend then .error .clusterEnd
      else do
        let (v, reached) ← extendChain g (firstCluster - clusterend) v cluster
        match reached with
        | none => return (v, fd, .full 0)
        | some cluster =>
          let (v, result) ← writeClusters g buf.length v cluster clusterOffset buf 0
          return (v, fd, result)

def writeFileSectors (v : Volume A) (fd : File) (begin : Nat) (buf : List A) : Except Fault (Volume A × File × WriteResult) :=
  if fd.addr = 0 then do
    let (v, fd) ← allocFileCluster g v fd
    writeFrom g v fd begin buf
  else writeFrom g v fd begin buf

def readRun (v : Volume A) : Nat -> Nat -> Nat -> Nat -> Nat -> Except Fault (Nat × Nat × Nat × Nat)
  | 0, _, _, _, _ => .error .diverges
  | fuel + 1, cluster, clusterOffset, n, readSize =>
    if n = 0 then .ok (cluster, clusterOffset, n, readSize)
    else
      let clusterRemaining := g.clusterSize - clusterOffset
      if n < clusterRemaining then .ok (cluster, clusterOffset, 0, (readSize + n) % 2 ^ 32)
      else do
        let readSize := (readSize + clusterRemaining) % 2 ^ 32
        let old := cluster
        let cluster ← readFAT g v cluster
        let n := n - clusterRemaining
        if cluster = 0 ∧ n ≠ 0 then .error .beyondEnd
        else if cluster ≠ old + 1 then return (cluster, 0, n, readSize)
        else readRun v fuel cluster 0 n readSize

def readClusters (v : Volume A) : Nat -> Nat -> Nat -> Nat -> Except Fault (List A)
  | 0, _, _, n => if n = 0 then .ok [] else .error .diverges
  | fuel + 1, cluster, clusterOffset, n =>
    if n = 0 then .ok []
    else do
      let lba := clusterBegin g cluster + clusterOffset
      let (cluster, clusterOffset, n, readSize) ← readRun g v (n + 1) cluster clusterOffset n 0
      let sectors ← asyncRead g v lba readSize
      let rest ← readClusters v fuel cluster clusterOffset n
      return sectors ++ rest

def readFileSectors (v : Volume A) (fd : File) (begin n : Nat) : Except Fault (List A) :=
  if fd.addr = 0 then .error .noAddr
  else if fd.fileSize ≤ lastSector begin n * g.clusterSize % 2 ^ 64 then .error .beyondEnd
  else do
    let clusterOffset := begin % g.clusterSize
    let (cluster, clusterend) ← fetchCluster g v fd (begin / g.clusterSize)
    match clusterend with
    | some _ => .error .clusterEnd
    | none => readClusters g v n cluster clusterOffset n

end Bincows.Fat32
