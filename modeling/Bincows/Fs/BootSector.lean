import Bincows.Fs.Fat32
import Bincows.Shared.ByteMemory

set_option autoImplicit false

namespace Bincows.BootSector

open ByteMemory
open Fat32 (File lastSector)

structure Mounted where
  clusterSize : Nat
  tablesCount : Nat
  fatBegin : Nat
  fatSize : Nat
  dataBegin : Nat
  rootAddr : Nat
  deriving DecidableEq

-- The number of tables is read as 32 bits; in the sector it has one byte.
def fat32Mount (buf : ByteMemory) : Option Mounted :=
  if load buf 510 2 ≠ 0xAA55 ∨ load buf 0x42 1 ||| 1 ≠ 0x29 ∨ load buf 0x11 2 ≠ 0 then none
  else
    let reserved := load buf 0x0e 2
    let tablesCount := load buf 0x10 4
    let fatsize := load buf 0x24 4
    some {
      clusterSize := load buf 0x0d 1
      tablesCount
      fatBegin := reserved
      fatSize := fatsize
      dataBegin := (reserved + tablesCount * fatsize) % 2 ^ 32
      rootAddr := load buf 0x2c 4
    }

inductive Fault where
  | noAddr
  | beyondEnd
  | divisionByZero
  deriving DecidableEq

variable (m : Mounted) (fd : File) (begin n : Nat)

-- The first sector as cluster and offset: all that `fat32_read_file_sectors` and `fat32_write_file_sectors` divide.
def locate : Except Fault (Nat × Nat) :=
  if m.clusterSize = 0 then .error .divisionByZero else .ok (begin / m.clusterSize, begin % m.clusterSize)

def locateRead : Except Fault (Nat × Nat) :=
  if fd.addr = 0 then .error .noAddr
  else if fd.fileSize ≤ lastSector begin n * m.clusterSize % 2 ^ 64 then .error .beyondEnd
  else locate m begin

def locateWrite : Except Fault (Nat × Nat) := do
  let (cluster, clusterOffset) ← locate m begin
  return (cluster % 2 ^ 32, clusterOffset)

structure Mounted.Describes (buf : ByteMemory) : Prop where
  clusterSize : m.clusterSize = load buf 0x0d 1
  fatBegin : m.fatBegin = load buf 0x0e 2
  fatSize : m.fatSize = load buf 0x24 4
  dataBegin : m.dataBegin = load buf 0x0e 2 + load buf 0x10 1 * load buf 0x24 4
  rootAddr : m.rootAddr = load buf 0x2c 4

variable {m} {buf : ByteMemory}

theorem tablesCount_eq (rootEntries : load buf 0x11 2 = 0) :
    load buf 0x10 4 = load buf 0x10 1 + 2 ^ 24 * load buf 0x13 1 := by
  simp only [load, Nat.reduceAdd] at rootEntries ⊢
  omega

theorem locate_safe_iff : (∀ begin, locateWrite m begin ≠ .error .divisionByZero ∧
    ∀ fd n, locateRead m fd begin n ≠ .error .divisionByZero) ↔ m.clusterSize ≠ 0 := by
  constructor
  · intro safe zero
    exact (safe 0).1 (by simp [locateWrite, locate, zero])
  · intro nonzero begin
    refine ⟨by simp [locateWrite, locate, nonzero], fun fd n => ?_⟩
    simp only [locateRead, locate, if_neg nonzero]
    split_ifs <;> simp

/-- The geometry is the one the fields give, and reads and writes divide by no zero, exactly when a cluster has sectors, the
byte after the root entries adds nothing to the tables and the sectors before the clusters have 32-bit numbers. -/
theorem mount_geometry_iff (mounted : fat32Mount buf = some m) :
    (m.Describes buf ∧ m.clusterSize ≠ 0 ∧ ∀ begin, locateWrite m begin ≠ .error .divisionByZero ∧
      ∀ fd n, locateRead m fd begin n ≠ .error .divisionByZero) ↔
      load buf 0x0d 1 ≠ 0 ∧ load buf 0x13 1 * load buf 0x24 4 % 256 = 0 ∧
        load buf 0x0e 2 + load buf 0x10 1 * load buf 0x24 4 < 2 ^ 32 := by
  rw [fat32Mount] at mounted
  split at mounted
  case isTrue => cases mounted
  case isFalse accepted =>
    push Not at accepted
    cases mounted
    have area : load buf 0x0e 2 + load buf 0x10 4 * load buf 0x24 4 =
        load buf 0x0e 2 + load buf 0x10 1 * load buf 0x24 4 + 2 ^ 24 * (load buf 0x13 1 * load buf 0x24 4) := by
      rw [tablesCount_eq accepted.2.2]
      ring
    rw [locate_safe_iff, and_self]
    constructor
    · rintro ⟨same, nonzero⟩
      have data := same.dataBegin
      dsimp only at data
      rw [area] at data
      exact ⟨nonzero, by omega, by omega⟩
    · rintro ⟨nonzero, multiple, small⟩
      refine ⟨⟨rfl, rfl, rfl, ?_, rfl⟩, nonzero⟩
      dsimp only
      rw [area]
      omega

-- 8 sectors a cluster, 32 reserved sectors, 2 tables.
def bootSector : ByteMemory := fun i =>
  match i with
  | 0x0d => 8
  | 0x0e => 32
  | 0x10 => 2
  | 0x24 => 100
  | 0x2c => 2
  | 0x42 => 0x29
  | 510 => 0x55
  | 511 => 0xAA
  | _ => 0

theorem mount_geometry_formatted : ∃ m, fat32Mount bootSector = some m ∧ m.dataBegin = 232 ∧ m.Describes bootSector :=
  ⟨_, rfl, rfl, ((mount_geometry_iff rfl).mpr (by decide)).1⟩

theorem mount_accepts_empty_clusters : ∃ buf m, fat32Mount buf = some m ∧ m.Describes buf ∧
    locateWrite m 0 = .error .divisionByZero :=
  ⟨Function.update bootSector 0x0d 0, _, rfl, ⟨rfl, rfl, rfl, rfl, rfl⟩, rfl⟩

end Bincows.BootSector
