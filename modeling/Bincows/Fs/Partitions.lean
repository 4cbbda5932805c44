import Bincows.Shared.Histories

set_option autoImplicit false

/-! The array of `gpt.c`. `realloc` may move it, and the partitions behind those of a removed drive move down. A mounted file
system keeps a pointer to its element. -/

namespace Bincows.Gpt

open Histories

structure DiskPart where
  drive : Nat
  begin : Nat
  endLba : Nat
  mountPoint : Option (List Char)
  deriving DecidableEq

structure PartitionDescriptor where
  typeGuid : Nat × Nat
  begin : Nat
  endLba : Nat

structure Partitions where
  address : Nat
  parts : List DiskPart
  deriving DecidableEq

def registerPartition (s : Partitions) (p : DiskPart) (address : Nat) : Partitions :=
  { address, parts := s.parts ++ [p] }

/-- `realloc n` is where the array of `n` partitions is. A drive without a table has no entries. -/
def gptScan (drive : Nat) (realloc : Nat -> Nat) : List PartitionDescriptor -> Partitions -> Partitions
  | [], s => s
  | entry :: rest, s =>
    if entry.typeGuid = (0, 0) then gptScan drive realloc rest s
    else
      let p := { drive, begin := entry.begin, endLba := entry.endLba, mountPoint := none }
      gptScan drive realloc rest (registerPartition s p (realloc (s.parts.length + 1)))

-- The loop of `gpt_remove_drive_parts` at index `i`; the file systems that it unmounts do not change the array.
def removeFrom (drive : Nat) : Nat -> Nat -> List DiskPart -> List DiskPart
  | 0, _, parts => parts
  | fuel + 1, i, parts =>
    match parts[i]? with
    | none => parts
    | some p =>
      if p.drive = drive then removeFrom drive fuel i (parts.eraseIdx i) else removeFrom drive fuel (i + 1) parts

def gptRemoveDriveParts (s : Partitions) (drive : Nat) : Partitions :=
  { s with parts := removeFrom drive s.parts.length 0 s.parts }

structure PartPointer where
  address : Nat
  index : Nat
  deriving DecidableEq

def PartPointer.load (ptr : PartPointer) (s : Partitions) : Option DiskPart :=
  if ptr.address = s.address then s.parts[ptr.index]? else none

def setMountPoint (s : Partitions) (i : Nat) (path : List Char) : Partitions :=
  { s with parts := s.parts.modify i fun p => { p with mountPoint := some path } }

def vfsMount (s : Partitions) (i : Nat) (path : List Char) : Partitions × PartPointer :=
  (setMountPoint s i path, ⟨s.address, i⟩)

inductive Event where
  | scan (drive : Nat) (realloc : Nat -> Nat) (entries : List PartitionDescriptor)
  | mount (i : Nat) (path : List Char)
  | remove (drive : Nat)

def perform (s : Partitions) : Event -> Partitions
  | .scan drive realloc entries => gptScan drive realloc entries s
  | .mount i path => (vfsMount s i path).1
  | .remove drive => gptRemoveDriveParts s drive

def DiskPart.Same (p q : DiskPart) : Prop :=
  p.drive = q.drive ∧ p.begin = q.begin ∧ p.endLba = q.endLba

def Refers (ptr : PartPointer) (p : DiskPart) (s : Partitions) : Prop :=
  ∃ q, ptr.load s = some q ∧ q.Same p

/-- The array stays where it is, and the removed drive has no partition in front of the one referred to. -/
def Steady (ptr : PartPointer) (s : Partitions) : Event -> Prop
  | .scan _ realloc _ => ∀ n, s.parts.length < n -> realloc n = s.address
  | .mount _ _ => True
  | .remove drive => ∀ q ∈ s.parts.take ptr.index, q.drive ≠ drive

def SteadyRun (ptr : PartPointer) : Partitions -> List Event -> Prop
  | _, [] => True
  | s, event :: rest => Steady ptr s event ∧ SteadyRun ptr (perform s event) rest

section steps

variable {ptr : PartPointer} {p q : DiskPart} {s : Partitions} {drive : Nat}

theorem load_some (found : ptr.load s = some q) : ptr.address = s.address ∧ s.parts[ptr.index]? = some q := by
  rw [PartPointer.load] at found
  split at found
  · exact ⟨‹_›, found⟩
  · cases found

theorem gptScan_load {realloc : Nat -> Nat} (entries : List PartitionDescriptor)
    (stays : ∀ n, s.parts.length < n -> realloc n = s.address) (found : ptr.load s = some q) :
    ptr.load (gptScan drive realloc entries s) = some q := by
  induction entries generalizing s with
  | nil => exact found
  | cons entry rest ih =>
    rw [gptScan]
    split
    · exact ih stays found
    obtain ⟨address, there⟩ := load_some found
    have same := stays (s.parts.length + 1) (Nat.lt_succ_self _)
    apply ih
    · intro n longer
      rw [registerPartition, List.length_append] at longer
      exact (stays n (by omega)).trans same.symm
    · have inside := (List.getElem?_eq_some_iff.mp there).1
      rw [PartPointer.load, registerPartition, if_pos (address.trans same.symm), List.getElem?_append_left inside, there]

theorem removeFrom_keeps {j : Nat} (fuel i : Nat) {parts : List DiskPart}
    (others : ∀ k ≤ j, ∀ q, parts[k]? = some q -> q.drive ≠ drive) : (removeFrom drive fuel i parts)[j]? = parts[j]? := by
  induction fuel generalizing i parts with
  | zero => rfl
  | succ fuel ih =>
    rw [removeFrom]
    split
    · rfl
    next p there =>
      split
      next removed =>
        -- the removed element is behind `j`
        have kept (k : Nat) (before : k ≤ j) : (parts.eraseIdx i)[k]? = parts[k]? := by
          refine List.getElem?_eraseIdx_of_lt (Nat.lt_of_not_le fun behind => ?_)
          exact others i (Nat.le_trans behind before) p there removed
        rw [ih i fun k before q here => others k before q (kept k before ▸ here), kept j (Nat.le_refl j)]
      next => exact ih (i + 1) others

theorem perform_refers (refers : Refers ptr p s) {event : Event} (other : event ≠ .remove p.drive)
    (steady : Steady ptr s event) : Refers ptr p (perform s event) := by
  obtain ⟨q, found, same⟩ := refers
  obtain ⟨address, there⟩ := load_some found
  cases event with
  | scan drive realloc entries => exact ⟨q, gptScan_load entries steady found, same⟩
  | mount i path =>
    have now : ptr.load (setMountPoint s i path) = (s.parts.modify i fun p =>
        { p with mountPoint := some path })[ptr.index]? :=
      if_pos address
    rw [List.getElem?_modify, there] at now
    refine ⟨_, now, ?_⟩
    split
    · exact same
    · exact same
  | remove drive =>
    have others : ∀ k ≤ ptr.index, ∀ q', s.parts[k]? = some q' -> q'.drive ≠ drive := by
      intro k before q' here
      rcases Nat.lt_or_eq_of_le before with front | rfl
      · exact steady q' (List.mem_of_getElem? ((List.getElem?_take_of_lt front).trans here))
      · cases there.symm.trans here
        exact fun equal => other (by rw [← same.1, equal])
    exact ⟨q, (if_pos address).trans ((removeFrom_keeps _ 0 others).trans there), same⟩

theorem run_refers (refers : Refers ptr p s) {events : List Event} (others : ∀ event ∈ events, event ≠ .remove p.drive)
    (steady : SteadyRun ptr s events) : Refers ptr p (after perform s events) := by
  induction events generalizing s with
  | nil => exact refers
  | cons event rest ih =>
    refine ih (perform_refers refers (others event List.mem_cons_self) steady.1) ?_ steady.2
    exact fun other member => others other (List.mem_cons_of_mem _ member)

end steps

theorem mounted_part_kept {s : Partitions} {i : Nat} {p : DiskPart} (there : s.parts[i]? = some p)
    (path : List Char) {events : List Event} (others : ∀ event ∈ events, event ≠ .remove p.drive)
    (steady : SteadyRun (vfsMount s i path).2 (vfsMount s i path).1 events) :
    Refers (vfsMount s i path).2 p (after perform (vfsMount s i path).1 events) := by
  refine run_refers ⟨{ p with mountPoint := some path }, ?_, rfl, rfl, rfl⟩ others steady
  show (if s.address = s.address then (s.parts.modify i _)[i]? else none) = _
  rw [if_pos rfl, List.getElem?_modify, there]
  simp

-- Two drives, the first with one partition and the second with two.
def twoDrives : Partitions :=
  { address := 64, parts := [⟨0, 34, 100, none⟩, ⟨1, 34, 50, none⟩, ⟨1, 51, 99, none⟩] }

theorem mounted_part_kept_first :
    Refers ⟨64, 0⟩ ⟨0, 34, 100, none⟩
      (after perform (vfsMount twoDrives 0 ['/']).1 [.remove 1, .scan 2 (fun _ => 64) [⟨(1, 2), 34, 70⟩]]) := by
  have there : twoDrives.parts[0]? = some ⟨0, 34, 100, none⟩ := rfl
  refine mounted_part_kept there ['/'] ?_ ⟨nofun, fun _ _ => rfl, trivial⟩
  simp

theorem removal_moves_part :
    ¬ Refers ⟨64, 1⟩ ⟨1, 34, 50, none⟩ (after perform (vfsMount twoDrives 1 ['/']).1 [.remove 0]) ∧
      Refers ⟨64, 1⟩ ⟨1, 51, 99, none⟩ (after perform (vfsMount twoDrives 1 ['/']).1 [.remove 0]) := by
  refine ⟨?_, _, rfl, rfl, rfl, rfl⟩
  rintro ⟨q, found, same⟩
  cases found
  exact absurd same.2.1 (by decide)

end Bincows.Gpt
