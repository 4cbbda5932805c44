import Mathlib.Tactic

set_option autoImplicit false

/-! `read_dir` and `seek_dir` on an open directory: `mem i` is the byte `i` behind the start of its entry array. -/

namespace Bincows.Syscalls.DirectoryReads

open List

def direntSize : Nat := 280

inductive Whence where
  | set
  | cur
  | end_
  | other
  deriving DecidableEq

inductive Op where
  | read (bufSz : Nat)
  | seek (offset : Int) (whence : Whence)
  deriving DecidableEq

-- `dir_boff` is added to a pointer to entries.
def readDir (mem : Nat -> UInt8) (len boff bufSz : Nat) : List UInt8 × Nat :=
  if len * direntSize ≤ boff then ([], boff)
  else
    let bytesToRead := min (len * direntSize - boff) bufSz
    ((range bytesToRead).map fun i => mem (boff * direntSize + i), boff + bytesToRead)

def seekDir (len boff : Nat) (offset : Int) : Whence -> Nat
  | .set => (offset % 2 ^ 64).toNat
  | .cur => ((boff + offset) % 2 ^ 64).toNat
  | .end_ => ((offset + len * direntSize) % 2 ^ 64).toNat
  | .other => boff

def reads (mem : Nat -> UInt8) (len : Nat) : Nat -> List Op -> List (List UInt8)
  | _, [] => []
  | boff, .read bufSz :: rest => (readDir mem len boff bufSz).1 :: reads mem len (readDir mem len boff bufSz).2 rest
  | boff, .seek offset whence :: rest => reads mem len (seekDir len boff offset whence) rest

def image (mem : Nat -> UInt8) (len : Nat) : List UInt8 := (range (len * direntSize)).map mem

/-- The bytes of the entry array from the position on, which a read moves by what it returns. -/
def expected (image : List UInt8) (len : Nat) : Nat -> List Op -> List (List UInt8)
  | _, [] => []
  | pos, .read n :: rest => (image.drop pos).take n :: expected image len (pos + ((image.drop pos).take n).length) rest
  | pos, .seek offset whence :: rest => expected image len (seekDir len pos offset whence) rest

def FromStart (len : Nat) : Nat -> List Op -> Prop
  | _, [] => True
  | pos, .read n :: rest =>
    (n = 0 ∨ pos = 0 ∨ len * direntSize ≤ pos) ∧ FromStart len (pos + min n (len * direntSize - pos)) rest
  | pos, .seek offset whence :: rest => FromStart len (seekDir len pos offset whence) rest

variable {mem : Nat -> UInt8} {len : Nat}

theorem length_expected (pos n : Nat) : (((image mem len).drop pos).take n).length = min n (len * direntSize - pos) := by
  simp [image]

/-- Reads without a seek in between return the array from the position on, each byte once. -/
theorem expected_concat (image : List UInt8) (len pos : Nat) (sizes : List Nat) :
    (expected image len pos (sizes.map .read)).flatten = (image.drop pos).take sizes.sum := by
  induction sizes generalizing pos with
  | nil => rfl
  | cons n rest ih =>
    have further : image.drop (pos + ((image.drop pos).take n).length) = (image.drop pos).drop n := by
      rw [← drop_drop, length_take]
      rcases Nat.le_total n (image.drop pos).length with enough | short
      · rw [Nat.min_eq_left enough]
      · rw [Nat.min_eq_right short, drop_length, drop_of_length_le short]
    rw [map_cons, expected, flatten_cons, ih, further, sum_cons, take_add]

theorem readDir_position (boff bufSz : Nat) :
    (readDir mem len boff bufSz).2 = boff + min bufSz (len * direntSize - boff) := by
  rw [readDir]
  split
  · omega
  · rw [Nat.min_comm]

theorem readDir_iff (len boff bufSz : Nat) :
    (∀ mem, (readDir mem len boff bufSz).1 = ((image mem len).drop boff).take bufSz) ↔
    bufSz = 0 ∨ boff = 0 ∨ len * direntSize ≤ boff := by
  by_cases behind : len * direntSize ≤ boff
  · simp [readDir, image, behind]
  constructor
  · intro all
    by_contra inside
    have same := congrArg (fun bytes => bytes[0]?) (all fun i => if i = boff then 1 else 0)
    have apart : boff * direntSize ≠ boff := by
      simp only [direntSize]
      omega
    have some : 0 < min (len * direntSize - boff) bufSz := by omega
    have small : boff < len * direntSize := by omega
    rw [readDir, if_neg behind] at same
    simp [image, getElem?_take, some, small, apart] at same
  · rintro (rfl | rfl | impossible) mem
    · simp [readDir, behind]
    · simp [readDir, image, behind, take_range, ← map_take, Nat.min_comm]
    · exact absurd impossible behind

/-- Every read returns the bytes at its position, whatever the memory holds, exactly if the reads of a byte inside of the
array are at its start. -/
theorem reads_expected_iff (len boff : Nat) (ops : List Op) :
    (∀ mem, reads mem len boff ops = expected (image mem len) len boff ops) ↔ FromStart len boff ops := by
  induction ops generalizing boff with
  | nil => simp [reads, expected, FromStart]
  | cons op rest ih =>
    cases op with
    | read n => simp only [reads, expected, FromStart, cons.injEq, length_expected,
      readDir_position, forall_and, readDir_iff, ih]
    | seek offset whence => exact ih _

theorem second_read_elsewhere : reads (fun i => UInt8.ofNat i) 1 0 [.read 1, .read 1] = [[0],
    [24]] ∧ expected (image (fun i => UInt8.ofNat i) 1) 1 0 [.read 1, .read 1] = [[0], [1]] := by
  decide +kernel

end Bincows.Syscalls.DirectoryReads
