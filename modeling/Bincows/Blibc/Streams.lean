import Bincows.Shared.Histories
import Mathlib.Algebra.Group.Nat.Defs

set_option autoImplicit false

/-! The position that `stdio.c` keeps for an unbuffered stream, beside the offset that the kernel keeps for its descriptor. -/

namespace Bincows.Stdio

open Histories

structure Stream where
  readable : Bool
  writable : Bool
  pos : BitVec 32
  offset : Nat
  -- a division by a size of 0 has ended the process
  trapped : Bool

inductive Call where
  | fgetc
  | fread (size n : Nat) (failed : Bool)
  -- `write` returned `got`, or an error
  | fwrite (size : Nat) (got : Option Nat)
  | fputs
  | fseek (failed : Bool)

def ftell (s : Stream) : Int := s.pos.toInt

def Stream.count (s : Stream) (offset counted : Nat) : Stream :=
  { s with offset, pos := s.pos + BitVec.ofNat 32 counted }

def Stream.divide (s : Stream) (size : Nat) : Stream := { s with trapped := s.trapped || size = 0 }

/-- A call, with the offset at which the kernel leaves the descriptor. Also a refusal of `fgetc` and `fputs` prints, and can
move it. -/
def perform (s : Stream) : Call × Nat -> Stream
  | (.fgetc, offset) => s.count offset (if s.readable then 1 else 0)
  | (.fread size n failed, offset) =>
    if s.readable then if failed then s.count offset 0 else (s.count offset (n * size)).divide size else s
  | (.fwrite size got, offset) =>
    if s.writable then
      match got with
      | none => s.count offset 0
      | some n => (s.count offset n).divide size
    else s
  | (.fputs, offset) => s.count offset 0
  | (.fseek failed, offset) =>
    { s with offset, pos := if failed then -1 else BitVec.ofNat 32 offset }

def Tells (s : Stream) : Prop := ftell s = s.offset ∧ s.trapped = false

-- The kernel moved by what the library counts, and the new offset is an `int`.
def Counts (s : Stream) (offset counted : Nat) : Prop :=
  offset < 2 ^ 31 ∧ offset % 2 ^ 32 = (s.offset + counted) % 2 ^ 32

def Fine (s : Stream) : Call × Nat -> Prop
  | (.fgetc, offset) => Counts s offset (if s.readable then 1 else 0)
  | (.fread size n failed, offset) => s.readable ->
    if failed then Counts s offset 0 else Counts s offset (n * size) ∧ size ≠ 0
  | (.fwrite size got, offset) => s.writable -> Counts s offset (got.getD 0) ∧
    (got ≠ none -> size ≠ 0)
  | (.fputs, offset) => Counts s offset 0
  | (.fseek failed, offset) => failed = false ∧ offset < 2 ^ 31

section steps

variable {s : Stream}

theorem toInt_eq {pos : BitVec 32} {offset : Nat} : pos.toInt = offset ↔ offset < 2 ^ 31 ∧
    pos = BitVec.ofNat 32 offset := by
  rw [← BitVec.toNat_inj, BitVec.toInt_eq_toNat_cond, BitVec.toNat_ofNat]
  split <;> omega

theorem count_tells (tells : Tells s) (offset counted : Nat) : Tells (s.count offset counted) ↔
    Counts s offset counted := by
  obtain ⟨-, same⟩ := toInt_eq.mp tells.1
  rw [Tells, ftell, Stream.count, toInt_eq, Counts, same, ← BitVec.ofNat_add, ← BitVec.toNat_inj]
  simp only [tells.2, BitVec.toNat_ofNat, and_true, eq_comm]

theorem divide_tells (size : Nat) : Tells (s.divide size) ↔ Tells s ∧ size ≠ 0 := by
  simp [Tells, ftell, Stream.divide, and_assoc]

theorem perform_tells_iff (tells : Tells s) (call : Call × Nat) : Tells (perform s call) ↔
    Fine s call := by
  obtain ⟨call, offset⟩ := call
  cases call with
  | fgetc => exact count_tells tells _ _
  | fread size n failed =>
    cases may : s.readable <;> cases failed <;> simp [perform, Fine, may, tells, count_tells, divide_tells]
  | fwrite size got => cases may :
    s.writable <;> cases got <;> simp [perform, Fine, may, tells, count_tells, divide_tells]
  | fputs => exact count_tells tells _ _
  | fseek failed => cases failed <;> simp [perform, Fine, Tells, ftell, toInt_eq, tells.2]

end steps

def opened (readable writable : Bool) (offset : Nat) : Stream :=
  { readable, writable, pos := 0, offset, trapped := false }

theorem ftell_offset_iff (readable writable : Bool) (offset : Nat) (calls : List (Call × Nat)) :
    (∀ front, front <+: calls -> Tells (after perform (opened readable writable offset) front)) ↔
      offset = 0 ∧ ∀ front call, front ++ [call] <+: calls ->
        Fine (after perform (opened readable writable offset) front) call := by
  by_cases zero : offset = 0
  · subst zero
    have tells : Tells (opened readable writable 0) := ⟨rfl, rfl⟩
    rw [always_iff tells (fun _ => id) (fun _ call tells => (perform_tells_iff tells call).mp)
      fun _ call tells => (perform_tells_iff tells call).mpr]
    exact (and_iff_right rfl).symm
  · refine iff_of_false (fun always => ?_) fun both => zero both.1
    have first : (0 : Int) = offset := (always [] List.nil_prefix).1
    omega

theorem end_of_file_counted :
    Tells (opened true false 0) ∧ ftell (after perform (opened true false 0) [(.fgetc, 0)]) = 1 ∧
      (after perform (opened true false 0) [(.fgetc, 0)]).offset = 0 := ⟨⟨rfl, rfl⟩, rfl, rfl⟩

end Bincows.Stdio
