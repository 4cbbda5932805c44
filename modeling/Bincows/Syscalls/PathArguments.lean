import Bincows.Syscalls.UserBuffers

set_option autoImplicit false

/-! The addresses at which `sc_open`, `sc_access` and `sc_chdir` read the path of the process. -/

namespace Bincows.UserBuffers

open BitVec

def maxPath : BitVec 64 := 4095

-- `strlen` within `fuel` bytes; `memcpy` of as many bytes and the zero reads the same ones.
def stringReads (memory : BitVec 64 -> UInt8) : Nat -> BitVec 64 -> List (BitVec 64)
  | 0, _ => []
  | fuel + 1, str => str :: if memory str = 0 then [] else stringReads memory fuel (str + 1)

variable (memory : BitVec 64 -> UInt8) (p : Process)

-- `path[0]`, then the string, in `strdup` or to append it to the working directory.
def getAbsolutePathReads (fuel : Nat) (path : BitVec 64) : List (BitVec 64) :=
  path :: stringReads memory fuel path

inductive PathCall where
  | scOpen
  | scAccess
  | scChdir

def pathReads (fuel : Nat) (path pathLen : BitVec 64) : PathCall -> List (BitVec 64)
  | .scOpen | .scAccess => if checkArgs p path pathLen ≠ 0 then [] else getAbsolutePathReads memory fuel path
  | .scChdir =>
    if checkArgs p path pathLen ≠ 0 then []
    else
      (path + (pathLen - 1)) ::
        if memory (path + (pathLen - 1)) ≠ 0 then []
        else if pathLen > maxPath then []
        else getAbsolutePathReads memory fuel path

def InBuffer (path pathLen x : BitVec 64) : Prop :=
  ∃ k < pathLen.toNat, x = path + BitVec.ofNat 64 k

def ZeroInBuffer (path pathLen : BitVec 64) : Prop :=
  ∃ k < pathLen.toNat, memory (path + BitVec.ofNat 64 k) = 0

variable {memory} {path pathLen : BitVec 64} {x : BitVec 64}

theorem mem_stringReads {fuel : Nat} : x ∈ stringReads memory fuel path ↔
    ∃ k < fuel, x = path + BitVec.ofNat 64 k ∧ ∀ j < k, memory (path + BitVec.ofNat 64 j) ≠ 0 := by
  induction fuel generalizing path with
  | zero => simp [stringReads]
  | succ fuel ih =>
    have next (k : Nat) : path + 1 + BitVec.ofNat 64 k = path + BitVec.ofNat 64 (k + 1) := by
      rw [BitVec.add_assoc, BitVec.add_comm 1, BitVec.ofNat_add]
      rfl
    rw [stringReads, List.mem_cons, Nat.exists_lt_succ_left]
    simp only [Nat.forall_lt_succ_left, ← next]
    split <;> simp [*]

theorem getAbsolutePathReads_inside_iff :
    (∀ fuel, ∀ x ∈ getAbsolutePathReads memory fuel path, InBuffer path pathLen x) ↔ ZeroInBuffer memory path pathLen := by
  simp only [getAbsolutePathReads, List.forall_mem_cons]
  constructor
  · intro inside
    by_contra none
    rw [ZeroInBuffer] at none
    push Not at none
    obtain ⟨k, small, same⟩ := (inside (pathLen.toNat + 1)).2 (path + pathLen)
      (mem_stringReads.mpr ⟨_, Nat.lt_succ_self _, by rw [ofNat_toNat, setWidth_eq], none⟩)
    have value := congrArg BitVec.toNat ((BitVec.add_right_inj _).mp same)
    rw [toNat_ofNat, Nat.mod_eq_of_lt (small.trans pathLen.isLt)] at value
    omega
  · rintro ⟨k, small, zero⟩ fuel
    refine ⟨⟨0, by omega, by simp⟩, fun x read => ?_⟩
    obtain ⟨j, -, rfl, before⟩ := mem_stringReads.mp read
    refine ⟨j, ?_, rfl⟩
    by_contra beyond
    exact before k (by omega) zero

/-- `sc_open` and `sc_access` look for the end of the path in the buffer only if it is there;
`sc_chdir` looks at the last byte of the buffer first. -/
theorem path_reads_inside_iff (memory : BitVec 64 -> UInt8) (p : Process) (path pathLen : BitVec 64) (call : PathCall) :
    (∀ fuel, ∀ x ∈ pathReads memory p fuel path pathLen call, InBuffer path pathLen x) ↔
      (checkArgs p path pathLen = 0 -> match call with
        | .scOpen | .scAccess => ZeroInBuffer memory path pathLen
        | .scChdir => pathLen ≠ 0) := by
  by_cases accepted : checkArgs p path pathLen = 0
  · cases call with
    | scOpen | scAccess => simpa [pathReads, accepted] using getAbsolutePathReads_inside_iff
    | scChdir =>
      simp only [pathReads, accepted, ne_eq, not_true_eq_false, if_false, forall_const, List.forall_mem_cons]
      constructor
      · rintro inside rfl
        obtain ⟨k, small, -⟩ := (inside 0).1
        exact absurd small (Nat.not_lt_zero k)
      · intro some fuel
        have last : InBuffer path pathLen (path + (pathLen - 1)) := by
          refine ⟨(pathLen - 1).toNat, ?_, by rw [ofNat_toNat, setWidth_eq]⟩
          bv_omega
        refine ⟨last, ?_⟩
        split
        · exact List.forall_mem_nil _
        next zero =>
          split
          · exact List.forall_mem_nil _
          obtain ⟨k, small, same⟩ := last
          exact getAbsolutePathReads_inside_iff.mpr ⟨k, small, by simpa [← same] using zero⟩ fuel
  · cases call <;> simp [pathReads, accepted]

-- The buffer is all of the heap, one byte; the byte behind it is read.
theorem open_reads_behind_buffer :
    0x1001 ∈ pathReads (fun a => if a = 0x1000 then 97 else 0) ⟨[], 0x1000, 0x1001,
      []⟩ 2 0x1000 1 .scOpen ∧ ¬ InBuffer 0x1000 1 0x1001 := by
  unfold InBuffer
  decide

end Bincows.UserBuffers
