import Mathlib.Tactic

set_option autoImplicit false

namespace Bincows.UserBuffers

-- The stack of a thread, or a segment of the program.
structure Region where
  base : BitVec 64
  length : BitVec 64

structure Process where
  threadStacks : List Region
  heapBegin : BitVec 64
  brk : BitVec 64
  segs : List Region

-- `__builtin_add_overflow`, with the sum if there is none.
def addOverflow (a b : BitVec 64) : Option (BitVec 64) :=
  if 2 ^ 64 ≤ a.toNat + b.toNat then none else some (a + b)

def Region.covers (argBegin argEnd : BitVec 64) (r : Region) : Bool :=
  r.base ≤ argBegin ∧ argEnd ≤ r.base + r.length

def checkArgsInProgram (p : Process) (args argsSz : BitVec 64) : Nat :=
  match addOverflow args argsSz with
  | none => 1
  | some argEnd => if p.segs.any (Region.covers args argEnd) then 0 else 1

def checkArgs (p : Process) (args argsSz : BitVec 64) : Nat :=
  match addOverflow args argsSz with
  | none => 1
  | some argEnd =>
    if p.threadStacks.any (Region.covers args argEnd) then 0
    else if p.heapBegin ≤ args ∧ argEnd ≤ p.brk then 0
    else checkArgsInProgram p args argsSz

-- Where a region begins and ends, as numbers that do not wrap.
def Region.span (r : Region) : Nat × Nat := (r.base.toNat, r.base.toNat + r.length.toNat)

def Process.spans (p : Process) : List (Nat × Nat) :=
  p.threadStacks.map Region.span ++ (p.heapBegin.toNat, p.brk.toNat) :: p.segs.map Region.span

def Within (args argsSz : BitVec 64) (span : Nat × Nat) : Prop :=
  span.1 ≤ args.toNat ∧ args.toNat + argsSz.toNat ≤ span.2 ∧ span.2 < 2 ^ 64

variable {args argsSz : BitVec 64}

theorem any_covers (fits : args.toNat + argsSz.toNat < 2 ^ 64) (regions : List Region) :
    regions.any (Region.covers args (args + argsSz)) = true ↔ ∃ span ∈ regions.map Region.span, Within args argsSz span := by
  have one : ∀ r : Region, r.covers args (args + argsSz) = true ↔ Within args argsSz r.span := by
    intro r
    -- a region whose end wraps has its end below its base
    simp only [Region.covers, decide_eq_true_eq, BitVec.le_def, BitVec.toNat_add, Nat.mod_eq_of_lt fits, Within, Region.span]
    omega
  simp [one]

theorem checkArgs_iff_within (p : Process) (args argsSz : BitVec 64) :
    checkArgs p args argsSz = 0 ↔ ∃ span ∈ p.spans, Within args argsSz span := by
  rw [checkArgs, checkArgsInProgram, addOverflow]
  by_cases wraps : 2 ^ 64 ≤ args.toNat + argsSz.toNat
  · rw [if_pos wraps]
    refine iff_of_false Nat.one_ne_zero ?_
    rintro ⟨span, -, -, inside, below⟩
    omega
  have fits := Nat.not_le.mp wraps
  have heap : (p.heapBegin ≤ args ∧ args + argsSz ≤ p.brk) ↔ Within args argsSz (p.heapBegin.toNat, p.brk.toNat) := by
    have brk := p.brk.isLt
    simp only [BitVec.le_def, BitVec.toNat_add, Nat.mod_eq_of_lt fits, Within]
    tauto
  have parts : (∃ span ∈ p.spans, Within args argsSz span) ↔
      (∃ span ∈ p.threadStacks.map Region.span, Within args argsSz span) ∨
      Within args argsSz (p.heapBegin.toNat, p.brk.toNat) ∨ ∃ span ∈ p.segs.map Region.span, Within args argsSz span := by
    simp only [Process.spans, List.mem_append, List.mem_cons, or_and_right, exists_or, exists_eq_left]
  rw [parts, ← heap, ← any_covers fits, ← any_covers fits, if_neg wraps]
  simp only
  split_ifs with inStack inHeap inProgram
  · exact iff_of_true rfl (.inl inStack)
  · exact iff_of_true rfl (.inr (.inl inHeap))
  · exact iff_of_true rfl (.inr (.inr inProgram))
  · exact iff_of_false id (by tauto)

end Bincows.UserBuffers
