import Bincows.Shared.CircularBuffer

set_option autoImplicit false

/-! The writer puts its `i`-th entry into slot `i % size` and stamps it with a bit that changes with
each lap, true on the first. -/

namespace PhaseRing

open Function List

variable {A : Type}

def lap (size i : Nat) : Bool := i / size % 2 == 1

theorem lap_mod {exponent width : Nat} (small : exponent < width) (i : Nat) :
    lap (2 ^ exponent) (i % 2 ^ width) = lap (2 ^ exponent) i := by
  have bit := Nat.testBit_mod_two_pow i width exponent
  rw [decide_eq_true small, Bool.true_and, Nat.testBit_eq_decide_div_mod_eq, Nat.testBit_eq_decide_div_mod_eq] at bit
  exact bit

theorem lap_add_size {size : Nat} (positive : 0 < size) (i : Nat) : lap size (i + size) = !lap size i := by
  rw [lap, lap, Nat.add_div_right i positive]
  rcases Nat.mod_two_eq_zero_or_one (i / size) with even | odd
  · rw [even, show (i / size + 1) % 2 = 1 by omega]
    rfl
  · rw [odd, show (i / size + 1) % 2 = 0 by omega]
    rfl

structure Stamped (phase : A -> Bool) (size : Nat) (ring : Nat -> A) (log : List A) : Prop where
  stamp : ∀ i e, log[i]? = some e -> phase e = !lap size i
  slot : ∀ i e, log[i]? = some e -> log.length ≤ i + size -> ring (i % size) = e
  clear : ∀ i, i < size -> log.length ≤ i -> phase (ring i) = false

namespace Stamped

variable {phase : A -> Bool} {size : Nat} {ring : Nat -> A} {log : List A}

theorem nil (clear : ∀ i, phase (ring i) = false) : Stamped phase size ring [] where
  stamp := by simp
  slot := by simp
  clear := fun i _ _ => clear i

variable (stamped : Stamped phase size ring log)
include stamped

theorem push {e : A} (stamp : phase e = !lap size log.length) :
    Stamped phase size (update ring (log.length % size) e) (log ++ [e]) := by
  have cases : ∀ i x, (log ++ [e])[i]? = some x -> log[i]? = some x ∨ (i = log.length ∧ x = e) := by
    intro i x found
    by_cases old : i < log.length
    · rw [List.getElem?_append_left old] at found
      exact .inl found
    obtain ⟨bound, same⟩ := List.getElem?_eq_some_iff.mp found
    rw [length_append, length_singleton] at bound
    have last : i = log.length := by omega
    subst last
    exact .inr ⟨rfl, by simpa using same.symm⟩
  constructor
  · intro i x found
    rcases cases i x found with old | ⟨rfl, rfl⟩
    · exact stamped.stamp i x old
    · exact stamp
  · intro i x found recent
    rw [length_append, length_singleton] at recent
    rcases cases i x found with old | ⟨rfl, rfl⟩
    · have bound := (List.getElem?_eq_some_iff.mp old).1
      have apart : i % size ≠ log.length % size := by
        intro same
        exact bound.ne (CircularBuffer.eq_of_mod_eq bound.le (by omega) same.symm)
      rw [update_of_ne apart]
      exact stamped.slot i x old (by omega)
    · rw [update_self]
  · intro i inside ahead
    rw [length_append, length_singleton] at ahead
    have apart : i ≠ log.length % size := by
      rw [Nat.mod_eq_of_lt (by omega)]
      omega
    rw [update_of_ne apart]
    exact stamped.clear i inside (by omega)

theorem next_there {taken : Nat} {e : A} (there : log[taken]? = some e)
    (recent : log.length ≤ taken + size) : ring (taken % size) = e ∧ phase e ≠ lap size taken := by
  refine ⟨stamped.slot taken e there recent, ?_⟩
  rw [stamped.stamp taken e there]
  cases lap size taken <;> decide

theorem next_missing (positive : 0 < size) : phase (ring (log.length % size)) = lap size log.length := by
  by_cases first : log.length < size
  · rw [Nat.mod_eq_of_lt first, stamped.clear log.length first le_rfl, lap, Nat.div_eq_of_lt first]
    rfl
  -- the slot still has the entry of the lap before
  have split : log.length = log.length - size + size := by omega
  obtain ⟨e, there⟩ : ∃ e, log[log.length - size]? = some e := ⟨_, getElem?_eq_getElem (by omega)⟩
  have slot := stamped.slot _ e there split.le
  rw [← Nat.add_mod_right, ← split] at slot
  rw [slot, stamped.stamp _ e there, ← lap_add_size positive, ← split]

end Stamped

end PhaseRing
