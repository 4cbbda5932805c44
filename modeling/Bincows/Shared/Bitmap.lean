import Mathlib.Tactic

set_option autoImplicit false

/-! A bitmap is an array of bytes; entry `i` is bit `i % 8` of byte `i / 8`. -/

namespace Bitmap

open Function

abbrev Bytes := Nat -> BitVec 8

def bit (bytes : Bytes) (i : Nat) : Bool := (bytes (i / 8)).getLsbD (i % 8)

def mask (i : Nat) : BitVec 8 := 1#8 <<< (i % 8)

def set (bytes : Bytes) (i : Nat) : Bytes := update bytes (i / 8) (bytes (i / 8) ||| mask i)

def clear (bytes : Bytes) (i : Nat) : Bytes := update bytes (i / 8) (bytes (i / 8) &&& ~~~ mask i)

theorem getLsbD_mask (i j : Nat) : (mask i).getLsbD j = decide (j = i % 8) := by
  have position : i % 8 < 8 := Nat.mod_lt _ (by omega)
  rw [mask, ← BitVec.twoPow_eq, BitVec.getLsbD_twoPow]
  simp [position, eq_comm]

theorem bit_set (bytes : Bytes) (i j : Nat) : bit (set bytes i) j = (decide (j = i) || bit bytes j) := by
  by_cases byte : j / 8 = i / 8
  · have same : j % 8 = i % 8 ↔ j = i := by omega
    simp [bit, set, byte, getLsbD_mask, same, Bool.or_comm]
  · have different : j ≠ i := fun equal => byte (by rw [equal])
    simp [bit, set, update_of_ne byte, different]

theorem bit_clear (bytes : Bytes) (i j : Nat) : bit (clear bytes i) j = (!decide (j = i) && bit bytes j) := by
  have position : j % 8 < 8 := Nat.mod_lt _ (by omega)
  by_cases byte : j / 8 = i / 8
  · have same : j % 8 = i % 8 ↔ j = i := by omega
    simp only [bit, clear, byte, update_self, BitVec.getLsbD_and, BitVec.getLsbD_not,
      getLsbD_mask, position, same, decide_true, Bool.true_and, Bool.and_comm]
  · have different : j ≠ i := fun equal => byte (by rw [equal])
    simp [bit, clear, update_of_ne byte, different]

theorem eq_zero_iff {w : Nat} (x : BitVec w) : x = 0 ↔ ∀ j < w, x.getLsbD j = false := by
  simp [BitVec.eq_of_getLsbD_eq_iff]

theorem masked_eq_zero (bytes : Bytes) (i : Nat) : bytes (i / 8) &&& mask i = 0 ↔ bit bytes i = false := by
  rw [eq_zero_iff]
  constructor
  · intro zero
    have position : i % 8 < 8 := Nat.mod_lt _ (by omega)
    simpa [bit, getLsbD_mask] using zero (i % 8) position
  · intro unset j bounded
    by_cases same : j = i % 8
    · have unsetByte : (bytes (i / 8)).getLsbD (i % 8) = false := unset
      rw [same, BitVec.getLsbD_and, unsetByte, Bool.false_and]
    · simp [getLsbD_mask, same]

theorem getLsbD_window (n offset j : Nat) (bounded : j < 8) :
    (BitVec.ofNat 8 (2 ^ n - 1) <<< offset).getLsbD j = decide (offset ≤ j ∧ j < offset + n) := by
  simp only [BitVec.getLsbD_shiftLeft, BitVec.getLsbD_ofNat, Nat.testBit_two_pow_sub_one]
  by_cases below : j < offset
  · simp [below, show ¬ offset ≤ j by omega]
  · have inside : j - offset < n ↔ j < offset + n := by omega
    simp [below, bounded, inside, show offset ≤ j by omega, show j - offset < 8 by omega]

theorem window_eq_zero (bytes : Bytes) (byte n offset : Nat) (fits : offset + n ≤ 8) :
    bytes byte &&& (BitVec.ofNat 8 (2 ^ n - 1) <<< offset) = 0 ↔ ∀ t < n, bit bytes (8 * byte + offset + t) = false := by
  have entry (t : Nat) (inside : t < n) : bit bytes (8 * byte + offset + t) = (bytes byte).getLsbD (offset + t) := by
    have quotient : (8 * byte + offset + t) / 8 = byte := by omega
    have remainder : (8 * byte + offset + t) % 8 = offset + t := by omega
    rw [bit, quotient, remainder]
  rw [eq_zero_iff]
  constructor
  · intro zero t inside
    have window := zero (offset + t) (by omega)
    rw [BitVec.getLsbD_and, getLsbD_window n offset _ (by omega)] at window
    rw [entry t inside]
    simpa [inside] using window
  intro unset j bounded
  rw [BitVec.getLsbD_and, getLsbD_window n offset j bounded]
  by_cases inside : offset ≤ j ∧ j < offset + n
  · have found := unset (j - offset) (by omega)
    rw [entry _ (by omega), Nat.add_sub_cancel' inside.1] at found
    rw [found, Bool.false_and]
  · simp [inside]

theorem field_eq_zero {w : Nat} (x : BitVec w) (offset n : Nat) (fits : offset + n ≤ w) :
    (x >>> offset) &&& BitVec.ofNat w (2 ^ n - 1) = 0 ↔ ∀ t < n, x.getLsbD (offset + t) = false := by
  rw [eq_zero_iff]
  simp only [BitVec.getLsbD_and, BitVec.getLsbD_ushiftRight, BitVec.getLsbD_ofNat, Nat.testBit_two_pow_sub_one]
  constructor
  · intro zero t inside
    simpa [inside, show t < w by omega] using zero t (by omega)
  · intro unset j _
    by_cases inside : j < n
    · rw [unset j inside, Bool.false_and]
    · simp [inside]

def chunk64 (bytes : Bytes) (c : Nat) : BitVec 64 :=
  bytes (8 * c + 7) ++ bytes (8 * c + 6) ++ bytes (8 * c + 5) ++ bytes (8 * c + 4) ++
    bytes (8 * c + 3) ++ bytes (8 * c + 2) ++ bytes (8 * c + 1) ++ bytes (8 * c)

theorem getLsbD_chunk64 (bytes : Bytes) (c j : Nat) (bounded : j < 64) :
    (chunk64 bytes c).getLsbD j = bit bytes (64 * c + j) := by
  obtain ⟨q, r, rest, rfl⟩ : ∃ q r, r < 8 ∧ j = 8 * q + r := ⟨j / 8, j % 8, by omega, by omega⟩
  have quotient : (64 * c + (8 * q + r)) / 8 = 8 * c + q := by omega
  have remainder : (64 * c + (8 * q + r)) % 8 = r := by omega
  have byte : q < 8 := by omega
  rw [bit, quotient, remainder, chunk64]
  simp only [BitVec.getLsbD_append]
  interval_cases q <;> repeat' split
  all_goals first | omega | (congr 1; omega)

def ffsll (x : BitVec 64) : Nat :=
  match (List.range 64).find? (fun j => x.getLsbD j) with
  | none => 0
  | some j => j + 1

theorem ffsll_eq_zero (x : BitVec 64) (none_set : ffsll x = 0) : ∀ j < 64, x.getLsbD j = false := by
  intro j bounded
  unfold ffsll at none_set
  split at none_set
  · next missing =>
    have unset := List.find?_eq_none.mp missing j (List.mem_range.mpr bounded)
    simpa using unset
  · omega

theorem ffsll_eq_succ (x : BitVec 64) (position : Nat) (least : ffsll x = position + 1) :
    position < 64 ∧ x.getLsbD position = true ∧ ∀ j < position, x.getLsbD j = false := by
  unfold ffsll at least
  split at least
  · omega
  next j found =>
  obtain rfl : j = position := by omega
  obtain ⟨isSet, inside, earlier⟩ := List.find?_range_eq_some.mp found
  exact ⟨List.mem_range.mp inside, isSet, by simpa using earlier⟩

end Bitmap
