import Mathlib.Tactic

set_option autoImplicit false

abbrev Byte := BitVec 8

abbrev ByteMemory := Nat -> Byte

namespace ByteMemory

open Function

def load (memory : ByteMemory) (addr : Nat) : Nat -> Nat
  | 0 => 0
  | width + 1 => (memory addr).toNat + 256 * load memory (addr + 1) width

def store (memory : ByteMemory) (addr : Nat) : Nat -> Nat -> ByteMemory
  | 0, _ => memory
  | width + 1, value =>
    store (update memory addr (BitVec.ofNat 8 value)) (addr + 1) width (value / 256)

def copy (memory : ByteMemory) (dest src : Nat) : Nat -> ByteMemory
  | 0 => memory
  | n + 1 =>
    let copied := copy memory dest src n
    update copied (dest + n) (copied (src + n))

variable {memory other : ByteMemory} {addr a : Nat}

theorem load_congr (width : Nat) :
    ∀ addr, (∀ k < width, other (addr + k) = memory (addr + k)) -> load other addr width = load memory addr width := by
  induction width with
  | zero => exact fun _ _ => rfl
  | succ width ih =>
    intro addr same
    have first : other addr = memory addr := same 0 (by omega)
    have rest : load other (addr + 1) width = load memory (addr + 1) width := by
      apply ih
      intro k bounded
      simpa [Nat.add_assoc, Nat.add_comm 1 k] using same (k + 1) (by omega)
    rw [load, load, first, rest]

theorem store_outside (width : Nat) :
    ∀ (memory : ByteMemory) (addr value : Nat), a < addr ∨ addr + width ≤ a ->
      store memory addr width value a = memory a := by
  induction width with
  | zero => exact fun _ _ _ _ => rfl
  | succ width ih =>
    intro memory addr value outside
    rw [store, ih _ _ _ (by omega), update_of_ne (by omega)]

theorem load_store_same (width : Nat) :
    ∀ (memory : ByteMemory) (addr value : Nat), load (store memory addr width value) addr width = value % 256 ^ width := by
  induction width with
  | zero =>
    intro memory addr value
    simp [load, Nat.mod_one]
  | succ width ih =>
    intro memory addr value
    rw [load, store, ih, store_outside width _ _ _ (Or.inl (Nat.lt_succ_self addr)),
      update_self, Nat.pow_succ, Nat.mul_comm (256 ^ width), Nat.mod_mul]
    simp

theorem load_store_disjoint {width otherWidth value : Nat} (disjoint : a + width ≤ addr ∨ addr + otherWidth ≤ a) :
    load (store memory addr otherWidth value) a width = load memory a width := by
  apply load_congr
  intro k bounded
  exact store_outside otherWidth _ _ _ (by omega)

theorem copy_outside {dest src : Nat} (n : Nat) (outside : a < dest ∨ dest + n ≤ a) :
    copy memory dest src n a = memory a := by
  induction n with
  | zero => rfl
  | succ n ih =>
    rw [copy, update_of_ne (by omega), ih (by omega)]

theorem copy_inside {dest src : Nat} (n : Nat) (disjoint : src + n ≤ dest ∨ dest + n ≤ src) :
    ∀ k < n, copy memory dest src n (dest + k) = memory (src + k) := by
  induction n with
  | zero => exact fun k impossible => absurd impossible (by omega)
  | succ n ih =>
    intro k bounded
    rw [copy]
    by_cases last : k = n
    · subst last
      rw [update_self, copy_outside k (by omega)]
    · rw [update_of_ne (by omega), ih (by omega) k (by omega)]

end ByteMemory
