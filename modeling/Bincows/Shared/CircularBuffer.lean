import Mathlib.Tactic

set_option autoImplicit false

/-! `Window buffer head xs`: read from `head` on and going round at its end, `buffer` holds `xs`. -/

namespace CircularBuffer

open List

variable {A : Type}

def Window (buffer : List A) (head : Nat) (xs : List A) : Prop :=
  xs.length ≤ buffer.length ∧ ∀ k, k < xs.length -> buffer[(head + k) % buffer.length]? = xs[k]?

theorem window_nil (buffer : List A) (head : Nat) : Window buffer head [] :=
  ⟨Nat.zero_le _, fun _ inside => absurd inside (Nat.not_lt_zero _)⟩

variable {buffer xs : List A} {head : Nat}

theorem window_head {x : A} (bound : head < buffer.length)
    (window : Window buffer head (x :: xs)) : buffer[head]? = some x := by
  have first := window.2 0 (Nat.succ_pos _)
  rwa [Nat.add_zero, Nat.mod_eq_of_lt bound] at first

theorem index_injective {capacity k l : Nat} (kBound : k < capacity) (lBound : l < capacity)
    (same : (head + k) % capacity = (head + l) % capacity) : k = l := by
  have congruent : k ≡ l [MOD capacity] := Nat.ModEq.add_left_cancel' head same
  rwa [Nat.ModEq, Nat.mod_eq_of_lt kBound, Nat.mod_eq_of_lt lBound] at congruent

theorem eq_of_mod_eq {first last size : Nat} (ordered : first ≤ last) (fits : last < first + size)
    (same : last % size = first % size) : first = last := by
  have again : (first + (last - first)) % size = (first + 0) % size := by rw [Nat.add_sub_cancel' ordered, same, Nat.add_zero]
  have := index_injective (by omega) (by omega) again
  omega

theorem window_push (room : xs.length < buffer.length) (window : Window buffer head xs) (x : A) :
    Window (buffer.set ((head + xs.length) % buffer.length) x) head (xs ++ [x]) := by
  have positive : 0 < buffer.length := Nat.lt_of_le_of_lt (Nat.zero_le _) room
  refine ⟨by simpa using room, ?_⟩
  intro k inside
  rw [length_append, length_singleton] at inside
  rw [length_set, getElem?_set]
  by_cases old : k < xs.length
  · have apart : (head + xs.length) % buffer.length ≠ (head + k) % buffer.length := by
      intro same
      have := index_injective room (old.trans room) same
      omega
    rw [if_neg apart, window.2 k old, getElem?_append_left old]
  · have last : k = xs.length := by omega
    subst last
    rw [if_pos rfl, if_pos (Nat.mod_lt _ positive)]
    simp

theorem window_take {count : Nat} (window : Window buffer head xs)
    (inside : head + count ≤ buffer.length) (enough : count ≤ xs.length) : (buffer.drop head).take count = xs.take count := by
  apply ext_getElem?
  intro k
  by_cases small : k < count
  · have same := window.2 k (by omega)
    rw [Nat.mod_eq_of_lt (by omega)] at same
    rw [getElem?_take_of_lt small, getElem?_take_of_lt small, getElem?_drop, same]
  · rw [getElem?_take_eq_none (by omega), getElem?_take_eq_none (by omega)]

theorem window_drop {head' count : Nat} (window : Window buffer head xs)
    (next : head' % buffer.length = (head + count) % buffer.length) : Window buffer head' (xs.drop count) := by
  refine ⟨by rw [length_drop]; exact (Nat.sub_le _ _).trans window.1, ?_⟩
  intro k inside
  rw [length_drop] at inside
  have shifted := window.2 (count + k) (by omega)
  have index : (head' + k) % buffer.length = (head + (count + k)) % buffer.length := by
    rw [Nat.add_mod, next, ← Nat.add_mod, Nat.add_assoc]
  rw [index, shifted, getElem?_drop]

theorem window_tail {x : A} (window : Window buffer head (x :: xs)) : Window buffer ((head + 1) % buffer.length) xs :=
  show Window buffer _ ((x :: xs).drop 1) from window_drop window (Nat.mod_mod _ _)

def store (buffer : List A) (start : Nat) (new : List A) : List A :=
  buffer.take start ++ new ++ buffer.drop (start + new.length)

section store

variable {buffer new : List A} {start : Nat} (inside : start + new.length ≤ buffer.length)
include inside

theorem length_store : (store buffer start new).length = buffer.length := by
  simp only [store, length_append, length_take, length_drop]
  omega

theorem length_front : (buffer.take start).length = start := by
  rw [length_take]
  omega

theorem getElem?_store_new {k : Nat} (small : k < new.length) : (store buffer start new)[start + k]? = new[k]? := by
  have length := length_front inside
  rw [store, append_assoc, getElem?_append_right (by omega), length, Nat.add_sub_cancel_left, getElem?_append_left small]

theorem getElem?_store_old {i : Nat}
    (outside : i < start ∨ start + new.length ≤ i) : (store buffer start new)[i]? = buffer[i]? := by
  have length := length_front inside
  rcases outside with before | behind
  · rw [store, append_assoc, getElem?_append_left (by omega), getElem?_take_of_lt before]
  · rw [store, getElem?_append_right (by rw [length_append]; omega), length_append, length,
      getElem?_drop, Nat.add_sub_cancel' behind]

end store

theorem window_append {new : List A} {tail : Nat} (window : Window buffer head xs)
    (place : tail % buffer.length = (head + xs.length) % buffer.length) (inside : tail + new.length ≤ buffer.length)
    (room : xs.length + new.length ≤ buffer.length) : Window (store buffer tail new) head (xs ++ new) := by
  refine ⟨by rw [length_append, length_store inside]; exact room, ?_⟩
  intro k small
  rw [length_append] at small
  rw [length_store inside]
  by_cases old : k < xs.length
  · rw [getElem?_append_left old, ← window.2 k old]
    apply getElem?_store_old inside
    by_contra within
    -- the cell would be one of the new ones
    have cell : (head + k) % buffer.length = (head + (xs.length + ((head + k) % buffer.length - tail))) % buffer.length := by
      have position : (head + k) % buffer.length = tail + ((head + k) % buffer.length - tail) := by omega
      have bound := Nat.mod_lt (head + k) (show 0 < buffer.length by omega)
      conv_lhs => rw [position, ← Nat.mod_eq_of_lt (position ▸ bound : tail + _ < buffer.length)]
      rw [Nat.add_mod, place, ← Nat.add_mod, Nat.add_assoc]
    have := index_injective (by omega) (by omega) cell
    omega
  · have cell : (head + k) % buffer.length = tail + (k - xs.length) := by
      have sum : head + k = head + xs.length + (k - xs.length) := by omega
      rw [sum, Nat.add_mod, ← place, ← Nat.add_mod]
      exact Nat.mod_eq_of_lt (by omega)
    rw [cell, getElem?_store_new inside (by omega), getElem?_append_right (by omega)]

end CircularBuffer
