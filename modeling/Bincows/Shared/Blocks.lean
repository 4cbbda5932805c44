import Mathlib.Tactic

set_option autoImplicit false

namespace Blocks

open List

variable {A : Type} {disk : Nat -> A} {start : Nat} {blocks : List A}

def writeBlocks (disk : Nat -> A) (start : Nat) (blocks : List A) (n : Nat) : A :=
  if start ≤ n then (blocks[n - start]?).getD (disk n) else disk n

def readBlocks (disk : Nat -> A) (start count : Nat) : List A :=
  (range count).map fun k => disk (start + k)

theorem writeBlocks_inside {k : Nat} {block : A}
    (there : blocks[k]? = some block) : writeBlocks disk start blocks (start + k) = block := by
  rw [writeBlocks, if_pos (Nat.le_add_right _ _), Nat.add_sub_cancel_left, there, Option.getD_some]

theorem writeBlocks_outside {n : Nat}
    (outside : n < start ∨ start + blocks.length ≤ n) : writeBlocks disk start blocks n = disk n := by
  rw [writeBlocks]
  by_cases above : start ≤ n
  · rw [if_pos above, getElem?_eq_none (by omega), Option.getD_none]
  · rw [if_neg above]

theorem writeBlocks_nil (disk : Nat -> A) (start : Nat) : writeBlocks disk start [] = disk :=
  funext fun _ => writeBlocks_outside (by rw [length_nil]; omega)

theorem writeBlocks_append (disk : Nat -> A) (start : Nat) (blocks more : List A) :
    writeBlocks (writeBlocks disk start blocks) (start + blocks.length) more = writeBlocks disk start (blocks ++ more) := by
  funext n
  by_cases later : start + blocks.length ≤ n
  · have index : n - start - blocks.length = n - (start + blocks.length) := by omega
    rw [writeBlocks, if_pos later, writeBlocks_outside (.inr later), writeBlocks, if_pos (by omega),
      getElem?_append_right (by omega), index]
  · rw [writeBlocks_outside (.inl (by omega)), writeBlocks, writeBlocks]
    by_cases above : start ≤ n
    · rw [if_pos above, if_pos above, getElem?_append_left (by omega)]
    · rw [if_neg above, if_neg above]

theorem readBlocks_add (disk : Nat -> A) (start count more : Nat) :
    readBlocks disk start (count + more) = readBlocks disk start count ++ readBlocks disk (start + count) more := by
  simp [readBlocks, range_add, Nat.add_assoc]

theorem readBlocks_congr {disk' : Nat -> A} {start' count : Nat}
    (same : ∀ k < count, disk' (start' + k) = disk (start + k)) :
      readBlocks disk' start' count = readBlocks disk start count :=
  map_congr_left fun k member => same k (mem_range.mp member)

def contents (disk : Nat -> A) (place : Nat -> Nat) (first count : Nat) : List A :=
  (range count).map fun k => disk (place (first + k))

structure Stores (before after : Nat -> A) (place : Nat -> Nat) (first : Nat) (blocks : List A) : Prop where
  stored : ∀ k block, blocks[k]? = some block -> after (place (first + k)) = block
  unchanged : ∀ n, (∀ k < blocks.length, n ≠ place (first + k)) -> after n = before n

section

variable {disk before middle after : Nat -> A} {place : Nat -> Nat} {first count : Nat}
  {blocks more : List A}

theorem contents_add (more : Nat) :
    contents disk place first (count + more) = contents disk place first count ++ contents disk
      place (first + count) more := by
  simp [contents, range_add, Nat.add_assoc]

theorem readBlocks_consecutive (consecutive : ∀ k < count, place (first + k) = place first + k) :
    readBlocks disk (place first) count = contents disk place first count := by
  apply map_congr_left
  intro k member
  rw [consecutive k (mem_range.mp member)]

namespace Stores

theorem nil : Stores disk disk place first [] := by
  refine ⟨?_, fun n _ => rfl⟩
  intro k block there
  simp at there

theorem writeBlocks (consecutive : ∀ k < blocks.length, place (first + k) = start + k) :
    Stores disk (Blocks.writeBlocks disk start blocks) place first blocks := by
  constructor
  · intro k block there
    rw [consecutive k (List.getElem?_eq_some_iff.mp there).1]
    exact writeBlocks_inside there
  intro n outside
  apply writeBlocks_outside
  by_contra inside
  rw [not_or, Nat.not_lt, Nat.not_le] at inside
  have offset : n - start < blocks.length := by omega
  have different := outside (n - start) offset
  rw [consecutive _ offset] at different
  omega

theorem append (one : Stores before middle place first blocks) (two : Stores middle after place (first + blocks.length) more)
    (separate : ∀ k < blocks.length, ∀ m < more.length, place (first + k) ≠ place (first + blocks.length + m)) :
    Stores before after place first (blocks ++ more) := by
  constructor
  · intro k block there
    by_cases early : k < blocks.length
    · rw [getElem?_append_left early] at there
      rw [two.unchanged _ (separate k early)]
      exact one.stored k block there
    · rw [getElem?_append_right (Nat.not_lt.mp early)] at there
      have position : first + k = first + blocks.length + (k - blocks.length) := by omega
      rw [position]
      exact two.stored _ block there
  · intro n outside
    rw [length_append] at outside
    have outsideMore : ∀ m < more.length, n ≠ place (first + blocks.length + m) := by
      intro m small
      rw [Nat.add_assoc]
      exact outside _ (by omega)
    rw [two.unchanged n outsideMore]
    exact one.unchanged n fun k small => outside k (by omega)

theorem contents_eq (stores : Stores before after place first blocks) :
    contents after place first blocks.length = blocks := by
  apply ext_getElem?
  intro k
  by_cases small : k < blocks.length
  · have there : blocks[k]? = some blocks[k] := getElem?_eq_getElem small
    rw [there]
    simp [contents, small, stores.stored k _ there]
  · simp [contents, small]

end Stores

end

end Blocks
