import Mathlib.Data.List.Infix

set_option autoImplicit false

/-! `string.c`. A string is the list of its characters in front of the zero. -/

namespace Bincows.Strings

open List

variable {A : Type} [DecidableEq A]

-- `i` characters have matched, and `haystack` is `p` characters behind its beginning.
def strstrFrom (needle : List A) (haystack : List A) (i : Nat) (p : Int) : Option Int :=
  match needle[i]?, haystack with
  | none, _ => some (p - i - 1)
  | some _, [] => none
  | some ci, c :: rest => if c = ci then strstrFrom needle rest (i + 1) (p + 1) else strstrFrom needle rest 0 (p + 1)

def strstr (haystack needle : List A) : Option Int := strstrFrom needle haystack 0 0

def First (haystack needle : List A) : Option Int -> Prop
  | none => ¬ needle <:+: haystack
  | some q => ∃ k : Nat, q = k ∧ needle <+: haystack.drop k ∧ ∀ j < k, ¬ needle <+: haystack.drop j

-- A match begins at the front, or behind a character that failed.
def Begins (needle front : List A) : Prop := ∀ c, front.getLast? = some c -> ∃ x ∈ needle, x ≠ c

theorem strstrFrom_some {needle rest front : List A} {i : Nat} {p q : Int} (found : strstrFrom needle rest i p = some q)
    (position : p = front.length + i) (inside : i ≤ needle.length) (begins : Begins needle front) :
    ∃ front' back, front ++ needle.take i ++ rest = front' ++ needle ++ back ∧
      q = front'.length - 1 ∧ Begins needle front' := by
  fun_induction strstrFrom needle rest i p generalizing front with
  | case1 rest i p ended =>
    cases found
    rw [take_of_length_le (getElem?_eq_none_iff.mp ended)]
    exact ⟨front, rest, rfl, by omega, begins⟩
  | case2 => cases found
  | case3 i p c rest there ih =>
    have longer := ih found (by omega) (List.getElem?_eq_some_iff.mp there).1 begins
    rw [take_add_one, there] at longer
    simpa using longer
  | case4 i p ci c rest there differs ih =>
    have again := @ih (front ++ needle.take i ++ [c]) found (by simp [inside]; omega) (Nat.zero_le _) ?_
    · simpa using again
    · intro c' last
      rw [getLast?_concat] at last
      cases last
      exact ⟨ci, mem_of_getElem? there, Ne.symm differs⟩

omit [DecidableEq A] in
theorem eq_of_prefix {c : A} {rest more : List A} (overlaps : c :: rest <+: rest ++ more) : ∀ x ∈ rest, x = c := by
  induction rest generalizing c with
  | nil => simp
  | cons d rest ih =>
    obtain ⟨rfl, further⟩ := cons_prefix_cons.mp overlaps
    exact forall_mem_cons.mpr ⟨rfl, ih further⟩

theorem strstr_first_iff (haystack : List A) (c : A) (rest : List A) :
    First haystack (c :: rest) (strstr haystack (c :: rest)) ↔ ¬ c :: rest <:+: haystack := by
  cases result : strstr haystack (c :: rest) with
  | none => exact Iff.rfl
  | some q =>
    obtain ⟨front, back, split, position, begins⟩ := @strstrFrom_some _ _ _ _ [] _ _ _ result rfl (Nat.zero_le _) nofun
    have whole : haystack = front ++ (c :: rest) ++ back := split
    refine iff_of_false ?_ (not_not.mpr ⟨front, back, whole.symm⟩)
    -- Two occurrences one behind the other would be of equal characters.
    rintro ⟨k, same, occurs, -⟩
    obtain ⟨before, last, rfl⟩ := front.eq_nil_or_concat.resolve_left (by rintro rfl; simp at position; omega)
    obtain rfl : k = before.length := by simp at position; omega
    obtain ⟨more, overlap⟩ := occurs
    have shifted : c :: rest ++ more = last :: (c :: rest ++ back) := by simpa [whole] using overlap
    obtain ⟨rfl, tail⟩ := cons.inj shifted
    obtain ⟨x, member, differs⟩ := begins c (by simp)
    have equal : ∀ x ∈ c :: rest, x = c := forall_mem_cons.mpr ⟨rfl, eq_of_prefix ⟨back, tail.symm⟩⟩
    exact differs (equal x member)

theorem strstr_before_or_missed : strstr "xab".toList "ab".toList = some 0 ∧ strstr "aab".toList "ab".toList = none := by
  decide

end Bincows.Strings
