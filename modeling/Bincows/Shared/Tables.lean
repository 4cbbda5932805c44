import Bincows.Shared.Lists

set_option autoImplicit false

namespace Tables

open Function List

variable {A B M : Type}

-- `a[i] = a[--n]`.
def swapRemove (xs : List A) (i : Nat) : List A :=
  match xs.getLast? with
  | some last => (xs.set i last).dropLast
  | none => xs

variable {xs : List A} {i : Nat} {x : A}

theorem split_at (found : xs[i]? = some x) : ∃ before after, xs = before ++ x :: after ∧ before.length = i := by
  obtain ⟨bound, value⟩ := List.getElem?_eq_some_iff.1 found
  refine ⟨xs.take i, xs.drop (i + 1), ?_, ?_⟩
  · rw [← value, cons_getElem_drop_succ, take_append_drop]
  · rw [length_take]
    omega

theorem set_split (before after : List A) (x y : A) : (before ++ x :: after).set before.length y = before ++ y :: after := by
  rw [set_append_right _ _ (Nat.le_refl _), Nat.sub_self, set_cons_zero]

theorem flatten_set_perm {xs : List (List A)} {x : List A} (found : xs[i]? = some x)
    (more : List A) : (xs.set i (x ++ more)).flatten.Perm (xs.flatten ++ more) := by
  obtain ⟨before, after, split, index⟩ := split_at found
  rw [split, ← index, set_split]
  simp only [flatten_append, flatten_cons, append_assoc]
  exact (Perm.append_left _ perm_append_comm).append_left _

theorem swapRemove_split (before after : List A) (x : A) :
    ∃ rest, swapRemove (before ++ x :: after) before.length = before ++ rest ∧ Perm after rest := by
  rcases eq_nil_or_concat' after with rfl | ⟨middle, last, rfl⟩
  · exact ⟨[], by simp [swapRemove], .nil⟩
  refine ⟨last :: middle, ?_, perm_append_singleton last middle⟩
  have final : (before ++ x :: (middle ++ [last])).getLast? = some last := by
    rw [← cons_append, ← append_assoc, getLast?_append]
    rfl
  rw [swapRemove, final]
  show ((before ++ x :: (middle ++ [last])).set before.length last).dropLast = _
  rw [set_split, ← cons_append, ← append_assoc, dropLast_concat]

theorem swapRemove_perm (found : xs[i]? = some x) : Perm xs (x :: swapRemove xs i) := by
  obtain ⟨before, after, rfl, rfl⟩ := split_at found
  obtain ⟨rest, removed, same⟩ := swapRemove_split before after x
  rw [removed]
  exact perm_middle.trans ((same.append_left before).cons x)

theorem take_swapRemove (found : xs[i]? = some x) : (swapRemove xs i).take i = xs.take i := by
  obtain ⟨before, after, rfl, rfl⟩ := split_at found
  obtain ⟨rest, removed, -⟩ := swapRemove_split before after x
  rw [removed, take_left, take_left]

section sums

variable [AddCommMonoid M]

theorem sum_set (f : A -> M) (found : xs[i]? = some x) (y : A) : ((xs.set i y).map f).sum + f x = (xs.map f).sum + f y := by
  obtain ⟨before, after, rfl, rfl⟩ := split_at found
  rw [set_split]
  simp only [map_append, map_cons, sum_append, sum_cons]
  abel

theorem sum_swapRemove (f : A -> M) (found : xs[i]? = some x) : (xs.map f).sum = f x + ((swapRemove xs i).map f).sum := by
  rw [((swapRemove_perm found).map f).sum_eq, map_cons, sum_cons]

end sums

variable {y z : A}

theorem mem_set_iff (member : z ∈ xs.set i y) : z = y ∨ z ∈ xs := (mem_or_eq_of_mem_set member).symm

theorem forall_mem_set {P : A -> Prop} (new : P y) (old : ∀ z ∈ xs, P z) : ∀ z ∈ xs.set i y, P z := by
  intro z member
  rcases mem_set_iff member with rfl | inside
  · exact new
  · exact old z inside

theorem mem_of_swapRemove (found : xs[i]? = some x) (member : z ∈ swapRemove xs i) : z ∈ xs :=
  (swapRemove_perm found).mem_iff.2 (mem_cons_of_mem x member)

theorem map_set_same (key : A -> B) (found : xs[i]? = some x) (y : A)
    (same : key y = key x) : (xs.set i y).map key = xs.map key := by
  obtain ⟨before, after, rfl, rfl⟩ := split_at found
  rw [set_split, map_append, map_append, map_cons, map_cons, same]

theorem nodup_swapRemove (key : A -> B) (found : xs[i]? = some x) (nodup : (xs.map key).Nodup) :
    ((swapRemove xs i).map key).Nodup ∧ ∀ z ∈ swapRemove xs i, key z ≠ key x := by
  have arranged := ((swapRemove_perm found).map key).nodup_iff.1 nodup
  rw [map_cons, nodup_cons] at arranged
  refine ⟨arranged.2, ?_⟩
  intro z member same
  exact arranged.1 (same ▸ mem_map_of_mem member)

-- A record with another key than the one overwritten or removed stays.
theorem mem_set_of_ne (found : xs[i]? = some x) (member : z ∈ xs) (other : z ≠ x) (y : A) : z ∈ xs.set i y := by
  obtain ⟨before, after, rfl, rfl⟩ := split_at found
  rw [set_split]
  simp only [mem_append, mem_cons] at member ⊢
  tauto

theorem mem_swapRemove_of_ne (found : xs[i]? = some x) (member : z ∈ xs) (other : z ≠ x) : z ∈ swapRemove xs i :=
  mem_of_ne_of_mem other ((swapRemove_perm found).mem_iff.1 member)

theorem index_unique (key : A -> B) {j : Nat} (nodup : (xs.map key).Nodup)
    (first : xs[i]? = some x) (second : xs[j]? = some y) (same : key x = key y) : i = j ∧ x = y := by
  have bound : i < (xs.map key).length := by
    rw [length_map]
    exact lt_of_getElem? first
  have keys : (xs.map key)[i]? = (xs.map key)[j]? := by
    rw [getElem?_map, getElem?_map, first, second, Option.map_some, Option.map_some, same]
  have index := (getElem?_inj bound nodup).1 keys
  subst index
  exact ⟨rfl, Option.some.inj (first.symm.trans second)⟩

variable {r : A -> A -> Prop}

theorem forall₂_refl (reflexive : ∀ x, r x x) (xs : List A) : Forall₂ r xs xs :=
  forall₂_same.mpr fun x _ => reflexive x

variable {ys : List A}

theorem forall₂_trans {zs : List A} (first : Forall₂ r xs ys)
    (second : Forall₂ r ys zs) (transitive : ∀ x y z, r x y -> r y z -> r x z) :
    Forall₂ r xs zs := by
  induction first generalizing zs with
  | nil =>
    cases second
    exact .nil
  | cons here _ ih =>
    cases second with
    | cons here' rest' => exact .cons (transitive _ _ _ here here') (ih rest')

theorem forall₂_set (reflexive : ∀ x, r x x) (there : xs[i]? = some x) (related : r x y) : Forall₂ r xs (xs.set i y) := by
  obtain ⟨before, after, rfl, rfl⟩ := split_at there
  rw [set_split]
  exact rel_append (forall₂_refl reflexive before) (.cons related (forall₂_refl reflexive after))

theorem forall₂_getElem? (related : Forall₂ r xs ys) (there : xs[i]? = some x) : ∃ y, ys[i]? = some y ∧ r x y := by
  obtain ⟨bound, rfl⟩ := List.getElem?_eq_some_iff.mp there
  have bound' := related.length_eq ▸ bound
  exact ⟨ys[i], getElem?_eq_getElem bound', related.get bound bound'⟩

theorem forall₂_mem_right (related : Forall₂ r xs ys) (member : y ∈ ys) : ∃ x ∈ xs, r x y := by
  obtain ⟨i, there⟩ := mem_iff_getElem?.mp member
  obtain ⟨x, value, holds⟩ := forall₂_getElem? related.flip there
  exact ⟨x, mem_of_getElem? value, holds⟩

theorem forall₂_map_eq (related : Forall₂ r xs ys) (f : A -> B) (same : ∀ x y, r x y -> f y = f x) : ys.map f = xs.map f := by
  induction related with
  | nil => rfl
  | cons here _ ih => rw [map_cons, map_cons, same _ _ here, ih]

section updates

variable {I V : Type} [DecidableEq I] {key : A -> I} {value : A -> V} {f : I -> V} {xs : List A}

theorem foldl_update_other {i : I} (other : ∀ x ∈ xs, key x ≠ i) :
    xs.foldl (fun f x => update f (key x) (value x)) f i = f i := by
  induction xs generalizing f with
  | nil => rfl
  | cons x xs ih =>
    rw [foldl_cons, ih fun y member => other y (mem_cons_of_mem _ member), update_of_ne (other x mem_cons_self).symm]

theorem foldl_update_mem (nodup : (xs.map key).Nodup) (member : x ∈ xs) :
    xs.foldl (fun f x => update f (key x) (value x)) f (key x) = value x := by
  induction xs generalizing f with
  | nil => cases member
  | cons y ys ih =>
    obtain ⟨fresh, nodup⟩ := nodup_cons.mp nodup
    rw [foldl_cons]
    rcases mem_cons.mp member with rfl | later
    · have other : ∀ z ∈ ys, key z ≠ key x := fun z inside same => fresh (same ▸ mem_map_of_mem inside)
      rw [foldl_update_other other, update_self]
    · exact ih nodup later

end updates

end Tables
