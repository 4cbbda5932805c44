import Bincows.Shared.Lists

set_option autoImplicit false

/-! A table is searched from the front; the first record with the key is returned, changed or removed. -/

namespace Keyed

open List

variable {R : Type} (key : R -> Nat)

def lookup (xs : List R) (k : Nat) : Option R := xs.find? fun x => key x = k

def modify (k : Nat) (f : R -> R) : List R -> List R
  | [] => []
  | x :: rest => if key x = k then f x :: rest else x :: modify k f rest

def remove (k : Nat) : List R -> List R
  | [] => []
  | x :: rest => if key x = k then rest else x :: remove k rest

variable {key} {xs : List R} {x y : R} {k : Nat} {f : R -> R}

theorem lookup_some (found : lookup key xs k = some x) : x ∈ xs ∧ key x = k :=
  ⟨mem_of_find?_eq_some found, by simpa using find?_some found⟩

theorem lookup_none (missing : lookup key xs k = none) (member : x ∈ xs) : key x ≠ k := by
  simpa using find?_eq_none.mp missing x member

theorem unique (nodup : (xs.map key).Nodup) (first : x ∈ xs) (second : y ∈ xs) (same : key x = key y) : x = y :=
  inj_on_of_nodup_map nodup first second same

theorem lookup_of_mem (nodup : (xs.map key).Nodup) (member : x ∈ xs) : lookup key xs (key x) = some x := by
  cases found : lookup key xs (key x) with
  | none => exact absurd rfl (lookup_none found member)
  | some y =>
    obtain ⟨there, same⟩ := lookup_some found
    rw [unique nodup there member same]

theorem exists_lookup (known : k ∈ xs.map key) : ∃ x, lookup key xs k = some x := by
  obtain ⟨x, member, same⟩ := mem_map.mp known
  cases found : lookup key xs k with
  | none => exact absurd same (lookup_none found member)
  | some y => exact ⟨y, rfl⟩

theorem modify_eq_map (nodup : (xs.map key).Nodup) : modify key k f xs = xs.map fun y => if key y = k then f y else y := by
  induction xs with
  | nil => rfl
  | cons head rest ih =>
    rw [map_cons, nodup_cons] at nodup
    rw [modify, map_cons]
    by_cases here : key head = k
    · have others : rest.map (fun y => if key y = k then f y else y) = rest := by
        conv_rhs => rw [← map_id rest]
        apply map_congr_left
        intro y member
        rw [if_neg, id]
        intro equal
        exact nodup.1 (mem_map.mpr ⟨y, member, equal.trans here.symm⟩)
      rw [if_pos here, if_pos here, others]
    · rw [if_neg here, if_neg here, ih nodup.2]

theorem map_modify (keeps : ∀ x, key x = k -> key (f x) = k) : (modify key k f xs).map key = xs.map key := by
  induction xs with
  | nil => rfl
  | cons head rest ih =>
    rw [modify]
    split
    next here => rw [map_cons, map_cons, keeps head here, here]
    next => rw [map_cons, map_cons, ih]

section split

variable {front back : List R} (here : key x = k) (others : ∀ y ∈ front, key y ≠ k)
include here others

theorem modify_split : modify key k f (front ++ x :: back) = front ++ f x :: back := by
  induction front with
  | nil => exact if_pos here
  | cons y front ih =>
    rw [cons_append, modify, if_neg (others y mem_cons_self), ih fun z member => others z (mem_cons_of_mem _ member)]
    rfl

theorem remove_split : remove key k (front ++ x :: back) = front ++ back := by
  induction front with
  | nil => exact if_pos here
  | cons y front ih =>
    rw [cons_append, remove, if_neg (others y mem_cons_self), ih fun z member => others z (mem_cons_of_mem _ member)]
    rfl

end split

theorem split_of_lookup (found : lookup key xs k = some x) :
    ∃ front back, xs = front ++ x :: back ∧ key x = k ∧ ∀ y ∈ front, key y ≠ k := by
  obtain ⟨here, front, back, split, others⟩ := find?_eq_some_iff_append.mp found
  exact ⟨front, back, split, of_decide_eq_true here, fun y member => by simpa using others y member⟩

theorem remove_sublist (k : Nat) (xs : List R) : (remove key k xs).Sublist xs := by
  induction xs with
  | nil => exact .slnil
  | cons head rest ih =>
    rw [remove]
    split
    · exact sublist_cons_self head rest
    · exact ih.cons_cons head

section

variable (nodup : (xs.map key).Nodup)
include nodup

theorem nodup_remove : ((remove key k xs).map key).Nodup :=
  nodup.sublist ((remove_sublist k xs).map key)

theorem remove_eq_filter : remove key k xs = xs.filter fun y => key y ≠ k := by
  induction xs with
  | nil => rfl
  | cons head rest ih =>
    rw [map_cons, nodup_cons] at nodup
    rw [remove]
    by_cases here : key head = k
    · have others : rest.filter (fun y => key y ≠ k) = rest := by
        rw [filter_eq_self]
        intro y member
        exact decide_eq_true fun equal => nodup.1 (mem_map.mpr ⟨y, member, equal.trans here.symm⟩)
      rw [if_pos here, filter_cons_of_neg (by simpa using here), others]
    · rw [if_neg here, filter_cons_of_pos (by simpa using here), ih nodup.2]

theorem mem_remove : y ∈ remove key k xs ↔ y ∈ xs ∧ key y ≠ k := by
  rw [remove_eq_filter nodup, mem_filter, decide_eq_true_eq]

theorem filter_remove_last {p : R -> Bool} {rest : List Nat}
    (last : (xs.filter p).map key = rest ++ [k]) : ((remove key k xs).filter p).map key = rest := by
  have unique : ((xs.filter p).map key).Nodup := nodup.sublist (filter_sublist.map key)
  have swap : ((xs.filter fun y => key y ≠ k).filter p).map key = ((xs.filter p).map key).filter (· ≠ k) := by
    rw [filter_map, filter_filter, filter_filter]
    refine congrArg (map key) (filter_congr fun y _ => ?_)
    rw [Bool.and_comm]
    rfl
  rw [remove_eq_filter nodup, swap, last, filter_append]
  have others : rest.filter (· ≠ k) = rest := by
    rw [filter_eq_self]
    intro i member
    rw [last, nodup_append'] at unique
    exact decide_eq_true fun same => unique.2.2 member (by rw [same]; exact mem_singleton_self k)
  rw [others]
  simp

end

theorem lookup_modify (keeps : ∀ x, key (f x) = key x) (j : Nat) :
    lookup key (modify key k f xs) j = if j = k then (lookup key xs k).map f else lookup key xs j := by
  induction xs with
  | nil => simp [modify, lookup]
  | cons head rest ih =>
    rw [modify]
    by_cases here : key head = k
    · by_cases same : j = k
      · simp [lookup, here, same, keeps]
      · simp [lookup, here, same, Ne.symm same, keeps]
    rw [if_neg here]
    by_cases first : key head = j
    · have different : j ≠ k := first ▸ here
      simp [lookup, first, different]
    · simpa [lookup, here, first] using ih

theorem lookup_modify_self (found : lookup key xs k = some x) (keeps : key (f x) = k) :
    lookup key (modify key k f xs) k = some (f x) := by
  obtain ⟨front, back, rfl, here, others⟩ := split_of_lookup found
  rw [modify_split here others]
  exact find?_eq_some_iff_append.mpr ⟨decide_eq_true keeps, front, back, rfl, by simpa using others⟩

theorem lookup_remove (nodup : (xs.map key).Nodup) (j : Nat) :
    lookup key (remove key k xs) j = if j = k then none else lookup key xs j := by
  rw [remove_eq_filter nodup, lookup, find?_filter]
  by_cases same : j = k
  · subst same
    simp
  rw [if_neg same]
  refine congrArg (fun p => xs.find? p) (funext fun y => ?_)
  by_cases equal : key y = j
  · simp [equal, same]
  · simp [equal]

theorem lookup_append (j : Nat) : lookup key (xs ++ [x]) j = (lookup key xs j).or (if key x = j then some x else none) := by
  rw [lookup, find?_append, lookup]
  by_cases same : key x = j <;> simp [same]

theorem modify_perm (f : R -> R) (found : lookup key xs k = some x) : (modify key k f xs).Perm (f x :: remove key k xs) := by
  obtain ⟨front, back, rfl, here, others⟩ := split_of_lookup found
  rw [modify_split here others, remove_split here others]
  exact perm_middle

theorem countP_remove (p : R -> Bool) (found : lookup key xs k = some x) :
    xs.countP p = (remove key k xs).countP p + if p x then 1 else 0 := by
  obtain ⟨front, back, rfl, here, others⟩ := split_of_lookup found
  rw [remove_split here others, perm_middle.countP_eq, countP_cons]

end Keyed
