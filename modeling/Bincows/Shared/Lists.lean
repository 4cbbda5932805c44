import Mathlib.Tactic

set_option autoImplicit false

theorem Function.update_eq {A B : Type} [DecidableEq A] {f : A -> B} {i j : A} {v w : B} :
    update f i v j = w ↔ j = i ∧ v = w ∨ j ≠ i ∧ f j = w := by
  rw [update_apply]
  split <;> simp [*]

namespace List

variable {A B : Type} {xs : List A} {x y : A}

theorem lt_of_getElem? {i : Nat} (there : xs[i]? = some x) : i < xs.length :=
  (getElem?_eq_some_iff.mp there).1

theorem length_of_last {i : Nat} (there : xs[i]? = some x) (last : xs[i + 1]? = none) : i + 1 = xs.length :=
  Nat.le_antisymm (lt_of_getElem? there) (getElem?_eq_none_iff.mp last)

theorem mem_concat : y ∈ xs ++ [x] ↔ y ∈ xs ∨ y = x := by
  rw [mem_append, mem_singleton]

theorem forall_mem_concat {P : A -> Prop} (old : ∀ y ∈ xs, P y) (new : P x) : ∀ y ∈ xs ++ [x], P y :=
  forall_mem_append.mpr ⟨old, forall_mem_singleton.mpr new⟩

theorem Nodup.map_concat {f : A -> B} (nodup : (xs.map f).Nodup) (new : ∀ y ∈ xs, f y ≠ f x) : ((xs ++ [x]).map f).Nodup := by
  rw [map_append, nodup_append]
  refine ⟨nodup, nodup_singleton _, ?_⟩
  intro a old b last
  obtain ⟨y, inside, rfl⟩ := mem_map.mp old
  rw [mem_singleton.mp last]
  exact new y inside

end List
