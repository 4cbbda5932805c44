import Mathlib.Tactic

set_option autoImplicit false

/-! Nodes below nodes whose keys are prefixes of theirs. A node may stand in front of a shorter
prefix of its own key, but never behind it, so the search finds the longest prefix. -/

namespace PrefixForest

open List

open scoped List

variable {α V : Type} [DecidableEq α] {value : V}

inductive Forest (α V : Type) where
  | nil
  | cons (key : List α) (value : V) (children siblings : Forest α V)

structure Node (α V : Type) where
  key : List α
  value : V
  children : Forest α V

def entries : Forest α V -> List (List α × V)
  | .nil => []
  | .cons key value children siblings => (key, value) :: (entries children ++ entries siblings)

def lookup (query : List α) (current : Node α V) : Forest α V -> Node α V
  | .nil => current
  | .cons key value children siblings =>
    if key <+: query then lookup query { key, value, children } children else lookup query current siblings

/-- `none` if the key is there already. -/
def insert (new : List α) (value : V) (current : List α) : Forest α V -> Option (Forest α V)
  | .nil => if current = new then none else some (.cons new value .nil .nil)
  | .cons key value' children siblings =>
    if key <+: new then (insert new value key children).map fun children => .cons key value' children siblings
    else (insert new value current siblings).map fun siblings => .cons key value' children siblings

def remove (target : List α) : Forest α V -> Option (Forest α V)
  | .nil => none
  | .cons key value children siblings =>
    if key = target then some siblings
    else if key <+: target then (remove target children).map fun children => .cons key value children siblings
    else (remove target siblings).map fun siblings => .cons key value children siblings

def Ordered : Forest α V -> Prop
  | .nil => True
  | .cons key _ children siblings =>
    (∀ e ∈ entries children, key <+: e.1 ∧ e.1 ≠ key) ∧ (∀ e ∈ entries siblings, ¬ key <+: e.1) ∧
      Ordered children ∧ Ordered siblings

omit [DecidableEq α] in
theorem forall_entries_cons {key : List α} {children siblings : Forest α V}
    {P : List α × V -> Prop} : (∀ e ∈ entries (.cons key value children siblings), P e) ↔
      P (key, value) ∧ (∀ e ∈ entries children, P e) ∧ ∀ e ∈ entries siblings, P e := by
  rw [entries, forall_mem_cons, forall_mem_append]

section

variable {new : List α} {f : Forest α V}

theorem insert_eq_none_iff (value : V) (current : Node α V) :
    insert new value current.key f = none ↔ (lookup new current f).key = new := by
  induction f generalizing current with
  | nil => simp [insert, lookup]
  | cons key value' children siblings below beside =>
    rw [insert, lookup]
    split
    · rw [Option.map_eq_none_iff]
      exact below { key, value := value', children }
    · rw [Option.map_eq_none_iff]
      exact beside current

theorem insert_twice {f' : Forest α V} {current : List α} (inserted : insert new value current f = some f') (again : V) :
    insert new again current f' = none := by
  induction f generalizing current f' with
  | nil =>
    rw [insert] at inserted
    split at inserted <;> cases inserted
    simp [insert]
  | cons key value' children siblings below beside =>
    rw [insert] at inserted
    split at inserted
    case isTrue within =>
      obtain ⟨_, deeper, rfl⟩ := Option.map_eq_some_iff.mp inserted
      simp [insert, within, below deeper]
    case isFalse apart =>
      obtain ⟨_, behind, rfl⟩ := Option.map_eq_some_iff.mp inserted
      simp [insert, apart, beside behind]

end

theorem lookup_longest {f : Forest α V} (ordered : Ordered f) (query : List α)
    (current : Node α V) : (lookup query current f = current ∧ ∀ e ∈ entries f, ¬ e.1 <+: query) ∨
      (((lookup query current f).key, (lookup query current f).value) ∈ entries f ∧ (lookup query current f).key <+: query ∧
        ∀ e ∈ entries f, e.1 <+: query -> e.1.length ≤ (lookup query current f).key.length) := by
  induction f generalizing current with
  | nil => exact .inl ⟨rfl, fun _ member => by cases member⟩
  | cons key value children siblings belowIh besideIh =>
    obtain ⟨below, beside, belowOrdered, besideOrdered⟩ := ordered
    rw [lookup]
    split
    next fits =>
      have shorter : ∀ e ∈ entries siblings, e.1 <+: query -> e.1.length ≤ key.length := by
        intro e member within
        rcases prefix_or_prefix_of_prefix fits within with longer | shorter
        · exact absurd longer (beside e member)
        · exact shorter.length_le
      rcases belowIh belowOrdered { key, value, children } with ⟨same, none⟩ | ⟨found, within, longest⟩
      · rw [same]
        refine .inr ⟨mem_cons_self, fits, forall_entries_cons.mpr ⟨fun _ => Nat.le_refl _, ?_, shorter⟩⟩
        exact fun e child within => absurd within (none e child)
      · have longer : key.length ≤ (lookup query { key, value, children } children).key.length := (below _ found).1.length_le
        refine .inr ⟨mem_cons_of_mem _ (mem_append_left _ found), within, ?_⟩
        exact forall_entries_cons.mpr ⟨fun _ => longer, longest, fun e sibling within =>
          (shorter e sibling within).trans longer⟩
    next fits =>
      have noChild : ∀ e ∈ entries children, ¬ e.1 <+: query := fun e member within =>
        fits ((below e member).1.trans within)
      rcases besideIh besideOrdered current with ⟨same, none⟩ | ⟨found, within, longest⟩
      · exact .inl ⟨same, forall_entries_cons.mpr ⟨fits, noChild, none⟩⟩
      · refine .inr ⟨mem_cons_of_mem _ (mem_append_right _ found), within, forall_entries_cons.mpr ⟨?_, ?_, longest⟩⟩
        · exact fun within => absurd within fits
        · exact fun e child within => absurd within (noChild e child)

theorem insert_spec {f f' : Forest α V} {new current : List α} (ordered : Ordered f)
    (extend : ∀ e ∈ entries f, current <+: e.1 ∧ e.1 ≠ current) (result : insert new value current f = some f') :
    Ordered f' ∧ current ≠ new ∧ (∀ e ∈ entries f, e.1 ≠ new) ∧ (entries f').Perm ((new, value) :: entries f) := by
  induction f generalizing current f' with
  | nil =>
    rw [insert] at result
    split at result
    · cases result
    rename_i different
    cases result
    simp [Ordered, entries, different]
  | cons key value' children siblings belowIh besideIh =>
    obtain ⟨below, beside, belowOrdered, besideOrdered⟩ := ordered
    rw [insert] at result
    split at result
    next fits =>
      obtain ⟨children', inserted, rfl⟩ := Option.map_eq_some_iff.mp result
      obtain ⟨ordered', different, fresh, perm⟩ := belowIh belowOrdered below inserted
      refine ⟨⟨?_, beside, ordered', besideOrdered⟩, ?_, ?_, ?_⟩
      · intro e member
        rcases mem_cons.mp (perm.mem_iff.mp member) with rfl | old
        · exact ⟨fits, different.symm⟩
        · exact below e old
      · rintro rfl
        obtain ⟨shorter, other⟩ := extend (key, value') mem_cons_self
        exact other (fits.eq_of_length_le shorter.length_le)
      · exact forall_entries_cons.mpr ⟨different, fresh, fun e sibling equal => beside e sibling (equal ▸ fits)⟩
      · exact ((perm.append_right _).cons _).trans (Perm.swap _ _ _)
    next fits =>
      obtain ⟨siblings', inserted, rfl⟩ := Option.map_eq_some_iff.mp result
      obtain ⟨ordered', different, fresh, perm⟩ := besideIh besideOrdered (forall_entries_cons.mp extend).2.2 inserted
      refine ⟨⟨below, ?_, belowOrdered, ordered'⟩, different, ?_, ?_⟩
      · intro e member
        rcases mem_cons.mp (perm.mem_iff.mp member) with rfl | old
        · exact fits
        · exact beside e old
      · refine forall_entries_cons.mpr ⟨?_, fun e child equal => fits (equal ▸ (below e child).1), fresh⟩
        exact fun equal => fits (equal ▸ prefix_rfl)
      · have moved : (entries children ++ entries siblings').Perm ((new, value) :: (entries children ++ entries siblings)) :=
          (perm.append_left _).trans perm_middle
        exact (moved.cons _).trans (Perm.swap _ _ _)

theorem front_perm {A : Type} (x : A) {y : A} {xs ys zs : List A} (perm : xs ~ y :: (ys ++ zs)) :
    x :: xs ~ y :: (ys ++ x :: zs) :=
  calc x :: xs
    _ ~ x :: y :: (ys ++ zs) := perm.cons x
    _ ~ y :: x :: (ys ++ zs) := .swap _ _ _
    _ ~ y :: (ys ++ x :: zs) := perm_middle.symm.cons y

theorem remove_spec {f : Forest α V} (ordered : Ordered f) {query : List α} {current : Node α V}
    (found : ((lookup query current f).key, (lookup query current f).value) ∈ entries f)
    (strict : ∀ e ∈ entries f, e.1 ≠ current.key) :
    ∃ f', remove (lookup query current f).key f = some f' ∧ Ordered f' ∧
      (entries f).Perm (((lookup query current f).key, (lookup query current f).value) ::
        (entries (lookup query current f).children ++ entries f')) := by
  induction f generalizing current with
  | nil => cases found
  | cons key value children siblings belowIh besideIh =>
    obtain ⟨below, beside, belowOrdered, besideOrdered⟩ := ordered
    rw [lookup] at found ⊢
    by_cases fits : key <+: query
    · rw [if_pos fits] at found ⊢
      rcases lookup_longest belowOrdered query { key, value, children } with ⟨same, none⟩ | ⟨deeper, within, -⟩
      · rw [same, remove, if_pos rfl]
        exact ⟨siblings, rfl, besideOrdered, .refl _⟩
      obtain ⟨children', removed, ordered', perm⟩ := belowIh belowOrdered deeper fun e member => (below e member).2
      obtain ⟨longer, other⟩ := below _ deeper
      rw [remove, if_neg other.symm, if_pos longer, removed]
      refine ⟨_, rfl, ⟨?_, beside, ordered', besideOrdered⟩, ?_⟩
      · intro e member
        exact below e (perm.mem_iff.mpr (mem_cons_of_mem _ (mem_append_right _ member)))
      · refine front_perm _ ((perm.append_right _).trans ?_)
        rw [cons_append, append_assoc]
    · rw [if_neg fits] at found ⊢
      rcases lookup_longest besideOrdered query current with ⟨same, -⟩ | ⟨there, within, -⟩
      · rw [same] at found
        exact absurd rfl (strict _ found)
      obtain ⟨siblings', removed, ordered', perm⟩ := besideIh besideOrdered there (forall_entries_cons.mp strict).2.2
      have other : key ≠ (lookup query current siblings).key := by
        rintro equal
        exact beside _ there (equal ▸ prefix_rfl)
      rw [remove, if_neg other, if_neg (beside _ there), removed]
      refine ⟨_, rfl, ⟨below, ?_, belowOrdered, ordered'⟩, ?_⟩
      · intro e member
        exact beside e (perm.mem_iff.mpr (mem_cons_of_mem _ (mem_append_right _ member)))
      · exact front_perm _ ((perm.append_left _).trans (perm_middle.trans ((perm_append_comm_assoc _ _ _).cons _)))

end PrefixForest
