import Bincows.Shared.Lists

set_option autoImplicit false

/-! `Linked next head nodes`: following `next` from `head` visits exactly `nodes` and then ends. -/

variable {A : Type}

def Linked (next : A -> Option A) : Option A -> List A -> Prop
  | head, [] => head = none
  | head, node :: rest => head = some node ∧ Linked next (next node) rest

namespace Linked

open Function

variable {next : A -> Option A} {head : Option A} {node : A} {nodes rest : List A}

@[simp] theorem nil_iff : Linked next head [] ↔ head = none := Iff.rfl

@[simp] theorem cons_iff : Linked next head (node :: rest) ↔ head = some node ∧ Linked next (next node) rest := Iff.rfl

@[simp] theorem none_iff : Linked next none nodes ↔ nodes = [] := by
  cases nodes <;> simp

theorem some_iff : Linked next (some node) nodes ↔ ∃ rest, nodes = node :: rest ∧ Linked next (next node) rest := by
  cases nodes with
  | nil => simp
  | cons first rest =>
    constructor
    · rintro ⟨same, tail⟩
      cases same
      exact ⟨rest, rfl, tail⟩
    · rintro ⟨rest', same, tail⟩
      cases same
      exact ⟨rfl, tail⟩

theorem unique (linked : Linked next head nodes) {other : List A} (also : Linked next head other) : nodes = other := by
  induction nodes generalizing head other with
  | nil =>
    cases linked
    exact (none_iff.mp also).symm
  | cons node rest ih =>
    obtain ⟨rfl, tail⟩ := linked
    obtain ⟨rest', rfl, tail'⟩ := some_iff.mp also
    rw [ih tail tail']

theorem congr {next' : A -> Option A} (same : ∀ a ∈ nodes, next' a = next a)
    (linked : Linked next head nodes) : Linked next' head nodes := by
  induction nodes generalizing head with
  | nil => exact linked
  | cons node rest ih =>
    refine ⟨linked.1, ?_⟩
    rw [same node (by simp)]
    exact ih (fun a member => same a (by simp [member])) linked.2

theorem update_of_not_mem [DecidableEq A] {value : Option A} (absent : node ∉ nodes)
    (linked : Linked next head nodes) : Linked (update next node value) head nodes := by
  apply linked.congr
  intro a member
  have different : a ≠ node := by
    rintro rfl
    exact absent member
  exact update_of_ne different _ _

theorem push [DecidableEq A] (absent : node ∉ nodes) (linked : Linked next head nodes) :
    Linked (update next node head) (some node) (node :: nodes) := by
  refine ⟨rfl, ?_⟩
  rw [update_self]
  exact linked.update_of_not_mem absent

theorem append_iff {before after : List A} :
    Linked next head (before ++ after) ↔
      ∃ middle, (∀ nodes, Linked next middle nodes -> Linked next head (before ++ nodes)) ∧ Linked next middle after := by
  induction before generalizing head with
  | nil =>
    constructor
    · intro linked
      exact ⟨head, fun nodes tail => tail, linked⟩
    · rintro ⟨middle, extend, linked⟩
      exact extend after linked
  | cons node rest ih =>
    constructor
    · rintro ⟨first, linked⟩
      obtain ⟨middle, extend, tail⟩ := ih.mp linked
      exact ⟨middle, fun nodes suffix => ⟨first, extend nodes suffix⟩, tail⟩
    · rintro ⟨middle, extend, linked⟩
      exact extend after linked

theorem head_eq (linked : Linked next head nodes) : head = nodes.head? := by
  cases nodes with
  | nil => exact linked
  | cons node rest => exact linked.1

theorem iff_getElem? : Linked next nodes.head? nodes ↔ ∀ p node, nodes[p]? = some node -> next node = nodes[p + 1]? := by
  induction nodes with
  | nil => simp
  | cons node rest ih =>
    constructor
    · rintro ⟨-, tail⟩ p a there
      have first := tail.head_eq
      cases p with
      | zero =>
        cases there
        rw [first, List.head?_eq_getElem?]
        rfl
      | succ p => exact ih.mp (first ▸ tail) p a there
    · intro steps
      refine ⟨rfl, ?_⟩
      have first : next node = rest.head? := by
        rw [steps 0 node rfl, List.head?_eq_getElem?]
        rfl
      rw [first]
      exact ih.mpr fun p a there => steps (p + 1) a there

theorem nodup (linked : Linked next head nodes) : nodes.Nodup := by
  induction nodes generalizing head with
  | nil => simp
  | cons node rest ih =>
    refine List.nodup_cons.mpr ⟨?_, ih linked.2⟩
    intro member
    obtain ⟨before, after, split⟩ := List.append_of_mem member
    have tail : Linked next (some node) (node :: after) := by
      obtain ⟨middle, -, suffix⟩ := append_iff.mp (split ▸ linked.2)
      obtain ⟨rfl, suffix'⟩ := suffix
      exact ⟨rfl, suffix'⟩
    have same := (tail.2.unique linked.2)
    have lengths := congrArg List.length (same.trans split)
    simp at lengths
    omega

end Linked
