import Mathlib.Tactic

set_option autoImplicit false

/-! Each node is a table of entries and `pointer` is the node an entry leads to. A path lists indices from the last one taken
back to the first. -/

namespace RadixTree

variable {A E : Type} [DecidableEq A]

def walk (pointer : E -> Option A) (memory : A -> Nat -> E) (root : A) : List Nat -> Option (A × List E)
  | [] => some (root, [])
  | index :: path =>
    match walk pointer memory root path with
    | none => none
    | some (node, entries) => (pointer (memory node index)).map (fun next => (next, memory node index :: entries))

def write (memory : A -> Nat -> E) (node : A) (index : Nat) (entry : E) : A -> Nat -> E :=
  Function.update memory node (Function.update (memory node) index entry)

variable {pointer : E -> Option A} {memory other : A -> Nat -> E} {root node fresh : A}
  {depth index : Nat}
variable {path : List Nat} {entry : E} {entries : List E}

def Distinct (pointer : E -> Option A) (memory : A -> Nat -> E) (root : A) (depth : Nat) : Prop :=
  ∀ p q node es fs, p.length < depth -> q.length < depth ->
    walk pointer memory root p = some (node, es) -> walk pointer memory root q = some (node, fs) -> p = q

section

omit [DecidableEq A]

theorem walk_cons (reached : walk pointer memory root path = some (node, entries)) :
    walk pointer memory root (index :: path) =
      (pointer (memory node index)).map (fun next => (next, memory node index :: entries)) := by
  rw [walk, reached]

theorem walk_cons_none (missing : walk pointer memory root path = none) :
    walk pointer memory root (index :: path) = none := by
  rw [walk, missing]

theorem walk_cons_congr (before : walk pointer other root path = walk pointer memory root path)
    (same : ∀ n es, walk pointer memory root path = some (n, es) -> other n index = memory n index) :
    walk pointer other root (index :: path) = walk pointer memory root (index :: path) := by
  cases reached : walk pointer memory root path with
  | none => rw [walk_cons_none reached, walk_cons_none (before.trans reached)]
  | some target => rw [walk_cons reached, walk_cons (before.trans reached), same _ _ reached]

theorem walk_congr (same : ∀ p node es, p.length < depth -> walk pointer memory root p = some (node, es) ->
      other node = memory node) :
    ∀ q : List Nat, q.length ≤ depth -> walk pointer other root q = walk pointer memory root q := by
  intro q
  induction q with
  | nil => exact fun _ => rfl
  | cons i q ih =>
    intro short
    exact walk_cons_congr (ih (Nat.le_of_lt short)) fun n es reached => congrFun (same q n es short reached) i

end

theorem write_same (memory : A -> Nat -> E) (node : A) (index : Nat) (entry : E) :
    write memory node index entry node index = entry := by
  simp [write]

theorem write_other {n : A} {i : Nat} (different : ¬ (n = node ∧ i = index)) :
    write memory node index entry n i = memory n i := by
  by_cases same : n = node
  · subst same
    have apart : i ≠ index := fun equal => different ⟨rfl, equal⟩
    simp [write, apart]
  · simp [write, same]

section write

variable (index entry) (distinct : Distinct pointer memory root depth)
  (reached : walk pointer memory root path = some (node, entries))
include distinct reached

theorem write_off_path {q : List Nat} {i : Nat} {n : A} {es : List E} (short : path.length < depth)
    (shorter : q.length < depth)
    (different : i :: q ≠ index :: path) (found : walk pointer memory root q = some (n, es)) :
    write memory node index entry n i = memory n i := by
  refine write_other ?_
  rintro ⟨rfl, rfl⟩
  obtain rfl := distinct q path n es entries shorter short found reached
  exact different rfl

theorem walk_write (short : path.length < depth) :
    ∀ q : List Nat, q.length ≤ depth -> ¬ index :: path <:+ q ->
      walk pointer (write memory node index entry) root q = walk pointer memory root q := by
  intro q
  induction q with
  | nil => exact fun _ _ => rfl
  | cons i q ih =>
    intro bounded avoids
    have before := ih (Nat.le_of_lt bounded) (fun through => avoids (through.trans (List.suffix_cons i q)))
    have different : i :: q ≠ index :: path := fun same => avoids (same ▸ List.suffix_refl _)
    exact walk_cons_congr before fun n es => write_off_path index entry distinct reached short bounded different

theorem walk_write_here (short : path.length < depth) :
    walk pointer (write memory node index entry) root (index :: path) =
      (pointer entry).map (fun next => (next, entry :: entries)) := by
  have notThrough : ¬ index :: path <:+ path := by
    intro through
    have := through.length_le
    simp at this
  have before := (walk_write index entry distinct reached short path (Nat.le_of_lt short) notThrough).trans reached
  rw [walk_cons before, write_same]

theorem walk_write_leaf (last : path.length + 1 = depth) :
    ∀ q : List Nat, q.length ≤ depth -> q ≠ index :: path ->
      walk pointer (write memory node index entry) root q = walk pointer memory root q := by
  intro q bounded different
  refine walk_write index entry distinct reached (by omega) q bounded ?_
  intro through
  exact different (through.eq_of_length_le (by simp only [List.length_cons]; omega)).symm

theorem distinct_write_leaf (last : path.length + 1 = depth) :
    Distinct pointer (write memory node index entry) root depth := by
  have same : ∀ q : List Nat, q.length < depth ->
      walk pointer (write memory node index entry) root q = walk pointer memory root q := by
    intro q bounded
    refine walk_write_leaf index entry distinct reached last q (Nat.le_of_lt bounded) ?_
    rintro rfl
    simp only [List.length_cons] at bounded
    omega
  intro p q t es fs shortP shortQ walkP walkQ
  rw [same p shortP] at walkP
  rw [same q shortQ] at walkQ
  exact distinct p q t es fs shortP shortQ walkP walkQ

end write

variable (distinct : Distinct pointer memory root depth)
  (reached : walk pointer memory root path = some (node, entries))
include distinct reached

section

variable (short : path.length < depth) (absent : pointer (memory node index) = none)
  (target : pointer entry = some fresh)
include short absent target

theorem walk_attach (apart : fresh ≠ node) (empty : ∀ i, pointer (memory fresh i) = none) :
    ∀ q : List Nat, q.length ≤ depth -> q ≠ index :: path ->
      walk pointer (write memory node index entry) root q = walk pointer memory root q := by
  have missing : walk pointer memory root (index :: path) = none := by
    rw [walk_cons reached, absent]
    rfl
  have here := walk_write_here index entry distinct reached short
  rw [target] at here
  have emptyAfter : ∀ i, pointer (write memory node index entry fresh i) = none := by
    intro i
    rw [write_other (fun same => apart same.1)]
    exact empty i
  intro q
  induction q with
  | nil => exact fun _ _ => rfl
  | cons i q ih =>
    intro bounded different
    by_cases through : q = index :: path
    · subst through
      rw [walk_cons_none missing, walk_cons here, emptyAfter]
      rfl
    · exact walk_cons_congr (ih (Nat.le_of_lt bounded) through) fun n es =>
        write_off_path index entry distinct reached short bounded different

theorem distinct_attach (empty : ∀ i, pointer (memory fresh i) = none)
    (unused : ∀ p es, p.length < depth -> walk pointer memory root p ≠ some (fresh, es)) :
    Distinct pointer (write memory node index entry) root depth := by
  have apart : fresh ≠ node := by
    rintro rfl
    exact unused path entries short reached
  have old := walk_attach distinct reached short absent target apart empty
  have here := walk_write_here index entry distinct reached short
  rw [target] at here
  intro p q t es fs shortP shortQ walkP walkQ
  by_cases newP : p = index :: path <;> by_cases newQ : q = index :: path
  · rw [newP, newQ]
  · rw [newP, here] at walkP
    cases walkP
    rw [old q (Nat.le_of_lt shortQ) newQ] at walkQ
    exact absurd walkQ (unused q fs shortQ)
  · rw [newQ, here] at walkQ
    cases walkQ
    rw [old p (Nat.le_of_lt shortP) newP] at walkP
    exact absurd walkP (unused p es shortP)
  · rw [old p (Nat.le_of_lt shortP) newP] at walkP
    rw [old q (Nat.le_of_lt shortQ) newQ] at walkQ
    exact distinct p q t es fs shortP shortQ walkP walkQ

end

end RadixTree
