import Mathlib.Tactic

set_option autoImplicit false

/-! A direct-mapped cache in front of a store; a modified line holds a value that the store does not have yet. -/

namespace WriteBack

open Function

variable {I K V : Type} [DecidableEq I] [DecidableEq K]

structure Line (K V : Type) where
  tag : K
  modified : Bool
  value : V

structure Memory (I K V : Type) where
  backing : K -> V
  lines : I -> Line K V

variable (hash : K -> I) (valid : K -> Prop) (m : Memory I K V)

def view (k : K) : V := if (m.lines (hash k)).tag = k then (m.lines (hash k)).value else m.backing k

structure Consistent : Prop where
  placed : ∀ i, valid (m.lines i).tag -> hash (m.lines i).tag = i
  used : ∀ i, (m.lines i).modified = true -> valid (m.lines i).tag
  clean : ∀ i, (m.lines i).modified = false -> valid (m.lines i).tag -> (m.lines i).value = m.backing (m.lines i).tag

def writeBack (i : I) : Memory I K V :=
  if (m.lines i).modified then
    { backing := update m.backing (m.lines i).tag (m.lines i).value
      lines := update m.lines i { m.lines i with modified := false } }
  else m

def setLine (k : K) (modified : Bool) (value : V) : Memory I K V :=
  { m with lines := update m.lines (hash k) { tag := k, modified, value } }

variable {hash valid m} {i : I} {k k : K} {modified : Bool}

theorem writeBack_line (i j : I) :
    (writeBack m i).lines j = { m.lines j with modified := if j = i then false else (m.lines j).modified } := by
  rw [writeBack]
  split
  · by_cases same : j = i
    · subst same
      simp
    · simp [same]
  · split
    · rename_i clean same
      rw [← Bool.eq_false_iff.mpr clean, same]
    · rfl

theorem writeBack_tag (i j : I) : ((writeBack m i).lines j).tag = (m.lines j).tag := by
  rw [writeBack_line]

theorem writeBack_value (i j : I) : ((writeBack m i).lines j).value = (m.lines j).value := by
  rw [writeBack_line]

theorem writeBack_modified (i j : I) :
    ((writeBack m i).lines j).modified = if j = i then false else (m.lines j).modified := by rw [writeBack_line]

theorem writeBack_clean (i : I) : ((writeBack m i).lines i).modified = false := by
  rw [writeBack_modified, if_pos rfl]

theorem writeBack_backing (consistent : Consistent hash valid m) (i : I) (isValid : valid k)
    (other : (m.lines (hash k)).tag ≠ k) : (writeBack m i).backing k = m.backing k := by
  rw [writeBack]
  split
  · rename_i modified
    refine update_of_ne ?_ _ _
    rintro rfl
    rw [consistent.placed i (consistent.used i modified)] at other
    exact other rfl
  · rfl

theorem view_writeBack (consistent : Consistent hash valid m) (i : I) (isValid : valid k) :
    view hash (writeBack m i) k = view hash m k := by
  rw [view, view, writeBack_tag, writeBack_value]
  split
  · rfl
  · rename_i other
    exact writeBack_backing consistent i isValid other

theorem writeBack_consistent (consistent : Consistent hash valid m) (i : I) : Consistent hash valid (writeBack m i) := by
  refine ⟨?_, ?_, ?_⟩
  · intro j
    rw [writeBack_tag]
    exact consistent.placed j
  · intro j
    rw [writeBack_tag, writeBack_modified]
    split
    · nofun
    · exact consistent.used j
  · intro j
    rw [writeBack_tag, writeBack_modified, writeBack_value]
    by_cases modified : (m.lines i).modified = true
    · rw [writeBack, if_pos modified]
      show _ -> _ -> _ = update m.backing (m.lines i).tag (m.lines i).value (m.lines j).tag
      by_cases same : (m.lines j).tag = (m.lines i).tag
      · intro _ isValid
        have line : j = i := by rw [← consistent.placed j isValid, same, consistent.placed i (same ▸ isValid)]
        rw [line, update_self]
      intro clean isValid
      rw [update_of_ne same]
      have line : j ≠ i := fun equal => same (by rw [equal])
      rw [if_neg line] at clean
      exact consistent.clean j clean isValid
    · rw [writeBack, if_neg modified]
      split
      · rename_i same
        intro _ isValid
        subst same
        exact consistent.clean j (by simpa using modified) isValid
      · exact consistent.clean j

section

omit [DecidableEq K]

theorem setLine_self (k : K) (modified : Bool) (value : V) :
    (setLine hash m k modified value).lines (hash k) = { tag := k, modified, value } :=
  update_self _ _ _

theorem setLine_other {value : V} {i : I} (other : i ≠ hash k) :
    (setLine hash m k modified value).lines i = m.lines i :=
  update_of_ne other _ _

theorem setLine_consistent (consistent : Consistent hash valid m) {value : V}
    (isValid : valid k) (clean : modified = false -> value = m.backing k) :
    Consistent hash valid (setLine hash m k modified value) := by
  refine ⟨?_, ?_, ?_⟩
  · intro i
    by_cases same : i = hash k
    · rw [same, setLine_self]
      exact fun _ => rfl
    · rw [setLine_other same]
      exact consistent.placed i
  · intro i
    by_cases same : i = hash k
    · rw [same, setLine_self]
      exact fun _ => isValid
    · rw [setLine_other same]
      exact consistent.used i
  · intro i
    by_cases same : i = hash k
    · rw [same, setLine_self]
      exact fun isClean _ => clean isClean
    · rw [setLine_other same]
      exact consistent.clean i

end

theorem view_fill (consistent : Consistent hash valid m) (clean : (m.lines (hash k)).modified = false)
    (absent : (m.lines (hash k)).tag ≠ k) {l : K} (isValid : valid l) :
    view hash (setLine hash m k false (m.backing k)) l = view hash m l := by
  rw [view, view]
  by_cases same : hash l = hash k
  · rw [same, setLine_self]
    by_cases equal : k = l
    · subst equal
      rw [if_pos rfl, if_neg absent]
    rw [if_neg equal]
    split
    · rename_i tag
      rw [consistent.clean _ clean (tag.symm ▸ isValid), tag]
      rfl
    · rfl
  · rw [setLine_other same]
    rfl

theorem view_modify (value : V) (present : (m.lines (hash k)).tag = k) :
    view hash (setLine hash m k true value) = update (view hash m) k value := by
  funext l
  by_cases equal : l = k
  · subst equal
    rw [view, setLine_self, update_self, if_pos rfl]
  rw [update_of_ne equal, view, view]
  by_cases same : hash l = hash k
  · rw [same, setLine_self, if_neg (Ne.symm equal), if_neg]
    · rfl
    · rw [present]
      exact Ne.symm equal
  · rw [setLine_other same]
    rfl

end WriteBack
