import Mathlib.Data.List.Induction

set_option autoImplicit false

/-! Where one step keeps a property just when a condition holds before it, the property holds
throughout a history just when the condition holds before each of its actions. -/

namespace Histories

variable {S A : Type} (step : S -> A -> S)

def after (first : S) (actions : List A) : S := actions.foldl step first

variable {step} {first : S} {actions : List A} {fine : S -> A -> Prop}

theorem after_append (more : List A) : after step first (actions ++ more) = after step (after step first actions) more :=
  List.foldl_append

theorem after_concat (action : A) : after step first (actions ++ [action]) = step (after step first actions) action :=
  after_append [action]

theorem after_invariant {invariant : S -> Prop} (allowed : A -> Prop) (start : invariant first)
    (keeps : ∀ s action, allowed action -> invariant s -> invariant (step s action))
      (every : ∀ action ∈ actions, allowed action) :
    invariant (after step first actions) := by
  induction actions generalizing first with
  | nil => exact start
  | cons action rest ih =>
    refine ih (keeps _ _ (every action List.mem_cons_self) start) ?_
    exact fun other member => every other (List.mem_cons_of_mem _ member)

theorem always_iff {safe holds : S -> Prop} (start : safe first) (sound : ∀ s, safe s -> holds s)
    (needs : ∀ s action, safe s -> holds (step s action) -> fine s action)
    (keeps : ∀ s action, safe s -> fine s action -> safe (step s action)) :
    (∀ front, front <+: actions -> holds (after step first front)) ↔
      ∀ front action, front ++ [action] <+: actions -> fine (after step first front) action := by
  constructor
  · intro always
    have safely (front : List A) (part : front <+: actions) : safe (after step first front) := by
      induction front using List.reverseRecOn with
      | nil => exact start
      | append_singleton front action ih =>
        have before := ih ((List.prefix_append _ _).trans part)
        have next := always _ part
        rw [after_concat] at next ⊢
        exact keeps _ _ before (needs _ _ before next)
    intro front action part
    have next := always _ part
    rw [after_concat] at next
    exact needs _ _ (safely front ((List.prefix_append _ _).trans part)) next
  · intro fine front part
    refine sound _ ?_
    induction front using List.reverseRecOn with
    | nil => exact start
    | append_singleton front action ih =>
      rw [after_concat]
      exact keeps _ _ (ih ((List.prefix_append _ _).trans part)) (fine front action part)

theorem always_quiet_iff {safe holds : S -> Prop} {quiet : A -> Prop} (start : safe first)
    (exactly : ∀ s action, safe s -> (safe (step s action) ↔ fine s action)) (sound : ∀ s, safe s -> holds s)
    (calm : ∀ s action, quiet action -> safe s -> safe (step s action))
    (threat : ∀ s action, safe s -> ¬ safe (step s action) ->
      ∃ more, (∀ b ∈ more, quiet b) ∧ ¬ holds (after step (step s action) more)) :
    (∀ front more, front <+: actions -> (∀ b ∈ more, quiet b) -> holds (after step first (front ++ more))) ↔
      ∀ front action, front ++ [action] <+: actions -> fine (after step first front) action := by
  rw [← always_iff start (fun _ => id) (fun s action before => (exactly s action before).mp)
    fun s action before => (exactly s action before).mpr]
  constructor
  · intro always front part
    induction front using List.reverseRecOn with
    | nil => exact start
    | append_singleton front action ih =>
      have before := ih ((List.prefix_append _ _).trans part)
      by_contra lost
      rw [after_concat] at lost
      obtain ⟨more, calmly, fails⟩ := threat _ action before lost
      have whole := always _ more part calmly
      rw [after_append, after_concat] at whole
      exact fails whole
  · intro always front more part calmly
    rw [after_append]
    exact sound _ (after_invariant quiet (always front part) calm calmly)

end Histories
