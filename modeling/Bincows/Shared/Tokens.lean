import Bincows.Shared.Execution

set_option autoImplicit false

/-! Objects that are read and replaced by one thread at a time. The log has, for each access that has ended, the copy it took
and the value it left; making an object is its first access. -/

structure Tokens.Access (I V : Type) where
  object : I
  copy : V
  left : V

structure Tokens (I T V : Type) where
  value : I -> Option V
  holder : I -> Option (T × V)
  log : List (Tokens.Access I V)

namespace Tokens

open Function

variable {I T V : Type} [DecidableEq I]

def accesses (a : Tokens I T V) (i : I) : List (Access I V) := a.log.filter fun x => x.object = i

def previous (a : Tokens I T V) (i : I) : Option V := (a.accesses i).getLast?.map Access.left

inductive Step (a : Tokens I T V) : Tokens I T V -> Prop where
  | create (i : I) (v : V) (free : a.holder i = none) (new : a.accesses i = []) :
      Step a { a with value := update a.value i (some v), log := a.log ++ [⟨i, v, v⟩] }
  | take (t : T) (i : I) (v : V) (free : a.holder i = none) (there : a.value i = some v) :
      Step a { a with holder := update a.holder i (some (t, v)) }
  | store (t : T) (i : I) (copy v : V) (held : a.holder i = some (t, copy))
      (fresh : a.value i = some copy) : Step a { a with value := update a.value i (some v) }
  | give (t : T) (i : I) (copy v : V) (held : a.holder i = some (t, copy)) (there : a.value i = some v) :
      Step a { a with holder := update a.holder i none, log := a.log ++ [⟨i, copy, v⟩] }
  | discard (t : T) (i : I) (copy v : V) (held : a.holder i = some (t, copy))
      (there : a.value i = some v) : Step a
        { value := update a.value i none
          holder := update a.holder i none
          log := a.log ++ [⟨i, copy, v⟩] }

structure Serial (a : Tokens I T V) : Prop where
  chain : ∀ i, (a.accesses i).IsChain fun x y => y.copy = x.left
  held : ∀ i t copy, a.holder i = some (t, copy) -> a.previous i = some copy
  free : ∀ i v, a.holder i = none -> a.value i = some v -> a.previous i = some v

def start : Tokens I T V := { value := fun _ => none, holder := fun _ => none, log := [] }

theorem start_serial : Serial (start : Tokens I T V) where
  chain := fun _ => .nil
  held := nofun
  free := nofun

variable {a b : Tokens I T V}

section append

variable (a : Tokens I T V) (x : Access I V) (value : I -> Option V) (holder : I -> Option (T × V))

theorem accesses_append_self : accesses { value, holder, log := a.log ++ [x] } x.object = a.accesses x.object ++ [x] := by
  simp [accesses]

theorem accesses_append_other {i : I}
    (other : i ≠ x.object) : accesses { value, holder, log := a.log ++ [x] } i = a.accesses i := by
  simp [accesses, Ne.symm other]

theorem previous_append_self : previous { value, holder, log := a.log ++ [x] } x.object = some x.left := by
  simp [previous, accesses_append_self]

theorem previous_append_other {i : I}
    (other : i ≠ x.object) : previous { value, holder, log := a.log ++ [x] } i = a.previous i := by
  rw [previous, accesses_append_other a x value holder other, previous]

end append

theorem Serial.append (serial : Serial a) (x : Access I V) {value : I -> Option V} {holder : I -> Option (T × V)}
    (follows : ∀ y, a.previous x.object = some y -> x.copy = y) (freed : holder x.object = none)
    (left : ∀ v, value x.object = some v -> v = x.left)
    (others : ∀ i, i ≠ x.object -> value i = a.value i ∧ holder i = a.holder i) :
    Serial { value, holder, log := a.log ++ [x] } where
  chain := by
    intro i
    by_cases same : i = x.object
    · subst same
      rw [accesses_append_self, List.isChain_append]
      refine ⟨serial.chain _, List.isChain_singleton x, ?_⟩
      intro y last z only
      cases only
      exact follows y.left (by rw [previous, last]; rfl)
    · rw [accesses_append_other a x value holder same]
      exact serial.chain i
  held := by
    intro i t copy held
    by_cases same : i = x.object
    · subst same
      cases freed.symm.trans held
    · rw [previous_append_other a x value holder same]
      exact serial.held i t copy ((others i same).2 ▸ held)
  free := by
    intro i v free there
    by_cases same : i = x.object
    · subst same
      rw [previous_append_self, left v there]
    · rw [previous_append_other a x value holder same]
      exact serial.free i v ((others i same).2 ▸ free) ((others i same).1 ▸ there)

theorem Serial.step (serial : Serial a) (step : Step a b) : Serial b := by
  cases step with
  | create i v free new =>
    refine serial.append ⟨i, v, v⟩ ?_ free ?_ ?_
    · intro y previous
      rw [Tokens.previous, new] at previous
      cases previous
    · intro w there
      rw [update_self] at there
      exact (Option.some.inj there).symm
    · intro j other
      exact ⟨update_of_ne other _ _, rfl⟩
  | take t i v free there =>
    refine { serial with held := ?_, free := ?_ }
    · intro j t' copy held
      rcases update_eq.mp held with ⟨rfl, ⟨⟩⟩ | ⟨-, before⟩
      · exact serial.free j v free there
      · exact serial.held j t' copy before
    · intro j w free' there'
      rcases update_eq.mp free' with ⟨-, ⟨⟩⟩ | ⟨-, before⟩
      exact serial.free j w before there'
  | store t i copy v held fresh =>
    refine { serial with free := ?_ }
    intro j w free there
    rcases update_eq.mp there with ⟨rfl, -⟩ | ⟨-, before⟩
    · cases held.symm.trans free
    · exact serial.free j w free before
  | give t i copy v held there =>
    refine serial.append ⟨i, copy, v⟩ ?_ (update_self ..) ?_ ?_
    · intro y previous
      exact Option.some.inj ((serial.held i t copy held).symm.trans previous)
    · intro w there'
      exact Option.some.inj (there'.symm.trans there)
    · intro j other
      exact ⟨rfl, update_of_ne other _ _⟩
  | discard t i copy v held there =>
    refine serial.append ⟨i, copy, v⟩ ?_ (update_self ..) ?_ ?_
    · intro y previous
      exact Option.some.inj ((serial.held i t copy held).symm.trans previous)
    · intro w gone
      rw [update_self] at gone
      cases gone
    · intro j other
      exact ⟨update_of_ne other _ _, update_of_ne other _ _⟩

theorem run_serial (run : ReflTransGen Step start a) : Serial a :=
  run.invariant Serial start_serial fun _ _ serial step => serial.step step

end Tokens
