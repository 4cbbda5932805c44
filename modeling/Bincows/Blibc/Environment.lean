import Mathlib.Data.List.TakeWhile
import Bincows.Shared.Histories

set_option autoImplicit false

/-! The environment of `stdlib.c` over the strings of `__environ`, without their terminators. -/

namespace Bincows.Environment

open Histories Function List

abbrev Str := List Char

def nul : Char := '\x00'

def strncmpEq : Nat -> Str -> Str -> Bool
  | 0, _, _ => true
  | _ + 1, [], [] => true
  | n + 1, a :: s, b :: t => a == b && strncmpEq n s t
  | _ + 1, _, _ => false

def nameOf (string : Str) : Str := string.takeWhile (· ≠ '=')

def replaceOrAdd (string : Str) (n : Nat) : List Str -> List Str
  | [] => [string]
  | p :: rest => if strncmpEq n string p then string :: rest else p :: replaceOrAdd string n rest

def putenv (env : List Str) (string : Str) : List Str :=
  if '=' ∈ string then replaceOrAdd string ((nameOf string).length + 1) env else env

/-- `none` for `NULL`, `some none` for a pointer behind the terminator. -/
def getenv (env : List Str) (name : Str) : Option (Option Str) :=
  (env.find? fun p => strncmpEq name.length name p).map fun p =>
    if name.length < p.length then some (p.drop (name.length + 1)) else none

def setenv (env : List Str) (name value : Str) (overwrite : Bool) : List Str :=
  if overwrite = false ∧ (getenv env name).isSome then env else putenv env (name ++ '=' :: value)

/-- The loop of `unsetenv` moves the value down over itself; `behind` is what lies behind its terminator. -/
def shift (l : Nat) (value behind : Str) : Str :=
  (((value ++ nul :: behind).drop l).take value.length).takeWhile (· ≠ nul)

def unsetenv (name behind : Str) : List Str -> List Str
  | [] => []
  | p :: rest =>
    let l := name.length + 1
    if strncmpEq name.length name p then (p.take l ++ shift l (p.drop l) behind) :: rest else p :: unsetenv name behind rest

inductive Call where
  | putenv (string : Str)
  | setenv (name value : Str) (overwrite : Bool)
  | unsetenv (name behind : Str)

def perform (env : List Str) : Call -> List Str
  | .putenv string => putenv env string
  | .setenv name value overwrite => setenv env name value overwrite
  | .unsetenv name behind => unsetenv name behind env

def record (latest : Str -> Option Str) : Call -> Str -> Option Str
  | .putenv string =>
    if '=' ∈ string then update latest (nameOf string) (some (string.drop ((nameOf string).length + 1))) else latest
  | .setenv name value overwrite =>
    if overwrite = false ∧ (latest name).isSome then latest else update latest name (some value)
  | .unsetenv name _ => update latest name none

def Clear (env : List Str) (name : Str) : Prop :=
  ∀ p, (env.find? fun p => strncmpEq name.length name p) = some p -> '=' ∉ name ∧
    name ++ ['='] <+: p

def Careful (env : List Str) : Call -> Prop
  | .putenv _ => True
  | .setenv name _ overwrite => '=' ∉ name ∧ (overwrite = false -> Clear env name)
  | .unsetenv name _ => ∀ p ∈ env, ¬ name <+: p

def CarefulRun : List Str -> List Call -> Prop
  | _, [] => True
  | env, call :: rest => Careful env call ∧ CarefulRun (perform env call) rest

section names

variable {name v p : Str}

theorem strncmpEq_iff (s r t : Str) : strncmpEq s.length (s ++ r) t = true ↔ s <+: t := by
  induction s generalizing t with
  | nil => simp [strncmpEq]
  | cons a s ih =>
    cases t with
    | nil => simp [strncmpEq]
    | cons b t => simp [strncmpEq, ih, cons_prefix_cons]

theorem starts_iff : strncmpEq name.length name p = true ↔ name <+: p := by
  have starts := strncmpEq_iff name [] p
  rwa [append_nil] at starts

theorem nameOf_append (clean : '=' ∉ name) : nameOf (name ++ '=' :: v) = name := by
  have all : ∀ c ∈ name, decide (c ≠ '=') = true := by
    intro c member
    exact decide_eq_true fun same => clean (same ▸ member)
  rw [nameOf, takeWhile_append_of_pos all, takeWhile_cons_of_neg (by simp), append_nil]

def Names (name p : Str) : Prop := '=' ∈ p ∧ nameOf p = name

instance (name p : Str) : Decidable (Names name p) := inferInstanceAs (Decidable (_ ∧ _))

theorem prefix_iff (clean : '=' ∉ name) : name ++ ['='] <+: p ↔ Names name p := by
  constructor
  · rintro ⟨rest, rfl⟩
    rw [append_assoc]
    exact ⟨by simp, nameOf_append clean⟩
  · rintro ⟨member, rfl⟩
    obtain ⟨front, rest, rfl, noSign⟩ := eq_append_cons_of_mem member
    rw [nameOf_append noSign]
    exact ⟨rest, by simp⟩

theorem Names.starts (names : Names name p) : name <+: p := names.2 ▸ takeWhile_prefix _

theorem sets_iff {string : Str} (sets : '=' ∈ string) :
    strncmpEq ((nameOf string).length + 1) string p = true ↔ Names (nameOf string) p := by
  obtain ⟨front, rest, rfl, clean⟩ := eq_append_cons_of_mem sets
  have starts := strncmpEq_iff (front ++ ['=']) rest p
  rw [append_assoc, length_append, prefix_iff clean] at starts
  rwa [nameOf_append clean]

end names

section values

variable {env : List Str} {name : Str}

def valueOf (env : List Str) (name : Str) : Option Str :=
  (env.find? fun p => Names name p).map fun p => p.drop (name.length + 1)

theorem putenv_value {string : Str} (sets : '=' ∈ string) :
    valueOf (putenv env string) = update (valueOf env) (nameOf string) (some (string.drop ((nameOf string).length + 1))) := by
  funext name
  rw [putenv, if_pos sets, update_apply]
  induction env with
  | nil => by_cases same : name = nameOf string <;> simp [valueOf, replaceOrAdd, Names, sets, same,
    eq_comm]
  | cons p rest ih =>
    rw [replaceOrAdd]
    by_cases found : strncmpEq ((nameOf string).length + 1) string p = true
    · obtain ⟨-, own⟩ := (sets_iff sets).mp found
      rw [if_pos found]
      by_cases same : name = nameOf string
      · simp [valueOf, Names, sets, same]
      · simp [valueOf, Names, own, same, Ne.symm same]
    rw [if_neg found]
    have other : ¬ Names (nameOf string) p := mt (sets_iff sets).mpr found
    by_cases here : Names name p
    · have different : name ≠ nameOf string := fun same => other (same ▸ here)
      simp [valueOf, here, different]
    · simpa [valueOf, here] using ih

theorem getenv_value (clear : Clear env name) : getenv env name = (valueOf env name).map some := by
  induction env with
  | nil => rfl
  | cons p rest ih =>
    by_cases starts : strncmpEq name.length name p = true
    · obtain ⟨clean, whole⟩ := clear p (by simp [starts])
      have longer : name.length < p.length := by
        have := whole.length_le
        rwa [length_append] at this
      simp [getenv, valueOf, starts, (prefix_iff clean).mp whole, longer]
    · have other : ¬ Names name p := fun names => starts (starts_iff.mpr names.starts)
      have later := ih fun q found => clear q (by simp [starts, found])
      simpa [getenv, valueOf, starts, other] using later

theorem unsetenv_missing {behind : Str} (missing : ∀ p ∈ env, ¬ name <+: p) :
    unsetenv name behind env = env ∧ valueOf env name = none := by
  induction env with
  | nil => exact ⟨rfl, rfl⟩
  | cons p rest ih =>
    have here := missing p mem_cons_self
    obtain ⟨same, none⟩ := ih fun q member => missing q (mem_cons_of_mem _ member)
    have other : ¬ Names name p := mt Names.starts here
    rw [unsetenv, if_neg (mt starts_iff.mp here), same]
    exact ⟨rfl, by simpa [valueOf, other] using none⟩

theorem perform_value {call : Call} (careful : Careful env call) :
    valueOf (perform env call) = record (valueOf env) call := by
  cases call with
  | putenv string =>
    rw [perform, record]
    split
    next sets => exact putenv_value sets
    next nothing => rw [putenv, if_neg nothing]
  | setenv name value overwrite =>
    have same : overwrite = false -> (getenv env name).isSome = (valueOf env name).isSome := fun keep => by
      rw [getenv_value (careful.2 keep), Option.isSome_map]
    have whole : valueOf (putenv env (name ++ '=' :: value)) = _ := putenv_value (by simp)
    rw [nameOf_append careful.1] at whole
    simp only [perform, record, setenv]
    by_cases kept : overwrite = false ∧ (valueOf env name).isSome
    · rw [if_pos kept, if_pos ⟨kept.1, (same kept.1).trans kept.2⟩]
    · rw [if_neg kept, if_neg fun both => kept ⟨both.1, (same both.1).symm.trans both.2⟩, whole]
      simp
  | unsetenv name behind =>
    obtain ⟨same, none⟩ : unsetenv name behind env = env ∧ _ := unsetenv_missing careful
    rw [perform, record, same, ← none, update_eq_self]

theorem run_value {calls : List Call} (careful : CarefulRun env calls) :
    valueOf (after perform env calls) = after record (valueOf env) calls := by
  induction calls generalizing env with
  | nil => rfl
  | cons call rest ih =>
    exact (ih careful.2).trans (congrArg (after record · rest) (perform_value careful.1))

end values

/-- After careful calls, a name that no string in front of its own starts with has the value that was set last. -/
theorem getenv_latest {calls : List Call} (careful : CarefulRun [] calls) {name : Str}
    (clear : Clear (after perform [] calls) name) :
    getenv (after perform [] calls) name = (after record (fun _ => none) calls name).map some := by
  rw [getenv_value clear, run_value careful]
  rfl

def someCalls : List Call :=
  [.setenv ['A'] ['x'] true, .putenv ['A', 'B', '=', 'y'], .setenv ['A'] ['z'] true]

theorem getenv_latest_some : getenv (after perform [] someCalls) ['A'] = some (some ['z']) := by
  have careful : CarefulRun [] someCalls :=
    ⟨⟨by decide, nofun⟩, trivial, ⟨by decide, nofun⟩, trivial⟩
  refine getenv_latest careful ?_
  intro p found
  cases found
  decide

def longerSet : List Call := [.setenv ['A', 'B'] ['y'] true]

def setAndUnset : List Call := [.setenv ['A'] ['x', 'y', 'z'] true, .unsetenv ['A'] []]

theorem environment_confused :
    (getenv (after perform [] longerSet) ['A'] = some (some ['=', 'y']) ∧
      after record (fun _ => none) longerSet ['A'] = none) ∧
      getenv (after perform [] setAndUnset) ['A'] = some (some ['z']) ∧
        after record (fun _ => none) setAndUnset ['A'] = none := by
  decide

end Bincows.Environment
