import Bincows.Shared.Lists

set_option autoImplicit false

/-! `Ensures x fault post`: `x` returns a value with `post`, or stops with a fault that `fault`
admits. `Exactly x cond post`: `x` returns exactly if `cond` holds, and then a value with `post`. -/

export Relation (ReflTransGen)

variable {S A B E L : Type} {step : S -> S -> Prop} {first last : S} {x : Except E A}
  {f : A -> Except E B} {a : A} {e : E}

theorem Relation.ReflTransGen.invariant (property : S -> Prop) (run : ReflTransGen step first last)
    (initial : property first) (preserved : ∀ s t, property s -> step s t -> property t) :
    property last := by
  induction run with
  | refl => exact initial
  | tail _ last ih => exact preserved _ _ ih last

theorem Relation.ReflTransGen.simulate {astep : A -> A -> Prop}
    (related : S -> A -> Prop) (run : ReflTransGen step first last) (initial : related first a)
    (simulates : ∀ s s' a, related s a -> step s s' -> ∃ a', ReflTransGen astep a a' ∧ related s' a') :
    ∃ a', ReflTransGen astep a a' ∧ related last a' := by
  induction run with
  | refl => exact ⟨a, .refl, initial⟩
  | tail _ next ih =>
    obtain ⟨b, before, here⟩ := ih
    obtain ⟨c, after, there⟩ := simulates _ _ b here next
    exact ⟨c, before.trans after, there⟩

theorem bind_eq_ok {b : B} :
    (x >>= f) = .ok b ↔ ∃ a, x = .ok a ∧ f a = .ok b := by
  cases x with
  | error e =>
    constructor
    · nofun
    · rintro ⟨a, impossible, -⟩
      cases impossible
  | ok a =>
    constructor
    · intro continues
      exact ⟨a, rfl, continues⟩
    · rintro ⟨a', same, continues⟩
      cases same
      exact continues

theorem Except.map_eq_ok {g : A -> B} {b : B} (mapped : x.map g = .ok b) : ∃ a, x = .ok a ∧ g a = b := by
  cases x with
  | error e => cases mapped
  | ok a => exact ⟨a, rfl, Except.ok.inj mapped⟩

theorem Relation.ReflTransGen.of_foldlM {exec : S -> L -> Except E S}
    (sound : ∀ s l t, exec s l = .ok t -> step s t) {labels : List L}
    (returns : labels.foldlM exec first = .ok last) : ReflTransGen step first last := by
  induction labels generalizing first with
  | nil =>
    cases returns
    exact .refl
  | cons label rest ih =>
    rw [List.foldlM_cons] at returns
    obtain ⟨middle, taken, continues⟩ := bind_eq_ok.mp returns
    exact .head (sound first label middle taken) (ih continues)

theorem Relation.ReflTransGen.of_guarded (allowed : S -> L -> Prop)
    [∀ s l, Decidable (allowed s l)] (exec : S -> L -> Except E S) (fault : E) (first : S) (labels : List L)
    (sound : ∀ s l t, allowed s l -> exec s l = .ok t -> step s t)
    (returns : labels.foldlM (fun s l => if allowed s l then exec s l else .error fault) first = .ok last) :
    ReflTransGen step first last := by
  refine .of_foldlM (fun s l t taken => ?_) returns
  split at taken
  case isTrue holds => exact sound s l t holds taken
  case isFalse => cases taken

def outputs {S L E R : Type} (exec : S -> L -> Except E (S × R)) : S -> List L -> List (Except E R)
  | _, [] => []
  | s, label :: rest =>
    match exec s label with
    | .ok (t, r) => .ok r :: outputs exec t rest
    | .error e => [.error e]

def Except.Ensures {E A : Type} (x : Except E A) (fault : E -> Prop) (post : A -> Prop) : Prop :=
  match x with
  | .ok a => post a
  | .error e => fault e

abbrev Except.Returns {E A : Type} (x : Except E A) (post : A -> Prop) : Prop :=
  x.Ensures (fun _ => False) post

namespace Except.Ensures

variable {fault fault' : E -> Prop} {post post' : A -> Prop} {after : B -> Prop}

theorem bind (first : x.Ensures fault post) (rest : ∀ a, post a -> (f a).Ensures fault after) :
    (x >>= f).Ensures fault after := by
  cases x with
  | ok a => exact rest a first
  | error e => exact first

theorem mono (ensures : x.Ensures fault post) (faults : ∀ e, fault e -> fault' e)
    (posts : ∀ a, post a -> post' a) : x.Ensures fault' post' := by
  cases x with
  | ok a => exact posts a ensures
  | error e => exact faults e ensures

theorem map {g : A -> B} (ensures : x.Ensures fault fun a => after (g a)) : (x.map g).Ensures fault after := by
  cases x with
  | ok a => exact ensures
  | error e => exact ensures

theorem ite {c : Prop} [Decidable c] {y : Except E A} (yes : c -> x.Ensures fault post)
    (no : ¬ c -> y.Ensures fault post) : (if c then x else y).Ensures fault post := by
  split
  · exact yes ‹c›
  · exact no ‹¬ c›

theorem and (first : x.Ensures fault post) (second : x.Ensures fault' post') :
    x.Ensures (fun e => fault e ∧ fault' e) fun a => post a ∧ post' a := by
  cases x with
  | ok a => exact ⟨first, second⟩
  | error e => exact ⟨first, second⟩

theorem ok (holds : post a) : (Except.ok a : Except E A).Ensures fault post := holds

theorem error (holds : fault e) : (Except.error e : Except E A).Ensures fault post := holds

variable (ensures : x.Ensures fault post)
include ensures

theorem returns (never : ∀ e, ¬ fault e) : ∃ a, x = .ok a ∧ post a := by
  cases x with
  | ok a => exact ⟨a, rfl, ensures⟩
  | error e => exact absurd ensures (never e)

theorem of_ok (result : x = .ok a) : post a := by
  subst result
  exact ensures

theorem of_error (result : x = .error e) : fault e := by
  subst result
  exact ensures

end Except.Ensures

def Except.Exactly {E A : Type} (x : Except E A) (cond : Prop) (post : A -> Prop) : Prop :=
  (cond -> ∃ a, x = .ok a) ∧ ∀ a, x = .ok a -> cond ∧ post a

namespace Except.Exactly

variable {cond cond' : Prop} {post post' : A -> Prop} {after : B -> Prop}

theorem ok (holds : cond) (here : post a) : (Except.ok a : Except E A).Exactly cond post := by
  refine ⟨fun _ => ⟨a, rfl⟩, fun a' same => ?_⟩
  cases same
  exact ⟨holds, here⟩

theorem error (fails : ¬ cond) : (Except.error e : Except E A).Exactly cond post :=
  ⟨fun holds => absurd holds fails, nofun⟩

theorem returns (exactly : x.Exactly cond post) (holds : cond) : ∃ a, x = .ok a ∧ post a := by
  obtain ⟨a, result⟩ := exactly.1 holds
  exact ⟨a, result, (exactly.2 a result).2⟩

theorem mono (exactly : x.Exactly cond post) (same : cond ↔ cond')
    (weaker : ∀ a, cond -> post a -> post' a) : x.Exactly cond' post' := by
  refine ⟨fun holds => exactly.1 (same.mpr holds), fun a result => ?_⟩
  obtain ⟨holds, here⟩ := exactly.2 a result
  exact ⟨same.mp holds, weaker a holds here⟩

theorem bind (first : x.Exactly cond post) (rest : ∀ a, cond -> post a -> (f a).Exactly cond' after) :
    (x >>= f).Exactly (cond ∧ cond') after := by
  constructor
  · rintro ⟨holds, holds'⟩
    obtain ⟨a, result, here⟩ := first.returns holds
    obtain ⟨b, result'⟩ := (rest a holds here).1 holds'
    exact ⟨b, bind_eq_ok.mpr ⟨a, result, result'⟩⟩
  · intro b both
    obtain ⟨a, result, result'⟩ := bind_eq_ok.mp both
    obtain ⟨holds, here⟩ := first.2 a result
    obtain ⟨holds', there⟩ := (rest a holds here).2 b result'
    exact ⟨⟨holds, holds'⟩, there⟩

theorem bind_total (first : x.Exactly cond post)
    (rest : ∀ a, cond -> post a -> ∃ b, f a = .ok b ∧ after b) : (x >>= f).Exactly cond after := by
  refine (first.bind fun a holds here => ?_).mono (iff_of_eq (and_true cond)) fun _ _ there => there
  obtain ⟨b, result, there⟩ := rest a holds here
  rw [result]
  exact .ok trivial there

theorem foldlM {exec : S -> L -> Except E S} {inv : S -> Prop} {fine : L -> Prop}
    (step : ∀ s l, inv s -> (exec s l).Exactly (fine l) inv) (start : inv first) (labels : List L) :
    (labels.foldlM exec first).Exactly (∀ l ∈ labels, fine l) inv := by
  induction labels generalizing first with
  | nil => exact .ok nofun start
  | cons label rest ih =>
    rw [List.foldlM_cons]
    refine ((step first label start).bind fun s _ here => ih here).mono ?_ fun _ _ post => post
    simp

end Except.Exactly
