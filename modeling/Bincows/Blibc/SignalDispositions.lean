import Bincows.Shared.Histories
import Mathlib.Tactic

set_option autoImplicit false

/-! `signal` of the C library, from `__signals_init` on. -/

namespace Bincows.Dispositions

open Histories Function

inductive Sighandler where
  | sigDfl
  | sigIgn
  | sigErr
  | sigTerminate
  | sigIgnore
  | user (function : Nat)
  deriving DecidableEq

def outOfRange (sig : Int) : Bool := sig < 0 ∨ sig ≥ 32

-- `DEFL_IGNMASK`.
def deflIgn (sig : Int) : Bool := sig ∈ [17, 18, 23, 28, 29]

def sigDflTable (sig : Int) : Sighandler := if deflIgn sig then .sigIgnore else .sigTerminate

-- The entry of `sig_handler_table` and the bit of `ign_mask`, which the process in the kernel gets with each change.
structure Slot where
  handler : Sighandler
  ign : Bool

def Slot.signal (sig : Int) (x : Slot) (handler : Sighandler) : Slot × Sighandler :=
  let old := if x.ign then .sigIgn else x.handler
  let old := if old = sigDflTable sig then .sigDfl else old
  if handler = old then (x, old)
  else
    match handler with
    | .sigDfl => ({ x with ign := deflIgn sig }, old)
    | .sigIgn => ({ x with ign := true }, old)
    | _ => ({ handler, ign := false }, old)

def signal (slots : Int -> Slot) (sig : Int) (handler : Sighandler) : (Int -> Slot) × Sighandler :=
  if outOfRange sig then (slots, .sigErr)
  else (update slots sig ((slots sig).signal sig handler).1, ((slots sig).signal sig handler).2)

inductive Disposition where
  | dfl
  | ign
  | user (function : Nat)
  deriving DecidableEq

def Disposition.handler : Disposition -> Sighandler
  | .dfl => .sigDfl
  | .ign => .sigIgn
  | .user f => .user f

-- On a signal the kernel ignores it, or `signal_handler` calls the function of the program or exits, which is `dfl` here.
def Slot.arrives (x : Slot) : Disposition :=
  if x.ign then .ign
  else
    match x.handler with
    | .user f => .user f
    | _ => .dfl

def Disposition.effect (sig : Int) (d : Disposition) : Disposition :=
  if d = .dfl ∧ deflIgn sig then .ign else d

structure Run where
  slots : Int -> Slot
  -- what the last call for each signal asked for
  asked : Int -> Disposition
  -- each call has returned the disposition before it
  answered : Bool

def perform (r : Run) (call : Int × Disposition) : Run :=
  let (slots, old) := signal r.slots call.1 call.2.handler
  if outOfRange call.1 then { r with slots, answered := r.answered && old = .sigErr }
  else { slots, asked := update r.asked call.1 call.2, answered := r.answered && old = (r.asked call.1).handler }

def signalsInit : Run := ⟨fun sig => ⟨sigDflTable sig, deflIgn sig⟩, fun _ => .dfl, true⟩

def Right (r : Run) : Prop :=
  r.answered = true ∧ ∀ sig, (r.slots sig).arrives = (r.asked sig).effect sig

def Fine (r : Run) (call : Int × Disposition) : Prop :=
  outOfRange call.1 = false -> (r.asked call.1 = .dfl -> deflIgn call.1 = false) ∧
    (call.2 = .dfl -> deflIgn call.1 = true ∨ (r.slots call.1).handler = .sigTerminate)

def Slot.Sound (sig : Int) (x : Slot) : Prop :=
  x.handler = sigDflTable sig ∨ ∃ f, x.handler = .user f

theorem Slot.signal_iff {sig : Int} {x : Slot} {a : Disposition} (d : Disposition)
    (sound : x.Sound sig) (right : x.arrives = a.effect sig) :
    (((x.signal sig d.handler).2 = a.handler ∧ (x.signal sig d.handler).1.arrives = d.effect sig) ↔
      (a = .dfl -> deflIgn sig = false) ∧ (d = .dfl -> deflIgn sig = true ∨ x.handler = .sigTerminate)) ∧
    (x.signal sig d.handler).1.Sound sig := by
  simp only [Slot.Sound, Slot.signal] at *
  cases a <;> cases d <;> grind [Slot.arrives, Disposition.effect, Disposition.handler, sigDflTable]

def Safe (r : Run) : Prop := Right r ∧ ∀ sig, (r.slots sig).Sound sig

theorem perform_iff {r : Run} (safe : Safe r) (call : Int × Disposition) :
    (Right (perform r call) -> Fine r call) ∧ (Fine r call -> Safe (perform r call)) := by
  obtain ⟨sig, d⟩ := call
  obtain ⟨⟨answered, right⟩, sound⟩ := safe
  cases range : outOfRange sig with
  | true => simp_all [perform, signal, Fine, Safe, Right]
  | false =>
    obtain ⟨same, still⟩ := Slot.signal_iff d (sound sig) (right sig)
    have next : perform r (sig, d) = ⟨update r.slots sig ((r.slots sig).signal sig d.handler).1, update r.asked sig d,
        decide (((r.slots sig).signal sig d.handler).2 = (r.asked sig).handler)⟩ := by
      simp [perform, signal, range, answered]
    rw [next]
    constructor
    · rintro ⟨answers, after⟩ _
      exact same.mp ⟨of_decide_eq_true answers, by simpa using after sig⟩
    · intro fine
      obtain ⟨old, now⟩ := same.mpr (fine range)
      refine ⟨⟨decide_eq_true old, fun n => ?_⟩, (forall_update_iff _ Slot.Sound).mpr ⟨still, fun n _ => sound n⟩⟩
      by_cases here : n = sig
      · subst here
        simpa using now
      · simpa [here] using right n

theorem dispositions_right_iff (calls : List (Int × Disposition)) :
    (∀ front, front <+: calls -> Right (after perform signalsInit front)) ↔
      ∀ front call, front ++ [call] <+: calls -> Fine (after perform signalsInit front) call := by
  have safe : Safe signalsInit := by
    refine ⟨⟨rfl, fun sig => ?_⟩, fun _ => .inl rfl⟩
    cases ignored : deflIgn sig <;> simp [signalsInit, Slot.arrives, sigDflTable, Disposition.effect, ignored]
  exact always_iff safe (fun _ => And.left) (fun _ call safe => (perform_iff safe call).1)
    fun _ call safe => (perform_iff safe call).2

theorem default_keeps_function :
    ((after perform signalsInit [(2, .user 7), (2, .dfl)]).slots 2).arrives = .user 7 := by
  rfl

end Bincows.Dispositions
