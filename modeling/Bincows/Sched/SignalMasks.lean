import Bincows.Shared.Histories
import Mathlib.Tactic

set_option autoImplicit false

/-! The signal fields of one process over its signal setups, triggers, deliveries and returns. A
mask is the set of its bits. -/

namespace Bincows.Signals

open List Histories

abbrev Sigmask := Finset (Fin 32)

structure Process where
  ignMask : Sigmask
  blkMask : Sigmask
  sigPending : Sigmask
  sigCurrent : Option (Fin 32)

inductive Action where
  | setup (userHandler : Bool) (ignMask blkMask : Sigmask)
  | trigger (signal : Fin 32)
  | deliver (uninterruptible : Bool)
  | endOfSignal

def ffs (mask : Sigmask) : Option (Fin 32) := (finRange 32).find? (· ∈ mask)

def prepareProcessSignal (p : Process) (signal : Fin 32) : Process :=
  { p with sigCurrent := some signal, sigPending := p.sigPending.erase signal }

def processHandleSignal (p : Process) (uninterruptible : Bool) : Process :=
  if p.sigPending = ∅ ∨ p.sigCurrent ≠ none ∨ uninterruptible then p
  else (ffs p.sigPending).elim p (prepareProcessSignal p)

def perform (p : Process) : Action -> Process
  | .setup userHandler ignMask blkMask => if userHandler then { p with ignMask, blkMask } else p
  | .trigger signal => if signal ∈ p.ignMask then p else { p with sigPending := insert signal p.sigPending }
  | .deliver uninterruptible => processHandleSignal p uninterruptible
  | .endOfSignal => { p with sigCurrent := none }

def Started (p p' : Process) (signal : Fin 32) : Prop :=
  p.sigCurrent = none ∧ p'.sigCurrent = some signal

/-- What the masks are for. A start takes the pending mark, and a blocked signal does not stand in the way of another. -/
structure Respects (p : Process) (action : Action) (p' : Process) : Prop where
  blocked : ∀ s ∈ p.blkMask, ¬ Started p p' s ∧ (s ∈ p.sigPending -> s ∈ p'.sigPending)
  ignored : ∀ s ∈ p.ignMask, s ∈ p'.sigPending -> s ∈ p.sigPending
  delivered : action = .deliver false -> p.sigCurrent = none -> ¬ p.sigPending ⊆ p.blkMask ->
    ∃ s, Started p p' s ∧ s ∉ p.blkMask
  once : ∀ s, Started p p' s -> s ∈ p.sigPending ∧ s ∉ p'.sigPending

def Fine (p : Process) : Action -> Prop
  | .deliver false => p.sigCurrent = none -> ∀ s ∈ p.blkMask, ffs p.sigPending ≠ some s
  | _ => True

variable {p p' : Process} {action : Action}

theorem Respects.unstarted (current : p'.sigCurrent = p.sigCurrent ∨ p'.sigCurrent = none)
    (kept : p.sigPending ⊆ p'.sigPending) (ignored : ∀ s ∈ p.ignMask, s ∈ p'.sigPending -> s ∈ p.sigPending)
    (busy : action = .deliver false -> p.sigCurrent ≠ none ∨ p.sigPending = ∅) : Respects p action p' := by
  have never (s : Fin 32) : ¬ Started p p' s := by
    rintro ⟨idle, starts⟩
    simp [idle, starts] at current
  refine ⟨fun s _ => ⟨never s, @kept s⟩, ignored, fun deliver idle other => ?_, fun s starts => (never s starts).elim⟩
  simp [(busy deliver).resolve_left (not_not.mpr idle)] at other

theorem prepare_respects_iff (idle : p.sigCurrent = none) {which : Fin 32} (pending : which ∈ p.sigPending) :
    Respects p (.deliver false) (prepareProcessSignal p which) ↔ which ∉ p.blkMask := by
  have starts (s : Fin 32) : Started p (prepareProcessSignal p which) s ↔ s = which := by
    simp [Started, idle, prepareProcessSignal, eq_comm]
  refine ⟨fun respects blocked => (respects.blocked which blocked).1 ((starts which).mpr rfl), fun free => ?_⟩
  have other (s : Fin 32) (blocked : s ∈ p.blkMask) : s ≠ which := fun same => free (same ▸ blocked)
  refine ⟨fun s blocked => ?_, fun s _ => Finset.mem_of_mem_erase, fun _ _ _ =>
    ⟨which, (starts which).mpr rfl, free⟩, fun s started => ?_⟩
  · exact ⟨(other s blocked) ∘ (starts s).mp, Finset.mem_erase_of_ne_of_mem (other s blocked)⟩
  · obtain rfl := (starts s).mp started
    exact ⟨pending, Finset.notMem_erase s _⟩

theorem respects_iff (p : Process) (action : Action) : Respects p action (perform p action) ↔ Fine p action := by
  cases action with
  | setup userHandler ignMask blkMask =>
    cases userHandler <;> exact iff_of_true (.unstarted (.inl rfl) subset_rfl (fun _ _ => id) nofun) trivial
  | trigger signal =>
    refine iff_of_true ?_ trivial
    rw [perform]
    split
    · exact .unstarted (.inl rfl) subset_rfl (fun _ _ => id) nofun
    · rename_i raised
      refine .unstarted (.inl rfl) (Finset.subset_insert ..) (fun s ignored pending => ?_) nofun
      exact Finset.mem_of_mem_insert_of_ne pending fun same => raised (same ▸ ignored)
  | deliver uninterruptible =>
    rw [perform, processHandleSignal]
    split
    · rename_i stays
      cases uninterruptible with
      | true => exact iff_of_true (.unstarted (.inl rfl) subset_rfl (fun _ _ => id) nofun) trivial
      | false =>
        have quiet : p.sigCurrent ≠ none ∨ p.sigPending = ∅ := by simpa [or_comm] using stays
        refine iff_of_true (.unstarted (.inl rfl) subset_rfl (fun _ _ => id) fun _ => quiet) fun idle s _ => ?_
        rw [quiet.resolve_left (not_not.mpr idle)]
        exact fun found => by simpa using find?_some found
    · rename_i starts
      simp only [not_or, not_not, Bool.not_eq_true] at starts
      obtain ⟨some, idle, rfl⟩ := starts
      cases first : ffs p.sigPending with
      | none =>
        obtain ⟨s, pending⟩ := Finset.nonempty_iff_ne_empty.mpr some
        exact absurd pending (by simpa using find?_eq_none.mp first s (mem_finRange s))
      | some which =>
        rw [Option.elim_some, prepare_respects_iff idle (by simpa using find?_some first)]
        simp [Fine, idle, first]
  | endOfSignal => exact iff_of_true (.unstarted (.inr rfl) subset_rfl (fun _ _ => id) nofun) trivial

theorem masks_respected_iff (p : Process) (actions : List Action) :
    (∀ front action, front ++ [action] <+: actions ->
        Respects (after perform p front) action (after perform p (front ++ [action]))) ↔
      ∀ front action, front ++ [action] <+: actions -> Fine (after perform p front) action := by
  simp only [after_concat, respects_iff]

theorem blocked_signal_delivered :
    (after perform ⟨.univ, ∅, ∅, none⟩ [.setup true ∅ {0}, .trigger 0, .deliver false]).sigCurrent = some 0 := by
  decide

end Bincows.Signals
