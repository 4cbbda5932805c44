import Bincows.Shared.Tables

set_option autoImplicit false

namespace Bincows.ProcessIds

open Tables List

def kernelPid : BitVec 32 := 0

def maxPid : BitVec 32 := 0xffff

structure Process where
  pid : BitVec 32
  ppid : BitVec 32
  kernel : Bool
  deriving DecidableEq

structure Table where
  processes : List Process
  lastPid : BitVec 32
  deriving DecidableEq

def schedInit : Table :=
  { processes := [{ pid := kernelPid, ppid := kernelPid, kernel := true }], lastPid := kernelPid }

variable (t : Table) (pid ppid : BitVec 32)

def allocPid : Table × BitVec 32 :=
  let last := t.lastPid + 1
  ({ t with lastPid := last }, last &&& maxPid)

-- The loop goes on behind a match, so the last one is found.
def schedGetProcess : Option Process := t.processes.reverse.find? fun p => p.pid = pid

inductive Outcome where
  | badElf
  | noThread
  | created
  deriving DecidableEq

def schedCreateProcess (outcome : Outcome) : Table :=
  match schedGetProcess t ppid, outcome with
  | none, _ => t
  | some _, .badElf => t
  | some _, .noThread => (allocPid t).1
  | some parent, .created =>
    let (t, pid) := allocPid t
    { t with processes := t.processes ++ [{ pid, ppid := parent.pid, kernel := false }] }

def removeProcess : Table :=
  match t.processes.findIdx? fun p => p.pid = pid with
  | none => t
  | some i => { t with processes := swapRemove t.processes i }

inductive Action where
  | create (ppid : BitVec 32) (outcome : Outcome)
  | terminate (pid : BitVec 32)
  deriving DecidableEq

def perform : Action -> Table
  | .create ppid outcome => schedCreateProcess t ppid outcome
  | .terminate pid => if t.processes.any fun p => p.pid = pid ∧ p.kernel = false then removeProcess t pid else t

def run (actions : List Action) : Table := actions.foldl perform schedInit

structure Distinct : Prop where
  pids : (t.processes.map Process.pid).Nodup
  kernel : ∀ p ∈ t.processes, p.pid = kernelPid -> p.kernel = true
  found : ∀ p ∈ t.processes, schedGetProcess t p.pid = some p

def NextFree : Prop := (allocPid t).2 ≠ kernelPid ∧ ∀ p ∈ t.processes, p.pid ≠ (allocPid t).2

variable {t pid ppid}

theorem schedGetProcess_of_nodup (pids : (t.processes.map Process.pid).Nodup) {p : Process}
    (member : p ∈ t.processes) : schedGetProcess t p.pid = some p := by
  unfold schedGetProcess
  cases found : t.processes.reverse.find? fun q => q.pid = p.pid with
  | none =>
    have missing := find?_eq_none.mp found p (mem_reverse.mpr member)
    simp at missing
  | some q =>
    have same : q.pid = p.pid := by simpa using find?_some found
    have inside := mem_reverse.mp (mem_of_find?_eq_some found)
    rw [inj_on_of_nodup_map pids inside member same]

theorem Distinct.of_pids (pids : (t.processes.map Process.pid).Nodup)
    (kernel : ∀ p ∈ t.processes, p.pid = kernelPid -> p.kernel = true) : Distinct t :=
  ⟨pids, kernel, fun _ => schedGetProcess_of_nodup pids⟩

theorem schedInit_distinct : Distinct schedInit := .of_pids (by decide) (by decide)

theorem Distinct.remove (distinct : Distinct t) (pid : BitVec 32) : Distinct (removeProcess t pid) := by
  unfold removeProcess
  cases found : t.processes.findIdx? fun p => p.pid = pid with
  | none => exact distinct
  | some i =>
    obtain ⟨bound, -⟩ := findIdx?_eq_some_iff_getElem.mp found
    have there := getElem?_eq_getElem bound
    refine .of_pids (nodup_swapRemove Process.pid there distinct.pids).1 ?_
    exact fun p member => distinct.kernel p (mem_of_swapRemove there member)

theorem distinct_created {parent : Process} (distinct : Distinct t) (found : schedGetProcess t ppid = some parent) :
    Distinct (schedCreateProcess t ppid .created) ↔ NextFree t := by
  have result : schedCreateProcess t ppid .created =
      { processes := t.processes ++ [{ pid := (allocPid t).2, ppid := parent.pid, kernel := false }], lastPid := t.lastPid + 1 } := by
    unfold schedCreateProcess
    rw [found]
    rfl
  rw [result]
  constructor
  · intro after
    constructor
    · intro zero
      have isKernel := after.kernel _ mem_concat_self zero
      cases isKernel
    · intro p member same
      have pids := after.pids
      rw [map_append, nodup_append] at pids
      exact pids.2.2 _ (mem_map_of_mem member) _ (mem_singleton_self _) same
  · rintro ⟨nonzero, others⟩
    apply Distinct.of_pids
    · exact distinct.pids.map_concat others
    · exact forall_mem_concat distinct.kernel fun zero => absurd zero nonzero

theorem distinct_perform {action : Action} (distinct : Distinct t)
    (free : ∀ ppid, action = .create ppid .created -> (schedGetProcess t ppid).isSome ->
      NextFree t) : Distinct (perform t action) := by
  cases action with
  | terminate pid =>
    show Distinct (if t.processes.any fun p => p.pid = pid ∧ p.kernel = false then removeProcess t pid else t)
    split
    · exact distinct.remove pid
    · exact distinct
  | create ppid outcome =>
    cases found : schedGetProcess t ppid with
    | none =>
      have same : perform t (.create ppid outcome) = t := by
        simp only [perform, schedCreateProcess, found]
      rw [same]
      exact distinct
    | some parent =>
      cases outcome with
      | created => exact (distinct_created distinct found).mpr (free ppid rfl (by rw [found]; rfl))
      | badElf | noThread =>
        refine .of_pids ?_ ?_
        all_goals simp only [perform, schedCreateProcess, found]
        · exact distinct.pids
        · exact distinct.kernel

theorem run_concat (actions : List Action) (action : Action) : run (actions ++ [action]) = perform (run actions) action := by
  rw [run, foldl_append]
  rfl

/--
The ids are distinct after every part of a history just when each creation in it that adds a process takes an id that no
process has.
-/
theorem pids_distinct_iff (actions : List Action) :
    (∀ front, front <+: actions -> Distinct (run front)) ↔
      ∀ front ppid, front ++ [.create ppid .created] <+: actions ->
        (schedGetProcess (run front) ppid).isSome -> NextFree (run front) := by
  constructor
  · intro always front ppid part parent
    have before := always front ((prefix_append _ _).trans part)
    have after := always _ part
    obtain ⟨p, found⟩ := Option.isSome_iff_exists.mp parent
    rw [run_concat] at after
    exact (distinct_created before found).mp after
  · intro free front part
    induction front using reverseRecOn with
    | nil => exact schedInit_distinct
    | append_singleton front action ih =>
      rw [run_concat]
      refine distinct_perform (ih ((prefix_append _ _).trans part)) ?_
      rintro ppid rfl parent
      exact free front ppid part parent

def rounds : Nat -> List Action
  | 0 => []
  | n + 1 => rounds n ++ [.create kernelPid .created, .terminate (BitVec.ofNat 32 (n + 1))]

theorem create_terminate {pid last : BitVec 32} (next : (last + 1) &&& maxPid = pid) (user : pid ≠ kernelPid) :
    perform (perform { schedInit with lastPid := last } (.create kernelPid .created))
      (.terminate pid) = { schedInit with lastPid := last + 1 } := by
  have created : perform { schedInit with lastPid := last } (.create kernelPid .created) =
      { processes := [⟨kernelPid, kernelPid, true⟩, ⟨pid, kernelPid, false⟩], lastPid := last + 1 } := by
    rw [← next]
    rfl
  rw [created]
  simp [perform, removeProcess, swapRemove, schedInit, findIdx?_cons, user.symm]

theorem run_rounds {n : Nat} (small : n ≤ 65535) : run (rounds n) = { schedInit with lastPid := BitVec.ofNat 32 n } := by
  induction n with
  | zero => rfl
  | succ n ih =>
    have count : BitVec.ofNat 32 n + 1 = BitVec.ofNat 32 (n + 1) := by
      rw [BitVec.ofNat_add]
      rfl
    have low : BitVec.ofNat 32 (n + 1) &&& maxPid = BitVec.ofNat 32 (n + 1) := by
      apply BitVec.eq_of_toNat_eq
      rw [BitVec.toNat_and, BitVec.toNat_ofNat, Nat.mod_eq_of_lt (by omega)]
      exact (Nat.and_two_pow_sub_one_eq_mod _ 16).trans (Nat.mod_eq_of_lt (by omega))
    have user : BitVec.ofNat 32 (n + 1) ≠ kernelPid := by
      intro zero
      have value := congrArg BitVec.toNat zero
      rw [BitVec.toNat_ofNat, Nat.mod_eq_of_lt (by omega)] at value
      simp [kernelPid] at value
    rw [rounds, run, foldl_append, ← run, ih (by omega), foldl_cons, foldl_cons, foldl_nil,
      create_terminate (by rw [count, low]) user, count]

theorem pid_zero_again :
    (run (rounds 65535 ++ [.create kernelPid .created])).processes =
        [⟨kernelPid, kernelPid, true⟩, ⟨kernelPid, kernelPid, false⟩] ∧
      ¬ Distinct (run (rounds 65535 ++ [.create kernelPid .created])) := by
  have processes : (run (rounds 65535 ++ [.create kernelPid .created])).processes =
      [⟨kernelPid, kernelPid, true⟩, ⟨kernelPid, kernelPid, false⟩] := by
    rw [run_concat, run_rounds (Nat.le_refl _)]
    decide
  refine ⟨processes, fun distinct => ?_⟩
  have pids := distinct.pids
  rw [processes] at pids
  exact absurd pids (by decide)

end Bincows.ProcessIds
