import Mathlib.Tactic

set_option autoImplicit false

/-! `alloc_tid` over the ids of the threads of a process, in the order of the array. -/

namespace Bincows.Sched.ThreadIds

open List

def maxTid : Nat := 0xffff

def scan (ids : Nat × Nat) (tid : Nat) : Nat × Nat :=
  (if ids.1 ≤ tid then tid + 1 else ids.1, if tid = ids.2 then ids.2 + 1 else ids.2)

-- `pref` is the preferred id and `alt` the alternative.
def allocTid (threads : List Nat) : Nat :=
  let (pref, alt) := threads.foldl scan (1, 1)
  if pref ≤ maxTid then pref else if alt ≤ maxTid then alt else 0

def Allocates (threads : List Nat) (tid : Nat) : Prop :=
  (1 ≤ tid ∧ tid ≤ maxTid ∧ tid ∉ threads) ∨ (tid = 0 ∧ ∀ id, 1 ≤ id -> id ≤ maxTid -> id ∈ threads)

variable {threads : List Nat}

theorem scan_pref (threads : List Nat) (ids : Nat × Nat) :
    ids.1 ≤ (threads.foldl scan ids).1 ∧ (∀ t ∈ threads, t < (threads.foldl scan ids).1) ∧
      ((threads.foldl scan ids).1 = ids.1 ∨ ∃ t ∈ threads, (threads.foldl scan ids).1 = t + 1) := by
  induction threads generalizing ids with
  | nil => simp
  | cons t rest ih =>
    obtain ⟨above, all, last⟩ := ih (scan ids t)
    have first : ids.1 ≤ (scan ids t).1 ∧ t < (scan ids t).1 ∧ ((scan ids t).1 = ids.1 ∨ (scan ids t).1 = t + 1) := by
      simp only [scan]
      split <;> omega
    refine ⟨first.1.trans above, forall_mem_cons.mpr ⟨first.2.1.trans_le above, all⟩, ?_⟩
    rcases last with same | ⟨t', inside, found⟩
    · rcases first.2.2 with kept | moved
      · exact .inl (same.trans kept)
      · exact .inr ⟨t, mem_cons_self, same.trans moved⟩
    · exact .inr ⟨t', mem_cons_of_mem _ inside, found⟩

-- `alt` counts how far the ids from it on follow each other in the order of the array.
theorem scan_alt (threads : List Nat) (ids : Nat × Nat) :
    ∃ k, (threads.foldl scan ids).2 = ids.2 + k ∧ range' ids.2 k <+ threads ∧ ∀ j, range' ids.2 j <+ threads -> j ≤ k := by
  induction threads generalizing ids with
  | nil => exact ⟨0, rfl, .slnil, fun j inside => by simpa using inside⟩
  | cons t rest ih =>
    obtain ⟨k, found, inside, most⟩ := ih (scan ids t)
    by_cases here : t = ids.2
    · have next : (scan ids t).2 = ids.2 + 1 := if_pos here
      rw [next] at found inside most
      refine ⟨k + 1, by rw [foldl_cons, found]; omega, ?_, fun j there => ?_⟩
      · rw [range'_succ, here]
        exact inside.cons_cons _
      · cases j with
        | zero => exact Nat.zero_le _
        | succ j =>
          rw [range'_succ, here, cons_sublist_cons] at there
          exact Nat.succ_le_succ (most j there)
    · have next : (scan ids t).2 = ids.2 := if_neg here
      rw [next] at found inside most
      refine ⟨k, found, inside.cons _, fun j there => most j ?_⟩
      cases j with
      | zero => exact nil_sublist _
      | succ j =>
        rw [range'_succ] at there ⊢
        exact (sublist_cons_iff.mp there).resolve_right fun ⟨_, same, _⟩ => here (cons.inj same).1.symm

/-- `alloc_tid` returns an unused id exactly if the last id is unused, or the ids from 1 on that follow each other in the
order of the array end before an unused id. -/
theorem allocTid_iff (threads : List Nat) : Allocates threads (allocTid threads) ↔
    (∀ t ∈ threads, t < maxTid) ∨ ∃ k, range' 1 k <+ threads ∧ (maxTid ≤ k ∨ k + 1 ∉ threads) := by
  obtain ⟨first, above, last⟩ := scan_pref threads (1, 1)
  obtain ⟨k, found, inside, most⟩ := scan_alt threads (1, 1)
  have follow : (∃ j, range' 1 j <+ threads ∧ (maxTid ≤ j ∨ j + 1 ∉ threads)) ↔ maxTid ≤ k ∨ k + 1 ∉ threads := by
    refine ⟨fun ⟨j, there, ends⟩ => ?_, fun ends => ⟨k, inside, ends⟩⟩
    rcases ends with all | unused
    · exact .inl (all.trans (most j there))
    · rcases (most j there).eq_or_lt with rfl | more
      · exact .inr unused
      · exact absurd (inside.subset (mem_range'_1.mpr ⟨by omega, by omega⟩)) unused
  rw [follow, allocTid]
  generalize threads.foldl scan (1, 1) = ids at first above last found
  dsimp only at first found ⊢
  by_cases small : ids.1 ≤ maxTid
  · rw [if_pos small]
    exact iff_of_true (.inl ⟨first, small, fun used => (above _ used).false⟩)
      (.inl fun t used => (above t used).trans_le small)
  have full : ¬ ∀ t ∈ threads, t < maxTid := by
    intro below
    rcases last with same | ⟨t, used, same⟩
    · exact small (same.le.trans (by decide))
    · exact small (same.le.trans (below t used))
  rw [if_neg small, found, Nat.add_comm 1 k]
  simp only [full, false_or]
  split
  next fits =>
    constructor
    · rintro (⟨-, -, unused⟩ | ⟨impossible, -⟩)
      · exact .inr unused
      · omega
    · rintro (far | unused)
      · omega
      · exact .inl ⟨by omega, fits, unused⟩
  next fits =>
    refine iff_of_true (.inr ⟨rfl, fun id low high => ?_⟩) (.inl (by omega))
    exact inside.subset (mem_range'_1.mpr ⟨low, by omega⟩)

theorem allocTid_returns_used_id : [2, 1, maxTid].Nodup ∧
    (∀ t ∈ [2, 1, maxTid], 1 ≤ t ∧ t ≤ maxTid) ∧ allocTid [2, 1, maxTid] = 2 := by
  decide

end Bincows.Sched.ThreadIds
