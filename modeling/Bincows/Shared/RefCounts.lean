import Bincows.Shared.Keyed

set_option autoImplicit false

namespace Keyed

open List

variable {R H : Type}

structure Counted (id count : R -> Nat) (target : H -> Nat) (records : List R) (refs : List H) : Prop where
  ids : (records.map id).Nodup
  counts : ∀ e ∈ records, count e = refs.countP fun x => target x = id e
  positive : ∀ e ∈ records, 0 < count e
  live : ∀ x ∈ refs, ∃ e ∈ records, id e = target x

namespace Counted

variable {id count : R -> Nat} {target key : H -> Nat} {records : List R} {refs : List H} {e : R}
  {x : H} {f : R -> R} {k : Nat}

theorem referenced (counted : Counted id count target records refs) (member : e ∈ records) : ∃ x ∈ refs, target x = id e := by
  have positive := counted.positive e member
  rw [counted.counts e member, countP_pos_iff] at positive
  obtain ⟨x, inside, same⟩ := positive
  exact ⟨x, inside, of_decide_eq_true same⟩

theorem mem_modify (ids : (records.map id).Nodup) {y : R} :
    y ∈ modify id k f records ↔ (y ∈ records ∧ id y ≠ k) ∨ ∃ e ∈ records, id e = k ∧ y = f e := by
  rw [modify_eq_map ids, mem_map]
  constructor
  · rintro ⟨e, member, rfl⟩
    split
    next same =>
      exact .inr ⟨e, member, same, rfl⟩
    next same =>
      exact .inl ⟨member, same⟩
  · rintro (⟨member, other⟩ | ⟨e, member, same, rfl⟩)
    · exact ⟨y, member, if_neg other⟩
    · exact ⟨e, member, if_pos same⟩

theorem forall_mem_modify (ids : (records.map id).Nodup) {P : R -> Prop} (old : ∀ e ∈ records, P e)
    (new : ∀ e ∈ records, P (f e)) : ∀ y ∈ modify id k f records, P y := by
  intro y member
  rcases (mem_modify ids).mp member with ⟨there, -⟩ | ⟨e, there, -, rfl⟩
  · exact old y there
  · exact new e there

section

variable (counted : Counted id count target records refs)
include counted

theorem adjust {refs' : List H} (keeps : ∀ e, id (f e) = id e)
    (counts : ∀ e ∈ records, id e = k -> count (f e) = refs'.countP (fun x => target x = k) ∧ 0 < count (f e))
    (others : ∀ j, j ≠ k -> refs'.countP (fun x => target x = j) = refs.countP fun x => target x = j)
    (live : ∀ x ∈ refs', ∃ e ∈ records, id e = target x) : Counted id count target (modify id k f records) refs' := by
  refine ⟨by rw [map_modify fun e same => (keeps e).trans same]; exact counted.ids, ?_, ?_, ?_⟩
  · intro y member
    rcases (mem_modify counted.ids).mp member with ⟨old, other⟩ | ⟨e, inside, same, rfl⟩
    · rw [others _ other]
      exact counted.counts y old
    · rw [keeps, same]
      exact (counts e inside same).1
  · intro y member
    rcases (mem_modify counted.ids).mp member with ⟨old, -⟩ | ⟨e, inside, same, rfl⟩
    · exact counted.positive y old
    · exact (counts e inside same).2
  · intro x member
    obtain ⟨e, inside, same⟩ := live x member
    have kept : id e ∈ (modify id k f records).map id := by
      rw [map_modify fun e same => (keeps e).trans same]
      exact mem_map_of_mem inside
    obtain ⟨y, there, equal⟩ := mem_map.mp kept
    exact ⟨y, there, equal.trans same⟩

theorem modify (keeps : ∀ e, id (f e) = id e)
    (same : ∀ e, count (f e) = count e) : Counted id count target (modify id k f records) refs := by
  refine counted.adjust keeps (fun e member here => ?_) (fun _ _ => rfl) counted.live
  rw [same, counted.counts e member, here]
  exact ⟨rfl, here ▸ counted.counts e member ▸ counted.positive e member⟩

theorem acquire (keeps : ∀ e, id (f e) = id e)
    (more : ∀ e, count (f e) = count e + 1) (member : e ∈ records) (here : target x = id e) :
    Counted id count target (Keyed.modify id (id e) f records) (refs ++ [x]) := by
  refine counted.adjust keeps (fun e' inside same => ?_) (fun j other => ?_)
    (forall_mem_concat counted.live ⟨e, member, here.symm⟩)
  · rw [more, counted.counts e' inside, same, countP_append]
    simp [here]
  · rw [countP_append]
    simp [here, Ne.symm other]

theorem insert (new : ∀ e' ∈ records, id e' ≠ id e)
    (one : count e = 1) (here : target x = id e) : Counted id count target (records ++ [e]) (refs ++ [x]) := by
  have unused : ∀ y ∈ refs, target y ≠ id e := by
    intro y inside
    obtain ⟨e', member, same⟩ := counted.live y inside
    exact same ▸ new e' member
  refine ⟨?_, ?_, ?_, ?_⟩
  · exact counted.ids.map_concat new
  · intro e' member
    rw [countP_append]
    rcases mem_concat.mp member with old | rfl
    · rw [counted.counts e' old]
      simp [here, Ne.symm (new e' old)]
    · rw [one]
      have none : refs.countP (fun y => target y = id e') = 0 :=
        countP_eq_zero.mpr fun y inside => by simpa using unused y inside
      simp [here, none]
  · exact forall_mem_concat counted.positive (one ▸ Nat.one_pos)
  · refine forall_mem_concat (fun y old => ?_) ⟨e, mem_concat_self, here.symm⟩
    obtain ⟨e', member, same⟩ := counted.live y old
    exact ⟨e', mem_append_left _ member, same⟩

theorem perm {records' : List R} (same : records.Perm records') : Counted id count target records' refs where
  ids := (same.map id).nodup_iff.mp counted.ids
  counts := fun e member => counted.counts e (same.mem_iff.mpr member)
  positive := fun e member => counted.positive e (same.mem_iff.mpr member)
  live := fun x inside => by
    obtain ⟨e, member, here⟩ := counted.live x inside
    exact ⟨e, same.mem_iff.mp member, here⟩

end

theorem countP_release (target : H -> Nat) (found : lookup key refs k = some x) (j : Nat) :
    refs.countP (fun y => target y = j) =
      (remove key k refs).countP (fun y => target y = j) + if target x = j then 1 else 0 := by
  simpa using countP_remove (fun y => decide (target y = j)) found

theorem release (counted : Counted id count target records refs) (keeps : ∀ e, id (f e) = id e)
    (less : ∀ e, count (f e) = count e - 1) (found : lookup key refs k = some x) (member : e ∈ records)
    (here : id e = target x) (several : 1 < count e) :
    Counted id count target (Keyed.modify id (id e) f records) (remove key k refs) := by
  refine counted.adjust keeps (fun e' inside same => ?_) (fun j other => ?_) fun y inside => ?_
  · have single : e' = e := unique counted.ids inside member same
    have total := countP_release target found (id e)
    rw [if_pos here.symm, ← counted.counts e member] at total
    rw [single, less]
    omega
  · have total := countP_release target found j
    rw [if_neg fun same => other (here.trans same).symm] at total
    exact total.symm
  · exact counted.live y ((remove_sublist k refs).subset inside)

theorem discard (counted : Counted id count target records refs) (found : lookup key refs k = some x) (member : e ∈ records)
    (here : id e = target x) (last : count e = 1) :
    Counted id count target (remove id (id e) records) (remove key k refs) := by
  have unused : ∀ y ∈ remove key k refs, target y ≠ id e := by
    have total := countP_release target found (id e)
    rw [if_pos here.symm, ← counted.counts e member, last] at total
    have none : (remove key k refs).countP (fun y => target y = id e) = 0 := by omega
    intro y inside
    simpa using countP_eq_zero.mp none y inside
  refine ⟨nodup_remove counted.ids, ?_, ?_, ?_⟩
  · intro e' inside
    obtain ⟨old, other⟩ := (mem_remove counted.ids).mp inside
    have total := countP_release target found (id e')
    rw [if_neg fun same => other (same.symm.trans here.symm)] at total
    rw [counted.counts e' old, total]
    rfl
  · exact fun e' inside => counted.positive e' ((mem_remove counted.ids).mp inside).1
  · intro y inside
    obtain ⟨e', old, same⟩ := counted.live y ((remove_sublist k refs).subset inside)
    exact ⟨e', (mem_remove counted.ids).mpr ⟨old, same ▸ unused y inside⟩, same⟩

end Counted

end Keyed
