import Bincows.Memory.PageMapping

set_option autoImplicit false

namespace Bincows.Paging

open List

abbrev Tree (s : State) : Prop := RadixTree.Distinct pointer s.memory s.pml4 4

-- No page table of `s` lives in `frame`.
def NotTable (s : State) (frame : BitVec 64) : Prop :=
  ∀ path entries, path.length < 4 -> walk s path ≠ some (frame, entries)

-- `physfree` takes `frame`.
def State.accepts (s : State) (frame : BitVec 64) : Bool := s.found frame && s.inUse frame

variable {s s' : State} {frame : BitVec 64} {count done : Nat}

theorem physfree_releases (unused : NotTable s frame) (accepted : s.accepts frame = true) :
    ∃ freed, physfree s frame = .ok freed ∧
      (∀ path : List Nat, path.length ≤ 4 -> walk freed path = walk s path) ∧
      ∀ other, other ≠ frame -> freed.accepts other = s.accepts other := by
  refine ⟨_, if_pos accepted, walk_zeroPages ?_, ?_⟩
  · intro other member
    obtain rfl := mem_singleton.mp member
    exact unused
  · intro other different
    simp only [State.accepts, Function.update_of_ne different]

theorem NotTable.congr (unused : NotTable s frame)
    (same : ∀ path : List Nat, path.length < 4 -> walk s' path = walk s path) : NotTable s' frame := by
  intro path entries short reached
  exact unused path entries short ((same path short).symm.trans reached)

/-- Each of these paths leads to a frame of its own, which holds no page table and which `physfree` takes. -/
structure Releasable (s : State) (paths : Nat -> List Nat) (count : Nat) : Prop where
  each : ∀ k < count, ∀ frame entries, walk s (paths k) = some (frame, entries) ->
    NotTable s frame ∧ s.accepts frame = true
  once : ∀ j < count, ∀ k < count, ∀ frame es es', walk s (paths j) = some (frame, es) ->
    walk s (paths k) = some (frame, es') -> j = k

def Kept (s s' : State) (paths : Nat -> List Nat) (done : Nat) : Prop :=
  ∀ frame, (∀ k < done, ∀ entries, walk s (paths k) ≠ some (frame, entries)) -> s'.accepts frame = s.accepts frame

-- What is left to release behind the first `done` paths.
theorem Releasable.advance {paths paths' : Nat -> List Nat} {total : Nat} (releasable : Releasable s paths total)
    (fits : done + count ≤ total) (later : ∀ k < count, walk s' (paths' k) = walk s (paths (done + k)))
    (upper : ∀ q : List Nat, q.length < 4 -> walk s' q = walk s q) (kept : Kept s s' paths done) :
    Releasable s' paths' count := by
  constructor
  · intro k inside frame entries there
    rw [later k inside] at there
    obtain ⟨unused, accepted⟩ := releasable.each (done + k) (by omega) frame entries there
    refine ⟨unused.congr upper, (kept frame fun j early es here => ?_).trans accepted⟩
    have same := releasable.once j (by omega) (done + k) (by omega) frame es entries here there
    omega
  · intro j insideJ k inside frame es es' here there
    rw [later j insideJ] at here
    rw [later k inside] at there
    have same := releasable.once (done + j) (by omega) (done + k) (by omega) frame es es' here there
    omega

variable {path : List Nat} {table : BitVec 64} {entries : List (BitVec 64)}

theorem unmapTable_clears (free : Bool) (last : path.length = 3) (count : Nat) :
    ∀ (s : State) (pti : Nat) (virtualAddr : BitVec 64), Tree s -> walk s path = some (table, entries) ->
      (∀ k < count, pti + k < 512 -> walk s ((pti + k) :: path) ≠ none) ->
      (free = true -> Releasable s (fun k => (pti + k) :: path) (min count (512 - pti))) ->
      ∃ s' done, done = min count (512 - pti) ∧
        unmapTable free table count s pti virtualAddr = .ok (s', count - done, virtualAddr + span done) ∧
        Tree s' ∧ Wrote path entries (fun _ => 0) pti done s s' ∧ Kept s s' (fun k => (pti + k) :: path) done := by
  induction count with
  | zero =>
    intro s pti virtualAddr tree _ _ _
    exact ⟨s, 0, by omega, by simp [unmapTable], tree, .nothing, fun _ _ => rfl⟩
  | succ count ih =>
    intro s pti virtualAddr tree reached mapped releasable
    by_cases inside : pti < 512
    · have present : presentEntry (s.memory table pti) = true := (present_iff reached).mpr (mapped 0 (by omega) (by omega))
      have first := walk_present reached present
      -- With or without the release of the page, the walks are those of `s`.
      obtain ⟨freed, released, sameFreed, accepts⟩ :
          ∃ freed, (if free then physfree s (extractPointer (s.memory table pti)) else .ok s) = .ok freed ∧
            (∀ q : List Nat, q.length ≤ 4 -> walk freed q = walk s q) ∧
            ∀ other, other ≠ extractPointer (s.memory table pti) -> freed.accepts other = s.accepts other := by
        cases free with
        | false => exact ⟨s, rfl, fun _ _ => rfl, fun _ _ => rfl⟩
        | true =>
          obtain ⟨unused, accepted⟩ := (releasable rfl).each 0 (by omega) _ _ first
          exact physfree_releases unused accepted
      have step : unmapTable free table (count + 1) s pti virtualAddr =
          unmapTable free table count (setEntry freed table pti 0) (pti + 1) (virtualAddr + 0x1000) := by
        rw [unmapTable, if_pos inside, if_pos present, released]
        rfl
      obtain ⟨tree', here, others⟩ := setEntry_writes last ((sameFreed path (by omega)).trans reached) pti 0
        (distinct_congr tree sameFreed)
      have same : ∀ q : List Nat, q.length ≤ 4 -> q ≠ pti :: path -> walk (setEntry freed table pti 0) q = walk s q :=
        fun q short different => (others q short different).trans (sameFreed q short)
      have upper : ∀ q : List Nat, q.length < 4 -> walk (setEntry freed table pti 0) q = walk s q := by
        intro q short
        refine same q (Nat.le_of_lt short) ?_
        rintro rfl
        simp only [length_cons] at short
        omega
      have later : ∀ k, walk (setEntry freed table pti 0) ((pti + 1 + k) :: path) = walk s ((pti + (k + 1)) :: path) := by
        intro k
        rw [same _ (by simp [last]) (by simp only [ne_eq, cons.injEq, and_true]; omega), Nat.add_assoc, Nat.add_comm 1 k]
      have keeps : Kept s (setEntry freed table pti 0) (fun k => (pti + k) :: path) 1 :=
        fun frame outside => accepts frame fun equal => outside 0 (by omega) _ (equal ▸ first)
      obtain ⟨s', done, amount, result, tree'', rest, kept⟩ :=
        ih _ (pti + 1) (virtualAddr + 0x1000) tree' ((upper path (by omega)).trans reached)
        (by
          intro k bounded below
          rw [later]
          exact mapped (k + 1) (by omega) (by omega))
        (by
          intro isFree
          refine (releasable isFree).advance (by omega) (fun k _ => ?_) upper keeps
          rw [later, Nat.add_comm 1 k])
      refine ⟨s', done + 1, by omega, ?_, tree'', .cons last here same rest, fun frame outside => ?_⟩
      · rw [step, result, advance_succ, Nat.add_sub_add_right]
      · refine (kept frame fun k bounded es there => ?_).trans
          (keeps frame fun k bounded => outside k (by omega))
        exact outside (k + 1) (by omega) es ((later k).symm.trans there)
    · refine ⟨s, 0, by omega, ?_, tree, .nothing, fun _ _ => rfl⟩
      rw [unmapTable, if_neg inside]
      simp

theorem getEntryOrPanic_follows {index : Nat} (reached : walk s path = some (table, entries))
    (mapped : walk s (index :: path) ≠ none) : ∃ entry, getEntryOrPanic s table index = .ok entry ∧
      walk s (index :: path) = some (extractPointer entry, entry :: entries) :=
  have present := (present_iff reached).mpr mapped
  ⟨s.memory table index, if_pos present, walk_present reached present⟩

theorem walk_tail {index : Nat} (mapped : walk s (index :: path) ≠ none) : walk s path ≠ none :=
  fun missing => mapped (RadixTree.walk_cons_none missing)

theorem getPageTableOrPanic_reaches (virtualAddr : BitVec 64) (mapped : walk s (indices (page virtualAddr)) ≠ none) :
    ∃ table entries, getPageTableOrPanic s virtualAddr = .ok table ∧
      walk s (tablePath (page virtualAddr)) = some (table, entries) := by
  have level2 := walk_tail mapped
  have level3 := walk_tail level2
  have level4 := walk_tail level3
  have root : walk s [] = some (s.pml4, []) := rfl
  obtain ⟨e4, result4, walk4⟩ := getEntryOrPanic_follows root level4
  obtain ⟨e3, result3, walk3⟩ := getEntryOrPanic_follows walk4 level3
  obtain ⟨e2, result2, walk2⟩ := getEntryOrPanic_follows walk3 level2
  refine ⟨extractPointer e2, _, ?_, walk2⟩
  rw [getPageTableOrPanic, pml4Offset_eq, pdptOffset_eq, pdOffset_eq, result4]
  show (getEntryOrPanic s (extractPointer e4) _ >>= _) = _
  rw [result3]
  show (getEntryOrPanic s (extractPointer e3) _ >>= _) = _
  rw [result2]
  rfl

structure Unmaps (s s' : State) (n count : Nat) : Prop where
  tree : Tree s'
  cleared : ∀ k < count, walk s' (indices (n + k)) = none
  others : ∀ q : List Nat, q.length ≤ 4 -> (∀ k < count, q ≠ indices (n + k)) -> walk s' q = walk s q

theorem unmapLoop_clears {free : Bool} (fuel : Nat) :
    ∀ (s : State) (virtualAddr : BitVec 64) (count : Nat), count ≤ fuel -> Tree s ->
      count ≤ 2 ^ 36 -> (∀ k < count, walk s (indices (page virtualAddr + k)) ≠ none) ->
      (free = true -> Releasable s (fun k => indices (page virtualAddr + k)) count) ->
      ∃ s', unmapLoop free fuel s virtualAddr count = .ok s' ∧ Unmaps s s' (page virtualAddr) count := by
  have nothing : ∀ (s : State) (n : Nat), Tree s -> Unmaps s s n 0 :=
    fun s n tree => ⟨tree, fun _ impossible => absurd impossible (by omega), fun _ _ _ => rfl⟩
  induction fuel with
  | zero =>
    intro s virtualAddr count bounded tree _ _ _
    obtain rfl : count = 0 := by omega
    exact ⟨s, rfl, nothing s _ tree⟩
  | succ fuel ih =>
    intro s virtualAddr count bounded tree small mapped releasable
    by_cases zero : count = 0
    · subst zero
      exact ⟨s, by simp [unmapLoop], nothing s _ tree⟩
    obtain ⟨table, entries, located, reached⟩ := getPageTableOrPanic_reaches virtualAddr (mapped 0 (by omega))
    obtain ⟨s1, done, amount, result, tree1, wrote, kept⟩ :=
      unmapTable_clears free rfl count s (page virtualAddr % 512) virtualAddr tree reached
        (by
          intro k inside below
          rw [← indices_within _ _ below]
          exact mapped k inside)
        (by
          intro isFree
          refine @Releasable.advance s s _ 0 _ _ count (releasable isFree) (by omega)
            (fun k inside => ?_) (fun _ _ => rfl) fun _ _ => rfl
          rw [Nat.zero_add, indices_within _ _ (by omega)])
    have next := page_advance virtualAddr done
    have within : ∀ k < done, indices (page virtualAddr + k) = (page virtualAddr % 512 + k) :: tablePath (page virtualAddr) :=
      fun k inside => indices_within _ _ (by omega)
    have same : ∀ q : List Nat, q.length ≤ 4 -> (∀ k < done, q ≠ indices (page virtualAddr + k)) -> walk s1 q = walk s q := by
      intro q short outside
      refine wrote.others q short ?_
      intro k inside
      rw [← within k inside]
      exact outside k inside
    have ahead : ∀ k < count - done, walk s1 (indices (page (virtualAddr + span done) + k)) =
        walk s (indices (page virtualAddr + (done + k))) := by
      intro k inside
      rw [indices_advance next, Nat.add_assoc]
      refine same _ (by simp [indices]) ?_
      intro j early equal
      rw [indices_eq_iff] at equal
      omega
    obtain ⟨s', result', unmaps⟩ := ih s1 (virtualAddr + span done) (count - done)
      (by omega) tree1 (by omega)
      (by
        intro k inside
        rw [ahead k inside]
        exact mapped (done + k) (by omega))
      (by
        intro isFree
        refine (releasable isFree).advance (by omega) ahead (fun path short => ?_) fun frame outside => kept frame ?_
        · refine same path (Nat.le_of_lt short) ?_
          rintro j _ rfl
          simp [indices] at short
        · intro k inside
          simpa only [within k inside] using outside k inside)
    refine ⟨s', ?_, unmaps.tree, ?_, ?_⟩
    · rw [unmapLoop, if_neg zero, located]
      show (unmapTable free table count s _ virtualAddr >>= _) = _
      rw [ptOffset_eq, result]
      exact result'
    · intro k inside
      by_cases already : k < done
      · rw [unmaps.others _ (by simp [indices]), within k already]
        · exact wrote.here k already
        · intro j later equal
          rw [indices_advance next, indices_eq_iff] at equal
          omega
      · have gone := unmaps.cleared (k - done) (by omega)
        rw [indices_advance next, Nat.add_assoc, Nat.add_sub_cancel' (by omega)] at gone
        exact gone
    · intro q short outside
      rw [unmaps.others q short, same q short]
      · exact fun k inside => outside k (by omega)
      · intro k inside
        rw [indices_advance next, Nat.add_assoc]
        exact outside (done + k) (by omega)

theorem outside_indices {n first count : Nat} (outside : ∀ i < count, n % 2 ^ 36 ≠ (first + i) % 2 ^ 36) :
    ∀ k < count, indices n ≠ indices (first + k) := by
  intro k inside same
  exact outside k inside ((indices_eq_iff _ _).mp same)

-- Empty tables and seventy free pages.
def emptyTables : State where
  memory := fun _ _ => 0
  pml4 := 0x1000
  buffer := []
  pool := (range 70).map (fun i => BitVec.ofNat 64 (0x100000 + i * 0x1000))
  found := fun _ => true
  inUse := fun _ => false
  allocPageTableRealloc := false

theorem emptyTables_walk (index : Nat) (path : List Nat) : walk emptyTables (index :: path) = none := by
  cases reached : walk emptyTables path with
  | none => exact RadixTree.walk_cons_none reached
  | some target =>
    have step : walk emptyTables (index :: path) = _ := RadixTree.walk_cons reached
    rw [step, show emptyTables.memory target.1 index = 0 from rfl, pointer_zero]
    rfl

theorem emptyTables_pool (member : frame ∈ emptyTables.buffer ++ emptyTables.pool) :
    ∃ i < 70, frame = BitVec.ofNat 64 (0x100000 + i * 0x1000) ∧ frame.toNat = 0x100000 + i * 0x1000 := by
  obtain ⟨i, inside, rfl⟩ := mem_map.mp (show frame ∈ emptyTables.pool from member)
  have bounded := mem_range.mp inside
  refine ⟨i, bounded, rfl, ?_⟩
  rw [BitVec.toNat_ofNat, Nat.mod_eq_of_lt (by omega)]

theorem emptyTables_good : Good emptyTables := by
  have root : ∀ path table entries, walk emptyTables path = some (table, entries) -> path = [] ∧ table = 0x1000 := by
    intro path table entries reached
    cases path with
    | nil =>
      cases reached
      exact ⟨rfl, rfl⟩
    | cons index rest =>
      rw [emptyTables_walk] at reached
      cases reached
  refine ⟨?_, by simp [emptyTables], ?_, ?_, ?_, by simp [emptyTables]⟩
  · intro p q table es fs _ _ walkP walkQ
    rw [(root p table es walkP).1, (root q table fs walkQ).1]
  · intro frame member path entries _ reached
    obtain ⟨-, rfl⟩ := root path frame entries reached
    obtain ⟨i, -, -, value⟩ := emptyTables_pool member
    have small : (0x1000 : BitVec 64).toNat = 0x1000 := rfl
    omega
  · refine Nodup.map_on ?_ nodup_range
    intro i inside j insideJ same
    have first := mem_range.mp inside
    have second := mem_range.mp insideJ
    have values := congrArg BitVec.toNat same
    rw [BitVec.toNat_ofNat, BitVec.toNat_ofNat] at values
    omega
  · intro frame member
    obtain ⟨i, bounded, -, value⟩ := emptyTables_pool member
    exact canonical_of_lt ((aligned_iff frame).mpr (by omega)) (by omega)

theorem emptyTables_unmapped (n : Nat) : translation emptyTables n = none := by
  rw [translation, indices, emptyTables_walk]
  rfl

theorem emptyTables_resolves (physicalAddr virtualAddr flags : BitVec 64) (pNonzero : physicalAddr ≠ 0)
    (vNonzero : virtualAddr ≠ 0) (aligned : physicalAddr &&& 0xfff = 0)
    (wrong : (if presentEntry (flags ||| physicalAddr) then extractPointer (flags ||| physicalAddr)
      ||| (virtualAddr &&& 0xfff)
      else 0) ≠ physicalAddr) :
    ∃ s', mapPages emptyTables physicalAddr virtualAddr 1 flags = .ok s' ∧ getPhysAddr s' virtualAddr ≠ physicalAddr := by
  obtain ⟨s', result, maps⟩ := mapPages_maps physicalAddr virtualAddr 1 flags emptyTables_good pNonzero vNonzero
    aligned (by decide) (by decide) (fun i _ => emptyTables_unmapped _)
  obtain ⟨entries, reached⟩ := maps.mapped 0 (by decide)
  have first : physicalAddr + BitVec.ofNat 64 (0 * 0x1000) = physicalAddr := BitVec.add_zero _
  rw [first, Nat.add_zero] at reached
  refine ⟨s', result, Eq.trans_ne ?_ wrong⟩
  rw [getPhysAddr_eq, reached, leaf, pointer]
  cases presentEntry (flags ||| physicalAddr) <;> rfl

-- The page table at 0x5000 maps itself at 0x400000 and the page 0x9000 behind it.
def selfMapped : State where
  memory := fun table index =>
    if table = 0x2000 ∧ index = 0 then 0x3007
    else if table = 0x3000 ∧ index = 0 then 0x4007
    else if table = 0x4000 ∧ index = 2 then 0x5007
    else if table = 0x5000 ∧ index = 0 then 0x5003
    else if table = 0x5000 ∧ index = 1 then 0x9003
    else 0
  pml4 := 0x2000
  buffer := []
  pool := []
  found := fun _ => true
  inUse := fun page => page = 0x5000
  allocPageTableRealloc := false

end Bincows.Paging
