import Bincows.Memory.PhysicalSearch

set_option autoImplicit false

namespace Bincows.Pmm

open Function List

/-- `lists` holds the ranges of `members level` on list `level`. A listed range, other than the one
being moved, has a clear block of that level. -/
structure Listed (lists : Lists) (nRanges : Nat) (available : Nat -> Level -> Nat)
    (exempt : Nat -> Prop) (members : Level -> List Nat) : Prop where
  linked : ∀ level, Linked lists.next (lists.heads level) (members level)
  bounded : ∀ level, ∀ i ∈ members level, i < nRanges
  clear : ∀ level, ∀ i ∈ members level, ¬ exempt i -> available i level ≠ 0
  disjoint : ∀ level other, ∀ i ∈ members level, i ∈ members other -> level = other

variable {lists : Lists} {nRanges index : Nat} {available : Nat -> Level -> Nat}
  {exempt : Nat -> Prop} {members : Level -> List Nat}

theorem Listed.pop {rest : List Nat} (level : Level)
    (listed : Listed lists nRanges available exempt members) (top : members level = index :: rest) :
    Listed { lists with heads := update lists.heads level (lists.next index) } nRanges
        available exempt (update members level rest) ∧
      ∀ other, index ∉ update members level rest other := by
  have first := listed.linked level
  rw [top] at first
  have within : ∀ other, ∀ i ∈ update members level rest other, i ∈ members other := by
    refine (forall_update_iff members fun other nodes => ∀ i ∈ nodes, i ∈ members other).mpr ⟨?_, fun _ _ _ => id⟩
    simp +contextual [top]
  constructor
  · refine ⟨?_, fun other i member => listed.bounded other i (within other i member),
      fun other i member => listed.clear other i (within other i member),
      fun here there i member again => listed.disjoint here there i (within here i member) (within there i again)⟩
    intro other
    by_cases same : other = level
    · subst same
      simpa using first.2
    · simpa [update_of_ne same] using listed.linked other
  · intro other member
    have here := listed.disjoint other level index (within other index member) (by simp [top])
    subst here
    rw [update_self] at member
    exact (nodup_cons.mp first.nodup).1 member

theorem Listed.push
    (level : Level) (listed : Listed lists nRanges available exempt members) (absent : ∀ other, index ∉ members other)
    (bounded : index < nRanges) (allowed : ¬ exempt index -> available index level ≠ 0) :
    Listed { next := update lists.next index (lists.heads level)
             heads := update lists.heads level (some index) } nRanges available exempt
      (update members level (index :: members level)) := by
  have cases_of : ∀ other, ∀ i ∈ update members level (index :: members level) other,
      (i = index ∧ other = level) ∨ i ∈ members other := by
    refine (forall_update_iff members fun other nodes =>
      ∀ i ∈ nodes, (i = index ∧ other = level) ∨ i ∈ members other).mpr ⟨?_, fun _ _ _ => Or.inr⟩
    simp
  refine ⟨?_, ?_, ?_, ?_⟩
  · intro other
    by_cases same : other = level
    · subst same
      simpa using (listed.linked other).push (absent other)
    · simpa [update_of_ne same] using (listed.linked other).update_of_not_mem (absent other)
  · intro other i member
    rcases cases_of other i member with ⟨rfl, -⟩ | old
    · exact bounded
    · exact listed.bounded other i old
  · intro other i member kept
    rcases cases_of other i member with ⟨rfl, rfl⟩ | old
    · exact allowed kept
    · exact listed.clear other i old kept
  · intro here there i member again
    rcases cases_of here i member with ⟨rfl, rfl⟩ | old <;> rcases cases_of there i again with ⟨same, rfl⟩ | old'
    · rfl
    · exact absurd old' (absent there)
    · exact absurd (same ▸ old) (absent here)
    · exact listed.disjoint here there i old old'

variable {header : MRHeader}

theorem moveRegionIfFull_listed (current : available index = header.available) (bounded : index < nRanges) (level : Nat) :
    ∀ (lists : Lists) (members : Level -> List Nat) (rest : List Nat) (moved : Bool), level < 4 ->
      Listed lists nRanges available (· = index) members ->
      members (Fin.ofNat 4 level) = index :: rest ->
      ∃ members', Listed (moveRegionIfFull lists index header level moved).1 nRanges available (fun _ => False) members' := by
  have unchanged : ∀ (lists : Lists) (members : Level -> List Nat) (here : Level),
      Listed lists nRanges available (· = index) members -> index ∈ members here ->
      header.available here ≠ 0 -> Listed lists nRanges available (fun _ => False) members := by
    intro lists members here listed top notFull
    refine { listed with clear := fun other i member _ => ?_ }
    by_cases same : i = index
    · subst same
      obtain rfl := listed.disjoint other here i member top
      rwa [current]
    · exact listed.clear other i member same
  induction level with
  | zero =>
    intro lists members rest moved _ listed top
    rw [moveRegionIfFull]
    split
    next notFull =>
      exact ⟨members, unchanged lists members 0 listed (by simp [show members 0 = _ from top]) notFull⟩
    · obtain ⟨popped, absent⟩ := listed.pop 0 top
      exact ⟨_,
        { popped with clear := fun other i member _ => popped.clear other i member fun same => absent other (same ▸ member) }⟩
  | succ level ih =>
    intro lists members rest moved small listed top
    rw [moveRegionIfFull]
    have onTop : index ∈ members (Fin.ofNat 4 (level + 1)) := by
      rw [top]
      exact mem_cons_self
    split
    next notFull =>
      exact ⟨members, unchanged lists members _ listed onTop notFull⟩
    next notFull =>
      obtain ⟨popped, absent⟩ := listed.pop _ top
      have pushed := popped.push (Fin.ofNat 4 level) absent bounded (by simp)
      exact ih _ _ _ true (by omega) pushed (update_self ..)

/-- A table of ranges as `init_pmm` leaves it: sorted, disjoint, each with a header page and a body
of at most `MAX_SIZE - 1` pages. -/
structure Table (nRanges : Nat) (range : Nat -> MemoryRange) : Prop where
  aligned : ∀ i < nRanges, (range i).base % 0x1000 = 0
  nonempty : ∀ i < nRanges, 0 < (range i).length
  small : ∀ i < nRanges, (range i).length < maxSize
  sorted : ∀ i j, i < j -> j < nRanges -> (range i).pageAddr (range i).length ≤ (range j).base

/-- The allocator in step with the sets of used pages, while `pending` pages of the current request
are already discounted from the total. -/
structure Consistent (s : State) (used : Nat -> Finset Nat) (pending : Nat) : Prop where
  table : Table s.nRanges s.range
  represents : ∀ i < s.nRanges, Represents (s.header i) (s.range i).length (used i)
  total : s.totalAvailablePages + pending = ∑ i ∈ Finset.range s.nRanges, (s.header i).available 0
  lists : ∃ members, Listed { next := s.next, heads := s.mrLists } s.nRanges
    (fun i => (s.header i).available) (fun _ => False) members

-- The pages of range `i` among the taken `(range, page)` pairs.
def pagesOf (taken : List (Nat × Nat)) (i : Nat) : Finset Nat :=
  ((taken.filter (fun pair => pair.1 = i)).map Prod.snd).toFinset

theorem mem_pagesOf {taken : List (Nat × Nat)} {i page : Nat} : page ∈ pagesOf taken i ↔ (i, page) ∈ taken := by
  simp [pagesOf]

variable {level : Level}

theorem getMR_top {mrLists : Level -> Option Nat}
    (result : getMR mrLists = .ok (index, level)) : mrLists level = some index := by
  unfold getMR at result
  split at result <;> simp_all

theorem available_zero {length : Nat} {used : Finset Nat}
    (represents : Represents header length used) : header.available 0 + used.card = length := by
  have clear : (Finset.range (blocks length 0)).filter (fun block => ¬ BlockUsed used 0 block) =
      Finset.range length \ used := by
    have count : blocks length 0 = length := by simp [blocks, granularity]
    ext block
    simp [blockUsed_zero, count]
  rw [represents.counts 0, clearBlocks, clear, Finset.card_sdiff_add_card_eq_card, Finset.card_range]
  exact fun page member => Finset.mem_range.mpr (represents.inside page member)

theorem sum_available_update (header : Nat -> MRHeader) (bounded : index < nRanges) (new : MRHeader) :
    ∑ i ∈ Finset.range nRanges, (update header index new i).available 0 + (header index).available 0 =
      ∑ i ∈ Finset.range nRanges, (header i).available 0 + new.available 0 := by
  have here : index ∈ Finset.range nRanges := Finset.mem_range.mpr bounded
  have others : ∑ i ∈ (Finset.range nRanges).erase index, (update header index new i).available 0 =
      ∑ i ∈ (Finset.range nRanges).erase index, (header i).available 0 := by
    apply Finset.sum_congr rfl
    intro i outside
    rw [update_of_ne (Finset.ne_of_mem_erase outside)]
  rw [← Finset.add_sum_erase _ _ here, ← Finset.add_sum_erase _ _ here, others, update_self]
  omega

theorem Consistent.replace {s : State} {used : Nat -> Finset Nat} {now : Finset Nat}
    {pending total rest : Nat} {next : Nat -> Option Nat} {heads : Level -> Option Nat}
    (consistent : Consistent s used pending) (bounded : index < s.nRanges)
    (represents : Represents header (s.range index).length now)
    (balance : total + rest + now.card = s.totalAvailablePages + pending + (used index).card)
    (listed : ∃ members, Listed { next := next, heads := heads } s.nRanges
      (fun i => (update s.header index header i).available) (fun _ => False) members) :
    Consistent
      { s with
        header := update s.header index header
        next := next
        mrLists := heads
        totalAvailablePages := total }
      (update used index now) rest := by
  refine ⟨consistent.table, ?_, ?_, listed⟩
  · intro i inside
    by_cases same : i = index
    · subst same
      simpa using represents
    · simpa [update_of_ne same] using consistent.represents i inside
  have before := available_zero (consistent.represents index bounded)
  have after := available_zero represents
  have updated := sum_available_update s.header bounded header
  have sum := consistent.total
  show total + rest = ∑ i ∈ Finset.range s.nRanges, (update s.header index header i).available 0
  omega

structure Grants (s : State) (used : Nat -> Finset Nat) (size : Nat) (taken : List (Nat × Nat)) : Prop where
  length : taken.length = size
  distinct : taken.Nodup
  inside : ∀ i page, (i, page) ∈ taken -> i < s.nRanges ∧ page < (s.range i).length
  fresh : ∀ i page, (i, page) ∈ taken -> page ∉ used i

structure Serves (s : State) (used : Nat -> Finset Nat) (size : Nat) (taken : List (Nat × Nat))
    (s' : State) : Prop extends Grants s used size taken where
  consistent : Consistent s' (fun i => used i ∪ pagesOf taken i) 0
  sameCount : s'.nRanges = s.nRanges
  sameRange : s'.range = s.range

def takenAddrs (s : State) (taken : List (Nat × Nat)) : List Nat :=
  taken.map (fun pair => (s.range pair.1).pageAddr pair.2)

variable {used : Nat -> Finset Nat} {s : State} {size : Nat}

-- The progress of a request when the search turns to range `index`.
def State.request (s : State) (index size : Nat) (virtualAddr : BitVec 64) (callbacks : List (Nat × BitVec 64)) : Progress :=
  { header := s.header index, size, virtualAddr, callbacks, foundBlock := false }

theorem physallocLoop_turn (fuel : Nat) (virtualAddr : BitVec 64) (callbacks : List (Nat × BitVec 64))
    (consistent : Consistent s used size) (needed : size ≠ 0) (found : getMR s.mrLists = .ok (index, level)) :
    ∃ (p : Progress) (lists : Lists) (pages : List Nat), index < s.nRanges ∧ pages ≠ [] ∧
      Takes (s.range index) (used index) (s.request index size virtualAddr callbacks) pages p ∧
      let s' := { s with header := update s.header index p.header, next := lists.next, mrLists := lists.heads }
      Consistent s' (update used index (used index ∪ pages.toFinset)) p.size ∧
      physallocLoop (fuel + 1) s size virtualAddr callbacks = physallocLoop fuel s' p.size p.virtualAddr p.callbacks := by
  obtain ⟨members, listed⟩ := consistent.lists
  have fromTop : Linked s.next (some index) (members level) := by
    rw [← getMR_top found]
    exact listed.linked level
  obtain ⟨rest, onTop, -⟩ := Linked.some_iff.mp fromTop
  have member : index ∈ members level := by simp [onTop]
  have bounded := listed.bounded level index member
  have small := Nat.le_of_lt (consistent.table.small index bounded)
  have represents := consistent.represents index bounded
  obtain ⟨p, lists, pages, result, took, nothing, moved⟩ :=
    scanRange_takes small index level { next := s.next, heads := s.mrLists }
      (blocks (s.range index).length level + size + 1) 0
      (used index) (s.request index size virtualAddr callbacks) represents (Nat.pos_of_ne_zero needed) (by omega) (by omega)
      (by simp [UsedBelow])
  have taken : pages ≠ [] := by
    intro empty
    apply listed.clear level index member (by simp)
    rw [represents.counts level, clearBlocks_eq_zero]
    exact nothing empty
  refine ⟨p, lists, pages, bounded, taken, took, consistent.replace bounded took.represents ?_ ?_, ?_⟩
  · -- One range loses as many clear pages as the request still shrinks by.
    have grown : (used index ∪ pages.toFinset).card = (used index).card + pages.length := by
      rw [Finset.card_union_of_disjoint, toFinset_card_of_nodup took.distinct]
      rw [Finset.disjoint_right]
      exact fun page late => took.fresh page (mem_toFinset.mp late)
    have requested : p.size + pages.length = size := took.size
    omega
  · obtain rfl := moved taken
    have current : (fun i => (update s.header index p.header i).available) index = p.header.available := by
      simp
    have listed' : Listed { next := s.next, heads := s.mrLists } s.nRanges
        (fun i => (update s.header index p.header i).available) (· = index) members := by
      refine { listed with clear := fun other i inside different => ?_ }
      simpa [update_of_ne different] using listed.clear other i inside (by simp)
    exact moveRegionIfFull_listed current bounded level.val _ members rest false level.isLt listed'
      (by rw [Fin.ofNat_val_eq_self]; exact onTop)
  · have foundBlock : p.foundBlock = true := by
      rw [took.found]
      simp [taken]
    rw [physallocLoop, if_neg needed, found]
    show (scanRange index (s.range index) level _ 0 0 (s.request ..) _ >>= _) = _
    rw [result]
    exact if_pos foundBlock

theorem Consistent.congr_used {used' : Nat -> Finset Nat} {pending : Nat}
    (consistent : Consistent s used pending) (same : ∀ i, used' i = used i) :
    Consistent s used' pending := by
  rwa [show used' = used from funext same]

theorem physallocLoop_done (fuel : Nat) (virtualAddr : BitVec 64)
    (callbacks : List (Nat × BitVec 64)) (consistent : Consistent s used 0) :
    ∃ s' taken,
      physallocLoop fuel s 0 virtualAddr callbacks =
        .ok (s', callbacks ++ invocations virtualAddr (takenAddrs s taken)) ∧ Serves s used 0 taken s' := by
  refine ⟨s, [], ?_, ⟨rfl, nodup_nil, by simp, by simp⟩, consistent.congr_used ?_, rfl, rfl⟩
  · cases fuel <;> simp [physallocLoop, takenAddrs, invocations]
  · simp [pagesOf]

theorem physallocLoop_grants (fuel : Nat) :
    ∀ (s : State) (used : Nat -> Finset Nat) (size : Nat) (virtualAddr : BitVec 64)
      (callbacks : List (Nat × BitVec 64)), size ≤ fuel -> Consistent s used size ->
      physallocLoop fuel s size virtualAddr callbacks = .error .noRange ∨
      ∃ s' taken,
        physallocLoop fuel s size virtualAddr callbacks =
          .ok (s', callbacks ++ invocations virtualAddr (takenAddrs s taken)) ∧ Serves s used size taken s' := by
  induction fuel with
  | zero =>
    intro s used size virtualAddr callbacks bounded consistent
    obtain rfl : size = 0 := by omega
    exact Or.inr (physallocLoop_done 0 virtualAddr callbacks consistent)
  | succ fuel ih =>
    intro s used size virtualAddr callbacks bounded consistent
    by_cases finished : size = 0
    · subst finished
      exact Or.inr (physallocLoop_done _ virtualAddr callbacks consistent)
    cases found : getMR s.mrLists with
    | error fault =>
      left
      have cause : fault = .noRange := by
        unfold getMR at found
        split at found <;> simp_all
      rw [physallocLoop, if_neg finished, found, cause]
      rfl
    | ok top =>
      obtain ⟨index, level⟩ := top
      obtain ⟨p, lists, pages, inTable, nonempty, took, consistent', step⟩ :=
        physallocLoop_turn fuel virtualAddr callbacks consistent finished found
      have requested : p.size + pages.length = size := took.size
      have shrinks : pages.length ≠ 0 := fun empty => nonempty (length_eq_zero_iff.mp empty)
      rw [step]
      rcases ih _ _ p.size p.virtualAddr p.callbacks (by omega) consistent' with
        failed | ⟨s', later, result', serves⟩
      · exact Or.inl failed
      have here : ∀ i page, (i, page) ∈ pages.map (fun page => (index, page)) ↔ i = index ∧ page ∈ pages := by
        intro i page
        simp [and_comm, eq_comm]
      have grown : ∀ i page, page ∈ update used index (used index ∪ pages.toFinset) i ↔
          page ∈ used i ∨ (i = index ∧ page ∈ pages) := by
        intro i page
        by_cases same : i = index
        · subst same
          simp
        · simp [same]
      refine Or.inr ⟨s', pages.map (fun page => (index, page)) ++ later, ?_, ?_, ?_, serves.sameCount, serves.sameRange⟩
      · rw [result', took.callbacks, took.virtualAddr]
        simp only [takenAddrs, map_append, invocations_append, map_map, length_map, append_assoc]
        rfl
      · refine ⟨?_, ?_, ?_, ?_⟩
        · have := serves.length
          simp only [length_append, length_map]
          omega
        · refine List.Nodup.append (took.distinct.map (fun a b same => (Prod.mk.inj same).2)) serves.distinct ?_
          rintro ⟨i, page⟩ early late
          obtain ⟨rfl, member⟩ := (here i page).mp early
          exact serves.fresh _ _ late ((grown _ _).mpr (Or.inr ⟨rfl, member⟩))
        · intro i page member
          rcases mem_append.mp member with early | late
          · obtain ⟨rfl, inPages⟩ := (here i page).mp early
            exact ⟨inTable, took.represents.inside page (by simp [inPages])⟩
          · exact serves.inside i page late
        · intro i page member old
          rcases mem_append.mp member with early | late
          · obtain ⟨rfl, inPages⟩ := (here i page).mp early
            exact took.fresh page inPages old
          · exact serves.fresh i page late ((grown i page).mpr (Or.inl old))
      · refine serves.consistent.congr_used ?_
        intro i
        ext page
        simp only [Finset.mem_union, mem_pagesOf, mem_append, grown, here]
        tauto

end Bincows.Pmm
