import Bincows.Memory.PhysicalCheck

set_option autoImplicit false

namespace Bincows.Pmm

open Function List

variable {nRanges i j : Nat} {range : Nat -> MemoryRange}

theorem Table.before (table : Table nRanges range) (later : i < j) (inside : j < nRanges) :
    (range i).base + ((range i).length + 1) * 0x1000 ≤ (range j).base :=
  table.sorted i j later inside

variable {addr : Nat}

theorem Table.position (table : Table nRanges range) (insideI : i < nRanges) (insideJ : j < nRanges)
    (aboveI : (range i).base < addr) (belowI : addr ≤ (range i).base + (range i).length * 0x1000)
    (aboveJ : (range j).base < addr) (belowJ : addr ≤ (range j).base + (range j).length * 0x1000) :
    i = j := by
  rcases Nat.lt_trichotomy i j with first | same | second
  · have := table.before first insideJ
    omega
  · exact same
  · have := table.before second insideI
    omega

variable {page : Nat}

theorem pageAddr_bounds {range : MemoryRange} (inside : page < range.length) :
    range.base < range.pageAddr page ∧ range.pageAddr page ≤ range.base + range.length * 0x1000 := by
  rw [MemoryRange.pageAddr]
  omega

theorem pageAddr_injective {other : Nat} (table : Table nRanges range) (insideI : i < nRanges)
    (insideJ : j < nRanges) (pageI : page < (range i).length) (pageJ : other < (range j).length)
    (same : (range i).pageAddr page = (range j).pageAddr other) : i = j ∧ page = other := by
  obtain ⟨aboveI, belowI⟩ := pageAddr_bounds pageI
  obtain ⟨aboveJ, belowJ⟩ := pageAddr_bounds pageJ
  obtain rfl := table.position insideI insideJ aboveI belowI (by omega) (by omega)
  refine ⟨rfl, ?_⟩
  simp only [MemoryRange.pageAddr] at same
  omega

variable {s : State}

theorem Table.base_le (table : Table nRanges range) (earlier : i ≤ j) (inside : j < nRanges) :
    (range i).base ≤ (range j).base := by
  rcases Nat.lt_or_eq_of_le earlier with later | rfl
  · have := table.before later inside
    omega
  · exact le_rfl

theorem searchRange_reaches (table : Table s.nRanges s.range) (above : (s.range i).base < addr)
    (below : addr ≤ (s.range i).base + (s.range i).length * 0x1000) (fuel : Nat) :
    ∀ a b, a ≤ i -> i < b -> b < s.nRanges -> b - a < fuel -> searchRange s addr fuel a b = .ok i := by
  induction fuel with
  | zero =>
    intro a b _ _ _ impossible
    omega
  | succ fuel ih =>
    intro a b first last inside enough
    rw [searchRange]
    by_cases here : a = i
    · subst here
      rw [if_neg (by omega), if_neg (by omega)]
    have past := table.before (show a < i by omega) (by omega)
    rw [if_pos (by omega)]
    by_cases left : addr < (s.range ((a + b) / 2)).base
    · have right : i < (a + b) / 2 := by
        by_contra before
        have := table.base_le (Nat.le_of_not_lt before) (by omega)
        omega
      simp only [left, if_true]
      exact ih a _ first right (by omega) (by omega)
    · have middle : (a + b) / 2 ≤ i := by
        by_contra after
        have := table.before (Nat.lt_of_not_le after) (by omega)
        omega
      simp only [left, if_false]
      exact ih _ b middle last inside (by omega)

-- The bound tested for the last range leaves its last page out.
theorem getMemoryRange_page (table : Table s.nRanges s.range) (inTable : i < s.nRanges)
    (inside : page < (s.range i).length) :
    getMemoryRange s ((s.range i).pageAddr page) =
      if i + 1 = s.nRanges ∧ page + 1 = (s.range i).length then .error .outsideRanges else .ok i := by
  obtain ⟨above, below⟩ := pageAddr_bounds inside
  by_cases last : i + 1 = s.nRanges
  · have index : s.nRanges - 1 = i := by omega
    simp only [getMemoryRange, index, if_pos above, last, true_and]
    by_cases final : page + 1 = (s.range i).length
    · rw [if_neg (by simp [MemoryRange.pageAddr, final]), if_pos final]
    · rw [if_pos (by rw [MemoryRange.pageAddr]; omega), if_neg final]
  have ahead := table.before (show i < s.nRanges - 1 by omega) (by omega)
  have start := table.base_le (Nat.zero_le i) inTable
  simp only [getMemoryRange, last, false_and, if_false]
  rw [if_neg (by omega), if_pos (by omega)]
  exact searchRange_reaches table above below _ _ _ (Nat.zero_le i) (by omega) (by omega) (by omega)

theorem clearBlocks_erase_le (used : Finset Nat) (page length : Nat) (level : Level) :
    clearBlocks used length level ≤ clearBlocks (used.erase page) length level := by
  apply Finset.card_le_card
  intro block member
  obtain ⟨inside, clear⟩ := Finset.mem_filter.mp member
  refine Finset.mem_filter.mpr ⟨inside, ?_⟩
  rintro ⟨other, kept, same⟩
  exact clear ⟨other, Finset.mem_of_mem_erase kept, same⟩

variable {s' : State} {used : Nat -> Finset Nat}

theorem physfree_page (consistent : Consistent s used 0) (inTable : i < s.nRanges)
    (member : page ∈ used i) (notLast : ¬ (i + 1 = s.nRanges ∧ page + 1 = (s.range i).length)) :
    ∃ header, Represents header (s.range i).length ((used i).erase page) ∧
      physfree s ((s.range i).pageAddr page) = .ok
        { s with header := update s.header i header, totalAvailablePages := s.totalAvailablePages + 1 } := by
  have represents := consistent.represents i inTable
  have base := consistent.table.aligned i inTable
  obtain ⟨header, freed, represents'⟩ :=
    freePageBitmaps_represents represents (Nat.le_of_lt (consistent.table.small i inTable)) member
  have aligned : (s.range i).pageAddr page % 0x1000 = 0 := by
    rw [MemoryRange.pageAddr]
    omega
  have position : ((s.range i).pageAddr page - (s.range i).base) / 0x1000 - 1 = page := by
    rw [MemoryRange.pageAddr]
    omega
  refine ⟨header, represents', ?_⟩
  rw [physfree, if_neg (not_not_intro aligned),
    getMemoryRange_page consistent.table inTable (represents.inside page member), if_neg notLast]
  change (freePageBitmaps (s.header i) (_ / 0x1000 - 1) >>= _) = _
  rw [position, freed]
  rfl

theorem physfree_releases (consistent : Consistent s used 0) (inTable : i < s.nRanges)
    (member : page ∈ used i) (result : physfree s ((s.range i).pageAddr page) = .ok s') :
    Consistent s' (update used i ((used i).erase page)) 0 ∧ s'.nRanges = s.nRanges ∧ s'.range = s.range := by
  have represents := consistent.represents i inTable
  have notLast : ¬ (i + 1 = s.nRanges ∧ page + 1 = (s.range i).length) := by
    intro last
    rw [physfree, getMemoryRange_page consistent.table inTable (represents.inside page member), if_pos last] at result
    split_ifs at result
    cases result
  obtain ⟨header, represents', freed⟩ := physfree_page consistent inTable member notLast
  obtain rfl := Except.ok.inj (freed.symm.trans result)
  refine ⟨consistent.replace inTable represents' ?_ ?_, rfl, rfl⟩
  · have erased := Finset.card_erase_add_one member
    omega
  obtain ⟨members, listed⟩ := consistent.lists
  refine ⟨members, { listed with clear := fun level j onList _ => ?_ }⟩
  have clear := listed.clear level j onList (by simp)
  by_cases same : j = i
  · subst same
    -- Giving a page back only adds clear blocks, so the list the range is on stays right.
    have grows := clearBlocks_erase_le (used j) page (s.range j).length level
    rw [← represents.counts level, ← represents'.counts level] at grows
    simp only [update_self]
    omega
  · simpa [same] using clear

theorem physalloc_grants {size : Nat} {virtualAddr : BitVec 64}
    {callbacks : List (Nat × BitVec 64)} (consistent : Consistent s used 0)
    (result : physalloc s size virtualAddr = .ok (s', callbacks)) :
    ∃ taken, callbacks = invocations virtualAddr (takenAddrs s taken) ∧ Serves s used size taken s' := by
  rw [physalloc] at result
  split_ifs at result with aligned enough
  have discounted : Consistent { s with totalAvailablePages := s.totalAvailablePages - size } used size := by
    refine { consistent with total := ?_ }
    have total := consistent.total
    show s.totalAvailablePages - size + size = ∑ i ∈ Finset.range s.nRanges, (s.header i).available 0
    omega
  rcases physallocLoop_grants size _ used size virtualAddr [] le_rfl discounted with
    failed | ⟨final, taken, returned, serves⟩
  · rw [failed] at result
    cases result
  · rw [returned] at result
    cases result
    exact ⟨taken, rfl, { serves with }⟩

structure Pieces (pieces : List (Nat × Nat)) : Prop where
  aligned : ∀ piece ∈ pieces, piece.1 % 0x1000 = 0
  sizes : ∀ piece ∈ pieces, 1 < piece.2 ∧ piece.2 ≤ maxSize
  sorted : pieces.Pairwise (fun first second => first.1 + first.2 * 0x1000 ≤ second.1)

theorem initHeader_represents (length : Nat) : Represents (initHeader length) (length - 1) ∅ := by
  have unused (level : Level) (block : Nat) : ¬ BlockUsed ∅ level block := by simp [BlockUsed]
  exact ⟨by simp, by simp [Exact, initHeader, Bitmap.bit, unused], by simp [initHeader, clearBlocks, unused]⟩

variable {length : Nat}

theorem firstAvailable_initHeader (large : 1 < length) : firstAvailable (initHeader length) = some 3 := by
  have clear : (initHeader length).available 3 ≠ 0 := by
    show (length - 1 + 16 - 1) / 16 ≠ 0
    omega
  simp [firstAvailable, clear]

theorem initMemoryRange_eq (s : State) (aligned : addr % 0x1000 = 0) (large : 1 < length) :
    initMemoryRange s addr length = .ok
      { s with
        nRanges := s.nRanges + 1
        range := update s.range s.nRanges { base := addr, length := length - 1 }
        header := update s.header s.nRanges (initHeader length)
        next := update s.next s.nRanges (s.mrLists 3)
        mrLists := update s.mrLists 3 (some s.nRanges) } := by
  simp only [initMemoryRange, aligned, firstAvailable_initHeader large, ne_eq, not_true, if_false,
    if_neg (Nat.not_le.mpr large)]

theorem initMemoryRange_consistent {pending : Nat}
    (consistent : Consistent s (fun _ => ∅) pending) (aligned : addr % 0x1000 = 0)
    (large : 1 < length) (small : length ≤ maxSize)
    (behind : ∀ i < s.nRanges, (s.range i).pageAddr (s.range i).length ≤ addr) :
    ∃ s', initMemoryRange s addr length = .ok s' ∧ Consistent s' (fun _ => ∅) (pending + (length - 1)) ∧
      s'.nRanges = s.nRanges + 1 ∧ s'.totalAvailablePages = s.totalAvailablePages ∧
      s'.range = update s.range s.nRanges { base := addr, length := length - 1 } := by
  have old : ∀ i < s.nRanges, i ≠ s.nRanges := fun i inside => Nat.ne_of_lt inside
  have represents := initHeader_represents length
  refine ⟨_, initMemoryRange_eq s aligned large, ⟨?_, ?_, ?_, ?_⟩, rfl, rfl, rfl⟩
  · have each {P : MemoryRange -> Prop} (before : ∀ i < s.nRanges, P (s.range i))
        (new : P { base := addr, length := length - 1 }) :
        ∀ i < s.nRanges + 1, P (update s.range s.nRanges { base := addr, length := length - 1 } i) := by
      intro i inside
      by_cases last : i = s.nRanges
      · rwa [last, update_self]
      · rw [update_of_ne last]
        exact before i (by omega)
    refine ⟨each (P := (·.base % 0x1000 = 0)) consistent.table.aligned aligned,
      each (P := (0 < ·.length)) consistent.table.nonempty (Nat.sub_pos_of_lt large),
      each (P := (·.length < maxSize)) consistent.table.small (by simp only; omega), ?_⟩
    · intro i j earlier inside
      simp only at inside
      have notLast : i ≠ s.nRanges := by omega
      by_cases last : j = s.nRanges
      · subst last
        simpa [notLast] using behind i earlier
      · simpa [last, notLast] using consistent.table.sorted i j earlier (by omega)
  · intro i inside
    by_cases last : i = s.nRanges
    · simpa [last] using represents
    · simpa [last] using consistent.represents i (by simp only at inside; omega)
  · have total := consistent.total
    have full := available_zero represents
    have before : ∑ i ∈ Finset.range s.nRanges,
        (update s.header s.nRanges (initHeader length) i).available 0 =
          ∑ i ∈ Finset.range s.nRanges, (s.header i).available 0 := by
      apply Finset.sum_congr rfl
      intro i member
      rw [update_of_ne (old i (Finset.mem_range.mp member))]
    simp only [Finset.sum_range_succ, before, update_self]
    simp only [Finset.card_empty] at full
    omega
  · obtain ⟨members, listed⟩ := consistent.lists
    have absent : ∀ level, s.nRanges ∉ members level := fun level member => absurd (listed.bounded level _ member) (by omega)
    have grown : Listed { next := s.next, heads := s.mrLists } (s.nRanges + 1)
        (fun i => (update s.header s.nRanges (initHeader length) i).available)
        (fun _ => False) members := by
      refine ⟨listed.linked, fun level i member => Nat.lt_succ_of_lt (listed.bounded level i member), ?_, listed.disjoint⟩
      intro level i member kept
      simpa [old i (listed.bounded level i member)] using listed.clear level i member kept
    refine ⟨_, grown.push 3 absent (by omega) ?_⟩
    intro _
    simp only [update_self]
    show (length - 1 + 16 - 1) / 16 ≠ 0
    omega

theorem initRanges_consistent (pieces : List (Nat × Nat)) :
    ∀ (s : State) (pending : Nat), Consistent s (fun _ => ∅) pending -> Pieces pieces ->
      (∀ i < s.nRanges, ∀ piece ∈ pieces, (s.range i).pageAddr (s.range i).length ≤ piece.1) ->
      ∃ s', initRanges s pieces = .ok s' ∧
        Consistent s' (fun _ => ∅) (pending + ((pieces.map Prod.snd).sum - pieces.length)) ∧
        s'.nRanges = s.nRanges + pieces.length ∧ s'.totalAvailablePages = s.totalAvailablePages := by
  induction pieces with
  | nil =>
    intro s pending consistent _ _
    exact ⟨s, rfl, by simpa using consistent, rfl, rfl⟩
  | cons piece rest ih =>
    intro s pending consistent wellFormed behind
    obtain ⟨addr, length⟩ := piece
    obtain ⟨large, small⟩ : 1 < length ∧ length ≤ maxSize := wellFormed.sizes (addr, length) (by simp)
    obtain ⟨ahead, sorted⟩ := pairwise_cons.mp wellFormed.sorted
    obtain ⟨next, made, consistent', count, total, table⟩ :=
      initMemoryRange_consistent consistent (wellFormed.aligned (addr, length) (by simp)) large small
        (fun i inside => behind i inside (addr, length) (by simp))
    have tail : Pieces rest :=
      ⟨fun piece member => wellFormed.aligned piece (mem_cons_of_mem _ member),
        fun piece member => wellFormed.sizes piece (mem_cons_of_mem _ member), sorted⟩
    obtain ⟨s', result, consistent'', count', total'⟩ := ih next _ consistent' tail (by
      intro i inside piece member
      rw [table]
      by_cases last : i = s.nRanges
      · subst last
        have after : addr + length * 0x1000 ≤ piece.1 := ahead piece member
        have whole : length - 1 + 1 = length := by omega
        simpa only [update_self, MemoryRange.pageAddr, whole] using after
      · rw [update_of_ne last]
        exact behind i (by omega) piece (mem_cons_of_mem _ member))
    refine ⟨s', ?_, ?_, ?_, total'.trans total⟩
    · rw [initRanges, made]
      exact result
    · have lengths : rest.length ≤ (rest.map Prod.snd).sum := by
        have atLeastOne : ∀ size ∈ rest.map Prod.snd, 1 ≤ size := by
          intro size member
          obtain ⟨piece, inRest, rfl⟩ := mem_map.mp member
          exact Nat.le_of_lt (tail.sizes piece inRest).1
        simpa using card_nsmul_le_sum (rest.map Prod.snd) 1 atLeastOne
      have amount : pending + (length - 1) + ((rest.map Prod.snd).sum - rest.length) =
          pending + ((((addr, length) :: rest).map Prod.snd).sum - ((addr, length) :: rest).length) := by
        simp only [map_cons, sum_cons, length_cons]
        omega
      rwa [← amount]
    · simp only [count', count, length_cons]
      omega

variable {pieces : List (Nat × Nat)}

theorem initPmm_consistent (wellFormed : Pieces pieces) : ∃ s, initPmm pieces = .ok s ∧ Consistent s (fun _ => ∅) 0 := by
  have empty : Consistent emptyState (fun _ => ∅) 0 := by
    refine ⟨⟨?_, ?_, ?_, ?_⟩, ?_, ?_, fun _ => [], ?_, ?_, ?_, ?_⟩ <;> simp [emptyState]
  obtain ⟨s, made, consistent, count, total⟩ :=
    initRanges_consistent pieces emptyState 0 empty wellFormed (by simp [emptyState])
  have ranges : s.nRanges = pieces.length := by
    rw [count]
    exact Nat.zero_add _
  refine ⟨{ s with totalAvailablePages := (pieces.map Prod.snd).sum - s.nRanges }, ?_, ?_⟩
  · rw [initPmm, made]
    rfl
  refine { consistent with total := ?_ }
  have sum := consistent.total
  rw [total] at sum
  rw [← sum, ranges]
  simp [emptyState]

structure Machine where
  state : State
  handed : Finset Nat

inductive Step : Machine -> Machine -> Prop where
  | physalloc (m : Machine) (size : Nat) (virtualAddr : BitVec 64) (s' : State)
      (callbacks : List (Nat × BitVec 64))
      (result : physalloc m.state size virtualAddr = .ok (s', callbacks)) :
      Step m { state := s', handed := m.handed ∪ (callbacks.map Prod.fst).toFinset }
  | physfree (m : Machine) (addr : Nat) (s' : State) (held : addr ∈ m.handed)
      (result : physfree m.state addr = .ok s') :
      Step m { state := s', handed := m.handed.erase addr }

def Reaches (pieces : List (Nat × Nat)) (m : Machine) : Prop :=
  ∃ first, initPmm pieces = .ok first ∧ Relation.ReflTransGen Step { state := first, handed := ∅ } m

structure Tracks (m : Machine) (used : Nat -> Finset Nat) : Prop where
  consistent : Consistent m.state used 0
  handed : ∀ addr, addr ∈ m.handed ↔ ∃ i < m.state.nRanges, ∃ page ∈ used i, addr = (m.state.range i).pageAddr page

variable {m : Machine}

theorem Tracks.page_handed (tracks : Tracks m used)
    (inTable : i < m.state.nRanges) (inside : page < (m.state.range i).length) :
    (m.state.range i).pageAddr page ∈ m.handed ↔ page ∈ used i := by
  rw [tracks.handed]
  constructor
  · rintro ⟨j, inTable', other, member, same⟩
    have inside' := (tracks.consistent.represents j inTable').inside other member
    obtain ⟨rfl, rfl⟩ := pageAddr_injective tracks.consistent.table inTable inTable' inside inside' same
    exact member
  · intro member
    exact ⟨i, inTable, page, member, rfl⟩

theorem mem_takenAddrs {taken : List (Nat × Nat)} :
    addr ∈ takenAddrs s taken ↔ ∃ i page, (i, page) ∈ taken ∧ addr = (s.range i).pageAddr page := by
  simp only [takenAddrs, mem_map, Prod.exists]
  exact exists₂_congr fun i page => and_congr_right fun _ => eq_comm

theorem Tracks.step {m' : Machine} (tracks : Tracks m used) (step : Step m m') : ∃ used', Tracks m' used' := by
  cases step with
  | physalloc size virtualAddr s' callbacks result =>
    obtain ⟨taken, rfl, serves⟩ := physalloc_grants tracks.consistent result
    refine ⟨_, serves.consistent, ?_⟩
    intro addr
    simp only [Finset.mem_union, mem_toFinset, invocations_map_fst, mem_takenAddrs, tracks.handed,
      serves.sameCount, serves.sameRange, mem_pagesOf]
    constructor
    · rintro (⟨i, inTable, page, member, same⟩ | ⟨i, page, member, same⟩)
      · exact ⟨i, inTable, page, Or.inl member, same⟩
      · exact ⟨i, (serves.inside i page member).1, page, Or.inr member, same⟩
    · rintro ⟨i, inTable, page, old | new, same⟩
      · exact Or.inl ⟨i, inTable, page, old, same⟩
      · exact Or.inr ⟨i, page, new, same⟩
  | physfree addr s' held result =>
    obtain ⟨i, inTable, page, member, rfl⟩ := (tracks.handed addr).mp held
    obtain ⟨consistent, sameCount, sameRange⟩ := physfree_releases tracks.consistent inTable member result
    have inside := (tracks.consistent.represents i inTable).inside page member
    have left (j other : Nat) : other ∈ update used i ((used i).erase page) j ↔ other ∈ used j ∧
        ¬ (j = i ∧ other = page) := by
      by_cases same : j = i
      · subst same
        simp [and_comm]
      · simp [same]
    refine ⟨_, consistent, ?_⟩
    intro addr
    simp only [Finset.mem_erase, tracks.handed, sameCount, sameRange, left]
    constructor
    · rintro ⟨different, j, inTable', other, member', rfl⟩
      refine ⟨j, inTable', other, ⟨member', ?_⟩, rfl⟩
      rintro ⟨rfl, rfl⟩
      exact different rfl
    · rintro ⟨j, inTable', other, ⟨member', different⟩, rfl⟩
      have inside' := (tracks.consistent.represents j inTable').inside other member'
      refine ⟨?_, j, inTable', other, member', rfl⟩
      exact fun same => different (pageAddr_injective tracks.consistent.table inTable' inTable inside' inside same)

theorem reaches_tracks (wellFormed : Pieces pieces) (reaches : Reaches pieces m) : ∃ used, Tracks m used := by
  obtain ⟨first, started, run⟩ := reaches
  obtain ⟨s, made, consistent⟩ := initPmm_consistent wellFormed
  obtain rfl := Except.ok.inj (made.symm.trans started)
  refine run.invariant (fun m => ∃ used, Tracks m used) ⟨_, consistent, by simp⟩ ?_
  intro m m' tracked step
  obtain ⟨used, tracks⟩ := tracked
  exact tracks.step step

/-- In every reachable state the four bitmaps, the counters and the total describe exactly the pages
held by callers, and `pmm_check` passes. -/
theorem physical_bitmaps_exact {pieces : List (Nat × Nat)} {m : Machine}
    (wellFormed : Pieces pieces) (reaches : Reaches pieces m) :
    (∀ i < m.state.nRanges,
      (∀ page < (m.state.range i).length,
        Bitmap.bit ((m.state.header i).bitmap 0) page = true ↔ (m.state.range i).pageAddr page ∈ m.handed) ∧
      ∀ level,
        (∀ block < blocks (m.state.range i).length level,
          Bitmap.bit ((m.state.header i).bitmap level) block = true ↔
            ∃ page < (m.state.range i).length, page / granularity level = block ∧
              (m.state.range i).pageAddr page ∈ m.handed) ∧
        (∀ block ≥ blocks (m.state.range i).length level, Bitmap.bit ((m.state.header i).bitmap level) block = false) ∧
        (m.state.header i).available level =
          ((Finset.range (blocks (m.state.range i).length level)).filter
            (fun block => Bitmap.bit ((m.state.header i).bitmap level) block = false)).card) ∧
    m.state.totalAvailablePages = ∑ i ∈ Finset.range m.state.nRanges, (m.state.header i).available 0 ∧
    pmmCheck m.state = .ok () := by
  obtain ⟨used, tracks⟩ := reaches_tracks wellFormed reaches
  refine ⟨?_, tracks.consistent.total, pmmCheck_passes tracks.consistent⟩
  intro i inTable
  have represents := tracks.consistent.represents i inTable
  have marked (level : Level) (block : Nat) :
      Bitmap.bit ((m.state.header i).bitmap level) block = true ↔
        ∃ page < (m.state.range i).length, page / granularity level = block ∧ (m.state.range i).pageAddr page ∈ m.handed := by
    rw [represents.bits level, decide_eq_true_iff]
    constructor
    · rintro ⟨page, member, same⟩
      have inside := represents.inside page member
      exact ⟨page, inside, same, (tracks.page_handed inTable inside).mpr member⟩
    · rintro ⟨page, inside, same, held⟩
      exact ⟨page, (tracks.page_handed inTable inside).mp held, same⟩
  refine ⟨?_, ?_⟩
  · intro page inside
    rw [represents.bits 0, decide_eq_true_iff, blockUsed_zero, tracks.page_handed inTable inside]
  intro level
  refine ⟨fun block _ => marked level block, ?_, ?_⟩
  · intro block past
    rw [← Bool.not_eq_true, marked level block]
    rintro ⟨page, inside, same, -⟩
    have := block_lt_blocks (m.state.range i).length page level inside
    omega
  · rw [represents.counts level, clearBlocks]
    congr 1
    apply Finset.filter_congr
    intro block _
    rw [represents.bits level, decide_eq_false_iff_not]

-- A header page and two pages behind it.
def twoPages : List (Nat × Nat) := [(0x10000, 3)]

theorem twoPages_pieces : Pieces twoPages := by
  refine ⟨?_, ?_, ?_⟩ <;> simp [twoPages, maxSize]

theorem twoPages_allocates :
    ∃ first s', initPmm twoPages = .ok first ∧ physalloc first 1 0x5000 = .ok (s',
      [(0x11000, 0x5000)]) ∧ s'.nRanges = 1 ∧ s'.range 0 = { base := 0x10000, length := 2 } := by
  have evaluated : (initPmm twoPages >>= fun s => (physalloc s 1 0x5000).map fun r => (r.2, r.1.nRanges, r.1.range 0)) =
      .ok ([(0x11000, 0x5000)], 1, { base := 0x10000, length := 2 }) := by
    decide
  obtain ⟨first, started, mapped⟩ := bind_eq_ok.mp evaluated
  obtain ⟨⟨s', callbacks⟩, allocated, same⟩ := Except.map_eq_ok mapped
  simp only [Prod.mk.injEq] at same
  obtain ⟨rfl, same⟩ := same
  exact ⟨first, s', started, allocated, same⟩

theorem physical_bitmaps_exact_twoPages : ∃ m, Reaches twoPages m ∧ 0x11000 ∈ m.handed ∧ pmmCheck m.state = .ok () := by
  obtain ⟨first, s', started, allocated, -⟩ := twoPages_allocates
  have reaches : Reaches twoPages _ := ⟨first, started, .single (.physalloc _ 1 0x5000 s' _ allocated)⟩
  exact ⟨_, reaches, by simp, (physical_bitmaps_exact twoPages_pieces reaches).2.2⟩

/-- Every request that returns has been given `size` distinct fresh body pages, in the order of the
virtual addresses. -/
theorem physalloc_hands_out_fresh_pages {pieces : List (Nat × Nat)} {m : Machine} {size : Nat}
    {virtualAddr : BitVec 64} {s' : State} {callbacks : List (Nat × BitVec 64)}
    (wellFormed : Pieces pieces) (reaches : Reaches pieces m)
    (result : physalloc m.state size virtualAddr = .ok (s', callbacks)) :
    callbacks.length = size ∧
    (∀ k < size, (callbacks.map Prod.snd)[k]? = some (virtualAddr + BitVec.ofNat 64 (k * 0x1000))) ∧
    (callbacks.map Prod.fst).Nodup ∧
    ∀ addr ∈ callbacks.map Prod.fst, addr ∉ m.handed ∧
      ∃ i < m.state.nRanges, ∃ page < (m.state.range i).length, addr = (m.state.range i).base + (page + 1) * 0x1000 := by
  obtain ⟨used, tracks⟩ := reaches_tracks wellFormed reaches
  obtain ⟨taken, rfl, grants⟩ := physalloc_grants tracks.consistent result
  have count : (takenAddrs m.state taken).length = size := by
    rw [takenAddrs, length_map, grants.length]
  refine ⟨?_, ?_, ?_, ?_⟩
  · rw [invocations_eq, length_mapIdx, count]
  · intro k bounded
    have inside : k < (takenAddrs m.state taken).length := by omega
    simp [invocations_eq, List.getElem?_eq_getElem inside, advance]
  · rw [invocations_map_fst]
    refine List.Nodup.map_on ?_ grants.distinct
    intro first memberFirst second memberSecond same
    obtain ⟨inTable, inside⟩ := grants.inside first.1 first.2 memberFirst
    obtain ⟨inTable', inside'⟩ := grants.inside second.1 second.2 memberSecond
    obtain ⟨sameRange, samePage⟩ := pageAddr_injective tracks.consistent.table inTable inTable' inside inside' same
    exact Prod.ext sameRange samePage
  · intro addr member
    rw [invocations_map_fst] at member
    obtain ⟨i, page, inTaken, rfl⟩ := mem_takenAddrs.mp member
    obtain ⟨inTable, inside⟩ := grants.inside i page inTaken
    refine ⟨?_, i, inTable, page, inside, rfl⟩
    intro held
    exact grants.fresh i page inTaken ((tracks.page_handed inTable inside).mp held)

theorem physalloc_hands_out_fresh_pages_twoPages :
    ∃ m s' callbacks, Reaches twoPages m ∧ physalloc m.state 1 0x5000 = .ok (s', callbacks) ∧ callbacks.length = 1 := by
  obtain ⟨first, s', started, allocated, -⟩ := twoPages_allocates
  have reaches : Reaches twoPages { state := first, handed := ∅ } := ⟨first, started, .refl⟩
  exact ⟨_, s', _, reaches, allocated, (physalloc_hands_out_fresh_pages twoPages_pieces reaches allocated).1⟩

/-- A body page is looked up in its own range, and its bit cleared when it is given back, unless it
is the last page of the last range. -/
theorem freed_page_lookup {pieces : List (Nat × Nat)} {m : Machine} {i page : Nat} (wellFormed : Pieces pieces)
    (reaches : Reaches pieces m) (inTable : i < m.state.nRanges) (inside : page < (m.state.range i).length) :
    (getMemoryRange m.state ((m.state.range i).pageAddr page) = .ok i ∧
      ((m.state.range i).pageAddr page ∈ m.handed ->
        ∃ s', physfree m.state ((m.state.range i).pageAddr page) = .ok s' ∧
          Bitmap.bit ((s'.header i).bitmap 0) page = false)) ↔
      ¬ (i + 1 = m.state.nRanges ∧ page + 1 = (m.state.range i).length) := by
  obtain ⟨used, tracks⟩ := reaches_tracks wellFormed reaches
  rw [getMemoryRange_page tracks.consistent.table inTable inside]
  split_ifs with last
  · simp [last]
  · refine iff_of_true ⟨rfl, ?_⟩ last
    intro held
    obtain ⟨header, represents, freed⟩ :=
      physfree_page tracks.consistent inTable ((tracks.page_handed inTable inside).mp held) last
    refine ⟨_, freed, ?_⟩
    simp [represents.bits 0 page, blockUsed_zero]

theorem freed_page_lookup_twoPages : ∃ m s', Reaches twoPages m ∧ 0x11000 ∈ m.handed ∧ physfree m.state 0x11000 = .ok s' := by
  obtain ⟨first, s', started, allocated, count, range⟩ := twoPages_allocates
  have reaches : Reaches twoPages _ := ⟨first, started, .single (.physalloc _ 1 0x5000 s' _ allocated)⟩
  have found := (freed_page_lookup (i := 0) twoPages_pieces reaches (by simp [count])
    (show 0 < _ by simp [range])).mpr (by simp [count, range])
  simp only [range] at found
  obtain ⟨s'', freed, -⟩ := found.2 (by simp [MemoryRange.pageAddr])
  exact ⟨_, s'', reaches, by simp, freed⟩

-- The shortest range that `init_pmm` keeps.
theorem last_page_not_freed :
    (do
      let s ← initPmm [(0x10000, 10)]
      let (s, callbacks) ← physalloc s 9 0x5000
      return (callbacks.map Prod.fst, getMemoryRange s 0x19000, (physfree s 0x19000).map State.nRanges)) =
      .ok ((List.range 9).map fun k => 0x11000 + 0x1000 * k, .error .outsideRanges, .error .outsideRanges) := by
  decide +kernel

end Bincows.Pmm
