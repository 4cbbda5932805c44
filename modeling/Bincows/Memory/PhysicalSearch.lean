import Bincows.Memory.PhysicalBitmaps
import Bincows.Shared.Linked

set_option autoImplicit false

namespace Bincows.Pmm

open List

-- The callback invocations for the given physical pages, mapped one after the other.
def invocations : BitVec 64 -> List Nat -> List (Nat × BitVec 64)
  | _, [] => []
  | virtualAddr, addr :: rest => (addr, virtualAddr) :: invocations (virtualAddr + 0x1000) rest

def advance (virtualAddr : BitVec 64) (count : Nat) : BitVec 64 :=
  virtualAddr + BitVec.ofNat 64 (count * 0x1000)

@[simp] theorem advance_zero (virtualAddr : BitVec 64) : advance virtualAddr 0 = virtualAddr := by
  simp [advance]

section

variable (virtualAddr : BitVec 64)
include virtualAddr

theorem advance_one : advance virtualAddr 1 = virtualAddr + 0x1000 := by
  simp [advance]

theorem advance_add (m n : Nat) : advance (advance virtualAddr m) n = advance virtualAddr (m + n) := by
  simp [advance, Nat.add_mul, BitVec.ofNat_add, BitVec.add_assoc]

theorem invocations_eq (addrs : List Nat) :
    invocations virtualAddr addrs = addrs.mapIdx fun i addr => (addr, advance virtualAddr i) := by
  induction addrs generalizing virtualAddr with
  | nil => rfl
  | cons addr rest ih => simp only [invocations, ih, mapIdx_cons, ← advance_one, advance_add, advance_zero, Nat.add_comm 1]

theorem invocations_append (before after : List Nat) : invocations virtualAddr (before ++ after) =
    invocations virtualAddr before ++ invocations (advance virtualAddr before.length) after := by
  simp only [invocations_eq, mapIdx_append, advance_add, Nat.add_comm]

theorem invocations_map_fst (addrs : List Nat) : (invocations virtualAddr addrs).map Prod.fst = addrs := by
  rw [invocations_eq, mapIdx_eq_zipIdx_map, map_map]
  exact zipIdx_map_fst 0 addrs

end

structure Takes (range : MemoryRange) (used : Finset Nat) (p : Progress) (pages : List Nat) (p' : Progress) : Prop where
  size : p'.size + pages.length = p.size
  virtualAddr : p'.virtualAddr = advance p.virtualAddr pages.length
  callbacks : p'.callbacks = p.callbacks ++ invocations p.virtualAddr (pages.map range.pageAddr)
  found : p'.foundBlock = (p.foundBlock || !pages.isEmpty)
  represents : Represents p'.header range.length (used ∪ pages.toFinset)
  distinct : pages.Nodup
  fresh : ∀ page ∈ pages, page ∉ used

variable {range : MemoryRange} {used : Finset Nat} {p : Progress}

theorem Takes.none (represents : Represents p.header range.length used) : Takes range used p [] p where
  size := rfl
  virtualAddr := by simp
  callbacks := by simp [invocations]
  found := by simp
  represents := by simpa using represents
  distinct := nodup_nil
  fresh := by simp

theorem Takes.trans {p' p'' : Progress} {pages later : List Nat} (first : Takes range used p pages p')
    (second : Takes range (used ∪ pages.toFinset) p' later p'') :
    Takes range used p (pages ++ later) p'' where
  size := by
    have := first.size
    have := second.size
    simp only [length_append]
    omega
  virtualAddr := by
    rw [second.virtualAddr, first.virtualAddr, advance_add, length_append]
  callbacks := by
    rw [second.callbacks, first.callbacks, first.virtualAddr, map_append, invocations_append, length_map, append_assoc]
  found := by
    rw [second.found, first.found, Bool.or_assoc]
    cases pages <;> simp
  represents := by
    simpa [toFinset_append, Finset.union_assoc] using second.represents
  distinct := by
    refine List.Nodup.append first.distinct second.distinct ?_
    intro page taken again
    exact second.fresh page again (by simp [taken])
  fresh := by
    intro page member
    rcases mem_append.mp member with early | late
    · exact first.fresh page early
    · intro present
      exact second.fresh page late (by simp [present])

theorem allocPage_takes {page : Nat} (represents : Represents p.header range.length used) (small : range.length ≤ maxSize)
    (needed : 0 < p.size) (inside : page < range.length) (fresh : page ∉ used) :
    ∃ p', allocPage range page p = .ok p' ∧ Takes range used p [page] p' := by
  obtain ⟨header, result, represents'⟩ := allocPageBitmaps_represents represents small inside fresh
  have together : used ∪ [page].toFinset = insert page used := by
    ext other
    simp
  refine ⟨_, by rw [allocPage, result]; rfl, ?_⟩
  exact
    { size := by simp only [length_singleton]; omega
      virtualAddr := (advance_one _).symm
      callbacks := rfl
      found := by simp
      represents := by rwa [together]
      distinct := nodup_singleton _
      fresh := by simpa using fresh }

theorem allocBlock_takes (small : range.length ≤ maxSize) (j : Nat) :
    ∀ (currPage : Nat) (used : Finset Nat) (p : Progress),
      Represents p.header range.length used -> 0 < p.size -> (0 < j -> currPage < range.length) ->
      (∀ i < j, currPage + i ∉ used) ->
      ∃ p' done pages, allocBlock range j currPage p = .ok (p', done) ∧ Takes range used p pages p' ∧
        (∀ page ∈ pages, currPage ≤ page ∧ page < currPage + j) ∧ (0 < j -> pages ≠ []) ∧
        (done = true -> p'.size = 0 ∨ range.length ≤ currPage + j) ∧ (done = false -> 0 < p'.size) := by
  induction j with
  | zero =>
    intro currPage used p represents needed _ _
    exact ⟨p, false, [], rfl, Takes.none represents, by simp, by simp, by simp, fun _ => needed⟩
  | succ j ih =>
    intro currPage used p represents needed inside fresh
    obtain ⟨p₁, result, took⟩ :=
      allocPage_takes represents small needed (inside (by omega)) (by simpa using fresh 0 (by omega))
    by_cases stop : currPage + 1 ≥ range.length ∨ p₁.size = 0
    · refine ⟨p₁, true, [currPage], ?_, took, ?_, by simp, ?_, by simp⟩
      · rw [allocBlock, result]
        exact if_pos stop
      · intro page member
        obtain rfl := mem_singleton.mp member
        omega
      · intro _
        rcases stop with ends | complete
        · exact Or.inr (by omega)
        · exact Or.inl complete
    · have moreSize : 0 < p₁.size := by omega
      have moreFresh : ∀ i < j, currPage + 1 + i ∉ used ∪ [currPage].toFinset := by
        intro i bounded member
        rcases Finset.mem_union.mp member with old | new
        · exact fresh (i + 1) (by omega) (by rwa [Nat.add_assoc, Nat.add_comm 1] at old)
        · have := mem_singleton.mp (mem_toFinset.mp new)
          omega
      obtain ⟨p₂, done, pages, result₂, took₂, within, -, ends, continues⟩ :=
        ih (currPage + 1) _ p₁ took.represents moreSize (fun _ => by omega) moreFresh
      refine ⟨p₂, done, currPage :: pages, ?_, took.trans took₂, ?_, by simp, ?_, continues⟩
      · rw [allocBlock, result]
        exact (if_neg stop).trans result₂
      · intro page member
        rcases mem_cons.mp member with rfl | later
        · omega
        · have := within page later
          omega
      · intro finished
        rcases ends finished with complete | last
        · exact Or.inl complete
        · exact Or.inr (by omega)

variable {level : Level} {block : Nat}

theorem blockUsed_union {other : Nat} {pages : List Nat} (taken : pages ≠ [])
    (within : ∀ page ∈ pages, block * granularity level ≤ page ∧ page < block * granularity level + granularity level) :
    BlockUsed (used ∪ pages.toFinset) level other ↔ BlockUsed used level other ∨ other = block := by
  have here : ∀ page ∈ pages, page / granularity level = block := by
    intro page member
    rw [← Nat.add_one_mul] at within
    exact Nat.div_eq_of_lt_le (within page member).1 (within page member).2
  obtain ⟨page, member⟩ := exists_mem_of_ne_nil pages taken
  simp only [BlockUsed, Finset.mem_union, mem_toFinset, or_and_right, exists_or]
  refine or_congr_right ⟨?_, ?_⟩
  · rintro ⟨page, member, rfl⟩
    exact here page member
  · rintro rfl
    exact ⟨page, member, here page member⟩

theorem fresh_of_clear (clear : ¬ BlockUsed used level block) :
    ∀ i < granularity level, block * granularity level + i ∉ used := by
  intro i bounded member
  refine clear ⟨_, member, ?_⟩
  rw [Nat.mul_comm, Nat.mul_add_div (granularity_pos level), Nat.div_eq_of_lt bounded, Nat.add_zero]

variable {length : Nat}

theorem block_start_inside (bounded : block < blocks length level) : block * granularity level < length := by
  revert bounded
  fin_cases level <;> simp only [blocks, granularity] <;> simp <;> omega

theorem blocks_le_of_end (ends : length ≤ block * granularity level + granularity level) :
    blocks length level ≤ block + 1 := by
  revert ends
  fin_cases level <;> simp only [blocks, granularity] <;> simp <;> omega

theorem getLsbD_clear_bit (x : BitVec 64) (position j : Nat) (bounded : j < 64) :
    (x &&& ~~~ (1#64 <<< position)).getLsbD j = (x.getLsbD j && decide (j ≠ position)) := by
  rw [BitVec.getLsbD_and, BitVec.getLsbD_not, ← BitVec.twoPow_eq, BitVec.getLsbD_twoPow]
  by_cases same : position = j
  · simp [same, bounded]
  · simp [same, bounded, Ne.symm same]

def UsedBelow (length : Nat) (level : Level) (used : Finset Nat) (limit : Nat) : Prop :=
  ∀ block < blocks length level, block < limit -> BlockUsed used level block

theorem UsedBelow.extend {limit count : Nat} (before : UsedBelow length level used limit)
    (bits : ∀ j < count, limit + j < blocks length level -> BlockUsed used level (limit + j)) :
    UsedBelow length level used (limit + count) := by
  intro block inside early
  by_cases earlier : block < limit
  · exact before block inside earlier
  · have position := bits (block - limit) (by omega)
    rw [Nat.add_sub_cancel' (by omega)] at position
    exact position inside

def ChunkEnd (length : Nat) (level : Level) (chunk : Nat) (used : Finset Nat) (size currentBlock : Nat) : Prop :=
  (currentBlock = 64 * chunk + 64 ∧ 0 < size ∧
      ∀ block < blocks length level, block < 64 * chunk + 64 -> BlockUsed used level block) ∨
    (∀ block < blocks length level, BlockUsed used level block) ∨ size = 0

theorem scanChunk_takes (small : range.length ≤ maxSize) (level : Level) (chunk : Nat)
    (fuel : Nat) : ∀ (freeChunks : BitVec 64) (used : Finset Nat) (p : Progress) (low : Nat),
      Represents p.header range.length used -> 0 < p.size -> low ≤ 64 -> 65 ≤ low + fuel ->
      (∀ j < low, freeChunks.getLsbD j = false) ->
      UsedBelow range.length level used (64 * chunk) ->
      (∀ j < 64, 64 * chunk + j < blocks range.length level ->
        (freeChunks.getLsbD j = false ↔ BlockUsed used level (64 * chunk + j))) ->
      ∃ p' currentBlock pages, scanChunk range level (64 * chunk) fuel freeChunks p = .ok (p',
        currentBlock) ∧ Takes range used p pages p' ∧
        ChunkEnd range.length level chunk (used ∪ pages.toFinset) p'.size currentBlock := by
  induction fuel with
  | zero =>
    intro freeChunks used p low _ _ bounded enough
    omega
  | succ fuel ih =>
    intro freeChunks used p low represents needed bounded enough cleared before bits
    rw [scanChunk]
    by_cases none : Bitmap.ffsll freeChunks = 0
    · have unset := Bitmap.ffsll_eq_zero freeChunks none
      refine ⟨p, 64 * chunk + 64, [], by simp [none], Takes.none represents, Or.inl ⟨rfl, needed, ?_⟩⟩
      rw [toFinset_nil, Finset.union_empty]
      exact before.extend fun j bounded inside => (bits j bounded inside).mp (unset j bounded)
    obtain ⟨bitPos, least⟩ : ∃ bitPos, Bitmap.ffsll freeChunks = bitPos + 1 := Nat.exists_eq_succ_of_ne_zero none
    obtain ⟨positionBound, isSet, lowest⟩ := Bitmap.ffsll_eq_succ freeChunks bitPos least
    simp only [least, Nat.add_sub_cancel]
    rw [if_neg (by omega)]
    -- Everything below the first clear bit is already in use.
    have belowUsed : UsedBelow range.length level used (64 * chunk + bitPos) :=
      before.extend fun j below inside => (bits j (by omega) inside).mp (lowest j below)
    split
    next past =>
      refine ⟨p, 64 * chunk + bitPos, [], rfl, Takes.none represents, Or.inr (Or.inl ?_)⟩
      intro block inside
      simp only [toFinset_nil, Finset.union_empty]
      exact belowUsed block inside (by omega)
    next past =>
    have clear : ¬ BlockUsed used level (64 * chunk + bitPos) := by
      intro busy
      rw [(bits bitPos positionBound (by omega)).mpr busy] at isSet
      exact Bool.false_ne_true isSet
    obtain ⟨p₁, done, pages, result, took, within, nonempty, ends, continues⟩ :=
      allocBlock_takes small (granularity level) ((64 * chunk + bitPos) * granularity level) used p
        represents needed (fun _ => block_start_inside (by omega)) (fresh_of_clear clear)
    have union (block : Nat) : BlockUsed (used ∪ pages.toFinset) level block ↔
        BlockUsed used level block ∨ block = 64 * chunk + bitPos := blockUsed_union (nonempty (granularity_pos level)) within
    have throughUsed : UsedBelow range.length level (used ∪ pages.toFinset) (64 * chunk + bitPos + 1) := by
      intro block inside early
      rw [union]
      exact (Nat.lt_succ_iff_lt_or_eq.mp early).imp_left (belowUsed block inside)
    rw [result]
    cases done with
    | true =>
      refine ⟨p₁, 64 * chunk + bitPos, pages, rfl, took, ?_⟩
      rcases ends rfl with complete | last
      · exact Or.inr (Or.inr complete)
      · have lastBlock := blocks_le_of_end last
        exact Or.inr (Or.inl (fun block inside => throughUsed block inside (by omega)))
    | false =>
      have bits' : ∀ j < 64, 64 * chunk + j < blocks range.length level ->
          ((freeChunks &&& ~~~ (1#64 <<< bitPos)).getLsbD j = false ↔
            BlockUsed (used ∪ pages.toFinset) level (64 * chunk + j)) := by
        intro j inside bounded'
        rw [getLsbD_clear_bit _ _ _ inside, union, ← bits j inside bounded']
        simp [imp_iff_not_or]
      have cleared' : ∀ j < bitPos + 1, (freeChunks &&& ~~~ (1#64 <<< bitPos)).getLsbD j = false := by
        intro j smaller
        rw [getLsbD_clear_bit _ _ _ (by omega)]
        rcases Nat.lt_succ_iff_lt_or_eq.mp smaller with below | rfl
        · simp [lowest j below]
        · simp
      have atLeast : low ≤ bitPos := by
        by_contra smaller
        rw [cleared bitPos (by omega)] at isSet
        exact Bool.false_ne_true isSet
      obtain ⟨p₂, currentBlock, later, result₂, took₂, finish⟩ :=
        ih (freeChunks &&& ~~~ (1#64 <<< bitPos)) _ p₁ (bitPos + 1) took.represents
          (continues rfl) (by omega) (by omega) cleared'
          (fun block inside early => throughUsed block inside (by omega)) bits'
      refine ⟨p₂, currentBlock, pages ++ later, ?_, took.trans took₂, ?_⟩
      · exact result₂
      · rwa [toFinset_append, ← Finset.union_assoc]

theorem clearBlocks_eq_zero :
    clearBlocks used length level = 0 ↔ ∀ block < blocks length level, BlockUsed used level block := by
  simp [clearBlocks, Finset.filter_eq_empty_iff]

section

variable (lists : Lists) (index : Nat) (header : MRHeader)
include lists index header

theorem moveRegionIfFull_flag (level : Nat) : (moveRegionIfFull lists index header level true).2 = true := by
  induction level generalizing lists with
  | zero =>
    rw [moveRegionIfFull]
    split <;> rfl
  | succ level ih =>
    rw [moveRegionIfFull]
    split
    · rfl
    · exact ih _

theorem moveRegionIfFull_at (level : Level) :
    (header.available level ≠ 0 -> moveRegionIfFull lists index header level.val false = (lists, false)) ∧
      (header.available level = 0 -> (moveRegionIfFull lists index header level.val false).2 = true) := by
  fin_cases level
  case «0» => simp +contextual [moveRegionIfFull]
  all_goals exact ⟨fun kept => if_pos kept, fun full =>
    (congrArg Prod.snd (if_neg (not_not.mpr full))).trans (moveRegionIfFull_flag _ _ _ _)⟩

end

theorem scanRange_takes (small : range.length ≤ maxSize) (index : Nat) (level : Level) (lists : Lists) (fuel : Nat) :
    ∀ (chunk : Nat) (used : Finset Nat) (p : Progress), Represents p.header range.length used ->
      0 < p.size -> 64 * chunk < blocks range.length level + 64 ->
      blocks range.length level + 64 ≤ 64 * fuel + 64 * chunk ->
      UsedBelow range.length level used (64 * chunk) ->
      ∃ p' lists' pages, scanRange index range level fuel chunk (64 * chunk) p lists = .ok (p',
        lists') ∧ Takes range used p pages p' ∧
        (pages = [] -> ∀ block < blocks range.length level, BlockUsed used level block) ∧
        (pages ≠ [] -> lists' = (moveRegionIfFull lists index p'.header level.val false).1) := by
  induction fuel with
  | zero =>
    intro chunk used p _ _ reached enough
    omega
  | succ fuel ih =>
    intro chunk used p represents needed reached enough before
    rw [scanRange]
    by_cases ended : blocks range.length level ≤ 64 * chunk
    · rw [if_neg (Nat.not_lt.mpr ended)]
      refine ⟨p, lists, [], rfl, Takes.none represents, ?_, by simp⟩
      intro _ block inside
      exact before block inside (by omega)
    rw [if_pos (Nat.not_le.mp ended)]
    have bits : ∀ j < 64,
        ((~~~ Bitmap.chunk64 (p.header.bitmap level) chunk).getLsbD j = false ↔ BlockUsed used level (64 * chunk + j)) := by
      intro j bounded
      rw [BitVec.getLsbD_not, Bitmap.getLsbD_chunk64 _ _ _ bounded, represents.bits level]
      simp [bounded]
    by_cases full : ~~~ Bitmap.chunk64 (p.header.bitmap level) chunk = 0
    · simp only [full, if_true]
      exact ih (chunk + 1) used p represents needed (by omega) (by omega)
        (before.extend fun j bounded _ => (bits j bounded).mp (by simp [full]))
    obtain ⟨p₁, currentBlock, pages, result, took, finish⟩ :=
      scanChunk_takes small level chunk 65 _ used p 0 represents needed (by omega) (by omega)
        (by simp) before (fun j bounded _ => bits j bounded)
    simp only [full, if_false, result]
    have available := took.represents.counts level
    by_cases exhausted : p₁.header.available level = 0
    · -- A full range is moved, so the search of this range is over.
      have moved := (moveRegionIfFull_at lists index p₁.header level).2 exhausted
      refine ⟨p₁, (moveRegionIfFull lists index p₁.header level.val false).1, pages, if_pos moved, took, ?_, fun _ => rfl⟩
      rintro rfl
      rw [available, clearBlocks_eq_zero] at exhausted
      simpa using exhausted
    have kept := (moveRegionIfFull_at lists index p₁.header level).1 exhausted
    rw [available, clearBlocks_eq_zero] at exhausted
    simp only [bind, Except.bind, kept, Bool.false_eq_true, if_false]
    by_cases complete : p₁.size = 0
    · refine ⟨p₁, lists, pages, if_pos complete, took, ?_, fun _ => by rw [kept]⟩
      rintro rfl
      have := took.size
      simp only [length_nil] at this
      omega
    obtain ⟨rfl, moreSize, throughUsed⟩ := finish.resolve_right (not_or.mpr ⟨exhausted, complete⟩)
    obtain ⟨p₂, lists₂, later, result₂, took₂, nothing, moved⟩ :=
      ih (chunk + 1) _ p₁ took.represents moreSize (by omega) (by omega) throughUsed
    have laterTaken : later ≠ [] := fun empty => exhausted (nothing empty)
    refine ⟨p₂, lists₂, pages ++ later, (if_neg complete).trans result₂, took.trans took₂, ?_, fun _ => moved laterTaken⟩
    exact fun empty => absurd (append_eq_nil_iff.mp empty).2 laterTaken

end Bincows.Pmm
