import Bincows.Memory.PhysicalAllocation

set_option autoImplicit false

namespace Bincows.Pmm

open Bitmap List

def popcount8Loop : Nat -> BitVec 8 -> Nat -> Nat
  | 0, _, sum => sum
  | fuel + 1, x, sum =>
    if x = 0 then sum else popcount8Loop fuel (x >>> 1) (sum + (x &&& 1).toNat)

def popcount8 (x : BitVec 8) : Nat := popcount8Loop 8 x 0

-- Bytes of each bitmap that hold bits of the range.
def bound (length : Nat) (level : Level) : Nat :=
  ((length + 7) / 8 + granularity level - 1) / granularity level

def overrun (length : Nat) (level : Level) : Nat := bound length level * 8 - blocks length level

-- The source subtracts in `size_t`; a negative value here is one that wraps and cannot match.
def countAvailable (mr : MemoryRange) (header : MRHeader) (level : Level) : Int :=
  ((range (bound mr.length level)).map (fun i => popcount8 (~~~ header.bitmap level i))).sum - overrun mr.length level

def pmmAvailCheck (mr : MemoryRange) (header : MRHeader) : Bool :=
  let available := countAvailable mr header
  let alloc := fun level => (8 * bound mr.length level - overrun mr.length level : Nat) - available level
  decide (∀ level, available level = header.available level) &&
    decide (∀ level, available level ≤ blocks mr.length level) &&
    decide (alloc 0 ≤ 4 * alloc 1 ∧ alloc 1 ≤ 2 * alloc 2 ∧ alloc 2 ≤ 2 * alloc 3)

def pmmBitmapCheckAt (header : MRHeader) (i : Nat) : Bool :=
  let used0 : BitVec 16 := header.bitmap 0 (2 * i + 1) ++ header.bitmap 0 (2 * i)
  let used1 : BitVec 8 := (header.bitmap 1 (i / 2) >>> (4 * (i % 2))) &&& 0xf
  let used2 : BitVec 8 := (header.bitmap 2 (i / 4) >>> (2 * (i % 4))) &&& 0x3
  let used3 : BitVec 8 := (header.bitmap 3 (i / 8) >>> (i % 8)) &&& 0x1
  (range 4).all (fun j =>
      decide ((used0 >>> (4 * j)) &&& 0xf = 0) == decide ((used1 >>> j) &&& 0x1 = 0)) &&
    (range 2).all (fun j =>
      decide ((used0 >>> (8 * j)) &&& 0xff = 0) == decide ((used2 >>> j) &&& 0x1 = 0)) &&
    (decide (used0 = 0) == decide (used3 = 0))

def pmmBitmapCheck (mr : MemoryRange) (header : MRHeader) : Bool :=
  (range (((mr.length + 7) / 8 + 1) / 2)).all (pmmBitmapCheckAt header)

def pmmCheckList (s : State) : Nat -> Option Nat -> Except Fault Unit
  | _, none => .ok ()
  | 0, some _ => .error .diverges
  | fuel + 1, some i =>
    let mr := s.range i
    if mr.length ≤ maxSize ∧ 0 < mr.length ∧ pmmBitmapCheck mr (s.header i) ∧ pmmAvailCheck mr (s.header i) then
      pmmCheckList s fuel (s.next i)
    else .error .checkFailed

def pmmCheck (s : State) : Except Fault Unit := do
  pmmCheckList s s.nRanges (s.mrLists 0)
  pmmCheckList s s.nRanges (s.mrLists 1)
  pmmCheckList s s.nRanges (s.mrLists 2)
  pmmCheckList s s.nRanges (s.mrLists 3)

theorem popcount8Loop_eq (fuel : Nat) (x : BitVec 8) (sum : Nat) :
    popcount8Loop fuel x sum = sum + ∑ j ∈ Finset.range fuel, (x.getLsbD j).toNat := by
  induction fuel generalizing x sum with
  | zero => simp [popcount8Loop]
  | succ fuel ih =>
    rw [popcount8Loop]
    by_cases zero : x = 0
    · simp [zero]
    rw [if_neg zero, ih, Finset.sum_range_succ']
    have low : (x &&& 1).toNat = (x.getLsbD 0).toNat := by
      rw [show (1 : BitVec 8) = 1#8 from rfl, BitVec.and_one_eq_setWidth_ofBool_getLsbD]
      cases x.getLsbD 0 <;> rfl
    have shifted : ∀ j, (x >>> 1).getLsbD j = x.getLsbD (j + 1) := by
      intro j
      simp [Nat.add_comm]
    simp only [shifted, low]
    omega

theorem popcount8_not (x : BitVec 8) : popcount8 (~~~ x) = ∑ j ∈ Finset.range 8, (!x.getLsbD j).toNat := by
  rw [popcount8, popcount8Loop_eq, Nat.zero_add]
  apply Finset.sum_congr rfl
  intro j member
  have bounded := Finset.mem_range.mp member
  simp [bounded]

theorem sum_popcount8 (bytes : Bytes) (count : Nat) :
    ((range count).map (fun i => popcount8 (~~~ bytes i))).sum =
      ((Finset.range (8 * count)).filter (fun b => bit bytes b = false)).card := by
  rw [Finset.card_filter]
  induction count with
  | zero => simp
  | succ count ih =>
    rw [range_succ, map_append, sum_append, ih, Nat.mul_succ, Finset.sum_range_add]
    congr 1
    simp only [map_cons, map_nil, sum_cons, sum_nil, Nat.add_zero]
    rw [popcount8_not]
    apply Finset.sum_congr rfl
    intro j member
    have bounded := Finset.mem_range.mp member
    have quotient : (8 * count + j) / 8 = count := by omega
    have remainder : (8 * count + j) % 8 = j := by omega
    rw [bit, quotient, remainder]
    cases (bytes count).getLsbD j <;> rfl

theorem blocks_le_bound (length : Nat) (level : Level) : blocks length level ≤ bound length level * 8 := by
  fin_cases level <;> simp only [blocks, bound, granularity] <;> simp <;> omega

variable {mr : MemoryRange} {header : MRHeader} {used : Finset Nat}

theorem countAvailable_exact (represents : Represents header mr.length used) (level : Level) :
    countAvailable mr header level = clearBlocks used mr.length level := by
  have covered := blocks_le_bound mr.length level
  -- Past the last block every bit is clear: no used page lies there.
  have split : ((Finset.range (8 * bound mr.length level)).filter
      (fun b => bit (header.bitmap level) b = false)).card =
        clearBlocks used mr.length level + overrun mr.length level := by
    have total : 8 * bound mr.length level = blocks mr.length level + overrun mr.length level := by
      rw [overrun]
      omega
    rw [Finset.card_filter, total, Finset.sum_range_add, clearBlocks, Finset.card_filter]
    congr 1
    · apply Finset.sum_congr rfl
      intro b _
      simp [represents.bits level b]
    · have past : ∀ x ∈ Finset.range (overrun mr.length level),
          (if bit (header.bitmap level) (blocks mr.length level + x) = false then 1 else 0) = 1 := by
        intro x _
        rw [if_pos]
        rw [represents.bits level, decide_eq_false_iff_not]
        rintro ⟨page, member, same⟩
        have := block_lt_blocks mr.length page level (represents.inside page member)
        omega
      rw [Finset.sum_congr rfl past]
      simp
  rw [countAvailable, sum_popcount8, split]
  simp

def usedBlocks (used : Finset Nat) (length : Nat) (level : Level) : Finset Nat :=
  (Finset.range (blocks length level)).filter (BlockUsed used level)

theorem usedBlocks_card (used : Finset Nat) (length : Nat) (level : Level) :
    (usedBlocks used length level).card + clearBlocks used length level = blocks length level := by
  rw [usedBlocks, clearBlocks, Finset.card_filter_add_card_filter_not, Finset.card_range]

variable {length : Nat}

theorem usedBlocks_refine (represents : Represents header length used) (fine coarse : Level)
    (ratio : Nat) (positive : 0 < ratio) (ratios : granularity coarse = granularity fine * ratio) :
    (usedBlocks used length fine).card ≤ ratio * (usedBlocks used length coarse).card := by
  have image : (usedBlocks used length fine).image (· / ratio) ⊆ usedBlocks used length coarse := by
    intro block member
    obtain ⟨small, inFine, rfl⟩ := Finset.mem_image.mp member
    obtain ⟨-, page, inUsed, rfl⟩ := Finset.mem_filter.mp inFine
    have parent : page / granularity fine / ratio = page / granularity coarse := by
      rw [ratios, Nat.div_div_eq_div_mul]
    rw [parent]
    refine Finset.mem_filter.mpr ⟨?_, page, inUsed, rfl⟩
    exact Finset.mem_range.mpr (block_lt_blocks length page coarse (represents.inside page inUsed))
  calc
    (usedBlocks used length fine).card ≤ ratio * ((usedBlocks used length fine).image (· / ratio)).card := by
      apply Finset.card_le_mul_card_image
      intro block _
      have fibre : (usedBlocks used length fine).filter (fun x => x / ratio = block) ⊆
          Finset.Ico (ratio * block) (ratio * block + ratio) := by
        intro x member
        obtain ⟨-, same⟩ := Finset.mem_filter.mp member
        have := Nat.div_add_mod x ratio
        have := Nat.mod_lt x positive
        rw [same] at *
        exact Finset.mem_Ico.mpr ⟨by omega, by omega⟩
      calc
        _ ≤ (Finset.Ico (ratio * block) (ratio * block + ratio)).card := Finset.card_le_card fibre
        _ = ratio := by simp
    _ ≤ ratio * (usedBlocks used length coarse).card :=
      Nat.mul_le_mul_left ratio (Finset.card_le_card image)

theorem pmmAvailCheck_passes (represents : Represents header mr.length used) : pmmAvailCheck mr header = true := by
  have available := countAvailable_exact represents
  have alloc (level : Level) :
      ((8 * bound mr.length level - overrun mr.length level : Nat) : Int) -
        countAvailable mr header level = (usedBlocks used mr.length level).card := by
    have covered := blocks_le_bound mr.length level
    have parts := usedBlocks_card used mr.length level
    have spare : overrun mr.length level = bound mr.length level * 8 - blocks mr.length level := rfl
    rw [available level]
    omega
  have refine1 := usedBlocks_refine represents 0 1 4 (by omega) rfl
  have refine2 := usedBlocks_refine represents 1 2 2 (by omega) rfl
  have refine3 := usedBlocks_refine represents 2 3 2 (by omega) rfl
  simp only [pmmAvailCheck, alloc, Bool.and_eq_true, decide_eq_true_eq]
  refine ⟨⟨?_, ?_⟩, ?_, ?_, ?_⟩
  · intro level
    rw [available level, represents.counts level]
  · intro level
    rw [available level]
    exact_mod_cast clearBlocks_le used mr.length level
  · exact_mod_cast refine1
  · exact_mod_cast refine2
  · exact_mod_cast refine3

theorem getLsbD_used0 (bytes : Bytes) (i t : Nat) (bounded : t < 16) :
    (bytes (2 * i + 1) ++ bytes (2 * i) : BitVec 16).getLsbD t = bit bytes (16 * i + t) := by
  rw [BitVec.getLsbD_append, bit]
  split
  next low =>
    rw [show (16 * i + t) / 8 = 2 * i by omega, show (16 * i + t) % 8 = t by omega]
  next low =>
    rw [show (16 * i + t) / 8 = 2 * i + 1 by omega, show (16 * i + t) % 8 = t - 8 by omega]

theorem window_used0 (represents : Represents header length used) (level : Level) (i j : Nat)
    (fits : granularity level * j + granularity level ≤ 16) (block : Nat)
    (position : 16 * i + granularity level * j = granularity level * block) :
    ((header.bitmap 0 (2 * i + 1) ++ header.bitmap 0 (2 * i) : BitVec 16) >>> (granularity level * j)) &&&
        BitVec.ofNat 16 (2 ^ granularity level - 1) = 0 ↔
      bit (header.bitmap level) block = false := by
  have clear : (∀ t < granularity level, ¬ BlockUsed used 0 (granularity level * block + t)) ↔ ¬ BlockUsed used level block :=
    blockUsed_refine used (granularity_pos level) (Nat.one_mul _).symm block
  rw [field_eq_zero _ _ _ fits, represents.bits level, decide_eq_false_iff_not, ← clear]
  refine forall₂_congr ?_
  intro t inside
  rw [getLsbD_used0 _ _ _ (by omega), represents.bits 0, decide_eq_false_iff_not,
    show 16 * i + (granularity level * j + t) = granularity level * block + t by omega]

theorem field_bit (bytes : Bytes) (byte offset n j : Nat) (inside : j < n) (fits : offset + n ≤ 8) :
    (((bytes byte >>> offset) &&& BitVec.ofNat 8 (2 ^ n - 1)) >>> j) &&& 1 = 0 ↔
      bit bytes (8 * byte + offset + j) = false := by
  have entry := field_eq_zero ((bytes byte >>> offset) &&& BitVec.ofNat 8 (2 ^ n - 1)) j 1 (by omega)
  rw [show BitVec.ofNat 8 (2 ^ 1 - 1) = (1 : BitVec 8) from rfl] at entry
  rw [entry, bit, show (8 * byte + offset + j) / 8 = byte by omega,
    show (8 * byte + offset + j) % 8 = offset + j by omega]
  simp only [Nat.lt_one_iff, forall_eq, Nat.add_zero, BitVec.getLsbD_and, BitVec.getLsbD_ushiftRight,
    BitVec.getLsbD_ofNat, Nat.testBit_two_pow_sub_one, inside, show j < 8 by omega, decide_true,
    Bool.and_true, Bool.and_self]

theorem pmmBitmapCheckAt_passes (represents : Represents header length used) (i : Nat) :
    pmmBitmapCheckAt header i = true := by
  simp only [pmmBitmapCheckAt, Bool.and_eq_true, all_eq_true, mem_range, beq_iff_eq, decide_eq_decide]
  refine ⟨⟨?_, ?_⟩, ?_⟩
  · intro j small
    have window := window_used0 represents 1 i j (by simp [granularity]; omega) (4 * i + j) (by simp [granularity]; omega)
    have field := field_bit (header.bitmap 1) (i / 2) (4 * (i % 2)) 4 j small (by omega)
    rw [show 8 * (i / 2) + 4 * (i % 2) + j = 4 * i + j by omega] at field
    exact window.trans field.symm
  · intro j small
    have window := window_used0 represents 2 i j (by simp [granularity]; omega) (2 * i + j) (by simp [granularity]; omega)
    have field := field_bit (header.bitmap 2) (i / 4) (2 * (i % 4)) 2 j small (by omega)
    rw [show 8 * (i / 4) + 2 * (i % 4) + j = 2 * i + j by omega] at field
    exact window.trans field.symm
  · have window := window_used0 represents 3 i 0 (by simp [granularity]) i (by simp [granularity])
    have field := field_bit (header.bitmap 3) (i / 8) (i % 8) 1 0 (by omega) (by omega)
    have whole (x : BitVec 16) : (x >>> (granularity 3 * 0)) &&& BitVec.ofNat 16 (2 ^ granularity 3 - 1) = x := by
      show x >>> 0 &&& BitVec.allOnes 16 = x
      rw [BitVec.ushiftRight_zero, BitVec.and_allOnes]
    have single (x : BitVec 8) : ((x &&& BitVec.ofNat 8 (2 ^ 1 - 1)) >>> 0) &&& 1 = x &&& 1 := by
      show ((x &&& 1) >>> 0) &&& 1 = x &&& 1
      rw [BitVec.ushiftRight_zero, BitVec.and_assoc, BitVec.and_self]
    rw [whole] at window
    rw [single, show 8 * (i / 8) + i % 8 + 0 = i by omega] at field
    exact window.trans field.symm

variable {s : State}

variable {used : Nat -> Finset Nat} {pending : Nat} (consistent : Consistent s used pending)
include consistent

theorem pmmCheckList_passes (nodes : List Nat) :
    ∀ (fuel : Nat) (head : Option Nat), nodes.length ≤ fuel -> Linked s.next head nodes ->
      (∀ i ∈ nodes, i < s.nRanges) -> pmmCheckList s fuel head = .ok () := by
  induction nodes with
  | nil =>
    intro fuel head _ linked _
    obtain rfl := Linked.nil_iff.mp linked
    cases fuel <;> rfl
  | cons node rest ih =>
    intro fuel head enough linked bounded
    obtain ⟨rfl, tail⟩ := linked
    have inside := bounded node (by simp)
    have represents := consistent.represents node inside
    cases fuel with
    | zero => simp at enough
    | succ fuel =>
      have checked : (s.range node).length ≤ maxSize ∧ 0 < (s.range node).length ∧
          pmmBitmapCheck (s.range node) (s.header node) = true ∧
          pmmAvailCheck (s.range node) (s.header node) = true := by
        refine ⟨Nat.le_of_lt (consistent.table.small node inside),
          consistent.table.nonempty node inside, ?_, pmmAvailCheck_passes represents⟩
        rw [pmmBitmapCheck, all_eq_true]
        exact fun i _ => pmmBitmapCheckAt_passes represents i
      simp only [pmmCheckList, checked, and_self, if_true]
      refine ih fuel _ ?_ tail (fun i member => bounded i (mem_cons_of_mem _ member))
      simpa using enough

theorem pmmCheck_passes : pmmCheck s = .ok () := by
  obtain ⟨members, listed⟩ := consistent.lists
  have passes (level : Level) : pmmCheckList s s.nRanges (s.mrLists level) = .ok () := by
    have linked := listed.linked level
    have short : (members level).length ≤ s.nRanges := by
      rw [← toFinset_card_of_nodup linked.nodup, ← Finset.card_range s.nRanges]
      apply Finset.card_le_card
      intro i member
      exact Finset.mem_range.mpr (listed.bounded level i (mem_toFinset.mp member))
    exact pmmCheckList_passes consistent _ _ _ short linked (listed.bounded level)
  simp only [pmmCheck, passes]
  rfl

end Bincows.Pmm
