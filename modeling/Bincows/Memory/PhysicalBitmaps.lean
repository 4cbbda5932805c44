import Bincows.Memory.PhysicalRanges

set_option autoImplicit false

namespace Bincows.Pmm

open Bitmap Function

def BlockUsed (used : Finset Nat) (level : Level) (block : Nat) : Prop :=
  ∃ page ∈ used, page / granularity level = block

instance (used : Finset Nat) (level : Level) (block : Nat) : Decidable (BlockUsed used level block) :=
  inferInstanceAs (Decidable (∃ page ∈ used, page / granularity level = block))

def clearBlocks (used : Finset Nat) (length : Nat) (level : Level) : Nat :=
  ((Finset.range (blocks length level)).filter (fun block => ¬ BlockUsed used level block)).card

def Exact (bytes : Bitmap.Bytes) (used : Finset Nat) (level : Level) : Prop :=
  ∀ block, Bitmap.bit bytes block = decide (BlockUsed used level block)

structure Represents (header : MRHeader) (length : Nat) (used : Finset Nat) : Prop where
  inside : ∀ page ∈ used, page < length
  bits : ∀ level, Exact (header.bitmap level) used level
  counts : ∀ level, header.available level = clearBlocks used length level

theorem granularity_pos (level : Level) : 0 < granularity level := by
  fin_cases level <;> simp [granularity]

theorem blocks_le (length : Nat) (level : Level) : blocks length level ≤ length := by
  fin_cases level <;> simp only [blocks, granularity] <;> simp <;> omega

theorem block_lt_blocks (length page : Nat) (level : Level) (inside : page < length) :
    page / granularity level < blocks length level := by
  revert inside
  fin_cases level <;> simp only [blocks, granularity] <;> simp <;> omega

variable {page : Nat}

theorem div_granularity_zero (page : Nat) : page / granularity 0 = page := Nat.div_one page

theorem blockUsed_zero {used : Finset Nat} : BlockUsed used 0 page ↔ page ∈ used := by
  simp [BlockUsed, div_granularity_zero]

theorem levelByte_eq (page : Nat) (level : Level) : levelByte page level = page / granularity level / 8 := by
  rw [levelByte, Nat.div_div_eq_div_mul, Nat.div_div_eq_div_mul, Nat.mul_comm]

theorem levelMask_eq (page : Nat) (level : Level) : levelMask page level = mask (page / granularity level) := rfl

theorem blockUsed_insert (used : Finset Nat) (page block : Nat) (level : Level) :
    BlockUsed (insert page used) level block ↔ block = page / granularity level ∨ BlockUsed used level block := by
  simp only [BlockUsed, Finset.exists_mem_insert, eq_comm]

theorem clearBlocks_insert (used : Finset Nat) (length page : Nat) (level : Level)
    (inside : page < length) : clearBlocks used length level =
      clearBlocks (insert page used) length level + if BlockUsed used level (page / granularity level) then 0 else 1 := by
  have bounded := block_lt_blocks length page level inside
  have erased :
      (Finset.range (blocks length level)).filter (fun b => ¬ BlockUsed (insert page used) level b) =
        ((Finset.range (blocks length level)).filter (fun b => ¬ BlockUsed used level b)).erase
          (page / granularity level) := by
    ext b
    simp only [Finset.mem_filter, Finset.mem_erase, blockUsed_insert, not_or]
    tauto
  unfold clearBlocks
  rw [erased]
  by_cases busy : BlockUsed used level (page / granularity level)
  · rw [Finset.erase_eq_of_notMem (by simp [busy]), if_pos busy, Nat.add_zero]
  · rw [if_neg busy, Finset.card_erase_add_one]
    simpa [busy] using bounded

theorem clearBlocks_le (used : Finset Nat) (length : Nat) (level : Level) :
    clearBlocks used length level ≤ blocks length level :=
  (Finset.card_filter_le _ _).trans_eq (Finset.card_range _)

theorem clearBlocks_small {length : Nat} (used : Finset Nat) (small : length ≤ maxSize)
    (level : Level) : clearBlocks used length level ≤ 16384 :=
  ((clearBlocks_le used length level).trans (blocks_le length level)).trans small

variable {bytes : Bytes} {used : Finset Nat} {level : Level}

theorem exact_set (exact_bits : Exact bytes used level) (page : Nat) :
    Exact (set bytes (page / granularity level)) (insert page used) level := by
  intro block
  rw [bit_set, exact_bits block, ← Bool.decide_or]
  exact decide_eq_decide.mpr (blockUsed_insert used page block level).symm

theorem allocPageBitmaps_eq (header : MRHeader) (page : Nat) :
    allocPageBitmaps header page =
      if bit (header.bitmap 0) page = true then .error .pageInUse
      else
        let available := fun level =>
          if level = 0 ∨ bit (header.bitmap level) (page / granularity level) = false then
            decrement32 (header.available level)
          else header.available level
        if ∃ level, available level = 0xffffffff then .error .availableUnderflow
        else
          .ok
            { available := available
              bitmap := fun level =>
                set (header.bitmap level) (page / granularity level) } := by
  simp only [allocPageBitmaps, levelByte_eq, levelMask_eq, masked_eq_zero, ne_eq, div_granularity_zero, Bool.not_eq_false]
  rfl

variable {header : MRHeader} {length : Nat}

theorem allocPageBitmaps_represents (represents : Represents header length used)
    (small : length ≤ maxSize) (inside : page < length) (fresh : page ∉ used) :
    ∃ header', allocPageBitmaps header page = .ok header' ∧ Represents header' length (insert page used) := by
  have unused : ¬ BlockUsed used 0 (page / granularity 0) := by rwa [div_granularity_zero, blockUsed_zero]
  -- Each counter loses one exactly when the block was clear, so it cannot wrap.
  have counted (level : Level) :
      (if level = 0 ∨ bit (header.bitmap level) (page / granularity level) = false then
          decrement32 (header.available level)
        else header.available level) = clearBlocks (insert page used) length level := by
    have change := clearBlocks_insert used length page level inside
    have bounded := clearBlocks_small used small level
    rw [represents.bits level, represents.counts level]
    by_cases busy : BlockUsed used level (page / granularity level)
    · have other : level ≠ 0 := by
        rintro rfl
        exact unused busy
      simp only [other, busy, decide_true, Bool.true_eq_false, or_self, if_false]
      rw [change, if_pos busy, Nat.add_zero]
    · rw [if_neg busy] at change
      simp only [busy, decide_false, or_true, if_true, decrement32]
      omega
  have noWrap : ¬ ∃ level, clearBlocks (insert page used) length level = 0xffffffff := by
    rintro ⟨level, wrapped⟩
    have bounded := clearBlocks_small (insert page used) small level
    omega
  refine ⟨{ available := fun level => clearBlocks (insert page used) length level
            bitmap := fun level => set (header.bitmap level) (page / granularity level) },
    ?_, ?_, ?_, ?_⟩
  · have clear : bit (header.bitmap 0) page = false := by
      rw [represents.bits 0, decide_eq_false_iff_not, blockUsed_zero]
      exact fresh
    rw [allocPageBitmaps_eq]
    simp only [clear, Bool.false_eq_true, if_false, counted, noWrap]
  · exact (Finset.forall_mem_insert ..).mpr ⟨inside, represents.inside⟩
  · intro level
    exact exact_set (represents.bits level) page
  · intro level
    rfl

variable {fine : Level}

theorem blockUsed_refine (used : Finset Nat) {coarse : Level} {ratio : Nat}
    (positive : 0 < ratio) (ratios : granularity coarse = granularity fine * ratio) (block : Nat) :
    (∀ t < ratio, ¬ BlockUsed used fine (ratio * block + t)) ↔ ¬ BlockUsed used coarse block := by
  have parent (page : Nat) : page / granularity coarse = page / granularity fine / ratio := by
    rw [ratios, Nat.div_div_eq_div_mul]
  constructor
  · rintro clear ⟨page, member, same⟩
    apply clear (page / granularity fine % ratio) (Nat.mod_lt _ positive)
    refine ⟨page, member, ?_⟩
    rw [← same, parent, Nat.div_add_mod]
  · rintro clear t bounded ⟨page, member, same⟩
    refine clear ⟨page, member, ?_⟩
    rw [parent, same, Nat.mul_add_div positive, Nat.div_eq_of_lt bounded, Nat.add_zero]

theorem exact_erase (exact_bits : Exact bytes used level) (member : page ∈ used) {here : Nat}
    (place : page / granularity level = here) (free : Bool)
    (decided : free = true ↔ ¬ BlockUsed (used.erase page) level here) :
    Exact (update bytes (here / 8) (if free then bytes (here / 8) &&& ~~~ mask here else bytes (here / 8)))
      (used.erase page) level := by
  have grown (block : Nat) : BlockUsed used level block ↔ block = here ∨ BlockUsed (used.erase page) level block := by
    have restored := blockUsed_insert (used.erase page) page block level
    rwa [Finset.insert_erase member, place] at restored
  intro block
  cases free with
  | true =>
    have unused : ¬ BlockUsed (used.erase page) level here := decided.mp rfl
    have cleared := bit_clear bytes here block
    simp only [if_true]
    rw [show update bytes _ _ = clear bytes here from rfl, cleared, exact_bits block]
    by_cases same : block = here
    · simp [same, unused]
    · simp [grown block, same]
  | false =>
    have busy : BlockUsed (used.erase page) level here := by
      by_contra unused
      exact Bool.false_ne_true (decided.mpr unused)
    simp only [Bool.false_eq_true, if_false, update_eq_self]
    rw [exact_bits block, decide_eq_decide, grown block]
    exact or_iff_right_of_imp fun same => same ▸ busy

theorem siblings_clear {byte : BitVec 8} (exact_bits : Exact (update bytes (levelByte page fine) byte) used fine)
    (coarse : Level) (width offset : Nat) (positive : 0 < width) (ratios : granularity coarse = granularity fine * width)
    (fits : offset + width ≤ 8) (position : 8 * levelByte page fine + offset = width * (page / granularity coarse)) :
    decide (byte &&& (BitVec.ofNat 8 (2 ^ width - 1) <<< offset) = 0) = true ↔
      ¬ BlockUsed used coarse (page / granularity coarse) := by
  have window := window_eq_zero (update bytes (levelByte page fine) byte) (levelByte page fine) width offset fits
  rw [update_self] at window
  rw [decide_eq_true_iff, window, position, ← blockUsed_refine used positive ratios]
  simp only [exact_bits _, decide_eq_false_iff_not]

theorem freePageBitmaps_represents (represents : Represents header length used)
    (small : length ≤ maxSize) (member : page ∈ used) :
    ∃ header', freePageBitmaps header page = .ok header' ∧ Represents header' length (used.erase page) := by
  have inside := represents.inside page member
  have busy (level : Level) : BlockUsed used level (page / granularity level) := ⟨page, member, rfl⟩
  have allSet : ¬ ∃ level, header.bitmap level (levelByte page level) &&& levelMask page level = 0 := by
    rintro ⟨level, clear⟩
    rw [levelByte_eq, levelMask_eq, masked_eq_zero, represents.bits level] at clear
    simp [busy level] at clear
  let byte := fun level : Level => header.bitmap level (levelByte page level)
  let lv0 := byte 0 &&& ~~~ levelMask page 0
  let free1 := decide (lv0 &&& (0xf#8 <<< (4 * (page / 4 % 2))) = 0)
  let lv1 := if free1 then byte 1 &&& ~~~ levelMask page 1 else byte 1
  let free2 := decide (lv1 &&& (0x3#8 <<< (2 * (page / 8 % 4))) = 0)
  let lv2 := if free2 then byte 2 &&& ~~~ levelMask page 2 else byte 2
  let free3 := decide (lv2 &&& (0x3#8 <<< (2 * (page / 16 % 4))) = 0)
  let lv3 := if free3 then byte 3 &&& ~~~ levelMask page 3 else byte 3
  let freed : Level -> Bool := ![true, free1, free2, free3]
  let bytes : Level -> BitVec 8 := ![lv0, lv1, lv2, lv3]
  let bitmap := fun level : Level =>
    update (header.bitmap level) (levelByte page level) (bytes level)
  -- The levels are settled in turn: each sibling test reads the level below after its update.
  have exactAt (level : Level) (free : Bool)
      (value : bytes level = if free then byte level &&& ~~~ levelMask page level else byte level)
      (decided : free = true ↔ ¬ BlockUsed (used.erase page) level (page / granularity level)) :
      Exact (bitmap level) (used.erase page) level := by
    have erased := exact_erase (represents.bits level) member rfl free decided
    simpa only [bitmap, byte, value, levelByte_eq, levelMask_eq] using erased
  have decided0 : true = true ↔ ¬ BlockUsed (used.erase page) 0 (page / granularity 0) := by
    rw [div_granularity_zero, blockUsed_zero]
    simp
  have exact0 := exactAt 0 true rfl decided0
  have decided1 :=
    siblings_clear exact0 1 4 (4 * (page / 4 % 2)) (by omega) rfl (by omega) (by simp [levelByte, granularity]; omega)
  have exact1 := exactAt 1 free1 rfl decided1
  have decided2 :=
    siblings_clear exact1 2 2 (2 * (page / 8 % 4)) (by omega) rfl (by omega) (by simp [levelByte, granularity]; omega)
  have exact2 := exactAt 2 free2 rfl decided2
  have decided3 :=
    siblings_clear exact2 3 2 (2 * (page / 16 % 4)) (by omega) rfl (by omega) (by simp [levelByte, granularity]; omega)
  have decided (level : Level) : freed level = true ↔ ¬ BlockUsed (used.erase page) level (page / granularity level) := by
    fin_cases level
    · exact decided0
    · exact decided1
    · exact decided2
    · exact decided3
  refine ⟨{ available := fun level =>
              if freed level then increment32 (header.available level) else header.available level
            bitmap := bitmap }, ?_, ?_, ?_, ?_⟩
  · simp only [freePageBitmaps, allSet, if_false]
    rfl
  · intro other kept
    exact represents.inside other (Finset.mem_of_mem_erase kept)
  · exact fun level => exactAt level (freed level) (by fin_cases level <;> rfl) (decided level)
  · intro level
    have change := clearBlocks_insert (used.erase page) length page level inside
    rw [Finset.insert_erase member] at change
    have bounded := clearBlocks_small (used.erase page) small level
    show (if freed level then increment32 (header.available level) else header.available level) = _
    rw [represents.counts level]
    by_cases still : BlockUsed (used.erase page) level (page / granularity level)
    · have kept : ¬ freed level = true := fun freedTrue => (decided level).mp freedTrue still
      rw [if_pos still] at change
      rw [if_neg kept]
      omega
    · rw [if_neg still] at change
      rw [if_pos ((decided level).mpr still), increment32]
      omega

end Bincows.Pmm
