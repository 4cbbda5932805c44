import Bincows.Memory.PageTables
import Bincows.Memory.PhysicalRuns

set_option autoImplicit false

/-! `init_pmm`: the usable entries of the boot memory map are cut into ranges of at most `MAX_SIZE` pages. -/

namespace Bincows.Pmm

open List BitVec
open Paging (aligned_iff)

def minSize : Nat := 10

def tableSize : Nat := 512

inductive MmapeType where
  | usable
  | kernel
  | bootloaderReclaimable
  | acpiReclaimable
  | acpiNvs
  deriving DecidableEq

structure Mmape where
  pbase : BitVec 64
  length : BitVec 32
  type : MmapeType
  deriving DecidableEq

-- The new base keeps only the low bits of the old one.
def alignBase (base size : BitVec 64) : BitVec 64 × BitVec 64 :=
  if base &&& 0xfff ≠ 0 then
    let newBase := (base &&& 0xfff) + 0x1000
    (newBase, size + (newBase - base))
  else (base, size)

def splitEntry : Nat -> BitVec 64 -> Nat -> List (Nat × Nat)
  | 0, _, _ => []
  | fuel + 1, base, size =>
    if size < minSize then []
    else
      let s := min size maxSize
      (base.toNat, s) :: splitEntry fuel (base + BitVec.ofNat 64 (s * 0x1000)) (size - s)

def Mmape.pieces (e : Mmape) : List (Nat × Nat) :=
  if e.type = .usable then
    let region := alignBase e.pbase (e.length.setWidth 64)
    let size := region.2.toNat / 0x1000
    splitEntry size region.1 size
  else []

-- The table holds 2 ^ 23 pages at most: the 32-bit `total_pages` wraps only behind its end, which nothing checks.
def initFromMap (mmap : List Mmape) : Except Fault State := initPmm (mmap.flatMap Mmape.pieces)

def State.ranges (s : State) : List MemoryRange := (List.range s.nRanges).map s.range

def pagesFrom (base : BitVec 64) (count : Nat) : List (BitVec 64) :=
  (List.range count).map fun k => base + BitVec.ofNat 64 (k * 0x1000)

-- The header page and the body pages.
def MemoryRange.pages (range : MemoryRange) : List (BitVec 64) :=
  pagesFrom (BitVec.ofNat 64 range.base) (range.length + 1)

structure Initialised (mmap : List Mmape) (s : State) : Prop where
  few : s.nRanges ≤ tableSize
  aligned : ∀ range ∈ s.ranges, range.base % 0x1000 = 0
  inside : ∀ page ∈ s.ranges.flatMap MemoryRange.pages, ∃ e ∈ mmap, e.type = .usable ∧
    ∀ i < 0x1000, (page + BitVec.ofNat 64 i - e.pbase).toNat < e.length.toNat
  disjoint : (s.ranges.flatMap MemoryRange.pages).Nodup
  total : s.totalAvailablePages = (s.ranges.map MemoryRange.length).sum

-- What remains of `size` pages without a last piece that is too small.
def keptPages (size : Nat) : Nat := if size % maxSize < minSize then size - size % maxSize else size

def Mmape.kept (e : Mmape) : Nat :=
  if e.type = .usable ∧ e.pbase &&& 0xfff = 0 then keptPages (e.length.toNat / 0x1000) else 0

-- No range is made of an entry whose base is not aligned.
def Mmape.Regular (e : Mmape) : Prop := e.type = .usable -> e.pbase &&& 0xfff ≠ 0 ->
  (e.length.setWidth 64 + ((e.pbase &&& 0xfff) + 0x1000 - e.pbase)).toNat / 0x1000 < minSize

structure Regular (mmap : List Mmape) : Prop where
  aligned : ∀ e ∈ mmap, e.Regular
  few : (mmap.map fun e => (e.kept + maxSize - 1) / maxSize).sum ≤ tableSize
  disjoint : (mmap.flatMap fun e => pagesFrom e.pbase e.kept).Nodup

section pieces

variable {base : BitVec 64} {size : Nat}

theorem pagesFrom_add (base : BitVec 64) (m n : Nat) :
    pagesFrom base (m + n) = pagesFrom base m ++ pagesFrom (base + BitVec.ofNat 64 (m * 0x1000)) n := by
  simp only [pagesFrom, range_add, map_append, map_map, Function.comp_def, add_assoc, ofNat_add, Nat.add_mul]

theorem keptPages_le (size : Nat) : keptPages size ≤ size := by
  rw [keptPages]
  split <;> omega

theorem keptPages_small (small : size < minSize) : keptPages size = 0 := by
  rw [minSize] at small
  have whole : size % 16384 = size := Nat.mod_eq_of_lt (by omega)
  simp only [keptPages, minSize, maxSize, whole, small, if_true, Nat.sub_self]

theorem keptPages_step (large : minSize ≤ size) :
    keptPages size = min size maxSize + keptPages (size - min size maxSize) := by
  rcases Nat.lt_or_ge size maxSize with small | big
  · have last : keptPages 0 = 0 := rfl
    rw [Nat.min_eq_left small.le, Nat.sub_self, last, keptPages, Nat.mod_eq_of_lt small,
      if_neg (Nat.not_lt.mpr large), Nat.add_zero]
  have rest : size % maxSize ≤ size - maxSize := by
    rw [Nat.mod_eq_sub_mod big]
    exact Nat.mod_le _ _
  rw [Nat.min_eq_right big, keptPages, keptPages, ← Nat.mod_eq_sub_mod big]
  split <;> omega

def toRange (piece : Nat × Nat) : MemoryRange := { base := piece.1, length := piece.2 - 1 }

structure Fill (base : BitVec 64) (kept : Nat) (pieces : List (Nat × Nat)) : Prop where
  count : pieces.length = (kept + maxSize - 1) / maxSize
  each : ∀ piece ∈ pieces, minSize ≤ piece.2 ∧ piece.1 % 0x1000 = base.toNat % 0x1000
  pages : pieces.flatMap (fun piece => (toRange piece).pages) = pagesFrom base kept

theorem fill_nil (base : BitVec 64) : Fill base 0 [] := ⟨rfl, nofun, rfl⟩

theorem splitEntry_fill (fuel : Nat) (base : BitVec 64) (enough : size ≤ fuel) :
    Fill base (keptPages size) (splitEntry fuel base size) := by
  induction fuel generalizing base size with
  | zero =>
    rw [keptPages_small (by simp only [minSize]; omega)]
    exact fill_nil base
  | succ fuel ih =>
    rw [splitEntry]
    split
    case isTrue small =>
      rw [keptPages_small small]
      exact fill_nil base
    case isFalse large =>
      have step := keptPages_step (Nat.not_lt.mp large)
      have some : minSize ≤ min size maxSize := Nat.le_min.mpr ⟨Nat.not_lt.mp large, by decide⟩
      have most : min size maxSize ≤ maxSize := Nat.min_le_right _ _
      have all : keptPages (size - min size maxSize) = 0 ∨ min size maxSize = maxSize := by
        rcases Nat.lt_or_ge size maxSize with less | more
        · rw [Nat.min_eq_left less.le, Nat.sub_self]
          exact .inl rfl
        · exact .inr (Nat.min_eq_right more)
      simp only [minSize, maxSize] at *
      generalize min size 16384 = s at *
      have rest := ih (base + BitVec.ofNat 64 (s * 0x1000)) (show size - s ≤ fuel by omega)
      generalize keptPages (size - s) = kept at *
      constructor
      · rw [length_cons, rest.count, step]
        simp only [maxSize]
        omega
      · refine forall_mem_cons.mpr ⟨⟨some, rfl⟩, fun piece member => ?_⟩
        obtain ⟨low, place⟩ := rest.each piece member
        rw [toNat_add, toNat_ofNat] at place
        exact ⟨low, by omega⟩
      · have first : (toRange (base.toNat, s)).pages = pagesFrom base s := by
          simp only [toRange, MemoryRange.pages, ofNat_toNat, setWidth_eq, Nat.sub_add_cancel (show 1 ≤ s by omega)]
        rw [flatMap_cons, first, rest.pages, step, pagesFrom_add]

end pieces

theorem Mmape.pieces_spec (e : Mmape) : (∀ piece ∈ e.pieces, minSize ≤ piece.2) ∧
    ((∀ piece ∈ e.pieces, piece.1 % 0x1000 = 0) ↔ e.Regular) ∧ (e.Regular -> Fill e.pbase e.kept e.pieces) := by
  have fill (base size : BitVec 64) := splitEntry_fill (size.toNat / 0x1000) base le_rfl
  by_cases usable : e.type = .usable
  case neg =>
    have kept : e.kept = 0 := if_neg fun both => usable both.1
    rw [Mmape.pieces, if_neg usable, kept]
    exact ⟨nofun, iff_of_true nofun fun same => absurd same usable, fun _ => fill_nil _⟩
  rw [Mmape.pieces, if_pos usable, alignBase]
  by_cases aligned : e.pbase &&& 0xfff = 0
  · have size : (e.length.setWidth 64).toNat = e.length.toNat := toNat_setWidth_of_le (by decide)
    have all := fill e.pbase (e.length.setWidth 64)
    rw [if_neg (not_not_intro aligned), Mmape.kept, if_pos ⟨usable, aligned⟩, ← size]
    refine ⟨fun piece member => (all.each piece member).1,
      iff_of_true (fun piece member => ?_) fun _ odd => absurd aligned odd,
      fun _ => all⟩
    exact (all.each piece member).2.trans ((aligned_iff _).mp aligned)
  · have kept : e.kept = 0 := if_neg fun both => aligned both.2
    have mask : e.pbase &&& 0xfff &&& 0xfff = 0 ↔ _ := aligned_iff _
    rw [BitVec.and_assoc, BitVec.and_self] at mask
    have odd : ((e.pbase &&& 0xfff) + 0x1000).toNat % 0x1000 ≠ 0 := by
      have other := mask.not.mp aligned
      rw [toNat_add, show (0x1000 : BitVec 64).toNat = 0x1000 from rfl]
      omega
    rw [if_pos aligned, kept]
    generalize bytes : e.length.setWidth 64 + ((e.pbase &&& 0xfff) + 0x1000 - e.pbase) = size
    have all := fill ((e.pbase &&& 0xfff) + 0x1000) size
    have regular : e.Regular ↔ size.toNat / 0x1000 < minSize := by
      rw [Mmape.Regular, bytes]
      exact ⟨fun regular => regular usable aligned, fun small _ _ => small⟩
    simp only [regular, bytes]
    refine ⟨fun piece member => (all.each piece member).1, ?_⟩
    generalize size.toNat / 0x1000 = n
    cases n with
    | zero => exact ⟨iff_of_true nofun (by decide), fun _ => fill_nil _⟩
    | succ n =>
      rw [splitEntry]
      split
      case isTrue small => exact ⟨iff_of_true nofun small, fun _ => fill_nil _⟩
      case isFalse large => exact ⟨iff_of_false (fun each => odd (forall_mem_cons.mp each).1) large,
        fun small => absurd small large⟩

theorem State.length_ranges (s : State) : s.ranges.length = s.nRanges := by
  rw [State.ranges, length_map, length_range]

theorem initRanges_ranges (s : State) (pieces : List (Nat × Nat)) (large : ∀ piece ∈ pieces, minSize ≤ piece.2) :
    (initRanges s pieces).Exactly (∀ piece ∈ pieces, piece.1 % 0x1000 = 0) fun s' =>
      s'.ranges = s.ranges ++ pieces.map toRange := by
  induction pieces generalizing s with
  | nil => exact .ok nofun (append_nil _).symm
  | cons piece rest ih =>
    obtain ⟨some, large⟩ := forall_mem_cons.mp large
    rw [initRanges, forall_mem_cons]
    by_cases aligned : piece.1 % 0x1000 = 0
    · rw [initMemoryRange_eq s aligned (some.trans_lt' (by decide))]
      refine (ih _ large).mono (by simp only [aligned, true_and]) fun s' _ made => ?_
      rw [made, map_cons, append_cons]
      refine congrArg (· ++ _) ?_
      simp only [State.ranges, range_succ, map_append, map_cons, map_nil, Function.update_self]
      refine congrArg (· ++ _) (map_congr_left fun i inside => ?_)
      exact Function.update_of_ne (mem_range.mp inside).ne _ _
    · rw [initMemoryRange, if_pos aligned]
      exact .error fun both => aligned both.1

theorem sum_pages {pieces : List (Nat × Nat)} (large : ∀ piece ∈ pieces, minSize ≤ piece.2) :
    (pieces.map Prod.snd).sum = ((pieces.map toRange).map MemoryRange.length).sum + pieces.length := by
  induction pieces with
  | nil => rfl
  | cons piece rest ih =>
    obtain ⟨some, large⟩ := forall_mem_cons.mp large
    have sum := ih large
    simp only [map_cons, sum_cons, length_cons, toRange, minSize] at *
    omega

theorem initialised_iff (mmap : List Mmape) : (∃ s, initFromMap mmap = .ok s ∧ Initialised mmap s) ↔ Regular mmap := by
  have large : ∀ piece ∈ mmap.flatMap Mmape.pieces, minSize ≤ piece.2 := forall_mem_flatMap.mpr fun e _ => e.pieces_spec.1
  have regular : (∀ piece ∈ mmap.flatMap Mmape.pieces, piece.1 % 0x1000 = 0) ↔ ∀ e ∈ mmap, e.Regular :=
    forall_mem_flatMap.trans (forall₂_congr fun e _ => e.pieces_spec.2.1)
  have exactly : (initRanges emptyState (mmap.flatMap Mmape.pieces)).Exactly (∀ e ∈ mmap, e.Regular) fun s =>
      s.ranges = (mmap.flatMap Mmape.pieces).map toRange :=
    (initRanges_ranges emptyState _ large).mono regular fun _ _ made => made
  have shape {s : State} (aligned : ∀ e ∈ mmap, e.Regular) (made : s.ranges = (mmap.flatMap Mmape.pieces).map toRange) :
      s.nRanges = (mmap.map fun e => (e.kept + maxSize - 1) / maxSize).sum ∧
        s.ranges.flatMap MemoryRange.pages = mmap.flatMap fun e => pagesFrom e.pbase e.kept := by
    have fill : ∀ e ∈ mmap, Fill e.pbase e.kept e.pieces := fun e member => e.pieces_spec.2.2 (aligned e member)
    constructor
    · rw [← s.length_ranges, made, length_map, length_flatMap]
      exact congrArg List.sum (map_congr_left fun e member => (fill e member).count)
    · rw [made, flatMap_map, flatMap_assoc]
      exact flatMap_congr fun e member => (fill e member).pages
  constructor
  · rintro ⟨s, result, initialised⟩
    obtain ⟨s, ranges, same⟩ := bind_eq_ok.mp result
    cases same
    obtain ⟨aligned, made⟩ := exactly.2 s ranges
    obtain ⟨count, pages⟩ := shape aligned made
    exact ⟨aligned, count ▸ initialised.few, pages ▸ initialised.disjoint⟩
  · rintro ⟨aligned, few, disjoint⟩
    obtain ⟨s, ranges, made⟩ := exactly.returns aligned
    obtain ⟨count, pages⟩ := shape aligned made
    refine ⟨_, bind_eq_ok.mpr ⟨s, ranges, rfl⟩, count ▸ few, ?_, ?_, pages ▸ disjoint, ?_⟩
    · show ∀ range ∈ s.ranges, _
      rw [made]
      exact forall_mem_map.mpr (regular.mpr aligned)
    · show ∀ page ∈ s.ranges.flatMap MemoryRange.pages, _
      rw [pages]
      intro page member
      obtain ⟨e, inside, here⟩ := mem_flatMap.mp member
      obtain ⟨k, small, rfl⟩ := mem_map.mp here
      rw [mem_range, Mmape.kept] at small
      split at small
      case isTrue both =>
        have bound := keptPages_le (e.length.toNat / 0x1000)
        refine ⟨e, inside, both.1, fun i below => ?_⟩
        simp only [toNat_sub, toNat_add, toNat_ofNat]
        omega
      case isFalse => exact absurd small (by omega)
    · show _ - s.nRanges = (s.ranges.map MemoryRange.length).sum
      rw [sum_pages large, ← length_map toRange, ← made, s.length_ranges, Nat.add_sub_cancel]

theorem init_fails_unaligned : initFromMap [⟨0x800, 0x10000, .usable⟩] = .error .unaligned := by rfl

end Bincows.Pmm
