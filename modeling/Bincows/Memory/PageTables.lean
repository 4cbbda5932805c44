import Bincows.Memory.Paging
import Bincows.Shared.RadixTree

set_option autoImplicit false

namespace Bincows.Paging

open List

def pointer (entry : BitVec 64) : Option (BitVec 64) :=
  if presentEntry entry then some (extractPointer entry) else none

-- The number of the virtual page an address lies in; the tables see its low 36 bits.
def page (virt : BitVec 64) : Nat := virt.toNat / 0x1000

def indices (n : Nat) : List Nat := [n % 512, n / 512 % 512, n / 512 ^ 2 % 512, n / 512 ^ 3 % 512]

def tablePath (n : Nat) : List Nat := [n / 512 % 512, n / 512 ^ 2 % 512, n / 512 ^ 3 % 512]

def walk (s : State) (path : List Nat) : Option (BitVec 64 × List (BitVec 64)) :=
  RadixTree.walk pointer s.memory s.pml4 path

/-- What the tables say about virtual page `n`: its entries from the page table up to the PML4,
or nothing when the page is not mapped. -/
def translation (s : State) (n : Nat) : Option (List (BitVec 64)) :=
  (walk s (indices n)).map Prod.snd

theorem offset_eq (virt : BitVec 64) (shift : Nat) : ((virt >>> shift) &&& 0x1ff).toNat = virt.toNat / 2 ^ shift % 512 := by
  rw [BitVec.toNat_and, BitVec.toNat_ushiftRight, Nat.shiftRight_eq_div_pow]
  exact Nat.and_two_pow_sub_one_eq_mod _ 9

theorem ptOffset_eq (virt : BitVec 64) : ptOffset virt = page virt % 512 := offset_eq virt 12

theorem pdOffset_eq (virt : BitVec 64) : pdOffset virt = page virt / 512 % 512 := by
  rw [pdOffset, offset_eq, page, Nat.div_div_eq_div_mul]
  norm_num

theorem pdptOffset_eq (virt : BitVec 64) : pdptOffset virt = page virt / 512 ^ 2 % 512 := by
  rw [pdptOffset, offset_eq, page, Nat.div_div_eq_div_mul]
  norm_num

theorem pml4Offset_eq (virt : BitVec 64) : pml4Offset virt = page virt / 512 ^ 3 % 512 := by
  rw [pml4Offset, offset_eq, page, Nat.div_div_eq_div_mul]
  norm_num

theorem indices_eq_iff (n m : Nat) : indices n = indices m ↔ n % 2 ^ 36 = m % 2 ^ 36 := by
  simp only [indices, List.cons.injEq, and_true]
  omega

theorem indices_within (n k : Nat) (inside : n % 512 + k < 512) : indices (n + k) = (n % 512 + k) :: tablePath n := by
  simp only [indices, tablePath, List.cons.injEq, and_true]
  omega

-- The bytes of `k` pages.
abbrev span (k : Nat) : BitVec 64 := BitVec.ofNat 64 (k * 0x1000)

theorem page_advance (virt : BitVec 64) (k : Nat) : indices (page (virt + span k)) = indices (page virt + k) := by
  rw [indices_eq_iff, page, page, BitVec.toNat_add, BitVec.toNat_ofNat]
  omega

theorem aligned_iff (addr : BitVec 64) : addr &&& 0xfff = 0 ↔ addr.toNat % 0x1000 = 0 := by
  have value : (addr &&& 0xfff).toNat = addr.toNat % 0x1000 := by
    rw [BitVec.toNat_and]
    exact Nat.and_two_pow_sub_one_eq_mod _ 12
  rw [← value, ← BitVec.toNat_inj]
  rfl

theorem aligned_advance {addr : BitVec 64} (aligned : addr &&& 0xfff = 0) (k : Nat) : (addr + span k) &&& 0xfff = 0 := by
  rw [aligned_iff] at *
  rw [BitVec.toNat_add, BitVec.toNat_ofNat]
  omega

theorem advance_succ (addr : BitVec 64) (k : Nat) : addr + 0x1000 + span k = addr + span (k + 1) := by
  simp only [span]
  rw [Nat.add_mul, BitVec.ofNat_add, BitVec.add_assoc, BitVec.add_comm (0x1000 : BitVec 64)]
  rfl

theorem advance_add (addr : BitVec 64) (j k : Nat) : addr + span j + span k = addr + span (j + k) := by
  simp only [span]
  rw [Nat.add_mul, BitVec.ofNat_add, BitVec.add_assoc]

structure Good (s : State) : Prop where
  distinct : RadixTree.Distinct pointer s.memory s.pml4 4
  zeroed : ∀ frame ∈ s.buffer, ∀ index, s.memory frame index = 0
  unused : ∀ frame ∈ s.buffer ++ s.pool, ∀ path entries, path.length < 4 -> walk s path ≠ some (frame, entries)
  nodup : (s.buffer ++ s.pool).Nodup
  frames : ∀ frame ∈ s.buffer ++ s.pool, extractPointer frame = frame
  small : s.buffer.length ≤ ptaabSize

variable {s : State} {path : List Nat} {table frame : BitVec 64} {entries : List (BitVec 64)}
  {index : Nat}

@[simp] theorem pointer_zero : pointer 0 = none := rfl

theorem walk_setEntry (s : State) (table : BitVec 64) (index : Nat) (entry : BitVec 64)
    (path : List Nat) : walk (setEntry s table index entry) path =
      RadixTree.walk pointer (RadixTree.write s.memory table index entry) s.pml4 path := rfl

theorem walk_present (reached : walk s path = some (table, entries)) (present : presentEntry (s.memory table index) = true) :
    walk s (index :: path) = some (extractPointer (s.memory table index), s.memory table index :: entries) := by
  rw [walk, RadixTree.walk_cons reached, pointer, if_pos present]
  rfl

theorem present_iff (reached : walk s path = some (table, entries)) :
    presentEntry (s.memory table index) = true ↔ walk s (index :: path) ≠ none := by
  rw [walk, RadixTree.walk_cons reached, pointer]
  split <;> simp [*]

theorem walk_zeroPages {pages : List (BitVec 64)}
    (unused : ∀ frame ∈ pages, ∀ path entries, path.length < 4 -> walk s path ≠ some (frame, entries)) :
    ∀ path : List Nat, path.length ≤ 4 -> RadixTree.walk pointer (zeroPages s.memory pages) s.pml4 path = walk s path := by
  refine RadixTree.walk_congr ?_
  intro path node entries short reached
  funext index
  rw [zeroPages, if_neg]
  intro member
  exact unused node member path entries short reached

theorem distinct_congr {s' : State} (distinct : RadixTree.Distinct pointer s.memory s.pml4 4)
    (same : ∀ path : List Nat, path.length ≤ 4 -> walk s' path = walk s path) :
    RadixTree.Distinct pointer s'.memory s'.pml4 4 := by
  intro p q node es fs shortP shortQ walkP walkQ
  exact distinct p q node es fs shortP shortQ ((same p (Nat.le_of_lt shortP)).symm.trans walkP)
    ((same q (Nat.le_of_lt shortQ)).symm.trans walkQ)

theorem refill_good (count : Nat) (good : Good s) (enough : count ≤ s.pool.length)
    (room : s.buffer.length + count ≤ ptaabSize) :
    ∃ s', refill s count = .ok s' ∧ Good s' ∧ s'.buffer.length = s.buffer.length + count ∧
      s'.pool.length = s.pool.length - count ∧ s'.pml4 = s.pml4 ∧
      ∀ path : List Nat, path.length ≤ 4 -> walk s' path = walk s path := by
  have taken : ∀ frame ∈ s.pool.take count, frame ∈ s.buffer ++ s.pool :=
    fun frame member => mem_append_right _ (mem_of_mem_take member)
  have same := walk_zeroPages (fun frame member => good.unused frame (taken frame member))
  have members : ∀ frame, frame ∈ ((s.pool.take count).reverse ++ s.buffer) ++ s.pool.drop count ↔
      frame ∈ s.buffer ++ s.pool := by
    intro frame
    have split := congrArg (frame ∈ ·) (take_append_drop count s.pool)
    simp only [mem_append, mem_reverse, ← split]
    tauto
  refine ⟨_, if_neg (Nat.not_lt.mpr enough), ⟨?_, ?_, ?_, ?_, ?_, ?_⟩, ?_, ?_, rfl, same⟩
  · exact distinct_congr good.distinct same
  · intro frame member index
    rcases mem_append.mp member with new | old
    · exact if_pos (mem_reverse.mp new)
    · by_cases again : frame ∈ s.pool.take count
      · exact if_pos again
      · exact (if_neg again).trans (good.zeroed frame old index)
  · intro frame member path entries short reached
    exact good.unused frame ((members frame).mp member) path entries short
      ((same path (Nat.le_of_lt short)).symm.trans reached)
  · have split : (s.buffer ++ (s.pool.take count ++ s.pool.drop count)).Nodup := by
      rw [take_append_drop]
      exact good.nodup
    have moved : ((s.pool.take count).reverse ++ s.buffer).Perm (s.buffer ++ s.pool.take count) :=
      perm_append_comm.trans ((reverse_perm _).append_left _)
    rw [← append_assoc] at split
    exact (moved.append_right _).nodup_iff.mpr split
  · intro frame member
    exact good.frames frame ((members frame).mp member)
  · simp only [length_append, length_reverse, length_take]
    omega
  · simp only [length_append, length_reverse, length_take]
    omega
  · simp only [length_drop]

theorem Good.zeroed_write {entry : BitVec 64} (good : Good s)
    (reached : walk s path = some (table, entries)) (short : path.length < 4) :
    ∀ frame ∈ s.buffer, ∀ i, RadixTree.write s.memory table index entry frame i = 0 := by
  intro frame member i
  refine (RadixTree.write_other ?_).trans (good.zeroed frame member i)
  rintro ⟨rfl, -⟩
  exact good.unused frame (mem_append_left _ member) path entries short reached

theorem presentEntry_eq (entry : BitVec 64) : presentEntry entry = entry.getLsbD 0 := by
  have value : (entry &&& presentFlag).toNat = entry.toNat % 2 := by
    rw [BitVec.toNat_and]
    exact Nat.and_two_pow_sub_one_eq_mod _ 1
  have zero : entry &&& presentFlag = 0 ↔ entry.toNat % 2 = 0 := by
    rw [← value, ← BitVec.toNat_inj]
    rfl
  rw [presentEntry, BitVec.getLsbD, Nat.testBit_zero, decide_eq_decide, ne_eq, zero]
  omega

theorem presentEntry_or (flags entry : BitVec 64) :
    presentEntry (flags ||| entry) = (presentEntry flags || presentEntry entry) := by
  rw [presentEntry_eq, presentEntry_eq, presentEntry_eq, BitVec.getLsbD_or]

theorem extractPointer_or {flags : BitVec 64} (noAddress : extractPointer flags = 0)
    (canonical : extractPointer frame = frame) : extractPointer (flags ||| frame) = frame := by
  have split : extractPointer (flags ||| frame) = extractPointer flags ||| extractPointer frame := BitVec.and_or_distrib_left
  rw [split, noAddress, canonical]
  exact BitVec.zero_or

theorem aligned_of_canonical (canonical : extractPointer frame = frame) : frame &&& 0xfff = 0 := by
  rw [← canonical, extractPointer, BitVec.and_comm, ← BitVec.and_assoc]
  exact BitVec.zero_and

theorem getEntryOrAllocate_attaches (index : Nat) (good : Good s) (short : path.length < 3)
    (reached : walk s path = some (table, entries)) (supply : s.buffer ≠ []) :
    ∃ s' entry, getEntryOrAllocate s table index = .ok (s', entry) ∧ Good s' ∧
      walk s' (index :: path) = some (extractPointer entry, entry :: entries) ∧
      (∀ q : List Nat, q.length ≤ 4 -> q ≠ index :: path -> walk s' q = walk s q) ∧
      s.buffer.length ≤ s'.buffer.length + 1 ∧ s'.pool = s.pool ∧ s'.pml4 = s.pml4 := by
  by_cases present : presentEntry (s.memory table index) = true
  · refine ⟨s, s.memory table index, ?_, good, walk_present reached present, fun _ _ _ => rfl, by omega, rfl, rfl⟩
    simp [getEntryOrAllocate, present]
  obtain ⟨frame, rest, stock⟩ := exists_cons_of_ne_nil supply
  have inBuffer : frame ∈ s.buffer := by simp [stock]
  have inSupply : frame ∈ s.buffer ++ s.pool := mem_append_left _ inBuffer
  have absent : pointer (s.memory table index) = none := if_neg present
  let entry := (presentFlag ||| plUS ||| plRW) ||| frame
  have isPresent : presentEntry entry = true := by
    rw [presentEntry_or]
    rfl
  have canonical := good.frames frame inSupply
  have extracted : extractPointer entry = frame := extractPointer_or rfl canonical
  have target : pointer entry = some frame := by
    rw [pointer, if_pos isPresent, extracted]
  have empty (i : Nat) : pointer (s.memory frame i) = none := by rw [good.zeroed frame inBuffer i, pointer_zero]
  have apart : frame ≠ table := by
    rintro rfl
    exact good.unused frame inSupply path entries (by omega) reached
  have old := RadixTree.walk_attach good.distinct reached (show path.length < 4 by omega) absent target apart empty
  have here := RadixTree.walk_write_here index entry good.distinct reached (show path.length < 4 by omega)
  rw [target] at here
  have result : getEntryOrAllocate s table index = .ok (setEntry { s with buffer := rest } table index entry, entry) := by
    have made : createTableEntry frame (presentFlag ||| plUS ||| plRW) = .ok entry :=
      if_neg (not_not.mpr (aligned_of_canonical canonical))
    simp only [getEntryOrAllocate, present, allocPageTable, stock]
    show (createTableEntry frame (presentFlag ||| plUS ||| plRW) >>= _) = _
    rw [made]
    rfl
  have nodup := good.nodup
  rw [stock, cons_append, nodup_cons] at nodup
  have fewer : ∀ f, f ∈ rest ++ s.pool -> f ∈ s.buffer ++ s.pool ∧ f ≠ frame := by
    intro f member
    refine ⟨stock ▸ mem_cons_of_mem _ member, ?_⟩
    rintro rfl
    exact nodup.1 member
  refine ⟨_, entry, result, ⟨?_, ?_, ?_, ?_, ?_, ?_⟩, ?_, old, ?_, rfl, rfl⟩
  · exact RadixTree.distinct_attach good.distinct reached (by omega) absent target empty
      (fun p es shortP => good.unused frame inSupply p es shortP)
  · exact fun f member => good.zeroed_write reached (by omega) f (stock ▸ mem_cons_of_mem _ member)
  · intro f member q es shortQ reachedQ
    obtain ⟨stillThere, different⟩ := fewer f member
    by_cases new : q = index :: path
    · subst new
      rw [walk_setEntry, here] at reachedQ
      cases reachedQ
      exact different rfl
    · exact good.unused f stillThere q es shortQ ((old q (Nat.le_of_lt shortQ) new).symm.trans reachedQ)
  · exact nodup.2
  · exact fun f member => good.frames f (fewer f member).1
  · have := good.small
    rw [stock, length_cons] at this
    show rest.length ≤ ptaabSize
    omega
  · rw [walk_setEntry, extracted]
    exact here
  · show s.buffer.length ≤ rest.length + 1
    rw [stock, length_cons]

end Bincows.Paging
