import Bincows.Memory.PageTables

set_option autoImplicit false

namespace Bincows.Paging

open BitVec

def leaf (entry : BitVec 64) (entries : List (BitVec 64)) : Option (BitVec 64 × List (BitVec 64)) :=
  (pointer entry).map (fun frame => (frame, entry :: entries))

variable {s : State} {table : BitVec 64}

section

variable {path : List Nat} {entries : List (BitVec 64)} (last : path.length = 3)
  (reached : walk s path = some (table, entries))
include last reached

theorem setEntry_writes (index : Nat) (entry : BitVec 64) (distinct : RadixTree.Distinct pointer s.memory s.pml4 4) :
    RadixTree.Distinct pointer (setEntry s table index entry).memory s.pml4 4 ∧
      walk (setEntry s table index entry) (index :: path) = leaf entry entries ∧
      ∀ q : List Nat, q.length ≤ 4 -> q ≠ index :: path -> walk (setEntry s table index entry) q = walk s q :=
  ⟨RadixTree.distinct_write_leaf index entry distinct reached (by omega),
    RadixTree.walk_write_here index entry distinct reached (by omega),
    RadixTree.walk_write_leaf index entry distinct reached (by omega)⟩

theorem setEntry_good (index : Nat) (entry : BitVec 64) (good : Good s) : Good (setEntry s table index entry) := by
  obtain ⟨distinct, -, others⟩ := setEntry_writes last reached index entry good.distinct
  refine ⟨distinct, good.zeroed_write reached (by omega), ?_, good.nodup, good.frames, good.small⟩
  intro frame member q es short reachedQ
  refine good.unused frame member q es short ((others q (Nat.le_of_lt short) ?_).symm.trans reachedQ)
  rintro rfl
  simp only [List.length_cons] at short
  omega

end

/-- From `s` to `s'` the entries from index `pti` on of the table at `path` have become `entry 0`, `entry 1` and so on. -/
structure Wrote (path : List Nat) (entries : List (BitVec 64)) (entry : Nat -> BitVec 64)
    (pti count : Nat) (s s' : State) : Prop where
  here : ∀ k < count, walk s' ((pti + k) :: path) = leaf (entry k) entries
  others : ∀ q : List Nat, q.length ≤ 4 -> (∀ k < count, q ≠ (pti + k) :: path) -> walk s' q = walk s q

variable {flags : BitVec 64}

section

variable {path : List Nat} {entries : List (BitVec 64)} {entry : Nat -> BitVec 64} {pti count : Nat}
  {s1 s' : State}

theorem Wrote.nothing : Wrote path entries entry pti 0 s s := ⟨by simp, fun _ _ _ => rfl⟩

theorem Wrote.cons (last : path.length = 3) (first : walk s1 (pti :: path) = leaf (entry 0) entries)
    (same : ∀ q : List Nat, q.length ≤ 4 -> q ≠ pti :: path -> walk s1 q = walk s q)
    (rest : Wrote path entries (fun k => entry (k + 1)) (pti + 1) count s1 s') :
    Wrote path entries entry pti (count + 1) s s' := by
  refine ⟨fun k bounded => ?_, fun q short different => ?_⟩
  · cases k with
    | zero => rw [rest.others _ (by simp [last]) (by intro j _; simp; omega), Nat.add_zero, first]
    | succ k => rw [← rest.here k (by omega), Nat.add_assoc, Nat.add_comm 1 k]
  · rw [rest.others q short, same q short (by simpa using different 0 (by omega))]
    intro k bounded
    rw [Nat.add_assoc, Nat.add_comm 1 k]
    exact different (k + 1) (by omega)

theorem mapTable_maps (last : path.length = 3) (count : Nat) :
    ∀ (s : State) (pti : Nat) (physicalAddr virtualAddr : BitVec 64), Good s ->
      walk s path = some (table, entries) -> physicalAddr &&& 0xfff = 0 ->
      (∀ k < count, pti + k < 512 -> walk s ((pti + k) :: path) = none) ->
      ∃ s' done, done = min count (512 - pti) ∧ mapTable flags table count s pti physicalAddr virtualAddr =
          .ok (s', count - done, physicalAddr + span done, virtualAddr + span done) ∧
        Good s' ∧ s'.buffer = s.buffer ∧ s'.pool = s.pool ∧ s'.pml4 = s.pml4 ∧
        Wrote path entries (fun k => flags ||| (physicalAddr + span k)) pti done s s' := by
  induction count with
  | zero =>
    intro s pti physicalAddr virtualAddr good _ _ _
    exact ⟨s, 0, by omega, by simp [mapTable], good, rfl, rfl, rfl, .nothing⟩
  | succ count ih =>
    intro s pti physicalAddr virtualAddr good reached aligned unmapped
    by_cases inside : pti < 512
    · have made : createTableEntry physicalAddr flags = .ok (flags ||| physicalAddr) := if_neg (not_not.mpr aligned)
      have free : ¬ presentEntry (s.memory table pti) = true :=
        fun present => (present_iff reached).mp present (unmapped 0 (by omega) (by omega))
      have step : mapTable flags table (count + 1) s pti physicalAddr virtualAddr =
          mapTable flags table count (setEntry s table pti (flags ||| physicalAddr)) (pti + 1)
            (physicalAddr + 0x1000) (virtualAddr + 0x1000) := by
        rw [mapTable, if_pos inside, made]
        exact if_neg free
      have good' := setEntry_good last reached pti (flags ||| physicalAddr) good
      obtain ⟨-, here, others⟩ := setEntry_writes last reached pti (flags ||| physicalAddr) good.distinct
      obtain ⟨s', done, amount, result, good'', buffer, pool, pml4, rest⟩ := ih _ (pti + 1) (physicalAddr + 0x1000)
        (virtualAddr + 0x1000) good' ((others path (by omega) (List.cons_ne_self pti path).symm).trans reached)
        (aligned_advance aligned 1) (by
          intro k bounded below
          rw [others _ (by simp [last]) (by simp only [ne_eq, List.cons.injEq, and_true]; omega),
            Nat.add_assoc, Nat.add_comm 1 k]
          exact unmapped (k + 1) (by omega) (by omega))
      refine ⟨s', done + 1, by omega, ?_, good'', buffer, pool, pml4, ?_⟩
      · rw [step, result, advance_succ, advance_succ, Nat.add_sub_add_right]
      · simp only [advance_succ] at rest
        exact .cons last (by simpa [span] using here) others rest
    · refine ⟨s, 0, by omega, ?_, good, rfl, rfl, rfl, .nothing⟩
      rw [mapTable, if_neg inside]
      simp

end

structure Maps (flags : BitVec 64) (s s' : State) (n : Nat) (physicalAddr : BitVec 64) (count : Nat) : Prop where
  good : Good s'
  pml4 : s'.pml4 = s.pml4
  mapped : ∀ k < count, ∃ entries, walk s' (indices (n + k)) =
    leaf (flags ||| (physicalAddr + BitVec.ofNat 64 (k * 0x1000))) entries
  others : ∀ m, (∀ k < count, indices m ≠ indices (n + k)) -> walk s' (indices m) = walk s (indices m)

variable {n m : Nat}

theorem indices_advance {k : Nat} (same : indices n = indices m) : indices (n + k) = indices (m + k) := by
  rw [indices_eq_iff] at *
  omega

variable {s' : State} {physicalAddr : BitVec 64} {count : Nat}

theorem Maps.congr (maps : Maps flags s s' n physicalAddr count) (same : indices n = indices m) :
    Maps flags s s' m physicalAddr count := by
  refine ⟨maps.good, maps.pml4, ?_, ?_⟩
  · intro k bounded
    rw [← indices_advance same]
    exact maps.mapped k bounded
  · intro j outside
    refine maps.others j ?_
    intro k bounded
    rw [indices_advance same]
    exact outside k bounded

theorem Maps.trans {s'' : State} {first second : Nat} (early : Maps flags s s' n physicalAddr first)
    (late : Maps flags s' s'' (n + first) (physicalAddr + span first) second)
    (room : first + second ≤ 2 ^ 36) : Maps flags s s'' n physicalAddr (first + second) := by
  refine ⟨late.good, late.pml4.trans early.pml4, ?_, ?_⟩
  · intro k bounded
    by_cases already : k < first
    · obtain ⟨entries, mapped⟩ := early.mapped k already
      refine ⟨entries, (late.others (n + k) ?_).trans mapped⟩
      intro j inside same
      rw [indices_eq_iff] at same
      omega
    · obtain ⟨entries, mapped⟩ := late.mapped (k - first) (by omega)
      rw [advance_add, Nat.add_assoc, Nat.add_sub_cancel' (by omega)] at mapped
      exact ⟨entries, mapped⟩
  · intro m outside
    rw [late.others m, early.others m]
    · exact fun k inside => outside k (by omega)
    · intro k inside
      rw [Nat.add_assoc]
      exact outside (first + k) (by omega)

theorem descend_reaches (n : Nat) (good : Good s) (supply : 3 ≤ s.buffer.length) :
    ∃ s1 e4 s2 e3 s3 e2 entries, getEntryOrAllocate s s.pml4 (n / 512 ^ 3 % 512) = .ok (s1, e4) ∧
      getEntryOrAllocate s1 (extractPointer e4) (n / 512 ^ 2 % 512) = .ok (s2, e3) ∧
      getEntryOrAllocate s2 (extractPointer e3) (n / 512 % 512) = .ok (s3, e2) ∧
      Good s3 ∧ walk s3 (tablePath n) = some (extractPointer e2, entries) ∧
      (∀ q : List Nat, q.length = 4 -> walk s3 q = walk s q) ∧
      s.buffer.length ≤ s3.buffer.length + 3 ∧ s3.pool = s.pool ∧ s3.pml4 = s.pml4 := by
  obtain ⟨s1, e4, result4, good1, walk1, others1, used1, pool1, root1⟩ :=
    getEntryOrAllocate_attaches (n / 512 ^ 3 % 512) good (show ([] : List Nat).length < 3 by simp)
      rfl (List.ne_nil_of_length_pos (by omega))
  obtain ⟨s2, e3, result3, good2, walk2, others2, used2, pool2, root2⟩ :=
    getEntryOrAllocate_attaches (n / 512 ^ 2 % 512) good1 (by simp) walk1 (List.ne_nil_of_length_pos (by omega))
  obtain ⟨s3, e2, result2, good3, walk3, others3, used3, pool3, root3⟩ :=
    getEntryOrAllocate_attaches (n / 512 % 512) good2 (by simp) walk2 (List.ne_nil_of_length_pos (by omega))
  refine ⟨s1, e4, s2, e3, s3, e2, _, result4, result3, result2, good3, walk3, ?_, by omega,
    pool3.trans (pool2.trans pool1), root3.trans (root2.trans root1)⟩
  intro q full
  have deeper : ∀ path : List Nat, path.length < 4 -> q ≠ path := by
    rintro path short rfl
    omega
  rw [others3 q (by omega) (deeper _ (by simp)), others2 q (by omega) (deeper _ (by simp)),
    others1 q (by omega) (deeper _ (by simp))]

-- Page tables that `count` pages from index `pti` on lie in.
def tablesNeeded (pti count : Nat) : Nat := if count = 0 then 0 else (pti + count + 511) / 512

variable {virtualAddr : BitVec 64}

theorem internalMapPages_step (flags : BitVec 64) (fuel : Nat)
    (needed : count ≠ 0) (good : Good s) (supply : 3 ≤ s.buffer.length)
    (aligned : physicalAddr &&& 0xfff = 0) (unmapped : ∀ k < count, walk s (indices (page virtualAddr + k)) = none) :
    ∃ s' done, done = min count (512 - page virtualAddr % 512) ∧
      internalMapPages flags (fuel + 1) s physicalAddr virtualAddr count =
        internalMapPages flags fuel s' (physicalAddr + span done) (virtualAddr + span done) (count - done) ∧
      Maps flags s s' (page virtualAddr) physicalAddr done ∧
      s.buffer.length ≤ s'.buffer.length + 3 ∧ s'.pool = s.pool := by
  obtain ⟨s1, e4, s2, e3, s3, e2, entries, result4, result3, result2, good3, reached, others, used, pool, root⟩ :=
    descend_reaches (page virtualAddr) good supply
  obtain ⟨s', done, amount, result, good', buffer', pool', root', wrote⟩ :=
    mapTable_maps rfl count s3 (page virtualAddr % 512) physicalAddr virtualAddr good3 reached aligned (by
      intro k bounded inside
      rw [← indices_within _ _ inside, others _ rfl]
      exact unmapped k bounded)
  refine ⟨s', done, amount, ?_, ⟨good', root'.trans root, ?_, ?_⟩, ?_, pool'.trans pool⟩
  · rw [internalMapPages, if_neg needed, pml4Offset_eq, pdptOffset_eq, pdOffset_eq, ptOffset_eq, result4]
    show (getEntryOrAllocate s1 _ _ >>= _) = _
    rw [result3]
    show (getEntryOrAllocate s2 _ _ >>= _) = _
    rw [result2]
    show (mapTable flags _ count s3 _ _ _ >>= _) = _
    rw [result]
    rfl
  · intro k bounded
    refine ⟨entries, ?_⟩
    rw [indices_within _ _ (by omega)]
    exact wrote.here k bounded
  · intro m outside
    rw [wrote.others (indices m) (by simp [indices]), others (indices m) rfl]
    intro k bounded
    rw [← indices_within _ _ (by omega)]
    exact outside k bounded
  · rw [buffer']
    exact used

theorem Maps.refl (flags : BitVec 64) (good : Good s) (n : Nat) (physicalAddr : BitVec 64) :
    Maps flags s s n physicalAddr 0 :=
  ⟨good, rfl, fun _ impossible => absurd impossible (by omega), fun _ _ => rfl⟩

theorem internalMapPages_maps (flags : BitVec 64) (fuel : Nat) :
    ∀ (s : State) (physicalAddr virtualAddr : BitVec 64) (count : Nat), count ≤ fuel -> Good s ->
      count ≤ 2 ^ 36 -> physicalAddr &&& 0xfff = 0 ->
      (∀ k < count, walk s (indices (page virtualAddr + k)) = none) ->
      3 * tablesNeeded (page virtualAddr % 512) count ≤ s.buffer.length ->
      ∃ s', internalMapPages flags fuel s physicalAddr virtualAddr count = .ok s' ∧
        Maps flags s s' (page virtualAddr) physicalAddr count ∧
        s.buffer.length ≤ s'.buffer.length + 3 * tablesNeeded (page virtualAddr % 512) count ∧
        s'.pool = s.pool := by
  induction fuel with
  | zero =>
    intro s physicalAddr virtualAddr count bounded good _ _ _ _
    obtain rfl : count = 0 := by omega
    exact ⟨s, rfl, Maps.refl flags good _ _, by omega, rfl⟩
  | succ fuel ih =>
    intro s physicalAddr virtualAddr count bounded good small aligned unmapped supply
    by_cases zero : count = 0
    · subst zero
      exact ⟨s, by simp [internalMapPages], Maps.refl flags good _ _, by omega, rfl⟩
    rw [tablesNeeded, if_neg zero] at supply
    obtain ⟨s', done, amount, step, maps, used, pool⟩ :=
      internalMapPages_step flags fuel zero good (by omega) aligned unmapped
    have next := page_advance virtualAddr done
    have nextIndex : page (virtualAddr + span done) % 512 = (page virtualAddr + done) % 512 := by
      rw [indices_eq_iff] at next
      omega
    have fewer : tablesNeeded (page (virtualAddr + span done) % 512) (count - done) + 1 ≤
        (page virtualAddr % 512 + count + 511) / 512 := by
      rw [tablesNeeded, nextIndex]
      split
      · omega
      · omega
    obtain ⟨s'', result, maps', used', pool'⟩ := ih s' (physicalAddr + span done)
      (virtualAddr + span done) (count - done) (by omega) maps.good (by omega)
      (aligned_advance aligned done) (by
        intro k inside
        rw [indices_advance next, Nat.add_assoc, maps.others]
        · exact unmapped (done + k) (by omega)
        · intro j early same
          rw [indices_eq_iff] at same
          omega) (by omega)
    refine ⟨s'', step.trans result, ?_, ?_, pool'.trans pool⟩
    · have whole := maps.trans (maps'.congr next) (by omega)
      rwa [Nat.add_sub_cancel' (by omega)] at whole
    · rw [tablesNeeded, if_neg zero]
      omega

theorem fill_good (good : Good s) (enough : ptaabSize ≤ s.buffer.length + s.pool.length) :
    ∃ s', fillPageTableAllocatorBuffer s ptaabSize = .ok s' ∧ Good s' ∧ s'.buffer.length = ptaabSize ∧
      s'.buffer.length + s'.pool.length = s.buffer.length + s.pool.length ∧ s'.pml4 = s.pml4 ∧
      ∀ path : List Nat, path.length ≤ 4 -> walk s' path = walk s path := by
  have small := good.small
  obtain ⟨s', result, good', buffer, pool, root, same⟩ := refill_good (ptaabSize - s.buffer.length) good (by omega) (by omega)
  refine ⟨s', ?_, good', by omega, by omega, root, same⟩
  rw [fillPageTableAllocatorBuffer, if_neg (by omega)]
  exact result

theorem mapChunks_maps (fuel : Nat) :
    ∀ (s : State) (physicalAddr virtualAddr : BitVec 64) (count : Nat), count < fuel -> Good s ->
      count ≤ 2 ^ 36 -> physicalAddr &&& 0xfff = 0 ->
      (∀ k < count, walk s (indices (page virtualAddr + k)) = none) ->
      ptaabSize + 6 * (count / 64) ≤ s.buffer.length + s.pool.length ->
      ∃ s', mapChunks flags fuel s physicalAddr virtualAddr count = .ok s' ∧
        Maps flags s s' (page virtualAddr) physicalAddr count := by
  induction fuel with
  | zero => exact fun _ _ _ _ impossible => absurd impossible (by omega)
  | succ fuel ih =>
    intro s physicalAddr virtualAddr count bounded good small aligned unmapped supply
    obtain ⟨filled, result, good', full, total, root, same⟩ := fill_good good (by omega)
    have unmapped' : ∀ k < count, walk filled (indices (page virtualAddr + k)) = none := by
      intro k inside
      rw [same _ (by simp [indices])]
      exact unmapped k inside
    -- Sixty-four pages lie in at most two page tables.
    have tables : ∀ c ≤ 64, 3 * tablesNeeded (page virtualAddr % 512) c ≤ 6 := by
      intro c short
      rw [tablesNeeded]
      split <;> omega
    have fromFilled : ∀ {s' : State} {c : Nat}, Maps flags filled s' (page virtualAddr) physicalAddr c ->
        Maps flags s s' (page virtualAddr) physicalAddr c := by
      intro s' c maps
      refine ⟨maps.good, maps.pml4.trans root, maps.mapped, ?_⟩
      intro m outside
      rw [maps.others m outside, same _ (by simp [indices])]
    simp only [ptaabSize] at *
    rw [mapChunks]
    simp only [ptaabSize, result]
    show ∃ s', (if 64 < count then _ else _) = Except.ok s' ∧ _
    split
    next more =>
      obtain ⟨s1, mapped, maps, used, pool⟩ := internalMapPages_maps flags 64 filled physicalAddr
        virtualAddr 64 (le_refl _) good' (by omega) aligned (fun k inside => unmapped' k (by omega))
        (by have := tables 64 (le_refl _); omega)
      have next := page_advance virtualAddr 64
      obtain ⟨s', result', maps'⟩ := ih s1 (physicalAddr + 0x1000 * 64) (virtualAddr + 0x1000 * 64) (count - 64)
        (by omega) maps.good (by omega) (aligned_advance aligned 64) (by
          intro k inside
          rw [show virtualAddr + 0x1000 * 64 = virtualAddr + span 64 from rfl,
            indices_advance next, Nat.add_assoc, maps.others]
          · exact unmapped' (64 + k) (by omega)
          · intro j early again
            rw [indices_eq_iff] at again
            omega) (by
          have := tables 64 (le_refl _)
          rw [pool]
          omega)
      refine ⟨s', ?_, ?_⟩
      · rw [mapped]
        exact result'
      · have whole := (fromFilled maps).trans (maps'.congr next) (by omega)
        rwa [Nat.add_sub_cancel' (by omega)] at whole
    next more =>
      obtain ⟨s', mapped, maps, -, -⟩ := internalMapPages_maps flags count filled physicalAddr
        virtualAddr count (le_refl _) good' small aligned unmapped'
        (by have := tables count (by omega); omega)
      exact ⟨s', mapped, fromFilled maps⟩

theorem getPhysAddr_eq (s : State) (vaddr : BitVec 64) :
    getPhysAddr s vaddr =
      match walk s (indices (page vaddr)) with
      | some (frame, _) => frame ||| (vaddr &&& 0xfff)
      | none => 0 := by
  simp only [getPhysAddr, pml4Offset_eq, pdptOffset_eq, pdOffset_eq, ptOffset_eq, walk, indices, RadixTree.walk, pointer]
  generalize page vaddr / 512 ^ 3 % 512 = i4
  generalize page vaddr / 512 ^ 2 % 512 = i3
  generalize page vaddr / 512 % 512 = i2
  generalize page vaddr % 512 = i1
  -- One case per level at which the walk of the source can stop.
  cases p4 : presentEntry (s.memory s.pml4 i4) with
  | false => simp
  | true =>
    simp only [if_true, Option.map_some]
    cases p3 : presentEntry (s.memory (extractPointer (s.memory s.pml4 i4)) i3) with
    | false => simp
    | true =>
      simp only [if_true, Option.map_some]
      cases p2 : presentEntry (s.memory (extractPointer (s.memory (extractPointer (s.memory s.pml4 i4)) i3)) i2) with
      | false => simp
      | true =>
        simp only [if_true, Option.map_some]
        generalize s.memory (extractPointer (s.memory (extractPointer
          (s.memory (extractPointer (s.memory s.pml4 i4)) i3)) i2)) i1 = entry
        cases p1 : presentEntry entry <;> simp

variable {o : Nat}

theorem offset_bits {vaddr : BitVec 64} (aligned : vaddr &&& 0xfff = 0) (i : Nat) (small : o < 0x1000) :
    indices (page (vaddr + BitVec.ofNat 64 (i * 0x1000 + o))) = indices (page vaddr + i) ∧
      (vaddr + BitVec.ofNat 64 (i * 0x1000 + o)) &&& 0xfff = BitVec.ofNat 64 o := by
  rw [aligned_iff] at aligned
  constructor
  · rw [indices_eq_iff, page, page, toNat_add, toNat_ofNat]
    omega
  · apply eq_of_toNat_eq
    rw [toNat_and, toNat_add, toNat_ofNat, toNat_ofNat,
      show (0xfff : BitVec 64).toNat = 2 ^ 12 - 1 from rfl, Nat.and_two_pow_sub_one_eq_mod]
    omega

section

variable {frame : BitVec 64} (aligned : frame &&& 0xfff = 0)
include aligned

theorem aligned_shift : frame.toNat = (frame.toNat / 2 ^ 12) <<< 12 := by
  rw [aligned_iff] at aligned
  rw [Nat.shiftLeft_eq]
  omega

theorem canonical_of_lt (small : frame.toNat < 2 ^ 52) : extractPointer frame = frame := by
  apply eq_of_toNat_eq
  have mask : (0x000ffffffffff000 : BitVec 64).toNat = (2 ^ 40 - 1) <<< 12 := rfl
  rw [extractPointer, toNat_and, mask, aligned_shift aligned, ← Nat.shiftLeft_and_distrib,
    Nat.and_comm, Nat.and_two_pow_sub_one_eq_mod, Nat.mod_eq_of_lt (by omega)]

theorem or_offset (small : o < 0x1000) : frame ||| BitVec.ofNat 64 o = frame + BitVec.ofNat 64 o := by
  have multiple := (aligned_iff frame).mp aligned
  apply eq_of_toNat_eq
  rw [toNat_or, toNat_add, toNat_ofNat, Nat.mod_eq_of_lt (show o < 2 ^ 64 by omega),
    Nat.mod_eq_of_lt (by omega), aligned_shift aligned, Nat.shiftLeft_add_eq_or_of_lt small]

end

theorem getPhysAddr_of_leaf (vaddr : BitVec 64) (i o : Nat) {entry : BitVec 64}
    {entries : List (BitVec 64)} (aligned : vaddr &&& 0xfff = 0) (small : o < 0x1000)
    (reached : walk s (indices (page vaddr + i)) = leaf entry entries) :
    getPhysAddr s (vaddr + BitVec.ofNat 64 (i * 0x1000 + o)) =
      if presentEntry entry then extractPointer entry ||| BitVec.ofNat 64 o else 0 := by
  obtain ⟨place, bits⟩ := offset_bits aligned i small
  rw [getPhysAddr_eq, place, reached, bits, leaf, pointer]
  cases presentEntry entry <;> rfl

theorem getPhysAddr_of_maps
    (maps : Maps flags s s' (page virtualAddr) physicalAddr count) (vAligned : virtualAddr &&& 0xfff = 0)
    (pAligned : physicalAddr &&& 0xfff = 0) (present : presentEntry flags = true)
    (noAddress : extractPointer flags = 0) (below : physicalAddr.toNat + count * 0x1000 ≤ 2 ^ 52) :
    ∀ i < count, ∀ o < 0x1000, getPhysAddr s' (virtualAddr + BitVec.ofNat 64 (i * 0x1000 + o)) =
      physicalAddr + BitVec.ofNat 64 (i * 0x1000 + o) := by
  intro i inside o small
  obtain ⟨entries, reached⟩ := maps.mapped i inside
  have aligned := aligned_advance pAligned i
  have canonical : extractPointer (physicalAddr + span i) = physicalAddr + span i := by
    apply canonical_of_lt aligned
    rw [toNat_add, toNat_ofNat]
    omega
  rw [getPhysAddr_of_leaf virtualAddr i o vAligned small reached, presentEntry_or, present, Bool.true_or, if_pos rfl,
    extractPointer_or noAddress canonical, or_offset aligned small, add_assoc, ← ofNat_add]

theorem mapPages_maps (physicalAddr virtualAddr : BitVec 64) (count : Nat) (flags : BitVec 64) (good : Good s)
    (pNonzero : physicalAddr ≠ 0) (vNonzero : virtualAddr ≠ 0) (aligned : physicalAddr &&& 0xfff = 0)
    (small : count ≤ 2 ^ 36) (supply : count + ptaabSize ≤ s.pool.length)
    (unmapped : ∀ i < count, translation s (page virtualAddr + i) = none) :
    ∃ s', mapPages s physicalAddr virtualAddr count flags = .ok s' ∧
      Maps flags s s' (page virtualAddr) physicalAddr count := by
  rw [mapPages, if_neg (not_or.mpr ⟨pNonzero, vNonzero⟩)]
  refine mapChunks_maps (count + 1) s physicalAddr virtualAddr count (by omega) good small aligned ?_ (by omega)
  intro k inside
  simpa [translation] using unmapped k inside

end Bincows.Paging
