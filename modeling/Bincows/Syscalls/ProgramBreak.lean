import Bincows.Shared.Execution

set_option autoImplicit false

/-! `sc_sbrk` over the virtual pages of a process: which of them are mapped, which page tables are
there (level 1 to 3), those in `page_table_allocator_buffer` and the stock of the physical allocator. -/

namespace Bincows.Syscalls.ProgramBreak

open Function

def pageSize : Nat := 0x1000

def maxAlloc : Nat := 4096

def ptaabRefill : Nat := 16

inductive Fault where
  | unaligned
  | outOfMemory
  | noRange
  | badFree (page : Nat)
  | outOfBufferedPages
  | alreadyMapped (page : Nat)
  | entryNotPresent (page : Nat)
  | notMapped (page : Nat)
  | diverges
  deriving DecidableEq

-- `total_available_pages`, and those of them in ranges of `mr_lists`: a range that has been emptied is not listed again.
structure Stock where
  available : Nat
  listed : Nat

def Stock.least (stock : Stock) : Nat := min stock.available stock.listed

-- What `physfree` does with the frame behind a page: `takes` unless it asserts, `relists` if the range is on a list.
structure Frames where
  takes : Nat -> Bool
  relists : Nat -> Bool

structure Space where
  mapped : Nat -> Bool
  tables : Nat -> Nat -> Bool
  buffer : Nat
  stock : Stock

structure Process where
  space : Space
  heapBegin : Nat
  brk : Nat
  unalignedBrk : Nat

def tableOf (level page : Nat) : Nat := page / 512 ^ level

def physalloc (s : Space) (size : Nat) : Except Fault Space :=
  if s.stock.available < size then .error .outOfMemory
  else if s.stock.listed < size then .error .noRange
  else .ok { s with stock := ⟨s.stock.available - size, s.stock.listed - size⟩ }

def fillPageTableAllocatorBuffer (s : Space) (n : Nat) : Except Fault Space :=
  if n < s.buffer then .ok s
  else do
    let s ← physalloc s (n - s.buffer)
    return { s with buffer := n }

def getEntryOrAllocate (s : Space) (level page : Nat) : Except Fault Space :=
  if s.tables level (tableOf level page) then .ok s
  else if s.buffer = 0 then .error .outOfBufferedPages
  else .ok { s with
    tables := update s.tables level (update (s.tables level) (tableOf level page) true)
    buffer := s.buffer - 1 }

def mapPage (s : Space) (page : Nat) : Except Fault Space := do
  let s ← getEntryOrAllocate s 3 page
  let s ← getEntryOrAllocate s 2 page
  let s ← getEntryOrAllocate s 1 page
  if s.mapped page then .error (.alreadyMapped page) else return { s with mapped := update s.mapped page true }

def mapRange : Nat -> Space -> Nat -> Except Fault Space
  | 0, s, _ => .ok s
  | count + 1, s, page => do
    let s ← mapPage s page
    mapRange count s (page + 1)

def allocChunk (s : Space) (page size : Nat) : Except Fault Space := do
  let s ← fillPageTableAllocatorBuffer s ptaabRefill
  let s ← physalloc s size
  mapRange size s page

def allocPages : Nat -> Space -> Nat -> Nat -> Except Fault Space
  | 0, s, _, count => if count = 0 then .ok s else .error .diverges
  | fuel + 1, s, page, count =>
    if count = 0 then .ok s
    else do
      let size := min count maxAlloc
      let s ← allocChunk s page size
      allocPages fuel s (page + size) (count - size)

def physfree (frames : Frames) (s : Space) (page : Nat) : Except Fault Space :=
  if frames.takes page then
    .ok { s with stock := ⟨s.stock.available + 1, s.stock.listed + (frames.relists page).toNat⟩ }
  else .error (.badFree page)

def unmapPage (frames : Frames) (s : Space) (page : Nat) : Except Fault Space :=
  if ¬ (s.tables 3 (tableOf 3 page) ∧ s.tables 2 (tableOf 2 page) ∧ s.tables 1 (tableOf 1 page)) then
    .error (.entryNotPresent page)
  else if ¬ s.mapped page then .error (.notMapped page)
  else do
    let s ← physfree frames s page
    return { s with mapped := update s.mapped page false }

def unmapPages (frames : Frames) : Nat -> Space -> Nat -> Except Fault Space
  | 0, s, _ => .ok s
  | count + 1, s, page => do
    let s ← unmapPage frames s page
    unmapPages frames count s (page + 1)

def isUserPrivate (vaddr : Nat) : Prop := vaddr < 0x8000000000

def isUserShared (vaddr : Nat) : Prop := 0x10000000000 ≤ vaddr ∧ vaddr < 0x18000000000

def isUser (vaddr : Nat) : Prop := isUserPrivate vaddr ∨ isUserShared vaddr

instance (vaddr : Nat) : Decidable (isUser vaddr) :=
  inferInstanceAs (Decidable (vaddr < _ ∨ _ ≤ vaddr ∧ vaddr < _))

def signed (word : Nat) : Int := if word < 2 ^ 63 then word else word - 2 ^ 64

def unalignedNewBrk (p : Process) (delta : Int) : Nat := ((p.unalignedBrk + delta) % 2 ^ 64).toNat

def alignUp (addr : Nat) : Nat := (addr + 0xfff) % 2 ^ 64 / pageSize * pageSize

def newBrk (p : Process) (delta : Int) : Nat := alignUp (unalignedNewBrk p delta)

def neededPages (p : Process) (delta : Int) : Int :=
  signed ((newBrk p delta + (2 ^ 64 - p.brk)) % 2 ^ 64) / pageSize

-- The last test compares a number of bytes with a number of pages.
def Refused (p : Process) (delta : Int) : Prop :=
  ¬ isUser (newBrk p delta) ∨ unalignedNewBrk p delta < p.heapBegin ∨
    (p.space.stock.available * 0x1000 : Int) ≤ neededPages p delta

instance (p : Process) (delta : Int) : Decidable (Refused p delta) :=
  inferInstanceAs (Decidable (_ ∨ _ ∨ _))

variable (frames : Frames)

def resize (p : Process) (delta : Int) : Except Fault Space :=
  let needed := neededPages p delta
  if 0 < needed then allocPages needed.toNat p.space (p.brk / pageSize) needed.toNat
  else unmapPages frames (-needed).toNat p.space (newBrk p delta / pageSize)

/-- The returned address is `none` for -1. -/
def scSbrk (p : Process) (delta : Int) : Except Fault (Process × Option Nat) :=
  if p.brk % pageSize ≠ 0 then .error .unaligned
  else if Refused p delta then .ok (p, none)
  else do
    let space ← resize frames p delta
    return ({ p with space, unalignedBrk := unalignedNewBrk p delta, brk := newBrk p delta }, some p.brk)

def Tabled (s : Space) : Prop := ∀ page, s.mapped page -> ∀ level, 1 ≤ level -> level ≤ 3 ->
  s.tables level (tableOf level page)

def missing (s : Space) (level page : Nat) : Nat :=
  if s.tables level (tableOf level page) then 0 else 1

section mapping

variable {s s' : Space} {page count level : Nat}

structure Grows (s s' : Space) : Prop where
  tables : ∀ level index, s.tables level index -> s'.tables level index
  mapped : s'.mapped = s.mapped
  stock : s'.stock = s.stock

theorem Grows.trans {s'' : Space} (first : Grows s s') (second : Grows s' s'') : Grows s s'' :=
  ⟨fun level index there => second.tables level index (first.tables level index there),
    second.mapped.trans first.mapped, second.stock.trans first.stock⟩

theorem getEntryOrAllocate_ok (s : Space) (level page : Nat) (enough : missing s level page ≤ s.buffer) :
    ∃ s', getEntryOrAllocate s level page = .ok s' ∧ Grows s s' ∧ s'.tables level (tableOf level page) ∧
      s'.buffer = s.buffer - missing s level page ∧ ∀ other, other ≠ level -> s'.tables other = s.tables other := by
  rw [getEntryOrAllocate]
  by_cases present : s.tables level (tableOf level page)
  · have none : missing s level page = 0 := if_pos present
    rw [if_pos present]
    exact ⟨s, rfl, ⟨fun _ _ => id, rfl, rfl⟩, present, by rw [none]; rfl, fun _ _ => rfl⟩
  have one : missing s level page = 1 := if_neg present
  rw [if_neg present, if_neg (by omega)]
  refine ⟨_, rfl, ⟨?_, rfl, rfl⟩, ?_, by rw [one], fun other different => update_of_ne different ..⟩
  · intro l index there
    show update s.tables level (update (s.tables level) (tableOf level page) true) l index = true
    rw [update_apply]
    split
    next same =>
      rw [update_apply, ← same]
      split
      · rfl
      · exact there
    next => exact there
  · show update s.tables level (update (s.tables level) (tableOf level page) true) level _ = true
    rw [update_self, update_self]

def missingTables (s : Space) (page : Nat) : Nat :=
  missing s 3 page + missing s 2 page + missing s 1 page

theorem mapPage_ok (enough : missingTables s page ≤ s.buffer) (unmapped : s.mapped page = false) :
    ∃ s', mapPage s page = .ok s' ∧ (∀ level index, s.tables level index -> s'.tables level index) ∧
      s'.mapped = update s.mapped page true ∧ s'.stock = s.stock ∧
      (∀ level, 1 ≤ level -> level ≤ 3 -> s'.tables level (tableOf level page)) ∧
      s'.buffer = s.buffer - missingTables s page := by
  rw [missingTables] at enough
  obtain ⟨s3, returns3, grows3, table3, buffer3, others3⟩ := getEntryOrAllocate_ok s 3 page (by omega)
  have same2 : missing s3 2 page = missing s 2 page := by rw [missing, others3 2 (by omega), missing]
  obtain ⟨s2, returns2, grows2, table2, buffer2, others2⟩ := getEntryOrAllocate_ok s3 2 page (by omega)
  have same1 : missing s2 1 page = missing s 1 page := by rw [missing, others2 1 (by omega), others3 1 (by omega), missing]
  obtain ⟨s1, returns1, grows1, table1, buffer1, -⟩ := getEntryOrAllocate_ok s2 1 page (by omega)
  have grows := (grows3.trans grows2).trans grows1
  have free : ¬ s1.mapped page := by rw [grows.mapped, unmapped]; simp
  refine ⟨{ s1 with mapped := update s1.mapped page true }, ?_, grows.tables, by rw [grows.mapped], grows.stock, ?_, ?_⟩
  · simp only [mapPage, returns3, returns2, returns1, bind, Except.bind]
    rw [if_neg free]
    rfl
  · intro level low high
    have levels : level = 3 ∨ level = 2 ∨ level = 1 := by omega
    rcases levels with rfl | rfl | rfl
    · exact grows1.tables _ _ (grows2.tables _ _ table3)
    · exact grows1.tables _ _ table2
    · exact table1
  · show s1.buffer = _
    rw [missingTables]
    omega

theorem missing_next {d : Nat} (depth : d = 512 ^ level) (there : s.tables level (tableOf level page)) (count : Nat) :
    missing s level (page + 1) + ((page + 1 + count) / d - (page + 1) / d) ≤ (page + (count + 1)) / d - page / d := by
  have far : page + 1 + count = page + (count + 1) := by omega
  have order : (page + 1) / d ≤ (page + 1 + count) / d := Nat.div_le_div_right (Nat.le_add_right _ _)
  rw [far] at *
  rw [missing]
  by_cases same : (page + 1) / d = page / d
  · have present : s.tables level (tableOf level (page + 1)) := by
      rw [tableOf, ← depth, same, depth]
      exact there
    rw [if_pos present, same]
    omega
  · have later : page / d ≤ (page + 1) / d := Nat.div_le_div_right (Nat.le_succ page)
    split <;> omega

def tablesFor (s : Space) (page count : Nat) : Nat :=
  (missing s 3 page + ((page + count) / 512 ^ 3 - page / 512 ^ 3)) +
    (missing s 2 page + ((page + count) / 512 ^ 2 - page / 512 ^ 2)) +
    (missing s 1 page + ((page + count) / 512 ^ 1 - page / 512 ^ 1))

theorem mapRange_ok (count : Nat) : ∀ (s : Space) (page : Nat), Tabled s ->
    (0 < count -> tablesFor s page (count - 1) ≤ s.buffer) -> (∀ n, page ≤ n -> n < page + count -> s.mapped n = false) ->
    ∃ s', mapRange count s page = .ok s' ∧ Tabled s' ∧ s'.stock = s.stock ∧
      ∀ n, s'.mapped n = (s.mapped n || decide (page ≤ n ∧ n < page + count)) := by
  induction count with
  | zero =>
    intro s page tabled _ _
    refine ⟨s, rfl, tabled, rfl, fun n => ?_⟩
    rw [decide_eq_false (by omega), Bool.or_false]
  | succ count ih =>
    intro s page tabled enough unmapped
    rw [Nat.add_sub_cancel, tablesFor] at enough
    obtain ⟨s1, returns, tables, mapped, stock, there, buffer⟩ :=
      mapPage_ok (s := s) (by rw [missingTables]; omega) (unmapped page (le_refl _) (by omega))
    have tabled1 : Tabled s1 := by
      intro n present level low high
      rw [mapped] at present
      rcases update_eq.mp present with ⟨rfl, -⟩ | ⟨-, before⟩
      · exact there level low high
      · exact tables _ _ (tabled n before level low high)
    have supply : 0 < count -> tablesFor s1 (page + 1) (count - 1) ≤ s1.buffer := by
      intro more
      obtain ⟨rest, rfl⟩ : ∃ rest, count = rest + 1 := ⟨count - 1, by omega⟩
      rw [missingTables] at buffer
      have next3 := missing_next (d := 512 ^ 3) rfl (there 3 (by omega) (by omega)) rest
      have next2 := missing_next (d := 512 ^ 2) rfl (there 2 (by omega) (by omega)) rest
      have next1 := missing_next (d := 512 ^ 1) rfl (there 1 (by omega) (by omega)) rest
      rw [Nat.add_sub_cancel, tablesFor]
      omega
    obtain ⟨s', continues, tabled', stock', mapped'⟩ := ih s1 (page + 1) tabled1 supply (by
      intro n above below
      rw [mapped, update_of_ne (by omega)]
      exact unmapped n (by omega) (by omega))
    refine ⟨s', ?_, tabled', stock'.trans stock, ?_⟩
    · rw [mapRange, returns]
      exact continues
    intro n
    rw [mapped', mapped]
    by_cases same : n = page
    · subst same
      simp
    · rw [update_of_ne same]
      congr 1
      exact decide_eq_decide.mpr (by omega)

theorem tablesFor_chunk (s : Space) (page : Nat) (small : count < maxAlloc) : tablesFor s page count ≤ 13 := by
  have level (l : Nat) : missing s l page ≤ 1 := by
    rw [missing]
    split <;> omega
  have first := level 1
  have second := level 2
  have third := level 3
  rw [maxAlloc] at small
  rw [tablesFor]
  omega

theorem physalloc_ok (size : Nat) (supply : size ≤ s.stock.least) :
    ∃ stock, physalloc s size = .ok { s with stock } ∧ s.stock.least = stock.least + size := by
  rw [Stock.least] at supply
  refine ⟨_, (if_neg (by omega)).trans (if_neg (by omega)), ?_⟩
  simp only [Stock.least]
  omega

structure MapsPages (s s' : Space) (page count : Nat) : Prop where
  tabled : Tabled s'
  mapped : ∀ n, s'.mapped n = (s.mapped n || decide (page ≤ n ∧ n < page + count))

theorem allocChunk_ok (tabled : Tabled s) (small : count ≤ maxAlloc) (supply : ptaabRefill + count ≤ s.stock.least)
    (unmapped : ∀ n, page ≤ n -> n < page + count -> s.mapped n = false) :
    ∃ s', allocChunk s page count = .ok s' ∧ MapsPages s s' page count ∧
      s.stock.least ≤ s'.stock.least + (ptaabRefill + count) := by
  have filled : ∃ s1, fillPageTableAllocatorBuffer s ptaabRefill = .ok s1 ∧ ptaabRefill ≤ s1.buffer ∧ s1.mapped = s.mapped ∧
      s1.tables = s.tables ∧ s.stock.least ≤ s1.stock.least + ptaabRefill := by
    rw [fillPageTableAllocatorBuffer]
    split
    · exact ⟨s, rfl, by omega, rfl, rfl, by omega⟩
    · obtain ⟨stock, serves, left⟩ := physalloc_ok (s := s) (ptaabRefill - s.buffer) (by omega)
      rw [serves]
      exact ⟨_, rfl, le_refl _, rfl, rfl, by simp only; omega⟩
  obtain ⟨s1, fills, buffer, mapped1, tables1, least1⟩ := filled
  obtain ⟨stock, serves, left⟩ := physalloc_ok (s := s1) count (by omega)
  have tabled1 : Tabled { s1 with stock } := by
    intro n present level low high
    rw [tables1]
    exact tabled n (mapped1 ▸ present) level low high
  obtain ⟨s', maps, tabled', stock', mapped'⟩ := mapRange_ok count { s1 with stock } page tabled1
    (by
      intro some
      have chunk := tablesFor_chunk { s1 with stock } page (show count - 1 < maxAlloc by omega)
      have least : 16 ≤ s1.buffer := buffer
      show _ ≤ s1.buffer
      omega)
    (by
      intro n above below
      rw [mapped1]
      exact unmapped n above below)
  refine ⟨s', ?_, ⟨tabled', ?_⟩, ?_⟩
  · simp only [allocChunk, fills, serves, bind, Except.bind]
    exact maps
  · intro n
    rw [mapped']
    rw [mapped1]
  · rw [stock']
    simp only
    omega

theorem allocPages_ok (fuel : Nat) : ∀ (s : Space) (page count : Nat), count ≤ fuel -> Tabled s ->
    count + ptaabRefill * ((count + (maxAlloc - 1)) / maxAlloc) ≤ s.stock.least ->
    (∀ n, page ≤ n -> n < page + count -> s.mapped n = false) ->
    ∃ s', allocPages fuel s page count = .ok s' ∧ MapsPages s s' page count := by
  have nothing (s : Space) (page : Nat) (tabled : Tabled s) : MapsPages s s page 0 := by
    refine ⟨tabled, fun n => ?_⟩
    rw [decide_eq_false (by omega), Bool.or_false]
  induction fuel with
  | zero =>
    intro s page count bounded tabled _ _
    obtain rfl : count = 0 := by omega
    exact ⟨s, rfl, nothing s page tabled⟩
  | succ fuel ih =>
    intro s page count bounded tabled supply unmapped
    by_cases zero : count = 0
    · subst zero
      exact ⟨s, rfl, nothing s page tabled⟩
    obtain ⟨size, amount⟩ : ∃ size, size = min count maxAlloc := ⟨_, rfl⟩
    have limit : maxAlloc = 4096 := rfl
    have refill : ptaabRefill = 16 := rfl
    rw [limit, refill] at supply
    have first : ∀ n, page ≤ n -> n < page + size -> s.mapped n = false := fun n above below => unmapped n above (by omega)
    obtain ⟨s1, chunk, maps1, least1⟩ := allocChunk_ok tabled (by omega) (by omega) first
    obtain ⟨s', rest, maps⟩ := ih s1 (page + size) (count - size) (by omega) maps1.tabled (by rw [limit, refill]; omega) (by
      intro n above below
      rw [maps1.mapped, decide_eq_false (by omega), Bool.or_false]
      exact unmapped n (by omega) (by omega))
    refine ⟨s', ?_, maps.tabled, ?_⟩
    · rw [allocPages, if_neg zero]
      simp only [← amount, chunk, bind, Except.bind]
      exact rest
    · intro n
      rw [maps.mapped, maps1.mapped, Bool.or_assoc, ← Bool.decide_or]
      congr 1
      exact decide_eq_decide.mpr (by omega)

theorem unmapPages_ok {frames : Frames} (count : Nat) : ∀ (s : Space) (page : Nat), Tabled s ->
    (∀ n, page ≤ n -> n < page + count -> s.mapped n = true ∧ frames.takes n = true) ->
    ∃ s', unmapPages frames count s page = .ok s' ∧ Tabled s' ∧
      ∀ n, s'.mapped n = (s.mapped n && decide (n < page ∨ page + count ≤ n)) := by
  induction count with
  | zero =>
    intro s page tabled _
    refine ⟨s, rfl, tabled, fun n => ?_⟩
    rw [decide_eq_true (by omega), Bool.and_true]
  | succ count ih =>
    intro s page tabled mapped
    obtain ⟨present, takes⟩ := mapped page (le_refl _) (by omega)
    have tables := tabled page present
    let s1 : Space :=
      { s with
        mapped := update s.mapped page false
        stock := ⟨s.stock.available + 1, s.stock.listed + (frames.relists page).toNat⟩ }
    have unmaps : unmapPage frames s page = .ok s1 := by
      rw [unmapPage, if_neg (by simp [tables 3, tables 2, tables 1]), if_neg (by simp [present]), physfree, if_pos takes]
      rfl
    have tabled1 : Tabled s1 := by
      intro n there level low high
      rcases update_eq.mp there with ⟨-, ⟨⟩⟩ | ⟨-, before⟩
      exact tabled n before level low high
    obtain ⟨s', continues, tabled', mapped'⟩ := ih s1 (page + 1) tabled1 (by
      intro n above below
      show update s.mapped page false n = true ∧ _
      rw [update_of_ne (by omega)]
      exact mapped n (by omega) (by omega))
    refine ⟨s', ?_, tabled', ?_⟩
    · rw [unmapPages, unmaps]
      exact continues
    intro n
    rw [mapped']
    show (update s.mapped page false n && _) = _
    by_cases same : n = page
    · subst same
      simp
    · rw [update_of_ne same]
      congr 1
      exact decide_eq_decide.mpr (by omega)

end mapping

def HeapPage (p : Process) (n : Nat) : Prop := p.heapBegin / pageSize ≤ n ∧ n < p.brk / pageSize

structure Heap (others : Nat -> Prop) (p : Process) : Prop where
  tabled : Tabled p.space
  begins : p.heapBegin % pageSize = 0
  low : p.heapBegin ≤ p.unalignedBrk
  round : p.unalignedBrk ≤ p.brk ∧ p.brk < p.unalignedBrk + pageSize ∧ p.brk % pageSize = 0
  user : p.brk < 0x18000000000
  pages : ∀ n, p.space.mapped n = true ↔ others n ∨ HeapPage p n
  apart : ∀ n, others n -> ¬ HeapPage p n

/-- Not refused, a call does not wrap, grows over unmapped pages and within the stock, and frees
frames that `physfree` takes. -/
def Fits (p : Process) (delta : Int) : Prop :=
  ¬ Refused p delta -> unalignedNewBrk p delta + 0xfff < 2 ^ 64 ∧
    (∀ n, p.brk / pageSize ≤ n -> n < newBrk p delta / pageSize -> p.space.mapped n = false) ∧
    (newBrk p delta / pageSize - p.brk / pageSize) +
      ptaabRefill * ((newBrk p delta / pageSize - p.brk / pageSize + (maxAlloc - 1)) / maxAlloc) ≤ p.space.stock.least ∧
    ∀ n, newBrk p delta / pageSize ≤ n -> n < p.brk / pageSize -> frames.takes n = true

def FittingStep (p p' : Process) : Prop :=
  ∃ frames delta result, Fits frames p delta ∧ scSbrk frames p delta = .ok (p', result)

section heap

variable {others : Nat -> Prop} {p : Process} {delta : Int} {space : Space} {frames : Frames}

theorem alignUp_spec {addr : Nat} (small : addr + 0xfff < 2 ^ 64) :
    addr ≤ alignUp addr ∧ alignUp addr < addr + pageSize ∧ alignUp addr % pageSize = 0 := by
  rw [alignUp, Nat.mod_eq_of_lt small, pageSize]
  omega

theorem isUser_below {vaddr : Nat} (user : isUser vaddr) : vaddr < 0x18000000000 := by
  rcases user with low | ⟨-, below⟩
  · exact lt_trans low (by decide)
  · exact below

theorem neededPages_eq (heap : Heap others p) (user : newBrk p delta < 0x18000000000) :
    neededPages p delta = (newBrk p delta / pageSize : Nat) - (p.brk / pageSize : Nat) := by
  have old := heap.user
  have oldAligned := heap.round.2.2
  have difference : signed ((newBrk p delta + (2 ^ 64 - p.brk)) % 2 ^ 64) = newBrk p delta - p.brk := by
    rw [signed]
    split <;> omega
  rw [neededPages, difference]
  rw [pageSize] at *
  omega

def Process.moved (p : Process) (delta : Int) (space : Space) : Process :=
  { p with space, unalignedBrk := unalignedNewBrk p delta, brk := newBrk p delta }

section

variable (heap : Heap others p)
include heap

theorem Heap.moved (small : unalignedNewBrk p delta + 0xfff < 2 ^ 64)
    (low : p.heapBegin ≤ unalignedNewBrk p delta) (user : newBrk p delta < 0x18000000000) (tabled : Tabled space)
    (pages : ∀ n, space.mapped n = true ↔ others n ∨ HeapPage (p.moved delta space) n)
    (apart : ∀ n, others n -> ¬ HeapPage (p.moved delta space) n) : Heap others (p.moved delta space) where
  tabled := tabled
  begins := heap.begins
  low := low
  round := alignUp_spec small
  user := user
  pages := pages
  apart := apart

theorem resize_ok (fits : Fits frames p delta) (accepted : ¬ Refused p delta)
    (user : newBrk p delta < 0x18000000000) (low : p.heapBegin ≤ newBrk p delta) :
    ∃ space, resize frames p delta = .ok space ∧ Tabled space ∧ ∀ n, space.mapped n = true ↔
      p.space.mapped n = true ∧ (n < newBrk p delta / pageSize ∨ p.brk / pageSize ≤ n) ∨
        p.brk / pageSize ≤ n ∧ n < newBrk p delta / pageSize := by
  obtain ⟨-, free, supply, takes⟩ := fits accepted
  have needed := neededPages_eq heap user
  rcases Nat.lt_or_ge (p.brk / pageSize) (newBrk p delta / pageSize) with up | down
  · have amount : (neededPages p delta).toNat = newBrk p delta / pageSize - p.brk / pageSize := by omega
    obtain ⟨space, maps, mapped⟩ := allocPages_ok _ p.space (p.brk / pageSize) (newBrk p delta / pageSize - p.brk / pageSize)
      (le_refl _) heap.tabled supply fun n above below => free n above (by omega)
    refine ⟨space, ?_, mapped.tabled, fun n => ?_⟩
    · rw [resize, if_pos (by omega), amount]
      exact maps
    · rw [mapped.mapped, Bool.or_eq_true, decide_eq_true_eq]
      grind
  · have amount : (-neededPages p delta).toNat = p.brk / pageSize - newBrk p delta / pageSize := by omega
    have begins : p.heapBegin / pageSize ≤ newBrk p delta / pageSize := Nat.div_le_div_right low
    obtain ⟨space, unmaps, tabled, mapped⟩ := unmapPages_ok (p.brk / pageSize - newBrk p delta / pageSize) p.space
      (newBrk p delta / pageSize) heap.tabled fun n above below =>
        ⟨(heap.pages n).mpr (.inr ⟨by omega, by omega⟩), takes n above (by omega)⟩
    refine ⟨space, ?_, tabled, fun n => ?_⟩
    · rw [resize, if_neg (by omega), amount]
      exact unmaps
    · rw [mapped, Bool.and_eq_true, decide_eq_true_eq]
      grind

theorem moved_ok (fits : Fits frames p delta) (accepted : ¬ Refused p delta) :
    ∃ space, resize frames p delta = .ok space ∧ Heap others (p.moved delta space) := by
  obtain ⟨small, free, -⟩ := fits accepted
  have user := isUser_below (not_not.mp fun no => accepted (.inl no))
  have low : p.heapBegin ≤ unalignedNewBrk p delta := Nat.le_of_not_lt fun below => accepted (.inr (.inl below))
  have above := low.trans (alignUp_spec small).1
  obtain ⟨space, returns, tabled, mapped⟩ := resize_ok heap fits accepted user above
  have old : p.heapBegin / pageSize ≤ p.brk / pageSize := Nat.div_le_div_right (heap.low.trans heap.round.1)
  have new : p.heapBegin / pageSize ≤ newBrk p delta / pageSize := Nat.div_le_div_right above
  refine ⟨space, returns, heap.moved small low user tabled (fun n => ?_) fun n other => ?_⟩
  · rw [mapped, heap.pages]
    have outside := heap.apart n
    unfold HeapPage at *
    show _ ↔ others n ∨ p.heapBegin / pageSize ≤ n ∧ n < newBrk p delta / pageSize
    grind
  have outside := heap.apart n other
  have there := (heap.pages n).mpr (.inl other)
  have unmapped := free n
  unfold HeapPage at *
  show ¬ (p.heapBegin / pageSize ≤ n ∧ n < newBrk p delta / pageSize)
  rw [there] at unmapped
  grind

theorem scSbrk_cases (fits : Fits frames p delta) :
    (Refused p delta ∧ scSbrk frames p delta = .ok (p, none)) ∨
      ∃ space, scSbrk frames p delta = .ok (p.moved delta space, some p.brk) ∧ Heap others (p.moved delta space) := by
  have aligned : ¬ p.brk % pageSize ≠ 0 := not_not.mpr heap.round.2.2
  by_cases refused : Refused p delta
  · exact .inl ⟨refused, by rw [scSbrk, if_neg aligned, if_pos refused]⟩
  obtain ⟨space, returns, moved⟩ := moved_ok heap fits refused
  refine .inr ⟨space, ?_, moved⟩
  rw [scSbrk, if_neg aligned, if_neg refused, returns]
  rfl

theorem Heap.mapped_below {addr : Nat} (above : p.heapBegin ≤ addr)
    (below : addr < p.unalignedBrk) : p.space.mapped (addr / pageSize) = true := by
  refine (heap.pages _).mpr (.inr ⟨Nat.div_le_div_right above, ?_⟩)
  have aligned := heap.round
  rw [pageSize] at *
  omega

end

end heap

/-- In every run of calls that fit, the heap pages are those up to the break, and each call either
returns -1 and changes nothing, or returns the break rounded up to a page, which is the break itself
exactly when that is a multiple of the page size. -/
theorem sbrk_keeps_heap {others : Nat -> Prop} {p p' : Process} (heap : Heap others p)
    (run : Relation.ReflTransGen FittingStep p p') :
    p'.heapBegin ≤ p'.unalignedBrk ∧ p'.brk = alignUp p'.unalignedBrk ∧
      (∀ n, p'.space.mapped n = true ↔ others n ∨ HeapPage p' n) ∧ (∀ n, others n -> ¬ HeapPage p' n) ∧
      ∀ frames delta, Fits frames p' delta -> ∃ q result, scSbrk frames p' delta = .ok (q, result) ∧
        (result = none -> q = p') ∧
        ∀ address, result = some address -> address = p'.brk ∧ (address = p'.unalignedBrk ↔ p'.unalignedBrk % pageSize = 0) ∧
          ∀ byte, address ≤ byte -> byte < q.unalignedBrk -> q.space.mapped (byte / pageSize) = true := by
  have kept : Heap others p' := run.invariant (Heap others) heap fun s s' heap step => by
    obtain ⟨frames, delta, result, fits, returns⟩ := step
    rcases scSbrk_cases heap fits with ⟨-, same⟩ | ⟨space, moves, moved⟩
    · cases same.symm.trans returns
      exact heap
    · cases moves.symm.trans returns
      exact moved
  have aligned := kept.round
  refine ⟨kept.low, ?_, kept.pages, kept.apart, ?_⟩
  · have user := kept.user
    rw [alignUp, Nat.mod_eq_of_lt (by omega)]
    rw [pageSize] at *
    omega
  intro frames delta fits
  rcases scSbrk_cases kept fits with ⟨-, same⟩ | ⟨space, moves, moved⟩
  · exact ⟨p', none, same, fun _ => rfl, nofun⟩
  refine ⟨_, _, moves, nofun, ?_⟩
  rintro address ⟨⟩
  refine ⟨rfl, ?_, fun byte above below => moved.mapped_below ((kept.low.trans aligned.1).trans above) below⟩
  rw [pageSize] at *
  omega

def sampleProcess : Process :=
  { heapBegin := 0x400000
    brk := 0x400000
    unalignedBrk := 0x400000
    space := { mapped := fun _ => false, tables := fun _ _ => false, buffer := 0, stock := ⟨40, 40⟩ } }

theorem sampleProcess_heap : Heap (fun _ => False) sampleProcess where
  tabled := nofun
  begins := rfl
  low := le_refl _
  round := by decide
  user := by decide
  pages := by
    intro n
    simp [sampleProcess, HeapPage]
  apart := nofun

-- The second page of the heap gets the last page of the last range.
def sampleFrames : Frames := ⟨fun page => page ≠ 0x401, fun _ => false⟩

theorem sampleProcess_fits : Fits sampleFrames sampleProcess 0x2000 := by
  refine fun _ => ⟨by decide, fun _ _ _ => rfl, by decide, fun n above below => ?_⟩
  exact absurd (above.trans_lt below) (by decide)

theorem sbrk_keeps_heap_two :
    ∃ p, scSbrk sampleFrames sampleProcess 0x2000 = .ok (p, some 0x400000) ∧
      p.space.mapped 0x401 = true ∧ p.unalignedBrk = 0x402000 := by
  obtain ⟨-, -, -, -, calls⟩ := sbrk_keeps_heap sampleProcess_heap .refl
  obtain ⟨q, result, returns, -, success⟩ := calls sampleFrames 0x2000 sampleProcess_fits
  have evaluated : (scSbrk sampleFrames sampleProcess 0x2000).map (fun r =>
      (r.1.unalignedBrk, r.2)) = .ok (0x402000, some 0x400000) := rfl
  rw [returns] at evaluated
  obtain ⟨brk, same⟩ := Prod.mk.inj (Except.ok.inj evaluated)
  subst same
  have mapped := (success 0x400000 rfl).2.2 0x401000 (by decide) (by rw [brk]; decide)
  exact ⟨q, returns, mapped, brk⟩

theorem sbrk_breaks :
    scSbrk sampleFrames sampleProcess (100 * 0x1000) = .error .outOfMemory ∧
      scSbrk sampleFrames sampleProcess (-0x400001) = .error (.entryNotPresent 0) ∧
      ∃ p, scSbrk sampleFrames sampleProcess 1 = .ok (p, some 0x400000) ∧
        p.unalignedBrk = 0x400001 ∧ (scSbrk sampleFrames p 0).map Prod.snd = .ok (some 0x401000) ∧
        scSbrk sampleFrames { p with space := { p.space with stock := ⟨40, 0⟩ } } 0x1000 = .error .noRange ∧
        ∃ q, scSbrk sampleFrames p 0x1000 = .ok (q, some 0x401000) ∧
          scSbrk sampleFrames q (-0x1000) = .error (.badFree 0x401) := by
  unfold sampleProcess
  exact ⟨rfl, rfl, _, rfl, rfl, rfl, rfl, _, rfl, rfl⟩

end Bincows.Syscalls.ProgramBreak
