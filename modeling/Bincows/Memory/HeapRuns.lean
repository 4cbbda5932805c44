import Bincows.Memory.HeapRelease

set_option autoImplicit false

namespace Bincows.Heap

open Function List

structure Block where
  ptr : Nat
  requested : Nat
  deriving DecidableEq

structure Machine where
  heap : State
  live : List Block

inductive Event where
  | malloc (size result : Nat)
  | free (ptr : Nat)
  | realloc (ptr size result : Nat)
  | heapDefragment
  | write (addr : Nat) (value : BitVec 8)

def dropBlock (live : List Block) (ptr : Nat) : List Block :=
  live.filter (fun block => block.ptr ≠ ptr)

inductive Step (m : Machine) : Event -> Machine -> Prop where
  | malloc (size ptr : Nat) (s' : State) (result : malloc m.heap size = .ok (s', ptr)) :
      Step m (.malloc size ptr) { heap := s', live := ⟨ptr, size⟩ :: m.live }
  | free (block : Block) (s' : State) (held : block ∈ m.live) (result : free m.heap block.ptr = .ok s') :
      Step m (.free block.ptr) { heap := s', live := dropBlock m.live block.ptr }
  | realloc (block : Block) (size ptr : Nat) (s' : State) (held : block ∈ m.live)
      (positive : size ≠ 0) (result : realloc m.heap block.ptr size = .ok (s', ptr)) :
      Step m (.realloc block.ptr size ptr) { heap := s', live := ⟨ptr, size⟩ :: dropBlock m.live block.ptr }
  | reallocNull (size ptr : Nat) (s' : State) (result : realloc m.heap 0 size = .ok (s', ptr)) :
      Step m (.realloc 0 size ptr) { heap := s', live := ⟨ptr, size⟩ :: m.live }
  | reallocZero (block : Block) (ptr : Nat) (s' : State) (held : block ∈ m.live)
      (result : realloc m.heap block.ptr 0 = .ok (s', ptr)) :
      Step m (.realloc block.ptr 0 ptr) { heap := s', live := dropBlock m.live block.ptr }
  | heapDefragment (s' : State) (result : heapDefragment m.heap = .ok s') :
      Step m .heapDefragment { m with heap := s' }
  | write (block : Block) (offset : Nat) (value : BitVec 8) (held : block ∈ m.live)
      (inside : offset < block.requested) :
      Step m (.write (block.ptr + offset) value)
        { m with heap := { m.heap with
            memory := update m.heap.memory (block.ptr + offset) value } }

def start (memory : ByteMemory) : Machine := { heap := heapInit memory, live := [] }

-- Rounding a request up to a multiple of 8 does not overflow.
def Event.Moderate : Event -> Prop
  | .malloc size _ => size ≤ 2 ^ 64 - 8
  | .realloc _ size _ => size ≤ 2 ^ 64 - 8
  | _ => True

def ModerateStep (m m' : Machine) : Prop := ∃ event, Event.Moderate event ∧ Step m event m'

-- The block an event gives back or moves, and the byte a client writes.
def Event.releases : Event -> Option Nat
  | .free ptr => some ptr
  | .realloc ptr _ _ => some ptr
  | _ => none

def Event.writes : Event -> Option Nat
  | .write addr _ => some addr
  | _ => none

variable {segs : List Segment}

theorem Tiled.aligned :
    ∀ {top bottom : Nat}, Tiled top segs bottom -> bottom % 8 = 0 -> (∀ x ∈ segs, x.size % 8 = 0) ->
      top % 8 = 0 ∧ ∀ x ∈ segs, x.addr % 8 = 0 := by
  induction segs with
  | nil =>
    intro top bottom tiled base _
    obtain rfl : top = bottom := tiled
    simp [base]
  | cons first rest ih =>
    intro top bottom tiled base sizes
    obtain ⟨rfl, lower⟩ := tiled
    obtain ⟨start, others⟩ := ih lower base (fun x member => sizes x (mem_cons_of_mem _ member))
    have size := sizes first (by simp)
    refine ⟨?_, forall_mem_cons.mpr ⟨start, others⟩⟩
    rw [← first.addr_le_limit]
    simp only [headerSize]
    omega

structure Tracks (m : Machine) (segs : List Segment) : Prop where
  laid : Laid m.heap segs
  live : ∀ ptr, ptr ∈ m.live.map Block.ptr ↔ ∃ seg ∈ segs, seg.free = false ∧ seg.data = ptr
  distinct : (m.live.map Block.ptr).Nodup
  fits : ∀ block ∈ m.live, ∀ seg ∈ segs, seg.data = block.ptr -> block.requested ≤ seg.size
  count : m.heap.nAllocations = m.live.length

variable {s : State} {seg : Segment}

theorem Laid.sizeOf_eq (laid : Laid s segs) (member : seg ∈ segs) : sizeOf s.memory seg.addr = seg.size := by
  obtain ⟨before, after, rfl⟩ := append_of_mem member
  exact laid.headed.header_of_mem.size

theorem data_sub (seg : Segment) : seg.data - headerSize = seg.addr := Nat.add_sub_cancel ..

variable {other : Segment}

theorem data_injective (laid : Laid s segs)
    (member : seg ∈ segs) (member' : other ∈ segs) (same : seg.data = other.data) : seg = other :=
  laid.tiled.addr_injective member member' (Nat.add_right_cancel same)

variable {m : Machine}

variable {block : Block}

theorem Tracks.segment (tracks : Tracks m segs)
    (held : block ∈ m.live) : ∃ seg ∈ segs, seg.free = false ∧ seg.data = block.ptr :=
  (tracks.live block.ptr).mp (mem_map_of_mem held)

variable {s' : State} {segs' : List Segment} {new : Segment} {size : Nat}

def SameBlock (s s' : State) (event : Event) (ptr : Nat) : Prop :=
  sizeOf s'.memory (ptr - headerSize) = sizeOf s.memory (ptr - headerSize) ∧
    ∀ k < sizeOf s.memory (ptr - headerSize), event.writes ≠ some (ptr + k) -> s'.memory (ptr + k) = s.memory (ptr + k)

variable {live : List Block}

-- A block whose segment stays keeps its bytes and fits as before.
theorem Tracks.stays (tracks : Tracks ⟨s, live⟩ segs) (laid : Laid s' segs')
    (held : block ∈ live) (stays : ∀ seg ∈ segs, seg.free = false -> seg.data = block.ptr ->
      seg ∈ segs' ∧ ∀ k < seg.size, s'.memory (seg.data + k) = s.memory (seg.data + k)) :
    (∀ event, SameBlock s s' event block.ptr) ∧ ∀ seg ∈ segs', seg.data = block.ptr -> block.requested ≤ seg.size := by
  obtain ⟨seg, member, busy, same⟩ := tracks.segment held
  obtain ⟨member', bytes⟩ := stays seg member busy same
  refine ⟨fun event => ?_, fun other inside equal => ?_⟩
  · rw [← same, SameBlock, data_sub, tracks.laid.sizeOf_eq member, laid.sizeOf_eq member']
    exact ⟨rfl, fun k inside _ => bytes k inside⟩
  · obtain rfl := data_injective laid inside member' (equal.trans same.symm)
    exact tracks.fits block held other member same

theorem Allocates.apart (allocates : Allocates s s' segs segs' new size) (member : seg ∈ segs) (busy : seg.free = false) :
    seg.data + seg.size + 16 ≤ new.data ∨ new.data + new.size + 16 ≤ seg.data := by
  have apart := allocates.fresh seg member busy
  simp only [Segment.limit, Segment.data, headerSize] at *
  omega

theorem Tracks.allocate {requested : Nat} (tracks : Tracks ⟨s, live⟩ segs)
    (allocates : Allocates s s' segs segs' new size) (enough : requested ≤ size) :
    Tracks ⟨s', ⟨new.data, requested⟩ :: live⟩ segs' ∧ ∀ event, ∀ block ∈ live, SameBlock s s' event block.ptr := by
  have fresh : new.data ∉ live.map Block.ptr := by
    intro member
    obtain ⟨seg, inside, busy, same⟩ := (tracks.live new.data).mp member
    have := allocates.apart inside busy
    omega
  have newInside := (allocates.busy new allocates.allocated).mpr (Or.inl rfl)
  have kept (block : Block) (held : block ∈ live) := tracks.stays allocates.laid held fun seg member busy _ =>
    ⟨(allocates.busy seg busy).mpr (Or.inr member), allocates.bytes seg member busy⟩
  refine ⟨⟨allocates.laid, ?_, nodup_cons.mpr ⟨fresh, tracks.distinct⟩, ?_, ?_⟩,
    fun event block held => (kept block held).1 event⟩
  · intro ptr
    rw [map_cons, mem_cons, show ptr ∈ live.map Block.ptr ↔ _ from tracks.live ptr]
    constructor
    · rintro (rfl | ⟨seg, inside, busy, same⟩)
      · exact ⟨new, newInside, allocates.allocated, rfl⟩
      · exact ⟨seg, (allocates.busy seg busy).mpr (Or.inr inside), busy, same⟩
    · rintro ⟨seg, inside, busy, same⟩
      rcases (allocates.busy seg busy).mp inside with rfl | earlier
      · exact Or.inl same.symm
      · exact Or.inr ⟨seg, earlier, busy, same⟩
  · intro block member seg inside same
    rcases mem_cons.mp member with rfl | earlier
    · obtain rfl := data_injective allocates.laid inside newInside same
      exact enough.trans allocates.large
    · exact (kept block earlier).2 seg inside same
  · rw [length_cons, ← tracks.count]
    exact allocates.count

variable {ptr : Nat}

theorem mem_dropBlock : block ∈ dropBlock live ptr ↔ block ∈ live ∧ block.ptr ≠ ptr := by
  simp [dropBlock]

theorem mem_map_dropBlock {p : Nat} : p ∈ (dropBlock live ptr).map Block.ptr ↔ p ∈ live.map Block.ptr ∧ p ≠ ptr := by
  simp only [mem_map, mem_dropBlock]
  constructor
  · rintro ⟨other, ⟨member, different⟩, rfl⟩
    exact ⟨⟨other, member, rfl⟩, different⟩
  · rintro ⟨⟨other, member, rfl⟩, different⟩
    exact ⟨other, ⟨member, different⟩, rfl⟩

theorem dropBlock_length (distinct : (live.map Block.ptr).Nodup) (held : block ∈ live) :
    (dropBlock live block.ptr).length = live.length - 1 := by
  have erased := length_erase_of_mem (mem_map_of_mem (f := Block.ptr) held)
  rw [distinct.erase_eq_filter, filter_map, length_map, length_map] at erased
  rw [dropBlock, ← erased]
  exact congrArg length (filter_congr fun other _ => by by_cases other.ptr = block.ptr <;> simp [*])

theorem Tracks.release {old : Segment} (tracks : Tracks ⟨s, live⟩ segs) (releases : Releases s s' segs segs' old)
    (inside : old ∈ segs) (busy : old.free = false) (held : block ∈ live) (same : old.data = block.ptr) :
    Tracks ⟨s', dropBlock live block.ptr⟩ segs' ∧
      ∀ event, ∀ other ∈ live, other.ptr ≠ block.ptr -> SameBlock s s' event other.ptr := by
  have kept (other : Block) (earlier : other ∈ live) (different : other.ptr ≠ block.ptr) :=
    tracks.stays releases.laid earlier fun seg member allocated equal => by
      have notOld : seg ≠ old := by
        rintro rfl
        exact different (equal.symm.trans same)
      exact ⟨(releases.busy seg allocated).mpr ⟨member, notOld⟩, releases.bytes seg member allocated notOld⟩
  refine ⟨⟨releases.laid, ?_, tracks.distinct.sublist ((filter_sublist).map _), ?_, ?_⟩,
    fun event other earlier different => (kept other earlier different).1 event⟩
  · intro ptr
    rw [mem_map_dropBlock, show ptr ∈ live.map Block.ptr ↔ _ from tracks.live ptr]
    constructor
    · rintro ⟨⟨seg, member, allocated, rfl⟩, different⟩
      refine ⟨seg, (releases.busy seg allocated).mpr ⟨member, ?_⟩, allocated, rfl⟩
      rintro rfl
      exact different same
    · rintro ⟨seg, member, allocated, rfl⟩
      obtain ⟨earlier, different⟩ := (releases.busy seg allocated).mp member
      refine ⟨⟨seg, earlier, allocated, rfl⟩, ?_⟩
      intro equal
      exact different (data_injective tracks.laid earlier inside (equal.trans same.symm))
  · intro other member
    obtain ⟨earlier, different⟩ := mem_dropBlock.mp member
    exact (kept other earlier different).2
  · have before : s.nAllocations = live.length := tracks.count
    rw [dropBlock_length tracks.distinct held, releases.count, before]

variable {memory : ByteMemory}

theorem Laid.congr_memory (laid : Laid s segs)
    (same : ∀ seg ∈ segs, ∀ k < headerSize, memory (seg.addr + k) = s.memory (seg.addr + k)) :
    Laid { s with memory := memory } segs :=
  { laid with headed := laid.headed.congr same }

theorem Tracks.congr_memory (tracks : Tracks ⟨s, live⟩ segs)
    (same : ∀ seg ∈ segs, ∀ k < headerSize, memory (seg.addr + k) = s.memory (seg.addr + k)) :
    Tracks ⟨{ s with memory := memory }, live⟩ segs :=
  { tracks with laid := tracks.laid.congr_memory same }

theorem Laid.header_apart {offset k : Nat}
    (laid : Laid s segs) (member : seg ∈ segs) (member' : other ∈ segs) (inside : offset < seg.size)
    (bounded : k < headerSize) : other.addr + k ≠ seg.data + offset := by
  have := laid.tiled.data_apart member member' inside
  omega

theorem SameBlock.trans {s₁ s₂ s₃ : State} {event : Event} {ptr : Nat} (early : SameBlock s₁ s₂ event ptr)
    (late : SameBlock s₂ s₃ event ptr) : SameBlock s₁ s₃ event ptr := by
  refine ⟨late.1.trans early.1, ?_⟩
  intro k inside elsewhere
  rw [late.2 k (early.1 ▸ inside) elsewhere, early.2 k inside elsewhere]

structure Preserves (m : Machine) (event : Event) (m' : Machine) : Prop where
  others : ∀ block ∈ m.live, event.releases ≠ some block.ptr -> block ∈ m'.live ∧ SameBlock m.heap m'.heap event block.ptr
  moved : ∀ ptr size result, event = .realloc ptr size result -> ptr ∈ m.live.map Block.ptr ->
    ∀ k < min (sizeOf m.heap.memory (ptr - headerSize)) size, m'.heap.memory (result + k) = m.heap.memory (ptr + k)

variable {event : Event}

theorem Tracks.usable (tracks : Tracks m segs) (held : block ∈ m.live) :
    block.requested ≤ sizeOf m.heap.memory (block.ptr - headerSize) := by
  obtain ⟨seg, member, -, same⟩ := tracks.segment held
  rw [← same, data_sub, tracks.laid.sizeOf_eq member]
  exact tracks.fits block held seg member same

theorem Tracks.not_null (tracks : Tracks m segs) (held : block ∈ m.live) : block.ptr ≠ 0 := by
  obtain ⟨seg, -, -, same⟩ := tracks.segment held
  simp only [Segment.data, headerSize] at same
  omega

section Steps

variable {s s' : State} {live : List Block} {segs segs' : List Segment}

section

variable (tracks : Tracks ⟨s, live⟩ segs)
include tracks

theorem malloc_step (moderate : size ≤ 2 ^ 64 - 8) (result : malloc s size = .ok (s', ptr)) :
    (∃ segs', Tracks ⟨s', ⟨ptr, size⟩ :: live⟩ segs') ∧ ∀ event, ∀ block ∈ live, SameBlock s s' event block.ptr := by
  obtain ⟨segs', new, allocates, rfl⟩ := mallocLoop_allocates _ s segs size s' ptr tracks.laid result
  obtain ⟨tracks', same⟩ := tracks.allocate allocates (le_roundSize moderate)
  exact ⟨⟨segs', tracks'⟩, same⟩

theorem free_step (held : block ∈ live) (result : free s block.ptr = .ok s') :
    (∃ segs', Tracks ⟨s', dropBlock live block.ptr⟩ segs') ∧
      ∀ event, ∀ other ∈ live, other.ptr ≠ block.ptr -> SameBlock s s' event other.ptr := by
  obtain ⟨seg, member, busy, same⟩ := tracks.segment held
  obtain ⟨s'', segs', result', releases⟩ := free_releases tracks.laid member busy
  rw [same, result] at result'
  cases result'
  obtain ⟨tracks', same'⟩ := tracks.release releases member busy held same
  exact ⟨⟨segs', tracks'⟩, same'⟩

theorem move_step {n : Nat} {s1 : State} (held : block ∈ live) (moderate : size ≤ 2 ^ 64 - 8)
    (allocated : malloc s size = .ok (s1, ptr)) (short : n ≤ sizeOf s.memory (block.ptr - headerSize)) (fits : n ≤ size)
    (result : free { s1 with memory := s1.memory.copy ptr block.ptr n } block.ptr = .ok s') :
    (∃ segs', Tracks ⟨s', ⟨ptr, size⟩ :: dropBlock live block.ptr⟩ segs') ∧
      (∀ event, ∀ other ∈ live, other.ptr ≠ block.ptr -> SameBlock s s' event other.ptr) ∧
      ∀ k < n, s'.memory (ptr + k) = s.memory (block.ptr + k) := by
  obtain ⟨seg, member, busy, same⟩ := tracks.segment held
  obtain ⟨segs1, new, allocates, rfl⟩ := mallocLoop_allocates _ s segs size s1 ptr tracks.laid allocated
  have room : n ≤ new.size := fits.trans ((le_roundSize moderate).trans allocates.large)
  have inNew := (allocates.busy new allocates.allocated).mpr (Or.inl rfl)
  have headers : ∀ x ∈ segs1, ∀ k < headerSize,
      s1.memory.copy new.data block.ptr n (x.addr + k) = s1.memory (x.addr + k) := by
    intro x inside k bounded
    apply ByteMemory.copy_outside
    by_contra within
    have offset : x.addr + k - new.data < new.size := by omega
    exact allocates.laid.header_apart inNew inside offset bounded (by omega)
  have tracks2 := (tracks.allocate allocates (le_roundSize moderate)).1.congr_memory headers
  have apart := allocates.apart member busy
  obtain ⟨⟨segs', tracks'⟩, same'⟩ := free_step tracks2 (mem_cons_of_mem _ held) result
  have untouched : ∀ x ∈ segs, x.free = false -> ∀ k < x.size,
      s1.memory.copy new.data block.ptr n (x.data + k) = s.memory (x.data + k) := by
    intro x inside allocatedX k bounded
    have apart := allocates.apart inside allocatedX
    rw [ByteMemory.copy_outside n (by omega)]
    exact allocates.bytes x inside allocatedX k bounded
  refine ⟨⟨segs', ?_⟩, ?_, ?_⟩
  · have kept : dropBlock (⟨new.data, size⟩ :: live) block.ptr = ⟨new.data, size⟩ :: dropBlock live block.ptr := by
      simp [dropBlock, show new.data ≠ block.ptr by omega]
    exact kept ▸ tracks'
  · intro event other heldOther apart
    refine SameBlock.trans ?_ (same' event other (mem_cons_of_mem _ heldOther) apart)
    exact (tracks.stays tracks2.laid heldOther fun x inside allocatedX _ =>
      ⟨(allocates.busy x allocatedX).mpr (Or.inr inside), untouched x inside allocatedX⟩).1 event
  · intro k bounded
    have shortSeg : n ≤ seg.size := by
      rwa [← same, data_sub, tracks.laid.sizeOf_eq member] at short
    have kept := (same' .heapDefragment ⟨new.data, size⟩ mem_cons_self (show new.data ≠ block.ptr by omega)).2 k (by
      rw [data_sub, tracks2.laid.sizeOf_eq inNew]
      omega) nofun
    have copied : s1.memory.copy new.data block.ptr n (new.data + k) = s1.memory (block.ptr + k) :=
      ByteMemory.copy_inside n (by omega) k bounded
    refine kept.trans (copied.trans ?_)
    rw [← same]
    exact allocates.bytes seg member busy k (by omega)

end

theorem realloc_cases {result : Nat} (notNull : ptr ≠ 0)
    (returned : realloc s ptr size = .ok (s', result)) : (size = 0 ∧ free s ptr = .ok s') ∨
    (s' = s ∧ result = ptr ∧ size < sizeOf s.memory (ptr - headerSize)) ∨
    ∃ s1, malloc s size = .ok (s1, result) ∧
      free { s1 with memory := s1.memory.copy result ptr (min (sizeOf s.memory (ptr - headerSize)) size) } ptr = .ok s' := by
  rw [realloc, if_neg notNull] at returned
  split at returned
  next zero =>
    obtain ⟨freed, result', same⟩ := bind_eq_ok.mp returned
    cases same
    exact Or.inl ⟨zero, result'⟩
  simp only at returned
  split_ifs at returned with keep
  · cases returned
    exact Or.inr (Or.inl ⟨rfl, rfl, keep.1⟩)
  · obtain ⟨⟨s1, new⟩, allocated, rest⟩ := bind_eq_ok.mp returned
    obtain ⟨freed, result', same⟩ := bind_eq_ok.mp rest
    cases same
    exact Or.inr (Or.inr ⟨s1, allocated, result'⟩)

theorem keep_step (tracks : Tracks ⟨s, live⟩ segs) (held : block ∈ live)
    (smaller : size < sizeOf s.memory (block.ptr - headerSize)) :
    Tracks ⟨s, ⟨block.ptr, size⟩ :: dropBlock live block.ptr⟩ segs := by
  obtain ⟨seg, member, busy, same⟩ := tracks.segment held
  refine ⟨tracks.laid, ?_, ?_, ?_, ?_⟩
  · intro ptr
    rw [map_cons, mem_cons, mem_map_dropBlock, ← show ptr ∈ live.map Block.ptr ↔ _ from tracks.live ptr]
    constructor
    · rintro (rfl | ⟨member, -⟩)
      · exact mem_map_of_mem (a := block) held
      · exact member
    · intro member
      by_cases equal : ptr = block.ptr
      · exact .inl equal
      · exact .inr ⟨member, equal⟩
  · refine nodup_cons.mpr ⟨?_, tracks.distinct.sublist ((filter_sublist).map _)⟩
    exact fun again => (mem_map_dropBlock.mp again).2 rfl
  · intro other inside x inX equal
    rcases mem_cons.mp inside with rfl | later
    · obtain rfl := data_injective tracks.laid inX member (equal.trans same.symm)
      rw [← same, data_sub, tracks.laid.sizeOf_eq member] at smaller
      exact Nat.le_of_lt smaller
    · exact tracks.fits other (mem_dropBlock.mp later).1 x inX equal
  · have positive := length_pos_of_mem held
    have before : s.nAllocations = live.length := tracks.count
    have dropped : (dropBlock live block.ptr).length = live.length - 1 := dropBlock_length tracks.distinct held
    show s.nAllocations = (dropBlock live block.ptr).length + 1
    omega

theorem defragment_step (event : Event) (tracks : Tracks ⟨s, live⟩ segs) (result : defragment s = .ok s') :
    (∃ segs', Tracks ⟨s', live⟩ segs') ∧ ∀ block ∈ live, SameBlock s s' event block.ptr := by
  have nonempty : segs ≠ [] := by
    rintro rfl
    have zero : s.currentSegment = 0 := tracks.laid.headed
    rw [defragment, if_pos zero] at result
    cases result
  obtain ⟨s'', segs', result', laid, keeps⟩ := defragment_keeps tracks.laid nonempty
  rw [result] at result'
  cases result'
  have kept (block : Block) (held : block ∈ live) := tracks.stays laid held fun seg member busy _ =>
    ⟨(keeps.busy seg busy).mpr member, keeps.bytes seg member busy⟩
  refine ⟨⟨segs', laid, ?_, tracks.distinct, fun block held => (kept block held).2, keeps.count.trans tracks.count⟩,
    fun block held => (kept block held).1 event⟩
  intro ptr
  rw [tracks.live ptr]
  refine exists_congr fun seg => ?_
  constructor
  · intro found
    exact ⟨(keeps.busy seg found.2.1).mpr found.1, found.2⟩
  · intro found
    exact ⟨(keeps.busy seg found.2.1).mp found.1, found.2⟩

theorem write_step {offset : Nat} {value : BitVec 8} (tracks : Tracks ⟨s, live⟩ segs)
    (held : block ∈ live) (inside : offset < block.requested) :
    Tracks ⟨{ s with memory := update s.memory (block.ptr + offset) value }, live⟩ segs ∧
      ∀ other ∈ live, SameBlock s { s with memory := update s.memory (block.ptr + offset) value }
        (.write (block.ptr + offset) value) other.ptr := by
  obtain ⟨seg, member, busy, same⟩ := tracks.segment held
  have room := tracks.fits block held seg member same
  have headers : ∀ x ∈ segs, ∀ k < headerSize,
      update s.memory (block.ptr + offset) value (x.addr + k) = s.memory (x.addr + k) := by
    intro x inX k bounded
    rw [update_of_ne]
    rw [← same]
    exact tracks.laid.header_apart member inX (by omega) bounded
  have written := tracks.congr_memory headers
  refine ⟨written, ?_⟩
  intro other heldOther
  obtain ⟨x, inX, -, sameX⟩ := tracks.segment heldOther
  rw [← sameX, SameBlock, data_sub, written.laid.sizeOf_eq inX, tracks.laid.sizeOf_eq inX]
  refine ⟨rfl, ?_⟩
  intro k bounded elsewhere
  apply update_of_ne
  intro equal
  exact elsewhere (by rw [Event.writes, equal])

end Steps

theorem others_kept {s s' : State} {live' : List Block}
    (same : ∀ event, ∀ other ∈ live, other.ptr ≠ ptr -> SameBlock s s' event other.ptr)
    (stays : ∀ other ∈ dropBlock live ptr, other ∈ live') (releases : event.releases = some ptr) :
    ∀ block ∈ live, event.releases ≠ some block.ptr -> block ∈ live' ∧ SameBlock s s' event block.ptr := by
  intro block held kept
  have different : block.ptr ≠ ptr := fun equal => kept (equal ▸ releases)
  exact ⟨stays block (mem_dropBlock.mpr ⟨held, different⟩), same event block held different⟩

theorem Tracks.step {m' : Machine} (tracks : Tracks m segs) (moderate : event.Moderate)
    (step : Step m event m') : (∃ segs', Tracks m' segs') ∧ Preserves m event m' := by
  cases step with
  | malloc size ptr s' result =>
    obtain ⟨tracked, same⟩ := malloc_step tracks moderate result
    refine ⟨tracked, ?_, by simp⟩
    exact fun block held _ => ⟨mem_cons_of_mem _ held, same _ block held⟩
  | free block s' held result =>
    obtain ⟨tracked, same⟩ := free_step tracks held result
    exact ⟨tracked, others_kept same (fun _ => id) rfl, by simp⟩
  | realloc block size ptr s' held positive result =>
    have notNull := tracks.not_null held
    rcases realloc_cases notNull result with ⟨zero, -⟩ | ⟨rfl, rfl, smaller⟩ | ⟨s1, allocated, freed⟩
    · exact absurd zero positive
    · refine ⟨⟨segs, keep_step tracks held smaller⟩, ?_, ?_⟩
      · exact others_kept (fun _ _ _ _ => ⟨rfl, fun _ _ _ => rfl⟩) (fun _ => mem_cons_of_mem _) rfl
      · intro ptr' size' result' equal _ k _
        cases equal
        rfl
    · obtain ⟨tracked, same, copied⟩ :=
        move_step tracks held moderate allocated (Nat.min_le_left ..) (Nat.min_le_right ..) freed
      refine ⟨tracked, others_kept same (fun _ => mem_cons_of_mem _) rfl, ?_⟩
      intro ptr' size' result' equal _ k bounded
      cases equal
      exact copied k bounded
  | reallocNull size ptr s' result =>
    rw [realloc, if_pos rfl] at result
    obtain ⟨tracked, same⟩ := malloc_step tracks moderate result
    refine ⟨tracked, ?_, ?_⟩
    · exact fun block held _ => ⟨mem_cons_of_mem _ held, same _ block held⟩
    · intro ptr' size' result' equal held
      cases equal
      obtain ⟨block, inside, zero⟩ := mem_map.mp held
      exact absurd zero (tracks.not_null inside)
  | reallocZero block ptr s' held result =>
    have notNull := tracks.not_null held
    have freed : free m.heap block.ptr = .ok s' := by
      rw [realloc, if_neg notNull, if_pos rfl] at result
      obtain ⟨freed, result', same⟩ := bind_eq_ok.mp result
      cases same
      exact result'
    obtain ⟨tracked, same⟩ := free_step tracks held freed
    refine ⟨tracked, others_kept same (fun _ => id) rfl, ?_⟩
    intro ptr' size' result' equal _ k bounded
    cases equal
    simp at bounded
  | heapDefragment s' result =>
    obtain ⟨tracked, same⟩ := defragment_step .heapDefragment tracks result
    exact ⟨tracked, fun block held _ => ⟨held, same block held⟩, by simp⟩
  | write block offset value held inside =>
    obtain ⟨tracked, same⟩ := write_step tracks held inside
    exact ⟨⟨segs, tracked⟩, fun other heldOther _ => ⟨heldOther, same other heldOther⟩, by simp⟩

theorem start_tracks (memory : ByteMemory) : ∃ segs, Tracks (start memory) segs := by
  have empty : Laid { memory := memory, heapSize := 0, nAllocations := 0, currentSegment := 0, frees := 0 } [] :=
    ⟨rfl, rfl, show heapBegin + 0 < word64 by decide, by simp⟩
  have room : heapBegin + 0 + minExpandSize < word64 := by decide
  obtain ⟨new, isFree, -, laid, keeps⟩ := expandHeap_laid empty (by decide) (by decide) room
  refine ⟨[new], laid, ?_, nodup_nil, by simp [start], keeps.count⟩
  intro ptr
  simp [start, isFree]

/-- From `heap_init` on, while no request is so large that rounding it up overflows: the segments
tile the heap in descending order, the allocated ones are the live blocks, and no event changes a
block it is not about. -/
theorem heap_layout {memory : ByteMemory} {m : Machine} (run : Relation.ReflTransGen ModerateStep (start memory) m) :
    (∃ segs, Tiled (heapBegin + m.heap.heapSize) segs heapBegin ∧
      Headed m.heap.memory m.heap.currentSegment segs 0 ∧ (segs.map Segment.addr).Pairwise (· > ·) ∧
      ∀ ptr, ptr ∈ m.live.map Block.ptr ↔ ∃ seg ∈ segs, seg.free = false ∧ seg.data = ptr) ∧
    (m.live.map Block.ptr).Nodup ∧
    (∀ block ∈ m.live, block.ptr % 8 = 0 ∧ block.requested ≤ sizeOf m.heap.memory (block.ptr - headerSize)) ∧
    m.heap.nAllocations = m.live.length ∧
    ∀ event m', event.Moderate -> Step m event m' -> Preserves m event m' := by
  obtain ⟨segs, tracks⟩ : ∃ segs, Tracks m segs := by
    refine run.invariant (fun m => ∃ segs, Tracks m segs) (start_tracks memory) ?_
    intro m m' tracked step
    obtain ⟨segs, tracks⟩ := tracked
    obtain ⟨event, moderate, step⟩ := step
    exact (tracks.step moderate step).1
  have laid := tracks.laid
  refine ⟨⟨segs, laid.tiled, laid.headed, ?_, tracks.live⟩, tracks.distinct, ?_, tracks.count, ?_⟩
  · refine pairwise_map.mpr (laid.tiled.descending.imp ?_)
    intro upper lower below
    have := lower.addr_le_limit
    simp only [headerSize] at this
    omega
  · intro block held
    obtain ⟨seg, member, busy, same⟩ := tracks.segment held
    have aligned := (laid.tiled.aligned (by decide) laid.sizes).2 seg member
    refine ⟨?_, tracks.usable held⟩
    rw [← same, Segment.data, headerSize]
    omega
  · exact fun event m' moderate step => (tracks.step moderate step).2

-- `malloc(SIZE_MAX)` on a fresh heap: the request rounds to zero.
theorem malloc_wraps :
    ((malloc (heapInit fun _ => 0) (2 ^ 64 - 1)).map
      fun result => (result.2, sizeOf result.1.memory (result.2 - headerSize))) =
        .ok (heapBegin + headerSize, minSegmentSize) := by
  decide

theorem heap_layout_fails :
    ∃ event m', Step (start fun _ => 0) event m' ∧
      ∃ block ∈ m'.live, sizeOf m'.heap.memory (block.ptr - headerSize) < block.requested := by
  obtain ⟨⟨s', ptr⟩, result, fields⟩ := Except.map_eq_ok malloc_wraps
  refine ⟨_, _, .malloc (2 ^ 64 - 1) ptr s' result, ⟨ptr, 2 ^ 64 - 1⟩, by simp, ?_⟩
  show sizeOf s'.memory (ptr - headerSize) < 2 ^ 64 - 1
  rw [(Prod.mk.inj fields).2]
  decide

-- A block of 20 bytes on a fresh heap.
theorem heap_layout_malloc : ∃ m, Relation.ReflTransGen ModerateStep (start fun _ => 0) m ∧
    m.live.length = 1 ∧ m.heap.nAllocations = 1 := by
  have evaluated : ((malloc (heapInit fun _ => 0) 20).map Prod.snd) = .ok (heapBegin + headerSize) := by
    decide
  obtain ⟨returned, result, -⟩ := Except.map_eq_ok evaluated
  have step : ModerateStep (start fun _ => 0) { heap := returned.1, live := [⟨returned.2, 20⟩] } :=
    ⟨_, by simp [Event.Moderate], .malloc 20 returned.2 returned.1 result⟩
  have layout := heap_layout (.single step)
  exact ⟨_, .single step, rfl, layout.2.2.2.1⟩

end Bincows.Heap
