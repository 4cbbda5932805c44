import Bincows.Memory.HeapLayout

set_option autoImplicit false

namespace Bincows.Heap

open List

variable {seg : Segment} {before after : List Segment} {top bottom : Nat}

theorem Tiled.around (tiled : Tiled top (before ++ seg :: after) bottom) :
    (∀ x ∈ before, seg.limit ≤ x.addr) ∧ ∀ x ∈ after, x.limit ≤ seg.addr := by
  obtain ⟨middle, upper, rfl, lower⟩ := tiled_append.mp tiled
  exact ⟨fun x member => (upper.inside member).1, fun x member => (lower.inside member).2⟩

def Apart (before : List Segment) (seg : Segment) (after : List Segment) : Prop :=
  (∀ x ∈ before, seg.addr + headerSize ≤ x.addr) ∧ ∀ x ∈ after, x.addr + headerSize ≤ seg.addr

theorem Tiled.apart (tiled : Tiled top (before ++ seg :: after) bottom) : Apart before seg after := by
  obtain ⟨above, below⟩ := tiled.around
  have limit := seg.addr_le_limit
  constructor
  · intro x member
    have := above x member
    omega
  · intro x member
    have := below x member
    have := x.addr_le_limit
    omega

variable {memory : ByteMemory} {tail size pred head : Nat}

section headed

variable (headed : Headed memory head (before ++ seg :: after) tail)
include headed

theorem Headed.header_of_mem : Header memory seg := by
  obtain ⟨middle, -, -, header, -⟩ := headed_append.mp headed
  exact header

variable (apart : Apart before seg after)
include apart

theorem Headed.modify {memory' : ByteMemory} {seg' : Segment}
    (outside : ∀ a, a < seg.addr ∨ seg.addr + headerSize ≤ a -> memory' a = memory a)
    (addr : seg'.addr = seg.addr) (header : Header memory' seg')
    (next : nextOf memory' seg.addr = nextOf memory seg.addr) :
    Headed memory' head (before ++ seg' :: after) tail := by
  obtain ⟨middle, upper, start, -, lower⟩ := headed_append.mp headed
  refine headed_append.mpr ⟨middle, upper.congr ?_, start.trans addr.symm, header, ?_⟩
  · intro x member k inside
    have := apart.1 x member
    exact outside _ (by omega)
  · rw [addr, next]
    refine lower.congr ?_
    intro x member k inside
    have := apart.2 x member
    exact outside _ (by omega)

theorem Headed.setFree (free : Bool) :
    Headed (setFree memory seg.addr free.toNat) head (before ++ { seg with free := free } :: after) tail := by
  have header := headed.header_of_mem
  refine headed.modify apart (fun a outside => setFree_outside outside) rfl ⟨?_, ?_⟩ (nextOf_setFree (Or.inl rfl))
  · rw [sizeOf_setFree (Or.inl rfl), header.size]
  · exact freeOf_setFree (by have := Bool.toNat_le free; omega)

theorem Headed.setSize (small : size < 2 ^ 32) :
    Headed (setSize memory seg.addr size) head (before ++ { seg with size := size } :: after) tail := by
  have header := headed.header_of_mem
  refine headed.modify apart (fun a outside => setSize_outside outside) rfl ⟨?_, ?_⟩ (nextOf_setSize (Or.inl rfl))
  · exact sizeOf_setSize small
  · rw [freeOf_setSize (Or.inl rfl), header.free]

end headed

variable {s : State} {segs : List Segment}

theorem Laid.bounds (laid : Laid s segs) (member : seg ∈ segs) :
    heapBegin ≤ seg.addr ∧ seg.limit ≤ heapBegin + s.heapSize ∧ seg.limit < 2 ^ 64 ∧ seg.size < 2 ^ 32 := by
  obtain ⟨low, high⟩ := laid.tiled.inside member
  have below := laid.below
  have limit := seg.addr_le_limit
  simp only [word64, heapBegin] at *
  omega

theorem Laid.not_null (laid : Laid s segs) (member : seg ∈ segs) : seg.addr ≠ 0 := by
  have low := (laid.bounds member).1
  simp only [heapBegin] at low
  omega

theorem Laid.setFree (laid : Laid s (before ++ seg :: after)) (free : Bool) :
    Laid { s with memory := setFree s.memory seg.addr free.toNat } (before ++ { seg with free := free } :: after) := by
  have sizes := laid.sizes
  refine ⟨?_, laid.headed.setFree laid.tiled.apart free, laid.below, ?_⟩
  · obtain ⟨middle, upper, limit, lower⟩ := tiled_append.mp laid.tiled
    exact tiled_append.mpr ⟨middle, upper, limit, lower⟩
  · simpa only [forall_mem_append, forall_mem_cons] using sizes

theorem findSegment_finds (laid : Laid s segs) (size : Nat) (after : List Segment) :
    ∀ (before : List Segment) (fuel seg : Nat), segs = before ++ after ->
      Headed s.memory seg after 0 -> after.length < fuel ->
      (findSegment s size fuel (lastAddr before) seg = .ok none ∧ ∀ x ∈ after, x.free = true -> x.size < size) ∨
      ∃ upper found lower, segs = upper ++ found :: lower ∧ found.free = true ∧ size ≤ found.size ∧
        findSegment s size fuel (lastAddr before) seg = .ok (some (lastAddr upper, found.addr)) := by
  induction after with
  | nil =>
    intro before fuel seg split headed enough
    obtain ⟨fuel, rfl⟩ : ∃ n, fuel = n + 1 := ⟨fuel - 1, by simp only [length_nil] at enough; omega⟩
    have zero : seg = 0 := headed
    refine Or.inl ⟨?_, by simp⟩
    rw [findSegment, if_pos zero]
  | cons x rest ih =>
    intro before fuel seg split headed enough
    obtain ⟨rfl, header, linked⟩ := headed
    have nonzero : x.addr ≠ 0 := laid.not_null (by simp [split])
    obtain ⟨fuel, rfl⟩ : ∃ n, fuel = n + 1 := ⟨fuel - 1, by omega⟩
    have unfolded : findSegment s size (fuel + 1) (lastAddr before) x.addr =
        if freeOf s.memory x.addr = 0 ∨ sizeOf s.memory x.addr < size then
          findSegment s size fuel x.addr (nextOf s.memory x.addr)
        else .ok (some (lastAddr before, x.addr)) := by
      rw [findSegment, if_neg nonzero, heapAssertSeg_passes laid split]
      rfl
    rw [unfolded, header.size, header.free]
    split
    next passed =>
      have next := ih (before ++ [x]) fuel (nextOf s.memory x.addr) (by simp [split]) linked
        (by simp only [length_cons] at enough; omega)
      rw [lastAddr_concat] at next
      rcases next with ⟨missing, tooSmall⟩ | found
      · refine Or.inl ⟨missing, ?_⟩
        intro y member isFree
        rcases mem_cons.mp member with rfl | later
        · rcases passed with busy | short
          · simp [isFree] at busy
          · exact short
        · exact tooSmall y later isFree
      · exact Or.inr found
    next passed =>
      obtain ⟨isFree, fits⟩ := not_or.mp passed
      refine Or.inr ⟨before, x, rest, split, ?_, Nat.le_of_not_lt fits, rfl⟩
      cases free : x.free
      · simp [free] at isFree
      · rfl

structure Allocates (s s' : State) (segs segs' : List Segment) (new : Segment) (size : Nat) : Prop where
  laid : Laid s' segs'
  allocated : new.free = false
  large : size ≤ new.size
  busy : ∀ seg, seg.free = false -> (seg ∈ segs' ↔ seg = new ∨ seg ∈ segs)
  fresh : ∀ seg ∈ segs, seg.free = false -> seg.limit ≤ new.addr ∨ new.limit ≤ seg.addr
  bytes : ∀ seg ∈ segs, seg.free = false -> ∀ k < seg.size, s'.memory (seg.data + k) = s.memory (seg.data + k)
  count : s'.nAllocations = s.nAllocations + 1
  frees : s'.frees = s.frees

theorem Keeps.allocates {s' s'' : State} {segs' segs'' : List Segment} {new : Segment}
    (keeps : Keeps s s' segs segs') (allocates : Allocates s' s'' segs' segs'' new size) :
    Allocates s s'' segs segs'' new size := by
  refine ⟨allocates.laid, allocates.allocated, allocates.large, ?_, ?_, ?_, ?_, ?_⟩
  · intro seg busy
    rw [allocates.busy seg busy, keeps.busy seg busy]
  · intro seg member busy
    exact allocates.fresh seg ((keeps.busy seg busy).mpr member) busy
  · intro seg member busy k inside
    rw [allocates.bytes seg ((keeps.busy seg busy).mpr member) busy k inside]
    exact keeps.bytes seg member busy k inside
  · rw [allocates.count, keeps.count]
  · rw [allocates.frees, keeps.frees]

theorem setFree_allocates (laid : Laid s (before ++ seg :: after)) (isFree : seg.free = true) (fits : size ≤ seg.size) :
    Allocates s { s with memory := setFree s.memory seg.addr 0, nAllocations := s.nAllocations + 1 }
      (before ++ seg :: after) (before ++ { seg with free := false } :: after) { seg with free := false } size := by
  have apart : ∀ x ∈ before ++ seg :: after, x.free = false -> x.limit ≤ seg.addr ∨ seg.limit ≤ x.addr := by
    intro x member busy
    exact (laid.tiled.disjoint member (by simp)).resolve_left (Segment.ne_of_busy busy isFree)
  refine ⟨{ laid.setFree false with }, rfl, fits, ?_, apart, ?_, rfl, rfl⟩
  · intro x busy
    have different := Segment.ne_of_busy busy isFree
    simp only [mem_append, mem_cons]
    tauto
  intro x member busy k inside
  have := apart x member busy
  have := x.addr_le_limit
  have := seg.addr_le_limit
  apply setFree_outside
  simp only [Segment.data]
  omega

-- The list continues at `next` behind `pred`, or starts there.
def redirect (s : State) (pred next : Nat) : State :=
  { s with
    memory := if pred = 0 then s.memory else setNext s.memory pred next
    currentSegment := if pred = 0 then next else s.currentSegment }

theorem redirect_headed {next : Nat} (tiled : Tiled top (before ++ after) heapBegin)
    (headed : Headed s.memory s.currentSegment (before ++ after) tail) (small : next < 2 ^ 64) :
    Headed (redirect s (lastAddr before) next).memory (redirect s (lastAddr before) next).currentSegment before next ∧
      ∀ a, (∀ x ∈ before, a < x.addr ∨ x.addr + headerSize ≤ a) ->
        (redirect s (lastAddr before) next).memory a = s.memory a := by
  rcases eq_nil_or_concat' before with rfl | ⟨init, pred, rfl⟩
  · exact ⟨rfl, fun _ _ => rfl⟩
  have notNull : pred.addr ≠ 0 := by
    have := (tiled.inside (show pred ∈ (init ++ [pred]) ++ after by simp)).1
    simp only [heapBegin] at this
    omega
  obtain ⟨middle, upper, -⟩ := headed_append.mp headed
  rw [append_assoc] at tiled
  simp only [redirect, lastAddr_concat, if_neg notNull]
  exact ⟨upper.relink tiled.around.1 small, fun a outside => setNext_outside (outside pred (by simp))⟩

-- The free segment `seg` cut in two: the lower part keeps its header, the upper part gets a new one.
def Segment.lower (seg : Segment) (size : Nat) : Segment := { seg with size := size }

def Segment.upper (seg : Segment) (size : Nat) : Segment where
  addr := seg.data + size
  size := seg.size - size - headerSize
  free := true

def carve (memory : ByteMemory) (seg : Segment) (size : Nat) : ByteMemory :=
  let new := seg.upper size
  setSize (setSize (setFree (setNext memory new.addr seg.addr) new.addr 1) new.addr new.size) seg.addr size

section Carve

variable (room : size + headerSize ≤ seg.size)
include room

theorem upper_limit : (seg.upper size).limit = seg.limit := by
  simp only [Segment.limit, Segment.upper, Segment.data, headerSize] at *
  omega

theorem carve_outside {a : Nat} (outside : a < seg.addr ∨ seg.limit ≤ a) : carve memory seg size a = memory a := by
  have start : (seg.upper size).addr = seg.addr + headerSize + size := rfl
  have limit := seg.addr_le_limit
  rw [carve, setSize_outside (by omega), setSize_outside (by omega), setFree_outside (by omega), setNext_outside (by omega)]

theorem carve_upper (memory : ByteMemory) (below : seg.limit < 2 ^ 64) (small : seg.size < 2 ^ 32) :
    Header (carve memory seg size) (seg.upper size) ∧
    nextOf (carve memory seg size) (seg.upper size).addr = seg.addr := by
  have apart : seg.addr + headerSize ≤ (seg.upper size).addr := by
    simp only [Segment.upper, Segment.data]
    omega
  have upper : (seg.upper size).size < 2 ^ 32 := by
    simp only [Segment.upper]
    omega
  have limit := seg.addr_le_limit
  refine ⟨⟨?_, ?_⟩, ?_⟩
  · rw [carve, sizeOf, setSize, ByteMemory.load_store_disjoint (by simp only [headerSize] at apart; omega)]
    exact sizeOf_setSize upper
  · rw [carve, freeOf_setSize (by omega), freeOf_setSize (by omega), freeOf_setFree (by omega)]
    rfl
  · rw [carve, nextOf_setSize (by omega), nextOf_setSize (by omega), nextOf_setFree (by omega), nextOf_setNext (by omega)]

theorem carve_lower (small : seg.size < 2 ^ 32) (free : freeOf memory seg.addr = seg.free.toNat) :
    Header (carve memory seg size) (seg.lower size) ∧ nextOf (carve memory seg size) seg.addr = nextOf memory seg.addr := by
  have apart : seg.addr + headerSize ≤ (seg.upper size).addr := by
    simp only [Segment.upper, Segment.data]
    omega
  refine ⟨⟨sizeOf_setSize (by omega), ?_⟩, ?_⟩
  · show freeOf (carve memory seg size) seg.addr = seg.free.toNat
    rw [carve, freeOf_setSize (by omega), freeOf_setSize (by omega), freeOf, setFree,
      ByteMemory.load_store_disjoint (by simp only [headerSize] at apart; omega)]
    exact (freeOf_setNext (by omega)).trans free
  · rw [carve, nextOf_setSize (by omega), nextOf_setSize (by omega), nextOf_setFree (by omega), nextOf,
      setNext, ByteMemory.load_store_disjoint (by simp only [headerSize] at apart; omega)]
    rfl

theorem splitSegment_eq (below : seg.limit < 2 ^ 64)
    (linked : sizeOf (redirect s pred (seg.upper size).addr).memory seg.addr = seg.size) :
    splitSegment s.memory pred seg.addr size =
      (carve (redirect s pred (seg.upper size).addr).memory seg size, (seg.upper size).addr) := by
  have start : (seg.upper size).addr = seg.addr + headerSize + size := rfl
  have limit := seg.addr_le_limit
  have wrap : (seg.addr + headerSize + size) % word64 = (seg.upper size).addr := by
    simp only [word64]
    rw [start, Nat.mod_eq_of_lt (by omega)]
  have field (linked : ByteMemory) (same : sizeOf linked seg.addr = seg.size) :
      sizeOf (setFree (setNext linked (seg.upper size).addr seg.addr) (seg.upper size).addr 1) seg.addr = seg.size := by
    rw [sizeOf_setFree (by omega), sizeOf_setNext (by omega), same]
  simp only [redirect] at linked
  simp only [splitSegment, wrap, ne_eq, ite_not, field _ linked]
  rfl

theorem carve_headed {linked : ByteMemory} {head' : Nat} (tiled : Tiled top (before ++ seg :: after) bottom)
    (headed : Headed memory head (before ++ seg :: after) 0) (below : seg.limit < 2 ^ 64) (small : seg.size < 2 ^ 32)
    (upper : Headed linked head' before (seg.upper size).addr) (same : ∀ a, a < seg.limit -> linked a = memory a) :
    Headed (carve linked seg size) head' (before ++ seg.upper size :: seg.lower size :: after) 0 := by
  obtain ⟨above, beneath⟩ := tiled.around
  obtain ⟨middle, -, -, header, lower⟩ := headed_append.mp headed
  have limit := seg.addr_le_limit
  obtain ⟨header', next⟩ := header.congr (fun k inside => same (seg.addr + k) (by omega))
  obtain ⟨headerUpper, nextUpper⟩ := carve_upper room linked below small
  obtain ⟨headerLower, nextLower⟩ := carve_lower room small header'.free
  refine headed_append.mpr ⟨_, upper.congr ?_, rfl, headerUpper, nextUpper, headerLower, ?_⟩
  · intro x member k inside
    have := above x member
    exact carve_outside room (by omega)
  show Headed _ (nextOf _ seg.addr) after 0
  rw [nextLower, next]
  refine lower.congr ?_
  intro x member k inside
  have := beneath x member
  have := x.addr_le_limit
  rw [carve_outside room (by omega), same _ (by omega)]

theorem Tiled.split (tiled : Tiled top (before ++ seg :: after) bottom) :
    Tiled top (before ++ seg.upper size :: seg.lower size :: after) bottom := by
  obtain ⟨middle, upper, limit, lower⟩ := tiled_append.mp tiled
  exact tiled_append.mpr ⟨middle, upper, (upper_limit room).trans limit, rfl, lower⟩

end Carve

-- The state in which `malloc` has split the segment it found.
def splitState (s : State) (pred seg size : Nat) : State :=
  let (memory, newSeg) := splitSegment s.memory pred seg size
  if pred = 0 then { s with memory := memory, currentSegment := newSeg }
  else { s with memory := setNext memory pred newSeg }

theorem split_sizes (before : List Segment) (laid : Laid s (before ++ seg :: after))
    (aligned : size % 8 = 0) (room : size + headerSize ≤ seg.size) :
    ∀ x ∈ before ++ seg.upper size :: seg.lower size :: after, x.size % 8 = 0 := by
  have sizes := laid.sizes
  simp only [forall_mem_append, forall_mem_cons] at sizes ⊢
  refine ⟨sizes.1, ?_, aligned, sizes.2.2⟩
  simp only [Segment.upper, headerSize] at *
  omega

theorem split_busy (before : List Segment) (isFree : seg.free = true) (x : Segment) (allocated : x.free = false) :
    x ∈ before ++ seg.upper size :: seg.lower size :: after ↔ x ∈ before ++ seg :: after := by
  have notUpper : x ≠ seg.upper size := Segment.ne_of_busy allocated rfl
  have notLower : x ≠ seg.lower size := Segment.ne_of_busy allocated isFree
  have notWhole : x ≠ seg := Segment.ne_of_busy allocated isFree
  simp [notUpper, notLower, notWhole]

variable {k : Nat} {x : Segment}

theorem Tiled.data_outside (tiled : Tiled top segs bottom) (inside : x ∈ segs) (allocated : x.free = false)
    (member : seg ∈ segs) (isFree : seg.free = true) (bounded : k < x.size) :
    x.data + k < seg.addr ∨ seg.limit ≤ x.data + k := by
  have := x.addr_le_limit
  simp only [Segment.data]
  rcases (tiled.disjoint inside member).resolve_left (Segment.ne_of_busy allocated isFree) with lower | upper
  · omega
  · omega

theorem Tiled.data_apart (tiled : Tiled top segs bottom) (inside : x ∈ segs) (member : seg ∈ segs)
    (bounded : k < x.size) : x.data + k < seg.addr ∨ seg.addr + headerSize ≤ x.data + k := by
  have := x.addr_le_limit
  have := seg.addr_le_limit
  simp only [Segment.data]
  rcases tiled.disjoint inside member with rfl | lower | upper
  · omega
  · omega
  · omega

theorem splitState_laid (isFree : seg.free = true) (aligned : size % 8 = 0)
    (room : size + headerSize ≤ seg.size) (laid : Laid s (before ++ seg :: after)) :
    Rearranges s (splitState s (lastAddr before) seg.addr size) (before ++ seg :: after)
      (before ++ seg.upper size :: seg.lower size :: after) := by
  have tiled := laid.tiled
  have tiled' := tiled.split room
  have member : seg ∈ before ++ seg :: after := by simp
  obtain ⟨-, -, below, small⟩ := laid.bounds member
  have above := tiled.around.1
  have newBelow : (seg.upper size).addr < 2 ^ 64 := by
    have := upper_limit room
    have := (seg.upper size).addr_le_limit
    omega
  obtain ⟨upper, outside⟩ := redirect_headed tiled laid.headed newBelow
  have same : ∀ a < seg.limit, (redirect s (lastAddr before) (seg.upper size).addr).memory a = s.memory a := by
    intro a inside
    refine outside a fun x member => .inl ?_
    have := above x member
    omega
  have carved := carve_headed room tiled laid.headed below small upper same
  have header := (laid.headed.header_of_mem.congr fun k inside => same (seg.addr + k) (by have := seg.addr_le_limit; omega)).1
  -- `malloc` sets the link in front of the new segment a second time.
  let cut : State :=
    { redirect s (lastAddr before) (seg.upper size).addr with
      memory := carve (redirect s (lastAddr before) (seg.upper size).addr).memory seg size }
  have result : splitState s (lastAddr before) seg.addr size = redirect cut (lastAddr before) (seg.upper size).addr := by
    rw [splitState, splitSegment_eq room below header.size]
    simp only [cut, redirect]
    split <;> rfl
  obtain ⟨upper', outside'⟩ := redirect_headed tiled' (s := cut) carved newBelow
  obtain ⟨middle, -, rest⟩ := headed_append.mp carved
  obtain rfl : middle = (seg.upper size).addr := rest.1
  rw [result]
  refine ⟨⟨tiled', headed_append.mpr ⟨_, upper', rest.congr ?_⟩, laid.below, split_sizes _ laid aligned room⟩,
    split_busy _ isFree, ?_, rfl, rfl⟩
  · intro x inside k bounded
    refine outside' _ fun y member => .inl ?_
    have := above y member
    have : x.limit ≤ seg.limit := by
      obtain ⟨_, -, lower⟩ := tiled_append.mp tiled'
      rw [← upper_limit room, lower.1]
      exact (lower.inside inside).2
    have := x.addr_le_limit
    omega
  · intro x inside allocated k bounded
    have apart (y : Segment) (member : y ∈ before) := tiled.data_apart inside (mem_append_left _ member) bounded
    rw [outside' _ apart, ← outside _ apart]
    exact carve_outside room (tiled.data_outside inside allocated member isFree bounded)

theorem takeSegment_allocates (laid : Laid s (before ++ seg :: after)) (isFree : seg.free = true)
    (aligned : size % 8 = 0) (fits : size ≤ seg.size) :
    ∃ segs' new, Allocates s (takeSegment s (lastAddr before) seg.addr size).1 (before ++ seg :: after)
        segs' new size ∧ (takeSegment s (lastAddr before) seg.addr size).2 = new.data := by
  have header := laid.headed.header_of_mem
  obtain ⟨-, -, below, small⟩ := laid.bounds (show seg ∈ before ++ seg :: after by simp)
  have wrap : (size + headerSize + minSegmentSize) % word64 = size + headerSize + minSegmentSize := by
    apply Nat.mod_eq_of_lt
    simp only [headerSize, minSegmentSize, word64]
    omega
  by_cases large : size + headerSize + minSegmentSize ≤ seg.size
  · have room : size + headerSize ≤ seg.size := by omega
    obtain ⟨laid', keeps⟩ := splitState_laid isFree aligned room laid
    have laidLower : Laid (splitState s (lastAddr before) seg.addr size)
        ((before ++ [seg.upper size]) ++ seg.lower size :: after) := by rwa [append_assoc]
    have taken := setFree_allocates laidLower isFree (le_refl size)
    rw [append_assoc] at taken
    have result : takeSegment s (lastAddr before) seg.addr size =
        let split := splitState s (lastAddr before) seg.addr size
        ({ split with memory := setFree split.memory seg.addr 0, nAllocations := split.nAllocations + 1 },
          seg.addr + headerSize) := by
      simp only [takeSegment, wrap, header.size, large, if_true]
      rfl
    rw [result]
    exact ⟨_, _, keeps.allocates taken, rfl⟩
  · have result : takeSegment s (lastAddr before) seg.addr size =
        ({ s with memory := setFree s.memory seg.addr 0, nAllocations := s.nAllocations + 1 }, seg.addr + headerSize) := by
      simp only [takeSegment, wrap, header.size, large, if_false]
    rw [result]
    exact ⟨_, _, setFree_allocates laid isFree fits, rfl⟩

theorem expandHeap_laid (laid : Laid s segs)
    (aligned : size % 8 = 0) (large : headerSize ≤ size) (below : heapBegin + s.heapSize + size < word64) :
    ∃ new, new.free = true ∧ new.size = size - headerSize ∧ Rearranges s (expandHeap s size) segs (new :: segs) := by
  have brk := laid.brk
  have limited : heapBegin + s.heapSize + size < 2 ^ 64 := below
  have smallSize : size < 2 ^ 32 := by
    simp only [heapBegin] at limited
    omega
  have field : (size + (word64 - headerSize)) % word64 = size - headerSize := by
    simp only [word64, headerSize] at *
    omega
  have outside : ∀ a < heapBegin + s.heapSize, (expandHeap s size).memory a = s.memory a := by
    intro a inside
    simp only [expandHeap, brk]
    rw [setFree_outside (Or.inl inside), setSize_outside (Or.inl inside), setNext_outside (Or.inl inside)]
  have currentSmall : s.currentSegment < 2 ^ 64 := by
    rcases laid.headed.head_cases with ⟨-, zero⟩ | ⟨seg, member, same⟩
    · simp [zero]
    · have := laid.bounds member
      have := seg.addr_le_limit
      omega
  have total : (s.heapSize + size) % word64 = s.heapSize + size := Nat.mod_eq_of_lt (by omega)
  refine ⟨⟨heapBegin + s.heapSize, size - headerSize, true⟩, rfl, rfl, ⟨⟨?_, laid.tiled⟩, ⟨brk, ⟨?_, ?_⟩, ?_⟩, ?_, ?_⟩,
    ?_, ?_, rfl, rfl⟩
  · simp only [Segment.limit, Segment.data, expandHeap, total]
    omega
  · simp only [expandHeap, brk, field]
    rw [sizeOf_setFree (Or.inl rfl), sizeOf_setSize (by omega)]
  · simp only [expandHeap, brk]
    exact freeOf_setFree (by omega)
  · have next : nextOf (expandHeap s size).memory (heapBegin + s.heapSize) = s.currentSegment := by
      simp only [expandHeap, brk]
      rw [nextOf_setFree (Or.inl rfl), nextOf_setSize (Or.inl rfl), nextOf_setNext currentSmall]
    rw [next]
    refine laid.headed.congr ?_
    intro seg member k inside
    have := (laid.bounds member).2.1
    have := seg.addr_le_limit
    exact outside _ (by omega)
  · show heapBegin + (s.heapSize + size) % word64 < word64
    omega
  · intro seg member
    rcases mem_cons.mp member with rfl | old
    · simp only [headerSize] at *
      omega
    · exact laid.sizes seg old
  · intro seg allocated
    simp [Segment.ne_of_busy allocated]
  · intro seg member allocated k inside
    have := (laid.bounds member).2.1
    have := seg.addr_le_limit
    exact outside _ (by simp only [Segment.data]; omega)

theorem roundSize_aligned (size : Nat) : roundSize size % 8 = 0 := by
  simp only [roundSize, minSegmentSize]
  omega

theorem roundSize_idem (size : Nat) : roundSize (roundSize size) = roundSize size := by
  simp only [roundSize, minSegmentSize, word64]
  omega

theorem le_roundSize (moderate : size ≤ 2 ^ 64 - 8) : size ≤ roundSize size := by
  simp only [roundSize, minSegmentSize, word64]
  omega

-- The check of the first header fails when the expansion passes the address limit.
theorem expansion_faults {wanted : Nat} (laid : Laid s segs) (bounded : size < word64)
    (beyond : ¬ heapBegin + s.heapSize + size < word64) :
    findSegment (expandHeap s size) wanted ((expandHeap s size).heapSize + 1) pred (expandHeap s size).currentSegment =
      .error .notInHeap := by
  have current : (expandHeap s size).currentSegment = heapBegin + s.heapSize := laid.brk
  have newBrk : heapGetBrk (expandHeap s size) = (heapBegin + s.heapSize + size) % word64 := by
    show (heapBegin + (s.heapSize + size) % word64) % word64 = _
    rw [Nat.add_mod_mod, Nat.add_assoc]
  have nonzero : heapBegin + s.heapSize ≠ 0 := by
    omega
  have outside : heapGetBrk (expandHeap s size) ≤ heapBegin + s.heapSize := by
    rw [newBrk]
    simp only [word64] at *
    omega
  rw [current, findSegment, if_neg nonzero, heapAssertSeg, if_pos (.inr outside)]
  rfl

theorem Laid.search (laid : Laid s segs) (size : Nat) :
    (findSegment s size (s.heapSize + 1) 0 s.currentSegment = .ok none ∧ ∀ x ∈ segs, x.free = true -> x.size < size) ∨
    ∃ upper found lower, segs = upper ++ found :: lower ∧ found.free = true ∧ size ≤ found.size ∧
      findSegment s size (s.heapSize + 1) 0 s.currentSegment = .ok (some (lastAddr upper, found.addr)) := by
  have enough : segs.length < s.heapSize + 1 := by
    have := laid.tiled.bottom_le
    simp only [headerSize] at this
    omega
  exact findSegment_finds laid size segs [] (s.heapSize + 1) s.currentSegment rfl laid.headed enough

-- The size of the expansion for a rounded request.
def expansion (size : Nat) : Nat := max ((size + headerSize) % word64) minExpandSize

theorem expansion_fits (aligned : size % 8 = 0) : expansion size % 8 = 0 ∧
    headerSize ≤ expansion size ∧ expansion size < word64 := by
  simp only [expansion, headerSize, minExpandSize, word64]
  omega

theorem mallocLoop_allocates (fuel : Nat) :
    ∀ (s : State) (segs : List Segment) (request : Nat) (s' : State) (ptr : Nat), Laid s segs ->
      mallocLoop fuel s request = .ok (s', ptr) ->
      ∃ segs' new, Allocates s s' segs segs' new (roundSize request) ∧ ptr = new.data := by
  induction fuel with
  | zero =>
    intro s segs request s' ptr _ result
    cases result
  | succ fuel ih =>
    intro s segs request s' ptr laid result
    have aligned := roundSize_aligned request
    rw [mallocLoop] at result
    obtain ⟨found, search, result⟩ := bind_eq_ok.mp result
    have spec := laid.search (roundSize request)
    rw [search] at spec
    rcases spec with ⟨missing, -⟩ | ⟨upper, seg, lower, rfl, isFree, fits, located⟩
    · cases missing
      obtain ⟨whole, large, small⟩ := expansion_fits aligned
      -- The retry searches the expanded heap, so the expansion fits below the address limit.
      have below : heapBegin + s.heapSize + expansion (roundSize request) < word64 := by
        by_contra beyond
        cases fuel with
        | zero => cases result
        | succ fuel =>
          rw [mallocLoop] at result
          obtain ⟨_, retried, -⟩ := bind_eq_ok.mp result
          cases (expansion_faults laid small beyond).symm.trans retried
      obtain ⟨new, -, -, laid', keeps⟩ := expandHeap_laid laid whole large below
      obtain ⟨segs', block, allocates, place⟩ := ih _ _ _ _ _ laid' result
      rw [roundSize_idem] at allocates
      exact ⟨segs', block, keeps.allocates allocates, place⟩
    · cases located
      cases result
      exact takeSegment_allocates laid isFree aligned fits

end Bincows.Heap
