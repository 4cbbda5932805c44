import Bincows.Memory.Heap

set_option autoImplicit false

/-! The heap as a list of segments from the highest address down: `Tiled` says that they cover an
area, `Headed` that the headers in memory link and describe them. -/

namespace Bincows.Heap

open ByteMemory List

structure Segment where
  addr : Nat
  size : Nat
  free : Bool
  deriving DecidableEq

theorem Segment.ne_of_busy {x seg : Segment} (busy : x.free = false) (isFree : seg.free = true) : x ≠ seg := by
  rintro rfl
  simp [isFree] at busy

def Segment.data (seg : Segment) : Nat := seg.addr + headerSize

def Segment.limit (seg : Segment) : Nat := seg.data + seg.size

def Tiled : Nat -> List Segment -> Nat -> Prop
  | top, [], bottom => top = bottom
  | top, seg :: rest, bottom => seg.limit = top ∧ Tiled seg.addr rest bottom

variable {before after : List Segment}

theorem tiled_append :
    ∀ {top bottom : Nat}, Tiled top (before ++ after) bottom ↔
      ∃ middle, Tiled top before middle ∧ Tiled middle after bottom := by
  induction before with
  | nil => simp [Tiled]
  | cons seg rest ih =>
    intro top bottom
    simp only [cons_append, Tiled, ih, and_assoc, exists_and_left]

theorem Segment.addr_le_limit (seg : Segment) : seg.addr + headerSize + seg.size = seg.limit := rfl

variable {segs : List Segment}

theorem Tiled.bottom_le : ∀ {top bottom : Nat}, Tiled top segs bottom -> bottom + headerSize * segs.length ≤ top := by
  induction segs with
  | nil => exact fun tiled => Nat.le_of_eq tiled.symm
  | cons seg rest ih =>
    rintro top bottom ⟨limit, lower⟩
    have := ih lower
    have := seg.addr_le_limit
    simp only [length_cons, Nat.mul_add]
    omega

variable {seg : Segment}

theorem Tiled.inside : ∀ {top bottom : Nat}, Tiled top segs bottom -> seg ∈ segs -> bottom ≤ seg.addr ∧ seg.limit ≤ top := by
  induction segs with
  | nil => simp
  | cons first rest ih =>
    intro top bottom tiled member
    obtain ⟨limit, lower⟩ := tiled
    have low := lower.bottom_le
    have := first.addr_le_limit
    rcases mem_cons.mp member with rfl | later
    · omega
    · have := ih lower later
      omega

theorem Tiled.descending :
    ∀ {top bottom : Nat}, Tiled top segs bottom -> segs.Pairwise (fun upper lower => lower.limit ≤ upper.addr) := by
  induction segs with
  | nil => simp
  | cons first rest ih =>
    intro top bottom tiled
    exact pairwise_cons.mpr ⟨fun seg member => (tiled.2.inside member).2, ih tiled.2⟩

variable {top bottom : Nat} {other : Segment}

theorem Tiled.disjoint (tiled : Tiled top segs bottom) (member : seg ∈ segs)
    (member' : other ∈ segs) : seg = other ∨ seg.limit ≤ other.addr ∨ other.limit ≤ seg.addr := by
  have descending := tiled.descending
  clear tiled
  induction segs with
  | nil => simp at member
  | cons first rest ih =>
    obtain ⟨below, descending⟩ := pairwise_cons.mp descending
    rcases mem_cons.mp member with rfl | later <;> rcases mem_cons.mp member' with rfl | later'
    · exact Or.inl rfl
    · exact Or.inr (Or.inr (below other later'))
    · exact Or.inr (Or.inl (below seg later))
    · exact ih later later' descending

theorem Tiled.addr_injective (tiled : Tiled top segs bottom) (member : seg ∈ segs)
    (member' : other ∈ segs) (same : seg.addr = other.addr) : seg = other := by
  rcases tiled.disjoint member member' with equal | below | above
  · exact equal
  · have := seg.addr_le_limit
    simp only [headerSize] at this
    omega
  · have := other.addr_le_limit
    simp only [headerSize] at this
    omega

section Headers

variable {memory : ByteMemory} {a b v : Nat}

theorem nextOf_setNext (small : v < 2 ^ 64) : nextOf (setNext memory a v) a = v := by
  rw [nextOf, setNext, load_store_same]
  exact Nat.mod_eq_of_lt small

theorem sizeOf_setSize (small : v < 2 ^ 32) : sizeOf (setSize memory a v) a = v := by
  rw [sizeOf, setSize, load_store_same]
  exact Nat.mod_eq_of_lt small

theorem freeOf_setFree (small : v < 2 ^ 32) : freeOf (setFree memory a v) a = v := by
  rw [freeOf, setFree, load_store_same]
  exact Nat.mod_eq_of_lt small

section

variable (apart : b = a ∨ b + headerSize ≤ a ∨ a + headerSize ≤ b)
include apart

theorem nextOf_setSize : nextOf (setSize memory a v) b = nextOf memory b :=
  load_store_disjoint (by simp only [headerSize] at apart; omega)

theorem nextOf_setFree : nextOf (setFree memory a v) b = nextOf memory b :=
  load_store_disjoint (by simp only [headerSize] at apart; omega)

theorem sizeOf_setNext : sizeOf (setNext memory a v) b = sizeOf memory b :=
  load_store_disjoint (by simp only [headerSize] at apart; omega)

theorem sizeOf_setFree : sizeOf (setFree memory a v) b = sizeOf memory b :=
  load_store_disjoint (by simp only [headerSize] at apart; omega)

theorem freeOf_setNext : freeOf (setNext memory a v) b = freeOf memory b :=
  load_store_disjoint (by simp only [headerSize] at apart; omega)

theorem freeOf_setSize : freeOf (setSize memory a v) b = freeOf memory b :=
  load_store_disjoint (by simp only [headerSize] at apart; omega)

end

section

variable (outside : b < a ∨ a + headerSize ≤ b)
include outside

theorem setNext_outside : setNext memory a v b = memory b :=
  store_outside 8 _ _ _ (by simp only [headerSize] at outside; omega)

theorem setSize_outside : setSize memory a v b = memory b :=
  store_outside 4 _ _ _ (by simp only [headerSize] at outside; omega)

theorem setFree_outside : setFree memory a v b = memory b :=
  store_outside 4 _ _ _ (by simp only [headerSize] at outside; omega)

end

end Headers

structure Header (memory : ByteMemory) (seg : Segment) : Prop where
  size : sizeOf memory seg.addr = seg.size
  free : freeOf memory seg.addr = seg.free.toNat

def Headed (memory : ByteMemory) : Nat -> List Segment -> Nat -> Prop
  | head, [], tail => head = tail
  | head, seg :: rest, tail =>
    head = seg.addr ∧ Header memory seg ∧ Headed memory (nextOf memory seg.addr) rest tail

variable {memory : ByteMemory}

theorem headed_append :
    ∀ {head tail : Nat}, Headed memory head (before ++ after) tail ↔
      ∃ middle, Headed memory head before middle ∧ Headed memory middle after tail := by
  induction before with
  | nil => simp [Headed]
  | cons seg rest ih =>
    intro head tail
    simp only [cons_append, Headed, ih, and_assoc, exists_and_left]

variable {memory' : ByteMemory}

theorem Header.congr (header : Header memory seg) (same : ∀ k < headerSize, memory' (seg.addr + k) = memory (seg.addr + k)) :
    Header memory' seg ∧ nextOf memory' seg.addr = nextOf memory seg.addr := by
  have field (offset width : Nat) (bounded : offset + width ≤ headerSize) :
      memory'.load (seg.addr + offset) width = memory.load (seg.addr + offset) width := by
    apply load_congr
    intro k inside
    rw [Nat.add_assoc]
    exact same (offset + k) (by omega)
  exact ⟨⟨(field 8 4 (by decide)).trans header.size, (field 12 4 (by decide)).trans header.free⟩, field 0 8 (by decide)⟩

theorem Headed.congr :
    ∀ {head tail : Nat}, Headed memory head segs tail ->
      (∀ seg ∈ segs, ∀ k < headerSize, memory' (seg.addr + k) = memory (seg.addr + k)) ->
      Headed memory' head segs tail := by
  induction segs with
  | nil => exact fun headed _ => headed
  | cons seg rest ih =>
    intro head tail headed same
    obtain ⟨start, header, linked⟩ := headed
    obtain ⟨header', next⟩ := header.congr (same seg (by simp))
    refine ⟨start, header', ?_⟩
    rw [next]
    exact ih linked (fun other member => same other (mem_cons_of_mem _ member))

def lastAddr (before : List Segment) : Nat := (before.getLast?.map Segment.addr).getD 0

@[simp] theorem lastAddr_concat (before : List Segment) (seg : Segment) : lastAddr (before ++ [seg]) = seg.addr := by
  simp [lastAddr]

theorem Headed.relink {init : List Segment} {pred : Segment} {head tail tail' : Nat}
    (headed : Headed memory head (init ++ [pred]) tail)
    (apart : ∀ seg ∈ init, pred.limit ≤ seg.addr) (small : tail' < 2 ^ 64) :
    Headed (setNext memory pred.addr tail') head (init ++ [pred]) tail' := by
  obtain ⟨middle, upper, start, header, -⟩ := headed_append.mp headed
  have above := pred.addr_le_limit
  refine headed_append.mpr ⟨middle, upper.congr ?_, start, ⟨?_, ?_⟩, nextOf_setNext small⟩
  · intro seg member k inside
    have := apart seg member
    exact setNext_outside (by omega)
  · rw [sizeOf_setNext (Or.inl rfl), header.size]
  · rw [freeOf_setNext (Or.inl rfl), header.free]

structure Laid (s : State) (segs : List Segment) : Prop where
  tiled : Tiled (heapBegin + s.heapSize) segs heapBegin
  headed : Headed s.memory s.currentSegment segs 0
  below : heapBegin + s.heapSize < word64
  sizes : ∀ seg ∈ segs, seg.size % 8 = 0

variable {s : State}

theorem Laid.brk (laid : Laid s segs) : heapGetBrk s = heapBegin + s.heapSize := by
  rw [heapGetBrk, Nat.mod_eq_of_lt laid.below]

theorem Headed.head_cases {head : Nat}
    (headed : Headed memory head segs 0) : segs = [] ∧ head = 0 ∨ ∃ seg ∈ segs, head = seg.addr := by
  cases segs with
  | nil => exact Or.inl ⟨rfl, headed⟩
  | cons seg rest => exact Or.inr ⟨seg, by simp, headed.1⟩

theorem heapAssertSeg_passes (laid : Laid s segs) (split : segs = before ++ seg :: after) :
    heapAssertSeg s seg.addr = .ok () := by
  subst split
  obtain ⟨low, high⟩ := laid.tiled.inside (show seg ∈ before ++ seg :: after by simp)
  obtain ⟨middle, -, rfl, header, linked⟩ := headed_append.mp laid.headed
  have below := laid.below
  have limit := seg.addr_le_limit
  have short : heapGetBrk s ≥ (seg.addr + seg.size) % word64 := by
    rw [laid.brk, Nat.mod_eq_of_lt (by omega)]
    omega
  have flag : freeOf s.memory seg.addr ≤ 1 := by
    rw [header.free]
    exact Bool.toNat_le seg.free
  have next : ¬ (nextOf s.memory seg.addr ≠ 0 ∧ (nextOf s.memory seg.addr < heapBegin ∨
      heapGetBrk s ≤ nextOf s.memory seg.addr)) := by
    rcases linked.head_cases with ⟨-, zero⟩ | ⟨other, member, same⟩
    · simp [zero]
    have position := laid.tiled.inside (show other ∈ before ++ seg :: after by simp [member])
    have := other.addr_le_limit
    rw [laid.brk, same]
    simp only [headerSize] at *
    omega
  rw [heapAssertSeg, if_neg, if_neg, if_neg, if_neg next]
  · omega
  · rw [header.size]
    omega
  · rw [laid.brk]
    simp only [headerSize] at limit
    omega

structure Keeps (s s' : State) (segs segs' : List Segment) : Prop where
  busy : ∀ seg, seg.free = false -> (seg ∈ segs' ↔ seg ∈ segs)
  bytes : ∀ seg ∈ segs, seg.free = false -> ∀ k < seg.size, s'.memory (seg.data + k) = s.memory (seg.data + k)
  count : s'.nAllocations = s.nAllocations
  frees : s'.frees = s.frees

abbrev Rearranges (s s' : State) (segs segs' : List Segment) : Prop :=
  Laid s' segs' ∧ Keeps s s' segs segs'

theorem Keeps.refl (s : State) (segs : List Segment) : Keeps s s segs segs :=
  ⟨fun _ _ => Iff.rfl, fun _ _ _ _ _ => rfl, rfl, rfl⟩

theorem Keeps.trans {s' s'' : State} {segs' segs'' : List Segment} (first : Keeps s s' segs segs')
    (second : Keeps s' s'' segs' segs'') : Keeps s s'' segs segs'' := by
  refine ⟨?_, ?_, second.count.trans first.count, second.frees.trans first.frees⟩
  · intro seg allocated
    exact (second.busy seg allocated).trans (first.busy seg allocated)
  · intro seg member allocated k inside
    rw [second.bytes seg ((first.busy seg allocated).mpr member) allocated k inside]
    exact first.bytes seg member allocated k inside

end Bincows.Heap
