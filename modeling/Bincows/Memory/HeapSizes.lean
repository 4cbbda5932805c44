import Bincows.Memory.HeapRuns

set_option autoImplicit false

namespace Bincows.Heap

variable {s : State} {segs : List Segment} {request size fuel : Nat}

theorem mallocLoop_none (missing : findSegment s (roundSize request) (s.heapSize + 1) 0 s.currentSegment = .ok none) :
    mallocLoop (fuel + 1) s request = mallocLoop fuel (expandHeap s (expansion (roundSize request))) (roundSize request) := by
  rw [mallocLoop, missing]
  rfl

theorem mallocLoop_some {found : Nat × Nat}
    (search : findSegment s (roundSize request) (s.heapSize + 1) 0 s.currentSegment = .ok (some found)) :
    mallocLoop (fuel + 1) s request = .ok (takeSegment s found.1 found.2 (roundSize request)) := by
  rw [mallocLoop, search]
  rfl

-- The expansion leaves a free segment that serves the retry, or no heap at all.
theorem mallocLoop_once (laid : Laid s segs) (moderate : request ≤ 2 ^ 64 - 24) :
    mallocLoop 2 s request ≠ .error .diverges := by
  obtain ⟨whole, large, small⟩ := expansion_fits (roundSize_aligned request)
  rcases laid.search (roundSize request) with ⟨missing, -⟩ | ⟨_, _, _, -, -, -, found⟩
  · rw [mallocLoop_none missing]
    by_cases below : heapBegin + s.heapSize + expansion (roundSize request) < word64
    · obtain ⟨new, isFree, size, laid', -⟩ := expandHeap_laid laid whole large below
      rcases laid'.search (roundSize (roundSize request)) with ⟨-, short⟩ | ⟨_, _, _, -, -, -, found⟩
      · have := short new List.mem_cons_self isFree
        simp only [size, expansion, roundSize, headerSize, minSegmentSize, minExpandSize, word64] at this
        omega
      · rw [mallocLoop_some found]
        rintro ⟨⟩
    · rw [mallocLoop, expansion_faults laid small below]
      rintro ⟨⟩
  · rw [mallocLoop_some found]
    rintro ⟨⟩

theorem Laid.search_fails (laid : Laid s segs) (huge : 2 ^ 32 ≤ size) :
    findSegment s size (s.heapSize + 1) 0 s.currentSegment = .ok none := by
  rcases laid.search size with ⟨missing, -⟩ | ⟨upper, seg, lower, rfl, -, fits, -⟩
  · exact missing
  · have := (laid.bounds (show seg ∈ upper ++ seg :: lower by simp)).2.2.2
    omega

-- The size of the expansion overflows, and the retry meets the same request again.
theorem mallocLoop_again (laid : Laid s segs) (huge : 2 ^ 64 - 24 < request) (rounds : request ≤ 2 ^ 64 - 8)
    (room : heapBegin + s.heapSize + minExpandSize < word64) : mallocLoop 2 s request = .error .diverges := by
  have large : 2 ^ 64 - 16 ≤ roundSize request := by
    simp only [roundSize, minSegmentSize, word64]
    omega
  have least : expansion (roundSize request) = minExpandSize := by
    have : roundSize request < 2 ^ 64 := by
      simp only [roundSize, minSegmentSize, word64]
      omega
    simp only [expansion, headerSize, minExpandSize, word64]
    omega
  obtain ⟨new, -, -, laid', -⟩ := expandHeap_laid laid (by decide) (by decide) room
  have again : roundSize (roundSize request) = roundSize request := roundSize_idem request
  rw [mallocLoop_none (laid.search_fails (by omega)), least, mallocLoop_none (laid'.search_fails (by omega))]
  rfl

theorem malloc_rounded {size' : Nat} (same : roundSize size = roundSize size') : malloc s size = malloc s size' := by
  rw [malloc, mallocLoop, same]
  rfl

structure Serves (m : Machine) (size : Nat) : Prop where
  malloc : ∀ s' ptr, malloc m.heap size = .ok (s', ptr) -> size ≤ sizeOf s'.memory (ptr - headerSize)
  realloc : ∀ old s' ptr, old = 0 ∨ old ∈ m.live.map Block.ptr ->
    realloc m.heap old size = .ok (s', ptr) -> size ≤ sizeOf s'.memory (ptr - headerSize)
  -- the call and one retry
  recursion : mallocLoop 2 m.heap size ≠ .error .diverges

variable {m : Machine}

theorem Tracks.usable_of_step {event : Event} {block : Block} {live : List Block} {s' : State}
    (tracks : Tracks m segs) (step : Step m event ⟨s', block :: live⟩) (moderate : event.Moderate) :
    block.requested ≤ sizeOf s'.memory (block.ptr - headerSize) := by
  obtain ⟨⟨segs', tracks'⟩, -⟩ := tracks.step moderate step
  exact tracks'.usable List.mem_cons_self

theorem Tracks.serves (tracks : Tracks m segs) (moderate : size ≤ 2 ^ 64 - 24) : Serves m size := by
  have rounds : size ≤ 2 ^ 64 - 8 := by omega
  refine ⟨fun s' ptr result => ?_, fun old s' ptr live result => ?_, mallocLoop_once tracks.laid moderate⟩
  · exact tracks.usable_of_step (.malloc size ptr s' result) rounds
  rcases live with rfl | there
  · exact tracks.usable_of_step (.reallocNull size ptr s' result) rounds
  · obtain ⟨block, held, rfl⟩ := List.mem_map.mp there
    by_cases zero : size = 0
    · exact zero ▸ Nat.zero_le _
    · exact tracks.usable_of_step (.realloc block size ptr s' held zero result) rounds

theorem serves_iff (size : BitVec 64) : (∀ m segs, Tracks m segs -> Serves m size.toNat) ↔ size.toNat ≤ 2 ^ 64 - 24 := by
  refine ⟨fun all => ?_, fun moderate m segs tracks => tracks.serves moderate⟩
  by_contra huge
  obtain ⟨segs, tracks⟩ := start_tracks fun _ => 0
  have served := all _ segs tracks
  by_cases rounds : size.toNat ≤ 2 ^ 64 - 8
  · exact served.recursion (mallocLoop_again tracks.laid (by omega) rounds (by decide))
  obtain ⟨⟨s', ptr⟩, result, fields⟩ := Except.map_eq_ok malloc_wraps
  have wraps : roundSize size.toNat = roundSize (2 ^ 64 - 1) := by
    simp only [roundSize, minSegmentSize, word64]
    omega
  have usable := served.malloc s' ptr ((malloc_rounded wraps).trans result)
  rw [(Prod.mk.inj fields).2, minSegmentSize] at usable
  omega

theorem huge_requests : mallocLoop 2 (heapInit fun _ => 0) (2 ^ 64 - 16) = .error .diverges ∧
    ∃ s' ptr, malloc (heapInit fun _ => 0) (2 ^ 64 - 1) = .ok (s', ptr) ∧ sizeOf s'.memory (ptr - headerSize) = 32 := by
  obtain ⟨segs, tracks⟩ := start_tracks fun _ => 0
  obtain ⟨⟨s', ptr⟩, result, fields⟩ := Except.map_eq_ok malloc_wraps
  exact ⟨mallocLoop_again tracks.laid (by decide) (by decide) (by decide), s', ptr, result, (Prod.mk.inj fields).2⟩

end Bincows.Heap
