import Bincows.Memory.HeapOperations

set_option autoImplicit false

namespace Bincows.Heap

open List

-- Two neighbouring free segments joined under the header of the lower one.
def Segment.join (lower upper : Segment) : Segment :=
  { lower with size := lower.size + headerSize + upper.size }

def mergeState (s : State) (pred2 pred seg : Nat) : State :=
  let s :=
    if pred2 = 0 then { s with currentSegment := seg }
    else { s with memory := setNext s.memory pred2 seg }
  { s with memory := setSize s.memory seg (sizeOf s.memory seg + headerSize + sizeOf s.memory pred) }

section Merge

variable {s : State} {before rest : List Segment} {p q : Segment}

theorem Tiled.merge {top bottom : Nat} (tiled : Tiled top (before ++ p :: q :: rest) bottom) :
    Tiled top (before ++ q.join p :: rest) bottom := by
  obtain ⟨middle, upper, limit, limit', lower⟩ := tiled_append.mp tiled
  refine tiled_append.mpr ⟨middle, upper, ?_, lower⟩
  simp only [Segment.join, Segment.limit, Segment.data] at *
  omega

theorem merge_busy (freeP : p.free = true) (freeQ : q.free = true) (x : Segment) (allocated : x.free = false) :
    x ∈ before ++ q.join p :: rest ↔ x ∈ before ++ p :: q :: rest := by
  have notJoined : x ≠ q.join p := Segment.ne_of_busy allocated freeQ
  have notUpper : x ≠ p := Segment.ne_of_busy allocated freeP
  have notLower : x ≠ q := Segment.ne_of_busy allocated freeQ
  simp [notJoined, notUpper, notLower]

section

variable (laid : Laid s (before ++ p :: q :: rest))
include laid

theorem merge_sizes : ∀ x ∈ before ++ q.join p :: rest, x.size % 8 = 0 := by
  have sizes := laid.sizes
  simp only [forall_mem_append, forall_mem_cons] at sizes ⊢
  refine ⟨sizes.1, ?_, sizes.2.2.2⟩
  simp only [Segment.join, headerSize]
  omega

theorem merge_small : q.size + headerSize + p.size < 2 ^ 32 := by
  have tiled := laid.tiled.merge
  have below := laid.below
  obtain ⟨low, high⟩ := tiled.inside (show q.join p ∈ before ++ q.join p :: rest by simp)
  simp only [Segment.join, Segment.limit, Segment.data, headerSize, heapBegin, word64] at *
  omega

theorem unlink_headed {linked : ByteMemory} {head : Nat} (freeP : p.free = true)
    (freeQ : q.free = true) (headed : Headed linked head (before ++ q :: rest) 0)
    (sizeP : sizeOf linked p.addr = p.size)
    (bytes : ∀ x ∈ before ++ p :: q :: rest, x.free = false -> ∀ k < x.size, linked (x.data + k) = s.memory (x.data + k)) :
    Rearranges s
      { s with
        memory := setSize linked q.addr (sizeOf linked q.addr + headerSize + sizeOf linked p.addr)
        currentSegment := head } (before ++ p :: q :: rest) (before ++ q.join p :: rest) := by
  have tiled := laid.tiled
  have sizeQ := headed.header_of_mem.size
  have apart : Apart before q rest := by
    have split : before ++ p :: q :: rest = (before ++ [p]) ++ q :: rest := by simp
    rw [split] at tiled
    exact ⟨fun x member => tiled.apart.1 x (by simp [member]), tiled.apart.2⟩
  rw [sizeQ, sizeP]
  refine ⟨⟨tiled.merge, headed.setSize apart (merge_small laid), laid.below, merge_sizes laid⟩,
    merge_busy freeP freeQ, ?_, rfl, rfl⟩
  intro x inside allocated k bounded
  have memberQ : q ∈ before ++ p :: q :: rest := by simp
  exact (setSize_outside (tiled.data_apart inside memberQ bounded)).trans (bytes x inside allocated k bounded)

end

theorem mergeState_laid (laid : Laid s (before ++ p :: q :: rest)) (freeP : p.free = true) (freeQ : q.free = true) :
    Rearranges s (mergeState s (lastAddr before) p.addr q.addr) (before ++ p :: q :: rest) (before ++ q.join p :: rest) := by
  have tiled := laid.tiled
  have small : q.addr < 2 ^ 64 := by
    have := (laid.bounds (show q ∈ before ++ p :: q :: rest by simp)).2.2.1
    have := q.addr_le_limit
    omega
  obtain ⟨middle, -, rfl, header, next, header', lower⟩ := headed_append.mp laid.headed
  obtain ⟨upper, outside⟩ := redirect_headed tiled laid.headed small
  have beneath : ∀ x ∈ p :: q :: rest, ∀ k < headerSize,
      (redirect s (lastAddr before) q.addr).memory (x.addr + k) = s.memory (x.addr + k) := by
    intro x inside k bounded
    refine outside _ fun y member => .inl ?_
    obtain ⟨_, above, below⟩ := tiled_append.mp tiled
    have := (above.inside member).1
    have := (below.inside inside).2
    have := x.addr_le_limit
    omega
  have linked : Headed s.memory q.addr (q :: rest) 0 := ⟨rfl, header', lower⟩
  have headed := headed_append.mpr ⟨q.addr, upper, linked.congr fun x inside => beneath x (mem_cons_of_mem _ inside)⟩
  have merged := unlink_headed laid freeP freeQ headed (header.congr (beneath p mem_cons_self)).1.size
    fun x inside _ k bounded => outside _ fun y member => tiled.data_apart inside (mem_append_left _ member) bounded
  by_cases zero : lastAddr before = 0
  · simpa only [mergeState, redirect, zero, if_true] using merged
  · simpa only [mergeState, redirect, zero, if_false] using merged

end Merge

theorem defragmentLoop_keeps (fuel : Nat) :
    ∀ (s : State) (before after : List Segment) (p : Segment), Laid s (before ++ p :: after) -> after.length < fuel ->
      ∃ s' segs', defragmentLoop fuel s (lastAddr before) p.addr (nextOf s.memory p.addr) = .ok s' ∧
        Rearranges s s' (before ++ p :: after) segs' := by
  induction fuel with
  | zero => exact fun _ _ _ _ _ impossible => absurd impossible (by omega)
  | succ fuel ih =>
    intro s before after p laid enough
    obtain ⟨middle, -, rfl, header, linked⟩ := headed_append.mp laid.headed
    cases after with
    | nil =>
      have zero : nextOf s.memory p.addr = 0 := linked
      refine ⟨s, _, ?_, laid, Keeps.refl _ _⟩
      rw [defragmentLoop, if_pos zero]
    | cons q rest =>
      obtain ⟨next, header', lower⟩ := linked
      have split : before ++ p :: q :: rest = (before ++ [p]) ++ q :: rest := by simp
      have nonzero : q.addr ≠ 0 := laid.not_null (by simp)
      have step : defragmentLoop (fuel + 1) s (lastAddr before) p.addr q.addr =
          if freeOf s.memory q.addr ≠ 0 ∧ freeOf s.memory p.addr ≠ 0 then
            defragmentLoop fuel (mergeState s (lastAddr before) p.addr q.addr) (lastAddr before) q.addr
              (nextOf (mergeState s (lastAddr before) p.addr q.addr).memory q.addr)
          else defragmentLoop fuel s p.addr q.addr (nextOf s.memory q.addr) := by
        rw [defragmentLoop, if_neg nonzero, heapAssertSeg_passes laid split]
        rfl
      rw [next, step, header.free, header'.free]
      have shorter : rest.length < fuel := by
        simp only [length_cons] at enough
        omega
      split
      next both =>
        obtain ⟨freeQ, freeP⟩ : q.free = true ∧ p.free = true := by simpa using both
        obtain ⟨laid', keeps⟩ := mergeState_laid laid freeP freeQ
        obtain ⟨s', segs', result, laid'', keeps'⟩ := ih _ before rest (q.join p) laid' shorter
        exact ⟨s', segs', result, laid'', keeps.trans keeps'⟩
      have laid' := laid
      rw [split] at laid'
      obtain ⟨s', segs', result, laid'', keeps⟩ := ih s (before ++ [p]) rest q laid' shorter
      rw [lastAddr_concat] at result
      rw [← split] at keeps
      exact ⟨s', segs', result, laid'', keeps⟩

theorem defragment_keeps {s : State} {segs : List Segment} (laid : Laid s segs)
    (nonempty : segs ≠ []) : ∃ s' segs', defragment s = .ok s' ∧ Rearranges s s' segs segs' := by
  obtain ⟨p, after, rfl⟩ := exists_cons_of_ne_nil nonempty
  have start : s.currentSegment = p.addr := laid.headed.1
  have notNull : s.currentSegment ≠ 0 := start ▸ laid.not_null mem_cons_self
  have enough : after.length < s.heapSize + 1 := by
    have := laid.tiled.bottom_le
    simp only [headerSize, length_cons] at this
    omega
  rw [defragment, if_neg notNull, start]
  exact defragmentLoop_keeps (s.heapSize + 1) s [] after p laid enough

structure Releases (s s' : State) (segs segs' : List Segment) (old : Segment) : Prop where
  laid : Laid s' segs'
  busy : ∀ seg, seg.free = false -> (seg ∈ segs' ↔ seg ∈ segs ∧ seg ≠ old)
  bytes : ∀ seg ∈ segs, seg.free = false -> seg ≠ old -> ∀ k < seg.size, s'.memory (seg.data + k) = s.memory (seg.data + k)
  count : s'.nAllocations = s.nAllocations - 1

theorem setFree_releases {s : State} {before after : List Segment} {seg : Segment} (laid : Laid s (before ++ seg :: after)) :
    Laid { s with memory := setFree s.memory seg.addr 1 } (before ++ { seg with free := true } :: after) ∧
      (∀ x, x.free = false -> (x ∈ before ++ { seg with free := true } :: after ↔ x ∈ before ++ seg :: after ∧ x ≠ seg)) ∧
      ∀ x ∈ before ++ seg :: after, ∀ k < x.size, setFree s.memory seg.addr 1 (x.data + k) = s.memory (x.data + k) := by
  have tiled := laid.tiled
  have member : seg ∈ before ++ seg :: after := by simp
  refine ⟨laid.setFree true, ?_, ?_⟩
  · intro x allocated
    have notFreed : x ≠ { seg with free := true } := Segment.ne_of_busy allocated rfl
    have above : x ∈ before -> x ≠ seg := by
      rintro inside rfl
      have := tiled.apart.1 x inside
      simp only [headerSize] at this
      omega
    have below : x ∈ after -> x ≠ seg := by
      rintro inside rfl
      have := tiled.apart.2 x inside
      simp only [headerSize] at this
      omega
    simp only [mem_append, mem_cons]
    tauto
  · intro x inside k bounded
    exact setFree_outside (tiled.data_apart inside member bounded)

theorem free_releases {s : State} {segs : List Segment} {seg : Segment} (laid : Laid s segs)
    (member : seg ∈ segs) (allocated : seg.free = false) :
    ∃ s' segs', free s seg.data = .ok s' ∧ Releases s s' segs segs' seg := by
  obtain ⟨before, after, rfl⟩ := append_of_mem member
  have header := laid.headed.header_of_mem
  have place : seg.data - headerSize = seg.addr := Nat.add_sub_cancel ..
  have busy : ¬ freeOf s.memory seg.addr ≠ 0 := by
    simp [header.free, allocated]
  obtain ⟨laid', released, bytes⟩ := setFree_releases laid
  have start : free s seg.data =
      if s.frees % 32 = 0 then
        (defragment { s with memory := setFree s.memory seg.addr 1 }).map
          (fun s => { s with frees := s.frees + 1, nAllocations := s.nAllocations - 1 })
      else .ok
        { s with
          memory := setFree s.memory seg.addr 1
          frees := s.frees + 1
          nAllocations := s.nAllocations - 1 } := by
    rw [free, place, heapAssertSeg_passes laid rfl]
    refine (if_neg busy).trans ?_
    by_cases due : s.frees % 32 = 0
    · rfl
    · rfl
  rw [start]
  by_cases due : s.frees % 32 = 0
  · obtain ⟨s', segs', result, laid'', keeps⟩ := defragment_keeps laid' (by simp)
    rw [if_pos due, result]
    refine ⟨_, segs', rfl, { laid'' with }, ?_, ?_, ?_⟩
    · intro x still
      rw [keeps.busy x still, released x still]
    · intro x inside still different k bounded
      have kept := keeps.bytes x ((released x still).mpr ⟨inside, different⟩) still k bounded
      exact kept.trans (bytes x inside k bounded)
    · show s'.nAllocations - 1 = s.nAllocations - 1
      rw [keeps.count]
  · rw [if_neg due]
    exact ⟨_, _, rfl, { laid' with }, released, fun x inside _ _ => bytes x inside, rfl⟩

end Bincows.Heap
