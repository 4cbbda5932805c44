import Bincows.Fs.DirectoryStreams

set_option autoImplicit false

namespace Bincows.Fat32

open Blocks List

variable {g : Geometry} {v v' : Volume DirSector} {chain rest : List Nat} {c d p off i fuel : Nat}
  {buf : Nat -> DirRecord}

def clusterBuf (g : Geometry) (v : Volume DirSector) (c i : Nat) : DirRecord :=
  ((readBlocks v.disk (clusterBegin g c) g.clusterSize).getD (i / g.recordsPerSector) fun _ =>
    zeroRecord) (i % g.recordsPerSector)

def clusterRecords (g : Geometry) (v : Volume DirSector) (c : Nat) : List DirEvent :=
  recordsFrom (clusterBuf g v c) 0 g.entriesPerCluster

def events (g : Geometry) (v : Volume DirSector) (chain : List Nat) : List DirEvent :=
  chain.flatMap fun c => .clear :: clusterRecords g v c

theorem events_append (first second : List Nat) : events g v (first ++ second) = events g v first ++ events g v second :=
  flatMap_append

theorem events_cons (c : Nat) (chain : List Nat) :
    events g v (c :: chain) = .clear :: (clusterRecords g v c ++ events g v chain) :=
  flatMap_cons

theorem recordsPerSector_pos : 0 < g.recordsPerSector :=
  Nat.div_pos ((by decide : 32 ≤ 512).trans le_blockSize) (by decide)

theorem entriesPerCluster_eq : g.entriesPerCluster = g.clusterSize * g.recordsPerSector := by
  have whole : 32 ∣ g.blockSize := Nat.pow_dvd_pow 2 (m := 5) (by have := g.sectorSizes; omega)
  rw [Geometry.entriesPerCluster, Geometry.recordsPerSector, Nat.mul_comm, Nat.mul_div_assoc _ whole]

theorem entriesPerCluster_pos : 0 < g.entriesPerCluster := by
  rw [entriesPerCluster_eq]
  exact Nat.mul_pos clusterSize_pos recordsPerSector_pos

theorem recordSector_lt (small : i < g.entriesPerCluster) : i / g.recordsPerSector < g.clusterSize :=
  Nat.div_lt_of_lt_mul (by rwa [Nat.mul_comm, ← entriesPerCluster_eq])

theorem clusterBuf_eq (small : i < g.entriesPerCluster) :
    clusterBuf g v c i = v.disk (clusterBegin g c + i / g.recordsPerSector) (i % g.recordsPerSector) := by
  have inside := recordSector_lt small
  simp [clusterBuf, readBlocks, getD_eq_getElem?_getD, inside]

theorem readCluster_eq (placed : Placed g c) : readCluster g v c = .ok (clusterBuf g v c) := by
  have bound := (clusterBegin_eq placed).2
  have positive := clusterSize_pos (g := g)
  unfold readCluster asyncRead
  rw [if_neg (by omega)]
  rfl

theorem writeCluster_eq (buf : Nat -> DirRecord) (placed : Placed g c) :
    ∃ v', writeCluster g v c buf = .ok v' ∧ v'.fat = v.fat ∧ v'.allocStart = v.allocStart ∧
      (∀ i < g.entriesPerCluster, clusterBuf g v' c i = buf i) ∧
      ∀ d, Placed g d -> d ≠ c -> clusterRecords g v' d = clusterRecords g v d := by
  have bound := (clusterBegin_eq placed).2
  unfold writeCluster write
  rw [if_neg (by omega)]
  refine ⟨_, rfl, rfl, rfl, ?_, ?_⟩
  · intro i small
    rw [clusterBuf_eq small]
    have inside := recordSector_lt small
    have there : ((range g.clusterSize).map fun s => fun k => buf (s * g.recordsPerSector + k))[i / g.recordsPerSector]? =
        some fun k => buf (i / g.recordsPerSector * g.recordsPerSector + k) := by
      simp [inside]
    show writeBlocks v.disk _ _ _ _ = _
    rw [writeBlocks_inside there]
    show buf _ = buf i
    rw [Nat.mul_comm, Nat.div_add_mod]
  · intro d other different
    apply recordsFrom_congr
    intro i _ small
    rw [Nat.zero_add] at small
    rw [clusterBuf_eq small, clusterBuf_eq small]
    have inside := recordSector_lt small
    -- The sectors of the two clusters are apart.
    have apart : clusterBegin g d + i / g.recordsPerSector < clusterBegin g c ∨
        clusterBegin g c + g.clusterSize ≤ clusterBegin g d + i / g.recordsPerSector := by
      have here := placed.1
      have there := other.1
      generalize i / g.recordsPerSector = s at inside
      rw [(clusterBegin_eq placed).1, (clusterBegin_eq other).1]
      rcases Nat.lt_or_gt_of_ne different with below | above
      · left
        have step : (d - 2 + 1) * g.clusterSize ≤ (c - 2) * g.clusterSize := Nat.mul_le_mul_right _ (by omega)
        rw [Nat.add_mul, Nat.one_mul] at step
        omega
      · right
        have step : (c - 2 + 1) * g.clusterSize ≤ (d - 2) * g.clusterSize := Nat.mul_le_mul_right _ (by omega)
        rw [Nat.add_mul, Nat.one_mul] at step
        omega
    show writeBlocks v.disk _ _ _ _ = _
    rw [writeBlocks_outside]
    rw [length_map, length_range]
    exact apart

theorem drop_cons (here : chain.drop p = c :: rest) :
    chain[p]? = some c ∧ chain[p + 1]? = rest.head? ∧ chain.drop (p + 1) = rest := by
  have below : chain.drop (p + 1) = rest := by
    rw [← tail_drop, here]
    rfl
  rw [← head?_drop, ← head?_drop, below, here]
  exact ⟨rfl, rfl, rfl⟩

section

variable (links : Chain g v.fat chain) (placed : ∀ c ∈ chain, Placed g c)
include links placed

theorem readDirFrom_events (here : chain.drop p = c :: rest) (enough : rest.length < fuel)
    (q : Parser) : readDirFrom g v fuel c q = .ok (parseEvents (events g v (c :: rest)) q) := by
  induction fuel generalizing p c q rest with
  | zero => omega
  | succ fuel ih =>
    obtain ⟨there, later, below⟩ := drop_cons here
    rw [readDirFrom, readCluster_eq (placed c (mem_of_getElem? there)), events_cons, parseEvents,
      clusterRecords, parseFrom_events]
    dsimp only [bind, Except.bind]
    rw [← Parser.clear]
    rcases parseFrom (clusterBuf g v c) g.entriesPerCluster 0 q.clear with ⟨q', ended⟩
    cases ended with
    | true => rfl
    | false =>
      rw [links.readFAT there, later]
      cases rest with
      | nil => rfl
      | cons next rest =>
        have used := (links.at_inRange later).ne_zero
        rw [length_cons] at enough
        show (if next = 0 then _ else _) = _
        rw [if_neg used]
        exact ih below (by omega) q'

theorem fat32ReadDir_events (first : chain.head? = some d) :
    fat32ReadDir g v d = .ok (parseEvents (events g v chain) .start).entries := by
  obtain ⟨rest, rfl⟩ := head?_eq_some_iff.mp first
  have length := links.length_le
  rw [length_cons] at length
  rw [fat32ReadDir, readDirFrom_events links placed (p := 0) rfl (by omega)]
  rfl

end

structure DirEnd (g : Geometry) (v : Volume DirSector) (chain : List Nat) (p off c : Nat) : Prop where
  there : chain[p]? = some c
  inside : off < g.entriesPerCluster
  clusters : Endless (events g v (chain.take p))
  records : Endless (recordsFrom (clusterBuf g v c) 0 off)
  free : (clusterBuf g v c off).first = 0

theorem DirEnd.not_before {q' off' c' : Nat} (one : DirEnd g v chain p off c)
    (two : DirEnd g v chain q' off' c') : ¬ (p < q' ∨ p = q' ∧ off < off') := by
  rintro (earlier | ⟨rfl, earlier⟩)
  · apply two.clusters (clusterBuf g v c off) _ one.free
    have member : c ∈ chain.take q' := mem_of_getElem? ((getElem?_take_of_lt earlier).trans one.there)
    refine mem_flatMap.mpr ⟨c, member, mem_cons_of_mem _ ?_⟩
    exact mem_map.mpr ⟨off, mem_range'_1.mpr ⟨Nat.zero_le _, by rw [Nat.zero_add]; exact one.inside⟩, rfl⟩
  · cases one.there.symm.trans two.there
    apply two.records (clusterBuf g v c off) _ one.free
    exact mem_map.mpr ⟨off, mem_range'_1.mpr ⟨Nat.zero_le _, by omega⟩, rfl⟩

theorem DirEnd.unique {q' off' c' : Nat} (one : DirEnd g v chain p off c)
    (two : DirEnd g v chain q' off' c') : p = q' ∧ off = off' ∧ c = c' := by
  have before := one.not_before two
  have after := two.not_before one
  have same : p = q' := by omega
  subst same
  exact ⟨rfl, by omega, Option.some.inj (one.there.symm.trans two.there)⟩

theorem findEndFrom_succ (links : Chain g v.fat chain) (placed : Placed g c)
    (there : chain[p]? = some c) (fuel : Nat) : findEndFrom g v (fuel + 1) c =
      match findEnd (clusterBuf g v c) g.entriesPerCluster 0 with
      | some offset => .ok { volume := v, cluster := c, buf := clusterBuf g v c, offset }
      | none => if chain[p + 1]?.getD 0 = 0 then .error .noEnd else findEndFrom g v fuel (chain[p + 1]?.getD 0) := by
  rw [findEndFrom, readCluster_eq placed]
  simp only [links.readFAT there]
  rfl

theorem findEndFrom_spec (links : Chain g v.fat chain) (placed : ∀ c ∈ chain, Placed g c)
    (here : chain.drop p = c :: rest) (enough : rest.length < fuel) (before : Endless (events g v (chain.take p))) :
    (∃ q off d, DirEnd g v chain q off d ∧
        findEndFrom g v fuel c = .ok { volume := v, cluster := d, buf := clusterBuf g v d, offset := off }) ∨
      Endless (events g v chain) ∧ findEndFrom g v fuel c = .error .noEnd := by
  induction fuel generalizing p c rest with
  | zero => omega
  | succ fuel ih =>
    obtain ⟨there, later, below⟩ := drop_cons here
    have taken : chain.take (p + 1) = chain.take p ++ [c] := by
      rw [take_add_one, there]
      rfl
    rw [findEndFrom_succ links (placed c (mem_of_getElem? there)) there, later]
    cases found : findEnd (clusterBuf g v c) g.entriesPerCluster 0 with
    | some off =>
      obtain ⟨_, inside, free, records⟩ := findEnd_some found
      exact .inl ⟨p, off, c, ⟨there, by omega, before, records, free⟩, rfl⟩
    | none =>
      have through : Endless (events g v (chain.take (p + 1))) := by
        rw [taken, events_append]
        intro r member
        rcases mem_append.mp member with early | here
        · exact before r early
        rw [events_cons] at here
        rcases here with _ | ⟨_, here⟩
        have inside : .record r ∈ clusterRecords g v c ++ events g v [] := here
        rw [events, flatMap_nil, append_nil] at inside
        exact findEnd_none found r inside
      cases rest with
      | nil =>
        right
        have all : chain.take (p + 1) = chain := by
          apply take_of_length_le
          exact getElem?_eq_none_iff.mp later
        rw [all] at through
        exact ⟨through, rfl⟩
      | cons next rest =>
        have used := (links.at_inRange later).ne_zero
        rw [length_cons] at enough
        have onward : (if (next :: rest).head?.getD 0 = 0 then .error .noEnd
            else findEndFrom g v fuel ((next :: rest).head?.getD 0)) = findEndFrom g v fuel next := if_neg used
        rw [onward]
        exact ih below (by omega) through

def Behind (p i q j : Nat) : Prop := p < q ∨ p = q ∧ i ≤ j

/--
The chain `chain` is a directory: behind a free record all are free, and a long name at its end belongs to a file. All
clusters of the table are in the partition.
-/
structure Directory (g : Geometry) (v : Volume DirSector) (chain : List Nat) (d : Nat) : Prop where
  links : Chain g v.fat chain
  first : chain.head? = some d
  cursor : Cursor g v
  placed : ∀ c, InRange g c -> Placed g c
  free : ∀ p i c q j e, chain[p]? = some c -> chain[q]? = some e -> i < g.entriesPerCluster -> j < g.entriesPerCluster ->
    Behind p i q j -> (clusterBuf g v c i).first = 0 -> (clusterBuf g v e j).first = 0
  complete : (parseEvents (events g v chain) .start).longEntry = false

namespace Directory

variable (dir : Directory g v chain d)

include dir

theorem chain_placed (member : c ∈ chain) : Placed g c := dir.placed c (dir.links.inRange c member)

theorem readDir : fat32ReadDir g v d = .ok (parseEvents (events g v chain) .start).entries :=
  fat32ReadDir_events dir.links (fun _ => dir.chain_placed) dir.first

theorem findEnd_cases :
    (∃ q off c, DirEnd g v chain q off c ∧
        findEndFrom g v (g.fatEntries + 1) d = .ok { volume := v, cluster := c, buf := clusterBuf g v c, offset := off }) ∨
      Endless (events g v chain) ∧ findEndFrom g v (g.fatEntries + 1) d = .error .noEnd := by
  obtain ⟨rest, rfl⟩ := head?_eq_some_iff.mp dir.first
  have length := dir.links.length_le
  rw [length_cons] at length
  exact findEndFrom_spec dir.links (fun _ => dir.chain_placed) (p := 0) rfl (by omega) fun _ => nofun

theorem findEnd_eq (ends : DirEnd g v chain p off c) :
    findEndFrom g v (g.fatEntries + 1) d = .ok { volume := v, cluster := c, buf := clusterBuf g v c, offset := off } := by
  rcases dir.findEnd_cases with ⟨q', off', c', ends', found⟩ | ⟨endless, _⟩
  · obtain ⟨rfl, rfl, rfl⟩ := ends.unique ends'
    exact found
  · refine absurd ends.free (endless _ (mem_flatMap.mpr ⟨c, mem_of_getElem? ends.there, mem_cons_of_mem _ ?_⟩))
    exact mem_map.mpr ⟨off, mem_range'_1.mpr ⟨Nat.zero_le _, by rw [Nat.zero_add]; exact ends.inside⟩, rfl⟩

end Directory

def beforeEnd (g : Geometry) (v : Volume DirSector) (chain : List Nat) (p off c : Nat) : List DirEvent :=
  events g v (chain.take p) ++ .clear :: recordsFrom (clusterBuf g v c) 0 off

theorem DirEnd.endless (ends : DirEnd g v chain p off c) : Endless (beforeEnd g v chain p off c) := by
  intro r member
  rcases mem_append.mp member with early | here
  · exact ends.clusters r early
  · rcases here with _ | ⟨_, here⟩
    exact ends.records r here

theorem events_split (there : chain[p]? = some c) :
    events g v chain = events g v (chain.take p) ++ .clear :: (clusterRecords g v c ++ events g v (chain.drop (p + 1))) := by
  obtain ⟨bound, rfl⟩ := List.getElem?_eq_some_iff.mp there
  rw [← events_cons, ← drop_eq_getElem_cons bound, ← events_append, take_append_drop]

theorem DirEnd.parse_eq (ends : DirEnd g v chain p off c) (q : Parser) :
    parseEvents (events g v chain) q = parseEvents (beforeEnd g v chain p off c) q := by
  have inside := ends.inside
  have parts : g.entriesPerCluster = off + (g.entriesPerCluster - off - 1 + 1) := by omega
  have stream : events g v chain = beforeEnd g v chain p off c ++ .record (clusterBuf g v c off) ::
      (recordsFrom (clusterBuf g v c) (off + 1) (g.entriesPerCluster - off - 1) ++ events g v (chain.drop (p + 1))) := by
    rw [events_split ends.there, clusterRecords, parts, recordsFrom_add, Nat.zero_add, recordsFrom_succ, beforeEnd]
    simp
  rw [stream, parseEvents_append ends.endless, parseEvents_end ends.free]

end Bincows.Fat32
