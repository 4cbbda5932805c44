import Bincows.Fs.DirectoryClusters
import Bincows.Fs.LongNames

set_option autoImplicit false

namespace Bincows.Fat32

open Blocks Function List

variable {g : Geometry} {v v' : Volume DirSector} {chain new : List Nat} {c d p q off i : Nat}
  {w w' : DirWriter} {A : Type} {written : List DirEvent} {name : List UInt8} {type : FileType}

structure Filling (g : Geometry) (v : Volume DirSector) (chain : List Nat) (w : DirWriter)
    (written : List DirEvent) (new : List Nat) (p count : Nat) : Prop where
  longer : Extends g v w.volume chain new
  there : (chain ++ new)[p]? = some w.cluster
  inside : w.offset < g.entriesPerCluster
  filled : p * g.entriesPerCluster + w.offset = count
  stream : events g w.volume ((chain ++ new).take p) ++ .clear :: recordsFrom w.buf 0 w.offset = written
  free : ∀ i, w.offset ≤ i -> i < g.entriesPerCluster -> (w.buf i).first = 0
  same : ∀ c, Placed g c -> c ∉ (chain ++ new).take p -> clusterRecords g w.volume c = clusterRecords g v c
  fresh : new = [] ∨ p + 1 = (chain ++ new).length

def NoRoom (g : Geometry) (chain : List Nat) (count : Nat) (fault : DirFault) : Prop :=
  fault = .driveFull ∧ chain.length * g.entriesPerCluster ≤ count

theorem take_add_one_of {xs : List A} {x : A} (there : xs[i]? = some x) : xs.take (i + 1) = xs.take i ++ [x] := by
  rw [take_add_one, there]
  rfl

theorem not_mem_take {xs : List A} {x : A} (nodup : xs.Nodup) (there : xs[i]? = some x) : x ∉ xs.take i := by
  have late : x ∈ xs.drop i := mem_of_getElem? (i := 0) (getElem?_drop.trans there)
  exact fun early => disjoint_take_drop nodup le_rfl early late

theorem events_congr {clusters : List Nat} (same : ∀ c ∈ clusters, clusterRecords g v' c = clusterRecords g v c) :
    events g v' clusters = events g v clusters := by
  unfold events
  induction clusters with
  | nil => rfl
  | cons c rest ih =>
    rw [flatMap_cons, flatMap_cons, same c mem_cons_self, ih fun c member => same c (mem_cons_of_mem _ member)]

theorem clusterRecords_of_disk (same : v'.disk = v.disk) (c : Nat) : clusterRecords g v' c = clusterRecords g v c := by
  apply recordsFrom_congr
  intro i _ _
  rw [clusterBuf, clusterBuf, same]

theorem lift_ensures {x : Except Fault A} {fault : Fault -> Prop} {fault' : DirFault -> Prop} {post : A -> Prop}
    (ensures : x.Ensures fault post) (faults : ∀ e, fault e -> fault' (.fat e)) : (lift x).Ensures fault' post := by
  cases x with
  | ok a => exact ensures
  | error e => exact faults e ensures

theorem emplaceDirent_full {v₁ : Volume DirSector} (r : DirRecord) (full : w.offset + 1 = g.entriesPerCluster)
    (stored : writeCluster g w.volume w.cluster (update w.buf w.offset r) = .ok v₁) :
    emplaceDirent g w r = lift (readOrAllocateFAT g v₁ w.cluster) >>= fun (v, next) =>
      if next = 0 then .error .driveFull else .ok
        { volume := v, cluster := next, buf := fun _ => zeroRecord, offset := 0 } := by
  unfold emplaceDirent
  simp only [if_pos full, stored]
  rfl

section writer

variable {count : Nat} (placed : ∀ c, InRange g c -> Placed g c)

include placed

theorem events_written (links : Chain g w.volume.fat chain) (there : chain[p]? = some w.cluster) (buf : Nat -> DirRecord) :
    ∃ v', writeCluster g w.volume w.cluster buf = .ok v' ∧ v'.fat = w.volume.fat ∧ v'.allocStart = w.volume.allocStart ∧
      events g v' (chain.take p) = events g w.volume (chain.take p) ∧
      clusterRecords g v' w.cluster = recordsFrom buf 0 g.entriesPerCluster ∧
      ∀ c, Placed g c -> c ≠ w.cluster -> clusterRecords g v' c = clusterRecords g w.volume c := by
  have here := placed _ (links.at_inRange there)
  obtain ⟨v', stored, fat, start, inside, outside⟩ := writeCluster_eq (v := w.volume) buf here
  refine ⟨v', stored, fat, start, ?_, ?_, outside⟩
  · apply events_congr
    intro c member
    apply outside c (placed c (links.inRange c (mem_of_mem_take member)))
    rintro rfl
    exact not_mem_take links.nodup there member
  · apply recordsFrom_congr
    intro i _ small
    rw [Nat.zero_add] at small
    exact inside i small

theorem emplaceDirent_ensures (filling : Filling g v chain w written new p count) (r : DirRecord) :
    (emplaceDirent g w r).Ensures (NoRoom g chain (count + 1)) fun w' =>
      ∃ new' p', Filling g v chain w'
        (written ++ if w.offset + 1 = g.entriesPerCluster then [.record r, .clear] else [.record r]) new' p' (count + 1) ∧
        w'.offset = if w.offset + 1 = g.entriesPerCluster then 0 else w.offset + 1 := by
  have links := filling.longer.links
  have position := filling.filled
  have records : recordsFrom (update w.buf w.offset r) 0 (w.offset + 1) = recordsFrom w.buf 0 w.offset ++ [.record r] := by
    rw [recordsFrom_add, Nat.zero_add]
    congr 1
    · apply recordsFrom_congr
      intro i _ below
      exact update_of_ne (by omega) _ _
    · rw [recordsFrom, range'_one, map_singleton, update_self]
  by_cases full : w.offset + 1 = g.entriesPerCluster
  · obtain ⟨v₁, stored, fat, start, earlier, here, others⟩ :=
      events_written placed links filling.there (update w.buf w.offset r)
    have cursor : Cursor g v₁ := filling.longer.cursor.of_same start
    have links₁ : Chain g v₁.fat (chain ++ new) := by rwa [fat]
    have next_position : (p + 1) * g.entriesPerCluster + 0 = count + 1 := by
      rw [Nat.add_mul, Nat.one_mul]
      omega
    rw [emplaceDirent_full r full stored, if_pos full, if_pos full]
    refine (lift_ensures (readOrAllocateFAT_cases links₁ cursor filling.there) fun _ => False.elim).bind ?_
    -- The records of the cluster are in the stream now, and the next one begins.
    have stream : ∀ more (v₂ : Volume DirSector), v₂.disk = v₁.disk ->
        events g v₂ ((chain ++ new ++ more).take (p + 1)) ++ .clear :: recordsFrom (fun _ =>
          zeroRecord) 0 0 = written ++ [.record r, .clear] := by
      intro more v₂ disk
      have bound := lt_of_getElem? filling.there
      rw [take_append_of_le_length (by omega), take_add_one_of filling.there,
        events_congr fun c _ => clusterRecords_of_disk disk c, events_append, earlier, events_cons, here, ← full, records,
        ← filling.stream]
      simp [events, recordsFrom]
    have same : ∀ more (v₂ : Volume DirSector), v₂.disk = v₁.disk -> ∀ c, Placed g c ->
        c ∉ (chain ++ new ++ more).take (p + 1) ->
        clusterRecords g v₂ c = clusterRecords g v c := by
      intro more v₂ disk c good outside
      have bound := lt_of_getElem? filling.there
      rw [take_append_of_le_length (by omega), take_add_one_of filling.there, mem_append, not_or, mem_singleton] at outside
      rw [clusterRecords_of_disk disk, others c good outside.2, filling.same c good outside.1]
    have kept : Extends g v v₁ chain new := by
      have trivial := filling.longer.trans (.unchanged links cursor fat)
      rwa [append_nil] at trivial
    rintro ⟨v₂, next⟩ (⟨following, rfl⟩ | ⟨following, ⟨rfl, rfl⟩ | ⟨disk, longer⟩⟩)
    · have used := (links₁.at_inRange following).ne_zero
      have old : new = [] := by
        have := lt_of_getElem? following
        exact filling.fresh.resolve_right (by omega)
      show (if next = 0 then _ else _ : Except DirFault DirWriter).Ensures _ _
      rw [if_neg used]
      refine ⟨new, p + 1, ⟨kept, following, entriesPerCluster_pos, next_position, ?_, fun _ _ _ => rfl, ?_, .inl old⟩, rfl⟩
      · simpa using stream [] _ rfl
      · simpa using same [] _ rfl
    · refine ⟨rfl, ?_⟩
      have short := getElem?_eq_none_iff.mp following
      rw [length_append] at short
      calc chain.length * g.entriesPerCluster ≤ (p + 1) * g.entriesPerCluster := Nat.mul_le_mul_right _ (by omega)
        _ = count + 1 := next_position
    · have used := (longer.links.inRange next (by simp)).ne_zero
      have last := length_of_last filling.there following
      have appended : chain ++ (new ++ [next]) = chain ++ new ++ [next] := (append_assoc _ _ _).symm
      show (if next = 0 then _ else _ : Except DirFault DirWriter).Ensures _ _
      rw [if_neg used]
      refine ⟨new ++ [next], p + 1, ⟨kept.trans longer, ?_, entriesPerCluster_pos, next_position,
        ?_, fun _ _ _ => rfl, ?_, .inr ?_⟩, rfl⟩
      · rw [appended, last, getElem?_concat_length]
      · rw [appended]
        exact stream [next] v₂ disk
      · rw [appended]
        exact same [next] v₂ disk
      · rw [appended, length_append, ← last]
        rfl
  · unfold emplaceDirent
    rw [if_neg full, if_neg full, if_neg full]
    refine ⟨new, p, ⟨filling.longer, filling.there, ?_, ?_, ?_, ?_, filling.same, filling.fresh⟩, rfl⟩
    · have := filling.inside
      show w.offset + 1 < _
      omega
    · show _ + (w.offset + 1) = _
      omega
    · rw [← filling.stream, append_assoc, cons_append, ← records]
    · intro i after small
      have later : w.offset + 1 ≤ i := after
      exact (congrArg DirRecord.first (update_of_ne (by omega) _ _)).trans (filling.free i (by omega) small)

theorem emplaceDirents_ensures (recs : List DirRecord) (filling : Filling g v chain w written new p count) :
    (recs.foldlM (emplaceDirent g) w).Ensures (NoRoom g chain (count + recs.length)) fun w' =>
      ∃ new' p', Filling g v chain w' (written ++ spread g.entriesPerCluster w.offset recs) new' p'
        (count + recs.length) := by
  induction recs generalizing w written new p count with
  | nil =>
    refine ⟨new, p, ?_⟩
    rw [spread, append_nil]
    exact filling
  | cons r recs ih =>
    rw [foldlM_cons, length_cons]
    have longer : count + (recs.length + 1) = count + 1 + recs.length := by omega
    rw [longer]
    refine ((emplaceDirent_ensures placed filling r).mono ?_ fun _ => id).bind ?_
    · rintro fault ⟨full, reached⟩
      exact ⟨full, by omega⟩
    rintro w' ⟨new', p', next, offset⟩
    refine (ih next).mono (fun _ => id) ?_
    rintro w'' ⟨new'', p'', last⟩
    refine ⟨new'', p'', ?_⟩
    rw [offset, append_assoc] at last
    rw [spread]
    split at last
    case isTrue full => rwa [if_pos full]
    case isFalse inside => rwa [if_neg inside]

end writer

def Stops (events : List DirEvent) : Prop := ∃ r rest, events = .record r :: rest ∧ r.first = 0

theorem Stops.parse {rest : List DirEvent} (stops : Stops rest) (s : Parser) : parseEvents rest s = s := by
  obtain ⟨r, more, rfl, ended⟩ := stops
  exact parseEvents_end ended

def FillsUp (g : Geometry) (chain : List Nat) (count : Nat) : Prop :=
  ∃ p, chain.length ≤ p ∧ p * g.entriesPerCluster = count

def countWith (g : Geometry) (p off : Nat) (name : List UInt8) : Nat :=
  p * g.entriesPerCluster + off + (longEntries name + 1)

structure Inserted (g : Geometry) (v v' : Volume DirSector) (chain : List Nat) (p off c : Nat)
    (name : List UInt8) (type : FileType) (new : List Nat) (rest : List DirEvent) : Prop where
  links : Chain g v'.fat (chain ++ new)
  stream : events g v' (chain ++ new) =
    beforeEnd g v chain p off c ++ spread g.entriesPerCluster off (newRecords name type) ++ rest
  behind : Stops rest ∧ ¬ FillsUp g chain (countWith g p off name) ∨
    FillsUp g chain (countWith g p off name) ∧ ∃ e, InRange g e ∧ v.fat e = 0 ∧ rest = clusterRecords g v e

theorem Directory.filling (dir : Directory g v chain d) (ends : DirEnd g v chain p off c) :
    Filling g v chain { volume := v, cluster := c, buf := clusterBuf g v c, offset := off }
      (beforeEnd g v chain p off c) [] p (p * g.entriesPerCluster + off) := by
  refine ⟨.unchanged dir.links dir.cursor rfl, ?_, ends.inside, rfl, ?_, ?_, fun _ _ _ => rfl, .inl rfl⟩
  · rw [append_nil]
    exact ends.there
  · rw [append_nil]
    rfl
  · intro i later small
    exact dir.free p off c p i c ends.there ends.there ends.inside small (.inr ⟨rfl, later⟩) ends.free

theorem Filling.close {count : Nat} (filling : Filling g v chain w written new p count)
    (placed : ∀ c, InRange g c -> Placed g c) (open' : w.offset ≠ 0) :
    ∃ v' rest, writeCluster g w.volume w.cluster w.buf = .ok v' ∧ Chain g v'.fat (chain ++ new) ∧
      events g v' (chain ++ new) = written ++ rest ∧ Stops rest ∧ ¬ FillsUp g chain count := by
  have inside := filling.inside
  have position := filling.filled
  obtain ⟨v', stored, fat, -, earlier, here, -⟩ := events_written placed filling.longer.links filling.there w.buf
  have parts : g.entriesPerCluster = w.offset + (g.entriesPerCluster - w.offset - 1 + 1) := by omega
  refine ⟨v', .record (w.buf w.offset) :: (recordsFrom w.buf (w.offset + 1) (g.entriesPerCluster - w.offset - 1) ++
    events g v' ((chain ++ new).drop (p + 1))), stored, fat ▸ filling.longer.links, ?_, ?_, ?_⟩
  · rw [events_split filling.there, earlier, here, ← filling.stream]
    nth_rewrite 1 [parts]
    rw [recordsFrom_add, Nat.zero_add, recordsFrom_succ]
    simp
  · exact ⟨_, _, rfl, filling.free _ (Nat.le_refl _) inside⟩
  · rintro ⟨m, -, multiple⟩
    have rest := congrArg (· % g.entriesPerCluster) (position.trans multiple.symm)
    rw [Nat.mul_add_mod_self_right, Nat.mul_mod_left, Nat.mod_eq_of_lt inside] at rest
    exact open' rest

theorem Filling.leave {q' off' c' : Nat} (dir : Directory g v chain d) (ends : DirEnd g v chain q' off' c')
    (filling : Filling g v chain w written new p (countWith g q' off' name)) (begin : w.offset = 0) :
    ∃ rest, events g w.volume (chain ++ new) = written ++ rest ∧
      (Stops rest ∧ ¬ FillsUp g chain (countWith g q' off' name) ∨
        FillsUp g chain (countWith g q' off' name) ∧ ∃ e, InRange g e ∧ v.fat e = 0 ∧ rest = clusterRecords g v e) := by
  have position := filling.filled
  rw [begin, Nat.add_zero] at position
  have links := filling.longer.links
  have bound := lt_of_getElem? filling.there
  have kept : clusterRecords g w.volume w.cluster = clusterRecords g v w.cluster :=
    filling.same _ (dir.placed _ (links.at_inRange filling.there)) (not_mem_take links.nodup filling.there)
  have stream : events g w.volume (chain ++ new) =
      written ++ (clusterRecords g v w.cluster ++ events g w.volume ((chain ++ new).drop (p + 1))) := by
    rw [events_split filling.there, kept, ← filling.stream, begin]
    simp [recordsFrom]
  refine ⟨_, stream, ?_⟩
  by_cases old : new = []
  · subst old
    have there := filling.there
    rw [append_nil] at there bound
    have later : q' < p := by
      by_contra early
      have := Nat.mul_le_mul_right g.entriesPerCluster (Nat.not_lt.mp early)
      unfold countWith at position
      omega
    have one : g.entriesPerCluster = g.entriesPerCluster - 1 + 1 := by
      have := entriesPerCluster_pos (g := g)
      omega
    refine .inl ⟨⟨clusterBuf g v w.cluster 0, ?_⟩, ?_⟩
    · rw [clusterRecords, one, recordsFrom_succ]
      exact ⟨_, rfl, dir.free q' off' c' p 0 _ ends.there there ends.inside entriesPerCluster_pos (.inl later) ends.free⟩
    · rintro ⟨m, behind, multiple⟩
      have same : m = p := Nat.eq_of_mul_eq_mul_right entriesPerCluster_pos (multiple.trans position.symm)
      omega
  · have last := filling.fresh.resolve_left old
    rw [length_append] at last
    have some := length_pos_iff.mpr old
    have member : w.cluster ∈ new := by
      have there := filling.there
      rw [List.getElem?_append_right (by omega)] at there
      exact mem_of_getElem? there
    refine .inr ⟨⟨p, by omega, position⟩, w.cluster, links.at_inRange filling.there, filling.longer.free _ member, ?_⟩
    rw [drop_of_length_le (by rw [length_append]; omega)]
    exact append_nil _

section

variable (dir : Directory g v chain d) (ends : DirEnd g v chain p off c)
include dir ends

theorem fat32AddDirent_ensures (name : List UInt8) (type : FileType) :
    (fat32AddDirent g v d name type).Ensures
      (fun fault => NameInBlock name -> NoRoom g chain (countWith g p off name) fault)
      fun v' => NameInBlock name ∧ ∃ new rest, Inserted g v v' chain p off c name type new rest := by
  unfold fat32AddDirent
  rw [dir.findEnd_eq ends]
  refine Except.Ensures.ite (fun within => ?_) fun outside => .error fun within => absurd within outside
  have run := emplaceDirents_ensures dir.placed (newRecords name type) (dir.filling ends)
  rw [length_newRecords] at run
  refine (run.mono (fun _ noRoom _ => noRoom) fun _ => id).bind ?_
  rintro w ⟨new, p', filling⟩
  by_cases begin : w.offset = 0
  · obtain ⟨rest, stream, behind⟩ := Filling.leave dir ends filling begin
    rw [if_neg (not_not.mpr begin)]
    exact ⟨within, new, rest, filling.longer.links, stream, behind⟩
  · obtain ⟨v', rest, stored, links, stream, behind⟩ := filling.close dir.placed begin
    rw [if_pos begin, stored]
    exact ⟨within, new, rest, links, stream, .inl behind⟩

theorem Inserted.readDir {rest : List DirEvent} (legal : Legal name)
    (inserted : Inserted g v v' chain p off c name type new rest) :
    fat32ReadDir g v' d = .ok (parseEvents rest (parseEvents (spread g.entriesPerCluster off (newRecords name type))
      (parseEvents (events g v chain) .start))).entries := by
  have first : (chain ++ new).head? = some d := by
    rw [head?_append, dir.first]
    rfl
  have used : Endless (spread g.entriesPerCluster off (newRecords name type)) := fun r member =>
    newRecords_used legal (spread_mem member)
  rw [fat32ReadDir_events inserted.links (fun c member => dir.placed c (inserted.links.inRange c member)) first,
    inserted.stream, append_assoc, parseEvents_append ends.endless, parseEvents_append used, ends.parse_eq]

end

end Bincows.Fat32
