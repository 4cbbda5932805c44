import Bincows.Fs.FatWriter
import Bincows.Shared.Tables

set_option autoImplicit false

namespace Bincows.Fat32

open Blocks Tables List

variable {A : Type} {g : Geometry} {v v' : Volume A} {fd fd' : File} {chain new : List Nat}
  {begin cluster : Nat} {buf : List A}

section writer

def firstCluster (g : Geometry) (begin : Nat) : Nat := begin / g.clusterSize % 2 ^ 32

def firstSector (g : Geometry) (begin : Nat) : Nat :=
  firstCluster g begin * g.clusterSize + begin % g.clusterSize

def InsideFile (g : Geometry) (fd : File) (chain : List Nat) (begin n : Nat) : Prop :=
  chain.length ≤ firstCluster g begin ∧ lastSector begin n * g.clusterSize * g.blockSize % 2 ^ 64 < fd.fileSize

/--
What a write can stop with: a cluster behind the end of the partition, an assertion on the size of the file,
or no cluster for an empty file.
-/
def WriteFault (g : Geometry) (v : Volume A) (fd : File) (chain : List Nat) (begin n : Nat) (fault : Fault) : Prop :=
  OutsidePartition g fault ∨ (fault = .insideFile ∧ InsideFile g fd chain begin n) ∨
    (fault = .notEmpty ∧ fd.addr = 0 ∧ fd.fileSize ≠ 0) ∨
    (fd.addr = 0 ∧ allocFAT g v = .ok (v, 0))

theorem head_there (some : chain ≠ []) (owner : fd.addr = chain.headD 0) : chain[0]? = Option.some fd.addr := by
  cases chain with
  | nil => exact absurd rfl some
  | cons head rest =>
    rw [owner]
    rfl

theorem writeFrom_ensures (links : Chain g v.fat chain) (cursor : Cursor g v) (some : chain ≠ [])
    (owner : fd.addr = chain.headD 0) :
    (writeFrom g v fd begin buf).Ensures
      (fun fault => OutsidePartition g fault ∨ (fault = .insideFile ∧ InsideFile g fd chain begin buf.length))
      fun (v', fd', result) => fd' = fd ∧ ∃ new, Extends g v v' chain new ∧
        ∀ w, result = .complete w -> Written g v v' (chain ++ new) (firstSector g begin) buf := by
  have start := head_there some owner
  have small : begin % g.clusterSize < g.clusterSize := Nat.mod_lt _ clusterSize_pos
  have position : 0 < chain.length := length_pos_iff.mpr some
  have fetched : fetchCluster g v fd (begin / g.clusterSize % 2 ^ 32) =
      .ok (if firstCluster g begin < chain.length then (chain[firstCluster g begin]?.getD 0, none)
        else (chain[chain.length - 1]?.getD 0, Option.some (chain.length - 1))) := by
    have walk := fetchFrom_eq links (firstCluster g begin) start
    rwa [Nat.zero_add] at walk
  rw [writeFrom, fetched]
  by_cases reached : firstCluster g begin < chain.length
  · obtain ⟨cluster, there⟩ : ∃ c, chain[firstCluster g begin]? = Option.some c := ⟨_, getElem?_eq_getElem reached⟩
    have used := (links.at_inRange there).ne_zero
    rw [if_pos reached, there]
    show Except.Ensures (if cluster = 0 then _ else _) _ _
    rw [if_neg used]
    refine Except.Ensures.bind ((writeClusters_ensures links cursor there small le_rfl).mono (fun _ fault => .inl fault)
      fun _ post => post) ?_
    rintro ⟨v', result⟩ written
    exact ⟨rfl, written⟩
  · have lastPosition : chain.length - 1 < chain.length := by omega
    obtain ⟨cluster, there⟩ : ∃ c, chain[chain.length - 1]? = Option.some c := ⟨_, getElem?_eq_getElem lastPosition⟩
    have used := (links.at_inRange there).ne_zero
    have ended : chain[chain.length - 1 + 1]? = none := getElem?_eq_none (by omega)
    rw [if_neg reached, there]
    show Except.Ensures (if cluster = 0 then _ else if _ then _ else if _ then _ else _) _ _
    rw [if_neg used]
    by_cases inside : lastSector begin buf.length * g.clusterSize * g.blockSize % 2 ^ 64 < fd.fileSize
    · rw [if_pos inside]
      exact .inr ⟨rfl, Nat.not_lt.mp reached, inside⟩
    have beyond : ¬ begin / g.clusterSize % 2 ^ 32 ≤ chain.length - 1 := by
      have := Nat.not_lt.mp reached
      simp only [firstCluster] at this
      omega
    rw [if_neg inside, if_neg beyond]
    refine Except.Ensures.bind ((extendChain_ensures links cursor there ended).mono
      (fun _ impossible => impossible.elim) fun _ post => post) ?_
    rintro ⟨v₁, found⟩ ⟨sameDisk, new, longer, arrives⟩
    cases found with
    | none =>
      refine ⟨rfl, new, longer, ?_⟩
      nofun
    | some next =>
      have arrived := arrives next rfl
      have count : chain.length - 1 + (begin / g.clusterSize % 2 ^ 32 - (chain.length - 1)) = firstCluster g begin := by
        simp only [firstCluster]
        omega
      rw [count] at arrived
      refine Except.Ensures.bind ((writeClusters_ensures longer.links longer.cursor arrived small le_rfl).mono
        (fun _ fault => .inl fault) fun _ post => post) ?_
      rintro ⟨v', result⟩ ⟨more, rest, written⟩
      refine ⟨rfl, new ++ more, longer.trans rest, ?_⟩
      intro w complete
      have stores := written w complete
      rwa [Written, sameDisk, append_assoc] at stores

theorem writeFrom_noCluster (ended : link v.fat 0 = none) (addr : fd.addr = 0) :
    writeFrom g v fd begin buf = .error .noCluster := by
  have fetched : ∃ last, fetchCluster g v fd (begin / g.clusterSize % 2 ^ 32) = .ok (0, last) := by
    rw [fetchCluster, addr]
    cases begin / g.clusterSize % 2 ^ 32 with
    | zero => exact ⟨none, rfl⟩
    | succ remaining =>
      rw [fetchFrom, if_neg (by decide), readFAT_link fatEntries_pos (by simp [ended]), ended]
      exact ⟨some 0, rfl⟩
  obtain ⟨last, result⟩ := fetched
  rw [writeFrom, result]
  rfl

theorem linkFAT_ends (small : cluster < g.fatEntries)
    (result : linkFAT g v cluster endOfChain = .ok v') : link v'.fat cluster = none := by
  rw [linkFAT, entryIndex_eq small] at result
  change (if _ then _ else if _ then _ else _) = _ at result
  split at result
  · cases result
  · split at result
    · cases result
    · cases result
      exact link_update_last _ _

theorem writeFileSectors_ensures (links : Chain g v.fat chain) (cursor : Cursor g v) (owner : fd.addr = chain.headD 0) :
    (writeFileSectors g v fd begin buf).Ensures (WriteFault g v fd chain begin buf.length)
      fun (v', fd', result) => ∃ new, fd' = { fd with addr := (chain ++ new).headD 0 } ∧ Extends g v v' chain new ∧
        ∀ w, result = .complete w -> Written g v v' (chain ++ new) (firstSector g begin) buf := by
  by_cases unused : fd.addr = 0
  · obtain rfl := links.eq_nil (owner.symm.trans unused)
    rw [writeFileSectors, if_pos unused, allocFileCluster]
    split
    next sized =>
      exact .inr (.inr (.inl ⟨rfl, unused, sized⟩))
    next sized =>
    cases allocated : allocFAT g v with
    | error fault => exact absurd ((allocFAT_ensures cursor).of_error allocated) id
    | ok found =>
      obtain ⟨v₀, addr⟩ := found
      rcases (allocFAT_ensures cursor).of_ok allocated with ⟨rfl, rfl⟩ | ⟨range, free, lba, rfl, moved⟩
      · show Except.Ensures ((linkFAT g v₀ 0 endOfChain >>= fun v => .ok (v, _)) >>= _) _ _
        cases marked : linkFAT g v₀ 0 endOfChain with
        | error fault => exact .inr (.inr (.inr ⟨unused, allocated⟩))
        | ok v₁ =>
          show Except.Ensures (writeFrom g v₁ { fd with addr := 0 } begin buf) _ _
          rw [writeFrom_noCluster (linkFAT_ends fatEntries_pos marked) rfl]
          exact .inr (.inr (.inr ⟨unused, allocated⟩))
      · obtain ⟨v₁, marked, disk, one⟩ := first_cluster (v := { v with allocStart := lba }) moved range free
        show Except.Ensures ((linkFAT g { v with allocStart := lba } addr endOfChain >>= fun v => .ok (v, _)) >>= _) _ _
        rw [marked]
        have sizeZero : fd.fileSize = 0 := not_not.mp sized
        refine (writeFrom_ensures one.links one.cursor (by simp) rfl).mono ?_ ?_
        · rintro fault (outside | ⟨-, -, below⟩)
          · exact .inl outside
          · rw [sizeZero] at below
            exact absurd below (Nat.not_lt_zero _)
        rintro ⟨v', fd', result⟩ ⟨rfl, new, rest, written⟩
        have begun : Extends g v v₁ [] [addr] := one.of_same rfl
        refine ⟨[addr] ++ new, rfl, begun.trans rest, ?_⟩
        intro w complete
        have stores := written w complete
        rwa [Written, disk] at stores
  · have some : chain ≠ [] := by
      rintro rfl
      exact unused owner
    rw [writeFileSectors, if_neg unused]
    refine (writeFrom_ensures links cursor some owner).mono (fun fault stops => stops.imp_right .inl) ?_
    rintro ⟨v', fd', result⟩ ⟨rfl, new, longer, written⟩
    refine ⟨new, ?_, longer, written⟩
    cases chain with
    | nil => exact absurd rfl some
    | cons head rest =>
      cases fd'
      simpa using owner

end writer

/-- `chains` has the chain of each file: linked up to an end mark, and without a cluster twice. -/
structure WellFormed (g : Geometry) (v : Volume A) (files : List File) (chains : List (List Nat)) : Prop where
  sameLength : files.length = chains.length
  owned : ∀ (i : Nat) (fd : File) (chain : List Nat), files[i]? = some fd ->
    chains[i]? = some chain -> fd.addr = chain.headD 0
  links : ∀ chain ∈ chains, Chain g v.fat chain
  disjoint : chains.flatten.Nodup
  cursor : Cursor g v

namespace WellFormed

variable {files : List File} {chains : List (List Nat)} {i : Nat}

section

variable (wf : WellFormed g v files chains)
include wf

theorem chain_at (file : files[i]? = some fd) : ∃ chain, chains[i]? = some chain := by
  have position := lt_of_getElem? file
  exact ⟨_, List.getElem?_eq_getElem (wf.sameLength ▸ position)⟩

theorem fresh (longer : Extends g v v' chain new) (added : cluster ∈ new) : cluster ∉ chains.flatten := by
  intro used
  obtain ⟨other, member, inside⟩ := mem_flatten.mp used
  exact (wf.links other member).entry_ne_zero inside (longer.free cluster added)

theorem extended (at_i : chains[i]? = some chain)
    (longer : Extends g v v' chain new) (owner : fd'.addr = (chain ++ new).headD 0) :
    WellFormed g v' (files.set i fd') (chains.set i (chain ++ new)) := by
  obtain ⟨before, after, split, index⟩ := split_at at_i
  have others : ∀ other ∈ before ++ after, Chain g v'.fat other := by
    intro other member
    have inChains : other ∈ chains := by
      rw [split]
      simp only [mem_append, mem_cons] at member ⊢
      tauto
    refine (wf.links other inChains).congr fun cluster inside => longer.others cluster ?_
    intro changed
    rcases mem_append.mp changed with old | added
    · have nodup := wf.disjoint
      rw [split, flatten_append, flatten_cons, nodup_append] at nodup
      rcases mem_append.mp member with early | late
      · exact nodup.2.2 cluster (mem_flatten_of_mem early inside) cluster (by simp [old]) rfl
      · exact disjoint_of_nodup_append nodup.2.1 old (mem_flatten_of_mem late inside)
    · exact wf.fresh longer added (mem_flatten_of_mem inChains inside)
  refine ⟨?_, ?_, ?_, ?_, longer.cursor⟩
  · rw [length_set, length_set]
    exact wf.sameLength
  · intro j fd other file at_j
    by_cases same : i = j
    · subst same
      have lengths := lt_of_getElem? at_i
      rw [List.getElem?_set_self (wf.sameLength ▸ lengths)] at file
      rw [getElem?_set_self lengths] at at_j
      cases file
      cases at_j
      exact owner
    · rw [getElem?_set_ne same] at file at_j
      exact wf.owned j fd other file at_j
  · intro other member
    rw [split, ← index, set_split, mem_append, mem_cons] at member
    rcases member with early | rfl | late
    · exact others other (mem_append_left _ early)
    · exact longer.links
    · exact others other (mem_append_right _ late)
  · rw [(flatten_set_perm at_i new).nodup_iff, nodup_append]
    refine ⟨wf.disjoint, longer.links.nodup.of_append_right, ?_⟩
    rintro cluster used _ added rfl
    exact wf.fresh longer added used

theorem writeFileSectors (file : files[i]? = some fd) (at_i : chains[i]? = some chain) :
    (writeFileSectors g v fd begin buf).Ensures (WriteFault g v fd chain begin buf.length)
      fun (v', fd', _) => ∃ new, WellFormed g v' (files.set i fd') (chains.set i (chain ++ new)) ∧
        (∀ cluster ∈ new, v.fat cluster = 0) ∧ ∀ cluster, cluster ∉ chain ++ new -> v'.fat cluster = v.fat cluster := by
  have links := wf.links chain (mem_of_getElem? at_i)
  refine (writeFileSectors_ensures links wf.cursor (wf.owned i fd chain file at_i)).mono (fun _ fault => fault) ?_
  rintro ⟨v', fd', result⟩ ⟨new, rfl, longer, -⟩
  exact ⟨new, wf.extended at_i longer rfl, longer.free, longer.others⟩

theorem resize (file : files[i]? = some fd) (size : Nat) :
    WellFormed g v (files.set i { fd with fileSize := size }) chains := by
  refine ⟨?_, ?_, wf.links, wf.disjoint, wf.cursor⟩
  · rw [length_set]
    exact wf.sameLength
  intro j other chain file' at_j
  by_cases same : i = j
  · subst same
    rw [List.getElem?_set_self (lt_of_getElem? file)] at file'
    cases file'
    exact wf.owned i fd chain file at_j
  · rw [getElem?_set_ne same] at file'
    exact wf.owned j other chain file' at_j

end

end WellFormed

section runs

structure System (A : Type) where
  volume : Volume A
  files : List File

inductive Step (g : Geometry) : System A -> System A -> Prop
  | write {s : System A} {i : Nat} {fd fd' : File} {v' : Volume A} {begin : Nat} {buf : List A} {result : WriteResult}
      (file : s.files[i]? = some fd) (returns : writeFileSectors g s.volume fd begin buf = .ok (v', fd', result)) :
      Step g s { volume := v', files := s.files.set i fd' }
  | resize {s : System A} {i : Nat} {fd : File} (size : Nat) (file : s.files[i]? = some fd) :
      Step g s { s with files := s.files.set i { fd with fileSize := size } }

structure Grown (v v' : Volume A) (chains chains' : List (List Nat)) : Prop where
  atEnd : Forall₂ (· <+: ·) chains chains'
  free : ∀ cluster ∈ chains'.flatten, cluster ∉ chains.flatten -> v.fat cluster = 0
  others : ∀ cluster, cluster ∉ chains'.flatten -> v'.fat cluster = v.fat cluster

variable {s s' : System A} {chains chains' : List (List Nat)}

theorem Grown.refl (v : Volume A) (chains : List (List Nat)) : Grown v v chains chains :=
  ⟨forall₂_refl prefix_refl chains, fun _ member absent => absurd member absent, fun _ _ => rfl⟩

theorem Grown.write (grown : Grown v v' chains chains') {i : Nat}
    {v'' : Volume A} (at_i : chains'[i]? = some chain) (free : ∀ cluster ∈ new, v'.fat cluster = 0)
    (others : ∀ cluster, cluster ∉ chain ++ new -> v''.fat cluster = v'.fat cluster) :
    Grown v v'' chains (chains'.set i (chain ++ new)) := by
  have clusters := flatten_set_perm at_i new
  refine ⟨?_, ?_, ?_⟩
  · have last : Forall₂ (· <+: ·) chains' (chains'.set i (chain ++ new)) :=
      forall₂_set prefix_refl at_i (prefix_append chain new)
    exact forall₂_trans grown.atEnd last fun _ _ _ one two => one.trans two
  · intro cluster member absent
    by_cases earlier : cluster ∈ chains'.flatten
    · exact grown.free cluster earlier absent
    · have added := (mem_append.mp (clusters.mem_iff.mp member)).resolve_left earlier
      rw [← grown.others cluster earlier]
      exact free cluster added
  · intro cluster absent
    rw [clusters.mem_iff, mem_append, not_or] at absent
    have outside : cluster ∉ chain ++ new := by
      rw [mem_append, not_or]
      exact ⟨fun inside => absent.1 (mem_flatten_of_mem (mem_of_getElem? at_i) inside), absent.2⟩
    rw [others cluster outside]
    exact grown.others cluster absent.1

theorem step_wellFormed (wf : WellFormed g s.volume s.files chains') (grown : Grown v s.volume chains chains')
    (step : Step g s s') : ∃ chains'', WellFormed g s'.volume s'.files chains'' ∧ Grown v s'.volume chains chains'' := by
  cases step with
  | write file returns =>
    obtain ⟨chain, at_i⟩ := wf.chain_at file
    obtain ⟨new, wf', free, others⟩ := (wf.writeFileSectors file at_i).of_ok returns
    exact ⟨_, wf', grown.write at_i free others⟩
  | resize size file => exact ⟨chains', wf.resize file size, grown⟩

theorem run_wellFormed (wf : WellFormed g s.volume s.files chains) (run : ReflTransGen (Step g) s s') :
    ∃ chains', WellFormed g s'.volume s'.files chains' ∧ Grown s.volume s'.volume chains chains' := by
  refine run.invariant (fun t => ∃ chains', WellFormed g t.volume t.files chains' ∧
    Grown s.volume t.volume chains chains') ⟨chains, wf, .refl _ _⟩ ?_
  rintro t t' ⟨chains', wf', grown⟩ step
  exact step_wellFormed wf' grown step

/--
Along every run of writes the chains stay linked to an end mark and disjoint and grow at their ends only; and
from there any further write on any file changes the entries of that file's chain and of free clusters only.
-/
theorem writes_keep_chains (wf : WellFormed g s.volume s.files chains) (run : Relation.ReflTransGen (Step g) s s') :
    ∃ chains', WellFormed g s'.volume s'.files chains' ∧ Grown s.volume s'.volume chains chains' ∧
      ∀ (i : Nat) (fd : File) (begin : Nat) (buf : List A), s'.files[i]? = some fd ->
        ∃ chain, chains'[i]? = some chain ∧
          (writeFileSectors g s'.volume fd begin buf).Ensures
            (WriteFault g s'.volume fd chain begin buf.length) fun (v', fd', _) =>
              ∃ new, WellFormed g v' (s'.files.set i fd') (chains'.set i (chain ++ new)) ∧
                (∀ cluster ∈ new, s'.volume.fat cluster = 0) ∧
                ∀ cluster, cluster ∉ chain ++ new -> v'.fat cluster = s'.volume.fat cluster := by
  obtain ⟨chains', wf', grown⟩ := run_wellFormed wf run
  refine ⟨chains', wf', grown, ?_⟩
  intro i fd begin buf file
  obtain ⟨chain, at_i⟩ := wf'.chain_at file
  exact ⟨chain, at_i, wf'.writeFileSectors file at_i⟩

def smallGeometry : Geometry where
  lbashift := 9
  clusterSize := 2
  fatBegin := 1
  fatSize := 2
  dataBegin := 3
  partSize := 1000
  sectorSizes := sectorSizes_least
  clusterSizes := by decide
  fatSizes := fatSizes_two
  fatBefore := by decide

-- A file of one cluster, and an empty one.
def smallSystem : System Nat where
  volume :=
    { fat := fun cluster => if cluster ≤ 2 then endOfChain else 0
      allocStart := 1
      disk := fun _ => 0 }
  files := [⟨2, 600⟩, ⟨0, 0⟩]

theorem smallSystem_wellFormed : WellFormed smallGeometry smallSystem.volume smallSystem.files [[2], []] := by
  refine ⟨rfl, ?_, ?_, by decide, by decide⟩
  · intro i fd chain file at_i
    match i with
    | 0 =>
      cases file
      cases at_i
      rfl
    | 1 =>
      cases file
      cases at_i
      rfl
    | i + 2 => cases file
  · intro chain member
    simp only [mem_cons, not_mem_nil, or_false] at member
    rcases member with rfl | rfl
    · exact ⟨⟨rfl, rfl⟩, fun cluster inside => by cases mem_singleton.mp inside; decide⟩
    · exact ⟨rfl, fun cluster inside => absurd inside not_mem_nil⟩

theorem writes_keep_chains_beyond_end :
    ∃ s', Relation.ReflTransGen (Step smallGeometry) smallSystem s' ∧ s'.files = [⟨2, 600⟩, ⟨3, 0⟩] ∧
      ∃ chains', WellFormed smallGeometry s'.volume s'.files chains' ∧
        Grown smallSystem.volume s'.volume [[2], []] chains' := by
  have evaluated : (writeFileSectors smallGeometry smallSystem.volume ⟨0, 0⟩ 5 [7, 8, 9]).map
      (fun out => out.2.1) = .ok ⟨3, 0⟩ := by decide
  obtain ⟨⟨v', fd', written⟩, result, rfl⟩ := Except.map_eq_ok evaluated
  have run : ReflTransGen (Step smallGeometry) smallSystem
      { volume := v', files := smallSystem.files.set 1 ⟨3, 0⟩ } := .single (.write (i := 1) rfl result)
  obtain ⟨chains', wf, grown, -⟩ := writes_keep_chains smallSystem_wellFormed run
  exact ⟨_, run, rfl, chains', wf, grown⟩

end runs

-- Of the `n` data clusters, those that the table has an entry for.
def DataCluster (g : Geometry) (n cluster : Nat) : Prop := InRange g cluster ∧ cluster < n + 2

/-- The search works exactly if each free entry behind the data area comes after a free data cluster, and the sector that it
leaves out is not the only one with free data clusters. -/
theorem allocFAT_serves_iff (g : Geometry) (v : Volume A) (n : Nat) :
    (∃ v' c, allocFAT g v = .ok (v', c) ∧ v'.fat = v.fat ∧ (c = 0 -> ∀ d, DataCluster g n d -> v.fat d ≠ 0) ∧
        (c ≠ 0 -> DataCluster g n c ∧ v.fat c = 0)) ↔
      Cursor g v ∧
        (∀ k i, Looked g v k i -> v.fat (stepEntry g v k i) = 0 -> n + 2 ≤ stepEntry g v k i ->
          ∃ j m, Looked g v j m ∧ v.fat (stepEntry g v j m) = 0 ∧ stepEntry g v j m < n + 2 ∧ (j < k ∨ j = k ∧ m < i)) ∧
        ((∃ d, DataCluster g n d ∧ v.fat d = 0) -> ∃ k i, Looked g v k i ∧ v.fat (stepEntry g v k i) = 0) := by
  by_cases cursor : Cursor g v
  · obtain ⟨found, ⟨j, m, before, ends⟩, result⟩ := allocFAT_finds cursor
    rcases ends with ⟨rfl, all⟩ | ⟨rfl, looked, free⟩
    · have unused : ∀ k i, Looked g v k i -> v.fat (stepEntry g v k i) ≠ 0 := fun k i looked =>
        before k i (Nat.zero_le _) looked (.inl (by have := looked.1; omega))
      constructor
      · rintro ⟨v', c, returns, -, none, -⟩
        cases result.symm.trans returns
        exact ⟨cursor, fun k i looked free => absurd free (unused k i looked),
          fun ⟨d, data, free⟩ => absurd free (none rfl d data)⟩
      · rintro ⟨-, -, reached⟩
        refine ⟨v, 0, result, rfl, fun _ d data free => ?_, fun some => absurd rfl some⟩
        obtain ⟨k, i, looked, free⟩ := reached ⟨d, data, free⟩
        exact unused k i looked free
    · simp only [Nat.add_sub_cancel_left] at result
      have inRange := looked.inRange
      have some := inRange.ne_zero
      constructor
      · rintro ⟨v', c, returns, -, -, data⟩
        cases result.symm.trans returns
        have small : stepEntry g v j m < n + 2 := (data some).1.2
        refine ⟨cursor, fun k i other freeOther behind => ⟨j, m, looked, free, small, ?_⟩, fun _ => ⟨j, m, looked, free⟩⟩
        by_contra late
        have different : ¬ (k = j ∧ i = m) := by
          rintro ⟨rfl, rfl⟩
          omega
        exact before k i (Nat.zero_le _) other (by omega) freeOther
      · rintro ⟨-, first, -⟩
        refine ⟨_, _, result, rfl, fun zero => absurd zero some, fun _ => ⟨⟨inRange, ?_⟩, free⟩⟩
        by_contra behind
        obtain ⟨k, i, other, freeOther, -, earlier⟩ := first j m looked free (Nat.le_of_not_lt behind)
        exact before k i (Nat.zero_le _) other earlier freeOther
  · refine iff_of_false ?_ fun holds => cursor holds.1
    rintro ⟨v', c, returns, -⟩
    rw [Cursor] at cursor
    by_cases low : v.allocStart < g.fatBegin
    · simp [allocFAT, low] at returns
    · simp [allocFAT, low, show g.fatBegin + g.fatSize ≤ v.allocStart by omega] at returns

theorem free_data_cluster_missed :
    (∃ v : Volume Nat, Cursor smallGeometry v ∧ DataCluster smallGeometry 200 128 ∧ v.fat 128 = 0 ∧
      allocFAT smallGeometry v = .ok (v, 0)) ∧
    ∃ v v' : Volume Nat, Cursor smallGeometry v ∧ ¬ DataCluster smallGeometry 100 102 ∧
      allocFAT smallGeometry v = .ok (v', 102) := by
  refine ⟨⟨⟨fun c => if c < 128 then 1 else 0, 1, fun _ => 0⟩, by decide, ⟨by decide, by decide⟩, rfl, rfl⟩,
    ⟨fun c => if c < 102 then 1 else 0, 1, fun _ => 0⟩, _, by decide, fun data => absurd data.2 (by decide), rfl⟩

end Bincows.Fat32
