import Bincows.Fs.FatChains

set_option autoImplicit false

namespace Bincows.Fat32

open Blocks List

variable {A : Type} {g : Geometry} {v v' : Volume A} {fd : File} {chain new : List Nat}
  {cluster p offset n begin k : Nat}

theorem clusterBegin_succ (placed : Placed g cluster) (next : Placed g (cluster + 1)) :
    clusterBegin g (cluster + 1) = clusterBegin g cluster + g.clusterSize := by
  have used := placed.1
  have step : cluster + 1 - 2 = cluster - 2 + 1 := by omega
  rw [(clusterBegin_eq placed).1, (clusterBegin_eq next).1, step, Nat.add_mul, Nat.one_mul]
  omega

theorem sectors_lt (nodup : chain.Nodup) (placed : ∀ c ∈ chain, Placed g c) : chain.length * g.clusterSize < 2 ^ 32 := by
  have positive := clusterSize_pos (g := g)
  have start : 0 < g.dataBegin := by
    have := g.fatSizes.1
    have := g.fatBefore
    omega
  have inside : chain ⊆ range' 2 ((2 ^ 32 - g.dataBegin) / g.clusterSize) := by
    intro c member
    have used := (placed c member).1
    have upper := (le_min_iff.mp (placed c member).2).2
    have quotient : c - 1 ≤ (2 ^ 32 - g.dataBegin) / g.clusterSize := (Nat.le_div_iff_mul_le positive).mpr (by omega)
    rw [mem_range'_1]
    omega
  have shorter := (nodup.subperm inside).length_le
  rw [length_range'] at shorter
  have total := (Nat.le_div_iff_mul_le positive).mp shorter
  omega

theorem sectorLba_within (there : chain[p]? = some cluster) (small : offset + k < g.clusterSize) :
    sectorLba g chain (p * g.clusterSize + offset + k) = sectorLba g chain (p * g.clusterSize + offset) + k := by
  rw [Nat.add_assoc, sectorLba_at there small, sectorLba_at there (by omega), Nat.add_assoc]

structure ReadRun (g : Geometry) (chain : List Nat) (first n m rest cluster offset : Nat) : Prop where
  total : n = m + rest
  progress : 0 < n -> 0 < m
  consecutive : ∀ k < m, sectorLba g chain (first + k) = sectorLba g chain first + k
  continues : rest ≠ 0 -> offset = 0 ∧ ∃ p, chain[p]? = some cluster ∧ p * g.clusterSize = first + m

theorem readRun_spec (fuel readSize : Nat) (links : Chain g v.fat chain) (placed : ∀ c ∈ chain, Placed g c)
    (there : chain[p]? = some cluster) (small : offset < g.clusterSize)
    (inside : p * g.clusterSize + offset + n ≤ chain.length * g.clusterSize) (fits : readSize + n < 2 ^ 32)
    (enough : n < fuel) :
    ∃ cluster' offset' rest m, readRun g v fuel cluster offset n readSize = .ok (cluster', offset', rest, readSize + m) ∧
      ReadRun g chain (p * g.clusterSize + offset) n m rest cluster' offset' := by
  induction fuel generalizing p cluster offset n readSize with
  | zero => omega
  | succ fuel ih =>
    rw [readRun]
    split
    next zero =>
      refine ⟨cluster, offset, n, 0, rfl, ⟨by omega, by omega, ?_, by omega⟩⟩
      intro k impossible
      omega
    next zero =>
    obtain ⟨left, size⟩ := Nat.exists_eq_add_of_le small.le
    have inCluster : g.clusterSize - offset = left := by omega
    simp only [inCluster]
    by_cases last : n < left
    · simp only [if_pos last]
      refine ⟨cluster, offset, 0, n, ?_, ⟨by omega, by omega, fun k early => sectorLba_within there (by omega), by omega⟩⟩
      rw [Nat.mod_eq_of_lt fits]
    have boundary : (p + 1) * g.clusterSize = p * g.clusterSize + offset + left := by
      rw [Nat.add_mul, Nat.one_mul]
      omega
    have sum : (readSize + left) % 2 ^ 32 = readSize + left := Nat.mod_eq_of_lt (by omega)
    simp only [if_neg last, links.readFAT there, sum]
    show ∃ cluster' offset' rest m, (if chain[p + 1]?.getD 0 = 0 ∧ n - left ≠ 0 then _
      else if chain[p + 1]?.getD 0 ≠ cluster + 1 then _ else _) = _ ∧ _
    cases following : chain[p + 1]? with
    | none =>
      have complete : n - left = 0 := by
        by_contra more
        have reaches : (p + 1) * g.clusterSize < chain.length * g.clusterSize := by omega
        have := Nat.lt_of_mul_lt_mul_right reaches
        have := getElem?_eq_none_iff.mp following
        omega
      rw [Option.getD_none, if_neg (by omega), if_pos (by omega)]
      exact ⟨0, 0, _, left, rfl,
        ⟨by omega, by omega, fun k early => sectorLba_within there (by omega), by omega⟩⟩
    | some next =>
      have used := (links.at_inRange following).1
      rw [Option.getD_some, if_neg (by omega)]
      by_cases adjacent : next = cluster + 1
      · subst adjacent
        rw [if_neg (by simp)]
        have further : ∃ cluster' offset' rest m,
            readRun g v fuel (cluster + 1) 0 (n - left)
              (readSize + left) = .ok (cluster', offset', rest, readSize + left + m) ∧
            ReadRun g chain ((p + 1) * g.clusterSize + 0) (n - left) m rest cluster' offset' :=
          ih _ following clusterSize_pos (by omega) (by omega) (by omega)
        obtain ⟨cluster', offset', rest, m, result, run⟩ := further
        rw [Nat.add_zero, boundary] at run
        have total := run.total
        refine ⟨cluster', offset', rest, left + m, ?_, ?_⟩
        · rw [result, Nat.add_assoc]
        refine ⟨by omega, by omega, ?_, ?_⟩
        · intro k early
          by_cases here : k < left
          · exact sectorLba_within there (by omega)
          -- the next cluster starts where this one ends
          · have join : sectorLba g chain (p * g.clusterSize + offset + left) =
                sectorLba g chain (p * g.clusterSize + offset) + left := by
              have start := sectorLba_at following (clusterSize_pos (g := g))
              rw [Nat.add_zero, boundary] at start
              rw [start, sectorLba_at there small, clusterBegin_succ (placed _ (mem_of_getElem? there))
                (placed _ (mem_of_getElem? following))]
              omega
            have later := run.consecutive (k - left) (by omega)
            have index : p * g.clusterSize + offset + left + (k - left) = p * g.clusterSize + offset + k := by omega
            rw [index, join] at later
            rw [later]
            omega
        · intro more
          obtain ⟨start, q, at_q, reached⟩ := run.continues more
          exact ⟨start, q, at_q, by rw [reached]; omega⟩
      · rw [if_pos adjacent]
        exact ⟨next, 0, _, left, rfl, ⟨by omega, by omega,
          fun k early => sectorLba_within there (by omega), fun _ => ⟨rfl, p + 1, following, boundary⟩⟩⟩

theorem asyncRead_eq {lba : Nat} (inside : lba < g.partSize) (count : Nat) :
    asyncRead g v lba count = .ok (readBlocks v.disk lba count) := by
  rw [asyncRead, if_neg (by omega)]

theorem readClusters_eq {fuel : Nat} (links : Chain g v.fat chain) (placed : ∀ c ∈ chain, Placed g c)
    (there : chain[p]? = some cluster) (small : offset < g.clusterSize)
    (inside : p * g.clusterSize + offset + n ≤ chain.length * g.clusterSize) (enough : n ≤ fuel) :
    readClusters g v fuel cluster offset n = .ok (contents v.disk (sectorLba g chain) (p * g.clusterSize + offset) n) := by
  have bound := sectors_lt links.nodup placed
  induction fuel generalizing p cluster offset n with
  | zero =>
    have zero : n = 0 := Nat.le_zero.mp enough
    subst zero
    rfl
  | succ fuel ih =>
    rw [readClusters]
    by_cases zero : n = 0
    · subst zero
      rfl
    rw [if_neg zero]
    have position := lt_of_getElem? there
    have first := sectorLba_at there small
    have onDisk := sectorLba_lt placed (position_lt offset position small)
    obtain ⟨cluster', offset', rest, m, result, run⟩ :=
      readRun_spec (n + 1) 0 links placed there small inside (by omega) (by omega)
    have total := run.total
    rw [Nat.zero_add] at result
    simp only [result]
    show (asyncRead g v (clusterBegin g cluster + offset) m >>= fun sectors =>
      readClusters g v fuel cluster' offset' rest >>= fun remaining => .ok (sectors ++ remaining)) = _
    rw [← first, asyncRead_eq onDisk, readBlocks_consecutive run.consecutive, total, contents_add]
    by_cases done : rest = 0
    · subst done
      have finished : readClusters g v fuel cluster' offset' 0 = .ok [] := by
        cases fuel <;> rfl
      rw [finished]
      rfl
    · obtain ⟨rfl, q, at_q, reached⟩ := run.continues done
      have progress := run.progress (by omega)
      have tail := ih at_q clusterSize_pos (n := rest) (by rw [reached]; omega) (by omega)
      rw [Nat.add_zero, reached] at tail
      rw [tail]
      rfl

theorem lastSector_eq (some : 0 < begin + n) : lastSector begin n = (begin + n - 1) % 2 ^ 64 := by
  have shift : begin + n + (2 ^ 64 - 1) = begin + n - 1 + 2 ^ 64 := by omega
  rw [lastSector, shift, Nat.add_mod_right]

theorem clusterSize_le : g.clusterSize ≤ g.blockSize := by
  have := g.clusterSizes.2
  have := le_blockSize (g := g)
  omega

theorem readFileSectors_eq (links : Chain g v.fat chain) (placed : ∀ c ∈ chain, Placed g c)
    (owner : fd.addr = chain.headD 0) (some : 0 < begin + n) (starts : begin < chain.length * g.clusterSize)
    (inside : begin + n ≤ chain.length * g.clusterSize) (size : (begin + n - 1) * g.blockSize < fd.fileSize) :
    readFileSectors g v fd begin n = .ok (contents v.disk (sectorLba g chain) begin n) := by
  have nonempty : chain ≠ [] := by
    rintro rfl
    rw [length_nil, Nat.zero_mul] at starts
    omega
  have start := head_there nonempty owner
  have used := (links.at_inRange start).1
  have reached : begin / g.clusterSize < chain.length := index_lt starts
  have covered : ¬ fd.fileSize ≤ lastSector begin n * g.clusterSize % 2 ^ 64 := by
    have last := Nat.mul_le_mul ((lastSector_eq some).trans_le (Nat.mod_le _ _)) (clusterSize_le (g := g))
    omega
  obtain ⟨cluster, there⟩ : ∃ c, chain[begin / g.clusterSize]? = Option.some c := ⟨_, getElem?_eq_getElem reached⟩
  have fetched : fetchCluster g v fd (begin / g.clusterSize) = .ok (cluster, none) := by
    have walk := fetchFrom_eq links (begin / g.clusterSize) start
    rwa [Nat.zero_add, if_pos reached, there] at walk
  have split := Nat.div_add_mod' begin g.clusterSize
  rw [readFileSectors, if_neg (by omega), if_neg covered, fetched]
  show readClusters g v n cluster (begin % g.clusterSize) n = _
  rw [readClusters_eq links placed there (Nat.mod_lt _ clusterSize_pos) (by rw [split]; exact inside) le_rfl, split]

section roundTrip

variable {files : List File} {chains chains' : List (List Nat)} {i : Nat} {data : List A}
  {other : List Nat}

theorem Chain.unique {fat : Nat -> BitVec 32} (links : Chain g fat chain)
    (links' : Chain g fat other) (heads : chain.headD 0 = other.headD 0) : chain = other := by
  have same : chain.head? = other.head? := by rw [links.head_eq, links'.head_eq, heads]
  exact links.linked.unique (same ▸ links'.linked)

theorem WellFormed.unique (wf : WellFormed g v files chains) (wf' : WellFormed g v files chains') : chains = chains' := by
  apply ext_getElem?
  intro j
  cases file : files[j]? with
  | none =>
    have beyond := getElem?_eq_none_iff.mp file
    rw [getElem?_eq_none (wf.sameLength ▸ beyond), getElem?_eq_none (wf'.sameLength ▸ beyond)]
  | some fd =>
    obtain ⟨chain, at_j⟩ := wf.chain_at file
    obtain ⟨chain', at_j'⟩ := wf'.chain_at file
    have heads := (wf.owned j fd chain file at_j).symm.trans (wf'.owned j fd chain' file at_j')
    rw [at_j, at_j', (wf.links chain (mem_of_getElem? at_j)).unique (wf'.links chain' (mem_of_getElem? at_j')) heads]

def SectorKept (g : Geometry) (v v' : Volume A) (fd fd' : File) (k : Nat) : Prop :=
  ∃ old, readFileSectors g v fd k 1 = .ok [old] ∧ readFileSectors g v' fd' k 1 = .ok [old]

structure RoundTrip (g : Geometry) (v v' : Volume A) (files : List File) (i : Nat) (fd fd' : File)
    (begin : Nat) (data : List A) : Prop where
  back : readFileSectors g v' fd' begin data.length = .ok data
  same : ∀ k, k * g.blockSize < fd.fileSize -> k < begin ∨ begin + data.length ≤ k -> SectorKept g v v' fd fd' k
  others : ∀ (j : Nat) (other : File), j ≠ i -> files[j]? = some other ->
    ∀ k, k * g.blockSize < other.fileSize -> SectorKept g v v' other other k

def Sized (g : Geometry) (files : List File) (chains : List (List Nat)) : Prop :=
  ∀ (j : Nat) (fd : File) (chain : List Nat), files[j]? = some fd -> chains[j]? = some chain ->
    fd.fileSize ≤ chain.length * g.clusterSize * g.blockSize

theorem sector_lt (sized : fd.fileSize ≤ chain.length * g.clusterSize * g.blockSize)
    (inside : k * g.blockSize < fd.fileSize) : k < chain.length * g.clusterSize :=
  Nat.lt_of_mul_lt_mul_right (inside.trans_le sized)

theorem sectorKept (new : List Nat) {fat fat' : Nat -> BitVec 32} {disk disk' : Nat -> A}
    {allocStart allocStart' : Nat} {fd' : File}
    (links : Chain g fat chain) (links' : Chain g fat' (chain ++ new)) (placed : ∀ c ∈ chain ++ new, Placed g c)
    (owner : fd.addr = chain.headD 0) (owner' : fd'.addr = (chain ++ new).headD 0)
    (inside : k < chain.length * g.clusterSize) (size : k * g.blockSize < fd.fileSize)
    (grows : fd.fileSize ≤ fd'.fileSize)
    (kept : disk' (sectorLba g chain k) = disk (sectorLba g chain k)) :
    SectorKept g ⟨fat, allocStart, disk⟩ ⟨fat', allocStart', disk'⟩ fd fd' k := by
  have before : readFileSectors g ⟨fat, allocStart, disk⟩ fd k 1 = .ok [disk (sectorLba g chain k)] :=
    readFileSectors_eq links (fun c member => placed c (mem_append_left _ member)) owner (by omega) (by omega) inside size
  have longer : k + 1 ≤ (chain ++ new).length * g.clusterSize := by
    rw [length_append, Nat.add_mul]
    omega
  have after : readFileSectors g ⟨fat', allocStart', disk'⟩ fd' k 1 = .ok [disk' (sectorLba g (chain ++ new) k)] :=
    readFileSectors_eq links' placed owner' (by omega) (by omega) longer (size.trans_le grows)
  rw [sectorLba_append new inside, kept] at after
  exact ⟨_, before, after⟩

theorem readFileSectors_beyond (links : Chain g v.fat chain) (owner : fd.addr = chain.headD 0)
    (beyond : chain.length ≤ begin / g.clusterSize) : ∀ read, readFileSectors g v fd begin n ≠ .ok read := by
  intro read result
  rw [readFileSectors] at result
  split at result
  · cases result
  next unused =>
  have nonempty : chain ≠ [] := by
    rintro rfl
    exact unused owner
  have walk := fetchFrom_eq links (begin / g.clusterSize) (head_there nonempty owner)
  rw [Nat.zero_add, if_neg (Nat.not_lt.mpr beyond)] at walk
  rw [fetchCluster, walk] at result
  split at result
  · cases result
  · cases result

theorem WellFormed.disjoint_at (wf : WellFormed g v files chains) {j : Nat}
    (at_i : chains[i]? = some chain) (at_j : chains[j]? = some other) (different : j ≠ i) : other.Disjoint chain := by
  obtain ⟨small, rfl⟩ := List.getElem?_eq_some_iff.mp at_i
  obtain ⟨small', rfl⟩ := List.getElem?_eq_some_iff.mp at_j
  have pairwise := pairwise_iff_getElem.mp (nodup_flatten.mp wf.disjoint).2
  rcases Nat.lt_or_gt_of_ne different with before | after
  · exact pairwise j i small' small before
  · exact (pairwise i j small small' after).symm

def Excused (g : Geometry) (v : Volume A) (fd : File) (begin n : Nat) (fault : Fault) : Prop :=
  OutsidePartition g fault ∨ 2 ^ 64 ≤ (begin + n - 1) * g.clusterSize * g.blockSize ∨
    (fd.addr = 0 ∧ allocFAT g v = .ok (v, 0))

theorem writeFault_excused {fault : Fault} (owner : fd.addr = chain.headD 0) (links : Chain g v.fat chain)
    (sized : fd.fileSize ≤ chain.length * g.clusterSize * g.blockSize) (some : 0 < n)
    (stops : WriteFault g v fd chain begin n fault) : Excused g v fd begin n fault := by
  rcases stops with outside | ⟨-, beyond, below⟩ | ⟨-, unused, sizeNonzero⟩ | full
  · exact .inl outside
  · refine .inr (.inl ?_)
    by_contra fits
    have start : chain.length * g.clusterSize ≤ begin :=
      (Nat.le_div_iff_mul_le clusterSize_pos).mp (beyond.trans (Nat.mod_le _ _))
    have end_le : chain.length * g.clusterSize * g.blockSize ≤ (begin + n - 1) * g.clusterSize * g.blockSize :=
      Nat.mul_le_mul_right _ ((start.trans (by omega)).trans (Nat.le_mul_of_pos_right _ clusterSize_pos))
    have positive : 0 < g.clusterSize * g.blockSize := Nat.mul_pos clusterSize_pos (by have := le_blockSize (g := g); omega)
    have small : begin + n - 1 ≤ (begin + n - 1) * g.clusterSize * g.blockSize := by
      rw [Nat.mul_assoc]
      exact Nat.le_mul_of_pos_right _ positive
    have last : lastSector begin n = begin + n - 1 := (lastSector_eq (by omega)).trans (Nat.mod_eq_of_lt (by omega))
    rw [last, Nat.mod_eq_of_lt (by omega)] at below
    omega
  · obtain rfl := links.eq_nil (owner.symm.trans unused)
    rw [length_nil, Nat.zero_mul, Nat.zero_mul] at sized
    exact absurd (Nat.le_zero.mp sized) sizeNonzero
  · exact .inr (.inr full)

/--
After a complete write, with the size raised over the data, the data reads back and everything else reads as
before exactly when the cluster offset of the write has 32 bits.
-/
theorem write_reads_back_iff (wf : WellFormed g v files chains) (sized : Sized g files chains)
    (file : files[i]? = some fd) (nonempty : data ≠ []) :
    (writeFileSectors g v fd begin data).Ensures (Excused g v fd begin data.length) fun (v', fd', result) =>
      ∀ w size chains', result = .complete w -> WellFormed g v' (files.set i fd') chains' ->
        (∀ c ∈ chains'.flatten, Placed g c) -> (begin + data.length - 1) * g.blockSize < size -> fd.fileSize ≤ size ->
          (RoundTrip g v v' files i fd { fd' with fileSize := size } begin data ↔ begin / g.clusterSize < 2 ^ 32) := by
  obtain ⟨chain, at_i⟩ := wf.chain_at file
  have links := wf.links chain (mem_of_getElem? at_i)
  have owner := wf.owned i fd chain file at_i
  have some : 0 < data.length := length_pos_iff.mpr nonempty
  refine (writeFileSectors_ensures links wf.cursor owner).mono
    (fun fault => writeFault_excused owner links (sized i fd chain file at_i) some) ?_
  rintro ⟨v', fd', result⟩ ⟨new, rfl, longer, written⟩ w size chains' complete wf' placed covers grows
  have same := wf'.unique (wf.extended at_i longer rfl)
  subst same
  have at_i' : (chains.set i (chain ++ new))[i]? = Option.some (chain ++ new) := List.getElem?_set_self (lt_of_getElem? at_i)
  have placedAt : ∀ j other, (chains.set i (chain ++ new))[j]? = Option.some other -> ∀ c ∈ other, Placed g c :=
    fun j other at_j c member => placed c (mem_flatten_of_mem (mem_of_getElem? at_j) member)
  have placedHere := placedAt i _ at_i'
  obtain ⟨inside, stores⟩ := written w complete
  have stores := stores placedHere
  constructor
  · intro trip
    by_contra beyond
    refine readFileSectors_beyond longer.links rfl ?_ data trip.back
    have bound := sectors_lt longer.links.nodup placedHere
    have fewer := Nat.le_mul_of_pos_right (chain ++ new).length (clusterSize_pos (g := g))
    omega
  · intro fits
    have first : firstSector g begin = begin := by
      rw [firstSector, firstCluster, Nat.mod_eq_of_lt fits, Nat.mul_comm]
      exact Nat.div_add_mod _ _
    rw [first] at inside stores
    refine ⟨?_, ?_, ?_⟩
    · rw [readFileSectors_eq longer.links placedHere rfl (by omega) (by omega) inside covers, stores.contents_eq]
    · intro k sizeCovers outside
      have before := sector_lt (sized i fd chain file at_i) sizeCovers
      refine sectorKept new links longer.links placedHere owner rfl before sizeCovers grows (stores.unchanged _ ?_)
      intro m small
      rw [← sectorLba_append new before]
      refine sectorLba_ne longer.links.nodup placedHere ?_ (by omega) (by omega)
      rw [length_append, Nat.add_mul]
      omega
    · intro j other different otherFile k sizeCovers
      obtain ⟨chain', at_j⟩ := wf.chain_at otherFile
      have at_j' : (chains.set i (chain ++ new))[j]? = Option.some chain' := by
        rw [getElem?_set_ne different.symm]
        exact at_j
      have owner' := wf.owned j other chain' otherFile at_j
      have before := sector_lt (sized j other chain' otherFile at_j) sizeCovers
      have links' := wf'.links chain' (mem_of_getElem? at_j')
      have apart := wf'.disjoint_at at_i' at_j' different
      refine sectorKept [] (wf.links chain' (mem_of_getElem? at_j)) (by simpa using links')
        (by simpa using placedAt j chain' at_j') owner' (by simpa using owner') before sizeCovers le_rfl
        (stores.unchanged _ ?_)
      intro m small shared
      obtain ⟨clusters, -⟩ := sectorLba_inj (placedAt j chain' at_j') placedHere before (by omega) shared
      have there := getElem?_eq_getElem (index_lt before)
      exact apart (mem_of_getElem? there) (mem_of_getElem? (clusters.symm.trans there))

theorem smallSystem_sized : Sized smallGeometry smallSystem.files [[2], []] := by
  intro j fd chain file at_j
  match j with
  | 0 =>
    cases file
    cases at_j
    decide
  | 1 =>
    cases file
    cases at_j
    decide
  | j + 2 => cases file

theorem smallGeometry_placed (range : InRange smallGeometry cluster) : Placed smallGeometry cluster := by
  obtain ⟨used, below⟩ := range
  change cluster < 256 at below
  refine ⟨used, ?_⟩
  show 3 + (cluster - 1) * 2 ≤ 1000
  omega

theorem write_reads_back_fragmented :
    ∃ v' fd' w, writeFileSectors smallGeometry smallSystem.volume ⟨0, 0⟩ 5 [7, 8, 9] = .ok (v', fd', .complete w) ∧
      RoundTrip smallGeometry smallSystem.volume v' smallSystem.files 1 ⟨0, 0⟩ { fd' with fileSize := 4096 } 5 [7, 8, 9] := by
  have evaluated : (writeFileSectors smallGeometry smallSystem.volume ⟨0, 0⟩ 5 [7, 8, 9]).map
      (fun out => out.2.2) = .ok (.complete 2) := by decide
  obtain ⟨⟨v', fd', written⟩, result, rfl⟩ := Except.map_eq_ok evaluated
  obtain ⟨new, wf', -⟩ := (smallSystem_wellFormed.writeFileSectors (i := 1) rfl rfl).of_ok result
  have placed : ∀ c ∈ ([[2], []].set 1 ([] ++ new)).flatten, Placed smallGeometry c := by
    intro c member
    obtain ⟨chain, inside, there⟩ := mem_flatten.mp member
    exact smallGeometry_placed ((wf'.links chain inside).inRange c there)
  have trip := (write_reads_back_iff (i := 1) smallSystem_wellFormed smallSystem_sized rfl (by decide)).of_ok result
    2 4096 _ rfl wf' placed (by decide) (by decide)
  exact ⟨v', fd', 2, result, trip.mpr (by decide)⟩

theorem write_far_overwrites_start :
    ∃ v' fd' w, writeFileSectors smallGeometry smallSystem.volume ⟨2, 600⟩ (2 ^ 33) [7] = .ok (v',
      fd', .complete w) ∧ readFileSectors smallGeometry smallSystem.volume ⟨2, 600⟩ 0 1 = .ok [0] ∧
      readFileSectors smallGeometry v' { fd' with fileSize := 2 ^ 42 + 1 } 0 1 = .ok [7] ∧
      readFileSectors smallGeometry v' { fd' with fileSize := 2 ^ 42 + 1 } (2 ^ 33) 1 = .error .clusterEnd := by
  refine ⟨_, _, _, rfl, by decide, by decide, by decide +kernel⟩

end roundTrip

/-- Whatever runs the clusters form, sector `i` of the file comes from cluster `i / clusterSize` of its chain. -/
theorem read_follows_chain (links : Chain g v.fat chain) (placed : ∀ c ∈ chain, Placed g c)
    (owner : fd.addr = chain.headD 0) (covered : fd.fileSize ≤ chain.length * g.clusterSize * g.blockSize)
    (some : 0 < begin + n) (starts : begin < chain.length * g.clusterSize)
    (within : (begin + n - 1) * g.blockSize < fd.fileSize) :
    readFileSectors g v fd begin n = .ok ((range n).map fun k =>
      v.disk (clusterBegin g (chain[(begin + k) / g.clusterSize]?.getD 0) + (begin + k) % g.clusterSize)) := by
  have last := sector_lt covered within
  exact readFileSectors_eq links placed owner some starts (by omega) within

-- The chain 2, 3, 5 on a disk where each sector holds its number.
def threeClusters : Volume Nat where
  fat := fun cluster => if cluster = 2 then 3 else if cluster = 3 then 5 else if cluster ≤ 5 then endOfChain else 0
  allocStart := 1
  disk := id

theorem read_follows_chain_fragmented : readFileSectors smallGeometry threeClusters ⟨2, 3000⟩ 1 5 = .ok [4, 5, 6, 9, 10] := by
  have links : Chain smallGeometry threeClusters.fat [2, 3, 5] := ⟨⟨rfl, rfl, rfl, rfl⟩, by decide⟩
  refine (read_follows_chain links (by decide) rfl (by decide) (by decide) (by decide) (by decide)).trans ?_
  rfl

theorem read_nothing_fails : readFileSectors smallGeometry threeClusters ⟨2, 3000⟩ 0 0 = .error .beyondEnd ∧
    readFileSectors smallGeometry threeClusters ⟨2, 3000⟩ 6 0 = .error .clusterEnd := by decide

end Bincows.Fat32
