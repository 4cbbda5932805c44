import Bincows.Fs.FatTable

set_option autoImplicit false

namespace Bincows.Fat32

open Blocks List

variable {A : Type} {g : Geometry} {v v' : Volume A} {chain chain' new : List Nat}
  {cluster p k k' offset : Nat}

section places

theorem clusterSize_pos : 0 < g.clusterSize := g.clusterSizes.1

def Placed (g : Geometry) (cluster : Nat) : Prop :=
  2 ≤ cluster ∧ g.dataBegin + (cluster - 1) * g.clusterSize ≤ min g.partSize (2 ^ 32)

instance : Decidable (Placed g cluster) := inferInstanceAs (Decidable (_ ∧ _))

theorem clusterBegin_eq (placed : Placed g cluster) :
    clusterBegin g cluster = (cluster - 2) * g.clusterSize + g.dataBegin ∧
      clusterBegin g cluster + g.clusterSize ≤ g.partSize := by
  have used := placed.1
  have shifted : cluster + (2 ^ 32 - 2) = cluster - 2 + 2 ^ 32 := by omega
  have next : cluster - 1 = cluster - 2 + 1 := by omega
  have upper := le_min_iff.mp placed.2
  rw [next, Nat.add_mul, Nat.one_mul] at upper
  have positive := clusterSize_pos (g := g)
  have value : clusterBegin g cluster = (cluster - 2) * g.clusterSize + g.dataBegin := by
    rw [clusterBegin, shifted, Nat.add_mul, Nat.add_right_comm, Nat.add_mul_mod_self_left]
    exact Nat.mod_eq_of_lt (by omega)
  exact ⟨value, by omega⟩

def sectorLba (g : Geometry) (chain : List Nat) (k : Nat) : Nat :=
  clusterBegin g (chain[k / g.clusterSize]?.getD 0) + k % g.clusterSize

theorem index_lt (small : k < chain.length * g.clusterSize) : k / g.clusterSize < chain.length :=
  Nat.div_lt_of_lt_mul (by rwa [Nat.mul_comm])

theorem position_lt (offset : Nat) (there : p < chain.length) (small : offset < g.clusterSize) :
    p * g.clusterSize + offset < chain.length * g.clusterSize := by
  have upper : (p + 1) * g.clusterSize ≤ chain.length * g.clusterSize := Nat.mul_le_mul_right _ there
  rw [Nat.add_mul, Nat.one_mul] at upper
  omega

theorem sectorLba_at (there : chain[p]? = some cluster) (small : offset < g.clusterSize) :
    sectorLba g chain (p * g.clusterSize + offset) = clusterBegin g cluster + offset := by
  have index : (p * g.clusterSize + offset) / g.clusterSize = p := by
    rw [Nat.mul_comm, Nat.mul_add_div clusterSize_pos, Nat.div_eq_of_lt small, Nat.add_zero]
  have rest : (p * g.clusterSize + offset) % g.clusterSize = offset := by
    rw [Nat.mul_comm, Nat.mul_add_mod, Nat.mod_eq_of_lt small]
  rw [sectorLba, index, rest, there, Option.getD_some]

theorem sectorLba_append (new : List Nat) (small : k < chain.length * g.clusterSize) :
    sectorLba g (chain ++ new) k = sectorLba g chain k := by
  rw [sectorLba, sectorLba, getElem?_append_left (index_lt small)]

theorem sectorLba_lt (range : ∀ c ∈ chain, Placed g c) (small : k < chain.length * g.clusterSize) :
    sectorLba g chain k < g.partSize := by
  have there := getElem?_eq_getElem (index_lt small)
  have inside := (clusterBegin_eq (range _ (mem_of_getElem? there))).2
  have rest := Nat.mod_lt k (clusterSize_pos (g := g))
  rw [sectorLba, there, Option.getD_some]
  omega

theorem sectorLba_inj (range : ∀ c ∈ chain, Placed g c) (range' : ∀ c ∈ chain', Placed g c)
    (small : k < chain.length * g.clusterSize) (small' : k' < chain'.length * g.clusterSize)
    (same : sectorLba g chain k = sectorLba g chain' k') :
    chain[k / g.clusterSize]? = chain'[k' / g.clusterSize]? ∧ k % g.clusterSize = k' % g.clusterSize := by
  obtain ⟨c, there⟩ : ∃ c, chain[k / g.clusterSize]? = some c := ⟨_, getElem?_eq_getElem (index_lt small)⟩
  obtain ⟨c', there'⟩ : ∃ c, chain'[k' / g.clusterSize]? = some c := ⟨_, getElem?_eq_getElem (index_lt small')⟩
  have inside := range c (mem_of_getElem? there)
  have inside' := range' c' (mem_of_getElem? there')
  have rest := Nat.mod_lt k (clusterSize_pos (g := g))
  have rest' := Nat.mod_lt k' (clusterSize_pos (g := g))
  rw [sectorLba, sectorLba, there, there', Option.getD_some, Option.getD_some,
    (clusterBegin_eq inside).1, (clusterBegin_eq inside').1] at same
  rw [there, there']
  have flat : g.clusterSize * (c - 2) + k % g.clusterSize = g.clusterSize * (c' - 2) + k' % g.clusterSize := by
    rw [Nat.mul_comm, Nat.mul_comm _ (c' - 2)]
    omega
  have quotients := congrArg (· / g.clusterSize) flat
  have remainders := congrArg (· % g.clusterSize) flat
  simp only [Nat.mul_add_div clusterSize_pos, Nat.div_eq_of_lt rest, Nat.div_eq_of_lt rest'] at quotients
  simp only [Nat.mul_add_mod, Nat.mod_mod] at remainders
  have := inside.1
  have := inside'.1
  exact ⟨congrArg some (by omega), remainders⟩

theorem sectorLba_ne (nodup : chain.Nodup) (range : ∀ c ∈ chain, Placed g c)
    (small : k < chain.length * g.clusterSize) (small' : k' < chain.length * g.clusterSize) (different : k ≠ k') :
    sectorLba g chain k ≠ sectorLba g chain k' := by
  intro same
  obtain ⟨clusters, rests⟩ := sectorLba_inj range range small small' same
  have indices := (getElem?_inj (index_lt small) nodup).mp clusters
  apply different
  rw [← Nat.div_add_mod k g.clusterSize, ← Nat.div_add_mod k' g.clusterSize, indices, rests]

end places

section loops

section

variable (links : Chain g v.fat chain)
include links

theorem fetchFrom_eq (remaining : Nat) (there : chain[p]? = some cluster) :
    fetchFrom g v remaining p cluster =
      .ok (if p + remaining < chain.length then (chain[p + remaining]?.getD 0, none)
        else (chain[chain.length - 1]?.getD 0, some (chain.length - 1))) := by
  have position := lt_of_getElem? there
  induction remaining generalizing p cluster with
  | zero => rw [fetchFrom, Nat.add_zero, if_pos position, there, Option.getD_some]
  | succ remaining ih =>
    have bound := links.length_le.trans ((Nat.sub_le _ 2).trans fatEntries_le)
    rw [fetchFrom, if_neg (by omega), links.readFAT there]
    show (if chain[p + 1]?.getD 0 ≠ 0 then _ else _) = _
    cases following : chain[p + 1]? with
    | some next =>
      have used := (links.at_inRange following).ne_zero
      rw [Option.getD_some, if_pos used, ih following (lt_of_getElem? following)]
      have shift : p + 1 + remaining = p + (remaining + 1) := by omega
      rw [shift]
    | none =>
      have final : p = chain.length - 1 := by
        have := List.getElem?_eq_none_iff.mp following
        omega
      rw [Option.getD_none, if_neg (by simp), if_neg (by omega), ← final, there]
      rfl

section

variable (cursor : Cursor g v) (there : chain[p]? = some cluster)
include cursor there

theorem readOrAllocateFAT_cases :
    (readOrAllocateFAT g v cluster).Returns fun (v', next) =>
      (chain[p + 1]? = some next ∧ v' = v) ∨
        (chain[p + 1]? = none ∧ (next = 0 ∧ v' = v ∨ v'.disk = v.disk ∧ Extends g v v' chain [next])) := by
  rw [readOrAllocateFAT, links.readFAT there]
  show (if chain[p + 1]?.getD 0 ≠ 0 then _ else _ : Except Fault (Volume A × Nat)).Ensures _ _
  cases following : chain[p + 1]? with
  | some next =>
    have used := (links.at_inRange following).ne_zero
    rw [Option.getD_some, if_pos used]
    exact .inl ⟨rfl, rfl⟩
  | none =>
    rw [Option.getD_none, if_neg (by simp)]
    refine (allocFAT_ensures cursor).bind ?_
    rintro ⟨v₀, next⟩ allocated
    rcases allocated with ⟨rfl, rfl⟩ | ⟨range, free, lba, rfl, moved⟩
    · exact .inr ⟨rfl, .inl ⟨rfl, rfl⟩⟩
    have used := range.ne_zero
    obtain ⟨v₁, v₂, marked, linked, disk, longer⟩ :=
      append_cluster (v := { v with allocStart := lba }) links there following moved range free
    simp only [if_neg used, marked]
    show (linkFAT g v₁ cluster (BitVec.ofNat 32 next) >>= _).Ensures _ _
    rw [linked]
    exact .inr ⟨trivial, .inr ⟨disk, longer.of_same rfl⟩⟩

theorem readOrAllocateFAT_ensures :
    (readOrAllocateFAT g v cluster).Returns fun (v', next) =>
      (next = 0 ∧ v' = v) ∨ (v'.disk = v.disk ∧ ∃ new, Extends g v v' chain new ∧ (chain ++ new)[p + 1]? = some next) := by
  refine (readOrAllocateFAT_cases links cursor there).mono (fun _ => id) ?_
  rintro ⟨v', next⟩ (⟨following, rfl⟩ | ⟨following, ⟨rfl, rfl⟩ | ⟨disk, longer⟩⟩)
  · refine .inr ⟨rfl, [], .unchanged links cursor rfl, ?_⟩
    rw [append_nil, following]
  · exact .inl ⟨rfl, rfl⟩
  · refine .inr ⟨disk, [next], longer, ?_⟩
    have position := length_of_last there following
    rw [position, getElem?_concat_length]

theorem extendChain_ensures {count : Nat} (last : chain[p + 1]? = none) :
    (extendChain g count v cluster).Returns fun (v', reached) =>
      v'.disk = v.disk ∧ ∃ new, Extends g v v' chain new ∧
        ∀ cluster, reached = some cluster -> (chain ++ new)[p + count]? = some cluster := by
  induction count generalizing v chain p cluster with
  | zero =>
    refine ⟨rfl, [], .unchanged links cursor rfl, ?_⟩
    intro c same
    cases same
    rw [append_nil, Nat.add_zero, there]
  | succ count ih =>
    rw [extendChain]
    refine (allocFAT_ensures cursor).bind ?_
    rintro ⟨v₀, next⟩ allocated
    rcases allocated with ⟨rfl, rfl⟩ | ⟨range, free, lba, rfl, moved⟩
    · refine ⟨rfl, [], .unchanged links cursor rfl, ?_⟩
      nofun
    have used := range.ne_zero
    obtain ⟨v₁, v₂, marked, linked, disk, longer⟩ :=
      append_cluster (v := { v with allocStart := lba }) links there last moved range free
    simp only [if_neg used, marked]
    show (linkFAT g v₁ cluster (BitVec.ofNat 32 next) >>= _).Ensures _ _
    rw [linked]
    have position := length_of_last there last
    have atEnd : (chain ++ [next])[p + 1]? = some next := by rw [position, getElem?_concat_length]
    have ended : (chain ++ [next])[p + 1 + 1]? = none := getElem?_eq_none (by simp; omega)
    have one : Extends g v v₂ chain [next] := longer.of_same rfl
    refine (ih longer.links longer.cursor atEnd ended).mono (fun _ none => none) ?_
    rintro ⟨v', reached⟩ ⟨sameDisk, new, rest, arrives⟩
    refine ⟨sameDisk.trans disk, [next] ++ new, one.trans rest, ?_⟩
    intro c result
    have := arrives c result
    rwa [append_assoc, Nat.add_assoc, Nat.add_comm 1 count] at this

end

end

def Written (g : Geometry) (v v' : Volume A) (chain : List Nat) (first : Nat) (buf : List A) : Prop :=
  first + buf.length ≤ chain.length * g.clusterSize ∧
    ((∀ c ∈ chain, Placed g c) -> Stores v.disk v'.disk (sectorLba g chain) first buf)

def OutsidePartition (g : Geometry) (fault : Fault) : Prop :=
  ∃ lba, g.partSize < lba ∧ fault = .outsidePartition lba

-- The sectors of one cluster follow each other on the disk.
theorem sectorLba_consecutive (there : chain[p]? = some cluster) (within : k < g.clusterSize - offset) :
    sectorLba g (chain ++ new) (p * g.clusterSize + offset + k) = clusterBegin g cluster + offset + k := by
  have position := lt_of_getElem? there
  rw [sectorLba_append, Nat.add_assoc, sectorLba_at there (by omega), Nat.add_assoc]
  rw [Nat.add_assoc]
  exact position_lt _ position (by omega)

theorem written_nil (there : chain[p]? = some cluster) (small : offset < g.clusterSize) :
    Written g v v (chain ++ []) (p * g.clusterSize + offset) ([] : List A) := by
  refine ⟨?_, fun _ => .nil⟩
  rw [append_nil]
  exact (position_lt offset (lt_of_getElem? there) small).le

theorem writeClusters_ensures {fuel written : Nat} {buf : List A} (links : Chain g v.fat chain)
    (cursor : Cursor g v) (there : chain[p]? = some cluster) (small : offset < g.clusterSize)
    (enough : buf.length ≤ fuel) :
    (writeClusters g fuel v cluster offset buf written).Ensures (OutsidePartition g) fun (v', result) =>
      ∃ new, Extends g v v' chain new ∧
        ∀ w, result = .complete w -> Written g v v' (chain ++ new) (p * g.clusterSize + offset) buf := by
  induction fuel generalizing v chain p cluster offset buf written with
  | zero =>
    have empty : buf = [] := length_eq_zero_iff.mp (Nat.le_zero.mp enough)
    subst empty
    exact ⟨[], .unchanged links cursor rfl, fun w _ => written_nil there small⟩
  | succ fuel ih =>
    by_cases empty : buf = []
    · subst empty
      exact ⟨[], .unchanged links cursor rfl, fun w _ => written_nil there small⟩
    have position := lt_of_getElem? there
    have used := (links.at_inRange there).ne_zero
    simp only [writeClusters, if_neg empty, if_neg used, write]
    split
    next outside =>
      exact ⟨_, outside, rfl⟩
    next outside =>
    obtain ⟨left, size⟩ := Nat.exists_eq_add_of_le small.le
    have inCluster : g.clusterSize - offset = left := by omega
    simp only [inCluster]
    by_cases longer : left < buf.length
    · let disk := writeBlocks v.disk (clusterBegin g cluster + offset) (buf.take left)
      let stored : Volume A := { v with disk }
      have remains : buf.drop left ≠ [] := by
        rw [Ne, drop_eq_nil_iff]
        omega
      simp only [if_pos longer]
      show (if drop left buf = [] then _ else _ : Except Fault (Volume A × WriteResult)).Ensures _ _
      rw [if_neg remains]
      refine Except.Ensures.bind ((readOrAllocateFAT_ensures (v := stored) links (cursor.of_same rfl) there).mono
        (fun _ impossible => impossible.elim) fun _ post => post) ?_
      rintro ⟨v₁, next⟩ step
      rcases step with ⟨rfl, rfl⟩ | ⟨sameDisk, new, one, following⟩
      · have same : Extends g v stored chain [] := .unchanged links (cursor.of_same rfl) rfl
        refine ⟨[], same, ?_⟩
        nofun
      have usedNext := (one.links.at_inRange following).ne_zero
      have here : Extends g v v₁ chain new := one.of_same rfl
      simp only [if_neg usedNext]
      refine (ih one.links one.cursor following clusterSize_pos ?_).mono (fun _ fault => fault) ?_
      · rw [length_drop]
        omega
      rintro ⟨v', result⟩ ⟨more, rest, stores⟩
      refine ⟨new ++ more, here.trans rest, ?_⟩
      intro w complete
      obtain ⟨fits, second⟩ := stores w complete
      have taken : (buf.take left).length = left := by
        rw [length_take]
        omega
      have boundary : (p + 1) * g.clusterSize + 0 = p * g.clusterSize + offset + (buf.take left).length := by
        rw [taken, Nat.add_mul]
        omega
      rw [boundary, length_drop] at fits
      rw [boundary, sameDisk] at second
      have nodup := rest.links.nodup
      rw [append_assoc] at fits second nodup
      refine ⟨by omega, ?_⟩
      intro placed
      have first : Stores v.disk disk (sectorLba g (chain ++ (new ++ more))) (p * g.clusterSize + offset) (buf.take left) :=
        .writeBlocks fun k within => sectorLba_consecutive there (by omega)
      have whole := first.append (second placed) fun k early m late =>
        sectorLba_ne nodup placed (by rw [length_drop] at late; omega) (by rw [length_drop] at late; omega) (by omega)
      rwa [take_append_drop] at whole
    · simp only [if_neg longer, drop_length, take_length]
      let stored : Volume A := { v with disk := writeBlocks v.disk (clusterBegin g cluster + offset) buf }
      have same : Extends g v stored chain [] := .unchanged links (cursor.of_same rfl) rfl
      refine ⟨[], same, ?_⟩
      intro w _
      have fits := position_lt (g := g) (offset + (buf.length - 1)) position (by omega)
      have first : Stores v.disk (writeBlocks v.disk (clusterBegin g cluster + offset) buf)
          (sectorLba g (chain ++ [])) (p * g.clusterSize + offset) buf :=
        .writeBlocks fun k within => sectorLba_consecutive there (by omega)
      refine ⟨?_, fun _ => first⟩
      rw [append_nil]
      omega

end loops

end Bincows.Fat32
