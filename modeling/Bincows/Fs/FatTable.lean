import Bincows.Fs.Fat32
import Bincows.Shared.Linked

set_option autoImplicit false

namespace Bincows.Fat32

open Function List

variable {A : Type} {g : Geometry} {v v' v'' : Volume A} {chain new more : List Nat}
  {cluster p : Nat}

def link (fat : Nat -> BitVec 32) (cluster : Nat) : Option Nat :=
  if 0x0ffffff8 ≤ fat cluster &&& 0x0fffffff then none else some (fat cluster &&& 0x0fffffff).toNat

def InRange (g : Geometry) (cluster : Nat) : Prop := 2 ≤ cluster ∧ cluster < g.fatEntries

instance : Decidable (InRange g cluster) := inferInstanceAs (Decidable (_ ∧ _))

theorem InRange.ne_zero (range : InRange g cluster) : cluster ≠ 0 := Nat.ne_zero_of_lt range.1

structure Chain (g : Geometry) (fat : Nat -> BitVec 32) (chain : List Nat) : Prop where
  linked : Linked (link fat) chain.head? chain
  inRange : ∀ cluster ∈ chain, InRange g cluster

def Cursor (g : Geometry) (v : Volume A) : Prop :=
  g.fatBegin ≤ v.allocStart ∧ v.allocStart < g.fatBegin + g.fatSize

instance : Decidable (Cursor g v) := inferInstanceAs (Decidable (_ ∧ _))

structure Extends (g : Geometry) (v v' : Volume A) (chain new : List Nat) : Prop where
  links : Chain g v'.fat (chain ++ new)
  free : ∀ cluster ∈ new, v.fat cluster = 0
  others : ∀ cluster, cluster ∉ chain ++ new -> v'.fat cluster = v.fat cluster
  cursor : Cursor g v'

section geometry

theorem fatEntries_le : g.fatEntries ≤ 0x0ffffff8 := g.fatSizes.2

theorem blockSize_eq : g.blockSize = 4 * g.entriesPerSector := by
  have four : 4 ∣ g.blockSize := Nat.pow_dvd_pow 2 (m := 2) (by have := g.sectorSizes; omega)
  exact (Nat.mul_div_cancel' four).symm

theorem le_blockSize : 512 ≤ g.blockSize :=
  Nat.pow_le_pow_right (i := 9) (n := 2) (by decide) g.sectorSizes.1

theorem le_entriesPerSector : 128 ≤ g.entriesPerSector := by
  have := le_blockSize (g := g)
  rw [blockSize_eq] at this
  omega

theorem fatEntries_pos : 0 < g.fatEntries :=
  Nat.mul_pos g.fatSizes.1 (by have := le_entriesPerSector (g := g); omega)

theorem entryIndex_eq (small : cluster < g.fatEntries) : entryIndex g cluster = .ok cluster := by
  have bound := fatEntries_le (g := g)
  have offset : cluster * 4 % 2 ^ 32 = 4 * cluster := by omega
  have sector : 4 * cluster / g.blockSize = cluster / g.entriesPerSector := by
    rw [blockSize_eq, Nat.mul_div_mul_left _ _ (by decide)]
  have inside : cluster / g.entriesPerSector < g.fatSize := Nat.div_lt_of_lt_mul (by rw [Nat.mul_comm]; exact small)
  have rest : 4 * cluster % g.blockSize / 4 = cluster % g.entriesPerSector := by
    rw [blockSize_eq, Nat.mul_mod_mul_left, Nat.mul_div_cancel_left _ (by decide)]
  simp only [entryIndex, offset, sector, rest]
  have sectorInside : ¬ (g.fatBegin + cluster / g.entriesPerSector < g.fatBegin ∨
      g.fatBegin + g.fatSize ≤ g.fatBegin + cluster / g.entriesPerSector) := by
    generalize cluster / g.entriesPerSector = lba at inside
    omega
  rw [if_neg sectorInside, Nat.add_sub_cancel_left, Nat.mul_comm, Nat.div_add_mod]

end geometry

section entries

section

variable {target : BitVec 32} (small : target.toNat < 2 ^ 28)
include small

theorem masked_eq : target &&& 0x0fffffff = target := by
  apply BitVec.eq_of_toNat_eq
  rw [BitVec.toNat_and]
  exact (Nat.and_two_pow_sub_one_eq_mod _ 28).trans (Nat.mod_eq_of_lt small)

theorem target_fits : target &&& 0xf0000000 = 0 := by
  rw [← masked_eq small, BitVec.and_assoc]
  simp

theorem masked_target {ent : BitVec 32} : (target ||| (ent &&& 0xf0000000)) &&& 0x0fffffff = target := by
  have high : ent &&& 0xf0000000 &&& 0x0fffffff = 0 := by
    rw [BitVec.and_assoc]
    simp
  rw [BitVec.and_or_distrib_right, high, masked_eq small]
  simp

end

theorem readFAT_link (small : cluster < g.fatEntries) (used : ∀ next, link v.fat cluster = some next -> 2 ≤ next) :
    readFAT g v cluster = .ok ((link v.fat cluster).getD 0) := by
  rw [readFAT, entryIndex_eq small]
  show (if v.fat cluster &&& 0x0fffffff = 0 then _ else _) = _
  rw [link] at used ⊢
  generalize v.fat cluster &&& 0x0fffffff = ent at *
  have large : 2 ≤ ent.toNat := by
    by_cases high : 0x0ffffff8 ≤ ent
    · exact le_trans (by decide) (BitVec.le_def.mp high)
    · exact used _ (if_neg high)
  rw [if_neg (by rintro rfl; exact absurd large (by decide)), if_neg (by rintro rfl; exact absurd large (by decide))]
  split_ifs <;> rfl

theorem linkFAT_eq (target : BitVec 32) (small : cluster < g.fatEntries)
    (last : link v.fat cluster = none ∨ v.fat cluster = 0) (fits : target.toNat < 2 ^ 28) :
    linkFAT g v cluster target = .ok { v with fat := update v.fat cluster (target ||| (v.fat cluster &&& 0xf0000000)) } := by
  have allowed : 0x0ffffff8 ≤ v.fat cluster &&& 0x0fffffff ∨ v.fat cluster = 0 := by
    refine last.imp_left fun none => ?_
    by_contra low
    rw [link, if_neg low] at none
    cases none
  rw [linkFAT, entryIndex_eq small]
  show (if ¬ (0x0ffffff8 ≤ v.fat cluster &&& 0x0fffffff ∨ v.fat cluster = 0) then _ else _) = _
  rw [if_neg (not_not.mpr allowed), if_neg (not_not.mpr (target_fits fits))]
  rfl

theorem link_update_last (fat : Nat -> BitVec 32) (ent : BitVec 32) :
    link (update fat cluster (endOfChain ||| (ent &&& 0xf0000000))) cluster = none := by
  rw [link, update_self, masked_target (by decide)]
  decide

theorem link_update_next (fat : Nat -> BitVec 32) (ent : BitVec 32) {next : Nat} (small : next < 0x0ffffff8) :
    link (update fat cluster (BitVec.ofNat 32 next ||| (ent &&& 0xf0000000))) cluster = some next := by
  have value : (BitVec.ofNat 32 next).toNat = next := by
    rw [BitVec.toNat_ofNat]
    omega
  have low : ¬ (0x0ffffff8 ≤ BitVec.ofNat 32 next) := by
    rw [BitVec.le_def, value]
    exact Nat.not_le.mpr small
  rw [link, update_self, masked_target (by omega), if_neg low, value]

theorem link_update_of_ne (fat : Nat -> BitVec 32) {other : Nat} (value : BitVec 32)
    (different : other ≠ cluster) : link (update fat cluster value) other = link fat other := by
  rw [link, link, update_of_ne different]

end entries

namespace Chain

variable {fat fat' : Nat -> BitVec 32}

section

variable (links : Chain g fat chain)
include links

theorem next (there : chain[p]? = some cluster) : link fat cluster = chain[p + 1]? :=
  Linked.iff_getElem?.mp links.linked p cluster there

theorem nodup : chain.Nodup := links.linked.nodup

theorem at_inRange (there : chain[p]? = some cluster) : InRange g cluster :=
  links.inRange cluster (mem_of_getElem? there)

theorem head_eq : chain.head? = if chain.headD 0 = 0 then none else some (chain.headD 0) := by
  cases chain with
  | nil => rfl
  | cons head rest => exact (if_neg (links.inRange head mem_cons_self).ne_zero).symm

theorem eq_nil (unused : chain.headD 0 = 0) : chain = [] :=
  head?_eq_none_iff.mp (links.head_eq.trans (if_pos unused))

theorem entry_ne_zero (member : cluster ∈ chain) : fat cluster ≠ 0 := by
  intro free
  obtain ⟨p, there⟩ := mem_iff_getElem?.mp member
  have next := links.next there
  have zero : link fat cluster = some 0 := by
    rw [link, free]
    rfl
  rw [zero] at next
  have range := links.at_inRange next.symm
  exact absurd range.1 (by decide)

theorem congr (same : ∀ cluster ∈ chain, fat' cluster = fat cluster) : Chain g fat' chain := by
  refine ⟨links.linked.congr ?_, links.inRange⟩
  intro cluster member
  rw [link, link, same cluster member]

end

theorem readFAT (links : Chain g v.fat chain) (there : chain[p]? = some cluster) :
    readFAT g v cluster = .ok (chain[p + 1]?.getD 0) := by
  rw [← links.next there]
  exact readFAT_link (links.at_inRange there).2 fun _ found => (links.at_inRange ((links.next there).symm.trans found)).1

theorem length_le (links : Chain g fat chain) : chain.length ≤ g.fatEntries - 2 := by
  have inside : chain ⊆ range' 2 (g.fatEntries - 2) := by
    intro cluster member
    have range := links.inRange cluster member
    rw [mem_range'_1]
    have := range.1
    have := range.2
    omega
  have shorter := (links.nodup.subperm inside).length_le
  rwa [length_range'] at shorter

end Chain

theorem Cursor.of_same (cursor : Cursor g v) (same : v'.allocStart = v.allocStart) : Cursor g v' := by
  rw [Cursor, same]
  exact cursor

namespace Extends

theorem unchanged (links : Chain g v.fat chain) (cursor : Cursor g v') (same : v'.fat = v.fat) : Extends g v v' chain [] := by
  refine ⟨?_, fun cluster member => absurd member not_mem_nil, fun cluster _ => by rw [same], cursor⟩
  rw [append_nil, same]
  exact links

theorem of_same {w : Volume A} (longer : Extends g w v' chain new) (same : w.fat = v.fat) : Extends g v v' chain new := by
  refine ⟨longer.links, ?_, ?_, longer.cursor⟩
  · rw [← same]
    exact longer.free
  · rw [← same]
    exact longer.others

theorem trans (first : Extends g v v' chain new) (second : Extends g v' v'' (chain ++ new) more) :
    Extends g v v'' chain (new ++ more) := by
  have unused : ∀ cluster ∈ more, cluster ∉ chain ++ new := by
    intro cluster member used
    exact first.links.entry_ne_zero used (second.free cluster member)
  refine ⟨?_, ?_, ?_, second.cursor⟩
  · rw [← append_assoc]
    exact second.links
  · intro cluster member
    rcases mem_append.mp member with early | late
    · exact first.free cluster early
    · rw [← first.others cluster (unused cluster late)]
      exact second.free cluster late
  · intro cluster outside
    rw [← append_assoc, mem_append, not_or] at outside
    rw [second.others cluster (by rw [mem_append, not_or]; exact outside)]
    exact first.others cluster outside.1

end Extends

section allocation

theorem findFree_spec {base i count j : Nat} (found : findFree v base count i = some j) :
    i ≤ j ∧ j < i + count ∧ v.fat (base + j) = 0 := by
  induction count generalizing i with
  | zero => cases found
  | succ count ih =>
    rw [findFree] at found
    split at found
    next free =>
      cases found
      exact ⟨le_rfl, by omega, free⟩
    next free =>
      obtain ⟨above, below, zero⟩ := ih found
      exact ⟨by omega, by omega, zero⟩

theorem findFree_before {base i count m : Nat} (above : i ≤ m)
    (below : m < (findFree v base count i).getD (i + count)) : v.fat (base + m) ≠ 0 := by
  induction count generalizing i with
  | zero => exact absurd below (Nat.not_lt.mpr above)
  | succ count ih =>
    rw [findFree] at below
    split at below
    · exact absurd below (Nat.not_lt.mpr above)
    next free =>
      rw [Nat.add_comm count, ← Nat.add_assoc] at below
      rcases Nat.eq_or_lt_of_le above with rfl | later
      · exact free
      · exact ih later below

-- The sector that the search looks at in step `k`, and entry `i` of it.
def stepSector (g : Geometry) (v : Volume A) (k : Nat) : Nat :=
  (v.allocStart - g.fatBegin + k) % g.fatSize

def stepEntry (g : Geometry) (v : Volume A) (k i : Nat) : Nat :=
  stepSector g v k * g.entriesPerSector + i

-- The search stops in front of the last sector.
def Looked (g : Geometry) (v : Volume A) (k i : Nat) : Prop :=
  k + 1 < g.fatSize ∧ (if stepSector g v k = 0 then 2 else 0) ≤ i ∧ i < g.entriesPerSector

variable {k i : Nat}

theorem stepSector_lt (g : Geometry) (v : Volume A) (k : Nat) : stepSector g v k < g.fatSize :=
  Nat.mod_lt _ g.fatSizes.1

theorem Looked.inRange (looked : Looked g v k i) : InRange g (stepEntry g v k i) := by
  obtain ⟨-, above, below⟩ := looked
  have entries := le_entriesPerSector (g := g)
  have upper := Nat.mul_le_mul_right g.entriesPerSector (stepSector_lt g v k)
  rw [Nat.succ_mul] at upper
  refine ⟨?_, (Nat.add_lt_add_left below _).trans_le upper⟩
  rw [stepEntry]
  split at above
  case isTrue => omega
  case isFalse later =>
    have lower := Nat.mul_le_mul_right g.entriesPerSector (Nat.pos_of_ne_zero later)
    omega

theorem stepSector_succ (g : Geometry) (v : Volume A) (k : Nat) :
    (if g.fatBegin + stepSector g v k = g.fatBegin + g.fatSize - 1 then g.fatBegin else g.fatBegin + stepSector g v k + 1) =
      g.fatBegin + stepSector g v (k + 1) := by
  have small := stepSector_lt g v k
  have next : (stepSector g v k + 1) % g.fatSize = stepSector g v (k + 1) :=
    Nat.mod_add_mod (v.allocStart - g.fatBegin + k) ..
  rw [← next]
  split
  case isTrue last => rw [show stepSector g v k + 1 = g.fatSize by omega, Nat.mod_self, Nat.add_zero]
  case isFalse => rw [Nat.mod_eq_of_lt (by omega), Nat.add_assoc]

-- The search from step `k` on ends at entry `i` of step `j`, and everything that it has looked at before is in use.
def Finds (g : Geometry) (v : Volume A) (k : Nat) (found : Option (Nat × Nat)) : Prop :=
  ∃ j i, (∀ j' i', k ≤ j' -> Looked g v j' i' -> j' < j ∨ j' = j ∧ i' < i ->
    v.fat (stepEntry g v j' i') ≠ 0) ∧ (found = none ∧ g.fatSize ≤ j + 1 ∨
      found = some (g.fatBegin + stepSector g v j, i) ∧ Looked g v j i ∧ v.fat (stepEntry g v j i) = 0)

theorem searchFAT_finds (fuel : Nat) (small : k < g.fatSize) (enough : g.fatSize ≤ k + fuel) :
    (searchFAT g v (g.fatBegin + g.fatSize - 1) (g.fatBegin + stepSector g v (g.fatSize - 1)) fuel
      (g.fatBegin + stepSector g v k)).Returns (Finds g v k) := by
  induction fuel generalizing k with
  | zero => omega
  | succ fuel ih =>
    have inside := stepSector_lt g v k
    rw [searchFAT]
    by_cases stop : k = g.fatSize - 1
    · rw [stop, if_pos rfl]
      exact ⟨g.fatSize - 1, 0, fun j' i' later _ earlier => by omega, .inl ⟨rfl, by omega⟩⟩
    have other : g.fatBegin + stepSector g v k ≠ g.fatBegin + stepSector g v (g.fatSize - 1) := by
      intro same
      have steps : k ≡ g.fatSize - 1 [MOD g.fatSize] := Nat.ModEq.add_left_cancel' _ (Nat.add_left_cancel same)
      exact stop (steps.eq_of_lt_of_lt small (by omega))
    rw [if_neg other, if_neg (by omega), Nat.add_sub_cancel_left, stepSector_succ]
    simp only [Nat.add_eq_left]
    have entries : (if stepSector g v k = 0 then 2 else 0) + (g.entriesPerSector - if stepSector g v k = 0 then 2 else 0) =
        g.entriesPerSector := by
      have := le_entriesPerSector (g := g)
      split <;> omega
    have before := @findFree_before A v (stepSector g v k * g.entriesPerSector)
      (if stepSector g v k = 0 then 2 else 0) (g.entriesPerSector - if stepSector g v k = 0 then 2 else 0)
    rw [entries] at before
    cases found : findFree v (stepSector g v k * g.entriesPerSector)
        (g.entriesPerSector - if stepSector g v k = 0 then 2 else 0) (if stepSector g v k = 0 then 2 else 0) with
    | some i =>
      obtain ⟨above, below, free⟩ := findFree_spec found
      refine ⟨k, i, fun j' i' later looked earlier => ?_, .inr ⟨rfl, ⟨by omega, above, by omega⟩, free⟩⟩
      obtain ⟨rfl, smaller⟩ : j' = k ∧ i' < i := by omega
      exact before looked.2.1 (by rw [found]; exact smaller)
    | none =>
      refine (ih (by omega) (by omega)).mono (fun _ => id) ?_
      rintro result ⟨j, i, rest, ends⟩
      refine ⟨j, i, fun j' i' later looked earlier => ?_, ends⟩
      rcases Nat.eq_or_lt_of_le later with rfl | after
      · exact before looked.2.1 (by rw [found]; exact looked.2.2)
      · exact rest j' i' after looked earlier

theorem allocFAT_finds (cursor : Cursor g v) :
    ∃ found, Finds g v 0 found ∧ allocFAT g v = match found with
      | some (lba, i) => .ok ({ v with allocStart := lba }, (lba - g.fatBegin) * g.entriesPerSector + i)
      | none => .ok (v, 0) := by
  obtain ⟨above, below⟩ := cursor
  have size := g.fatSizes.1
  have start : g.fatBegin + stepSector g v 0 = v.allocStart := by
    rw [stepSector, Nat.add_zero, Nat.mod_eq_of_lt (by omega), Nat.add_sub_cancel' above]
  have stop : (if v.allocStart = g.fatBegin then g.fatBegin + g.fatSize - 1 else v.allocStart - 1) =
      g.fatBegin + stepSector g v (g.fatSize - 1) := by
    rw [stepSector]
    split
    case isTrue first => rw [first, Nat.sub_self, Nat.zero_add, Nat.mod_eq_of_lt (by omega), Nat.add_sub_assoc size]
    case isFalse =>
      rw [show v.allocStart - g.fatBegin + (g.fatSize - 1) = v.allocStart - g.fatBegin - 1 + g.fatSize by omega,
        Nat.add_mod_right, Nat.mod_eq_of_lt (by omega)]
      omega
  obtain ⟨found, returns, finds⟩ := (searchFAT_finds (v := v) (g.fatSize + 1) size (by omega)).returns fun _ => id
  refine ⟨found, finds, ?_⟩
  rw [start] at returns
  rw [allocFAT, if_neg (by omega), if_neg (by omega)]
  simp only [stop, returns, bind, Except.bind]
  cases found <;> rfl

theorem allocFAT_ensures (cursor : Cursor g v) :
    (allocFAT g v).Returns fun (v', cluster) =>
      (cluster = 0 ∧ v' = v) ∨
        (InRange g cluster ∧ v.fat cluster = 0 ∧ ∃ lba, v' = { v with allocStart := lba } ∧ Cursor g v') := by
  obtain ⟨found, ⟨j, i, -, ⟨rfl, -⟩ | ⟨rfl, looked, free⟩⟩, returns⟩ := allocFAT_finds cursor
  · rw [returns]
    exact .inl ⟨rfl, rfl⟩
  · rw [returns]
    simp only [Nat.add_sub_cancel_left]
    exact .inr ⟨looked.inRange, free, _, rfl, Nat.le_add_right .., Nat.add_lt_add_left (stepSector_lt g v j) _⟩

theorem append_cluster {next : Nat} (links : Chain g v.fat chain) (there : chain[p]? = some cluster)
    (last : chain[p + 1]? = none) (cursor : Cursor g v) (range : InRange g next) (free : v.fat next = 0) :
    ∃ v₁ v₂, linkFAT g v next endOfChain = .ok v₁ ∧ linkFAT g v₁ cluster (BitVec.ofNat 32 next) = .ok v₂ ∧
      v₂.disk = v.disk ∧ Extends g v v₂ chain [next] := by
  have small : next < 0x0ffffff8 := range.2.trans_le fatEntries_le
  have fresh : next ∉ chain := fun used => links.entry_ne_zero used free
  have different : cluster ≠ next := by
    rintro rfl
    exact fresh (mem_of_getElem? there)
  have ends : link v.fat cluster = none := (links.next there).trans last
  have marked := linkFAT_eq (v := v) endOfChain range.2 (.inr free) (by decide)
  refine ⟨_, _, marked, linkFAT_eq _ (links.at_inRange there).2 (.inl ?_) ?_, rfl, ⟨⟨?_, ?_⟩, ?_, ?_, cursor⟩⟩
  · exact (link_update_of_ne v.fat _ different).trans ends
  · rw [BitVec.toNat_ofNat]
    omega
  · apply Linked.iff_getElem?.mpr
    intro q node at_q
    have position := length_of_last there last
    by_cases old : q < chain.length
    · rw [getElem?_append_left old] at at_q
      by_cases final : node = cluster
      · have same : q = p := by
          subst final
          exact (getElem?_inj old links.nodup).mp (at_q.trans there.symm)
        subst same
        subst final
        rw [position, getElem?_concat_length]
        exact link_update_next _ _ small
      · have earlier : q + 1 < chain.length := by
          by_contra later
          have : q = p := by omega
          subst this
          rw [at_q] at there
          cases there
          exact final rfl
        have notNext : node ≠ next := by
          rintro rfl
          exact fresh (mem_of_getElem? at_q)
        rw [link_update_of_ne _ _ final, link_update_of_ne _ _ notNext, links.next at_q, getElem?_append_left earlier]
    · have end_q : q = chain.length := by
        have := lt_of_getElem? at_q
        simp at this
        omega
      subst end_q
      rw [getElem?_concat_length] at at_q
      cases at_q
      rw [link_update_of_ne _ _ different.symm, getElem?_eq_none (by simp)]
      exact link_update_last _ _
  · exact forall_mem_concat links.inRange range
  · exact forall_mem_singleton.mpr free
  · intro c outside
    rw [mem_append, not_or, mem_singleton] at outside
    have notCluster : c ≠ cluster := by
      rintro rfl
      exact outside.1 (mem_of_getElem? there)
    show update (update v.fat next _) cluster _ c = v.fat c
    rw [update_of_ne notCluster, update_of_ne outside.2]

theorem first_cluster {next : Nat} (cursor : Cursor g v) (range : InRange g next) (free : v.fat next = 0) :
    ∃ v', linkFAT g v next endOfChain = .ok v' ∧ v'.disk = v.disk ∧ Extends g v v' [] [next] := by
  refine ⟨_, linkFAT_eq _ range.2 (.inr free) (by decide), rfl, ⟨⟨?_, ?_⟩, ?_, ?_, cursor⟩⟩
  · exact ⟨rfl, link_update_last _ _⟩
  · exact forall_mem_singleton.mpr range
  · exact forall_mem_singleton.mpr free
  · intro c outside
    exact update_of_ne (fun same => outside (by simp [same])) _ _

end allocation

end Bincows.Fat32
