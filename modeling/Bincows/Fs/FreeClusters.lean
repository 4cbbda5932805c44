import Bincows.Fs.DirectoryInsertion

set_option autoImplicit false

namespace Bincows.Fat32

open Blocks List

variable {A : Type} {g : Geometry}

structure SameFiles (g : Geometry) (v u : Volume A) : Prop where
  fat : u.fat = v.fat
  allocStart : u.allocStart = v.allocStart
  used : ∀ c s, InRange g c -> v.fat c ≠ 0 -> s < g.clusterSize ->
    u.disk (clusterBegin g c + s) = v.disk (clusterBegin g c + s)

theorem SameFiles.refl (v : Volume A) : SameFiles g v v := ⟨rfl, rfl, fun _ _ _ _ _ => rfl⟩

section table

variable (v : Volume A) (disk : Nat -> A)

def Volume.withDisk (v : Volume A) (disk : Nat -> A) : Volume A := { v with disk }

theorem SameFiles.eq_withDisk {v u : Volume A} (same : SameFiles g v u) : u = v.withDisk u.disk := by
  obtain ⟨fat, start, disk⟩ := u
  cases same.fat
  cases same.allocStart
  rfl

theorem findFree_withDisk (base count i : Nat) : findFree (v.withDisk disk) base count i = findFree v base count i := by
  induction count generalizing i with
  | zero => rfl
  | succ count ih =>
    rw [findFree, findFree, ih]
    rfl

theorem searchFAT_withDisk (last lastSector fuel lba : Nat) :
    searchFAT g (v.withDisk disk) last lastSector fuel lba = searchFAT g v last lastSector fuel lba := by
  induction fuel generalizing lba with
  | zero => rfl
  | succ fuel ih => simp only [searchFAT, findFree_withDisk, ih]

def onDisk (disk : Nat -> A) (found : Volume A × Nat) : Volume A × Nat :=
  (found.1.withDisk disk, found.2)

theorem allocFAT_withDisk : allocFAT g (v.withDisk disk) = (allocFAT g v).map (onDisk disk) := by
  have start : (v.withDisk disk).allocStart = v.allocStart := rfl
  simp only [allocFAT, searchFAT_withDisk, start]
  generalize searchFAT g v _ _ _ _ = found
  by_cases below : v.allocStart < g.fatBegin
  · rw [if_pos below, if_pos below]
    rfl
  by_cases above : g.fatBegin + g.fatSize ≤ v.allocStart
  · rw [if_neg below, if_neg below, if_pos above, if_pos above]
    rfl
  · rw [if_neg below, if_neg below, if_neg above, if_neg above]
    cases found with
    | error e => rfl
    | ok place => cases place <;> rfl

theorem linkFAT_withDisk (source : Nat) (target : BitVec 32) :
    linkFAT g (v.withDisk disk) source target = (linkFAT g v source target).map (Volume.withDisk · disk) := by
  unfold linkFAT
  cases entryIndex g source with
  | error e => rfl
  | ok index =>
    show (if ¬ (0x0ffffff8 ≤ v.fat index &&& 0x0fffffff ∨ v.fat index = 0) then _ else _) =
      Except.map _ (if ¬ (0x0ffffff8 ≤ v.fat index &&& 0x0fffffff ∨ v.fat index = 0) then _ else _)
    split_ifs <;> rfl

theorem readOrAllocateFAT_withDisk (cluster : Nat) :
    readOrAllocateFAT g (v.withDisk disk) cluster = (readOrAllocateFAT g v cluster).map (onDisk disk) := by
  unfold readOrAllocateFAT
  have next : readFAT g (v.withDisk disk) cluster = readFAT g v cluster := rfl
  rw [next, allocFAT_withDisk]
  cases readFAT g v cluster with
  | error e => rfl
  | ok next =>
    show (if next ≠ 0 then _ else _) = Except.map _ (if next ≠ 0 then _ else _)
    split_ifs
    · rfl
    · cases allocFAT g v with
      | error e => rfl
      | ok allocated =>
        obtain ⟨v₁, next⟩ := allocated
        show (if next = 0 then _ else linkFAT g (v₁.withDisk disk) next endOfChain >>= _) =
          Except.map _ (if next = 0 then _ else linkFAT g v₁ next endOfChain >>= _)
        rw [linkFAT_withDisk]
        split_ifs
        · rfl
        · cases linkFAT g v₁ next endOfChain with
          | error e => rfl
          | ok v₂ =>
            show (linkFAT g (v₂.withDisk disk) cluster _ >>= _) = Except.map _ (linkFAT g v₂ cluster _ >>= _)
            rw [linkFAT_withDisk]
            cases linkFAT g v₂ cluster (BitVec.ofNat 32 next) <;> rfl

end table

section insertion

variable {v u v' v₁ : Volume DirSector} {chain : List Nat} {c d p off : Nat} {w w' : DirWriter}
  {name : List UInt8} {type : FileType}

theorem writeCluster_withDisk {buf : Nat -> DirRecord} (disk : Nat -> DirSector) (stored : writeCluster g v c buf = .ok v₁) :
    ∃ disk', writeCluster g (v.withDisk disk) c buf = .ok (v₁.withDisk disk') := by
  unfold writeCluster write at stored ⊢
  split at stored
  case isTrue => cases stored
  case isFalse inside =>
    cases stored
    exact ⟨_, if_neg inside⟩

def DirWriter.withDisk (w : DirWriter) (disk : Nat -> DirSector) : DirWriter :=
  { w with volume := w.volume.withDisk disk }

theorem emplaceDirent_withDisk {r : DirRecord} (disk : Nat -> DirSector) (stored : emplaceDirent g w r = .ok w') :
    ∃ disk', emplaceDirent g (w.withDisk disk) r = .ok (w'.withDisk disk') := by
  by_cases full : w.offset + 1 = g.entriesPerCluster
  · cases cluster : writeCluster g w.volume w.cluster (Function.update w.buf w.offset r) with
    | error e =>
      simp only [emplaceDirent, if_pos full, cluster] at stored
      cases stored
    | ok v₁ =>
      obtain ⟨disk', also⟩ := writeCluster_withDisk disk cluster
      refine ⟨disk', ?_⟩
      rw [emplaceDirent_full r full cluster] at stored
      rw [emplaceDirent_full (w := w.withDisk disk) r full also]
      show (lift (readOrAllocateFAT g (v₁.withDisk disk') w.cluster) >>= _) = _
      rw [readOrAllocateFAT_withDisk]
      cases found : readOrAllocateFAT g v₁ w.cluster with
      | error e =>
        rw [found] at stored
        cases stored
      | ok result =>
        obtain ⟨v₂, next⟩ := result
        rw [found] at stored
        have taken : (if next = 0 then (.error .driveFull : Except DirFault DirWriter)
            else .ok { volume := v₂, cluster := next, buf := fun _ => zeroRecord, offset := 0 }) = .ok w' := stored
        split at taken
        case isTrue => cases taken
        case isFalse used =>
          cases taken
          exact if_neg used
  · refine ⟨disk, ?_⟩
    unfold emplaceDirent at stored ⊢
    rw [if_neg full] at stored
    cases stored
    exact if_neg full

theorem emplaceDirents_withDisk {recs : List DirRecord} (disk : Nat -> DirSector)
    (stored : recs.foldlM (emplaceDirent g) w = .ok w') :
    ∃ disk', recs.foldlM (emplaceDirent g) (w.withDisk disk) = .ok (w'.withDisk disk') := by
  induction recs generalizing w disk with
  | nil =>
    cases stored
    exact ⟨disk, rfl⟩
  | cons r recs ih =>
    rw [foldlM_cons] at stored ⊢
    obtain ⟨w₁, first, rest⟩ := bind_eq_ok.mp stored
    obtain ⟨disk₁, first'⟩ := emplaceDirent_withDisk disk first
    obtain ⟨disk₂, rest'⟩ := ih disk₁ rest
    exact ⟨disk₂, bind_eq_ok.mpr ⟨_, first', rest'⟩⟩

namespace SameFiles

variable (same : SameFiles g v u)

include same

section

variable (dir : Directory g v chain d)
include dir

theorem clusterBuf_eq (member : c ∈ chain) : clusterBuf g u c = clusterBuf g v c := by
  have blocks : readBlocks u.disk (clusterBegin g c) g.clusterSize = readBlocks v.disk (clusterBegin g c) g.clusterSize :=
    readBlocks_congr fun s small => same.used c s (dir.links.inRange c member) (dir.links.entry_ne_zero member) small
  funext i
  rw [clusterBuf, clusterBuf, blocks]

theorem events_eq {clusters : List Nat} (inside : clusters ⊆ chain) : events g u clusters = events g v clusters :=
  events_congr fun c member => by rw [clusterRecords, clusterRecords, same.clusterBuf_eq dir (inside member)]

theorem directory : Directory g u chain d := by
  refine ⟨same.fat ▸ dir.links, dir.first, dir.cursor.of_same same.allocStart, dir.placed, ?_, ?_⟩
  · intro p i c q j e there there' small small' behind free
    rw [same.clusterBuf_eq dir (mem_of_getElem? there)] at free
    rw [same.clusterBuf_eq dir (mem_of_getElem? there')]
    exact dir.free p i c q j e there there' small small' behind free
  · rw [same.events_eq dir (List.Subset.refl _)]
    exact dir.complete

theorem dirEnd (ends : DirEnd g v chain p off c) : DirEnd g u chain p off c := by
  have buf := same.clusterBuf_eq dir (mem_of_getElem? ends.there)
  refine ⟨ends.there, ends.inside, ?_, ?_, ?_⟩
  · rw [same.events_eq dir (take_subset _ _)]
    exact ends.clusters
  · rw [buf]
    exact ends.records
  · rw [buf]
    exact ends.free

theorem created (ends : DirEnd g v chain p off c) (added : fat32AddDirent g v d name type = .ok v') :
    ∃ u', fat32AddDirent g u d name type = .ok u' := by
  unfold fat32AddDirent at added ⊢
  rw [dir.findEnd_eq ends] at added
  rw [(same.directory dir).findEnd_eq (same.dirEnd dir ends), same.clusterBuf_eq dir (mem_of_getElem? ends.there)]
  have within : NameInBlock name := by
    by_contra outside
    cases (if_neg outside).symm.trans added
  have emplaced := (if_pos within).symm.trans added
  obtain ⟨w, run, last⟩ := bind_eq_ok.mp emplaced
  obtain ⟨disk, run'⟩ := emplaceDirents_withDisk u.disk run
  have start : ({ volume := u, cluster := c, buf := clusterBuf g v c, offset := off } : DirWriter) =
      DirWriter.withDisk { volume := v, cluster := c, buf := clusterBuf g v c, offset := off } u.disk := by
    rw [DirWriter.withDisk, ← same.eq_withDisk]
  rw [start]
  show ∃ u', (if NameInBlock name then (newRecords name type).foldlM (emplaceDirent g) _ >>= _ else _) = _
  rw [if_pos within]
  by_cases begin : w.offset = 0
  · exact ⟨w.volume.withDisk disk, bind_eq_ok.mpr ⟨_, run', if_neg (not_not.mpr begin)⟩⟩
  cases stored : writeCluster g w.volume w.cluster w.buf with
  | error e =>
    rw [if_pos begin, stored] at last
    cases last
  | ok v₁ =>
    obtain ⟨disk', also⟩ := writeCluster_withDisk disk stored
    refine ⟨v₁.withDisk disk', bind_eq_ok.mpr ⟨_, run', (if_pos begin).trans ?_⟩⟩
    show lift (writeCluster g (w.volume.withDisk disk) w.cluster w.buf) = _
    rw [also]
    rfl

end

end SameFiles

def refill (g : Geometry) (v : Volume DirSector) (fill : Nat -> DirRecord) : Volume DirSector :=
  v.withDisk fun lba =>
    if g.dataBegin ≤ lba ∧ v.fat ((lba - g.dataBegin) / g.clusterSize + 2) = 0 then
      fun k => fill ((lba - g.dataBegin) % g.clusterSize * g.recordsPerSector + k)
    else v.disk lba

theorem cluster_of_sector {s : Nat} (placed : Placed g c) (small : s < g.clusterSize) :
    g.dataBegin ≤ clusterBegin g c + s ∧ (clusterBegin g c + s - g.dataBegin) / g.clusterSize + 2 = c ∧
      (clusterBegin g c + s - g.dataBegin) % g.clusterSize = s := by
  have two := placed.1
  rw [(clusterBegin_eq placed).1]
  have shift : (c - 2) * g.clusterSize + g.dataBegin + s - g.dataBegin = s + g.clusterSize * (c - 2) := by
    rw [Nat.mul_comm]
    omega
  refine ⟨by omega, ?_, ?_⟩
  · rw [shift, Nat.add_mul_div_left _ _ clusterSize_pos, Nat.div_eq_of_lt small]
    omega
  · rw [shift, Nat.add_mul_mod_self_left, Nat.mod_eq_of_lt small]

theorem sameFiles_refill (placed : ∀ c, InRange g c -> Placed g c) (fill : Nat -> DirRecord) :
    SameFiles g v (refill g v fill) := by
  refine ⟨rfl, rfl, fun c s range used small => ?_⟩
  obtain ⟨-, cluster, -⟩ := cluster_of_sector (placed c range) small
  apply if_neg
  rw [cluster]
  exact fun free => used free.2

theorem clusterRecords_refill (fill : Nat -> DirRecord) (placed : Placed g c) (free : v.fat c = 0) :
    clusterRecords g (refill g v fill) c = recordsFrom fill 0 g.entriesPerCluster := by
  apply recordsFrom_congr
  intro i _ small
  rw [Nat.zero_add] at small
  obtain ⟨behind, cluster, sector⟩ := cluster_of_sector placed (recordSector_lt small)
  rw [clusterBuf_eq small]
  show (if _ then _ else _ : DirSector) _ = _
  rw [if_pos ⟨behind, by rw [cluster]; exact free⟩]
  rw [sector, Nat.mul_comm, Nat.div_add_mod]

end insertion

end Bincows.Fat32
