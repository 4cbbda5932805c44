import Bincows.Sched.SharedMemory

set_option autoImplicit false

namespace Bincows.SharedMemory

open Keyed Tables Function List

variable {w w' : World} {ins : ShmInstance} {s : Shm} {dirs : Directories} {d : Nat -> Option Nat}
  {pid i j pd vaddr : Nat}

theorem slotAddress_eq (bound : i < 512) : slotAddress i = userSharedBegin + i * pageR1Size := by
  have small : i * pageR1Size < 2 ^ 40 := by
    unfold pageR1Size
    omega
  have sum := Nat.two_pow_add_eq_or_of_lt small 1
  rw [Nat.mul_one] at sum
  exact sum.symm

theorem slotAddress_inj (left : i < 512) (right : j < 512) (same : slotAddress i = slotAddress j) : i = j := by
  rw [slotAddress_eq left, slotAddress_eq right] at same
  unfold pageR1Size at same
  omega

theorem freeSlot_some {fuel : Nat} (found : freeSlot d fuel i = some j) : j < i + fuel ∧ d j = none := by
  induction fuel generalizing i with
  | zero => cases found
  | succ fuel ih =>
    unfold freeSlot at found
    split at found
    case isTrue free =>
      cases found
      exact ⟨by omega, free⟩
    case isFalse =>
      obtain ⟨bound, free⟩ := ih found
      exact ⟨by omega, free⟩

theorem slot_update (there : dirs pid = some d) (value : Option Nat) (p k : Nat) :
    Directories.slot (update dirs pid (some (update d i value))) p k = if p = pid ∧ k = i then value else dirs.slot p k := by
  by_cases here : p = pid
  · subst here
    by_cases same : k = i <;> simp [Directories.slot, there, same]
  · simp [Directories.slot, here]

theorem mapShm_some (maps : mapShm w pd pid = some (dirs, vaddr)) :
    ∃ i < 512, vaddr = slotAddress i ∧ w.dirs.slot pid i = none ∧
      (∀ p k, dirs.slot p k = if p = pid ∧ k = i then some pd else w.dirs.slot p k) ∧
      ∀ p, w.dirs p = none -> dirs p = none := by
  unfold mapShm at maps
  split at maps
  case h_1 => cases maps
  case h_2 d there =>
    split at maps
    case h_1 => cases maps
    case h_2 i found =>
      cases maps
      obtain ⟨bound, free⟩ := freeSlot_some found
      refine ⟨i, by omega, rfl, by simp [Directories.slot, there, free], slot_update there _, fun p missing => ?_⟩
      have other : p ≠ pid := by
        rintro rfl
        rw [there] at missing
        cases missing
      rw [update_of_ne other]
      exact missing

theorem unmapShm_ok (bound : i < 512) (returns : unmapShm w pid (slotAddress i) = .ok dirs) :
    (∀ p k, dirs.slot p k = if p = pid ∧ k = i then none else w.dirs.slot p k) ∧ ∀ p, w.dirs p = none -> dirs p = none := by
  have index : (slotAddress i - userSharedBegin) / pageR1Size = i := by
    rw [slotAddress_eq bound, Nat.add_sub_cancel_left, Nat.mul_div_cancel _ (by decide)]
  unfold unmapShm at returns
  split at returns
  case h_1 => cases returns
  case h_2 d there =>
    rw [index] at returns
    dsimp only at returns
    split_ifs at returns
    cases returns
    refine ⟨slot_update there _, fun p missing => ?_⟩
    have other : p ≠ pid := by
      rintro rfl
      rw [there] at missing
      cases missing
    rw [update_of_ne other]
    exact missing

structure Kept (w : World) : Prop where
  counted : Counted Shm.id Shm.nInsts ShmInstance.target w.shms w.instances
  slots : ∀ ins ∈ w.instances, ins.pid ≠ kernelPid -> ∃ s ∈ w.shms, s.id = ins.target ∧
    ∃ i < 512, ins.vaddr = slotAddress i ∧ w.dirs.slot ins.pid i = some s.pdPaddr
  mapped : ∀ pid i pd, w.dirs.slot pid i = some pd -> i < 512 ∧ ∃ ins ∈ w.instances, ins.pid = pid ∧ ins.vaddr = slotAddress i
  apart : ∀ a ∈ w.instances, ∀ b ∈ w.instances, a.pid ≠ kernelPid -> a.pid = b.pid -> a.vaddr = b.vaddr -> a = b
  bound : ∀ s ∈ w.shms, s.id ≤ w.cur
  pds : (w.shms.map Shm.pdPaddr).Nodup
  ptrs : (w.instances.map ShmInstance.ptr).Nodup
  fresh : ∀ ins ∈ w.instances, ins.ptr < w.nextPtr
  kernel : w.dirs kernelPid = none
  freed : ∀ f ∈ w.freed, ∀ pid i, f.dirs.slot pid i ≠ some f.pd

theorem Kept.shared (kept : Kept w) : Shared w := { kept, kept.counted with }

theorem Kept.files (kept : Kept w) (files : List Memfsf) : Kept { w with files } := { kept with }

theorem start_kept : Kept start where
  counted := ⟨nodup_nil, nofun, nofun, nofun⟩
  slots := nofun
  mapped := fun _ _ _ => nofun
  apart := nofun
  bound := nofun
  pds := nodup_nil
  ptrs := nodup_nil
  fresh := nofun
  kernel := rfl
  freed := nofun

theorem Kept.mapped_target (kept : Kept w) (member : s ∈ w.shms) (there : w.dirs.slot pid i = some s.pdPaddr) :
    ∃ ins ∈ w.instances, ins.pid = pid ∧ pid ≠ kernelPid ∧ ins.target = s.id := by
  obtain ⟨bound, ins, inside, here, address⟩ := kept.mapped pid i _ there
  have user : pid ≠ kernelPid := by
    rintro rfl
    rw [Directories.slot, kept.kernel] at there
    cases there
  obtain ⟨s', known, target, k, small, address', value⟩ := kept.slots ins inside (here ▸ user)
  have index := slotAddress_inj bound small (address.symm.trans address')
  subst index
  rw [here, there] at value
  have same : s' = s := Keyed.unique kept.pds known member (Option.some.inj value).symm
  exact ⟨ins, inside, here, user, same ▸ target.symm⟩

theorem Kept.new_ptrs (kept : Kept w) (ins : ShmInstance) (at' : ins.ptr = w.nextPtr) :
    ((w.instances ++ [ins]).map ShmInstance.ptr).Nodup ∧ ∀ x ∈ w.instances ++ [ins], x.ptr < w.nextPtr + 1 := by
  constructor
  · exact kept.ptrs.map_concat fun x inside => at' ▸ (kept.fresh x inside).ne
  · exact forall_mem_concat (fun x old => Nat.lt_succ_of_lt (kept.fresh x old)) (at' ▸ Nat.lt_succ_self _)

theorem shmCreateFromKernel_kept {initialSize : Nat} {pfree : Bool} (kept : Kept w)
    (new : ∀ s ∈ w.shms, s.pdPaddr ≠ pd) : Kept (shmCreateFromKernel w initialSize pd pfree) := by
  unfold shmCreateFromKernel
  split
  case isTrue => exact kept
  case isFalse =>
    refine
      { counted := kept.counted.insert (fun s member => ?_) rfl rfl
        slots := fun ins member user => ?_
        mapped := fun p k v there => ?_
        apart := fun a first b second user same address => ?_
        bound := fun s member => ?_
        pds := ?_
        ptrs := (kept.new_ptrs _ rfl).1
        fresh := (kept.new_ptrs _ rfl).2
        kernel := kept.kernel
        freed := kept.freed }
    · have := kept.bound s member
      dsimp only
      omega
    · rcases mem_concat.mp member with old | rfl
      · obtain ⟨s, known, rest⟩ := kept.slots ins old user
        exact ⟨s, mem_append_left _ known, rest⟩
      · exact absurd rfl user
    · obtain ⟨small, ins, inside, rest⟩ := kept.mapped p k v there
      exact ⟨small, ins, mem_append_left _ inside, rest⟩
    · rcases mem_concat.mp first with old | rfl
      · rcases mem_concat.mp second with old' | rfl
        · exact kept.apart a old b old' user same address
        · exact absurd same user
      · exact absurd rfl user
    · rcases mem_concat.mp member with old | rfl
      · exact Nat.le_succ_of_le (kept.bound s old)
      · exact le_rfl
    · exact kept.pds.map_concat new

variable {f : Shm -> Shm} {shms : List Shm} {id : Nat}

theorem mem_count (ids : (shms.map Shm.id).Nodup)
    (keeps : ∀ s, (f s).id = s.id ∧ (f s).pdPaddr = s.pdPaddr) (member : s ∈ shms) :
    ∃ s' ∈ modify Shm.id id f shms, s'.id = s.id ∧ s'.pdPaddr = s.pdPaddr := by
  by_cases here : s.id = id
  · exact ⟨f s, (Counted.mem_modify ids).mpr (.inr ⟨s, member, here, rfl⟩), keeps s⟩
  · exact ⟨s, (Counted.mem_modify ids).mpr (.inl ⟨member, here⟩), rfl, rfl⟩

theorem map_count {B : Type} (field : Shm -> B) (ids : (shms.map Shm.id).Nodup)
    (keeps : ∀ s, field (f s) = field s) : (modify Shm.id id f shms).map field = shms.map field := by
  rw [modify_eq_map ids, map_map]
  refine map_congr_left fun s _ => ?_
  rw [comp_apply]
  split
  · exact keeps s
  · rfl

theorem count_origin (ids : (shms.map Shm.id).Nodup)
    (keeps : ∀ s, (f s).id = s.id ∧ (f s).pdPaddr = s.pdPaddr) (member : s ∈ modify Shm.id id f shms) :
    ∃ old ∈ shms, old.id = s.id ∧ old.pdPaddr = s.pdPaddr := by
  rcases (Counted.mem_modify ids).mp member with ⟨old, -⟩ | ⟨s', old, -, rfl⟩
  · exact ⟨s, old, rfl, rfl⟩
  · exact ⟨s', old, (keeps s').1.symm, (keeps s').2.symm⟩

theorem shmOpen_kept (kept : Kept w) : Kept (shmOpen w id pid).1 := by
  unfold shmOpen
  split
  case h_1 => exact kept
  case h_2 s found =>
    obtain ⟨known, rfl⟩ := lookup_some found
    split
    case h_1 => exact kept
    case h_2 dirs vaddr maps =>
      obtain ⟨i, small, rfl, free, slot, absent⟩ := mapShm_some maps
      have user : pid ≠ kernelPid := by
        rintro rfl
        rw [mapShm, kept.kernel] at maps
        cases maps
      -- the slot of the new instance was not that of another
      have other : ∀ ins ∈ w.instances, ins.pid = pid -> ins.vaddr ≠ slotAddress i := by
        intro ins inside here address
        obtain ⟨s', -, -, k, bound, address', value⟩ := kept.slots ins inside (here ▸ user)
        rw [slotAddress_inj small bound (address.symm.trans address'), ← here] at free
        rw [free] at value
        cases value
      have pds : w.shms.map Shm.pdPaddr = (modify Shm.id s.id Shm.addInst w.shms).map Shm.pdPaddr :=
        (map_count (f := Shm.addInst) Shm.pdPaddr kept.counted.ids fun _ => rfl).symm
      have bound : ∀ s' ∈ modify Shm.id s.id Shm.addInst w.shms, s'.id ≤ w.cur := by
        intro s' member
        obtain ⟨old, known', same, -⟩ := count_origin (f := Shm.addInst) kept.counted.ids (fun _ => ⟨rfl, rfl⟩) member
        exact same ▸ kept.bound old known'
      unfold newInstance
      refine
        { counted := kept.counted.acquire (fun _ => rfl) (fun _ => rfl) known rfl
          slots := fun ins member user => ?_
          mapped := fun p k v there => ?_
          apart := fun a first b second user same address => ?_
          bound := bound
          pds := pds ▸ kept.pds
          ptrs := (kept.new_ptrs _ rfl).1
          fresh := (kept.new_ptrs _ rfl).2
          kernel := absent _ kept.kernel
          freed := kept.freed }
      · rcases mem_concat.mp member with old | rfl
        · obtain ⟨s', known', target, k, bound, address, value⟩ := kept.slots ins old user
          obtain ⟨s'', known'', id, pd⟩ := mem_count (f := Shm.addInst) kept.counted.ids (fun _ => ⟨rfl, rfl⟩) known'
          refine ⟨s'', known'', id.trans target, k, bound, address, ?_⟩
          have apart : ¬ (ins.pid = pid ∧ k = i) := fun ⟨here, same⟩ => other ins old here (same ▸ address)
          rw [slot, if_neg apart, pd]
          exact value
        · obtain ⟨s', known', id, pd⟩ := mem_count (f := Shm.addInst) kept.counted.ids (fun _ => ⟨rfl, rfl⟩) known
          refine ⟨s', known', id, i, small, rfl, ?_⟩
          rw [slot, if_pos ⟨rfl, rfl⟩, pd]
      · rw [slot] at there
        split at there
        case isTrue here =>
          obtain ⟨rfl, rfl⟩ := here
          exact ⟨small, _, mem_concat_self, rfl, rfl⟩
        case isFalse =>
          obtain ⟨bound, ins, inside, rest⟩ := kept.mapped p k v there
          exact ⟨bound, ins, mem_append_left _ inside, rest⟩
      · rcases mem_concat.mp first with old | rfl
        · rcases mem_concat.mp second with old' | rfl
          · exact kept.apart a old b old' user same address
          · exact absurd address (other a old same)
        · rcases mem_concat.mp second with old' | rfl
          · exact absurd address.symm (other b old' same.symm)
          · rfl

structure Unmaps (w : World) (ins : ShmInstance) (dirs : Directories) : Prop where
  gone : ∀ p k v, dirs.slot p k = some v -> w.dirs.slot p k = some v ∧ ¬ (ins.pid = p ∧ ins.vaddr = slotAddress k)
  stay : ∀ p k v, w.dirs.slot p k = some v -> ¬ (ins.pid = p ∧ ins.vaddr = slotAddress k) -> dirs.slot p k = some v
  kernel : dirs kernelPid = none

theorem Kept.unmaps (kept : Kept w) (member : ins ∈ w.instances)
    (returns : unmapInstance w ins = .ok dirs) : Unmaps w ins dirs := by
  unfold unmapInstance at returns
  split at returns
  case isTrue own =>
    cases returns
    refine ⟨fun p k v there => ⟨there, ?_⟩, fun p k v there _ => there, kept.kernel⟩
    rintro ⟨rfl, -⟩
    rw [own, Directories.slot, kept.kernel] at there
    cases there
  case isFalse user =>
    obtain ⟨s, -, -, i, small, address, -⟩ := kept.slots ins member user
    rw [address] at returns
    obtain ⟨slot, absent⟩ := unmapShm_ok small returns
    refine ⟨fun p k v there => ?_, fun p k v there other => ?_, absent _ kept.kernel⟩
    · rw [slot] at there
      split at there
      case isTrue => cases there
      case isFalse other =>
        refine ⟨there, fun ⟨here, same⟩ => other ⟨here.symm, ?_⟩⟩
        exact slotAddress_inj (kept.mapped p k v there).1 small (same.symm.trans address)
    · rw [slot, if_neg]
      · exact there
      · rintro ⟨here, rfl⟩
        exact other ⟨here.symm, address⟩

variable {ptr : Nat}

theorem Kept.close {freed : List Freed} (kept : Kept w) (found : lookup ShmInstance.ptr w.instances ptr = some ins)
    (counted : Counted Shm.id Shm.nInsts ShmInstance.target shms (remove ShmInstance.ptr ptr w.instances))
    (origin : ∀ s ∈ shms, ∃ old ∈ w.shms, old.id = s.id ∧ old.pdPaddr = s.pdPaddr)
    (pds : (shms.map Shm.pdPaddr).Nodup) (unmaps : Unmaps w ins dirs)
    (freed' : ∀ f ∈ freed, ∀ pid i, f.dirs.slot pid i ≠ some f.pd) :
    Kept { w with shms, freed, dirs, instances := remove ShmInstance.ptr ptr w.instances } := by
  obtain ⟨member, here⟩ := lookup_some found
  have left : ∀ x, x ∈ remove ShmInstance.ptr ptr w.instances ↔ x ∈ w.instances ∧ x.ptr ≠ ptr := fun x =>
    mem_remove kept.ptrs
  refine
    { counted
      slots := fun x inside user => ?_
      mapped := fun p k v there => ?_
      apart := fun a first b second => kept.apart a ((left a).mp first).1 b ((left b).mp second).1
      bound := fun s known => ?_
      pds
      ptrs := nodup_remove kept.ptrs
      fresh := fun x inside => kept.fresh x ((left x).mp inside).1
      kernel := unmaps.kernel
      freed := freed' }
  · obtain ⟨old, other⟩ := (left x).mp inside
    obtain ⟨s, known, target, i, small, address, value⟩ := kept.slots x old user
    obtain ⟨s', known', target'⟩ := counted.live x inside
    obtain ⟨s'', known'', id, pd⟩ := origin s' known'
    have same : s'' = s := Keyed.unique kept.counted.ids known'' known (id.trans (target'.trans target.symm))
    refine ⟨s', known', target', i, small, address, ?_⟩
    rw [← pd, same]
    refine unmaps.stay _ _ _ value fun ⟨pid, vaddr⟩ => other ?_
    rw [kept.apart x old ins member user pid.symm (address.trans vaddr.symm), here]
  · obtain ⟨there', notOwn⟩ := unmaps.gone p k v there
    obtain ⟨small, x, inside, pid, address⟩ := kept.mapped p k v there'
    refine ⟨small, x, (left x).mpr ⟨inside, fun same => notOwn ?_⟩, pid, address⟩
    have equal : x = ins := Keyed.unique kept.ptrs inside member (same.trans here.symm)
    exact equal ▸ ⟨pid, address⟩
  · obtain ⟨old, known', same, -⟩ := origin s known
    exact same ▸ kept.bound old known'

theorem shmIndex_modify {k : Nat} (ids : (shms.map Shm.id).Nodup)
    (keeps : ∀ s, (f s).id = s.id) : shmIndex (modify Shm.id k f shms) id = shmIndex shms id := by
  have through : ∀ xs : List Shm, shmIndex xs id = (xs.map Shm.id).findIdx fun j => j = id := fun xs => by
    rw [findIdx_map]
    rfl
  rw [through, through, map_count Shm.id ids keeps]

theorem dropInst_keeps (s : Shm) : s.dropInst.id = s.id ∧ s.dropInst.pdPaddr = s.pdPaddr :=
  ⟨rfl, rfl⟩

theorem Kept.dropped_pds (kept : Kept w) (k : Nat) : ((modify Shm.id k Shm.dropInst w.shms).map Shm.pdPaddr).Nodup := by
  rw [map_count Shm.pdPaddr kept.counted.ids fun s => (dropInst_keeps s).2]
  exact kept.pds

section

variable (kept : Kept w) (found : lookup ShmInstance.ptr w.instances ptr = some ins)
  (inside : s ∈ w.shms) (target : s.id = ins.target)
include kept found inside target

theorem Kept.close_several (several : 1 < s.nInsts) (unmaps : Unmaps w ins dirs) :
    Kept { w with
      shms := modify Shm.id s.id Shm.dropInst w.shms, dirs, instances := remove ShmInstance.ptr ptr w.instances } :=
  kept.close found (kept.counted.release (fun _ => rfl) (fun _ => rfl) found inside target several)
    (fun _ member => count_origin kept.counted.ids dropInst_keeps member) (kept.dropped_pds _) unmaps kept.freed

theorem Kept.close_last (single : s.nInsts = 1) (own : ins.pid = kernelPid)
    (notLast : shmIndex w.shms s.id + 1 ≠ w.shms.length) (unmaps : Unmaps w ins dirs) :
    Kept { w with
      shms := removeShm (modify Shm.id s.id Shm.dropInst w.shms) s.id
      freed := w.freed ++ [{ pd := s.pdPaddr, dirs := w.dirs }]
      dirs
      instances := remove ShmInstance.ptr ptr w.instances } := by
  have ids := kept.counted.ids
  have known := lookup_of_mem ids inside
  have dropped : lookup Shm.id (modify Shm.id s.id Shm.dropInst w.shms) s.id = some s.dropInst := by
    rw [lookup_modify (fun s => (dropInst_keeps s).1), if_pos rfl, known]
    rfl
  have counted := kept.counted.discard found inside target single
  -- the record that is moved over the closed one
  have index := find?_eq_getElem?_findIdx.symm.trans dropped
  have moved : removeShm (modify Shm.id s.id Shm.dropInst w.shms) s.id =
      swapRemove (modify Shm.id s.id Shm.dropInst w.shms) (shmIndex (modify Shm.id s.id Shm.dropInst w.shms) s.id) := by
    have length : (modify Shm.id s.id Shm.dropInst w.shms).length = w.shms.length := by
      rw [modify_eq_map ids, length_map]
    rw [removeShm, if_pos]
    rw [shmIndex_modify ids fun s => (dropInst_keeps s).1, length]
    exact notLast
  have same : (remove Shm.id s.id w.shms).Perm (removeShm (modify Shm.id s.id Shm.dropInst w.shms) s.id) := by
    rw [moved]
    exact (perm_cons s.dropInst).mp ((modify_perm Shm.dropInst known).symm.trans (swapRemove_perm index))
  refine kept.close found (counted.perm same) (fun s' member => ?_) ?_ unmaps fun f member p k there => ?_
  · rw [moved] at member
    exact count_origin ids dropInst_keeps (mem_of_swapRemove index member)
  · rw [moved]
    exact (nodup_swapRemove Shm.pdPaddr index (kept.dropped_pds _)).1
  · rcases mem_concat.mp member with old | rfl
    · exact kept.freed f old p k there
    · obtain ⟨x, present, here, user, target'⟩ := kept.mapped_target inside there
      have other : x.ptr ≠ ptr := by
        intro same
        have equal : x = ins := Keyed.unique kept.ptrs present (lookup_some found).1 (same.trans (lookup_some found).2.symm)
        exact user (here ▸ equal ▸ own)
      obtain ⟨s', left, id⟩ := counted.live x ((mem_remove kept.ptrs).mpr ⟨present, other⟩)
      exact ((mem_remove ids).mp left).2 (id.trans target')

end

theorem shmClose_kept (kept : Kept w) (proper : Proper w (.close ptr)) (returns : shmClose w ptr = .ok w') : Kept w' := by
  unfold shmClose at returns
  split at returns
  case h_1 => cases returns
  case h_2 ins found =>
    split at returns
    case h_1 => cases returns
    case h_2 s known =>
      obtain ⟨inside, target⟩ := lookup_some known
      split at returns
      case isTrue => cases returns
      case isFalse positive =>
        obtain ⟨dirs, unmapped, rest⟩ := bind_eq_ok.mp returns
        cases rest
        have member := (lookup_some found).1
        unfold releaseShm at unmapped ⊢
        by_cases last : s.nInsts - 1 = 0
        · have single : s.nInsts = 1 := by omega
          obtain ⟨own, notLast⟩ := proper ins s found known single
          simp only [if_pos last] at unmapped ⊢
          exact kept.close_last found inside target single own notLast (kept.unmaps member unmapped)
        · simp only [if_neg last] at unmapped ⊢
          exact kept.close_several found inside target (by omega) (kept.unmaps member unmapped)

theorem setInstances_kept (kept : Kept w) (id : Nat) (instances : List FileInstance) : Kept (setInstances w id instances) :=
  kept.files _

variable {addr hid : Nat}

section

variable (kept : Kept w)
include kept

theorem memfsOpenInstance_kept (returns : memfsOpenInstance w addr hid pid = .ok w') : Kept w' := by
  unfold memfsOpenInstance at returns
  split at returns
  case h_1 => cases returns
  case h_2 file _ =>
    split at returns
    case isTrue =>
      cases returns
      exact kept
    case isFalse =>
      have opened : Kept (shmOpen w addr pid).1 := shmOpen_kept kept
      dsimp only at returns
      split at returns
      · cases returns
        exact setInstances_kept opened _ _
      · cases returns

theorem spawn_kept (user : pid ≠ kernelPid) (new : w.dirs pid = none) :
    Kept { w with dirs := update w.dirs pid (some fun _ => none) } := by
  have slot : ∀ p k, Directories.slot (update w.dirs pid (some fun _ => none)) p k = w.dirs.slot p k := by
    intro p k
    by_cases here : p = pid
    · subst here
      simp [Directories.slot, new]
    · simp [Directories.slot, here]
  refine { kept with slots := ?_, mapped := ?_, kernel := ?_ }
  · simpa only [slot] using kept.slots
  · simpa only [slot] using kept.mapped
  · exact (update_of_ne user.symm _ _).trans kept.kernel

theorem exit_kept (closed : ∀ ins ∈ w.instances, ins.pid ≠ pid) : Kept { w with dirs := update w.dirs pid none } := by
  have slot : ∀ p k, Directories.slot (update w.dirs pid none) p k = if p = pid then none else w.dirs.slot p k := by
    intro p k
    by_cases here : p = pid <;> simp [Directories.slot, here]
  refine { kept with slots := fun ins member user => ?_, mapped := fun p k v there => ?_, kernel := ?_ }
  · simpa only [slot, if_neg (closed ins member)] using kept.slots ins member user
  · rw [slot] at there
    split at there
    · cases there
    · exact kept.mapped p k v there
  · simp [update_apply, kept.kernel]

theorem addDirent_kept {dirAddr : Nat} {name : String} {regular : Bool} (refused : dirAddr ≠ 0 ∨ regular = false)
    (returns : addDirent w dirAddr name regular pid pd = .ok w') : Kept w' := by
  unfold addDirent at returns
  split at returns
  · cases returns
  · rw [if_pos (refused.imp_right fun irregular => by rw [irregular]; rfl)] at returns
    cases returns
    exact kept

theorem closeInstance_kept (returns : closeInstance w addr hid = .ok w') : Kept w' := by
  unfold closeInstance at returns
  split at returns
  · cases returns
  · dsimp only at returns
    split at returns <;> cases returns
    exact setInstances_kept kept _ _

theorem closeFile_kept (returns : closeFile w addr = .ok w') : Kept w' := by
  unfold closeFile at returns
  split at returns
  · cases returns
  · split_ifs at returns <;> cases returns
    · exact kept
    · exact kept.files _

theorem perform_kept {action : Action} (allowed : Allowed w action) (proper : Proper w action)
    (returns : perform w action = .ok w') : Kept w' := by
  cases action with
  | createFromKernel initialSize pd pfree =>
    cases returns
    exact shmCreateFromKernel_kept kept allowed
  | create initialSize pid pd =>
    cases returns
    have fails : initialSize = 0 ∨ shmSizeMax < initialSize ∨ pd = 0 := proper
    rw [shmCreate, if_pos fails]
    exact kept
  | openShm id pid =>
    cases returns
    exact shmOpen_kept kept
  | close ptr => exact shmClose_kept kept proper returns
  | registerFile name id =>
    cases returns
    exact kept.files _
  | addDirent dirAddr name regular pid pd => exact addDirent_kept kept proper returns
  | openInstance addr hid pid => exact memfsOpenInstance_kept kept returns
  | closeInstance addr hid => exact closeInstance_kept kept returns
  | closeFile addr => exact closeFile_kept kept returns
  | spawn pid =>
    cases returns
    exact spawn_kept kept allowed.1 allowed.2
  | exit pid =>
    cases returns
    exact exit_kept kept allowed

end

theorem proper_runs_shared (run : Relation.ReflTransGen ProperStep start w) : Shared w := by
  have kept : Kept w := run.invariant Kept start_kept fun _ _ kept ⟨_, allowed, proper, returns⟩ =>
    perform_kept kept allowed proper returns
  exact kept.shared

-- Two objects of the kernel; process 1 opens the first twice, once as a file, and closes it; the kernel closes it last.
theorem proper_runs_shared_kernel :
    ∃ w, Relation.ReflTransGen ProperStep start w ∧ w.shms.map Shm.id = [2] ∧ w.freed.length = 1 ∧ Shared w := by
  have run := Relation.ReflTransGen.refl (r := ProperStep) (a := start)
    |>.tail ⟨.createFromKernel 1 4096 false, nofun, trivial, rfl⟩
    |>.tail ⟨.createFromKernel 1 8192
      false, by simp [Allowed, start, shmCreateFromKernel, shmSizeMax, newInstance, insertShm],
      trivial, rfl⟩
    |>.tail ⟨.registerFile "fb" 1, trivial, trivial, rfl⟩
    |>.tail ⟨.spawn 1, ⟨by decide, rfl⟩, trivial, rfl⟩
    |>.tail ⟨.openInstance 1 7 1, trivial, trivial, rfl⟩
    |>.tail ⟨.openShm 1 1, trivial, trivial, rfl⟩
    |>.tail ⟨.closeInstance 1 7, trivial, trivial, rfl⟩
    |>.tail ⟨.close 2, trivial, by rintro _ _ ⟨⟩ ⟨⟩ ⟨⟩, rfl⟩
    |>.tail ⟨.close 3, trivial, by rintro _ _ ⟨⟩ ⟨⟩ ⟨⟩, rfl⟩
    |>.tail ⟨.close 0, trivial, by rintro _ _ ⟨⟩ ⟨⟩ -; exact ⟨rfl, by decide⟩, rfl⟩
  exact ⟨_, run, rfl, rfl, proper_runs_shared run⟩

theorem sharing_breaks :
    (∃ w, Relation.ReflTransGen Step start w ∧ ∃ ins ∈ w.instances, ins.pid ≠ kernelPid ∧
      ins.vaddr = 0) ∧ (∃ w, Relation.ReflTransGen Step start w ∧ ∃ s ∈ w.shms, s.nInsts = 0) ∧
      ∃ w, Relation.ReflTransGen Step start w ∧ ∃ f ∈ w.freed, f.dirs.slot 1 0 = some f.pd := by
  refine ⟨?_, ?_, ?_⟩
  · have run := Relation.ReflTransGen.refl (r := Step) (a := start)
      |>.tail ⟨.spawn 1, ⟨by decide, rfl⟩, rfl⟩
      |>.tail ⟨.create 1 1 4096, nofun, rfl⟩
    exact ⟨_, run, _, mem_singleton.mpr rfl, by decide, rfl⟩
  · have run := Relation.ReflTransGen.refl (r := Step) (a := start)
      |>.tail ⟨.createFromKernel 1 4096 false, nofun, rfl⟩
      |>.tail ⟨.close 0, trivial, rfl⟩
    exact ⟨_, run, _, mem_singleton.mpr rfl, rfl⟩
  · have run := Relation.ReflTransGen.refl (r := Step) (a := start)
      |>.tail ⟨.createFromKernel 1 4096 false, nofun, rfl⟩
      |>.tail ⟨.spawn 1, ⟨by decide, rfl⟩, rfl⟩
      |>.tail ⟨.openShm 1 1, trivial, rfl⟩
      |>.tail ⟨.close 0, trivial, rfl⟩
      |>.tail ⟨.close 1, trivial, rfl⟩
    exact ⟨_, run, _, mem_singleton.mpr rfl, rfl⟩

end Bincows.SharedMemory
