import Bincows.Memory.PageTables
import Bincows.Sched.ReadyQueue

set_option autoImplicit false

/-! The two PML4 slots of user processes, over `map_master_region`. `Shows pml4 view`: the slots hold the page directories
`view`, or nothing. The TLB is left out. -/

namespace Bincows.Sched

open Function

open Bincows.Paging (createTableEntry extractPointer pml4Offset presentFlag plRW plUS)

def kernelPid : Nat := 0

def plXD : BitVec 64 := 0x8000000000000000

def privateBase : BitVec 64 := 0x0000000000000000

def sharedBase : BitVec 64 := 0x0000010000000000

def privateFlags : BitVec 64 := presentFlag ||| plRW ||| plUS

def sharedFlags : BitVec 64 := presentFlag ||| plRW ||| plUS ||| plXD

structure MemMap where
  privatePd : BitVec 64
  sharedPd : BitVec 64
  deriving DecidableEq

-- The entries of the PML4, by index.
abbrev Pml4 : Type := Nat -> BitVec 64

def mapMasterRegion (pml4 : Pml4) (base pd flags : BitVec 64) : Except Fault Pml4 :=
  match createTableEntry pd flags with
  | .ok entry => .ok (update pml4 (pml4Offset base) entry)
  | .error _ => .error .unalignedPd

def unmapMasterRegion (pml4 : Pml4) (base : BitVec 64) : Except Fault Pml4 :=
  mapMasterRegion pml4 base 0 0

def getMasterPd (pml4 : Pml4) (base : BitVec 64) : BitVec 64 :=
  extractPointer (pml4 (pml4Offset base))

def userMap (pml4 : Pml4) (map : MemMap) : Except Fault Pml4 :=
  if getMasterPd pml4 privateBase = map.privatePd then .error .alreadyMapped
  else if getMasterPd pml4 sharedBase = map.sharedPd then .error .alreadyMapped
  else do
    let pml4 ← mapMasterRegion pml4 privateBase map.privatePd privateFlags
    mapMasterRegion pml4 sharedBase map.sharedPd sharedFlags

-- `none` stands for the argument `NULL`: whether any process is mapped.
def isProcessMapped (pml4 : Pml4) (proc : Option MemMap) : Except Fault Bool :=
  let procPrivatePd := match proc with | some map => map.privatePd | none => 0
  let procSharedPd := match proc with | some map => map.sharedPd | none => 0
  let mappedPrivate := getMasterPd pml4 privateBase == procPrivatePd
  let mappedShared := getMasterPd pml4 sharedBase == procSharedPd
  if mappedPrivate ≠ mappedShared then .error .halfMapped
  else if proc.isSome then .ok mappedPrivate else .ok (!mappedPrivate)

def processMap (pml4 : Pml4) (map : MemMap) : Except Fault Pml4 := userMap pml4 map

def processUnmap (pml4 : Pml4) : Except Fault Pml4 :=
  if getMasterPd pml4 privateBase = 0 then .error .notMapped
  else if getMasterPd pml4 sharedBase = 0 then .error .notMapped
  else do
    let pml4 ← unmapMasterRegion pml4 privateBase
    unmapMasterRegion pml4 sharedBase

def mapSelected (pml4 : Pml4) (currentPid pid : Nat) (map : MemMap) : Except Fault Pml4 :=
  if pid ≠ currentPid then do
    let pml4 ← if ← isProcessMapped pml4 none then processUnmap pml4 else .ok pml4
    if pid ≠ 0 then processMap pml4 map else .ok pml4
  else if pid ≠ kernelPid then do
    if ← isProcessMapped pml4 (some map) then .ok pml4
    else if ← isProcessMapped pml4 none then .error .anotherMapped
    else processMap pml4 map
  else do
    if ← isProcessMapped pml4 none then .error .anotherMapped else .ok pml4

-- What `create_empty_pd` returns: a page frame other than frame 0.
structure MemMap.Valid (map : MemMap) : Prop where
  privateFrame : extractPointer map.privatePd = map.privatePd
  sharedFrame : extractPointer map.sharedPd = map.sharedPd
  privateNonzero : map.privatePd ≠ 0
  sharedNonzero : map.sharedPd ≠ 0

def MemMap.Apart (map other : MemMap) : Prop :=
  map.privatePd ≠ other.privatePd ∧ map.sharedPd ≠ other.sharedPd

def privateSlot (view : Option MemMap) : BitVec 64 :=
  match view with
  | some map => privateFlags ||| map.privatePd
  | none => 0

def sharedSlot (view : Option MemMap) : BitVec 64 :=
  match view with
  | some map => sharedFlags ||| map.sharedPd
  | none => 0

def Shows (pml4 : Pml4) (view : Option MemMap) : Prop :=
  pml4 (pml4Offset privateBase) = privateSlot view ∧ pml4 (pml4Offset sharedBase) = sharedSlot view

theorem slots_differ : pml4Offset privateBase ≠ pml4Offset sharedBase := by decide

variable {pml4 : Pml4}

variable {map : MemMap}

theorem masterPd_some (valid : map.Valid) (shows : Shows pml4 (some map)) :
    getMasterPd pml4 privateBase = map.privatePd ∧ getMasterPd pml4 sharedBase = map.sharedPd := by
  rw [getMasterPd, getMasterPd, shows.1, shows.2]
  exact ⟨Paging.extractPointer_or (by decide) valid.privateFrame, Paging.extractPointer_or (by decide) valid.sharedFrame⟩

theorem masterPd_none (shows : Shows pml4 none) : getMasterPd pml4 privateBase = 0 ∧ getMasterPd pml4 sharedBase = 0 := by
  rw [getMasterPd, getMasterPd, shows.1, shows.2]
  exact ⟨by decide, by decide⟩

variable {view : Option MemMap}

theorem isProcessMapped_any (valid : ∀ map ∈ view, map.Valid)
    (shows : Shows pml4 view) : isProcessMapped pml4 none = .ok view.isSome := by
  cases view with
  | none =>
    obtain ⟨noPrivate, noShared⟩ := masterPd_none shows
    simp [isProcessMapped, noPrivate, noShared]
  | some map =>
    obtain ⟨isPrivate, isShared⟩ := masterPd_some (valid map rfl) shows
    have privateNonzero : map.privatePd ≠ 0#64 := (valid map rfl).privateNonzero
    have sharedNonzero : map.sharedPd ≠ 0#64 := (valid map rfl).sharedNonzero
    simp [isProcessMapped, isPrivate, isShared, privateNonzero, sharedNonzero]

theorem isProcessMapped_same (valid : map.Valid)
    (shows : Shows pml4 (some map)) : isProcessMapped pml4 (some map) = .ok true := by
  obtain ⟨isPrivate, isShared⟩ := masterPd_some valid shows
  simp [isProcessMapped, isPrivate, isShared]

theorem mapMasterRegion_eq (pml4 : Pml4) (base : BitVec 64) {pd : BitVec 64} (flags : BitVec 64)
    (frame : extractPointer pd = pd) :
    mapMasterRegion pml4 base pd flags = .ok (update pml4 (pml4Offset base) (flags ||| pd)) := by
  have made : createTableEntry pd flags = .ok (flags ||| pd) := if_neg (not_not.2 (Paging.aligned_of_canonical frame))
  rw [mapMasterRegion, made]

def userSlots (pml4 : Pml4) (view : Option MemMap) : Pml4 :=
  update (update pml4 (pml4Offset privateBase) (privateSlot view)) (pml4Offset sharedBase) (sharedSlot view)

theorem userSlots_shows (pml4 : Pml4) (view : Option MemMap) : Shows (userSlots pml4 view) view := by
  refine ⟨?_, update_self ..⟩
  rw [userSlots, update_of_ne slots_differ, update_self]

theorem userSlots_other (pml4 : Pml4) (view : Option MemMap) {i : Nat} (notPrivate : i ≠ pml4Offset privateBase)
    (notShared : i ≠ pml4Offset sharedBase) : userSlots pml4 view i = pml4 i := by
  rw [userSlots, update_of_ne notShared, update_of_ne notPrivate]

theorem userSlots_of_shows (shows : Shows pml4 view) : userSlots pml4 view = pml4 := by
  rw [userSlots, ← shows.1, ← shows.2, update_eq_self, update_eq_self]

theorem userSlots_userSlots (pml4 : Pml4) (view other : Option MemMap) :
    userSlots (userSlots pml4 view) other = userSlots pml4 other := by
  unfold userSlots
  rw [update_comm slots_differ.symm, update_idem, update_idem]

section apart

variable {view : Option MemMap} {map : MemMap} (valid : map.Valid) (shows : Shows pml4 view)
  (validView : ∀ other ∈ view, other.Valid) (apart : ∀ other ∈ view, other.Apart map)
include valid shows validView apart

-- No process other than the one shown has its directories in the slots.
theorem masterPd_apart : getMasterPd pml4 privateBase ≠ map.privatePd ∧ getMasterPd pml4 sharedBase ≠ map.sharedPd := by
  cases view with
  | none =>
    obtain ⟨noPrivate, noShared⟩ := masterPd_none shows
    rw [noPrivate, noShared]
    exact ⟨valid.privateNonzero.symm, valid.sharedNonzero.symm⟩
  | some other =>
    obtain ⟨isPrivate, isShared⟩ := masterPd_some (validView other rfl) shows
    rw [isPrivate, isShared]
    exact apart other rfl

theorem isProcessMapped_other : isProcessMapped pml4 (some map) = .ok false := by
  obtain ⟨notPrivate, notShared⟩ := masterPd_apart valid shows validView apart
  simp [isProcessMapped, notPrivate, notShared]

theorem processMap_eq : processMap pml4 map = .ok (userSlots pml4 (some map)) := by
  obtain ⟨notPrivate, notShared⟩ := masterPd_apart valid shows validView apart
  rw [processMap, userMap, if_neg notPrivate, if_neg notShared, mapMasterRegion_eq _ _ _ valid.privateFrame]
  exact mapMasterRegion_eq _ _ _ valid.sharedFrame

theorem processMap_shows : ∃ pml4', processMap pml4 map = .ok pml4' ∧ Shows pml4' (some map) :=
  ⟨_, processMap_eq valid shows validView apart, userSlots_shows pml4 (some map)⟩

end apart

theorem processUnmap_eq (valid : map.Valid)
    (shows : Shows pml4 (some map)) : processUnmap pml4 = .ok (userSlots pml4 none) := by
  obtain ⟨isPrivate, isShared⟩ := masterPd_some valid shows
  have zeroFrame : extractPointer 0 = 0 := by decide
  rw [processUnmap, isPrivate, isShared, if_neg valid.privateNonzero, if_neg valid.sharedNonzero,
    unmapMasterRegion, mapMasterRegion_eq _ _ _ zeroFrame]
  exact mapMasterRegion_eq _ _ _ zeroFrame

theorem processUnmap_shows (valid : map.Valid)
    (shows : Shows pml4 (some map)) : ∃ pml4', processUnmap pml4 = .ok pml4' ∧ Shows pml4' none :=
  ⟨_, processUnmap_eq valid shows, userSlots_shows pml4 none⟩

theorem mapSelected_shows {currentPid pid : Nat}
    (shows : Shows pml4 view) (validView : ∀ other ∈ view, other.Valid) (valid : pid ≠ kernelPid -> map.Valid)
    (own : pid = currentPid -> ∀ other ∈ view, pid ≠ kernelPid ∧ other = map) :
    ∃ pml4', mapSelected pml4 currentPid pid map = .ok pml4' ∧ Shows pml4' (if pid = kernelPid then none else some map) := by
  have anyMapped := isProcessMapped_any validView shows
  by_cases switched : pid = currentPid
  · by_cases kernel : pid = kernelPid
    · cases view with
      | none =>
        refine ⟨pml4, ?_, by rwa [if_pos kernel]⟩
        rw [mapSelected, if_neg (not_not.2 switched), if_neg (not_not.2 kernel), anyMapped]
        rfl
      | some other => exact absurd kernel (own switched other rfl).1
    · rw [if_neg kernel]
      cases view with
      | none =>
        have isMapped := isProcessMapped_other (valid kernel) shows validView nofun
        obtain ⟨pml4', mapped, shows'⟩ := processMap_shows (valid kernel) shows validView nofun
        refine ⟨pml4', ?_, shows'⟩
        rw [mapSelected, if_neg (not_not.2 switched), if_pos kernel, isMapped, anyMapped]
        exact mapped
      | some other =>
        obtain ⟨-, rfl⟩ := own switched other rfl
        refine ⟨pml4, ?_, shows⟩
        rw [mapSelected, if_neg (not_not.2 switched), if_pos kernel, isProcessMapped_same (valid kernel) shows]
        rfl
  · obtain ⟨cleared, unmapped, showsNone⟩ : ∃ cleared,
        (if view.isSome then processUnmap pml4 else .ok pml4) = .ok cleared ∧ Shows cleared none := by
      cases view with
      | none => exact ⟨pml4, rfl, shows⟩
      | some other => exact processUnmap_shows (validView other rfl) shows
    have step : mapSelected pml4 currentPid pid map = if pid ≠ 0 then processMap cleared map else .ok cleared := by
      rw [mapSelected, if_pos switched, anyMapped]
      cases view with
      | none =>
        cases unmapped
        rfl
      | some other =>
        rw [show processUnmap pml4 = .ok cleared from unmapped]
        rfl
    split
    next kernel =>
      exact ⟨cleared, step.trans (if_neg (not_not.2 kernel)), showsNone⟩
    next kernel =>
      obtain ⟨pml4', mapped, shows'⟩ := processMap_shows (valid kernel) showsNone nofun nofun
      exact ⟨pml4', step.trans ((if_pos kernel).trans mapped), shows'⟩

theorem isProcessMapped_faults (pml4 : Pml4) (proc : Option MemMap) :
    (isProcessMapped pml4 proc).Ensures (·.aboutMapping) fun _ => True := by
  unfold isProcessMapped
  cases proc <;> simp only <;> split <;> trivial

theorem mapMasterRegion_faults (pml4 : Pml4) (base pd flags : BitVec 64) :
    (mapMasterRegion pml4 base pd flags).Ensures (·.aboutMapping) fun _ => True := by
  rw [mapMasterRegion]
  split
  · trivial
  · rfl

theorem processMap_faults (pml4 : Pml4) (map : MemMap) : (processMap pml4 map).Ensures (·.aboutMapping) fun _ => True := by
  rw [processMap, userMap]
  split
  · rfl
  · split
    · rfl
    · exact (mapMasterRegion_faults ..).bind fun _ _ => mapMasterRegion_faults ..

theorem processUnmap_faults (pml4 : Pml4) : (processUnmap pml4).Ensures (·.aboutMapping) fun _ => True := by
  rw [processUnmap]
  split
  · rfl
  · split
    · rfl
    · exact (mapMasterRegion_faults ..).bind fun _ _ => mapMasterRegion_faults ..

theorem mapSelected_faults (pml4 : Pml4) (currentPid pid : Nat) (map : MemMap) :
    (mapSelected pml4 currentPid pid map).Ensures (·.aboutMapping) fun _ => True := by
  have finish : ∀ pml4 : Pml4, (if pid ≠ 0 then processMap pml4 map else .ok pml4 :
      Except Fault Pml4).Ensures (·.aboutMapping) fun _ => True := by
    intro pml4
    split
    · exact processMap_faults pml4 map
    · trivial
  rw [mapSelected]
  split
  · refine (isProcessMapped_faults ..).bind fun mapped _ => ?_
    cases mapped with
    | true => exact (processUnmap_faults pml4).bind fun pml4 _ => finish pml4
    | false => exact finish pml4
  split
  · refine (isProcessMapped_faults ..).bind fun mapped _ => ?_
    cases mapped with
    | true => trivial
    | false =>
      refine (isProcessMapped_faults ..).bind fun another _ => ?_
      cases another with
      | true => rfl
      | false => exact processMap_faults pml4 map
  · refine (isProcessMapped_faults ..).bind fun another _ => ?_
    cases another with
    | true => rfl
    | false => trivial

end Bincows.Sched
