import Bincows.Shared.Lists

set_option autoImplicit false

/-! `sc_dup` over the descriptors of a process. No two of them share a handle, so each has the contents of its own. -/

namespace Bincows.Syscalls.Duplication

open Function

abbrev maxFds : Nat := 32

def noFd : Nat := 2 ^ 32 - 1

-- What `vfs_handle_dup` copies.
structure FileHandle where
  fs : Nat
  vfileId : Nat
  fileOffset : Nat
  sectorCount : Nat
  sectorOffset : Nat
  flags : Nat

inductive Fd (D : Type) where
  | none
  -- no handle for `NULL`
  | file (handle : Option FileHandle)
  | dir (dir : D) (dirBoff : Nat)

variable {D : Type}

def Fd.isNone : Fd D -> Bool
  | .none => true
  | _ => false

abbrev Fds (D : Type) : Type := Fin maxFds -> Fd D

def findAvailableFd (fds : Fds D) : Option (Fin maxFds) :=
  (List.finRange maxFds).find? fun i => (fds i).isNone

def closeFd : Fd D -> Fd D
  | .file none => .file none
  | _ => .none

-- `allowed` is the answer of `open_instance`; nothing where `vfs_handle_dup` follows a null pointer.
def dupFd (allowed : Bool) : Fd D -> Option (Fd D)
  | .file none => none
  | .file (some h) => some (.file (if allowed then some h else none))
  | fd => some fd

def dupTo (fds : Fds D) (source target : Fin maxFds) (allowed : Bool) : Option (Fds D × Option (Fin maxFds)) :=
  (dupFd allowed (fds source)).map fun new => (update fds target new, some target)

def scDup (fds : Fds D) (valid : Bool) (fd fd2 : Nat) (allowed : Bool) : Option (Fds D × Option (Fin maxFds)) :=
  if ¬ valid then some (fds, none)
  else if source : fd < maxFds then
    if (fds ⟨fd, source⟩).isNone then some (fds, none)
    else if fd2 ≠ noFd then
      if target : fd2 < maxFds then
        dupTo (update fds ⟨fd2, target⟩ (closeFd (fds ⟨fd2, target⟩))) ⟨fd, source⟩ ⟨fd2, target⟩ allowed
      else some (fds, none)
    else
      match findAvailableFd fds with
      | none => some (fds, none)
      | some target => dupTo fds ⟨fd, source⟩ target allowed
  else some (fds, none)

def IsOpen : Fd D -> Prop
  | .file (some _) | .dir .. => True
  | _ => False

def Duplicates (fds : Fds D) (fd : Nat) : Fds D × Option (Fin maxFds) -> Prop
  | (fds', none) => fds' = fds
  | (fds', some t) => (∀ j ≠ t, fds' j = fds j) ∧
      ∀ bound : fd < maxFds, IsOpen (fds ⟨fd, bound⟩) ∧ fds' ⟨fd, bound⟩ = fds ⟨fd, bound⟩ ∧ fds' t = fds ⟨fd, bound⟩

def target (fds : Fds D) (fd2 : Nat) : Option (Fin maxFds) :=
  if fd2 = noFd then findAvailableFd fds else if bound : fd2 < maxFds then some ⟨fd2, bound⟩ else none

def Fine (fds : Fds D) (source t : Fin maxFds) (allowed : Bool) : Prop :=
  IsOpen (fds source) -> t ≠ source ∧ (allowed = true ∨ ∀ h, fds source ≠ .file h)

variable {fds : Fds D} {source t : Fin maxFds} {allowed : Bool}

-- The target is closed first; a source that is its own target is gone by then.
theorem dupTo_iff (used : (fds source).isNone = false) :
    (∀ r, dupTo (update fds t (closeFd (fds t))) source t allowed = some r ->
      Duplicates fds source r) ↔ Fine fds source t allowed := by
  rw [dupTo, Fine]
  by_cases same : t = source
  · subst same
    match slot : fds t with
    | .none => simp [slot, Fd.isNone] at used
    | .file none => simp [closeFd, dupFd, IsOpen]
    | .file (some h) => simp [closeFd, dupFd, Duplicates, IsOpen, slot]
    | .dir d boff => simp [closeFd, dupFd, Duplicates, IsOpen, slot]
  · rw [update_of_ne (Ne.symm same)]
    match slot : fds source with
    | .none => simp [slot, Fd.isNone] at used
    | .file none => simp [dupFd, IsOpen]
    | .file (some h) => cases allowed <;> simp +contextual [dupFd, Duplicates, IsOpen, slot, same, Ne.symm same]
    | .dir d boff => simp +contextual [dupFd, Duplicates, IsOpen, slot, same, Ne.symm same]

theorem findAvailableFd_none (found : findAvailableFd fds = some t) : update fds t (closeFd (fds t)) = fds := by
  have free := List.find?_some found
  refine update_eq_self_iff.mpr ?_
  cases slot : fds t <;> simp_all [Fd.isNone, closeFd]

theorem scDup_duplicates_iff (fds : Fds D) (valid : Bool) (fd fd2 : Nat) (allowed : Bool) :
    (∀ r, scDup fds valid fd fd2 allowed = some r -> Duplicates fds fd r) ↔
      (valid = true -> ∀ bound : fd < maxFds, ∀ t, target fds fd2 = some t -> Fine fds ⟨fd, bound⟩ t allowed) := by
  cases valid with
  | false => simp [scDup, Duplicates]
  | true =>
    by_cases bound : fd < maxFds
    · cases used : (fds ⟨fd, bound⟩).isNone with
      | true =>
        have closed : ¬ IsOpen (fds ⟨fd, bound⟩) := by
          cases slot : fds ⟨fd, bound⟩ <;> simp_all [Fd.isNone, IsOpen]
        simp [scDup, Duplicates, Fine, bound, used, closed]
      | false =>
        have copied (t : Fin maxFds) : _ ↔ Fine fds ⟨fd, bound⟩ t allowed := dupTo_iff used
        by_cases chosen : fd2 = noFd
        · cases found : findAvailableFd fds with
          | none => simp [scDup, target, Duplicates, bound, used, chosen, found]
          | some t =>
            have next := copied t
            rw [findAvailableFd_none found] at next
            simpa [scDup, target, bound, used, chosen, found] using next
        · by_cases inside : fd2 < maxFds
          · simpa [scDup, target, bound, used, chosen, inside] using copied ⟨fd2, inside⟩
          · simp [scDup, target, Duplicates, bound, used, chosen, inside]
    · simp [scDup, Duplicates, bound]

-- `dup2(3, 3)` closes descriptor 3 and succeeds.
theorem dup_onto_itself_closes :
    (scDup (fun i => if i.val = 3 then .dir () 7 else .none) true 3 3 true).map (fun r =>
      (r.1 3, r.2)) = some (.none, some 3) := rfl

end Bincows.Syscalls.Duplication
