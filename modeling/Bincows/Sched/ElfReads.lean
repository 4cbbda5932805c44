import Bincows.Sched.ElfLoading

set_option autoImplicit false

/-! The parts of the file that `elf_load` reads, as offsets and lengths. -/

namespace Bincows.Exec.Reads

-- `maps i` tells whether the pages of segment `i` can be mapped; `alloc_pages` stops the kernel where they cannot.
variable (maps : Nat -> Bool) (file : List Byte)

def segmentReads : Nat -> Nat -> List (Nat × Nat)
  | 0, _ => []
  | n + 1, i =>
    (phdrOffset file + i * phdrSize, phdrSize) ::
      match phdrAt file i with
      -- the rest depends on bytes that are not of the file
      | none => []
      | some p =>
        if p.type ≠ ptLoad then segmentReads n (i + 1)
        else if p.bad file.length then []
        else if maps i then (p.offset, p.filesz) :: segmentReads n (i + 1)
        else []

-- The header is read by `check_elf_header` or, where that returns 0, by `dump`.
def elfReads : List (Nat × Nat) :=
  if file.length = 0 then []
  else (0, ehdrSize) :: if checkElfHeader file then segmentReads maps file (phdrTableSize file) 0 else []

def InFile (r : Nat × Nat) : Prop := r.1 + r.2 ≤ file.length

variable {file} {n i : Nat}

-- `Phdr.bad` looks at the sum modulo 2^64.
theorem image_inside {p : Phdr} (fits : p.offset + p.filesz < 2 ^ 64) (fine : ¬ p.bad file.length) :
    InFile file (p.offset, p.filesz) := by
  rw [Phdr.bad, not_or, Nat.mod_eq_of_lt fits] at fine
  exact Nat.not_lt.mp fine.1

theorem segmentReads_inside (table : phdrOffset file + (i + n) * phdrSize ≤ file.length)
    (sums : ∀ k < i + n, ∀ p, phdrAt file k = some p -> p.type = ptLoad -> p.offset + p.filesz < 2 ^ 64) :
    ∀ r ∈ segmentReads maps file n i, InFile file r := by
  induction n generalizing i with
  | zero => simp [segmentReads]
  | succ n ih =>
    have rest := ih (i := i + 1) (by rwa [Nat.add_right_comm]) (by rwa [Nat.add_right_comm])
    have here : InFile file (phdrOffset file + i * phdrSize, phdrSize) := by
      have grows : (i + 1) * phdrSize ≤ (i + (n + 1)) * phdrSize := Nat.mul_le_mul_right _ (by omega)
      rw [Nat.add_one_mul] at grows
      show phdrOffset file + i * phdrSize + phdrSize ≤ file.length
      omega
    rw [segmentReads, List.forall_mem_cons]
    refine ⟨here, ?_⟩
    cases header : phdrAt file i with
    | none => exact nofun
    | some p =>
      simp only
      split_ifs with other bad mapped
      · exact rest
      · exact nofun
      · exact List.forall_mem_cons.mpr ⟨image_inside (sums i (by omega) p header (not_not.mp other)) bad, rest⟩
      · exact nofun

-- One loadable segment of two bytes behind its header.
def smallElf : List Byte :=
  [0x7f, 0x45, 0x4c, 0x46, 2, 1, 1, 0] ++ List.replicate 8 0 ++ [2, 0, 0x3e, 0, 1, 0, 0, 0] ++ List.replicate 8 0 ++
    [64, 0, 0, 0, 0, 0, 0, 0] ++ List.replicate 12 0 ++ [64, 0, 56, 0, 1, 0] ++ List.replicate 6 0 ++
    [1, 0, 0, 0, 0, 0, 0, 0, 120, 0, 0, 0, 0, 0, 0, 0, 0, 0, 64] ++ List.replicate 13 0 ++
    [2, 0, 0, 0, 0, 0, 0, 0, 16] ++ List.replicate 15 0 ++ [7, 8]

end Bincows.Exec.Reads
