import Bincows.Fs.HandleBuffers

set_option autoImplicit false

namespace Bincows.Vfs

open Keyed Function List

variable {A P : Type} {gran : Nat} {s s' : State A P} {h h' : Handle A} {file : FileEnt P}
  {addr fileSize m r : Nat} {data : List A} {env : WriteEnv A} {buf : Nat -> A}

variable {size first count k : Nat} {plan : WritePlan} {new : Nat -> A} {e : FileEnt P}

section buffer

theorem overlay_inside (inside : first ≤ k ∧ k < first + count) :
    overlay buf first count new k = new (k - first) := if_pos inside

theorem overlay_outside (outside : k < first ∨ first + count ≤ k) :
    overlay buf first count new k = buf k := if_neg (by omega)

theorem loadFirst_loads (coherent : h.Coherent gran (s.content addr))
    (result : loadFirst gran s addr fileSize h size env.garbage = .ok buf)
    (needed : needsFirst gran h fileSize size = true) :
    ∀ k < gran, k < h.sectorOffset ∨ h.sectorOffset + size ≤ k -> buf k = s.content addr (h.sectorCount * gran + k) := by
  intro k small outside
  rw [loadFirst, if_neg (by simp [needed])] at result
  by_cases valid : h.bufferValid = true
  · rw [if_neg (by simp [valid])] at result
    cases result
    rcases outside with before | behind
    · rw [overlay_outside (by omega), overlay_inside (by omega), Nat.sub_zero]
      exact coherent valid k small
    · rw [overlay_inside (by omega)]
      have position : size + h.sectorOffset + (k - (size + h.sectorOffset)) = k := by omega
      rw [position]
      exact coherent valid k small
  · rw [if_pos (by simpa using valid)] at result
    obtain ⟨sector, fetched, rest⟩ := bind_eq_ok.mp result
    cases rest
    obtain ⟨-, rfl⟩ := readFileSectors_ok fetched
    rw [overlay_inside (by omega), Nat.sub_zero]

structure LastLoaded (gran : Nat) (content : Nat -> A) (h h' : Handle A) (m : Nat) (reads : Prop)
    (before buf : Nat -> A) : Prop where
  cursor : h' = { h with bufferValid := h'.bufferValid, sectorBuff := h'.sectorBuff }
  earlier : ∀ k, m = 0 ∨ k < m * gran -> buf k = before k
  last : m ≠ 0 -> reads -> ∀ k < gran, buf (m * gran + k) = content ((h.sectorCount + m) * gran + k)
  valid : h'.bufferValid = true -> (m = 0 ∧ h.bufferValid = true) ∨ (m ≠ 0 ∧ reads)

theorem loadLast_loads {before : Nat -> A} (sectors : plan.writeBlocks = m + 1)
    (result : loadLast gran s addr fileSize h size plan before = .ok (h', buf)) :
    LastLoaded gran (s.content addr) h h' m (plan.endOffset ≠ 0 ∧ (h.fileOffset + size) % 2 ^ 64 < fileSize) before buf := by
  have last : h.sectorCount + plan.writeBlocks - 1 = h.sectorCount + m := by omega
  have start : plan.writeBlocks * gran - gran = m * gran := by rw [sectors, Nat.succ_mul, Nat.add_sub_cancel]
  rw [loadLast, last, start] at result
  by_cases one : m = 0
  · rw [if_pos (by omega)] at result
    cases result
    exact ⟨rfl, fun _ _ => rfl, fun several => absurd one several, fun valid => .inl ⟨one, valid⟩⟩
  rw [if_neg (by omega)] at result
  by_cases reads : plan.endOffset ≠ 0 ∧ (h.fileOffset + size) % 2 ^ 64 < fileSize
  · rw [if_pos reads] at result
    obtain ⟨sector, fetched, rest⟩ := bind_eq_ok.mp result
    cases rest
    obtain ⟨-, rfl⟩ := readFileSectors_ok fetched
    refine ⟨rfl, ?_, ?_, fun _ => .inr ⟨one, reads⟩⟩
    · rintro k (zero | early)
      · exact absurd zero one
      · exact overlay_outside (.inl early)
    · intro _ _ k small
      rw [overlay_inside (by omega), Nat.add_sub_cancel_left]
      rw [last]
  · rw [if_neg reads] at result
    cases result
    exact ⟨rfl, fun _ _ => rfl, fun _ impossible => absurd impossible reads, fun impossible => (by cases impossible)⟩

structure Buffered (gran : Nat) (content : Nat -> A) (h h' : Handle A) (fileSize : Nat)
    (data : List A) (m endOffset : Nat) (buf : Nat -> A) : Prop where
  cursor : h' = { h with bufferValid := h'.bufferValid, sectorBuff := h'.sectorBuff }
  written : ∀ k a, data[k]? = some a -> buf (h.sectorOffset + k) = a
  around : ∀ k < (m + 1) * gran, k < h.sectorOffset ∨ h.sectorOffset + data.length ≤ k ->
    h.sectorCount * gran + k < fileSize -> buf k = content (h.sectorCount * gran + k)
  valid : h'.bufferValid = true ->
    (h.bufferValid = true ∧ (m = 0 ∨ (h.sectorOffset = 0 ∧ endOffset = 0))) ∨
    (m ≠ 0 ∧ endOffset ≠ 0 ∧ (h.fileOffset + data.length) % 2 ^ 64 < fileSize)

theorem writeBuffer_buffers (placed : h.Placed gran) (coherent : h.Coherent gran (s.content addr))
    (bound : fileSize < 2 ^ 64)
    (access : Access gran h.sectorOffset data.length plan.writeBlocks plan.endOffset m r)
    (result : writeBuffer gran s env addr fileSize h data plan = .ok (h', buf)) :
    Buffered gran (s.content addr) h h' fileSize data m plan.endOffset buf := by
  obtain ⟨start, position, -⟩ := placed
  have total := access.total
  have some := access.some
  have ends := access.ends
  have source : ∀ k a, data[k]? = Option.some a -> (data[k]?).getD (env.garbage k) = a := by
    intro k a there
    rw [there, Option.getD_some]
  rw [writeBuffer] at result
  by_cases aligned : h.sectorOffset = 0 ∧ plan.endOffset = 0
  · simp only [if_pos aligned] at result
    cases result
    have full : r = gran := by
      by_contra partly
      rw [if_neg partly] at ends
      omega
    have size : data.length = (m + 1) * gran := by
      rw [Nat.succ_mul]
      omega
    refine ⟨rfl, ?_, ?_, fun valid => .inl ⟨valid, .inr aligned⟩⟩
    · intro k a there
      rw [aligned.1, Nat.zero_add]
      exact source k a there
    · intro k small outside
      omega
  · simp only [if_neg aligned] at result
    obtain ⟨buf₁, first, result⟩ := bind_eq_ok.mp result
    obtain ⟨⟨h₂, buf₂⟩, second, result⟩ := bind_eq_ok.mp result
    cases result
    have last := loadLast_loads access.sectors second
    have offset : h₂.sectorOffset = h.sectorOffset := by rw [last.cursor]
    refine ⟨last.cursor, ?_, ?_, ?_⟩
    · intro k a there
      have small := lt_of_getElem? there
      rw [offset, overlay_inside (by omega), Nat.add_sub_cancel_left]
      exact source k a there
    · intro k small outside inside
      show overlay buf₂ h₂.sectorOffset data.length _ k = _
      rw [offset, overlay_outside outside]
      have spread := Nat.add_one_mul m gran
      rcases outside with before | behind
      -- in front of the data: in the first sector, which starts inside the file
      · have needed : needsFirst gran h fileSize data.length = true := by
          simp only [needsFirst, decide_eq_true_eq]
          exact .inl ⟨by omega, by omega⟩
        have unchanged : m = 0 ∨ k < m * gran := by
          rcases Nat.eq_zero_or_pos m with zero | several
          · exact .inl zero
          · have := Nat.le_mul_of_pos_left gran several
            exact .inr (by omega)
        rw [last.earlier k unchanged]
        exact loadFirst_loads coherent first needed k (by omega) (.inl before)
      -- behind the data: in the last sector, and the data ends inside the file
      · have partly : r ≠ gran := by omega
        rw [if_neg partly] at ends
        have ended : (h.fileOffset + data.length) % 2 ^ 64 < fileSize := by
          rw [Nat.mod_eq_of_lt (by omega)]
          omega
        by_cases one : m = 0
        · subst one
          have needed : needsFirst gran h fileSize data.length = true := by
            simp only [needsFirst, decide_eq_true_eq]
            exact .inr ⟨by omega, ended⟩
          rw [last.earlier k (.inl rfl)]
          exact loadFirst_loads coherent first needed k (by omega) (.inr behind)
        · have there := last.last one ⟨by omega, ended⟩ (k - m * gran) (by omega)
          have index : m * gran + (k - m * gran) = k := by omega
          rw [index, Nat.add_mul, Nat.add_assoc, index] at there
          exact there
    · intro valid
      rcases last.valid valid with ⟨one, old⟩ | new
      · exact .inl ⟨old, .inl one⟩
      · exact .inr new

end buffer

section state

variable {handle self : Nat} {result : WriteResult} {fhs : List Nat}

theorem setHandle_ids (s : State A P) (h : Handle A) :
    (setHandle s h).handles.map Handle.handleId = s.handles.map Handle.handleId := map_modify fun _ _ => rfl

theorem invalidateHandlersBuffer_returns_iff : (∃ s', invalidateHandlersBuffer s self fhs = .ok s') ↔
    ∀ id ∈ fhs, id ≠ self -> id ∈ s.handles.map Handle.handleId := by
  induction fhs generalizing s with
  | nil => simp [invalidateHandlersBuffer]
  | cons id rest ih =>
    rw [invalidateHandlersBuffer, forall_mem_cons]
    by_cases own : id = self
    · rw [if_pos own, ih]
      exact (and_iff_right fun other => absurd own other).symm
    rw [if_neg own]
    cases found : lookup Handle.handleId s.handles id with
    | none =>
      refine iff_of_false (by rintro ⟨_, ⟨⟩⟩) fun live => ?_
      obtain ⟨x, there⟩ := exists_lookup (live.1 own)
      rw [found] at there
      cases there
    | some h =>
      obtain ⟨there, rfl⟩ := lookup_some found
      rw [ih, setHandle_ids]
      exact (and_iff_right fun _ => mem_map_of_mem there).symm

theorem invalidateHandlersBuffer_eq (nodup : (s.handles.map Handle.handleId).Nodup)
    (returns : invalidateHandlersBuffer s self fhs = .ok s') :
    s' = { s with handles := s.handles.map fun x =>
      if x.handleId ∈ fhs ∧ x.handleId ≠ self then { x with bufferValid := false } else x } := by
  induction fhs generalizing s with
  | nil =>
    cases returns
    simp
  | cons first rest ih =>
    rw [invalidateHandlersBuffer] at returns
    split at returns
    · rw [ih nodup returns]
      congr 1
      apply map_congr_left
      grind
    split at returns
    · cases returns
    · rename_i own _ h found
      obtain ⟨there, id⟩ := lookup_some found
      have once : (setHandle s { h with bufferValid := false }).handles =
          s.handles.map fun x => if x.handleId = first then { x with bufferValid := false } else x := by
        show modify Handle.handleId h.handleId _ s.handles = _
        rw [modify_eq_map nodup, id]
        apply map_congr_left
        intro x member
        split
        · rename_i same
          rw [unique nodup member there (same.trans id.symm), id]
        · rfl
      rw [ih ((setHandle_ids s _).symm ▸ nodup) returns, once, map_map]
      congr 1
      apply map_congr_left
      grind

def newAddr (file : FileEnt P) (env : WriteEnv A) : Nat :=
  if file.addr = 0 then env.newAddr else file.addr

def updates (h : Handle A) (file : FileEnt P) (env : WriteEnv A) (size : Nat) : Prop :=
  grows h file.fileSize size ∨ newAddr file env ≠ file.addr

instance (h : Handle A) (file : FileEnt P) (env : WriteEnv A) (size : Nat) : Decidable (updates h file env size) :=
  inferInstanceAs (Decidable (_ ∨ _))

def writeEnd (gran : Nat) (h h' : Handle A) (size : Nat) : Handle A :=
  { h' with
    sectorOffset := (writePlan gran h size).endOffset
    fileOffset := (h.fileOffset + size) % 2 ^ 64
    sectorCount := (h.fileOffset + size) % 2 ^ 64 / gran }

def writeHandle (gran : Nat) (h h' : Handle A) (file : FileEnt P) (env : WriteEnv A) (size : Nat) (x : Handle A) : Handle A :=
  if x.handleId = h.handleId then writeEnd gran h h' size
  else if updates h file env size ∧ x.handleId ∈ file.fhs then { x with bufferValid := false }
  else x

def writeRecord (h : Handle A) (file : FileEnt P) (env : WriteEnv A) (size : Nat) (x : FileEnt P) : FileEnt P :=
  if updates h file env size ∧ x.id = file.id then
    { file with
      addr := newAddr file env
      fileSize := if grows h file.fileSize size then (h.fileOffset + size) % 2 ^ 64 else file.fileSize }
  else x

def writeContent (gran : Nat) (s : State A P) (h : Handle A) (file : FileEnt P) (env : WriteEnv A)
    (size : Nat) (buf : Nat -> A) : Nat -> Nat -> A :=
  update s.content (newAddr file env) (overlay (s.content (newAddr file env)) (h.sectorCount * gran)
    (min env.stored (writePlan gran h size).writeBlocks * gran) buf)

structure Wrote (gran : Nat) (s s' : State A P) (h h' : Handle A) (file : FileEnt P) (data : List A)
    (env : WriteEnv A) (m r : Nat) (buf : Nat -> A) : Prop where
  live : updates h file env data.length -> ∀ id ∈ file.fhs, id ≠ h.handleId -> id ∈ s.handles.map Handle.handleId
  access : Access gran h.sectorOffset data.length (writePlan gran h data.length).writeBlocks
    (writePlan gran h data.length).endOffset m r
  buffered : Buffered gran (s.content file.addr) h h' file.fileSize data m (writePlan gran h data.length).endOffset buf
  result : s' =
    { s with
      handles := s.handles.map (writeHandle gran h h' file env data.length)
      openFiles := s.openFiles.map (writeRecord h file env data.length)
      content := writeContent gran s h file env data.length buf }

theorem writeStart_placed (positive : 0 < gran) (placed : h.Placed gran)
    (bound : fileSize < 2 ^ 64) : (writeStart gran h fileSize).Placed gran := by
  rw [writeStart]
  split
  · exact setStreamOffset_placed positive h bound
  · exact placed

theorem writeStart_coherent {content : Nat -> A} (coherent : h.Coherent gran content) :
    (writeStart gran h fileSize).Coherent gran content := by
  rw [writeStart]
  split
  · nofun
  · exact coherent

theorem writeStart_ids (gran : Nat) (h : Handle A) (fileSize : Nat) :
    (writeStart gran h fileSize).handleId = h.handleId ∧ (writeStart gran h fileSize).vfileId = h.vfileId := by
  rw [writeStart]
  split
  · exact ⟨rfl, rfl⟩
  · exact ⟨rfl, rfl⟩

structure Target (s : State A P) (handle : Nat) (h : Handle A) (file : FileEnt P) : Prop where
  live : h ∈ s.handles
  id : h.handleId = handle
  record : file ∈ s.openFiles
  vfile : file.id = h.vfileId

structure Distinct (s : State A P) : Prop where
  ids : (s.openFiles.map FileEnt.id).Nodup
  handleIds : (s.handles.map Handle.handleId).Nodup

theorem Target.found (target : Target s handle h file) (distinct : Distinct s) :
    getHandle s handle = .ok h ∧ acquireVfile s h.vfileId = .ok file := by
  rw [getHandle, ← target.id, lookup_of_mem distinct.handleIds target.live, acquireVfile,
    ← target.vfile, lookup_of_mem distinct.ids target.record]
  exact ⟨rfl, rfl⟩

theorem updateVfile_tables {env : WriteEnv A} {content : Nat -> Nat -> A} (good : Distinct s)
    (inside : file ∈ s.openFiles) (sameId : h'.handleId = h.handleId) (changed : updates h file env size)
    (returns : updateVfile (setHandle { s with content } (writeEnd gran h h' size)) file.id (newAddr file env)
      (if grows h file.fileSize size then (h.fileOffset + size) % 2 ^ 64 else file.fileSize) h.handleId = .ok s') :
    (∀ id ∈ file.fhs, id ≠ h.handleId -> id ∈ s.handles.map Handle.handleId) ∧ s' =
      { s with
        handles := s.handles.map (writeHandle gran h h' file env size)
        openFiles := s.openFiles.map (writeRecord h file env size)
        content } := by
  have moved : (setHandle { s with content } (writeEnd gran h h' size)).handles =
      s.handles.map fun x => if x.handleId = h.handleId then writeEnd gran h h' size else x := by
    show modify Handle.handleId h'.handleId _ s.handles = _
    rw [modify_eq_map good.handleIds, sameId]
  have movedIds : ((setHandle { s with content } (writeEnd gran h h' size)).handles.map Handle.handleId).Nodup :=
    (setHandle_ids { s with content } (writeEnd gran h h' size)).symm ▸ good.handleIds
  obtain ⟨e, acquired, rest⟩ := bind_eq_ok.mp returns
  obtain ⟨s₁, invalidated, rest⟩ := bind_eq_ok.mp rest
  obtain ⟨there, id⟩ := lookup_some (acquireVfile_ok acquired)
  obtain rfl : e = file := unique good.ids there inside id
  refine ⟨setHandle_ids { s with content } _ ▸ invalidateHandlersBuffer_returns_iff.mp ⟨s₁, invalidated⟩, ?_⟩
  rw [invalidateHandlersBuffer_eq movedIds invalidated] at rest
  cases rest
  have handles : (setHandle { s with content } (writeEnd gran h h' size)).handles.map (fun x =>
      if x.handleId ∈ e.fhs ∧ x.handleId ≠ h.handleId then { x with bufferValid := false } else x) =
      s.handles.map (writeHandle gran h h' e env size) := by
    rw [moved, map_map]
    apply map_congr_left
    intro x member
    by_cases own : x.handleId = h.handleId
    · simp [own, writeHandle, writeEnd, sameId]
    · simp [own, writeHandle, changed]
  have records : modify FileEnt.id e.id (fun _ => { e with
      addr := newAddr e env
      fileSize := if grows h e.fileSize size then (h.fileOffset + size) % 2 ^ 64 else e.fileSize }) s.openFiles =
      s.openFiles.map (writeRecord h e env size) := by
    rw [modify_eq_map good.ids]
    apply map_congr_left
    intro x member
    simp only [writeRecord, changed, true_and]
  rw [← handles, ← records]
  rfl

theorem writeFile_wrote (distinct : Distinct s) (target : Target s handle h file) (allowed : h.flags.write = true)
    (nonempty : data ≠ []) (positive : 0 < gran) (placed : h.Placed gran) (coherent : h.Coherent gran (s.content file.addr))
    (bound : file.fileSize < 2 ^ 64)
    (returns : vfsWriteFile gran s handle data env = .ok (s', result)) :
    (writeStart gran h file.fileSize).sectorOffset + data.length + gran ≤ 2 ^ 32 ∧ result = .written data.length ∧
      ∃ h' m r buf, Wrote gran s s' (writeStart gran h file.fileSize) h' file data env m r buf := by
  obtain ⟨got, acquired⟩ := target.found distinct
  have some := length_pos_iff.mpr nonempty
  have start := writeStart_placed positive placed bound
  have begins : (writeStart gran h file.fileSize).Coherent gran (s.content file.addr) := writeStart_coherent coherent
  have ids := writeStart_ids gran h file.fileSize
  rw [vfsWriteFile, got] at returns
  change (if ¬ h.flags.write then _ else if data = [] then _ else acquireVfile s h.vfileId >>= _) = _ at returns
  rw [if_neg (by simp [allowed]), if_neg nonempty, acquired, ← target.id, ← ids.1] at returns
  change (if (writePlan gran (writeStart gran h file.fileSize)
    data.length).writeBlocks * gran < _ then _ else _) = _ at returns
  generalize writeStart gran h file.fileSize = h₀ at *
  split at returns
  · cases returns
  next short =>
  have fits := (fits_iff positive some).mp short
  obtain ⟨m, r, access⟩ := access_exists positive some fits
  obtain ⟨⟨h', buf⟩, written, rest⟩ := bind_eq_ok.mp returns
  have buffered := writeBuffer_buffers start begins bound access written
  have sameId : h'.handleId = h₀.handleId := by rw [buffered.cursor]
  change (if updates h₀ file env data.length then _ else _) = _ at rest
  split at rest
  next changed =>
    obtain ⟨s₁, updated, rest⟩ := bind_eq_ok.mp rest
    cases rest
    obtain ⟨live, tables⟩ := updateVfile_tables distinct target.record sameId changed updated
    exact ⟨fits, rfl, h', m, r, buf, fun _ => live, access, buffered, tables⟩
  next changed =>
  cases rest
  refine ⟨fits, rfl, h', m, r, buf, fun now => absurd now changed, access, buffered, ?_⟩
  have handles : modify Handle.handleId h'.handleId (fun _ => writeEnd gran h₀ h' data.length) s.handles =
      s.handles.map (writeHandle gran h₀ h' file env data.length) := by
    rw [modify_eq_map distinct.handleIds, sameId]
    apply map_congr_left
    intro x member
    simp only [writeHandle, changed, false_and, if_false]
  have records : s.openFiles.map (writeRecord h₀ file env data.length) = s.openFiles := by
    conv_rhs => rw [← map_id s.openFiles]
    apply map_congr_left
    intro x member
    simp only [writeRecord, changed, false_and, if_false, id]
  rw [← handles, records]
  rfl

theorem vfsWriteFile_wrote (good : Good gran s) (positive : 0 < gran)
    (returns : vfsWriteFile gran s handle data env = .ok (s', result)) :
    s' = s ∨ ∃ h file, Target s handle h file ∧ h.flags.write = true ∧ data ≠ [] ∧ result = .written data.length ∧
      ∃ h' m r buf, Wrote gran s s' (writeStart gran h file.fileSize) h' file data env m r buf := by
  obtain ⟨h, got, rest⟩ := bind_eq_ok.mp returns
  obtain ⟨there, sameId⟩ := lookup_some (getHandle_ok got)
  by_cases allowed : h.flags.write = true
  · rw [if_neg (by simp [allowed])] at rest
    by_cases empty : data = []
    · rw [if_pos empty] at rest
      cases rest
      exact .inl rfl
    obtain ⟨file, inside, vfile, -⟩ := good.record there
    have target : Target s handle h file := ⟨there, sameId, inside, vfile⟩
    have wrote := writeFile_wrote ⟨good.ids, good.handleIds⟩ target allowed empty positive (good.placed h there)
      (good.coherent h there file inside vfile) (good.sizes file inside) returns
    exact .inr ⟨h, file, target, allowed, empty, wrote.2⟩
  · rw [if_pos (by simpa using allowed)] at rest
    cases rest
    exact .inl rfl

theorem writeBuffer_returns (address : addr = 0 -> fileSize = 0) (plan : WritePlan) :
    ∃ result, writeBuffer gran s env addr fileSize h data plan = .ok result := by
  have readable (sector : Nat) (inside : 0 < fileSize) : ∃ buf, readFileSectors gran s addr sector = .ok buf :=
    ⟨_, if_neg fun none => by have := address none; omega⟩
  have first : ∃ buf, loadFirst gran s addr fileSize h data.length env.garbage = .ok buf := by
    by_cases needed : needsFirst gran h fileSize data.length = true
    · by_cases valid : h.bufferValid = true
      · exact ⟨_, by rw [loadFirst, if_neg (by simp [needed]), if_neg (by simp [valid])]⟩
      · have inside : 0 < fileSize := by
          simp only [needsFirst, decide_eq_true_eq] at needed
          omega
        obtain ⟨sector, fetched⟩ := readable h.sectorCount inside
        rw [loadFirst, if_neg (by simp [needed]), if_pos (by simpa using valid), fetched]
        exact ⟨_, rfl⟩
    · exact ⟨_, if_pos (by simpa using needed)⟩
  obtain ⟨before, first⟩ := first
  have last : ∃ result, loadLast gran s addr fileSize h data.length plan before = .ok result := by
    simp only [loadLast]
    split_ifs with one inside
    · exact ⟨_, rfl⟩
    · obtain ⟨sector, fetched⟩ := readable (h.sectorCount + plan.writeBlocks - 1) (Nat.zero_lt_of_lt inside.2)
      rw [fetched]
      exact ⟨_, rfl⟩
    · exact ⟨_, rfl⟩
  obtain ⟨result, last⟩ := last
  rw [writeBuffer]
  split_ifs
  · exact ⟨_, rfl⟩
  · rw [first]
    exact ⟨_, by rw [bind_eq_ok]; exact ⟨before, rfl, bind_eq_ok.mpr ⟨result, last, rfl⟩⟩⟩

theorem writeFile_returns (distinct : Distinct s) (target : Target s handle h file)
    (allowed : h.flags.write = true) (nonempty : data ≠ []) (positive : 0 < gran)
    (live : updates (writeStart gran h file.fileSize) file env data.length ->
      ∀ id ∈ file.fhs, id ∈ s.handles.map Handle.handleId)
    (address : file.addr = 0 -> file.fileSize = 0)
    (fits : (writeStart gran h file.fileSize).sectorOffset + data.length + gran ≤ 2 ^ 32) :
    ∃ s', vfsWriteFile gran s handle data env = .ok (s', .written data.length) := by
  obtain ⟨got, acquired⟩ := target.found distinct
  generalize start : writeStart gran h file.fileSize = h₀ at live fits
  have whole : ¬ (writePlan gran h₀ data.length).writeBlocks * gran < h₀.sectorOffset + data.length :=
    (fits_iff positive (length_pos_iff.mpr nonempty)).mpr fits
  obtain ⟨⟨h', buf⟩, written⟩ : ∃ result, writeBuffer gran s env file.addr file.fileSize h₀ data
    (writePlan gran h₀ data.length) = .ok result := writeBuffer_returns address _
  obtain ⟨s₀, moved⟩ : ∃ s₀, s₀ = setHandle { s with content := writeContent gran s h₀ file env data.length buf }
    (writeEnd gran h₀ h' data.length) := ⟨_, rfl⟩
  have records : acquireVfile s₀ file.id = .ok file := by
    rw [moved, target.vfile]
    exact acquired
  obtain ⟨s₁, updated⟩ : ∃ s₁, updates h₀ file env data.length -> updateVfile s₀ file.id (newAddr file env)
      (if grows h₀ file.fileSize data.length then (h₀.fileOffset + data.length) % 2 ^ 64 else file.fileSize) handle =
      .ok s₁ := by
    by_cases changed : updates h₀ file env data.length
    · have ids : ∀ id ∈ file.fhs, id ≠ handle -> id ∈ s₀.handles.map Handle.handleId := by
        rw [moved, setHandle_ids]
        exact fun id member _ => live changed id member
      obtain ⟨s₁, invalidated⟩ := invalidateHandlersBuffer_returns_iff.mpr ids
      exact ⟨_, fun _ => bind_eq_ok.mpr ⟨file, records, bind_eq_ok.mpr ⟨s₁, invalidated, rfl⟩⟩⟩
    · exact ⟨s₀, fun now => absurd now changed⟩
  refine ⟨if updates h₀ file env data.length then s₁ else s₀, bind_eq_ok.mpr ⟨h, got, ?_⟩⟩
  rw [if_neg (by simp [allowed]), if_neg nonempty]
  refine bind_eq_ok.mpr ⟨file, acquired, ?_⟩
  simp only [start]
  rw [if_neg whole]
  refine bind_eq_ok.mpr ⟨(h', buf), written, ?_⟩
  subst moved
  change (if updates h₀ file env data.length then _ else _) = _
  by_cases changed : updates h₀ file env data.length
  · rw [if_pos changed, if_pos changed]
    exact bind_eq_ok.mpr ⟨s₁, updated changed, rfl⟩
  · rw [if_neg changed, if_neg changed]
    rfl

end state

section effect

structure Stores (gran : Nat) (s s' : State A P) (h : Handle A) (file : FileEnt P) (data : List A)
    (env : WriteEnv A) : Prop where
  window : ∀ k a, data[k]? = some a -> h.sectorOffset + k < env.stored * gran ->
    s'.content (newAddr file env) (h.fileOffset + k) = a
  outside : file.addr ≠ 0 -> ∀ x < file.fileSize, x < h.fileOffset ∨
    h.fileOffset + data.length ≤ x -> s'.content file.addr x = s.content file.addr x
  others : ∀ addr, addr ≠ newAddr file env -> s'.content addr = s.content addr

variable (wrote : Wrote gran s s' h h' file data env m r buf)
include wrote

theorem Wrote.stored (placed : h.Placed gran) : Stores gran s s' h file data env := by
  obtain ⟨start, position, -⟩ := placed
  have blocks := wrote.access.sectors
  have total := wrote.access.total
  have within := wrote.access.within
  have size := Nat.add_one_mul m gran
  rw [wrote.result]
  refine ⟨?_, ?_, ?_⟩
  · intro k a there fits
    have small := lt_of_getElem? there
    have inside : h.sectorOffset + k < min env.stored (m + 1) * gran := by
      rcases Nat.le_total env.stored (m + 1) with few | all
      · rw [Nat.min_eq_left few]
        exact fits
      · rw [Nat.min_eq_right all]
        omega
    show writeContent gran s h file env data.length buf _ _ = a
    rw [writeContent, update_self, blocks, overlay_inside (by omega)]
    have index : h.fileOffset + k - h.sectorCount * gran = h.sectorOffset + k := by omega
    rw [index]
    exact wrote.buffered.written k a there
  · intro addr x small outside
    have kept : newAddr file env = file.addr := if_neg addr
    show writeContent gran s h file env data.length buf _ _ = _
    rw [writeContent, kept, update_self, blocks]
    by_cases inside : h.sectorCount * gran ≤ x ∧ x < h.sectorCount * gran + min env.stored (m + 1) * gran
    · rw [overlay_inside inside]
      have limit : min env.stored (m + 1) * gran ≤ (m + 1) * gran := Nat.mul_le_mul_right _ (Nat.min_le_right _ _)
      have around := wrote.buffered.around (x - h.sectorCount * gran) (by omega) (by omega) (by omega)
      rw [Nat.add_sub_cancel' inside.1] at around
      exact around
    · exact overlay_outside (by omega)
  · intro addr other
    exact update_of_ne other _ _

theorem Wrote.placed (placed : h.Placed gran) (divides : gran ∣ 2 ^ 64) : (writeEnd gran h h' data.length).Placed gran := by
  obtain ⟨start, position, -⟩ := placed
  have within := wrote.access.within
  have offset : (h.fileOffset + data.length) % 2 ^ 64 % gran = (writePlan gran h data.length).endOffset := by
    have sum : h.fileOffset + data.length = r + (h.sectorCount + m) * gran := by
      have total := wrote.access.total
      rw [Nat.add_mul]
      omega
    rw [Nat.mod_mod_of_dvd _ divides, sum, Nat.add_mul_mod_self_right, wrote.access.ends]
    split
    · rename_i full
      rw [full, Nat.mod_self]
    · exact Nat.mod_eq_of_lt (by omega)
  exact placed_of_mod (by omega) offset.symm rfl (Nat.mod_lt _ (by decide))

end effect

section safety

def Allocates (s : State A P) (file : FileEnt P) (env : WriteEnv A) : Prop :=
  file.addr = 0 -> (env.newAddr = 0 ∧ env.stored = 0) ∨ (env.newAddr ≠ 0 ∧ ∀ e ∈ s.openFiles, e.addr ≠ env.newAddr)

/-- The write through `h` leaves `h` without a buffer: a write inside one sector finds none, and the last of
several sectors is not read. -/
def OwnSafe (gran : Nat) (h : Handle A) (fileSize size : Nat) : Prop :=
  if (writePlan gran h size).writeBlocks = 1 ∨ (h.sectorOffset = 0 ∧ (writePlan gran h size).endOffset = 0) then
    h.bufferValid = false
  else (writePlan gran h size).endOffset = 0 ∨ fileSize ≤ (h.fileOffset + size) % 2 ^ 64

def OthersSafe (gran : Nat) (s : State A P) (h : Handle A) (file : FileEnt P) (env : WriteEnv A) (size : Nat) : Prop :=
  ∀ x ∈ s.handles, x.vfileId = file.id -> x.handleId ≠ h.handleId -> x.bufferValid = true ->
    x.sectorCount < h.sectorCount ∨ h.sectorCount + (writePlan gran h size).writeBlocks ≤ x.sectorCount ∨
      (updates h file env size ∧ x.handleId ∈ file.fhs)

theorem Wrote.invalidated (wrote : Wrote gran s s' h h' file data env m r buf)
    (own : OwnSafe gran h file.fileSize data.length) : h'.bufferValid = false := by
  by_contra valid
  have blocks := wrote.access.sectors
  rw [OwnSafe] at own
  rcases wrote.buffered.valid (by simpa using valid) with ⟨old, short⟩ | ⟨several, partly, inside⟩
  · grind
  · grind

theorem newAddr_ne (good : Good gran s) (record : file ∈ s.openFiles) (allocates : Allocates s file env)
    (member : e ∈ s.openFiles) (different : e.id ≠ file.id) : e.addr ≠ newAddr file env := by
  have distinct : e.addr ≠ file.addr := fun same => different (congrArg FileEnt.id (unique good.addrs member record same))
  grind [newAddr, Allocates]

theorem writeRecord_id (e : FileEnt P) : (writeRecord h file env size e).id = e.id := by
  grind [writeRecord]

theorem writeRecord_addr (h : Handle A) (file : FileEnt P) (env : WriteEnv A) (size : Nat) :
    (writeRecord h file env size file).addr = newAddr file env := by
  grind [writeRecord, updates]

theorem writeRecord_other (different : e.id ≠ file.id) : writeRecord h file env size e = e :=
  if_neg fun same => different same.2

theorem writeRecord_addrs (good : Good gran s) (record : file ∈ s.openFiles) (allocates : Allocates s file env) :
    ((s.openFiles.map (writeRecord h file env size)).map FileEnt.addr).Nodup := by
  rw [map_map]
  refine Nodup.map_on ?_ good.ids.of_map
  intro e member e' member' same
  have only : ∀ x ∈ s.openFiles, x.id = file.id -> x = file := fun x inside => unique good.ids inside record
  have apart := fun x inside => newAddr_ne good record allocates (e := x) inside
  have addrs := unique good.addrs member member'
  grind [writeRecord_addr, writeRecord_other]

theorem outside_sectors {sector limit o : Nat} (small : o < gran)
    (outside : sector < first ∨ first + count ≤ sector) :
    sector * gran + o < first * gran ∨ first * gran + min limit count * gran ≤ sector * gran + o := by
  rcases outside with before | behind
  · have := Nat.mul_le_mul_right gran before
    rw [Nat.succ_mul] at this
    exact .inl (by omega)
  · have far := Nat.mul_le_mul_right gran behind
    have limited := Nat.mul_le_mul_right gran (Nat.min_le_right limit count)
    rw [Nat.add_mul] at far
    exact .inr (by omega)

theorem Wrote.good (wrote : Wrote gran s s' h h' file data env m r buf) (good : Good gran s) (divides : gran ∣ 2 ^ 64)
    {h₀ : Handle A} (target : Target s h.handleId h₀ file) (vfileId : h.vfileId = h₀.vfileId) (placed : h.Placed gran)
    (allocates : Allocates s file env) (own : OwnSafe gran h file.fileSize data.length)
    (others : OthersSafe gran s h file env data.length) : Good gran s' := by
  have endId : (writeEnd gran h h' data.length).handleId = h.handleId := by
    show h'.handleId = _
    rw [wrote.buffered.cursor]
  have endVfile : (writeEnd gran h h' data.length).vfileId = h₀.vfileId := by
    rw [wrote.buffered.cursor]
    exact vfileId
  have record : ∀ x ∈ s.openFiles, x.id = file.id -> x = file := fun x member same =>
    unique good.ids member target.record same
  -- Every other handle keeps its place, and keeps a buffer only if the write does not reach it.
  have each : ∀ x ∈ s.handles, (x = h₀ ∧ writeHandle gran h h' file env data.length x = writeEnd gran h h' data.length) ∨
      ∃ valid, writeHandle gran h h' file env data.length x = { x with bufferValid := valid } ∧ (valid = true ->
        x.handleId ≠ h.handleId ∧ x.bufferValid = true ∧ ¬ (updates h file env data.length ∧ x.handleId ∈ file.fhs)) := by
    intro x member
    rw [writeHandle]
    split_ifs with same reached
    · exact .inl ⟨unique good.handleIds member target.live (same.trans target.id.symm), rfl⟩
    · exact .inr ⟨false, rfl, nofun⟩
    · exact .inr ⟨_, rfl, fun valid => ⟨same, valid, reached⟩⟩
  rw [wrote.result]
  refine good.update _ _ _ ?_ ?_ ?_ ?_ ?_ ?_ ?_ ?_
  · intro x member
    rcases each x member with ⟨rfl, moved⟩ | ⟨valid, kept, -⟩
    · rw [moved, endId, target.id]
    · rw [kept]
  · intro x member
    rcases each x member with ⟨rfl, moved⟩ | ⟨valid, kept, -⟩
    · rw [moved, endVfile]
    · rw [kept]
  · exact fun e _ => writeRecord_id e
  · grind [writeRecord]
  · exact writeRecord_addrs good target.record allocates
  · have old := good.sizes
    grind [writeRecord]
  · intro x member
    rcases each x member with ⟨-, moved⟩ | ⟨valid, kept, -⟩
    · rw [moved]
      exact wrote.placed placed divides
    · rw [kept]
      exact good.placed x member
  · intro x member e inside same
    rcases each x member with ⟨-, moved⟩ | ⟨now, kept, old⟩
    · rw [moved]
      intro valid
      exact absurd valid (by simp [writeEnd, wrote.invalidated own])
    rw [kept]
    intro valid
    obtain ⟨other, valid, unreached⟩ := old valid
    obtain ⟨real, coherent⟩ := good.backed member inside same valid
    by_cases mine : e.id = file.id
    · rw [record e inside mine] at same real coherent ⊢
      have addr : newAddr file env = file.addr := if_neg real
      have sectors : x.sectorCount < h.sectorCount ∨
          h.sectorCount + (writePlan gran h data.length).writeBlocks ≤ x.sectorCount := by
        rcases others x member same.symm other valid with before | behind | reached
        · exact .inl before
        · exact .inr behind
        · exact absurd reached unreached
      rw [writeRecord_addr, addr]
      refine ⟨real, fun o small => ?_⟩
      rw [writeContent, addr, update_self, overlay_outside (outside_sectors small sectors)]
      exact coherent o small
    · rw [writeRecord_other mine, writeContent, update_of_ne (newAddr_ne good target.record allocates inside mine)]
      exact ⟨real, coherent⟩

end safety

end Bincows.Vfs
