import Bincows.Fs.Handles

set_option autoImplicit false

namespace Bincows.Vfs

open Keyed List

variable {A P : Type} {gran offset size : Nat} {s s' : State A P}

def Handle.Placed (gran : Nat) (h : Handle A) : Prop :=
  h.sectorOffset < gran ∧ h.fileOffset = h.sectorCount * gran + h.sectorOffset ∧ h.fileOffset < 2 ^ 64

def Handle.Coherent (gran : Nat) (content : Nat -> A) (h : Handle A) : Prop :=
  h.bufferValid = true -> ∀ o < gran, h.sectorBuff o = content (h.sectorCount * gran + o)

structure Good (gran : Nat) (s : State A P) : Prop where
  ids : (s.openFiles.map FileEnt.id).Nodup
  idBound : ∀ e ∈ s.openFiles, e.id ≤ s.curId
  addrs : (s.openFiles.map FileEnt.addr).Nodup
  sizes : ∀ e ∈ s.openFiles, e.fileSize < 2 ^ 64
  handleIds : (s.handles.map Handle.handleId).Nodup
  handleBound : ∀ h ∈ s.handles, h.handleId < s.nextHandle
  counts : ∀ e ∈ s.openFiles, e.fhs.length = s.handles.countP fun h => h.vfileId = e.id
  files : ∀ h ∈ s.handles, ∃ e ∈ s.openFiles, e.id = h.vfileId
  placed : ∀ h ∈ s.handles, h.Placed gran
  coherent : ∀ h ∈ s.handles, ∀ e ∈ s.openFiles, e.id = h.vfileId -> h.Coherent gran (s.content e.addr)
  buffered : ∀ h ∈ s.handles, ∀ e ∈ s.openFiles, e.id = h.vfileId -> h.bufferValid = true -> e.addr ≠ 0

def Handle.Backed (gran : Nat) (content : Nat -> Nat -> A) (addr : Nat) (h : Handle A) : Prop :=
  h.bufferValid = true -> addr ≠ 0 ∧ ∀ o < gran, h.sectorBuff o = content addr (h.sectorCount * gran + o)

section sectors

-- The sums of 32 bits give the size of a buffer that holds the access exactly if they do not wrap around.
theorem fits_iff (positive : 0 < gran) (some : 0 < size) :
    ¬ ((offset + size) % 2 ^ 32 + gran - 1) % 2 ^ 32 / gran * gran < offset + size ↔ offset + size + gran ≤ 2 ^ 32 := by
  constructor
  · intro fits
    have below := Nat.div_mul_le_self (((offset + size) % 2 ^ 32 + gran - 1) % 2 ^ 32) gran
    have limit := Nat.mod_lt ((offset + size) % 2 ^ 32 + gran - 1) (show 0 < 2 ^ 32 by decide)
    have sum : (offset + size) % 2 ^ 32 = offset + size := Nat.mod_eq_of_lt (by omega)
    rw [sum] at fits below limit
    by_contra wraps
    have shifted : (offset + size + gran - 1) % 2 ^ 32 < gran := by
      by_cases large : 2 ^ 32 < gran
      · omega
      · omega
    rw [Nat.div_eq_of_lt shifted] at fits
    omega
  · intro fits
    have above := Nat.lt_div_mul_add (a := offset + size + gran - 1) positive
    rw [Nat.mod_eq_of_lt (show offset + size < 2 ^ 32 by omega), Nat.mod_eq_of_lt (by omega)]
    omega

structure Access (gran offset size blocks endOffset m r : Nat) : Prop where
  sectors : blocks = m + 1
  total : offset + size = m * gran + r
  some : 0 < r
  within : r ≤ gran
  ends : endOffset = if r = gran then 0 else r

theorem access_exists (positive : 0 < gran) (some : 0 < size) (fits : offset + size + gran ≤ 2 ^ 32) :
    ∃ m r, Access gran offset size (((offset + size) % 2 ^ 32 + gran - 1) % 2 ^ 32 / gran)
      ((offset + size) % 2 ^ 32 % gran) m r := by
  have sum : (offset + size) % 2 ^ 32 = offset + size := Nat.mod_eq_of_lt (by omega)
  have split := Nat.div_add_mod (offset + size - 1) gran
  have below := Nat.mod_lt (offset + size - 1) positive
  refine ⟨(offset + size - 1) / gran, (offset + size - 1) % gran + 1, ?_, ?_, by omega, by omega, ?_⟩
  · have shift : offset + size + gran - 1 = offset + size - 1 + gran := by omega
    rw [sum, Nat.mod_eq_of_lt (by omega), shift, Nat.add_div_right _ positive]
  · rw [Nat.mul_comm] at split
    omega
  · have total : offset + size = (offset + size - 1) % gran + 1 + gran * ((offset + size - 1) / gran) := by omega
    rw [sum]
    conv_lhs => rw [total]
    rw [Nat.add_mul_mod_self_left]
    split
    · rename_i full
      rw [full, Nat.mod_self]
    · rename_i partly
      exact Nat.mod_eq_of_lt (by omega)

end sectors

section reading

variable {h h' : Handle A} {addr bsize : Nat} {content buf : Nat -> A} {data : List A}

theorem length_copyFrom (buf : Nat -> A) (first count : Nat) : (copyFrom buf first count).length = count := by
  simp [copyFrom]

theorem copyFrom_congr {buf' : Nat -> A} {first first' count : Nat}
    (same : ∀ k < count, buf (first + k) = buf' (first' + k)) : copyFrom buf first count = copyFrom buf' first' count :=
  map_congr_left fun k member => same k (mem_range.mp member)

theorem copyFrom_add (buf : Nat -> A) (first count more : Nat) :
    copyFrom buf first (count + more) = copyFrom buf first count ++ copyFrom buf (first + count) more := by
  simp [copyFrom, range_add, Nat.add_assoc]

structure Reads (gran : Nat) (content : Nat -> A) (h h' : Handle A) (data : List A) : Prop where
  handleId : h'.handleId = h.handleId
  vfileId : h'.vfileId = h.vfileId
  placed : h'.Placed gran
  coherent : h'.Coherent gran content
  offset : h'.fileOffset = h.fileOffset + data.length
  bytes : data = copyFrom content h.fileOffset data.length

theorem Reads.trans {h'' : Handle A} {more : List A} (first : Reads gran content h h' data)
    (second : Reads gran content h' h'' more) : Reads gran content h h'' (data ++ more) := by
  refine ⟨second.handleId.trans first.handleId, second.vfileId.trans first.vfileId, second.placed, second.coherent, ?_, ?_⟩
  · rw [second.offset, first.offset, length_append, Nat.add_assoc]
  · rw [length_append, copyFrom_add, ← first.bytes, ← first.offset, ← second.bytes]

theorem Reads.of_copy {first n : Nat} (handleId : h'.handleId = h.handleId) (vfileId : h'.vfileId = h.vfileId)
    (placed : h'.Placed gran) (coherent : h'.Coherent gran content) (offset : h'.fileOffset = h.fileOffset + n)
    (bytes : ∀ k < n, buf (first + k) = content (h.fileOffset + k)) : Reads gran content h h' (copyFrom buf first n) :=
  ⟨handleId, vfileId, placed, coherent, by rw [length_copyFrom, offset], by rw [length_copyFrom]; exact copyFrom_congr bytes⟩

theorem readBuffered_reads (placed : h.Placed gran) (valid : h.bufferValid = true)
    (coherent : h.Coherent gran content) (fits : h.fileOffset + bsize < 2 ^ 64) :
    Reads gran content h (readBuffered gran h bsize).1 (readBuffered gran h bsize).2 ∧
      (readBuffered gran h bsize).2.length = min (gran - h.sectorOffset) bsize ∧
      ((readBuffered gran h bsize).2.length < bsize ->
        (readBuffered gran h bsize).1.bufferValid = false ∧ (readBuffered gran h bsize).1.sectorOffset = 0) := by
  obtain ⟨start, position, bound⟩ := placed
  rw [readBuffered]
  generalize amount : min (gran - h.sectorOffset) bsize = n
  have bytes : ∀ k < n, h.sectorBuff (h.sectorOffset + k) = content (h.fileOffset + k) := by
    intro k small
    rw [coherent valid _ (by omega), position, Nat.add_assoc]
  by_cases consumed : h.sectorOffset + n = gran
  · simp only [if_pos consumed, length_copyFrom]
    refine ⟨.of_copy rfl rfl ⟨Nat.zero_lt_of_lt start, ?_, ?_⟩ nofun rfl bytes, trivial, fun _ => ⟨trivial, trivial⟩⟩
    · show h.fileOffset + n = (h.sectorCount + 1) * gran + 0
      rw [Nat.add_mul]
      omega
    · show h.fileOffset + n < 2 ^ 64
      omega
  · simp only [if_neg consumed, length_copyFrom]
    refine ⟨.of_copy rfl rfl ⟨?_, ?_, ?_⟩ (fun _ => coherent valid) rfl bytes, trivial, fun _ => by omega⟩
    · show h.sectorOffset + n < gran
      omega
    · show h.fileOffset + n = h.sectorCount * gran + (h.sectorOffset + n)
      omega
    · show h.fileOffset + n < 2 ^ 64
      omega

theorem placed_of_mod (positive : 0 < gran) (offset : h.sectorOffset = h.fileOffset % gran)
    (count : h.sectorCount = h.fileOffset / gran) (bound : h.fileOffset < 2 ^ 64) : h.Placed gran :=
  ⟨offset ▸ Nat.mod_lt _ positive, by rw [offset, count, Nat.div_add_mod'], bound⟩

theorem readFileSectors_ok {begin : Nat} (result : readFileSectors gran s addr begin = .ok buf) :
    addr ≠ 0 ∧ buf = fun k => s.content addr (begin * gran + k) := by
  rw [readFileSectors] at result
  split at result
  · cases result
  · rename_i used
    cases result
    exact ⟨used, rfl⟩

section

variable (placed : h.Placed gran) (invalid : h.bufferValid = false) (some : 0 < bsize)
  (fits : h.fileOffset + bsize < 2 ^ 64)
include placed invalid some fits

theorem readUnbuffered_reads (result : readUnbuffered gran s addr h bsize = .ok (h', data)) :
    (addr ≠ 0 ∧ h.sectorOffset + bsize + gran ≤ 2 ^ 32) ∧ data.length = bsize ∧ Reads gran (s.content addr) h h' data := by
  obtain ⟨start, position, bound⟩ := placed
  obtain ⟨readBuf, fetched, rest⟩ := bind_eq_ok.mp result
  obtain ⟨used, rfl⟩ := readFileSectors_ok fetched
  split at rest
  · cases rest
  rename_i inside
  have small := (fits_iff (by omega) some).mp inside
  have sum : (h.fileOffset + bsize) % 2 ^ 64 = h.sectorCount * gran + (h.sectorOffset + bsize) := by omega
  have ends : (h.sectorOffset + bsize) % 2 ^ 32 % gran = (h.fileOffset + bsize) % 2 ^ 64 % gran := by
    rw [sum, Nat.mul_add_mod', Nat.mod_eq_of_lt (by omega : h.sectorOffset + bsize < 2 ^ 32)]
  have bytes (k : Nat) : s.content addr (h.sectorCount * gran + (h.sectorOffset + k)) = s.content
      addr (h.fileOffset + k) := by
    rw [position, Nat.add_assoc]
  have bounded := Nat.mod_lt (h.fileOffset + bsize) (show 0 < 2 ^ 64 by decide)
  by_cases whole : (h.sectorOffset + bsize) % 2 ^ 32 % gran = 0
  · simp only [whole, ne_eq, not_true_eq_false, if_false] at rest
    cases rest
    exact ⟨⟨used, small⟩, length_copyFrom _ _ _,
      .of_copy rfl rfl (placed_of_mod (by omega) (whole.symm.trans ends) rfl bounded)
      (fun valid => absurd valid (by simp [invalid])) (Nat.mod_eq_of_lt fits) fun k _ => bytes k⟩
  obtain ⟨m, r, access⟩ := access_exists (by omega) some small
  have total := access.total
  have within := access.within
  have partly : r ≠ gran := fun full => whole (access.ends.trans (if_pos full))
  have size : (m + 1) * gran < 2 ^ 32 := by
    rw [← access.sectors]
    exact (Nat.div_mul_le_self _ _).trans_lt (Nat.mod_lt _ (by decide))
  have index : (h.fileOffset + bsize) % 2 ^ 64 / gran = h.sectorCount + m := by
    rw [sum, total, ← Nat.add_assoc, ← Nat.add_mul, Nat.mul_comm, Nat.mul_add_div (by omega),
      Nat.div_eq_of_lt (by omega), Nat.add_zero]
  simp only [whole, ne_eq, not_false_eq_true, if_true, access.sectors, Nat.mod_eq_of_lt size] at rest
  cases rest
  refine ⟨⟨used, small⟩, length_copyFrom _ _ _, .of_copy rfl rfl (placed_of_mod (by omega) ends rfl bounded) (fun _ o _ => ?_)
    (Nat.mod_eq_of_lt fits) fun k _ => bytes k⟩
  rw [index, Nat.succ_mul, Nat.add_sub_cancel, Nat.add_mul, Nat.add_assoc]

theorem readUnbuffered_exactly :
    (readUnbuffered gran s addr h bsize).Exactly (addr ≠ 0 ∧ h.sectorOffset + bsize + gran ≤ 2 ^ 32)
      fun (h', data) => data.length = bsize ∧ Reads gran (s.content addr) h h' data := by
  refine ⟨?_, fun _ result => readUnbuffered_reads placed invalid some fits result⟩
  rintro ⟨used, small⟩
  have inside := (fits_iff (Nat.zero_lt_of_lt placed.1) some).mpr small
  rw [readUnbuffered, readFileSectors, if_neg used]
  exact ⟨_, if_neg inside⟩

end

end reading

section states

variable {h h' : Handle A} {e e' : FileEnt P} {handle vfileId : Nat} {result : Option Nat}
  {garbage : Nat -> A}

theorem getHandle_ok (found : getHandle s handle = .ok h) : lookup Handle.handleId s.handles handle = some h := by
  rw [getHandle] at found
  split at found <;> cases found
  assumption

theorem acquireVfile_ok {id : Nat} (found : acquireVfile s id = .ok e) : lookup FileEnt.id s.openFiles id = some e := by
  rw [acquireVfile] at found
  split at found <;> cases found
  assumption

theorem setStreamOffset_placed (positive : 0 < gran) (h : Handle A) (bound : offset < 2 ^ 64) :
    (setStreamOffset gran h offset).Placed gran := placed_of_mod positive rfl rfl bound

def readable (fileSize offset size : Nat) : Nat :=
  if fileSize ≠ 2 ^ 64 - 1 ∧ fileSize ≤ offset then 0 else min size (fileSize - offset) % 2 ^ 32

section

variable (good : Good gran s)
include good

theorem Good.record (member : h ∈ s.handles) :
    ∃ e ∈ s.openFiles, e.id = h.vfileId ∧ acquireVfile s h.vfileId = .ok e := by
  obtain ⟨e, there, same⟩ := good.files h member
  refine ⟨e, there, same, ?_⟩
  rw [acquireVfile, ← same, lookup_of_mem good.ids there]

theorem Good.backed (member : h ∈ s.handles) (there : e ∈ s.openFiles) (same : e.id = h.vfileId) :
    h.Backed gran s.content e.addr :=
  fun valid => ⟨good.buffered h member e there same valid, good.coherent h member e there same valid⟩

theorem Good.update (φ : Handle A -> Handle A) (ψ : FileEnt P -> FileEnt P) (content : Nat -> Nat -> A)
    (handleIds : ∀ h ∈ s.handles, (φ h).handleId = h.handleId) (vfileIds : ∀ h ∈ s.handles, (φ h).vfileId = h.vfileId)
    (ids : ∀ e ∈ s.openFiles, (ψ e).id = e.id) (fhs : ∀ e ∈ s.openFiles, (ψ e).fhs = e.fhs)
    (addrs : ((s.openFiles.map ψ).map FileEnt.addr).Nodup) (sizes : ∀ e ∈ s.openFiles, (ψ e).fileSize < 2 ^ 64)
    (placed : ∀ h ∈ s.handles, (φ h).Placed gran)
    (backed : ∀ h ∈ s.handles, ∀ e ∈ s.openFiles, e.id = h.vfileId -> (φ h).Backed gran content (ψ e).addr) :
    Good gran { s with handles := s.handles.map φ, openFiles := s.openFiles.map ψ, content } := by
  have sameIds : (s.openFiles.map ψ).map FileEnt.id = s.openFiles.map FileEnt.id := by
    rw [map_map]
    exact map_congr_left ids
  have sameHandles : (s.handles.map φ).map Handle.handleId = s.handles.map Handle.handleId := by
    rw [map_map]
    exact map_congr_left handleIds
  have all : ∀ h ∈ s.handles.map φ, ∀ e ∈ s.openFiles.map ψ, e.id = h.vfileId -> h.Backed gran content e.addr := by
    refine forall_mem_map.mpr fun h there => forall_mem_map.mpr fun e inside same => ?_
    rw [ids e inside, vfileIds h there] at same
    exact backed h there e inside same
  refine ⟨sameIds ▸ good.ids, ?_, addrs, forall_mem_map.mpr sizes, sameHandles ▸ good.handleIds, ?_, ?_, ?_,
    forall_mem_map.mpr placed, fun h there e inside same valid => (all h there e inside same valid).2,
    fun h there e inside same valid => (all h there e inside same valid).1⟩
  · exact forall_mem_map.mpr fun e there => (ids e there).trans_le (good.idBound e there)
  · exact forall_mem_map.mpr fun h there => (handleIds h there).trans_lt (good.handleBound h there)
  · refine forall_mem_map.mpr fun e there => ?_
    rw [fhs e there, ids e there, good.counts e there, countP_map]
    apply countP_congr
    intro h inside
    simp [vfileIds h inside]
  · refine forall_mem_map.mpr fun h there => ?_
    obtain ⟨e, inside, same⟩ := good.files h there
    exact ⟨ψ e, mem_map_of_mem inside, by rw [ids e inside, vfileIds h there, same]⟩

theorem setHandle_eq (h : Handle A) :
    setHandle s h =
      { s with
        handles := s.handles.map fun x => if x.handleId = h.handleId then h else x
        openFiles := s.openFiles.map fun e => e
        content := s.content } := by
  rw [setHandle, modify_eq_map good.handleIds, map_id']

theorem Good.setHandle (found : lookup Handle.handleId s.handles h'.handleId = some h)
    (vfileId : h'.vfileId = h.vfileId) (placed : h'.Placed gran)
    (backed : ∀ e ∈ s.openFiles, e.id = h.vfileId -> h'.Backed gran s.content e.addr) : Good gran (setHandle s h') := by
  obtain ⟨there, sameId⟩ := lookup_some found
  have only : ∀ x ∈ s.handles, x.handleId = h'.handleId -> x = h := fun x member same =>
    unique good.handleIds member there (same.trans sameId.symm)
  rw [setHandle_eq good]
  refine good.update _ _ _ ?_ ?_ (fun _ _ => rfl) (fun _ _ => rfl) ?_ good.sizes ?_ ?_
  · intro x member
    split
    · rename_i same
      exact same.symm
    · rfl
  · intro x member
    split
    · rename_i same
      rw [only x member same, vfileId]
    · rfl
  · rw [map_id']
    exact good.addrs
  · intro x member
    split
    · exact placed
    · exact good.placed x member
  · intro x member e inside same
    split
    · rename_i changed
      rw [only x member changed] at same
      exact backed e inside same
    · exact good.backed member inside same

theorem Good.setStreamOffset (positive : 0 < gran)
    (found : lookup Handle.handleId s.handles h.handleId = some h) (bound : offset < 2 ^ 64) :
    Good gran (Vfs.setHandle s (setStreamOffset gran h offset)) :=
  good.setHandle found rfl (setStreamOffset_placed positive h bound) fun _ _ _ => nofun

theorem vfsSeekFile_good (positive : 0 < gran) (bound : offset < 2 ^ 64)
    {whence : Whence} (returns : vfsSeekFile gran s handle offset whence = .ok (s', result)) :
    Good gran s' := by
  obtain ⟨h, got, rest⟩ := bind_eq_ok.mp returns
  have found := getHandle_ok got
  obtain ⟨there, sameId⟩ := lookup_some found
  subst sameId
  split at rest
  · cases rest
    exact good
  cases whence with
  | other =>
    cases rest
    exact good
  | set =>
    cases rest
    exact good.setStreamOffset positive found bound
  | cur =>
    cases rest
    exact good.setStreamOffset positive found (Nat.mod_lt _ (by decide))
  | fromEnd =>
    obtain ⟨file, -, rest⟩ := bind_eq_ok.mp rest
    cases rest
    exact good.setStreamOffset positive found (Nat.mod_lt _ (by decide))

theorem Reads.keeps_good {data : List A} (found : lookup Handle.handleId s.handles h.handleId = some h)
    (there : e ∈ s.openFiles) (same : e.id = h.vfileId) (reads : Reads gran (s.content e.addr) h h' data)
    (buffered : h'.bufferValid = true -> e.addr ≠ 0) : Good gran (Vfs.setHandle s h') := by
  have only : ∀ x ∈ s.openFiles, x.id = h.vfileId -> x = e := fun x member equal =>
    unique good.ids member there (equal.trans same.symm)
  refine good.setHandle (h := h)
    (by rw [reads.handleId]; exact found) reads.vfileId reads.placed fun x member equal valid => ?_
  rw [only x member equal]
  exact ⟨buffered valid, reads.coherent valid⟩

end

def Fetchable (gran : Nat) (h : Handle A) (addr n : Nat) : Prop :=
  n = 0 ∨ (h.bufferValid = true ∧ n ≤ gran - h.sectorOffset) ∨
    (addr ≠ 0 ∧ (if h.bufferValid then n - (gran - h.sectorOffset) else h.sectorOffset + n) + gran ≤ 2 ^ 32)

theorem vfsReadFile_exactly (got : getHandle s handle = .ok h) (allowed : h.flags.read = true)
    (acquired : acquireVfile s h.vfileId = .ok e) (placed : h.Placed gran) (coherent : h.Coherent gran (s.content e.addr))
    (bound : e.fileSize < 2 ^ 64) (size : Nat) :
    (vfsReadFile gran s handle size).Exactly (Fetchable gran h e.addr (readable e.fileSize h.fileOffset size))
      fun (s', result) => ∃ h' data, (s' = s ∧ h' = h ∨ s' = setHandle s h') ∧ result = .bytes data ∧
        data.length = readable e.fileSize h.fileOffset size ∧ Reads gran (s.content e.addr) h h' data ∧
        (h'.bufferValid = true -> h.bufferValid = true ∨ e.addr ≠ 0) := by
  have nothing : Reads gran (s.content e.addr) h h [] := ⟨rfl, rfl, placed, coherent, rfl, rfl⟩
  rw [vfsReadFile, got]
  show Except.Exactly (if ¬ h.flags.read then _ else acquireVfile s h.vfileId >>= _) _ _
  rw [if_neg (by simp [allowed]), acquired]
  show Except.Exactly (if _ then _ else _) _ _
  by_cases ended : e.fileSize ≠ 2 ^ 64 - 1 ∧ e.fileSize ≤ h.fileOffset
  · have none : readable e.fileSize h.fileOffset size = 0 := if_pos ended
    rw [if_pos ended, none]
    exact .ok (.inl rfl) ⟨h, [], .inl ⟨rfl, rfl⟩, rfl, rfl, nothing, .inl⟩
  have offset := placed.2.2
  have start := placed.1
  have available : (e.fileSize + 2 ^ 64 - h.fileOffset) % 2 ^ 64 = e.fileSize - h.fileOffset := by omega
  have amount : readable e.fileSize h.fileOffset size = min size (e.fileSize - h.fileOffset) % 2 ^ 32 := if_neg ended
  have limit : readable e.fileSize h.fileOffset size ≤ e.fileSize - h.fileOffset := by
    rw [amount]
    exact (Nat.mod_le _ _).trans (Nat.min_le_right _ _)
  rw [if_neg ended]
  simp only [available, ← amount]
  generalize readable e.fileSize h.fileOffset size = bsize at limit ⊢
  by_cases zero : bsize = 0
  · rw [if_pos zero]
    exact .ok (.inl zero) ⟨h, [], .inl ⟨rfl, rfl⟩, rfl, zero.symm, nothing, .inl⟩
  have fits : h.fileOffset + bsize < 2 ^ 64 := by omega
  rw [if_neg zero]
  by_cases valid : h.bufferValid = true
  · obtain ⟨first, taken, left⟩ := readBuffered_reads placed valid coherent fits
    rw [if_pos valid, if_neg (by omega)]
    by_cases complete : bsize - (readBuffered gran h bsize).2.length = 0
    · simp only [if_pos complete]
      exact .ok (.inr (.inl ⟨valid, by omega⟩)) ⟨_, _, .inr rfl, rfl, by omega, first, fun _ => .inl valid⟩
    obtain ⟨invalid, aligned⟩ := left (by omega)
    have position := first.placed.2.1
    rw [aligned, Nat.add_zero, Nat.mul_comm] at position
    simp only [if_neg complete, aligned, position, ne_eq, not_true_eq_false, or_self, if_false]
    refine ((readUnbuffered_exactly first.placed invalid (by omega) (by rw [first.offset]; omega)).bind_total ?_).mono
      ?_ fun _ _ post => post
    · rintro ⟨h', data⟩ - ⟨length, second⟩
      refine ⟨_, if_neg (by omega), h', _, .inr rfl, rfl, ?_, first.trans second, fun _ => .inl valid⟩
      rw [length_append, length]
      omega
    · have longer : ¬ bsize ≤ gran - h.sectorOffset := by omega
      have rest : bsize - (readBuffered gran h bsize).2.length = bsize - (gran - h.sectorOffset) := by omega
      simp [Fetchable, zero, valid, longer, aligned, rest]
  · rw [if_neg valid]
    refine ((readUnbuffered_exactly placed (by simpa using valid) (by omega) fits).bind_total ?_).mono ?_ fun _ _ post => post
    · rintro ⟨h', data⟩ ⟨used, -⟩ ⟨length, reads⟩
      refine ⟨_, if_neg (by omega), h', data, .inr rfl, rfl, length, reads, fun _ => .inr used⟩
    · simp [Fetchable, zero, valid]

theorem vfsReadFile_exact (good : Good gran s) {result : ReadResult A}
    (returns : vfsReadFile gran s handle size = .ok (s', result)) :
    Good gran s' ∧ ∃ h ∈ s.handles, h.handleId = handle ∧ ∃ e ∈ s.openFiles, e.id = h.vfileId ∧
      result = if h.flags.read then .bytes (copyFrom (s.content e.addr) h.fileOffset (readable e.fileSize h.fileOffset size))
        else .refused := by
  obtain ⟨h, got, rest⟩ := bind_eq_ok.mp returns
  have found := getHandle_ok got
  obtain ⟨there, sameId⟩ := lookup_some found
  obtain ⟨e, inside, same, acquired⟩ := good.record there
  have buffered := good.buffered h there e inside same
  by_cases allowed : h.flags.read = true
  · obtain ⟨-, h', data, moved, rfl, length, reads, valid⟩ := (vfsReadFile_exactly got allowed acquired (good.placed h there)
      (good.coherent h there e inside same) (good.sizes e inside) size).2 _ returns
    refine ⟨?_, h, there, sameId, e, inside, same, ?_⟩
    · rcases moved with ⟨rfl, -⟩ | rfl
      · exact good
      · exact Reads.keeps_good good (sameId ▸ found) inside same reads fun now => (valid now).elim buffered id
    · rw [if_pos allowed, ← length]
      exact congrArg ReadResult.bytes reads.bytes
  · rw [if_pos (by simpa using allowed)] at rest
    cases rest
    exact ⟨good, h, there, sameId, e, inside, same, (if_neg allowed).symm⟩

structure Replaced (e e' : FileEnt P) (before after : List (FileEnt P)) : Prop where
  ids : after.map FileEnt.id = before.map FileEnt.id
  addrs : after.map FileEnt.addr = before.map FileEnt.addr
  back : ∀ y ∈ after, ∃ x ∈ before, y.id = x.id ∧ y.addr = x.addr ∧ y.fileSize = x.fileSize ∧
    ((y = x ∧ x.id ≠ e.id) ∨ (y = e' ∧ x = e))

theorem setVfile_replaces (e' : FileEnt P) (ids : (s.openFiles.map FileEnt.id).Nodup) (there : e ∈ s.openFiles)
    (id : e'.id = e.id) (addr : e'.addr = e.addr) (fileSize : e'.fileSize = e.fileSize) :
    Replaced e e' s.openFiles (setVfile s e').openFiles := by
  have only : ∀ x ∈ s.openFiles, x.id = e'.id -> x = e := fun x member equal => unique ids member there (equal.trans id)
  have records : (setVfile s e').openFiles = s.openFiles.map fun x => if x.id = e'.id then e' else x := modify_eq_map ids
  have each : ∀ x ∈ s.openFiles, (if x.id = e'.id then e' else x).id = x.id ∧
      (if x.id = e'.id then e' else x).addr = x.addr ∧ (if x.id = e'.id then e' else x).fileSize = x.fileSize := by
    intro x member
    split
    next equal =>
      rw [only x member equal]
      exact ⟨id, addr, fileSize⟩
    · exact ⟨rfl, rfl, rfl⟩
  rw [records]
  refine ⟨?_, ?_, ?_⟩
  · rw [map_map]
    exact map_congr_left fun x member => (each x member).1
  · rw [map_map]
    exact map_congr_left fun x member => (each x member).2.1
  · intro y member
    obtain ⟨x, inside, rfl⟩ := mem_map.mp member
    refine ⟨x, inside, (each x inside).1, (each x inside).2.1, (each x inside).2.2, ?_⟩
    split
    next equal =>
      exact .inr ⟨rfl, only x inside equal⟩
    next equal =>
      exact .inl ⟨rfl, fun other => equal (other.trans id.symm)⟩

theorem Replaced.forth {before after : List (FileEnt P)} (replaced : Replaced e e' before after)
    {x : FileEnt P} (member : x ∈ before) : ∃ y ∈ after, y.id = x.id := by
  have inside : x.id ∈ after.map FileEnt.id := replaced.ids ▸ mem_map_of_mem member
  obtain ⟨y, there, same⟩ := mem_map.mp inside
  exact ⟨y, there, same⟩

section

variable (good : Good gran s)
include good

theorem Good.rehandle {handles : List (Handle A)} {openFiles : List (FileEnt P)}
    {nextHandle : Nat} (replaced : Replaced e e' s.openFiles openFiles) (handleIds : (handles.map Handle.handleId).Nodup)
    (handleBound : ∀ h ∈ handles, h.handleId < nextHandle)
    (count : e'.fhs.length = handles.countP fun h => h.vfileId = e.id)
    (counts : ∀ id, id ≠ e.id -> handles.countP (fun h => h.vfileId = id) = s.handles.countP fun h => h.vfileId = id)
    (each : ∀ h ∈ handles, h ∈ s.handles ∨ (h.bufferValid = false ∧ h.Placed gran ∧ ∃ x ∈ s.openFiles, x.id = h.vfileId)) :
    Good gran { s with handles, openFiles, nextHandle } := by
  have backed : ∀ h ∈ handles, ∀ y ∈ openFiles, y.id = h.vfileId -> h.Backed gran s.content y.addr := by
    intro h member y member' same valid
    obtain ⟨x, inside, id, addr, -⟩ := replaced.back y member'
    rcases each h member with old | ⟨invalid, -⟩
    · rw [addr]
      exact good.backed old inside (id.symm.trans same) valid
    · rw [invalid] at valid
      cases valid
  refine ⟨replaced.ids ▸ good.ids, ?_, replaced.addrs ▸ good.addrs, ?_, handleIds, handleBound, ?_, ?_, ?_, ?_, ?_⟩
  · intro y member
    obtain ⟨x, inside, id, -⟩ := replaced.back y member
    rw [id]
    exact good.idBound x inside
  · intro y member
    obtain ⟨x, inside, -, -, size, -⟩ := replaced.back y member
    rw [size]
    exact good.sizes x inside
  · intro y member
    obtain ⟨x, inside, id, -, -, ⟨rfl, other⟩ | ⟨rfl, rfl⟩⟩ := replaced.back y member
    · rw [good.counts y inside]
      exact (counts y.id other).symm
    · rw [id]
      exact count
  · intro h member
    obtain ⟨x, inside, same⟩ : ∃ x ∈ s.openFiles, x.id = h.vfileId := by
      rcases each h member with old | ⟨-, -, record⟩
      · exact good.files h old
      · exact record
    obtain ⟨y, there, equal⟩ := replaced.forth inside
    exact ⟨y, there, equal.trans same⟩
  · intro h member
    rcases each h member with old | ⟨-, placed, -⟩
    · exact good.placed h old
    · exact placed
  · exact fun h member y member' same valid => (backed h member y member' same valid).2
  · exact fun h member y member' same valid => (backed h member y member' same valid).1

theorem Good.register (placed : h.Placed gran) (invalid : h.bufferValid = false)
    (bound : h.handleId < s.nextHandle) (fresh : ∀ x ∈ s.handles, x.handleId ≠ h.handleId)
    (returns : registerHandleToVfile s vfileId h = .ok s') : Good gran s' := by
  obtain ⟨e, acquired, rest⟩ := bind_eq_ok.mp returns
  cases rest
  obtain ⟨there, same⟩ := lookup_some (acquireVfile_ok acquired)
  have replaced := setVfile_replaces { e with fhs := e.fhs ++ [h.handleId] } good.ids there rfl rfl rfl
  refine good.rehandle replaced ?_ ?_ ?_ ?_ ?_
  · exact good.handleIds.map_concat fresh
  · exact forall_mem_concat good.handleBound bound
  · show _ = (s.handles ++ [{ h with vfileId }]).countP _
    rw [countP_append, ← good.counts e there]
    simp [same]
  · intro id different
    show (s.handles ++ [{ h with vfileId }]).countP _ = _
    have other : ¬ vfileId = id := fun equal => different (equal.symm.trans same.symm)
    rw [countP_append]
    simp [other]
  · exact forall_mem_concat (fun _ => .inl) (.inr ⟨invalid, placed, e, there, same⟩)

theorem Good.nextHandle : Good gran { s with nextHandle := s.nextHandle + 1 } :=
  { good with handleBound := fun h member => (good.handleBound h member).trans (Nat.lt_succ_self _) }

theorem searchOrInsertFile_good (addr : Nat) {fileLen : Nat} (path : P) (bound : fileLen < 2 ^ 64) :
    Good gran (searchOrInsertFile s addr fileLen path).1 := by
  rw [searchOrInsertFile]
  split
  · exact good
  rename_i missing
  have newId : ∀ h ∈ s.handles, h.vfileId ≠ s.curId + 1 := by
    intro h member equal
    obtain ⟨e, there, same⟩ := good.files h member
    have := good.idBound e there
    omega
  refine ⟨?_, ?_, ?_, ?_, good.handleIds, good.handleBound, ?_, ?_, good.placed, ?_, ?_⟩
  · exact good.ids.map_concat fun e there => (Nat.lt_succ_of_le (good.idBound e there)).ne
  · exact forall_mem_concat (fun e old => (good.idBound e old).trans (Nat.le_succ _)) (Nat.le_refl _)
  · exact good.addrs.map_concat fun e there => by simpa using find?_eq_none.mp missing e there
  · exact forall_mem_concat good.sizes bound
  · refine forall_mem_concat good.counts ?_
    symm
    exact countP_eq_zero.mpr fun h inside => by simpa using newId h inside
  · intro h member
    obtain ⟨e, there, same⟩ := good.files h member
    exact ⟨e, mem_append_left _ there, same⟩
  · exact fun h member => forall_mem_concat (good.coherent h member) fun same => absurd same.symm (newId h member)
  · exact fun h member => forall_mem_concat (good.buffered h member) fun same => absurd same.symm (newId h member)

theorem Good.fresh : ∀ x ∈ s.handles, x.handleId ≠ s.nextHandle :=
  fun x member => Nat.ne_of_lt (good.handleBound x member)

end

theorem searchOrInsertFile_handles (s : State A P) (addr fileLen : Nat) (path : P) :
    (searchOrInsertFile s addr fileLen path).1.handles = s.handles ∧
      (searchOrInsertFile s addr fileLen path).1.nextHandle = s.nextHandle := by
  rw [searchOrInsertFile]
  split
  · exact ⟨rfl, rfl⟩
  · exact ⟨rfl, rfl⟩

theorem lookup_registered (fresh : ∀ x ∈ s.handles, x.handleId ≠ h.handleId)
    (returns : registerHandleToVfile s vfileId h = .ok s') :
    lookup Handle.handleId s'.handles h.handleId = some { h with vfileId } := by
  obtain ⟨e, acquired, rest⟩ := bind_eq_ok.mp returns
  cases rest
  show find? _ (s.handles ++ [{ h with vfileId }]) = _
  rw [find?_append, find?_eq_none.mpr (by simpa using fresh)]
  simp

theorem vfsOpenFileFrom_good (good : Good gran s) (positive : 0 < gran) {dirent : Dirent} {path : P}
    {flags : Flags} (bound : dirent.fileSize < 2 ^ 64)
    (returns : vfsOpenFileFrom gran s dirent path flags garbage = .ok (s', result)) : Good gran s' := by
  rw [vfsOpenFileFrom] at returns
  split at returns
  · cases returns
    exact good
  split at returns
  · cases returns
    exact good
  · split at returns
    · cases returns
      exact good
    · obtain ⟨⟨s₁, h⟩, created, rest⟩ := bind_eq_ok.mp returns
      obtain ⟨s₂, registered, made⟩ := bind_eq_ok.mp created
      cases made
      have inserted := searchOrInsertFile_good good.nextHandle dirent.ino path bound
      have same := searchOrInsertFile_handles { s with nextHandle := s.nextHandle + 1 } dirent.ino dirent.fileSize path
      have fresh : ∀ x ∈ (searchOrInsertFile { s with nextHandle := s.nextHandle + 1 } dirent.ino
          dirent.fileSize path).1.handles, x.handleId ≠ s.nextHandle := by
        rw [same.1]
        exact good.fresh
      have good₁ := inserted.register ⟨positive, by simp, by simp⟩ rfl (by rw [same.2]; exact Nat.lt_succ_self _)
        fresh registered
      cases rest
      split
      · exact good₁.setStreamOffset positive (lookup_registered fresh registered) bound
      · exact good₁

theorem vfsHandleDup_good (good : Good gran s) {new : Nat}
    (returns : vfsHandleDup s handle garbage = .ok (s', new)) : Good gran s' := by
  obtain ⟨h, got, rest⟩ := bind_eq_ok.mp returns
  obtain ⟨there, -⟩ := lookup_some (getHandle_ok got)
  obtain ⟨s₁, registered, rest⟩ := bind_eq_ok.mp rest
  cases rest
  exact good.nextHandle.register (h := { h with handleId := s.nextHandle, bufferValid := false, sectorBuff := garbage })
    (good.placed h there) rfl (Nat.lt_succ_self _) good.fresh registered

theorem vfsCloseFile_good (good : Good gran s) {args : Option (FlushArgs P)}
    (returns : vfsCloseFile s handle = .ok (s', args)) : Good gran s' := by
  obtain ⟨h, got, rest⟩ := bind_eq_ok.mp returns
  have found := getHandle_ok got
  obtain ⟨there, sameId⟩ := lookup_some found
  subst sameId
  obtain ⟨e, inside, same, acquired⟩ := good.record there
  rw [acquired] at rest
  have left : ∀ x, x ∈ remove Handle.handleId h.handleId s.handles ↔ x ∈ s.handles ∧ x.handleId ≠ h.handleId :=
    fun x => mem_remove good.handleIds
  have counts : ∀ id, s.handles.countP (fun x => x.vfileId = id) =
      (remove Handle.handleId h.handleId s.handles).countP (fun x => x.vfileId = id) + if h.vfileId = id then 1 else 0 := by
    intro id
    simpa using countP_remove (fun x : Handle A => decide (x.vfileId = id)) found
  have count := counts e.id
  rw [if_pos same.symm, ← good.counts e inside] at count
  change (if e.fhs.dropLast = [] then _ else _) = _ at rest
  split at rest
  next last =>
    cases rest
    have none : (remove Handle.handleId h.handleId s.handles).countP (fun x => x.vfileId = e.id) = 0 := by
      have := congrArg length last
      rw [length_dropLast, length_nil] at this
      omega
    have others : ∀ x ∈ remove FileEnt.id e.id s.openFiles, x ∈ s.openFiles ∧ x.id ≠ e.id :=
      fun x member => (mem_remove good.ids).mp member
    refine ⟨nodup_remove good.ids, ?_, ?_, ?_, nodup_remove good.handleIds, ?_, ?_, ?_, ?_, ?_, ?_⟩
    · exact fun x member => good.idBound x (others x member).1
    · exact good.addrs.sublist ((remove_sublist _ _).map _)
    · exact fun x member => good.sizes x (others x member).1
    · exact fun x member => good.handleBound x ((left x).mp member).1
    · intro x member
      have old := others x member
      rw [good.counts x old.1, counts x.id, if_neg (fun equal => old.2 (equal.symm.trans same.symm)), Nat.add_zero]
    · intro x member
      obtain ⟨y, record, equal⟩ := good.files x ((left x).mp member).1
      refine ⟨y, (mem_remove good.ids).mpr ⟨record, ?_⟩, equal⟩
      intro gone
      have := countP_eq_zero.mp none x member
      simp only [decide_eq_true_eq] at this
      exact this (equal.symm.trans gone)
    · exact fun x member => good.placed x ((left x).mp member).1
    · exact fun x member y record => good.coherent x ((left x).mp member).1 y (others y record).1
    · exact fun x member y record => good.buffered x ((left x).mp member).1 y (others y record).1
  next last =>
    cases rest
    have replaced := setVfile_replaces (s := { s with handles := remove Handle.handleId h.handleId s.handles })
      { e with fhs := e.fhs.dropLast, modified := e.modified || h.flags.write } good.ids inside rfl rfl rfl
    refine good.rehandle replaced (nodup_remove good.handleIds) ?_ ?_ ?_ ?_
    · exact fun x member => good.handleBound x ((left x).mp member).1
    · show e.fhs.dropLast.length = (remove Handle.handleId h.handleId s.handles).countP _
      rw [length_dropLast]
      omega
    · intro id different
      rw [counts id, if_neg (fun equal => different (equal.symm.trans same.symm)), Nat.add_zero]
    · exact fun x member => .inl ((left x).mp member).1

end states

end Bincows.Vfs
