import Bincows.Sched.AddressSpace
import Bincows.Shared.ByteMemory

set_option autoImplicit false

/-! `elf_load` maps the segments into the address space that is mapped at the time. The page maps are the entries of the PML4
and the set of pages below each page directory. -/

namespace Bincows.Exec

open Function List

open Paging (presentEntry extractPointer presentFlag plUS plRW)
open Sched (Pml4)

inductive Fault where
  | mapping (fault : Sched.Fault)
  | alreadyMapped
  | outOfMemory
  | pageFault
  | outOfBounds
  | notReplaced
  | shortRead
  | nullHandle
  | badHandle
  | interruptsEnabled
  | noProcess
  deriving DecidableEq

structure Space where
  pml4 : Pml4
  pages : BitVec 64 -> Nat -> Bool
  -- the pages that `physalloc` can still hand out
  memory : Nat

def slot (page : Nat) : Nat := page / 2 ^ 27 % 512

def offset (page : Nat) : Nat := page % 2 ^ 27

def Space.view (s : Space) (page : Nat) : Option (BitVec 64) :=
  let entry := s.pml4 (slot page)
  if presentEntry entry && s.pages (extractPointer entry) (offset page) then some (extractPointer entry) else none

-- `spare i` is the page that `alloc_page_table` gives for a directory at index `i`.
variable (spare : Nat -> BitVec 64)

def getDirectory (s : Space) (i : Nat) : Space × BitVec 64 :=
  if presentEntry (s.pml4 i) then (s, extractPointer (s.pml4 i))
  else
    let entry := presentFlag ||| plUS ||| plRW ||| spare i
    ({ s with pml4 := update s.pml4 i entry }, extractPointer entry)

def mapPage (s : Space) (page : Nat) : Except Fault Space :=
  let (s, dir) := getDirectory spare s (slot page)
  if s.pages dir (offset page) then .error .alreadyMapped
  else .ok { s with pages := update s.pages dir (update (s.pages dir) (offset page) true) }

def pageRange (first count : Nat) : List Nat := (List.range count).map (first + ·)

def allocPages (s : Space) (first count : Nat) : Except Fault Space :=
  if s.memory < count then .error .outOfMemory
  else (pageRange first count).foldlM (mapPage spare) { s with memory := s.memory - count }

def Canonical (page : Nat) : Prop := page % 2 ^ 52 < 2 ^ 35 ∨ 2 ^ 52 - 2 ^ 35 ≤ page % 2 ^ 52

instance (page : Nat) : Decidable (Canonical page) := inferInstanceAs (Decidable (_ ∨ _))

def touched (addr len : Nat) : Nat := if len = 0 then 0 else (addr % 4096 + len + 0xfff) / 4096

def touch (s : Space) (addr len : Nat) : Except Fault Unit :=
  if ∀ k < touched addr len, Canonical (addr / 4096 + k) ∧ (s.view (addr / 4096 + k)).isSome then .ok ()
  else .error .pageFault

def number : List Byte -> Nat
  | [] => 0
  | b :: rest => b.toNat + 256 * number rest

def field (file : List Byte) (position width : Nat) : Nat :=
  number ((file.drop position).take width)

def ehdrSize : Nat := 64

def phdrSize : Nat := 56

def checkElfHeader (file : List Byte) : Bool :=
  ehdrSize ≤ file.length ∧ field file 0 4 = 0x464c457f ∧ field file 4 1 = 2 ∧ field file 5 1 = 1 ∧ field file 6 1 = 1 ∧
    field file 7 1 = 0 ∧ field file 20 4 = 1 ∧ field file 18 2 = 0x3e ∧ field file 52 2 = ehdrSize ∧
      field file 54 2 = phdrSize

def phdrOffset (file : List Byte) : Nat := field file 32 8

def phdrTableSize (file : List Byte) : Nat := field file 56 2

structure Phdr where
  type : Nat
  offset : Nat
  addr : Nat
  filesz : Nat
  memsz : Nat
  deriving DecidableEq

def ptLoad : Nat := 1

def phdrAt (file : List Byte) (i : Nat) : Option Phdr :=
  let position := phdrOffset file + i * phdrSize
  if position + phdrSize ≤ file.length then
    some {
      type := field file position 4
      offset := field file (position + 8) 8
      addr := field file (position + 16) 8
      filesz := field file (position + 32) 8
      memsz := field file (position + 40) 8 }
  else none

structure Segment where
  base : Nat
  length : Nat
  deriving DecidableEq

def Phdr.segment (p : Phdr) : Segment := { base := p.addr, length := p.memsz }

def Phdr.bad (p : Phdr) (fileSize : Nat) : Prop :=
  fileSize < (p.offset + p.filesz) % 2 ^ 64 ∨ p.memsz < p.filesz

instance (p : Phdr) (fileSize : Nat) : Decidable (p.bad fileSize) :=
  inferInstanceAs (Decidable (_ ∨ _))

def Phdr.pageCount (p : Phdr) : Nat := (p.memsz + p.addr % 4096 + 0xfff) % 2 ^ 64 / 4096

def Phdr.pages (p : Phdr) : List Nat := pageRange (p.addr / 4096) p.pageCount

variable (file : List Byte)

def loadSegment (s : Space) (p : Phdr) : Except Fault Space := do
  let s ← allocPages spare s (p.addr / 4096) p.pageCount
  touch s p.addr p.memsz
  -- `memcpy` writes a part of what `memset` has written.
  if file.length < p.offset + p.filesz then .error .outOfBounds
  return s

/-- The loop over `n` program headers from header `i` on; without segments where one of them is bad. -/
def loadSegments : Nat -> Nat -> Space -> List Segment -> Except Fault (Space × Option (List Segment))
  | 0, _, s, segs => .ok (s, some segs)
  | n + 1, i, s, segs =>
    match phdrAt file i with
    | none => .error .outOfBounds
    | some p =>
      if p.type ≠ ptLoad then loadSegments n (i + 1) s segs
      else if p.bad file.length then .ok (s, none)
      else do
        let s ← loadSegment spare file s p
        loadSegments n (i + 1) s (segs ++ [p.segment])

def elfLoad (s : Space) : Except Fault (Space × Option (List Segment)) :=
  if file.length = 0 then .ok (s, none)
  else if ¬ checkElfHeader file then .ok (s, none)
  else loadSegments spare file (phdrTableSize file) 0 s []

variable {spare} {s s₁ s' : Space} {page : Nat}

def Space.dir (spare : Nat -> BitVec 64) (s : Space) (i : Nat) : BitVec 64 :=
  if presentEntry (s.pml4 i) then extractPointer (s.pml4 i) else spare i

structure Sound (spare : Nat -> BitVec 64) (s : Space) : Prop where
  frames : ∀ i < 512, extractPointer (spare i) = spare i
  distinct : ∀ i < 512, ∀ j < 512, s.dir spare i = s.dir spare j -> i = j
  empty : ∀ i < 512, presentEntry (s.pml4 i) = false -> ∀ p, s.pages (spare i) p = false

theorem slot_lt (page : Nat) : slot page < 512 := Nat.mod_lt _ (by decide)

theorem same_place {p q : Nat} : slot q = slot p ∧ offset q = offset p ↔ q % 2 ^ 36 = p % 2 ^ 36 := by
  unfold slot offset
  omega

def Space.put (spare : Nat -> BitVec 64) (s : Space) (page : Nat) : Space :=
  let dir := s.dir spare (slot page)
  { s with
    pml4 := if presentEntry (s.pml4 (slot page)) then s.pml4
      else update s.pml4 (slot page) (presentFlag ||| plUS ||| plRW ||| spare (slot page))
    pages := update s.pages dir (update (s.pages dir) (offset page) true) }

theorem newEntry {frame : BitVec 64} (canonical : extractPointer frame = frame) :
    presentEntry (presentFlag ||| plUS ||| plRW ||| frame) = true ∧
      extractPointer (presentFlag ||| plUS ||| plRW ||| frame) = frame := by
  refine ⟨?_, Paging.extractPointer_or (by decide) canonical⟩
  rw [Paging.presentEntry_or]
  simp [show presentEntry (presentFlag ||| plUS ||| plRW) = true by decide]

section

variable (sound : Sound spare s)
include sound

theorem Sound.view (page : Nat) : s.view page =
    if s.pages (s.dir spare (slot page)) (offset page) then some (s.dir spare (slot page)) else none := by
  unfold Space.view Space.dir
  cases present : presentEntry (s.pml4 (slot page)) with
  | true => simp [present]
  | false => simp [present, sound.empty _ (slot_lt page) present]

theorem mapPage_eq (page : Nat) :
    mapPage spare s page = if (s.view page).isSome then .error .alreadyMapped else .ok (s.put spare page) := by
  rw [sound.view]
  unfold mapPage getDirectory Space.put Space.dir
  cases present : presentEntry (s.pml4 (slot page)) with
  | true =>
    cases s.pages (extractPointer (s.pml4 (slot page))) (offset page) <;> simp
  | false =>
    simp only [if_false, Bool.false_eq_true, (newEntry (sound.frames _ (slot_lt page))).2]
    cases s.pages (spare (slot page)) (offset page) <;> simp

theorem put_dir (page i : Nat) : (s.put spare page).dir spare i = s.dir spare i := by
  unfold Space.put Space.dir
  cases present : presentEntry (s.pml4 (slot page)) with
  | true => simp
  | false =>
    by_cases here : i = slot page
    · subst here
      obtain ⟨isPresent, pointer⟩ := newEntry (sound.frames _ (slot_lt page))
      simp [isPresent, pointer, present]
    · simp [update_of_ne here]

theorem put_sound (page : Nat) : Sound spare (s.put spare page) := by
  refine ⟨sound.frames, ?_, ?_⟩
  · intro i small j small'
    rw [put_dir sound, put_dir sound]
    exact sound.distinct i small j small'
  intro i small absent p
  have other : i ≠ slot page := by
    rintro rfl
    have present : presentEntry ((s.put spare page).pml4 (slot page)) = true := by
      unfold Space.put
      cases here : presentEntry (s.pml4 (slot page)) with
      | true => simpa using here
      | false => simpa using (newEntry (sound.frames _ small)).1
    simp [present] at absent
  have before : presentEntry (s.pml4 i) = false := by
    unfold Space.put at absent
    cases here : presentEntry (s.pml4 (slot page)) with
    | true => simpa [here] using absent
    | false => simpa [here, update_of_ne other] using absent
  have elsewhere : spare i ≠ s.dir spare (slot page) := by
    intro same
    have mine : s.dir spare i = spare i := by simp [Space.dir, before]
    exact other (sound.distinct i small _ (slot_lt page) (mine.trans same))
  show update s.pages _ _ (spare i) p = false
  rw [update_of_ne elsewhere]
  exact sound.empty i small before p

theorem put_view (page q : Nat) : (s.put spare page).view q =
    if q % 2 ^ 36 = page % 2 ^ 36 then some (s.dir spare (slot q)) else s.view q := by
  rw [(put_sound sound page).view, sound.view, put_dir sound]
  show (if update s.pages _ _ (s.dir spare (slot q)) (offset q) = true then _ else _) = _
  by_cases sameSlot : slot q = slot page
  · rw [sameSlot, update_self]
    by_cases sameOffset : offset q = offset page
    · rw [sameOffset, update_self, if_pos rfl, if_pos (same_place.mp ⟨sameSlot, sameOffset⟩)]
    · rw [update_of_ne sameOffset, if_neg fun same => sameOffset (same_place.mpr same).2]
  · have apart : s.dir spare (slot q) ≠ s.dir spare (slot page) :=
      fun same => sameSlot (sound.distinct _ (slot_lt q) _ (slot_lt page) same)
    rw [update_of_ne apart, if_neg fun same => sameSlot (same_place.mpr same).1]

end

structure Free (s : Space) (pages : List Nat) : Prop where
  once : (pages.map (· % 2 ^ 36)).Nodup
  unmapped : ∀ p ∈ pages, s.view p = none

structure Mapped (spare : Nat -> BitVec 64) (s s' : Space) (pages : List Nat) : Prop where
  sound : Sound spare s'
  dirs : ∀ i, s'.dir spare i = s.dir spare i
  view : ∀ q, s'.view q = if q % 2 ^ 36 ∈ pages.map (· % 2 ^ 36) then some (s.dir spare (slot q)) else s.view q
  others : ∀ d, (∀ i < 512, d ≠ s.dir spare i) -> s'.pages d = s.pages d
  kept : ∀ i, presentEntry (s.pml4 i) = true -> s'.pml4 i = s.pml4 i

theorem Mapped.refl (sound : Sound spare s) : Mapped spare s s [] :=
  ⟨sound, fun _ => rfl, fun _ => (if_neg not_mem_nil).symm, fun _ _ => rfl, fun _ _ => rfl⟩

variable {pages pages' : List Nat}

theorem Mapped.trans (first : Mapped spare s s₁ pages) (second : Mapped spare s₁ s' pages') :
    Mapped spare s s' (pages ++ pages') := by
  refine ⟨second.sound, fun i => (second.dirs i).trans (first.dirs i), fun q => ?_, fun d apart => ?_, fun i present => ?_⟩
  · rw [second.view, first.view, first.dirs, map_append]
    split
    next later =>
      rw [if_pos (mem_append_right _ later)]
    next later =>
      split
      next earlier =>
        rw [if_pos (mem_append_left _ earlier)]
      next earlier =>
        rw [if_neg fun either => (mem_append.mp either).elim earlier later]
  · rw [second.others d (fun i small => first.dirs i ▸ apart i small), first.others d apart]
  · rw [second.kept i (by rwa [first.kept i present]), first.kept i present]

theorem Mapped.view_of_mem (mapped : Mapped spare s s' pages) (member : page ∈ pages) :
    s'.view page = some (s.dir spare (slot page)) := by
  rw [mapped.view, if_pos (mem_map.mpr ⟨page, member, rfl⟩)]

theorem put_mapped (sound : Sound spare s) (page : Nat) : Mapped spare s (s.put spare page) [page] := by
  refine ⟨put_sound sound page, put_dir sound page, fun q => ?_, fun d apart => ?_, fun i present => ?_⟩
  · rw [put_view sound]
    simp
  · exact update_of_ne (apart _ (slot_lt page)) ..
  · unfold Space.put
    by_cases here : i = slot page
    · simp [← here, present]
    · split
      · rfl
      · exact update_of_ne here ..

theorem Mapped.free_append (mapped : Mapped spare s s₁ pages) :
    Free s (pages ++ pages') ↔ Free s pages ∧ Free s₁ pages' := by
  constructor
  · rintro ⟨once, unmapped⟩
    rw [map_append, nodup_append'] at once
    refine ⟨⟨once.1, fun p member => unmapped p (mem_append_left _ member)⟩, once.2.1, fun p member => ?_⟩
    rw [mapped.view, if_neg fun earlier => once.2.2 earlier (mem_map_of_mem member)]
    exact unmapped p (mem_append_right _ member)
  rintro ⟨first, second⟩
  have apart : ∀ p ∈ pages', p % 2 ^ 36 ∉ pages.map (· % 2 ^ 36) ∧ s.view p = none := by
    intro p member
    have free := second.unmapped p member
    rw [mapped.view] at free
    split at free
    · cases free
    · next outside => exact ⟨outside, free⟩
  constructor
  · rw [map_append, nodup_append']
    refine ⟨first.once, second.once, fun x earlier later => ?_⟩
    obtain ⟨p, member, rfl⟩ := mem_map.mp later
    exact (apart p member).1 earlier
  · exact forall_mem_append.mpr ⟨first.unmapped, fun p later => (apart p later).2⟩

theorem free_singleton : Free s [page] ↔ s.view page = none :=
  ⟨fun free => free.unmapped page mem_cons_self,
    fun unmapped => ⟨nodup_singleton _, fun _ member => mem_singleton.mp member ▸ unmapped⟩⟩

theorem foldlM_mapPage (sound : Sound spare s) (pages : List Nat) :
    (pages.foldlM (mapPage spare) s).Exactly (Free s pages) fun s' => Mapped spare s s' pages ∧ s'.memory = s.memory := by
  induction pages generalizing s with
  | nil => exact .ok ⟨.nil, nofun⟩ ⟨.refl sound, rfl⟩
  | cons page rest ih =>
    have one : (mapPage spare s page).Exactly (s.view page = none) (· = s.put spare page) := by
      rw [mapPage_eq sound]
      cases here : s.view page with
      | none => exact .ok rfl rfl
      | some d => exact .error nofun
    have mapped := put_mapped sound page
    have split : Free s (page :: rest) ↔ s.view page = none ∧ Free (s.put spare page) rest := by
      rw [← free_singleton]
      exact (mapped.free_append : Free s ([page] ++ rest) ↔ _)
    rw [foldlM_cons, split]
    refine one.bind fun s₁ _ same => ?_
    subst same
    refine (ih mapped.sound).mono .rfl fun s' _ both => ?_
    exact ⟨mapped.trans both.1, both.2⟩

theorem allocPages_exactly (sound : Sound spare s) (first count : Nat) :
    (allocPages spare s first count).Exactly (count ≤ s.memory ∧ Free s (pageRange first count)) fun s' =>
      Mapped spare s s' (pageRange first count) ∧ s'.memory + count = s.memory := by
  rw [allocPages]
  split
  next short =>
    exact .error fun both => absurd both.1 (Nat.not_le.mpr short)
  next short =>
  have enough : count ≤ s.memory := Nat.not_lt.mp short
  have fewer : Sound spare { s with memory := s.memory - count } := { sound with }
  refine (foldlM_mapPage fewer (pageRange first count)).mono ?_ fun s' _ both => ?_
  · exact ⟨fun free => ⟨enough, free.once, free.unmapped⟩, fun both => ⟨both.2.once, both.2.unmapped⟩⟩
  · obtain ⟨mapped, memory⟩ := both
    refine ⟨{ mapped with }, ?_⟩
    rw [memory]
    exact Nat.sub_add_cancel enough

structure Phdr.Sane (p : Phdr) (fileSize : Nat) : Prop where
  canonical : ∀ k < touched p.addr p.memsz, Canonical (p.addr / 4096 + k)
  source : p.offset + p.filesz ≤ fileSize

variable {p : Phdr}

theorem touched_le_pageCount (canonical : ∀ k < touched p.addr p.memsz, Canonical (p.addr / 4096 + k)) :
    touched p.addr p.memsz ≤ p.pageCount := by
  unfold touched at *
  by_cases empty : p.memsz = 0
  · rw [if_pos empty]
    exact Nat.zero_le _
  rw [if_neg empty] at *
  have small : p.memsz + p.addr % 4096 + 0xfff < 2 ^ 64 := by
    by_contra large
    have gap := canonical ((2 ^ 52 + 2 ^ 35 - p.addr / 4096 % 2 ^ 52) % 2 ^ 52) (by omega)
    unfold Canonical at gap
    omega
  rw [Phdr.pageCount, Nat.mod_eq_of_lt small]
  exact Nat.div_le_div_right (by omega)

theorem mem_pageRange {first count page : Nat} : page ∈ pageRange first count ↔ ∃ k < count, first + k = page := by
  simp [pageRange]

theorem loadSegment_exactly (file : List Byte) (sound : Sound spare s) (p : Phdr) :
    (loadSegment spare file s p).Exactly (p.pageCount ≤ s.memory ∧ Free s p.pages ∧ p.Sane file.length) fun s' =>
      Mapped spare s s' p.pages ∧ s'.memory + p.pageCount = s.memory := by
  have alloc := allocPages_exactly sound (p.addr / 4096) p.pageCount
  rw [← and_assoc]
  refine alloc.bind fun s₁ _ both => ?_
  have written : (touch s₁ p.addr p.memsz).Exactly (∀ k < touched p.addr p.memsz,
      Canonical (p.addr / 4096 + k)) fun _ => True := by
    unfold touch
    by_cases canonical : ∀ k < touched p.addr p.memsz, Canonical (p.addr / 4096 + k)
    · rw [if_pos]
      · exact .ok canonical trivial
      · intro k small
        refine ⟨canonical k small, ?_⟩
        have inside : p.addr / 4096 + k ∈ p.pages :=
          mem_pageRange.mpr ⟨k, small.trans_le (touched_le_pageCount canonical), rfl⟩
        rw [both.1.view_of_mem inside]
        rfl
    · rw [if_neg fun all => canonical fun k small => (all k small).1]
      exact .error canonical
  have parts : p.Sane file.length ↔
      (∀ k < touched p.addr p.memsz, Canonical (p.addr / 4096 + k)) ∧ p.offset + p.filesz ≤ file.length :=
    ⟨fun sane => ⟨sane.canonical, sane.source⟩, fun both => ⟨both.1, both.2⟩⟩
  rw [parts]
  refine written.bind fun _ _ _ => ?_
  split
  next outside =>
    exact .error (Nat.not_le.mpr outside)
  next outside =>
    exact .ok (Nat.not_lt.mp outside) both

def scan (file : List Byte) : Nat -> Nat -> Option (List Phdr × Bool)
  | 0, _ => some ([], true)
  | n + 1, i =>
    match phdrAt file i with
    | none => none
    | some p =>
      if p.type ≠ ptLoad then scan file n (i + 1)
      else if p.bad file.length then some ([], false)
      else (scan file n (i + 1)).map fun rest => (p :: rest.1, rest.2)

def imagePages (ps : List Phdr) : List Nat := ps.flatMap Phdr.pages

structure Loads (fileSize : Nat) (s : Space) (ps : List Phdr) : Prop where
  memory : (ps.map Phdr.pageCount).sum ≤ s.memory
  free : Free s (imagePages ps)
  sane : ∀ p ∈ ps, p.Sane fileSize

structure Image (spare : Nat -> BitVec 64) (s s' : Space) (ps : List Phdr) : Prop where
  mapped : Mapped spare s s' (imagePages ps)
  memory : s'.memory + (ps.map Phdr.pageCount).sum = s.memory

variable {ps : List Phdr} {fileSize : Nat}

theorem Image.cons (first : Mapped spare s s₁ p.pages) (memory : s₁.memory + p.pageCount = s.memory)
    (rest : Image spare s₁ s' ps) : Image spare s s' (p :: ps) := by
  refine ⟨first.trans rest.mapped, ?_⟩
  have := rest.memory
  rw [map_cons, sum_cons]
  omega

theorem Loads.head (loads : Loads fileSize s (p :: ps)) :
    p.pageCount ≤ s.memory ∧ Free s p.pages ∧ p.Sane fileSize := by
  have room : p.pageCount + (ps.map Phdr.pageCount).sum ≤ s.memory := loads.memory
  have once : ((p.pages ++ imagePages ps).map (· % 2 ^ 36)).Nodup := loads.free.once
  rw [map_append] at once
  refine ⟨by omega, ⟨once.of_append_left, fun q member => ?_⟩, loads.sane p mem_cons_self⟩
  exact loads.free.unmapped q (mem_append_left _ member)

theorem loads_cons
    (fits : p.pageCount ≤ s.memory ∧ Free s p.pages ∧ p.Sane fileSize) (mapped : Mapped spare s s₁ p.pages)
    (memory : s₁.memory + p.pageCount = s.memory) : Loads fileSize s (p :: ps) ↔ Loads fileSize s₁ ps := by
  have pages : imagePages (p :: ps) = p.pages ++ imagePages ps := rfl
  have total : ((p :: ps).map Phdr.pageCount).sum = p.pageCount + (ps.map Phdr.pageCount).sum := rfl
  constructor
  · intro loads
    have room := loads.memory
    have free := loads.free
    rw [pages, mapped.free_append] at free
    exact ⟨by omega, free.2, fun q member => loads.sane q (mem_cons_of_mem _ member)⟩
  intro loads
  have room := loads.memory
  exact ⟨by omega, mapped.free_append.mpr ⟨fits.2.1, loads.free⟩, forall_mem_cons.mpr ⟨fits.2.2, loads.sane⟩⟩

theorem loadSegments_exactly (file : List Byte) (sound : Sound spare s) (n i : Nat) (segs : List Segment) :
    (loadSegments spare file n i s segs).Exactly (∃ ps fine, scan file n i = some (ps, fine) ∧ Loads file.length s ps)
      fun r => ∃ ps fine, scan file n i = some (ps, fine) ∧ Image spare s r.1 ps ∧
        r.2 = if fine then some (segs ++ ps.map Phdr.segment) else none := by
  induction n generalizing i s segs with
  | zero =>
    refine .ok ⟨[], true, rfl, Nat.zero_le _, ⟨.nil, nofun⟩, nofun⟩ ⟨[], true, rfl, ⟨.refl sound, rfl⟩, ?_⟩
    simp
  | succ n ih =>
    rw [loadSegments, scan]
    cases header : phdrAt file i with
    | none => exact .error (by rintro ⟨ps, fine, ⟨⟩, -⟩)
    | some p =>
      simp only
      by_cases other : p.type ≠ ptLoad
      · rw [if_pos other, if_pos other]
        exact ih sound _ _
      rw [if_neg other, if_neg other]
      by_cases bad : p.bad file.length
      · rw [if_pos bad, if_pos bad]
        exact .ok ⟨[], false, rfl, Nat.zero_le _, ⟨.nil, nofun⟩, nofun⟩ ⟨[], false, rfl, ⟨.refl sound, rfl⟩, rfl⟩
      rw [if_neg bad, if_neg bad]
      -- The first segment fits where all of them do.
      have both : (∃ ps fine, (scan file n (i + 1)).map (fun rest => (p :: rest.1, rest.2)) = some (ps, fine) ∧
          Loads file.length s ps) ↔ (p.pageCount ≤ s.memory ∧ Free s p.pages ∧ p.Sane file.length) ∧
            ∃ ps fine, scan file n (i + 1) = some (ps, fine) ∧ Loads file.length s (p :: ps) := by
        constructor
        · rintro ⟨ps, fine, scanned, loads⟩
          obtain ⟨⟨ps', fine'⟩, rest, ⟨⟩⟩ := Option.map_eq_some_iff.mp scanned
          exact ⟨loads.head, ps', fine', rest, loads⟩
        · rintro ⟨-, ps, fine, rest, loads⟩
          exact ⟨p :: ps, fine, by rw [rest]; rfl, loads⟩
      rw [both]
      refine (loadSegment_exactly file sound p).bind fun s₁ fits post => ?_
      obtain ⟨mapped, memory⟩ := post
      refine (ih mapped.sound (i + 1) (segs ++ [p.segment])).mono ?_ ?_
      · refine exists_congr fun ps => exists_congr fun fine => and_congr_right fun _ => ?_
        exact (loads_cons fits mapped memory).symm
      · rintro r - ⟨ps, fine, rest, image, result⟩
        refine ⟨p :: ps, fine, by rw [rest]; rfl, .cons mapped memory image, ?_⟩
        rw [result, map_cons, append_assoc]
        rfl

def Accepts (file : List Byte) (s : Space) (ps : List Phdr) (fine : Bool) : Prop :=
  checkElfHeader file = true ∧ scan file (phdrTableSize file) 0 = some (ps, fine) ∧ Loads file.length s ps

theorem elfLoad_exactly (file : List Byte) (sound : Sound spare s) :
    (elfLoad spare file s).Exactly (checkElfHeader file = false ∨ ∃ ps fine, Accepts file s ps fine) fun r =>
      (checkElfHeader file = false ∧ r = (s, none)) ∨
        ∃ ps fine, Accepts file s ps fine ∧ Image spare s r.1 ps ∧
          r.2 = if fine then some (ps.map Phdr.segment) else none := by
  rw [elfLoad]
  cases header : checkElfHeader file with
  | false =>
    split
    · exact .ok (.inl rfl) (.inl ⟨rfl, rfl⟩)
    · rw [if_pos (by simp)]
      exact .ok (.inl rfl) (.inl ⟨rfl, rfl⟩)
  | true =>
    have size : ¬ file.length = 0 := by
      intro empty
      simp [checkElfHeader, empty, ehdrSize] at header
    rw [if_neg size, if_neg (by simp)]
    refine (loadSegments_exactly file sound _ 0 []).mono ?_ fun r holds post => ?_
    · simp [Accepts, header]
    · obtain ⟨ps, fine, scanned, image, result⟩ := post
      obtain ⟨_, _, same, loads⟩ := holds
      cases scanned.symm.trans same
      exact .inr ⟨ps, fine, ⟨header, scanned, loads⟩, image, result⟩

theorem Accepts.loaded {file : List Byte} {fine : Bool} (accepts : Accepts file s ps fine) (sound : Sound spare s) :
    ∃ s', elfLoad spare file s = .ok (s', if fine then some (ps.map Phdr.segment) else none) ∧ Image spare s s' ps := by
  obtain ⟨r, result, post⟩ := (elfLoad_exactly file sound).returns (.inr ⟨ps, fine, accepts⟩)
  rcases post with ⟨header, -⟩ | ⟨ps', fine', accepts', image, program⟩
  · rw [accepts.1] at header
    cases header
  · cases accepts.2.1.symm.trans accepts'.2.1
    exact ⟨r.1, by rw [result, ← program], image⟩

end Bincows.Exec
