import Bincows.Fs.DirectoryStreams
import Mathlib.Data.List.GetD
import Mathlib.Data.List.TakeWhile

set_option autoImplicit false

/-! Record `k` holds characters `13 * k` to `13 * k + 12` and has order `n - k`; the parser puts
them at `13 * (n - k - 1)`, if the order has four bits. -/

namespace Bincows.Fat32

open Blocks Function List

variable {name xs : List UInt8} {buf : NameBuf} {p : Parser} {k n o t : Nat} {type : FileType}
  {r : DirRecord}

structure Legal (name : List UInt8) : Prop where
  some : name ≠ []
  short : name.length ≤ 255
  ascii : ∀ c ∈ name, c ≠ 0 ∧ c < 128
  noDots : isDots name = false

theorem cString_length_le {j : Nat} (ends : buf j = 0) : (cString buf).length ≤ j := by
  by_contra longer
  rw [Nat.not_le] at longer
  have leading : cString buf <+: readBlocks buf 0 nameBufSize := takeWhile_prefix _
  have byte : (cString buf)[j] = 0 := by
    rw [leading.getElem longer]
    simp [readBlocks, ends]
  have nonzero := mem_takeWhile_imp (getElem_mem longer)
  rw [byte] at nonzero
  simp at nonzero

theorem cString_eq (holds : ∀ t (bound : t < xs.length), buf t = xs[t]) (nonzero : ∀ c ∈ xs, c ≠ 0)
    (ends : buf xs.length = 0) (inside : xs.length < nameBufSize) : cString buf = xs := by
  have split : readBlocks buf 0 nameBufSize = xs ++ 0 :: readBlocks buf (xs.length + 1) (nameBufSize - xs.length - 1) := by
    have parts : nameBufSize = xs.length + (1 + (nameBufSize - xs.length - 1)) := by omega
    have first : readBlocks buf 0 xs.length = xs := by
      apply ext_getElem
      · simp [readBlocks]
      · intro t left right
        simp [readBlocks, holds t right]
    rw [parts, readBlocks_add, readBlocks_add, first, Nat.zero_add]
    simp [readBlocks, ends]
  rw [cString, split, takeWhile_append_of_pos (by simpa using nonzero)]
  simp

theorem lt_of_lt_longEntries (bound : k < longEntries name) : 13 * k < name.length := by
  unfold longEntries at bound
  omega

theorem Legal.longEntries_le (legal : Legal name) : longEntries name ≤ 20 := by
  have := legal.short
  unfold longEntries
  omega

theorem Legal.longEntries_pos (legal : Legal name) : 0 < longEntries name := by
  have := length_pos_iff.mpr legal.some
  unfold longEntries
  omega

theorem order_bits (positive : 0 < o) (small : o ≤ 20) :
    UInt8.ofNat o ≠ 0 ∧ UInt8.ofNat o ||| 0x40 ≠ 0 ∧ (UInt8.ofNat o &&& 0x0f).toNat = o % 16 ∧
      ((UInt8.ofNat o ||| 0x40) &&& 0x0f).toNat = o % 16 := by
  interval_cases o <;> decide

theorem utf16le2ascii_chars (ascii : ∀ c ∈ xs, c ≠ 0 ∧ c < 128) (rest : List UInt16) :
    utf16le2ascii (xs.map UInt8.toUInt16 ++ rest) = xs ++ utf16le2ascii rest := by
  induction xs with
  | nil => rfl
  | cons c xs ih =>
    obtain ⟨nonzero, small⟩ := ascii c mem_cons_self
    have same : c.toUInt16.toUInt8 = c := by simp
    have low : ¬ 127 < c := by
      rw [UInt8.lt_iff_toNat_lt] at small ⊢
      have : (128 : UInt8).toNat = 128 := rfl
      have : (127 : UInt8).toNat = 127 := rfl
      omega
    rw [map_cons, cons_append, utf16le2ascii, same, if_neg low, if_neg nonzero,
      ih fun c member => ascii c (mem_cons_of_mem _ member), cons_append]

def namePart (name : List UInt8) (k : Nat) : List UInt8 :=
  ((name.drop (13 * k)).take 13 ++ replicate 13 0).take 13

theorem longChars_eq (bound : k < longEntries name) :
    ((encodedName name).drop (13 * k)).take 13 =
      ((name.drop (13 * k)).map UInt8.toUInt16 ++ 0 :: replicate (13 * longEntries name) 0xffff).take 13 := by
  have inside := lt_of_lt_longEntries bound
  have whole : 13 ≤ 13 * longEntries name - 13 * k := by omega
  rw [encodedName, drop_take, take_take, Nat.min_eq_left whole, append_assoc, singleton_append,
    drop_append_of_le_length (by rw [length_map]; omega), map_drop]

theorem utf16le2ascii_longChars (legal : Legal name) (bound : k < longEntries name) :
    ∃ z, utf16le2ascii (((encodedName name).drop (13 * k)).take 13) = (name.drop (13 * k)).take 13 ++ replicate z 0 := by
  rw [longChars_eq bound, take_append, length_map, ← map_take]
  have ascii : ∀ c ∈ (name.drop (13 * k)).take 13, c ≠ 0 ∧ c < 128 := fun c member =>
    legal.ascii c (mem_of_mem_drop (mem_of_mem_take member))
  rw [utf16le2ascii_chars ascii]
  cases 13 - (name.drop (13 * k)).length with
  | zero => exact ⟨0, rfl⟩
  | succ rest => exact ⟨1, rfl⟩

theorem longBytes_eq (legal : Legal name) (bound : k < longEntries name) :
    (utf16le2ascii (((encodedName name).drop (13 * k)).take 13) ++ replicate 13 0).take 13 = namePart name k := by
  obtain ⟨z, decoded⟩ := utf16le2ascii_longChars legal bound
  have more : 13 - ((name.drop (13 * k)).take 13).length ≤ z + 13 := by omega
  have enough : 13 - ((name.drop (13 * k)).take 13).length ≤ 13 := by omega
  rw [decoded, namePart, append_assoc, replicate_append_replicate, take_append, take_append,
    take_replicate, take_replicate, Nat.min_eq_left more, Nat.min_eq_left enough]

theorem namePart_getD (k : Nat) (small : t < 13) : (namePart name k)[t]? = some (name.getD (13 * k + t) 0) := by
  unfold namePart
  rw [getElem?_take, if_pos small]
  by_cases inside : 13 * k + t < name.length
  · rw [getElem?_append_left (by simp; omega), getElem?_take, if_pos small, getElem?_drop,
      getD_eq_getElem?_getD, getElem?_eq_getElem inside]
    rfl
  · rw [getElem?_append_right (by simp; omega), getElem?_replicate, if_pos (by simp; omega),
      getD_eq_getElem?_getD, getElem?_eq_none (Nat.not_lt.mp inside)]
    rfl

theorem length_namePart (name : List UInt8) (k : Nat) : (namePart name k).length = 13 := by
  simp [namePart]

def placePart (name : List UInt8) (k : Nat) (buf : NameBuf) : NameBuf :=
  if (longEntries name - k) % 16 = 0 then buf
  else writeBlocks buf (13 * ((longEntries name - k) % 16 - 1)) (namePart name k)

theorem parse_longRecord (legal : Legal name) (bound : k < longEntries name) :
    parseDirEntry p (longRecord name k) = some { p with name := placePart name k p.name, longEntry := true } := by
  obtain ⟨plain, marked, low, low'⟩ :=
    order_bits (o := longEntries name - k) (by omega) (by have := legal.longEntries_le; omega)
  have inside := lt_of_lt_longEntries bound
  have first : (longRecord name k).first ≠ 0 := by
    simp only [longRecord, DirRecord.first]
    split
    · exact marked
    · exact plain
  have second : (longRecord name k).second ≠ 0xe5 := by
    have chars : (((encodedName name).drop (13 * k)).take 13).headD 0 = name[13 * k].toUInt16 := by
      rw [longChars_eq bound, drop_eq_getElem_cons inside]
      rfl
    have small := (legal.ascii _ (getElem_mem inside)).2
    simp only [longRecord, DirRecord.second, chars]
    intro same
    simp at same
    rw [same] at small
    exact absurd small (by decide)
  have bits : ((if longEntries name - k = longEntries name then UInt8.ofNat (longEntries name - k) ||| 0x40
      else UInt8.ofNat (longEntries name - k)) &&& 0x0f).toNat = (longEntries name - k) % 16 := by
    split
    · exact low'
    · exact low
  unfold parseDirEntry
  rw [if_neg first, if_neg second]
  simp only [longRecord, handleLongFilenameEntry, bits, longBytes_eq legal bound, placePart]

theorem placePart_outside (outside : 13 * ((longEntries name - k) % 16) ≤ t) : placePart name k buf t = buf t := by
  unfold placePart
  split
  · rfl
  · exact writeBlocks_outside (.inr (by rw [length_namePart]; omega))

theorem placePart_inside (small : longEntries name ≤ 15) (bound : k < longEntries name)
    (inside : t / 13 = longEntries name - k - 1) :
    placePart name k buf t = name.getD (13 * k + t % 13) 0 := by
  have place : t = 13 * ((longEntries name - k) % 16 - 1) + t % 13 := by omega
  unfold placePart
  rw [if_neg (by omega)]
  nth_rewrite 1 [place]
  exact writeBlocks_inside (namePart_getD k (Nat.mod_lt _ (by decide)))

def placeParts (name : List UInt8) : Nat -> Nat -> NameBuf -> NameBuf
  | 0, _, buf => buf
  | count + 1, k, buf => placeParts name count (k + 1) (placePart name k buf)

theorem placeParts_outside (count : Nat) (outside : ∀ i, k ≤ i -> 13 * ((longEntries name - i) % 16) ≤ t) :
    placeParts name count k buf t = buf t := by
  induction count generalizing k buf with
  | zero => rfl
  | succ count ih =>
    rw [placeParts, ih fun i later => outside i (by omega)]
    exact placePart_outside (outside k (Nat.le_refl _))

theorem placeParts_inside (count : Nat) (small : longEntries name ≤ 15)
    (all : k + count = longEntries name) (inside : t / 13 < count) :
    placeParts name count k buf t = name.getD (13 * (longEntries name - 1 - t / 13) + t % 13) 0 := by
  induction count generalizing k buf with
  | zero => omega
  | succ count ih =>
    rw [placeParts]
    by_cases here : t / 13 = count
    · -- The later records are for the places in front of this one.
      have later : ∀ i, k + 1 ≤ i -> 13 * ((longEntries name - i) % 16) ≤ t := by omega
      have index : k = longEntries name - 1 - t / 13 := by omega
      rw [placeParts_outside count later, placePart_inside small (by omega) (by omega), ← index]
    · exact ih (by omega) (by omega)

def KeepsName (name : List UInt8) : Prop :=
  name.length ≤ 13 ∨ 13 ∣ name.length ∧ name.length ≤ 195 ∧
    ∀ t < name.length, name[13 * (longEntries name - 1 - t / 13) + t % 13]? = name[t]?

instance : Decidable (KeepsName name) := inferInstanceAs (Decidable (_ ∨ _ ∧ _ ∧ _))

def decodedName (name : List UInt8) (buf : NameBuf) : List UInt8 :=
  cString (placeParts name (longEntries name) 0 buf)

theorem decodedName_small (legal : Legal name) (short : name.length ≤ 13)
    (zeros : ∀ t, 13 ≤ t -> buf t = 0) : decodedName name buf = name := by
  have one : longEntries name = 1 := by
    have := length_pos_iff.mpr legal.some
    unfold longEntries
    omega
  have holds : ∀ t, t < 13 -> placeParts name (longEntries name) 0 buf t = name.getD t 0 := by
    intro t small
    rw [placeParts_inside _ (by omega) (Nat.zero_add _) (by omega)]
    congr 1
    omega
  apply cString_eq
  · intro t bound
    rw [holds t (by omega), getD_eq_getElem _ _ bound]
  · exact fun c member => (legal.ascii c member).1
  · by_cases full : name.length = 13
    · rw [full, placeParts_outside _ (by omega), zeros 13 (Nat.le_refl _)]
    · rw [holds _ (by omega), getD_eq_default _ _ (Nat.le_refl _)]
  · unfold nameBufSize
    omega

theorem decodedName_short (buf : NameBuf) (long : 13 < name.length) (rest : ¬ 13 ∣ name.length)
    (small : longEntries name ≤ 15) : (decodedName name buf).length < name.length := by
  have ends : placeParts name (longEntries name) 0 buf (name.length % 13) = 0 := by
    have index : 13 * (longEntries name - 1 - name.length % 13 / 13) + name.length % 13 % 13 = name.length := by
      unfold longEntries
      omega
    rw [placeParts_inside _ small (Nat.zero_add _) (by unfold longEntries; omega), index, getD_eq_default _ _ (Nat.le_refl _)]
  have := cString_length_le ends
  unfold decodedName
  omega

theorem decodedName_whole (legal : Legal name) (whole : 13 ∣ name.length)
    (small : longEntries name ≤ 15) (zeros : ∀ t, 13 ≤ t -> buf t = 0) :
    decodedName name buf = name ↔ ∀ t < name.length, name[13 * (longEntries name - 1 - t / 13) + t % 13]? = name[t]? := by
  have length : name.length = 13 * longEntries name := by
    unfold longEntries
    omega
  have inside : ∀ t < name.length, 13 * (longEntries name - 1 - t / 13) + t % 13 < name.length := by omega
  let turned := (range name.length).map fun t => name.getD (13 * (longEntries name - 1 - t / 13) + t % 13) 0
  have decoded : decodedName name buf = turned := by
    apply cString_eq
    · intro t bound
      simp only [turned, length_map, length_range] at bound
      rw [placeParts_inside _ small (Nat.zero_add _) (by omega)]
      simp [turned]
    · intro c member
      obtain ⟨t, bound, rfl⟩ := mem_map.mp member
      rw [getD_eq_getElem _ _ (inside t (mem_range.mp bound))]
      exact (legal.ascii _ (getElem_mem _)).1
    · have := legal.longEntries_pos
      simp only [turned, length_map, length_range]
      rw [placeParts_outside _ (by omega), zeros _ (by omega)]
    · simp only [turned, length_map, length_range]
      unfold nameBufSize
      omega
  have entry : ∀ t < name.length, turned[t]? = name[13 * (longEntries name - 1 - t / 13) + t % 13]? := by
    intro t bound
    rw [getElem?_map, getElem?_range bound, Option.map_some, getD_eq_getElem _ _ (inside t bound),
      getElem?_eq_getElem (inside t bound)]
  rw [decoded]
  constructor
  · intro same t bound
    rw [← entry t bound, same]
  intro same
  apply ext_getElem?
  intro t
  by_cases bound : t < name.length
  · rw [entry t bound, same t bound]
  · rw [getElem?_eq_none (by simp [turned]; omega), getElem?_eq_none (by omega)]

theorem decodedName_eq (legal : Legal name) (zeros : ∀ t, 13 ≤ t -> buf t = 0) :
    decodedName name buf = name ↔ KeepsName name := by
  by_cases short : name.length ≤ 13
  · exact iff_of_true (decodedName_small legal short zeros) (.inl short)
  by_cases small : longEntries name ≤ 15
  · by_cases whole : 13 ∣ name.length
    · have bound : name.length ≤ 195 := by
        unfold longEntries at small
        omega
      rw [decodedName_whole legal whole small zeros, KeepsName, or_iff_right short]
      simp only [whole, bound, true_and]
    · have shorter := decodedName_short buf (by omega) whole small
      refine iff_of_false (fun same => ?_) fun keeps => keeps.elim short fun kept => whole kept.1
      rw [same] at shorter
      exact Nat.lt_irrefl _ shorter
  · -- No record is for the places from 195 on.
    have long : 195 < name.length := by
      unfold longEntries at small
      omega
    have ends : placeParts name (longEntries name) 0 buf 195 = 0 := by
      rw [placeParts_outside _ (by omega), zeros 195 (by decide)]
    have shorter := cString_length_le ends
    refine iff_of_false (fun same => ?_) fun keeps => keeps.elim short fun kept => by omega
    rw [decodedName] at same
    rw [same] at shorter
    omega

theorem trimmed_le (buf : NameBuf) (n : Nat) : trimmed buf n ≤ n := by
  induction n with
  | zero => exact Nat.le_refl _
  | succ n ih =>
    rw [trimmed]
    split
    · omega
    · exact Nat.le_refl _

theorem clearSpaces_above {i : Nat} (above : i < t) : clearSpaces i buf t = buf t := by
  induction i generalizing buf with
  | zero =>
    unfold clearSpaces
    split
    · exact update_of_ne (by omega) _ _
    · rfl
  | succ i ih =>
    unfold clearSpaces
    split
    · rw [ih (by omega)]
      exact update_of_ne (by omega) _ _
    · rfl

theorem length_strncpy_le (src : List UInt8) (n : Nat) : (strncpy src n).length ≤ n + 1 := by
  have chars : ((src.take n).takeWhile (· ≠ 0)).length ≤ (src.take n).length :=
    ( takeWhile_prefix _).length_le
  rw [strncpy, length_append, length_singleton]
  exact Nat.succ_le_succ (chars.trans (length_take_le _ _))

theorem shortName_above (d : FatDir) (above : 13 ≤ t) : shortName d buf t = buf t := by
  unfold shortName
  have bound := trimmed_le (writeBlocks buf 0 (strncpy d.name 8)) 8
  have stemLength := length_strncpy_le d.name 8
  have extLength := length_strncpy_le (d.name.drop 8) 3
  have stem : writeBlocks buf 0 (strncpy d.name 8) t = buf t := writeBlocks_outside (.inr (by omega))
  split
  · rw [clearSpaces_above (by omega), writeBlocks_outside (.inr (by omega)),
      update_of_ne (by omega), stem]
  · rw [update_of_ne (by omega), stem]

def Parser.Tidy (p : Parser) : Prop := p.longEntry = false -> ∀ t, 13 ≤ t -> p.name t = 0

theorem parseDirEntry_tidy {p' : Parser} (tidy : p.Tidy) (parsed : parseDirEntry p r = some p') : p'.Tidy := by
  rcases parseDirEntry_cases p r with ⟨_, found⟩ | ⟨_, found⟩ | ⟨_, _, found⟩ | ⟨d, _, ⟨_, found⟩ | found⟩ <;>
    cases found.symm.trans parsed
  · exact tidy
  · exact fun short => nomatch short
  · intro short t above
    have name : p.foundName d = shortName d p.name := if_neg (by rw [short]; exact Bool.false_ne_true)
    exact (congrFun name t).trans ((shortName_above d above).trans (tidy short t above))
  · exact fun _ _ _ => rfl

theorem parseEvents_tidy (events : List DirEvent) (tidy : p.Tidy) : (parseEvents events p).Tidy := by
  induction events generalizing p with
  | nil => exact tidy
  | cons event rest ih =>
    cases event with
    | clear => exact ih fun _ _ _ => rfl
    | record r =>
      rw [parseEvents]
      cases parsed : parseDirEntry p r with
      | none => exact tidy
      | some p' => exact ih (parseDirEntry_tidy tidy parsed)

theorem shortRecord_used : (shortRecord type).first ≠ 0 ∧ (shortRecord type).second ≠ 0xe5 := by
  cases type <;> decide

theorem newRecords_used {t : FileType} (legal : Legal name) (member : r ∈ newRecords name t) : r.first ≠ 0 := by
  rcases mem_append.mp member with long | short
  · obtain ⟨k, bound, rfl⟩ := mem_map.mp long
    intro ended
    have none := parseDirEntry_none (p := .start).mpr ended
    rw [parse_longRecord legal (mem_range.mp bound)] at none
    cases none
  · rw [mem_singleton.mp short]
    exact shortRecord_used.1

theorem parse_longRecords (legal : Legal name) (count : Nat) (bound : k + count ≤ longEntries name)
    (long : count = 0 -> p.longEntry = true) :
    parseEvents ((range' k count).map fun k => .record (longRecord name k)) p =
      { p with name := placeParts name count k p.name, longEntry := true } := by
  induction count generalizing k p with
  | zero =>
    rw [← long rfl]
    rfl
  | succ count ih =>
    rw [range'_succ, map_cons, parseEvents, parse_longRecord legal (by omega)]
    exact ih (by omega) fun _ => rfl

def finish (type : FileType) (p : Parser) : Parser :=
  if isDots (cString p.name) then p
  else
    { entries := p.entries ++ [{ name := cString p.name, type, ino := 0, fileSize := 0 }]
      name := fun _ => 0
      longEntry := false }

theorem parse_shortRecord (long : p.longEntry = true) (ends : p.name 255 = 0) :
    parseDirEntry p (shortRecord type) = some (finish type p) := by
  have same : update p.name 255 0 = p.name := by
    rw [← ends]
    exact update_eq_self _ _
  have kind : fatAttr2fsType (fsType2fatAttr type) = type := by cases type <;> rfl
  have whole : ({ p with longEntry := true } : Parser) = p := by rw [← long]
  unfold parseDirEntry
  rw [if_neg shortRecord_used.1, if_neg shortRecord_used.2]
  simp only [shortRecord, long, if_true, same, finish, newDirent, kind]
  split
  · exact congrArg some whole
  · rfl

def newEntry (name : List UInt8) (type : FileType) : Dirent :=
  { name, type, ino := 0, fileSize := 0 }

theorem newRecords_split (type : FileType) (bound : k ≤ longEntries name) :
    newRecords name type =
      (range' 0 k).map (longRecord name) ++ ((range' k (longEntries name - k)).map
        (longRecord name) ++ [shortRecord type]) := by
  have all : range (longEntries name) = range' 0 k ++ range' k (longEntries name - k) := by
    have parts := range'_append_1 (s := 0) (m := k) (n := longEntries name - k)
    rw [Nat.zero_add, Nat.add_sub_cancel' bound] at parts
    rw [range_eq_range', parts]
  rw [newRecords, all, map_append, append_assoc]

theorem length_newRecords (name : List UInt8) (type : FileType) : (newRecords name type).length = longEntries name + 1 := by
  simp [newRecords]

section group

variable {epc off : Nat} {type : FileType} {rest : List DirEvent}

theorem parse_front (legal : Legal name) (bound : k ≤ longEntries name) (some : 0 < k) :
    parseEvents (((range' 0 k).map (longRecord name)).map .record ++ rest) p =
      parseEvents rest { p with name := placeParts name k 0 p.name, longEntry := true } := by
  have endless : Endless (((range' 0 k).map (longRecord name)).map .record) := by
    intro r member
    obtain ⟨r, inside, same⟩ := mem_map.mp member
    cases same
    apply newRecords_used (t := .regular) legal
    rw [newRecords_split .regular bound]
    exact mem_append_left _ inside
  rw [parseEvents_append endless, map_map]
  congr 1
  exact parse_longRecords legal k (by omega) (by omega)

theorem parse_together (type : FileType) (legal : Legal name)
    (fits : off + longEntries name + 1 ≤ epc) (tidy : p.Tidy) (idle : p.longEntry = false) :
    ∃ tail, (tail = [] ∨ tail = [.clear]) ∧ parseEvents (spread epc off (newRecords name type)) p =
      parseEvents tail (finish type { p with name := placeParts name (longEntries name) 0 p.name, longEntry := true }) := by
  have ends : placeParts name (longEntries name) 0 p.name 255 = 0 := by
    rw [placeParts_outside _ (by omega), tidy idle 255 (by decide)]
  obtain ⟨tail, shape, last⟩ := spread_single epc (off + longEntries name) (shortRecord type)
  have inside : off + ((range' 0 (longEntries name)).map (longRecord name)).length < epc := by
    rw [length_map, length_range']
    omega
  refine ⟨tail, shape, ?_⟩
  rw [newRecords_split type (Nat.le_refl _), Nat.sub_self, spread_inside inside, length_map, length_range',
    parse_front legal (Nat.le_refl _) legal.longEntries_pos, range'_zero, map_nil, nil_append, last,
    parseEvents, parse_shortRecord rfl ends]

theorem finish_entries (type : FileType) (p : Parser) :
    ∃ own, (finish type p).entries = p.entries ++ own ∧ ∀ e ∈ own, e.name = cString p.name := by
  unfold finish
  split
  · exact ⟨[], (append_nil _).symm, fun _ => nofun⟩
  · refine ⟨_, rfl, fun e member => ?_⟩
    rw [mem_singleton.mp member]

theorem finish_kept (other : isDots (cString p.name) = false) :
    finish type p = { entries := p.entries ++ [newEntry (cString p.name) type], name := fun _ => 0, longEntry := false } :=
  if_neg (by rw [other]; exact Bool.false_ne_true)

theorem parse_tail {tail : List DirEvent} (shape : tail = [] ∨ tail = [.clear]) :
    (parseEvents tail p).entries = p.entries := by
  rcases shape with rfl | rfl <;> rfl

theorem parse_rest (epc off : Nat) (type : FileType) (legal : Legal name) (count : Nat)
    {first : Nat} (later : first ≤ k) (all : k + count = longEntries name)
    (zeros : ∀ t, 13 * (longEntries name - first) ≤ t -> p.name t = 0) (high : ∀ t, 195 ≤ t -> p.name t = 0)
    (long : p.longEntry = true) :
    ∃ own, (parseEvents (spread epc off ((range' k count).map (longRecord name) ++ [shortRecord type])) p).entries =
      p.entries ++ own ∧ ∀ e ∈ own, e.name.length ≤ 13 * (longEntries name - first) := by
  induction count generalizing k off p with
  | zero =>
    obtain ⟨tail, shape, last⟩ := spread_single epc off (shortRecord type)
    obtain ⟨own, entries, names⟩ := finish_entries type p
    rw [range'_zero, map_nil, nil_append, last, parseEvents, parse_shortRecord long (high 255 (by decide))]
    refine ⟨own, (parse_tail shape).trans entries, fun e member => ?_⟩
    rw [names e member]
    exact cString_length_le (zeros _ (Nat.le_refl _))
  | succ count ih =>
    have step := parse_longRecord (p := p) legal (k := k) (by omega)
    have zeros' : ∀ t, 13 * (longEntries name - first) ≤ t -> placePart name k p.name t = 0 := by
      intro t above
      rw [placePart_outside (by omega), zeros t above]
    have high' : ∀ t, 195 ≤ t -> placePart name k p.name t = 0 := by
      intro t above
      rw [placePart_outside (by omega), high t above]
    rw [range'_succ, map_cons, cons_append, spread]
    split
    · rw [parseEvents, step]
      exact ih 0 (p := Parser.clear _) (by omega) (by omega) (fun _ _ => rfl) (fun _ _ => rfl) rfl
    · rw [parseEvents, step]
      exact ih (off + 1) (by omega) (by omega) zeros' high' rfl

theorem parse_apart (type : FileType) (legal : Legal name) (inside : off < epc) (apart : epc < off + longEntries name + 1) :
    ∃ own, (parseEvents (spread epc off (newRecords name type)) p).entries = p.entries ++ own ∧
      ∀ e ∈ own, e.name.length < name.length := by
  have bound : epc - off ≤ longEntries name := by omega
  have full : off + ((range' 0 (epc - off)).map (longRecord name)).length = epc := by
    rw [length_map, length_range']
    omega
  have some : (range' 0 (epc - off)).map (longRecord name) ≠ [] := by
    apply ne_nil_of_length_pos
    rw [length_map, length_range']
    omega
  rw [newRecords_split type bound, spread_full some full, parse_front legal bound (by omega), parseEvents]
  obtain ⟨own, entries, names⟩ :=
    parse_rest epc 0 type legal (longEntries name - (epc - off)) (k := epc - off) (Nat.le_refl _)
    (by omega) (p := Parser.clear { p with name := placeParts name (epc - off) 0 p.name, longEntry := true })
    (fun _ _ => rfl) (fun _ _ => rfl) rfl
  refine ⟨own, entries, fun e member => ?_⟩
  have short := names e member
  have := lt_of_lt_longEntries (show longEntries name - 1 < longEntries name by omega)
  omega

theorem parse_kept (legal : Legal name) (tidy : p.Tidy) (idle : p.longEntry = false)
    (fits : off + longEntries name + 1 ≤ epc) (keeps : KeepsName name) :
    parseEvents (spread epc off (newRecords name type)) p =
      { entries := p.entries ++ [newEntry name type], name := fun _ => 0, longEntry := false } := by
  obtain ⟨tail, shape, parsed⟩ := parse_together type legal fits tidy idle
  have decoded : cString (placeParts name (longEntries name) 0 p.name) = name := (decodedName_eq legal (tidy idle)).mpr keeps
  rw [parsed, finish_kept (by rw [decoded]; exact legal.noDots), decoded]
  rcases shape with rfl | rfl <;> rfl

theorem parse_lost (type : FileType) (legal : Legal name) (tidy : p.Tidy) (idle : p.longEntry = false) (inside : off < epc)
    (lost : ¬ (KeepsName name ∧ off + longEntries name + 1 ≤ epc)) :
    ∃ own, (parseEvents (spread epc off (newRecords name type)) p).entries = p.entries ++ own ∧ ∀ e ∈ own, e.name ≠ name := by
  by_cases fits : off + longEntries name + 1 ≤ epc
  · obtain ⟨tail, shape, parsed⟩ := parse_together type legal fits tidy idle
    obtain ⟨own, entries, names⟩ :=
      finish_entries type { p with name := placeParts name (longEntries name) 0 p.name, longEntry := true }
    refine ⟨own, by rw [parsed, parse_tail shape, entries], fun e member same => lost ⟨?_, fits⟩⟩
    exact (decodedName_eq legal (tidy idle)).mp ((names e member).symm.trans same)
  obtain ⟨own, entries, names⟩ := parse_apart (p := p) type legal inside (by omega)
  refine ⟨own, entries, fun e member same => ?_⟩
  have shorter := names e member
  rw [same] at shorter
  exact Nat.lt_irrefl _ shorter

end group

end Bincows.Fat32
