import Bincows.Fs.DirectoryRecords

set_option autoImplicit false

namespace Bincows.Fat32

open List

inductive DirEvent where
  | clear
  | record (r : DirRecord)

variable {p : Parser} {r : DirRecord} {events more : List DirEvent} {epc off i count : Nat}
  {buf buf' : Nat -> DirRecord} {xs ys : List DirRecord}

def Parser.clear (p : Parser) : Parser := { p with name := fun _ => 0 }

def parseEvents : List DirEvent -> Parser -> Parser
  | [], p => p
  | .clear :: rest, p => parseEvents rest p.clear
  | .record r :: rest, p =>
    match parseDirEntry p r with
    | none => p
    | some p => parseEvents rest p

def Endless (events : List DirEvent) : Prop := ∀ r, .record r ∈ events -> r.first ≠ 0

def Parser.foundName (p : Parser) (d : FatDir) : NameBuf :=
  if p.longEntry then Function.update p.name 255 0 else shortName d p.name

theorem parseDirEntry_cases (p : Parser) (r : DirRecord) :
    r.first = 0 ∧ parseDirEntry p r = none ∨ r.first ≠ 0 ∧ parseDirEntry p r = some p ∨
      (∃ name, r.first ≠ 0 ∧ parseDirEntry p r = some { p with name, longEntry := true }) ∨
      ∃ d, r.first ≠ 0 ∧
        (isDots (cString (p.foundName d)) = true ∧
          parseDirEntry p r = some { p with name := p.foundName d } ∨ parseDirEntry p r =
            some { entries := p.entries ++ [newDirent d (p.foundName d)], name := fun _ => 0, longEntry := false }) := by
  by_cases ended : r.first = 0
  · exact .inl ⟨ended, if_pos ended⟩
  by_cases deleted : r.second = 0xe5
  · exact .inr (.inl ⟨ended, by unfold parseDirEntry; rw [if_neg ended, if_pos deleted]⟩)
  cases r with
  | long e => exact .inr (.inr (.inl ⟨_, ended, by rw [parseDirEntry, if_neg ended, if_neg deleted]⟩))
  | dir d =>
    have parsed : parseDirEntry p (.dir d) = if isDots (cString (p.foundName d)) then some { p with name := p.foundName d }
        else some { entries := p.entries ++ [newDirent d (p.foundName d)], name := fun _ => 0, longEntry := false } := by
      rw [parseDirEntry, if_neg ended, if_neg deleted]
      rfl
    refine .inr (.inr (.inr ⟨d, ended, ?_⟩))
    by_cases dots : isDots (cString (p.foundName d))
    · exact .inl ⟨dots, parsed.trans (if_pos dots)⟩
    · exact .inr (parsed.trans (if_neg dots))

theorem parseDirEntry_none : parseDirEntry p r = none ↔ r.first = 0 := by
  rcases parseDirEntry_cases p r with ⟨ended, parsed⟩ | ⟨used, parsed⟩ | ⟨_, used, parsed⟩ | ⟨_,
    used, ⟨_, parsed⟩ | parsed⟩ <;>
    simp [*]

theorem parseEvents_end (ended : r.first = 0) : parseEvents (.record r :: events) p = p := by
  rw [parseEvents, parseDirEntry_none.mpr ended]

theorem parseEvents_append (endless : Endless events) :
    parseEvents (events ++ more) p = parseEvents more (parseEvents events p) := by
  induction events generalizing p with
  | nil => rfl
  | cons event rest ih =>
    have later : Endless rest := fun r member => endless r (mem_cons_of_mem _ member)
    cases event with
    | clear => exact ih later
    | record r =>
      rw [cons_append, parseEvents, parseEvents]
      cases parsed : parseDirEntry p r with
      | none => exact absurd (parseDirEntry_none.mp parsed) (endless r mem_cons_self)
      | some p => exact ih later

theorem parseDirEntry_entries {p' : Parser} (parsed : parseDirEntry p r = some p') :
    ∃ new, p'.entries = p.entries ++ new := by
  rcases parseDirEntry_cases p r with ⟨_, found⟩ | ⟨_, found⟩ | ⟨_, _, found⟩ | ⟨_, _, ⟨_, found⟩ | found⟩ <;>
    cases found.symm.trans parsed
  · exact ⟨[], (append_nil _).symm⟩
  · exact ⟨[], (append_nil _).symm⟩
  · exact ⟨[], (append_nil _).symm⟩
  · exact ⟨_, rfl⟩

theorem parseEvents_entries (events : List DirEvent) (p : Parser) :
    ∃ new, (parseEvents events p).entries = p.entries ++ new := by
  induction events generalizing p with
  | nil => exact ⟨[], (append_nil _).symm⟩
  | cons event rest ih =>
    cases event with
    | clear => exact ih p.clear
    | record r =>
      rw [parseEvents]
      cases parsed : parseDirEntry p r with
      | none => exact ⟨[], (append_nil _).symm⟩
      | some p' =>
        obtain ⟨here, first⟩ := parseDirEntry_entries parsed
        obtain ⟨later, second⟩ := ih p'
        exact ⟨here ++ later, by rw [second, first, append_assoc]⟩

def recordsFrom (buf : Nat -> DirRecord) (i count : Nat) : List DirEvent :=
  (range' i count).map fun j => .record (buf j)

theorem recordsFrom_congr (same : ∀ j, i ≤ j -> j < i + count -> buf' j = buf j) :
    recordsFrom buf' i count = recordsFrom buf i count := by
  apply map_congr_left
  intro j member
  obtain ⟨lower, upper⟩ := mem_range'_1.mp member
  rw [same j lower upper]

theorem recordsFrom_add (i count rest : Nat) : recordsFrom buf i (count + rest) = recordsFrom buf i
    count ++ recordsFrom buf (i + count) rest := by
  rw [recordsFrom, ← range'_append_1, map_append]
  rfl

theorem recordsFrom_succ (i count : Nat) :
    recordsFrom buf i (count + 1) = .record (buf i) :: recordsFrom buf (i + 1) count := by
  rw [recordsFrom, range'_succ, map_cons]
  rfl

theorem parseFrom_events (i count : Nat) :
    parseEvents (recordsFrom buf i count ++ more) p =
      if (parseFrom buf count i p).2 then (parseFrom buf count i p).1 else parseEvents more (parseFrom buf count i p).1 := by
  induction count generalizing i p with
  | zero => rfl
  | succ count ih =>
    rw [recordsFrom_succ, cons_append, parseEvents, parseFrom]
    cases parseDirEntry p (buf i) with
    | none => rfl
    | some p => exact ih (i + 1)

theorem findEnd_none (missing : findEnd buf count i = none) : Endless (recordsFrom buf i count) := by
  induction count generalizing i with
  | zero => exact fun _ => nofun
  | succ count ih =>
    unfold findEnd at missing
    split at missing
    case isTrue => cases missing
    case isFalse used =>
      rw [recordsFrom_succ]
      rintro r (_ | ⟨_, later⟩)
      · exact used
      · exact ih missing r later

theorem findEnd_some {j : Nat} (found : findEnd buf count i = some j) :
    i ≤ j ∧ j < i + count ∧ (buf j).first = 0 ∧ Endless (recordsFrom buf i (j - i)) := by
  induction count generalizing i with
  | zero => cases found
  | succ count ih =>
    unfold findEnd at found
    split at found
    case isTrue ended =>
      cases found
      refine ⟨Nat.le_refl _, by omega, ended, ?_⟩
      rw [Nat.sub_self]
      exact fun _ => nofun
    case isFalse used =>
      obtain ⟨lower, upper, ended, endless⟩ := ih found
      have length : j - i = j - (i + 1) + 1 := by omega
      refine ⟨by omega, by omega, ended, ?_⟩
      rw [length, recordsFrom_succ]
      rintro r (_ | ⟨_, later⟩)
      · exact used
      · exact endless r later

def spread (epc : Nat) : Nat -> List DirRecord -> List DirEvent
  | _, [] => []
  | off, r :: rest =>
    if off + 1 = epc then .record r :: .clear :: spread epc 0 rest else .record r :: spread epc (off + 1) rest

theorem spread_inside (fits : off + xs.length < epc) :
    spread epc off (xs ++ ys) = xs.map .record ++ spread epc (off + xs.length) ys := by
  induction xs generalizing off with
  | nil => rfl
  | cons x xs ih =>
    rw [length_cons] at fits
    have next : off + 1 + xs.length = off + (xs.length + 1) := by omega
    rw [cons_append, spread, if_neg (by omega), ih (by omega), next]
    rfl

theorem spread_full (some : xs ≠ []) (full : off + xs.length = epc) :
    spread epc off (xs ++ ys) = xs.map .record ++ .clear :: spread epc 0 ys := by
  obtain ⟨front, last, rfl⟩ := eq_nil_or_concat' xs |>.resolve_left some
  rw [length_append, length_singleton] at full
  rw [append_assoc, spread_inside (by omega), singleton_append, spread, if_pos (by omega), map_append, append_assoc]
  rfl

theorem spread_single (epc off : Nat) (r : DirRecord) :
    ∃ tail, (tail = [] ∨ tail = [.clear]) ∧ spread epc off [r] = .record r :: tail := by
  by_cases full : off + 1 = epc
  · exact ⟨[.clear], .inr rfl, if_pos full⟩
  · exact ⟨[], .inl rfl, if_neg full⟩

theorem spread_mem (member : .record r ∈ spread epc off xs) : r ∈ xs := by
  induction xs generalizing off with
  | nil => cases member
  | cons x xs ih =>
    unfold spread at member
    split at member
    · rcases member with _ | ⟨_, _ | ⟨_, later⟩⟩
      · exact mem_cons_self
      · exact mem_cons_of_mem _ (ih later)
    · rcases member with _ | ⟨_, later⟩
      · exact mem_cons_self
      · exact mem_cons_of_mem _ (ih later)

end Bincows.Fat32
