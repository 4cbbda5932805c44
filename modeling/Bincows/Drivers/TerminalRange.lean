import Bincows.Drivers.Terminal
import Bincows.Shared.Histories

set_option autoImplicit false

namespace Bincows.Terminal

open Histories

variable (d : Data)

structure InRange : Prop where
  col : d.curCol < d.ncols
  first : d.firstLine ≤ d.curLine
  line : d.curLine < d.nlines
  page : d.firstLine + d.termNlines ≤ d.nlines
  esc : d.idx < escSize

def Ranges (x : Except Fault Data) : Prop := ∃ d, x = .ok d ∧ InRange d

-- The page fits the framebuffer.
structure Screen : Prop where
  ncols : d.ncols < 2 ^ 16
  top : d.marginTop + d.termNlines * lineHeight ≤ d.height
  left : d.marginLeft + d.ncols * fontWidth ≤ d.width

structure Sound : Prop extends Screen d where
  nlines : d.nlines < 2 ^ 16
  pages : d.nlines ≤ nPages * d.termNlines
  cells : d.charBuffer.length = d.ncols * d.nlines
  sequence : d.escSeq.length = escSize

def Good (x : Except Fault Data) : Prop := ∃ d, x = .ok d ∧ Sound d ∧ InRange d

def Exact (x : Except Fault Data) (condition : Prop) : Prop :=
  (Ranges x -> condition) ∧ (condition -> Good x)

def Visible : Prop := d.needRefresh = true ∨ d.curLine ≤ d.firstLine + d.termNlines

instance : Decidable (Visible d) := inferInstanceAs (Decidable (_ ∨ _))

def LineFine : Prop :=
  if d.nlines ≤ d.curLine + 1 then 4 ≤ d.termNlines
  else d.firstLine + d.termNlines ≤ d.curLine + 1 -> d.firstLine + 4 + d.termNlines ≤ d.nlines ∧
    d.firstLine + 4 ≤ d.curLine + 1

def CharFine : Prop := Visible d ∧ (d.curCol + 1 = d.ncols -> LineFine d)

def Behind (property : List UInt8 -> Prop) (bytes : List UInt8) : Prop :=
  ∃ front rest, bytes = front ++ 0xff :: rest ∧ 0xff ∉ front ∧ property rest

def StartsWithDigit (bytes : List UInt8) : Prop := ∃ n rest, bytes = n :: rest ∧ n ≠ 0xff

def ThirdArgument : List UInt8 -> Prop := Behind (Behind StartsWithDigit)

def CupFine : Prop :=
  ¬ ThirdArgument (params d) ∧
    ∀ row col, cupVals (params d) 0 (0, 0) = .ok (some (row, col)) ->
      d.firstLine = 0 ∨ (row - 1) % 2 ^ 16 + d.firstLine < d.nlines

def tabStop : Nat := (d.curCol + tabSpace) / tabSpace * tabSpace

def TabFine : Prop := d.ncols < tabStop d ∨ tabStop d < d.ncols ∧ Visible d

def BackFine : Prop := d.curCol ≠ 0 ∨ d.curLine = 0 ∨ d.firstLine < d.curLine

def isControl (c : UInt8) : Bool := c = 27 ∨ c = 10 ∨ c = 9 ∨ c = 13 ∨ c = 8 ∨ c = 12

structure ByteFine (c : UInt8) : Prop where
  digit : d.seq = true -> isDigit c = true -> d.idx + 1 < escSize
  cup : d.seq = true -> c = 72 -> CupFine d
  newline : d.seq = false -> c = 10 -> Visible d ∧ LineFine d
  tab : d.seq = false -> c = 9 -> TabFine d
  back : d.seq = false -> c = 8 -> BackFine d
  normal : d.seq = false -> ¬ (d.esc = true ∧ c = 91) -> isControl c = false -> CharFine d

def Fine : Output -> Prop
  | .byte c => printable c = true -> ByteFine d c
  | .flush => True

variable {d} {c : UInt8} {x : Except Fault Data} {p q : Prop}

theorem Good.ranges (good : Good x) : Ranges x := by
  obtain ⟨d, result, -, range⟩ := good
  exact ⟨d, result, range⟩

theorem Exact.congr (exact' : Exact x p) (same : p ↔ q) : Exact x q :=
  ⟨fun ranges => same.mp (exact'.1 ranges), fun holds => exact'.2 (same.mpr holds)⟩

theorem Exact.of_error {e : Fault} (never : ¬ p) : Exact (.error e) p := by
  constructor
  · rintro ⟨_, ⟨⟩, _⟩
  · exact fun holds => absurd holds never

theorem Exact.of_good (good : Good x) (holds : p) : Exact x p := ⟨fun _ => holds, fun _ => good⟩

variable {d' : Data}

theorem Exact.of_ok (needs : InRange d' -> p) (keeps : p -> Sound d' ∧ InRange d') : Exact (.ok d') p := by
  constructor
  · rintro ⟨_, ⟨⟩, range⟩
    exact needs range
  · exact fun holds => ⟨d', rfl, keeps holds⟩

theorem Exact.ite {c : Prop} [Decidable c] {y : Except Fault Data} (yes : c -> Exact x p)
    (no : ¬ c -> Exact y p) : Exact (if c then x else y) p := by
  split
  · exact yes ‹c›
  · exact no ‹¬ c›

theorem moveBuffer_length (sound : Sound d) (fits : d.ncols * 4 ≤ d.nlines * d.ncols) (some : 0 < d.ncols) :
    (d.charBuffer.drop (d.ncols * 4) ++ (d.charBuffer.drop (d.nlines * d.ncols - d.ncols * 4)).take 1 ++
      List.replicate (d.ncols * 4 - 1) (makeChar d 0)).length = d.ncols * d.nlines := by
  have whole : d.nlines * d.ncols = d.ncols * d.nlines := Nat.mul_comm _ _
  simp only [List.length_append, List.length_drop, List.length_take, List.length_replicate, sound.cells]
  omega

theorem nextLine_exact (sound : Sound d) (some : 0 < d.ncols) (first : d.firstLine ≤ d.curLine) (line : d.curLine < d.nlines)
    (page : d.firstLine + d.termNlines ≤ d.nlines) (esc : d.idx < escSize) : Exact (nextLine d) (LineFine d) := by
  have bound := sound.nlines
  have small : (d.curLine + 1) % 2 ^ 16 = d.curLine + 1 := Nat.mod_eq_of_lt (by omega)
  simp only [nextLine, LineFine, small]
  by_cases last : d.nlines ≤ d.curLine + 1
  · rw [if_pos last, if_pos last]
    have top : (d.nlines + 2 ^ 16 - d.termNlines) % 2 ^ 16 = d.nlines - d.termNlines := by omega
    unfold moveBuffer
    by_cases fits : d.ncols * 4 ≤ d.nlines * d.ncols
    · simp only [if_pos fits, top]
      have enough : 4 ≤ d.nlines := by
        rw [Nat.mul_comm d.nlines] at fits
        exact Nat.le_of_mul_le_mul_left fits some
      have low : (d.nlines + 2 ^ 16 - 4) % 2 ^ 16 = d.nlines - 4 := by omega
      rw [low]
      refine .of_ok (fun range => ?_) fun four => ⟨?_, ?_⟩
      · have := range.first
        simp only at this
        omega
      · exact { sound with cells := moveBuffer_length sound fits some }
      · refine ⟨some, ?_, ?_, ?_, esc⟩ <;> simp only <;> omega
    · simp only [if_neg fits]
      refine .of_error fun four => fits ?_
      rw [Nat.mul_comm d.nlines]
      exact Nat.mul_le_mul_left _ (by omega)
  · rw [if_neg last, if_neg last]
    refine .ite (fun scrolls => ?_) fun stays => ?_
    · refine .of_ok (fun range _ => ?_) fun fine => ⟨{ sound with }, ?_⟩
      · have page := range.page
        simp only at page first
        have twice : d.nlines ≤ 2 * d.termNlines := sound.pages
        omega
      · refine ⟨some, ?_, ?_, ?_, esc⟩ <;> simp only <;> omega
    · refine .of_ok (fun _ impossible => absurd impossible stays) fun _ => ⟨?_, ?_⟩
      · exact { sound with }
      · exact ⟨some, by simp only; omega, by simp only; omega, page, esc⟩

theorem cell_inside (sound : Sound d) (col : d.curCol < d.ncols) (line : d.curLine < d.nlines) :
    d.ncols * d.curLine + d.curCol < d.charBuffer.length := by
  have next : d.ncols * (d.curLine + 1) ≤ d.ncols * d.nlines := Nat.mul_le_mul_left _ line
  rw [sound.cells]
  rw [Nat.mul_succ] at next
  omega

theorem printChar_eq (screen : Screen d) (col : d.curCol < d.ncols) :
    printChar d (d.curLine - d.firstLine) d.curCol =
      if d.curLine ≤ d.firstLine + d.termNlines then .ok () else .error .hangs := by
  have top := screen.top
  have left := screen.left
  unfold printChar
  by_cases shown : d.curLine ≤ d.firstLine + d.termNlines
  · have lines : ((d.curLine : Int) - d.firstLine) * lineHeight ≤ d.termNlines * lineHeight := by
      refine Int.mul_le_mul_of_nonneg_right (by omega) (by decide)
    have columns : (d.curCol : Int) * fontWidth ≤ d.ncols * fontWidth := by
      refine Int.mul_le_mul_of_nonneg_right (by omega) (by decide)
    rw [if_neg (by omega), if_neg (by omega), if_neg (by omega), if_neg (by omega), if_pos shown]
  · rw [if_pos (by omega), if_neg shown]

def placed (d : Data) (c : UInt8) : Data :=
  { d with charBuffer := d.charBuffer.set (d.ncols * d.curLine + d.curCol) (makeChar d c), curCol := d.curCol + 1 }

theorem placed_sound (sound : Sound d) : Sound (placed d c) :=
  { sound with cells := List.length_set.trans sound.cells }

theorem emplaceNormalChar_eq (screen : Screen d) (col : d.curCol < d.ncols)
    (inside : d.ncols * d.curLine + d.curCol < d.charBuffer.length) :
    emplaceNormalChar d c =
      if Visible d then if d.ncols ≤ d.curCol + 1 then nextLine (placed d c) else .ok (placed d c)
      else .error .hangs := by
  have columns := screen.ncols
  have small : (d.curCol + 1) % 2 ^ 16 = d.curCol + 1 := Nat.mod_eq_of_lt (by omega)
  unfold emplaceNormalChar
  simp only [if_pos inside, advanceCursor, small]
  by_cases refresh : d.needRefresh = false
  · rw [if_pos refresh]
    show (printChar d (d.curLine - d.firstLine) d.curCol >>= fun _ => _) = _
    rw [printChar_eq screen col]
    by_cases shown : d.curLine ≤ d.firstLine + d.termNlines
    · rw [if_pos shown, if_pos (show Visible d from .inr shown)]
      rfl
    · have hidden : ¬ Visible d := by simp [Visible, refresh, shown]
      rw [if_neg shown, if_neg hidden]
      rfl
  · have visible : Visible d := .inl (by simpa using refresh)
    rw [if_neg refresh, if_pos visible]
    rfl

/-- What every write keeps, in range or not: the cursor is in a column of the screen. -/
structure Steady (d : Data) : Prop extends Screen d where
  col : d.curCol < d.ncols

theorem nextLine_steady (screen : Screen d) (some : 0 < d.ncols) :
    (nextLine d).Ensures (· ≠ .hangs) fun d' => d'.ncols = d.ncols ∧ Steady d' := by
  simp only [nextLine, moveBuffer]
  split
  · split
    · exact ⟨rfl, { screen with col := some }⟩
    · exact .error (by decide)
  · split <;> exact ⟨rfl, { screen with col := some }⟩

theorem emplaceNormalChar_ends (steady : Steady d) :
    (emplaceNormalChar d c).Ensures (fun e => Visible d -> e ≠ .hangs)
      fun d' => Visible d ∧ d'.ncols = d.ncols ∧ Steady d' := by
  have col := steady.col
  by_cases inside : d.ncols * d.curLine + d.curCol < d.charBuffer.length
  · rw [emplaceNormalChar_eq steady.toScreen col inside]
    split
    next visible =>
      split
      · have goes := nextLine_steady (d := placed d c) { steady with } (Nat.zero_lt_of_lt col)
        exact goes.mono (fun _ other _ => other) fun _ after => ⟨visible, after⟩
      next more => exact ⟨visible, rfl, { steady with col := Nat.lt_of_not_le more }⟩
    next hidden => exact .error fun visible => absurd visible hidden
  · have outside : emplaceNormalChar d c = .error .outside := if_neg inside
    rw [outside]
    exact .error fun _ => by decide

section

variable (sound : Sound d) (range : InRange d)
include sound range

theorem emplaceNormalChar_visible (visible : Visible d) :
    emplaceNormalChar d c = if d.ncols ≤ d.curCol + 1 then nextLine (placed d c) else .ok (placed d c) := by
  rw [emplaceNormalChar_eq sound.toScreen range.col (cell_inside sound range.col range.line), if_pos visible]

theorem emplaceNormalChar_hidden (hidden : ¬ Visible d) : emplaceNormalChar d c = .error .hangs := by
  rw [emplaceNormalChar_eq sound.toScreen range.col (cell_inside sound range.col range.line), if_neg hidden]

theorem emplaceNormalChar_exact : Exact (emplaceNormalChar d c) (CharFine d) := by
  have col := range.col
  by_cases visible : Visible d
  · rw [emplaceNormalChar_visible sound range visible]
    refine .ite (fun last => ?_) fun inside => ?_
    · refine (nextLine_exact (placed_sound sound) (Nat.zero_lt_of_lt col) range.first range.line
        range.page range.esc).congr ?_
      exact ⟨fun fine => ⟨visible, fun _ => fine⟩, fun fine => fine.2 (by omega)⟩
    · refine .of_ok (fun _ => ⟨visible, fun full => absurd full (by omega)⟩) fun _ => ⟨placed_sound sound, ?_⟩
      exact { range with col := Nat.lt_of_not_le inside }
  · rw [emplaceNormalChar_hidden sound range visible]
    exact .of_error fun fine => visible fine.1

end

-- Off the last column.
theorem emplaceNormalChar_inner (steady : Steady d) (more : d.curCol + 1 < d.ncols) :
    emplaceNormalChar d c = .error .outside ∨
      emplaceNormalChar d c = if Visible d then .ok (placed d c) else .error .hangs := by
  by_cases inside : d.ncols * d.curLine + d.curCol < d.charBuffer.length
  · rw [emplaceNormalChar_eq steady.toScreen steady.col inside, if_neg (Nat.not_le_of_lt more)]
    exact .inr rfl
  · exact .inl (if_neg inside)

theorem tabTo_margin (fuel : Nat) (steady : Steady d) (d' : Data) : tabTo d.ncols fuel d ≠ .ok d' := by
  induction fuel generalizing d with
  | zero =>
    rw [tabTo, if_pos steady.col]
    intro returns
    cases returns
  | succ fuel ih =>
    rw [tabTo, if_pos steady.col]
    intro returns
    obtain ⟨e, written, continues⟩ := bind_eq_ok.mp returns
    obtain ⟨-, kept, after⟩ := (emplaceNormalChar_ends steady).of_ok written
    rw [← kept] at continues
    exact ih after continues

/-- `x` returns only if `p` holds, and does not hang then. -/
def Ends (x : Except Fault Data) (p : Prop) : Prop :=
  x.Ensures (fun e => p -> e ≠ .hangs) fun d' => p ∧ Steady d'

theorem Ends.congr (ends : Ends x p) (same : p ↔ q) : Ends x q :=
  ends.mono (fun _ other holds => other (same.mpr holds)) fun _ after => ⟨same.mp after.1, after.2⟩

theorem Ends.of_ensures (ensures : x.Ensures (· ≠ .hangs) Steady) (holds : p) : Ends x p :=
  ensures.mono (fun _ other _ => other) fun _ after => ⟨holds, after⟩

/-- What is said of a run of blanks: `Exact` from a state in range, `Ends` from a steady one. -/
structure Judges (judged : Except Fault Data -> Prop -> Prop) (kept : Data -> Prop) : Prop where
  steady : ∀ {d}, kept d -> Steady d
  congr : ∀ {x p q}, judged x p -> (p ↔ q) -> judged x q
  stays : ∀ {d p}, kept d -> p -> judged (.ok d) p
  never : ∀ {x}, (∀ d, x ≠ .ok d) -> judged x False
  blank : ∀ {d f p}, kept d -> d.curCol + 1 < d.ncols ->
    (kept (placed d 32) -> judged (f (placed d 32)) p) -> judged (emplaceNormalChar d 32 >>= f) (Visible d ∧ p)

namespace Judges

variable {judged : Except Fault Data -> Prop -> Prop} {kept : Data -> Prop}
  (judges : Judges judged kept) (here : kept d)
include judges here

theorem writeSpaces {n : Nat} (last : Data -> Prop) (same : ∀ d, last (placed d 32) = last d)
    (final : ∀ d, kept d -> d.curCol + 1 = d.ncols -> judged (emplaceNormalChar d 32) (Visible d ∧ last d))
    (full : d.curCol + (n + 1) = d.ncols) : judged (writeSpaces (n + 1) d) (Visible d ∧ last d) := by
  induction n generalizing d with
  | zero =>
    have once : Terminal.writeSpaces 1 d = emplaceNormalChar d 32 := bind_pure _
    rw [once]
    exact final d here full
  | succ n ih =>
    have further (next : kept (placed d 32)) := ih next (show d.curCol + 1 + (n + 1) = d.ncols by omega)
    refine judges.congr (judges.blank here (by omega) further) ?_
    rw [same]
    exact ⟨And.right, fun both => ⟨both.1, both⟩⟩

theorem tabTo {newCol fuel : Nat} (inside : newCol < d.ncols) (enough : newCol ≤ d.curCol + fuel) :
    judged (tabTo newCol fuel d) (d.curCol < newCol -> Visible d) := by
  induction fuel generalizing d with
  | zero =>
    rw [Terminal.tabTo, if_neg (by omega)]
    exact judges.stays here fun before => absurd before (by omega)
  | succ fuel ih =>
    rw [Terminal.tabTo]
    split
    next before =>
      have further (next : kept (placed d 32)) :=
        ih next inside (show newCol ≤ d.curCol + 1 + fuel by omega)
      refine judges.congr (judges.blank here (by omega) further) ⟨fun both _ => both.1, fun visible => ?_⟩
      exact ⟨visible before, fun _ => visible before⟩
    next there => exact judges.stays here fun before => absurd before there

theorem emplaceTab : judged (emplaceTab d) (TabFine d) := by
  have steady := judges.steady here
  have ahead : d.curCol < tabStop d := by
    unfold tabStop tabSpace
    omega
  have stop : Terminal.emplaceTab d = Terminal.tabTo (if tabStop d > d.ncols then 0 else tabStop d) d.ncols d := rfl
  rw [stop, TabFine]
  by_cases outside : tabStop d > d.ncols
  · rw [if_pos outside]
    have none := judges.tabTo here (Nat.zero_lt_of_lt steady.col) (Nat.zero_le (d.curCol + d.ncols))
    exact judges.congr none ⟨fun _ => .inl outside, nofun⟩
  rw [if_neg outside]
  by_cases margin : tabStop d = d.ncols
  · rw [margin]
    exact judges.congr (judges.never (tabTo_margin _ steady)) ⟨False.elim, by omega⟩
  · refine judges.congr (judges.tabTo here (by omega) (by omega)) ⟨fun visible => .inr ⟨by omega, visible ahead⟩, ?_⟩
    rintro (far | near) _
    · exact absurd far outside
    · exact near.2

end Judges

theorem exact_judges : Judges Exact fun d => Sound d ∧ InRange d where
  steady here := { here.1 with col := here.2.col }
  congr := Exact.congr
  stays here holds := .of_good ⟨_, rfl, here⟩ holds
  never returns := ⟨fun ⟨d, returned, _⟩ => absurd returned (returns d), False.elim⟩
  blank := by
    rintro d f p ⟨sound, range⟩ more goes
    by_cases visible : Visible d
    · rw [emplaceNormalChar_visible sound range visible, if_neg (by omega)]
      exact (goes ⟨placed_sound sound, { range with col := more }⟩).congr ⟨fun holds => ⟨visible, holds⟩, And.right⟩
    · rw [emplaceNormalChar_hidden sound range visible]
      exact .of_error fun both => visible both.1

theorem ends_judges : Judges Ends Steady where
  steady := id
  congr := Ends.congr
  stays here holds := ⟨holds, here⟩
  never {x} returns := by
    cases x with
    | ok d => exact absurd rfl (returns d)
    | error e => exact .error False.elim
  blank {d f p} here more goes := by
    rcases emplaceNormalChar_inner here more with outside | written
    · rw [outside]
      exact .error fun _ => by decide
    rw [written]
    split
    next visible => exact (goes { here with col := more }).congr ⟨fun holds => ⟨visible, holds⟩, And.right⟩
    next hidden => exact .error fun both => absurd both.1 hidden

variable {property : List UInt8 -> Prop}

theorem behind_nil : ¬ Behind property [] := by
  rintro ⟨front, rest, split, -⟩
  simp at split

variable {bytes : List UInt8}

theorem behind_cons {b : UInt8} :
    Behind property (b :: bytes) ↔ if b = 0xff then property bytes else Behind property bytes := by
  constructor
  · rintro ⟨_ | ⟨b', front⟩, rest, split, digits, holds⟩ <;> cases split
    · exact holds
    · rw [List.mem_cons, not_or] at digits
      rw [if_neg (Ne.symm digits.1)]
      exact ⟨front, rest, rfl, digits.2, holds⟩
  · split
    next semicolon => exact fun holds => ⟨[], bytes, semicolon ▸ rfl, List.not_mem_nil, holds⟩
    next digit =>
      rintro ⟨front, rest, rfl, digits, holds⟩
      exact ⟨b :: front, rest, rfl, by simp [Ne.symm digit, digits], holds⟩

theorem cupVals_second (vals : Nat × Nat) : (∃ e, cupVals bytes 2 vals = .error e) ↔ StartsWithDigit bytes := by
  cases bytes with
  | nil => simp [cupVals, StartsWithDigit]
  | cons b rest =>
    by_cases semicolon : b = 0xff
    · simp [cupVals, StartsWithDigit, semicolon]
    · simp [cupVals, StartsWithDigit, semicolon]

theorem cupVals_behind {j : Nat} (low : j < 2)
    (next : ∀ {bytes : List UInt8} (vals : Nat × Nat), (∃ e, cupVals bytes (j + 1) vals = .error e) ↔ property bytes)
    (vals : Nat × Nat) : (∃ e, cupVals bytes j vals = .error e) ↔ Behind property bytes := by
  induction bytes generalizing vals with
  | nil => simp [cupVals, behind_nil]
  | cons b rest ih =>
    by_cases semicolon : b = 0xff
    · subst semicolon
      rw [behind_cons, if_pos rfl, ← next vals]
      simp [cupVals, Nat.not_lt.mpr (Nat.le_of_lt_succ low)]
    rw [behind_cons, if_neg semicolon]
    obtain rfl | rfl : j = 0 ∨ j = 1 := by omega
    · rw [← ih (vals.1 * 10 + b.toNat, vals.2)]
      simp [cupVals, semicolon]
    · rw [← ih (vals.1, vals.2 * 10 + b.toNat)]
      simp [cupVals, semicolon]

theorem cupVals_error (vals : Nat × Nat) : (∃ e, cupVals bytes 0 vals = .error e) ↔ ThirdArgument bytes :=
  cupVals_behind (by decide) (cupVals_behind (by decide) cupVals_second) vals

def ended (d : Data) : Data := { d with idx := 0, seq := false }

section

variable (sound : Sound d) (range : InRange d)
include sound range

theorem ended_good : Sound (ended d) ∧ InRange (ended d) :=
  ⟨{ sound with }, { range with esc := Nat.succ_pos 9 }⟩

theorem setCursor_exact {row col : Nat} :
    Exact (setCursor d row col >>= fun d => .ok (ended d))
      (d.firstLine = 0 ∨ (row - 1) % 2 ^ 16 + d.firstLine < d.nlines) := by
  have lines := sound.nlines
  have some := range.col
  have page := range.page
  have line := range.line
  have row16 : (row - 1) % 2 ^ 16 < 2 ^ 16 := Nat.mod_lt _ (by decide)
  have column : (if d.ncols ≤ (col - 1) % 2 ^ 16 then (d.ncols + 2 ^ 16 - 1) % 2 ^ 16 else (col - 1) % 2 ^ 16) < d.ncols := by
    split <;> omega
  have moved (k l : Nat) (inside : k < d.ncols) (below : d.firstLine ≤ l) (above : l < d.nlines) :
      Sound (ended { d with curCol := k, curLine := l }) ∧ InRange (ended { d with curCol := k, curLine := l }) :=
    ⟨{ sound with }, ⟨inside, below, above, page, Nat.succ_pos 9⟩⟩
  simp only [setCursor]
  generalize (if d.ncols ≤ (col - 1) % 2 ^ 16 then (d.ncols + 2 ^ 16 - 1) % 2 ^ 16 else (col - 1) % 2 ^ 16) = k at column
  generalize (row - 1) % 2 ^ 16 = r at row16
  by_cases beyond : d.nlines ≤ (r + d.firstLine) % 2 ^ 16
  · simp only [if_pos beyond]
    split
    next asserted =>
      refine .of_ok (fun after => ?_) fun fine => moved _ _ column asserted (by omega)
      have inside : (d.nlines + 2 ^ 16 - 1 + d.firstLine) % 2 ^ 16 < d.nlines := after.line
      omega
    next asserted =>
      exact .of_error (by omega)
  · simp only [if_neg beyond]
    split
    next asserted =>
      exact .of_ok (fun _ => by omega) fun _ => moved _ _ column asserted (by omega)
    next asserted =>
      exact .of_error (by omega)

theorem escCup_exact : Exact (escCup d >>= fun d => .ok (ended d)) (CupFine d) := by
  unfold escCup
  cases parsed : cupVals (params d) 0 (0, 0) with
  | error e =>
    refine .of_error fun fine => fine.1 ?_
    exact (cupVals_error _).mp ⟨e, parsed⟩
  | ok vals =>
    have noThird : ¬ ThirdArgument (params d) := by
      intro third
      obtain ⟨e, failed⟩ := (cupVals_error (0, 0)).mpr third
      cases parsed.symm.trans failed
    cases vals with
    | none =>
      refine .of_good ⟨ended d, rfl, ended_good sound range⟩ ⟨noThird, ?_⟩
      intro row col impossible
      cases parsed.symm.trans impossible
    | some pair =>
      obtain ⟨row, col⟩ := pair
      refine (setCursor_exact sound range).congr ⟨fun fine => ⟨noThird, ?_⟩, fun fine => fine.2 row col parsed⟩
      intro row' col' same
      cases parsed.symm.trans same
      exact fine

theorem fill_good {first last : Nat} {cell : Cell} (inside : last ≤ d.ncols * d.nlines) :
    Good (fill d first last cell >>= fun d => .ok (ended d)) := by
  unfold fill
  by_cases empty : last ≤ first
  · rw [if_pos empty]
    exact ⟨ended d, rfl, ended_good sound range⟩
  rw [if_neg empty, if_pos (by rw [sound.cells]; exact inside)]
  refine ⟨_, rfl, ended_good { sound with cells := ?_ } { range with }⟩
  have length := sound.cells
  simp only [List.length_append, List.length_take, List.length_replicate, List.length_drop]
  omega

theorem escEl_good : Good (escEl d >>= fun d => .ok (ended d)) := by
  have next : d.ncols * (d.curLine + 1) ≤ d.ncols * d.nlines := Nat.mul_le_mul_left _ range.line
  have cursor := cell_inside sound range.col range.line
  rw [sound.cells] at cursor
  have refreshed : Sound { d with needRefresh := true } ∧ InRange { d with needRefresh := true } :=
    ⟨{ sound with }, { range with }⟩
  simp only [escEl]
  split
  · exact fill_good refreshed.1 refreshed.2 next
  · exact fill_good refreshed.1 refreshed.2 cursor.le
  · exact fill_good refreshed.1 refreshed.2 next
  · exact ⟨_, rfl, ended_good refreshed.1 refreshed.2⟩

end

theorem setColor_eq (d : Data) (tenth unit : UInt8) :
    ∃ fg bg, setColor d tenth unit = { d with currentFgcolor := fg, currentBgcolor := bg } := by
  simp only [setColor]
  split_ifs <;> exact ⟨_, _, rfl⟩

theorem setColor_twice (d : Data) (tenth unit tenth' unit' : UInt8) :
    ∃ fg bg, setColor (setColor d tenth unit) tenth' unit' = { d with currentFgcolor := fg, currentBgcolor := bg } := by
  obtain ⟨fg, bg, once⟩ := setColor_eq d tenth unit
  obtain ⟨fg', bg', twice⟩ := setColor_eq (setColor d tenth unit) tenth' unit'
  exact ⟨fg', bg', by rw [twice, once]⟩

theorem escSgr_eq (d : Data) :
    ∃ fg bg, escSgr d = { d with currentFgcolor := fg, currentBgcolor := bg, seq := false, idx := 0 } := by
  have change (e : Data) (same : ∃ fg bg, e = { d with currentFgcolor := fg, currentBgcolor := bg }) :
      ∃ fg bg, { e with seq := false, idx := 0 } =
        { d with currentFgcolor := fg, currentBgcolor := bg, seq := false, idx := 0 } := by
    obtain ⟨fg, bg, rfl⟩ := same
    exact ⟨fg, bg, rfl⟩
  refine change _ ?_
  split_ifs
  · exact setColor_eq _ _ _
  · exact setColor_twice _ _ _ _ _
  · exact setColor_twice _ _ _ _ _
  · exact ⟨_, _, rfl⟩

section

variable (sound : Sound d) (range : InRange d)
include sound range

theorem escSgr_good : Good (.ok (ended (escSgr d))) := by
  obtain ⟨fg, bg, same⟩ := escSgr_eq d
  rw [same]
  exact ⟨_, rfl, { sound with }, { range with esc := Nat.succ_pos 9 }⟩

variable {n : UInt8}

theorem storeEsc_eq : storeEsc d n = .ok { d with escSeq := d.escSeq.set d.idx n, idx := d.idx + 1 } := by
  have inside := range.esc
  rw [storeEsc, if_pos (by rw [sound.sequence]; exact inside), Nat.mod_eq_of_lt]
  unfold escSize at inside
  omega

theorem stored_good {idx : Nat} {seq : Bool} (inside : idx < escSize) :
    Sound { d with escSeq := d.escSeq.set d.idx n, idx, seq } ∧ InRange { d with escSeq := d.escSeq.set d.idx n, idx, seq } :=
  ⟨{ sound with sequence := List.length_set.trans sound.sequence }, { range with esc := inside }⟩

theorem emplaceEscape_exact :
    Exact (emplaceEscape d c) ((isDigit c = true -> d.idx + 1 < escSize) ∧ (c = 72 -> CupFine d)) := by
  have inside := range.esc
  refine .ite (fun digit => ?_) fun digit => ?_
  · have other : c ≠ 72 := by
      rintro rfl
      cases digit
    rw [if_neg (by omega), storeEsc_eq sound range]
    refine .of_ok (fun after => ⟨fun _ => after.esc, fun same => absurd same other⟩) fun fine => ?_
    exact stored_good sound range (fine.1 digit)
  · refine .ite (fun semicolon => ?_) fun semicolon => ?_
    · have other : c ≠ 72 := by
        rintro rfl
        cases semicolon
      rw [storeEsc_eq sound range]
      refine .of_good ?_ ⟨fun isDigit => absurd isDigit digit, fun same => absurd same other⟩
      by_cases full : escSize ≤ d.idx + 1
      · refine ⟨_, if_pos full, ?_⟩
        exact stored_good sound range (Nat.succ_pos 9)
      · refine ⟨_, if_neg full, ?_⟩
        exact stored_good sound range (Nat.lt_of_not_le full)
    · by_cases graphics : c = 109
      · subst graphics
        exact .of_good (escSgr_good sound range) ⟨fun isDigit => absurd isDigit digit, fun same => by cases same⟩
      · simp only [if_neg graphics]
        split
        next position =>
          refine (escCup_exact sound range).congr ?_
          exact ⟨fun fine => ⟨fun isDigit => absurd isDigit digit, fun _ => fine⟩, fun fine => fine.2 position⟩
        next position =>
        refine .of_good ?_ ⟨fun isDigit => absurd isDigit digit, fun same => absurd same position⟩
        split
        · exact escEl_good sound range
        · exact ⟨_, rfl, ended_good sound range⟩

theorem backspace_exact : Exact (.ok (backspace d)) (BackFine d) := by
  have col := range.col
  have first := range.first
  have line := range.line
  have moved (k l : Nat) : Sound { d with curCol := k, curLine := l } := { sound with }
  unfold backspace BackFine
  split
  next inside =>
    refine .of_ok (fun _ => .inl (by omega)) fun _ => ⟨moved _ d.curLine, ⟨?_, first, line, range.page, range.esc⟩⟩
    show d.curCol - 1 < d.ncols
    omega
  next inside =>
  split
  next above =>
    refine .of_ok (fun after => ?_) fun fine => ⟨moved _ _, ⟨?_, ?_, ?_, range.page, range.esc⟩⟩
    · have first : d.firstLine ≤ d.curLine - 1 := after.first
      omega
    · show (d.ncols + 2 ^ 16 - 1) % 2 ^ 16 < d.ncols
      omega
    · show d.firstLine ≤ d.curLine - 1
      omega
    · show d.curLine - 1 < d.nlines
      omega
  next above =>
    exact .of_ok (fun _ => .inr (.inl (by omega))) fun _ => ⟨sound, range⟩

theorem terminalClear_good : Good (.ok (terminalClear d)) := by
  have page := range.page
  have line := range.line
  refine ⟨_, rfl, { sound with cells := ?_ }, ?_⟩
  · show (List.replicate (d.nlines * d.ncols) _).length = d.ncols * d.nlines
    rw [List.length_replicate, Nat.mul_comm]
  · refine ⟨Nat.zero_lt_of_lt range.col, Nat.le_refl 0, Nat.zero_lt_of_lt line, ?_, range.esc⟩
    show 0 + d.termNlines ≤ d.nlines
    omega

theorem emplacePlain_exact :
    Exact (emplacePlain d c)
      ((c = 10 -> Visible d ∧ LineFine d) ∧ (c = 9 -> TabFine d) ∧ (c = 8 -> BackFine d) ∧
        (isControl c = false -> CharFine d)) := by
  have col := range.col
  refine .ite (fun escape => ?_) fun escape => .ite (fun newline => ?_) fun newline => .ite (fun tab => ?_) fun tab =>
    .ite (fun carriage => ?_) fun carriage => .ite (fun back => ?_) fun back => .ite (fun clear => ?_) fun clear => ?_
  · subst escape
    exact .of_good ⟨_, rfl, { sound with }, { range with }⟩ ⟨nofun, nofun, nofun, nofun⟩
  · subst newline
    obtain ⟨n, rest⟩ : ∃ n, d.ncols - d.curCol = n + 1 := ⟨d.ncols - d.curCol - 1, by omega⟩
    rw [rest]
    have final (d : Data) (here : Sound d ∧ InRange d) (full : d.curCol + 1 = d.ncols) :
        Exact (emplaceNormalChar d 32) (Visible d ∧ LineFine d) := by
      refine (emplaceNormalChar_exact here.1 here.2).congr ?_
      exact ⟨fun fine => ⟨fine.1, fine.2 full⟩, fun fine => ⟨fine.1, fun _ => fine.2⟩⟩
    have spaces := exact_judges.writeSpaces ⟨sound, range⟩ (n := n) LineFine (fun _ => rfl) final (by omega)
    refine spaces.congr ⟨fun fine => ⟨fun _ => fine, nofun, nofun, nofun⟩, ?_⟩
    exact fun fine => fine.1 rfl
  · subst tab
    refine (exact_judges.emplaceTab ⟨sound, range⟩).congr ⟨fun fine => ⟨nofun, fun _ => fine, nofun, nofun⟩, ?_⟩
    exact fun fine => fine.2.1 rfl
  · subst carriage
    exact .of_good ⟨_, rfl, { sound with }, { range with col := Nat.zero_lt_of_lt col }⟩ ⟨nofun, nofun, nofun, nofun⟩
  · subst back
    refine (backspace_exact sound range).congr ⟨fun fine => ⟨nofun, nofun, fun _ => fine, nofun⟩, ?_⟩
    exact fun fine => fine.2.2.1 rfl
  · subst clear
    exact .of_good (terminalClear_good sound range) ⟨nofun, nofun, nofun, nofun⟩
  have normal : isControl c = false := by
    simp [isControl, escape, newline, tab, carriage, back, clear]
  refine (emplaceNormalChar_exact sound range).congr ⟨fun fine => ?_, fun fine => fine.2.2.2 normal⟩
  exact ⟨fun same => absurd same newline, fun same => absurd same tab, fun same => absurd same back, fun _ => fine⟩

theorem emplaceChar_exact : Exact (emplaceChar d c) (ByteFine d c) := by
  refine .ite (fun inside => ?_) fun inside => ?_
  · refine (emplaceEscape_exact sound range).congr ⟨fun fine => ?_, fun fine => ⟨fine.digit inside, fine.cup inside⟩⟩
    refine ⟨fun _ => fine.1, fun _ => fine.2, ?_, ?_, ?_, ?_⟩
    all_goals
      intro outside
      cases inside.symm.trans outside
  have outside : d.seq = false := by simpa using inside
  have never {q : Prop} (sequence : d.seq = true) : q := absurd sequence inside
  refine .ite (fun bracket => ?_) fun bracket => ?_
  · obtain ⟨escape, rfl⟩ := bracket
    exact .of_good ⟨_, rfl, { sound with }, { range with }⟩
      ⟨never, never, nofun, nofun, nofun, fun _ other _ => absurd ⟨escape, rfl⟩ other⟩
  · have down : Exact (emplacePlain { d with esc := false } c) _ := emplacePlain_exact { sound with } { range with }
    refine down.congr ⟨fun fine => ?_, fun fine => ?_⟩
    · exact ⟨never, never, fun _ => fine.1, fun _ => fine.2.1, fun _ => fine.2.2.1, fun _ _ => fine.2.2.2⟩
    · exact ⟨fine.newline outside, fine.tab outside, fine.back outside, fine.normal outside bracket⟩

end

theorem flushScreen_ok (sound : Sound d) (page : d.firstLine + d.termNlines ≤ d.nlines) : flushScreen d = .ok () := by
  refine if_pos (.inr ?_)
  rw [sound.cells, ← Nat.add_mul, Nat.mul_comm d.ncols]
  exact Nat.mul_le_mul_right _ page

theorem write_exact {out : Output} (sound : Sound d) (range : InRange d) : Exact (write d out) (Fine d out) := by
  cases out with
  | byte c =>
    refine .ite (fun shown => ?_) fun shown => ?_
    · exact (emplaceChar_exact sound range).congr ⟨fun fine _ => fine, fun fine => fine shown⟩
    · exact .of_good ⟨d, rfl, sound, range⟩ fun impossible => absurd impossible shown
  | flush =>
    have result : write d .flush = .ok { d with needRefresh := false } := by
      simp only [write, flushScreen_ok sound range.page]
      split <;> rfl
    rw [result]
    exact .of_good ⟨_, rfl, { sound with }, { range with }⟩ trivial

/-- The loop of a tab ends before the right margin, and a character that is drawn is on the page. -/
structure LoopsEnd (d : Data) (c : UInt8) : Prop where
  tab : d.seq = false -> c = 9 -> TabFine d
  drawn : d.seq = false -> c = 10 ∨ ¬ (d.esc = true ∧ c = 91) ∧ isControl c = false -> Visible d

theorem cupVals_ends (j : Nat) (vals : Nat × Nat) : (cupVals bytes j vals).Ensures (· ≠ .hangs) fun _ => True := by
  fun_induction cupVals bytes j vals with
  | case1 => trivial
  | case2 => trivial
  | case3 => assumption
  | case4 => assumption
  | case5 => assumption
  | case6 => exact Fault.noConfusion

section

variable (steady : Steady d)
include steady

theorem setCursor_steady (row col : Nat) : (setCursor d row col).Ensures (· ≠ .hangs) Steady := by
  have some := steady.col
  have narrow := steady.ncols
  refine .ite (fun _ => { steady with col := ?_ }) fun _ => .error (by decide)
  show (if d.ncols ≤ (col - 1) % 2 ^ 16 then _ else _) < d.ncols
  split <;> omega

theorem fill_steady {first last : Nat} {cell : Cell} : (fill d first last cell).Ensures (· ≠ .hangs) Steady := by
  exact .ite (fun _ => steady) fun _ => .ite (fun _ => { steady with }) fun _ => .error (by decide)

theorem storeEsc_steady {n : UInt8} : (storeEsc d n).Ensures (· ≠ .hangs) Steady := by
  exact .ite (fun _ => { steady with }) fun _ => .error (by decide)

theorem emplaceEscape_steady : (emplaceEscape d c).Ensures (· ≠ .hangs) Steady := by
  unfold emplaceEscape
  split
  · split
    · exact { steady with }
    · exact storeEsc_steady steady
  split
  · refine (storeEsc_steady steady).bind fun d' after => ?_
    split
    · exact { after with }
    · exact after
  have last (d' : Data) (after : Steady d') : Steady { d' with idx := 0, seq := false } := { after with }
  split
  · obtain ⟨fg, bg, same⟩ := escSgr_eq d
    rw [same]
    exact last _ { steady with }
  split
  · have moved : (escCup d).Ensures (· ≠ .hangs) Steady := by
      refine (cupVals_ends 0 (0, 0)).bind fun vals _ => ?_
      cases vals with
      | none => exact steady
      | some pair => exact setCursor_steady steady _ _
    exact moved.bind last
  split
  · have refreshed : Steady { d with needRefresh := true } := { steady with }
    have erased : (escEl d).Ensures (· ≠ .hangs) Steady := by
      simp only [escEl]
      split
      · exact fill_steady refreshed
      · exact fill_steady refreshed
      · exact fill_steady refreshed
      · exact refreshed
    exact erased.bind last
  · exact last d steady

theorem emplacePlain_ends :
    Ends (emplacePlain d c) ((c = 9 -> TabFine d) ∧ (c = 10 ∨ isControl c = false -> Visible d)) := by
  have ends {d : Data} {c : UInt8} (steady : Steady d) : Ends (emplaceNormalChar d c) (Visible d) :=
    (emplaceNormalChar_ends steady).mono (fun _ => id) fun _ after => ⟨after.1, after.2.2⟩
  have col := steady.col
  have narrow := steady.ncols
  refine .ite (fun escape => ?_) fun escape => .ite (fun newline => ?_) fun newline => .ite (fun tab => ?_) fun tab =>
    .ite (fun carriage => ?_) fun carriage => .ite (fun back => ?_) fun back => .ite (fun clear => ?_) fun clear => ?_
  · subst escape
    exact ⟨⟨nofun, nofun⟩, { steady with }⟩
  · subst newline
    obtain ⟨n, rest⟩ : ∃ n, d.ncols - d.curCol = n + 1 := ⟨d.ncols - d.curCol - 1, by omega⟩
    rw [rest]
    have spaces := ends_judges.writeSpaces steady (n := n) (fun _ => True) (fun _ => rfl)
      (fun _ here _ => (ends here).congr (and_iff_left trivial).symm) (by omega)
    exact spaces.congr ⟨fun visible => ⟨nofun, fun _ => visible.1⟩, fun both => ⟨both.2 (.inl rfl), trivial⟩⟩
  · subst tab
    exact (ends_judges.emplaceTab steady).congr ⟨fun fine => ⟨fun _ => fine, nofun⟩, fun both => both.1 rfl⟩
  · subst carriage
    exact ⟨⟨nofun, nofun⟩, { steady with col := Nat.zero_lt_of_lt col }⟩
  · subst back
    refine ⟨⟨nofun, nofun⟩, ?_⟩
    have moved (k l : Nat) (inside : k < d.ncols) : Steady { d with curCol := k, curLine := l } :=
      { steady with col := inside }
    unfold backspace
    split
    · exact moved _ d.curLine (by omega)
    split
    · exact moved _ _ (by omega)
    · exact steady
  · subst clear
    exact ⟨⟨nofun, nofun⟩, { steady with col := Nat.zero_lt_of_lt col }⟩
  have normal : isControl c = false := by
    simp [isControl, escape, newline, tab, carriage, back, clear]
  exact (ends steady).congr ⟨fun visible => ⟨fun same => absurd same tab, fun _ => visible⟩, fun both => both.2 (.inr normal)⟩

theorem emplaceChar_ends : Ends (emplaceChar d c) (LoopsEnd d c) := by
  refine .ite (fun inside => ?_) fun inside => ?_
  · have never {q : Prop} (outside : d.seq = false) : q := by
      cases inside.symm.trans outside
    exact Ends.of_ensures (emplaceEscape_steady steady) ⟨never, never⟩
  have outside : d.seq = false := by simpa using inside
  refine .ite (fun bracket => ?_) fun bracket => ?_
  · obtain ⟨escape, rfl⟩ := bracket
    exact ⟨⟨nofun, fun _ drawn => absurd ⟨escape, rfl⟩ (drawn.resolve_left (by decide)).1⟩, { steady with }⟩
  · refine Ends.congr (emplacePlain_ends { steady with }) ⟨fun ends => ?_, fun ends => ?_⟩
    · exact ⟨fun _ => ends.1, fun _ drawn => ends.2 (drawn.imp_right And.right)⟩
    · exact ⟨ends.tab outside, fun drawn => ends.drawn outside (drawn.imp_right fun other => ⟨bracket, other⟩)⟩

theorem write_ends (o : Output) : Ends (write d o) (∀ c, o = .byte c -> printable c = true -> LoopsEnd d c) := by
  cases o with
  | byte c =>
    refine .ite (fun shown => ?_) fun shown => ?_
    · refine (emplaceChar_ends steady).congr ⟨?_, fun ends => ends c rfl shown⟩
      rintro ends _ ⟨⟩ _
      exact ends
    · refine ⟨?_, steady⟩
      rintro _ ⟨⟩ impossible
      exact absurd impossible shown
  | flush =>
    refine .of_ensures ?_ nofun
    simp only [write, flushScreen]
    split
    · split
      · exact { steady with }
      · exact .error (by decide)
    · exact { steady with }

end

def ScreenFits (width height : Nat) : Prop :=
  let ncols := width / fontWidth % 2 ^ 16
  let termNlines := height / lineHeight % 2 ^ 16
  0 < ncols ∧ 0 < termNlines ∧ termNlines < 2 ^ 15 ∧ ncols * (nPages * termNlines) < 2 ^ 31

section outputs

variable (width height : Nat) (bgcolor : BitVec 32) (escSeq : Vector UInt8 escSize)

theorem install_exact :
    Exact ((terminalInstall width height bgcolor escSeq).map fun d =>
      { d with needRefresh := false }) (ScreenFits width height) := by
  have wide : width / fontWidth % 2 ^ 16 * fontWidth ≤ width :=
    (Nat.mul_le_mul_right _ (Nat.mod_le _ _)).trans (Nat.div_mul_le_self width fontWidth)
  have high : height / lineHeight % 2 ^ 16 * lineHeight ≤ height :=
    (Nat.mul_le_mul_right _ (Nat.mod_le _ _)).trans (Nat.div_mul_le_self height lineHeight)
  have columns : width / fontWidth % 2 ^ 16 < 2 ^ 16 := Nat.mod_lt _ (by decide)
  have lines : height / lineHeight % 2 ^ 16 < 2 ^ 16 := Nat.mod_lt _ (by decide)
  simp only [terminalInstall, ScreenFits]
  generalize width / fontWidth % 2 ^ 16 = ncols at wide columns
  generalize height / lineHeight % 2 ^ 16 = termNlines at high lines
  split
  next big =>
    refine .of_error fun fits => ?_
    rw [Nat.mod_eq_of_lt (by unfold nPages; omega)] at big
    omega
  next big =>
  simp only [flushScreen, terminalClear, List.length_replicate, Nat.zero_mul, Nat.zero_add]
  split
  next shown =>
    refine .of_ok (fun range => ?_) fun fits => ⟨⟨⟨columns, ?_, ?_⟩, Nat.mod_lt _ (by decide), Nat.mod_le _ _, ?_, ?_⟩, ?_⟩
    · have some : 0 < ncols := range.col
      have line : 0 < nPages * termNlines % 2 ^ 16 := range.line
      have page : 0 + termNlines ≤ nPages * termNlines % 2 ^ 16 := range.page
      have half : termNlines < 2 ^ 15 := by
        unfold nPages at line page
        omega
      rw [Nat.mod_eq_of_lt (by unfold nPages; omega)] at big line
      unfold nPages at line
      exact ⟨some, by omega, half, by omega⟩
    · have same : fontHeight = lineHeight := rfl
      simp only [same]
      omega
    · simp only
      omega
    · simp only [List.length_replicate, Nat.mul_comm]
    · exact Vector.length_toList
    · have twice : nPages * termNlines % 2 ^ 16 = 2 * termNlines := Nat.mod_eq_of_lt (by unfold nPages; omega)
      refine ⟨fits.1, Nat.le_refl 0, ?_, ?_, Nat.succ_pos 9⟩ <;> simp only [twice] <;> omega
  next shown =>
    refine .of_error fun fits => shown (.inr (Nat.mul_le_mul_right _ ?_))
    rw [Nat.mod_eq_of_lt (by unfold nPages; omega)]
    unfold nPages
    omega

/-- Installing draws the screen itself; the first `write_string` clears `need_refresh` before its first byte. -/
def run (out : List Output) : Except Fault Data :=
  after (fun state o => state >>= fun d => write d o)
    ((terminalInstall width height bgcolor escSeq).map fun d => { d with needRefresh := false }) out

def FineAt (state : Except Fault Data) (o : Output) : Prop := ∀ d, state = .ok d -> Fine d o

/--
The terminal stays in range through all of an output just when the screen fits and each byte meets its condition in the
state before it.
-/
theorem terminal_in_range_iff (out : List Output) :
    (∀ front, front <+: out -> Ranges (run width height bgcolor escSeq front)) ↔
      ScreenFits width height ∧ ∀ front o, front ++ [o] <+: out -> FineAt (run width height bgcolor escSeq front) o := by
  have install := install_exact width height bgcolor escSeq
  by_cases fits : ScreenFits width height
  · rw [and_iff_right fits]
    refine always_iff (install.2 fits) (fun _ => Good.ranges) (show ∀ s o, _ -> _ -> FineAt s o from ?_) ?_
    · rintro _ o ⟨d, rfl, sound, range⟩ after _ ⟨⟩
      exact (write_exact sound range).1 after
    · rintro _ o ⟨d, rfl, sound, range⟩ fine
      exact (write_exact sound range).2 (fine d rfl)
  · refine iff_of_false (fun ranges => fits (install.1 (ranges [] List.nil_prefix))) fun both => fits both.1

-- No array is left and no assertion fails.
def Stays (d : Data) (o : Output) : Prop := ∀ e, write d o = .error e -> e = .hangs

def EndsAt (state : Except Fault Data) (o : Output) : Prop :=
  ∀ d, state = .ok d -> (∀ c, o = .byte c -> printable c = true -> LoopsEnd d c) ∧ Stays d o

def SteadyAt (state : Except Fault Data) : Prop := ∃ d, state = .ok d ∧ Steady d

end outputs

-- Ten digits, and lines down to where the window leaves the buffer and comes back.
def scrolled : List Output :=
  (27 :: 91 :: List.replicate 10 48 ++ 109 :: List.replicate 12 10 ++ [97, 13, 98] : List UInt8).map .byte

def elevenDigits : List Output := (27 :: 91 :: List.replicate 11 48).map .byte

theorem eleven_digits_outside :
    run 24 64 0 (Vector.replicate escSize 0) elevenDigits = .error .outside ∧
      ¬ Ranges (run 24 64 0 (Vector.replicate escSize 0) elevenDigits) := by
  have result : run 24 64 0 (Vector.replicate escSize 0) elevenDigits = .error .outside := rfl
  refine ⟨result, ?_⟩
  rw [result]
  rintro ⟨_, ⟨⟩, _⟩

-- A third argument of a cursor position is stored behind the two values.
example : run 24 64 0 (Vector.replicate escSize 0) ([27, 91, 49, 59, 49, 59, 49, 72].map .byte) = .error .outside := rfl

-- Four lines down the window has moved, and a position behind the end of the buffer is not clipped to it.
example :
    (run 24 64 0 (Vector.replicate escSize 0) ([10, 10, 10, 10, 27, 91, 57, 57, 72].map .byte)).map
      (fun d => (d.curLine, d.nlines)) =
      .ok (11, 8) := rfl

end Bincows.Terminal
