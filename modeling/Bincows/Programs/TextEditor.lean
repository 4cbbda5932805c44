import Mathlib.Data.List.TakeWhile
import Bincows.Shared.Histories

set_option autoImplicit false

/-! `newlines` has the beginning of each line, which is the newline in front of it or the place
where the line above reaches the width of the screen, and behind them the size of the text. Texts
are shorter than `2 ^ 31`. -/

namespace Bincows.TextEditor

open Histories List

abbrev Text := List UInt8

def newline : UInt8 := 10

def leftPadding : Nat := 6

inductive Fault where
  | assertion
  | outside

structure Editor where
  buffer : Text
  newlines : List Nat
  fileOffset : Nat
  row : Nat
  col : Nat
deriving DecidableEq

/-- The counter `row` of `file_analyze_lines` where it is compared with the width. -/
def columnAt (row : Nat) (c : UInt8) : Nat :=
  if c = newline then leftPadding else if c = 9 then row + (8 - row % 8) else row

def analyzeFrom (width : Nat) : Nat -> Nat -> Text -> List Nat
  | _, _, [] => []
  | row, i, c :: rest =>
    let column := columnAt row c
    (if c = newline then [i] else []) ++
      if column = width then i :: analyzeFrom width (leftPadding + 1) (i + 1) rest
      else analyzeFrom width (column + 1) (i + 1) rest

section functions

variable (width : Nat) (s : Editor)

def Editor.newlinesCount : Nat := s.newlines.length - 1

def fileAnalyzeLines : Editor :=
  { s with newlines := 0 :: analyzeFrom width 0 0 s.buffer ++ [s.buffer.length] }

def lineLen (row : Nat) : Except Fault (Nat × Nat) :=
  match s.newlines[row]?, s.newlines[row + 1]? with
  | some first, some next =>
    if first < next ∧ s.buffer[first]? = some newline then .ok (first + 1, next - first - 1)
    else .ok (first, next - first)
  | _, _ => .error .outside

-- only called with `off` above 0
def offsetToLine (off : Nat) : Except Fault Nat :=
  let l := s.newlines.findIdx (off ≤ ·)
  if l ≤ s.newlinesCount then .ok (l - 1) else .error .assertion

def updateCursorFileOffset : Except Fault Editor := do
  if s.newlinesCount ≤ s.row then .error .assertion
  let (lineFileOffset, _) ← lineLen s s.row
  .ok { s with fileOffset := lineFileOffset + s.col }

def limitCol : Except Fault Editor := do
  let (_, len) ← lineLen s s.row
  updateCursorFileOffset { s with col := min s.col len }

def cursorUp : Except Fault Editor :=
  if s.fileOffset = 0 then .ok s
  else if 0 < s.row then limitCol { s with row := s.row - 1 }
  else if 0 < s.col then limitCol { s with col := 0 }
  else .error .assertion

def cursorDown : Except Fault Editor :=
  if s.newlinesCount - 1 ≤ s.row then .ok s else limitCol { s with row := s.row + 1 }

def cursorRight : Except Fault Editor :=
  if s.fileOffset < s.buffer.length then do
    let nline ← offsetToLine s (s.fileOffset + 1)
    let s := { s with fileOffset := s.fileOffset + 1 }
    .ok (if nline = s.row then { s with col := s.col + 1 } else { s with col := 0, row := nline })
  else .ok s

def cursorLeft : Except Fault Editor :=
  if s.fileOffset = 0 then .ok s
  else if 0 < s.col then .ok { s with fileOffset := s.fileOffset - 1, col := s.col - 1 }
  else if 0 < s.row then do
    let (_, len) ← lineLen s (s.row - 1)
    .ok { s with fileOffset := s.fileOffset - 1, row := s.row - 1, col := len }
  else .error .assertion

def deletes (ch : UInt8) : Prop := ch = 8 ∨ ch = 127

instance (ch : UInt8) : Decidable (deletes ch) := inferInstanceAs (Decidable (_ ∨ _))

def emplaceChar (ch : UInt8) : Except Fault Editor :=
  if deletes ch then
    if s.col = 0 ∧ s.row = 0 then .ok s
    else if s.fileOffset = 0 then .error .outside
    else do
      let t ← cursorLeft s
      .ok (fileAnalyzeLines width { t with buffer := s.buffer.take (s.fileOffset - 1) ++ s.buffer.drop s.fileOffset })
  else
    cursorRight (fileAnalyzeLines width { s with buffer := s.buffer.take s.fileOffset ++ ch :: s.buffer.drop s.fileOffset })

inductive Key where
  | up
  | down
  | right
  | left
  | char (ch : UInt8)

def readInput : Key -> Except Fault Editor
  | .up => cursorUp s
  | .down => cursorDown s
  | .right => cursorRight s
  | .left => cursorLeft s
  | .char ch => emplaceChar width s ch

def loadFile (text : Text) : Editor := fileAnalyzeLines width ⟨text, [], 0, 0, 0⟩

end functions

structure Reference where
  before : Text
  behind : Text

def inLine (text : Text) : Text := text.takeWhile (· ≠ newline)

def fromEnd (text : Text) : Text := text.dropWhile (· ≠ newline)

namespace Reference

variable (r : Reference)

def text : Text := r.before.reverse ++ r.behind

def row : Nat := r.before.count newline

def col : Nat := (inLine r.before).length

def lineStart : Reference := ⟨fromEnd r.before, (inLine r.before).reverse ++ r.behind⟩

-- at the start of a line
def toColumn (column : Nat) : Reference :=
  let n := min column (inLine r.behind).length
  ⟨(r.behind.take n).reverse ++ r.before, r.behind.drop n⟩

def up : Reference :=
  match fromEnd r.before with
  | [] => r.lineStart
  | c :: above => (lineStart ⟨above, c :: r.lineStart.behind⟩).toColumn r.col

def down : Reference :=
  match fromEnd r.behind with
  | [] => r
  | c :: below => toColumn ⟨c :: (inLine r.behind).reverse ++ r.before, below⟩ r.col

def goRight : Reference :=
  match r.behind with
  | [] => r
  | c :: behind => ⟨c :: r.before, behind⟩

def goLeft : Reference :=
  match r.before with
  | [] => r
  | c :: before => ⟨before, c :: r.behind⟩

def press : Key -> Reference
  | .up => r.up
  | .down => r.down
  | .right => r.goRight
  | .left => r.goLeft
  | .char ch => if deletes ch then { r with before := r.before.tail } else { r with before := ch :: r.before }

end Reference

def Fits (width : Nat) : Nat -> Text -> Prop
  | _, [] => True
  | row, c :: rest => columnAt row c ≠ width ∧ Fits width (columnAt row c + 1) rest

instance Fits.decide (width : Nat) : ∀ row text, Decidable (Fits width row text)
  | _, [] => .isTrue trivial
  | row, c :: rest =>
    have := Fits.decide width (columnAt row c + 1) rest
    inferInstanceAs (Decidable (columnAt row c ≠ width ∧ Fits width (columnAt row c + 1) rest))

def FitsRun (width : Nat) : Reference -> List Key -> Prop
  | r, [] => Fits width 0 r.text
  | r, key :: rest => Fits width 0 r.text ∧ FitsRun width (r.press key) rest

variable {width : Nat} {keys : List Key}

theorem FitsRun.first {r : Reference} (fits : FitsRun width r keys) : Fits width 0 r.text := by
  cases keys with
  | nil => exact fits
  | cons key rest => exact fits.1

theorem inLine_cons (c : UInt8) (text : Text) : inLine (c :: text) = if c = newline then [] else c :: inLine text := by
  by_cases same : c = newline <;> simp [inLine, same]

theorem inLine_append (text : Text) : inLine text ++ fromEnd text = text :=
  takeWhile_append_dropWhile

theorem clean_inLine (text : Text) : newline ∉ inLine text := by
  intro member
  simpa using mem_takeWhile_imp member

theorem clean_take {text : Text} {n : Nat} (inside : n ≤ (inLine text).length) : newline ∉ text.take n := by
  rw [← inLine_append text, take_append_of_le_length inside]
  exact fun member => clean_inLine text (mem_of_mem_take member)

theorem count_inLine (text : Text) : (inLine text).count newline = 0 :=
  count_eq_zero.mpr (clean_inLine text)

theorem count_fromEnd (text : Text) : (fromEnd text).count newline = text.count newline := by
  have count := congrArg (count newline) (inLine_append text)
  rwa [count_append, count_inLine, Nat.zero_add] at count

theorem fromEnd_cases (text : Text) : fromEnd text = [] ∨ ∃ rest, fromEnd text = newline :: rest := by
  induction text with
  | nil => exact .inl rfl
  | cons c text ih =>
    rcases eq_or_ne c newline with rfl | other
    · exact .inr ⟨text, rfl⟩
    · simpa [fromEnd, other] using ih

def breaks : Nat -> Text -> List Nat
  | _, [] => []
  | i, c :: rest => if c = newline then i :: breaks (i + 1) rest else breaks (i + 1) rest

def linesOf (text : Text) : List Nat := 0 :: breaks 0 text ++ [text.length]

variable {s : Editor}

theorem fileAnalyzeLines_fits (fits : Fits width 0 s.buffer) :
    fileAnalyzeLines width s = { s with newlines := linesOf s.buffer } := by
  have same (row i : Nat) (text : Text) (fits : Fits width row text) : analyzeFrom width row i text = breaks i text := by
    induction text generalizing row i with
    | nil => rfl
    | cons c rest ih =>
      obtain ⟨here, later⟩ := fits
      simp only [analyzeFrom, breaks, if_neg here, ih _ (i + 1) later]
      split <;> rfl
  rw [fileAnalyzeLines, same 0 0 _ fits, linesOf]

theorem breaks_append (i : Nat) (s t : Text) : breaks i (s ++ t) = breaks i s ++ breaks (i + s.length) t := by
  induction s generalizing i with
  | nil => rfl
  | cons c s ih =>
    have next : i + 1 + s.length = i + (c :: s).length := by
      rw [length_cons]
      omega
    rw [cons_append, breaks, breaks, ih, next]
    split <;> rfl

theorem breaks_before (before : Text) :
    (breaks 0 before.reverse).length = before.count newline ∧
      (0 :: breaks 0 before.reverse)[before.count newline]? = some (before.length - (inLine before).length - 1) ∧
      ∀ p ∈ breaks 0 before.reverse, p < before.length := by
  induction before with
  | nil => exact ⟨rfl, rfl, nofun⟩
  | cons c before ih =>
    obtain ⟨count, last, bounds⟩ := ih
    rw [reverse_cons, breaks_append, inLine_cons]
    by_cases same : c = newline
    · subst same
      refine ⟨by simp [breaks, count], by simp [breaks, ← count], ?_⟩
      simp only [breaks, mem_append]
      rintro p (member | member)
      · exact Nat.lt_succ_of_lt (bounds p member)
      · simp_all
    · rw [count_cons_of_ne same]
      simp only [breaks, if_neg same, append_nil, length_cons]
      refine ⟨count, ?_, fun p member => Nat.lt_succ_of_lt (bounds p member)⟩
      rw [last]
      congr 2
      omega

theorem breaks_behind (i : Nat) (behind : Text) :
    ∃ rest, breaks i behind ++ [i + behind.length] = (i + (inLine behind).length) :: rest ∧
      rest.length = behind.count newline := by
  induction behind generalizing i with
  | nil => exact ⟨[], rfl, rfl⟩
  | cons c behind ih =>
    obtain ⟨rest, eq, count⟩ := ih (i + 1)
    have shift : i + (c :: behind).length = i + 1 + behind.length := by
      rw [length_cons]
      omega
    rw [inLine_cons, breaks, shift]
    by_cases same : c = newline
    · subst same
      exact ⟨_, by rw [if_pos rfl, if_pos rfl, cons_append, eq]; rfl, by simp [count]⟩
    · rw [if_neg same, if_neg same, eq]
      exact ⟨rest, by rw [length_cons, Nat.add_assoc, Nat.add_comm 1], by rw [count_cons_of_ne same, count]⟩

namespace Reference

variable {r : Reference}

theorem linesOf_text :
    ∃ rest, linesOf r.text = (0 :: breaks 0 r.before.reverse) ++ (r.before.length + (inLine r.behind).length) :: rest ∧
      rest.length = r.behind.count newline := by
  obtain ⟨rest, eq, count⟩ := breaks_behind r.before.length r.behind
  refine ⟨rest, ?_, count⟩
  rw [← eq, linesOf, text, breaks_append, length_append, length_reverse, Nat.zero_add, cons_append, cons_append, append_assoc]

theorem linesOf_length : (linesOf r.text).length = r.row + r.behind.count newline + 2 := by
  obtain ⟨rest, eq, count⟩ := r.linesOf_text
  rw [eq, length_append, length_cons, length_cons, (breaks_before r.before).1, count, row]
  omega

theorem lineLen_at (same : s.buffer = r.text) (lines : s.newlines = linesOf r.text) :
    lineLen s r.row = .ok (r.before.length - r.col, r.col + (inLine r.behind).length) := by
  obtain ⟨rest, eq, -⟩ := r.linesOf_text
  obtain ⟨count, last, -⟩ := breaks_before r.before
  have first : s.newlines[r.row]? = some (r.before.length - r.col - 1) := by
    rw [lines, eq, getElem?_append_left (by simp [count, row]), row, last, col]
  have next : s.newlines[r.row + 1]? = some (r.before.length + (inLine r.behind).length) := by
    rw [lines, eq, getElem?_append_right (by simp [count, row])]
    simp [count, row]
  simp only [lineLen, first, next]
  have part := inLine_append r.before
  have length := congrArg length part
  rw [length_append, ← col] at length
  rcases fromEnd_cases r.before with whole | ⟨above, line⟩
  · -- no newline stands in front of the first line
    have clean : newline ∉ r.text.take (r.before.length + (inLine r.behind).length) := by
      have beforeClean := clean_inLine r.before
      rw [← append_nil (inLine _), ← whole, part] at beforeClean
      rw [text, ← length_reverse, take_length_add_append]
      simp [beforeClean, clean_take]
    rw [whole, length_nil] at length
    rw [if_neg]
    · congr 2 <;> omega
    rintro ⟨inside, found⟩
    rw [same, ← getElem?_take_of_lt inside] at found
    exact clean (mem_of_getElem? found)
  · rw [line] at part length
    have found : s.buffer[above.length]? = some newline := by
      rw [same, text, ← part]
      simp
    rw [length_cons] at length
    have place : r.before.length - r.col - 1 = above.length := by omega
    rw [place, if_pos ⟨by omega, found⟩]
    congr 2 <;> omega

theorem offsetToLine_at (lines : s.newlines = linesOf r.text) (positive : 0 < r.before.length) :
    offsetToLine s r.before.length = .ok r.row := by
  obtain ⟨rest, eq, -⟩ := r.linesOf_text
  obtain ⟨count, -, bounds⟩ := breaks_before r.before
  have index : s.newlines.findIdx (r.before.length ≤ ·) = r.row + 1 := by
    have first : ∀ p ∈ 0 :: breaks 0 r.before.reverse, decide (r.before.length ≤ p) = false := by
      simp only [decide_eq_false_iff_not, Nat.not_le]
      exact forall_mem_cons.mpr ⟨positive, bounds⟩
    rw [lines, eq, findIdx_append, findIdx_eq_length.mpr first]
    simp [count, findIdx_cons, row]
  rw [offsetToLine, index, if_pos, Nat.add_sub_cancel]
  rw [Editor.newlinesCount, lines, linesOf_length]
  omega

@[simps]
def shown (r : Reference) : Editor where
  buffer := r.text
  newlines := linesOf r.text
  fileOffset := r.before.length
  row := r.row
  col := r.col

theorem shown_toColumn (start : r.col = 0) (column : Nat) :
    shown (r.toColumn column) =
      { shown r with
        fileOffset := r.before.length + min column (inLine r.behind).length
        col := min column (inLine r.behind).length } := by
  have clean : newline ∉ (r.behind.take (min column (inLine r.behind).length)).reverse := by
    rw [mem_reverse]
    exact clean_take (Nat.min_le_right _ _)
  have length : (r.behind.take (min column (inLine r.behind).length)).length = min column (inLine r.behind).length :=
    length_take_of_le (Nat.le_trans (Nat.min_le_right _ _) ( takeWhile_prefix _).length_le)
  have same : (r.toColumn column).text = r.text := by simp [toColumn, text]
  have sameRow : (r.toColumn column).row = r.row := by simp [toColumn, row, count_eq_zero.mpr clean]
  have sameCol : (r.toColumn column).col = min column (inLine r.behind).length + r.col := by
    have all : ∀ c ∈ _, decide (c ≠ newline) = true := fun c member => decide_eq_true fun same => clean (same ▸ member)
    rw [col, toColumn, inLine, takeWhile_append_of_pos all, length_append, length_reverse, length]
    rfl
  rw [shown, same, sameRow, sameCol, start]
  simp [toColumn, length, Nat.add_comm]

theorem toColumn_zero : r.toColumn 0 = r := by simp [toColumn]

theorem limitCol_at (start : r.col = 0) (same : s.buffer = r.text) (lines : s.newlines = linesOf r.text)
    (row : s.row = r.row) : limitCol s = .ok (shown (r.toColumn s.col)) := by
  obtain ⟨_, _, fileOffset, _, col⟩ := s
  subst same lines row
  have here (x c : Nat) : lineLen ⟨r.text, linesOf r.text, x, r.row, c⟩ r.row = _ := lineLen_at rfl rfl
  rw [start, Nat.sub_zero, Nat.zero_add] at here
  have room : ¬ r.row + r.behind.count newline + 2 - 1 ≤ r.row := by omega
  simp only [limitCol, updateCursorFileOffset, Editor.newlinesCount, here, linesOf_length, if_neg room, bind, Except.bind,
    shown_toColumn start]
  rfl

theorem lineStart_spec : r.lineStart.text = r.text ∧ r.lineStart.row = r.row ∧ r.lineStart.col = 0 := by
  have part := inLine_append r.before
  refine ⟨?_, ?_, ?_⟩
  · rw [text, lineStart, ← append_assoc, ← reverse_append, part, text]
  · exact count_fromEnd r.before
  · rcases fromEnd_cases r.before with whole | ⟨above, line⟩
    · rw [col, lineStart, whole]
      rfl
    · rw [col, lineStart, line]
      rfl

theorem cursorUp_shown : cursorUp (shown r) = .ok (shown r.up) := by
  rcases eq_or_ne r.before [] with origin | away
  · obtain ⟨before, behind⟩ := r
    cases origin
    rfl
  have length := congrArg length (inLine_append r.before)
  have count : _ = r.row := count_fromEnd r.before
  rw [length_append, ← col] at length
  have positive := length_pos_iff.mpr away
  simp only [cursorUp, up, shown_fileOffset, shown_row, shown_col]
  rw [if_neg (Nat.ne_of_gt positive)]
  rcases fromEnd_cases r.before with whole | ⟨above, line⟩
  · obtain ⟨same, sameRow, start⟩ := r.lineStart_spec
    have moved := limitCol_at start (s := { shown r with col := 0 }) same.symm (congrArg linesOf same.symm) sameRow.symm
    rw [toColumn_zero] at moved
    rw [whole, length_nil] at length
    rw [whole, count_nil] at count
    rw [whole, if_neg (by omega), if_pos (by omega)]
    exact moved
  · obtain ⟨same, sameRow, start⟩ := lineStart_spec (r := ⟨above, newline :: r.lineStart.behind⟩)
    have whole : r.text = text ⟨above, newline :: r.lineStart.behind⟩ := by
      rw [← r.lineStart_spec.1, text, lineStart, line, text]
      simp
    rw [← same] at whole
    rw [line, count_cons_self] at count
    rw [line, if_pos (by omega)]
    refine limitCol_at start (s := { shown r with row := r.row - 1 }) whole (congrArg linesOf whole) ?_
    rw [sameRow, ← count]
    rfl

theorem cursorDown_shown : cursorDown (shown r) = .ok (shown r.down) := by
  have part := inLine_append r.behind
  rw [cursorDown, down, Editor.newlinesCount, shown_newlines, linesOf_length, ← count_fromEnd]
  rcases fromEnd_cases r.behind with whole | ⟨below, line⟩
  · rw [whole, if_pos (by simp)]
  have same : r.text = text ⟨newline :: (inLine r.behind).reverse ++ r.before, below⟩ := by
    rw [line] at part
    rw [text, ← part]
    simp [text, part]
  rw [line, if_neg (by simp)]
  refine limitCol_at (s := { shown r with row := r.row + 1 }) ?_ same (congrArg linesOf same) ?_
  · simp [col, inLine_cons]
  · simp [row, count_inLine]

theorem cursorRight_shown : cursorRight (shown r) = .ok (shown r.goRight) := by
  obtain ⟨before, _ | ⟨c, behind⟩⟩ := r
  · rw [cursorRight, if_neg (by simp [text]), goRight]
  have same : text ⟨before, c :: behind⟩ = text ⟨c :: before, behind⟩ := by simp [text]
  have found : offsetToLine (shown ⟨before, c :: behind⟩) (before.length + 1) = .ok (row ⟨c :: before, behind⟩) :=
    offsetToLine_at (r := ⟨c :: before, behind⟩) (congrArg linesOf same) (Nat.succ_pos _)
  rw [cursorRight, if_pos (by simp [text])]
  simp only [shown_fileOffset, found, bind, Except.bind]
  rcases eq_or_ne c newline with rfl | other
  · simp [shown, goRight, same, row, col, inLine_cons]
  · simp [shown, goRight, same, row, col, inLine_cons, other]

theorem cursorLeft_shown : cursorLeft (shown r) = .ok (shown r.goLeft) := by
  obtain ⟨_ | ⟨c, before⟩, behind⟩ := r
  · rfl
  have same : text ⟨c :: before, behind⟩ = text ⟨before, c :: behind⟩ := by simp [text]
  rw [cursorLeft, if_neg (by simp)]
  rcases eq_or_ne c newline with rfl | other
  · have found : lineLen (shown ⟨newline :: before, behind⟩) (before.count newline) = _ :=
      lineLen_at (r := ⟨before, newline :: behind⟩) same (congrArg linesOf same)
    rw [if_neg (by simp [col, inLine_cons]), if_pos (by simp [row])]
    simp only [shown_row, row, count_cons_self, Nat.add_sub_cancel, found, bind, Except.bind]
    simp [shown, goLeft, same, row, col, inLine_cons]
  · simp [shown, goLeft, same, row, col, inLine_cons, other]

theorem emplaceChar_shown {ch : UInt8} (fits : Fits width 0 (r.press (.char ch)).text) :
    emplaceChar width (shown r) ch = .ok (shown (r.press (.char ch))) := by
  rw [press] at fits ⊢
  rw [emplaceChar]
  by_cases delete : deletes ch
  · rw [if_pos delete] at fits ⊢
    rw [if_pos delete]
    have moved := r.cursorLeft_shown
    obtain ⟨_ | ⟨c, before⟩, behind⟩ := r
    · rfl
    have away : ¬ (col ⟨c :: before, behind⟩ = 0 ∧ row ⟨c :: before, behind⟩ = 0) := by
      rcases eq_or_ne c newline with rfl | other
      · simp [row]
      · simp [col, inLine_cons, other]
    have erased : (text ⟨c :: before, behind⟩).take before.length ++ (text ⟨c :: before, behind⟩).drop (before.length + 1) =
        text ⟨before, behind⟩ := by
      simp [text, drop_append]
    simp only [shown_col, shown_row, shown_buffer, shown_fileOffset, if_neg away, length_cons, Nat.succ_ne_zero, if_false,
      Nat.add_sub_cancel, moved, erased]
    exact congrArg Except.ok (fileAnalyzeLines_fits fits)
  · rw [if_neg delete] at fits ⊢
    rw [if_neg delete]
    have same : text ⟨r.before, ch :: r.behind⟩ = text ⟨ch :: r.before, r.behind⟩ := by simp [text]
    have put : r.text.take r.before.length ++ ch :: r.text.drop r.before.length = text ⟨r.before, ch :: r.behind⟩ := by
      rw [text, ← length_reverse, take_left, drop_left]
      rfl
    rw [← same] at fits
    have analyzed : fileAnalyzeLines width { shown r with buffer := text ⟨r.before, ch :: r.behind⟩ } =
        shown ⟨r.before, ch :: r.behind⟩ := fileAnalyzeLines_fits fits
    rw [shown_buffer, shown_fileOffset, put]
    exact analyzed ▸ cursorRight_shown

theorem readInput_shown {key : Key} (fits : Fits width 0 (r.press key).text) :
    readInput width (shown r) key = .ok (shown (r.press key)) := by
  cases key with
  | up => exact cursorUp_shown
  | down => exact cursorDown_shown
  | right => exact cursorRight_shown
  | left => exact cursorLeft_shown
  | char ch => exact emplaceChar_shown fits

theorem run_shown (fits : FitsRun width r keys) :
    keys.foldlM (readInput width) (shown r) = .ok (shown (after press r keys)) := by
  induction keys generalizing r with
  | nil => rfl
  | cons key rest ih =>
    rw [foldlM_cons, readInput_shown fits.2.first]
    exact ih fits.2

end Reference

open Reference in
/-- As long as no line reaches the width of the screen, the editor has the text and the cursor of the reference editor. -/
theorem keys_match_reference (width : Nat) (text : Text) (keys : List Key) (fits : FitsRun width ⟨[], text⟩ keys) :
    ∃ s lineBegin len, keys.foldlM (readInput width) (loadFile width text) = .ok s ∧
      s.buffer = (after press ⟨[], text⟩ keys).text ∧ s.fileOffset = (after press ⟨[], text⟩ keys).before.length ∧
      lineLen s s.row = .ok (lineBegin, len) ∧ s.fileOffset = lineBegin + s.col ∧ s.fileOffset ≤ s.buffer.length := by
  have loaded : loadFile width text = shown ⟨[], text⟩ := fileAnalyzeLines_fits (s := ⟨text, [], 0, 0, 0⟩) fits.first
  refine ⟨_, _, _, loaded ▸ run_shown fits, rfl, rfl, lineLen_at rfl rfl, ?_, ?_⟩
  · exact (Nat.sub_add_cancel ( takeWhile_prefix _).length_le).symm
  · simp [Reference.text]

-- Down to the second line, a character at its end, up again, and the one in front of the cursor deleted.
theorem keys_match_reference_typed :
    FitsRun 80 ⟨[], [97, 98, 10, 99]⟩ [.right, .down, .char 100, .up, .char 8] ∧
      ∃ s, [Key.right, .down, .char 100, .up, .char 8].foldlM (readInput 80) (loadFile 80 [97, 98, 10, 99]) = .ok s ∧
        s.buffer = [97, 10, 99, 100] ∧ s.fileOffset = 1 := by
  have fits : FitsRun 80 ⟨[], [97, 98, 10, 99]⟩ [.right, .down, .char 100, .up, .char 8] :=
    ⟨by decide, by decide, by decide, by decide, by decide,
      show Fits 80 0 [97, 10, 99, 100] by decide⟩
  obtain ⟨s, -, -, returns, buffer, offset, -⟩ := keys_match_reference 80 _ _ fits
  exact ⟨fits, s, returns, buffer, offset⟩

theorem wrapped_line_shifts_cursor :
    ∃ s, (replicate 9 Key.right).foldlM (readInput 8) (loadFile 8 (replicate 10 97)) = .ok s ∧
      s.fileOffset = 9 ∧ lineLen s s.row = .ok (8, 2) ∧ s.col = 0 :=
  ⟨_, rfl, rfl, rfl, rfl⟩

end Bincows.TextEditor
