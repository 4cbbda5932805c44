import Bincows.Shared.Execution

set_option autoImplicit false

/-! The character buffer, the cursor and the escape sequences. What is drawn is left out, up to the checks of `print_char`. -/

namespace Bincows.Terminal

inductive Fault where
  -- an access outside of an array
  | outside
  | assertion
  -- a loop that does not end
  | hangs
  -- a product of two `int` that does not fit
  | overflow
  deriving DecidableEq

structure Cell where
  fgColor : BitVec 24
  c : UInt8
  bgColor : BitVec 32
  deriving DecidableEq

-- The kernel is built with `BIGGER_FONT`.
def fontWidth : Nat := 12

def fontHeight : Nat := 16

def lineHeight : Nat := fontHeight

def nPages : Nat := 2

def tabSpace : Nat := 6

def escSize : Nat := 10

structure Data where
  width : Nat
  height : Nat
  ncols : Nat
  nlines : Nat
  termNlines : Nat
  firstLine : Nat
  curCol : Nat
  curLine : Nat
  needRefresh : Bool
  currentFgcolor : BitVec 32
  currentBgcolor : BitVec 32
  marginLeft : Nat
  marginTop : Nat
  esc : Bool
  seq : Bool
  idx : Nat
  escSeq : List UInt8
  charBuffer : List Cell
  deriving DecidableEq

variable (d : Data)

def makeChar (c : UInt8) : Cell :=
  { fgColor := d.currentFgcolor.truncate 24, c, bgColor := d.currentBgcolor }

def terminalClear : Data :=
  { d with
    curCol := 0
    curLine := 0
    firstLine := 0
    charBuffer := List.replicate (d.nlines * d.ncols) (makeChar d 0)
    needRefresh := true }

def flushScreen : Except Fault Unit :=
  if d.termNlines * d.ncols = 0 ∨ d.firstLine * d.ncols + d.termNlines * d.ncols ≤ d.charBuffer.length then .ok ()
  else .error .outside

-- `current_bgcolor` and `esc_seq` are not initialised; the sequence is not read before it is written.
def terminalInstall (width height : Nat) (bgcolor : BitVec 32) (escSeq : Vector UInt8 escSize) : Except Fault Data := do
  let ncols := width / fontWidth % 2 ^ 16
  let termNlines := height / lineHeight % 2 ^ 16
  let nlines := nPages * termNlines % 2 ^ 16
  if 2 ^ 31 ≤ ncols * nlines then
    throw .overflow
  let d := terminalClear {
    width, height, ncols, nlines, termNlines
    firstLine := 0
    curCol := 0
    curLine := 0
    needRefresh := false
    currentFgcolor := 0xffffff
    currentBgcolor := bgcolor
    marginLeft := (width - ncols * fontWidth) / 2 / 16 * 16
    marginTop := (height - termNlines * fontHeight) / 2
    esc := false
    seq := false
    idx := 0
    escSeq := escSeq.toList
    charBuffer := [] }
  flushScreen d
  return d

/-- `move_buffer` with a positive number of lines; the first cell behind those moved is left as it is. -/
def moveBuffer (lines : Nat) : Except Fault Data :=
  let px := d.ncols * lines
  let buffPx := d.nlines * d.ncols
  let d := { d with needRefresh := true }
  if px ≤ buffPx then
    let kept := (d.charBuffer.drop (buffPx - px)).take 1
    .ok { d with charBuffer := d.charBuffer.drop px ++ kept ++ List.replicate (px - 1) (makeChar d 0) }
  else .error .outside

def nextLine : Except Fault Data :=
  let d := { d with curCol := 0, curLine := (d.curLine + 1) % 2 ^ 16 }
  if d.nlines ≤ d.curLine then
    moveBuffer { d with
      firstLine := (d.nlines + 2 ^ 16 - d.termNlines) % 2 ^ 16
      curLine := (d.nlines + 2 ^ 16 - 4) % 2 ^ 16 } 4
  else if d.firstLine + d.termNlines ≤ d.curLine then
    .ok { d with firstLine := (d.firstLine + 4) % 2 ^ 16, needRefresh := true }
  else .ok d

def printChar (line col : Int) : Except Fault Unit :=
  if line > d.termNlines then .error .hangs
  else if col > d.ncols then .error .hangs
  else if d.marginTop + line * lineHeight > d.height then .error .hangs
  else if d.marginLeft + col * fontWidth > d.width then .error .hangs
  else .ok ()

def advanceCursor : Except Fault Data :=
  let d := { d with curCol := (d.curCol + 1) % 2 ^ 16 }
  if d.ncols ≤ d.curCol then nextLine d else .ok d

def emplaceNormalChar (c : UInt8) : Except Fault Data := do
  let i := d.ncols * d.curLine + d.curCol
  if i < d.charBuffer.length then
    let d := { d with charBuffer := d.charBuffer.set i (makeChar d c) }
    if d.needRefresh = false then
      printChar d (d.curLine - d.firstLine) d.curCol
    advanceCursor d
  else throw .outside

def colors : List (BitVec 32) :=
  [0x0c0c1c, 0x400000, 0x13a10e, 0xc19c00, 0x0037da, 0x881798, 0x3a96dd, 0xecec9d,
    0x767676, 0xe74856, 0x16c60c, 0xf9f1a5, 0x3b78ff, 0xb4009e, 0x61d6d6, 0xf2f2f2]

def setColor (tenth unit : UInt8) : Data :=
  let unit := if unit > 7 then 7 else unit.toNat
  if tenth = 3 then { d with currentFgcolor := colors.getD unit 0 }
  else if tenth = 4 then { d with currentBgcolor := colors.getD unit 0 }
  else if tenth = 9 then { d with currentFgcolor := colors.getD (unit + 8) 0 }
  else if tenth = 10 then { d with currentBgcolor := colors.getD (unit + 8) 0 }
  else d

def params : List UInt8 := d.escSeq.take d.idx

def parseEscNumberSingle : Nat :=
  ((params d).takeWhile (· ≠ 0xff)).foldl (fun num n => num * 10 + n.toNat) 0

def cupVals : List UInt8 -> Nat -> Nat × Nat -> Except Fault (Option (Nat × Nat))
  | [], _, vals => .ok (some vals)
  | n :: rest, j, vals =>
    if n = 0xff then
      if j > 1 then .ok none else cupVals rest (j + 1) vals
    else
      match j with
      | 0 => cupVals rest j (vals.1 * 10 + n.toNat, vals.2)
      | 1 => cupVals rest j (vals.1, vals.2 * 10 + n.toNat)
      | _ => .error .outside

def setCursor (row col : Nat) : Except Fault Data :=
  let curCol := (col - 1) % 2 ^ 16
  let curLine := ((row - 1) % 2 ^ 16 + d.firstLine) % 2 ^ 16
  let curCol := if d.ncols ≤ curCol then (d.ncols + 2 ^ 16 - 1) % 2 ^ 16 else curCol
  let curLine := if d.nlines ≤ curLine then (d.nlines + 2 ^ 16 - 1 + d.firstLine) % 2 ^ 16 else curLine
  if d.firstLine ≤ curLine then .ok { d with curCol, curLine } else .error .assertion

def escCup : Except Fault Data := do
  match ← cupVals (params d) 0 (0, 0) with
  | none => return d
  | some (row, col) => setCursor d row col

def fill (first last : Nat) (cell : Cell) : Except Fault Data :=
  if last ≤ first then .ok d
  else if last ≤ d.charBuffer.length then
    .ok { d with charBuffer := d.charBuffer.take first ++ List.replicate (last - first) cell ++ d.charBuffer.drop last }
  else .error .outside

def escEl : Except Fault Data :=
  let lineBegin := d.ncols * d.curLine
  let lineEnd := d.ncols * (d.curLine + 1)
  let lineCur := lineBegin + d.curCol
  let d := { d with needRefresh := true }
  let empty := makeChar d 32
  match parseEscNumberSingle d with
  | 0 => fill d lineCur lineEnd empty
  | 1 => fill d lineBegin lineCur empty
  | 2 => fill d lineBegin lineEnd empty
  | _ => .ok d

def escSgr : Data :=
  let n (i : Nat) := d.escSeq.getD i 0
  let d :=
    if d.idx = 2 then setColor d (n 0) (n 1)
    else if d.idx = 5 ∧ n 2 = 0xff then setColor (setColor d (n 0) (n 1)) (n 3) (n 4)
    else if d.idx = 1 ∧ n 0 = 0 then setColor (setColor d 3 7) 4 0
    else d
  { d with seq := false, idx := 0 }

def storeEsc (n : UInt8) : Except Fault Data :=
  if d.idx < d.escSeq.length then .ok { d with escSeq := d.escSeq.set d.idx n, idx := (d.idx + 1) % 2 ^ 8 }
  else .error .outside

def isDigit (c : UInt8) : Bool := 48 ≤ c ∧ c ≤ 57

/-- `emplace_char` inside of an escape sequence: 59 is `;`, 109 `m`, 72 `H`, 75 `K`. -/
def emplaceEscape (c : UInt8) : Except Fault Data := do
  if isDigit c then
    if d.idx > escSize then return { d with seq := false }
    else storeEsc d (c - 48)
  else if c = 59 then
    let d ← storeEsc d 0xff
    if escSize ≤ d.idx then return { d with seq := false, idx := 0 } else return d
  else
    let d ←
      if c = 109 then pure (escSgr d)
      else if c = 72 then escCup d
      else if c = 75 then escEl d
      else pure d
    return { d with idx := 0, seq := false }

def writeSpaces : Nat -> Data -> Except Fault Data
  | 0, d => .ok d
  | n + 1, d => do writeSpaces n (← emplaceNormalChar d 32)

def tabTo (newCol : Nat) : Nat -> Data -> Except Fault Data
  | 0, d => if d.curCol < newCol then .error .hangs else .ok d
  | fuel + 1, d => if d.curCol < newCol then do tabTo newCol fuel (← emplaceNormalChar d 32) else .ok d

def emplaceTab : Except Fault Data :=
  let newCol := (d.curCol + tabSpace) / tabSpace * tabSpace
  let newCol := if newCol > d.ncols then 0 else newCol
  tabTo newCol d.ncols d

def backspace : Data :=
  if d.curCol > 0 then { d with curCol := d.curCol - 1 }
  else if d.curLine > 0 then { d with curLine := d.curLine - 1, curCol := (d.ncols + 2 ^ 16 - 1) % 2 ^ 16 }
  else d

def emplacePlain (c : UInt8) : Except Fault Data :=
  if c = 27 then .ok { d with esc := true }
  else if c = 10 then writeSpaces (d.ncols - d.curCol) d
  else if c = 9 then emplaceTab d
  else if c = 13 then .ok { d with curCol := 0 }
  else if c = 8 then .ok (backspace d)
  else if c = 12 then .ok (terminalClear d)
  else emplaceNormalChar d c

-- 91 is `[`.
def emplaceChar (c : UInt8) : Except Fault Data :=
  if d.seq then emplaceEscape d c
  else if d.esc ∧ c = 91 then .ok { d with seq := true, esc := false }
  else emplacePlain { d with esc := false } c

inductive Output where
  | byte (c : UInt8)
  | flush
  deriving DecidableEq

def printable (c : UInt8) : Bool := 0 < c ∧ c < 0x7f

def write : Output -> Except Fault Data
  | .byte c => if printable c then emplaceChar d c else .ok d
  | .flush => do
    if d.needRefresh then
      flushScreen d
    return { d with needRefresh := false }

end Bincows.Terminal
