import Qsh.Client.PredictShape
import Qsh.Lib.Escape
import Qsh.Screen.Update

/-!
# Drawing the screen on the local terminal

`ScreenRenderer` in `client/render.rs`: the text
that takes the local terminal from what it shows to a screen state.

A function that appends to `out` returns what it appends, and the bytes written are
the UTF-8 encoding of that text.  The cells of a frame are a list of rows here; the
source keeps the rows one behind the other in one vector.  Sizes and positions are
`Nat`.
-/

namespace Qsh.Client

open Qsh.Lib (slice)
open Qsh.Lib.Escape (num)
open Qsh.Screen (Text Cell Color Modes ScreenState Effect WIDE WIDE_CONT)

/-! ## Constants -/

def GAP_SPLIT : Nat := 6

def ERASE_TAIL_MIN : Nat := 4

def MIN_COLS : Nat := 20

def BOLD : UInt8 := 1

def DIM : UInt8 := 2

def ITALIC : UInt8 := 4

def INVERSE : UInt8 := 16

def APP_CURSOR : UInt8 := 4

def APP_KEYPAD : UInt8 := 8

def BRACKETED_PASTE : UInt8 := 16

/-! ## The pen -/

/-- The colours and attributes that the terminal writes with. -/
structure Pen where
  fg : Color
  bg : Color
  flags : UInt8
  deriving DecidableEq, Repr

namespace Pen

def default : Pen where
  fg := .default
  bg := .default
  flags := 0

def of (cell : Cell) : Pen where
  fg := cell.fg
  bg := cell.bg
  flags := cell.flags &&& (BOLD ||| DIM ||| ITALIC ||| UNDERLINE ||| INVERSE)

end Pen

def color (c : Color) (base bright ext : Nat) : Text :=
  match c with
  | .default => []
  | .idx i =>
      if i < 8 then num ';' (base + i.toNat)
      else if i < 16 then num ';' (bright + i.toNat - 8)
      else num ';' ext ++ num ';' 5 ++ num ';' i.toNat
  | .rgb r g b => num ';' ext ++ num ';' 2 ++ [r, g, b].flatMap fun v => num ';' v.toNat

def attributes : List (UInt8 × Nat) :=
  [(BOLD, 1), (DIM, 2), (ITALIC, 3), (UNDERLINE, 4), (INVERSE, 7)]

def Pen.sgr (p : Pen) : Text :=
  ['\x1b', '[', '0'] ++
    attributes.flatMap (fun a => if p.flags &&& a.1 ≠ 0 then num ';' a.2 else []) ++
    color p.fg 30 90 38 ++ color p.bg 40 100 48 ++ ['m']

def cup (row col : Nat) : Text :=
  ['\x1b', '['] ++ Nat.toDigits 10 (row + 1) ++ num ';' (col + 1) ++ ['H']

def setMode (p : Nat) (on : Bool) : Text :=
  ['\x1b', '[', '?'] ++ Nat.toDigits 10 p ++ [if on then 'h' else 'l']

def resetPen : Text :=
  ['\x1b', '[', '0', 'm']

/-! ## Fitting a state to the window -/

/-- What the terminal is to show. -/
structure Frame where
  cols : Nat
  rows : Nat
  /-- `rows` rows of `cols` cells. -/
  cells : List (List Cell)
  cursorRow : Nat
  cursorCol : Nat
  deriving DecidableEq, Repr

def visible (cell : Cell) : Cell :=
  let cell := if cell.text = [' '] then { cell with text := [] } else cell
  if cell.text = [] ∧ cell.flags &&& (UNDERLINE ||| INVERSE) = 0 then { cell with fg := .default }
  else cell

/-- Blanks the half of a wide character that lost its other half. -/
def fixWideHalves (cells : List (List Cell)) : List (List Cell) :=
  cells.map (cellHalves.repair false)

namespace Frame

def row (f : Frame) (r : Nat) : List Cell :=
  f.cells.getD r []

variable (state : ScreenState)

/-- Rows cut off at the top, so that the cursor row stays on screen. -/
def rowOffset (rows : Nat) : Nat :=
  if rows < state.rows then min (state.cursorRow + 1 - rows) (state.rows - rows) else 0

def fitCell (cols c : Nat) (cell : Cell) : Cell :=
  -- a double-width character that the crop cut in half
  let cut := (hasFlag cell WIDE && c + 1 == cols) || (hasFlag cell WIDE_CONT && c == 0)
  visible (if cut then .blank else cell)

/-- A row cropped or filled up to the window. -/
def fitRow (cells : List Cell) (cols : Nat) : List Cell :=
  (List.range cols).map fun c => fitCell cols c (cells.getD c .blank)

def hostCells (cols rows : Nat) : List (List Cell) :=
  (List.range rows).map fun r =>
    fitRow (state.grid[r + rowOffset state rows]?.elim [] (·.cells)) cols

def windowRow (offset rows row : Nat) : Option Nat :=
  if offset ≤ row ∧ row - offset < rows then some (row - offset) else none

def putOverlay (offset cols rows : Nat) (cells : List (List Cell)) (oc : OverlayCell) :
    List (List Cell) :=
  match windowRow offset rows oc.row with
  | some r => if oc.col < cols then cells.modify r (·.set oc.col (visible oc.cell)) else cells
  | none => cells

def touches (offset cols rows : Nat) (oc : OverlayCell) : Bool :=
  (windowRow offset rows oc.row).isSome && oc.col < cols

def putRightHalf (offset cols rows : Nat) (cells : List (List Cell)) (oc : OverlayCell) :
    List (List Cell) :=
  match windowRow offset rows oc.row with
  | some r =>
      if hasFlag oc.cell WIDE ∧ oc.col + 1 < cols then
        cells.modify r (·.set (oc.col + 1) { Cell.blank with flags := WIDE_CONT })
      else cells
  | none => cells

/-- The predicted cells put over the host's. -/
def overlaid (offset cols rows : Nat) (cells : List (List Cell)) (o : Overlay) :
    List (List Cell) :=
  let cells := o.cells.foldl (putOverlay offset cols rows) cells
  let cells := o.cells.foldl (putRightHalf offset cols rows) cells
  if o.cells.any (touches offset cols rows) then fixWideHalves cells else cells

def overlayCursor (offset cols rows : Nat) (o : Overlay) (cursor : Nat × Nat) : Nat × Nat :=
  match o.cursor with
  | some (r, c) =>
      match windowRow offset rows r with
      | some r => (r, min c (cols - 1))
      | none => cursor
  | none => cursor

def statusCell (ch : Char) : Cell :=
  { Cell.blank with text := [ch], flags := INVERSE }

def statusRow (text : Text) (cols : Nat) : List Cell :=
  (List.range cols).map fun c => statusCell (text.getD c ' ')

def hostCursor (cols rows : Nat) : Nat × Nat :=
  (min (state.cursorRow - rowOffset state rows) (rows - 1), min state.cursorCol (cols - 1))

/-- The cells and the cursor of the host screen with the overlay.  The alternate
screen shows no overlay. -/
def withOverlay (overlay : Option Overlay) (cols rows : Nat) :
    List (List Cell) × (Nat × Nat) :=
  match overlay.filter fun _ => state.modes.flags &&& ALT_SCREEN == 0 with
  | some o =>
      (overlaid (rowOffset state rows) cols rows (hostCells state cols rows) o,
        overlayCursor (rowOffset state rows) cols rows o (hostCursor state cols rows))
  | none => (hostCells state cols rows, hostCursor state cols rows)

/-- The status line on the top row, unless the cursor is there: then on the bottom
one. -/
def withStatus (status : Option Text) (cols rows cursorRow : Nat) (cells : List (List Cell)) :
    List (List Cell) :=
  match status.filter fun _ => MIN_COLS ≤ cols with
  | some text => cells.set (if cursorRow = 0 then rows - 1 else 0) (statusRow text cols)
  | none => cells

/-- The frame for a window of this size. -/
def fit (overlay : Option Overlay) (status : Option Text) (cols rows : Nat) : Frame :=
  let shown := withOverlay state overlay cols rows
  { cols
    rows
    cells := withStatus status cols rows shown.2.1 shown.1
    cursorRow := shown.2.1
    cursorCol := shown.2.2 }

end Frame

/-! ## The changed runs of a row -/

def isPlainBlank (c : Cell) : Bool :=
  c.text.isEmpty && c.fg == .default && c.bg == .default && c.flags == 0

/-- The end of the run that starts before `probe`: it goes on through changed
cells and bridges short equal gaps.  `left` columns are still to be probed. -/
def spanEnd (prev now : List Cell) : (left : Nat) → (stop probe : Nat) → Nat
  | 0, stop, _ => stop
  | left + 1, stop, probe =>
      if prev[probe]? ≠ now[probe]? then spanEnd prev now left (probe + 1) (probe + 1)
      else if probe - stop < GAP_SPLIT then spanEnd prev now left stop (probe + 1)
      else stop

def spansFrom (prev now : List Cell) : (fuel : Nat) → (c : Nat) → List (Nat × Nat)
  | 0, _ => []
  | fuel + 1, c =>
      if c < now.length then
        if prev[c]? = now[c]? then spansFrom prev now fuel (c + 1)
        else
          let stop := spanEnd prev now (now.length - (c + 1)) (c + 1) (c + 1)
          (c, stop) :: spansFrom prev now fuel stop
      else []

def eraseTail (now : List Cell) (span : Nat × Nat) : Nat × Nat :=
  if span.2 < now.length ∧ isPlainBlank (now.getD (span.2 - 1) .blank) ∧
      (now.drop span.2).all isPlainBlank then
    (span.1, now.length)
  else span

def eraseLast (now : List Cell) : List (Nat × Nat) → List (Nat × Nat)
  | [] => []
  | [span] => [eraseTail now span]
  | span :: spans => span :: eraseLast now spans

def widen (now : List Cell) (span : Nat × Nat) : Nat × Nat :=
  (if 0 < span.1 ∧ hasFlag (now.getD span.1 .blank) WIDE_CONT then span.1 - 1 else span.1,
    if span.2 < now.length ∧ hasFlag (now.getD (span.2 - 1) .blank) WIDE then span.2 + 1
    else span.2)

/-- The columns of a row that have to be written. -/
def changedSpans (prev now : List Cell) : List (Nat × Nat) :=
  (eraseLast now (spansFrom prev now now.length 0)).map (widen now)

/-! ## Writing cells -/

def writeRun : Option Pen → List Cell → Option Pen × Text
  | pen, [] => (pen, [])
  | pen, cell :: cells =>
      if hasFlag cell WIDE_CONT then writeRun pen cells
      else
        let want := Pen.of cell
        let rest := writeRun (some want) cells
        (rest.1, (if pen ≠ some want then want.sgr else []) ++
          (if cell.text = [] then [' '] else cell.text) ++ rest.2)

/-- Where a run stops being written: a tail of blanks to the end of the row is
erased. -/
def writeStop (row : List Cell) (start stop : Nat) : Nat :=
  let blanks := ((slice row start stop).reverse.takeWhile isPlainBlank).length
  if stop = row.length ∧ ERASE_TAIL_MIN ≤ blanks then stop - blanks else stop

/-- Writes one span, or erases the end of the line. -/
def writeSpan (row : List Cell) (start stop : Nat) (pen : Option Pen) : Option Pen × Text :=
  let last := writeStop row start stop
  let written := writeRun pen (slice row start last)
  if last < stop then
    (some .default, written.2 ++
      (if written.1 ≠ some .default then Pen.default.sgr else []) ++ ['\x1b', '[', 'K'])
  else written

def writeSpans (r : Nat) (now : List Cell) : Option Pen → List (Nat × Nat) → Option Pen × Text
  | pen, [] => (pen, [])
  | pen, span :: spans =>
      let first := writeSpan now span.1 span.2 pen
      let rest := writeSpans r now first.1 spans
      (rest.1, cup r span.1 ++ first.2 ++ rest.2)

def rowSpans (previous : Option Frame) (frame : Frame) (r : Nat) : List (Nat × Nat) :=
  match previous with
  | some prev => changedSpans (prev.row r) (frame.row r)
  | none => if (frame.row r).isEmpty then [] else [(0, (frame.row r).length)]

def writeRows (previous : Option Frame) (frame : Frame) :
    Option Pen → List Nat → Option Pen × Text
  | pen, [] => (pen, [])
  | pen, r :: rs =>
      let first := writeSpans r (frame.row r) pen (rowSpans previous frame r)
      let rest := writeRows previous frame first.1 rs
      (rest.1, first.2 ++ rest.2)

/-! ## Modes -/

def mouseParam (mode : UInt8) : Option Nat :=
  if mode = 1 then some 9
  else if mode = 2 then some 1000
  else if mode = 3 then some 1002
  else if mode = 4 then some 1003
  else none

def encodingParam (enc : UInt8) : Option Nat :=
  if enc = 1 then some 1005 else if enc = 2 then some 1006 else none

def modeFlag (m : Modes) (bit : UInt8) : Bool :=
  m.flags &&& bit != 0

def changeFlag (old new : Modes) (bit : UInt8) (text : Bool → Text) : Text :=
  if modeFlag old bit ≠ modeFlag new bit then text (modeFlag new bit) else []

def changeParam (changed : Bool) (old new : Option Nat) : Text :=
  if changed then old.elim [] (setMode · false) ++ new.elim [] (setMode · true) else []

/-- The sequences that lead from one set of modes to another. -/
def modeChanges (old new : Modes) : Text :=
  changeFlag old new ALT_SCREEN (setMode 1049) ++
    changeFlag old new CURSOR_HIDDEN (fun is => setMode 25 !is) ++
    changeFlag old new APP_CURSOR (setMode 1) ++
    changeFlag old new APP_KEYPAD (fun is => ['\x1b', if is then '=' else '>']) ++
    changeFlag old new BRACKETED_PASTE (setMode 2004) ++
    changeParam (old.mouseMode != new.mouseMode) (mouseParam old.mouseMode)
      (mouseParam new.mouseMode) ++
    changeParam (old.mouseEncoding != new.mouseEncoding) (encodingParam old.mouseEncoding)
      (encodingParam new.mouseEncoding)

/-! ## Effects -/

def osc (body : Text) : Text :=
  ['\x1b', ']'] ++ body ++ ['\x1b', '\\']

def effectText : Effect → Text
  | .title t => osc (['2', ';'] ++ t)
  | .bell => ['\x07']
  | .clipboard selection data =>
      -- `?` is a read request, not a write
      if data.bytes.all (· ≠ 63) then osc (['5', '2', ';'] ++ selection ++ [';'] ++ data) else []
  | .hyperlink params uri => osc (['8', ';'] ++ params ++ [';'] ++ uri)

def linkAfter (linkOpen : Bool) : Effect → Bool
  | .hyperlink _ uri => !uri.isEmpty
  | _ => linkOpen

/-- The title, bell, clipboard and link effects. -/
def writeEffects (effects : List Effect) : Text :=
  effects.flatMap effectText ++
    if effects.foldl linkAfter false then osc ['8', ';', ';'] else []

/-! ## History lines -/

def skippedLine (n : Nat) : Text :=
  ['-', '-', '-', ' '] ++ Nat.toDigits 10 n ++
    [' ', 'l', 'i', 'n', 'e', 's', ' ', 's', 'k', 'i', 'p', 'p', 'e', 'd', ' ', '-', '-', '-']

inductive LineState
  | text
  | escape
  | csi (seq : Text)
  | string
  | stringEscape
  deriving DecidableEq, Repr

def isSgrParam (c : Char) : Bool :=
  c.isDigit || c == ';' || c == ':'

/-- Keep the text and the `SGR` sequences of a history line, and drop every other
control character and escape sequence, with its body. -/
def sanitizeFrom : LineState → Text → Text
  | _, [] => []
  | .text, c :: line =>
      if c = '\x1b' then sanitizeFrom .escape line
      else if Screen.isControl c then sanitizeFrom .text line
      else c :: sanitizeFrom .text line
  | .escape, c :: line =>
      if c = '[' then sanitizeFrom (.csi []) line
      else if c = ']' ∨ c = 'P' ∨ c = '^' ∨ c = '_' ∨ c = 'X' then sanitizeFrom .string line
      else sanitizeFrom .text line
  | .csi seq, c :: line =>
      if '\x40' ≤ c ∧ c ≤ '\x7e' then
        (if c = 'm' ∧ seq.all isSgrParam then ['\x1b', '['] ++ seq ++ ['m'] else []) ++
          sanitizeFrom .text line
      else sanitizeFrom (.csi (seq ++ [c])) line
  | .string, c :: line =>
      if c = '\x07' then sanitizeFrom .text line
      else if c = '\x1b' then sanitizeFrom .stringEscape line
      else sanitizeFrom .string line
  | .stringEscape, _ :: line => sanitizeFrom .text line

/-- A history line with only its text and colours left. -/
def sanitizeHistoryLine (line : Text) : Text :=
  sanitizeFrom .text line

/-! ## The renderer -/

/-- What the renderer has put on the terminal. -/
structure ScreenRenderer where
  /-- What the local terminal shows, if it is known. -/
  drawn : Option Frame
  /-- The modes this renderer has set on the local terminal. -/
  modes : Modes
  /-- A mode other than the default was written. -/
  touched : Bool
  /-- The first frame has been drawn. -/
  started : Bool
  deriving DecidableEq, Repr

namespace ScreenRenderer

def new : ScreenRenderer where
  drawn := none
  modes := .none
  touched := false
  started := false

variable (s : ScreenRenderer)

def invalidate : ScreenRenderer :=
  { s with drawn := none }

def writeModes (new : Modes) : ScreenRenderer × Text :=
  ({ s with modes := new, touched := s.touched || decide (new ≠ .none) }, modeChanges s.modes new)

/-- Write the cells of `frame` that differ from what is drawn, or all of them.
The number is how many runs were written. -/
def writeCells (frame : Frame) (full : Bool) : Nat × Text :=
  let previous := if full then none else s.drawn
  -- every draw ends with the default pen; a full repaint trusts nothing
  let pen := previous.map fun _ => Pen.default
  let written := writeRows previous frame pen (List.range frame.rows)
  (((List.range frame.rows).map fun r => (rowSpans previous frame r).length).sum,
    written.2 ++ if written.1.any (· ≠ .default) then resetPen else [])

def firstScroll (rows : Nat) : Text :=
  if s.started then []
  else ['\x1b', '['] ++ Nat.toDigits 10 rows ++ [';', '1', 'H'] ++ List.replicate rows '\n'

/-- Whether everything has to be drawn again. -/
def isFull (state : ScreenState) (cols rows : Nat) : Bool :=
  s.drawn.all (fun d => (d.cols, d.rows) ≠ (cols, rows)) ||
    (s.modes.flags ^^^ state.modes.flags) &&& ALT_SCREEN != 0

/-- The bytes that bring the terminal to this state. -/
def compose (state : ScreenState) (overlay : Option Overlay)
    (status : Option Text) (effects : List Effect) (size : Nat × Nat) : ScreenRenderer × Text :=
  let cols := max size.1 1
  let rows := max size.2 1
  let frame := Frame.fit state overlay status cols rows
  let full := s.isFull state cols rows
  let moded := s.writeModes state.modes
  let body := s.writeCells frame full
  -- the cursor is hidden while several runs are written
  let hide := decide (1 < body.1) && !modeFlag state.modes CURSOR_HIDDEN
  let cursorMoved := s.drawn.all fun d =>
    (d.cursorRow, d.cursorCol) ≠ (frame.cursorRow, frame.cursorCol)
  ({ moded.1 with drawn := some frame, started := true },
    s.firstScroll rows ++ moded.2 ++ (if hide then setMode 25 false else []) ++ body.2 ++
      (if 0 < body.1 ∨ cursorMoved ∨ full then cup frame.cursorRow frame.cursorCol else []) ++
      (if hide then setMode 25 true else []) ++ writeEffects effects)

def historyLine (rows : Nat) (t : Text) : Text :=
  ['\x1b', '[', '1', ';', '1', 'H'] ++ resetPen ++ ['\x1b', '[', '2', 'K'] ++ t ++ resetPen ++
    ['\x1b', '['] ++ Nat.toDigits 10 rows ++ [';', '1', 'H', '\n']

/-- The bytes that scroll the lines into the local scrollback. -/
def history (lines : List Text) (skipped : Nat) (size : Nat × Nat) :
    ScreenRenderer × Text :=
  let rows := max size.2 1
  let texts := lines.map sanitizeHistoryLine ++ if 0 < skipped then [skippedLine skipped] else []
  if texts = [] then (s, [])
  else if s.started = false then
    -- plain lines scroll into the scrollback by themselves
    (s, texts.flatMap fun t => resetPen ++ t ++ resetPen ++ ['\r', '\n'])
  else
    let alt := modeFlag s.modes ALT_SCREEN
    ({ s with drawn := none },
      (if alt then setMode 1049 false else []) ++ setMode 25 false ++ setMode 7 false ++
        texts.flatMap (historyLine rows) ++ setMode 7 true ++
        (if alt then setMode 1049 true else []) ++
        if modeFlag s.modes CURSOR_HIDDEN then [] else setMode 25 true)

/-- The bytes that give the terminal back. -/
def reset : ScreenRenderer × Text :=
  if s.touched then
    let moded := s.writeModes .none
    ({ moded.1 with drawn := none }, moded.2 ++ resetPen)
  else ({ s with drawn := none }, [])

end ScreenRenderer

end Qsh.Client
