import Qsh.Client.Keys

/-!
# Local echo prediction

`Predictor` in `client/predict.rs`: what the
user typed is drawn over the host screen until the host shows it.

`onInput` makes predictions (`tryPredict`), `onState` and `onEcho` judge them
(`reconcile`, `resolve`), and `overlay` is what the renderer draws.  Times are
nanoseconds, rows, columns and offsets are `Nat`.  The two width tables of
`unicode-width` are the parameter `Widths`.
-/

namespace Qsh.Client

open Qsh.Screen (Text Cell Color Modes ScreenState WIDE WIDE_CONT)

/-! ## Constants -/

def MISPREDICT_SUSPEND : Nat := 3

def REENABLE_CONFIRMS : Nat := 4

def MILLISECOND : Nat := 1000000

def GLITCH_AFTER : Nat := 250 * MILLISECOND

def GLITCH_REPAIR : Nat := 10

def MAX_PENDING : Nat := 256

def HIDDEN_CURSOR_STATES : Nat := 2

def HIDDEN_CURSOR_HOLD : Nat := 1000 * MILLISECOND

def PREDICT_ON_ABOVE : Nat := 30 * MILLISECOND

def UNDERLINE : UInt8 := 8

def ALT_SCREEN : UInt8 := 1

def CURSOR_HIDDEN : UInt8 := 2

/-! ## Types -/

inductive TtyEcho
  | unknown
  | kernel
  | app
  | secret
  deriving DecidableEq, Repr

structure EchoReport where
  stateNum : Nat
  inputSeq : Nat
  tty : TtyEcho
  deriving DecidableEq, Repr

inductive Prediction
  | off
  | display
  | underline
  deriving DecidableEq, Repr

structure Widths where
  width : Char → Option Nat
  widthCjk : Char → Option Nat

structure OverlayCell where
  row : Nat
  col : Nat
  cell : Cell
  deriving DecidableEq, Repr

structure Overlay where
  cells : List OverlayCell
  cursor : Option (Nat × Nat)
  deriving DecidableEq, Repr

def Overlay.empty : Overlay where
  cells := []
  cursor := none

inductive Block
  | noCapability
  | readOnly
  | secret
  | fullScreenApp
  deriving DecidableEq, Repr

structure PredictStats where
  confirmed : Nat
  mispredicted : Nat
  echoRejected : Nat
  echoStale : Nat
  deriving DecidableEq, Repr

inductive Kind
  | insert
  | backspace
  | left
  | right
  deriving DecidableEq, Repr

/-- One predicted key, with the cells it draws. -/
structure Pred where
  kind : Kind
  epoch : Nat
  inputEnd : Nat
  madeAt : Nat
  primary : Option Nat
  expect : Text
  touch : Option (Nat × Nat)
  cursorBefore : Nat
  cursorAfter : Nat
  cells : List (Nat × Cell × Bool)
  deriving DecidableEq, Repr

/-- What the host's screen says of a prediction. -/
inductive Verdict
  | pending
  | matched (evidence : Bool)
  | wrong
  deriving DecidableEq, Repr

structure Snapshot where
  cursorRowCells : List Cell
  predRow : Option (Nat × List Cell)
  deriving DecidableEq, Repr

/-- The whole state of the prediction. -/
structure Predictor where
  capable : Bool
  writer : Bool
  tty : TtyEcho
  policy : Prediction
  statusLine : Bool
  wasBlocked : Bool
  haveState : Bool
  rows : Nat
  cols : Nat
  hostCursor : Nat × Nat
  modeBlocked : Bool
  hiddenStreak : Nat
  hiddenSince : Option Nat
  appliedState : Nat
  snap : Snapshot
  row : Nat
  view : List Cell
  cursor : Option (Nat × Nat)
  staleUntil : Option Nat
  lastInputEnd : Nat
  covered : Nat
  lastReportKey : Option (Nat × Nat)
  held : Option EchoReport
  pending : List Pred
  epoch : Nat
  confirmedEpochs : List Nat
  wrongRun : Nat
  suspended : Bool
  undrawnConfirms : Nat
  glitch : Bool
  repairRun : Nat
  carry : List UInt8
  inPaste : Bool
  now : Option Nat
  stats : PredictStats

/-! ## Texts, widths and cells -/

def isBlank (t : Text) : Bool :=
  t = [] || t = [' ']

def textEq (a b : Text) : Bool :=
  a = b || (isBlank a && isBlank b)

/-- The width of a character that both width tables agree on. -/
def predictableWidth (W : Widths) (c : Char) : Option Nat :=
  match W.width c with
  | none => none
  | some w => if w = 0 ∨ 2 < w ∨ W.widthCjk c ≠ some w then none else some w

def hasFlag (cell : Cell) (flag : UInt8) : Bool :=
  cell.flags &&& flag != 0

/-- A row that is being composed, and which of its cells were written. -/
structure Canvas where
  cells : List Cell
  written : List Bool
  deriving DecidableEq, Repr

/-- Write one predicted cell into a row.  If it lands on one half of a wide
character that was written before, the other half is blanked. -/
def putAtomic (v : Canvas) (col : Nat) (cell : Cell) : Canvas :=
  let cellAt := fun k => v.cells.getD k .blank
  let wrote := fun k => v.written.getD k false
  let cells :=
    if wrote col ∧ hasFlag (cellAt col) WIDE ∧ !hasFlag cell WIDE ∧ col + 1 < v.cells.length ∧
        wrote (col + 1) ∧ hasFlag (cellAt (col + 1)) WIDE_CONT then
      v.cells.set (col + 1) .blank
    else v.cells
  let cells :=
    if wrote col ∧ hasFlag (cellAt col) WIDE_CONT ∧ !hasFlag cell WIDE_CONT ∧ 0 < col ∧
        wrote (col - 1) ∧ hasFlag (cellAt (col - 1)) WIDE then
      cells.set (col - 1) .blank
    else cells
  { cells := cells.set col cell, written := v.written.set col true }

/-- Draws the cells of one prediction. -/
def putPred (cols : Nat) (mark : Cell → Bool → Cell) (v : Canvas) (p : Pred) : Canvas :=
  p.cells.foldl
    (fun v (col, cell, fresh) => if col < cols then putAtomic v col (mark cell fresh) else v) v

def laterEnd (stale : Option Nat) (e : Nat) : Nat :=
  match stale with
  | none => e
  | some s => max s e

namespace Predictor

def new (capable : Bool) : Predictor where
  capable := capable
  writer := true
  tty := .unknown
  policy := .display
  statusLine := false
  wasBlocked := !capable
  haveState := false
  rows := 0
  cols := 0
  hostCursor := (0, 0)
  modeBlocked := false
  hiddenStreak := 0
  hiddenSince := none
  appliedState := 0
  snap := ⟨[], none⟩
  row := 0
  view := []
  cursor := none
  staleUntil := none
  lastInputEnd := 0
  covered := 0
  lastReportKey := none
  held := none
  pending := []
  epoch := 0
  confirmedEpochs := []
  wrongRun := 0
  suspended := false
  undrawnConfirms := 0
  glitch := false
  repairRun := 0
  carry := []
  inPaste := false
  now := none
  stats := ⟨0, 0, 0, 0⟩

/-! ## Outputs -/

variable (s : Predictor)

/-- Why nothing may be predicted now, if anything forbids it. -/
def blocked : Option Block :=
  if !s.capable then some .noCapability
  else if !s.writer then some .readOnly
  else if s.tty = .secret then some .secret
  else if s.modeBlocked then some .fullScreenApp
  else none

def effectiveMode : Prediction :=
  let base := if s.glitch then .underline else s.policy
  if base ≠ .off ∧ s.statusLine then .underline else base

def drawn (underline : Bool) (cell : Cell) (fresh : Bool) : Cell :=
  if underline && fresh then { cell with flags := cell.flags ||| UNDERLINE } else cell

/-- The cells and the cursor that the predictions show. -/
def overlay : Overlay :=
  let mode := s.effectiveMode
  if s.blocked.isSome ∨ s.suspended ∨ mode = .off then .empty
  else
    let blank : Canvas :=
      { cells := List.replicate s.cols .blank, written := List.replicate s.cols false }
    let (canvas, cursor) := s.pending.foldl
      (fun (canvas, cursor) p =>
        -- a tentative epoch is not drawn
        if p.epoch ∈ s.confirmedEpochs then
          (putPred s.cols (drawn (mode = .underline)) canvas p, some (s.row, p.cursorAfter))
        else (canvas, cursor))
      (blank, none)
    { cells := ((canvas.cells.zip canvas.written).zipIdx.filter fun c => c.1.2).map
        fun c => { row := s.row, col := c.2, cell := c.1.1 }
      cursor := cursor }

/-! ## Clock, blocking and epochs -/

/-- Takes the time, and notes a prediction that waits too long. -/
def tick (now : Nat) : Predictor :=
  let s := { s with now := some now }
  match s.pending.head? with
  | some p => if GLITCH_AFTER < now - p.madeAt then { s with glitch := true, repairRun := 0 } else s
  | none => s

def pruneEpochs : Predictor :=
  let oldest :=
    match s.pending.head? with
    | some p => p.epoch
    | none => s.epoch
  { s with confirmedEpochs := s.confirmedEpochs.filter (oldest ≤ ·) }

/-- Drops every prediction and waits for the input so far. -/
def discardAll : Predictor :=
  let staleUntil :=
    match s.pending.getLast? with
    | some p => some (laterEnd s.staleUntil p.inputEnd)
    | none => s.staleUntil
  { s with staleUntil, pending := [], epoch := s.epoch + 1, cursor := none }.pruneEpochs

/-- A key that is not predicted: later ones wait for its echo. -/
def breakEpoch (e : Nat) : Predictor :=
  { s with
    epoch := s.epoch + 1
    staleUntil := some (laterEnd s.staleUntil e)
    cursor := none }.pruneEpochs

/-- Drops the predictions when a block starts. -/
def checkBlock : Predictor :=
  let b := s.blocked.isSome
  let s := if b ∧ !s.wasBlocked then s.discardAll else s
  { s with wasBlocked := b }

/-! ## Judging -/

def hostCells (row : Nat) : Option (List Cell) :=
  if row = s.hostCursor.1 then some s.snap.cursorRowCells
  else
    match s.snap.predRow with
    | some (r, cells) => if r = row then some cells else none
    | none => none

/-- The row as it will be, from the host's row and the predictions. -/
def rebuildView : Predictor :=
  let host := (s.hostCells s.row).getD []
  let view := host.take s.cols ++ List.replicate (s.cols - host.length) .blank
  let canvas := s.pending.foldl (putPred s.cols fun cell _ => cell)
    { cells := view, written := List.replicate s.cols false }
  { s with view := canvas.cells }

/-- The verdict on one prediction, the later ones apart. -/
def verdictOwn (p : Pred) (later : List Pred) : Verdict :=
  let covered := p.inputEnd ≤ s.covered
  match p.kind with
  | .left | .right =>
      if ¬covered then .pending
      else if s.hostCursor.1 = s.row ∧ (p :: later).any (·.cursorAfter = s.hostCursor.2) then
        .matched false
      else .wrong
  | kind =>
      let blank := isBlank p.expect
      if (blank ∨ kind = .backspace) ∧ ¬covered then .pending
      else
        let col := p.primary.getD 0
        let host := (((s.hostCells s.row).bind (·[col]?)).map (·.text)).getD []
        if textEq host p.expect then .matched (!blank && kind = .insert)
        -- a hidden cursor is a shell in the middle of redrawing its line
        else if covered ∧ s.hiddenStreak = 0 then .wrong
        else .pending

def overwrites (p q : Pred) : Bool :=
  match p.primary, q.touch with
  | some col, some (a, b) => a ≤ col && col ≤ b
  | _, _ => false

/-- The verdicts of one pass, from the back: a prediction that a later one
overwrites follows the fate of the last such one. -/
def verdicts (s : Predictor) : List Pred → List (Pred × Verdict)
  | [] => []
  | p :: later =>
      let rest := s.verdicts later
      let v :=
        match (rest.filter fun q => overwrites p q.1).getLast? with
        | some (_, .matched _) => .matched false
        | some _ => .pending
        | none => s.verdictOwn p later
      (p, v) :: rest

def unseen (p : Pred) : Bool :=
  (p.kind = .insert || p.kind = .backspace) && (isBlank p.expect || p.kind = .backspace) &&
    s.covered < p.inputEnd

/-- The host applies input in order, so a cell that shows a later key settles
the earlier predictions that wait only because they cannot be seen. -/
def settle (s : Predictor) : List (Pred × Verdict) → List (Pred × Verdict)
  | [] => []
  | (p, v) :: rest =>
      let v :=
        if rest.any (fun q => q.2 = .matched true) ∧ v = .pending ∧ s.unseen p then
          .matched false
        else v
      (p, v) :: s.settle rest

def countUndrawn : Predictor :=
  if !s.suspended then s
  else if REENABLE_CONFIRMS ≤ s.undrawnConfirms + 1 then
    { s with suspended := false, undrawnConfirms := 0 }
  else { s with undrawnConfirms := s.undrawnConfirms + 1 }

/-- A late confirmation forces underlining, and prompt ones in a row end it. -/
def noteDelay (delay : Nat) : Predictor :=
  if GLITCH_AFTER < delay then { s with glitch := true, repairRun := 0 }
  else if !s.glitch then s
  else if PREDICT_ON_ABOVE < delay then { s with repairRun := 0 }
  else if GLITCH_REPAIR ≤ s.repairRun + 1 then { s with glitch := false, repairRun := 0 }
  else { s with repairRun := s.repairRun + 1 }

/-- Counts a prediction that came true and ends the doubt about its epoch. -/
def confirm (p : Pred) (now : Nat) : Predictor :=
  let s :=
    { s with
      stats := { s.stats with confirmed := s.stats.confirmed + 1 }
      confirmedEpochs :=
        if p.epoch ∈ s.confirmedEpochs then s.confirmedEpochs
        else s.confirmedEpochs ++ [p.epoch]
      wrongRun := 0 }
  s.countUndrawn.noteDelay (now - p.madeAt)

/-- Counts a wrong prediction; several in a row suspend the display. -/
def mispredict : Predictor :=
  { s with
    stats := { s.stats with mispredicted := s.stats.mispredicted + 1 }
    wrongRun := s.wrongRun + 1
    undrawnConfirms := 0
    suspended := s.suspended || MISPREDICT_SUSPEND ≤ s.wrongRun + 1 }

structure Sweep where
  predictor : Predictor
  keep : List Pred
  changed : Bool
  droppedEnd : Option Nat

/-- One judged prediction: it stays, it is confirmed, or it is wrong and takes
every later one with it. -/
def sweepOne (now : Nat) (w : Sweep) : Pred × Verdict → Sweep
  | (p, v) =>
      match w.droppedEnd with
      | some e => { w with droppedEnd := some (max e p.inputEnd), changed := true }
      | none =>
          match v with
          | .pending => { w with keep := w.keep ++ [p] }
          | .matched evidence =>
              { w with
                changed := true
                predictor := if evidence then w.predictor.confirm p now else w.predictor }
          | .wrong =>
              { w with
                changed := true
                droppedEnd := some p.inputEnd
                predictor := w.predictor.mispredict }

/-- One pass over the pending predictions, and whether anything changed. -/
def resolve : Predictor × Bool :=
  match s.pending, s.now with
  | _ :: _, some now =>
      let judged := s.settle (s.verdicts s.pending)
      let w := judged.foldl (sweepOne now) ⟨s, [], false, none⟩
      let s := { w.predictor with pending := w.keep }
      match w.droppedEnd with
      | some e =>
          ({ s with
            epoch := s.epoch + 1
            staleUntil := some (laterEnd s.staleUntil e)
            cursor := none }, w.changed)
      | none => (s, w.changed)
  | _, _ => (s, false)

def resolveAll : Nat → Predictor → Predictor
  | 0, s => s
  | n + 1, s =>
      match s.resolve with
      | (s, true) => resolveAll n s
      | (s, false) => s

/-- The host's cursor is where no pending prediction can have put it. -/
def displaced : Bool :=
  match s.pending with
  | [] => false
  | p :: _ =>
      let (hr, hc) := s.hostCursor
      -- the host paints cells before it moves the cursor
      let lagging := p.cursorBefore = hc + 1
      !(hr = s.row && (hc = p.cursorBefore || lagging || s.pending.any (·.cursorAfter = hc)))

/-- With nothing pending, starts again from the host's cursor. -/
def resync : Predictor :=
  let staleUntil := if s.staleUntil.any (· ≤ s.covered) then none else s.staleUntil
  { s with
    row := if s.pending.isEmpty then s.hostCursor.1 else s.row
    staleUntil
    cursor :=
      if !s.pending.isEmpty then s.cursor
      else if staleUntil.isNone then some s.hostCursor
      else none }

/-- Judge the pending predictions against the host snapshot, drop the ones the
host moved away from, and take over its cursor. -/
def reconcile : Predictor :=
  if !s.haveState then s
  else if s.blocked.isSome then { s with row := s.hostCursor.1 }.rebuildView
  else
    let s := s.resolveAll (s.pending.length + 1)
    let s := if s.displaced then s.discardAll else s
    s.resync.pruneEpochs.rebuildView

/-! ## Inputs from the host -/

/-- Takes the cursor, the modes and the rows of a new state. -/
def adopt (state : ScreenState) (stateNum now : Nat) : Predictor :=
  let hidden := state.modes.flags &&& CURSOR_HIDDEN != 0
  let hiddenStreak := if hidden then min 255 (s.hiddenStreak + 1) else 0
  let hiddenSince := if hidden then some (s.hiddenSince.getD now) else none
  let hiddenLong := HIDDEN_CURSOR_STATES ≤ hiddenStreak &&
    hiddenSince.any fun t => HIDDEN_CURSOR_HOLD ≤ now - t
  let rowCells := fun r : Nat => state.grid[r]?.map (·.cells)
  { s with
    haveState := true
    rows := state.rows
    cols := state.cols
    hostCursor := (state.cursorRow, state.cursorCol)
    appliedState := max s.appliedState stateNum
    hiddenStreak
    hiddenSince
    modeBlocked := state.modes.flags &&& ALT_SCREEN != 0 || state.modes.mouseMode != 0 || hiddenLong
    snap :=
      { cursorRowCells := (rowCells state.cursorRow).getD []
        predRow :=
          if s.pending.isEmpty ∨ s.row = state.cursorRow then none
          else (rowCells s.row).map fun cells => (s.row, cells) } }

/-- Heeds an echo report that waited for its state. -/
def releaseHeld : Predictor :=
  match s.held with
  | some h =>
      if h.stateNum ≤ s.appliedState then
        { s with held := none, covered := max s.covered h.inputSeq }
      else s
  | none => s

/-- A screen state has arrived. -/
def onState (state : ScreenState) (stateNum now : Nat) : Predictor :=
  let s := s.tick now
  let s :=
    if s.haveState ∧ (state.rows ≠ s.rows ∨ state.cols ≠ s.cols) then s.discardAll else s
  (s.adopt state stateNum now).releaseHeld.checkBlock.reconcile

def isStale (report : EchoReport) : Bool :=
  s.lastReportKey.any fun (stateNum, inputSeq) =>
    report.stateNum < stateNum || (report.stateNum = stateNum && report.inputSeq ≤ inputSeq)

/-- Take a report: its tty state counts at once, the input it covers only when
its state has been applied. -/
def takeReport (report : EchoReport) : Predictor :=
  let s :=
    { s with lastReportKey := some (report.stateNum, report.inputSeq), tty := report.tty }
  if s.appliedState < report.stateNum then { s with held := some report }.checkBlock
  else { s with covered := max s.covered report.inputSeq }.checkBlock.reconcile

/-- An echo report has arrived. -/
def onEcho (report : EchoReport) (now : Nat) : Predictor :=
  let s := s.tick now
  if s.lastInputEnd < report.inputSeq then
    { s with stats := { s.stats with echoRejected := s.stats.echoRejected + 1 } }
  else if s.isStale report then
    { s with stats := { s.stats with echoStale := s.stats.echoStale + 1 } }
  else s.takeReport report

def onPolicy (policy : Prediction) : Predictor :=
  { s with policy }

def onStatusLine (up : Bool) : Predictor :=
  { s with statusLine := up }

def onWriter (writer : Bool) : Predictor :=
  { s with writer }.checkBlock.reconcile

def onLegChange : Predictor :=
  { s with
    epoch := s.epoch + 1
    appliedState := 0
    held := none
    lastReportKey := none }

def onTick (now : Nat) : Predictor :=
  s.tick now

/-! ## Making predictions -/

def viewAt (k : Nat) : Cell :=
  s.view.getD k .blank

def lastOccupiedFrom (c : Nat) : Option Nat :=
  ((List.range s.view.length).filter fun k =>
    c ≤ k && ((s.viewAt k).text ≠ [] || hasFlag (s.viewAt k) WIDE_CONT)).getLast?

def base (kind : Kind) (cursorBefore cursorAfter now : Nat) : Pred where
  kind := kind
  epoch := 0
  inputEnd := 0
  madeAt := now
  primary := none
  expect := []
  touch := none
  cursorBefore := cursorBefore
  cursorAfter := cursorAfter
  cells := []

def cellsOf (row : List Cell) (lo hi : Nat) (fresh : Nat → Bool) : List (Nat × Cell × Bool) :=
  (List.range' lo (hi + 1 - lo)).map fun k => (k, row.getD k .blank, fresh k)

/-- The row with what stands at columns `c` to `e` moved right by `w`.  A lead
that loses its right half at the edge goes. -/
def shiftedRight (c w e : Nat) : List Cell :=
  let cols := s.view.length
  let out := s.view.mapIdx fun m cell =>
    if c + w ≤ m ∧ m ≤ e + w then s.viewAt (m - w) else cell
  if hasFlag (out.getD (cols - 1) .blank) WIDE then out.set (cols - 1) .blank else out

/-- The prediction for a typed character. -/
def buildInsert (W : Widths) (s : Predictor) (ch : Char) (c now : Nat) : Option Pred :=
  match predictableWidth W ch with
  | none => none
  | some w =>
      let cols := s.view.length
      -- the next character must not be able to wrap
      if cols ≤ c + w ∨ hasFlag (s.viewAt c) WIDE_CONT then none
      else
        let left := if 0 < c then s.viewAt (c - 1) else .blank
        let flags := left.flags &&& ~~~(WIDE ||| WIDE_CONT)
        let last := s.lastOccupiedFrom c
        let out :=
          match last with
          | some e => s.shiftedRight c w e
          | none => s.view
        let lead : Cell :=
          { text := [ch], fg := left.fg, bg := left.bg,
            flags := if w = 2 then flags ||| WIDE else flags }
        let half : Cell :=
          { text := [], fg := left.fg, bg := left.bg, flags := flags ||| WIDE_CONT }
        let out := out.set c lead
        let out := if w = 2 then out.set (c + 1) half else out
        let hi :=
          match last with
          | some e => min (max (e + w) (c + w - 1)) (cols - 1)
          | none => min (c + w - 1) (cols - 1)
        some
          { base .insert c (c + w) now with
            primary := some c
            expect := [ch]
            touch := some (c, hi)
            cells := cellsOf out c hi fun k => k < c + w }

/-- How wide the character left of column `c` is, if it can be removed. -/
def widthBefore (c : Nat) : Option Nat :=
  if c = 0 ∨ s.view.length ≤ c - 1 then none
  else if hasFlag (s.viewAt (c - 1)) WIDE_CONT then
    if c < 2 ∨ !hasFlag (s.viewAt (c - 2)) WIDE then none else some 2
  else if (s.viewAt (c - 1)).text = [] then none
  else some 1

/-- The prediction for a backspace. -/
def buildBackspace (c now : Nat) : Option Pred :=
  match s.widthBefore c with
  | none => none
  | some w =>
      let start := c - w
      let (out, hi) :=
        match s.lastOccupiedFrom c with
        | some e =>
            (s.view.mapIdx fun m cell =>
              if start ≤ m ∧ m ≤ e - w then s.viewAt (m + w)
              else if e + 1 - w ≤ m ∧ m ≤ e then .blank
              else cell, e)
        | none =>
            (s.view.mapIdx fun m cell => if start ≤ m ∧ m < c then .blank else cell, c - 1)
      some
        { base .backspace c start now with
          primary := some start
          expect := (out.getD start .blank).text
          touch := some (start, hi)
          cells := cellsOf out start hi fun _ => false }

def buildLeft (c now : Nat) : Option Pred :=
  if c = 0 ∨ s.view.length ≤ c - 1 then none
  else if hasFlag (s.viewAt (c - 1)) WIDE_CONT then
    if c < 2 then none else some (base .left c (c - 2) now)
  else if (s.viewAt (c - 1)).text = [] then none
  else some (base .left c (c - 1) now)

def buildRight (c now : Nat) : Option Pred :=
  if s.view.length ≤ c ∨ (s.viewAt c).text = [] then none
  else
    let t := c + if hasFlag (s.viewAt c) WIDE then 2 else 1
    if t < s.view.length then some (base .right c t now) else none

def build (W : Widths) (s : Predictor) (ev : Ev) (c now : Nat) : Option Pred :=
  match ev with
  | .char ch => s.buildInsert W ch c now
  | .backspace => s.buildBackspace c now
  | .left => s.buildLeft c now
  | .right => s.buildRight c now
  | .breaks => none

/-- Where a prediction may be made: the predicted cursor, in the row of the
view, with nothing that speaks against it. -/
def predictAt : Option (Nat × Nat) :=
  if s.blocked.isSome ∨ s.staleUntil.isSome ∨ !s.haveState then none
  else
    match s.cursor with
    | none => none
    | some (r, c) => if MAX_PENDING ≤ s.pending.length ∨ r ≠ s.row then none else some (r, c)

def push (r : Nat) (p : Pred) : Predictor :=
  { s with
    view := p.cells.foldl (fun view (col, cell, _) => view.set col cell) s.view
    cursor := some (r, p.cursorAfter)
    pending := s.pending ++ [p] }

/-- Predicts a key, if the row and the cursor are known. -/
def tryPredict (W : Widths) (s : Predictor) (ev : Ev) (e now : Nat) : Option Predictor :=
  match s.predictAt with
  | none => none
  | some (r, c) =>
      match s.build W ev c now with
      | none => none
      | some p => some (s.push r { p with epoch := s.epoch, inputEnd := e })

def onKey (W : Widths) (now : Nat) (s : Predictor) : Ev × Nat → Predictor
  | (ev, e) =>
      match s.tryPredict W ev e now with
      | some s => s
      | none => s.breakEpoch e

/-- Input is sent: each of its keys is predicted or ends the epoch. -/
def onInput (W : Widths) (s : Predictor) (bytes : List UInt8) (inputEnd now : Nat) : Predictor :=
  let s := s.tick now
  let s := { s with lastInputEnd := max s.lastInputEnd inputEnd }
  let parsed := parseRead s.carry bytes s.inPaste inputEnd
  parsed.keys.foldl (onKey W now) { s with carry := parsed.carry, inPaste := parsed.inPaste }

end Predictor

end Qsh.Client
