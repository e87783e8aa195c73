import Qsh.Client.SecretInput
import Qsh.Client.Render

/-!
# The drawing state of an attach

`ScreenSink` (`ops/session/screen_sink.rs`), with the two parts it draws over the
host screen: the predictor behind its driver (`client/predict_drive.rs`) and the
connection status line (`client/linkstatus.rs`).

A method of the source takes the lock, changes the state, and returns the bytes
to write and the offset to stamp them with.  The link record is shared with the
rest of the attach, so a method is given the snapshot that it takes.  Instants and
durations are `Nat`, in nanoseconds.

`SinkEnv` is left to the environment: whether the process has the adaptive policy
on, and the smoothing of round trips, which the source does in floating point.
-/

namespace Qsh.Client

open Qsh.Screen (Text ScreenState Effect)

def SECOND : Nat := 1000 * MILLISECOND

structure SinkEnv where
  widths : Widths
  /-- `[transport].adaptive` of the process. -/
  adaptive : Bool
  /-- The smoothed round trip after one more sample. -/
  smooth : (previous sample : Nat) → Nat

/-! ## The status line -/

def SHOW_FLOOR : Nat := 2 * SECOND

/-- When the host last answered and since when it is waited for. -/
structure LinkStatus where
  lastReply : Nat
  /-- The oldest send that nothing has answered since. -/
  waitingSince : Option Nat
  /-- The recovery attempt in progress. -/
  recovering : Option Nat
  deriving DecidableEq, Repr

namespace LinkStatus

def new (now : Nat) : LinkStatus where
  lastReply := now
  waitingSince := none
  recovering := none

def sent (s : LinkStatus) (now : Nat) : LinkStatus :=
  if s.waitingSince = none then { s with waitingSince := some now } else s

def reply (s : LinkStatus) (instant : Nat) : LinkStatus :=
  { s with lastReply := max s.lastReply instant, waitingSince := none }

def setRecovering (s : LinkStatus) (attempt : Option Nat) : LinkStatus :=
  { s with recovering := attempt }

end LinkStatus

def showAfter (srtt : Option Nat) : Nat :=
  match srtt with
  | none => SHOW_FLOOR
  | some s => max SHOW_FLOOR (s * 4)

/-- Whether a wait or a recovery calls for the status line. -/
def wantsLine (link : LinkStatus) (srtt : Option Nat) (now : Nat) : Bool :=
  link.recovering.isSome || link.waitingSince.any fun w => showAfter srtt ≤ now - w

structure LinkLine where
  /-- The escape character that the guidance names. -/
  escape : Option UInt8
  text : Option Text
  deriving DecidableEq, Repr

namespace LinkLine

def new (escape : Option UInt8) : LinkLine where
  escape := escape
  text := none

def visible (l : LinkLine) : Bool :=
  l.text.isSome

def guidance (escape : Option UInt8) : Text :=
  match escape.filter fun e => 0x21 ≤ e && e ≤ 0x7e with
  | none => []
  | some e =>
      let e := Char.ofNat e.toNat
      [';', ' ', e, '.', ' ', 't', 'o', ' ', 'q', 'u', 'i', 't', ',', ' ', e, 'd', ' ', 't', 'o',
        ' ', 'd', 'e', 't', 'a', 'c', 'h']

def attemptText (recovering : Option Nat) : Text :=
  match recovering with
  | none => []
  | some attempt =>
      [',', ' ', 'r', 'e', 'c', 'o', 'n', 'n', 'e', 'c', 't', 'i', 'n', 'g', ' ', '(', 'a', 't',
        't', 'e', 'm', 'p', 't', ' '] ++ Nat.toDigits 10 attempt ++ [')']

def compose (l : LinkLine) (link : LinkStatus) (now : Nat) : Text :=
  ['q', 's', 'h', ':', ' ', 'l', 'a', 's', 't', ' ', 'r', 'e', 'p', 'l', 'y', ' '] ++
    Nat.toDigits 10 ((now - link.lastReply) / SECOND) ++ ['s', ' ', 'a', 'g', 'o'] ++
    attemptText link.recovering ++ guidance l.escape

def update (l : LinkLine) (link : LinkStatus) (srtt : Option Nat) (now : Nat) : LinkLine :=
  { l with text := if wantsLine link srtt now then some (l.compose link now) else none }

end LinkLine

/-! ## The policy of the reverse route -/

inductive PredictMode
  | auto
  | always
  | never
  deriving DecidableEq, Repr

inductive PredictPin
  | always
  | never
  deriving DecidableEq, Repr

def PredictMode.pin : PredictMode → Option PredictPin
  | .auto => none
  | .always => some .always
  | .never => some .never

def PREDICT_OFF_BELOW : Nat := 20 * MILLISECOND

def UNDERLINE_ON_ABOVE : Nat := 80 * MILLISECOND

def UNDERLINE_OFF_BELOW : Nat := 50 * MILLISECOND

def TICK : Nat := SECOND

def SENT_TIMES_MAX : Nat := 64

namespace Prediction

def atLeastDisplay : Prediction → Prediction
  | .off => .display
  | p => p

def atMostDisplay : Prediction → Prediction
  | .underline => .display
  | p => p

/-- The policy for a round trip, with hysteresis. -/
def byRtt (srtt : Nat) (previous : Prediction) : Prediction :=
  if UNDERLINE_ON_ABOVE < srtt then .underline
  else if PREDICT_ON_ABOVE < srtt then
    if previous = .underline ∧ UNDERLINE_OFF_BELOW ≤ srtt then .underline else .display
  else if srtt < PREDICT_OFF_BELOW then .off
  else previous.atMostDisplay

def decided (adaptive : Bool) (pin : Option PredictPin) (srtt : Nat) (previous : Prediction) :
    Prediction :=
  match pin with
  | some .always => (byRtt srtt previous).atLeastDisplay
  | some .never => .off
  | none => if adaptive then byRtt srtt previous else .off

end Prediction

/-- The round trip of the input, from its acks. -/
structure InputRtt where
  pin : Option PredictPin
  /-- End offset and time of the input that no ack covers yet. -/
  sentTimes : List (Nat × Nat)
  srtt : Option Nat
  prediction : Prediction
  decidedAt : Option Nat
  deriving DecidableEq, Repr

namespace InputRtt

def new (pin : Option PredictPin) : InputRtt where
  pin := pin
  sentTimes := []
  srtt := none
  prediction := .off
  decidedAt := none

def sent (r : InputRtt) (e now : Nat) : InputRtt :=
  if r.sentTimes.getLast?.any fun p => e ≤ p.1 then r
  else
    let kept := if r.sentTimes.length = SENT_TIMES_MAX then r.sentTimes.drop 1 else r.sentTimes
    { r with sentTimes := kept ++ [(e, now)] }

def sampled (E : SinkEnv) (r : InputRtt) (sample : Nat) : Nat :=
  match r.srtt with
  | none => sample
  | some previous => E.smooth previous sample

/-- Takes a sample from an ack, and decides the policy anew. -/
def acked (E : SinkEnv) (r : InputRtt) (acked now : Nat) : InputRtt × Option Prediction :=
  let kept := { r with sentTimes := r.sentTimes.dropWhile (·.1 ≤ acked) }
  match (r.sentTimes.takeWhile (·.1 ≤ acked)).getLast? with
  | none => (kept, none)
  | some newest =>
      let srtt := r.sampled E (now - newest.2)
      if r.decidedAt.any fun t => now - t < TICK then ({ kept with srtt := some srtt }, none)
      else
        let prediction := Prediction.decided E.adaptive r.pin srtt r.prediction
        ({ kept with srtt := some srtt, prediction, decidedAt := some now }, some prediction)

end InputRtt

/-! ## The predictor of an attach -/

/-- The predictor with the mode and the policy. -/
structure PredictDriver where
  predictor : Predictor
  mode : PredictMode
  rtt : Option InputRtt

namespace PredictDriver

def setPolicy (d : PredictDriver) (policy : Prediction) : PredictDriver :=
  let policy := if d.mode = .always then policy.atLeastDisplay else policy
  { d with predictor := d.predictor.onPolicy policy }

def new (mode : PredictMode) (capable reverse : Bool) : Option PredictDriver :=
  if mode = .never then none
  else
    some <| setPolicy
      { predictor := .new capable
        mode
        rtt := if reverse then some (.new mode.pin) else none } .off

def onInput (E : SinkEnv) (d : PredictDriver) (bytes : List UInt8) (e now : Nat) : PredictDriver :=
  { d with
    rtt := d.rtt.map (·.sent e now)
    predictor := d.predictor.onInput E.widths bytes e now }

def onInputAck (E : SinkEnv) (d : PredictDriver) (acked now : Nat) : PredictDriver :=
  match d.rtt with
  | none => d
  | some rtt =>
      match rtt.acked E acked now with
      | (rtt, none) => { d with rtt := some rtt }
      | (rtt, some policy) => setPolicy { d with rtt := some rtt } policy

def onState (d : PredictDriver) (state : ScreenState) (stateNum now : Nat) : PredictDriver :=
  { d with predictor := d.predictor.onState state stateNum now }

def onEcho (d : PredictDriver) (echo : ScreenEcho) (now : Nat) : PredictDriver :=
  { d with predictor := d.predictor.onEcho echo.report now }

def onLegChange (d : PredictDriver) : PredictDriver :=
  { d with predictor := d.predictor.onLegChange }

def onWriter (d : PredictDriver) (writer : Bool) : PredictDriver :=
  { d with predictor := d.predictor.onWriter writer }

def onStatusLine (d : PredictDriver) (up : Bool) : PredictDriver :=
  { d with predictor := d.predictor.onStatusLine up }

def onTick (d : PredictDriver) (now : Nat) : PredictDriver :=
  { d with predictor := d.predictor.onTick now }

def overlay (d : PredictDriver) : Overlay :=
  d.predictor.overlay

def inputSrtt (d : PredictDriver) : Option Nat :=
  d.rtt.bind (·.srtt)

end PredictDriver

/-! ## The writer lease -/

structure WriterTrack where
  held : Bool
  me : Option String
  deriving DecidableEq, Repr

namespace WriterTrack

def attached (w : WriterTrack) (held : Bool) : WriterTrack :=
  { w with held }

def changed (w : WriterTrack) (new : Option String) : WriterTrack :=
  match new with
  | none => { w with held := false }
  | some p =>
      -- the first event names the attach that holds the lease
      let me := if w.me = none ∧ w.held = true then some p else w.me
      { held := me.elim w.held (p == ·), me }

end WriterTrack

/-! ## The sink -/

/-- The status line and the smoothed round trip of the forward route. -/
structure SinkStatus where
  line : LinkLine
  srtt : Option Nat
  deriving DecidableEq, Repr

structure ScreenOutput where
  sequence : Nat
  data : Text
  deriving DecidableEq, Repr

/-- The renderer, the predictor and the status line of one terminal. -/
structure ScreenSink where
  renderer : ScreenRenderer
  /-- The local window, (columns, rows). -/
  window : Nat × Nat
  /-- The state last drawn. -/
  last : Option ScreenState
  /-- The output offset of the last drawn state. -/
  seq : Nat
  predict : Option PredictDriver
  status : Option SinkStatus
  writer : WriterTrack

namespace ScreenSink

def new (cols rows : Nat) (predict : Option PredictDriver) (escape : Option (Option UInt8)) :
    ScreenSink where
  renderer := .new
  window := (max cols 1, max rows 1)
  last := none
  seq := 0
  predict := predict
  status := escape.map fun escape => ⟨.new escape, none⟩
  writer := ⟨false, none⟩

def srtt (s : ScreenSink) : Option Nat :=
  (s.status.bind (·.srtt)).or (s.predict.bind (·.inputSrtt))

variable (s : ScreenSink) (link : LinkStatus)

def refreshStatus (now : Nat) : ScreenSink :=
  match s.status with
  | none => s
  | some st =>
      let line := st.line.update link s.srtt now
      { s with
        status := some { st with line }
        predict :=
          if st.line.visible ≠ line.visible then s.predict.map (·.onStatusLine line.visible)
          else s.predict }

def overlay (s : ScreenSink) : Option Overlay :=
  s.predict.map (·.overlay)

def statusText : Option Text :=
  s.status.bind (·.line.text)

/-- Draws a state with the overlay and the status line of now. -/
def paint (state : ScreenState) (effects : List Effect) (now : Nat) : ScreenSink × Text :=
  let s := s.refreshStatus link now
  let drawn := s.renderer.compose state s.overlay s.statusText effects s.window
  ({ s with renderer := drawn.1 }, drawn.2)

def paintLast (now : Nat) : ScreenSink × Text :=
  match s.last with
  | none => (s, [])
  | some state => s.paint link state [] now

def stamp (drawn : ScreenSink × Text) : ScreenSink × ScreenOutput :=
  (drawn.1, ⟨drawn.1.seq, drawn.2⟩)

def repaint (now : Nat) : ScreenSink × ScreenOutput :=
  stamp (if s.predict.isNone && s.status.isNone then (s, []) else s.paintLast link now)

/-- A new state of the host's screen. -/
def draw (state : ScreenState) (effects : List Effect)
    (outputSeq stateNum now : Nat) : ScreenSink × ScreenOutput :=
  let s : ScreenSink := { s with predict := s.predict.map (·.onState state stateNum now) }
  let drawn := s.paint link state effects now
  stamp ({ drawn.1 with last := some state, seq := max s.seq outputSeq }, drawn.2)

def history (s : ScreenSink) (link : LinkStatus) (lines : List Text) (skipped now : Nat) :
    ScreenSink × ScreenOutput :=
  let written := s.renderer.history lines skipped s.window
  let s : ScreenSink := { s with renderer := written.1 }
  if written.2 = [] then stamp (s, [])
  else
    let drawn := s.paintLast link now
    stamp (drawn.1, written.2 ++ drawn.2)

def resizes (cols rows : Nat) : Bool :=
  s.window ≠ (max cols 1, max rows 1)

/-- The local window has changed. -/
def setLocal (cols rows now : Nat) :
    ScreenSink × ScreenOutput :=
  if s.resizes cols rows then
    stamp (paintLast { s with
      window := (max cols 1, max rows 1), renderer := s.renderer.invalidate } link now)
  else stamp (s, [])

/-- A new leg draws everything again. -/
def newLeg (writer : Bool) : ScreenSink :=
  { s with
    renderer := s.renderer.invalidate
    writer := s.writer.attached writer
    predict := s.predict.map fun p => p.onLegChange.onWriter writer }

def writerChanged (newWriter : Option String) (now : Nat) :
    ScreenSink × ScreenOutput :=
  let writer := s.writer.changed newWriter
  repaint { s with writer, predict := s.predict.map (·.onWriter writer.held) } link now

/-- Changes the predictor, then draws what that changed. -/
def withPredictor (now : Nat)
    (change : PredictDriver → PredictDriver) : ScreenSink × ScreenOutput :=
  match s.predict with
  | none => stamp (s, [])
  | some p => repaint { s with predict := some (change p) } link now

def input (E : SinkEnv) (s : ScreenSink) (link : LinkStatus) (data : List UInt8) (e now : Nat) :
    ScreenSink × ScreenOutput :=
  s.withPredictor link now (·.onInput E data e now)

def echo (s : ScreenSink) (link : LinkStatus) (echo : ScreenEcho) (now : Nat) :
    ScreenSink × ScreenOutput :=
  s.withPredictor link now (·.onEcho echo now)

def inputAck (E : SinkEnv) (s : ScreenSink) (link : LinkStatus) (acked now : Nat) :
    ScreenSink × ScreenOutput :=
  s.withPredictor link now (·.onInputAck E acked now)

def setPolicy (s : ScreenSink) (policy : Prediction) : ScreenSink :=
  { s with predict := s.predict.map (·.setPolicy policy) }

def setSrtt (srtt : Option Nat) : ScreenSink :=
  { s with status := s.status.map fun st => { st with srtt } }

def tick (now : Nat) : ScreenSink × ScreenOutput :=
  repaint { s with predict := s.predict.map (·.onTick now) } link now

end ScreenSink

end Qsh.Client
