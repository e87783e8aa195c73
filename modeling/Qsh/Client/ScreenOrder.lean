import Qsh.Client.RenderRuns
import Qsh.Client.ScreenSink

/-!
# Screen bytes on their way to the terminal

Three tasks of a leg draw on one `ScreenSink`: the reader of the data stream
(`ops/session/drive.rs`), the input pump and the control pump
(`ops/session/pump.rs`).  Each calls a method of the sink under the sink's lock, and
sends the bytes to the event channel afterwards, without the lock.

`ScreenLeg` is the sink, the strings not sent yet, and the two lists that are compared:
what the renderer has made and what was put into the channel, both since the renderer
was last invalidated.

* `call_fits`: the string of a call takes a terminal that shows what the renderer
  believes to one that shows what it believes afterwards.
* `InOrder`: the sends are in the order of the calls, and the window does not change
  in between.  Nothing in the three tasks sees to that (`late_send_overwrites`).
-/

namespace Qsh.Client

open Qsh.Lib List
open Qsh.Screen (Text ScreenState Effect)

/-! ## Calls -/

inductive DrawTask
  | reader
  | input
  | control
  deriving DecidableEq, Repr

/-- A call of one of the three tasks on the sink. -/
inductive ScreenCall
  | draw (state : ScreenState) (effects : List Effect) (outputSeq stateNum now : Nat)
  | echo (echo : ScreenEcho) (now : Nat)
  | inputAck (acked now : Nat)
  | history (lines : List Text) (skipped now : Nat)
  | tick (now : Nat)
  | input (data : List UInt8) (inputEnd now : Nat)
  | setLocal (cols rows now : Nat)
  | writerChanged (newWriter : Option String) (now : Nat)
  deriving DecidableEq, Repr

namespace ScreenCall

def task : ScreenCall → DrawTask
  | .input .. | .setLocal .. => .input
  | .writerChanged .. => .control
  | _ => .reader

def effects : ScreenCall → List Effect
  | .draw _ effects _ _ _ => effects
  | _ => []

def invalidates (s : ScreenSink) : ScreenCall → Bool
  | .setLocal cols rows _ => s.resizes cols rows
  | _ => false

end ScreenCall

namespace ScreenSink

/-- The call, and the bytes it returns. -/
def call (E : SinkEnv) (s : ScreenSink) (link : LinkStatus) :
    ScreenCall → ScreenSink × ScreenOutput
  | .draw state effects outputSeq stateNum now => s.draw link state effects outputSeq stateNum now
  | .echo echo now => s.echo link echo now
  | .inputAck acked now => s.inputAck E link acked now
  | .history lines skipped now => s.history link lines skipped now
  | .tick now => s.tick link now
  | .input data inputEnd now => s.input E link data inputEnd now
  | .setLocal cols rows now => s.setLocal link cols rows now
  | .writerChanged newWriter now => s.writerChanged link newWriter now

/-! ## The sink and a terminal -/

def Feeds (W : Char → Nat) (s : ScreenSink) (effects : List Effect) : Prop :=
  ∀ state ∈ s.last, Terminal.Inputs W state s.overlay s.statusText effects

instance (W : Char → Nat) (state : ScreenState) (overlay : Option Overlay) (status : Option Text)
    (effects : List Effect) : Decidable (Terminal.Inputs W state overlay status effects) :=
  decidable_of_iff (StateOk W state ∧ (∀ o ∈ overlay, OverlayOk W o) ∧
      (∀ text ∈ status, StatusOk W text) ∧ ∀ e ∈ effects, e.IsValid)
    ⟨fun h => ⟨h.1, h.2.1, h.2.2.1, h.2.2.2⟩, fun h => ⟨h.state, h.overlay, h.status, h.effects⟩⟩

instance (W : Char → Nat) (s : ScreenSink) (effects : List Effect) :
    Decidable (s.Feeds W effects) :=
  inferInstanceAs (Decidable (∀ state ∈ s.last, _))

structure Fits (W : Char → Nat) (s : ScreenSink) (t : Terminal) : Prop where
  synced : Terminal.Synced W s.renderer t
  size : (t.cols, t.rows) = s.window

/-- The bytes take a terminal that fits `s` to one that fits `s'`. -/
def Carries (W : Char → Nat) (s s' : ScreenSink) (text : Text) : Prop :=
  ∀ t, s.Fits W t → ∃ u, Terminal.Shown W t text u ∧ s'.Fits W u

section Fits

variable {W : Char → Nat} {E : SinkEnv} {s s' s'' : ScreenSink} {link : LinkStatus}

theorem Fits.congr {t : Terminal} (h : s.Fits W t) (hrenderer : s'.renderer = s.renderer)
    (hwindow : s'.window = s.window) : s'.Fits W t :=
  ⟨hrenderer ▸ h.synced, hwindow ▸ h.size⟩

theorem Carries.nil (hrenderer : s'.renderer = s.renderer) (hwindow : s'.window = s.window) :
    Carries W s s' [] :=
  fun t h => ⟨t, .nil, h.congr hrenderer hwindow⟩

theorem Carries.append {a b : Text} (h : Carries W s s' a) (h' : Carries W s' s'' b) :
    Carries W s s'' (a ++ b) := by
  intro t ht
  obtain ⟨u, hu, hfits⟩ := h t ht
  obtain ⟨v, hv, hfits'⟩ := h' u hfits
  exact ⟨v, hu.append hv, hfits'⟩

theorem Carries.congr_left {text : Text} (h : Carries W s' s'' text)
    (hrenderer : s'.renderer = s.renderer) (hwindow : s'.window = s.window) :
    Carries W s s'' text :=
  fun t ht => h t (ht.congr hrenderer hwindow)

theorem refreshStatus_frame (s : ScreenSink) (link : LinkStatus) (now : Nat) :
    (s.refreshStatus link now).renderer = s.renderer ∧
      (s.refreshStatus link now).window = s.window ∧
      (s.refreshStatus link now).last = s.last := by
  rw [refreshStatus]
  split
  all_goals exact ⟨rfl, rfl, rfl⟩

theorem paintLast_window (s : ScreenSink) (link : LinkStatus) (now : Nat) :
    (s.paintLast link now).1.window = s.window := by
  rw [paintLast]
  split
  · rfl
  · exact (s.refreshStatus_frame link now).2.1

section

variable (hspace : W ' ' = 1)
include hspace

variable {state : ScreenState} {effects : List Effect} {now : Nat}

theorem paint_carries (hin : Terminal.Inputs W state (s.paint link state effects now).1.overlay
      (s.paint link state effects now).1.statusText effects) :
    Carries W s (s.paint link state effects now).1 (s.paint link state effects now).2 := by
  obtain ⟨hrenderer, hwindow, -⟩ := s.refreshStatus_frame link now
  intro t h
  have ht : (s.refreshStatus link now).Fits W t := h.congr hrenderer hwindow
  obtain ⟨u, hu, hmodes, hshows⟩ := Terminal.shown_compose hspace ht.synced hin
  have hsynced := ht.synced.compose hspace hin hu hmodes hshows
  have hkept := hu.kept ht.synced.sound
  rw [ht.size] at hu hsynced
  exact ⟨u, hu, hsynced, (congrArg₂ Prod.mk hkept.cols hkept.rows).trans ht.size⟩

theorem paintLast_carries (hfeeds : (s.paintLast link now).1.Feeds W []) :
    Carries W s (s.paintLast link now).1 (s.paintLast link now).2 := by
  rw [paintLast] at hfeeds ⊢
  split at hfeeds
  · exact .nil rfl rfl
  · next state hlast =>
    exact paint_carries hspace (hfeeds state ((s.refreshStatus_frame link now).2.2.trans hlast))

theorem repaint_carries (hfeeds : (s.repaint link now).1.Feeds W []) :
    Carries W s (s.repaint link now).1 (s.repaint link now).2.data := by
  rw [repaint] at hfeeds ⊢
  split
  · exact .nil rfl rfl
  · next hsome =>
    rw [if_neg hsome] at hfeeds
    exact paintLast_carries hspace hfeeds

theorem withPredictor_carries {change : PredictDriver → PredictDriver}
    (hfeeds : (s.withPredictor link now change).1.Feeds W []) :
    Carries W s (s.withPredictor link now change).1 (s.withPredictor link now change).2.data := by
  rw [withPredictor] at hfeeds ⊢
  split at hfeeds
  · exact .nil rfl rfl
  · exact (repaint_carries hspace hfeeds).congr_left rfl rfl

theorem history_carries {lines : List Text} {skipped : Nat}
    (hfeeds : (s.history link lines skipped now).1.Feeds W []) :
    Carries W s (s.history link lines skipped now).1 (s.history link lines skipped now).2.data := by
  -- the lines first
  have hlines : Carries W s { s with renderer := (s.renderer.history lines skipped s.window).1 }
      (s.renderer.history lines skipped s.window).2 := by
    intro t h
    obtain ⟨u, hu, hsynced⟩ := Terminal.shown_history h.synced lines skipped
    have hkept := hu.kept h.synced.sound
    rw [h.size] at hu hsynced
    exact ⟨u, hu, hsynced, (congrArg₂ Prod.mk hkept.cols hkept.rows).trans h.size⟩
  rw [history] at hfeeds ⊢
  by_cases hnone : (s.renderer.history lines skipped s.window).2 = []
  · rw [if_pos hnone]
    rw [hnone] at hlines
    exact hlines
  · rw [if_neg hnone] at hfeeds ⊢
    exact hlines.append (paintLast_carries hspace hfeeds)

theorem draw_carries {outputSeq stateNum : Nat}
    (hfeeds : (s.draw link state effects outputSeq stateNum now).1.Feeds W effects) :
    Carries W s (s.draw link state effects outputSeq stateNum now).1
      (s.draw link state effects outputSeq stateNum now).2.data := by
  let shown : ScreenSink := { s with predict := s.predict.map (·.onState state stateNum now) }
  have hpaint : Carries W shown (shown.paint link state effects now).1
      (shown.paint link state effects now).2 := paint_carries hspace (hfeeds state rfl)
  intro t ht
  obtain ⟨u, hu, hfits⟩ := hpaint t (ht.congr rfl rfl)
  exact ⟨u, hu, hfits.congr rfl rfl⟩

variable {c : ScreenCall}

theorem call_carries (hkeep : c.invalidates s = false)
    (hfeeds : (s.call E link c).1.Feeds W c.effects) :
    Carries W s (s.call E link c).1 (s.call E link c).2.data := by
  cases c with
  | draw state effects outputSeq stateNum now => exact draw_carries hspace hfeeds
  | history lines skipped now => exact history_carries hspace hfeeds
  | echo | inputAck | input => exact withPredictor_carries hspace hfeeds
  | tick | writerChanged => exact (repaint_carries hspace hfeeds).congr_left rfl rfl
  | setLocal cols rows now =>
    have hsame : s.call E link (.setLocal cols rows now) = stamp (s, []) :=
      if_neg (Bool.eq_false_iff.1 hkeep)
    rw [hsame]
    exact .nil rfl rfl

theorem call_invalidates (hinv : c.invalidates s = true)
    (hfeeds : (s.call E link c).1.Feeds W c.effects) {t : Terminal} (ht : t.Sound)
    (hsize : (t.cols, t.rows) = (s.call E link c).1.window)
    (hmodes : t.modes = Terminal.modesOf s.renderer.modes) :
    ∃ u, Terminal.Shown W t (s.call E link c).2.data u ∧ (s.call E link c).1.Fits W u := by
  cases c with
  | setLocal cols rows now =>
    let s' : ScreenSink :=
      { s with window := (max cols 1, max rows 1), renderer := s.renderer.invalidate }
    have hcall : s.call E link (.setLocal cols rows now) = stamp (s'.paintLast link now) :=
      if_pos hinv
    rw [hcall] at hfeeds hsize ⊢
    exact paintLast_carries hspace hfeeds t
      ⟨.forget ht hmodes rfl, hsize.trans (s'.paintLast_window link now)⟩
  | _ => exact absurd hinv Bool.false_ne_true

end

end Fits

end ScreenSink

/-! ## One leg -/

/-- The sink with the channel to the terminal. -/
structure ScreenLeg where
  sink : ScreenSink
  link : LinkStatus
  /-- What a task got from its call and has not sent, in the order of the calls. -/
  unsent : List (DrawTask × ScreenOutput)
  /-- What the renderer has made since it was last invalidated. -/
  made : List ScreenOutput
  /-- What was put into the channel since then. -/
  sent : List ScreenOutput
  /-- The modes that the renderer had set by then. -/
  base : Screen.Modes

inductive LegOp
  /-- A task calls a method of the sink. -/
  | call (call : ScreenCall)
  /-- A task puts the bytes of its call into the channel. -/
  | send (task : DrawTask)
  /-- The policy monitor. -/
  | policy (policy : Prediction)
  | srtt (srtt : Option Nat)
  /-- The link record. -/
  | linkSent (now : Nat)
  | linkReply (now : Nat)
  | recovering (attempt : Option Nat)
  deriving DecidableEq, Repr

namespace ScreenLeg

def start (sink : ScreenSink) (writer : Bool) (link : LinkStatus) : ScreenLeg where
  sink := sink.newLeg writer
  link := link
  unsent := []
  made := []
  sent := []
  base := sink.renderer.modes

def outputs (out : ScreenOutput) : List ScreenOutput :=
  if out.data = [] then [] else [out]

/-- One step of a task or of the terminal. -/
def step (E : SinkEnv) (x : ScreenLeg) : LegOp → Option ScreenLeg
  | .call c =>
      -- a task has sent the bytes of its last call
      if x.unsent.any (·.1 = c.task) then none
      else
        let called := x.sink.call E x.link c
        let fresh := c.invalidates x.sink
        some { x with
          sink := called.1
          unsent := x.unsent ++ (outputs called.2).map (c.task, ·)
          made := (if fresh then [] else x.made) ++ outputs called.2
          sent := if fresh then [] else x.sent
          base := if fresh then x.sink.renderer.modes else x.base }
  | .send task =>
      (x.unsent.find? (·.1 = task)).map fun waiting =>
        { x with
          unsent := x.unsent.eraseP (·.1 = task)
          sent := x.sent ++ [waiting.2] }
  | .policy policy => some { x with sink := x.sink.setPolicy policy }
  | .srtt srtt => some { x with sink := x.sink.setSrtt srtt }
  | .linkSent now => some { x with link := x.link.sent now }
  | .linkReply now => some { x with link := x.link.reply now }
  | .recovering attempt => some { x with link := x.link.setRecovering attempt }

/-- The tasks send in the order of their calls, and nothing waits to be sent when
the window changes. -/
def InOrder (x : ScreenLeg) : LegOp → Prop
  | .send task => x.unsent.head?.map (·.1) = some task
  | .call c => c.invalidates x.sink = true → x.unsent = []
  | _ => True

instance (x : ScreenLeg) : ∀ op, Decidable (x.InOrder op)
  | .send task => inferInstanceAs (Decidable (x.unsent.head?.map (·.1) = some task))
  | .call c => inferInstanceAs (Decidable (c.invalidates x.sink = true → x.unsent = []))
  | .policy _ | .srtt _ | .linkSent _ | .linkReply _ | .recovering _ => .isTrue trivial

def WellFormed (E : SinkEnv) (W : Char → Nat) (x : ScreenLeg) : LegOp → Prop
  | .call c => (x.sink.call E x.link c).1.Feeds W c.effects
  | _ => True

instance (E : SinkEnv) (W : Char → Nat) (x : ScreenLeg) : ∀ op, Decidable (x.WellFormed E W op)
  | .call c => inferInstanceAs (Decidable ((x.sink.call E x.link c).1.Feeds W c.effects))
  | .send _ | .policy _ | .srtt _ | .linkSent _ | .linkReply _ | .recovering _ => .isTrue trivial

/-! ## What is in the channel -/

/-- The renderer has made what is in the channel and then what waits. -/
def Ordered (x : ScreenLeg) : Prop :=
  x.made = x.sent ++ x.unsent.map (·.2)

variable {x y : ScreenLeg} {op : LegOp}

theorem step_ordered {E : SinkEnv} (hop : x.InOrder op)
    (hs : x.step E op = some y) (h : x.Ordered) : y.Ordered := by
  cases op with
  | call c =>
    rw [step] at hs
    split at hs
    · cases hs
    cases hs
    show _ ++ _ = _ ++ (x.unsent ++ _).map (·.2)
    rw [map_append, map_map, ← append_assoc]
    show _ = _ ++ map id _
    rw [map_id]
    congr 1
    cases hinv : c.invalidates x.sink with
    | true => rw [if_pos rfl, if_pos rfl, hop hinv]; rfl
    | false => exact h
  | send task =>
    obtain ⟨waiting, hfind, rfl⟩ := Option.map_eq_some_iff.1 hs
    obtain ⟨first, hhead, hfirst⟩ := Option.map_eq_some_iff.1 hop
    obtain ⟨rest, hrest⟩ : ∃ rest, x.unsent = first :: rest := head?_eq_some_iff.1 hhead
    have hfound : x.unsent.find? (·.1 = task) = some first := by
      rw [hrest]
      exact find?_cons_of_pos (decide_eq_true hfirst)
    have herased : x.unsent.eraseP (·.1 = task) = rest := by
      rw [hrest]
      exact eraseP_cons_of_pos (decide_eq_true hfirst)
    cases hfound.symm.trans hfind
    show x.made = (x.sent ++ [waiting.2]) ++ (x.unsent.eraseP (·.1 = task)).map (·.2)
    rw [herased, h, hrest, append_assoc]
    rfl
  | policy | srtt | linkSent | linkReply | recovering => cases hs; exact h

/-! ## What the renderer believes -/

def texts (outs : List ScreenOutput) : Text :=
  outs.flatMap (·.data)

/-- Terminals of the window's size, as they are when the renderer is invalidated:
they show anything. -/
structure Fresh (x : ScreenLeg) (t : Terminal) : Prop where
  sound : t.Sound
  size : (t.cols, t.rows) = x.sink.window
  modes : t.modes = Terminal.modesOf x.base

/-- A terminal that reads what the renderer has made shows what it believes. -/
def Believed (W : Char → Nat) (x : ScreenLeg) : Prop :=
  ∀ t, x.Fresh t → ∃ u, Terminal.Shown W t (texts x.made) u ∧ x.sink.Fits W u

theorem texts_outputs (out : ScreenOutput) : texts (outputs out) = out.data := by
  rw [outputs]
  split
  · next h => exact h.symm
  · exact append_nil _

theorem Believed.outside {W : Char → Nat} (h : x.Believed W) {s : ScreenSink}
    (hs : ScreenSink.Carries W x.sink s []) (hwindow : s.window = x.sink.window) :
    Believed W { x with sink := s } := by
  intro t ht
  obtain ⟨u, hu, hfits⟩ := h t ⟨ht.sound, ht.size.trans hwindow, ht.modes⟩
  obtain ⟨v, hv, hfits'⟩ := hs u hfits
  refine ⟨v, ?_, hfits'⟩
  have hall := hu.append hv
  rwa [append_nil] at hall

theorem call_window {E : SinkEnv} {s : ScreenSink} {link : LinkStatus} {c : ScreenCall}
    (hkeep : c.invalidates s = false) : (s.call E link c).1.window = s.window := by
  have hrepaint : ∀ (s : ScreenSink) (now : Nat), (s.repaint link now).1.window = s.window := by
    intro s now
    rw [ScreenSink.repaint]
    split
    · rfl
    · exact s.paintLast_window link now
  have hpredict : ∀ (now : Nat) (change : PredictDriver → PredictDriver),
      (s.withPredictor link now change).1.window = s.window := by
    intro now change
    rw [ScreenSink.withPredictor]
    split
    · rfl
    · exact hrepaint _ now
  cases c with
  | draw state effects outputSeq stateNum now =>
    exact (ScreenSink.refreshStatus_frame _ link now).2.1
  | history lines skipped now =>
    show (s.history link lines skipped now).1.window = s.window
    rw [ScreenSink.history]
    split
    · rfl
    · exact ScreenSink.paintLast_window _ link now
  | echo _ now | inputAck _ now | input _ _ now => exact hpredict now _
  | tick now | writerChanged _ now => exact hrepaint _ now
  | setLocal cols rows now =>
    have hsame : s.call E link (.setLocal cols rows now) = ScreenSink.stamp (s, []) :=
      if_neg (Bool.eq_false_iff.1 hkeep)
    rw [hsame]
    rfl

theorem step_believed {E : SinkEnv} {W : Char → Nat} (hspace : W ' ' = 1)
    (hop : x.WellFormed E W op) (hs : x.step E op = some y) (h : x.Believed W) :
    y.Believed W := by
  cases op with
  | call c =>
    rw [step] at hs
    split at hs
    · cases hs
    cases hs
    intro t ht
    cases hinv : c.invalidates x.sink with
    | true =>
      have hmodes : t.modes = Terminal.modesOf x.sink.renderer.modes := by
        rw [ht.modes]
        exact congrArg Terminal.modesOf (if_pos hinv)
      obtain ⟨u, hu, hfits⟩ :=
        ScreenSink.call_invalidates hspace hinv hop ht.sound ht.size hmodes
      refine ⟨u, ?_, hfits⟩
      show Terminal.Shown W t (texts ([] ++ outputs _)) u
      rw [nil_append, texts_outputs]
      exact hu
    | false =>
      have hmodes : t.modes = Terminal.modesOf x.base := by
        rw [ht.modes]
        exact congrArg Terminal.modesOf (if_neg (Bool.eq_false_iff.1 hinv))
      obtain ⟨u, hu, hfits⟩ := h t ⟨ht.sound, ht.size.trans (call_window hinv), hmodes⟩
      obtain ⟨v, hv, hfits'⟩ := ScreenSink.call_carries hspace hinv hop u hfits
      refine ⟨v, ?_, hfits'⟩
      rw [texts, flatMap_append, ← texts, ← texts, texts_outputs]
      exact hu.append hv
  | send task =>
    obtain ⟨waiting, -, rfl⟩ := Option.map_eq_some_iff.1 hs
    exact fun t ht => h t ⟨ht.sound, ht.size, ht.modes⟩
  | policy | srtt => cases hs; exact h.outside (.nil rfl rfl) rfl
  | linkSent | linkReply | recovering =>
    cases hs; exact fun t ht => h t ⟨ht.sound, ht.size, ht.modes⟩

/-- In every run in which the tasks send in the order of their calls: when no task
is between a call and its send, the channel has what the renderer made, in that
order.  A terminal that reads it shows what the renderer believes, if what was
drawn is well formed. -/
theorem channel_has_what_was_drawn {E : SinkEnv} {sink : ScreenSink} {writer : Bool}
    {link : LinkStatus} {ops : List LegOp} {x : ScreenLeg}
    (hrun : Run (step E) InOrder (start sink writer link) ops x) (hidle : x.unsent = []) :
    x.sent = x.made ∧ ∀ W : Char → Nat, W ' ' = 1 →
        Run (step E) (WellFormed E W) (start sink writer link) ops x →
        ∀ t, x.Fresh t → ∃ u, Terminal.Shown W t (texts x.sent) u ∧ x.sink.Fits W u := by
  have h : x.Ordered := hrun.invariant (fun _ _ _ hop hs h => step_ordered hop hs h) rfl
  rw [Ordered, hidle, map_nil, append_nil] at h
  refine ⟨h.symm, fun W hspace hfed t ht => ?_⟩
  rw [← h]
  exact hfed.invariant (fun _ _ _ hop hs h => step_believed hspace hop hs h)
    (fun t ht => ⟨t, .nil, .forget ht.sound ht.modes rfl, ht.size⟩) t ht

def plainEnv : SinkEnv where
  widths := EchoPath.asciiWidths
  adaptive := true
  smooth previous sample := (7 * previous + sample) / 8

def oneRow : ScreenSink :=
  .new 10 1 (PredictDriver.new .always true false) none

def oneRowTerminal : Terminal where
  cols := 10
  rows := 1
  grid := [replicate 10 .blank]
  other := [replicate 10 .blank]
  row := 0
  col := 0
  wrapNext := false
  pen := .default
  saved := (0, 0, .default)
  modes := Terminal.modesOf .none

/-- `a` is typed and the host shows it, so the next character is drawn at once:
`b` is typed.  Then the host shows another line. -/
def typedThenRedrawn : List LegOp :=
  [.call (.draw (EchoPath.line []) [] 0 1 0), .send .reader, .call (.input [0x61] 1 1),
    .call (.draw (EchoPath.line ['a']) [] 1 2 2), .send .reader, .call (.echo ⟨2, 1, 1⟩ 3),
    .call (.input [0x62] 2 4), .call (.draw (EchoPath.line ['c', 'd', 'e']) [] 4 3 5)]

theorem oneRowTerminal_sound : oneRowTerminal.Sound where
  cols := by decide
  rows := by decide
  grid := by decide
  other := by decide
  row := by decide
  col := by decide
  saved := by decide

def gridAfter (x : ScreenLeg) : List (List Glyph) :=
  ((Escape.scan .ground (texts x.sent)).1.foldl (Terminal.exec Display.someWidths)
    oneRowTerminal).grid

/-- `b` is sent before the other line is: the terminal ends up with that line. -/
theorem channel_has_what_was_drawn_typed :
    ∃ x, Run (step plainEnv) InOrder (start oneRow true (.new 0))
        (typedThenRedrawn ++ [.send .input, .send .reader]) x ∧
      x.sent = x.made ∧ x.made.length = 4 ∧
      ∃ u, Terminal.Shown Display.someWidths oneRowTerminal (texts x.sent) u ∧
        x.sink.Fits Display.someWidths u := by
  obtain ⟨x, hboth, hidle, hlength, hwindow, hbase⟩ : ∃ x, Run (step plainEnv)
      (fun x op => x.InOrder op ∧ x.WellFormed plainEnv Display.someWidths op)
      (start oneRow true (.new 0)) (typedThenRedrawn ++ [.send .input, .send .reader]) x ∧
      x.unsent = [] ∧ x.made.length = 4 ∧ x.sink.window = (10, 1) ∧ x.base = .none :=
    Run.exists_of_exec (by decide +kernel)
  have hrun : Run (step plainEnv) InOrder _ _ x := hboth.mono fun _ _ h => h.1
  have hfed : Run (step plainEnv) (WellFormed plainEnv Display.someWidths) _ _ x :=
    hboth.mono fun _ _ h => h.2
  have hfresh : x.Fresh oneRowTerminal :=
    ⟨oneRowTerminal_sound, hwindow.symm, by rw [hbase]; rfl⟩
  obtain ⟨hsent, hshows⟩ := channel_has_what_was_drawn hrun hidle
  exact ⟨x, hrun, hsent, hlength, hshows _ (by decide) hfed _ hfresh⟩

/-- The other line is sent before `b` is: the terminal shows `b` in the middle of
it, and the renderer believes that it does not. -/
theorem late_send_overwrites :
    ∃ x, Run (step plainEnv) (fun _ _ => True) (start oneRow true (.new 0))
        (typedThenRedrawn ++ [.send .reader, .send .input]) x ∧
      x.unsent = [] ∧ x.sent ≠ x.made ∧
      x.Fresh oneRowTerminal ∧
      gridAfter x = [['c', 'b', 'e'].map (fun c => .char [c] false .default) ++
        replicate 7 .blank] ∧
      x.sink.renderer.drawn.map Terminal.glyphs =
        some [['c', 'd', 'e'].map (fun c => .char [c] false .default) ++ replicate 7 .blank] := by
  refine Run.exists_exec
    (fun x => x.unsent = [] ∧ x.sent ≠ x.made ∧ x.sink.window = (10, 1) ∧ x.base = .none ∧
      gridAfter x = [['c', 'b', 'e'].map (fun c => .char [c] false .default) ++
        replicate 7 .blank] ∧
      x.sink.renderer.drawn.map Terminal.glyphs =
        some [['c', 'd', 'e'].map (fun c => .char [c] false .default) ++
          replicate 7 .blank]) (by decide +kernel)
    fun x hrun hend => ?_
  obtain ⟨hidle, hne, hwindow, hbase, hgrid, hdrawn⟩ := hend
  refine ⟨hidle, hne, ⟨oneRowTerminal_sound, hwindow.symm, ?_⟩, hgrid, hdrawn⟩
  rw [hbase]
  rfl

end ScreenLeg

end Qsh.Client
