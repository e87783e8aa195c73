import Qsh.Client.SecretInput
import Qsh.Client.PredictShape
import Qsh.Client.PredictRun

/-!
# Tentative epochs are not drawn

A key that the predictor does not follow begins a new epoch.  What is typed in an epoch is
drawn only when the host has shown a character of that epoch in the cell predicted for it.

`Watch` is a predictor with what an observer can write down: the keys in order, each with
its prediction or as a break (`log`), the last screen, and the predicted characters that
were pending until the screen showed them (`confirmed`).  An epoch is then a number of
breaks (`Numbered`), so the epochs can be read off the log (`Kept`).
-/

namespace Qsh.Client

open Qsh.Lib List Predictor
open Qsh.Screen (ScreenState)

inductive Entry
  /-- The epoch ends. -/
  | broke
  /-- A key was predicted in a row. -/
  | made (row : Nat) (p : Pred)
  deriving DecidableEq, Repr

/-! ## Epochs as numbers of breaks -/

/-- Each prediction has the epoch of its place in the log. -/
def Numbered (n : Nat) : List Entry → Prop
  | [] => True
  | .broke :: log => Numbered (n + 1) log
  | .made _ p :: log => p.epoch = n ∧ Numbered n log

def breaks : List Entry → Nat
  | [] => 0
  | .broke :: log => breaks log + 1
  | .made _ _ :: log => breaks log

theorem breaks_append (log log' : List Entry) :
    breaks (log ++ log') = breaks log + breaks log' := by
  induction log with
  | nil => rw [nil_append, breaks, Nat.zero_add]
  | cons e log ih =>
    cases e with
    | broke => rw [cons_append, breaks, breaks, ih, Nat.add_right_comm]
    | made row p => rw [cons_append, breaks, breaks, ih]

variable {n row : Nat}

theorem numbered_append {log log' : List Entry} :
    Numbered n (log ++ log') ↔ Numbered n log ∧ Numbered (n + breaks log) log' := by
  induction log generalizing n with
  | nil => exact ⟨fun h => ⟨trivial, h⟩, fun h => h.2⟩
  | cons e log ih =>
    cases e with
    | broke =>
      rw [cons_append, Numbered, Numbered, breaks, ih, Nat.add_assoc, Nat.add_comm 1]
    | made row p => rw [cons_append, Numbered, Numbered, breaks, ih, and_assoc]

theorem numbered_replicate (n k : Nat) :
    Numbered n (replicate k .broke) ∧ breaks (replicate k .broke) = k := by
  induction k generalizing n with
  | zero => exact ⟨trivial, rfl⟩
  | succ k ih =>
    rw [replicate_succ, Numbered, breaks, (ih n).2]
    exact ⟨(ih (n + 1)).1, rfl⟩

theorem Numbered.bounds {log : List Entry} (h : Numbered n log) {p : Pred}
    (hp : .made row p ∈ log) : n ≤ p.epoch ∧ p.epoch ≤ n + breaks log := by
  induction log generalizing n with
  | nil => cases hp
  | cons e log ih =>
    cases e with
    | broke =>
      have hin := ih h ((mem_cons.1 hp).resolve_left nofun)
      rw [breaks]
      omega
    | made row' q =>
      rw [breaks]
      rcases mem_cons.1 hp with heq | hp
      · cases heq
        have hq : p.epoch = n := h.1
        omega
      · exact ih h.2 hp

theorem Numbered.same_side {before after : List Entry} (h : Numbered 0 (before ++ .broke :: after))
    {row' : Nat} {p r : Pred} (hp : .made row p ∈ after)
    (hr : .made row' r ∈ before ++ .broke :: after) (heq : r.epoch = p.epoch) :
    .made row' r ∈ after := by
  obtain ⟨hbefore, hafter⟩ := numbered_append.1 h
  have hafter : Numbered (0 + breaks before + 1) after := hafter
  rcases mem_append.1 hr with hr | hr
  · have hle := (hbefore.bounds hr).2
    have hge := (hafter.bounds hp).1
    omega
  · exact (mem_cons.1 hr).resolve_left nofun

/-! ## The observed predictor -/

/-- A predictor with a log of its predictions and the confirmed ones. -/
structure Watch where
  predictor : Predictor
  next : Nat
  screen : Option ScreenState
  log : List Entry
  confirmed : List (Nat × Pred)

namespace Watch

def new (capable : Bool) (next : Nat) : Watch where
  predictor := .new capable
  next := next
  screen := none
  log := []
  confirmed := []

def keyEntry (W : Widths) (now : Nat) (s : Predictor) (key : Ev × Nat) : Entry :=
  match s.predicts W now key with
  | some (row, p) => .made row p
  | none => .broke

def keyEntries (W : Widths) (now : Nat) : Predictor → List (Ev × Nat) → List Entry
  | _, [] => []
  | s, key :: keys => keyEntry W now s key :: keyEntries W now (onKey W now s key) keys

/-- The entries for an event after which the predictor is `t`.  An event from the
host is a break for every epoch that it ends. -/
def entries (W : Widths) (x : Watch) (t : Predictor) : PredictOp → List Entry
  | .input bytes now =>
      keyEntries W now (x.predictor.reading bytes (x.next + bytes.length) now)
        (parseRead x.predictor.carry bytes x.predictor.inPaste (x.next + bytes.length)).keys
  | _ => replicate (t.epoch - x.predictor.epoch) .broke

/-- A predicted character is confirmed: it is pending no longer, and the screen
shows it in its cell. -/
def confirms (s t : Predictor) (screen : Option ScreenState) : Entry → Option (Nat × Pred)
  | .broke => none
  | .made row p =>
      if p ∈ s.pending ∧ p ∉ t.pending ∧ p.kind = .insert ∧ isBlank p.expect = false ∧
          screen.bind (textAt · row (p.primary.getD 0)) = some p.expect then some (row, p)
      else none

/-- One call on the predictor, logged. -/
def step (W : Widths) (x : Watch) (op : PredictOp) : Option Watch :=
  let t := x.predictor.apply W x.next op
  let screen := op.screen x.screen
  some
    { predictor := t
      next := op.next x.next
      screen
      log := x.log ++ entries W x t op
      confirmed := x.confirmed ++ x.log.filterMap (confirms x.predictor t screen) }

/-! ## What the log says about the epochs -/

/-- The invariant: the predictor's epochs are the numbers of breaks in the log,
every pending prediction is in it, and a confirmed epoch has a confirmed
character. -/
structure Kept (x : Watch) : Prop where
  sane : x.predictor.Sane x.next
  mirrors : x.predictor.Mirrors x.screen
  epoch : x.predictor.epoch = breaks x.log
  numbered : Numbered 0 x.log
  made : ∀ p ∈ x.predictor.pending, .made x.predictor.row p ∈ x.log
  confirmed : ∀ e ∈ x.predictor.confirmedEpochs,
    ∃ row r, (row, r) ∈ x.confirmed ∧ .made row r ∈ x.log ∧ r.epoch = e

theorem new_kept (capable : Bool) (next : Nat) : Kept (new capable next) where
  sane := new_sane capable next
  mirrors := new_mirrors capable
  epoch := rfl
  numbered := trivial
  made _ hp := absurd hp not_mem_nil
  confirmed _ he := absurd he not_mem_nil

theorem text_of_shows {s : Predictor} {screen : Option ScreenState} (hm : s.Mirrors screen)
    {p : Pred} (hp : p ∈ s.pending) (hshows : s.Shows p) :
    screen.bind (textAt · s.row (p.primary.getD 0)) = some p.expect := by
  cases hstate : s.haveState with
  | false =>
    rw [hm.nil hstate] at hp
    cases hp
  | true =>
    obtain ⟨state, hscreen, htext⟩ := hm.rows hstate _ _ _ hshows.2.2
    rw [Option.mem_def.1 hscreen]
    exact htext

variable {W : Widths} {x y : Watch} {op : PredictOp}

theorem Kept.host (h : Kept x) (hop : op.isInput = false) (hs : x.step W op = some y) : Kept y := by
  obtain ⟨v, hv⟩ := apply_between W x.next hop h.sane.blocks h.mirrors
  have hentries : entries W x (x.predictor.apply W x.next op) op =
      replicate ((x.predictor.apply W x.next op).epoch - x.predictor.epoch) .broke := by
    cases op with
    | input bytes now => cases hop
    | _ => rfl
  cases hs
  generalize x.predictor.apply W x.next op = t at hv hentries
  obtain ⟨hnumbered, hbreaks⟩ := numbered_replicate (breaks x.log) (t.epoch - x.predictor.epoch)
  have hepoch := Nat.le_trans hv.heard.epoch hv.judged.epoch
  have hold := h.epoch
  -- predictions that are left were there before, in the same row
  have hleft : ∀ p ∈ t.pending, p ∈ x.predictor.pending ∧ t.row = x.predictor.row := by
    intro p hp
    have hpv := hv.judged.pending.subset hp
    refine ⟨?_, (hv.judged.row (ne_nil_of_mem hp)).trans hv.heard.row⟩
    rcases hv.heard.pending with heq | hnil
    · exact heq ▸ hpv
    · rw [hnil] at hpv
      cases hpv
  refine ⟨h.sane.judged hv.judged hv.blocks hv.heard (op.le_next x.next),
    hv.judged.mirrors hv.mirrors, ?_, ?_, fun p hp => ?_, fun e he => ?_⟩
  · show t.epoch = breaks (x.log ++ entries W x t op)
    rw [hentries, breaks_append, hbreaks]
    omega
  · rw [hentries, numbered_append, Nat.zero_add]
    exact ⟨h.numbered, hnumbered⟩
  · obtain ⟨hp, hrow⟩ := hleft p hp
    rw [hrow]
    exact mem_append_left _ (h.made p hp)
  have hnodup : v.pending.Nodup := by
    rcases hv.heard.pending with heq | hnil
    · exact heq ▸ h.sane.nodup
    · exact hnil ▸ .nil
  rcases hv.judged.evidence hnodup e he with he | ⟨p, hp, hgone, hpe, hshows⟩
  · obtain ⟨row, r, hr, hmade, hre⟩ := h.confirmed e (hv.heard.confirmed e he)
    exact ⟨row, r, mem_append_left _ hr, mem_append_left _ hmade, hre⟩
  have hpx : p ∈ x.predictor.pending := by
    rcases hv.heard.pending with heq | hnil
    · exact heq ▸ hp
    · rw [hnil] at hp
      cases hp
  have htext := text_of_shows hv.mirrors hp hshows
  rw [hv.heard.row] at htext
  have hmade := h.made p hpx
  refine ⟨x.predictor.row, p, mem_append_right _ ?_, mem_append_left _ hmade, hpe⟩
  refine mem_filterMap.2 ⟨_, hmade, ?_⟩
  exact if_pos ⟨hpx, hgone, hshows.1, hshows.2.1, htext⟩

theorem keyEntries_spec (W : Widths) (now : Nat) (s : Predictor) (keys : List (Ev × Nat)) :
    (keys.foldl (onKey W now) s).epoch = s.epoch + breaks (keyEntries W now s keys) ∧
      Numbered s.epoch (keyEntries W now s keys) ∧
      (∀ p ∈ (keys.foldl (onKey W now) s).pending,
        p ∈ s.pending ∨ .made s.row p ∈ keyEntries W now s keys) ∧
      ∀ e ∈ (keys.foldl (onKey W now) s).confirmedEpochs, e ∈ s.confirmedEpochs := by
  induction keys generalizing s with
  | nil => exact ⟨rfl, trivial, fun p hp => .inl hp, fun e he => he⟩
  | cons key keys ih =>
    obtain ⟨hepoch, hnumbered, hmade, hconf⟩ := ih (onKey W now s key)
    have hrow := (onKey_hostSide W now s key).2
    rw [foldl_cons, keyEntries, keyEntry]
    rcases onKey_cases W now s key with ⟨hnone, hone⟩ | ⟨p, hsome, hone, hp⟩
    · rw [hnone]
      rw [hone] at hepoch hnumbered hmade hconf ⊢
      refine ⟨?_, hnumbered, fun q hq => (hmade q hq).imp_right (mem_cons_of_mem _),
        fun e he => mem_of_mem_filter (hconf e he)⟩
      rw [hepoch, breaks]
      show s.epoch + 1 + _ = _
      omega
    rw [hsome]
    rw [hone] at hepoch hnumbered hmade hconf hrow ⊢
    refine ⟨hepoch, ⟨hp.epoch, hnumbered⟩, fun q hq => ?_, hconf⟩
    rcases hmade q hq with hq | hq
    · rcases mem_append.1 hq with hq | hq
      · exact .inl hq
      · rw [mem_singleton.1 hq]
        exact .inr mem_cons_self
    · exact .inr (mem_cons_of_mem _ hq)

theorem Kept.input (h : Kept x) {bytes : List UInt8} {now : Nat}
    (hs : x.step W (.input bytes now) = some y) : Kept y := by
  have hsane := onInput_sane W h.sane bytes now
  have hmirrors := onInput_mirrors W h.mirrors bytes (x.next + bytes.length) now
  obtain ⟨g, r, c, q, hread⟩ := x.predictor.reading_eq bytes (x.next + bytes.length) now
  have hspec := keyEntries_spec W now (x.predictor.reading bytes (x.next + bytes.length) now)
    (parseRead x.predictor.carry bytes x.predictor.inPaste (x.next + bytes.length)).keys
  have hrow := (onKeys_hostSide W now (x.predictor.reading bytes (x.next + bytes.length) now)
    (parseRead x.predictor.carry bytes x.predictor.inPaste (x.next + bytes.length)).keys).2
  rw [← onInput_eq] at hspec hrow
  -- up to the first key only the clock and the parser have moved
  have hstart : (x.predictor.reading bytes (x.next + bytes.length) now).epoch = breaks x.log ∧
      (x.predictor.reading bytes (x.next + bytes.length) now).pending = x.predictor.pending ∧
      (x.predictor.reading bytes (x.next + bytes.length) now).row = x.predictor.row ∧
      (x.predictor.reading bytes (x.next + bytes.length) now).confirmedEpochs =
        x.predictor.confirmedEpochs := by
    rw [hread]
    exact ⟨h.epoch, rfl, rfl, rfl⟩
  cases hs
  obtain ⟨hepoch, hnumbered, hmade, hconf⟩ := hspec
  rw [hstart.1] at hepoch hnumbered
  rw [hstart.2.1, hstart.2.2.1] at hmade
  rw [hstart.2.2.2] at hconf
  rw [hstart.2.2.1] at hrow
  refine ⟨hsane, hmirrors, ?_, ?_, fun p hp => ?_, fun e he => ?_⟩
  · exact hepoch.trans (breaks_append _ _).symm
  · refine numbered_append.2 ⟨h.numbered, ?_⟩
    rw [Nat.zero_add]
    exact hnumbered
  · have hrow : (x.predictor.apply W x.next (.input bytes now)).row = x.predictor.row := hrow
    rw [hrow]
    rcases hmade p hp with hp | hp
    · exact mem_append_left _ (h.made p hp)
    · exact mem_append_right _ hp
  · obtain ⟨row, r, hr, hmade, hre⟩ := h.confirmed e (hconf e he)
    exact ⟨row, r, mem_append_left _ hr, mem_append_left _ hmade, hre⟩

theorem step_kept (hs : x.step W op = some y) (h : Kept x) : Kept y := by
  cases hop : op.isInput with
  | false => exact h.host hop hs
  | true =>
    cases op with
    | input bytes now => exact h.input hs
    | _ => cases hop

/-- In every run, and for every break in it: until a character typed after the
break is confirmed, everything in the overlay is of predictions made before the
break. -/
theorem tentative_epoch_not_drawn {W : Widths} {capable : Bool} {next : Nat}
    {ops : List PredictOp} {x : Watch}
    (hrun : Run (step W) (fun _ _ => True) (new capable next) ops x)
    {before after : List Entry} (hlog : x.log = before ++ .broke :: after)
    (hnone : ∀ row r, .made row r ∈ after → (row, r) ∉ x.confirmed) :
    (∀ c ∈ x.predictor.overlay.cells, ∃ p, .made x.predictor.row p ∈ before ∧ c.OfSnapshot p) ∧
      ∀ rc, x.predictor.overlay.cursor = some rc →
        ∃ p, .made x.predictor.row p ∈ before ∧ rc = (x.predictor.row, p.cursorAfter) := by
  have h : Kept x := hrun.invariant (fun _ _ _ _ hs h => step_kept hs h) (new_kept capable next)
  have hbefore : ∀ p ∈ x.predictor.shown, .made x.predictor.row p ∈ before := by
    intro p hp
    obtain ⟨row, r, hr, hmade, hre⟩ := h.confirmed p.epoch (epoch_of_shown hp)
    have hp := h.made p (shown_subset hp)
    have hnumbered := h.numbered
    rw [hlog] at hp hmade hnumbered
    rcases mem_append.1 hp with hp | hp
    · exact hp
    · have hp := (mem_cons.1 hp).resolve_left nofun
      exact absurd hr (hnone row r (hnumbered.same_side hp hmade hre))
  refine ⟨fun c hc => ?_, fun rc hrc => ?_⟩
  · obtain ⟨p, hp, hof⟩ := overlay_of_shown hc
    exact ⟨p, hbefore p hp, hof⟩
  · obtain ⟨p, hp, heq⟩ := overlay_cursor_of_shown hrc
    exact ⟨p, hbefore p hp, heq⟩

/-- The host shows `a`, so `b` is drawn at once.  A new leg begins, and `c` is
typed behind `b`. -/
def acrossLegs : List PredictOp :=
  [.state (EchoPath.line []) 1 0, .input [0x61] 1, .state (EchoPath.line ['a']) 2 2,
    .input [0x62] 3, .legChange 2, .input [0x63] 4]

/-- `b` is in the overlay, and `c`, which is behind the break, is not. -/
theorem tentative_epoch_not_drawn_legs :
    ∃ x before after, Run (step EchoPath.asciiWidths) (fun _ _ => True) (new true 0) acrossLegs x ∧
      x.log = before ++ .broke :: after ∧ after.length = 1 ∧
      x.predictor.pending.map (·.expect) = [['b'], ['c']] ∧
      x.predictor.overlay.cells.map (fun c => (c.col, c.cell.text)) = [(1, ['b'])] ∧
      ∀ c ∈ x.predictor.overlay.cells, ∃ p, .made x.predictor.row p ∈ before ∧ c.OfSnapshot p := by
  obtain ⟨x, hrun, hbroke, hlen, hnone, hpending, hcells⟩ : ∃ x, Run
      (step EchoPath.asciiWidths) (fun _ _ => True) (new true 0) acrossLegs x ∧
      x.log.drop 2 = .broke :: x.log.drop 3 ∧ (x.log.drop 3).length = 1 ∧
      (∀ e ∈ x.log.drop 3, ∀ rp ∈ x.confirmed, e ≠ .made rp.1 rp.2) ∧
      x.predictor.pending.map (·.expect) = [['b'], ['c']] ∧
      x.predictor.overlay.cells.map (fun c => (c.col, c.cell.text)) = [(1, ['b'])] :=
    Run.exists_of_exec (by decide +kernel)
  have hlog : x.log = x.log.take 2 ++ .broke :: x.log.drop 3 := by
    rw [← hbroke, take_append_drop]
  exact ⟨x, _, _, hrun, hlog, hlen, hpending, hcells,
    (tentative_epoch_not_drawn hrun hlog fun row r hr hconf => hnone _ hr _ hconf rfl).1⟩

end Watch

end Qsh.Client
