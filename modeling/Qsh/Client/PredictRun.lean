import Qsh.Lib.Run
import Qsh.Client.PredictJudge

/-!
# Runs of the predictor

`PredictOp` has every input of the predictor, and `Predictor.apply` is what one of them
does.  Two facts hold of all of them:

* `apply_heard`: an event from the host first changes what the predictor knows of the
  host (`Heard`) and then lets the predictions be judged (`Judged`).
* `onKey_cases`: a key adds one prediction at the predicted cursor or breaks the epoch.

`Sane` and `Mirrors` are the invariants that need no condition on the run: the
predictions stand in the order of their input, and the rows they are judged by are rows
of the last screen.
-/

namespace Qsh.Client

open Qsh.Lib List
open Qsh.Screen (ScreenState Cell Text)

inductive PredictOp
  | input (bytes : List UInt8) (now : Nat)
  | state (state : ScreenState) (stateNum now : Nat)
  | echo (report : EchoReport) (now : Nat)
  | policy (policy : Prediction)
  | statusLine (up : Bool)
  | writer (writer : Bool)
  | tick (now : Nat)
  /-- A new leg, on which the host has applied the input up to `inputSeq`. -/
  | legChange (inputSeq : Nat)
  deriving DecidableEq, Repr

namespace PredictOp

/-- The input offset of the next byte, `n` before the event.  Another writer's
input counts in the offsets of a new leg. -/
def next (n : Nat) : PredictOp → Nat
  | .input bytes _ => n + bytes.length
  | .legChange inputSeq => max n inputSeq
  | _ => n

theorem le_next (n : Nat) (op : PredictOp) : n ≤ op.next n := by
  cases op with
  | input bytes now => exact Nat.le_add_right _ _
  | legChange inputSeq => exact Nat.le_max_left _ _
  | _ => exact Nat.le_refl n

def screen (last : Option ScreenState) : PredictOp → Option ScreenState
  | PredictOp.state shown _ _ => some shown
  | _ => last

def isInput : PredictOp → Bool
  | .input _ _ => true
  | _ => false

end PredictOp

def textAt (state : ScreenState) (row col : Nat) : Option Text :=
  (state.grid[row]?.bind (·.cells[col]?)).map (·.text)

namespace Predictor

/-- One call on the predictor; `n` is the input sent so far. -/
def apply (W : Widths) (s : Predictor) (n : Nat) : PredictOp → Predictor
  | .input bytes now => s.onInput W bytes (n + bytes.length) now
  | .state state stateNum now => s.onState state stateNum now
  | .echo report now => s.onEcho report now
  | .policy policy => s.onPolicy policy
  | .statusLine up => s.onStatusLine up
  | .writer writer => s.onWriter writer
  | .tick now => s.onTick now
  | .legChange _ => s.onLegChange

/-! ## Events from the host -/

/-- The predictor before it takes over a new screen: on a new size the
predictions are gone. -/
def beforeState (s : Predictor) (state : ScreenState) (now : Nat) : Predictor :=
  let s := s.tick now
  if s.haveState ∧ (state.rows ≠ s.rows ∨ state.cols ≠ s.cols) then s.discardAll else s

def received (s : Predictor) (state : ScreenState) (stateNum now : Nat) : Predictor :=
  ((s.beforeState state now).adopt state stateNum now).releaseHeld

/-- What the predictor knows of the host has changed; predictions may have gone,
but no verdict has been given. -/
structure Heard (s t : Predictor) : Prop where
  epoch : s.epoch ≤ t.epoch
  pending : t.pending = s.pending ∨ t.pending = []
  row : t.row = s.row
  confirmed : ∀ e ∈ t.confirmedEpochs, e ∈ s.confirmedEpochs
  carry : t.carry = s.carry
  inPaste : t.inPaste = s.inPaste
  lastInputEnd : t.lastInputEnd = s.lastInputEnd

/-- The fields that typed input and verdicts change, and events from the host
otherwise do not. -/
def typedSide (s : Predictor) : Nat × List Pred × Nat × List Nat × List UInt8 × Bool × Nat :=
  (s.epoch, s.pending, s.row, s.confirmedEpochs, s.carry, s.inPaste, s.lastInputEnd)

namespace Heard

theorem of_eq {s t : Predictor} (h : t.typedSide = s.typedSide) : Heard s t := by
  simp only [typedSide, Prod.mk.injEq] at h
  obtain ⟨hepoch, hpending, hrow, hconf, hcarry, hpaste, hlast⟩ := h
  exact ⟨Nat.le_of_eq hepoch.symm, .inl hpending, hrow, fun e he => hconf ▸ he, hcarry, hpaste,
    hlast⟩

theorem refl (s : Predictor) : Heard s s :=
  .of_eq rfl

theorem trans {s t u : Predictor} (h : Heard s t) (h' : Heard t u) : Heard s u where
  epoch := Nat.le_trans h.epoch h'.epoch
  pending := by
    rcases h'.pending with hu | hu
    · rw [hu]
      exact h.pending
    · exact .inr hu
  row := h'.row.trans h.row
  confirmed e he := h.confirmed e (h'.confirmed e he)
  carry := h'.carry.trans h.carry
  inPaste := h'.inPaste.trans h.inPaste
  lastInputEnd := h'.lastInputEnd.trans h.lastInputEnd

theorem nil {s t : Predictor} (h : Heard s t) (hs : s.pending = []) : t.pending = [] := by
  rcases h.pending with ht | ht
  · rw [ht, hs]
  · exact ht

end Heard

section

variable (s : Predictor)
include s

theorem tick_eq (now : Nat) :
    ∃ glitch repairRun, s.tick now = { s with now := some now, glitch, repairRun } := by
  rw [tick]
  split
  · split
    all_goals exact ⟨_, _, rfl⟩
  · exact ⟨_, _, rfl⟩

theorem tick_heard (now : Nat) : Heard s (s.tick now) := by
  obtain ⟨g, r, ht⟩ := s.tick_eq now
  rw [ht]
  exact .of_eq rfl

theorem beforeState_heard (state : ScreenState) (now : Nat) :
    Heard s (s.beforeState state now) := by
  refine (s.tick_heard now).trans ?_
  rw [beforeState]
  split
  · exact ⟨Nat.le_succ _, .inr rfl, rfl, fun _ he => mem_of_mem_filter he, rfl, rfl, rfl⟩
  · exact .refl _

theorem releaseHeld_heard : Heard s s.releaseHeld := by
  rw [releaseHeld]
  split
  · split
    · exact .of_eq rfl
    · exact .refl s
  · exact .refl s

theorem received_heard (state : ScreenState) (stateNum now : Nat) :
    Heard s (s.received state stateNum now) := by
  have hadopt (u : Predictor) : Heard u (u.adopt state stateNum now) :=
    .of_eq rfl
  exact (s.beforeState_heard state now).trans ((hadopt _).trans (releaseHeld_heard _))

theorem received_wasBlocked (state : ScreenState) (stateNum now : Nat) :
    (s.received state stateNum now).wasBlocked = s.wasBlocked := by
  obtain ⟨g, r, ht⟩ := s.tick_eq now
  have hbefore : (s.beforeState state now).wasBlocked = s.wasBlocked := by
    rw [beforeState, ht]
    split <;> rfl
  rw [← hbefore, received, releaseHeld]
  generalize s.beforeState state now = t
  split
  · split <;> rfl
  · rfl

end

variable {s : Predictor} {screen : Option ScreenState}

theorem checkBlock_reconcile_judged (h : s.wasBlocked = true → s.pending = []) :
    Judged { s with wasBlocked := s.blocked.isSome } s.checkBlock.reconcile ∧
      s.checkBlock.reconcile.Blocks := by
  have hblocks := checkBlock_blocks h
  have hrec := reconcile_judged hblocks.nil
  exact ⟨s.checkBlock_judged.trans hrec, hrec.blocks hblocks⟩

/-! ## The rows that predictions are judged by -/

/-- The predictor sees rows of the last screen, and before the first screen it
predicts nothing. -/
structure Mirrors (s : Predictor) (screen : Option ScreenState) : Prop where
  nil : s.haveState = false → s.pending = []
  rows : s.haveState = true → ∀ r col text,
    ((s.hostCells r).bind (·[col]?)).map (·.text) = some text →
      ∃ state ∈ screen, textAt state r col = some text

theorem Mirrors.of_eq {t : Predictor} (h : s.Mirrors screen)
    (hnil : s.pending = [] → t.pending = []) (hstate : t.haveState = s.haveState)
    (hcursor : t.hostCursor = s.hostCursor) (hsnap : t.snap = s.snap) : t.Mirrors screen where
  nil ht := hnil (h.nil (hstate.symm.trans ht))
  rows ht r col text htext := by
    refine h.rows (hstate.symm.trans ht) r col text ?_
    rwa [hostCells, hcursor, hsnap] at htext

theorem Judged.mirrors {t : Predictor} (h : Judged s t)
    (hs : s.Mirrors screen) : t.Mirrors screen :=
  hs.of_eq (fun hnil => sublist_nil.1 (hnil ▸ h.pending))
    (congrArg Predictor.haveState h.host :) (congrArg Predictor.hostCursor h.host :)
    (congrArg Predictor.snap h.host :)

theorem adopt_mirrors (s : Predictor) (state : ScreenState) (stateNum now : Nat) :
    (s.adopt state stateNum now).Mirrors (some state) where
  nil := nofun
  rows _ r col text htext := by
    refine ⟨state, rfl, ?_⟩
    rw [hostCells] at htext
    split at htext
    · next hr =>
      have hr : r = state.cursorRow := hr
      have htext : ((((state.grid[state.cursorRow]?).map (·.cells)).getD [])[col]?).map (·.text) =
          some text := htext
      rw [textAt, hr]
      cases hrow : state.grid[state.cursorRow]? with rw [hrow] at htext
      | none =>
        cases htext
      | some cells =>
        exact htext
    split at htext
    swap
    · cases htext
    rename_i r' cells hpred
    split at htext
    swap
    · cases htext
    rename_i hr
    subst hr
    have hpred : (if s.pending.isEmpty ∨ s.row = state.cursorRow then none
        else (state.grid[s.row]?.map (·.cells)).map fun cells => (s.row, cells)) =
          some (r', cells) := hpred
    split at hpred
    · cases hpred
    obtain ⟨row, hrow, heq⟩ := Option.map_eq_some_iff.1 hpred
    cases heq
    obtain ⟨gridRow, hgrid, rfl⟩ := Option.map_eq_some_iff.1 hrow
    rw [textAt, hgrid]
    exact htext

theorem received_mirrors (s : Predictor) (state : ScreenState) (stateNum now : Nat) :
    (s.received state stateNum now).Mirrors (some state) := by
  rw [received, releaseHeld]
  have h := (s.beforeState state now).adopt_mirrors state stateNum now
  generalize (s.beforeState state now).adopt state stateNum now = t at h ⊢
  split
  · split
    · exact { h with }
    · exact h
  · exact h

/-! ## One event from the host -/

structure Between (s v t : Predictor) (screen : Option ScreenState) : Prop where
  judged : Judged v t
  blocks : t.Blocks
  heard : Heard s v
  mirrors : v.Mirrors screen

theorem onEcho_cases (s : Predictor) (report : EchoReport) (now : Nat) :
    ∃ glitch repairRun, (¬s.Takes report ∧ ∃ stats,
        s.onEcho report now = { s with now := some now, glitch, repairRun, stats }) ∨
      (s.Takes report ∧ s.appliedState < report.stateNum ∧ s.onEcho report now =
          { s with
            now := some now, glitch, repairRun
            lastReportKey := some (report.stateNum, report.inputSeq)
            tty := report.tty
            held := some report }.checkBlock) ∨
      (s.Takes report ∧ report.stateNum ≤ s.appliedState ∧ s.onEcho report now =
          { s with
            now := some now, glitch, repairRun
            lastReportKey := some (report.stateNum, report.inputSeq)
            tty := report.tty
            covered := max s.covered report.inputSeq }.checkBlock.reconcile) := by
  obtain ⟨g, r, ht⟩ := s.tick_eq now
  refine ⟨g, r, ?_⟩
  by_cases htakes : s.Takes report
  · rw [onEcho_of_takes now htakes, takeReport, ht]
    by_cases hlate : s.appliedState < report.stateNum
    · exact .inr (.inl ⟨htakes, hlate, if_pos hlate⟩)
    · exact .inr (.inr ⟨htakes, Nat.not_lt.1 hlate, if_neg hlate⟩)
  refine .inl ⟨htakes, ?_⟩
  rw [onEcho, ht]
  split
  · exact ⟨_, rfl⟩
  rename_i hin
  split
  · exact ⟨_, rfl⟩
  · next hnew =>
    exact absurd ⟨Nat.not_lt.1 hin, Bool.eq_false_iff.2 hnew⟩ htakes

theorem onEcho_between (hs : s.Blocks) (hm : s.Mirrors screen) (report : EchoReport) (now : Nat) :
    ∃ v, Between s v (s.onEcho report now) screen := by
  have hwas : s.wasBlocked = true → s.pending = [] := fun h => hs.nil (hs.known ▸ h)
  obtain ⟨g, r, ⟨-, stats, heq⟩ | ⟨-, -, heq⟩ | ⟨-, -, heq⟩⟩ := s.onEcho_cases report now
  · rw [heq]
    exact ⟨_, .refl _, ⟨hs.known, hs.nil⟩, .of_eq rfl, { hm with }⟩
  · rw [heq]
    exact ⟨_, checkBlock_judged _, checkBlock_blocks hwas, .of_eq rfl,
      { hm with }⟩
  rw [heq]
  obtain ⟨hjudged, hblocks⟩ := checkBlock_reconcile_judged (s := { s with
      now := some now
      glitch := g
      repairRun := r
      lastReportKey := some (report.stateNum, report.inputSeq)
      tty := report.tty
      covered := max s.covered report.inputSeq }) hwas
  exact ⟨_, hjudged, hblocks, .of_eq rfl, { hm with }⟩

theorem apply_between (W : Widths) (n : Nat)
    {op : PredictOp} (hop : op.isInput = false) (hs : s.Blocks) (hm : s.Mirrors screen) :
    ∃ v, Between s v (s.apply W n op) (op.screen screen) := by
  have hwas : s.wasBlocked = true → s.pending = [] := fun h => hs.nil (hs.known ▸ h)
  cases op with
  | input bytes now => cases hop
  | state state stateNum now =>
    have hheard := s.received_heard state stateNum now
    have hkept := s.received_wasBlocked state stateNum now
    obtain ⟨hjudged, hblocks⟩ := checkBlock_reconcile_judged
      (s := s.received state stateNum now) fun h => hheard.nil (hwas (hkept ▸ h))
    exact ⟨_, hjudged, hblocks, hheard.trans (.of_eq rfl),
      { s.received_mirrors state stateNum now with }⟩
  | echo report now => exact onEcho_between hs hm report now
  | policy | statusLine =>
    exact ⟨_, .refl _, ⟨hs.known, hs.nil⟩, .of_eq rfl, { hm with }⟩
  | writer writer =>
    obtain ⟨hjudged, hblocks⟩ := checkBlock_reconcile_judged (s := { s with writer }) hwas
    exact ⟨_, hjudged, hblocks, .of_eq rfl, { hm with }⟩
  | tick now =>
    obtain ⟨g, r, ht⟩ := s.tick_eq now
    refine ⟨s.tick now, .refl _, ?_, s.tick_heard now, ?_⟩
    · rw [apply, onTick, ht]
      exact ⟨hs.known, hs.nil⟩
    · rw [ht]
      exact { hm with }
  | legChange inputSeq =>
    exact ⟨_, .refl _, ⟨hs.known, hs.nil⟩,
      ⟨Nat.le_succ _, .inl rfl, rfl, fun _ he => he, rfl, rfl, rfl⟩,
      { hm with }⟩

/-! ## One key -/

theorem predictAt_eq_some {r c : Nat} (h : s.predictAt = some (r, c)) :
    s.blocked.isSome = false ∧ s.haveState = true ∧ s.cursor = some (r, c) ∧
      s.pending.length < MAX_PENDING ∧ r = s.row := by
  rw [predictAt] at h
  split at h
  · cases h
  rename_i hgo
  split at h
  · cases h
  rename_i r' c' hcursor
  split at h
  · cases h
  rename_i hroom
  cases h
  simp only [not_or, Bool.not_eq_true, Bool.not_eq_false', ne_eq, not_not,
    Nat.not_le] at hgo hroom
  exact ⟨hgo.1, by simpa using hgo.2.2, hcursor, hroom.1, hroom.2⟩

/-- The prediction for a key, with the row it is made in; `none` when the key
breaks the epoch. -/
def predicts (W : Widths) (now : Nat) (s : Predictor) (key : Ev × Nat) : Option (Nat × Pred) :=
  s.predictAt.bind fun rc =>
    (s.build W key.1 rc.2 now).map fun p => (rc.1, { p with epoch := s.epoch, inputEnd := key.2 })

/-- What holds where a key is predicted. -/
structure Made (W : Widths) (now : Nat) (s : Predictor) (key : Ev × Nat) (p : Pred) : Prop where
  free : s.blocked.isSome = false
  haveState : s.haveState = true
  room : s.pending.length < MAX_PENDING
  epoch : p.epoch = s.epoch
  inputEnd : p.inputEnd = key.2
  built : ∃ c q, s.cursor = some (s.row, c) ∧ s.build W key.1 c now = some q ∧
    p = { q with epoch := s.epoch, inputEnd := key.2 }

theorem onKey_cases (W : Widths) (now : Nat) (s : Predictor) (key : Ev × Nat) :
    (s.predicts W now key = none ∧ onKey W now s key = s.breakEpoch key.2) ∨
      ∃ p, s.predicts W now key = some (s.row, p) ∧ onKey W now s key = s.push s.row p ∧
        Made W now s key p := by
  obtain ⟨ev, e⟩ := key
  rw [onKey, tryPredict, predicts]
  cases hat : s.predictAt with
  | none => exact .inl ⟨rfl, rfl⟩
  | some rc =>
    obtain ⟨r, c⟩ := rc
    obtain ⟨hfree, hstate, hcursor, hroom, rfl⟩ := predictAt_eq_some hat
    dsimp only [Option.bind_some]
    cases hbuild : s.build W ev c now with
    | none => exact .inl ⟨rfl, rfl⟩
    | some p =>
      exact .inr ⟨_, rfl, rfl, hfree, hstate, hroom, rfl, rfl, c, p, hcursor, hbuild, rfl⟩

theorem onKey_hostSide (W : Widths) (now : Nat) (s : Predictor) (key : Ev × Nat) :
    (onKey W now s key).hostSide = s.hostSide ∧ (onKey W now s key).row = s.row := by
  rcases onKey_cases W now s key with ⟨-, hkey⟩ | ⟨p, -, hkey, -⟩
  all_goals
    rw [hkey]
    exact ⟨rfl, rfl⟩

theorem onKeys_hostSide (W : Widths) (now : Nat) (s : Predictor) (keys : List (Ev × Nat)) :
    (keys.foldl (onKey W now) s).hostSide = s.hostSide ∧
      (keys.foldl (onKey W now) s).row = s.row := by
  refine List.foldlRecOn keys _ (motive := fun t : Predictor => t.hostSide = _ ∧ t.row = _)
    ⟨rfl, rfl⟩ fun t ht key _ => ?_
  obtain ⟨hhost, hrow⟩ := onKey_hostSide W now t key
  exact ⟨hhost.trans ht.1, hrow.trans ht.2⟩

/-- The predictor when the bytes of a read are parsed and no key is followed
yet. -/
def reading (s : Predictor) (bytes : List UInt8) (inputEnd now : Nat) : Predictor :=
  let s := { s.tick now with lastInputEnd := max (s.tick now).lastInputEnd inputEnd }
  let parsed := parseRead s.carry bytes s.inPaste inputEnd
  { s with carry := parsed.carry, inPaste := parsed.inPaste }

theorem onInput_eq (W : Widths) (s : Predictor) (bytes : List UInt8) (inputEnd now : Nat) :
    s.onInput W bytes inputEnd now =
      (parseRead s.carry bytes s.inPaste inputEnd).keys.foldl (onKey W now)
        (s.reading bytes inputEnd now) := by
  obtain ⟨g, r, ht⟩ := s.tick_eq now
  rw [onInput, reading, ht]

theorem reading_eq (s : Predictor) (bytes : List UInt8) (inputEnd now : Nat) :
    ∃ glitch repairRun carry inPaste, s.reading bytes inputEnd now =
      { s with
        now := some now, glitch, repairRun, carry, inPaste
        lastInputEnd := max s.lastInputEnd inputEnd } := by
  obtain ⟨g, r, ht⟩ := s.tick_eq now
  rw [reading, ht]
  exact ⟨g, r, _, _, rfl⟩

theorem reading_carry (s : Predictor) (bytes : List UInt8) (inputEnd now : Nat) :
    (s.reading bytes inputEnd now).carry = (parseRead s.carry bytes s.inPaste inputEnd).carry := by
  obtain ⟨g, r, ht⟩ := s.tick_eq now
  rw [reading, ht]

/-! ## The order of the predictions -/

/-- The predictions stand in the order of their input, and the bytes of a split
character come after all of them; `n` is the offset of the next byte. -/
structure Sane (s : Predictor) (n : Nat) : Prop where
  blocks : s.Blocks
  carry : s.carry.length ≤ n
  ordered : s.pending.Pairwise (·.inputEnd < ·.inputEnd)
  within : ∀ p ∈ s.pending, p.inputEnd + s.carry.length ≤ n

theorem Sane.nodup {n : Nat} (h : s.Sane n) : s.pending.Nodup :=
  h.ordered.imp (S := (· ≠ ·)) fun hlt heq => Nat.ne_of_lt hlt (congrArg Pred.inputEnd heq)

theorem Sane.judged {v t : Predictor} {n n' : Nat} (hs : s.Sane n) (ht : Judged v t)
    (hb : t.Blocks) (hv : Heard s v) (hn : n ≤ n') : t.Sane n' := by
  have hsub : t.pending.Sublist s.pending := by
    rcases hv.pending with heq | hnil
    · exact heq ▸ ht.pending
    · have hnil : t.pending = [] := sublist_nil.1 (hnil ▸ ht.pending)
      rw [hnil]
      exact nil_sublist _
  have hcarry : t.carry = s.carry := (congrArg Predictor.carry ht.host :).trans hv.carry
  refine ⟨hb, ?_, hs.ordered.sublist hsub, fun p hp => ?_⟩
  · rw [hcarry]
    exact Nat.le_trans hs.carry hn
  · rw [hcarry]
    exact Nat.le_trans (hs.within p (hsub.subset hp)) hn

theorem onKeys_ordered (W : Widths) (now : Nat) {keys : List (Ev × Nat)}
    (hsorted : (keys.map (·.2)).Pairwise (· < ·)) (lo : Nat)
    (hlo : ∀ e ∈ keys.map (·.2), lo < e) (hs : s.pending.Pairwise (·.inputEnd < ·.inputEnd))
    (hle : ∀ p ∈ s.pending, p.inputEnd ≤ lo) :
    (keys.foldl (onKey W now) s).pending.Pairwise (·.inputEnd < ·.inputEnd) ∧
      ∀ p ∈ (keys.foldl (onKey W now) s).pending, p ∈ s.pending ∨ p.inputEnd ∈ keys.map (·.2) := by
  induction keys generalizing s lo with
  | nil => exact ⟨hs, fun p hp => .inl hp⟩
  | cons key keys ih =>
    rw [map_cons, pairwise_cons] at hsorted
    obtain ⟨hfirst, hsorted⟩ := hsorted
    have hkey : lo < key.2 := hlo key.2 mem_cons_self
    rw [foldl_cons]
    rcases onKey_cases W now s key with ⟨-, hone⟩ | ⟨p, -, hone, hmade⟩
    · rw [hone]
      obtain ⟨hord, hmem⟩ := ih hsorted (s := s.breakEpoch key.2) lo
        (fun e he => Nat.lt_trans hkey (hfirst e he)) hs hle
      exact ⟨hord, fun q hq => (hmem q hq).imp_right (mem_cons_of_mem _)⟩
    rw [hone]
    have hpushed : ∀ q ∈ (s.push s.row p).pending, q ∈ s.pending ∨ q = p := by
      intro q hq
      exact (mem_append.1 hq).imp_right mem_singleton.1
    have hend := hmade.inputEnd
    obtain ⟨hord, hmem⟩ := ih hsorted (s := s.push s.row p) key.2 hfirst
      (pairwise_append.2 ⟨hs, pairwise_singleton _ _, fun q hq q' hq' => by
        rw [mem_singleton.1 hq', hend]
        exact Nat.lt_of_le_of_lt (hle q hq) hkey⟩)
      (fun q hq => by
        rcases hpushed q hq with hq | rfl
        · exact Nat.le_of_lt (Nat.lt_of_le_of_lt (hle q hq) hkey)
        · exact Nat.le_of_eq hend)
    refine ⟨hord, fun q hq => ?_⟩
    rcases hmem q hq with hq | hq
    · rcases hpushed q hq with hq | rfl
      · exact .inl hq
      · exact .inr (hend ▸ mem_cons_self)
    · exact .inr (mem_cons_of_mem _ hq)

theorem onKeys_blocks (W : Widths) (now : Nat) (keys : List (Ev × Nat))
    (hs : s.Blocks) : (keys.foldl (onKey W now) s).Blocks := by
  refine List.foldlRecOn keys _ hs fun s hs key _ => ?_
  rcases onKey_cases W now s key with ⟨-, hone⟩ | ⟨p, -, hone, hmade⟩
  · rw [hone]
    exact ⟨hs.known, hs.nil⟩
  · rw [hone]
    have hfree := hmade.free
    exact ⟨hs.known, fun hb => absurd (hfree.symm.trans hb) Bool.false_ne_true⟩

theorem onKeys_mirrors (W : Widths) (now : Nat) (keys : List (Ev × Nat)) (hs : s.Mirrors screen) :
    (keys.foldl (onKey W now) s).Mirrors screen := by
  refine List.foldlRecOn keys _ (motive := (Mirrors · screen)) hs fun s hs key _ => ?_
  rcases onKey_cases W now s key with ⟨-, hone⟩ | ⟨p, -, hone, hmade⟩
  · rw [hone]
    exact { hs with }
  · rw [hone]
    have hstate := hmade.haveState
    exact ⟨fun hno => absurd (hstate.symm.trans hno) nofun, hs.rows⟩

theorem onInput_mirrors (W : Widths)
    (hs : s.Mirrors screen) (bytes : List UInt8) (inputEnd now : Nat) :
    (s.onInput W bytes inputEnd now).Mirrors screen := by
  rw [onInput_eq]
  obtain ⟨g, r, c, q, hread⟩ := s.reading_eq bytes inputEnd now
  refine onKeys_mirrors W now _ ?_
  rw [hread]
  exact { hs with }

theorem onInput_sane (W : Widths) {n : Nat} (hs : s.Sane n) (bytes : List UInt8)
    (now : Nat) : (s.onInput W bytes (n + bytes.length) now).Sane (n + bytes.length) := by
  rw [onInput_eq]
  obtain ⟨g, r, c, q, hread⟩ := s.reading_eq bytes (n + bytes.length) now
  have hcarry := s.reading_carry bytes (n + bytes.length) now
  obtain ⟨hkeys, hsorted⟩ := parseRead_spec bytes s.inPaste hs.carry
  have hleft := parseRead_carry_le s.carry bytes s.inPaste (n + bytes.length)
  have hpending : (s.reading bytes (n + bytes.length) now).pending = s.pending := by rw [hread]
  have hblocks : (s.reading bytes (n + bytes.length) now).Blocks := by
    rw [hread]
    exact ⟨hs.blocks.known, hs.blocks.nil⟩
  generalize s.reading bytes (n + bytes.length) now = t at hcarry hpending hblocks ⊢
  have hbound := hs.carry
  obtain ⟨hord, hmem⟩ := onKeys_ordered W now hsorted (s := t) (n - s.carry.length)
    (forall_mem_map.2 fun key hkey => (hkeys key hkey).1) (hpending ▸ hs.ordered) (fun p hp => by
      have hin := hs.within p (hpending ▸ hp)
      omega)
  have hkept : ((parseRead s.carry bytes s.inPaste (n + bytes.length)).keys.foldl (onKey W now)
      t).carry = t.carry :=
    (congrArg Predictor.carry (onKeys_hostSide W now t _).1 :)
  refine ⟨onKeys_blocks W now _ hblocks, ?_, hord, fun p hp => ?_⟩
  · rw [hkept, hcarry]
    omega
  rw [hkept, hcarry]
  rcases hmem p hp with hp | hp
  · have hin := hs.within p (hpending ▸ hp)
    omega
  · obtain ⟨key, hkey, hp⟩ := mem_map.1 hp
    have hin := (hkeys key hkey).2.1
    omega

theorem new_sane (capable : Bool) (n : Nat) : (new capable).Sane n where
  blocks := ⟨by cases capable <;> rfl, fun _ => rfl⟩
  carry := Nat.zero_le n
  ordered := .nil
  within _ hp := absurd hp not_mem_nil

theorem new_mirrors (capable : Bool) : (new capable).Mirrors none where
  nil _ := rfl
  rows := nofun

end Predictor

end Qsh.Client
