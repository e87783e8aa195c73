import Qsh.Lib.Run
import Qsh.Client.PredictPending

/-!
# Typing at a password prompt

The host's echo reports reach the predictor through `EchoFilter` (`client/echo.rs`).
From a report that says `secret` to the next one that says something else, what the user
types must not be drawn.

The filter and the predictor both drop what is not new, by different rules.  The filter
lets a changed tty state through at the point of the report before it; the predictor
looks at the point only and drops that report as stale.  The prompt is then drawn at like
any other line (`secret_at_same_point_drawn`).

`EchoPath` is the filter in front of the predictor, with the input typed between the two
reports.
-/

namespace Qsh.Client

open Qsh.Lib List
open Qsh.Screen (ScreenState)

/-! ## Reports and their filter -/

structure ScreenEcho where
  stateNum : Nat
  inputSeq : Nat
  tty : Int
  deriving DecidableEq, Repr

namespace ScreenEcho

def ttyEcho (echo : ScreenEcho) : TtyEcho :=
  if echo.tty = 1 then .kernel
  else if echo.tty = 2 then .app
  else if echo.tty = 3 then .secret
  else .unknown

/-- A later state, or the same with more input. -/
def isNewerThan (echo other : ScreenEcho) : Bool :=
  other.stateNum < echo.stateNum ||
    (echo.stateNum = other.stateNum && other.inputSeq < echo.inputSeq)

def report (echo : ScreenEcho) : EchoReport where
  stateNum := echo.stateNum
  inputSeq := echo.inputSeq
  tty := echo.ttyEcho

end ScreenEcho

/-- The checks on the reports of one leg, whichever carrier they come on.
`sent` is the input offset that the writer has reached. -/
structure EchoFilter where
  enabled : Bool
  sent : Nat
  rejected : Nat
  newest : Option ScreenEcho
  deriving DecidableEq, Repr

namespace EchoFilter

def new (enabled : Bool) (sent : Nat) : EchoFilter where
  enabled := enabled
  sent := sent
  rejected := 0
  newest := none

def isOld (f : EchoFilter) (echo : ScreenEcho) : Bool :=
  f.newest.any fun newest =>
    newest.isNewerThan echo ||
      (newest.stateNum = echo.stateNum && newest.inputSeq = echo.inputSeq && newest.tty = echo.tty)

/-- Drops reports of input that was not sent, and old ones. -/
def accept (f : EchoFilter) (echo : ScreenEcho) : EchoFilter × Option ScreenEcho :=
  if !f.enabled then (f, none)
  else if f.sent < echo.inputSeq then ({ f with rejected := f.rejected + 1 }, none)
  else if f.isOld echo then (f, none)
  else ({ f with newest := some echo }, some echo)

theorem accept_eq_some {f g : EchoFilter} {echo out : ScreenEcho}
    (h : f.accept echo = (g, some out)) : out = echo := by
  rw [accept] at h
  split_ifs at h
  · cases h
  · cases h
  · cases h
  · cases h
    rfl

end EchoFilter

/-! ## The path of the reports -/

/-- The filter, the predictor behind it, and the offset of the typed input.
`secret` is whether the last report that was let through says so, and `hidden`
has the input that was typed while it did. -/
structure EchoPath where
  filter : EchoFilter
  predictor : Predictor
  typed : Nat
  secret : Bool
  hidden : List (Nat × Nat)

inductive EchoOp
  | report (echo : ScreenEcho) (now : Nat)
  | state (state : ScreenState) (stateNum now : Nat)
  | input (bytes : List UInt8) (now : Nat)
  /-- The writer has sent the input up to `n`. -/
  | sent (n : Nat)
  | policy (policy : Prediction)
  | statusLine (up : Bool)
  | writer (writer : Bool)
  | tick (now : Nat)
  /-- A new leg, on which the host has applied the input up to `inputSeq`. -/
  | legChange (enabled : Bool) (inputSeq : Nat)
  deriving DecidableEq, Repr

namespace EchoPath

def new (capable enabled : Bool) (inputSeq : Nat) : EchoPath where
  filter := .new enabled inputSeq
  predictor := .new capable
  typed := inputSeq
  secret := false
  hidden := []

def step (W : Widths) (x : EchoPath) : EchoOp → Option EchoPath
  | .report echo now =>
      match x.filter.accept echo with
      | (filter, none) => some { x with filter }
      | (filter, some echo) =>
          some { x with
            filter
            predictor := x.predictor.onEcho echo.report now
            secret := echo.ttyEcho = .secret }
  | .state state stateNum now =>
      some { x with predictor := x.predictor.onState state stateNum now }
  | .input bytes now =>
      let typed := x.typed + bytes.length
      some { x with
        predictor := x.predictor.onInput W bytes typed now
        typed
        hidden := if x.secret then x.hidden ++ [(x.typed, typed)] else x.hidden }
  | .sent n => some { x with filter := { x.filter with sent := n } }
  | .policy policy => some { x with predictor := x.predictor.onPolicy policy }
  | .statusLine up => some { x with predictor := x.predictor.onStatusLine up }
  | .writer writer => some { x with predictor := x.predictor.onWriter writer }
  | .tick now => some { x with predictor := x.predictor.onTick now }
  | .legChange enabled inputSeq =>
      some { x with
        filter := .new enabled inputSeq
        predictor := x.predictor.onLegChange
        -- another writer's input counts in the offsets too
        typed := max x.typed inputSeq }

/-- The predictor takes a report of a secret tty, or knows already; and no part
of a character is left over when the tty is secret no longer. -/
def Heeded (x : EchoPath) : EchoOp → Prop
  | .report echo _ =>
      (x.filter.accept echo).2.isSome = true →
        if echo.ttyEcho = .secret then
          x.predictor.tty = .secret ∨ x.predictor.Takes echo.report
        else x.secret = true → x.predictor.carry = []
  | _ => True

instance (x : EchoPath) (op : EchoOp) : Decidable (x.Heeded op) := by
  unfold Heeded
  cases op <;> infer_instance

/-! ## Nothing that was typed under a secret tty is predicted -/

/-- The prediction stands for input before or after the typed bytes `h`. -/
def Apart (p : Pred) (h : Nat × Nat) : Prop :=
  p.inputEnd ≤ h.1 ∨ h.2 ≤ p.begin

/-- The invariant: the predictor knows that the tty is secret, and neither a
prediction nor, once the tty is not secret, a split character has bytes that
were typed while it was. -/
structure Unseen (x : EchoPath) : Prop where
  tty : x.secret = true → x.predictor.tty = .secret
  carry : x.predictor.carry.length ≤ x.typed
  hidden : ∀ h ∈ x.hidden, h.2 ≤ x.typed
  clear : x.secret = false → ∀ h ∈ x.hidden, h.2 ≤ x.typed - x.predictor.carry.length
  typed : ∀ p ∈ x.predictor.pending, p.inputEnd ≤ x.typed
  apart : ∀ p ∈ x.predictor.pending, ∀ h ∈ x.hidden, Apart p h

theorem new_unseen (capable enabled : Bool) (inputSeq : Nat) :
    Unseen (new capable enabled inputSeq) where
  tty h := absurd h Bool.false_ne_true
  carry := Nat.zero_le _
  hidden _ h := absurd h not_mem_nil
  clear _ _ h := absurd h not_mem_nil
  typed _ h := absurd h not_mem_nil
  apart _ h := absurd h not_mem_nil

variable {x : EchoPath}

section

variable (h : Unseen x)
include h

theorem Unseen.narrows {q : Predictor} (f : EchoFilter)
    (hq : x.predictor.Narrows q) : Unseen { x with filter := f, predictor := q } where
  tty hs := hq.tty.trans (h.tty hs)
  carry := hq.carry ▸ h.carry
  hidden := h.hidden
  clear := hq.carry ▸ h.clear
  typed p hp := h.typed p (hq.pending p hp)
  apart p hp := h.apart p (hq.pending p hp)

theorem Unseen.report {echo : ScreenEcho} {now : Nat}
    (hop : x.Heeded (.report echo now)) {f : EchoFilter}
    (hacc : x.filter.accept echo = (f, some echo)) :
    Unseen { x with
      filter := f
      predictor := x.predictor.onEcho echo.report now
      secret := echo.ttyEcho = .secret } := by
  have hnar := x.predictor.onEcho_narrows echo.report now
  have hlets : (x.filter.accept echo).2.isSome = true := by rw [hacc]; rfl
  have hop := hop hlets
  refine ⟨fun hs => ?_, hnar.carry ▸ h.carry, h.hidden, fun hs => ?_,
    fun p hp => h.typed p (hnar.pending p hp), fun p hp => h.apart p (hnar.pending p hp)⟩
  · have hsecret : echo.ttyEcho = .secret := of_decide_eq_true hs
    rw [if_pos hsecret] at hop
    -- if the predictor drops the report, it must know from an earlier one
    have htty : (if x.predictor.Takes echo.report then echo.report.tty else x.predictor.tty) =
        .secret := by
      by_cases htakes : x.predictor.Takes echo.report
      · rw [if_pos htakes]
        exact hsecret
      · rw [if_neg htakes]
        exact hop.resolve_right htakes
    exact hnar.tty.trans htty
  have hother : echo.ttyEcho ≠ .secret := of_decide_eq_false hs
  rw [if_neg hother] at hop
  rw [hnar.carry]
  cases hwas : x.secret with
  | false => exact h.clear hwas
  | true =>
    rw [hop hwas]
    exact h.hidden

theorem Unseen.input (W : Widths) (bytes : List UInt8) (now : Nat) :
    Unseen { x with
      predictor := x.predictor.onInput W bytes (x.typed + bytes.length) now
      typed := x.typed + bytes.length
      hidden := if x.secret then x.hidden ++ [(x.typed, x.typed + bytes.length)]
        else x.hidden } := by
  obtain ⟨hpending, hcarry, htty⟩ := x.predictor.onInput_spec W bytes now h.carry
  have hbefore := h.carry
  have hhidden : ∀ r ∈ (if x.secret then x.hidden ++ [(x.typed, x.typed + bytes.length)]
      else x.hidden), r ∈ x.hidden ∨ x.secret = true ∧ r = (x.typed, x.typed + bytes.length) := by
    intro r hr
    split at hr
    · exact (mem_append.1 hr).imp_right fun hr => ⟨‹_›, mem_singleton.1 hr⟩
    · exact .inl hr
  refine ⟨fun hsec => htty.trans (h.tty hsec), ?_, fun r hr => ?_, fun hno r hr => ?_,
    fun p hp => ?_, fun p hp r hr => ?_⟩
  · show (x.predictor.onInput W bytes (x.typed + bytes.length) now).carry.length ≤
      x.typed + bytes.length
    omega
  · rcases hhidden r hr with hr | ⟨-, rfl⟩
    · exact Nat.le_trans (h.hidden r hr) (Nat.le_add_right _ _)
    · exact Nat.le_refl _
  · have hno : x.secret = false := hno
    rcases hhidden r hr with hr | ⟨hsec, -⟩
    · have hle := h.clear hno r hr
      show r.2 ≤ x.typed + bytes.length -
        (x.predictor.onInput W bytes (x.typed + bytes.length) now).carry.length
      omega
    · cases hno.symm.trans hsec
  · rcases hpending p hp with hold | ⟨-, -, hle⟩
    · exact Nat.le_trans (h.typed p hold) (Nat.le_add_right _ _)
    · exact hle
  · rcases hpending p hp with hold | ⟨hnot, hbegin, -⟩
    · rcases hhidden r hr with hr | ⟨-, rfl⟩
      · exact h.apart p hold r hr
      · exact .inl (h.typed p hold)
    -- under a secret tty nothing is predicted
    have hshown : x.secret = false := Bool.eq_false_iff.2 fun hsec => hnot (h.tty hsec)
    rcases hhidden r hr with hr | ⟨hsec, -⟩
    · exact .inr (Nat.le_trans (h.clear hshown r hr) hbegin)
    · cases hshown.symm.trans hsec

theorem Unseen.legChange (enabled : Bool) (inputSeq : Nat) :
    Unseen { x with
      filter := .new enabled inputSeq
      predictor := x.predictor.onLegChange
      typed := max x.typed inputSeq } where
  __ := h
  carry := Nat.le_trans h.carry (Nat.le_max_left _ _)
  hidden r hr := Nat.le_trans (h.hidden r hr) (Nat.le_max_left _ _)
  clear hs r hr :=
    Nat.le_trans (h.clear hs r hr) (Nat.sub_le_sub_right (Nat.le_max_left _ _) _)
  typed p hp := Nat.le_trans (h.typed p hp) (Nat.le_max_left _ _)

end

theorem step_unseen {W : Widths} {y : EchoPath} {op : EchoOp} (hop : x.Heeded op)
    (hs : x.step W op = some y) (h : Unseen x) : Unseen y := by
  have keep : ∀ f : EchoFilter, Unseen { x with filter := f } := fun f => h.narrows f (.refl _)
  cases op with
  | report echo now =>
    rw [step] at hs
    cases hacc : x.filter.accept echo with
    | mk f out =>
      rw [hacc] at hs
      cases out with
      | none =>
        cases hs
        exact keep f
      | some out =>
        have hout := EchoFilter.accept_eq_some hacc
        subst hout
        cases hs
        exact h.report hop hacc
  | state state stateNum now =>
    cases hs
    exact h.narrows _ (x.predictor.onState_narrows state stateNum now)
  | input bytes now =>
    cases hs
    exact h.input W bytes now
  | sent n =>
    cases hs
    exact keep _
  | policy | statusLine =>
    cases hs
    exact h.narrows _ ⟨fun _ hp => hp, rfl, rfl⟩
  | writer writer =>
    cases hs
    exact h.narrows _ (x.predictor.onWriter_narrows writer)
  | tick now =>
    cases hs
    exact h.narrows _ (x.predictor.tick_narrows now)
  | legChange enabled inputSeq =>
    cases hs
    exact h.legChange enabled inputSeq

/-- In every run in which the predictor takes the reports of a secret tty,
nothing is drawn while the last report that was let through says secret, and no
prediction, then or later, stands for input that was typed meanwhile. -/
theorem secret_input_not_shown {W : Widths} {capable enabled : Bool} {inputSeq : Nat}
    {ops : List EchoOp} {x : EchoPath}
    (hrun : Run (step W) Heeded (new capable enabled inputSeq) ops x) :
    (x.secret = true → x.predictor.overlay = .empty) ∧
      ∀ p ∈ x.predictor.pending, ∀ h ∈ x.hidden, Apart p h := by
  have h : Unseen x := hrun.invariant (fun _ _ _ hop hs h => step_unseen hop hs h)
    (new_unseen capable enabled inputSeq)
  exact ⟨fun hs => Predictor.overlay_of_secret (h.tty hs), h.apart⟩

/-- Printable ASCII is one column wide in both tables; nothing else is used
below. -/
def asciiWidths : Widths where
  width c := if 0x20 ≤ c.toNat ∧ c.toNat < 0x7f then some 1 else none
  widthCjk c := if 0x20 ≤ c.toNat ∧ c.toNat < 0x7f then some 1 else none

def line (text : List Char) : ScreenState where
  rows := 1
  cols := 10
  cursorRow := 0
  cursorCol := text.length
  modes := .none
  grid :=
    [{ cells := text.map (fun c => { Screen.Cell.blank with text := [c] }) ++
        replicate (10 - text.length) .blank
       wrapped := false }]

/-- The host shows `a`, so `b` is drawn at once.  Then a newer report says
secret, and `c` and `d` are typed. -/
def atPrompt : List EchoOp :=
  [.state (line []) 1 0, .input [0x61] 1, .state (line ['a']) 2 2, .input [0x62] 3, .sent 2,
    .report ⟨2, 1, 1⟩ 4, .report ⟨2, 2, 3⟩ 5, .input [0x63, 0x64] 6]

/-- The next line: the tty is not secret any more, and `e` is typed. -/
def afterPrompt : List EchoOp :=
  [.sent 4, .state (line ['a', 'b']) 3 7, .report ⟨3, 4, 1⟩ 8, .input [0x65] 9]

/-- At the prompt nothing is drawn; on the next line `e` is predicted, and it is
not one of the characters that were typed at the prompt. -/
theorem secret_input_not_shown_prompt :
    (∃ x, Run (step asciiWidths) Heeded (new true true 0) atPrompt x ∧
      x.hidden = [(2, 4)] ∧ x.predictor.overlay = .empty) ∧
    ∃ x, Run (step asciiWidths) Heeded (new true true 0) (atPrompt ++ afterPrompt) x ∧
      x.hidden = [(2, 4)] ∧ x.predictor.pending.map (·.expect) = [['e']] ∧
      ∀ p ∈ x.predictor.pending, ∀ h ∈ x.hidden, Apart p h := by
  refine ⟨Run.exists_exec (fun x => x.secret = true ∧ x.hidden = [(2, 4)]) (by decide +kernel) ?_,
    Run.exists_exec (fun x => x.hidden = [(2, 4)] ∧ x.predictor.pending.map (·.expect) = [['e']])
      (by decide +kernel) ?_⟩
  · intro x hrun hend
    exact ⟨hend.2, (secret_input_not_shown hrun).1 hend.1⟩
  · intro x hrun hend
    exact ⟨hend.1, hend.2, (secret_input_not_shown hrun).2⟩

/-- The report that says secret has the point of the one before it.  The filter
lets it through, the predictor drops it as stale, and what is typed at the
prompt is drawn. -/
theorem secret_at_same_point_drawn :
    ∃ x, Run (step asciiWidths) (fun _ _ => True) (new true true 0)
        [.state (line []) 1 0, .input [0x61] 1, .state (line ['a']) 2 2, .input [0x62] 3, .sent 2,
          .report ⟨2, 1, 1⟩ 4, .report ⟨2, 1, 3⟩ 5, .input [0x63] 6] x ∧
      x.secret = true ∧ x.hidden = [(2, 3)] ∧
      x.predictor.overlay.cells.map (fun c => (c.col, c.cell.text)) = [(1, ['b']), (2, ['c'])] := by
  exact Run.exists_of_exec (by decide +kernel)

end EchoPath

end Qsh.Client
