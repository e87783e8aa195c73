import Qsh.Lib.Run

/-!
# The disconnection budget

The loops of `Supervisor::run` and `reestablish` (`ops/tunnel/supervise.rs`) with the
`Budget` they keep (`tunnel/supervise/budget.rs`).  Times are nanoseconds of the
monotonic clock.

A wake is a change of a watch channel.  The pacer reads it in a wait between two attempts,
where it races with the timers; while the tunnel is connected it is only logged.
-/

namespace Qsh.Tunnel

open Qsh.Lib Option

/-- How long a carrier has to stay up for the outages before it to be forgotten: 30 s. -/
def STABLE_AFTER : Nat := 30 * 1000000000

inductive LinkState where
  | up (since : Nat)
  | down (since : Nat)

/-- The time a tunnel may be without a carrier. -/
structure Budget where
  total : Nat
  spent : Nat
  state : LinkState
  grace : Bool

namespace Budget

def new (total now : Nat) : Budget := ⟨total, 0, .up now, false⟩

variable (b : Budget) (now : Nat)

/-- The carrier is gone; one that was stable clears the time. -/
def lost : Budget :=
  match b.state with
  | .up since =>
      { b with
        spent := if STABLE_AFTER ≤ now - since then 0 else b.spent
        state := .down now }
  | .down _ => b

def outage : Nat :=
  match b.state with
  | .up _ => b.spent
  | .down since => b.spent + (now - since)

def reestablished : Budget :=
  { b with spent := b.outage now, state := .up now, grace := false }

/-- The budget that is left. -/
def remaining : Nat := b.total - b.outage now

/-- Nothing is left, and no wake grants an attempt. -/
def exhausted : Bool := !b.grace && b.remaining now = 0

def noteWake : Budget := { b with grace := true }

def noteAttempt : Budget := { b with grace := false }

end Budget

inductive Phase where
  | connected
  /-- At the top of the loop of `reestablish`. -/
  | deciding
  | attempting
  | waiting
  /-- Ended for lack of budget. -/
  | gaveUp
  | finished
  deriving DecidableEq

def Phase.isDown : Phase → Bool
  | .deciding | .attempting | .waiting => true
  | _ => false

/-- The supervisor, and from `age` on what happened so far. -/
structure Supervisor where
  now : Nat
  budget : Budget
  phase : Phase
  /-- The pacer has a wake to read. -/
  pending : Bool
  /-- How long the carrier has been up. -/
  age : Nat
  /-- The time without a carrier since the last one that stayed up `STABLE_AFTER`. -/
  away : Nat
  /-- A wake was signalled since the last attempt started. -/
  signalled : Bool
  /-- A wake was received since the last attempt started. -/
  received : Bool
  wakes : Nat
  /-- The attempts that started with the budget spent. -/
  beyond : Nat

inductive SuperviseOp where
  | tick (d : Nat)
  | wake
  | lost
  /-- The tunnel was closed, or an answer was fatal. -/
  | finish
  | decide
  | install
  | fail
  /-- The wait is over: after its delay, by a wake, or with the budget. -/
  | elapse
  | woken
  | runOut

namespace Supervisor

def new (total now : Nat) : Supervisor :=
  ⟨now, .new total now, .connected, false, 0, 0, false, false, 0, 0⟩

/-- One step.  A wait with several branches ready takes any of them. -/
def step (s : Supervisor) : SuperviseOp → Option Supervisor
  | .tick d => some { s with
      now := s.now + d
      age := if s.phase = .connected then s.age + d else s.age
      away := if s.phase.isDown then s.away + d else s.away }
  | .wake =>
      if s.phase = .gaveUp ∨ s.phase = .finished then none
      else some { s with pending := true, signalled := true, wakes := s.wakes + 1 }
  | .lost =>
      if s.phase = .connected then
        some { s with
          budget := s.budget.lost s.now
          phase := .deciding
          away := if STABLE_AFTER ≤ s.age then 0 else s.away }
      else none
  | .finish =>
      if s.phase = .connected ∨ s.phase = .attempting then some { s with phase := .finished }
      else none
  | .decide =>
      if s.phase = .deciding then
        if s.budget.exhausted s.now then some { s with phase := .gaveUp }
        else some { s with
          budget := s.budget.noteAttempt
          phase := .attempting
          signalled := false
          received := false
          beyond := if s.away < s.budget.total then s.beyond else s.beyond + 1 }
      else none
  | .install =>
      if s.phase = .attempting then
        some { s with budget := s.budget.reestablished s.now, phase := .connected, age := 0 }
      else none
  | .fail => if s.phase = .attempting then some { s with phase := .waiting } else none
  | .elapse => if s.phase = .waiting then some { s with phase := .deciding } else none
  | .woken =>
      if s.phase = .waiting ∧ s.pending then
        some { s with
          budget := s.budget.noteWake
          phase := .deciding
          pending := false
          received := true }
      else none
  | .runOut =>
      if s.phase = .waiting ∧ s.budget.remaining s.now = 0 then some { s with phase := .gaveUp }
      else none

/-- The budget keeps the account of the time without a carrier, and an attempt beyond it
takes a wake. -/
structure Ledger (total : Nat) (s : Supervisor) : Prop where
  total : s.budget.total = total
  up : s.phase = .connected →
    s.budget.state = .up (s.now - s.age) ∧ s.age ≤ s.now ∧ s.budget.spent = s.away
  down : s.phase.isDown = true →
    ∃ since ≤ s.now, s.budget.state = .down since ∧ s.budget.spent + (s.now - since) = s.away
  grace : s.budget.grace = true → s.received = true
  count : s.beyond + s.budget.grace.toNat + s.pending.toNat ≤ s.wakes

variable {total now : Nat} {s t : Supervisor} {op : SuperviseOp}

theorem Ledger.starts (h : s.Ledger total) (hphase : s.phase = .deciding)
    (hleft : ¬s.budget.exhausted s.now = true) : s.away < total ∨ s.budget.grace = true := by
  obtain ⟨since, -, hstate, hspent⟩ := h.down (by rw [hphase]; rfl)
  have htotal := h.total
  simp only [Budget.exhausted, Budget.remaining, Budget.outage, hstate] at hleft
  grind

theorem Ledger.step (hs : s.step op = some t) (h : s.Ledger total) : t.Ledger total := by
  have hstarts := h.starts
  obtain ⟨htotal, hup, hdown, hgrace, hcount⟩ := h
  cases op with simp only [Supervisor.step] at hs
  | tick d =>
    cases hs
    refine ⟨htotal, ?_, ?_, hgrace, hcount⟩ <;> grind [Phase.isDown]
  | wake =>
    obtain ⟨-, hs⟩ := ite_none_left_eq_some.1 hs
    cases hs
    exact ⟨htotal, hup, hdown, hgrace, by grind⟩
  | lost =>
    obtain ⟨hphase, rfl⟩ := ite_some_none_eq_some.1 hs
    obtain ⟨hstate, hage, hspent⟩ := hup hphase
    simp only [Budget.lost, hstate, hspent, Nat.sub_sub_self hage]
    exact ⟨htotal, by simp, fun _ => ⟨s.now, Nat.le_refl _, rfl, by simp⟩, hgrace, hcount⟩
  | decide =>
    obtain ⟨hphase, hs⟩ := ite_none_right_eq_some.1 hs
    split at hs <;> cases hs
    · exact ⟨htotal, by simp, by simp [Phase.isDown], hgrace, hcount⟩
    rename_i hleft
    have hstarts := hstarts hphase hleft
    rw [← htotal] at hstarts
    exact ⟨htotal, by simp, fun _ => hdown (by rw [hphase]; rfl), by simp [Budget.noteAttempt], by
      grind [Budget.noteAttempt]⟩
  | install =>
    obtain ⟨hphase, rfl⟩ := ite_some_none_eq_some.1 hs
    obtain ⟨since, -, hstate, hspent⟩ := hdown (by rw [hphase]; rfl)
    refine ⟨htotal, fun _ => ⟨rfl, Nat.zero_le _, ?_⟩, by simp [Phase.isDown],
      by simp [Budget.reestablished], ?_⟩
    · simpa only [Budget.reestablished, Budget.outage, hstate] using hspent
    · exact Nat.le_trans (Nat.add_le_add_right (Nat.le_add_right _ _) _) hcount
  | woken =>
    obtain ⟨⟨hphase, hpending⟩, rfl⟩ := ite_some_none_eq_some.1 hs
    exact ⟨htotal, by simp, fun _ => hdown (by rw [hphase]; rfl), fun _ => rfl, by
      grind [Budget.noteWake]⟩
  | fail | elapse =>
    obtain ⟨hphase, rfl⟩ := ite_some_none_eq_some.1 hs
    exact ⟨htotal, by simp, fun _ => hdown (by rw [hphase]; rfl), hgrace, hcount⟩
  | finish | runOut =>
    obtain ⟨-, rfl⟩ := ite_some_none_eq_some.1 hs
    exact ⟨htotal, by simp, by simp [Phase.isDown], hgrace, hcount⟩

/-- An attempt starts only with less than `total` of time without a carrier since the last
one that stayed up `STABLE_AFTER`, or after a wake that was received since the attempt before
it started; and there are no more attempts beyond the budget than wakes. -/
theorem flapping_does_not_refill {ops : List SuperviseOp}
    (h : Run Supervisor.step (fun _ _ => True) (.new total now) ops s) :
    (∀ t, s.step .decide = some t → t.phase = .attempting →
      s.away < total ∨ s.received = true) ∧ s.beyond ≤ s.wakes := by
  have hl : s.Ledger total :=
    h.invariant (fun _ _ _ _ => Ledger.step)
      ⟨rfl, fun _ => ⟨rfl, Nat.zero_le _, rfl⟩, nofun, nofun, Nat.le_refl _⟩
  refine ⟨fun t ht hphase => ?_, by have := hl.count; omega⟩
  simp only [Supervisor.step] at ht
  obtain ⟨hdeciding, ht⟩ := ite_none_right_eq_some.1 ht
  split at ht <;> cases ht
  · cases hphase
  · next hleft => exact (hl.starts hdeciding hleft).imp_right hl.grace

/-- The budget is spent when the attempt fails, and a wake lets another one start. -/
theorem flapping_does_not_refill_woken :
    ∃ s, Run Supervisor.step (fun _ _ => True) (.new 1000000 0)
        [.lost, .decide, .tick 1000000, .wake, .fail, .woken, .decide] s ∧
      s.beyond = 1 ∧ s.beyond ≤ s.wakes :=
  Run.exists_exec (fun s => s.beyond = 1) (by decide +kernel) fun s hrun hbeyond =>
    ⟨hbeyond, (flapping_does_not_refill hrun).2⟩

/-- A wait that could end by a wake signalled since the last attempt started does not end
with the budget, and there is budget left, until the check, whenever such a wake goes
unread: one that comes after the wait or the loss, one that came while the carrier was up,
and one that loses to the delay of the wait. -/
def Prompt (s : Supervisor) : SuperviseOp → Prop
  | .tick d => s.phase = .deciding → s.signalled = true → s.budget.grace = true ∨
      0 < s.budget.remaining (s.now + d)
  | .wake => s.phase = .deciding → s.budget.grace = true ∨ 0 < s.budget.remaining s.now
  | .lost => s.signalled = true → 0 < (s.budget.lost s.now).remaining s.now
  | .elapse => s.signalled = true → s.pending = true → 0 < s.budget.remaining s.now
  | .runOut => s.signalled = true → s.pending = false
  | _ => True

/-- A wake that was signalled is in the budget or with the pacer, or budget is left. -/
structure Kept (s : Supervisor) : Prop where
  deciding : s.phase = .deciding → s.signalled = true →
    s.budget.grace = true ∨ 0 < s.budget.remaining s.now
  waiting : s.phase = .attempting ∨ s.phase = .waiting → s.signalled = true → s.pending = true
  gaveUp : s.phase = .gaveUp → s.signalled = false

theorem Kept.step (hop : s.Prompt op) (hs : s.step op = some t) (h : s.Kept) : t.Kept := by
  obtain ⟨hdeciding, hwaiting, hgave⟩ := h
  cases op with simp only [Supervisor.step] at hs
  | tick d =>
    cases hs
    exact ⟨hop, hwaiting, hgave⟩
  | decide =>
    constructor <;> grind [Budget.exhausted]
  | wake | lost | finish | install | fail | elapse | woken | runOut =>
    constructor <;> grind [Prompt, Budget.noteWake]

instance (s : Supervisor) (op : SuperviseOp) : Decidable (s.Prompt op) := by
  unfold Prompt
  split <;> infer_instance

/-- In such a run the supervisor does not give up for lack of budget with a wake
signalled since its last attempt started. -/
theorem wake_buys_an_attempt {ops : List SuperviseOp}
    (h : Run Supervisor.step Prompt (.new total now) ops s) (hend : s.phase = .gaveUp) :
    s.signalled = false := by
  have hkept : s.Kept := h.invariant (fun _ _ _ => Kept.step) ⟨nofun, nofun, nofun⟩
  exact hkept.gaveUp hend

/-- A wake goes unread with budget left.  Another one buys an attempt with the budget spent,
and the next wait runs out. -/
theorem wake_buys_an_attempt_spent :
    ∃ s, Run Supervisor.step Prompt (.new 1000000 0)
        [.wake, .lost, .decide, .tick 1000000, .wake, .fail, .woken, .decide, .fail, .runOut] s ∧
      s.beyond = 1 ∧ s.phase = .gaveUp ∧ s.signalled = false :=
  Run.exists_exec (fun s => s.beyond = 1 ∧ s.phase = .gaveUp) (by decide +kernel)
    fun s hrun hend => ⟨hend.1, hend.2, wake_buys_an_attempt hrun hend.2⟩

/-- The attempt takes the whole budget.  A wake comes while the new carrier is up, which is
lost at once; nothing read the wake, and the budget is spent. -/
theorem wake_while_connected_is_lost :
    ∃ s, Run Supervisor.step (fun _ _ => True) (.new 1000000 0)
        [.lost, .decide, .tick 1000000, .install, .wake, .lost, .decide] s ∧
      s.phase = .gaveUp ∧ s.signalled = true :=
  Run.exists_of_exec (by decide +kernel)

end Supervisor

end Qsh.Tunnel
