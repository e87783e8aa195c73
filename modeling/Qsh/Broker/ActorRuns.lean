import Qsh.Broker.Actor

/-!
# Runs of the session actor

* Signals.  Once the exit status has been taken, the process group may be somebody else's.
  A command and the begin of a close look at `exiting` before they signal; an escalation
  step does not.  `signals_stop_at_exit` holds for the runs in which no escalation timer
  fires with a signal left while the child is gone.
* The end of the ring.  `Closed` is the last entry, there is at most one `Exit`, and no
  output comes after it.  `closed_is_last` asks that the pump is not in the middle of a
  poll when `Closed` is appended.
-/

namespace Qsh.Broker

open Qsh.Lib List

namespace Actor

/-! ## What the parts change -/

theorem beginClose_eq (s : Actor) (reason : CloseReason) (signal : Option Signal) :
    ∃ m c sig, s.beginClose reason signal =
        { s with session := m, closing := c, signals := sig } ∧
      (s.exiting = true → sig = s.signals) := by
  unfold beginClose
  cases hc : s.closing with
  | some c => exact ⟨_, _, _, rfl, fun _ => rfl⟩
  | none =>
    dsimp only
    split
    · exact ⟨_, _, _, rfl, fun _ => rfl⟩
    · rename_i hexit
      exact ⟨_, _, _, rfl, fun h => absurd (.inr h) hexit⟩

theorem handleCommand_eq (s : Actor) (cmd : Command) :
    ∃ m c sig extra, s.handleCommand cmd =
        { s with session := m, closing := c, signals := sig,
                 appended := s.appended ++ extra } ∧
      (extra = [] ∨ ∃ w, extra = [.pushControl (.writerChanged w)]) ∧
      (s.exiting = true → sig = s.signals) := by
  unfold handleCommand
  cases cmd with dsimp only
  | write conn data inputSeq send =>
    exact ⟨(s.session.enqueueWrite conn data inputSeq send).1, s.closing, s.signals, [],
      by rw [append_nil], .inl rfl, fun _ => rfl⟩
  | signal signal =>
    split
    · rename_i hrun
      refine ⟨s.session, s.closing, s.signals ++ [signal], [], by rw [append_nil]; rfl,
        .inl rfl, fun h => ?_⟩
      simp [h] at hrun
    · exact ⟨s.session, s.closing, s.signals, [], by rw [append_nil], .inl rfl,
        fun _ => rfl⟩
  | takeLease principal conn physical noSteal =>
    generalize { s.session with
      lease := (s.session.lease.takeOwned principal conn physical noSteal).1 } = m
    split
    · exact ⟨m, s.closing, s.signals, _, rfl, .inr ⟨_, rfl⟩, fun _ => rfl⟩
    · exact ⟨m, s.closing, s.signals, [], by rw [append_nil], .inl rfl, fun _ => rfl⟩
  | releaseConnection conn =>
    generalize { s.session with lease := (s.session.lease.releaseConnection conn).1 } = m
    split
    · exact ⟨m, s.closing, s.signals, _, rfl, .inr ⟨_, rfl⟩, fun _ => rfl⟩
    · exact ⟨m, s.closing, s.signals, [], by rw [append_nil], .inl rfl, fun _ => rfl⟩
  | close reason signal =>
    obtain ⟨m, c, sig, h, hsig⟩ := s.beginClose_eq reason signal
    exact ⟨m, c, sig, [], by rw [append_nil]; exact h, .inl rfl, hsig⟩

theorem escalate_eq (s : Actor) :
    ∃ c sig, s.escalate = { s with closing := c, signals := sig } ∧
      ((∀ c, s.closing = some c → c.next = none) → sig = s.signals) := by
  unfold escalate
  cases hc : s.closing with
  | none => exact ⟨s.closing, s.signals, rfl, fun _ => rfl⟩
  | some c =>
    dsimp only
    cases hn : c.next with
    | none => exact ⟨_, _, rfl, fun _ => rfl⟩
    | some sig =>
      refine ⟨_, _, rfl, fun h => ?_⟩
      rw [h c rfl] at hn
      cases hn

theorem appendExit_eq (s : Actor) (now : Nat) :
    s.appendExit now = s ∨ s.outputDone = true ∧ s.exitAppended = false ∧
        ∃ m code signal, s.appendExit now =
          { s with session := m, exitAppended := true, pendingExit := none,
                   appended := s.appended ++ [.pushControl (.exit code signal)] } := by
  unfold appendExit
  split
  · rename_i h
    right
    exact ⟨h.2.1, by simpa using h.2.2, _, _, _, rfl⟩
  · exact .inl rfl

end Actor

/-! ## Signals -/

/-- No escalation timer fires with a signal left while the child is gone. -/
def NoLateEscalation (s : Actor) : ActorOp → Prop
  | .timer => s.exiting = false ∨ (s.closing.bind Closing.next) = none
  | _ => True

instance (s : Actor) (op : ActorOp) : Decidable (NoLateEscalation s op) := by
  unfold NoLateEscalation
  split <;> infer_instance

theorem Actor.step_signals {s s' : Actor} {op : ActorOp} (hC : NoLateEscalation s op)
    (hstep : s.step op = some s') (hex : s.exiting = true) :
    s'.exiting = true ∧ s'.signals = s.signals := by
  unfold step at hstep
  cases op with dsimp only at hstep
  | loopTop now =>
    split at hstep <;> cases hstep
    rcases s.appendExit_eq now with h | ⟨_, _, m, code, signal, h⟩ <;> rw [h]
    all_goals exact ⟨hex, rfl⟩
  | command cmd =>
    split at hstep <;> cases hstep
    obtain ⟨m, c, sig, extra, h, _, hsig⟩ := s.handleCommand_eq cmd
    rw [h]
    exact ⟨hex, hsig hex⟩
  | timer =>
    split at hstep <;> cases hstep
    obtain ⟨c, sig, h, hsig⟩ := s.escalate_eq
    rw [h]
    refine ⟨hex, hsig ?_⟩
    intro c hc
    rcases hC with hno | hnext
    · rw [hex] at hno
      cases hno
    · simpa [hc] using hnext
  | pumpPush =>
    split at hstep <;> cases hstep
    exact ⟨hex, rfl⟩
  | wait status =>
    split at hstep <;> cases hstep
    exact ⟨rfl, rfl⟩
  | attachGuard | dropGuard | reserve | seed => cases hstep; exact ⟨hex, rfl⟩
  | _ =>
    split at hstep <;> cases hstep
    exact ⟨hex, rfl⟩

/-- In every run in which no escalation timer fires with a signal left while
the child is gone: from a state on in which `exiting` is set,
`SourceControl::signal` is never called again. -/
theorem signals_stop_at_exit {ops : List ActorOp} {s t : Actor}
    (hrun : Run Actor.step NoLateEscalation s ops t) (hex : s.exiting = true) :
    t.signals = s.signals := by
  have hinv : t.exiting = true ∧ t.signals = s.signals := by
    refine hrun.invariant (I := fun u => u.exiting = true ∧ u.signals = s.signals) ?_ ⟨hex, rfl⟩
    intro u op u' hC hstep hu
    obtain ⟨hex', hsig⟩ := Actor.step_signals hC hstep hu.1
    exact ⟨hex', hsig.trans hu.2⟩
  exact hinv.2

def killThenExit : List ActorOp :=
  [.loopTop 0, .command (.close .closed (some .kill)), .loopTop 0, .wait ⟨none, some "SIGKILL"⟩]

/-- Then a signal command, a second close and the last grace send nothing. -/
theorem signals_stop_at_exit_kill :
    ∃ s t, Run Actor.step (fun _ _ => True) (.new 0) killThenExit s ∧ s.exiting = true ∧
      Run Actor.step NoLateEscalation s
        [.loopTop 1, .command (.signal .int), .loopTop 1, .command (.close .closed none),
          .loopTop 1, .timer, .loopTop 2] t ∧
      t.signals = s.signals := by
  have hrun : Run Actor.step NoLateEscalation
      ((execWhere Actor.step (fun _ _ => True) (.new 0) killThenExit).getD (.new 0))
      [.loopTop 1, .command (.signal .int), .loopTop 1, .command (.close .closed none),
        .loopTop 1, .timer, .loopTop 2] _ :=
    .of_execWhere rfl
  exact ⟨_, _, .of_execWhere rfl, rfl, hrun, signals_stop_at_exit hrun rfl⟩

def closeThenExit : List ActorOp :=
  [.loopTop 0, .command (.close .closed none), .loopTop 0, .wait ⟨some 0, none⟩, .loopTop 0]

/-- The escalation timer fires behind that: `SIGTERM` goes to a process group
whose leader was reaped. -/
theorem escalate_signals_after_exit :
    ∃ s t, Run Actor.step (fun _ _ => True) (.new 0) closeThenExit s ∧ s.exiting = true ∧
      Run Actor.step (fun _ _ => True) s [.timer] t ∧ s.signals = [.hup] ∧
      t.signals = [.hup, .term] := by
  exact ⟨_, _, .of_execWhere rfl, rfl, .of_execWhere rfl, rfl, rfl⟩

/-! ## The end of the ring -/

def RingOp.isPush : RingOp → Bool
  | .push _ => true
  | _ => false

def RingOp.isExit : RingOp → Bool
  | .pushControl (.exit _ _) => true
  | _ => false

def RingOp.isClosed : RingOp → Bool
  | .pushControl (.closed _) => true
  | _ => false

/-- `later` may come behind `earlier`: nothing comes behind a `Closed`, and
neither output nor a second `Exit` comes behind an `Exit`. -/
def MayFollow (earlier later : RingOp) : Prop :=
  earlier.isClosed = false ∧ (earlier.isExit = true → later.isExit = false ∧ later.isPush = false)

instance (a b : RingOp) : Decidable (MayFollow a b) := by
  unfold MayFollow
  infer_instance

/-- The session is marked closed only while the pump is idle or done. -/
def PumpAtRest (s : Actor) : ActorOp → Prop
  | .markClosed _ => s.pump = .idle ∨ s.pump = .done
  | _ => True

instance (s : Actor) (op : ActorOp) : Decidable (PumpAtRest s op) := by
  unfold PumpAtRest
  split <;> infer_instance

/-- The events are in order, and `closed` comes last and once. -/
structure CloseInv (s : Actor) : Prop where
  ordered : s.appended.Pairwise MayFollow
  noClosed : s.phase ≠ .finished → ∀ op ∈ s.appended, op.isClosed = false
  noExit : s.exitAppended = false → ∀ op ∈ s.appended, op.isExit = false
  drained : s.exitAppended = true → s.outputDone = true
  eofSeen : s.outputDone = true → s.eofSent = true
  pumpDone : s.eofSent = true → s.pump = .done
  stopped : s.phase = .aborted ∨ s.phase = .finished → s.abortRequested = true
  atRest : s.phase = .finished → s.pump = .idle ∨ s.pump = .done

namespace CloseInv

variable {s : Actor}

theorem new (now : Nat) : CloseInv (.new now) := by
  constructor <;> simp [Actor.new]

section

variable (hs : CloseInv s)
include hs

theorem ordered_snoc {op : RingOp}
    (hop : ∀ a ∈ s.appended, MayFollow a op) : (s.appended ++ [op]).Pairwise MayFollow := by
  rw [pairwise_append]
  refine ⟨hs.ordered, pairwise_singleton _ _, ?_⟩
  intro a ha b hb
  rw [mem_singleton.1 hb]
  exact hop a ha

theorem move (hfin : s.phase ≠ .finished) {phase : Phase}
    (habort : phase ≠ .aborted) (hfin' : phase ≠ .finished) :
    CloseInv { s with phase := phase } :=
  { hs with
    noClosed := fun _ => hs.noClosed hfin
    stopped := fun h => absurd h (by simp [habort, hfin'])
    atRest := fun h => absurd h hfin' }

theorem other (m : Meta) (c : Option Closing) (sig : List Signal) :
    CloseInv { s with session := m, closing := c, signals := sig } :=
  { hs with }

theorem append {op : RingOp} (hfin : s.phase ≠ .finished) (hclosed : op.isClosed = false)
    (hexit : op.isExit = false) (hpush : op.isPush = false ∨ s.exitAppended = false) :
    CloseInv { s with appended := s.appended ++ [op] } :=
  { hs with
    ordered := hs.ordered_snoc fun a ha => ⟨hs.noClosed hfin a ha, fun h => ⟨hexit,
      hpush.resolve_right fun hno => absurd h (by simp [hs.noExit hno a ha])⟩⟩
    noClosed := fun h => forall_mem_append.2 ⟨hs.noClosed h, forall_mem_singleton.2 hclosed⟩
    noExit := fun h => forall_mem_append.2 ⟨hs.noExit h, forall_mem_singleton.2 hexit⟩ }

theorem exit (hfin : s.phase ≠ .finished) (hout : s.outputDone = true)
    (hexit : s.exitAppended = false) (m : Meta) (code : Option Int)
    (signal : Option String) :
    CloseInv { s with session := m, exitAppended := true, pendingExit := none,
                      appended := s.appended ++ [.pushControl (.exit code signal)] } :=
  { hs with
    ordered := hs.ordered_snoc fun a ha =>
      ⟨hs.noClosed hfin a ha, fun h => absurd h (by simp [hs.noExit hexit a ha])⟩
    noClosed := fun h => forall_mem_append.2 ⟨hs.noClosed h, by simp [RingOp.isClosed]⟩
    noExit := fun h => absurd h (by simp)
    drained := fun _ => hout }

theorem closed (hphase : s.phase = .aborted)
    (hpump : s.pump = .idle ∨ s.pump = .done) (m : Meta) (reason : CloseReason) :
    CloseInv { s with session := m, phase := .finished, closing := none,
                      appended := s.appended ++ [.pushControl (.closed reason)] } :=
  { hs with
    ordered := hs.ordered_snoc fun a ha =>
      ⟨hs.noClosed (by simp [hphase]) a ha, fun _ => ⟨rfl, rfl⟩⟩
    noClosed := fun h => absurd rfl h
    noExit := fun h => forall_mem_append.2 ⟨hs.noExit h, by simp [RingOp.isExit]⟩
    stopped := fun _ => hs.stopped (.inl hphase)
    atRest := fun _ => hpump }

theorem busy (hidle : s.pump ≠ .idle) (hdone : s.pump ≠ .done) :
    s.phase ≠ .finished ∧ s.eofSent = false ∧ s.exitAppended = false := by
  refine ⟨fun h => (hs.atRest h).elim hidle hdone, ?_, ?_⟩
  · by_contra h
    exact hdone (hs.pumpDone (by simpa using h))
  · by_contra h
    exact hdone (hs.pumpDone (hs.eofSeen (hs.drained (by simpa using h))))

theorem push {data : List UInt8} (hpump : s.pump = .holding data) :
    CloseInv { s with pump := .polling, appended := s.appended ++ [.push data] } := by
  obtain ⟨hfin, heof, hexit⟩ := hs.busy (by simp [hpump]) (by simp [hpump])
  exact
  { hs.append hfin rfl rfl (.inr hexit) with
    pumpDone := fun h => absurd h (by simp [heof])
    atRest := fun h => absurd h hfin }

theorem poll (hpump : s.pump = .polling) (pump : Pump) :
    CloseInv { s with pump := pump } := by
  obtain ⟨hfin, heof, _⟩ := hs.busy (by simp [hpump]) (by simp [hpump])
  exact
  { hs with
    pumpDone := fun h => absurd h (by simp [heof])
    atRest := fun h => absurd h hfin }

theorem pumpEnd : CloseInv { s with pump := .done, eofSent := true } :=
  { hs with
    eofSeen := fun _ => rfl
    pumpDone := fun _ => rfl
    atRest := fun _ => .inr rfl }

theorem wake (hpump : s.pump = .idle) (habort : s.abortRequested = false) :
    CloseInv { s with pump := .polling } :=
  { hs with
    pumpDone := fun h => absurd (hs.pumpDone h) (by simp [hpump])
    atRest := fun h => absurd (hs.stopped (.inr h)) (by simp [habort]) }

theorem loopTop (hphase : s.phase = .top) (now : Nat) {phase : Phase}
    (habort : phase ≠ .aborted) (hfin' : phase ≠ .finished) :
    CloseInv { s.appendExit now with phase := phase } := by
  have hfin : s.phase ≠ .finished := by simp [hphase]
  rcases s.appendExit_eq now with h | ⟨hout, hexit, m, code, signal, h⟩ <;> rw [h]
  · exact hs.move hfin habort hfin'
  · exact (hs.exit hfin hout hexit m code signal).move hfin habort hfin'

theorem command (hphase : s.phase = .select) (cmd : Command) :
    CloseInv { s.handleCommand cmd with phase := .top } := by
  have hfin : s.phase ≠ .finished := by simp [hphase]
  obtain ⟨m, c, sig, extra, h, hextra, _⟩ := s.handleCommand_eq cmd
  rw [h]
  rcases hextra with rfl | ⟨w, rfl⟩
  · rw [append_nil]
    exact (hs.other m c sig).move hfin (by simp) (by simp)
  · exact ((hs.append hfin rfl rfl (.inl rfl)).other m c sig).move hfin (by simp) (by simp)

theorem step {op : ActorOp} {s' : Actor} (hC : PumpAtRest s op)
    (hstep : s.step op = some s') : CloseInv s' := by
  unfold Actor.step at hstep
  cases op <;> dsimp only at hstep
  case loopTop now =>
    split at hstep <;> cases hstep
    rename_i hphase
    exact hs.loopTop hphase now (by split <;> simp) (by split <;> simp)
  case command cmd =>
    split at hstep <;> cases hstep
    rename_i hphase
    exact hs.command hphase cmd
  case inboxClosed =>
    split at hstep <;> cases hstep
    rename_i hphase
    exact hs.move (by simp [hphase]) (by simp) (by simp)
  case eof =>
    split at hstep <;> cases hstep
    rename_i h
    obtain ⟨hphase, heof, hout⟩ := h
    have hmove : CloseInv { s with phase := .top } :=
      hs.move (by simp [hphase]) (by simp) (by simp)
    exact { hmove with drained := fun _ => rfl, eofSeen := fun _ => heof }
  case wait status =>
    split at hstep <;> cases hstep
    rename_i h
    have hmove : CloseInv { s with phase := .top } :=
      hs.move (by simp [h.1]) (by simp) (by simp)
    exact { hmove with }
  case timer =>
    split at hstep <;> cases hstep
    rename_i h
    obtain ⟨c, sig, hesc, _⟩ := s.escalate_eq
    rw [hesc]
    exact (hs.other s.session c sig).move (by simp [h.1]) (by simp) (by simp)
  case abort =>
    split at hstep <;> cases hstep
    rename_i hphase
    exact { hs with
      noClosed := fun _ => hs.noClosed (by simp [hphase])
      stopped := fun _ => rfl
      atRest := fun h => absurd h (by simp) }
  case markClosed now =>
    split at hstep <;> cases hstep
    rename_i hphase
    exact hs.closed hphase hC _ _
  case pumpPoll =>
    split at hstep <;> cases hstep
    rename_i h
    exact hs.wake h.1 (by simpa using h.2)
  case pumpRead data =>
    split at hstep <;> cases hstep
    rename_i h
    exact hs.poll h.1 _
  case pumpPush =>
    split at hstep <;> cases hstep
    rename_i data hpump
    exact hs.push hpump
  case pumpEof =>
    split at hstep <;> cases hstep
    exact hs.pumpEnd
  case pumpSuspend =>
    split at hstep <;> cases hstep
    rename_i hpump
    exact hs.poll hpump _
  case pumpDrop =>
    split at hstep <;> cases hstep
    exact hs.pumpEnd
  all_goals
    cases hstep
    exact hs.other _ s.closing s.signals

end

end CloseInv

/-- In every run in which the pump is not in the middle of a poll when
`Closed` is appended: nothing is appended after a `Closed`, and after an
`Exit` neither output nor a second `Exit`. -/
theorem closed_is_last {now : Nat} {ops : List ActorOp} {s : Actor}
    (hrun : Run Actor.step PumpAtRest (.new now) ops s) :
    s.appended.Pairwise MayFollow := by
  have hinv : CloseInv s :=
    hrun.invariant (fun _ _ _ hC hstep hs => hs.step hC hstep) (CloseInv.new now)
  exact hinv.ordered

def orderlyClose : List ActorOp :=
  [.loopTop 0, .pumpPoll, .pumpRead [1], .pumpPush, .wait ⟨some 0, none⟩, .loopTop 1,
    .pumpEof, .eof, .loopTop 2, .command (.takeLease "device:a" 1 1 false), .loopTop 2,
    .command (.close .closed none), .loopTop 3, .abort, .markClosed 3]

theorem closed_is_last_orderly :
    ∃ s, Run Actor.step PumpAtRest (.new 0) orderlyClose s ∧
      s.appended = [.push [1], .pushControl (.exit (some 0) none),
        .pushControl (.writerChanged (some "device:a")), .pushControl (.closed .closed)] ∧
      s.appended.Pairwise MayFollow := by
  have hrun : Run Actor.step PumpAtRest (.new 0) orderlyClose _ := .of_execWhere rfl
  exact ⟨_, hrun, rfl, closed_is_last hrun⟩

/-- A child that outlives `SIGKILL` and the last grace: the actor gives up
while the pump, on another thread, has just read a chunk. -/
def forcedClose : List ActorOp :=
  [.loopTop 0, .pumpPoll, .command (.close .closed (some .kill)), .loopTop 0, .timer,
    .loopTop 1, .pumpRead [1], .abort, .markClosed 1, .pumpPush]

/-- The chunk lands behind `Closed`. -/
theorem pump_appends_after_closed :
    ∃ s, Run Actor.step (fun _ _ => True) (.new 0) forcedClose s ∧
      s.appended = [.pushControl (.closed .closed), .push [1]] ∧
      ¬ s.appended.Pairwise MayFollow := by
  exact ⟨_, .of_execWhere rfl, rfl, by decide⟩

end Qsh.Broker
