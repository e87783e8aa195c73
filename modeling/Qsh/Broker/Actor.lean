import Qsh.Lib.Run
import Qsh.Broker.RingFollower
import Qsh.Broker.SessionMeta

/-!
# The session actor and its output pump

`SessionActor::run` (`broker/session.rs`): the `select!` loop of the actor, and the output
pump, a task that appends to the same ring.  A step is the top of the loop, one arm of the
`select!`, a command, one move of the pump, or a change of the metadata by another thread.

In a poll the pump reads, appends what it read, and reads again, until a read has nothing
yet.  `abort` is a request: an idle pump is never polled again, and a pump in the middle of
a poll runs on until it suspends.

The state records every call of `SourceControl::signal` and everything appended to the
ring.  Resizes are left out; they touch the window size only.
-/

namespace Qsh.Broker

open Qsh.Lib

/-! ## State -/

inductive Signal
  | hup
  | int
  | quit
  | term
  | usr1
  | usr2
  | kill
  deriving DecidableEq, Repr

structure SourceExit where
  exitCode : Option Int
  signal : Option String
  deriving DecidableEq, Repr

/-- A close under way: the callers that wait for it and the next signal. -/
structure Closing where
  reason : CloseReason
  responders : Nat
  next : Option Signal
  forced : Bool
  deriving DecidableEq, Repr

/-- Where the output pump is: not being polled, in a poll and about to read, in
a poll with bytes in hand, or gone. -/
inductive Pump
  | idle
  | polling
  | holding (data : List UInt8)
  | done
  deriving DecidableEq, Repr

/-- Where the actor is: at the top of its loop, waiting in `select!`, out of
the loop, behind `pump.abort()`, or finished. -/
inductive Phase
  | top
  | select
  | leaving
  | aborted
  | finished
  deriving DecidableEq, Repr

/-- A session: metadata, the actor's own state, the pump, the signals sent and
the appends to the ring. -/
structure Actor where
  session : Meta
  phase : Phase
  exiting : Bool
  outputDone : Bool
  exitAppended : Bool
  pendingExit : Option SourceExit
  closing : Option Closing
  pump : Pump
  abortRequested : Bool
  eofSent : Bool
  signals : List Signal
  appended : List RingOp

inductive Command
  | write (conn : Nat) (data : List UInt8) (inputSeq : Option (Nat × Nat))
      (send : SendOutcome)
  | signal (signal : Signal)
  | takeLease (principal : String) (conn physical : Nat) (noSteal : Bool)
  | releaseConnection (conn : Nat)
  | close (reason : CloseReason) (signal : Option Signal)
  deriving DecidableEq, Repr

inductive ActorOp
  | loopTop (now : Nat)
  | command (cmd : Command)
  | inboxClosed
  | eof
  | wait (status : SourceExit)
  | timer
  | abort
  | markClosed (now : Nat)
  | pumpPoll
  | pumpRead (data : List UInt8)
  | pumpPush
  | pumpEof
  | pumpSuspend
  | pumpDrop
  | attachGuard
  | dropGuard (now : Nat)
  | reserve
  | seed (id : Nat) (from_ : Option Nat)
  deriving DecidableEq, Repr

namespace Actor

def new (now : Nat) : Actor where
  session := .new now
  phase := .top
  exiting := false
  outputDone := false
  exitAppended := false
  pendingExit := none
  closing := none
  pump := .idle
  abortRequested := false
  eofSent := false
  signals := []
  appended := []

/-! ## Commands -/

variable (s : Actor)

def sendSignal (signal : Signal) : Actor :=
  { s with signals := s.signals ++ [signal] }

def pushControl (s : Actor) (event : ControlEvent) : Actor :=
  { s with appended := s.appended ++ [.pushControl event] }

/-- The first close sends its signal and starts the escalation. -/
def beginClose (reason : CloseReason) (signal : Option Signal) : Actor :=
  match s.closing with
  | some c => { s with closing := some { c with responders := c.responders + 1 } }
  | none =>
      let s := { s with session.closing := true }
      if s.session.state = .exited ∨ s.exiting = true then
        { s with closing := some ⟨reason, 1, none, false⟩ }
      else
        let first := signal.getD .hup
        let next :=
          match first with
          | .kill => none
          | .term => some .kill
          | _ => some .term
        { s.sendSignal first with closing := some ⟨reason, 1, next, false⟩ }

/-- The timer sends the next, harder signal. -/
def escalate : Actor :=
  match s.closing with
  | none => s
  | some c =>
      match c.next with
      | some sig =>
          let next :=
            match sig with
            | .kill => none
            | _ => some .kill
          { s.sendSignal sig with closing := some { c with next := next } }
      | none => { s with closing := some { c with forced := true } }

/-- One command from the inbox. -/
def handleCommand : Command → Actor
  | .write conn data inputSeq send =>
      { s with session := (s.session.enqueueWrite conn data inputSeq send).1 }
  | .signal signal =>
      if s.session.state = .running ∧ s.session.closing = false ∧ s.exiting = false then
        s.sendSignal signal
      else s
  | .takeLease principal conn physical noSteal =>
      let (lease, outcome) := s.session.lease.takeOwned principal conn physical noSteal
      let s := { s with session.lease := lease }
      match outcome with
      | .acquired _ true => s.pushControl (.writerChanged (some principal))
      | _ => s
  | .releaseConnection conn =>
      let (lease, released) := s.session.lease.releaseConnection conn
      let s := { s with session.lease := lease }
      if released.isSome then s.pushControl (.writerChanged none) else s
  | .close reason signal => s.beginClose reason signal

/-! ## Steps -/

/-- Appends the exit event once the source is reaped and drained. -/
def appendExit (now : Nat) : Actor :=
  if s.exiting ∧ s.outputDone ∧ ¬ s.exitAppended then
    let exit := s.pendingExit.getD ⟨none, none⟩
    { s.pushControl (.exit exit.exitCode exit.signal) with
      exitAppended := true
      pendingExit := none
      session := s.session.setStateExited now }
  else s

/-- A close finishes when the child is gone and drained, or when the
escalation has run out of steps. -/
def leaves : Bool :=
  s.closing.any (fun c => s.exitAppended || c.forced)

/-- One step of the session actor or of its output pump. -/
def step : ActorOp → Option Actor
  | .loopTop now =>
      if s.phase = .top then
        let s := s.appendExit now
        some { s with phase := if s.leaves then .leaving else .select }
      else none
  | .command cmd =>
      if s.phase = .select then some { s.handleCommand cmd with phase := .top } else none
  | .inboxClosed => if s.phase = .select then some { s with phase := .leaving } else none
  | .eof =>
      if s.phase = .select ∧ s.eofSent ∧ ¬ s.outputDone then
        some { s with phase := .top, outputDone := true }
      else none
  | .wait status =>
      if s.phase = .select ∧ ¬ s.exiting then
        some { s with phase := .top, exiting := true, pendingExit := some status }
      else none
  | .timer =>
      if s.phase = .select ∧ s.closing.isSome then
        some { s.escalate with phase := .top }
      else none
  | .abort =>
      if s.phase = .leaving then some { s with phase := .aborted, abortRequested := true }
      else none
  | .markClosed now =>
      if s.phase = .aborted then
        let reason := (s.closing.map Closing.reason).getD .closed
        some { s.pushControl (.closed reason) with
          phase := .finished
          closing := none
          session := s.session.markClosed now }
      else none
  | .pumpPoll =>
      if s.pump = .idle ∧ ¬ s.abortRequested then some { s with pump := .polling } else none
  | .pumpRead data =>
      if s.pump = .polling ∧ data ≠ [] ∧ data.length ≤ RING_CHUNK_MAX then
        some { s with pump := .holding data }
      else none
  | .pumpPush =>
      match s.pump with
      | .holding data => some { s with pump := .polling, appended := s.appended ++ [.push data] }
      | _ => none
  | .pumpEof =>
      if s.pump = .polling then some { s with pump := .done, eofSent := true } else none
  | .pumpSuspend => if s.pump = .polling then some { s with pump := .idle } else none
  | .pumpDrop =>
      if s.pump = .idle ∧ s.abortRequested then
        some { s with pump := .done, eofSent := true }
      else none
  | .attachGuard => some { s with session := s.session.attachGuard }
  | .dropGuard now => some { s with session := s.session.dropGuard now }
  | .reserve => some { s with session := s.session.reserveInputStream.1 }
  | .seed id from_ => some { s with session := (s.session.seedInputStream id from_).1 }

end Actor

end Qsh.Broker
