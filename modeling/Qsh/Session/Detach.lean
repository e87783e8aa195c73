import Qsh.Broker.InputAxes
import Qsh.Session.InputPathRuns

/-!
# A confirmed detach

`AttachHandle::detach` (`ops/session/attach.rs`) puts a marker behind the input that the
handle has accepted.  The input pump (`ops/session/pump.rs`) comes to the marker when it
has sent everything ahead of it, and waits until the host has acknowledged that much;
then the detach is answered with `Applied`.

`AttachRun` is one attach: the handle and its queue, the pump, the mark that the
acknowledgements move, the input path below, and everybody else's commands to the
session's actor.

The host also acknowledges input that it drops: a chunk that comes while another
connection has the lease, or after the child has exited.  What the client's buffer
refuses is not counted.  `Undropped` keeps a run away from both.
-/

namespace Qsh.Session

open Qsh.Lib Qsh.Broker Qsh.Client

/-! ## The model -/

inductive AttachCommand
  | input (data : List UInt8)
  | detach
  deriving DecidableEq, Repr

/-- Whether all input was applied when the attach ended. -/
inductive DetachFlush
  | applied
  | unconfirmed
  deriving DecidableEq, Repr

/-- What `session.open` or `session.attach` has prepared: an axis, and the offset
that the input of the attach goes on from. -/
structure AttachPoint where
  session : Meta
  axis : Nat
  inputFrom : Nat
  fresh : ∀ a, session.nextInputStream ≤ a → session.appliedInput.get? a = none
  known : axis < session.nextInputStream
  counted : session.applied axis ≤ inputFrom

/-- One attach.  `base` is the offset that its input began at, `axes` are those
that were reserved for it, and `asked` is how much the handle had accepted when
the detach was called.  `handed` is what was put on the child's queue for it, with
the offset of each piece. -/
structure AttachRun (Sid Peer Hash : Type) where
  path : InputPath Sid Peer Hash
  base : Nat
  axes : List Nat
  accepted : List UInt8
  commands : List AttachCommand
  pumping : Bool
  mark : Nat
  asked : Option Nat
  target : Option Nat
  answer : Option DetachFlush
  handed : List (Nat × List UInt8)

inductive AttachOp
  /-- `write`, or a `try_write` that was taken. -/
  | write (data : List UInt8)
  /-- `detach` with its marker, or with a full queue. -/
  | detach (queued : Bool)
  /-- The pump takes the next command. -/
  | take
  /-- The pump ends: a write failed, or it was stopped. -/
  | stopPump
  /-- The mark has reached the target. -/
  | confirm
  /-- One of the two bounds of a detach has passed. -/
  | expire
  /-- The acknowledgements, the legs, the host and the network. -/
  | path (op : InputPathOp)
  /-- The session's actor gets a command of somebody else. -/
  | outside (op : InputOp)

namespace AttachRun

section Parts

variable {Sid Peer Hash : Type}

def Foreign (axes : List Nat) (m : Meta) : InputOp → Prop
  | .write _ _ (some (axis, _)) _ => axis ∉ axes ∧ axis < m.nextInputStream
  | .seed id _ => id ∉ axes ∧ id < m.nextInputStream
  | _ => True

instance (axes : List Nat) (m : Meta) : ∀ op, Decidable (Foreign axes m op)
  | .write _ _ (some (axis, _)) _ =>
      inferInstanceAs (Decidable (axis ∉ axes ∧ axis < m.nextInputStream))
  | .seed id _ => inferInstanceAs (Decidable (id ∉ axes ∧ id < m.nextInputStream))
  | .write _ _ none _ | .takeLease .. | .releaseConnection _ | .reserve | .exit _ | .close =>
      .isTrue trivial

variable (x : AttachRun Sid Peer Hash)

def reserves : InputPathOp → List Nat
  | .reserve _ => [x.path.session.nextInputStream]
  | _ => []

def types : InputPathOp → Bool
  | .type _ => true
  | _ => false

def starts : InputPathOp → Bool
  | .resume _ => true
  | _ => false

def acked : InputPathOp → Nat
  | .ack k i => (x.path.legs k).acks[i]?.getD 0
  | _ => 0

def pieces (seq : Nat) (bytes : List UInt8) : List (Nat × List UInt8) :=
  if bytes = [] then [] else [(seq - bytes.length, bytes)]

def hands (op : InputPathOp) (path : InputPath Sid Peer Hash) : List (Nat × List UInt8) :=
  match x.path.brings op with
  | none => []
  | some b => pieces b.chunk.seq (path.child.drop x.path.child.length)

def advance (op : InputPathOp) (path : InputPath Sid Peer Hash) : AttachRun Sid Peer Hash :=
  { x with
    path
    axes := x.axes ++ x.reserves op
    pumping := x.pumping || starts op
    mark := max x.mark (x.acked op)
    handed := x.handed ++ x.hands op path }

end Parts

variable {Sid Peer Hash : Type} [DecidableEq Sid] [DecidableEq Peer] [DecidableEq Hash]

def start (o : Owner Sid Peer Hash) (p : AttachPoint) (ttl now : Nat) (token : List UInt8) :
    AttachRun Sid Peer Hash where
  path :=
    { session := p.session
      child := []
      resume := fun id =>
        if id = o.id then
          some
            { hash := o.hash token
              peer := o.peer
              expiresAt := now + ttl
              inputStream := p.axis }
        else none
      issued := [token]
      tip := p.axis
      legs := fun k =>
        if k = 0 then
          { InputLeg.new 0 (.seeded token p.axis p.inputFrom) with
            header := true, inputSeq := p.inputFrom }
        else .new 0 .unused
      -- the axis counts the input of the attaches before this one, whatever it was
      typed := List.replicate p.inputFrom 0
      pending := .new p.inputFrom
      held := token
      dialing := none
      current := some 0 }
  base := p.inputFrom
  axes := [p.axis]
  accepted := []
  commands := []
  pumping := true
  mark := p.inputFrom
  asked := none
  target := none
  answer := none
  handed := []

/-- One step of the caller, the attach loop or the input path. -/
def step (o : Owner Sid Peer Hash) (x : AttachRun Sid Peer Hash) :
    AttachOp → Option (AttachRun Sid Peer Hash)
  | .write data =>
      some { x with accepted := x.accepted ++ data, commands := x.commands ++ [.input data] }
  | .detach queued =>
      if x.asked = none then
        some { x with
          asked := some x.accepted.length
          commands := if queued then x.commands ++ [.detach] else x.commands
          answer := if queued then x.answer else some .unconfirmed }
      else none
  | .take =>
      if x.pumping = true ∧ x.target = none then
        match x.commands, x.path.current with
        | .input data :: rest, some _ =>
            match x.path.pending.push data with
            -- an error event, and this leg sends nothing more
            | .error _ => some { x with commands := rest, pumping := false }
            | .ok _ =>
                (x.path.step o (.type data)).map fun path => { x with commands := rest, path }
        | .detach :: rest, some k =>
            some { x with commands := rest, target := some (x.path.legs k).inputSeq }
        | _, _ => none
      else none
  | .stopPump => some { x with pumping := false }
  | .confirm =>
      match x.target with
      | some t =>
          if t ≤ x.mark ∧ x.answer = none then
            some { x with answer := some .applied, target := none, pumping := false }
          else none
      | none => none
  | .expire =>
      if x.asked ≠ none ∧ x.answer = none then some { x with answer := some .unconfirmed } else none
  | .path op => if types op then none else (x.path.step o op).map (x.advance op)
  | .outside op =>
      if Foreign x.axes x.path.session op then
        some { x with path.session := (InputRun.step ⟨x.path.session, []⟩ op).session }
      else none

/-- The client's buffer has room for what the pump takes, and a chunk with new
bytes comes before the actor while the child runs and its leg has the lease. -/
def Undropped (x : AttachRun Sid Peer Hash) : AttachOp → Prop
  | .take =>
      match x.commands with
      | .input data :: _ => x.path.pending.buf.length + data.length ≤ UNACKED_INPUT_MAX
      | _ => True
  | .path op =>
      ∀ b ∈ x.path.brings op, x.path.session.applied b.axis < b.chunk.seq →
        x.path.session.admission b.leg = none
  | _ => True

instance (x : AttachRun Sid Peer Hash) : ∀ op, Decidable (x.Undropped op)
  | .take =>
      match h : x.commands with
      | .input data :: _ =>
          decidable_of_iff (x.path.pending.buf.length + data.length ≤ UNACKED_INPUT_MAX)
            (by rw [Undropped, h])
      | [] | .detach :: _ => .isTrue (by rw [Undropped, h]; trivial)
  | .path op =>
      inferInstanceAs (Decidable (∀ b ∈ x.path.brings op,
        x.path.session.applied b.axis < b.chunk.seq → x.path.session.admission b.leg = none))
  | .write _ | .detach _ | .stopPump | .confirm | .expire | .outside _ => .isTrue trivial

end AttachRun

end Qsh.Session
