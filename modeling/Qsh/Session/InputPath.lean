import Qsh.Broker.ResumeRegistry
import Qsh.Client.PendingInput
import Qsh.Session.OutputPath

/-!
# The input path across legs

The whole way of what a user types: the client's buffer, any number of legs with a
stream each, and the session's input axes behind all of them
(`AttachWriter::send_input`, `reattach`, `handle_session_attach`, the session arm of
`handle_data_stream`, `input_pump` and `apply_input_copy`).

The handler of `session.attach` is cut where it takes the locks of the registry and of
the session: verify, reserve an axis, rotate, seed the axis.  Several handlers may be
at work, with arbitrary readings of the clock.  The writer lease is taken when the data
stream reaches the host.  On a leg that dies nothing happens any more; what is still in
flight on it may come late.

The pump awaits each write and nobody else moves its offset, so one step takes a chunk
off the stream, has the actor admit it and answers.
-/

namespace Qsh.Session

open Qsh.Lib Qsh.Broker Qsh.Client

/-! ## Chunks -/

structure InputChunk where
  seq : Nat
  data : List UInt8
  deriving DecidableEq, Repr

/-- The chunks of `send_input` from an offset on: `data.chunks(SESSION_CHUNK_MAX)`,
with the length of the data as fuel. -/
def inputChunks : Nat → Nat → List UInt8 → List InputChunk
  | 0, _, _ => []
  | fuel + 1, offset, data =>
      if data = [] then []
      else
        let chunk := data.take SESSION_CHUNK_MAX
        { seq := offset + chunk.length, data := chunk } ::
          inputChunks fuel (offset + chunk.length) (data.drop SESSION_CHUNK_MAX)

structure InputChunk.Of (c : InputChunk) (typed : List UInt8) : Prop where
  length : c.data.length ≤ c.seq
  bound : c.seq ≤ typed.length
  data : c.data = slice typed (c.seq - c.data.length) c.seq

theorem InputChunk.Of.append {c : InputChunk} {typed : List UInt8} (h : c.Of typed)
    (more : List UInt8) : c.Of (typed ++ more) where
  length := h.length
  bound := by
    have := h.bound
    rw [List.length_append]
    omega
  data := h.data.trans (slice_append_left h.bound).symm

theorem inputChunks_of {typed : List UInt8} (fuel offset : Nat) (hoff : offset ≤ typed.length) :
    ∀ c ∈ inputChunks fuel offset (slice typed offset typed.length), c.Of typed := by
  induction fuel generalizing offset with
  | zero => exact nofun
  | succ fuel ih =>
    intro c hc
    unfold inputChunks at hc
    split at hc
    · nomatch hc
    have hlen : (slice typed offset typed.length).length = typed.length - offset :=
      length_slice le_rfl
    have hchunk : ((slice typed offset typed.length).take SESSION_CHUNK_MAX).length =
        min SESSION_CHUNK_MAX (typed.length - offset) := by
      rw [List.length_take, hlen]
    rcases List.mem_cons.1 hc with rfl | hc
    · refine ⟨by dsimp only; omega, by dsimp only; omega, ?_⟩
      dsimp only
      rw [Nat.add_sub_cancel, hchunk]
      rcases le_total SESSION_CHUNK_MAX (typed.length - offset) with hle | hle
      · rw [min_eq_left hle, take_slice typed (by omega)]
      · rw [Nat.min_eq_right hle, List.take_of_length_le (by omega)]
        congr 1
        omega
    -- behind the last chunk there is nothing left
    rcases le_total SESSION_CHUNK_MAX (typed.length - offset) with hle | hle
    · rw [hchunk, min_eq_left hle, drop_slice] at hc
      exact ih (offset + SESSION_CHUNK_MAX) (by omega) c hc
    rw [List.drop_of_length_le (by omega)] at hc
    cases fuel with
    | zero => nomatch hc
    | succ n => simp [inputChunks] at hc

/-! ## The model -/

/-- How far the attach of a leg has come on the host, with the token that was
presented, or the one that was minted for it. -/
inductive LegStage
  | unused
  | requested (token : List UInt8)
  | verified (token : List UInt8) (lineage : Nat)
  | reserved (token : List UInt8) (lineage axis : Nat)
  | rotated (minted : List UInt8) (lineage axis : Nat)
  | seeded (minted : List UInt8) (axis inputFrom : Nat)
  | failed
  deriving DecidableEq, Repr

/-- One leg.  `header` says that the client has opened its stream, `running`
that the host has taken the lease for it and runs its pump, and `closed` that
its connection or its pump is gone.  `wire` is all the client has sent on it,
of which the pump has read `taken` chunks. -/
structure InputLeg where
  physical : Nat
  stage : LegStage
  header : Bool
  running : Bool
  closed : Bool
  applied : Nat
  inputSeq : Nat
  wire : List InputChunk
  taken : Nat
  acks : List Nat
  deriving DecidableEq, Repr

def InputLeg.new (physical : Nat) (stage : LegStage) : InputLeg where
  physical := physical
  stage := stage
  header := false
  running := false
  closed := false
  applied := 0
  inputSeq := 0
  wire := []
  taken := 0
  acks := []

def InputLeg.sendInput (leg : InputLeg) (data : List UInt8) : InputLeg :=
  { leg with
    wire := leg.wire ++ inputChunks data.length leg.inputSeq data
    inputSeq := leg.inputSeq + data.length }

def InputLeg.hangup (leg : InputLeg) (physical : Nat) : InputLeg :=
  if leg.physical = physical then { leg with closed := true } else leg

/-- Whose session it is: its id, the peer and the principal that it belongs to,
and the hash of the credential registry. -/
structure Owner (Sid Peer Hash : Type) where
  id : Sid
  peer : Peer
  principal : String
  hash : List UInt8 → Hash

/-- The session, the credential registry, the legs, and the client with the
token that it holds.  `child` is what the child's input queue was given, `typed`
what the client's buffer took, `issued` the tokens that were minted, newest
first, and `tip` the axis that was seeded last. -/
structure InputPath (Sid Peer Hash : Type) where
  session : Meta
  child : List UInt8
  resume : Resume.Registry Sid Peer Hash
  issued : List (List UInt8)
  tip : Nat
  legs : Nat → InputLeg
  typed : List UInt8
  pending : PendingInput
  held : List UInt8
  dialing : Option Nat
  current : Option Nat

inductive InputPathOp
  | type (data : List UInt8)
  | ack (leg i : Nat)
  | lose
  | redial (leg physical : Nat)
  | giveUp
  | verify (leg now : Nat)
  | reserve (leg : Nat)
  | rotate (leg ttl now : Nat) (minted : List UInt8)
  | decline (leg : Nat)
  | seed (leg : Nat)
  | granted (leg : Nat)
  | resume (leg : Nat)
  | open (leg : Nat) (noSteal : Bool)
  | deliver (leg : Nat) (send : SendOutcome)
  | copy (leg i : Nat) (send : SendOutcome)
  | hangup (physical : Nat)

namespace InputPath

section Parts

variable {Sid Peer Hash : Type}

def setLeg (s : InputPath Sid Peer Hash) (k : Nat) (leg : InputLeg) :
    InputPath Sid Peer Hash :=
  { s with legs := Function.update s.legs k leg }

def queuedBytes : WriteReply → List UInt8
  | .queued data _ => data
  | .applied _ => []
  | .refused _ => []

def write (s : InputPath Sid Peer Hash) (k axis : Nat) (c : InputChunk)
    (send : SendOutcome) : InputPath Sid Peer Hash × WriteReply :=
  let (m, reply) := s.session.enqueueWrite k c.data (some (axis, c.seq)) send
  ({ s with session := m, child := s.child ++ queuedBytes reply }, reply)

/-- The answer to a chunk of the stream. -/
def pumpReply (leg : InputLeg) (c : InputChunk) : WriteReply → InputLeg
  | .queued _ next => { leg with applied := next, acks := leg.acks ++ [next] }
  | .applied offset => { leg with applied := offset, acks := leg.acks ++ [offset] }
  | .refused .notRunning =>
      { leg with applied := max leg.applied c.seq, acks := leg.acks ++ [max leg.applied c.seq] }
  | .refused .notWriter =>
      { leg with applied := max leg.applied c.seq, acks := leg.acks ++ [max leg.applied c.seq] }
  | .refused _ => { leg with closed := true }

/-- The answer to a copy in a datagram. -/
def copyReply (leg : InputLeg) : WriteReply → InputLeg
  | .queued _ next => { leg with applied := next, acks := leg.acks ++ [next] }
  | .applied offset => { leg with applied := offset, acks := leg.acks ++ [offset] }
  | .refused _ => leg

end Parts

variable {Sid Peer Hash : Type} [DecidableEq Sid] [DecidableEq Peer] [DecidableEq Hash]

def new (o : Owner Sid Peer Hash) (ttl : Nat) (token : List UInt8) :
    InputPath Sid Peer Hash where
  session := .new 0
  child := []
  resume := Resume.Registry.issue (fun _ => none) o.hash o.id o.peer ttl 0 token
  issued := [token]
  tip := FIRST_INPUT_STREAM
  legs := fun k =>
    if k = 0 then { InputLeg.new 0 (.seeded token FIRST_INPUT_STREAM 0) with header := true }
    else .new 0 .unused
  typed := []
  pending := .new 0
  held := token
  dialing := none
  current := some 0

/-- One step of the client, the host or the network. -/
def step (o : Owner Sid Peer Hash) (s : InputPath Sid Peer Hash) :
    InputPathOp → Option (InputPath Sid Peer Hash)
  | .type data =>
      match s.current, s.pending.push data with
      | some k, .ok (pending, _) =>
          some { s.setLeg k ((s.legs k).sendInput data) with
            typed := s.typed ++ data
            pending := pending }
      | _, _ => none
  | .ack k i =>
      if s.current = some k then
        (s.legs k).acks[i]?.map fun n => { s with pending := s.pending.ack n }
      else none
  | .lose => some { s with current := none }
  | .redial k physical =>
      if s.current = none ∧ s.dialing = none ∧ (s.legs k).stage = .unused then
        some { s.setLeg k (.new physical (.requested s.held)) with dialing := some k }
      else none
  | .giveUp => some { s with dialing := none }
  | .verify k now =>
      match (s.legs k).stage with
      | .requested token =>
          match s.resume.verify o.hash o.id token o.peer now with
          | some lineage => some (s.setLeg k { s.legs k with stage := .verified token lineage })
          | none => some (s.setLeg k { s.legs k with stage := .failed })
      | _ => none
  | .reserve k =>
      match (s.legs k).stage with
      | .verified token lineage =>
          let (m, axis) := s.session.reserveInputStream
          some { s.setLeg k { s.legs k with stage := .reserved token lineage axis } with
            session := m }
      | _ => none
  | .rotate k ttl now minted =>
      match (s.legs k).stage with
      | .reserved token lineage axis =>
          match s.resume.rotate o.hash o.id token o.peer ttl axis now minted with
          | (resume, some minted) =>
              some { s.setLeg k { s.legs k with stage := .rotated minted lineage axis } with
                resume := resume
                issued := minted :: s.issued }
          | (_, none) => some (s.setLeg k { s.legs k with stage := .failed })
      | _ => none
  -- any other refusal
  | .decline k =>
      match (s.legs k).stage with
      | .verified _ _ => some (s.setLeg k { s.legs k with stage := .failed })
      | .reserved _ _ _ => some (s.setLeg k { s.legs k with stage := .failed })
      | _ => none
  | .seed k =>
      match (s.legs k).stage with
      | .rotated minted lineage axis =>
          let (m, start) := s.session.seedInputStream axis (some lineage)
          some { s.setLeg k { s.legs k with stage := .seeded minted axis start } with
            session := m
            tip := axis }
      | _ => none
  -- the successor is stored, and the header of the data stream goes out
  | .granted k =>
      match (s.legs k).stage with
      | .seeded minted _ _ =>
          if s.dialing = some k then
            some { s.setLeg k { s.legs k with header := true } with held := minted }
          else none
      | _ => none
  | .resume k =>
      match (s.legs k).stage with
      | .seeded _ _ inputFrom =>
          if s.dialing = some k ∧ (s.legs k).header = true then
            match s.pending.rebase inputFrom with
            | .ok (pending, tail) =>
                some { s.setLeg k ({ s.legs k with inputSeq := inputFrom }.sendInput tail) with
                  pending := pending
                  dialing := none
                  current := some k }
            | .error _ => none
          else none
      | _ => none
  | .open k noSteal =>
      match (s.legs k).stage with
      | .seeded _ _ inputFrom =>
          if (s.legs k).header = true ∧ (s.legs k).running = false ∧ (s.legs k).closed = false then
            match s.session.lease.takeOwned o.principal k (s.legs k).physical noSteal with
            | (lease, .acquired _ _) =>
                some { s.setLeg k { s.legs k with running := true, applied := inputFrom } with
                  session := { s.session with lease := lease } }
            | (_, .conflict _) => none
          else none
      | _ => none
  | .deliver k send =>
      match (s.legs k).stage, (s.legs k).wire[(s.legs k).taken]? with
      | .seeded _ axis _, some c =>
          if (s.legs k).running = true ∧ (s.legs k).closed = false then
            let leg := { s.legs k with taken := (s.legs k).taken + 1 }
            if c.seq < c.data.length ∨ leg.applied < c.seq - c.data.length then
              some (s.setLeg k { leg with closed := true })
            else
              let (s', reply) := s.write k axis c send
              some (s'.setLeg k (pumpReply leg c reply))
          else none
      | _, _ => none
  | .copy k i send =>
      match (s.legs k).stage, (s.legs k).wire[i]? with
      | .seeded _ axis _, some c =>
          if (s.legs k).running = true ∧ (s.legs k).closed = false ∧ c.data.length ≤ c.seq ∧
              c.seq - c.data.length = (s.legs k).applied ∧ c.data ≠ [] then
            let (s', reply) := s.write k axis c send
            some (s'.setLeg k (copyReply (s.legs k) reply))
          else none
      | _, _ => none
  | .hangup physical =>
      some { s with
        legs := fun k => (s.legs k).hangup physical
        session := { s.session with lease := (s.session.lease.releaseConnection physical).1 } }

end InputPath

end Qsh.Session
