import Qsh.Screen.Assembly

/-!
# The screen sender and the acknowledgements

The rules by which the host picks its bases, `ScreenSync` and `ScreenSender`
(`session_stream.rs`), and the acknowledgements of the client
(`ops/session/{drive,pump}.rs`), over the carriers of `Qsh.Screen.Wire`.

Three tasks of the host share `ScreenSync`: the stream and the datagram reader store
acknowledgements, and the pump reads them.  A step is what one does between two points
where another can come in, so `on_ack` for 0, two stores, is two steps.  Output, the
carrier policy, pacing and the send queue decide when the pump sends; here it may send
at any time.

An acknowledgement goes on the stream, in order, and as a datagram, which arrives at any
time, any number of times or never.
-/

namespace Qsh.Screen

open Qsh.Lib List Option

def MIN_PART_PAYLOAD : Nat := 64

structure ScreenSync where
  /-- The client asked for the full screen. -/
  resync : Bool
  /-- Newest state number the client acked, on either carrier. -/
  acked : Nat
  /-- The client has sent a datagram on this attach's channel. -/
  datagramSeen : Bool
  deriving DecidableEq

structure ScreenSender where
  /-- Newest state sent on the stream. -/
  lastSentStream : Nat
  /-- The client asked for the full screen and has not got one yet. -/
  forceFull : Bool
  /-- Datagram updates not yet covered by an ack. -/
  inflight : List Nat
  deriving DecidableEq

namespace ScreenSync

def new : ScreenSync where
  resync := false
  acked := 0
  datagramSeen := false

/-- Ack 0 asks for the full screen; any other one only grows. -/
def onAck (s : ScreenSync) (stateNum : Nat) : ScreenSync :=
  if stateNum = 0 then { s with acked := 0 } else { s with acked := max s.acked stateNum }

end ScreenSync

namespace ScreenSender

def new : ScreenSender where
  lastSentStream := 0
  forceFull := false
  inflight := []

variable (s : ScreenSender)

/-- The pump takes the request for the full screen. -/
def takeResync (resync : Bool) : ScreenSender :=
  if resync then { s with forceFull := true, lastSentStream := 0 } else s

def tick (acked : Nat) (retestStarted : Bool) : ScreenSender :=
  let inflight := (if acked = 0 then [] else s.inflight).dropWhile fun n => n ≤ acked
  { s with inflight := if retestStarted then [] else inflight }

/-- The base of the next update on the stream. -/
def streamBase (acked : Nat) : Nat :=
  if s.forceFull then 0 else max acked s.lastSentStream

/-- The base of the next update by datagram. -/
def datagramBase (acked : Nat) : Nat :=
  if s.forceFull then 0 else acked

def sentStream : Option ScreenUpdate → ScreenSender
  | none => s
  | some u =>
      { s with
        lastSentStream := u.newNum
        forceFull := if u.baseNum = 0 then false else s.forceFull }

def sentDatagram : Option ScreenUpdate → ScreenSender
  | none => s
  | some u =>
      { s with
        inflight := s.inflight ++ [u.newNum]
        forceFull := if u.baseNum = 0 then false else s.forceFull }

end ScreenSender

/-- What the client sends for the numbers that its reader queued: the newest
one, and before it a request for the full screen that is among them. -/
def foldAcks (acks : List Nat) : List Nat :=
  match acks.getLast? with
  | none => []
  | some ack => if 0 ∈ acks ∧ ack ≠ 0 then [0, ack] else [ack]

/-- The wire with the host's sender and the acks. -/
structure Attach (E : Emulator) where
  wire : Wire E
  sync : ScreenSync
  sender : ScreenSender
  /-- The stream reader has stored `acked` for 0 and not yet `resync`. -/
  storing : Bool
  /-- The same of the datagram reader. -/
  storingDatagram : Bool
  /-- Numbers that the client's reader queued. -/
  acks : List Nat
  ackStream : List Nat
  ackDatagrams : List Nat

inductive AttachOp
  | feed (data : List UInt8) (endSeq : Nat)
  | resize (rows cols : Nat)
  | cut
  /-- A copy of typed input arrives by datagram. -/
  | datagramInput
  | takeResync
  | tick (retestStarted : Bool)
  | sendStream
  | sendDatagram (budget : Nat)
  | refuseDatagram (budget sent : Nat)
  | deliverStream
  | deliverDatagram (i : Nat)
  | loseDatagram (i : Nat)
  | sendAcks
  | recvAck
  | recvAckDatagram (i : Nat)
  | storeResync (via : Via)
  deriving DecidableEq, Repr

namespace Attach

variable {E : Emulator}

def new (E : Emulator) (rows cols : Nat) : Attach E where
  wire := .new E rows cols
  sync := .new
  sender := .new
  storing := false
  storingDatagram := false
  acks := []
  ackStream := []
  ackDatagrams := []

def answer (a : Attach E) (w : Wire E) : Attach E :=
  { a with wire := w, acks := a.acks ++ (w.outcomes.getLast?.bind ScreenOutcome.ack).toList }

section Step

variable (blake3 : List UInt8 → Hash)

def onWire (a : Attach E) (op : WireOp) : Option (Attach E) :=
  (a.wire.step blake3 op).map fun w => { a with wire := w }

def sendStream (a : Attach E) : Option (Attach E) :=
  let base := a.sender.streamBase a.sync.acked
  (a.wire.sendStream blake3 base).map fun w =>
    { a with
      wire := w
      sender := a.sender.sentStream (a.wire.host.updateSince blake3 base).2 }

def sendDatagram (a : Attach E) (budget : Nat) : Option (Attach E) :=
  let base := a.sender.datagramBase a.sync.acked
  if a.sync.datagramSeen ∧ MIN_PART_PAYLOAD ≤ budget then
    (a.wire.sendDatagram blake3 base budget).map fun w =>
      { a with
        wire := w
        sender := a.sender.sentDatagram (a.wire.host.updateSince blake3 base).2 }
  else none

/-- One step of the pump, the readers, the client or the network. -/
def step (a : Attach E) : AttachOp → Option (Attach E)
  | .feed data endSeq => a.onWire blake3 (.feed data endSeq)
  | .resize rows cols => a.onWire blake3 (.resize rows cols)
  | .cut => a.onWire blake3 .cut
  | .datagramInput => some { a with sync := { a.sync with datagramSeen := true } }
  | .takeResync =>
      some { a with
        sync := { a.sync with resync := false }
        sender := a.sender.takeResync a.sync.resync }
  | .tick retestStarted => some { a with sender := a.sender.tick a.sync.acked retestStarted }
  | .sendStream => a.sendStream blake3
  | .sendDatagram budget => a.sendDatagram blake3 budget
  | .refuseDatagram budget sent =>
      if a.sync.datagramSeen ∧ MIN_PART_PAYLOAD ≤ budget then
        a.onWire blake3 (.refuseDatagram (a.sender.datagramBase a.sync.acked) budget sent)
      else none
  | .deliverStream => (a.wire.deliverStream blake3).map a.answer
  | .deliverDatagram i => (a.wire.deliverDatagram blake3 i).map a.answer
  | .loseDatagram i => a.onWire blake3 (.loseDatagram i)
  | .sendAcks =>
      some { a with
        acks := []
        ackStream := a.ackStream ++ foldAcks a.acks
        ackDatagrams := a.ackDatagrams ++ foldAcks a.acks }
  | .recvAck =>
      match a.storing, a.ackStream with
      | false, n :: rest =>
          some { a with sync := a.sync.onAck n, storing := n = 0, ackStream := rest }
      | _, _ => none
  | .recvAckDatagram i =>
      if a.storingDatagram then none
      else
        a.ackDatagrams[i]?.map fun n =>
          { a with
            sync := { a.sync.onAck n with datagramSeen := true }
            storingDatagram := n = 0 }
  | .storeResync .stream =>
      if a.storing then
        some { a with sync := { a.sync with resync := true }, storing := false }
      else none
  | .storeResync .datagram =>
      if a.storingDatagram then
        some { a with sync := { a.sync with resync := true }, storingDatagram := false }
      else none

end Step

/-- A condition on the deliveries: on the part that completes an update on the
stream, and on the datagram that arrives. -/
def AtDelivery (a : Attach E) (stream : StreamPart → Prop) (datagram : Nat → Prop) :
    AttachOp → Prop
  | .deliverStream => ∀ p ∈ a.wire.stream.head?, p.IsLast → stream p
  | .deliverDatagram i => datagram i
  | _ => True

instance (a : Attach E) (stream : StreamPart → Prop) (datagram : Nat → Prop)
    [DecidablePred stream] [DecidablePred datagram] (op : AttachOp) :
    Decidable (a.AtDelivery stream datagram op) := by
  unfold AtDelivery
  cases op <;> infer_instance

end Attach

/-! ## What a step leaves alone -/

structure Wire.Frame {E : Emulator} (w w' : Wire E) : Prop where
  client : w'.client = w.client
  stream : w'.stream = w.stream
  outcomes : w'.outcomes = w.outcomes
  applied : w'.applied = w.applied
  dropped : w'.dropped = w.dropped
  reported : ∃ more, w'.reported = w.reported ++ more

namespace Wire

variable {E : Emulator} {blake3 : List UInt8 → Hash} {w w' : Wire E}

theorem Frame.refl (w : Wire E) : Frame w w :=
  ⟨rfl, rfl, rfl, rfl, rfl, [], (append_nil _).symm⟩

theorem frame_cut (blake3 : List UInt8 → Hash) (w : Wire E) : Frame w (w.cut blake3) :=
  ⟨rfl, rfl, rfl, rfl, rfl, _, rfl⟩

theorem frame_sendDatagram {base budget : Nat}
    (h : w.sendDatagram blake3 base budget = some w') : Frame w w' := by
  rcases sendDatagram_cases h with ⟨-, rfl⟩ | ⟨u, -, -, rfl⟩
  · exact frame_cut blake3 w
  · exact { frame_cut blake3 w with }

end Wire

def AttachOp.isSendDatagram : AttachOp → Bool
  | .sendDatagram _ => true
  | _ => false

def AttachOp.isIdle : AttachOp → Bool
  | .feed _ _ => true
  | .resize _ _ => true
  | .cut => true
  | .datagramInput => true
  | .tick _ => true
  | .refuseDatagram _ _ => true
  | .loseDatagram _ => true
  | _ => false

namespace Attach

variable {E : Emulator} {blake3 : List UInt8 → Hash} {a a' : Attach E}

structure Idle (a a' : Attach E) : Prop where
  wire : Wire.Frame a.wire a'.wire
  resync : a'.sync.resync = a.sync.resync
  acked : a'.sync.acked = a.sync.acked
  lastSentStream : a'.sender.lastSentStream = a.sender.lastSentStream
  forceFull : a'.sender.forceFull = a.sender.forceFull
  storing : a'.storing = a.storing
  storingDatagram : a'.storingDatagram = a.storingDatagram
  acks : a'.acks = a.acks
  ackStream : a'.ackStream = a.ackStream
  ackDatagrams : a'.ackDatagrams = a.ackDatagrams

theorem onWire_eq_some {op : WireOp} (h : a.onWire blake3 op = some a') :
    ∃ w, a.wire.step blake3 op = some w ∧ a' = { a with wire := w } := by
  obtain ⟨w, hw, rfl⟩ := map_eq_some_iff.1 h
  exact ⟨w, hw, rfl⟩

theorem idle_onWire {w : Wire E} (h : Wire.Frame a.wire w) : Idle a { a with wire := w } :=
  ⟨h, rfl, rfl, rfl, rfl, rfl, rfl, rfl, rfl, rfl⟩

variable {op : AttachOp}

theorem idle_step (hidle : op.isIdle = true) (h : a.step blake3 op = some a') :
    Idle a a' := by
  cases op with
  | feed data endSeq =>
    obtain ⟨w, hw, rfl⟩ := onWire_eq_some h
    rw [Wire.step] at hw
    split_ifs at hw
    cases hw
    exact idle_onWire { Wire.Frame.refl a.wire with }
  | resize | loseDatagram =>
    obtain ⟨w, hw, rfl⟩ := onWire_eq_some h
    cases hw
    exact idle_onWire { Wire.Frame.refl a.wire with }
  | cut =>
    obtain ⟨w, hw, rfl⟩ := onWire_eq_some h
    cases hw
    exact idle_onWire (Wire.frame_cut blake3 a.wire)
  | datagramInput | tick =>
    cases h
    exact { idle_onWire (Wire.Frame.refl a.wire) with }
  | refuseDatagram budget sent =>
    rw [step] at h
    split_ifs at h
    obtain ⟨w, hw, rfl⟩ := onWire_eq_some h
    obtain ⟨v, hv, rfl⟩ := Wire.refuseDatagram_cases hw
    exact idle_onWire { Wire.frame_sendDatagram hv with }
  | _ => cases hidle

theorem step_wire (h : a.step blake3 op = some a') :
    a'.wire = a.wire ∨ ∃ wop, a.wire.step blake3 wop = some a'.wire ∧
      (∀ i, wop = .deliverDatagram i → op = .deliverDatagram i) ∧
      (wop = .deliverStream → op = .deliverStream) := by
  cases op with
  | feed | resize | cut | loseDatagram =>
    obtain ⟨w, hw, rfl⟩ := onWire_eq_some h
    exact .inr ⟨_, hw, fun _ => WireOp.noConfusion, WireOp.noConfusion⟩
  | datagramInput | takeResync | tick | sendAcks =>
    cases h
    exact .inl rfl
  | sendStream =>
    obtain ⟨w, hw, rfl⟩ := map_eq_some_iff.1 h
    exact .inr ⟨.sendStream _, hw, nofun, nofun⟩
  | sendDatagram budget =>
    rw [step, sendDatagram] at h
    split_ifs at h
    obtain ⟨w, hw, rfl⟩ := map_eq_some_iff.1 h
    exact .inr ⟨.sendDatagram _ budget, hw, nofun, nofun⟩
  | refuseDatagram budget sent =>
    rw [step] at h
    split_ifs at h
    obtain ⟨w, hw, rfl⟩ := onWire_eq_some h
    exact .inr ⟨_, hw, fun _ => WireOp.noConfusion, WireOp.noConfusion⟩
  | deliverStream =>
    obtain ⟨w, hw, rfl⟩ := map_eq_some_iff.1 h
    exact .inr ⟨.deliverStream, hw, nofun, fun _ => rfl⟩
  | deliverDatagram i =>
    obtain ⟨w, hw, rfl⟩ := map_eq_some_iff.1 h
    refine .inr ⟨.deliverDatagram i, hw, fun j hj => ?_, nofun⟩
    cases hj
    rfl
  | recvAck =>
    rw [step] at h
    split at h <;> cases h
    exact .inl rfl
  | recvAckDatagram i =>
    rw [step] at h
    split_ifs at h
    obtain ⟨n, -, rfl⟩ := map_eq_some_iff.1 h
    exact .inl rfl
  | storeResync via =>
    cases via with
    | stream | datagram =>
      rw [step] at h
      split_ifs at h
      cases h
      exact .inl rfl

theorem step_wireInv (h : a.step blake3 op = some a')
    (ha : Wire.WireInv blake3 a.wire) : Wire.WireInv blake3 a'.wire := by
  rcases step_wire h with hsame | ⟨wop, hstep, -⟩
  · rw [hsame]
    exact ha
  · exact Wire.step_inv hstep ha

theorem step_whole (hone : ∀ i, op = .deliverDatagram i → a.wire.OneEncoding i)
    (h : a.step blake3 op = some a') (ha : Wire.Whole blake3 a.wire) :
    Wire.Whole blake3 a'.wire := by
  rcases step_wire h with hsame | ⟨wop, hstep, hop, -⟩
  · rw [hsame]
    exact ha
  · exact Wire.step_whole (fun i hi => hone i (hop i hi)) hstep ha

theorem recvAck_eq_some (h : a.step blake3 .recvAck = some a') :
    ∃ n rest, a.storing = false ∧ a.ackStream = n :: rest ∧
      a' = { a with sync := a.sync.onAck n, storing := n = 0, ackStream := rest } := by
  rw [step] at h
  split at h <;> cases h
  rename_i n rest hstoring hqueue
  exact ⟨n, rest, hstoring, hqueue, rfl⟩

theorem recvAckDatagram_eq_some {i : Nat} (h : a.step blake3 (.recvAckDatagram i) = some a') :
    ∃ n ∈ a.ackDatagrams, a' = { a with
        sync := { a.sync.onAck n with datagramSeen := true }
        storingDatagram := n = 0 } := by
  rw [step] at h
  split_ifs at h
  obtain ⟨n, hn, rfl⟩ := map_eq_some_iff.1 h
  exact ⟨n, mem_of_getElem? hn, rfl⟩

end Attach

variable {acks : List Nat}

theorem mem_of_mem_foldAcks {n : Nat} (h : n ∈ foldAcks acks) : n ∈ acks := by
  unfold foldAcks at h
  split at h
  · cases h
  rename_i last hlast
  have hlast := mem_of_getLast? hlast
  split_ifs at h with hzero
  · rcases mem_cons.1 h with rfl | h
    · exact hzero.1
    · rw [mem_singleton.1 h]
      exact hlast
  · rw [mem_singleton.1 h]
    exact hlast

theorem zero_mem_foldAcks (h : 0 ∈ acks) : 0 ∈ foldAcks acks := by
  unfold foldAcks
  cases hlast : acks.getLast? with
  | none =>
    rw [getLast?_eq_none_iff.1 hlast] at h
    cases h
  | some last =>
    show 0 ∈ if 0 ∈ acks ∧ last ≠ 0 then [0, last] else [last]
    split_ifs with hboth
    · exact mem_cons_self
    · have hzero : last = 0 := not_not.1 fun hne => hboth ⟨h, hne⟩
      rw [hzero]
      exact mem_singleton_self 0

end Qsh.Screen
