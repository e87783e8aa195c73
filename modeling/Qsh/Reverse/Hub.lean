import Qsh.Lib.Queues
import Qsh.Lib.Run
import Qsh.Reverse.Mux

/-!
# The relay hub of a host

`ControlHub` (`reverse/listen/hub.rs`) relays the requests of the local conduits to one
host and the answers and session events back.  It also keeps the remote forwards opened
for them: which conduit owns a forward, the token a claim must present, and the accepted
connections that wait for a claim.

The host's answers are arbitrary.  A claim registers with the notifier, checks the
forward and its queue under the lock, and waits; `notify_waiters` wakes the claims
registered at that moment.  What removes a forward or queues a connection rings after it
has released the lock, so the ringing is a step of its own.  So is handing a request to
the driver of the host: `send_request` and `admin_close_forward` take an identifier under
the lock and send after they have released it, and the host may answer in between.

The model keeps an account: the requests sent under each identifier, the answers, what
was placed in the inboxes, and where each accepted connection went.
-/

namespace Qsh.Reverse

open Qsh.Lib Function

def MAX_INFLIGHT_LONG_POLL_PER_HUB : Nat := 16

def MAX_QUEUED_TUNNEL_ARRIVAL_AGE : Nat := 30

abbrev Bytes := List UInt8

def validForwardId (id : Bytes) : Bool :=
  1 ≤ id.length && id.length ≤ 64 && id.all fun b =>
    (48 ≤ b && b ≤ 57) || (65 ≤ b && b ≤ 90) || (97 ≤ b && b ≤ 122) || b = 95 || b = 45

inductive RequestBody (σ : Type) where
  | sessionAttach (session : σ)
  | sessionRead
  | sessionClose
  | rfwdOpen (claimToken : Bytes)
  | rfwdClose (forwardId : Bytes)
  | other
  deriving DecidableEq

namespace RequestBody

variable {σ : Type}

def isLongPoll : RequestBody σ → Bool
  | .sessionRead => true
  | .sessionClose => true
  | _ => false

def outbound : RequestBody σ → RequestBody σ
  | .rfwdOpen _ => .rfwdOpen []
  | body => body

end RequestBody

inductive ResponseBody (σ : Type) where
  | sessionOpened (session : σ)
  | sessionAttached
  | rfwdOpened (forwardId : Bytes)
  | bare
  | other
  deriving DecidableEq

structure ClaimSeat where
  token : Option Bytes
  deriving DecidableEq

namespace ClaimSeat

def seat (token : Bytes) : ClaimSeat := ⟨if token.isEmpty then none else some token⟩

/-- A claim with the seated token; no token, no claim. -/
def admits (s : ClaimSeat) (presented : Bytes) : Bool :=
  match s.token with
  | some seated => !presented.isEmpty && seated = presented
  | none => false

def isClaimable (s : ClaimSeat) : Bool := s.token.isSome

end ClaimSeat

/-- A remote forward that the target has opened. -/
structure ForwardRegistration where
  owner : Nat
  seat : ClaimSeat
  origin : Nat
  deriving DecidableEq

/-- An accepted connection that no claim has taken. -/
structure TunnelArrival where
  serial : Nat
  forwardId : Bytes
  origin : Nat
  queuedAt : Nat
  deriving DecidableEq

/-- Where a call of `claim_tcp_accepted` stands: registered with the notifier, and then
parked after a check that found nothing. -/
inductive ClaimPhase where
  | idle
  | waiting (forwardId token : Bytes) (parked woken : Bool)
  deriving DecidableEq

structure Forwarded (σ : Type) where
  conduit : Nat
  peer : Nat
  body : RequestBody σ
  deriving DecidableEq

structure Delivery (σ : Type) where
  daemonId : Nat
  conduit : Nat
  peer : Nat
  body : ResponseBody σ
  deriving DecidableEq

structure EventDelivery (σ : Type) where
  conduit : Nat
  session : σ
  broadcast : Bool
  deriving DecidableEq

structure Handover where
  arrival : TunnelArrival
  forwardId : Bytes
  token : Bytes
  deriving DecidableEq

/-- `HubState`, with the outbound channel, the claims and the operations that have
released the lock and not ended. -/
structure HubState (σ : Type) where
  mux : ControlMux σ
  nextConduitId : Nat
  inboxes : Nat → Bool
  pendingAttachSubscriptions : Nat → Option σ
  longPollIds : List Nat
  forwards : Bytes → Option ForwardRegistration
  pendingRfwdOpens : Nat → Option Bytes
  pendingRfwdCloses : Nat → Option Bytes
  tunnelQueue : Queues Bytes TunnelArrival
  dead : Bool
  sending : List (Nat × RequestBody σ)
  outbound : List (Nat × RequestBody σ)
  driven : Bool
  claims : Nat → ClaimPhase
  rings : Nat
  doomed : List Nat

/-- A hub with its account.  `unsent` is what could not be sent because the driver had
gone. -/
structure ControlHub (σ : Type) extends HubState σ where
  requests : Nat → Option (Forwarded σ)
  unsent : List (Nat × RequestBody σ)
  answered : Nat → Bool
  delivered : List (Delivery σ)
  events : List (EventDelivery σ)
  answers : List (Nat × ResponseBody σ)
  opened : List (Nat × Bytes)
  arrivals : Nat
  handed : List Handover
  resets : List TunnelArrival

/-- Why a request is not sent. -/
inductive HubSendError where
  | exhausted
  | notOwner
  | hostDead
  deriving DecidableEq

inductive HubOp (σ : Type) where
  | registerConduit
  | unregisterConduit (conduit : Nat)
  /-- `send_request` until it releases the lock. -/
  | sendRequest (conduit peer : Nat) (body : RequestBody σ)
  /-- A call that has released the lock sends what it took an identifier for. -/
  | sendOutbound (i : Nat)
  | deliverResponse (daemonId : Nat) (body : ResponseBody σ) (room : Bool)
  | deliverEvent (session : σ) (writerChanged : Bool) (room : Nat → Bool)
  | markDead
  | driverExits
  | deliverTcpAccepted (forwardId : Bytes) (now : Nat)
  | ring
  | sweepExpiredArrivals (now : Nat)
  | adminCloseForward (forwardId : Bytes)
  | claim (i : Nat) (forwardId token : Bytes)
  | check (i : Nat)
  | wake (i : Nat)
  | timeout (i : Nat)

namespace ControlHub

variable {σ : Type}

def new : ControlHub σ where
  mux := .new
  nextConduitId := 0
  inboxes := fun _ => false
  pendingAttachSubscriptions := fun _ => none
  longPollIds := []
  forwards := fun _ => none
  pendingRfwdOpens := fun _ => none
  pendingRfwdCloses := fun _ => none
  tunnelQueue := []
  dead := false
  sending := []
  outbound := []
  driven := true
  claims := fun _ => .idle
  rings := 0
  doomed := []
  requests := fun _ => none
  unsent := []
  answered := fun _ => false
  delivered := []
  events := []
  answers := []
  opened := []
  arrivals := 0
  handed := []
  resets := []

variable (h : ControlHub σ)

/-- The forward stands and its seat admits the token. -/
def admitsClaim (forwardId presented : Bytes) : Bool :=
  (h.forwards forwardId).any fun r => r.seat.admits presented

def isForwardOwner (forwardId : Bytes) (conduit : Nat) : Bool :=
  (h.forwards forwardId).any fun r => r.owner = conduit

/-- Removes forwards; their queued arrivals are reset. -/
def removeForwards (gone : Bytes → Bool) : ControlHub σ :=
  { h with
    forwards := fun f => if gone f then none else h.forwards f
    tunnelQueue := h.tunnelQueue.drop gone
    resets := h.tunnelQueue.dropped gone ++ h.resets }

def registerConduit (h : ControlHub σ) : ControlHub σ :=
  { h with
    mux := h.mux.registerConduit h.nextConduitId
    inboxes := update h.inboxes h.nextConduitId true
    nextConduitId := h.nextConduitId + 1 }

/-- An event goes to the inboxes of its subscribers, if they have room. -/
def deliverEvent (session : σ) (writerChanged : Bool) (room : Nat → Bool) :
    ControlHub σ :=
  let targets := h.mux.routeEvent h.nextConduitId session writerChanged
  let taken := targets.filter fun c => h.inboxes c && room c
  { h with
    events := taken.map (fun c => ⟨c, session, writerChanged⟩) ++ h.events
    doomed := targets.filter (fun c => !(h.inboxes c && room c)) ++ h.doomed }

/-- Queues a connection for its forward, if it can be claimed. -/
def deliverTcpAccepted (forwardId : Bytes) (now : Nat) : ControlHub σ :=
  match h.forwards forwardId with
  | some r =>
      if r.seat.isClaimable then
        { h with
          tunnelQueue := h.tunnelQueue.pushBack forwardId ⟨h.arrivals, forwardId, r.origin, now⟩
          arrivals := h.arrivals + 1
          rings := h.rings + 1 }
      else
        { h with
          arrivals := h.arrivals + 1
          resets := ⟨h.arrivals, forwardId, r.origin, now⟩ :: h.resets }
  | none =>
      { h with
        arrivals := h.arrivals + 1
        resets := ⟨h.arrivals, forwardId, 0, now⟩ :: h.resets }

/-- Resets the arrivals that waited too long. -/
def sweepExpiredArrivals (now : Nat) : ControlHub σ :=
  let old : TunnelArrival → Bool := fun a => MAX_QUEUED_TUNNEL_ARRIVAL_AGE ≤ now - a.queuedAt
  { h with
    tunnelQueue := h.tunnelQueue.trim old
    resets := h.tunnelQueue.trimmed old ++ h.resets }

def ring : ControlHub σ :=
  { h with
    rings := h.rings - 1
    claims := fun i =>
      match h.claims i with
      | .waiting f token parked _ => .waiting f token parked true
      | .idle => .idle }

/-- A claim looks at the queue under the lock. -/
def check (i : Nat) (forwardId token : Bytes) (woken : Bool) : ControlHub σ :=
  if h.admitsClaim forwardId token then
    match h.tunnelQueue.popFront forwardId with
    | some (arrival, queue) =>
        { h with
          tunnelQueue := queue
          handed := ⟨arrival, forwardId, token⟩ :: h.handed
          claims := update h.claims i .idle }
    | none => { h with claims := update h.claims i (.waiting forwardId token true woken) }
  else { h with claims := update h.claims i .idle }

/-- Removes a forward and asks the target to close it. -/
def adminCloseForward (forwardId : Bytes) : ControlHub σ :=
  if (h.forwards forwardId).isSome then
    let (id, mux) := h.mux.nextBareRequestId
    { h.removeForwards (· = forwardId) with
      mux
      sending := (id, .rfwdClose forwardId) :: h.sending
      rings := h.rings + 1 }
  else h

/-- What `send_request` writes under the lock once it has an identifier. -/
def record (conduit peer : Nat) (body : RequestBody σ) (id : Nat)
    (mux : ControlMux σ) : ControlHub σ :=
  { h with
    mux
    longPollIds := if body.isLongPoll then id :: h.longPollIds else h.longPollIds
    pendingAttachSubscriptions :=
      match body with
      | .sessionAttach session => update h.pendingAttachSubscriptions id (some session)
      | _ => h.pendingAttachSubscriptions
    pendingRfwdCloses :=
      match body with
      | .rfwdClose forwardId => update h.pendingRfwdCloses id (some forwardId)
      | _ => h.pendingRfwdCloses
    pendingRfwdOpens :=
      match body with
      | .rfwdOpen claimToken => update h.pendingRfwdOpens id (some claimToken)
      | _ => h.pendingRfwdOpens
    sending := (id, body.outbound) :: h.sending
    requests := update h.requests id (some ⟨conduit, peer, body⟩) }

def refusesClose (conduit : Nat) : RequestBody σ → Bool
  | .rfwdClose f => (h.forwards f).isSome && !h.isForwardOwner f conduit
  | _ => false

/-- `send_request` until it releases the lock. -/
def sendRequestLocked (conduit peer : Nat) (body : RequestBody σ) :
    Except HubSendError Unit × ControlHub σ :=
  if body.isLongPoll && MAX_INFLIGHT_LONG_POLL_PER_HUB ≤ h.longPollIds.length then
    (.error .exhausted, h)
  else
    if h.refusesClose conduit body then (.error .notOwner, h)
    else
      match h.mux.mapOutbound conduit peer with
      | none => (.error .exhausted, h)
      | some (id, mux) => (.ok (), h.record conduit peer body id mux)

/-- `outbound_tx.send`, which fails once the driver has gone. -/
def sendOutbound (i : Nat) : Except HubSendError Unit × ControlHub σ :=
  match h.sending[i]? with
  | some x =>
      let sending := h.sending.eraseIdx i
      if h.driven then (.ok (), { h with sending, outbound := x :: h.outbound })
      else (.error .hostDead, { h with sending, unsent := x :: h.unsent })
  | none => (.ok (), h)

/-- A call of `send_request` that nothing comes between. -/
def sendRequest (conduit peer : Nat) (body : RequestBody σ) :
    Except HubSendError Unit × ControlHub σ :=
  match h.sendRequestLocked conduit peer body with
  | (.ok (), u) => u.sendOutbound 0
  | refused => refused

/-- Nothing waits for an answered id any more. -/
def settle (id : Nat) : ControlHub σ :=
  { h with
    longPollIds := h.longPollIds.filter (· ≠ id)
    pendingAttachSubscriptions := update h.pendingAttachSubscriptions id none
    pendingRfwdCloses := update h.pendingRfwdCloses id none
    pendingRfwdOpens := update h.pendingRfwdOpens id none
    answered :=
      if (h.requests id).isSome then update h.answered id true else h.answered }

/-- The registry of forwards after an answer for a conduit, by the body and what was
pending for it. -/
def settleForwards (id conduit : Nat) (body : ResponseBody σ)
    (opening closing : Option Bytes) : ControlHub σ :=
  match body, opening, closing with
  | .rfwdOpened f, some token, _ =>
      if validForwardId f && (h.forwards f).isNone then
        { h with
          forwards := update h.forwards f (some ⟨conduit, .seat token, id⟩)
          opened := (id, f) :: h.opened }
      else h
  | .bare, _, some f => if h.isForwardOwner f conduit then h.removeForwards (· = f) else h
  | _, _, _ => h

/-- An answer is placed in the inbox of its conduit; a conduit whose inbox is full is
unregistered next. -/
def place (d : Delivery σ) (room : Bool) : ControlHub σ :=
  if h.inboxes d.conduit then
    if room then { h with delivered := d :: h.delivered }
    else { h with doomed := d.conduit :: h.doomed }
  else h

section Sessions

variable [DecidableEq σ]

def unregisterConduit (h : ControlHub σ) (conduit : Nat) : ControlHub σ :=
  { h.removeForwards (fun f => h.isForwardOwner f conduit) with
    mux := h.mux.unregisterConduit conduit
    inboxes := update h.inboxes conduit false
    pendingAttachSubscriptions := fun id =>
      if id ∈ h.mux.owned conduit then none else h.pendingAttachSubscriptions id
    rings := h.rings + 1
    doomed := h.doomed.erase conduit }

/-- The session that an answer names: a session that was opened, or the session of the
attach request that it answers. -/
def namedSession (body : ResponseBody σ) (attached : Option σ) : Option σ :=
  match body with
  | .sessionOpened session => some session
  | .sessionAttached => attached
  | _ => none

variable (h : ControlHub σ)

def subscribeTo (conduit : Nat) : Option σ → ControlHub σ
  | some session => { h with mux := h.mux.subscribe conduit session }
  | none => h

/-- The target's answer: settle its id, do what the body means for forwards and subscriptions, and
pass it to the conduit that asked. -/
def deliverResponse (id : Nat) (body : ResponseBody σ) (room : Bool) :
    ControlHub σ :=
  let s := h.settle id
  match h.mux.mapInbound id with
  | none => s
  | some (conduit, peer, mux) =>
      let s : ControlHub σ :=
        { s with
          mux
          answers := (id, body) :: s.answers }
      let s := s.subscribeTo conduit (namedSession body (h.pendingAttachSubscriptions id))
      let s := s.settleForwards id conduit body (h.pendingRfwdOpens id) (h.pendingRfwdCloses id)
      s.place ⟨id, conduit, peer, body⟩ room

/-- One step of a conduit, a claim, the target or the sweeper. -/
def step : HubOp σ → Option (ControlHub σ)
  | .registerConduit => some h.registerConduit
  | .unregisterConduit conduit => some (h.unregisterConduit conduit)
  | .sendRequest conduit peer body =>
      if conduit < h.nextConduitId then some (h.sendRequestLocked conduit peer body).2 else none
  | .sendOutbound i => if i < h.sending.length then some (h.sendOutbound i).2 else none
  | .deliverResponse id body room =>
      if h.driven then some (h.deliverResponse id body room) else none
  | .deliverEvent session writerChanged room =>
      if h.driven then some (h.deliverEvent session writerChanged room) else none
  | .markDead =>
      some { h with
        dead := true
        doomed := h.mux.conduitIds h.nextConduitId ++ h.doomed }
  | .driverExits => some { h with driven := false }
  | .deliverTcpAccepted forwardId now => some (h.deliverTcpAccepted forwardId now)
  | .ring => if 0 < h.rings then some h.ring else none
  | .sweepExpiredArrivals now => some (h.sweepExpiredArrivals now)
  | .adminCloseForward forwardId => some (h.adminCloseForward forwardId)
  | .claim i forwardId token =>
      match h.claims i with
      | .idle =>
          some { h with
            claims := update h.claims i (.waiting forwardId token false false) }
      | _ => none
  | .check i =>
      match h.claims i with
      | .waiting forwardId token false woken => some (h.check i forwardId token woken)
      | _ => none
  | .wake i =>
      match h.claims i with
      | .waiting forwardId token true true =>
          some { h with
            claims := update h.claims i (.waiting forwardId token false false) }
      | _ => none
  | .timeout i =>
      match h.claims i with
      | .waiting _ _ true _ => some { h with claims := update h.claims i .idle }
      | _ => none

/-! ## What the operations do -/

def onTunnels : HubOp σ → Bool
  | .deliverTcpAccepted _ _ | .ring | .sweepExpiredArrivals _ => true
  | .claim _ _ _ | .check _ | .wake _ | .timeout _ => true
  | _ => false

theorem step_onTunnels {h u : ControlHub σ} {op : HubOp σ} (hop : onTunnels op = true)
    (hstep : h.step op = some u) :
    ∃ tunnelQueue claims rings arrivals handed resets,
      u = { h with tunnelQueue, claims, rings, arrivals, handed, resets } := by
  cases op with simp only [step] at hstep
  | deliverTcpAccepted f now =>
    cases hstep
    unfold deliverTcpAccepted
    split
    · split <;> exact ⟨_, _, _, _, _, _, rfl⟩
    · exact ⟨_, _, _, _, _, _, rfl⟩
  | sweepExpiredArrivals now =>
    cases hstep
    exact ⟨_, _, _, _, _, _, rfl⟩
  | check i =>
    split at hstep <;> cases hstep
    unfold check
    split
    · split <;> exact ⟨_, _, _, _, _, _, rfl⟩
    · exact ⟨_, _, _, _, _, _, rfl⟩
  | ring | claim i f token | wake i | timeout i =>
    split at hstep <;> cases hstep
    exact ⟨_, _, _, _, _, _, rfl⟩
  | _ => cases hop


variable {h u : ControlHub σ} {id : Nat}

theorem step_sendRequest {conduit peer : Nat} {body : RequestBody σ}
    (hstep : h.step (.sendRequest conduit peer body) = some u) :
    u = h ∨ ∃ id mux, h.mux.mapOutbound conduit peer = some (id, mux) ∧
      (body.isLongPoll = true → h.longPollIds.length < MAX_INFLIGHT_LONG_POLL_PER_HUB) ∧
      u = h.record conduit peer body id mux := by
  simp only [step] at hstep
  split at hstep <;> cases hstep
  unfold sendRequestLocked
  split
  · exact .inl rfl
  rename_i hpoll
  split
  · exact .inl rfl
  cases hout : h.mux.mapOutbound conduit peer with
  | none => exact .inl rfl
  | some x =>
    obtain ⟨id, mux⟩ := x
    refine .inr ⟨id, mux, rfl, fun hbody => ?_, rfl⟩
    simpa [hbody] using hpoll

/-- A send moves one message from those under way to the channel, or to those that found
no driver. -/
theorem step_sendOutbound {i : Nat} (hstep : h.step (.sendOutbound i) = some u) :
    ∃ x sending, (x :: sending).Perm h.sending ∧
      (h.driven = true ∧ u = { h with sending, outbound := x :: h.outbound } ∨
        h.driven = false ∧ u = { h with sending, unsent := x :: h.unsent }) := by
  simp only [step] at hstep
  split at hstep <;> cases hstep
  rename_i hi
  refine ⟨h.sending[i], h.sending.eraseIdx i, List.getElem_cons_eraseIdx_perm hi, ?_⟩
  unfold sendOutbound
  rw [List.getElem?_eq_getElem hi]
  cases hdriven : h.driven with
  | true => exact .inl ⟨rfl, rfl⟩
  | false => exact .inr ⟨rfl, rfl⟩

omit [DecidableEq σ] in
theorem place_cases (h : ControlHub σ) (d : Delivery σ) (room : Bool) :
    ∃ delivered doomed, h.place d room = { h with delivered, doomed } ∧
      (delivered = h.delivered ∨ delivered = d :: h.delivered) ∧
      (doomed = h.doomed ∨ room = false ∧ doomed = d.conduit :: h.doomed) := by
  unfold place
  split
  · split
    · exact ⟨d :: h.delivered, h.doomed, rfl, .inr rfl, .inl rfl⟩
    · rename_i hroom
      exact ⟨h.delivered, d.conduit :: h.doomed, rfl, .inl rfl, .inr ⟨by simpa using hroom, rfl⟩⟩
  · exact ⟨h.delivered, h.doomed, rfl, .inl rfl, .inl rfl⟩

theorem subscribeTo_cases (h : ControlHub σ) (conduit : Nat) (session : Option σ) :
    ∃ mux, h.subscribeTo conduit session = { h with mux } ∧
      (mux = h.mux ∨ ∃ x, session = some x ∧ mux = h.mux.subscribe conduit x) := by
  cases session with
  | none => exact ⟨h.mux, rfl, .inl rfl⟩
  | some x => exact ⟨h.mux.subscribe conduit x, rfl, .inr ⟨x, rfl, rfl⟩⟩

omit [DecidableEq σ] in
/-- The registry after an answer: as it was, with the forward that was opened, or
without the forward that its owner closed. -/
theorem settleForwards_cases (h : ControlHub σ) (id conduit : Nat) (body : ResponseBody σ)
    (opening closing : Option Bytes) :
    h.settleForwards id conduit body opening closing = h ∨
      (∃ f token, body = .rfwdOpened f ∧ opening = some token ∧ h.forwards f = none ∧
        h.settleForwards id conduit body opening closing =
          { h with
            forwards := update h.forwards f (some ⟨conduit, .seat token, id⟩)
            opened := (id, f) :: h.opened }) ∨
      ∃ f, body = .bare ∧ closing = some f ∧ h.isForwardOwner f conduit = true ∧
        h.settleForwards id conduit body opening closing = h.removeForwards (· = f) := by
  unfold settleForwards
  split
  · rename_i f token
    split
    · rename_i hfree
      simp only [Bool.and_eq_true, Option.isNone_iff_eq_none] at hfree
      exact .inr (.inl ⟨f, token, rfl, rfl, hfree.2, rfl⟩)
    · exact .inl rfl
  · rename_i f
    split
    · exact .inr (.inr ⟨f, rfl, rfl, ‹_›, rfl⟩)
    · exact .inl rfl
  · exact .inl rfl

/-- The hub after an answer has been attributed to a conduit, before the registry is
looked at. -/
def attributed (h : ControlHub σ) (id : Nat) (body : ResponseBody σ) (mux : ControlMux σ) :
    ControlHub σ :=
  { h.settle id with mux, answers := (id, body) :: h.answers }

theorem step_deliverResponse {body : ResponseBody σ} {room : Bool}
    (hstep : h.step (.deliverResponse id body room) = some u) : h.driven = true ∧
    (h.mux.inflight id = none ∧ u = h.settle id ∨
      ∃ conduit peer inbound mux delivered doomed s,
        h.mux.mapInbound id = some (conduit, peer, inbound) ∧
        (mux = inbound ∨ ∃ x, namedSession body (h.pendingAttachSubscriptions id) = some x ∧
          mux = inbound.subscribe conduit x) ∧
        (s = h.attributed id body mux ∨
          (∃ f token, body = .rfwdOpened f ∧ h.pendingRfwdOpens id = some token ∧
            h.forwards f = none ∧
            s = { h.attributed id body mux with
              forwards := update h.forwards f (some ⟨conduit, .seat token, id⟩)
              opened := (id, f) :: h.opened }) ∨
          ∃ f, body = .bare ∧ h.pendingRfwdCloses id = some f ∧ h.isForwardOwner f conduit = true ∧
            s = (h.attributed id body mux).removeForwards (· = f)) ∧
        ((delivered = h.delivered ∨ delivered = ⟨id, conduit, peer, body⟩ :: h.delivered) ∧
          (doomed = h.doomed ∨ room = false ∧ doomed = conduit :: h.doomed)) ∧
        u = { s with delivered, doomed }) := by
  simp only [step] at hstep
  split at hstep <;> cases hstep
  refine ⟨‹_›, ?_⟩
  unfold deliverResponse
  cases hin : h.mux.mapInbound id with
  | none =>
    left
    exact ⟨by simpa [ControlMux.mapInbound] using hin, rfl⟩
  | some x =>
    obtain ⟨conduit, peer, inbound⟩ := x
    right
    obtain ⟨mux, hsub, hmux⟩ := subscribeTo_cases (h.attributed id body inbound) conduit
      (namedSession body (h.pendingAttachSubscriptions id))
    obtain ⟨delivered, doomed, hplace, hplaced⟩ := place_cases
      ((h.attributed id body mux).settleForwards id conduit body (h.pendingRfwdOpens id)
        (h.pendingRfwdCloses id)) ⟨id, conduit, peer, body⟩ room
    have hsub' : (h.attributed id body inbound).subscribeTo conduit
        (namedSession body (h.pendingAttachSubscriptions id)) = h.attributed id body mux := hsub
    refine ⟨conduit, peer, inbound, mux, delivered, doomed, _, rfl, hmux,
      settleForwards_cases _ id conduit body (h.pendingRfwdOpens id) (h.pendingRfwdCloses id),
      ?_, ?_⟩
    · rcases settleForwards_cases (h.attributed id body mux) id conduit body
        (h.pendingRfwdOpens id) (h.pendingRfwdCloses id) with
        heq | ⟨f, token, -, -, -, heq⟩ | ⟨f, -, -, -, heq⟩
      all_goals
        rw [heq] at hplaced
        exact hplaced
    show (((h.attributed id body inbound).subscribeTo conduit
        (namedSession body (h.pendingAttachSubscriptions id))).settleForwards id conduit body
          (h.pendingRfwdOpens id) (h.pendingRfwdCloses id)).place ⟨id, conduit, peer, body⟩ room =
      _
    rw [hsub', hplace]

end Sessions

end ControlHub

end Qsh.Reverse
