import Mathlib.Data.List.Nodup
import Qsh.Reverse.HubRequests

/-!
# Relayed replies

Answers find their way back by the identifier a request was given.
`replies_reach_the_asker` says what holds in every run, with arbitrary answers of the
host: an answer in an inbox is one to a request of that conduit, and the only one; no
identifier is 0 or used twice; the tables of the multiplexer are inverses of one
another; what is in flight is bounded; and a session event goes to a conduit that an
answer of its own has named the session to.

The tables know a request before it is sent, so a host that guesses the next identifier
can answer a request that it has not been sent (`answered_before_it_is_sent`).  Where the
host answers only what it was sent, every answer in an inbox is to a request that was
forwarded under its identifier.
-/

namespace Qsh.Reverse

open Qsh.Lib List Function

variable {σ : Type}

namespace ControlHub

/-- An answer to a request of the conduit named the session: a session it opened, or the
session that the request attaches to. -/
def Named (h : ControlHub σ) (conduit : Nat) (session : σ) : Prop :=
  ∃ id p body, h.requests id = some ⟨conduit, p, body⟩ ∧ ((id, .sessionOpened session) ∈ h.answers ∨
      (id, .sessionAttached) ∈ h.answers ∧ body = .sessionAttach session)

/-- What has been given an identifier: it is on the way to the channel, was sent, or could
not be sent since the driver had gone. -/
def taken (h : ControlHub σ) : List (Nat × RequestBody σ) :=
  h.sending ++ (h.outbound ++ h.unsent)

/-- An answer that was placed in an inbox is to a request of that conduit, which was given
the identifier of the answer. -/
def Asked (h : ControlHub σ) (d : Delivery σ) : Prop :=
  ∃ body, h.requests d.daemonId = some ⟨d.conduit, d.peer, body⟩ ∧
    (d.daemonId, body.outbound) ∈ h.taken

/-- An answer that was placed in an inbox is to a request of that conduit, which was
forwarded under the identifier of the answer. -/
def AskedOnStream (h : ControlHub σ) (d : Delivery σ) : Prop :=
  ∃ body, h.requests d.daemonId = some ⟨d.conduit, d.peer, body⟩ ∧
    (d.daemonId, body.outbound) ∈ h.outbound

/-- The host answers only identifiers that it was sent. -/
def AnswersSent (h : ControlHub σ) : HubOp σ → Prop
  | .deliverResponse id _ _ => id ∈ h.outbound.map Prod.fst
  | _ => True

instance (h : ControlHub σ) (op : HubOp σ) : Decidable (h.AnswersSent op) := by
  unfold AnswersSent
  split <;> infer_instance

/-- The request is a long poll, and no answer under its identifier has come. -/
def PollOpen (h : ControlHub σ) (id : Nat) : Prop :=
  ∃ x, h.requests id = some x ∧ x.body.isLongPoll = true ∧ h.answered id = false

/-- What holds of the requests under way and of the answers given. -/
structure Relayed (h : ControlHub σ) : Prop where
  positive : ∀ x ∈ h.taken, x.1 ≠ 0 ∧ x.1 < h.mux.nextDaemonRequestId
  takenOnce : (h.taken.map Prod.fst).Nodup
  kept : ∀ id x, h.requests id = some x → (id, x.body.outbound) ∈ h.taken
  unsentDead : h.unsent ≠ [] → h.driven = false
  settled : ∀ d ∈ h.delivered, h.mux.inflight d.daemonId = none
  asked : ∀ d ∈ h.delivered, ∃ body, h.requests d.daemonId = some ⟨d.conduit, d.peer, body⟩
  once : (h.delivered.map (·.daemonId)).Nodup
  subscribed : ∀ s c, c ∈ h.mux.subscriptions s → h.Named c s
  events : ∀ e ∈ h.events, e.broadcast = false → h.Named e.conduit e.session
  polls : h.longPollIds.length ≤ MAX_INFLIGHT_LONG_POLL_PER_HUB
  pollOpen : ∀ id, h.PollOpen id → id ∈ h.longPollIds

variable {h u : ControlHub σ}

variable {c id p : Nat}

theorem Named.mono {s : σ} (hn : h.Named c s)
    (hrequests : ∀ i x, h.requests i = some x → u.requests i = some x)
    (hanswers : ∀ x ∈ h.answers, x ∈ u.answers) : u.Named c s := by
  obtain ⟨id, p, body, hreq, hans⟩ := hn
  refine ⟨id, p, body, hrequests _ _ hreq, ?_⟩
  rcases hans with hopened | ⟨hattached, hbody⟩
  · exact .inl (hanswers _ hopened)
  · exact .inr ⟨hanswers _ hattached, hbody⟩

section

variable (hr : h.Relayed)
include hr

theorem Relayed.take (ht : h.Traced) (m : RequestBody σ) :
    (∀ x ∈ (h.mux.nextDaemonRequestId, m) :: h.taken,
      x.1 ≠ 0 ∧ x.1 < h.mux.nextDaemonRequestId + 1) ∧
      (((h.mux.nextDaemonRequestId, m) :: h.taken).map Prod.fst).Nodup := by
  have hpositive := ht.tables.positive
  refine ⟨forall_mem_cons.2 ⟨by omega, fun x hx => ?_⟩, nodup_cons.2 ⟨?_, hr.takenOnce⟩⟩
  · have hlt := hr.positive x hx
    omega
  · intro hmem
    obtain ⟨x, hx, hfst⟩ := mem_map.1 hmem
    have hlt := (hr.positive x hx).2
    omega

theorem Relayed.record (ht : h.Traced) {c p id : Nat} {body : RequestBody σ}
    {mux : ControlMux σ} (hout : h.mux.mapOutbound c p = some (id, mux))
    (hpoll : body.isLongPoll = true → h.longPollIds.length < MAX_INFLIGHT_LONG_POLL_PER_HUB) :
    (h.record c p body id mux).Relayed := by
  obtain ⟨hid, hnext, hinflight, -, -, hsubs, -⟩ := ControlMux.mapOutbound_spec hout
  subst hid
  have hrequests : ∀ i x, h.requests i = some x →
      (h.record c p body _ mux).requests i = some x := fun _ _ hx => ht.record_requests hout hx
  obtain ⟨hpositive, honce⟩ := hr.take ht body.outbound
  refine ⟨hnext ▸ hpositive, honce, ?_, hr.unsentDead, ?_, ?_, hr.once, ?_, ?_, ?_, ?_⟩
  · intro i x hx
    have hx' : update h.requests _ (some ⟨c, p, body⟩) i = some x := hx
    rcases update_cases hx' with ⟨rfl, ⟨⟩⟩ | ⟨-, hold⟩
    · exact mem_cons_self
    · exact mem_cons_of_mem _ (hr.kept i x hold)
  · intro d hd
    obtain ⟨body', hreq⟩ := hr.asked d hd
    have hlt := ht.below _ _ hreq
    show mux.inflight d.daemonId = none
    rw [hinflight, update_of_ne (by omega)]
    exact hr.settled d hd
  · intro d hd
    obtain ⟨body', hreq⟩ := hr.asked d hd
    exact ⟨body', hrequests _ _ hreq⟩
  · intro s c' hc'
    have hc'' : c' ∈ mux.subscriptions s := hc'
    rw [hsubs] at hc''
    exact (hr.subscribed s c' hc'').mono hrequests fun _ hx => hx
  · exact fun e he hb => (hr.events e he hb).mono hrequests fun _ hx => hx
  · show (if body.isLongPoll then _ :: h.longPollIds else h.longPollIds).length ≤ _
    split
    · rename_i hlong
      exact hpoll hlong
    · exact hr.polls
  · rintro i ⟨x, hx, hlong, hunanswered⟩
    show i ∈ (if body.isLongPoll then _ :: h.longPollIds else h.longPollIds)
    have hx' : update h.requests _ (some ⟨c, p, body⟩) i = some x := hx
    rcases update_cases hx' with ⟨rfl, ⟨⟩⟩ | ⟨-, hold⟩
    · rw [if_pos hlong]
      exact mem_cons_self
    have hmem := hr.pollOpen i ⟨x, hold, hlong, hunanswered⟩
    split
    · exact mem_cons_of_mem _ hmem
    · exact hmem

/-- Only where a message with an identifier stands has changed. -/
theorem Relayed.move (sending outbound unsent : List (Nat × RequestBody σ))
    (hperm : (sending ++ (outbound ++ unsent)).Perm h.taken)
    (hunsent : unsent ≠ [] → h.driven = false) :
    Relayed { h with sending, outbound, unsent } :=
  { hr with
    positive := fun x hx => hr.positive x (hperm.subset hx)
    takenOnce := ((hperm.map Prod.fst).nodup_iff).2 hr.takenOnce
    kept := fun id x hx => hperm.symm.subset (hr.kept id x hx)
    unsentDead := hunsent }

theorem Relayed.askedOnStream {d : Delivery σ} (hd : d ∈ h.delivered)
    (hsent : d.daemonId ∈ h.outbound.map Prod.fst) : h.AskedOnStream d := by
  obtain ⟨body, hreq⟩ := hr.asked d hd
  obtain ⟨x, hx, hfst⟩ := mem_map.1 hsent
  -- one identifier stands for one message
  have heq : x = (d.daemonId, body.outbound) :=
    inj_on_of_nodup_map hr.takenOnce (mem_append_right _ (mem_append_left _ hx))
      (hr.kept _ _ hreq) hfst
  exact ⟨body, hreq, heq ▸ hx⟩

theorem pollOpen_settle {id i : Nat} {x : Forwarded σ}
    (hx : h.requests i = some x) (hlong : x.body.isLongPoll = true)
    (hunanswered : (h.settle id).answered i = false) : i ∈ (h.settle id).longPollIds := by
  have hunanswered' : (if (h.requests id).isSome then update h.answered id true else h.answered) i =
        false := hunanswered
  have hne : i ≠ id := by
    rintro rfl
    rw [hx, Option.isSome_some, if_pos rfl, update_self] at hunanswered'
    cases hunanswered'
  have hold : h.answered i = false := by
    split at hunanswered'
    · rw [update_of_ne hne] at hunanswered'
      exact hunanswered'
    · exact hunanswered'
  exact mem_filter.2 ⟨hr.pollOpen i ⟨x, hx, hlong, hold⟩, by simpa using hne⟩

end

variable {body : ResponseBody σ}

theorem named_of_answer (ht : h.Traced) {x : σ} (hflight : h.mux.inflight id = some (c, p))
    (hnamed : namedSession body (h.pendingAttachSubscriptions id) = some x)
    (hrequests : u.requests = h.requests) (hanswers : (id, body) ∈ u.answers) : u.Named c x := by
  obtain ⟨sent, hreq⟩ := ht.flight id c p hflight
  refine ⟨id, p, sent, by rw [hrequests]; exact hreq, ?_⟩
  cases body with
  | sessionOpened s =>
    cases hnamed
    exact .inl hanswers
  | sessionAttached =>
    obtain ⟨c', p', hreq'⟩ := ht.attaches id x hnamed
    have hsame : (⟨c', p', .sessionAttach x⟩ : Forwarded σ) = ⟨c, p, sent⟩ :=
      Option.some.inj (hreq'.symm.trans hreq)
    cases hsame
    exact .inr ⟨hanswers, rfl⟩
  | rfwdOpened | bare | other => cases hnamed

variable [DecidableEq σ]

theorem Relayed.answer (hr : h.Relayed) (ht : h.Traced)
    {inbound mux : ControlMux σ} {delivered : List (Delivery σ)}
    (hin : h.mux.mapInbound id = some (c, p, inbound))
    (hmux : mux = inbound ∨ ∃ x, namedSession body (h.pendingAttachSubscriptions id) = some x ∧
      mux = inbound.subscribe c x)
    (hdelivered : delivered = h.delivered ∨ delivered = ⟨id, c, p, body⟩ :: h.delivered) :
    Relayed { h.attributed id body mux with delivered } := by
  obtain ⟨hflight, -, -, -, hinsubs, -⟩ := ControlMux.mapInbound_spec hin
  obtain ⟨-, hnext, hinflight⟩ := attributed_mux ht hin hmux
  obtain ⟨sent, hreq⟩ := ht.flight id c p hflight
  have hmono : ∀ x ∈ h.answers, x ∈ (id, body) :: h.answers := fun _ hx => mem_cons_of_mem _ hx
  have hsettled : ∀ d ∈ h.delivered, mux.inflight d.daemonId = none := by
    intro d hd
    rw [hinflight, update_apply]
    split
    · rfl
    · exact hr.settled d hd
  -- an identifier that has been delivered is not in flight
  have hfresh : id ∉ h.delivered.map (·.daemonId) := by
    intro hmem
    obtain ⟨d, hd, rfl⟩ := mem_map.1 hmem
    have hnone := hr.settled d hd
    rw [hflight] at hnone
    cases hnone
  refine { hr with
    positive := ?_
    settled := ?_
    asked := ?_
    once := ?_
    subscribed := fun s c' hc' => ?_
    events := fun e he hb => (hr.events e he hb).mono (fun _ _ hx => hx) hmono
    polls := Nat.le_trans (length_filter_le _ _) hr.polls
    pollOpen := ?_ }
  · show ∀ x ∈ h.taken, x.1 ≠ 0 ∧ x.1 < mux.nextDaemonRequestId
    rw [hnext]
    exact hr.positive
  · rcases hdelivered with rfl | rfl
    · exact hsettled
    refine forall_mem_cons.2 ⟨?_, hsettled⟩
    show mux.inflight id = none
    rw [hinflight, update_self]
  · rcases hdelivered with rfl | rfl
    · exact hr.asked
    · exact forall_mem_cons.2 ⟨⟨sent, hreq⟩, hr.asked⟩
  · rcases hdelivered with rfl | rfl
    · exact hr.once
    · exact nodup_cons.2 ⟨hfresh, hr.once⟩
  · have hold : c' ∈ h.mux.subscriptions s →
        Named { h.attributed id body mux with delivered } c' s := fun hc =>
      (hr.subscribed s c' hc).mono (fun _ _ hx => hx) hmono
    have hc' : c' ∈ mux.subscriptions s := hc'
    rcases hmux with rfl | ⟨x, hx, rfl⟩
    · rw [hinsubs] at hc'
      exact hold hc'
    have hc'' : c' ∈ update inbound.subscriptions x ((inbound.subscriptions x).insert c) s := hc'
    rw [update_apply, hinsubs] at hc''
    split at hc''
    · rename_i hs
      subst hs
      rcases mem_insert_iff.1 hc'' with rfl | hc
      · exact named_of_answer ht hflight hx rfl mem_cons_self
      · exact hold hc
    · exact hold hc''
  · rintro i ⟨x, hx, hlong, hunanswered⟩
    exact pollOpen_settle hr hx hlong hunanswered

theorem Relayed.deliverResponse {body : ResponseBody σ} {room : Bool} (hr : h.Relayed)
    (ht : h.Traced) (hstep : h.step (.deliverResponse id body room) = some u) : u.Relayed := by
  obtain ⟨-, ⟨-, rfl⟩ | ⟨c, p, inbound, mux, delivered, doomed, s, hin, hmux, hcase,
    ⟨hdelivered, -⟩, rfl⟩⟩ := step_deliverResponse hstep
  · refine { hr with polls := ?_, pollOpen := ?_ }
    · exact Nat.le_trans (length_filter_le _ _) hr.polls
    · rintro i ⟨x, hx, hlong, hunanswered⟩
      exact pollOpen_settle hr hx hlong hunanswered
  · rcases hcase with rfl | ⟨f, token, -, -, -, rfl⟩ | ⟨f, -, -, -, rfl⟩
    all_goals exact { hr.answer ht hin hmux hdelivered with }

omit [DecidableEq σ] in
theorem Relayed.deliverEvent (hr : h.Relayed) (session : σ) (writerChanged : Bool)
    (room : Nat → Bool) : (h.deliverEvent session writerChanged room).Relayed := by
  refine { hr with events := fun e he hb => ?_ }
  rcases mem_append.1 he with he | he
  · obtain ⟨c, hc, rfl⟩ := mem_map.1 he
    have hwriter : writerChanged = false := hb
    have htarget := (mem_filter.1 hc).1
    rw [hwriter] at htarget
    exact hr.subscribed session c htarget
  · exact hr.events e he hb

omit [DecidableEq σ] in
theorem Relayed.adminCloseForward (hr : h.Relayed) (ht : h.Traced) (f : Bytes) :
    (h.adminCloseForward f).Relayed := by
  unfold ControlHub.adminCloseForward
  split
  · obtain ⟨hpositive, honce⟩ := hr.take ht (.rfwdClose f)
    exact { hr with
      positive := hpositive
      takenOnce := honce
      kept := fun i x hx => mem_cons_of_mem _ (hr.kept i x hx) }
  · exact hr

theorem Relayed.sendOutbound {i : Nat} (hr : h.Relayed)
    (hstep : h.step (.sendOutbound i) = some u) : u.Relayed := by
  obtain ⟨x, sending, hperm, ⟨hdriven, rfl⟩ | ⟨hdriven, rfl⟩⟩ := step_sendOutbound hstep
  · refine hr.move sending (x :: h.outbound) h.unsent ?_ hr.unsentDead
    exact perm_middle.trans (hperm.append_right _)
  · refine hr.move sending h.outbound (x :: h.unsent) ?_ fun _ => hdriven
    refine (perm_middle.append_left sending).trans (perm_middle.trans ?_)
    exact hperm.append_right (h.outbound ++ h.unsent)

theorem Relayed.step {op : HubOp σ} (hr : h.Relayed) (ht : h.Traced)
    (hstep : h.step op = some u) : u.Relayed := by
  cases op with
  | registerConduit =>
    cases hstep
    exact { hr with }
  | unregisterConduit c =>
    cases hstep
    refine { hr with
      settled := fun d hd => ?_
      subscribed := fun s c' hc' => hr.subscribed s c' ?_ }
    · show (if d.daemonId ∈ h.mux.owned c then none else h.mux.inflight d.daemonId) = none
      split
      · rfl
      · exact hr.settled d hd
    have hc'' : c' ∈ (if s ∈ h.mux.conduitSubscriptions c then
      (h.mux.subscriptions s).filter (· ≠ c) else h.mux.subscriptions s) := hc'
    split at hc''
    · exact (mem_filter.1 hc'').1
    · exact hc''
  | sendRequest c p body =>
    obtain rfl | ⟨id, mux, hout, hpoll, rfl⟩ := step_sendRequest hstep
    · exact hr
    · exact hr.record ht hout hpoll
  | sendOutbound i => exact hr.sendOutbound hstep
  | deliverResponse id body room => exact hr.deliverResponse ht hstep
  | deliverEvent session writerChanged room =>
    simp only [ControlHub.step] at hstep
    split at hstep <;> cases hstep
    exact hr.deliverEvent session writerChanged room
  | driverExits =>
    cases hstep
    exact { hr with unsentDead := fun _ => rfl }
  | adminCloseForward f =>
    cases hstep
    exact hr.adminCloseForward ht f
  | markDead =>
    cases hstep
    exact { hr with }
  | _ =>
    obtain ⟨_, _, _, _, _, _, rfl⟩ := step_onTunnels rfl hstep
    exact { hr with }

omit [DecidableEq σ] in
theorem relayed_new : (ControlHub.new : ControlHub σ).Relayed where
  positive := nofun
  takenOnce := nodup_nil
  kept := nofun
  unsentDead := fun hne => absurd rfl hne
  settled := nofun
  asked := nofun
  once := nodup_nil
  subscribed := nofun
  events := nofun
  polls := Nat.zero_le _
  pollOpen := fun _ ⟨_, hx, _⟩ => nomatch hx

/-! ## What the host was sent -/

/-- After an operation: an answer that is new in an inbox is the one that came, and what
was sent stays sent. -/
def Grows (h : ControlHub σ) (op : HubOp σ) (u : ControlHub σ) : Prop :=
  (∀ d ∈ u.delivered, d ∈ h.delivered ∨ ∃ body room, op = .deliverResponse d.daemonId body room) ∧
    ∀ x ∈ h.outbound, x ∈ u.outbound

omit [DecidableEq σ] in
theorem Grows.of_eq {op : HubOp σ} (hdelivered : u.delivered = h.delivered)
    (houtbound : u.outbound = h.outbound) : h.Grows op u :=
  ⟨fun _ hd => .inl (hdelivered ▸ hd), fun _ hx => houtbound.symm ▸ hx⟩

theorem grows_step {op : HubOp σ} (hstep : h.step op = some u) : h.Grows op u := by
  cases op with
  | registerConduit | unregisterConduit | markDead | driverExits =>
    cases hstep
    exact .of_eq rfl rfl
  | sendRequest c p body =>
    obtain rfl | ⟨id, mux, -, -, rfl⟩ := step_sendRequest hstep
    all_goals exact .of_eq rfl rfl
  | sendOutbound i =>
    obtain ⟨x, sending, -, ⟨-, rfl⟩ | ⟨-, rfl⟩⟩ := step_sendOutbound hstep
    · exact ⟨fun d hd => .inl hd, fun y hy => mem_cons_of_mem x hy⟩
    · exact .of_eq rfl rfl
  | deliverResponse id body room =>
    obtain ⟨-, ⟨-, rfl⟩ | ⟨c, p, inbound, mux, delivered, doomed, s, -, -, hcase,
      ⟨hdelivered, -⟩, rfl⟩⟩ := step_deliverResponse hstep
    · exact .of_eq rfl rfl
    refine ⟨fun d hd => ?_, ?_⟩
    · rcases hdelivered with rfl | rfl
      · exact .inl hd
      · rcases mem_cons.1 hd with rfl | hd
        · exact .inr ⟨body, room, rfl⟩
        · exact .inl hd
    · rcases hcase with rfl | ⟨f, token, -, -, -, rfl⟩ | ⟨f, -, -, -, rfl⟩
      all_goals exact fun x hx => hx
  | deliverEvent session writerChanged room =>
    simp only [ControlHub.step] at hstep
    split at hstep <;> cases hstep
    exact .of_eq rfl rfl
  | adminCloseForward f =>
    cases hstep
    unfold ControlHub.adminCloseForward
    split <;> exact .of_eq rfl rfl
  | _ =>
    obtain ⟨_, _, _, _, _, _, rfl⟩ := step_onTunnels rfl hstep
    exact .of_eq rfl rfl

theorem delivered_sent {ops : List (HubOp σ)} {t : ControlHub σ}
    (hr : Run ControlHub.step AnswersSent ControlHub.new ops t) :
    ∀ d ∈ t.delivered, d.daemonId ∈ t.outbound.map Prod.fst := by
  refine hr.invariant (I := fun h => ∀ d ∈ h.delivered, d.daemonId ∈ h.outbound.map Prod.fst)
    ?_ nofun
  intro h op u hC hstep hI d hd
  obtain ⟨hdelivered, hstays⟩ := grows_step hstep
  refine map_subset Prod.fst hstays ?_
  rcases hdelivered d hd with hold | ⟨body, room, rfl⟩
  · exact hI d hold
  · exact hC

/-- In every run: an answer in an inbox is to a request of that conduit with that
identifier, given the identifier of the answer, and is the only one; that request was
forwarded under it, or is on the way to the channel, or found the driver gone; and where
the host answers only identifiers that it was sent, it was forwarded.  No identifier is 0
or used twice; the tables of the multiplexer are inverses; a conduit has at most 64
requests in flight and the hub at most 16 long polls unanswered; and an event that is not
for everybody goes to conduits to which an answer of their own has named the session. -/
theorem replies_reach_the_asker (ops : List (HubOp σ)) (t : ControlHub σ)
    (hr : Run ControlHub.step (fun _ _ => True) ControlHub.new ops t) :
    (∀ d ∈ t.delivered, t.Asked d) ∧ (t.unsent ≠ [] → t.driven = false) ∧
      (Run ControlHub.step AnswersSent ControlHub.new ops t →
        ∀ d ∈ t.delivered, t.AskedOnStream d) ∧
      (t.delivered.map (·.daemonId)).Nodup ∧
      (t.taken.map Prod.fst).Nodup ∧ (∀ x ∈ t.taken, x.1 ≠ 0) ∧
      (∀ id c, (∃ p, t.mux.inflight id = some (c, p)) ↔ id ∈ t.mux.owned c) ∧
      (∀ s c, c ∈ t.mux.subscriptions s ↔ s ∈ t.mux.conduitSubscriptions c) ∧
      (∀ c, (t.mux.owned c).Nodup ∧ (t.mux.owned c).length ≤ 64) ∧
      (∀ ids : List Nat, ids.Nodup → (∀ id ∈ ids, t.PollOpen id) → ids.length ≤ 16) ∧
      ∀ e ∈ t.events, e.broadcast = false → t.Named e.conduit e.session := by
  obtain ⟨ht, hrel⟩ := hr.invariant (I := fun h => h.Traced ∧ h.Relayed)
    (fun _ _ _ _ hstep hI => ⟨hI.1.step hstep, hI.2.step hI.1 hstep⟩) ⟨traced_new, relayed_new⟩
  refine ⟨?_, hrel.unsentDead, fun hsent d hd => hrel.askedOnStream hd (delivered_sent hsent d hd),
    hrel.once, hrel.takenOnce, fun x hx => (hrel.positive x hx).1, ht.tables.flight,
    ht.tables.subscribed, fun c => ⟨ht.tables.nodup c, ht.tables.capped c⟩, ?_, hrel.events⟩
  · intro d hd
    obtain ⟨body, hreq⟩ := hrel.asked d hd
    exact ⟨body, hreq, hrel.kept _ _ hreq⟩
  intro ids hnodup hopen
  have hsub : ids ⊆ t.longPollIds := fun id hid => hrel.pollOpen id (hopen id hid)
  exact Nat.le_trans (subperm_of_subset hnodup hsub).length_le hrel.polls

/-- Two conduits use the same identifier, are answered in the other order, and an event
of the session that one of them opened follows. -/
def answeredInTurn : List (HubOp Nat) :=
  [.registerConduit, .registerConduit, .sendRequest 0 9 .other, .sendRequest 1 9 .sessionRead,
    .sendOutbound 0, .sendOutbound 0, .deliverResponse 2 .other true,
    .deliverResponse 2 .other true, .deliverResponse 1 (.sessionOpened 5) true,
    .deliverEvent 5 false fun _ => true]

/-- Each conduit has its own answer, and the event went to one of them. -/
theorem replies_reach_the_asker_inTurn :
    ∃ t, Run ControlHub.step AnswersSent ControlHub.new answeredInTurn t ∧
      (∀ d ∈ t.delivered, t.AskedOnStream d) ∧
      t.delivered.map (fun d => (d.daemonId, d.conduit, d.peer)) = [(1, 0, 9), (2, 1, 9)] ∧
      t.events.map (·.conduit) = [0] := by
  refine Run.exists_exec (fun t =>
      t.delivered.map (fun d => (d.daemonId, d.conduit, d.peer)) = [(1, 0, 9), (2, 1, 9)] ∧
      t.events.map (·.conduit) = [0]) (by decide +kernel) fun t hrun ht => ?_
  have hany := hrun.mono (D := fun _ _ => True) fun _ _ _ => trivial
  exact ⟨(replies_reach_the_asker answeredInTurn t hany).2.2.1 hrun, ht⟩

/-- The host answers identifier 1 while the request that was given it is not sent yet.  The
answer is in the inbox of the conduit and nothing was forwarded; and nothing ever is, if
the driver then goes. -/
theorem answered_before_it_is_sent :
    (∃ t : ControlHub Nat, Run ControlHub.step (fun _ _ => True) ControlHub.new
        [.registerConduit, .sendRequest 0 9 .other, .deliverResponse 1 .other true] t ∧
      t.delivered = [⟨1, 0, 9, .other⟩] ∧ t.outbound = []) ∧
    ∃ t : ControlHub Nat, Run ControlHub.step (fun _ _ => True) ControlHub.new
        [.registerConduit, .sendRequest 0 9 .other, .deliverResponse 1 .other true, .driverExits,
          .sendOutbound 0] t ∧
      t.delivered = [⟨1, 0, 9, .other⟩] ∧ t.sending = [] ∧ t.outbound = [] :=
  ⟨Run.exists_of_exec (by decide +kernel), Run.exists_of_exec (by decide +kernel)⟩

end ControlHub

end Qsh.Reverse
