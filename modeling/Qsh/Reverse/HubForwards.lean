import Qsh.Reverse.HubRequests

/-!
# Forwarded connections

A connection that the host has accepted for a forward waits in the queue of that forward
until a claim presents the token of the registration.  `connections_reach_their_claim`
holds in every run, whatever the host answers: a connection goes only to a claim with the
token of the request that the registration came from, each connection is in one place and
gets there once, a queue belongs to a registration that can be claimed, a registration
ends by its owner or the daemon only, and no token leaves the hub.

The places are one statement: the numbers of the connections that wait, were handed over
and were reset are the numbers given out, each once.
-/

namespace Qsh.Reverse

open Qsh.Lib List Function

variable {σ : Type}

namespace ControlHub

def places (h : ControlHub σ) : List Nat :=
  h.tunnelQueue.items.map (·.serial) ++ h.handed.map (·.arrival.serial) ++ h.resets.map (·.serial)

/-- The connection came for the forward that the claim names, and the token is that of
the open request whose answer made the registration it was queued under. -/
structure Rightful (h : ControlHub σ) (x : Handover) : Prop where
  forward : x.arrival.forwardId = x.forwardId
  token : x.token ≠ []
  request : ∃ c p, h.requests x.arrival.origin = some ⟨c, p, .rfwdOpen x.token⟩
  answer : (x.arrival.origin, x.forwardId) ∈ h.opened

/-- A registration comes from an open request of its owner and carries its token. -/
structure Founded (h : ControlHub σ) (f : Bytes) (r : ForwardRegistration) : Prop where
  request : ∃ p token, h.requests r.origin = some ⟨r.owner, p, .rfwdOpen token⟩ ∧
    r.seat = .seat token
  answer : (r.origin, f) ∈ h.opened

def QueueOf (h : ControlHub σ) (e : Bytes × List TunnelArrival) : Prop :=
  ∃ r, h.forwards e.1 = some r ∧ r.seat.isClaimable = true ∧
    ∀ a ∈ e.2, a.forwardId = e.1 ∧ a.origin = r.origin

/-- Every forward was opened by its owner, and every arrival is in one place. -/
structure Kept (h : ControlHub σ) : Prop where
  founded : ∀ f r, h.forwards f = some r → h.Founded f r
  queues : ∀ e ∈ h.tunnelQueue, h.QueueOf e
  ledger : h.places.Perm (range h.arrivals)
  rightful : ∀ x ∈ h.handed, h.Rightful x
  silent : ∀ id token, (id, .rfwdOpen token) ∈ h.sending ++ h.outbound → token = []

variable {h u : ControlHub σ}

variable {f : Bytes} {r : ForwardRegistration}

theorem Founded.mono (hf : h.Founded f r)
    (hrequests : ∀ i x, h.requests i = some x → u.requests i = some x)
    (hopened : ∀ x ∈ h.opened, x ∈ u.opened) : u.Founded f r := by
  obtain ⟨⟨p, token, hreq, hseat⟩, hanswer⟩ := hf
  exact ⟨⟨p, token, hrequests _ _ hreq, hseat⟩, hopened _ hanswer⟩

theorem Rightful.mono {x : Handover} (hx : h.Rightful x)
    (hrequests : ∀ i x, h.requests i = some x → u.requests i = some x)
    (hopened : ∀ x ∈ h.opened, x ∈ u.opened) : u.Rightful x := by
  obtain ⟨hforward, htoken, ⟨c, p, hreq⟩, hanswer⟩ := hx
  exact ⟨hforward, htoken, ⟨c, p, hrequests _ _ hreq⟩, hopened _ hanswer⟩

section

variable (hk : h.Kept)
include hk

theorem Kept.of_eq (hrequests : ∀ i x, h.requests i = some x → u.requests i = some x)
    (hsilent : ∀ id token, (id, .rfwdOpen token) ∈ u.sending ++ u.outbound → token = [])
    (hforwards : u.forwards = h.forwards := by rfl)
    (hqueue : u.tunnelQueue = h.tunnelQueue := by rfl)
    (harrivals : u.arrivals = h.arrivals := by rfl) (hhanded : u.handed = h.handed := by rfl)
    (hresets : u.resets = h.resets := by rfl) (hopened : u.opened = h.opened := by rfl) :
    u.Kept where
  founded := by
    rw [hforwards]
    exact fun f r hr => (hk.founded f r hr).mono hrequests fun _ hx => hopened ▸ hx
  queues := by
    rw [hqueue]
    intro e he
    unfold QueueOf
    rw [hforwards]
    exact hk.queues e he
  ledger := by
    unfold places
    rw [hqueue, harrivals, hhanded, hresets]
    exact hk.ledger
  rightful := by
    rw [hhanded]
    exact fun x hx => (hk.rightful x hx).mono hrequests fun _ hx => hopened ▸ hx
  silent := hsilent

theorem Kept.account (hforwards : u.forwards = h.forwards)
    (hrequests : u.requests = h.requests) (hopened : u.opened = h.opened) :
    ∀ f r, u.forwards f = some r → u.Founded f r := by
  rw [hforwards]
  exact fun f r hr => (hk.founded f r hr).mono (fun _ _ hx => hrequests ▸ hx)
    fun _ hx => hopened ▸ hx

theorem Kept.removeForwards (gone : Bytes → Bool) : (h.removeForwards gone).Kept where
  founded := by
    intro f r hr
    have hr' : (if gone f then none else h.forwards f) = some r := hr
    split at hr'
    · cases hr'
    · exact (hk.founded f r hr').mono (fun _ _ hx => hx) fun _ hx => hx
  queues := by
    intro e he
    obtain ⟨he, hgone⟩ := Queues.mem_drop he
    obtain ⟨r, hr, hclaimable, hall⟩ := hk.queues e he
    refine ⟨r, ?_, hclaimable, hall⟩
    show (if gone e.1 then none else h.forwards e.1) = some r
    rw [hgone]
    exact hr
  ledger := by
    refine List.Perm.trans ?_ hk.ledger
    have hitems := (Queues.items_drop gone h.tunnelQueue).map (·.serial)
    rw [map_append] at hitems
    show ((h.tunnelQueue.drop gone).items.map (·.serial) ++ h.handed.map (·.arrival.serial) ++
      (h.tunnelQueue.dropped gone ++ h.resets).map (·.serial)).Perm h.places
    rw [map_append]
    refine List.Perm.trans ?_ (((hitems.symm).append_right _).append_right _)
    -- what is dropped moves from the queues to the resets
    rw [perm_iff_count]
    intro n
    simp only [count_append]
    omega
  rightful := fun x hx => (hk.rightful x hx).mono (fun _ _ hy => hy) fun _ hy => hy
  silent := hk.silent

theorem Kept.register {f token : Bytes} {c p id : Nat}
    (hrequest : h.requests id = some ⟨c, p, .rfwdOpen token⟩) (hnone : h.forwards f = none) :
    Kept { h with
      forwards := update h.forwards f (some ⟨c, .seat token, id⟩)
      opened := (id, f) :: h.opened } where
  founded := by
    intro g r hr
    rcases update_cases (f := h.forwards) hr with ⟨rfl, ⟨⟩⟩ | ⟨-, hold⟩
    · exact ⟨⟨p, token, hrequest, rfl⟩, mem_cons_self⟩
    · exact (hk.founded g r hold).mono (fun _ _ hx => hx) fun _ hx => mem_cons_of_mem _ hx
  queues := by
    intro e he
    obtain ⟨r, hr, hrest⟩ := hk.queues e he
    have hne : e.1 ≠ f := by
      rintro rfl
      rw [hnone] at hr
      cases hr
    refine ⟨r, ?_, hrest⟩
    show update h.forwards f _ e.1 = some r
    rw [update_of_ne hne]
    exact hr
  __ := hk
  rightful := fun x hx =>
    (hk.rightful x hx).mono (fun _ _ hy => hy) fun _ hy => mem_cons_of_mem _ hy

theorem Kept.deliverTcpAccepted (f : Bytes) (now : Nat) :
    (h.deliverTcpAccepted f now).Kept := by
  have hrefused : ∀ a : TunnelArrival, a.serial = h.arrivals →
      Kept { h with arrivals := h.arrivals + 1, resets := a :: h.resets } := by
    intro a ha
    refine ⟨hk.account rfl rfl rfl, hk.queues, ?_,
      fun x hx => (hk.rightful x hx).mono (fun _ _ hy => hy) fun _ hy => hy, hk.silent⟩
    show (h.tunnelQueue.items.map (·.serial) ++ h.handed.map (·.arrival.serial) ++
      (a :: h.resets).map (·.serial)).Perm (range (h.arrivals + 1))
    rw [range_succ, map_cons, ha]
    exact (perm_middle.trans (hk.ledger.cons _)).trans (perm_append_singleton _ _).symm
  unfold ControlHub.deliverTcpAccepted
  split
  swap
  · exact hrefused _ rfl
  rename_i r hr
  split
  swap
  · exact hrefused _ rfl
  rename_i hclaimable
  refine ⟨hk.account rfl rfl rfl, ?_, ?_,
    fun x hx => (hk.rightful x hx).mono (fun _ _ hy => hy) fun _ hy => hy, hk.silent⟩
  · intro e he
    rcases Queues.mem_pushBack he with he | ⟨hkey, hall⟩
    · exact hk.queues e he
    refine ⟨r, by rw [hkey]; exact hr, hclaimable, fun a ha => ?_⟩
    rcases hall a ha with rfl | ⟨q, hq, ha⟩
    · exact ⟨hkey.symm, rfl⟩
    obtain ⟨r', hr', -, hown⟩ := hk.queues _ hq
    rw [hr] at hr'
    cases hr'
    rw [hkey]
    exact hown a ha
  · have hitems := (Queues.items_pushBack f ⟨h.arrivals, f, r.origin, now⟩
      h.tunnelQueue).map (·.serial)
    rw [range_succ]
    refine ((hitems.append_right _).append_right _).trans ?_
    exact (hk.ledger.cons h.arrivals).trans (perm_append_singleton _ _).symm

theorem Kept.sweep (now : Nat) : (h.sweepExpiredArrivals now).Kept := by
  unfold sweepExpiredArrivals
  refine ⟨hk.account rfl rfl rfl, ?_, ?_,
    fun x hx => (hk.rightful x hx).mono (fun _ _ hy => hy) fun _ hy => hy, hk.silent⟩
  · intro e he
    obtain ⟨q, hq, hsub⟩ := Queues.mem_trim he
    obtain ⟨r, hr, hclaimable, hall⟩ := hk.queues _ hq
    exact ⟨r, hr, hclaimable, fun a ha => hall a (hsub a ha)⟩
  refine List.Perm.trans ?_ hk.ledger
  have hitems := (Queues.items_trim
    (fun a : TunnelArrival => MAX_QUEUED_TUNNEL_ARRIVAL_AGE ≤ now - a.queuedAt)
    h.tunnelQueue).map (·.serial)
  rw [map_append] at hitems
  unfold places
  rw [map_append]
  refine List.Perm.trans ?_ (((hitems.symm).append_right _).append_right _)
  rw [perm_iff_count]
  intro n
  simp only [count_append]
  omega

end

theorem token_of_admits {token : Bytes} (hf : h.Founded f r)
    (hr : h.forwards f = some r) (hadmits : h.admitsClaim f token = true) :
    token ≠ [] ∧ ∃ p, h.requests r.origin = some ⟨r.owner, p, .rfwdOpen token⟩ := by
  obtain ⟨⟨p, seated, hreq, hseat⟩, -⟩ := hf
  simp only [admitsClaim, hr, Option.any_some, hseat, ClaimSeat.seat, ClaimSeat.admits] at hadmits
  split at hadmits
  swap
  · cases hadmits
  rename_i other htoken
  simp only [Bool.and_eq_true, Bool.not_eq_true', decide_eq_true_eq] at hadmits
  obtain ⟨hne, rfl⟩ := hadmits
  split at htoken
  · cases htoken
  cases htoken
  refine ⟨?_, p, hreq⟩
  rintro rfl
  cases hne

theorem Kept.check (hk : h.Kept) (i : Nat) (f token : Bytes) (woken : Bool) :
    (h.check i f token woken).Kept := by
  unfold ControlHub.check
  split
  swap
  · exact hk.of_eq (fun _ _ hx => hx) hk.silent
  rename_i hadmits
  cases hpop : h.tunnelQueue.popFront f with
  | none =>
    exact hk.of_eq (fun _ _ hx => hx) hk.silent
  | some x =>
    obtain ⟨arrival, queue⟩ := x
    obtain ⟨hperm, ⟨q, hq, ha⟩, hsub⟩ := Queues.popFront_spec hpop
    obtain ⟨r, hr, hclaimable, hall⟩ := hk.queues _ hq
    obtain ⟨htoken, p, hreq⟩ := token_of_admits (hk.founded f r hr) hr hadmits
    obtain ⟨hforward, horigin⟩ := hall arrival ha
    refine ⟨hk.account rfl rfl rfl, ?_, ?_, ?_, hk.silent⟩
    · intro e he
      obtain ⟨q', hq', hsub'⟩ := hsub e he
      obtain ⟨r', hr', hclaimable', hall'⟩ := hk.queues _ hq'
      exact ⟨r', hr', hclaimable', fun a ha => hall' a (hsub' a ha)⟩
    · have hitems := hperm.map (·.serial)
      refine List.Perm.trans ?_ hk.ledger
      refine List.Perm.trans ?_ ((hitems.symm.append_right _).append_right _)
      exact perm_middle.append_right _
    intro x hx
    rcases mem_cons.1 hx with rfl | hx
    · refine ⟨hforward, htoken, ⟨r.owner, p, ?_⟩, ?_⟩
      · rw [horigin]
        exact hreq
      · rw [horigin]
        exact (hk.founded f r hr).answer
    · exact (hk.rightful x hx).mono (fun _ _ hy => hy) fun _ hy => hy

theorem silent_record (hk : h.Kept) (c p id : Nat) (body : RequestBody σ) (mux : ControlMux σ) :
    ∀ i token, (i, .rfwdOpen token) ∈ (h.record c p body id mux).sending ++ h.outbound →
      token = [] := by
  intro i token hmem
  rcases mem_cons.1 hmem with heq | hmem
  · cases body with
    | rfwdOpen claimToken =>
      cases heq
      rfl
    | _ => cases heq
  · exact hk.silent i token hmem

variable [DecidableEq σ]

theorem Kept.deliverResponse {id : Nat} {body : ResponseBody σ} {room : Bool} (hk : h.Kept)
    (ht : h.Traced) (hstep : h.step (.deliverResponse id body room) = some u) : u.Kept := by
  obtain ⟨-, ⟨-, rfl⟩ | ⟨c, p, inbound, mux, delivered, doomed, s, hin, -, hcase, -, rfl⟩⟩ :=
    step_deliverResponse hstep
  · exact hk.of_eq (fun _ _ hx => hx) hk.silent
  have hattributed : (h.attributed id body mux).Kept :=
    hk.of_eq (fun _ _ hx => hx) hk.silent
  have hs : s.Kept := by
    rcases hcase with rfl | ⟨f, token, -, hopen, hnone, rfl⟩ | ⟨f, -, -, -, rfl⟩
    · exact hattributed
    · -- the open that was pending and the entry in flight are one request
      obtain ⟨c', p', hreq⟩ := ht.opens id token hopen
      obtain ⟨body', hreq'⟩ := ht.flight id c p (ControlMux.mapInbound_spec hin).1
      have hbody : (⟨c', p', .rfwdOpen token⟩ : Forwarded σ) = ⟨c, p, body'⟩ :=
        Option.some.inj (hreq.symm.trans hreq')
      cases hbody
      exact hattributed.register hreq' hnone
    · exact hattributed.removeForwards _
  exact hs.of_eq (fun _ _ hx => hx) hs.silent

omit [DecidableEq σ] in
theorem Kept.adminCloseForward (hk : h.Kept) (f : Bytes) : (h.adminCloseForward f).Kept := by
  unfold ControlHub.adminCloseForward
  split
  · refine (hk.removeForwards (· = f)).of_eq (fun _ _ hx => hx) ?_
    intro i token hmem
    rcases mem_cons.1 hmem with heq | hmem
    · cases heq
    · exact hk.silent i token hmem
  · exact hk

theorem Kept.sendOutbound {i : Nat} (hk : h.Kept) (hstep : h.step (.sendOutbound i) = some u) :
    u.Kept := by
  obtain ⟨x, sending, hperm, ⟨-, rfl⟩ | ⟨-, rfl⟩⟩ := step_sendOutbound hstep
  all_goals refine hk.of_eq (fun _ _ hx => hx) fun i token hmem => hk.silent i token ?_
  · exact (perm_middle.trans (hperm.append_right h.outbound)).mem_iff.1 hmem
  · exact (hperm.append_right h.outbound).subset (mem_cons_of_mem x hmem)

variable {op : HubOp σ}

theorem Kept.step (hk : h.Kept) (ht : h.Traced) (hstep : h.step op = some u) :
    u.Kept := by
  cases op with simp only [ControlHub.step] at hstep
  | unregisterConduit c =>
    cases hstep
    exact (hk.removeForwards _).of_eq (fun _ _ hx => hx) hk.silent
  | sendRequest c p body =>
    obtain rfl | ⟨id, mux, hout, -, rfl⟩ := step_sendRequest hstep
    · exact hk
    · exact hk.of_eq (fun _ _ hx => ht.record_requests hout hx)
        (silent_record hk c p id body mux)
  | sendOutbound i => exact hk.sendOutbound hstep
  | deliverResponse id body room => exact hk.deliverResponse ht hstep
  | deliverTcpAccepted f now =>
    cases hstep
    exact hk.deliverTcpAccepted f now
  | sweepExpiredArrivals now =>
    cases hstep
    exact hk.sweep now
  | adminCloseForward f =>
    cases hstep
    exact hk.adminCloseForward f
  | check i =>
    split at hstep <;> cases hstep
    exact hk.check i _ _ _
  | registerConduit | markDead | driverExits =>
    cases hstep
    exact hk.of_eq (fun _ _ hx => hx) hk.silent
  | deliverEvent session writerChanged room | ring | claim i f token | wake i | timeout i =>
    split at hstep <;> cases hstep
    exact hk.of_eq (fun _ _ hx => hx) hk.silent

omit [DecidableEq σ] in
theorem kept_new : (ControlHub.new : ControlHub σ).Kept where
  founded := nofun
  queues := nofun
  ledger := List.Perm.refl _
  rightful := nofun
  silent := nofun

/-! ## How a registration ends -/

/-- The ways a registration ends: its owner is unregistered, its owner's close is
answered, or the daemon closes the forward. -/
def Ends (h : ControlHub σ) (op : HubOp σ) (f : Bytes) (r : ForwardRegistration) : Prop :=
  op = .unregisterConduit r.owner ∨ op = .adminCloseForward f ∨
    ∃ id room p, op = .deliverResponse id .bare room ∧
      h.requests id = some ⟨r.owner, p, .rfwdClose f⟩

theorem ends_of_removed (ht : h.Traced) (hstep : h.step op = some u)
    (hr : h.forwards f = some r) (hgone : u.forwards f ≠ some r) :
    h.Ends op f r := by
  have hstays : u.forwards = h.forwards → h.Ends op f r := by
    intro heq
    rw [heq] at hgone
    exact absurd hr hgone
  have hremoved : ∀ gone : Bytes → Bool, (if gone f then none else h.forwards f) ≠ some r →
      gone f = true := by
    intro gone hne
    split at hne
    · next hgone => exact hgone
    · exact absurd hr hne
  cases op with
  | unregisterConduit c =>
    cases hstep
    have howner := hremoved (h.isForwardOwner · c) hgone
    simp only [isForwardOwner, hr, Option.any_some, decide_eq_true_eq] at howner
    exact .inl (by rw [howner])
  | adminCloseForward g =>
    cases hstep
    unfold ControlHub.adminCloseForward at hgone
    split at hgone
    · rw [of_decide_eq_true (hremoved (· = g) hgone)]
      exact .inr (.inl rfl)
    · exact absurd hr hgone
  | deliverResponse id body room =>
    obtain ⟨-, ⟨-, rfl⟩ | ⟨c, p, inbound, mux, delivered, doomed, s, hin, -, hcase, -, rfl⟩⟩ :=
      step_deliverResponse hstep
    · exact hstays rfl
    rcases hcase with rfl | ⟨g, token, -, -, hnone, rfl⟩ | ⟨g, rfl, hclose, howner, rfl⟩
    · exact hstays rfl
    · -- a new registration takes the place of none
      have hne : f ≠ g := by
        rintro rfl
        rw [hnone] at hr
        cases hr
      have hgone' : update h.forwards g (some ⟨c, .seat token, id⟩) f ≠ some r := hgone
      rw [update_of_ne hne] at hgone'
      exact absurd hr hgone'
    obtain rfl := of_decide_eq_true (hremoved (· = g) hgone)
    simp only [isForwardOwner, hr, Option.any_some, decide_eq_true_eq] at howner
    obtain ⟨c', p', hreq⟩ := ht.closes id f hclose
    obtain ⟨body', hreq'⟩ := ht.flight id c p (ControlMux.mapInbound_spec hin).1
    have hbody : (⟨c', p', .rfwdClose f⟩ : Forwarded σ) = ⟨c, p, body'⟩ :=
      Option.some.inj (hreq.symm.trans hreq')
    cases hbody
    exact .inr (.inr ⟨id, room, p, rfl, by rw [howner]; exact hreq⟩)
  | sendRequest c p body =>
    obtain rfl | ⟨id, mux, -, -, rfl⟩ := step_sendRequest hstep
    all_goals exact hstays rfl
  | sendOutbound i =>
    obtain ⟨_, _, -, ⟨-, rfl⟩ | ⟨-, rfl⟩⟩ := step_sendOutbound hstep
    all_goals exact hstays rfl
  | registerConduit | markDead | driverExits =>
    cases hstep
    exact hstays rfl
  | deliverEvent session writerChanged room =>
    simp only [ControlHub.step] at hstep
    split at hstep <;> cases hstep
    exact hstays rfl
  | _ =>
    obtain ⟨_, _, _, _, _, _, rfl⟩ := step_onTunnels rfl hstep
    exact hstays rfl

/-- In every run: a connection is handed over only to a claim that names its forward and
presents the token of the open request whose answer made the registration it was queued
under; every connection waits, was handed over or was reset, and that once; a queue
belongs to a registration that can be claimed; a registration ends only by its owner's
close, its owner's end or the daemon's close; and no token leaves in a body. -/
theorem connections_reach_their_claim (ops : List (HubOp σ)) (t : ControlHub σ)
    (hr : Run ControlHub.step (fun _ _ => True) ControlHub.new ops t) :
    (∀ x ∈ t.handed, t.Rightful x) ∧ t.places.Perm (range t.arrivals) ∧
      (∀ e ∈ t.tunnelQueue, ∃ r, t.forwards e.1 = some r ∧ r.seat.isClaimable = true) ∧
      (∀ op u f r, t.step op = some u → t.forwards f = some r → u.forwards f ≠ some r →
        t.Ends op f r) ∧
      ∀ id token, (id, .rfwdOpen token) ∈ t.outbound → token = [] := by
  obtain ⟨ht, hk⟩ := hr.invariant (I := fun h => h.Traced ∧ h.Kept)
    (fun _ _ _ _ hstep hI => ⟨hI.1.step hstep, hI.2.step hI.1 hstep⟩) ⟨traced_new, kept_new⟩
  refine ⟨hk.rightful, hk.ledger, ?_, ?_,
    fun id token hmem => hk.silent id token (mem_append_right _ hmem)⟩
  · intro e he
    obtain ⟨r, hr, hclaimable, -⟩ := hk.queues e he
    exact ⟨r, hr, hclaimable⟩
  · intro op u f r hstep hr hgone
    exact ends_of_removed ht hstep hr hgone

/-- A forward is opened, a connection comes for it, a claim with another token gets
nothing, and the claim with the token gets the connection. -/
def handedOver : List (HubOp Nat) :=
  [.registerConduit, .sendRequest 0 1 (.rfwdOpen [7]), .sendOutbound 0,
    .deliverResponse 1 (.rfwdOpened [65]) true, .deliverTcpAccepted [65] 0, .ring,
    .claim 1 [65] [8], .check 1, .claim 0 [65] [7], .check 0, .deliverTcpAccepted [66] 0]

/-- The first connection went to the claim with the token, the second was refused. -/
theorem connections_reach_their_claim_once :
    ∃ t, Run ControlHub.step (fun _ _ => True) ControlHub.new handedOver t ∧
      (∀ x ∈ t.handed, t.Rightful x) ∧ t.handed.map (·.token) = [[7]] ∧ t.places = [0, 1] := by
  refine Run.exists_exec
    (fun t => t.handed.map (·.token) = [[7]] ∧ t.places = [0, 1]) (by decide +kernel)
    fun t hrun ht => ?_
  exact ⟨(connections_reach_their_claim handedOver t hrun).1, ht⟩

end ControlHub

end Qsh.Reverse
