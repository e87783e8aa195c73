import Qsh.Reverse.Hub

/-!
# The requests a hub has taken on

Whatever a hub keeps for an identifier comes from the request it took on under that
identifier: the entry in flight, the token of an open, the forward of a close, the
session of an attach.  `Traced` says so, and every step keeps it, whatever the host
answers.
-/

namespace Qsh.Reverse

open Qsh.Lib Function

variable {σ : Type}

namespace ControlHub

/-- Every entry for an identifier is of the request sent under it. -/
structure Traced (h : ControlHub σ) : Prop where
  tables : h.mux.Exact
  below : ∀ id x, h.requests id = some x → id < h.mux.nextDaemonRequestId
  flight : ∀ id c p, h.mux.inflight id = some (c, p) → ∃ body, h.requests id = some ⟨c, p, body⟩
  opens : ∀ id token, h.pendingRfwdOpens id = some token →
    ∃ c p, h.requests id = some ⟨c, p, .rfwdOpen token⟩
  closes : ∀ id f, h.pendingRfwdCloses id = some f →
    ∃ c p, h.requests id = some ⟨c, p, .rfwdClose f⟩
  attaches : ∀ id x, h.pendingAttachSubscriptions id = some x →
    ∃ c p, h.requests id = some ⟨c, p, .sessionAttach x⟩

variable {h u : ControlHub σ}

variable {c p id i : Nat} {body : RequestBody σ} {mux : ControlMux σ}

theorem Traced.record_requests (ht : h.Traced) (hout : h.mux.mapOutbound c p = some (id, mux))
    {x : Forwarded σ} (hx : h.requests i = some x) :
    (h.record c p body id mux).requests i = some x := by
  have hne : i ≠ id := by
    rintro rfl
    have hlt := ht.below i x hx
    rw [(ControlMux.mapOutbound_spec hout).1] at hlt
    omega
  show update h.requests id _ i = some x
  rw [update_of_ne hne]
  exact hx

theorem record_request (h : ControlHub σ) (c p id : Nat) (body : RequestBody σ)
    (mux : ControlMux σ) : (h.record c p body id mux).requests id = some ⟨c, p, body⟩ := by
  show update h.requests id _ id = _
  rw [update_self]

theorem Traced.record (ht : h.Traced)
    (hout : h.mux.mapOutbound c p = some (id, mux)) : (h.record c p body id mux).Traced := by
  obtain ⟨hid, hnext, hinflight, -⟩ := ControlMux.mapOutbound_spec hout
  have hnew := record_request h c p id body mux
  refine ⟨ht.tables.mapOutbound hout, ?_, ?_, ?_, ?_, ?_⟩
  · intro i x hx
    show i < mux.nextDaemonRequestId
    rw [hnext]
    have hx' : update h.requests id (some ⟨c, p, body⟩) i = some x := hx
    rcases update_cases hx' with ⟨rfl, -⟩ | ⟨-, hx⟩
    · omega
    · have hlt := ht.below i x hx
      omega
  · intro i c' p' hx
    have hx' : mux.inflight i = some (c', p') := hx
    rw [hinflight] at hx'
    rcases update_cases hx' with ⟨rfl, ⟨⟩⟩ | ⟨-, hx⟩
    · exact ⟨body, hnew⟩
    · obtain ⟨body', hbody'⟩ := ht.flight i c' p' hx
      exact ⟨body', ht.record_requests hout hbody'⟩
  -- what is pending for the new identifier is read off the body
  · intro i token hx
    have hold : ∀ token, h.pendingRfwdOpens i = some token →
        ∃ c' p', (h.record c p body id mux).requests i = some ⟨c', p', .rfwdOpen token⟩ := by
      intro token hx
      obtain ⟨c', p', hreq⟩ := ht.opens i token hx
      exact ⟨c', p', ht.record_requests hout hreq⟩
    cases body with
    | rfwdOpen claimToken =>
      rcases update_cases (f := h.pendingRfwdOpens) hx with ⟨rfl, ⟨⟩⟩ | ⟨-, hx⟩
      · exact ⟨c, p, hnew⟩
      · exact hold token hx
    | _ => exact hold token hx
  · intro i f hx
    have hold : ∀ f, h.pendingRfwdCloses i = some f →
        ∃ c' p', (h.record c p body id mux).requests i = some ⟨c', p', .rfwdClose f⟩ := by
      intro f hx
      obtain ⟨c', p', hreq⟩ := ht.closes i f hx
      exact ⟨c', p', ht.record_requests hout hreq⟩
    cases body with
    | rfwdClose forwardId =>
      rcases update_cases (f := h.pendingRfwdCloses) hx with ⟨rfl, ⟨⟩⟩ | ⟨-, hx⟩
      · exact ⟨c, p, hnew⟩
      · exact hold f hx
    | _ => exact hold f hx
  · intro i x hx
    have hold : ∀ x, h.pendingAttachSubscriptions i = some x →
        ∃ c' p', (h.record c p body id mux).requests i = some ⟨c', p', .sessionAttach x⟩ := by
      intro x hx
      obtain ⟨c', p', hreq⟩ := ht.attaches i x hx
      exact ⟨c', p', ht.record_requests hout hreq⟩
    cases body with
    | sessionAttach session =>
      rcases update_cases (f := h.pendingAttachSubscriptions) hx with ⟨rfl, ⟨⟩⟩ | ⟨-, hx⟩
      · exact ⟨c, p, hnew⟩
      · exact hold x hx
    | _ => exact hold x hx

theorem of_update_none {β : Type} {f : Nat → Option β} {x : β}
    (hx : update f id none i = some x) : f i = some x := by
  obtain ⟨-, ⟨⟩⟩ | ⟨-, hx⟩ := update_cases hx
  exact hx

theorem Traced.settle (ht : h.Traced) (id : Nat) : (h.settle id).Traced :=
  { ht with
    opens := fun i token hx => ht.opens i token (of_update_none hx)
    closes := fun i f hx => ht.closes i f (of_update_none hx)
    attaches := fun i x hx => ht.attaches i x (of_update_none hx) }

variable [DecidableEq σ]

theorem attributed_mux (ht : h.Traced) {body : ResponseBody σ}
    {inbound : ControlMux σ} (hin : h.mux.mapInbound id = some (c, p, inbound))
    (hmux : mux = inbound ∨ ∃ x, namedSession body (h.pendingAttachSubscriptions id) = some x ∧
      mux = inbound.subscribe c x) :
    mux.Exact ∧ mux.nextDaemonRequestId = h.mux.nextDaemonRequestId ∧
      mux.inflight = update h.mux.inflight id none := by
  obtain ⟨-, hnext, hinflight, -⟩ := ControlMux.mapInbound_spec hin
  have htables := ht.tables.mapInbound hin
  rcases hmux with rfl | ⟨x, -, rfl⟩
  · exact ⟨htables, hnext, hinflight⟩
  · exact ⟨htables.subscribe c x, hnext, hinflight⟩

theorem Traced.deliverResponse {id : Nat} {body : ResponseBody σ} {room : Bool} (ht : h.Traced)
    (hstep : h.step (.deliverResponse id body room) = some u) : u.Traced := by
  obtain ⟨-, ⟨-, rfl⟩ | ⟨c, p, inbound, mux, delivered, doomed, s, hin, hmux, hcase, -, rfl⟩⟩ :=
    step_deliverResponse hstep
  · exact ht.settle id
  obtain ⟨htables, hnext, hinflight⟩ := attributed_mux ht hin hmux
  have hattributed : (h.attributed id body mux).Traced := by
    refine { ht.settle id with
      tables := htables
      below := fun i x hx => hnext.symm ▸ ht.below i x hx
      flight := fun i c p hx => ht.flight i c p ?_ }
    have hx' : mux.inflight i = some (c, p) := hx
    rw [hinflight] at hx'
    exact of_update_none hx'
  rcases hcase with rfl | ⟨f, token, -, -, -, rfl⟩ | ⟨f, -, -, -, rfl⟩
  all_goals exact { hattributed with }

theorem Traced.unregisterConduit (ht : h.Traced) (c : Nat) : (h.unregisterConduit c).Traced :=
  { ht with
    tables := ht.tables.unregisterConduit c
    flight := fun id c p hx => ht.flight id c p (Option.ite_none_left_eq_some.1 hx).2
    attaches := fun id x hx => ht.attaches id x (Option.ite_none_left_eq_some.1 hx).2 }

omit [DecidableEq σ] in
theorem Traced.adminCloseForward (ht : h.Traced) (f : Bytes) : (h.adminCloseForward f).Traced := by
  unfold ControlHub.adminCloseForward
  split
  · exact { ht with
      tables := ht.tables.nextBare
      below := fun id x hx => Nat.lt_succ_of_lt (ht.below id x hx) }
  · exact ht

theorem Traced.step {op : HubOp σ} (ht : h.Traced) (hstep : h.step op = some u) : u.Traced := by
  cases op with
  | registerConduit =>
    cases hstep
    exact { ht with tables := ht.tables.registerConduit _ }
  | unregisterConduit c =>
    cases hstep
    exact ht.unregisterConduit c
  | sendRequest c p body =>
    obtain rfl | ⟨id, mux, hout, -, rfl⟩ := step_sendRequest hstep
    · exact ht
    · exact ht.record hout
  | sendOutbound i =>
    obtain ⟨_, _, -, ⟨-, rfl⟩ | ⟨-, rfl⟩⟩ := step_sendOutbound hstep
    all_goals exact { ht with }
  | deliverResponse id body room => exact ht.deliverResponse hstep
  | deliverEvent session writerChanged room =>
    simp only [ControlHub.step] at hstep
    split at hstep <;> cases hstep
    exact { ht with }
  | adminCloseForward f =>
    cases hstep
    exact ht.adminCloseForward f
  | markDead | driverExits =>
    cases hstep
    exact { ht with }
  | _ =>
    obtain ⟨_, _, _, _, _, _, rfl⟩ := step_onTunnels rfl hstep
    exact { ht with }

omit [DecidableEq σ] in
theorem traced_new : (ControlHub.new : ControlHub σ).Traced where
  tables := ControlMux.exact_new
  below := nofun
  flight := nofun
  opens := nofun
  closes := nofun
  attaches := nofun

end ControlHub

end Qsh.Reverse
