import Qsh.Reverse.Hub

/-!
# Parked claims

A claim that found nothing waits for the notifier.  Whoever removes the registration it
waits on has to ring afterwards, or the claim sits out its whole budget and keeps its
permit.  `parked_claims_are_admitted` says that this holds in every run in which no
answer to an owner's close removes a registration that a claim is parked on; that is the
one removal which does not ring.

The invariant counts the rings that are still owed: a claim that is parked and not woken
is admitted by the registration there is, or an operation is still to ring.
-/

namespace Qsh.Reverse

open Qsh.Lib

variable {σ : Type}

namespace ControlHub

/-- A claim is parked on a forward, and nothing is there to wake it. -/
def ParkedOn (h : ControlHub σ) (i : Nat) (f token : Bytes) : Prop :=
  h.claims i = .waiting f token true false

/-- An answer to an owner's close of a forward finds no claim parked on it. -/
def NoneParked (h : ControlHub σ) : HubOp σ → Prop
  | .deliverResponse id .bare _ =>
      ∀ f c p, h.pendingRfwdCloses id = some f → h.mux.inflight id = some (c, p) →
        h.isForwardOwner f c = true → ∀ i token, ¬ h.ParkedOn i f token
  | _ => True

/-- A parked claim is admitted, or an operation is still to ring. -/
def ClaimsServed (h : ControlHub σ) : Prop :=
  ∀ i f token, h.ParkedOn i f token → h.admitsClaim f token = true ∨ 0 < h.rings

variable {h u : ControlHub σ}

section

variable (hs : h.ClaimsServed)
include hs

theorem ClaimsServed.update (i : Nat) {phase : ClaimPhase}
    (hnew : ∀ f token, phase = .waiting f token true false → h.admitsClaim f token = true) :
    ClaimsServed { h with claims := Function.update h.claims i phase } := by
  intro j f token hparked
  rcases update_cases (f := h.claims) hparked with ⟨-, hphase⟩ | ⟨-, hold⟩
  · exact .inl (hnew f token hphase)
  · exact hs j f token hold

theorem ClaimsServed.register {f : Bytes} (r : ForwardRegistration) (hnone : h.forwards f = none) :
    ClaimsServed { h with forwards := Function.update h.forwards f (some r) } := by
  intro i g token hparked
  refine (hs i g token hparked).imp_left fun hadmits => ?_
  have hne : g ≠ f := by
    rintro rfl
    simp [admitsClaim, hnone] at hadmits
  unfold admitsClaim
  dsimp only
  rw [Function.update_of_ne hne]
  exact hadmits

theorem ClaimsServed.remove {f : Bytes}
    (hnone : ∀ i token, ¬ h.ParkedOn i f token) (hclaims : u.claims = h.claims)
    (hforwards : ∀ g, g ≠ f → u.forwards g = h.forwards g) (hrings : u.rings = h.rings) :
    u.ClaimsServed := by
  intro i g token hparked
  unfold ParkedOn at hparked
  rw [hclaims] at hparked
  have hne : g ≠ f := by
    rintro rfl
    exact hnone i token hparked
  unfold admitsClaim
  rw [hforwards g hne, hrings]
  exact hs i g token hparked

end

theorem ClaimsServed.of_ring (hrings : 0 < u.rings) : u.ClaimsServed :=
  fun _ _ _ _ => .inr hrings

theorem claimsServed_ring : h.ring.ClaimsServed := by
  intro i f token hparked
  unfold ParkedOn ring at hparked
  dsimp only at hparked
  split at hparked <;> cases hparked

theorem claimsServed_deliverTcpAccepted (hs : h.ClaimsServed) (f : Bytes) (now : Nat) :
    (h.deliverTcpAccepted f now).ClaimsServed := by
  unfold deliverTcpAccepted
  split
  · split
    · exact .of_ring (Nat.succ_pos _)
    · exact hs
  · exact hs

theorem claimsServed_check (hs : h.ClaimsServed) (i : Nat) (f token : Bytes) (woken : Bool) :
    (h.check i f token woken).ClaimsServed := by
  unfold check
  split
  · rename_i hadmits
    split
    · exact hs.update i nofun
    · refine hs.update i fun g token' hphase => ?_
      cases hphase
      exact hadmits
  · exact hs.update i nofun

variable [DecidableEq σ]

theorem claimsServed_deliverResponse {id : Nat} {body : ResponseBody σ} {room : Bool}
    (hs : h.ClaimsServed) (hC : h.NoneParked (.deliverResponse id body room))
    (hstep : h.step (.deliverResponse id body room) = some u) : u.ClaimsServed := by
  obtain ⟨-, ⟨-, rfl⟩ | ⟨c, p, inbound, mux, delivered, doomed, s, hin, -, hcase, -, rfl⟩⟩ :=
    step_deliverResponse hstep
  · exact hs
  rcases hcase with rfl | ⟨f, token, -, -, hnone, rfl⟩ | ⟨f, rfl, hclose, howner, rfl⟩
  · exact hs
  · exact hs.register _ hnone
  · have hflight := (ControlMux.mapInbound_spec hin).1
    refine hs.remove (f := f) (hC f c p hclose hflight howner) rfl (fun g hg => ?_) rfl
    exact if_neg (by simpa using hg)

theorem ClaimsServed.step {op : HubOp σ} (hs : h.ClaimsServed) (hC : h.NoneParked op)
    (hstep : h.step op = some u) : u.ClaimsServed := by
  cases op with simp only [ControlHub.step] at hstep
  | registerConduit | markDead | driverExits | sweepExpiredArrivals now =>
    cases hstep
    exact hs
  | unregisterConduit c =>
    cases hstep
    exact .of_ring (Nat.succ_pos _)
  | sendRequest c p body =>
    obtain rfl | ⟨id, mux, -, -, rfl⟩ := step_sendRequest hstep
    all_goals exact hs
  | sendOutbound i =>
    obtain ⟨_, _, -, ⟨-, rfl⟩ | ⟨-, rfl⟩⟩ := step_sendOutbound hstep
    all_goals exact hs
  | deliverResponse id body room => exact claimsServed_deliverResponse hs hC hstep
  | deliverEvent session writerChanged room =>
    split at hstep <;> cases hstep
    exact hs
  | deliverTcpAccepted f now =>
    cases hstep
    exact claimsServed_deliverTcpAccepted hs f now
  | ring =>
    split at hstep <;> cases hstep
    exact claimsServed_ring
  | adminCloseForward f =>
    cases hstep
    unfold adminCloseForward
    split
    · exact .of_ring (Nat.succ_pos _)
    · exact hs
  | claim i f token | wake i | timeout i =>
    split at hstep <;> cases hstep
    exact hs.update i (by simp)
  | check i =>
    split at hstep <;> cases hstep
    exact claimsServed_check hs i _ _ _

/-- In every run in which no answer to an owner's close removes a registration that a
claim is parked on, a claim that is parked without a wake-up while no operation is still
to ring waits on a forward whose registration admits its token. -/
theorem parked_claims_are_admitted (ops : List (HubOp σ)) (t : ControlHub σ)
    (hr : Run ControlHub.step ControlHub.NoneParked ControlHub.new ops t) (hrings : t.rings = 0)
    (i : Nat) (f token : Bytes) (hparked : t.ParkedOn i f token) :
    t.admitsClaim f token = true := by
  have hserved := hr.invariant (I := ClaimsServed)
    (fun _ _ _ hC hstep hs => hs.step hC hstep) nofun
  exact (hserved i f token hparked).resolve_right (by omega)

/-! ## A close that wakes nobody -/

def closedUnderClaim : List (HubOp Nat) :=
  [.registerConduit, .sendRequest 0 1 (.rfwdOpen [7]), .sendOutbound 0,
    .deliverResponse 1 (.rfwdOpened [65]) true, .claim 0 [65] [7], .check 0,
    .sendRequest 0 2 (.rfwdClose [65]), .sendOutbound 0, .deliverResponse 2 .bare true]

/-- No operation is in progress, the forward is gone, and the claim is still parked. -/
theorem close_leaves_a_claim_parked :
    ∃ t, Run ControlHub.step (fun _ _ => True) ControlHub.new closedUnderClaim t ∧
      t.rings = 0 ∧ t.doomed = [] ∧ t.sending = [] ∧ t.ParkedOn 0 [65] [7] ∧
      t.forwards [65] = none ∧ t.admitsClaim [65] [7] = false :=
  Run.exists_exec (fun t => t.rings = 0 ∧ t.doomed = [] ∧ t.sending = [] ∧
      t.claims 0 = .waiting [65] [7] true false ∧ t.forwards [65] = none ∧
      t.admitsClaim [65] [7] = false) (by decide +kernel) fun _ _ hstate => hstate

/-- A claim is parked on one forward while another is taken away by the daemon. -/
def closedBesideClaim : List (HubOp Nat) :=
  [.registerConduit, .sendRequest 0 1 (.rfwdOpen [7]), .sendRequest 0 2 (.rfwdOpen [8]),
    .sendOutbound 1, .sendOutbound 0, .deliverResponse 1 (.rfwdOpened [65]) true,
    .deliverResponse 2 (.rfwdOpened [66]) true, .claim 0 [65] [7], .check 0,
    .claim 1 [66] [8], .check 1, .adminCloseForward [66], .ring, .wake 1, .check 1, .wake 0,
    .check 0]

def neverBare : HubOp σ → Bool
  | .deliverResponse _ .bare _ => false
  | _ => true

/-- The claim on the forward that is left is parked and admitted, the other has
ended. -/
theorem parked_claims_are_admitted_besides :
    ∃ t, Run ControlHub.step ControlHub.NoneParked ControlHub.new closedBesideClaim t ∧
      t.claims 1 = .idle ∧ t.ParkedOn 0 [65] [7] ∧ t.admitsClaim [65] [7] = true := by
  obtain ⟨t, hplayed, hrings, hended, hparked⟩ : ∃ t, Run ControlHub.step
      (fun _ op => neverBare op = true) ControlHub.new closedBesideClaim t ∧ t.rings = 0 ∧
      t.claims 1 = .idle ∧ t.claims 0 = .waiting [65] [7] true false :=
    Run.exists_of_exec (by decide +kernel)
  have hrun : Run ControlHub.step ControlHub.NoneParked ControlHub.new closedBesideClaim t := by
    refine hplayed.mono ?_
    intro s op hop
    unfold NoneParked
    split
    · cases hop
    · trivial
  exact ⟨t, hrun, hended, hparked,
    parked_claims_are_admitted closedBesideClaim t hrun hrings 0 [65] [7] hparked⟩

end ControlHub

end Qsh.Reverse
