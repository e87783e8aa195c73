import Qsh.Reverse.HubConduits
import Qsh.Reverse.HubForwards

/-!
# A supervised reverse tunnel

The supervisor of a reverse tunnel (`Supervisor::monitor_reverse`) watches its conduit, and
is told by the claim loop when the daemon no longer has the tunnel's forward.  It then asks
the daemon for the host list, and if the registration it confirmed is still the live one,
for the tunnel list: a forward that is missing there was closed by an operator
(`read_operator_close`), and the tunnel ends for good.

The daemon takes a registration down in several steps: the hub is marked dead, is removed
from the table, and then the registry's row is marked stale.
-/

namespace Qsh.Reverse

open Qsh.Lib

inductive Ended where
  | lost
  | closed
  deriving DecidableEq

/-- Where `monitor_reverse` stands.  After a report it reads the host list, and then the
tunnel list. -/
inductive WatchPhase where
  | unconfirmed
  | watching
  | asking
  | listing
  | ended (how : Ended)
  deriving DecidableEq

/-- The daemon as far as the tunnel sees it, and its supervisor: the hub of the confirmed
registration, whether it is the one that is published, and the registry's row of the name
with its generation and whether it is reachable.  `closed` remembers that a close removed
the forward while the hub was published and not dead. -/
structure Supervised (σ : Type) where
  hub : ControlHub σ
  listed : Bool
  row : Option (Nat × Bool)
  pumpDone : Bool
  phase : WatchPhase
  closed : Bool

/-- A step of the hub, of its table or of the client. -/
inductive SuperviseOp (σ : Type) where
  | hub (op : HubOp σ)
  /-- The hub is replaced by that of another registration, or removed. -/
  | unpublish
  | setRow (row : Option (Nat × Bool))
  | confirm
  | pumpEnds
  /-- The pump has ended, or the accept path reports another peer. -/
  | lose
  | vanished (forwardId : Bytes)
  | readHosts (answered : Bool)
  /-- `elsewhere` is that another hub lists a forward of the same identifier. -/
  | readTunnels (answered elsewhere : Bool)

namespace Supervised

variable {σ : Type} [DecidableEq σ]

def start : Supervised σ where
  hub := .new
  listed := true
  row := none
  pumpDone := false
  phase := .unconfirmed
  closed := false

def closes (c : Nat) (f : Bytes) (h : ControlHub σ) : HubOp σ → Bool
  | .adminCloseForward forwardId => forwardId = f
  | .deliverResponse id .bare _ =>
      (h.requests id).any fun x => x.conduit = c && x.body = .rfwdClose f
  | _ => false

def removes (c : Nat) (f : Bytes) (s : Supervised σ) (op : HubOp σ) (h : ControlHub σ) : Bool :=
  s.phase ≠ .unconfirmed && s.listed && !s.hub.dead && closes c f s.hub op &&
    h.forwards f ≠ s.hub.forwards f

/-- One step, for the tunnel of conduit `c` whose forward is `f` and whose registration has
generation `g`. -/
def step (c : Nat) (f : Bytes) (g : Nat) (s : Supervised σ) :
    SuperviseOp σ → Option (Supervised σ)
  | .hub op =>
      (s.hub.step op).map fun h => { s with hub := h, closed := s.closed || s.removes c f op h }
  | .unpublish => some { s with listed := false }
  | .setRow row => some { s with row }
  | .confirm =>
      if s.phase = .unconfirmed ∧ s.hub.isForwardOwner f c = true then
        some { s with phase := .watching }
      else none
  | .pumpEnds => some { s with pumpDone := true }
  | .lose => if s.phase = .watching then some { s with phase := .ended .lost } else none
  | .vanished forwardId =>
      if s.phase = .watching then
        some (if forwardId = f ∧ s.pumpDone = false then { s with phase := .asking } else s)
      else none
  | .readHosts answered =>
      if s.phase = .asking then
        some { s with
          phase := if !answered then .watching
            else if s.row = some (g, true) then .listing else .ended .lost }
      else none
  | .readTunnels answered elsewhere =>
      if s.phase = .listing then
        some { s with
          phase := if !answered || elsewhere || (s.listed && (s.hub.forwards f).isSome) then
              .watching
            else .ended .closed }
      else none

def clientOpen (c : Nat) (s : Supervised σ) : SuperviseOp σ → Bool
  | .hub op => s.pumpDone || s.hub.clientOpen c op
  | _ => true

/-- The conduit's inbox has room.  The registration is not taken down and the pump does not
end between a report and the answers to it, and a row that is reachable has its hub. -/
def orderly (c g : Nat) (s : Supervised σ) : SuperviseOp σ → Bool
  | .hub .markDead => s.phase ≠ .listing
  | .hub op => s.pumpDone || s.hub.roomFor c op
  | .unpublish => s.phase ≠ .listing
  | .pumpEnds => s.phase ≠ .asking && s.phase ≠ .listing
  | .readHosts answered => !answered || s.row ≠ some (g, true) || (s.listed && !s.hub.dead)
  | _ => true

/-- The forward is there while nothing but a close has happened. -/
structure Inv (c : Nat) (f : Bytes) (s : Supervised σ) : Prop where
  traced : s.hub.Traced
  served : s.pumpDone = false → s.hub.Served c
  forward : s.phase ≠ .unconfirmed → s.listed = true → s.hub.dead = false →
    s.pumpDone = false → s.closed = true ∨ ∃ r, s.hub.forwards f = some r ∧ r.owner = c
  pump : s.phase = .asking ∨ s.phase = .listing → s.pumpDone = false
  listing : s.phase = .listing → s.listed = true ∧ s.hub.dead = false
  ended : s.phase = .ended .closed → s.closed = true

variable {s t : Supervised σ} {c g : Nat} {f : Bytes}

variable {op : HubOp σ} {h : ControlHub σ}

theorem forward_step {r : ForwardRegistration}
    (ht : s.hub.Traced) (hserved : s.hub.Served c) (hphase : s.phase ≠ .unconfirmed)
    (hlisted : s.listed = true) (hlive : s.hub.dead = false)
    (hopen : s.hub.clientOpen c op = true) (hr : s.hub.forwards f = some r) (howner : r.owner = c)
    (hstep : s.hub.step op = some h) :
    s.removes c f op h = true ∨ ∃ r, h.forwards f = some r ∧ r.owner = c := by
  by_cases hgone : h.forwards f = some r
  · exact .inr ⟨r, hgone, howner⟩
  have hcloses : closes c f s.hub op = true := by
    rcases ControlHub.ends_of_removed ht hstep hr hgone with
      rfl | rfl | ⟨id, room, p, rfl, hreq⟩
    · rw [howner] at hopen
      exact (hserved.not_unregistered hlive hopen).elim
    · simp [closes]
    · simp [closes, hreq, howner]
  left
  simp [removes, hphase, hlisted, hlive, hcloses, hr, hgone]

theorem Inv.hub (hi : s.Inv c f) (hopen : s.clientOpen c (.hub op) = true)
    (hC : s.orderly c g (.hub op) = true) (hstep : s.hub.step op = some h) :
    Inv c f { s with hub := h, closed := s.closed || s.removes c f op h } := by
  have hroom : s.pumpDone = false → s.hub.roomFor c op = true := by
    intro hpump
    cases op <;> simp_all [orderly, ControlHub.roomFor]
  have hserves : s.pumpDone = false → ControlHub.ServedAfter c s.hub op h := by
    intro hpump
    refine (hi.served hpump).step ?_ (hroom hpump) hstep
    simpa [clientOpen, hpump] using hopen
  have hlive : s.pumpDone = false → h.dead = false → s.hub.dead = false := by
    intro hpump hd
    rcases (hserves hpump).2 with rfl | heq
    · cases hstep
      cases hd
    · exact heq.symm.trans hd
  refine ⟨hi.traced.step hstep, fun hpump => (hserves hpump).1, ?_, hi.pump, ?_, ?_⟩
  · intro hphase hlisted hd hpump
    rcases hi.forward hphase hlisted (hlive hpump hd) hpump with hclosed | ⟨r, hr, howner⟩
    · exact .inl (by simp [hclosed])
    have hopen' : s.hub.clientOpen c op = true := by
      simpa [clientOpen, show s.pumpDone = false from hpump] using hopen
    rcases forward_step hi.traced (hi.served hpump) hphase hlisted (hlive hpump hd) hopen' hr
      howner hstep with hremoves | hkept
    · exact .inl (by simp [hremoves])
    · exact .inr hkept
  · intro hphase
    obtain ⟨hlisted, hdead⟩ := hi.listing hphase
    rcases (hserves (hi.pump (.inr hphase))).2 with rfl | heq
    · simp [orderly, show s.phase = .listing from hphase] at hC
    · exact ⟨hlisted, heq.trans hdead⟩
  · intro hphase
    simp [hi.ended hphase]

theorem Inv.step {op : SuperviseOp σ} (hi : s.Inv c f) (hopen : s.clientOpen c op = true)
    (hC : s.orderly c g op = true) (hs : s.step c f g op = some t) : t.Inv c f := by
  cases op with simp only [Supervised.step] at hs
  | hub op =>
    obtain ⟨h, hstep, rfl⟩ := Option.map_eq_some_iff.1 hs
    exact hi.hub hopen hC hstep
  | unpublish =>
    cases hs
    refine { hi with forward := nofun, listing := ?_ }
    intro hphase
    simp [orderly, show s.phase = .listing from hphase] at hC
  | setRow row =>
    cases hs
    exact { hi with }
  | confirm =>
    split at hs <;> cases hs
    rename_i hphase
    refine ⟨hi.traced, hi.served, fun _ _ _ _ => ?_, nofun, nofun, nofun⟩
    obtain ⟨r, hr, howner⟩ := (Option.any_eq_true _ _).1 hphase.2
    exact .inr ⟨r, hr, of_decide_eq_true howner⟩
  | pumpEnds =>
    cases hs
    refine ⟨hi.traced, nofun, nofun, ?_, hi.listing, hi.ended⟩
    intro hphase
    rcases hphase with hphase | hphase
    all_goals simp [orderly, show s.phase = _ from hphase] at hC
  | lose =>
    split at hs <;> cases hs
    rename_i hphase
    exact ⟨hi.traced, hi.served, fun _ => hi.forward (by simp [hphase]), nofun, nofun, nofun⟩
  | vanished forwardId =>
    split at hs <;> cases hs
    rename_i hphase
    split
    · rename_i hreport
      exact ⟨hi.traced, hi.served, fun _ => hi.forward (by simp [hphase]), fun _ => hreport.2,
        nofun, nofun⟩
    · exact hi
  | readHosts answered =>
    split at hs <;> cases hs
    rename_i hphase
    have hpump := hi.pump (.inl hphase)
    have hforward := hi.forward (by simp [hphase])
    refine ⟨hi.traced, hi.served, fun _ => hforward, fun _ => hpump, ?_, ?_⟩
    · split_ifs with hanswer hrow
      · nofun
      · intro _
        simpa [orderly, hrow, show answered = true by simpa using hanswer] using hC
      · nofun
    · split_ifs <;> exact nofun
  | readTunnels answered elsewhere =>
    split at hs <;> cases hs
    rename_i hphase
    obtain ⟨hlisted, hlive⟩ := hi.listing hphase
    have hpump := hi.pump (.inr hphase)
    have hforward := hi.forward (by simp [hphase]) hlisted hlive hpump
    refine ⟨hi.traced, hi.served, fun _ _ _ _ => hforward, fun _ => hpump,
      fun _ => ⟨hlisted, hlive⟩, ?_⟩
    split_ifs with hlists
    · nofun
    intro _
    rcases hforward with hclosed | ⟨r, hr, -⟩
    · exact hclosed
    · simp [hlisted, hr] at hlists

omit [DecidableEq σ] in
theorem Inv.start : (Supervised.start : Supervised σ).Inv c f :=
  ⟨ControlHub.traced_new, fun _ => ControlHub.served_new, fun hphase => absurd rfl hphase, nofun,
    nofun, nofun⟩

/-- In an orderly run, the supervisor of the tunnel ends it as closed only if an operator's
close or its own has removed its forward while its registration was published and its hub
not dead. -/
theorem closed_only_by_close (c : Nat) (f : Bytes) (g : Nat) {ops : List (SuperviseOp σ)}
    {s : Supervised σ} (hr : Run (step c f g)
      (fun s op => s.clientOpen c op = true ∧ s.orderly c g op = true) start ops s)
    (hend : s.phase = .ended .closed) : s.closed = true := by
  have hi : s.Inv c f := hr.invariant (I := Inv c f)
    (fun _ _ _ hC hs hI => hI.step hC.1 hC.2 hs) Inv.start
  exact hi.ended hend

def opened : List (SuperviseOp Nat) :=
  [.hub .registerConduit, .hub (.sendRequest 0 1 (.rfwdOpen [7])), .hub (.sendOutbound 0),
    .hub (.deliverResponse 1 (.rfwdOpened [65]) true), .setRow (some (4, true)), .confirm]

theorem closed_only_by_close_admin :
    ∃ s, Run (step 0 [65] 4) (fun s op => s.clientOpen 0 op = true ∧ s.orderly 0 4 op = true) start
        (opened ++ [.hub (.adminCloseForward [65]), .vanished [65], .readHosts true,
          .readTunnels true false]) s ∧ s.phase = .ended .closed ∧ s.closed = true :=
  Run.exists_exec (fun s => s.phase = .ended .closed) (by decide +kernel)
    fun _ hrun hend => ⟨hend, closed_only_by_close 0 [65] 4 hrun hend⟩

/-- The inbox of the conduit is full when an event comes for all, and its forward goes with
it: the tunnel ends as closed although nobody has closed it. -/
theorem full_inbox_ends_a_tunnel_as_closed :
    ∃ s, Run (step 0 [65] 4) (fun s op => s.clientOpen 0 op = true) start
        (opened ++ [.hub (.deliverEvent 7 true fun _ => false), .hub (.unregisterConduit 0),
          .vanished [65], .readHosts true, .readTunnels true false]) s ∧
      s.phase = .ended .closed ∧ s.closed = false ∧ s.hub.dead = false ∧ s.pumpDone = false :=
  Run.exists_of_exec (by decide +kernel)

end Supervised

end Qsh.Reverse
