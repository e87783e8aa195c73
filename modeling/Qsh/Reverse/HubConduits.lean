import Qsh.Reverse.Hub

/-!
# Conduits and their hub

The daemon serves a local client over a conduit (`LocalctlDaemon::serve_control`) and ends
it when the hub has closed the conduit's inbox or answers that the host is dead.  The
client takes the end of its conduit for the death of its registration: it asks for a hub
of a later generation (`control_hub_wait`).

A hub also closes an inbox that is full.  `Served` is what holds of a hub that is not dead
while every answer and event for a conduit finds room, and `ended_conduit_has_dead_hub` is
what the client relies on.
-/

namespace Qsh.Reverse

open Qsh.Lib Function

variable {σ : Type} [DecidableEq σ]

namespace ControlHub

/-- `serve_control` ends the conduit: its inbox is closed, or a request of it, one made now
or one under way, is answered that the host is dead. -/
def EndsConduit (h : ControlHub σ) (c : Nat) : Prop :=
  c < h.nextConduitId ∧ (h.inboxes c = false ∨
    (∃ peer body, (h.sendRequest c peer body).1 = .error .hostDead) ∨
    ∃ i x peer body, h.sending[i]? = some x ∧ h.requests x.1 = some ⟨c, peer, body⟩ ∧
      (h.sendOutbound i).1 = .error .hostDead)

/-- The client of the conduit keeps its end open: the hub unregisters it, or `serve_control`
after the hub has made it end. -/
def clientOpen (c : Nat) (h : ControlHub σ) : HubOp σ → Bool
  | .unregisterConduit c' =>
      c' ≠ c || c ∈ h.doomed || (c < h.nextConduitId && !h.inboxes c) || !h.driven
  | _ => true

/-- Answers and events for the conduit find room in its inbox, and the hub is marked dead
before its driver goes. -/
def roomFor (c : Nat) (h : ControlHub σ) : HubOp σ → Bool
  | .deliverResponse id _ room => (h.mux.mapInbound id).all fun x => x.1 ≠ c || room
  | .deliverEvent session writerChanged room =>
      c ∉ h.mux.routeEvent h.nextConduitId session writerChanged || (h.inboxes c && room c)
  | .driverExits => h.dead
  | _ => true

structure Served (c : Nat) (h : ControlHub σ) : Prop where
  driven : h.dead = false → h.driven = true
  inbox : h.dead = false → c < h.nextConduitId → h.inboxes c = true
  spared : h.dead = false → c ∉ h.doomed

/-- After an operation the conduit is kept, and only `mark_dead` has made the hub dead. -/
def ServedAfter (c : Nat) (h : ControlHub σ) (op : HubOp σ) (u : ControlHub σ) : Prop :=
  u.Served c ∧ (op = .markDead ∨ u.dead = h.dead)

variable {h u : ControlHub σ} {c : Nat} {op : HubOp σ}

theorem Served.deliverResponse {id : Nat} {body : ResponseBody σ} {room : Bool} (hs : h.Served c)
    (hroom : h.roomFor c (.deliverResponse id body room) = true)
    (hstep : h.step (.deliverResponse id body room) = some u) : ServedAfter c h op u := by
  obtain ⟨-, ⟨-, rfl⟩ | ⟨c', p, inbound, mux, delivered, doomed, s, hin, -, hcase, ⟨-, hdoomed⟩,
    rfl⟩⟩ := step_deliverResponse hstep
  · exact ⟨{ hs with }, .inr rfl⟩
  have hs' : ServedAfter c h op s ∧ s.dead = h.dead := by
    rcases hcase with rfl | ⟨f, token, -, -, -, rfl⟩ | ⟨f, -, -, -, rfl⟩
    all_goals exact ⟨⟨{ hs with }, .inr rfl⟩, rfl⟩
  refine ⟨⟨hs'.1.1.driven, hs'.1.1.inbox, fun hlive => ?_⟩, .inr hs'.2⟩
  have hold := hs.spared (hs'.2 ▸ hlive)
  rcases hdoomed with rfl | ⟨hfull, rfl⟩
  · exact hold
  intro hmem
  rcases List.mem_cons.1 hmem with rfl | hmem
  · simp [roomFor, hin, hfull] at hroom
  · exact hold hmem

omit [DecidableEq σ] in
theorem Served.not_unregistered (hs : h.Served c) (hlive : h.dead = false)
    (hopen : h.clientOpen c (.unregisterConduit c) = true) : False := by
  have hinbox := hs.inbox hlive
  simp only [clientOpen, ne_eq, not_true, decide_false, Bool.false_or, hs.driven hlive,
    Bool.not_true, Bool.or_false, Bool.or_eq_true, decide_eq_true_eq, Bool.and_eq_true,
    Bool.not_eq_true'] at hopen
  rcases hopen with hdoomed | ⟨hc, hclosed⟩
  · exact hs.spared hlive hdoomed
  · rw [hinbox hc] at hclosed
    cases hclosed

theorem Served.step (hs : h.Served c) (hopen : h.clientOpen c op = true)
    (hroom : h.roomFor c op = true) (hstep : h.step op = some u) : ServedAfter c h op u := by
  cases op with
  | registerConduit =>
    cases hstep
    refine ⟨⟨hs.driven, fun hlive hc => ?_, hs.spared⟩, .inr rfl⟩
    show update h.inboxes h.nextConduitId true c = true
    rw [update_apply]
    split
    · rfl
    · have hlt : c < h.nextConduitId + 1 := hc
      exact hs.inbox hlive (by omega)
  | unregisterConduit c' =>
    cases hstep
    refine ⟨⟨hs.driven, fun hlive hc => ?_,
      fun hlive hmem => hs.spared hlive (List.mem_of_mem_erase hmem)⟩, .inr rfl⟩
    show update h.inboxes c' false c = true
    rw [update_of_ne]
    · exact hs.inbox hlive hc
    · rintro rfl
      exact hs.not_unregistered hlive hopen
  | markDead =>
    cases hstep
    exact ⟨⟨nofun, nofun, nofun⟩, .inl rfl⟩
  | driverExits =>
    cases hstep
    have hdead : h.dead = true := hroom
    exact ⟨⟨fun hlive => absurd (hdead.symm.trans hlive) (by simp), hs.inbox, hs.spared⟩, .inr rfl⟩
  | deliverResponse id body room => exact hs.deliverResponse hroom hstep
  | deliverEvent session writerChanged room =>
    simp only [ControlHub.step] at hstep
    split at hstep <;> cases hstep
    refine ⟨⟨hs.driven, hs.inbox, fun hlive hmem => ?_⟩, .inr rfl⟩
    rcases List.mem_append.1 hmem with hmem | hmem
    · simp_all [roomFor]
    · exact hs.spared hlive hmem
  | sendRequest c' p body =>
    obtain rfl | ⟨id, mux, -, -, rfl⟩ := step_sendRequest hstep
    all_goals exact ⟨{ hs with }, .inr rfl⟩
  | sendOutbound i =>
    obtain ⟨_, _, -, ⟨-, rfl⟩ | ⟨-, rfl⟩⟩ := step_sendOutbound hstep
    all_goals exact ⟨{ hs with }, .inr rfl⟩
  | adminCloseForward g =>
    cases hstep
    unfold ControlHub.adminCloseForward
    split
    · exact ⟨{ hs with }, .inr rfl⟩
    · exact ⟨hs, .inr rfl⟩
  | _ =>
    obtain ⟨_, _, _, _, _, _, rfl⟩ := step_onTunnels rfl hstep
    exact ⟨{ hs with }, .inr rfl⟩

omit [DecidableEq σ] in
theorem served_new : (ControlHub.new : ControlHub σ).Served c :=
  ⟨fun _ => rfl, fun _ hc => absurd hc (Nat.not_lt_zero c), nofun⟩

omit [DecidableEq σ] in
theorem sendOutbound_ne_hostDead (hdriven : h.driven = true) (i : Nat) :
    (h.sendOutbound i).1 ≠ .error .hostDead := by
  unfold ControlHub.sendOutbound
  rw [hdriven]
  split <;> nofun

omit [DecidableEq σ] in
theorem sendRequest_ne_hostDead (hdriven : h.driven = true) (peer : Nat) (body : RequestBody σ) :
    (h.sendRequest c peer body).1 ≠ .error .hostDead := by
  unfold ControlHub.sendRequest sendRequestLocked
  split_ifs
  · nofun
  · nofun
  cases h.mux.mapOutbound c peer with
  | none => nofun
  | some x => exact sendOutbound_ne_hostDead (h := h.record c peer body x.1 x.2) hdriven 0

omit [DecidableEq σ] in
theorem Served.dead_of_ends (hs : h.Served c) (hends : h.EndsConduit c) : h.dead = true := by
  obtain ⟨hc, hend⟩ := hends
  by_contra hlive
  have hlive : h.dead = false := by simpa using hlive
  rcases hend with hclosed | ⟨peer, body, herr⟩ | ⟨i, x, peer, body, -, -, herr⟩
  · rw [hs.inbox hlive hc] at hclosed
    cases hclosed
  · exact sendRequest_ne_hostDead (hs.driven hlive) peer body herr
  · exact sendOutbound_ne_hostDead (hs.driven hlive) i herr

end ControlHub

/-! ## The hubs of a name -/

/-- The hubs made for a name, with their generations, and the one that is published. -/
structure HubTable (σ : Type) where
  hubs : Nat → Option (Nat × ControlHub σ)
  made : Nat
  published : Option Nat

inductive TableOp (σ : Type) where
  /-- A registration publishes its hub; the hub it replaces is marked dead next. -/
  | publish (generation : Nat)
  | removeIf (generation : Nat)
  | hub (i : Nat) (op : HubOp σ)

namespace HubTable

def empty : HubTable σ := ⟨fun _ => none, 0, none⟩

/-- The hub that the table shows. -/
def occupant (s : HubTable σ) : Option (Nat × ControlHub σ) := s.published.bind s.hubs

def waitPoll (s : HubTable σ) (known : Option Nat) : Option (Nat × ControlHub σ) :=
  s.occupant.filter fun x => known.all (· < x.1)

/-- One step of the table or of one of its hubs. -/
def step (s : HubTable σ) : TableOp σ → Option (HubTable σ)
  | .publish generation =>
      if s.occupant.any fun x => generation ≤ x.1 then some s
      else some
        { hubs := update s.hubs s.made (some (generation, .new))
          made := s.made + 1
          published := some s.made }
  | .removeIf generation =>
      if s.occupant.any fun x => x.1 = generation then some { s with published := none }
      else some s
  | .hub i op =>
      match s.hubs i with
      | some (generation, h) =>
          (h.step op).map fun h' =>
            { s with hubs := update s.hubs i (some (generation, h')) }
      | none => none

def clientOpen (i c : Nat) (s : HubTable σ) : TableOp σ → Bool
  | .hub j op => j ≠ i || (s.hubs i).all fun x => x.2.clientOpen c op
  | _ => true

/-- There is room for the conduit, and a registration that publishes its hub is newer than
all that have. -/
def steady (i c : Nat) (s : HubTable σ) : TableOp σ → Bool
  | .hub j op => j ≠ i || (s.hubs i).all fun x => x.2.roomFor c op
  | .publish generation =>
      (List.range s.made).all fun j => (s.hubs j).all fun x => x.1 < generation
  | .removeIf _ => true

/-- Later hubs have later generations, and only the last one is published. -/
structure Ordered (s : HubTable σ) : Prop where
  below : ∀ i x, s.hubs i = some x → i < s.made
  last : ∀ i, s.published = some i → i + 1 = s.made
  later : ∀ i j x y, s.hubs i = some x → s.hubs j = some y → i < j → x.1 < y.1

variable {s t : HubTable σ} {i c : Nat}

theorem step_hub {j : Nat} {op : HubOp σ} (hs : s.step (.hub j op) = some t) :
    ∃ g h h', s.hubs j = some (g, h) ∧ h.step op = some h' ∧
      t = { s with hubs := update s.hubs j (some (g, h')) } := by
  simp only [step] at hs
  split at hs
  · rename_i g h hj
    obtain ⟨h', hh', rfl⟩ := Option.map_eq_some_iff.1 hs
    exact ⟨g, h, h', hj, hh', rfl⟩
  · cases hs

theorem Ordered.step {op : TableOp σ} (ho : s.Ordered) (hC : s.steady i c op = true)
    (hs : s.step op = some t) : t.Ordered := by
  cases op with simp only [HubTable.step] at hs
  | publish generation =>
    split at hs <;> cases hs
    · exact ho
    have hnewer : ∀ j x, s.hubs j = some x → x.1 < generation := by
      intro j x hx
      have hj := List.all_eq_true.1 hC j (List.mem_range.2 (ho.below j x hx))
      simpa [hx] using hj
    refine ⟨fun j x hx => ?_, fun j hj => by cases hj; rfl, fun j k x y hx hy hlt => ?_⟩
    · rcases update_cases hx with ⟨rfl, -⟩ | ⟨-, hold⟩
      · exact Nat.lt_succ_self _
      · exact Nat.lt_succ_of_lt (ho.below j x hold)
    rcases update_cases hx with ⟨rfl, -⟩ | ⟨-, hx⟩
    · rcases update_cases hy with ⟨rfl, -⟩ | ⟨-, hy⟩
      · omega
      · have := ho.below k y hy
        omega
    · rcases update_cases hy with ⟨-, ⟨⟩⟩ | ⟨-, hy⟩
      · exact hnewer j x hx
      · exact ho.later j k x y hx hy hlt
  | removeIf generation =>
    split at hs <;> cases hs
    · exact ⟨ho.below, nofun, ho.later⟩
    · exact ho
  | hub j op =>
    obtain ⟨g, h, h', hj, -, rfl⟩ := step_hub hs
    have hold : ∀ k x, update s.hubs j (some (g, h')) k = some x →
        ∃ y, s.hubs k = some y ∧ y.1 = x.1 := by
      intro k x hx
      rcases update_cases hx with ⟨rfl, ⟨⟩⟩ | ⟨-, hx⟩
      · exact ⟨(g, h), hj, rfl⟩
      · exact ⟨x, hx, rfl⟩
    refine ⟨fun k x hx => ?_, ho.last, fun k l x y hx hy hlt => ?_⟩
    · obtain ⟨x', hx', -⟩ := hold k x hx
      exact ho.below k x' hx'
    obtain ⟨x', hx', hxg⟩ := hold k x hx
    obtain ⟨y', hy', hyg⟩ := hold l y hy
    rw [← hxg, ← hyg]
    exact ho.later k l x' y' hx' hy' hlt

theorem served_step {op : TableOp σ} (hserved : ∀ x, s.hubs i = some x → x.2.Served c)
    (hopen : s.clientOpen i c op = true) (hC : s.steady i c op = true)
    (hs : s.step op = some t) : ∀ x, t.hubs i = some x → x.2.Served c := by
  cases op with simp only [HubTable.step] at hs
  | publish generation =>
    split at hs <;> cases hs
    · exact hserved
    intro x hx
    rcases update_cases hx with ⟨-, ⟨⟩⟩ | ⟨-, hx⟩
    · exact ControlHub.served_new
    · exact hserved x hx
  | removeIf generation =>
    split at hs <;> cases hs <;> exact hserved
  | hub j op =>
    obtain ⟨g, h, h', hj, hh', rfl⟩ := step_hub hs
    intro x hx
    rcases update_cases hx with ⟨rfl, ⟨⟩⟩ | ⟨-, hx⟩
    · have hh := hserved _ hj
      simp only [clientOpen, steady, hj, ne_eq, not_true, decide_false, Bool.false_or,
        Option.all_some] at hopen hC
      exact (hh.step hopen hC hh').1
    · exact hserved x hx

/-- In a run in which the inbox of a conduit always has room and registrations publish in
order, a conduit that the daemon ends while its client keeps it open has a dead hub; and a
client that then asks for a later generation is passed over no hub that is not dead. -/
theorem ended_conduit_has_dead_hub (i c : Nat) {ops : List (TableOp σ)} {s : HubTable σ}
    (hr : Run step (fun s op => s.clientOpen i c op = true ∧ s.steady i c op = true) empty ops s)
    {g : Nat} {h : ControlHub σ} (hi : s.hubs i = some (g, h)) (hends : h.EndsConduit c) :
    h.dead = true ∧ ∀ x, s.occupant = some x → s.waitPoll (some g) = none → x.2.dead = true := by
  have hinv : s.Ordered ∧ ∀ x, s.hubs i = some x → x.2.Served c :=
    hr.invariant (I := fun s => s.Ordered ∧ ∀ x, s.hubs i = some x → x.2.Served c)
      (fun _ _ _ hC hs hI => ⟨hI.1.step hC.2 hs, served_step hI.2 hC.1 hC.2 hs⟩)
      ⟨⟨nofun, nofun, nofun⟩, nofun⟩
  have hdead := (hinv.2 _ hi).dead_of_ends hends
  refine ⟨hdead, fun x hx hpoll => ?_⟩
  -- the published hub is the last one, and it would be given out if it were a later one
  obtain ⟨j, hj, hxj⟩ := Option.bind_eq_some_iff.1 hx
  have hlast := hinv.1.last j hj
  have hbelow := hinv.1.below i _ hi
  rcases Nat.lt_or_ge i j with hlt | hge
  · have hlater := hinv.1.later i j _ _ hi hxj hlt
    simp [waitPoll, hx] at hpoll
    omega
  obtain rfl : i = j := by omega
  rw [hi] at hxj
  cases hxj
  exact hdead

theorem ended_conduit_has_dead_hub_markDead :
    ∃ s : HubTable Nat, Run step
        (fun s op => s.clientOpen 0 0 op = true ∧ s.steady 0 0 op = true) empty
        [.publish 4, .hub 0 .registerConduit, .hub 0 (.sendRequest 0 1 .other),
          .hub 0 (.sendOutbound 0), .hub 0 (.deliverResponse 1 .other true), .hub 0 .markDead,
          .hub 0 (.unregisterConduit 0)] s ∧
      ∃ h, s.hubs 0 = some (4, h) ∧ h.EndsConduit 0 ∧ h.dead = true := by
  refine Run.exists_exec (fun s => (s.hubs 0).any (fun x => x.1 = 4 && 0 < x.2.nextConduitId &&
    !x.2.inboxes 0) = true) (by decide +kernel) fun s hrun hs => ?_
  obtain ⟨⟨g, h⟩, hh, hs⟩ := (Option.any_eq_true _ _).1 hs
  simp only [Bool.and_eq_true, decide_eq_true_eq, Bool.not_eq_true'] at hs
  obtain ⟨⟨rfl, hnext⟩, hclosed⟩ := hs
  have hends : h.EndsConduit 0 := ⟨hnext, .inl hclosed⟩
  exact ⟨h, hh, hends, (ended_conduit_has_dead_hub 0 0 hrun hh hends).1⟩

/-- The inbox of a client is full when an event comes for all: its conduit is ended, the
host is not dead, and the client is passed over its hub. -/
theorem full_inbox_ends_a_conduit :
    ∃ s : HubTable Nat, Run step (fun s op => s.clientOpen 0 0 op = true) empty
        [.publish 4, .hub 0 .registerConduit, .hub 0 (.deliverEvent 7 true fun _ => false),
          .hub 0 (.unregisterConduit 0)] s ∧
      ∃ h, s.occupant = some (4, h) ∧ h.EndsConduit 0 ∧ h.dead = false ∧
        s.waitPoll (some 4) = none := by
  refine Run.exists_exec (fun s => s.occupant.any (fun x => x.1 = 4 && 0 < x.2.nextConduitId &&
    !x.2.inboxes 0 && !x.2.dead) = true) (by decide +kernel) fun s _ hs => ?_
  obtain ⟨⟨g, h⟩, hh, hs⟩ := (Option.any_eq_true _ _).1 hs
  simp only [Bool.and_eq_true, decide_eq_true_eq, Bool.not_eq_true'] at hs
  obtain ⟨⟨⟨rfl, hnext⟩, hclosed⟩, hlive⟩ := hs
  exact ⟨h, hh, ⟨hnext, .inl hclosed⟩, hlive, by simp [waitPoll, hh]⟩

end HubTable

end Qsh.Reverse
