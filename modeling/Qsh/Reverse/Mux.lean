import Qsh.Lib.Update

/-!
# The multiplexer of a host

`ControlMux` (`localctl/mux.rs`) maps the requests of many conduits onto one control
stream.  Each request gets an identifier of its own on the stream, and the table of the
requests in flight gives the conduit and its own identifier back when the answer comes.
The sets of each conduit, and the two tables of subscriptions, are indices over one
another.

Conduits and identifiers are numbers, a set is a list, and an absent set of
subscriptions is the empty one.
-/

namespace Qsh.Reverse

open Qsh.Lib Function List

def MAX_INFLIGHT_PER_CONDUIT : Nat := 64

/-- The request ids of the daemon and the conduits they belong to. -/
structure ControlMux (σ : Type) where
  nextDaemonRequestId : Nat
  inflight : Nat → Option (Nat × Nat)
  perConduit : Nat → Option (List Nat)
  subscriptions : σ → List Nat
  conduitSubscriptions : Nat → List σ

namespace ControlMux

variable {σ : Type}

def new : ControlMux σ where
  nextDaemonRequestId := 1
  inflight := fun _ => none
  perConduit := fun _ => none
  subscriptions := fun _ => []
  conduitSubscriptions := fun _ => []

def registerConduit (m : ControlMux σ) (conduit : Nat) : ControlMux σ :=
  { m with
    perConduit := update m.perConduit conduit (some ((m.perConduit conduit).getD [])) }

/-- A fresh id for a conduit's request, if it has room. -/
def mapOutbound (m : ControlMux σ) (conduit peer : Nat) : Option (Nat × ControlMux σ) :=
  let owned := (m.perConduit conduit).getD []
  if MAX_INFLIGHT_PER_CONDUIT ≤ owned.length then none
  else
    let id := m.nextDaemonRequestId
    some (id, { m with
      nextDaemonRequestId := id + 1
      perConduit := update m.perConduit conduit (some (id :: owned))
      inflight := update m.inflight id (some (conduit, peer)) })

def nextBareRequestId (m : ControlMux σ) : Nat × ControlMux σ :=
  (m.nextDaemonRequestId, { m with nextDaemonRequestId := m.nextDaemonRequestId + 1 })

/-- The conduit and its own id for an answer. -/
def mapInbound (m : ControlMux σ) (id : Nat) : Option (Nat × Nat × ControlMux σ) :=
  (m.inflight id).map fun x =>
    (x.1, x.2, { m with
      inflight := update m.inflight id none
      perConduit := update m.perConduit x.1
        ((m.perConduit x.1).map fun owned => owned.filter (· ≠ id)) })

def conduitIds (m : ControlMux σ) (bound : Nat) : List Nat :=
  (range bound).filter fun c => (m.perConduit c).isSome

def owned (m : ControlMux σ) (conduit : Nat) : List Nat := (m.perConduit conduit).getD []

section

variable [DecidableEq σ]

def unregisterConduit (m : ControlMux σ) (conduit : Nat) : ControlMux σ :=
  { m with
    perConduit := update m.perConduit conduit none
    inflight := fun id => if id ∈ m.owned conduit then none else m.inflight id
    subscriptions := fun s =>
      if s ∈ m.conduitSubscriptions conduit then (m.subscriptions s).filter (· ≠ conduit)
      else m.subscriptions s
    conduitSubscriptions := update m.conduitSubscriptions conduit [] }

def subscribe (m : ControlMux σ) (conduit : Nat) (session : σ) : ControlMux σ :=
  { m with
    subscriptions := update m.subscriptions session ((m.subscriptions session).insert conduit)
    conduitSubscriptions := update m.conduitSubscriptions conduit
      ((m.conduitSubscriptions conduit).insert session) }

/-- The conduits that an event goes to. -/
def routeEvent (m : ControlMux σ) (bound : Nat) (session : σ) (writerChanged : Bool) : List Nat :=
  if writerChanged then m.conduitIds bound else m.subscriptions session

end

/-! ## The tables are inverses -/

structure Exact (m : ControlMux σ) : Prop where
  positive : 0 < m.nextDaemonRequestId
  below : ∀ id x, m.inflight id = some x → id < m.nextDaemonRequestId
  flight : ∀ id c, (∃ p, m.inflight id = some (c, p)) ↔ id ∈ m.owned c
  nodup : ∀ c, (m.owned c).Nodup
  capped : ∀ c, (m.owned c).length ≤ MAX_INFLIGHT_PER_CONDUIT
  subscribed : ∀ s c, c ∈ m.subscriptions s ↔ s ∈ m.conduitSubscriptions c

variable {m : ControlMux σ}

theorem exact_new : (new : ControlMux σ).Exact where
  positive := Nat.one_pos
  below := nofun
  flight := fun _ _ => ⟨fun ⟨_, h⟩ => (nomatch h), nofun⟩
  nodup := fun _ => nodup_nil
  capped := fun _ => Nat.zero_le _
  subscribed := fun _ _ => ⟨nofun, nofun⟩

theorem owned_registerConduit (c c' : Nat) : (m.registerConduit c).owned c' = m.owned c' := by
  unfold owned registerConduit
  dsimp only
  by_cases h : c' = c
  · subst h
    rw [update_self]
    rfl
  · rw [update_of_ne h]

theorem Exact.registerConduit (h : m.Exact) (c : Nat) : (m.registerConduit c).Exact := by
  refine { h with flight := ?_, nodup := ?_, capped := ?_ }
  · intro id c'
    rw [owned_registerConduit]
    exact h.flight id c'
  · intro c'
    rw [owned_registerConduit]
    exact h.nodup c'
  · intro c'
    rw [owned_registerConduit]
    exact h.capped c'

variable {c p id : Nat} {m' : ControlMux σ}

theorem mapOutbound_spec (h : m.mapOutbound c p = some (id, m')) :
    id = m.nextDaemonRequestId ∧ m'.nextDaemonRequestId = m.nextDaemonRequestId + 1 ∧
      m'.inflight = update m.inflight id (some (c, p)) ∧
      (∀ c', m'.owned c' = if c' = c then id :: m.owned c else m.owned c') ∧
      (m.owned c).length < MAX_INFLIGHT_PER_CONDUIT ∧
      m'.subscriptions = m.subscriptions ∧ m'.conduitSubscriptions = m.conduitSubscriptions := by
  unfold mapOutbound at h
  dsimp only at h
  split at h
  · cases h
  rename_i hcap
  cases h
  refine ⟨rfl, rfl, rfl, ?_, Nat.lt_of_not_le hcap, rfl, rfl⟩
  intro c'
  unfold owned
  dsimp only
  obtain rfl | hc := eq_or_ne c' c
  · rw [update_self, if_pos rfl]
    rfl
  · rw [update_of_ne hc, if_neg hc]

theorem Exact.mapOutbound (h : m.Exact) (hm : m.mapOutbound c p = some (id, m')) : m'.Exact := by
  obtain ⟨hid, hnext, hinflight, howned, hcap, hsubs, hconduits⟩ := mapOutbound_spec hm
  have hfresh : ∀ c', id ∉ m.owned c' := by
    intro c' hmem
    obtain ⟨p', hp'⟩ := (h.flight id c').2 hmem
    exact absurd (h.below id _ hp') (hid ▸ Nat.lt_irrefl _)
  refine ⟨?_, ?_, ?_, ?_, ?_, ?_⟩
  · rw [hnext]
    exact Nat.succ_pos _
  · intro i x hi
    rw [hinflight] at hi
    rw [hnext]
    rcases update_cases hi with ⟨rfl, -⟩ | ⟨-, hi⟩
    · rw [hid]
      exact Nat.lt_succ_self _
    · exact Nat.lt_succ_of_lt (h.below i x hi)
  · intro i c'
    rw [hinflight, howned c']
    obtain rfl | hi := eq_or_ne i id
    · rw [update_self]
      constructor
      · rintro ⟨p', hp'⟩
        cases hp'
        rw [if_pos rfl]
        exact mem_cons_self
      intro hmem
      split at hmem
      · rename_i hc
        exact ⟨p, by rw [hc]⟩
      · exact absurd hmem (hfresh c')
    · rw [update_of_ne hi, h.flight i c']
      split
      · rename_i hc
        subst hc
        exact ⟨mem_cons_of_mem _, fun hmem => (mem_cons.1 hmem).resolve_left hi⟩
      · exact Iff.rfl
  · intro c'
    rw [howned c']
    split
    · exact nodup_cons.2 ⟨hfresh c, h.nodup c⟩
    · exact h.nodup c'
  · intro c'
    rw [howned c']
    split
    · exact hcap
    · exact h.capped c'
  · rw [hsubs, hconduits]
    exact h.subscribed

theorem Exact.nextBare (h : m.Exact) : m.nextBareRequestId.2.Exact :=
  { h with
    positive := Nat.succ_pos _
    below := fun id x hx => Nat.lt_succ_of_lt (h.below id x hx) }

theorem mapInbound_spec (h : m.mapInbound id = some (c, p, m')) :
    m.inflight id = some (c, p) ∧ m'.nextDaemonRequestId = m.nextDaemonRequestId ∧
      m'.inflight = update m.inflight id none ∧
      (∀ c', m'.owned c' = if c' = c then (m.owned c).filter (· ≠ id) else m.owned c') ∧
      m'.subscriptions = m.subscriptions ∧ m'.conduitSubscriptions = m.conduitSubscriptions := by
  obtain ⟨⟨c₀, p₀⟩, hx, hpair⟩ := Option.map_eq_some_iff.1 h
  cases hpair
  refine ⟨hx, rfl, rfl, ?_, rfl, rfl⟩
  intro c'
  unfold owned
  dsimp only
  obtain rfl | hc := eq_or_ne c' c₀
  · rw [update_self, if_pos rfl]
    cases m.perConduit c' <;> rfl
  · rw [update_of_ne hc, if_neg hc]

theorem Exact.mapInbound (h : m.Exact) (hm : m.mapInbound id = some (c, p, m')) : m'.Exact := by
  obtain ⟨hid, hnext, hinflight, howned, hsubs, hconduits⟩ := mapInbound_spec hm
  refine ⟨?_, ?_, ?_, ?_, ?_, ?_⟩
  · rw [hnext]
    exact h.positive
  · intro i x hi
    rw [hinflight] at hi
    rw [hnext]
    obtain ⟨-, ⟨⟩⟩ | ⟨-, hi⟩ := update_cases hi
    exact h.below i x hi
  · intro i c'
    rw [hinflight, howned c']
    obtain rfl | hi := eq_or_ne i id
    · rw [update_self]
      refine ⟨fun ⟨_, hnone⟩ => (nomatch hnone), fun hmem => ?_⟩
      split at hmem
      · simp at hmem
      -- the request was another conduit's
      rename_i hc
      obtain ⟨p', hp'⟩ := (h.flight i c').2 hmem
      rw [hid] at hp'
      cases hp'
      exact absurd rfl hc
    · rw [update_of_ne hi, h.flight i c']
      split
      · rename_i hc
        subst hc
        simp [hi]
      · exact Iff.rfl
  · intro c'
    rw [howned c']
    split
    · exact (h.nodup c).filter _
    · exact h.nodup c'
  · intro c'
    rw [howned c']
    split
    · exact Nat.le_trans (length_filter_le _ _) (h.capped c)
    · exact h.capped c'
  · rw [hsubs, hconduits]
    exact h.subscribed

variable [DecidableEq σ]

theorem owned_unregister (c c' : Nat) :
    (m.unregisterConduit c).owned c' = if c' = c then [] else m.owned c' := by
  unfold owned unregisterConduit
  dsimp only
  by_cases h : c' = c
  · subst h
    rw [update_self, if_pos rfl]
    rfl
  · rw [update_of_ne h, if_neg h]

theorem Exact.unregisterConduit (h : m.Exact) (c : Nat) : (m.unregisterConduit c).Exact where
  positive := h.positive
  below := by
    intro id x hx
    unfold ControlMux.unregisterConduit at hx
    dsimp only at hx
    split at hx
    · cases hx
    · exact h.below id x hx
  flight := by
    intro id c'
    rw [owned_unregister]
    unfold ControlMux.unregisterConduit
    dsimp only
    by_cases hid : id ∈ m.owned c
    · rw [if_pos hid]
      refine ⟨fun ⟨_, hnone⟩ => (nomatch hnone), fun hmem => ?_⟩
      split at hmem
      · cases hmem
      rename_i hc
      obtain ⟨p, hp⟩ := (h.flight id c).2 hid
      obtain ⟨p', hp'⟩ := (h.flight id c').2 hmem
      rw [hp] at hp'
      cases hp'
      exact absurd rfl hc
    · rw [if_neg hid, h.flight id c']
      split
      · rename_i hc
        subst hc
        exact ⟨fun hmem => absurd hmem hid, nofun⟩
      · exact Iff.rfl
  nodup := by
    intro c'
    rw [owned_unregister]
    split
    · exact nodup_nil
    · exact h.nodup c'
  capped := by
    intro c'
    rw [owned_unregister]
    split
    · exact Nat.zero_le _
    · exact h.capped c'
  subscribed := by
    intro s c'
    unfold ControlMux.unregisterConduit
    dsimp only
    obtain rfl | hc := eq_or_ne c' c
    · rw [update_self]
      refine ⟨fun hmem => ?_, nofun⟩
      split at hmem
      · simp at hmem
      · rename_i hs
        exact absurd ((h.subscribed s c').1 hmem) hs
    · rw [update_of_ne hc, ← h.subscribed s c']
      split
      · simp [hc]
      · exact Iff.rfl

theorem Exact.subscribe (h : m.Exact) (c : Nat) (s : σ) : (m.subscribe c s).Exact := by
  refine { h with subscribed := ?_ }
  intro s' c'
  unfold ControlMux.subscribe
  dsimp only
  rw [update_apply, update_apply]
  by_cases hs : s' = s <;> by_cases hc : c' = c
  · subst hs hc
    simp
  · subst hs
    simp [hc, h.subscribed]
  · subst hc
    simp [hs, h.subscribed]
  · simp [hs, hc, h.subscribed]

end ControlMux

end Qsh.Reverse
