import Qsh.Lib.Run
import Qsh.Lib.Update

/-!
# Session quotas and the drain

The session caps of `Broker` (`broker/mod.rs`): `reserve_slot`, `SessionSlot`, the tail
`open_with_opener_reserved` of every open, the retention sweep and `close_all`.

Any number of opens are under way.  Between the reservation and the insert an open holds no
lock: the source is created there, and may fail.  From the check of `draining` to the
consumption of the slot it holds the registry lock.  Dropping another slot takes the other
lock only, and a session closes on its own actor, so both can happen at any point.

The inserted entry takes the place of the reservation, so a slot is outstanding up to the
insert.  It is counted in flight up to its release, a moment later and under the same lock.

`inserted` and `drains` are ghosts.
-/

namespace Qsh.Broker.Quota

open Qsh.Lib List Function

variable {Sid : Type}

/-! ## The broker -/

structure QuotaLimits where
  maxSessions : Nat
  maxSessionsPerPrincipal : Nat
  deriving DecidableEq, Repr

inductive QuotaKind
  | sessions
  | sessionsPerPrincipal
  deriving DecidableEq, Repr

inductive OpenStage
  /-- The slot is reserved and the source is being created. -/
  | reserved
  | sourced
  /-- The open holds the registry lock and has seen that the broker is not
  draining. -/
  | entered
  /-- The open has inserted its session and still holds the registry lock. -/
  | inserted
  deriving DecidableEq, Repr

/-- A slot reserved by an open that is under way. -/
structure SessionSlot where
  opener : String
  stage : OpenStage
  deriving DecidableEq, Repr

def SessionSlot.redeemed (t : SessionSlot) : Bool :=
  t.stage = .inserted

/-- The counters of the slots that opens hold. -/
structure InFlightState where
  total : Nat
  byOpener : String → Option Nat

structure Entry (Sid : Type) where
  id : Sid
  opener : String
  closed : Bool
  deriving DecidableEq, Repr

structure Drain (Sid : Type) where
  handles : List Sid
  inserted : List Sid
  deriving DecidableEq, Repr

structure State (Sid : Type) where
  limits : QuotaLimits
  registry : List (Entry Sid)
  inFlight : InFlightState
  draining : Bool
  slots : List SessionSlot
  inserted : List Sid
  drains : List (Drain Sid)

def State.new (limits : QuotaLimits) : State Sid where
  limits := limits
  registry := []
  inFlight := { total := 0, byOpener := fun _ => none }
  draining := false
  slots := []
  inserted := []
  drains := []

namespace State

/-! ## Counting -/

/-- The sessions of these openers that are not closed. -/
def live (who : String → Bool) (s : State Sid) : Nat :=
  s.registry.countP fun e => !e.closed && who e.opener

def held (who : String → Bool) (s : State Sid) : Nat :=
  s.slots.countP fun t => who t.opener

def outstanding (who : String → Bool) (s : State Sid) : Nat :=
  s.slots.countP fun t => !t.redeemed && who t.opener

def everyone (_ : String) : Bool := true

/-- An open is between the check of `draining` and the release of its slot. -/
def locked (s : State Sid) : Bool :=
  s.slots.any fun t => t.stage = .entered || t.stage = .inserted

end State

/-! ## Slots -/

def InFlightState.reserve (f : InFlightState) (opener : String) : InFlightState where
  total := f.total + 1
  byOpener := update f.byOpener opener (some ((f.byOpener opener).getD 0 + 1))

def InFlightState.release (f : InFlightState) (opener : String) : InFlightState where
  total := f.total - 1
  byOpener :=
    match f.byOpener opener with
    | some count =>
        update f.byOpener opener (if count - 1 = 0 then none else some (count - 1))
    | none => f.byOpener

namespace State

def grant (s : State Sid) (opener : String) : State Sid :=
  { s with
    inFlight := s.inFlight.reserve opener
    slots := s.slots ++ [{ opener := opener, stage := .reserved }] }

/-- Refuses at either limit, and reserves a slot otherwise. -/
def reserveSlot (s : State Sid) (opener : String) : Except QuotaKind (State Sid) :=
  if s.limits.maxSessions ≤ s.inFlight.total + s.live everyone then
    .error .sessions
  else if s.limits.maxSessionsPerPrincipal ≤
      (s.inFlight.byOpener opener).getD 0 + s.live (· == opener) then
    .error .sessionsPerPrincipal
  else
    .ok (s.grant opener)

def advance (s : State Sid) (i : Nat) (t : SessionSlot) (stage : OpenStage) :
    State Sid :=
  { s with slots := s.slots.set i { t with stage := stage } }

def release (s : State Sid) (i : Nat) (t : SessionSlot) : State Sid :=
  { s with inFlight := s.inFlight.release t.opener, slots := s.slots.eraseIdx i }

/-! ## Steps -/

variable [DecidableEq Sid]

def enter (s : State Sid) (i : Nat) (t : SessionSlot) : State Sid :=
  if s.draining then s.release i t else s.advance i t .entered

def insert (s : State Sid) (i : Nat) (t : SessionSlot) (id : Sid) :
    State Sid :=
  { s.advance i t .inserted with
    registry := { id := id, opener := t.opener, closed := false } ::
      s.registry.filter fun e => e.id ≠ id
    inserted := s.inserted ++ [id] }

def close (s : State Sid) (id : Sid) : State Sid :=
  { s with
    registry := s.registry.map fun e => if e.id = id then { e with closed := true } else e }

def expire (s : State Sid) (id : Sid) : State Sid :=
  { s with registry := s.registry.filter fun e => ¬(e.id = id ∧ e.closed) }

/-- Starts a drain: no open enters any more. -/
def closeAll (s : State Sid) : State Sid :=
  { s with
    draining := true
    drains :=
      { handles := (s.registry.filter fun e => !e.closed).map Entry.id
        inserted := s.inserted } :: s.drains }

end State

/-- What can happen next.  `i` is the slot of an open. -/
inductive Op (Sid : Type)
  | reserveSlot (opener : String)
  /-- `factory.create` returns a source. -/
  | created (i : Nat)
  | createFailed (i : Nat)
  /-- The open takes the registry lock. -/
  | enter (i : Nat)
  /-- `SessionActor::create` fails under the lock. -/
  | actorFailed (i : Nat)
  | insert (i : Nat) (id : Sid)
  | consume (i : Nat)
  /-- The open unwinds before it takes the lock. -/
  | dropSlot (i : Nat)
  | close (id : Sid)
  | expire (id : Sid)
  | closeAll
  deriving DecidableEq, Repr

namespace State

variable [DecidableEq Sid]

def slotAt (s : State Sid) (i : Nat) (stages : List OpenStage) : Option SessionSlot :=
  s.slots[i]?.filter fun t => t.stage ∈ stages

/-- One step of any open, close, expiry or drain. -/
def step (s : State Sid) : Op Sid → Option (State Sid)
  | .reserveSlot opener =>
      if s.locked then none
      else some ((s.reserveSlot opener).toOption.getD s)
  | .created i => (s.slotAt i [.reserved]).map fun t => s.advance i t .sourced
  | .createFailed i => (s.slotAt i [.reserved]).map fun t => s.release i t
  | .enter i =>
      if s.locked then none
      else (s.slotAt i [.sourced]).map fun t => s.enter i t
  | .actorFailed i => (s.slotAt i [.entered]).map fun t => s.release i t
  | .insert i id => (s.slotAt i [.entered]).map fun t => s.insert i t id
  | .consume i => (s.slotAt i [.inserted]).map fun t => s.release i t
  | .dropSlot i => (s.slotAt i [.reserved, .sourced]).map fun t => s.release i t
  | .close id => some (s.close id)
  | .expire id => if s.locked then none else some (s.expire id)
  | .closeAll => if s.locked then none else some s.closeAll

end State

/-! ## What a release leaves -/

section Count

variable {α : Type} {l : List α} {i : Nat} {a : α} (p : α → Bool)

theorem countP_cons_toNat (x : α) (l : List α) :
    (x :: l).countP p = l.countP p + (p x).toNat := by
  rw [countP_cons]
  cases p x <;> rfl

theorem countP_eraseIdx_add (h : l[i]? = some a) :
    (l.eraseIdx i).countP p + (p a).toNat = l.countP p := by
  obtain ⟨hi, rfl⟩ := List.getElem?_eq_some_iff.1 h
  have hsplit : l = l.take i ++ l[i] :: l.drop (i + 1) := by
    rw [← drop_eq_getElem_cons hi, take_append_drop]
  conv_rhs => rw [hsplit, countP_append, countP_cons_toNat]
  rw [eraseIdx_eq_take_drop_succ, countP_append, Nat.add_assoc]

theorem countP_set_add (h : l[i]? = some a) (b : α) :
    (l.set i b).countP p + (p a).toNat = l.countP p + (p b).toNat := by
  have hold := countP_eraseIdx_add p h
  have hi := (List.getElem?_eq_some_iff.1 h).1
  have hnew := countP_eraseIdx_add p (getElem?_set_self (a := b) hi)
  rw [eraseIdx_set_eq] at hnew
  omega

end Count

namespace State

variable {limits : QuotaLimits} {s : State Sid} {i : Nat} {t : SessionSlot}

theorem slotAt_eq_some {stages : List OpenStage} (h : s.slotAt i stages = some t) :
    s.slots[i]? = some t ∧ t.stage ∈ stages := by
  obtain ⟨hslot, hstage⟩ := Option.filter_eq_some_iff.1 h
  exact ⟨hslot, of_decide_eq_true hstage⟩

theorem held_grant (s : State Sid) (opener : String) (who : String → Bool) :
    (s.grant opener).held who = s.held who + (who opener).toNat := by
  unfold held grant
  rw [countP_append, countP_cons_toNat, countP_nil, Nat.zero_add]

theorem outstanding_grant (s : State Sid) (opener : String) (who : String → Bool) :
    (s.grant opener).outstanding who = s.outstanding who + (who opener).toNat := by
  unfold outstanding grant
  rw [countP_append, countP_cons_toNat, countP_nil, Nat.zero_add]
  rfl

theorem outstanding_le_held (s : State Sid) (who : String → Bool) :
    s.outstanding who ≤ s.held who :=
  countP_mono_left fun _ _ ht => (Bool.and_eq_true_iff.1 ht).2

section

variable (h : s.slots[i]? = some t)
include h

theorem held_advance (stage : OpenStage) (who : String → Bool) :
    (s.advance i t stage).held who = s.held who :=
  Nat.add_right_cancel (countP_set_add _ h _)

theorem held_release (who : String → Bool) :
    (s.release i t).held who + (who t.opener).toNat = s.held who :=
  countP_eraseIdx_add _ h

theorem outstanding_advance {stage : OpenStage}
    (hold : t.redeemed = false) (hnew : stage ≠ .inserted) (who : String → Bool) :
    (s.advance i t stage).outstanding who = s.outstanding who := by
  have := countP_set_add (fun t => !t.redeemed && who t.opener) h { t with stage := stage }
  have hstage : SessionSlot.redeemed { t with stage := stage } = false := decide_eq_false hnew
  rw [hold, hstage] at this
  exact Nat.add_right_cancel this

theorem outstanding_release_le (who : String → Bool) :
    (s.release i t).outstanding who ≤ s.outstanding who :=
  Nat.le.intro (countP_eraseIdx_add _ h)

end

theorem outstanding_insert [DecidableEq Sid] (h : s.slots[i]? = some t)
    (hold : t.redeemed = false) (id : Sid) (who : String → Bool) :
    (s.insert i t id).outstanding who + (who t.opener).toNat = s.outstanding who := by
  have := countP_set_add (fun t => !t.redeemed && who t.opener) h { t with stage := .inserted }
  rw [hold] at this
  exact this

theorem live_insert_le [DecidableEq Sid] (id : Sid) (who : String → Bool) :
    (s.insert i t id).live who ≤ s.live who + (who t.opener).toNat := by
  unfold live insert
  rw [countP_cons_toNat]
  exact Nat.add_le_add_right filter_sublist.countP_le _

theorem live_close_le [DecidableEq Sid] (id : Sid) (who : String → Bool) :
    (s.close id).live who ≤ s.live who := by
  unfold live close
  rw [countP_map]
  refine countP_mono_left fun e _ he => ?_
  rw [comp_apply] at he
  split_ifs at he with hid
  · cases he
  · exact he

theorem outstanding_eq_held (h : s.locked = false) (who : String → Bool) :
    s.outstanding who = s.held who := by
  refine countP_congr fun t ht => ?_
  have hstage : t.redeemed = false := by
    have := any_eq_false.1 h t ht
    rw [Bool.or_eq_true, not_or] at this
    exact decide_eq_false (fun hstage => this.2 (decide_eq_true hstage))
  rw [hstage]
  rfl

/-! ## The invariant -/

def entryOf (count : Nat) : Option Nat :=
  if count = 0 then none else some count

theorem entryOf_succ (count : Nat) : entryOf (count + 1) = some (count + 1) := rfl

theorem getD_entryOf (count : Nat) : (entryOf count).getD 0 = count := by
  cases count <;> rfl

variable {f : InFlightState} {opener : String} {count : Nat}

theorem reserve_entryOf (h : f.byOpener opener = entryOf count) :
    (f.reserve opener).byOpener opener = entryOf (count + 1) := by
  simp only [InFlightState.reserve, update_self, h, getD_entryOf, entryOf_succ]

theorem release_entryOf (h : f.byOpener opener = entryOf (count + 1)) :
    (f.release opener).byOpener opener = entryOf count := by
  rw [entryOf_succ] at h
  simp only [InFlightState.release, h, update_self, entryOf, Nat.add_sub_cancel]

theorem release_byOpener_of_ne {o : String} (h : o ≠ opener) :
    (f.release opener).byOpener o = f.byOpener o := by
  unfold InFlightState.release
  cases hc : f.byOpener opener with
  | none => rfl
  | some count => exact update_of_ne h _ _

/-- The counters agree with the slots, and the limits hold. -/
structure QuotaInv (limits : QuotaLimits) (s : State Sid) : Prop where
  configured : s.limits = limits
  /-- The caps count the live sessions and the reservations. -/
  all : s.live everyone + s.outstanding everyone ≤ limits.maxSessions
  each : ∀ o, s.live (· == o) + s.outstanding (· == o) ≤ limits.maxSessionsPerPrincipal
  /-- The counters count the slots. -/
  total : s.inFlight.total = s.held everyone
  byOpener : ∀ o, s.inFlight.byOpener o = entryOf (s.held (· == o))
  /-- No open goes past the check of `draining` once it is set. -/
  refused : s.draining = true → ∀ t ∈ s.slots, t.stage ≠ .entered
  /-- What is live after a drain began was there when it began. -/
  drained : ∀ d ∈ s.drains, s.draining = true ∧ s.inserted = d.inserted ∧
    ∀ e ∈ s.registry, e.closed = false → e.id ∈ d.handles

theorem new_inv (limits : QuotaLimits) : QuotaInv limits (State.new limits : State Sid) where
  configured := rfl
  all := Nat.zero_le _
  each _ := Nat.zero_le _
  total := rfl
  byOpener _ := rfl
  refused _ _ ht := absurd ht not_mem_nil
  drained _ hd := absurd hd not_mem_nil

section

variable (hs : QuotaInv limits s)
include hs

theorem QuotaInv.reserveSlot {opener : String} {s' : State Sid}
    (h : s.reserveSlot opener = .ok s') : QuotaInv limits s' := by
  unfold State.reserveSlot at h
  split_ifs at h with hall heach
  cases h
  refine { hs with all := ?_, each := fun o => ?_, total := ?_, byOpener := fun o => ?_,
                   refused := fun hd => ?_ }
  · have := outstanding_le_held s everyone
    rw [hs.total, hs.configured] at hall
    rw [outstanding_grant]
    show s.live everyone + (s.outstanding everyone + 1) ≤ limits.maxSessions
    omega
  · rw [outstanding_grant]
    show s.live (· == o) + (s.outstanding (· == o) + (opener == o).toNat) ≤
      limits.maxSessionsPerPrincipal
    obtain rfl | ho := eq_or_ne opener o
    · have := outstanding_le_held s (· == opener)
      rw [hs.byOpener, getD_entryOf, hs.configured] at heach
      rw [beq_self_eq_true, Bool.toNat_true]
      omega
    · rw [beq_eq_false_iff_ne.2 ho]
      exact hs.each o
  · rw [held_grant, ← hs.total]
    rfl
  · rw [held_grant]
    obtain rfl | ho := eq_or_ne opener o
    · rw [beq_self_eq_true, Bool.toNat_true]
      exact reserve_entryOf (hs.byOpener opener)
    · rw [beq_eq_false_iff_ne.2 ho]
      exact (update_of_ne (Ne.symm ho) _ _).trans (hs.byOpener o)
  · exact forall_mem_append.2 ⟨hs.refused hd, forall_mem_singleton.2 nofun⟩

theorem QuotaInv.release (h : s.slots[i]? = some t) :
    QuotaInv limits (s.release i t) := by
  refine { hs with all := ?_, each := fun o => ?_, total := ?_, byOpener := fun o => ?_,
                   refused := fun hd x hx => hs.refused hd x (eraseIdx_subset hx) }
  · exact Nat.le_trans (Nat.add_le_add_left (outstanding_release_le h everyone) _) hs.all
  · exact Nat.le_trans (Nat.add_le_add_left (outstanding_release_le h _) _) (hs.each o)
  · show s.inFlight.total - 1 = _
    rw [hs.total, ← held_release h everyone]
    rfl
  show (s.inFlight.release t.opener).byOpener o = _
  have hheld := held_release h (· == o)
  obtain rfl | ho := eq_or_ne o t.opener
  · rw [beq_self_eq_true, Bool.toNat_true] at hheld
    exact release_entryOf ((hs.byOpener _).trans (congrArg entryOf hheld.symm))
  · rw [beq_eq_false_iff_ne.2 (Ne.symm ho), Bool.toNat_false, Nat.add_zero] at hheld
    rw [release_byOpener_of_ne ho, hs.byOpener, hheld]

theorem QuotaInv.advance (h : s.slots[i]? = some t) {stage : OpenStage}
    (hold : t.redeemed = false) (hnew : stage ≠ .inserted)
    (hdraining : stage = .entered → s.draining = false) :
    QuotaInv limits (s.advance i t stage) := by
  refine { hs with all := ?_, each := fun o => ?_, total := ?_, byOpener := fun o => ?_,
                   refused := fun hd x hx => ?_ }
  · rw [outstanding_advance h hold hnew]
    exact hs.all
  · rw [outstanding_advance h hold hnew]
    exact hs.each o
  · rw [held_advance h]
    exact hs.total
  · rw [held_advance h]
    exact hs.byOpener o
  · rcases mem_or_eq_of_mem_set hx with hx | rfl
    · exact hs.refused hd x hx
    · intro hentered
      exact absurd ((hdraining hentered).symm.trans hd) Bool.false_ne_true

theorem QuotaInv.setRegistry {registry : List (Entry Sid)}
    (hlive : ∀ who, live who { s with registry } ≤ s.live who)
    (hopen : ∀ e ∈ registry, e.closed = false → e ∈ s.registry) :
    QuotaInv limits { s with registry } := by
  refine { hs with all := ?_, each := fun o => ?_, drained := fun d hd => ?_ }
  · exact Nat.le_trans (Nat.add_le_add_right (hlive everyone) _) hs.all
  · exact Nat.le_trans (Nat.add_le_add_right (hlive _) _) (hs.each o)
  · obtain ⟨hdraining, hinserted, hhandles⟩ := hs.drained d hd
    exact ⟨hdraining, hinserted, fun e he hne => hhandles e (hopen e he hne) hne⟩

theorem QuotaInv.closeAll (hfree : s.locked = false) :
    QuotaInv limits s.closeAll := by
  refine { hs with refused := fun _ t ht hstage => ?_, drained := ?_ }
  · have := any_eq_false.1 hfree t ht
    rw [hstage] at this
    exact this rfl
  · refine forall_mem_cons.2 ⟨⟨rfl, rfl, fun e he hopen => ?_⟩,
      fun d hd => ⟨rfl, (hs.drained d hd).2⟩⟩
    exact mem_map_of_mem (mem_filter.2 ⟨he, by rw [hopen]; rfl⟩)

end

variable [DecidableEq Sid]

theorem QuotaInv.insert (hs : QuotaInv limits s) (h : s.slots[i]? = some t)
    (hstage : t.stage = .entered) (id : Sid) : QuotaInv limits (s.insert i t id) := by
  have hold : t.redeemed = false := decide_eq_false (by rw [hstage]; nofun)
  have hsum : ∀ who, (s.insert i t id).live who + (s.insert i t id).outstanding who ≤
      s.live who + s.outstanding who := by
    intro who
    have := live_insert_le (s := s) (i := i) (t := t) id who
    have := outstanding_insert h hold id who
    omega
  -- the broker is not draining, or the open would not have come this far
  have hopen : s.draining = true → False := fun hd =>
    hs.refused hd t (mem_of_getElem? h) hstage
  exact {
    configured := hs.configured
    all := Nat.le_trans (hsum everyone) hs.all
    each := fun o => Nat.le_trans (hsum _) (hs.each o)
    total := hs.total.trans (held_advance h .inserted everyone).symm
    byOpener := fun o => (hs.byOpener o).trans
      (congrArg entryOf (held_advance h .inserted (· == o)).symm)
    refused := fun hd => (hopen hd).elim
    drained := fun d hd => (hopen (hs.drained d hd).1).elim }

theorem QuotaInv.close (hs : QuotaInv limits s) (id : Sid) :
    QuotaInv limits (s.close id) := by
  refine hs.setRegistry (live_close_le id) fun e he hopen => ?_
  obtain ⟨old, hold, rfl⟩ := mem_map.1 he
  by_cases hid : old.id = id
  · rw [if_pos hid] at hopen
    cases hopen
  · rw [if_neg hid]
    exact hold

theorem QuotaInv.expire (hs : QuotaInv limits s) (id : Sid) : QuotaInv limits (s.expire id) :=
  hs.setRegistry (fun _ => filter_sublist.countP_le) fun _ he _ => mem_of_mem_filter he

/-! ## Runs -/

theorem step_inv {s' : State Sid} {op : Op Sid} (h : s.step op = some s')
    (hs : QuotaInv limits s) : QuotaInv limits s' := by
  have hslot : ∀ {i stages} {f : SessionSlot → State Sid}, (s.slotAt i stages).map f = some s' →
        ∃ t, s.slots[i]? = some t ∧ t.stage ∈ stages ∧ f t = s' := by
    intro i stages f h
    obtain ⟨t, ht, hf⟩ := Option.map_eq_some_iff.1 h
    exact ⟨t, (slotAt_eq_some ht).1, (slotAt_eq_some ht).2, hf⟩
  cases op with rw [step] at h
  | reserveSlot opener =>
    split_ifs at h
    cases h
    cases hr : s.reserveSlot opener with
    | error kind => exact hs
    | ok s' => exact hs.reserveSlot hr
  | created i =>
    obtain ⟨t, ht, hstage, rfl⟩ := hslot h
    rw [mem_singleton] at hstage
    exact hs.advance ht (by rw [SessionSlot.redeemed, hstage]; rfl) nofun
      nofun
  | createFailed | actorFailed | consume | dropSlot =>
    obtain ⟨t, ht, -, rfl⟩ := hslot h
    exact hs.release ht
  | enter i =>
    split_ifs at h
    obtain ⟨t, ht, hstage, rfl⟩ := hslot h
    rw [mem_singleton] at hstage
    unfold State.enter
    split_ifs with hdraining
    · exact hs.release ht
    · exact hs.advance ht (by rw [SessionSlot.redeemed, hstage]; rfl) nofun
        (fun _ => Bool.not_eq_true _ ▸ hdraining)
  | insert i id =>
    obtain ⟨t, ht, hstage, rfl⟩ := hslot h
    exact hs.insert ht (mem_singleton.1 hstage) id
  | close id =>
    cases h
    exact hs.close id
  | expire id =>
    split_ifs at h
    cases h
    exact hs.expire id
  | closeAll =>
    split_ifs at h with hfree
    cases h
    exact hs.closeAll (Bool.not_eq_true _ ▸ hfree)

theorem run_inv {ops : List (Op Sid)}
    (h : Lib.Run step (fun _ _ => True) (State.new limits) ops s) : QuotaInv limits s :=
  h.invariant (fun _ _ _ _ hstep hs => step_inv hstep hs) (new_inv limits)

/-- Session quota and drain.  At every point of every interleaving the live
sessions and the outstanding reservations stay within both caps, the counters
are exactly the numbers of slots, and since a `close_all` took its list no
session was inserted, so what is live is in the list.  Where the registry lock
is free the outstanding reservations are the slots. -/
theorem session_quota_and_drain {ops : List (Op Sid)}
    (h : Lib.Run step (fun _ _ => True) (State.new limits) ops s) :
    (s.live everyone + s.outstanding everyone ≤ limits.maxSessions ∧
      ∀ o, s.live (· == o) + s.outstanding (· == o) ≤ limits.maxSessionsPerPrincipal) ∧
    (s.inFlight.total = s.slots.length ∧ ∀ o, s.inFlight.byOpener o =
        if s.held (· == o) = 0 then none else some (s.held (· == o))) ∧
    (s.locked = false → ∀ who, s.outstanding who = s.held who) ∧
    ∀ d ∈ s.drains, s.inserted = d.inserted ∧
      ∀ e ∈ s.registry, e.closed = false → e.id ∈ d.handles := by
  have hs := run_inv h
  have hall : s.held everyone = s.slots.length := congrFun countP_true _
  exact ⟨⟨hs.all, hs.each⟩, ⟨hs.total.trans hall, hs.byOpener⟩,
    fun hfree who => outstanding_eq_held hfree who, fun d hd => (hs.drained d hd).2⟩

/-- Three openers race for two sessions.  The one that is refused tries again
after the factory failed another one, and then meets a drain. -/
def race : List (Op Nat) :=
  [.reserveSlot "a", .reserveSlot "b", .reserveSlot "c", .created 0, .enter 0, .createFailed 1,
    .insert 0 7, .consume 0, .reserveSlot "c", .created 0, .closeAll, .enter 0]

theorem session_quota_and_drain_race :
    ∃ s : State Nat, Lib.Run step (fun _ _ => True)
        (State.new { maxSessions := 2, maxSessionsPerPrincipal := 1 }) race s ∧
      s.live everyone = 1 ∧ s.inFlight.total = s.slots.length ∧ s.slots = [] ∧
      s.drains.map Drain.handles = [[7]] ∧ ∀ d ∈ s.drains, s.inserted = d.inserted := by
  refine Lib.Run.exists_exec (fun s => s.live everyone = 1 ∧ s.slots = [] ∧
    s.drains.map Drain.handles = [[7]]) (by decide +kernel) ?_
  rintro s hr ⟨hlive, hslots, hdrains⟩
  obtain ⟨-, ⟨htotal, -⟩, -, hdrained⟩ := session_quota_and_drain hr
  exact ⟨hlive, htotal, hslots, hdrains, fun d hd => (hdrained d hd).1⟩

end State

end Qsh.Broker.Quota
