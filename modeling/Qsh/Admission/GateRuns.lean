import Mathlib.Order.MinMax
import Qsh.Admission.Gate

/-!
# What the gate lets through

`Tracks` of `Qsh.Lib.Sketch` ties each sketch to the log, so the estimate of an attempt is
a function of the attempts before it (`estimateOf`): at least its own number in the epoch,
and not less when other attempts come between.  `Inv` keeps this along a run.

`gate_bounds` is the result over every run in which no counter wraps.
-/

namespace Qsh.Admission

open Qsh.Lib SourceKey Sketch

/-- Two IPv6 addresses have the same key exactly when they lie in the same /64. -/
theorem SourceKey.fromAddr_v6_eq_iff {a b : IpAddr} {s t : Vector (BitVec 16) 8}
    (ha : a.toCanonical = .v6 s) (hb : b.toCanonical = .v6 t) :
    fromAddr a = fromAddr b ↔
      s.get 0 = t.get 0 ∧ s.get 1 = t.get 1 ∧ s.get 2 = t.get 2 ∧ s.get 3 = t.get 3 := by
  have append_inj : ∀ {n : Nat} (x y : BitVec n) (u v : BitVec 16),
      x ++ u = y ++ v ↔ x = y ∧ u = v := by
    intro n x y u v
    constructor
    · intro h
      have hnat := congrArg BitVec.toNat h
      rw [BitVec.toNat_append, BitVec.toNat_append, ← Nat.shiftLeft_add_eq_or_of_lt u.isLt,
        ← Nat.shiftLeft_add_eq_or_of_lt v.isLt, Nat.shiftLeft_eq, Nat.shiftLeft_eq] at hnat
      exact ⟨BitVec.eq_of_toNat_eq (by omega), BitVec.eq_of_toNat_eq (by omega)⟩
    · rintro ⟨rfl, rfl⟩
      rfl
  unfold fromAddr
  rw [ha, hb]
  simp only [v6.injEq, append_inj, and_assoc]
  exact Iff.rfl

/-! ## Estimates -/

theorem le_leastOfRows {n : Nat} {row : Fin 4 → Nat} (hmax : n ≤ U32_MAX)
    (h : ∀ r, n ≤ row r) : n ≤ leastOfRows row :=
  le_min (le_min (le_min (le_min hmax (h 0)) (h 1)) (h 2)) (h 3)

theorem leastOfRows_mono {row row' : Fin 4 → Nat} (h : ∀ r, row r ≤ row' r) :
    leastOfRows row ≤ leastOfRows row' :=
  min_le_min (min_le_min (min_le_min (min_le_min le_rfl (h 0)) (h 1)) (h 2)) (h 3)

theorem saturatingAdd32_mono {a a' b b' : Nat} (ha : a ≤ a') (hb : b ≤ b') :
    saturatingAdd32 a b ≤ saturatingAdd32 a' b' :=
  min_le_min (by omega) le_rfl

theorem weighted_mono {a b : Nat} (h : a ≤ b) (elapsed : Nat) :
    weighted a elapsed ≤ weighted b elapsed :=
  Nat.div_le_div_right (Nat.mul_le_mul_right _ h)

def estimateOf (col : Fin 4 → SourceKey → Nat) (evs : List (SourceKey × Nat)) (key : SourceKey)
    (elapsed : Nat) : Nat :=
  leastOfRows fun r =>
    saturatingAdd32 (total col evs (elapsed / EPOCH) r (col r key) + 1)
      (weighted (totalBefore col evs (elapsed / EPOCH) r (col r key)) elapsed)

variable {col : Fin 4 → SourceKey → Nat}

theorem estimateOf_sublist {evs evs' : List (SourceKey × Nat)}
    (h : evs'.Sublist evs) (key : SourceKey) (elapsed : Nat) :
    estimateOf col evs' key elapsed ≤ estimateOf col evs key elapsed :=
  leastOfRows_mono fun r =>
    saturatingAdd32_mono (Nat.succ_le_succ (total_sublist h _ r _))
      (weighted_mono (totalBefore_sublist h _ r _) elapsed)

theorem countP_lt_estimateOf {evs : List (SourceKey × Nat)} {key : SourceKey} {elapsed : Nat}
    (hroom : ∀ r, total col evs (elapsed / EPOCH) r (col r key) < U32_MAX) :
    (evs.countP fun x => x.2 = elapsed / EPOCH ∧ x.1 = key) < estimateOf col evs key elapsed := by
  have hle : ∀ r, (evs.countP fun x => x.2 = elapsed / EPOCH ∧ x.1 = key) ≤
      total col evs (elapsed / EPOCH) r (col r key) :=
    fun r => countP_key_le_total key (elapsed / EPOCH) r
  refine le_leastOfRows (lt_of_le_of_lt (hle 0) (hroom 0)) ?_
  intro r
  have hr := hroom r
  have := hle r
  exact le_min (by omega) (by omega)

namespace Gate

def events (g : Gate) (validated : Bool) : List (SourceKey × Nat) :=
  (g.log.filter fun d => d.validated = validated).map fun d => (d.key, d.epoch)

def passes (validated : Bool) (d : Decision) : Bool :=
  if validated then d.reachesSemaphore else d = .retry

/-- The attempts of a source that passed the rate in this epoch. -/
def passed (g : Gate) (validated : Bool) (key : SourceKey) (epoch : Nat) : Nat :=
  g.log.countP fun d =>
    d.validated = validated && d.key = key && d.epoch = epoch && passes validated d.decision

theorem passed_eq (g : Gate) (key : SourceKey) (epoch : Nat) :
    g.passed false key epoch = g.retries key epoch ∧
      g.passed true key epoch = g.handshakes key epoch := by
  unfold passed retries handshakes passes
  constructor
  all_goals
    congr 1
    funext d
    cases d.validated <;> simp

def epochAt (g : Gate) (now : Nat) : Nat := g.elapsed now / EPOCH

theorem epochAt_mono (g : Gate) {a b : Nat} (h : a ≤ b) : g.epochAt a ≤ g.epochAt b :=
  Nat.div_le_div_right (Nat.sub_le_sub_right h _)

/-! ## One decision -/

theorem decide_sketch (g : Gate) (peer : SocketAddr) (validated : Bool) (now : Nat) :
    (g.decide peer validated now).1.cfg = g.cfg ∧ (g.decide peer validated now).1.sketch =
        (g.setSketch validated (g.rateExceeded validated peer now).1).sketch := by
  simp only [Gate.decide]
  split
  · split <;> exact ⟨rfl, rfl⟩
  · split
    · exact ⟨rfl, rfl⟩
    · split <;> exact ⟨rfl, rfl⟩

theorem passes_decide (g : Gate) (peer : SocketAddr) (validated : Bool) (now : Nat) :
    passes validated (g.decide peer validated now).2 = !(g.rateExceeded validated peer now).2 := by
  cases validated with
  | false =>
    cases hx : (g.rateExceeded false peer now).2 <;> simp [Gate.decide, hx, passes]
  | true =>
    cases hx : (g.rateExceeded true peer now).2 with
    | true => simp [Gate.decide, hx, passes, Decision.reachesSemaphore]
    | false =>
      simp only [Gate.decide, hx]
      by_cases hfree : 0 < (g.setSketch true (g.rateExceeded true peer now).1).available <;>
        simp [hfree, passes, Decision.reachesSemaphore]

theorem decide_permits (g : Gate) (peer : SocketAddr) (validated : Bool) (now : Nat) :
    (g.decide peer validated now).1.available + (g.decide peer validated now).1.outstanding =
      g.available + g.outstanding := by
  simp only [Gate.decide]
  split
  · split <;> rfl
  split
  · rfl
  split
  · rename_i h
    have hpos : 0 < g.available := h
    show g.available - 1 + (g.outstanding + 1) = g.available + g.outstanding
    omega
  · rfl

/-! ## The invariant -/

/-- The sketches count the log, and the permits add up. -/
structure Inv (g : Gate) : Prop where
  tracks : ∀ v, Sketch.Tracks (g.cfg.column v) (g.sketch v) (g.events v)
  index_le : ∀ v, (g.sketch v).index ≤ g.epochAt g.clock
  bounded : ∀ v key epoch, g.passed v key epoch ≤ g.cfg.rate v * EPOCH_SECS
  permits : g.available + g.outstanding = g.cfg.maxConcurrentHandshakes

theorem Inv.new (cfg : GateConfig) : (new cfg).Inv where
  tracks := fun _ => Sketch.Tracks.empty
  index_le := fun _ => Nat.zero_le _
  bounded := fun _ _ _ => Nat.zero_le _
  permits := rfl

variable {g : Gate} {peer : SocketAddr} {validated : Bool} {now : Nat}

theorem Inv.advance (h : g.Inv) (validated : Bool) (hle : g.clock ≤ now) :
    Sketch.Tracks (g.cfg.column validated) ((g.sketch validated).advanceTo (g.epochAt now))
        (g.events validated) ∧
      ((g.sketch validated).advanceTo (g.epochAt now)).index = g.epochAt now := by
  have hidx := le_trans (h.index_le validated) (g.epochAt_mono hle)
  exact ⟨(h.tracks validated).advance hidx, advanceTo_index hidx⟩

theorem Inv.counter_eq (h : g.Inv) (hle : g.clock ≤ now) (r : Fin 4) :
    g.counter peer validated now r =
      total (g.cfg.column validated) (g.events validated) (g.epochAt now) r
        (g.cfg.column validated r (fromAddr peer.ip)) := by
  obtain ⟨ht, hindex⟩ := h.advance validated hle
  have := ht.current r (g.cfg.column validated r (fromAddr peer.ip))
  rwa [hindex] at this

/-- Where no counter wraps, the rate limit compares the estimate of the attempts
before with the budget. -/
theorem Inv.rateExceeded_eq (h : g.Inv) (hle : g.clock ≤ now)
    (hroom : ∀ r, g.counter peer validated now r < U32_MAX) :
    (g.rateExceeded validated peer now).2 = Decidable.decide (burstLimit (g.cfg.rate validated) <
          estimateOf (g.cfg.column validated) (g.events validated) (fromAddr peer.ip)
            (g.elapsed now)) ∧
      Sketch.Tracks (g.cfg.column validated) (g.rateExceeded validated peer now).1
        (g.events validated ++ [(fromAddr peer.ip, g.epochAt now)]) ∧
      (g.rateExceeded validated peer now).1.index = g.epochAt now := by
  obtain ⟨ht, hindex⟩ := h.advance validated hle
  have hlt : ∀ r, ((g.sketch validated).advanceTo (g.epochAt now)).cells
      (gen ((g.sketch validated).advanceTo (g.epochAt now)).index) r
      (g.cfg.column validated r (fromAddr peer.ip)) + 1 < 2 ^ 32 := by
    intro r
    rw [hindex]
    have hr := hroom r
    exact Nat.add_lt_of_lt_sub hr
  have hrec := ht.record (fromAddr peer.ip) hlt
  rw [hindex] at hrec
  refine ⟨?_, hrec, hindex⟩
  have hindex' : (bump (2 ^ 32) ((g.sketch validated).advanceTo (g.epochAt now))
      (fun r => g.cfg.column validated r (fromAddr peer.ip)) (g.epochAt now)).index =
        g.epochAt now := hindex
  have hcur := hrec.current
  have hprev := hrec.previous
  rw [hindex'] at hcur hprev
  show Decidable.decide (burstLimit (g.cfg.rate validated) < leastOfRows fun r => _) = _
  congr 3
  funext r
  have hc := hcur r (g.cfg.column validated r (fromAddr peer.ip))
  have hp := hprev r (g.cfg.column validated r (fromAddr peer.ip))
  rw [total_concat, if_pos (And.intro rfl rfl)] at hc
  have hbefore : totalBefore (g.cfg.column validated)
      (g.events validated ++ [(fromAddr peer.ip, g.epochAt now)]) (g.epochAt now) r
        (g.cfg.column validated r (fromAddr peer.ip)) =
      totalBefore (g.cfg.column validated) (g.events validated) (g.epochAt now) r
        (g.cfg.column validated r (fromAddr peer.ip)) := by
    unfold totalBefore
    split
    · rfl
    · rw [total_concat, if_neg (by simp only; omega), Nat.add_zero]
  rw [hbefore] at hp
  exact congrArg₂ saturatingAdd32 hc (congrArg (weighted · (g.elapsed now)) hp)

variable {t u : Gate} {key : SourceKey} {op : GateOp}

theorem elapsed_congr (h : u.cfg = g.cfg) : u.elapsed = g.elapsed ∧ u.epochAt = g.epochAt := by
  have helapsed : u.elapsed = g.elapsed := by
    funext x
    unfold elapsed
    rw [h]
  refine ⟨helapsed, ?_⟩
  funext x
  unfold epochAt
  rw [helapsed]

theorem step_decide_spec (hs : g.step (.decide peer validated now) = some t) :
    g.clock ≤ now ∧ t.clock = now ∧ t.cfg = g.cfg ∧
      t.sketch = (g.setSketch validated (g.rateExceeded validated peer now).1).sketch ∧
      t.available + t.outstanding = g.available + g.outstanding ∧
      t.log = g.log ++ [⟨fromAddr peer.ip, g.epochAt now, validated,
        (g.decide peer validated now).2⟩] := by
  simp only [Gate.step] at hs
  split at hs <;> cases hs
  rename_i hle
  obtain ⟨hcfg, hsketch⟩ := g.decide_sketch peer validated now
  exact ⟨hle, rfl, hcfg, hsketch, g.decide_permits peer validated now, rfl⟩

theorem events_concat {d : Decided} (hlog : t.log = g.log ++ [d]) (v : Bool) :
    t.events v = if d.validated = v then g.events v ++ [(d.key, d.epoch)] else g.events v := by
  unfold events
  rw [hlog, List.filter_append, List.map_append]
  split
  all_goals
    rename_i h
    simp [h]

theorem passed_concat {d : Decided} (hlog : t.log = g.log ++ [d]) (v : Bool)
    (key : SourceKey) (epoch : Nat) :
    t.passed v key epoch = g.passed v key epoch +
      if d.validated = v ∧ d.key = key ∧ d.epoch = epoch ∧ passes v d.decision = true
      then 1 else 0 := by
  unfold passed
  rw [hlog, List.countP_append, List.countP_singleton]
  simp only [Bool.and_eq_true, decide_eq_true_eq, and_assoc]

theorem passed_le_countP (g : Gate) (v : Bool) (key : SourceKey) (epoch : Nat) :
    g.passed v key epoch ≤ (g.events v).countP fun x => x.2 = epoch ∧ x.1 = key := by
  unfold passed events
  rw [List.countP_map, List.countP_filter]
  refine List.countP_mono_left ?_
  intro d _ hd
  simp only [Bool.and_eq_true, decide_eq_true_eq] at hd
  simp [hd.1.1.1, hd.1.1.2, hd.1.2]

theorem Inv.step (h : g.Inv) (op : GateOp) (hC : g.Unwrapped op)
    (hs : g.step op = some t) : t.Inv := by
  cases op with simp only [Gate.step] at hs
  | decide peer validated now =>
    obtain ⟨hle, hclock, hcfg, hsketch, hpermits, hlog⟩ := step_decide_spec hs
    obtain ⟨hexceeded, htracks, hindex⟩ := h.rateExceeded_eq hle hC
    have hepoch := (elapsed_congr hcfg).2
    have hevents := events_concat hlog
    refine ⟨?_, ?_, ?_, ?_⟩
    · intro v
      rw [hcfg, hsketch, hevents v]
      obtain rfl | hv := eq_or_ne validated v
      · simpa [setSketch] using htracks
      · simpa [setSketch, hv, Ne.symm hv] using h.tracks v
    · intro v
      rw [hclock, hepoch, hsketch]
      by_cases hv : v = validated
      · simp only [setSketch, if_pos hv, hindex]
        exact le_rfl
      · simp only [setSketch, if_neg hv]
        exact le_trans (h.index_le v) (g.epochAt_mono hle)
    · intro v key epoch
      rw [passed_concat hlog, hcfg]
      split
      swap
      · exact h.bounded v key epoch
      -- the attempt passed: its estimate is within the budget and above its number
      rename_i hpass
      obtain ⟨rfl, rfl, rfl, hp⟩ := hpass
      rw [passes_decide, hexceeded, Bool.not_eq_true', decide_eq_false_iff_not, not_lt] at hp
      have hroom : ∀ r, total (g.cfg.column validated) (g.events validated)
          (g.elapsed now / EPOCH) r
          (g.cfg.column validated r (fromAddr peer.ip)) < U32_MAX := by
        intro r
        have := hC r
        rwa [h.counter_eq hle r] at this
      have hcount := countP_lt_estimateOf hroom
      have hpassed :=
        g.passed_le_countP validated (fromAddr peer.ip) (g.epochAt now)
      have hlimit : burstLimit (g.cfg.rate validated) ≤ g.cfg.rate validated * EPOCH_SECS :=
        min_le_left _ _
      exact le_trans (lt_of_le_of_lt hpassed hcount) (le_trans hp hlimit)
    · rw [hpermits, hcfg]
      exact h.permits
  | flushExpired now =>
    split at hs <;> cases hs
    rename_i hle
    exact { h with index_le := fun v => le_trans (h.index_le v) (g.epochAt_mono hle) }
  | release =>
    split at hs
    · cases hs
      refine { h with permits := ?_ }
      have hsum := h.permits
      show g.available + 1 + (g.outstanding - 1) = g.cfg.maxConcurrentHandshakes
      omega
    · cases hs
      exact h

/-! ## Leaving attempts out -/

/-- A gate `u` that has seen the same calls as `g`, without the attempts of other
sources than `key`. -/
structure Fewer (key : SourceKey) (g u : Gate) : Prop where
  inv : g.Inv
  inv' : u.Inv
  cfg : u.cfg = g.cfg
  clock : u.clock ≤ g.clock
  events : ∀ v, u.events v = (g.events v).filter fun x => x.1 = key
  passed : ∀ v epoch, g.passed v key epoch ≤ u.passed v key epoch

section

variable (h : Fewer key g u)
include h

theorem Fewer.counter_le (hle : g.clock ≤ now)
    (r : Fin 4) : u.counter peer validated now r ≤ g.counter peer validated now r := by
  rw [h.inv'.counter_eq (le_trans h.clock hle) r, h.inv.counter_eq hle r,
    (elapsed_congr h.cfg).2, h.cfg, h.events]
  exact total_sublist List.filter_sublist _ r _

theorem Fewer.passes (hle : g.clock ≤ now) (hroom : ∀ r, g.counter peer validated now r < U32_MAX)
    (hp : passes validated (g.decide peer validated now).2 = true) :
    passes validated (u.decide peer validated now).2 = true := by
  have hroom' : ∀ r, u.counter peer validated now r < U32_MAX :=
    fun r => lt_of_le_of_lt (h.counter_le hle r) (hroom r)
  have hle' := le_trans h.clock hle
  rw [passes_decide, (h.inv.rateExceeded_eq hle hroom).1, Bool.not_eq_true',
    decide_eq_false_iff_not, not_lt] at hp
  rw [passes_decide, (h.inv'.rateExceeded_eq hle' hroom').1, Bool.not_eq_true',
    decide_eq_false_iff_not, not_lt, h.cfg, (elapsed_congr h.cfg).1, h.events]
  exact le_trans (estimateOf_sublist List.filter_sublist _ _) hp

theorem Fewer.keep
    (hkeep : op.ofSource key = true) (hC : g.Unwrapped op) (hs : g.step op = some t) :
    ∃ u', u.Unwrapped op ∧ u.step op = some u' ∧ Fewer key t u' := by
  cases op with
  | decide peer validated now =>
    have hkey : fromAddr peer.ip = key := of_decide_eq_true hkeep
    obtain ⟨hle, hclock, hcfg, -, -, hlog⟩ := step_decide_spec hs
    have hle' := le_trans h.clock hle
    have hC' : u.Unwrapped (.decide peer validated now) :=
      fun r => lt_of_le_of_lt (h.counter_le hle r) (hC r)
    obtain ⟨u', hs'⟩ : ∃ u', u.step (.decide peer validated now) = some u' :=
      ⟨_, if_pos hle'⟩
    obtain ⟨-, hclock', hcfg', -, -, hlog'⟩ := step_decide_spec hs'
    refine ⟨u', hC', hs', h.inv.step _ hC hs, h.inv'.step _ hC' hs', ?_, ?_, ?_, ?_⟩
    · rw [hcfg', h.cfg, hcfg]
    · rw [hclock, hclock']
    · intro v
      rw [events_concat hlog', events_concat hlog, h.events, (elapsed_congr h.cfg).2]
      split <;> simp [hkey]
    intro v epoch
    rw [passed_concat hlog, passed_concat hlog', (elapsed_congr h.cfg).2]
    refine Nat.add_le_add (h.passed v epoch) ?_
    by_cases hp : validated = v ∧ fromAddr peer.ip = key ∧ g.epochAt now = epoch ∧
        Gate.passes v (g.decide peer validated now).2 = true
    · obtain ⟨rfl, hk, he, hp⟩ := hp
      rw [if_pos ⟨rfl, hk, he, hp⟩, if_pos ⟨rfl, hk, he, h.passes hle hC hp⟩]
    · rw [if_neg hp]
      exact Nat.zero_le _
  | flushExpired now =>
    simp only [Gate.step] at hs
    split at hs <;> cases hs
    rename_i hle
    have hstep : u.step (.flushExpired now) =
        some { u with clock := now, windows := fun r => flushWindow (u.windows r) now } := by
      simp only [Gate.step, if_pos (le_trans h.clock hle)]
    refine ⟨_, trivial, hstep, ?_⟩
    exact { h with
      inv := h.inv.step (.flushExpired now) trivial (by simp only [Gate.step, if_pos hle])
      inv' := h.inv'.step (.flushExpired now) trivial hstep
      clock := le_rfl }
  | release =>
    cases hs
    have hinv := h.inv.step .release trivial rfl
    have hinv' := h.inv'.step .release trivial rfl
    refine ⟨_, trivial, rfl, ?_⟩
    split_ifs at hinv hinv' ⊢ <;> exact { h with inv := hinv, inv' := hinv' }

theorem Fewer.drop
    (hdrop : op.ofSource key = false) (hC : g.Unwrapped op) (hs : g.step op = some t) :
    Fewer key t u := by
  cases op with
  | decide peer validated now =>
    have hkey : fromAddr peer.ip ≠ key := of_decide_eq_false hdrop
    obtain ⟨hle, hclock, hcfg, -, -, hlog⟩ := step_decide_spec hs
    refine ⟨h.inv.step _ hC hs, h.inv', ?_, ?_, ?_, ?_⟩
    · rw [h.cfg, hcfg]
    · rw [hclock]
      exact le_trans h.clock hle
    · intro v
      rw [events_concat hlog, h.events]
      split <;> simp [hkey]
    · intro v epoch
      rw [passed_concat hlog, if_neg (fun hh => hkey hh.2.1), Nat.add_zero]
      exact h.passed v epoch
  | flushExpired | release => exact absurd hdrop (by simp [GateOp.ofSource])

end

theorem decide_unvalidated (g : Gate) (peer : SocketAddr) (now : Nat) :
    (g.decide peer false now).1.available = g.available ∧
      (g.decide peer false now).1.outstanding = g.outstanding ∧
      ∀ r, r ≠ .rateLimited → (g.decide peer false now).1.windows r = g.windows r := by
  simp only [Gate.decide, Bool.not_false, if_true]
  split
  · refine ⟨rfl, rfl, ?_⟩
    intro r hr
    simp only [reject, setSketch, if_neg hr]
  · exact ⟨rfl, rfl, fun _ _ => rfl⟩

/-- A gate `u` that has seen the same calls as `g`, without the unvalidated
attempts. -/
structure SameValidated (g u : Gate) : Prop where
  cfg : u.cfg = g.cfg
  clock : u.clock ≤ g.clock
  sketch : u.sketch true = g.sketch true
  available : u.available = g.available
  outstanding : u.outstanding = g.outstanding
  windows : ∀ r, r ≠ .rateLimited → u.windows r = g.windows r
  log : u.validatedLog = g.validatedLog

theorem SameValidated.decide (h : SameValidated g u) (peer : SocketAddr) (now : Nat) :
    (u.decide peer true now).2 = (g.decide peer true now).2 ∧
      (u.decide peer true now).1.sketch true = (g.decide peer true now).1.sketch true ∧
      (u.decide peer true now).1.available = (g.decide peer true now).1.available ∧
      (u.decide peer true now).1.outstanding = (g.decide peer true now).1.outstanding ∧
      ∀ r, r ≠ .rateLimited →
        (u.decide peer true now).1.windows r = (g.decide peer true now).1.windows r := by
  have hexceeded : u.rateExceeded true peer now = g.rateExceeded true peer now := by
    unfold rateExceeded
    rw [h.sketch, h.cfg, (elapsed_congr h.cfg).1]
  have hvrl := h.windows .validatedRateLimited (by decide)
  have hcap := h.windows .atCapacity (by decide)
  simp only [Gate.decide, hexceeded, Bool.not_true, Bool.false_eq_true, if_false]
  split
  · refine ⟨?_, ?_, h.available, h.outstanding, ?_⟩
    · simp only [reject, setSketch, hvrl]
    · simp only [reject, setSketch, if_true]
    · intro r hr
      simp only [reject, setSketch, hvrl, h.windows r hr]
  have hsame : (u.setSketch true (g.rateExceeded true peer now).1).available =
      (g.setSketch true (g.rateExceeded true peer now).1).available := h.available
  rw [hsame]
  split
  · refine ⟨rfl, ?_, rfl, ?_, h.windows⟩
    · simp only [setSketch, if_true]
    · exact congrArg (· + 1) h.outstanding
  refine ⟨?_, ?_, h.available, h.outstanding, ?_⟩
  · simp only [reject, setSketch, hcap]
  · simp only [reject, setSketch, if_true]
  · intro r hr
    simp only [reject, setSketch, hcap, h.windows r hr]

theorem SameValidated.keep (h : SameValidated g u)
    (hkeep : op.notUnvalidated = true) (hs : g.step op = some t) :
    ∃ u', u.step op = some u' ∧ SameValidated t u' := by
  cases op with
  | decide peer validated now =>
    obtain rfl : validated = true := hkeep
    simp only [Gate.step] at hs
    split at hs <;> cases hs
    rename_i hle
    obtain ⟨hdecision, hsketch, havailable, houtstanding, hwindows⟩ := h.decide peer now
    simp only [Gate.step, if_pos (le_trans h.clock hle)]
    refine ⟨_, rfl, ?_, le_rfl, hsketch, havailable, houtstanding, hwindows, ?_⟩
    · exact (u.decide_sketch peer true now).1.trans
        (h.cfg.trans (g.decide_sketch peer true now).1.symm)
    have hlog := h.log
    unfold validatedLog at hlog ⊢
    rw [List.filter_append, List.filter_append, hlog, hdecision,
      (elapsed_congr h.cfg).1]
  | flushExpired now =>
    simp only [Gate.step] at hs
    split at hs <;> cases hs
    rename_i hle
    simp only [Gate.step, if_pos (le_trans h.clock hle)]
    exact ⟨_, rfl, { h with
      clock := le_rfl
      windows := fun r hr => congrArg (flushWindow · now) (h.windows r hr) }⟩
  | release =>
    simp only [Gate.step, h.outstanding] at hs ⊢
    cases hs
    refine ⟨_, rfl, ?_⟩
    split_ifs
    · exact { h with available := by rw [h.available], outstanding := rfl }
    · exact h

theorem SameValidated.drop (h : SameValidated g u)
    (hdrop : op.notUnvalidated = false) (hs : g.step op = some t) : SameValidated t u := by
  cases op with
  | decide peer validated now =>
    obtain rfl : validated = false := hdrop
    simp only [Gate.step] at hs
    split at hs <;> cases hs
    rename_i hle
    obtain ⟨havailable, houtstanding, hwindows⟩ := g.decide_unvalidated peer now
    refine ⟨?_, le_trans h.clock hle, ?_, h.available.trans havailable.symm,
      h.outstanding.trans houtstanding.symm, ?_, ?_⟩
    · exact h.cfg.trans (g.decide_sketch peer false now).1.symm
    · rw [(g.decide_sketch peer false now).2]
      simpa [setSketch] using h.sketch
    · intro r hr
      rw [h.windows r hr, hwindows r hr]
    · rw [h.log]
      simp [validatedLog]
  | flushExpired | release => exact absurd hdrop (by simp [GateOp.notUnvalidated])

/-! ## The bounds -/

/-- In every run in which no counter wraps: within an epoch, a source is answered
Retry, and comes to the semaphore, at most its rate times the length of the epoch;
without the attempts of other sources these numbers are not smaller; without the
unvalidated attempts every validated one is decided the same way; and no more
permits are out than there are. -/
theorem gate_bounds (cfg : GateConfig) {ops : List GateOp} {g : Gate}
    (hrun : Run step Unwrapped (new cfg) ops g) :
    (∀ key epoch, g.retries key epoch ≤ cfg.rate false * EPOCH_SECS ∧
      g.handshakes key epoch ≤ cfg.rate true * EPOCH_SECS) ∧
      (∀ key, ∃ u, Run step Unwrapped (new cfg) (ops.filter (·.ofSource key)) u ∧
        ∀ epoch, g.retries key epoch ≤ u.retries key epoch ∧
          g.handshakes key epoch ≤ u.handshakes key epoch) ∧
      (∃ u, Run step (fun _ _ => True) (new cfg) (ops.filter (·.notUnvalidated)) u ∧
        u.validatedLog = g.validatedLog) ∧
      g.outstanding ≤ cfg.maxConcurrentHandshakes := by
  have hcfg : g.cfg = cfg ∧ g.Inv := by
    refine hrun.invariant (I := fun g => g.cfg = cfg ∧ g.Inv) ?_ ⟨rfl, Inv.new cfg⟩
    rintro s op s' hC hs ⟨hc, hi⟩
    refine ⟨?_, hi.step op hC hs⟩
    cases op with simp only [Gate.step] at hs
    | decide peer validated now => rw [(step_decide_spec hs).2.2.1, hc]
    | flushExpired now =>
      split at hs <;> cases hs
      exact hc
    | release =>
      split at hs <;> cases hs <;> exact hc
  obtain ⟨hcfg, hinv⟩ := hcfg
  refine ⟨?_, ?_, ?_, ?_⟩
  · intro key epoch
    rw [← (g.passed_eq key epoch).1, ← (g.passed_eq key epoch).2, ← hcfg]
    exact ⟨hinv.bounded false key epoch, hinv.bounded true key epoch⟩
  · intro key
    have hstart : Fewer key (new cfg) (new cfg) :=
      ⟨Inv.new cfg, Inv.new cfg, rfl, le_rfl, fun _ => rfl, fun _ _ => le_rfl⟩
    obtain ⟨u, hu, hfewer⟩ := hrun.filter_sim (R := Fewer key)
      (fun _ _ _ _ hk hC hs h => h.keep hk hC hs) (fun _ _ _ _ hk hC hs h => h.drop hk hC hs) hstart
    refine ⟨u, hu, ?_⟩
    intro epoch
    simp only [← passed_eq]
    exact ⟨hfewer.passed false epoch, hfewer.passed true epoch⟩
  · have hstart : SameValidated (new cfg) (new cfg) :=
      ⟨rfl, le_rfl, rfl, rfl, rfl, fun _ _ => rfl, rfl⟩
    have hany : Run step (fun _ _ => True) (new cfg) ops g := hrun.mono fun _ _ _ => trivial
    obtain ⟨u, hu, hsame⟩ := hany.filter_sim (R := SameValidated)
      (fun _ _ _ _ hk _ hs h => (h.keep hk hs).imp fun _ hu => ⟨trivial, hu⟩)
      (fun _ _ _ _ hk _ hs h => h.drop hk hs) hstart
    exact ⟨u, hu, hsame.log⟩
  · have := hinv.permits
    rw [hcfg] at this
    omega

/-! ## One source, one epoch -/

def oneColumn : GateConfig where
  origin := 0
  maxConcurrentHandshakes := 1
  rate := fun _ => 1
  hash := fun _ _ _ => 0

def flooder : SocketAddr := ⟨.v4 0, 0⟩

def fourAttempts : List GateOp :=
  [.decide flooder false 0, .decide flooder false 1, .decide flooder true 1, .decide flooder true 2]

theorem gate_bounds_fourAttempts :
    ∃ g, Run step Unwrapped (new oneColumn) fourAttempts g ∧ g.retries (fromAddr flooder.ip) 0 = 2 ∧
      g.outstanding ≤ oneColumn.maxConcurrentHandshakes := by
  refine Run.exists_exec (fun g => g.retries (fromAddr flooder.ip) 0 = 2) (by decide +kernel)
    fun g hrun hretries => ?_
  exact ⟨hretries, (gate_bounds oneColumn hrun).2.2.2⟩

/-- A gate whose only counters in use stand at `n`, and that has answered Retry at
least `m` times. -/
structure Flooded (n m : Nat) (g : Gate) : Prop where
  cfg : g.cfg = oneColumn
  clock : g.clock = 0
  index : (g.sketch false).index = 0
  current : ∀ r, (g.sketch false).cells false r 0 = n
  previous : ∀ r, (g.sketch false).cells true r 0 = 0
  retries : m ≤ g.retries (fromAddr flooder.ip) 0

theorem Flooded.rateExceeded {n m : Nat} (h : Flooded n m g) :
    (g.rateExceeded false flooder 0).2 = Decidable.decide (2 < (n + 1) % 2 ^ 32) ∧
      (g.rateExceeded false flooder 0).1.index = 0 ∧
      (∀ r, (g.rateExceeded false flooder 0).1.cells false r 0 = (n + 1) % 2 ^ 32) ∧
      ∀ r, (g.rateExceeded false flooder 0).1.cells true r 0 = 0 := by
  have helapsed : g.elapsed 0 = 0 := Nat.zero_sub _
  have hcol : ∀ r key, g.cfg.column false r key = 0 := by
    intro r key
    rw [h.cfg]
    rfl
  have hadvance : (g.sketch false).advanceTo 0 = g.sketch false := by
    unfold advanceTo
    rw [if_pos (Nat.zero_le _)]
  simp only [Gate.rateExceeded, recordAndEstimate, helapsed, Nat.zero_div, hadvance, hcol]
  have hcur : ∀ r, ((g.sketch false).bump (2 ^ 32) (fun _ : Fin 4 => 0) 0).cells false r 0 =
      (n + 1) % 2 ^ 32 := by
    intro r
    have hc := h.current r
    simp [bump, gen, hc]
  have hprev : ∀ r, ((g.sketch false).bump (2 ^ 32) (fun _ : Fin 4 => 0) 0).cells true r 0 =
      0 := by
    intro r
    have hp := h.previous r
    simp [bump, gen, hp]
  refine ⟨?_, h.index, hcur, hprev⟩
  have hmod : (n + 1) % 2 ^ 32 ≤ U32_MAX := Nat.le_pred_of_lt (Nat.mod_lt _ (by decide))
  have hrow : ∀ r, saturatingAdd32
      (((g.sketch false).bump (2 ^ 32) (fun _ : Fin 4 => 0) 0).cells (gen 0) r 0)
      (weighted (((g.sketch false).bump (2 ^ 32) (fun _ : Fin 4 => 0) 0).cells
        (!gen 0) r 0) 0) = (n + 1) % 2 ^ 32 := by
    intro r
    have hg : gen 0 = false := rfl
    rw [hg, Bool.not_false, hcur, hprev]
    exact min_eq_left hmod
  have hleast : leastOfRows (fun _ => (n + 1) % 2 ^ 32) = (n + 1) % 2 ^ 32 :=
    le_antisymm (min_le_right _ _) (le_leastOfRows hmod fun _ => le_rfl)
  simp only [hrow, hleast, h.cfg]
  rfl

theorem Flooded.step {n m : Nat} (h : Flooded n m g) :
    ∃ t, g.step (.decide flooder false 0) = some t ∧
      Flooded ((n + 1) % 2 ^ 32) (m + if (n + 1) % 2 ^ 32 ≤ 2 then 1 else 0) t := by
  obtain ⟨hexceeded, hindex, hcur, hprev⟩ := h.rateExceeded
  obtain ⟨t, hs⟩ : ∃ t, g.step (.decide flooder false 0) = some t := ⟨_, if_pos h.clock.le⟩
  obtain ⟨-, hclock, hcfg, hsketch, -, hlog⟩ := step_decide_spec hs
  have hfalse : t.sketch false = (g.rateExceeded false flooder 0).1 := by
    rw [hsketch]
    simp [setSketch]
  refine ⟨t, hs, hcfg.trans h.cfg, hclock, ?_, ?_, ?_, ?_⟩
  · rw [hfalse, hindex]
  · intro r
    rw [hfalse, hcur]
  · intro r
    rw [hfalse, hprev]
  rw [← (t.passed_eq _ _).1, passed_concat hlog]
  refine Nat.add_le_add ((g.passed_eq _ _).1 ▸ h.retries) ?_
  split
  · rename_i hle
    have hepoch : g.epochAt 0 = 0 := by simp [epochAt, elapsed]
    have hpass : passes false (g.decide flooder false 0).2 = true := by
      rw [passes_decide, hexceeded, Bool.not_eq_true', decide_eq_false_iff_not, not_lt]
      exact hle
    rw [if_pos ⟨rfl, rfl, hepoch, hpass⟩]
  · exact Nat.zero_le _

theorem flooded_replicate (n : Nat) (hn : n < 2 ^ 32) :
    ∃ g, Run Gate.step (fun _ _ => True) (new oneColumn)
        (List.replicate n (.decide flooder false 0)) g ∧ Flooded n (min n 2) g := by
  induction n with
  | zero =>
    exact ⟨_, .nil _, rfl, rfl, rfl, fun _ => rfl, fun _ => rfl, Nat.zero_le _⟩
  | succ n ih =>
    obtain ⟨g, hrun, h⟩ := ih (by omega)
    obtain ⟨t, hs, ht⟩ := h.step
    rw [Nat.mod_eq_of_lt hn] at ht
    rw [List.replicate_succ']
    refine ⟨t, hrun.snoc trivial hs, { ht with retries := le_trans ?_ ht.retries }⟩
    split <;> omega

/-- `2 ^ 32` attempts of one source at one time: the last one wraps the counters
around and is answered Retry, the third in an epoch with a budget of two. -/
theorem wrapped_counter_answers_retry :
    ∃ ops g, Run Gate.step (fun _ _ => True) (new oneColumn) ops g ∧
      oneColumn.rate false * EPOCH_SECS < g.retries (fromAddr flooder.ip) 0 := by
  obtain ⟨g, hrun, h⟩ := flooded_replicate (2 ^ 32 - 1) (by decide)
  obtain ⟨t, hs, ht⟩ := h.step
  refine ⟨_, t, hrun.snoc trivial hs, lt_of_lt_of_le ?_ ht.retries⟩
  decide

end Gate

end Qsh.Admission
