import Qsh.Admission.Gate

/-!
# A source at its allowed rate

One source makes an unvalidated attempt every `1 / rate` seconds and nobody else
does.  Time is counted in ticks, `n` of them to `1 / rate` seconds, so that every
attempt of a source with a rational phase is at a whole tick; `decideIn` is
`Gate::decide` on such a clock, and on the clock of the gate it is `decide`.
-/

namespace Qsh.Admission

open Qsh.Lib Sketch

/-! ## The gate on a finer clock -/

/-- `record_and_estimate` with `ticks` ticks to the epoch. -/
def recordAndEstimateIn (ticks : Nat) (s : Sketch (Fin 4)) (col : Fin 4 → Nat)
    (elapsed : Nat) : Sketch (Fin 4) × Nat :=
  let epoch := elapsed / ticks
  let s := (s.advanceTo epoch).bump (2 ^ 32) col epoch
  (s, leastOfRows fun r =>
    saturatingAdd32 (s.cells (gen epoch) r (col r))
      (s.cells (!gen epoch) r (col r) * (ticks - elapsed % ticks) / ticks))

def GateConfig.columnOf (cfg : GateConfig) (peer : SocketAddr) (r : Fin 4) : Nat :=
  cfg.column false r (SourceKey.fromAddr peer.ip)

namespace Gate

/-- `decide` for an unvalidated attempt.  A rejection window is told the time in
nanoseconds. -/
def decideIn (ticks : Nat) (g : Gate) (peer : SocketAddr) (now : Nat) : Gate × Decision :=
  let (s, estimate) :=
    recordAndEstimateIn ticks (g.sketch false) (g.cfg.columnOf peer) (g.elapsed now)
  let g := g.setSketch false s
  if burstLimit (g.cfg.rate false) < estimate then
    let (g, records) := g.reject .rateLimited peer (now * EPOCH / ticks)
    (g, .ignore .rateLimited records)
  else (g, .retry)

theorem decide_eq_decideIn (g : Gate) (peer : SocketAddr) (now : Nat) :
    g.decide peer false now = g.decideIn EPOCH peer now := by
  have hnow : now * EPOCH / EPOCH = now := Nat.mul_div_cancel _ (by decide)
  unfold decideIn
  rw [hnow]
  simp only [decide, rateExceeded, Bool.not_false, if_true, decide_eq_true_eq]
  rfl

theorem decideIn_spec (ticks : Nat) (g : Gate) (peer : SocketAddr) (now : Nat) :
    let d := g.decideIn ticks peer now
    let r := recordAndEstimateIn ticks (g.sketch false) (g.cfg.columnOf peer) (g.elapsed now)
    d.1.cfg = g.cfg ∧ d.1.sketch false = r.1 ∧
      ((∃ reason records, d.2 = .ignore reason records) ↔ burstLimit (g.cfg.rate false) < r.2) := by
  unfold decideIn
  dsimp only
  split
  · next h => exact ⟨rfl, by simp [setSketch, reject], fun _ => h, fun _ => ⟨_, _, rfl⟩⟩
  · next h => exact ⟨rfl, by simp [setSketch], by simp, fun hlt => absurd hlt h⟩

section Paced

variable (cfg : GateConfig) (peer : SocketAddr) (n phase : Nat)

/-- Attempt `k` of a source that makes one every `n` ticks, the first at `phase`. -/
def attempt (g : Gate) (k : Nat) : Gate × Decision :=
  g.decideIn (cfg.rate false * EPOCH_SECS * n) peer (cfg.origin + (phase + k * n))

/-- The gate before attempt `k`. -/
def paced : Nat → Gate
  | 0 => new cfg
  | k + 1 => ((paced k).attempt cfg peer n phase k).1

/-- The answer to attempt `k` of the pace. -/
def answer (k : Nat) : Decision := ((paced cfg peer n phase k).attempt cfg peer n phase k).2

/-- The sketch after attempt `k`, and its estimate. -/
def recorded (k : Nat) : Sketch (Fin 4) × Nat :=
  recordAndEstimateIn (cfg.rate false * EPOCH_SECS * n) ((paced cfg peer n phase k).sketch false)
    (cfg.columnOf peer) (phase + k * n)

end Paced

end Gate

/-! ## Counting -/

/-- The counters of the source: `current` in epoch `e` and `previous` before. -/
def Counts (s : Sketch (Fin 4)) (col : Fin 4 → Nat) (e current previous : Nat) : Prop :=
  s.index = e ∧ ∀ r, s.cells (gen e) r (col r) = current ∧ s.cells (!gen e) r (col r) = previous

variable {s : Sketch (Fin 4)} {col : Fin 4 → Nat} {ticks elapsed e current previous : Nat}

theorem counts_bump (h : Counts s col e current previous) (hlt : current + 1 < 2 ^ 32) :
    Counts (s.bump (2 ^ 32) col e) col e (current + 1) previous := by
  refine ⟨h.1, fun r => ?_⟩
  rw [← Nat.mod_eq_of_lt hlt]
  simp [bump, h.2 r]

theorem counts_advanceTo (h : Counts s col e current previous) :
    Counts (s.advanceTo e) col e current previous ∧
      Counts (s.advanceTo (e + 1)) col (e + 1) 0 current := by
  obtain ⟨rfl, hcells⟩ := h
  have hnot : ¬s.index + 1 ≤ s.index := by omega
  simp [advanceTo, Counts, hcells, gen_succ, hnot]

theorem counts_empty : Counts (empty.advanceTo e) col e 0 0 := by
  unfold advanceTo
  split
  · next h => exact ⟨(Nat.le_zero.1 h).symm, fun r => ⟨rfl, rfl⟩⟩
  · split <;> simp [Counts, empty]

theorem estimate_le : (recordAndEstimateIn ticks s col elapsed).2 ≤ U32_MAX := by
  simp [recordAndEstimateIn, leastOfRows]

theorem estimate_eq (he : elapsed / ticks = e)
    (h : Counts (recordAndEstimateIn ticks s col elapsed).1 col e current previous) :
    (recordAndEstimateIn ticks s col elapsed).2 =
      min (current + previous * (ticks - elapsed % ticks) / ticks) U32_MAX := by
  subst he
  have hcells := h.2
  simp only [recordAndEstimateIn] at hcells ⊢
  simp only [leastOfRows, hcells, saturatingAdd32]
  simp

variable {m n a R q j : Nat}

theorem tick_div_mod (hm : m = R * q + j) (hj : j < R) (ha : a < n) :
    (m * n + a) / (R * n) = q ∧ (m * n + a) % (R * n) = j * n + a := by
  have hlt : j * n + a < R * n := by
    have : (j + 1) * n ≤ R * n := Nat.mul_le_mul_right n hj
    rw [Nat.succ_mul] at this
    omega
  have htick : m * n + a = R * n * q + (j * n + a) := by
    rw [hm, Nat.add_mul, Nat.add_assoc, Nat.mul_right_comm]
  rw [htick, Nat.mul_add_div (by omega), Nat.mul_add_mod, Nat.div_eq_of_lt hlt,
    Nat.mod_eq_of_lt hlt]
  exact ⟨rfl, rfl⟩

/-- Off the boundary, what is left of a full epoch is less than what the current
one may still take. -/
theorem weighted_lt (hR : 0 < R) (hj : j < R) (ha : 0 < a) (han : a < n)
    (hp : previous ≤ R) : previous * (R * n - (j * n + a)) / (R * n) < R - j := by
  refine Nat.div_lt_of_lt_mul ?_
  have hD : R * n - (j * n + a) < (R - j) * n := by
    have : (j + 1) * n ≤ R * n := Nat.mul_le_mul_right n hj
    rw [Nat.succ_mul] at this
    rw [Nat.sub_mul]
    omega
  calc previous * (R * n - (j * n + a)) ≤ R * (R * n - (j * n + a)) :=
        Nat.mul_le_mul_right _ hp
    _ < R * ((R - j) * n) := (Nat.mul_lt_mul_left hR).2 hD
    _ = R * n * (R - j) := by rw [Nat.mul_comm (R - j), Nat.mul_assoc]

namespace Gate

variable {cfg : GateConfig} {peer : SocketAddr} {c k : Nat}

theorem paced_cfg (n phase k : Nat) : (paced cfg peer n phase k).cfg = cfg := by
  induction k with
  | zero => rfl
  | succ k ih => exact (decideIn_spec _ _ _ _).1.trans ih

theorem attempt_spec (n phase k : Nat) :
    (paced cfg peer n phase (k + 1)).sketch false = (recorded cfg peer n phase k).1 ∧
      ((∃ reason records, answer cfg peer n phase k = .ignore reason records) ↔
        burstLimit (cfg.rate false) < (recorded cfg peer n phase k).2) := by
  have hspec := (decideIn_spec (cfg.rate false * EPOCH_SECS * n) (paced cfg peer n phase k) peer
    (cfg.origin + (phase + k * n))).2
  rwa [elapsed, paced_cfg, Nat.add_sub_cancel_left] at hspec

theorem tick_eq (k : Nat) : c * n + a + k * n = (c + k) * n + a := by
  rw [Nat.add_mul]
  omega

section Small

variable (hR : cfg.rate false * EPOCH_SECS = R) (hlt : R < U32_MAX) (ha : a < n)
include hR hlt ha

theorem recorded_counts (peer : SocketAddr) (hm : c + k = R * q + j) (hj : j < R) :
    Counts (recorded cfg peer n (c * n + a) k).1 (cfg.columnOf peer) q
      (min (j + 1) (k + 1)) (min R (R * q - c)) := by
  rw [recorded, recordAndEstimateIn, tick_eq, hR, (tick_div_mod hm hj ha).1]
  have hbound : R < 2 ^ 32 := hlt.trans (by decide)
  induction k generalizing q j with
  | zero =>
    have hnone : R * q - c = 0 := by omega
    simpa [hnone, paced, new] using counts_bump (@counts_empty (cfg.columnOf peer) q) (by decide)
  | succ i ih =>
    rw [(attempt_spec _ _ _).1, recorded, recordAndEstimateIn, tick_eq, hR]
    cases j with
    | succ j =>
      have hi : c + i = R * q + j := by omega
      rw [(tick_div_mod hi (by omega) ha).1]
      have hnext := counts_bump (counts_advanceTo (ih hi (by omega))).1 (by omega)
      rwa [← Nat.add_min_add_right] at hnext
    | zero =>
      -- the attempt begins an epoch, and the one before it was the last of its own
      cases q with
      | zero => omega
      | succ q =>
        rw [Nat.mul_succ] at hm ⊢
        have hi : c + i = R * q + (R - 1) := by omega
        rw [(tick_div_mod hi (by omega) ha).1]
        have hnext := counts_bump (counts_advanceTo (ih hi (by omega))).2 (by decide)
        have hfull : min (R - 1 + 1) (i + 1) = min R (R * q + R - c) := by omega
        rw [hfull] at hnext
        simpa using hnext

theorem answer_ignore_iff (peer : SocketAddr) (hm : c + k = R * q + j) (hj : j < R) :
    (∃ reason records, answer cfg peer n (c * n + a) k = .ignore reason records) ↔
      R < min (min (j + 1) (k + 1) +
        min R (R * q - c) * (R * n - (j * n + a)) / (R * n)) U32_MAX := by
  have hcounts := recorded_counts hR hlt ha peer hm hj
  obtain ⟨hdiv, hmod⟩ := tick_div_mod hm hj ha
  rw [recorded, tick_eq, hR] at hcounts
  rw [(attempt_spec _ _ _).2, recorded, tick_eq, hR, estimate_eq hdiv hcounts, hmod, burstLimit, hR,
    Nat.min_eq_left hlt.le]

end Small

/-- A source at its rate is never limited exactly when its attempts do not fall
on the boundaries of epochs, or the rate is so high that the limit is the largest
count. -/
theorem paced_never_ignored_iff (cfg : GateConfig) (peer : SocketAddr) (n phase : Nat)
    (hn : 0 < n) (hrate : 1 ≤ cfg.rate false) :
    (∀ k reason records, answer cfg peer n phase k ≠ .ignore reason records) ↔
      ¬n ∣ phase ∨ 2 ^ 31 ≤ cfg.rate false := by
  obtain ⟨c, a, ha, rfl⟩ : ∃ c a, a < n ∧ phase = c * n + a :=
    ⟨phase / n, phase % n, Nat.mod_lt _ hn, (Nat.div_add_mod' phase n).symm⟩
  obtain ⟨R, hR⟩ : ∃ R, cfg.rate false * EPOCH_SECS = R := ⟨_, rfl⟩
  have hpos : 0 < R := by
    simp only [← hR, EPOCH_SECS]
    omega
  rcases Nat.lt_or_ge (cfg.rate false) (2 ^ 31) with hsmall | hbig
  · have hlt : R < U32_MAX := by
      simp only [← hR, EPOCH_SECS, U32_MAX]
      omega
    have hdvd : n ∣ c * n + a ↔ a = 0 := by
      rw [Nat.dvd_iff_mod_eq_zero, Nat.mul_add_mod', Nat.mod_eq_of_lt ha]
    rw [hdvd]
    constructor
    · intro hnever
      refine .inl fun h0 => ?_
      -- the first attempt of the epoch after a full one
      have hc : c < R * (c / R) + R := Nat.lt_mul_div_succ c hpos
      obtain ⟨k, hk⟩ : ∃ k, c + k = R * (c / R + 2) + 0 :=
        ⟨R * (c / R + 2) - c, by rw [Nat.mul_add]; omega⟩
      have hfull : min R (R * (c / R + 2) - c) = R := by
        rw [Nat.mul_add]
        omega
      obtain ⟨reason, records, hd⟩ := (answer_ignore_iff hR hlt ha peer hk hpos).2 (by
        have hone : R * (R * n) / (R * n) = R := Nat.mul_div_cancel _ (Nat.mul_pos hpos hn)
        simp only [hfull, h0, Nat.zero_mul, Nat.add_zero, Nat.sub_zero, hone]
        omega)
      exact hnever _ _ _ hd
    rintro (h0 | hge)
    · intro k reason records hd
      have hj := Nat.mod_lt (c + k) hpos
      have hover := (answer_ignore_iff hR hlt ha peer (Nat.div_add_mod (c + k) R).symm hj).1
        ⟨reason, records, hd⟩
      have hw := weighted_lt hpos hj (by omega) ha
        (min_le_left R (R * ((c + k) / R) - c))
      omega
    · omega
  · -- the estimate is at most the largest count, and that is the limit
    refine iff_of_true (fun k reason records hd => ?_) (.inr hbig)
    have hover := (attempt_spec _ _ k).2.1 ⟨reason, records, hd⟩
    have hmax : burstLimit (cfg.rate false) = U32_MAX := by
      simp only [burstLimit, EPOCH_SECS, U32_MAX]
      omega
    rw [hmax] at hover
    exact absurd hover (not_lt.2 estimate_le)

def onePerSecond : GateConfig := ⟨0, 1, fun _ => 1, fun _ _ _ => 0⟩

theorem between_the_boundaries_never_ignored :
    ¬2 ∣ 1 ∧ ∀ k reason records, answer onePerSecond ⟨.v4 0, 0⟩ 2 1 k ≠ .ignore reason records :=
  ⟨by decide, (paced_never_ignored_iff onePerSecond ⟨.v4 0, 0⟩ 2 1 (by decide) (by decide)).2
    (.inl (by decide))⟩

/-- At one attempt a second, those at 0 s and 1 s make the one at 2 s ignored. -/
theorem third_attempt_ignored : ∃ records,
    (((((new onePerSecond).decide ⟨.v4 0, 0⟩ false 0).1.decide ⟨.v4 0, 0⟩ false
      1000000000).1.decide ⟨.v4 0, 0⟩ false 2000000000).2) = .ignore .rateLimited records :=
  ⟨_, rfl⟩

end Gate

end Qsh.Admission
