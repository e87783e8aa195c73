import Mathlib.Algebra.Order.Ring.Nat
import Qsh.Lib.Run

/-!
# The bulk governor

`GovernorCore` and its token bucket (`adapt/governor.rs`, `adapt/budget.rs`).  Times are
nanoseconds.  What the code computes in `f64` is a parameter, and sums of bytes wrap.
-/

namespace Qsh.Adapt

open Qsh.Lib

def SECOND : Nat := 1000000000
def U64_MAX : Nat := 2 ^ 64 - 1
def MILLIS : Nat := 1000000
def YIELD_TARGET : Nat := 25 * MILLIS
def YIELD_FLOOR_BYTES_PER_SEC : Nat := 64 * 1024
def YIELD_FLOOR_PERCENT : Nat := 5
def GROW_PERCENT_PER_RTT : Nat := 2
def LOSS_QUEUE_DIVISOR : Nat := 2
def BURST_WINDOW : Nat := 10 * MILLIS
def CATCH_UP : Nat := 20 * MILLIS
def CATCH_UP_WINDOW : Nat := 100 * MILLIS
def BURST_MIN_BYTES : Nat := 16 * 1024
def RTT_FLOOR : Nat := 50 * MILLIS
def INTERACTIVE_WINDOW : Nat := 2000 * MILLIS
def BULK_WINDOW : Nat := 1000 * MILLIS
def RATE_BUCKET : Nat := 250 * MILLIS
def RATE_SPAN : Nat := 4
def RATE_MEMORY : Nat := 60000 * MILLIS
def PEAK_HEADROOM_PERCENT : Nat := 125

/-- Whether bulk writers are limited, with the queue target and the rate floor. -/
inductive BulkYield where
  | off
  | yield (target floor : Nat)
  deriving DecidableEq

def floorOf : BulkYield → Nat
  | .off => 0
  | .yield _ floor => floor

/-- The token bucket of the bulk writers, and its rate. -/
structure BulkBudget where
  mode : BulkYield := .off
  rate : Nat := U64_MAX
  ceiling : Nat := U64_MAX
  tokens : Nat := 0
  lastRefill : Nat
  lastAdjust : Nat
  lossPending : Bool := false
  starved : Bool := false

namespace BulkBudget

/-- The bytes of a time at a rate, counted in whole microseconds. -/
def bytesIn (rate time : Nat) : Nat := min (rate * (time / 1000) / 1000000) U64_MAX

def burst (b : BulkBudget) : Nat := max (bytesIn b.rate BURST_WINDOW) BURST_MIN_BYTES

/-- A limit that starts takes the estimate as rate; a lower ceiling lowers the rate. -/
def setMode (b : BulkBudget) (now : Nat) (mode : BulkYield) (est : Option Nat) : BulkBudget :=
  match b.mode, mode with
  | .off, .yield .. =>
      let ceiling := max (est.getD U64_MAX) (floorOf mode)
      let b := { b with ceiling, rate := ceiling, mode }
      { b with tokens := b.burst, lastRefill := now, lastAdjust := now }
  | .yield .., .off => { b with rate := U64_MAX, ceiling := U64_MAX, mode }
  | .yield .., .yield .. =>
      match est with
      | some bw =>
          let ceiling := max bw (floorOf mode)
          { b with ceiling, rate := min b.rate ceiling, mode }
      | none => { b with mode }
  | .off, .off => b

/-- One steering step; `none` when `clamp` panics. -/
def steer (b : BulkBudget) (now queueDelay srtt : Nat) : Option BulkBudget :=
  match b.mode with
  | .off => some b
  | .yield target floor =>
      if now - b.lastAdjust < srtt then some b
      else
        let lossy := b.lossPending ∧ target / LOSS_QUEUE_DIVISOR ≤ queueDelay
        let step := min (b.ceiling / 100 * GROW_PERCENT_PER_RTT) U64_MAX
        let rate :=
          if target < queueDelay ∨ lossy then b.rate / 2 else min (b.rate + max step 1) U64_MAX
        if floor ≤ b.ceiling then
          some { b with
            lastAdjust := now
            lossPending := false
            rate := min (max rate floor) b.ceiling }
        else none

def noteLoss (b : BulkBudget) (lost : Bool) : BulkBudget :=
  { b with lossPending := b.lossPending || lost }

/-- Adds the tokens of the time since the last refill, up to the burst and a catch-up. -/
def refill (b : BulkBudget) (now : Nat) : BulkBudget :=
  let dt := now - b.lastRefill
  let room := if b.starved ∧ dt ≤ CATCH_UP_WINDOW then bytesIn b.rate CATCH_UP else 0
  { b with
    lastRefill := max now b.lastRefill
    tokens := min (min (b.tokens + bytesIn b.rate dt) U64_MAX) (min (b.burst + room) U64_MAX) }

/-- The grant of a budget that is limiting. -/
def grant (b : BulkBudget) (now want : Nat) : Nat × BulkBudget :=
  let b := b.refill now
  let n := min want b.tokens
  (n, { b with tokens := b.tokens - n, starved := n < want })

/-- The grant, and the refill of `wait_for` if some of it is still owed. -/
def pay (b : BulkBudget) (now want : Nat) : Nat × BulkBudget :=
  let (n, b) := b.grant now want
  (n, if n = want then b else b.refill now)

end BulkBudget

structure ConnStats where
  rtt : Nat
  minRtt : Nat
  cwnd : Nat
  lostPackets : Option Nat

/-- The quotients the code takes in `f64`: bytes by a time, bytes by the second of a span. -/
structure Floats where
  perSec : Nat → Nat → Nat
  perSpan : Nat → Nat

/-- The bucket with what was seen of interactive and bulk traffic. -/
structure GovernorCore where
  budget : BulkBudget
  adaptive : Bool
  lastInteractive : Option Nat := none
  lastBulk : Option Nat := none
  delivered : List (Nat × Nat) := []
  lostSeen : Option Nat := none

inductive GovernorOp where
  | evaluate (now : Nat) (stats : ConnStats)
  | pace (now remaining : Nat)
  | noteInteractive (now : Nat)

namespace GovernorCore

def new (now : Nat) (adaptive : Bool) : GovernorCore where
  budget := { lastRefill := now, lastAdjust := now }
  adaptive

/-- Adds the bytes to the bucket of this instant, and forgets old buckets. -/
def record (delivered : List (Nat × Nat)) (now bytes : Nat) : List (Nat × Nat) :=
  if bytes = 0 then delivered
  else
    let idx := now / RATE_BUCKET
    let delivered :=
      match delivered.getLast? with
      | some (i, b) =>
          if i = idx then delivered.dropLast ++ [(i, (b + bytes) % 2 ^ 64)]
          else delivered ++ [(idx, bytes)]
      | none => [(idx, bytes)]
    delivered.dropWhile (·.1 < idx - RATE_MEMORY / RATE_BUCKET)

/-- The loop of `peak_rate`; `window` are the buckets from `lo` to `hi`. -/
def peakLoop (current : Nat) (window : List (Nat × Nat)) (best : Nat) :
    List (Nat × Nat) → Nat
  | [] => best
  | (stop, bytes) :: rest =>
      if current ≤ stop then best
      else
        let window := (window ++ [(stop, bytes)]).dropWhile (·.1 + RATE_SPAN ≤ stop)
        peakLoop current window (max best ((window.map (·.2)).sum % 2 ^ 64)) rest

/-- The best rate over `RATE_SPAN` buckets of the memory. -/
def peakRate (F : Floats) (g : GovernorCore) (now : Nat) : Option Nat :=
  let best := peakLoop (now / RATE_BUCKET) [] 0 g.delivered
  if 0 < best then some (F.perSpan best) else none

/-- The bandwidth estimate of `evaluate`. -/
def estBandwidth (F : Floats) (g : GovernorCore) (now : Nat) (stats : ConnStats) : Option Nat :=
  match g.peakRate F now with
  | some peak => some (peak / 100 * PEAK_HEADROOM_PERCENT % 2 ^ 64)
  | none => if 0 < stats.rtt ∧ 0 < stats.cwnd then some (F.perSec stats.cwnd stats.rtt) else none

def within (now : Nat) (last : Option Nat) (window : Nat) : Bool := last.any (now - · ≤ window)

/-- Knob (a) of `decide`. -/
def bulkYield (g : GovernorCore) (now : Nat) (est : Option Nat) : BulkYield :=
  if g.adaptive && within now g.lastInteractive INTERACTIVE_WINDOW &&
      within now g.lastBulk BULK_WINDOW then
    .yield YIELD_TARGET
      (max YIELD_FLOOR_BYTES_PER_SEC (est.elim 0 (· / 100 * YIELD_FLOOR_PERCENT)))
  else .off

/-- One tick: decide whether bulk yields, set the mode, then steer the rate. -/
def evaluate (F : Floats) (g : GovernorCore) (now : Nat) (stats : ConnStats) :
    Option GovernorCore :=
  let est := g.estBandwidth F now stats
  let lost := stats.lostPackets.any fun lost => g.lostSeen.any (· < lost)
  (((g.budget.setMode now (g.bulkYield now est) est).noteLoss lost).steer now
    (stats.rtt - stats.minRtt) (max stats.rtt RTT_FLOOR)).map fun budget =>
      { g with budget, lostSeen := stats.lostPackets <|> g.lostSeen }

/-- A bulk writer asks for `remaining` bytes and is given what the bucket holds. -/
def pace (g : GovernorCore) (now remaining : Nat) : GovernorCore :=
  let (n, budget) :=
    if g.budget.mode = .off then (remaining, g.budget) else g.budget.pay now remaining
  { g with
    budget
    lastBulk := some now
    delivered := record g.delivered now n }

def step (F : Floats) (g : GovernorCore) : GovernorOp → Option GovernorCore
  | .evaluate now stats => g.evaluate F now stats
  | .pace now remaining => some (g.pace now remaining)
  | .noteInteractive now => some { g with lastInteractive := some now }

end GovernorCore

namespace BulkBudget

variable {b : BulkBudget} {now : Nat} {mode : BulkYield} {est : Option Nat}

/-- Limiting or not, the ceiling is above the rate and the least floor. -/
structure Sane (b : BulkBudget) : Prop where
  least : YIELD_FLOOR_BYTES_PER_SEC ≤ b.ceiling
  most : b.rate ≤ b.ceiling

theorem Sane.setMode_spec (h : b.Sane)
    (hfloor : mode ≠ .off → YIELD_FLOOR_BYTES_PER_SEC ≤ floorOf mode)
    (hest : est = none → floorOf mode ≤ YIELD_FLOOR_BYTES_PER_SEC) :
    let c := b.setMode now mode est
    c.Sane ∧ c.mode = mode ∧ floorOf mode ≤ c.ceiling ∧
    (mode ≠ .off → b.mode = .off → c.rate = c.ceiling) ∧
    (mode ≠ .off → b.mode ≠ .off → c.rate = min b.rate c.ceiling ∧
      c.lastAdjust = b.lastAdjust) := by
  obtain ⟨least, most⟩ := h
  have hmax : YIELD_FLOOR_BYTES_PER_SEC ≤ U64_MAX := by decide
  unfold setMode
  cases hb : b.mode <;> cases mode <;> cases est <;>
    simp_all only [floorOf, ne_eq, reduceCtorEq, not_false_eq_true, not_true_eq_false]
  all_goals
    refine ⟨⟨?_, ?_⟩, ?_⟩
    all_goals grind

/-- The clamp of a steering step never fails. -/
theorem Sane.steer_spec (h : b.Sane) (hle : floorOf b.mode ≤ b.ceiling)
    (now queueDelay srtt : Nat) :
    ∃ c, b.steer now queueDelay srtt = some c ∧ c.Sane ∧ c.mode = b.mode ∧
      (now - b.lastAdjust < srtt → c.rate = b.rate) ∧
      (srtt ≤ now - b.lastAdjust → floorOf b.mode ≤ c.rate) := by
  unfold steer
  cases hb : b.mode with
  | off => exact ⟨b, rfl, h, hb, fun _ => rfl, fun _ => Nat.zero_le _⟩
  | yield target floor =>
    rw [hb] at hle
    by_cases hwait : now - b.lastAdjust < srtt
    · exact ⟨b, if_pos hwait, h, hb, fun _ => rfl, fun hdue => by omega⟩
    · refine ⟨_, (if_neg hwait).trans (if_pos hle), ⟨h.least, Nat.min_le_right _ _⟩, rfl,
        fun hearly => absurd hearly hwait, fun _ => ?_⟩
      exact le_min (Nat.le_max_right _ _) hle

theorem pay_spec (b : BulkBudget) (now want : Nat) :
    (b.pay now want).2.rate = b.rate ∧ (b.pay now want).2.ceiling = b.ceiling := by
  rw [pay]
  dsimp only
  split
  all_goals exact ⟨rfl, rfl⟩

end BulkBudget

namespace GovernorCore

variable {F : Floats} {g h : GovernorCore}

theorem bulkYield_floor (g : GovernorCore) (now : Nat) (est : Option Nat) :
    (g.bulkYield now est ≠ .off → YIELD_FLOOR_BYTES_PER_SEC ≤ floorOf (g.bulkYield now est)) ∧
    (est = none → floorOf (g.bulkYield now est) ≤ YIELD_FLOOR_BYTES_PER_SEC) := by
  unfold bulkYield
  split_ifs
  · exact ⟨fun _ => Nat.le_max_left _ _, fun hest => by rw [hest]; exact le_rfl⟩
  · exact ⟨fun h => absurd rfl h, fun _ => Nat.zero_le _⟩

/-- An evaluation decides a mode and leaves a sane budget in that mode.  The rate is at
least the floor just decided exactly if the limit starts, or a steering step is due, or the
rate was no lower before. -/
theorem evaluate_spec (hg : g.budget.Sane) (now : Nat) (stats : ConnStats) :
    ∃ h, g.evaluate F now stats = some h ∧ h.budget.Sane ∧
      h.budget.mode = g.bulkYield now (g.estBandwidth F now stats) ∧
      (floorOf (g.bulkYield now (g.estBandwidth F now stats)) ≤ h.budget.rate ↔
        g.budget.mode = .off ∨ max stats.rtt RTT_FLOOR ≤ now - g.budget.lastAdjust ∨
          floorOf (g.bulkYield now (g.estBandwidth F now stats)) ≤ g.budget.rate) := by
  rw [evaluate]
  generalize g.estBandwidth F now stats = est, Option.any _ stats.lostPackets = lost
  obtain ⟨hleast, hnone⟩ := g.bulkYield_floor now est
  generalize g.bulkYield now est = mode at *
  obtain ⟨hsane, hm, hle, enter, stay⟩ := hg.setMode_spec hleast hnone
  generalize g.budget.setMode now mode est = b at *
  obtain ⟨c, hc, hcs, hcm, hwait, hsteer⟩ :=
    (show (b.noteLoss lost).Sane from ⟨hsane.1, hsane.2⟩).steer_spec (hm ▸ hle) now
      (stats.rtt - stats.minRtt) (max stats.rtt RTT_FLOOR)
  rw [hc]
  simp only [BulkBudget.noteLoss] at hcm hwait hsteer
  refine ⟨_, rfl, hcs, hcm.trans hm, ?_⟩
  change floorOf mode ≤ c.rate ↔ _
  rw [hm] at hsteer
  by_cases hoff : mode = .off
  · have hzero : floorOf mode = 0 := by rw [hoff]; rfl
    simp [hzero]
  by_cases hlim : g.budget.mode = .off
  · -- the limit starts at the ceiling
    refine iff_of_true ?_ (.inl hlim)
    obtain hdue | hearly := le_or_gt (max stats.rtt RTT_FLOOR) (now - b.lastAdjust)
    · exact hsteer hdue
    · rw [hwait hearly, enter hoff hlim]
      exact hle
  obtain ⟨hrate, hadjust⟩ := stay hoff hlim
  obtain hdue | hearly := le_or_gt (max stats.rtt RTT_FLOOR) (now - b.lastAdjust)
  · exact iff_of_true (hsteer hdue) (.inr (.inl (hadjust ▸ hdue)))
  -- no step is due: the rate is as `set_mode` left it
  rw [hwait hearly, hrate]
  rw [hadjust] at hearly
  constructor
  · exact fun hfloor => .inr (.inr (le_trans hfloor (Nat.min_le_left _ _)))
  · rintro (hstart | hdue | hfloor)
    · exact absurd hstart hlim
    · omega
    · exact le_min hfloor hle

theorem step_sane {op : GovernorOp} (hs : g.step F op = some h) (hg : g.budget.Sane) :
    h.budget.Sane := by
  cases op with
  | evaluate now stats =>
    obtain ⟨h', heq, hsane, -⟩ := evaluate_spec (F := F) hg now stats
    cases heq.symm.trans hs
    exact hsane
  | pace now remaining =>
    cases hs
    rw [pace]
    split_ifs
    · exact hg
    · obtain ⟨hrate, hceiling⟩ := g.budget.pay_spec now remaining
      constructor
      · rw [hceiling]
        exact hg.least
      · rw [hrate, hceiling]
        exact hg.most
  | noteInteractive now =>
    cases hs
    exact hg

/-- An evaluation never fails, and it leaves the rate below the ceiling.  The rate is at least
the floor of the mode just decided exactly if the limit starts, or a steering step is due, or
the rate was no lower before. -/
theorem rate_within_mode {start : Nat} {adaptive : Bool} {ops : List GovernorOp}
    (hr : Run (step F) (fun _ _ => True) (new start adaptive) ops g) (now : Nat)
    (stats : ConnStats) :
    ∃ h, g.step F (.evaluate now stats) = some h ∧ h.budget.rate ≤ h.budget.ceiling ∧
      h.budget.mode = g.bulkYield now (g.estBandwidth F now stats) ∧
      (floorOf h.budget.mode ≤ h.budget.rate ↔
        g.budget.mode = .off ∨ max stats.rtt RTT_FLOOR ≤ now - g.budget.lastAdjust ∨
          floorOf (g.bulkYield now (g.estBandwidth F now stats)) ≤ g.budget.rate) := by
  have hg : g.budget.Sane := hr.invariant (I := fun g => g.budget.Sane)
    (fun _ _ _ _ hs hi => step_sane hs hi)
    ⟨show YIELD_FLOOR_BYTES_PER_SEC ≤ U64_MAX by decide, le_rfl⟩
  obtain ⟨h, heq, hsane, hmode, hrate⟩ := evaluate_spec hg now stats
  exact ⟨h, heq, hsane.most, hmode, hmode.symm ▸ hrate⟩

def wholeFloats : Floats where
  perSec bytes time := bytes * SECOND / time
  perSpan := id

/-- A key and a transfer, then an estimate of 100 kB/s. -/
def limited : List GovernorOp :=
  [.noteInteractive 0, .pace 0 0, .evaluate 0 ⟨SECOND, 0, 100000, none⟩]

/-- An estimate of 10 MB/s comes when the steering step is due. -/
theorem rate_within_mode_due :
    ∃ g, Run (step wholeFloats) (fun _ _ => True) (new 0 true) limited g ∧
      ∃ h, g.step wholeFloats (.evaluate SECOND ⟨SECOND, 0, 10000000, none⟩) = some h ∧
        floorOf h.budget.mode ≤ h.budget.rate := by
  refine Run.exists_exec (fun g => max SECOND RTT_FLOOR ≤ SECOND - g.budget.lastAdjust)
    (by decide +kernel) fun g hrun hdue => ?_
  obtain ⟨h, hs, -, -, hfloor⟩ := rate_within_mode hrun SECOND ⟨SECOND, 0, 10000000, none⟩
  exact ⟨h, hs, hfloor.2 (.inr (.inl hdue))⟩

/-- The same estimate comes 20 ms later.  The floor rises to 500 kB/s, and no steering step is
due. -/
theorem raised_floor_is_above_rate :
    ∃ g, Run (step wholeFloats) (fun _ _ => True) (new 0 true)
        (limited ++ [.evaluate (20 * MILLIS) ⟨SECOND, 0, 10000000, none⟩]) g ∧
      g.budget.mode = .yield YIELD_TARGET 500000 ∧ g.budget.rate = 100000 :=
  Run.exists_of_exec (by decide +kernel)

end GovernorCore

end Qsh.Adapt
