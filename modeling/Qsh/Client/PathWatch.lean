import Mathlib.Algebra.Group.Nat.Defs
import Mathlib.Order.Lattice
import Qsh.Lib.Run

/-!
# The path watchdog

`client/pathwatch.rs` rules a path dead when probes go unanswered and the path has been
silent for long enough.  `PathState` is the judgment, `RxLiveness` turns the movement of
the transport's frame counter into evidence, and `watch_path_with_wake` sleeps a beat,
samples the counter and asks for the verdict.

A state `Watch` is the loop between two of its steps, with the tasks that report to it,
the connection whose counters it reads and the clock, in nanoseconds.  The judgment is
behind a lock.  Every reading of the clock, of a counter or of the stalls outside the
lock is a step of its own, and so is every use of the lock.  A counted frame is kept with
the time at which it arrived and the time of the sample before the one that counted it;
`probes` counts the probes ordered since the last evidence.

The watchdog stamps the frames of a sample with the time of the sample before, so that a
silence "can only be overstated".  It is overstated in a second way: `PathWatch::observe`
reads the clock before it has the lock, and a traffic report that had to wait for it sets
the silence clock back behind evidence that came in between.
-/

namespace Qsh.Client.PathWatch

open Qsh.Lib List

def DURATION_MAX : Nat := 2 ^ 64 * 1000000000 - 1

def saturatingAdd (a b : Nat) : Nat := min (a + b) DURATION_MAX

def saturatingMul (a : Nat) (n : Nat) : Nat := min (a * n) DURATION_MAX

structure PathWatchConfig where
  probeInterval : Nat
  idleProbeInterval : Nat
  activeWindow : Nat
  minDeadAfter : Nat
  rttMultiple : Nat
  strikes : Nat
  /-- `min_dead_after` is a `Duration`. -/
  minDeadAfter_le : minDeadAfter ≤ DURATION_MAX

namespace PathWatchConfig

def default : PathWatchConfig where
  probeInterval := 250000000
  idleProbeInterval := 5000000000
  activeWindow := 15000000000
  minDeadAfter := 1000000000
  rttMultiple := 8
  strikes := 3
  minDeadAfter_le := by decide

variable (cfg : PathWatchConfig)

def selfDelayThreshold : Nat := cfg.probeInterval

def datagramGrace : Nat := saturatingMul cfg.probeInterval cfg.strikes

/-- The silence after which a path is dead, by its round trip. -/
def deadAfter (rtt : Nat) : Nat :=
  max cfg.minDeadAfter (saturatingMul rtt cfg.rttMultiple)

end PathWatchConfig

inductive Verdict where
  | healthy
  | probe
  | dead
  deriving DecidableEq

/-- What the watch knows of a path. -/
structure PathState where
  lastInbound : Nat
  lastActivity : Nat
  lastProbe : Option Nat
  unanswered : Nat
  probeNow : Bool
  maxTickGap : Nat
  pendingMargin : Nat
  lastDatagram : Option Nat
  graceStarted : Option Nat
  deriving DecidableEq

namespace PathState

def new (now : Nat) : PathState where
  lastInbound := now
  lastActivity := now
  lastProbe := none
  unanswered := 0
  probeNow := false
  maxTickGap := 0
  pendingMargin := 0
  lastDatagram := none
  graceStarted := none

variable (s : PathState)

def newCycle : PathState :=
  { s with lastDatagram := none, graceStarted := none }

/-- Proof of life, now. -/
def observeInbound (now : Nat) : PathState :=
  { { s with lastInbound := now, unanswered := 0 }.newCycle with maxTickGap := 0 }

/-- Proof of life at an earlier instant. -/
def observeInboundSince (since : Nat) : PathState :=
  { s with lastInbound := max s.lastInbound since, unanswered := 0 }.newCycle

/-- A raw datagram, which is only a hint. -/
def observeDatagram (seen : Nat) : PathState :=
  { s with lastDatagram := some ((s.lastDatagram.map (max · seen)).getD seen) }

def observeActivity (now : Nat) : PathState :=
  { s with lastActivity := now }

def observeTraffic (now : Nat) : PathState :=
  (s.observeInbound now).observeActivity now

def observeWake (now : Nat) : PathState :=
  { s with lastActivity := now, probeNow := true }

/-- A tick of the loop.  One that fired late moves the silence clock forward by
its lateness and leaves a margin for the verdict. -/
def observeTick (now gap expected : Nat) (cfg : PathWatchConfig) : PathState :=
  let late := gap - expected
  let s : PathState := { s with maxTickGap := max s.maxTickGap late }
  if late < cfg.selfDelayThreshold then s
  else { s with lastInbound := min (s.lastInbound + late) now, pendingMargin := late }

def isIdle (now : Nat) (cfg : PathWatchConfig) : Bool :=
  cfg.activeWindow < now - s.lastActivity

def cadence (now : Nat) (cfg : PathWatchConfig) : Nat :=
  if s.isIdle now cfg then cfg.idleProbeInterval else cfg.probeInterval

def hinted (now : Nat) (cfg : PathWatchConfig) : Bool :=
  s.lastDatagram.any fun seen => now - seen ≤ cfg.datagramGrace

/-- No hint excuses the silence, or its grace is used up. -/
def graceOver (now : Nat) (cfg : PathWatchConfig) : Bool :=
  match s.graceStarted with
  | some started => cfg.datagramGrace ≤ now - started
  | none => !s.hinted now cfg

/-- Enough probes went unanswered for long enough. -/
def due (now rtt : Nat) (cfg : PathWatchConfig) : Bool :=
  cfg.strikes ≤ s.unanswered &&
    saturatingAdd (cfg.deadAfter rtt) s.pendingMargin ≤ now - s.lastInbound

def wantsProbe (now : Nat) (cfg : PathWatchConfig) : Bool :=
  s.probeNow || (s.cadence now cfg ≤ now - s.lastInbound &&
      s.lastProbe.all fun sent => s.cadence now cfg ≤ now - sent)

def probeOrRest (now : Nat) (cfg : PathWatchConfig) : PathState × Verdict :=
  if s.wantsProbe now cfg then
    ({ s with probeNow := false, lastProbe := some now, unanswered := s.unanswered + 1 }, .probe)
  else ({ s with probeNow := false }, .healthy)

/-- Whether to rest, to probe or to give the path up. -/
def verdict (s : PathState) (now rtt : Nat) (cfg : PathWatchConfig) : PathState × Verdict :=
  if s.due now rtt cfg then
    if s.graceOver now cfg then ({ s with pendingMargin := 0 }, .dead)
    else
      -- the first due verdict with a hint starts the one grace of the cycle
      let s : PathState :=
        { s with pendingMargin := 0, graceStarted := some (s.graceStarted.getD now) }
      s.probeOrRest now cfg
  else { s with pendingMargin := 0 }.probeOrRest now cfg

variable {now rtt : Nat}

theorem observeTick_lastInbound (gap expected : Nat)
    (cfg : PathWatchConfig) (h : s.lastInbound ≤ now) :
    s.lastInbound ≤ (s.observeTick now gap expected cfg).lastInbound ∧
      (s.observeTick now gap expected cfg).lastInbound ≤ now := by
  simp only [observeTick]
  split
  · exact ⟨le_rfl, h⟩
  · exact ⟨by simp only; omega, by simp only; omega⟩

@[simp]
theorem observeTick_unanswered (now gap expected : Nat) (cfg : PathWatchConfig) :
    (s.observeTick now gap expected cfg).unanswered = s.unanswered := by
  simp only [observeTick]
  split <;> rfl

theorem probeOrRest_spec (now : Nat) (cfg : PathWatchConfig) :
    (s.probeOrRest now cfg).1.lastInbound = s.lastInbound ∧
      (s.probeOrRest now cfg).2 ≠ .dead ∧
      (s.probeOrRest now cfg).1.unanswered =
        s.unanswered + if (s.probeOrRest now cfg).2 = .probe then 1 else 0 := by
  unfold probeOrRest
  split <;> simp

theorem verdict_spec (now rtt : Nat) (cfg : PathWatchConfig) :
    (s.verdict now rtt cfg).1.lastInbound = s.lastInbound ∧
      (s.verdict now rtt cfg).1.unanswered =
        s.unanswered + if (s.verdict now rtt cfg).2 = .probe then 1 else 0 := by
  have hrest : ∀ t : PathState, t.lastInbound = s.lastInbound → t.unanswered = s.unanswered →
      (t.probeOrRest now cfg).1.lastInbound = s.lastInbound ∧
        (t.probeOrRest now cfg).1.unanswered =
          s.unanswered + if (t.probeOrRest now cfg).2 = .probe then 1 else 0 := by
    intro t hin hun
    obtain ⟨hlast, -, hprobes⟩ := t.probeOrRest_spec now cfg
    exact ⟨hlast.trans hin, hun ▸ hprobes⟩
  rw [verdict]
  split
  · split
    · simp
    · exact hrest _ rfl rfl
  · exact hrest _ rfl rfl

theorem due_of_verdict_dead {s : PathState} {cfg : PathWatchConfig}
    (h : (s.verdict now rtt cfg).2 = .dead) : s.due now rtt cfg = true := by
  by_contra hdue
  rw [verdict, if_neg hdue] at h
  exact (probeOrRest_spec _ _ _).2.1 h

theorem strikes_and_silence_of_due {s : PathState} {cfg : PathWatchConfig}
    (h : s.due now rtt cfg = true) :
    cfg.strikes ≤ s.unanswered ∧ cfg.deadAfter rtt ≤ now - s.lastInbound := by
  simp only [due, Bool.and_eq_true, decide_eq_true_eq] at h
  have hmax : cfg.deadAfter rtt ≤ DURATION_MAX := max_le cfg.minDeadAfter_le (min_le_right _ _)
  exact ⟨h.1, le_trans (le_min (by omega) hmax) h.2⟩

end PathState

/-- The counters at the last sample. -/
structure RxLiveness where
  frames : Nat
  datagrams : Nat
  sampledAt : Nat
  deriving DecidableEq

/-- A piece of evidence, with a time that it is not older than.  It is overtaken when a
traffic report which had read the clock before that time sets the silence clock
afterwards. -/
structure Evidence where
  stamp : Nat
  overtaken : Bool
  deriving DecidableEq

def Evidence.overtake (clock : Nat) (e : Evidence) : Evidence :=
  { e with overtaken := e.overtaken || clock < e.stamp }

/-- A frame that a sample has counted.  Its stamp is the time of the sample before that
one, or of the creation of the watch, if there was none. -/
structure CountedFrame extends Evidence where
  arrived : Nat
  deriving DecidableEq

/-- A call of `PathWatch::observe` that has read the clock and does not have the lock yet.
A traffic report is for a message, which arrived at `arrived`; a report of local activity
is for none. -/
structure Observing where
  clock : Nat
  arrived : Option Nat
  deriving DecidableEq

inductive WatchPhase where
  /-- `RxLiveness::new` has taken the time and not read the counters. -/
  | starting (sampled : Nat)
  | top
  /-- The loop has read the cadence. -/
  | timed (period : Nat)
  /-- In the `select`, since `sleptFrom`. -/
  | asleep (period sleptFrom : Nat)
  /-- The timer fired, `gap` after the sleep began. -/
  | fired (gap period : Nat)
  /-- About to sample; `judge` says whether a verdict follows. -/
  | sampling (judge : Bool)
  /-- The sample has taken the time and not read the counters. -/
  | reading (sampled : Nat) (judge : Bool)
  /-- The sample has read the counters and reported nothing. -/
  | reporting (next : RxLiveness) (judge : Bool)
  /-- The sample has reported the frames and not the datagrams. -/
  | hinting (next : RxLiveness) (judge : Bool)
  | judging
  /-- The verdict has seen a parked pump. -/
  | excused
  /-- The verdict has read the clock and does not have the lock yet. -/
  | deciding (clock rtt : Nat)
  | ended
  deriving DecidableEq

structure Watch where
  cfg : PathWatchConfig
  now : Nat
  /-- When the watch was created. -/
  opened : Nat
  state : PathState
  /-- How many pumps are parked on a full queue. -/
  stalls : Nat
  /-- How many have left it and not restarted the silence clock yet. -/
  restarts : Nat
  observing : List Observing
  /-- How many reports have found the attach idle and not notified the loop yet. -/
  notifies : Nat
  /-- The permit of the idle-to-active `Notify`. -/
  woken : Bool
  /-- When each authenticated frame arrived that came since then; their number
  is how far the counter has moved. -/
  arrivals : List Nat
  datagrams : Nat
  rx : RxLiveness
  phase : WatchPhase
  /-- The frames the samples have counted. -/
  counted : List CountedFrame
  /-- The messages that have been reported, stamped with their arrival. -/
  reported : List Evidence
  /-- The longest that a traffic report has waited for the lock with its reading of the
  clock. -/
  lag : Nat
  /-- The probes ordered since the watchdog was last given evidence. -/
  probes : Nat

inductive WatchOp where
  | pass (time : Nat)
  /-- An authenticated frame arrives. -/
  | frame
  /-- A raw datagram arrives. -/
  | datagram
  /-- `PathWatch::inbound`, for a message that arrived at `arrived`. -/
  | inbound (arrived : Nat)
  /-- `PathWatch::traffic`, for a message that arrived at `arrived`, reads the clock. -/
  | traffic (arrived : Nat)
  /-- `PathWatch::activity` reads the clock. -/
  | activity
  /-- A traffic or activity report has the lock. -/
  | observe (i : Nat)
  /-- A report that found the attach idle notifies the loop. -/
  | notify
  /-- A pump begins, or ends, to wait for room in a queue. -/
  | stall
  | unstall
  /-- A pump that has ended to wait restarts the silence clock. -/
  | restart
  /-- `RxLiveness::new` reads the counters. -/
  | begin
  | cadence
  | sleep
  /-- An arm of the `select`. -/
  | wokenArm
  | timerArm
  | machineWoke
  | detectorGone
  | closed
  /-- `PathWatch::ticked`. -/
  | tick
  /-- A sample takes the time, reads the counters, reports the frames and reports the
  datagrams. -/
  | stamp
  | count
  | report
  | hint
  /-- `PathWatch::verdict` looks at the stalls and reads the clock. -/
  | judge (rtt : Nat)
  /-- It restarts the silence clock, as a pump is parked. -/
  | excuse
  /-- It has the lock. -/
  | verdict

namespace Watch

def restartSilenceClock (w : Watch) : PathState :=
  { w.state.observeInbound w.now with pendingMargin := 0 }

/-- What `PathWatch::observe` does under the lock, with the time it read before. -/
def observe (w : Watch) (call : Observing) (observing : List Observing) : Watch :=
  let w : Watch :=
    { w with
      observing
      notifies := if w.state.isIdle call.clock w.cfg then w.notifies + 1 else w.notifies }
  match call.arrived with
  | none => { w with state := w.state.observeActivity call.clock }
  | some arrived =>
      { w with
        state := w.state.observeTraffic call.clock
        reported := ⟨arrived, false⟩ :: w.reported.map (Evidence.overtake call.clock)
        counted := w.counted.map fun f =>
          { f with toEvidence := f.toEvidence.overtake call.clock }
        lag := max w.lag (w.now - call.clock)
        probes := 0 }

/-- The frames that a sample has counted are stamped with the time of the sample
before. -/
def reportFrames (w : Watch) (next : RxLiveness) : Watch :=
  if next.frames ≠ w.rx.frames then
    { w with
      state := w.state.observeInboundSince w.rx.sampledAt
      probes := 0
      counted := w.counted ++
        ((w.arrivals.take next.frames).drop w.rx.frames).map fun arrived =>
          ⟨⟨w.rx.sampledAt, false⟩, arrived⟩ }
  else w

def hintDatagrams (w : Watch) (next : RxLiveness) : PathState :=
  if next.datagrams ≠ w.rx.datagrams then w.state.observeDatagram next.sampledAt else w.state

/-- One step of the watch task, of a reporter or of the network. -/
def step (w : Watch) : WatchOp → Option Watch
  | .pass time => some { w with now := w.now + time }
  | .frame => some { w with arrivals := w.arrivals ++ [w.now] }
  | .datagram => some { w with datagrams := w.datagrams + 1 }
  | .inbound arrived =>
      if arrived ≤ w.now then
        some { w with
          state := w.state.observeInbound w.now
          reported := ⟨arrived, false⟩ :: w.reported
          probes := 0 }
      else none
  | .traffic arrived =>
      if arrived ≤ w.now then
        some { w with observing := ⟨w.now, some arrived⟩ :: w.observing }
      else none
  | .activity => some { w with observing := ⟨w.now, none⟩ :: w.observing }
  | .observe i =>
      match w.observing[i]? with
      | some call => some (w.observe call (w.observing.eraseIdx i))
      | none => none
  | .notify =>
      if 0 < w.notifies then some { w with notifies := w.notifies - 1, woken := true } else none
  | .stall => some { w with stalls := w.stalls + 1 }
  | .unstall =>
      if 0 < w.stalls then
        some { w with stalls := w.stalls - 1, restarts := w.restarts + 1 }
      else none
  | .restart =>
      if 0 < w.restarts then
        some { w with restarts := w.restarts - 1, state := w.restartSilenceClock }
      else none
  | .begin =>
      match w.phase with
      | .starting sampled =>
          some { w with
            rx := ⟨w.arrivals.length, w.datagrams, sampled⟩
            counted := w.arrivals.map fun arrived => ⟨⟨w.opened, false⟩, arrived⟩
            phase := .top }
      | _ => none
  | .cadence =>
      match w.phase with
      | .top => some { w with phase := .timed (w.state.cadence w.now w.cfg) }
      | _ => none
  | .sleep =>
      match w.phase with
      | .timed period => some { w with phase := .asleep period w.now }
      | _ => none
  | .wokenArm =>
      match w.phase with
      | .asleep _ _ =>
          if w.woken then some { w with woken := false, phase := .sampling false } else none
      | _ => none
  | .timerArm =>
      match w.phase with
      | .asleep period sleptFrom =>
          if sleptFrom + period ≤ w.now then
            some { w with phase := .fired (w.now - sleptFrom) period }
          else none
      | _ => none
  | .machineWoke =>
      match w.phase with
      | .asleep _ _ =>
          some { w with state := w.state.observeWake w.now, phase := .sampling true }
      | _ => none
  | .detectorGone =>
      match w.phase with
      | .asleep _ _ => some { w with phase := .sampling false }
      | _ => none
  | .closed =>
      match w.phase with
      | .asleep _ _ => some { w with phase := .ended }
      | _ => none
  | .tick =>
      match w.phase with
      | .fired gap period =>
          some { w with
            state := w.state.observeTick w.now gap period w.cfg, phase := .sampling true }
      | _ => none
  | .stamp =>
      match w.phase with
      | .sampling judge => some { w with phase := .reading w.now judge }
      | _ => none
  | .count =>
      match w.phase with
      | .reading sampled judge =>
          some { w with phase := .reporting ⟨w.arrivals.length, w.datagrams, sampled⟩ judge }
      | _ => none
  | .report =>
      match w.phase with
      | .reporting next judge => some { w.reportFrames next with phase := .hinting next judge }
      | _ => none
  | .hint =>
      match w.phase with
      | .hinting next judge =>
          some { w with
            state := w.hintDatagrams next
            rx := next
            phase := if judge then .judging else .top }
      | _ => none
  | .judge rtt =>
      match w.phase with
      | .judging =>
          some { w with phase := if 0 < w.stalls then .excused else .deciding w.now rtt }
      | _ => none
  | .excuse =>
      match w.phase with
      | .excused => some { w with state := w.restartSilenceClock, phase := .top }
      | _ => none
  | .verdict =>
      match w.phase with
      | .deciding clock rtt =>
          let (state, verdict) := w.state.verdict clock rtt w.cfg
          some { w with
            state
            probes := w.probes + if verdict = .probe then 1 else 0
            phase := if verdict = .dead then .ended else .top }
      | _ => none

def start (cfg : PathWatchConfig) (now : Nat) : Watch where
  cfg
  now
  opened := now
  state := .new now
  stalls := 0
  restarts := 0
  observing := []
  notifies := 0
  woken := false
  arrivals := []
  datagrams := 0
  rx := ⟨0, 0, now⟩
  phase := .starting now
  counted := []
  reported := []
  lag := 0
  probes := 0

/-! ## The invariant -/

/-- The reading of the clock that the loop goes on with. -/
def heldClock : WatchPhase → Option Nat
  | .starting sampled => some sampled
  | .reading sampled _ => some sampled
  | .deciding clock _ => some clock
  | _ => none

/-- The counters that the sample under way has read. -/
def heldSample : WatchPhase → Option RxLiveness
  | .reporting next _ => some next
  | .hinting next _ => some next
  | _ => none

/-- The silence clock is not older than the evidence, up to the lag if the evidence was
overtaken. -/
def Backed (w : Watch) (e : Evidence) : Prop :=
  e.stamp ≤ w.now ∧ e.stamp ≤ w.state.lastInbound + if e.overtaken then w.lag else 0

/-- What a sample has not counted arrived after it was taken. -/
def Fresh (w : Watch) (rx : RxLiveness) : Prop :=
  rx.sampledAt ≤ w.now ∧ ∀ arrived ∈ w.arrivals.drop rx.frames, rx.sampledAt ≤ arrived

/-- What holds between the clock, the state and the evidence. -/
structure Inv (w : Watch) : Prop where
  inbound_le : w.state.lastInbound ≤ w.now
  opened_le : w.opened ≤ w.state.lastInbound
  strikes_le : w.state.unanswered ≤ w.probes
  reported : ∀ e ∈ w.reported, w.Backed e
  counted : ∀ f ∈ w.counted, w.Backed f.toEvidence ∧ f.stamp ≤ f.arrived
  observing : ∀ call ∈ w.observing, w.opened ≤ call.clock ∧ call.clock ≤ w.now ∧
    ∀ arrived ∈ call.arrived, arrived ≤ call.clock
  fresh : w.Fresh w.rx
  held_clock : ∀ clock ∈ heldClock w.phase, clock ≤ w.now
  held_sample : ∀ next ∈ heldSample w.phase, w.Fresh next
  arrivals_ge : ∀ arrived ∈ w.arrivals, w.opened ≤ arrived

variable {w : Watch} {phase : WatchPhase}

variable {state : PathState} {stalls restarts notifies : Nat} {woken : Bool}

theorem Backed.mono {w' : Watch} {e : Evidence} (h : w.Backed e) (hnow : w.now ≤ w'.now)
    (hin : w.state.lastInbound ≤ w'.state.lastInbound) (hlag : w.lag ≤ w'.lag) :
    w'.Backed e := by
  refine ⟨le_trans h.1 hnow, le_trans h.2 ?_⟩
  split <;> omega

theorem Backed.of_le {e : Evidence} (hle : e.stamp ≤ w.state.lastInbound)
    (hnow : w.state.lastInbound ≤ w.now) : w.Backed e :=
  ⟨le_trans hle hnow, le_trans hle (Nat.le_add_right _ _)⟩

/-- A traffic report sets the silence clock to the time it has read: evidence of a later
time is overtaken, and by no more than the report has waited. -/
theorem Backed.overtake {w' : Watch} {e : Evidence} {clock : Nat} (h : w.Backed e)
    (hnow : w'.now = w.now) (hin : w'.state.lastInbound = clock) (hlag : w.now - clock ≤ w'.lag) :
    w'.Backed (e.overtake clock) := by
  have hstamp := h.1
  refine ⟨hnow ▸ hstamp, ?_⟩
  rw [hin]
  show e.stamp ≤ clock + if (e.overtaken || decide (clock < e.stamp)) = true then w'.lag else 0
  by_cases hlate : clock < e.stamp
  · rw [if_pos (by simp [hlate])]
    omega
  · omega

section

variable (h : w.Inv)
include h

theorem Inv.keep (hle : w.state.lastInbound ≤ state.lastInbound)
    (hnow : state.lastInbound ≤ w.now) (hstrikes : state.unanswered ≤ w.probes)
    (hclock : ∀ clock ∈ heldClock phase, clock ≤ w.now)
    (hsample : ∀ next ∈ heldSample phase, w.Fresh next) :
    Inv { w with state, stalls, restarts, notifies, woken, phase } where
  inbound_le := hnow
  opened_le := le_trans h.opened_le hle
  strikes_le := hstrikes
  reported := fun e he => (h.reported e he).mono le_rfl hle le_rfl
  counted := fun f hf => ⟨(h.counted f hf).1.mono le_rfl hle le_rfl, (h.counted f hf).2⟩
  __ := h
  held_clock := hclock
  held_sample := hsample

theorem Inv.setPhase (hclock : heldClock phase = none) (hsample : heldSample phase = none) :
    Inv { w with phase, woken } :=
  h.keep le_rfl h.inbound_le h.strikes_le (by rw [hclock]; simp) (by rw [hsample]; simp)

theorem Inv.restart (hclock : ∀ clock ∈ heldClock phase, clock ≤ w.now)
    (hsample : ∀ next ∈ heldSample phase, w.Fresh next) :
    Inv { w with restarts, state := w.restartSilenceClock, phase } :=
  h.keep h.inbound_le le_rfl (Nat.zero_le _) hclock hsample

theorem Inv.pass (time : Nat) : Inv { w with now := w.now + time } := by
  have hle := Nat.le_add_right w.now time
  exact { h with
    inbound_le := le_trans h.inbound_le hle
    reported := fun e he => (h.reported e he).mono hle le_rfl le_rfl
    counted := fun f hf => ⟨(h.counted f hf).1.mono hle le_rfl le_rfl, (h.counted f hf).2⟩
    observing := fun call hcall =>
      ⟨(h.observing call hcall).1, le_trans (h.observing call hcall).2.1 hle,
        (h.observing call hcall).2.2⟩
    fresh := ⟨le_trans h.fresh.1 hle, h.fresh.2⟩
    held_clock := fun clock hclock => le_trans (h.held_clock clock hclock) hle
    held_sample := fun next hnext =>
      ⟨le_trans (h.held_sample next hnext).1 hle, (h.held_sample next hnext).2⟩ }

omit h in
theorem Fresh.frame {rx : RxLiveness} (hfresh : w.Fresh rx) :
    Fresh { w with arrivals := w.arrivals ++ [w.now] } rx := by
  refine ⟨hfresh.1, fun arrived ha => ?_⟩
  rw [drop_append] at ha
  rcases mem_append.1 ha with ha | ha
  · exact hfresh.2 arrived ha
  · rw [mem_singleton.1 (mem_of_mem_drop ha)]
    exact hfresh.1

theorem Inv.frame : Inv { w with arrivals := w.arrivals ++ [w.now] } :=
  { h with
    fresh := h.fresh.frame
    held_sample := fun next hnext => (h.held_sample next hnext).frame
    arrivals_ge := forall_mem_append.2
      ⟨h.arrivals_ge, forall_mem_singleton.2 (le_trans h.opened_le h.inbound_le)⟩ }

theorem Inv.inbound {arrived : Nat} (ha : arrived ≤ w.now) :
    Inv { w with
      state := w.state.observeInbound w.now
      reported := ⟨arrived, false⟩ :: w.reported
      probes := 0 } where
  inbound_le := le_rfl
  opened_le := le_trans h.opened_le h.inbound_le
  strikes_le := le_rfl
  reported := forall_mem_cons.2
    ⟨.of_le ha le_rfl, fun e he => (h.reported e he).mono le_rfl h.inbound_le le_rfl⟩
  counted := fun f hf => ⟨(h.counted f hf).1.mono le_rfl h.inbound_le le_rfl, (h.counted f hf).2⟩
  __ := h

theorem Inv.call {arrived : Option Nat} (ha : ∀ a ∈ arrived, a ≤ w.now) :
    Inv { w with observing := ⟨w.now, arrived⟩ :: w.observing } :=
  { h with
    observing := forall_mem_cons.2 ⟨⟨le_trans h.opened_le h.inbound_le, le_rfl, ha⟩, h.observing⟩ }

theorem Inv.observe {call : Observing} (hcall : call ∈ w.observing) {rest : List Observing}
    (hrest : ∀ c ∈ rest, c ∈ w.observing) : (w.observe call rest).Inv := by
  obtain ⟨hopened, hclock, harrived⟩ := h.observing call hcall
  have hobserving := fun c hc => h.observing c (hrest c hc)
  unfold Watch.observe
  cases hmessage : call.arrived with
  | none => exact { h with observing := hobserving }
  | some arrived =>
    have hlag := le_max_right w.lag (w.now - call.clock)
    refine { h with
      inbound_le := hclock, opened_le := hopened, strikes_le := le_rfl, reported := ?_,
      counted := ?_, observing := hobserving }
    · refine forall_mem_cons.2 ⟨.of_le (harrived arrived hmessage) hclock, fun e he => ?_⟩
      obtain ⟨old, hold, rfl⟩ := mem_map.1 he
      exact (h.reported old hold).overtake rfl rfl hlag
    · intro f hf
      obtain ⟨old, hold, rfl⟩ := mem_map.1 hf
      exact ⟨(h.counted old hold).1.overtake rfl rfl hlag, (h.counted old hold).2⟩

theorem Inv.begin {sampled : Nat} (hphase : w.phase = .starting sampled) :
    Inv { w with
      rx := ⟨w.arrivals.length, w.datagrams, sampled⟩
      counted := w.arrivals.map fun arrived => ⟨⟨w.opened, false⟩, arrived⟩
      phase := .top } := by
  refine { h with counted := ?_, fresh := ?_, held_clock := nofun, held_sample := nofun }
  · intro f hf
    obtain ⟨arrived, ha, rfl⟩ := mem_map.1 hf
    exact ⟨.of_le h.opened_le h.inbound_le, h.arrivals_ge arrived ha⟩
  · exact ⟨h.held_clock sampled (by rw [hphase]; rfl), by simp⟩

/-- Reporting the frames of a sample keeps the invariant: their stamp is not later than
they arrived, and the silence clock is moved up to it. -/
theorem Inv.reportFrames {next : RxLiveness} {judge : Bool}
    (hphase : w.phase = .reporting next judge) :
    Inv { w.reportFrames next with phase := .hinting next judge } := by
  have hnext : w.Fresh next := h.held_sample next (by rw [hphase]; rfl)
  have hheld : ∀ n ∈ heldSample (.hinting next judge), w.Fresh n := by
    rintro n ⟨⟩
    exact hnext
  unfold Watch.reportFrames
  split
  · have hle := le_max_left w.state.lastInbound w.rx.sampledAt
    have hnow : max w.state.lastInbound w.rx.sampledAt ≤ w.now := max_le h.inbound_le h.fresh.1
    refine { h with
      inbound_le := hnow, opened_le := le_trans h.opened_le hle, strikes_le := le_rfl,
      reported := fun e he => (h.reported e he).mono le_rfl hle le_rfl, counted := ?_,
      held_clock := nofun, held_sample := hheld }
    intro f hf
    rcases mem_append.1 hf with hf | hf
    · exact ⟨(h.counted f hf).1.mono le_rfl hle le_rfl, (h.counted f hf).2⟩
    · obtain ⟨arrived, ha, rfl⟩ := mem_map.1 hf
      refine ⟨.of_le (le_max_right _ _) hnow, h.fresh.2 arrived ?_⟩
      exact ((take_sublist _ _).drop _).subset ha
  · exact { h with held_clock := nofun, held_sample := hheld }

theorem Inv.hint {next : RxLiveness} {judge : Bool} (hphase : w.phase = .hinting next judge) :
    Inv { w with
      state := w.hintDatagrams next
      rx := next
      phase := if judge then .judging else .top } := by
  have hnext : w.Fresh next := h.held_sample next (by rw [hphase]; rfl)
  have hstate : (w.hintDatagrams next).lastInbound = w.state.lastInbound ∧
      (w.hintDatagrams next).unanswered = w.state.unanswered := by
    unfold hintDatagrams
    split <;> exact ⟨rfl, rfl⟩
  have hkept : Inv { w with
      state := w.hintDatagrams next, phase := if judge then .judging else .top } := by
    refine h.keep hstate.1.ge (hstate.1 ▸ h.inbound_le) (hstate.2 ▸ h.strikes_le) ?_ ?_
    all_goals cases judge <;> nofun
  exact { hkept with fresh := hnext }

theorem Inv.verdict (clock rtt : Nat) (hclock : heldClock phase = none)
    (hsample : heldSample phase = none) :
    Inv { w with
      state := (w.state.verdict clock rtt w.cfg).1
      probes := w.probes + if (w.state.verdict clock rtt w.cfg).2 = .probe then 1 else 0
      phase } := by
  obtain ⟨hin, hun⟩ := PathState.verdict_spec w.state clock rtt w.cfg
  have hge := hin.ge
  refine { h with
    inbound_le := hin ▸ h.inbound_le, opened_le := le_trans h.opened_le hge, strikes_le := ?_,
    reported := fun e he => (h.reported e he).mono le_rfl hge le_rfl,
    counted := fun f hf => ⟨(h.counted f hf).1.mono le_rfl hge le_rfl, (h.counted f hf).2⟩,
    held_clock := by rw [hclock]; simp, held_sample := by rw [hsample]; simp }
  have hstrikes := h.strikes_le
  simp only [hun]
  omega

end

theorem Inv.step {w' : Watch} (h : w.Inv) {op : WatchOp} (hs : w.step op = some w') :
    w'.Inv := by
  cases op with simp only [Watch.step] at hs
  | pass time =>
    cases hs
    exact h.pass time
  | frame =>
    cases hs
    exact h.frame
  | datagram | stall =>
    cases hs
    exact { h with }
  | inbound arrived =>
    split at hs <;> cases hs
    exact h.inbound ‹_›
  | traffic arrived =>
    split at hs <;> cases hs
    exact h.call (by simpa)
  | activity =>
    cases hs
    exact h.call (by simp)
  | observe i =>
    split at hs <;> cases hs
    exact h.observe (mem_of_getElem? ‹_›) fun c hc => mem_of_mem_eraseIdx hc
  | notify | unstall =>
    split at hs <;> cases hs
    exact { h with }
  | restart =>
    split at hs <;> cases hs
    exact h.restart h.held_clock h.held_sample
  | begin =>
    split at hs <;> cases hs
    exact h.begin ‹_›
  | cadence | sleep | detectorGone | closed =>
    split at hs <;> cases hs
    exact h.setPhase rfl rfl
  | wokenArm | timerArm =>
    split at hs
    · split at hs <;> cases hs
      exact h.setPhase rfl rfl
    · cases hs
  | machineWoke =>
    split at hs <;> cases hs
    exact h.keep le_rfl h.inbound_le h.strikes_le nofun nofun
  | stamp =>
    split at hs <;> cases hs
    exact h.keep le_rfl h.inbound_le h.strikes_le (by simp [heldClock]) nofun
  | tick =>
    split at hs <;> cases hs
    rename_i gap period _
    obtain ⟨hle, hnow⟩ := w.state.observeTick_lastInbound gap period w.cfg h.inbound_le
    exact h.keep hle hnow (by simpa using h.strikes_le) nofun nofun
  | count =>
    split at hs <;> cases hs
    rename_i sampled judge hphase
    have hsampled : sampled ≤ w.now := h.held_clock sampled (by rw [hphase]; rfl)
    exact h.keep le_rfl h.inbound_le h.strikes_le nofun (by simp [heldSample, Fresh, hsampled])
  | report =>
    split at hs <;> cases hs
    exact h.reportFrames ‹_›
  | hint =>
    split at hs <;> cases hs
    exact h.hint ‹_›
  | judge rtt =>
    split at hs <;> cases hs
    refine h.keep le_rfl h.inbound_le h.strikes_le ?_ ?_
    all_goals split <;> simp [heldClock, heldSample]
  | excuse =>
    split at hs <;> cases hs
    exact h.restart nofun nofun
  | verdict =>
    split at hs <;> cases hs
    refine h.verdict _ _ ?_ ?_
    all_goals split <;> rfl

theorem Inv.start (cfg : PathWatchConfig) (now : Nat) : (start cfg now).Inv where
  inbound_le := le_rfl
  opened_le := le_rfl
  strikes_le := le_rfl
  reported := nofun
  counted := nofun
  observing := nofun
  fresh := ⟨le_rfl, nofun⟩
  held_clock := by simp [Watch.start, heldClock]
  held_sample := nofun
  arrivals_ge := nofun

/-- A `Dead` verdict comes only after `strikes` probes without evidence, only when every
reported message arrived at least `dead_after` ago, and only when the sample before the
one that counted a frame was taken at least `dead_after` ago; the frame arrived after that
sample.  What a traffic report has overtaken that had read the clock before can be younger
than that, by the longest that such a report has waited for the lock. -/
theorem dead_after_silence (cfg : PathWatchConfig) (begun : Nat) {ops : List WatchOp} {w : Watch}
    (hrun : Run step (fun _ _ => True) (start cfg begun) ops w) {clock rtt : Nat}
    (hphase : w.phase = .deciding clock rtt)
    (hdead : (w.state.verdict clock rtt w.cfg).2 = .dead) :
    w.cfg.strikes ≤ w.probes ∧
      (∀ e ∈ w.reported,
        e.stamp + w.cfg.deadAfter rtt ≤ w.now + if e.overtaken then w.lag else 0) ∧
      ∀ f ∈ w.counted,
        f.stamp + w.cfg.deadAfter rtt ≤ w.now + (if f.overtaken then w.lag else 0) ∧
          f.stamp ≤ f.arrived := by
  have h : w.Inv := hrun.invariant (fun _ _ _ _ hs hi => hi.step hs) (Inv.start cfg begun)
  obtain ⟨hstrikes, hsilence⟩ :=
    PathState.strikes_and_silence_of_due (PathState.due_of_verdict_dead hdead)
  have hclock : clock ≤ w.now := h.held_clock clock (by rw [hphase]; rfl)
  have hinbound := h.inbound_le
  have hbacked : ∀ e, w.Backed e →
      e.stamp + w.cfg.deadAfter rtt ≤ w.now + if e.overtaken then w.lag else 0 := by
    intro e he
    have hstamp := he.2
    omega
  exact ⟨le_trans hstrikes h.strikes_le, fun e he => hbacked e (h.reported e he),
    fun f hf => ⟨hbacked f.toEvidence (h.counted f hf).1, (h.counted f hf).2⟩⟩

/-- The end of a round in which the timer fired, up to the verdict's reading of the
clock. -/
def rules (rtt : Nat) : List WatchOp :=
  [.timerArm, .tick, .stamp, .count, .report, .hint, .judge rtt]

/-- A beat of the loop at the fast cadence: the timer fires on time and the round
ends in a verdict. -/
def beat (rtt : Nat) : List WatchOp :=
  [.cadence, .sleep, .pass 250000000] ++ rules rtt ++ [.verdict]

/-- A frame arrives 200 ms into the first beat, and nothing after it. -/
def oneFrame : List WatchOp :=
  [.begin, .cadence, .sleep, .pass 200000000, .frame, .pass 50000000] ++ rules 0 ++ [.verdict] ++
    beat 0 ++ beat 0 ++ [.cadence, .sleep, .pass 250000000] ++ rules 0

/-- A traffic report reads the clock at 100 ms and has the lock at 400 ms, just after a
`Pong` was reported. -/
def slowReport : List WatchOp :=
  [.begin, .cadence, .sleep, .pass 100000000, .traffic 100000000, .pass 150000000] ++ rules 0 ++
    [.verdict, .cadence, .sleep, .pass 150000000, .inbound 400000000, .observe 0,
      .pass 100000000] ++ rules 0 ++ [.verdict] ++ beat 0 ++ beat 0 ++
    [.cadence, .sleep, .pass 250000000] ++ rules 0

theorem dead_after_silence_slowReport :
    ∃ w, Run step (fun _ _ => True) (start .default 0) slowReport w ∧
      w.phase = .deciding 1250000000 0 ∧ (w.state.verdict 1250000000 0 w.cfg).2 = .dead ∧
      w.reported.map (·.stamp) = [100000000, 400000000] ∧ w.lag = 300000000 ∧
      w.cfg.strikes ≤ w.probes ∧
      ∀ e ∈ w.reported,
        e.stamp + w.cfg.deadAfter 0 ≤ w.now + if e.overtaken then w.lag else 0 := by
  refine Run.exists_exec (fun w => w.phase = .deciding 1250000000 0 ∧
      (w.state.verdict 1250000000 0 w.cfg).2 = .dead ∧
      w.reported.map (·.stamp) = [100000000, 400000000] ∧ w.lag = 300000000) (by decide +kernel) ?_
  rintro w hrun ⟨hphase, hdead, hstamps, hlag⟩
  obtain ⟨hstrikes, hreported, -⟩ := dead_after_silence .default 0 hrun hphase hdead
  exact ⟨hphase, hdead, hstamps, hlag, hstrikes, hreported⟩

/-- The verdict can come 800 ms after a frame that it has counted, where `dead_after` is a
second, and 850 ms after a message that was reported. -/
theorem counted_frame_is_recent :
    (∃ w, Run step (fun _ _ => True) (start .default 0) oneFrame w ∧
      w.phase = .deciding 1000000000 0 ∧ (w.state.verdict 1000000000 0 w.cfg).2 = .dead ∧
      ∃ f ∈ w.counted, w.now < f.arrived + w.cfg.deadAfter 0) ∧
    ∃ w, Run step (fun _ _ => True) (start .default 0) slowReport w ∧
      w.phase = .deciding 1250000000 0 ∧ (w.state.verdict 1250000000 0 w.cfg).2 = .dead ∧
      w.now = 1250000000 ∧ ∃ e ∈ w.reported, e.stamp = 400000000 ∧
        w.now < e.stamp + w.cfg.deadAfter 0 :=
  ⟨Run.exists_of_exec (by decide +kernel), Run.exists_of_exec (by decide +kernel)⟩

end Watch

end Qsh.Client.PathWatch
