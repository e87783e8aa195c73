import Qsh.Lib.Run
import Qsh.Lib.Sketch
import Mathlib.Algebra.Group.Nat.Defs

/-!
# The admission gate

`admission.rs` decides about a handshake before anything is spent on it.  An attempt from
an address that is not validated is answered with a Retry, or ignored when its source is
over its rate; a validated one is refused over its own rate, and otherwise competes for a
permit.

Each rate limit has a count-min sketch over keys of sources (`Qsh.Lib.Sketch`), whose hash
functions are a parameter.  Times are nanoseconds, the weight of the previous epoch is an
exact fraction, rounded down, and counters of 32 bits wrap around.
-/

namespace Qsh.Admission

open Qsh.Lib

def U32_MAX : Nat := 2 ^ 32 - 1

/-! ## Sources -/

inductive IpAddr where
  | v4 (bits : BitVec 32)
  | v6 (segments : Vector (BitVec 16) 8)
  deriving DecidableEq

structure SocketAddr where
  ip : IpAddr
  port : BitVec 16
  deriving DecidableEq

/-- `IpAddr::to_canonical`: an IPv4-mapped address is the IPv4 address. -/
def IpAddr.toCanonical : IpAddr → IpAddr
  | .v4 bits => .v4 bits
  | .v6 s =>
      if s[0] = 0 ∧ s[1] = 0 ∧ s[2] = 0 ∧ s[3] = 0 ∧ s[4] = 0 ∧ s[5] = 0xffff then
        .v4 (s[6] ++ s[7])
      else .v6 s

/-- An IPv4 address, or the upper 64 bits of an IPv6 address. -/
inductive SourceKey where
  | v4 (bits : BitVec 32)
  | v6 (net : BitVec 64)
  deriving DecidableEq

def SourceKey.fromAddr (addr : IpAddr) : SourceKey :=
  match addr.toCanonical with
  | .v4 bits => .v4 bits
  | .v6 s => .v6 (s[0] ++ s[1] ++ s[2] ++ s[3])

/-! ## Rates -/

def EPOCH : Nat := 2000000000

def EPOCH_SECS : Nat := 2

def SKETCH_COLS : Nat := 1024

def saturatingAdd32 (a b : Nat) : Nat := min (a + b) U32_MAX

/-- What is left of the count of the previous epoch at this time of the current
one. -/
def weighted (previous elapsed : Nat) : Nat := previous * (EPOCH - elapsed % EPOCH) / EPOCH

def leastOfRows (row : Fin 4 → Nat) : Nat :=
  [0, 1, 2, 3].foldl (fun estimate r => min estimate (row r)) U32_MAX

/-- Counts one attempt and gives the estimate of the sliding window. -/
def recordAndEstimate (s : Sketch (Fin 4)) (col : Fin 4 → Nat) (elapsed : Nat) :
    Sketch (Fin 4) × Nat :=
  let epoch := elapsed / EPOCH
  let s := (s.advanceTo epoch).bump (2 ^ 32) col epoch
  (s, leastOfRows fun r =>
    saturatingAdd32 (s.cells (Sketch.gen epoch) r (col r))
      (weighted (s.cells (!Sketch.gen epoch) r (col r)) elapsed))

/-! ## Rejections -/

inductive RejectReason where
  | rateLimited
  | atCapacity
  | validatedRateLimited
  deriving DecidableEq

def RejectReason.category : RejectReason → String
  | .rateLimited => "rate_limited"
  | .atCapacity => "at_capacity"
  | .validatedRateLimited => "validated_rate_limited"

inductive AuditRecord where
  | handshakeRejected (peer : SocketAddr) (category : String)
  | handshakeRejectedSummary (category : String) (count : Nat)
  deriving DecidableEq

def AUDIT_AGGREGATION_WINDOW : Nat := 10000000000

/-- The audit window of one reason. -/
structure WindowState where
  start : Option Nat
  suppressed : Nat
  deriving DecidableEq

/-- The first rejection of a window is a record; the others are counted. -/
def recordRejection (w : WindowState) (reason : RejectReason) (peer : SocketAddr) (now : Nat) :
    WindowState × List AuditRecord :=
  if w.start.all fun start => AUDIT_AGGREGATION_WINDOW ≤ now - start then
    ({ start := some now, suppressed := 0 }, (if 0 < w.suppressed then
        [.handshakeRejectedSummary reason.category w.suppressed] else []) ++
        [.handshakeRejected peer reason.category])
  else ({ w with suppressed := saturatingAdd32 w.suppressed 1 }, [])

def flushWindow (w : WindowState) (now : Nat) : WindowState :=
  if w.start.any fun start => AUDIT_AGGREGATION_WINDOW ≤ now - start then
    { start := none, suppressed := 0 }
  else w

/-- The answer to an incoming connection. -/
inductive Decision where
  | retry
  | ignore (reason : RejectReason) (records : List AuditRecord)
  | refuse (reason : RejectReason) (records : List AuditRecord)
  | admitted
  deriving DecidableEq

def Decision.reachesSemaphore : Decision → Bool
  | .refuse .atCapacity _ => true
  | .admitted => true
  | _ => false

/-! ## The gate -/

structure GateConfig where
  origin : Nat
  maxConcurrentHandshakes : Nat
  /-- `rate_per_source` (`false`) and `validated_rate_per_source` (`true`). -/
  rate : Bool → Nat
  /-- The hash functions of the four rows of each sketch. -/
  hash : Bool → Fin 4 → SourceKey → Nat

def GateConfig.column (cfg : GateConfig) (validated : Bool) (r : Fin 4) (key : SourceKey) : Nat :=
  cfg.hash validated r key % SKETCH_COLS

/-- One attempt with its answer, for the log. -/
structure Decided where
  key : SourceKey
  epoch : Nat
  validated : Bool
  decision : Decision

structure Gate where
  cfg : GateConfig
  /-- The sketch of unvalidated (`false`) and of validated (`true`) attempts. -/
  sketch : Bool → Sketch (Fin 4)
  available : Nat
  windows : RejectReason → WindowState
  /-- The time of the last call. -/
  clock : Nat
  outstanding : Nat
  log : List Decided

inductive GateOp where
  | decide (peer : SocketAddr) (validated : Bool) (now : Nat)
  | flushExpired (now : Nat)
  /-- A permit is dropped. -/
  | release

namespace Gate

def new (cfg : GateConfig) : Gate where
  cfg
  sketch := fun _ => .empty
  available := cfg.maxConcurrentHandshakes
  windows := fun _ => ⟨none, 0⟩
  clock := cfg.origin
  outstanding := 0
  log := []

variable (g : Gate)

def elapsed (now : Nat) : Nat := now - g.cfg.origin

def burstLimit (rate : Nat) : Nat := min (rate * EPOCH_SECS) U32_MAX

/-- Counts the attempt and compares the estimate with the limit. -/
def rateExceeded (validated : Bool) (peer : SocketAddr) (now : Nat) :
    Sketch (Fin 4) × Bool :=
  let key := SourceKey.fromAddr peer.ip
  let (s, estimate) :=
    recordAndEstimate (g.sketch validated) (fun r => g.cfg.column validated r key) (g.elapsed now)
  (s, burstLimit (g.cfg.rate validated) < estimate)

def setSketch (validated : Bool) (s : Sketch (Fin 4)) : Gate :=
  { g with sketch := fun v => if v = validated then s else g.sketch v }

/-- Records the rejection in the window of its reason. -/
def reject (reason : RejectReason) (peer : SocketAddr) (now : Nat) :
    Gate × List AuditRecord :=
  let (w, records) := recordRejection (g.windows reason) reason peer now
  ({ g with windows := fun r => if r = reason then w else g.windows r }, records)

/-- Rate first, then a retry for what is not validated, then the semaphore. -/
def decide (peer : SocketAddr) (validated : Bool) (now : Nat) : Gate × Decision :=
  let (s, exceeded) := g.rateExceeded validated peer now
  let g := g.setSketch validated s
  if !validated then
    if exceeded then
      let (g, records) := g.reject .rateLimited peer now
      (g, .ignore .rateLimited records)
    else (g, .retry)
  else if exceeded then
    let (g, records) := g.reject .validatedRateLimited peer now
    (g, .refuse .validatedRateLimited records)
  else if 0 < g.available then
    ({ g with available := g.available - 1, outstanding := g.outstanding + 1 }, .admitted)
  else
    let (g, records) := g.reject .atCapacity peer now
    (g, .refuse .atCapacity records)

/-- One call.  Calls come at times that do not decrease. -/
def step : GateOp → Option Gate
  | .decide peer validated now =>
      if g.clock ≤ now then
        let (g', decision) := g.decide peer validated now
        some { g' with
          clock := now
          log := g.log ++
            [⟨SourceKey.fromAddr peer.ip, g.elapsed now / EPOCH, validated, decision⟩] }
      else none
  | .flushExpired now =>
      if g.clock ≤ now then
        some { g with clock := now, windows := fun r => flushWindow (g.windows r) now }
      else none
  | .release =>
      some (if 0 < g.outstanding then
        { g with available := g.available + 1, outstanding := g.outstanding - 1 } else g)

/-- The counter that an attempt raises in a row, before it does. -/
def counter (peer : SocketAddr) (validated : Bool) (now : Nat) (r : Fin 4) : Nat :=
  ((g.sketch validated).advanceTo (g.elapsed now / EPOCH)).cells
    (Sketch.gen (g.elapsed now / EPOCH)) r
    (g.cfg.column validated r (SourceKey.fromAddr peer.ip))

/-- No counter that this attempt adds to stands at its maximum. -/
def Unwrapped : GateOp → Prop
  | .decide peer validated now => ∀ r, g.counter peer validated now r < U32_MAX
  | _ => True

instance (g : Gate) (op : GateOp) : Decidable (g.Unwrapped op) :=
  match op with
  | .decide peer validated now =>
      inferInstanceAs (Decidable (∀ r, g.counter peer validated now r < U32_MAX))
  | .flushExpired _ => isTrue trivial
  | .release => isTrue trivial

def retries (key : SourceKey) (epoch : Nat) : Nat :=
  g.log.countP fun d =>
    !d.validated && d.key = key && d.epoch = epoch && d.decision = .retry

def handshakes (key : SourceKey) (epoch : Nat) : Nat :=
  g.log.countP fun d =>
    d.validated && d.key = key && d.epoch = epoch && d.decision.reachesSemaphore

def validatedLog : List Decided :=
  g.log.filter (·.validated)

end Gate

def GateOp.ofSource (key : SourceKey) : GateOp → Bool
  | .decide peer _ _ => SourceKey.fromAddr peer.ip = key
  | _ => true

def GateOp.notUnvalidated : GateOp → Bool
  | .decide _ validated _ => validated
  | _ => true

end Qsh.Admission
