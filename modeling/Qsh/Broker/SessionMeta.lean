import Qsh.Lib.OrdMap
import Qsh.Broker.Ring

/-!
# The metadata of a session

`Meta` in `broker/session.rs`, the state behind the session's lock, with the writer lease
of `broker/lease.rs`: lifecycle, lease, attachments with the TTL base, and the applied
offset of each input axis.

Each operation is one critical section.  `enqueueWrite` takes the lock twice and is one step
all the same: the actor serialises writes, and a seed that comes in between finds the axis
as it was before the write.  The outcome of `try_send` on the input queue is an argument.

Ids, instants and offsets are `Nat`.
-/

namespace Qsh.Broker

open Qsh.Lib

/-! ## The writer lease -/

/-- The current lease holder.  `conn` is the identity an asker is compared
with, and `physical` the connection the lease is released on. -/
structure LeaseHolder where
  principal : String
  conn : Nat
  physical : Nat
  deriving DecidableEq, Repr

inductive TakeOutcome
  | acquired (displaced : Option LeaseHolder) (changed : Bool)
  | conflict (holder : LeaseHolder)
  deriving DecidableEq, Repr

structure WriterLease where
  holder : Option LeaseHolder
  deriving DecidableEq, Repr

namespace WriterLease

def isHeldBy (l : WriterLease) (conn : Nat) : Bool :=
  l.holder.any (fun h => h.conn == conn)

/-- Takes the lease, from its holder unless `no_steal` forbids it. -/
def takeOwned (l : WriterLease) (principal : String) (owner physical : Nat)
    (noSteal : Bool) : WriterLease × TakeOutcome :=
  let replace : WriterLease × TakeOutcome :=
    (⟨some { principal := principal, conn := owner, physical := physical }⟩,
      .acquired l.holder true)
  match l.holder with
  | some h =>
      if h.conn = owner then (l, .acquired none false)
      else if noSteal ∧ h.principal ≠ principal then (l, .conflict h)
      else replace
  | none => replace

def releaseConnection (l : WriterLease) (physical : Nat) :
    WriterLease × Option LeaseHolder :=
  if l.holder.any (fun h => h.physical == physical) then (⟨none⟩, l.holder)
  else (l, none)

end WriterLease

/-! ## The metadata -/

inductive SessionState
  | running
  | exited
  deriving DecidableEq, Repr

def FIRST_INPUT_STREAM : Nat := 1

def MAX_INPUT_AXES : Nat := 32

/-- The state of a session that its calls share. -/
structure Meta where
  state : SessionState
  lease : WriterLease
  attached : Nat
  ttlBase : Nat
  appliedInput : OrdMap Nat Nat
  nextInputStream : Nat
  closing : Bool
  closedAt : Option Nat

def Meta.new (now : Nat) : Meta where
  state := .running
  lease := ⟨none⟩
  attached := 0
  ttlBase := now
  appliedInput := OrdMap.empty.insert FIRST_INPUT_STREAM 0
  nextInputStream := FIRST_INPUT_STREAM + 1
  closing := false
  closedAt := none

/-! ## Input axes -/

def pruneLoop : Nat → OrdMap Nat Nat → OrdMap Nat Nat
  | 0, axes => axes
  | fuel + 1, axes =>
      if MAX_INPUT_AXES < axes.size then pruneLoop fuel axes.dropMin else axes

/-- Drops the oldest axes beyond the limit. -/
def pruneInputAxes (axes : OrdMap Nat Nat) : OrdMap Nat Nat :=
  pruneLoop axes.size axes

theorem pruneInputAxes_eq_self {axes : OrdMap Nat Nat} (h : axes.size ≤ MAX_INPUT_AXES) :
    pruneInputAxes axes = axes := by
  unfold pruneInputAxes
  cases axes.size with
  | zero => rfl
  | succ n =>
    unfold pruneLoop
    rw [if_neg (not_lt.2 h)]

namespace Meta

/-- The offset applied on an axis, 0 for one that is not in the map. -/
def applied (m : Meta) (stream : Nat) : Nat :=
  (m.appliedInput.get? stream).getD 0

theorem applied_of_insert {m m' : Meta} {stream offset : Nat}
    (h : m'.appliedInput = m.appliedInput.insert stream offset) (axis : Nat) :
    m'.applied axis = if axis = stream then offset else m.applied axis := by
  unfold applied
  rw [h, OrdMap.get?_insert]
  split <;> rfl

def reserveInputStream (m : Meta) : Meta × Nat :=
  ({ m with nextInputStream := m.nextInputStream + 1 }, m.nextInputStream)

/-- The new axis starts where the axis of the old token stands. -/
def seedInputStream (m : Meta) (id : Nat) (from_ : Option Nat) : Meta × Nat :=
  let start := (from_.bind m.appliedInput.get?).getD 0
  ({ m with appliedInput := pruneInputAxes (m.appliedInput.insert id start) }, start)

end Meta

inductive SendOutcome
  | ok
  | full
  | closed
  deriving DecidableEq, Repr

inductive WriteError
  | notRunning
  | notWriter
  | inputGap (start applied : Nat)
  | backpressure
  | gone
  deriving DecidableEq, Repr

/-- What `enqueueWrite` did with a chunk: it put `data` on the input queue, to
be answered with `next` once written, or answered at once. -/
inductive WriteReply
  | queued (data : List UInt8) (next : Nat)
  | applied (offset : Nat)
  | refused (err : WriteError)
  deriving DecidableEq, Repr

namespace Meta

variable (m : Meta)

/-- State and lease, before anything else is looked at. -/
def admission (conn : Nat) : Option WriteError :=
  if m.state ≠ .running ∨ m.closing = true then some .notRunning
  else if m.lease.isHeldBy conn = true then none
  else some .notWriter

/-- A refused chunk counts as applied, so that the next one is no gap. -/
def refuse (inputSeq : Option (Nat × Nat)) : Meta :=
  match inputSeq with
  | none => m
  | some (stream, seq) =>
      { m with appliedInput :=
          pruneInputAxes (m.appliedInput.insert stream (max (m.applied stream) seq)) }

/-- Sends to the source's queue and advances the axis if it fits. -/
def trySend (send : SendOutcome) (data : List UInt8) (next : Nat)
    (axis : Option Nat) : Meta × WriteReply :=
  match send with
  | .ok =>
      (match axis with
        | some stream => { m with appliedInput := m.appliedInput.insert stream next }
        | none => m,
        .queued data next)
  | .full => (m, .refused .backpressure)
  | .closed => (m, .refused .gone)

/-- Admit one input chunk: state and lease, then the cursor of its axis, then
the bounded queue.  `inputSeq` is the axis and the offset after the chunk. -/
def enqueueWrite (conn : Nat) (data : List UInt8)
    (inputSeq : Option (Nat × Nat)) (send : SendOutcome) : Meta × WriteReply :=
  match m.admission conn with
  | some err => (m.refuse inputSeq, .refused err)
  | none =>
      match inputSeq with
      -- the value op injects out of band and moves no axis
      | none => m.trySend send data 0 none
      | some (stream, seq) =>
          let applied := m.applied stream
          if seq < data.length then (m, .refused (.inputGap seq applied))
          else if applied < seq - data.length then
            (m, .refused (.inputGap (seq - data.length) applied))
          else
            let skip := applied - (seq - data.length)
            if data.length ≤ skip then (m, .applied applied)
            else m.trySend send (data.drop skip) seq (some stream)

/-! ## Attachments and TTL -/

def attachGuard : Meta :=
  { m with attached := m.attached + 1 }

def dropGuard (now : Nat) : Meta :=
  { m with
    attached := m.attached - 1
    ttlBase := if m.attached - 1 = 0 then now else m.ttlBase }

def setStateExited (now : Nat) : Meta :=
  { m with state := .exited, ttlBase := now }

def markClosed (now : Nat) : Meta :=
  { m with closing := true, closedAt := some now }

/-- Why the reaper may close the session now, if it may. -/
def reapReason (now ttl : Nat) : Option CloseReason :=
  if 0 < m.attached ∨ m.closing = true then none
  else if now - m.ttlBase < ttl then none
  else
    match m.state with
    | .exited => some .exit
    | .running => some .ttlExpired

def deadline (now ttl : Nat) : Nat :=
  if 0 < m.attached then now + ttl else m.ttlBase + ttl

end Meta

end Qsh.Broker
