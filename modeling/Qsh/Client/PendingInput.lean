import Qsh.Lib.Slice

/-!
# The client's unacknowledged input

`PendingInput` in `client/reconnect.rs`.

Offsets are those of the session's cumulative input, so the buffer is the slice of
everything typed between `acked` and `sent`.  `PendingInput.Holds` says that, and each
operation keeps it.

The number of bytes that are typed in one session stays below the width of the
source's `u64`, so offsets are `Nat`.
-/

namespace Qsh.Client

open Qsh.Lib

def UNACKED_INPUT_MAX : Nat := 64 * 1024

inductive ResumeError
  | unackedInputOverflow (unacked : Nat)
  | inputUnrecoverable (applied oldest : Nat)
  deriving DecidableEq, Repr

/-- The input that was sent and is not acknowledged. -/
structure PendingInput where
  acked : Nat
  sent : Nat
  buf : List UInt8
  deriving DecidableEq, Repr

namespace PendingInput

def new (base : Nat) : PendingInput :=
  { acked := base, sent := base, buf := [] }

/-- Keeps the bytes until they are acknowledged, if there is room. -/
def push (p : PendingInput) (data : List UInt8) : Except ResumeError (PendingInput × Nat) :=
  if UNACKED_INPUT_MAX < p.buf.length + data.length then
    .error (.unackedInputOverflow (p.buf.length + data.length))
  else
    .ok ({ p with buf := p.buf ++ data, sent := p.sent + data.length }, p.sent + data.length)

def ack (p : PendingInput) (ackedInputSeq : Nat) : PendingInput :=
  let acked := min ackedInputSeq p.sent
  if acked ≤ p.acked then p
  else
    { p with
      buf := p.buf.drop (min (acked - p.acked) p.buf.length)
      acked := acked }

/-- What to send again when the host has applied this much. -/
def rebase (p : PendingInput) (applied : Nat) :
    Except ResumeError (PendingInput × List UInt8) :=
  if applied < p.acked then .error (.inputUnrecoverable applied p.acked)
  else if p.sent ≤ applied then .ok ({ acked := applied, sent := applied, buf := [] }, [])
  else
    let buf := p.buf.drop (applied - p.acked)
    .ok ({ p with buf := buf, acked := applied }, buf)

/-- The buffer is the unacknowledged end of what was typed. -/
structure Holds (p : PendingInput) (typed : List UInt8) : Prop where
  sent : p.sent = typed.length
  acked : p.acked ≤ p.sent
  buf : p.buf = slice typed p.acked typed.length

namespace Holds

variable {p : PendingInput} {typed : List UInt8}

theorem new : Holds (.new 0) [] where
  sent := rfl
  acked := Nat.le_refl _
  buf := rfl

theorem push (hp : p.Holds typed) {data : List UInt8} {q : PendingInput} {n : Nat}
    (h : p.push data = .ok (q, n)) : q.Holds (typed ++ data) := by
  unfold PendingInput.push at h
  split at h
  · nomatch h
  cases h
  have hsent := hp.sent
  have hacked := hp.acked
  refine ⟨by simp [hsent], by dsimp only; omega, ?_⟩
  show p.buf ++ data = slice (typed ++ data) p.acked (typed ++ data).length
  have hend : (typed ++ data).length = typed.length + data.length := List.length_append
  rw [hend, ← slice_append_slice (j := typed.length) (by omega) (by omega),
    slice_append_left (Nat.le_refl _), slice_append_right, hp.buf]

theorem ack (hp : p.Holds typed) (n : Nat) : (p.ack n).Holds typed := by
  unfold PendingInput.ack
  dsimp only
  split
  · exact hp
  have hsent := hp.sent
  have hlen : p.buf.length = typed.length - p.acked := by
    rw [hp.buf, length_slice (Nat.le_refl _)]
  refine ⟨hsent, Nat.min_le_right _ _, ?_⟩
  have hmin : min (min n p.sent - p.acked) p.buf.length = min n p.sent - p.acked := by omega
  have hstart : p.acked + (min n p.sent - p.acked) = min n p.sent := by omega
  rw [hmin, hp.buf, drop_slice, hstart]

theorem rebase (hp : p.Holds typed) {applied : Nat} (happlied : applied ≤ typed.length)
    {q : PendingInput} {tail : List UInt8} (h : p.rebase applied = .ok (q, tail)) :
    q.Holds typed ∧ tail = slice typed applied typed.length := by
  have hsent := hp.sent
  unfold PendingInput.rebase at h
  split at h
  · nomatch h
  split at h
  · cases h
    obtain rfl : applied = typed.length := by omega
    exact ⟨⟨rfl, Nat.le_refl _, by simp⟩, by simp⟩
  cases h
  have htail : p.buf.drop (applied - p.acked) = slice typed applied typed.length := by
    have hstart : p.acked + (applied - p.acked) = applied := by omega
    rw [hp.buf, drop_slice, hstart]
  exact ⟨⟨hsent, by dsimp only; omega, htail⟩, htail⟩

end Holds

end PendingInput

end Qsh.Client
