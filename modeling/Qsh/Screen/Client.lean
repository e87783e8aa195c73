import Qsh.Lib.Window
import Qsh.Screen.Parts

/-!
# The client's screen

`ClientScreen` in `client/screen.rs`.  It
takes the parts that the stream and the datagram carrier deliver, applies each
complete update to a screen it holds, and checks the result against the hash in
the update.

`u.apply` does not index out of range on a valid screen
(`ScreenDiff.safe_apply`), so what the model makes of a panic there does not
matter.
-/

namespace Qsh.Screen

open Qsh.Lib

inductive ResyncReason
  | hashMismatch
  | baseMismatch
  | badDiff
  deriving DecidableEq, Repr

/-- What became of a part. -/
inductive ScreenOutcome
  /-- More parts are needed. -/
  | incomplete
  | applied (newNum outputSeq : Nat) (effects : List Effect)
  | resync (reason : ResyncReason)
  /-- A full screen was requested and has not arrived yet. -/
  | ignored
  /-- Not newer than the state held, or a datagram update from a base that is
  not retained. -/
  | stale (held : Nat)
  deriving DecidableEq, Repr

def ScreenOutcome.ack : ScreenOutcome → Option Nat
  | .applied newNum _ _ => some newNum
  | .resync _ => some 0
  | .stale held => if held ≠ 0 then some held else none
  | .incomplete => none
  | .ignored => none

inductive Via
  | stream
  | datagram
  deriving DecidableEq, Repr

inductive ClientError
  | part (e : PartError)
  | update (e : DecodeError)
  deriving DecidableEq, Repr

/-- The states the client holds and the parts it collects. -/
structure ClientScreen where
  /-- Applied states, oldest first. -/
  history : List (Nat × ScreenState)
  outputSeq : Nat
  parts : Reassembler
  datagramParts : DatagramReassembler
  awaitingFull : Bool
  applied : Nat
  resyncs : Nat
  datagramDropped : Nat
  deriving DecidableEq

namespace ClientScreen

def RETAINED_STATES : Nat := 8

def new : ClientScreen where
  history := []
  outputSeq := 0
  parts := .new
  datagramParts := .new
  awaitingFull := false
  applied := 0
  resyncs := 0
  datagramDropped := 0

def state (c : ClientScreen) : Option ScreenState :=
  c.history.getLast?.map Prod.snd

def num (c : ClientScreen) : Nat :=
  (c.history.getLast?.map Prod.fst).getD 0

/-- Forgets all states and waits for the full screen. -/
def resync (c : ClientScreen) (reason : ResyncReason) : ClientScreen × ScreenOutcome :=
  ({ c with history := [], awaitingFull := true, resyncs := c.resyncs + 1 }, .resync reason)

/-- Keeps a new state, and the last few before it. -/
def hold (c : ClientScreen) (u : ScreenUpdate) (state : ScreenState) : ClientScreen :=
  { c with
    history := keepLast RETAINED_STATES (c.history ++ [(u.newNum, state)])
    outputSeq := u.outputSeq
    awaitingFull := false
    applied := c.applied + 1 }

def applyTo (blake3 : List UInt8 → Hash) (c : ClientScreen) (u : ScreenUpdate)
    (base : ScreenState) : ClientScreen × ScreenOutcome :=
  match u.apply blake3 base with
  | .ok state => (c.hold u state, .applied u.newNum u.outputSeq u.effects)
  | .error (.err .hashMismatch) => c.resync .hashMismatch
  | .error _ => c.resync .badDiff

/-- Applies an update to the base it names. -/
def applyVia (blake3 : List UInt8 → Hash) (c : ClientScreen) (u : ScreenUpdate) (via : Via) :
    ClientScreen × ScreenOutcome :=
  if c.awaitingFull ∧ u.baseNum ≠ 0 then (c, .ignored)
  else if c.num ≠ 0 ∧ (u.newNum < c.num ∨ (u.baseNum ≠ 0 ∧ u.newNum = c.num)) then
    (c, .stale c.num)
  else if u.baseNum = 0 then
    match ScreenState.blank u.diff.rows u.diff.cols with
    | .ok blank => c.applyTo blake3 u blank
    | .error _ => c.resync .badDiff
  else
    match c.history.find? fun p => p.1 = u.baseNum, via with
    | some p, _ => c.applyTo blake3 u p.2
    | none, .datagram => (c, .stale c.num)
    | none, .stream => c.resync .baseMismatch

/-- Feed one part from the stream.  An error is a host that broke the part
grammar or sent bytes that do not decode. -/
def onPart (blake3 : List UInt8 → Hash) (c : ClientScreen) (p : Part) :
    ClientScreen × Except ClientError ScreenOutcome :=
  let pushed := c.parts.push p
  let c := { c with parts := pushed.1 }
  match pushed.2 with
  | .error e => (c, .error (.part e))
  | .ok none => (c, .ok .incomplete)
  | .ok (some bytes) =>
      match ScreenUpdate.decode bytes with
      | .error e => (c, .error (.update e))
      | .ok u => ((c.applyVia blake3 u .stream).1, .ok (c.applyVia blake3 u .stream).2)

def onDatagramPart (blake3 : List UInt8 → Hash) (c : ClientScreen) (p : Part) :
    ClientScreen × ScreenOutcome :=
  let pushed := c.datagramParts.push p
  let c := { c with datagramParts := pushed.1 }
  match pushed.2 with
  | .error _ => ({ c with datagramDropped := c.datagramDropped + 1 }, .incomplete)
  | .ok none => (c, .incomplete)
  | .ok (some bytes) =>
      match ScreenUpdate.decode bytes with
      | .error _ => ({ c with datagramDropped := c.datagramDropped + 1 }, .incomplete)
      | .ok u => c.applyVia blake3 u .datagram

/-! ## What an update does -/

def base? (c : ClientScreen) (u : ScreenUpdate) : Option ScreenState :=
  if u.baseNum = 0 then (ScreenState.blank u.diff.rows u.diff.cols).toOption
  else (c.history.find? fun p => p.1 = u.baseNum).map Prod.snd

/-- The update is newer than what is held, or a full screen that is not
older. -/
def Fresh (c : ClientScreen) (u : ScreenUpdate) : Prop :=
  c.num ≠ 0 → c.num ≤ u.newNum ∧ (u.baseNum ≠ 0 → c.num < u.newNum)

inductive ApplyStep (blake3 : List UInt8 → Hash) (c : ClientScreen) (u : ScreenUpdate) (via : Via) :
    ClientScreen × ScreenOutcome → Prop
  | ignored (hawait : c.awaitingFull = true) (hbase : u.baseNum ≠ 0) :
      ApplyStep blake3 c u via (c, .ignored)
  | stale (hold : ¬c.Fresh u ∨ via = .datagram ∧ u.baseNum ≠ 0 ∧ c.base? u = none) :
      ApplyStep blake3 c u via (c, .stale c.num)
  | resync (reason : ResyncReason) (hfresh : c.Fresh u)
      (hwhy : c.base? u = none ∧ (via = .datagram → u.baseNum = 0) ∨
        ∃ b e, c.base? u = some b ∧ u.apply blake3 b = .error e) :
      ApplyStep blake3 c u via (c.resync reason)
  | applied (b t : ScreenState) (hfresh : c.Fresh u) (hbase : c.base? u = some b)
      (happly : u.apply blake3 b = .ok t) :
      ApplyStep blake3 c u via (c.hold u t, .applied u.newNum u.outputSeq u.effects)

variable {blake3 : List UInt8 → Hash} {c : ClientScreen}

variable {u : ScreenUpdate}

theorem applyTo_step {via : Via} {b : ScreenState} (hfresh : c.Fresh u)
    (hbase : c.base? u = some b) : ApplyStep blake3 c u via (c.applyTo blake3 u b) := by
  unfold applyTo
  split
  · rename_i t ht
    exact .applied b t hfresh hbase ht
  · rename_i e he
    exact .resync _ hfresh (.inr ⟨b, _, hbase, he⟩)
  · rename_i e _ he
    exact .resync _ hfresh (.inr ⟨b, _, hbase, he⟩)

theorem applyVia_step (blake3 : List UInt8 → Hash) (c : ClientScreen) (u : ScreenUpdate)
    (via : Via) : ApplyStep blake3 c u via (c.applyVia blake3 u via) := by
  unfold applyVia
  split_ifs with hawait hold hzero
  · exact .ignored hawait.1 hawait.2
  · refine .stale (.inl fun hfresh => ?_)
    obtain ⟨hle, hlt⟩ := hfresh hold.1
    omega
  · have hfresh : c.Fresh u := fun hne => ⟨by omega, fun _ => by omega⟩
    cases hb : ScreenState.blank u.diff.rows u.diff.cols with
    | ok b => exact applyTo_step hfresh (by rw [base?, if_pos hzero, hb]; rfl)
    | error e =>
      exact .resync _ hfresh (.inl ⟨by rw [base?, if_pos hzero, hb]; rfl, fun _ => hzero⟩)
  have hfresh : c.Fresh u := fun hne => ⟨by omega, fun _ => by omega⟩
  have hbase : c.base? u = (c.history.find? fun p => p.1 = u.baseNum).map Prod.snd :=
    if_neg hzero
  cases hfind : c.history.find? fun p => p.1 = u.baseNum with
  | some p => exact applyTo_step hfresh (by rw [hbase, hfind]; rfl)
  | none =>
    rw [hfind] at hbase
    cases via with
    | datagram => exact .stale (.inr ⟨rfl, hzero, hbase⟩)
    | stream => exact .resync _ hfresh (.inl ⟨hbase, nofun⟩)

theorem ApplyStep.parts {via : Via} {r : ClientScreen × ScreenOutcome}
    (h : ApplyStep blake3 c u via r) :
    r.1.parts = c.parts ∧ r.1.datagramParts = c.datagramParts := by
  cases h with
  | ignored | stale | resync | applied => exact ⟨rfl, rfl⟩

/-! ## What a part does -/

def decoded (out : Except PartError (Option (List UInt8))) : Option ScreenUpdate :=
  out.toOption.join.bind fun bytes => (ScreenUpdate.decode bytes).toOption

theorem decoded_eq_some {out : Except PartError (Option (List UInt8))} (h : decoded out = some u) :
    ∃ bytes, out = .ok (some bytes) ∧ ScreenUpdate.decode bytes = .ok u := by
  obtain ⟨bytes, hbytes, hdec⟩ := Option.bind_eq_some_iff.1 h
  refine ⟨bytes, ?_, ?_⟩
  · cases out with
    | error e => cases hbytes
    | ok o =>
      cases o with
      | none => cases hbytes
      | some b => cases hbytes; rfl
  · cases hu : ScreenUpdate.decode bytes with
    | error e => rw [hu] at hdec; cases hdec
    | ok u' => rw [hu] at hdec; cases hdec; rfl

theorem decoded_of_ok {bytes : List UInt8}
    (h : ScreenUpdate.decode bytes = .ok u) : decoded (.ok (some bytes)) = some u := by
  show (ScreenUpdate.decode bytes).toOption = some u
  rw [h]
  rfl

/-- A part that the client takes from the stream completes an update, which is
applied, or completes none. -/
theorem onPart_cases {p : Part} {c' : ClientScreen} {o : ScreenOutcome}
    (h : c.onPart blake3 p = (c', .ok o)) :
    ((c.parts.push p).2 = .ok none ∧ c' = { c with parts := (c.parts.push p).1 } ∧
      o = .incomplete) ∨
    ∃ u, decoded (c.parts.push p).2 = some u ∧
      ({ c with parts := (c.parts.push p).1 } : ClientScreen).applyVia blake3 u .stream =
        (c', o) := by
  unfold onPart at h
  cases hout : (c.parts.push p).2 with
  | error e =>
    simp only [hout] at h
    cases h
  | ok out =>
    cases out with
    | none =>
      simp only [hout, Prod.mk.injEq, Except.ok.injEq] at h
      exact .inl ⟨rfl, h.1.symm, h.2.symm⟩
    | some bytes =>
      cases hdec : ScreenUpdate.decode bytes with
      | error e =>
        simp only [hout, hdec] at h
        cases h
      | ok u =>
        simp only [hout, hdec, Prod.mk.injEq, Except.ok.injEq] at h
        exact .inr ⟨u, decoded_of_ok hdec, Prod.ext h.1 h.2⟩

theorem onDatagramPart_cases (blake3 : List UInt8 → Hash) (c : ClientScreen) (p : Part) :
    (∃ dropped, decoded (c.datagramParts.push p).2 = none ∧ c.onDatagramPart blake3 p =
      ({ c with datagramParts := (c.datagramParts.push p).1, datagramDropped := dropped },
        .incomplete)) ∨
    ∃ u, decoded (c.datagramParts.push p).2 = some u ∧ c.onDatagramPart blake3 p =
      ({ c with datagramParts := (c.datagramParts.push p).1 } : ClientScreen).applyVia blake3 u
        .datagram := by
  cases hout : (c.datagramParts.push p).2 with
  | error e => exact .inl ⟨c.datagramDropped + 1, rfl, by simp only [onDatagramPart, hout]⟩
  | ok out =>
    cases out with
    | none => exact .inl ⟨c.datagramDropped, rfl, by simp only [onDatagramPart, hout]⟩
    | some bytes =>
      cases hdec : ScreenUpdate.decode bytes with
      | error e =>
        exact .inl ⟨c.datagramDropped + 1, congrArg Except.toOption hdec,
          by simp only [onDatagramPart, hout, hdec]⟩
      | ok u => exact .inr ⟨u, decoded_of_ok hdec, by simp only [onDatagramPart, hout, hdec]⟩

end ClientScreen

end Qsh.Screen
