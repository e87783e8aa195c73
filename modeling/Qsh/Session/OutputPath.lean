import Qsh.Broker.RingFollower
import Qsh.Client.OutputCursor

/-!
# The output path across legs

`output_pump` (`session_stream.rs`) and the whole way of a session's output: the ring,
any number of legs with a pump and a stream each, and the client's `OutputCursor` behind
all of them.

A leg's pump starts at `min(last_output_seq, ring end)`.  The client reads its cursor
before it dials, so the host may see an older value.  Frames in flight on a dead leg may
come late, in any interleaving with those of the legs after it.

The invariant of a leg: the frames in flight continue the stream from an offset the
client has already reached.
-/

namespace Qsh.Session

open Qsh.Lib Qsh.Broker Qsh.Client List

/-! ## The pump -/

def SESSION_CHUNK_MAX : Nat := 16 * 1024

def SESSION_STREAM_PULL_BYTES : Nat := 4 * SESSION_CHUNK_MAX

/-- The frames of one output event: `data.chunks(SESSION_CHUNK_MAX)`, each with
the offset after it.  The length of the data is enough fuel. -/
def outputFrames : Nat → Nat → List UInt8 → List AttachEvent
  | 0, _, _ => []
  | fuel + 1, offset, data =>
      if data = [] then []
      else
        let chunk := data.take SESSION_CHUNK_MAX
        .output (offset + chunk.length) chunk ::
          outputFrames fuel (offset + chunk.length) (data.drop SESSION_CHUNK_MAX)

structure Batch where
  frames : List AttachEvent
  exited : Bool
  closed : Bool
  deriving DecidableEq, Repr

/-- The `for` loop of `output_pump` over the events of one pull.  It returns at
a `Closed`, and a `WriterChanged` goes out on the control stream only. -/
def pumpEvents : List ReplayEvent → Batch
  | [] => { frames := [], exited := false, closed := false }
  | .output sequence data :: rest =>
      let b := pumpEvents rest
      { b with frames := outputFrames data.length (sequence - data.length) data ++ b.frames }
  | .gap requestedAfter availableFrom :: rest =>
      let b := pumpEvents rest
      { b with frames := .gap requestedAfter availableFrom :: b.frames }
  | .control sequence _ (.exit exitCode signal) :: rest =>
      let b := pumpEvents rest
      { b with frames := .exit sequence (exitCode.getD (-1)) signal :: b.frames, exited := true }
  | .control _ _ (.closed _) :: _ => { frames := [], exited := false, closed := true }
  | .control _ _ (.writerChanged _) :: rest => pumpEvents rest

/-- The reader of the ring for one attach. -/
structure OutputPump where
  cursor : Cursor
  exitGraceUsed : Bool
  done : Bool
  deriving DecidableEq, Repr

/-- One round of `output_pump`: pull, and the frames it sends.  After an `Exit`
without a `Closed` there is one more pull. -/
def OutputPump.pull (pump : OutputPump) (ring : ReplayRing) :
    OutputPump × List AttachEvent :=
  if pump.done then (pump, [])
  else
    match ring.read pump.cursor SESSION_STREAM_PULL_BYTES with
    | .error _ => ({ pump with done := true }, [])
    | .ok out =>
        let b := pumpEvents out.events
        ({ cursor := out.next
           exitGraceUsed := pump.exitGraceUsed || b.exited
           done := b.closed || (!b.exited && pump.exitGraceUsed) },
          b.frames)

/-! ## The path -/

structure Leg where
  pump : OutputPump
  wire : List AttachEvent
  deriving DecidableEq, Repr

/-- The session's ring, every leg there has been, and the client: its cursor,
every frame that a leg brought, and what the cursor let through of them. -/
structure OutputPath where
  ring : ReplayRing
  legs : List Leg
  cursor : OutputCursor
  brought : List AttachEvent
  shown : List AttachEvent
  deriving DecidableEq, Repr

inductive PathOp
  | push (data : List UInt8)
  | pushControl (event : ControlEvent)
  | attach (lastOutputSeq : Nat)
  | pull (leg : Nat)
  | deliver (leg : Nat)
  deriving DecidableEq, Repr

def OutputPath.new (budget : Nat) : OutputPath :=
  { ring := .new budget, legs := [], cursor := ⟨0⟩, brought := [], shown := [] }

def Leg.attach (ring : ReplayRing) (lastOutputSeq : Nat) : Leg :=
  { pump :=
      { cursor := .fromOffset (min lastOutputSeq ring.endSeq)
        exitGraceUsed := false
        done := false }
    wire := [] }

/-- A step that cannot be taken changes nothing: no such leg, nothing in
flight on it, or a position the client never had. -/
def OutputPath.step (s : OutputPath) : PathOp → OutputPath
  | .push data => { s with ring := s.ring.push data }
  | .pushControl event => { s with ring := s.ring.pushControl event }
  | .attach lastOutputSeq =>
      if lastOutputSeq ≤ s.cursor.lastSeq then
        { s with legs := s.legs ++ [.attach s.ring lastOutputSeq] }
      else s
  | .pull i =>
      match s.legs[i]? with
      | none => s
      | some leg =>
          let (pump, frames) := leg.pump.pull s.ring
          { s with legs := s.legs.set i { pump := pump, wire := leg.wire ++ frames } }
  | .deliver i =>
      match s.legs[i]? with
      | some { pump := pump, wire := frame :: wire } =>
          let (cursor, event) := s.cursor.accept frame
          { s with
            legs := s.legs.set i { pump := pump, wire := wire }
            cursor := cursor
            brought := s.brought ++ [frame]
            shown := s.shown ++ event.toList }
      | _ => s

def PathOp.record (h : History) : PathOp → History
  | .push data => h.push data
  | .pushControl event => h.pushControl event
  | _ => h

/-! ## What the pump sends -/

theorem outputFrames_framed {bytes : List UInt8} (fuel : Nat) {p : Nat} {data : List UInt8}
    (hfuel : data.length ≤ fuel) (hend : p + data.length ≤ bytes.length)
    (hd : slice bytes p (p + data.length) = data) :
    Framed bytes p (outputFrames fuel p data) (p + data.length) := by
  induction fuel generalizing p data with
  | zero =>
    have hnil : data = [] := eq_nil_of_length_eq_zero (by omega)
    subst hnil
    exact .nil p
  | succ fuel ih =>
    unfold outputFrames
    obtain rfl | hnil := eq_or_ne data []
    · exact .nil p
    rw [if_neg hnil]
    dsimp only
    have hpos : 0 < (data.take SESSION_CHUNK_MAX).length := by
      rw [length_take]
      exact Nat.lt_min.2 ⟨by decide, length_pos_iff.2 hnil⟩
    have hsplit := take_append_drop SESSION_CHUNK_MAX data
    generalize data.take SESSION_CHUNK_MAX = chunk, data.drop SESSION_CHUNK_MAX = rest at *
    subst hsplit
    rw [length_append, ← Nat.add_assoc] at hend hd ⊢
    rw [length_append] at hfuel
    have hchunk := take_slice bytes (Nat.le_add_right (p + chunk.length) rest.length)
    have hrest := drop_slice bytes p (p + chunk.length + rest.length) chunk.length
    rw [hd, take_left] at hchunk
    rw [hd, drop_left] at hrest
    exact .output (by omega) hchunk.symm (ih (by omega) hend hrest.symm)

/-- The frames of a batch continue the stream from where the pull started, and
unless the pump returned they reach the next cursor. -/
theorem pumpEvents_framed {h : History} {pos c pos' c' : Nat} {evs : List ReplayEvent}
    (ht : Told h pos c evs pos' c') :
    ∃ q, Framed h.bytes pos (pumpEvents evs).frames q ∧
      ((pumpEvents evs).closed = false → q = pos') := by
  induction ht with
  | nil pos c => exact ⟨pos, .nil pos, fun _ => rfl⟩
  | output hne hd _ _ ih =>
    obtain ⟨q, hf, hq⟩ := ih
    refine ⟨q, ?_, hq⟩
    unfold pumpEvents
    rw [Nat.add_sub_cancel]
    exact (outputFrames_framed _ (Nat.le_refl _) (le_length_of_slice hne hd) hd).append hf
  | gap hhi hend _ _ _ _ _ ih =>
    obtain ⟨q, hf, hq⟩ := ih
    exact ⟨q, .gap hhi hend hf, hq⟩
  | @control pos c _ _ event _ _ _ ih =>
    obtain ⟨q, hf, hq⟩ := ih
    cases event with
    | exit exitCode signal => exact ⟨q, .exit hf, hq⟩
    | writerChanged writer => exact ⟨q, hf, hq⟩
    | closed reason => exact ⟨pos, .nil pos, nofun⟩

/-! ## The invariant -/

/-- A leg whose frames in flight continue the stream from an offset the client
has reached, and whose pump, if it still runs, goes on behind them. -/
def LegInv (h : History) (lastSeq : Nat) (leg : Leg) : Prop :=
  ∃ p ≤ lastSeq, ∃ q, Framed h.bytes p leg.wire q ∧
    (leg.pump.done = false → leg.pump.cursor.after = q ∧ ∃ c, Tracks h q leg.pump.cursor c)

variable {lastSeq : Nat} {leg : Leg}

theorem LegInv.mono {h h' : History} {lastSeq' : Nat} (hle : h.Le h')
    (hseq : lastSeq ≤ lastSeq') (hl : LegInv h lastSeq leg) : LegInv h' lastSeq' leg := by
  obtain ⟨p, hp, q, hf, hpump⟩ := hl
  refine ⟨p, Nat.le_trans hp hseq, q, hf.mono hle.1, fun hdone => ?_⟩
  obtain ⟨hq, c, htr⟩ := hpump hdone
  exact ⟨hq, c, htr.mono hle⟩

variable {ring : ReplayRing}

theorem LegInv.attach {h : History} (hinv : RingInv ring h)
    {lastOutputSeq : Nat} (hle : lastOutputSeq ≤ lastSeq) :
    LegInv h lastSeq (Leg.attach ring lastOutputSeq) := by
  have hstart : min lastOutputSeq ring.endSeq ≤ ring.endSeq := Nat.min_le_right _ _
  obtain ⟨c₀, hf⟩ := Following.fromOffset hinv hstart
  obtain ⟨c, _, htr⟩ := hf.told
  exact ⟨min lastOutputSeq ring.endSeq, by omega, _, .nil _, fun _ => ⟨rfl, c, htr⟩⟩

theorem LegInv.pull {h : History} (hinv : RingInv ring h) (hl : LegInv h lastSeq leg) :
    LegInv h lastSeq { pump := (leg.pump.pull ring).1
                       wire := leg.wire ++ (leg.pump.pull ring).2 } := by
  obtain ⟨p, hp, q, hf, hpump⟩ := hl
  unfold OutputPump.pull
  by_cases hdone : leg.pump.done = true
  · rw [if_pos hdone, append_nil]
    exact ⟨p, hp, q, hf, hpump⟩
  rw [if_neg hdone]
  obtain ⟨hq, c, htr⟩ := hpump (by simpa using hdone)
  rw [← hq] at htr
  obtain ⟨out, c', hread, htold, htr', _⟩ := read_told hinv htr SESSION_STREAM_PULL_BYTES
  rw [hread]
  obtain ⟨q', hf', hq'⟩ := pumpEvents_framed htold
  rw [hq] at hf'
  refine ⟨p, hp, q', hf.append hf', fun hd => ?_⟩
  have hcl : (pumpEvents out.events).closed = false := (Bool.or_eq_false_iff.1 hd).1
  rw [hq' hcl]
  exact ⟨rfl, c', htr'⟩

/-- The ring and every leg agree with the history. -/
structure PathInv (s : OutputPath) (h : History) : Prop where
  ring : RingInv s.ring h
  legs : ∀ leg ∈ s.legs, LegInv h s.cursor.lastSeq leg
  reached : ∀ frame ∈ s.brought, frame.reaches ≤ s.cursor.lastSeq
  delivered : Delivered h.bytes s.cursor.lastSeq s.shown

namespace PathInv

variable {s : OutputPath} {h : History}

theorem new (budget : Nat) : PathInv (.new budget) .empty where
  ring := RingInv.new budget
  legs := by simp [OutputPath.new]
  reached := by simp [OutputPath.new]
  delivered := .empty _

theorem grow {ring : ReplayRing} {h' : History} (hs : PathInv s h) (hle : h.Le h')
    (hinv : RingInv ring h') : PathInv { s with ring := ring } h' where
  ring := hinv
  legs := fun leg hleg => (hs.legs leg hleg).mono hle (Nat.le_refl _)
  reached := hs.reached
  delivered := hs.delivered.mono hle.1

section

variable (hs : PathInv s h)
include hs

theorem attach {lastOutputSeq : Nat} (hle : lastOutputSeq ≤ s.cursor.lastSeq) :
    PathInv { s with legs := s.legs ++ [.attach s.ring lastOutputSeq] } h where
  __ := hs
  legs := forall_mem_append.2 ⟨hs.legs, forall_mem_singleton.2 (LegInv.attach hs.ring hle)⟩

theorem pull {i : Nat} {leg : Leg} (hi : s.legs[i]? = some leg) :
    PathInv { s with
      legs := s.legs.set i { pump := (leg.pump.pull s.ring).1
                             wire := leg.wire ++ (leg.pump.pull s.ring).2 } } h where
  __ := hs
  legs := by
    intro leg' hleg'
    rcases mem_or_eq_of_mem_set hleg' with hold | rfl
    · exact hs.legs leg' hold
    · exact (hs.legs leg (mem_of_getElem? hi)).pull hs.ring

theorem deliver {i : Nat} {pump : OutputPump} {frame : AttachEvent}
    {wire : List AttachEvent} (hi : s.legs[i]? = some { pump := pump, wire := frame :: wire }) :
    PathInv { s with
      legs := s.legs.set i { pump := pump, wire := wire }
      cursor := (s.cursor.accept frame).1
      brought := s.brought ++ [frame]
      shown := s.shown ++ (s.cursor.accept frame).2.toList } h := by
  obtain ⟨p, hp, q, hf, hpump⟩ := hs.legs _ (mem_of_getElem? hi)
  obtain ⟨hdel, p₁, hp₁, hf₁⟩ := hs.delivered.accept hf hp
  obtain ⟨hreached, hmono⟩ := s.cursor.reaches_le_accept frame
  refine ⟨hs.ring, fun leg hleg => ?_, forall_mem_append.2 ⟨fun f hbrought => ?_,
    forall_mem_singleton.2 hreached⟩, hdel⟩
  · rcases mem_or_eq_of_mem_set hleg with hold | rfl
    · exact (hs.legs leg hold).mono (History.Le.refl h) hmono
    · exact ⟨p₁, hp₁, q, hf₁, hpump⟩
  · exact Nat.le_trans (hs.reached f hbrought) hmono

theorem step (op : PathOp) : PathInv (s.step op) (op.record h) := by
  cases op with unfold OutputPath.step
  | push data => exact hs.grow (h.le_push data) (hs.ring.push data)
  | pushControl event => exact hs.grow (h.le_pushControl event) (hs.ring.pushControl event)
  | attach lastOutputSeq =>
    dsimp only
    split
    · rename_i hle
      exact hs.attach hle
    · exact hs
  | pull i =>
    dsimp only
    split
    · exact hs
    · rename_i leg hi
      exact hs.pull hi
  | deliver i =>
    dsimp only
    split
    · rename_i pump frame wire hi
      exact hs.deliver hi
    · exact hs

theorem run (ops : List PathOp) :
    PathInv (ops.foldl OutputPath.step s) (ops.foldl PathOp.record h) := by
  induction ops generalizing s h with
  | nil => exact hs
  | cons op ops ih => exact ih (hs.step op)

end

end PathInv

end Qsh.Session
