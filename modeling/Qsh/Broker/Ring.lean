import Qsh.Lib.Slice

/-!
# The replay ring

`broker/ring.rs`.  A session's output history is a ring of entries with a byte budget:
output chunks, and control entries that have no width.  `sequence` is the cumulative output
offset after a chunk.

A `VecDeque` is a list, oldest entry first, and `u64` and `usize` are `Nat`: the counters
count bytes or entries that were really pushed.  The loops are structural; `evict` and
`push` take fuel and get enough of it (`evictLoop_done`; `pushLoop` consumes at least one
byte in each round).
-/

namespace Qsh.Broker

/-! ## Events and cursors -/

inductive CloseReason
  | closed
  | exit
  | ttlExpired
  deriving DecidableEq, Repr

inductive ControlEvent
  | exit (exitCode : Option Int) (signal : Option String)
  | writerChanged (writer : Option String)
  | closed (reason : CloseReason)
  deriving DecidableEq, Repr

inductive ReplayEvent
  | output (sequence : Nat) (data : List UInt8)
  | gap (requestedAfter availableFrom : Nat)
  | control (sequence ctlId : Nat) (event : ControlEvent)
  deriving DecidableEq, Repr

structure Cursor where
  after : Nat
  ctlAfter : Nat
  deriving DecidableEq, Repr

def Cursor.fromOffset (after : Nat) : Cursor :=
  { after := after, ctlAfter := 0 }

structure ReadOut where
  events : List ReplayEvent
  next : Cursor
  deriving DecidableEq, Repr

inductive ReadError
  | cursorBeyondEnd (after endSeq : Nat)
  deriving DecidableEq, Repr

/-! ## The ring -/

def RING_CHUNK_MAX : Nat := 16 * 1024

def RING_CHUNK_DIVISOR : Nat := 16

def CONTROL_ENTRY_COST : Nat := 64

/-- A piece of output, or a control event at an output offset. -/
inductive Entry
  | output (start : Nat) (data : List UInt8)
  | control (seq id : Nat) (event : ControlEvent)
  deriving DecidableEq, Repr

def Entry.cost : Entry → Nat
  | .output _ data => data.length
  | .control _ _ _ => CONTROL_ENTRY_COST

def Entry.isOutput : Entry → Bool
  | .output _ _ => true
  | .control _ _ _ => false

/-- The chunk ring.  `lostCtl` is the newest control entry that was evicted
while it was still positioned at the oldest retained offset. -/
structure ReplayRing where
  budget : Nat
  pieceMax : Nat
  entries : List Entry
  retained : Nat
  endSeq : Nat
  nextCtlId : Nat
  lostCtl : Option (Nat × Nat)
  deriving DecidableEq, Repr

namespace ReplayRing

def new (budget : Nat) : ReplayRing :=
  let budget := max budget 1
  { budget := budget
    pieceMax := min (max (budget / RING_CHUNK_DIVISOR) 1) RING_CHUNK_MAX
    entries := []
    retained := 0
    endSeq := 0
    nextCtlId := 1
    lostCtl := none }

def firstOutput : List Entry → Option Nat
  | [] => none
  | .output start _ :: _ => some start
  | .control _ _ _ :: rest => firstOutput rest

variable (r : ReplayRing)

def availableFrom : Nat :=
  (firstOutput r.entries).getD r.endSeq

/-- The inner loop of `evict`: pop the controls in front that sit strictly
behind `from_`. -/
def dropBehind (from_ : Nat) : List Entry → Nat → List Entry × Nat
  | .control seq id event :: rest, retained =>
      if seq < from_ then dropBehind from_ rest (retained - CONTROL_ENTRY_COST)
      else (.control seq id event :: rest, retained)
  | entries, retained => (entries, retained)

/-- The first half of one round of `evict`: the oldest output chunk goes,
unless it is the newest entry; then the control in front goes, and is recorded
as lost. -/
def evictOldest : ReplayRing :=
  let forced : ReplayRing :=
    match r.entries with
    | .control seq id _ :: rest =>
        { r with
          entries := rest
          retained := r.retained - CONTROL_ENTRY_COST
          lostCtl := some (seq, id) }
    | _ :: rest => { r with entries := rest }
    | [] => r
  match r.entries.findIdx? Entry.isOutput with
  | some i =>
      if i + 1 < r.entries.length then
        { r with
          entries := r.entries.eraseIdx i
          retained := r.retained - ((r.entries[i]?).elim 0 Entry.cost) }
      else forced
  | none => forced

/-- The second half of one round of `evict`: the controls that are now
strictly behind the oldest retained output go too. -/
def dropStale : ReplayRing :=
  let (entries, retained) := dropBehind r.availableFrom r.entries r.retained
  { r with entries := entries, retained := retained }

def evictLoop : Nat → ReplayRing → ReplayRing
  | 0, r => r
  | fuel + 1, r =>
      if r.budget < r.retained ∧ 1 < r.entries.length then
        evictLoop fuel r.evictOldest.dropStale
      else r

/-- Drops the oldest entries until the budget holds, the last one excepted. -/
def evict : ReplayRing :=
  evictLoop r.entries.length r

/-- Append to the tail chunk if it is an output chunk with room, else start a
new chunk.  The second component is how many bytes were appended. -/
def appendOutput (piece : List UInt8) : ReplayRing × Nat :=
  let fresh : ReplayRing × Nat :=
    let take := min piece.length r.pieceMax
    ({ r with entries := r.entries ++ [.output r.endSeq (piece.take take)] }, take)
  match r.entries.getLast? with
  | some (.output start data) =>
      if data.length < r.pieceMax then
        let take := min piece.length (r.pieceMax - data.length)
        ({ r with
           entries := r.entries.dropLast ++ [.output start (data ++ piece.take take)] },
         take)
      else fresh
  | _ => fresh

def pushLoop : Nat → ReplayRing → List UInt8 → ReplayRing
  | 0, r, _ => r
  | fuel + 1, r, rest =>
      if rest = [] then r
      else
        let (r', n) := r.appendOutput rest
        let r'' := { r' with retained := r'.retained + n, endSeq := r'.endSeq + n }
        pushLoop fuel r''.evict (rest.drop n)

/-- Appends output in pieces of at most `piece_max` bytes. -/
def push (data : List UInt8) : ReplayRing :=
  pushLoop data.length r data

def pushControl (event : ControlEvent) : ReplayRing :=
  evict { r with
    nextCtlId := r.nextCtlId + 1
    entries := r.entries ++ [.control r.endSeq r.nextCtlId event]
    retained := r.retained + CONTROL_ENTRY_COST }

/-! ## Reading -/

/-- The `for` loop of `read`.  `from_` walks forward as bytes are emitted, and
`startFrom` is where this read began. -/
def readLoop (startFrom : Nat) : List Entry → Nat → Nat → Nat → ReadOut
  | [], from_, _, ctlAfter => { events := [], next := ⟨from_, ctlAfter⟩ }
  | .output start data :: rest, from_, remaining, ctlAfter =>
      if start + data.length ≤ from_ then
        readLoop startFrom rest from_ remaining ctlAfter
      else if remaining = 0 then
        { events := [], next := ⟨from_, ctlAfter⟩ }
      else
        let skip := from_ - start
        let take := min (data.length - skip) remaining
        let chunk := (data.drop skip).take take
        let from' := from_ + take
        if take < data.length - skip then
          { events := [.output from' chunk], next := ⟨from', ctlAfter⟩ }
        else
          let out := readLoop startFrom rest from' (remaining - take) ctlAfter
          { out with events := .output from' chunk :: out.events }
  | .control seq id event :: rest, from_, remaining, ctlAfter =>
      if seq < startFrom then
        readLoop startFrom rest from_ remaining (max ctlAfter id)
      else if from_ < seq then
        { events := [], next := ⟨from_, ctlAfter⟩ }
      else if id ≤ ctlAfter then
        readLoop startFrom rest from_ remaining ctlAfter
      else
        let out := readLoop startFrom rest from_ remaining id
        { out with events := .control seq id event :: out.events }

/-- What `read` emits before the loop: the events, where the loop starts, and
the control id that counts as received. -/
def readStart (cursor : Cursor) : List ReplayEvent × Nat × Nat :=
  let availableFrom := r.availableFrom
  let (events, from_) : List ReplayEvent × Nat :=
    if cursor.after < availableFrom then
      ([.gap cursor.after availableFrom], availableFrom)
    else ([], cursor.after)
  match r.lostCtl with
  | some (lostSeq, lostId) =>
      if cursor.ctlAfter < lostId ∧ from_ ≤ lostSeq then
        (if events = [] then [.gap cursor.after from_] else events, from_, lostId)
      else (events, from_, cursor.ctlAfter)
  | none => (events, from_, cursor.ctlAfter)

/-- The events after the cursor, a gap first if output was dropped. -/
def read (cursor : Cursor) (maxBytes : Nat) :
    Except ReadError ReadOut :=
  if r.endSeq < cursor.after then
    .error (.cursorBeyondEnd cursor.after r.endSeq)
  else
    let (events, from_, ctlAfter) := r.readStart cursor
    let out := readLoop from_ r.entries from_ maxBytes ctlAfter
    .ok { out with events := events ++ out.events }

end ReplayRing

end Qsh.Broker
