import Qsh.Audit.Writer
import Qsh.Lib.Run

/-!
# The audit sink

`RotatingAuditSink` (`audit/writer.rs`) takes records from any number of callers over a
bounded channel, and one thread (`run_writer`) writes them.  A caller looks at the
`degraded` flag and then sends.  A record that cannot be written waits in `pending`, the
flag goes up, and the thread only takes records in until a retry has written all of them.

How a record becomes JSON is a parameter; the failures of a write are in the label.
-/

namespace Qsh.Audit

open Qsh.Lib List

variable {ρ : Type}

def newline : UInt8 := 10

/-- A record is one line of JSON. -/
def encode (toVec : ρ → Option (List UInt8)) (record : ρ) : Option (List UInt8) :=
  (toVec record).map (· ++ [newline])

def linesFrom (line : List UInt8) : List UInt8 → List (List UInt8)
  | [] => []
  | b :: bytes =>
      if b = newline then line :: linesFrom [] bytes else linesFrom (line ++ [b]) bytes

/-- The lines of the log, a torn last one apart. -/
def completeLines (bytes : List UInt8) : List (List UInt8) := linesFrom [] bytes

/-- What a caller of the sink is told. -/
inductive CallResult where
  | ok
  | degraded
  | queueFull
  deriving DecidableEq

/-- Where the writer thread is. -/
inductive WriterState (ρ : Type) where
  /-- In `recv` or `recv_timeout`. -/
  | waiting
  /-- In `handle_normal`, with a record. -/
  | handling (record : ρ)
  /-- In `handle_normal`, after a failed write. -/
  | tripping (record : ρ)
  /-- In `try_flush_pending`; the last one before the thread ends. -/
  | flushing (final : Bool)
  | stopped

def WriterState.inHand : WriterState ρ → List ρ
  | .handling record => [record]
  | .tripping record => [record]
  | _ => []

/-- The sink, its callers and its thread.  `callers` are the calls that have seen
the flag down and have not sent yet; `results` are the calls that have returned. -/
structure Sink (ρ : Type) where
  toVec : ρ → Option (List UInt8)
  depth : Nat
  closed : Bool
  degraded : Bool
  callers : List ρ
  channel : List ρ
  pending : List ρ
  writer : WriterState ρ
  file : RotatingFile
  disk : Disk
  results : List (ρ × CallResult)

inductive SinkOp (ρ : Type) where
  /-- A caller looks at the flag. -/
  | load (record : ρ)
  /-- A caller that saw it down sends. -/
  | send (caller : Nat)
  /-- The sink is dropped. -/
  | close
  | receive
  | timeout
  | disconnect
  /-- The writer thread goes on; a write meets these failures. -/
  | work (faults : Faults)

namespace Sink

def afterFlush (final : Bool) : WriterState ρ := if final then .stopped else .waiting

/-- One step of a caller or of the writer thread. -/
def step (s : Sink ρ) : SinkOp ρ → Option (Sink ρ)
  | .load record =>
      if s.closed then none
      else if s.degraded then some { s with results := s.results ++ [(record, .degraded)] }
      else some { s with callers := s.callers ++ [record] }
  | .send caller =>
      match s.callers[caller]? with
      | none => none
      | some record =>
          let s := { s with callers := s.callers.eraseIdx caller }
          if s.channel.length < s.depth then
            some { s with
              channel := s.channel ++ [record], results := s.results ++ [(record, .ok)] }
          else some { s with results := s.results ++ [(record, .queueFull)] }
  | .close => if s.callers.isEmpty then some { s with closed := true } else none
  | .receive =>
      match s.writer, s.channel with
      | .waiting, record :: rest =>
          match s.pending with
          | [] => some { s with channel := rest, writer := .handling record }
          | _ :: _ => some { s with channel := rest, pending := s.pending ++ [record] }
      | _, _ => none
  | .timeout =>
      match s.writer, s.pending with
      | .waiting, _ :: _ => some { s with writer := .flushing false }
      | _, _ => none
  | .disconnect =>
      match s.writer, s.channel with
      | .waiting, [] =>
          if s.closed then
            some { s with writer := if s.pending.isEmpty then .stopped else .flushing true }
          else none
      | _, _ => none
  | .work faults =>
      match s.writer with
      | .handling record =>
          match encode s.toVec record with
          | none => some { s with writer := .waiting }
          | some line =>
              let r := s.file.writeLine s.disk line faults
              some { s with
                file := r.1, disk := r.2.1
                writer := if r.2.2 then .waiting else .tripping record }
      | .tripping record =>
          some { s with degraded := true, pending := s.pending ++ [record], writer := .waiting }
      | .flushing final =>
          match s.pending with
          | [] => some { s with degraded := false, writer := afterFlush final }
          | record :: rest =>
              match encode s.toVec record with
              | none => some { s with pending := rest }
              | some line =>
                  let r := s.file.writeLine s.disk line faults
                  some { s with
                    file := r.1, disk := r.2.1
                    pending := if r.2.2 then rest else s.pending
                    writer := if r.2.2 then s.writer else afterFlush final }
      | _ => none

def start (toVec : ρ → Option (List UInt8)) (maxBytes retain queueDepth : Nat) : Sink ρ where
  toVec
  depth := max queueDepth 1
  closed := false
  degraded := false
  callers := []
  channel := []
  pending := []
  writer := .waiting
  file := RotatingFile.new maxBytes retain
  disk := { dir := Directory.empty [], dropped := [] }
  results := []

/-- The records whose callers were told `ok`. -/
def accepted (s : Sink ρ) : List ρ :=
  (s.results.filter fun r => r.2 = .ok).map Prod.fst

/-- The accepted records that are not in the file yet. -/
def onWay (s : Sink ρ) : List ρ := s.writer.inHand ++ s.pending ++ s.channel

def logBytes (s : Sink ρ) : List UInt8 := s.disk.allBytes s.file.retain

/-! ## The bytes of lines -/

theorem linesFrom_line {payload : List UInt8} (h : newline ∉ payload) (line rest : List UInt8) :
    linesFrom line (payload ++ newline :: rest) = (line ++ payload) :: linesFrom [] rest := by
  induction payload generalizing line with
  | nil => simp [linesFrom]
  | cons b payload ih =>
    obtain ⟨hb, hrest⟩ : newline ≠ b ∧ newline ∉ payload := by simpa using h
    show (if b = newline then _ else linesFrom (line ++ [b]) (payload ++ newline :: rest)) = _
    rw [if_neg hb.symm, ih hrest]
    simp

theorem completeLines_flatMap {payloads : List (List UInt8)} (h : ∀ p ∈ payloads, newline ∉ p) :
    completeLines (payloads.flatMap fun p => p ++ [newline]) = payloads := by
  induction payloads with
  | nil => rfl
  | cons p payloads ih =>
    have hp := h p (mem_cons_self ..)
    rw [flatMap_cons, append_assoc]
    show linesFrom [] (p ++ newline :: _) = _
    rw [linesFrom_line hp, nil_append]
    exact congrArg (p :: ·) (ih fun q hq => h q (mem_cons_of_mem _ hq))

/-! ## The invariant -/

/-- The log has the lines of the encodable records that were accepted and are not
on the way to it, and the flag says whether something waits. -/
structure Inv (s : Sink ρ) : Prop where
  current : s.file.Current s.disk
  order : ∃ written : List (List UInt8), s.logBytes = written.flatMap (fun p => p ++ [newline]) ∧
      written ++ s.onWay.filterMap s.toVec = s.accepted.filterMap s.toVec
  waiting : s.writer = .waiting → s.degraded = !s.pending.isEmpty
  normal : ∀ r, s.writer = .handling r ∨ s.writer = .tripping r →
    s.pending = [] ∧ s.degraded = false
  flushing : ∀ final, s.writer = .flushing final → s.degraded = true

variable {s t : Sink ρ}

/-- The flag, and what waits, as they have to be in a state of the writer. -/
def FlagFits (writer : WriterState ρ) (pending : List ρ) (degraded : Bool) : Prop :=
  match writer with
  | .waiting => degraded = !pending.isEmpty
  | .handling _ | .tripping _ => pending = [] ∧ degraded = false
  | .flushing _ => degraded = true
  | .stopped => True

theorem flagFits_iff {writer : WriterState ρ} {pending : List ρ} {degraded : Bool} :
    FlagFits writer pending degraded ↔ (writer = .waiting → degraded = !pending.isEmpty) ∧
      (∀ r, writer = .handling r ∨ writer = .tripping r → pending = [] ∧ degraded = false) ∧
      ∀ final, writer = .flushing final → degraded = true := by
  cases writer <;> simp [FlagFits]

theorem Inv.flag (h : s.Inv) : FlagFits s.writer s.pending s.degraded :=
  flagFits_iff.2 ⟨h.waiting, h.normal, h.flushing⟩

theorem Inv.of_same (h : s.Inv) (hsame : t.file = s.file ∧ t.disk = s.disk ∧ t.toVec = s.toVec)
    (more : List ρ) (hacc : t.accepted = s.accepted ++ more)
    (hway : t.onWay.filterMap s.toVec = (s.onWay ++ more).filterMap s.toVec)
    (hflag : FlagFits t.writer t.pending t.degraded) : t.Inv := by
  obtain ⟨hfile, hdisk, htoVec⟩ := hsame
  obtain ⟨written, hbytes, heq⟩ := h.order
  obtain ⟨hwaiting, hnormal, hflushing⟩ := flagFits_iff.1 hflag
  refine ⟨by rw [hfile, hdisk]; exact h.current, ⟨written, ?_, ?_⟩, hwaiting, hnormal, hflushing⟩
  · unfold logBytes
    rw [hfile, hdisk]
    exact hbytes
  · rw [htoVec, hacc, hway, filterMap_append, filterMap_append, ← append_assoc, heq]

theorem Inv.unsent (h : s.Inv) (hacc : t.accepted = s.accepted)
    (hway : t.onWay.filterMap s.toVec = s.onWay.filterMap s.toVec)
    (hflag : FlagFits t.writer t.pending t.degraded)
    (hsame : t.file = s.file ∧ t.disk = s.disk ∧ t.toVec = s.toVec := by
      exact ⟨rfl, rfl, rfl⟩) : t.Inv :=
  h.of_same hsame [] (by rw [hacc, append_nil]) (by rw [hway, append_nil]) hflag

theorem Inv.write (h : s.Inv) {record : ρ} {line : List UInt8}
    (hline : encode s.toVec record = some line) (later : List ρ)
    (hnext : s.onWay = record :: later) {faults : Faults}
    (hfile : t.file = (s.file.writeLine s.disk line faults).1)
    (hdisk : t.disk = (s.file.writeLine s.disk line faults).2.1)
    (htoVec : t.toVec = s.toVec) (hacc : t.accepted = s.accepted)
    (hway : t.onWay =
      if (s.file.writeLine s.disk line faults).2.2 then later else record :: later)
    (hflag : FlagFits t.writer t.pending t.degraded) : t.Inv := by
  obtain ⟨written, hbytes, heq⟩ := h.order
  obtain ⟨hwaiting, hnormal, hflushing⟩ := flagFits_iff.1 hflag
  obtain ⟨payload, hpayload, rfl⟩ := Option.map_eq_some_iff.1 hline
  cases hr : s.file.writeLine s.disk (payload ++ [newline]) faults with
  | mk w r =>
    obtain ⟨d, ok⟩ := r
    rw [hr] at hfile hdisk hway
    obtain ⟨hcur, hretain, hall⟩ := RotatingFile.writeLine_spec h.current _ faults hr
    have hlog : t.logBytes = written.flatMap (fun p => p ++ [newline]) ++
        if ok then payload ++ [newline] else [] := by
      unfold logBytes
      rw [hfile, hdisk, show w.retain = s.file.retain from hretain, hall]
      exact congrArg (· ++ _) hbytes
    rw [hnext] at heq
    refine ⟨by rw [hfile, hdisk]; exact hcur, ?_, hwaiting, hnormal, hflushing⟩
    rw [hlog, htoVec, hacc, hway, ← heq]
    cases ok with
    | true =>
      refine ⟨written ++ [payload], by simp, ?_⟩
      rw [filterMap_cons_some hpayload]
      simp
    | false => exact ⟨written, by simp, rfl⟩

theorem Inv.step (h : s.Inv) {op : SinkOp ρ} (hs : s.step op = some t) :
    t.Inv := by
  have hflag := h.flag
  cases op with simp only [Sink.step] at hs
  | load record =>
    split at hs
    · cases hs
    split at hs <;> cases hs
    · exact h.unsent (by simp [accepted]) rfl hflag
    · exact h.unsent rfl rfl hflag
  | send caller =>
    split at hs
    · cases hs
    rename_i record hcaller
    split at hs <;> cases hs
    · -- the record is the last one accepted and the last one in the channel
      exact h.of_same ⟨rfl, rfl, rfl⟩ [record] (by simp [accepted]) (by simp [onWay]) hflag
    · exact h.unsent (by simp [accepted]) rfl hflag
  | close =>
    split at hs <;> cases hs
    exact h.unsent rfl rfl hflag
  | receive =>
    split at hs
    · rename_i record rest hwriter hchannel
      rw [hwriter] at hflag
      split at hs <;> rename_i hpending <;> cases hs <;> rw [hpending] at hflag
      · refine h.unsent rfl ?_ ⟨hpending, hflag⟩
        simp [onWay, hwriter, hchannel, hpending, WriterState.inHand]
      · refine h.unsent rfl ?_ ?_
        · simp [onWay, hwriter, hchannel, WriterState.inHand]
        · simpa [hwriter, hpending, FlagFits] using hflag
    · cases hs
  | timeout =>
    split at hs <;> cases hs
    rename_i x xs hwriter hpending
    rw [hwriter, hpending] at hflag
    refine h.unsent rfl ?_ hflag
    simp [onWay, hwriter, WriterState.inHand]
  | disconnect =>
    split at hs
    swap
    · cases hs
    rename_i hwriter hchannel
    rw [hwriter] at hflag
    split at hs <;> cases hs
    cases hp : s.pending.isEmpty with
    | true =>
      refine h.unsent rfl ?_ trivial
      simp [onWay, hwriter, WriterState.inHand]
    | false =>
      refine h.unsent rfl ?_ (hflag.trans (by rw [hp]; rfl))
      simp [onWay, hwriter, WriterState.inHand]
  | work faults =>
    split at hs
    · -- a record in normal mode
      rename_i record hwriter
      rw [hwriter] at hflag
      obtain ⟨hpending, hdeg⟩ := hflag
      split at hs
      · rename_i hnone
        cases hs
        have hskip : s.toVec record = none := Option.map_eq_none_iff.1 hnone
        refine h.unsent rfl ?_ (by simp [FlagFits, hpending, hdeg])
        simp [onWay, hwriter, hpending, WriterState.inHand, filterMap_cons_none hskip]
      rename_i line hline
      cases hs
      refine h.write hline s.channel ?_ rfl rfl rfl rfl ?_ ?_
      · simp [onWay, hwriter, hpending, WriterState.inHand]
      · cases (s.file.writeLine s.disk line faults).2.2 <;>
          simp [onWay, hpending, WriterState.inHand]
      · cases (s.file.writeLine s.disk line faults).2.2 <;> simp [FlagFits, hpending, hdeg]
    · -- the flag goes up and the record waits
      rename_i record hwriter
      rw [hwriter] at hflag
      cases hs
      refine h.unsent rfl ?_ (by simp [FlagFits])
      simp [onWay, hwriter, hflag.1, WriterState.inHand]
    · -- a retry
      rename_i final hwriter
      rw [hwriter] at hflag
      split at hs
      · rename_i hpending
        cases hs
        refine h.unsent rfl ?_ ?_
        · cases final <;> simp [onWay, hwriter, afterFlush, WriterState.inHand]
        · cases final <;> simp [FlagFits, afterFlush, hpending]
      rename_i record rest hpending
      split at hs
      · rename_i hnone
        cases hs
        have hskip : s.toVec record = none := Option.map_eq_none_iff.1 hnone
        refine h.unsent rfl ?_ (by simpa [hwriter, FlagFits] using hflag)
        simp [onWay, hwriter, hpending, WriterState.inHand, filterMap_cons_none hskip]
      rename_i line hline
      cases hs
      refine h.write hline (rest ++ s.channel) ?_ rfl rfl rfl rfl ?_ ?_
      · simp [onWay, hwriter, hpending, WriterState.inHand]
      · cases (s.file.writeLine s.disk line faults).2.2 <;> cases final <;>
          simp [onWay, hwriter, hpending, afterFlush, WriterState.inHand]
      · cases hok : (s.file.writeLine s.disk line faults).2.2 <;> cases final <;>
          simp_all [FlagFits, afterFlush]
    · cases hs

theorem step_toVec {op : SinkOp ρ} (hs : s.step op = some t) :
    t.toVec = s.toVec := by
  cases op <;> simp only [Sink.step] at hs <;> repeat' split at hs
  all_goals cases hs <;> rfl

/-- In every run, with any failures, the complete lines of the log, then what is in
hand, what waits for a retry and what is in the channel, are the encodable records
that were accepted, in order; the log has nothing else; and whenever the writer
waits for a record nothing is in hand, and the flag is up exactly if something
waits for a retry. -/
theorem accepted_records_are_written (toVec : ρ → Option (List UInt8))
    (hnewline : ∀ record bytes, toVec record = some bytes → newline ∉ bytes)
    (maxBytes retain queueDepth : Nat) {ops : List (SinkOp ρ)} {s : Sink ρ}
    (hr : Run step (fun _ _ => True) (start toVec maxBytes retain queueDepth) ops s) :
    completeLines s.logBytes ++ (s.writer.inHand ++ s.pending ++ s.channel).filterMap toVec =
        s.accepted.filterMap toVec ∧
      s.logBytes = (completeLines s.logBytes).flatMap (fun line => line ++ [newline]) ∧
      (s.writer = .waiting → s.writer.inHand = [] ∧ (s.degraded = true ↔ s.pending ≠ [])) := by
  have hinv : s.Inv ∧ s.toVec = toVec := by
    refine hr.invariant (I := fun s => s.Inv ∧ s.toVec = toVec)
      (fun s op t _ hs h => ⟨h.1.step hs, (step_toVec hs).trans h.2⟩) ⟨?_, rfl⟩
    refine ⟨nofun, ⟨[], ?_, rfl⟩, fun _ => rfl, ?_, nofun⟩
    · show [] ++ Disk.bytesFrom (Directory.empty []) retain = []
      have hempty : ∀ n, Disk.bytesFrom (Directory.empty []) n = [] := by
        intro n
        induction n with
        | zero => rfl
        | succ n ih => exact ih
      rw [hempty]
      rfl
    · intro _ h
      rcases h with h | h <;> exact nomatch h
  obtain ⟨h, hvec⟩ := hinv
  obtain ⟨written, hbytes, horder⟩ := h.order
  rw [hvec] at horder
  have hpayload : ∀ p ∈ written, newline ∉ p := by
    intro p hp
    have hmem : p ∈ s.accepted.filterMap toVec := by
      rw [← horder]
      exact mem_append_left _ hp
    obtain ⟨record, -, hrecord⟩ := mem_filterMap.1 hmem
    exact hnewline record p hrecord
  have hlines : completeLines s.logBytes = written := by
    rw [hbytes, completeLines_flatMap hpayload]
  refine ⟨hlines ▸ horder, hlines ▸ hbytes, ?_⟩
  intro hw
  have hdeg := h.waiting hw
  refine ⟨by rw [hw]; rfl, ?_⟩
  rw [hdeg]
  cases s.pending <;> simp

def isWaiting {ρ : Type} : WriterState ρ → Bool
  | .waiting => true
  | _ => false

/-- Two records are accepted.  The first append fails after a byte; the record
waits, and a retry writes both. -/
theorem accepted_records_are_written_after_retry :
    ∃ s : Sink Bool, Run step (fun _ _ => True)
        (start (fun b => some (if b then [65] else [66])) 3 1 4)
        [.load true, .load false, .send 0, .send 0, .receive,
          .work { Faults.none with append := some 1 }, .work Faults.none, .receive, .timeout,
          .work Faults.none, .work Faults.none, .work Faults.none] s ∧
      s.writer = .waiting ∧ completeLines s.logBytes = [[65], [66]] ∧
      completeLines s.logBytes ++ (s.writer.inHand ++ s.pending ++ s.channel).filterMap
        (fun b => some (if b then [65] else [66])) =
          s.accepted.filterMap (fun b => some (if b then [65] else [66])) := by
  refine Run.exists_exec (fun s => isWaiting s.writer = true ∧
    completeLines s.logBytes = [[65], [66]]) (by decide +kernel) ?_
  rintro s hr ⟨hw, hlines⟩
  have hwaiting : s.writer = .waiting := by
    cases h : s.writer with
    | waiting => rfl
    | _ =>
      rw [h] at hw
      cases hw
  refine ⟨hwaiting, hlines, (accepted_records_are_written _ ?_ 3 1 4 hr).1⟩
  intro b bytes hb
  cases b with
  | true | false =>
    cases hb
    decide

end Sink

end Qsh.Audit
