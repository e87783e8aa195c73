import Qsh.Lib.Run
import Qsh.Broker.SessionMeta

/-!
# Admission of input

What `enqueue_write` lets through to the child, over whole runs: writes from any connection
with any axis, offset and data, lease takes and releases, axes reserved and seeded, and
every outcome of the bounded queue.

Bytes come from the lease holder alone, a numbered chunk begins at the applied offset of
its axis, and an answer of `Backpressure` or `InputGap` changes nothing.  The rest needs
room in the axis map (`InRoom`): `prune_input_axes` drops the smallest ids, whoever is
writing on them, a seed and a refused write call it, and a dropped axis that is named again
starts from zero.
-/

namespace Qsh.Broker

open Qsh.Lib List

/-! ## One write -/

theorem enqueueWrite_cases (m : Meta) (conn : Nat) (data : List UInt8)
    (inputSeq : Option (Nat × Nat)) (send : SendOutcome) :
    (∃ err, m.admission conn = some err ∧
        m.enqueueWrite conn data inputSeq send = (m.refuse inputSeq, .refused err)) ∨
      m.admission conn = none ∧ ((∃ reply, (∀ d n, reply ≠ .queued d n) ∧
            m.enqueueWrite conn data inputSeq send = (m, reply)) ∨
          (inputSeq = none ∧ m.enqueueWrite conn data inputSeq send = (m, .queued data 0)) ∨
          ∃ stream seq, inputSeq = some (stream, seq) ∧ data.length ≤ seq ∧
            seq - data.length ≤ m.applied stream ∧ m.applied stream < seq ∧
            m.enqueueWrite conn data inputSeq send =
              ({ m with appliedInput := m.appliedInput.insert stream seq },
                .queued (data.drop (m.applied stream - (seq - data.length))) seq)) := by
  unfold Meta.enqueueWrite
  cases hadm : m.admission conn with
  | some err => exact .inl ⟨err, rfl, rfl⟩
  | none =>
    refine .inr ⟨rfl, ?_⟩
    cases inputSeq with
    | none =>
      cases send with
      | ok => exact .inr (.inl ⟨rfl, rfl⟩)
      | full | closed => exact .inl ⟨_, by simp, rfl⟩
    | some p =>
      obtain ⟨stream, seq⟩ := p
      dsimp only
      split
      · exact .inl ⟨_, by simp, rfl⟩
      split
      · exact .inl ⟨_, by simp, rfl⟩
      split
      · exact .inl ⟨_, by simp, rfl⟩
      · cases send with
        | ok => exact .inr (.inr ⟨stream, seq, rfl, by omega, by omega, by omega, rfl⟩)
        | full | closed => exact .inl ⟨_, by simp, rfl⟩

variable {m : Meta} {conn : Nat}

theorem Meta.isHeldBy_of_admission (h : m.admission conn = none) :
    m.lease.isHeldBy conn = true := by
  unfold Meta.admission at h
  split at h
  · cases h
  split at h
  · assumption
  · cases h

theorem Meta.admission_err {err : WriteError}
    (h : m.admission conn = some err) : err = .notRunning ∨ err = .notWriter := by
  unfold Meta.admission at h
  split at h
  · exact .inl (Option.some.inj h).symm
  split at h
  · cases h
  · exact .inr (Option.some.inj h).symm

/-! ## Runs -/

/-- A chunk on the input queue: who wrote it, the axis it was numbered on, and
the offset there of its first byte. -/
structure Enqueued where
  conn : Nat
  axis : Option Nat
  start : Nat
  data : List UInt8
  deriving DecidableEq, Repr

/-- A session's metadata and everything that was put on its input queue. -/
structure InputRun where
  session : Meta
  enqueued : List Enqueued

/-- One step: a write command, the lease, an axis, or the end of the child. -/
inductive InputOp
  | write (conn : Nat) (data : List UInt8) (inputSeq : Option (Nat × Nat))
      (send : SendOutcome)
  | takeLease (principal : String) (owner physical : Nat) (noSteal : Bool)
  | releaseConnection (physical : Nat)
  | reserve
  | seed (id : Nat) (from_ : Option Nat)
  | exit (now : Nat)
  | close
  deriving DecidableEq, Repr

namespace InputRun

def new (now : Nat) : InputRun :=
  { session := .new now, enqueued := [] }

def sent (m : Meta) (conn : Nat) (inputSeq : Option (Nat × Nat)) : WriteReply → List Enqueued
  | .queued data _ =>
      [{ conn := conn
         axis := inputSeq.map Prod.fst
         start := (inputSeq.map (fun p => m.applied p.1)).getD 0
         data := data }]
  | _ => []

/-- One call on the session. -/
def step (s : InputRun) : InputOp → InputRun
  | .write conn data inputSeq send =>
      let (m, reply) := s.session.enqueueWrite conn data inputSeq send
      { session := m, enqueued := s.enqueued ++ sent s.session conn inputSeq reply }
  | .takeLease principal owner physical noSteal =>
      { s with session.lease := (s.session.lease.takeOwned principal owner physical noSteal).1 }
  | .releaseConnection physical =>
      { s with session.lease := (s.session.lease.releaseConnection physical).1 }
  | .reserve => { s with session := s.session.reserveInputStream.1 }
  | .seed id from_ => { s with session := (s.session.seedInputStream id from_).1 }
  | .exit now => { s with session := s.session.setStateExited now }
  | .close => { s with session.closing := true }

end InputRun

/-- What one call enqueues comes from the lease holder, at its next byte. -/
structure Isolated (s : InputRun) (op : InputOp) : Prop where
  /-- Bytes are enqueued only from the lease holder, and a numbered chunk
  begins exactly at the applied offset of its axis. -/
  enqueue : (s.step op).enqueued = s.enqueued ∨
    ∃ conn data inputSeq send chunk, op = .write conn data inputSeq send ∧
      s.session.lease.isHeldBy conn = true ∧
      (s.step op).enqueued = s.enqueued ++ [chunk] ∧ chunk.conn = conn ∧
      chunk.axis = inputSeq.map Prod.fst ∧
      ∀ axis, chunk.axis = some axis → chunk.start = s.session.applied axis
  /-- `Backpressure` and `InputGap` change no state. -/
  unchanged : ∀ conn data inputSeq send, op = .write conn data inputSeq send →
    ((s.session.enqueueWrite conn data inputSeq send).2 = .refused .backpressure ∨
      ∃ start applied, (s.session.enqueueWrite conn data inputSeq send).2 =
        .refused (.inputGap start applied)) → s.step op = s
  /-- Without the lease only the named axis can be changed, created or
  removed. -/
  others : ∀ conn data inputSeq send, op = .write conn data inputSeq send →
    s.session.lease.isHeldBy conn = false → ∀ axis, inputSeq.map Prod.fst ≠ some axis →
      (s.step op).session.appliedInput.get? axis = s.session.appliedInput.get? axis

/-- The chunks enqueued on an input axis. -/
def InputRun.onAxis (s : InputRun) (axis : Nat) : List Enqueued :=
  s.enqueued.filter (fun c => c.axis = some axis)

/-- The axes that something was enqueued on. -/
def InputRun.used (s : InputRun) : List Nat :=
  s.enqueued.filterMap Enqueued.axis

/-- With axis `id` in the map, fewer than `MAX_INPUT_AXES` axes are newer than `axis`. -/
def Meta.KeepsAxis (m : Meta) (id axis : Nat) : Prop :=
  m.appliedInput.above axis + (if axis < id ∧ m.appliedInput.get? id = none then 1 else 0) <
    MAX_INPUT_AXES

instance (m : Meta) (id axis : Nat) : Decidable (m.KeepsAxis id axis) :=
  inferInstanceAs (Decidable (_ < _))

/-- The axis map has room for what the step adds.  A seed drops no axis that something
was enqueued on, and does not set one back; a refused numbered write drops no such axis
either, and none but the one it names. -/
def InRoom (s : InputRun) : InputOp → Prop
  | .seed id from_ => (∀ axis ∈ s.used, s.session.KeepsAxis id axis) ∧
      (id ∈ s.used → s.session.applied id ≤ (s.session.seedInputStream id from_).2)
  | .write conn _ (some (stream, _)) _ => s.session.admission conn = none ∨
      (∀ axis ∈ s.used, s.session.KeepsAxis stream axis) ∧
        ∀ e ∈ s.session.appliedInput.entries, e.1 ≠ stream → s.session.KeepsAxis stream e.1
  | _ => True

instance (s : InputRun) (op : InputOp) : Decidable (InRoom s op) := by
  unfold InRoom
  split <;> infer_instance

/-! ## Steps that hold in every state -/

variable {data : List UInt8} {inputSeq : Option (Nat × Nat)} {send : SendOutcome}
   {reply : WriteReply}

theorem InputRun.step_write {s : InputRun}
    (h : s.session.enqueueWrite conn data inputSeq send = (m, reply)) :
    s.step (.write conn data inputSeq send) =
      { session := m, enqueued := s.enqueued ++ sent s.session conn inputSeq reply } := by
  simp only [step, h]

theorem InputRun.sent_eq_nil (h : ∀ d n, reply ≠ .queued d n) :
    sent m conn inputSeq reply = [] := by
  cases reply with
  | queued d n => exact absurd rfl (h d n)
  | applied | refused => rfl

theorem write_enqueue (s : InputRun) (op : InputOp) :
    (s.step op).enqueued = s.enqueued ∨
      ∃ conn data inputSeq send chunk, op = .write conn data inputSeq send ∧
        s.session.lease.isHeldBy conn = true ∧
        (s.step op).enqueued = s.enqueued ++ [chunk] ∧ chunk.conn = conn ∧
        chunk.axis = inputSeq.map Prod.fst ∧
        ∀ axis, chunk.axis = some axis → chunk.start = s.session.applied axis := by
  cases op with
  | write conn data inputSeq send =>
    rcases enqueueWrite_cases s.session conn data inputSeq send with
      ⟨err, _, h⟩ | ⟨hadm, ⟨reply, hreply, h⟩ | ⟨hnone, h⟩ | ⟨stream, seq, hsome, _, _, _, h⟩⟩
    · left
      rw [InputRun.step_write h, InputRun.sent_eq_nil (by simp), append_nil]
    · left
      rw [InputRun.step_write h, InputRun.sent_eq_nil hreply, append_nil]
    · right
      rw [InputRun.step_write h]
      refine ⟨conn, data, inputSeq, send, _, rfl, Meta.isHeldBy_of_admission hadm, rfl, rfl,
        rfl, ?_⟩
      intro axis haxis
      simp [hnone] at haxis
    right
    rw [InputRun.step_write h]
    refine ⟨conn, data, inputSeq, send, _, rfl, Meta.isHeldBy_of_admission hadm, rfl, rfl,
      rfl, ?_⟩
    intro axis haxis
    subst hsome
    simp at haxis
    simp [haxis]
  | _ => exact .inl rfl

theorem write_unchanged (s : InputRun) (conn : Nat) (data : List UInt8)
    (inputSeq : Option (Nat × Nat)) (send : SendOutcome)
    (h : (s.session.enqueueWrite conn data inputSeq send).2 = .refused .backpressure ∨
      ∃ start applied, (s.session.enqueueWrite conn data inputSeq send).2 =
        .refused (.inputGap start applied)) :
    s.step (.write conn data inputSeq send) = s := by
  rcases enqueueWrite_cases s.session conn data inputSeq send with
    ⟨err, herr, hw⟩ | ⟨_, ⟨reply, hreply, hw⟩ | ⟨_, hw⟩ | ⟨stream, seq, _, _, _, _, hw⟩⟩
  · rw [hw] at h
    rcases Meta.admission_err herr with rfl | rfl <;> simp at h
  · rw [InputRun.step_write hw, InputRun.sent_eq_nil hreply, append_nil]
  all_goals
    rw [hw] at h
    simp at h

/-! ## Pruning -/

section

variable {axes : OrdMap Nat Nat} {axis off id v : Nat}

theorem get?_of_get?_pruneInputAxes
    (h : (pruneInputAxes axes).get? axis = some off) : axes.get? axis = some off := by
  unfold pruneInputAxes at h
  generalize axes.size = fuel at h
  induction fuel generalizing axes with
  | zero => exact h
  | succ fuel ih =>
    rw [pruneLoop] at h
    split_ifs at h
    · exact axes.get?_of_get?_dropMin (ih h)
    · exact h

theorem get?_pruneInputAxes
    (h : axes.get? axis = some off) (hnewer : axes.above axis < MAX_INPUT_AXES) :
    (pruneInputAxes axes).get? axis = some off := by
  unfold pruneInputAxes
  generalize axes.size = fuel
  induction fuel generalizing axes with
  | zero => exact h
  | succ fuel ih =>
    rw [pruneLoop]
    split_ifs with hfull
    · exact ih (axes.get?_dropMin_of_above h (by omega))
        (lt_of_le_of_lt (tail_sublist _).countP_le hnewer)
    · exact h

theorem get?_prune_insert (h : axis = id ∨ axes.get? axis ≠ none)
    (hnewer : axes.above axis + (if axis < id ∧ axes.get? id = none then 1 else 0) <
      MAX_INPUT_AXES) :
    (pruneInputAxes (axes.insert id v)).get? axis ≠ none := by
  have hin : ∃ off, (axes.insert id v).get? axis = some off := by
    rw [OrdMap.get?_insert]
    split_ifs with heq
    · exact ⟨v, rfl⟩
    · exact Option.ne_none_iff_exists'.1 (h.resolve_left heq)
  obtain ⟨off, hoff⟩ := hin
  rw [get?_pruneInputAxes hoff (by rw [OrdMap.above_insert]; exact hnewer)]
  exact Option.some_ne_none off

theorem get?_of_prune_insert (h : (pruneInputAxes (axes.insert id v)).get? axis = some off) :
    axis = id ∧ off = v ∨ axis ≠ id ∧ axes.get? axis = some off := by
  have h := get?_of_get?_pruneInputAxes h
  rw [OrdMap.get?_insert] at h
  split_ifs at h with heq
  · exact .inl ⟨heq, (Option.some.inj h).symm⟩
  · exact .inr ⟨heq, h⟩

end

/-! ## Steps that need room -/

theorem get?_prune_insert_of_ne {stream v axis : Nat} (hne : axis ≠ stream)
    (hkept : ∀ off, m.appliedInput.get? axis = some off → m.KeepsAxis stream axis) :
    (pruneInputAxes (m.appliedInput.insert stream v)).get? axis = m.appliedInput.get? axis := by
  cases hget : m.appliedInput.get? axis with
  | some off =>
    refine get?_pruneInputAxes ((m.appliedInput.get?_insert_ne v hne).trans hget) ?_
    rw [OrdMap.above_insert]
    exact hkept off hget
  | none =>
    cases hpruned : (pruneInputAxes (m.appliedInput.insert stream v)).get? axis with
    | none => rfl
    | some off =>
      obtain ⟨heq, -⟩ | ⟨-, hsome⟩ := get?_of_prune_insert hpruned
      · exact absurd heq hne
      · cases hget.symm.trans hsome

theorem write_others {s : InputRun} (hroom : InRoom s (.write conn data inputSeq send))
    (hheld : s.session.lease.isHeldBy conn = false) {axis : Nat}
    (haxis : inputSeq.map Prod.fst ≠ some axis) :
    (s.step (.write conn data inputSeq send)).session.appliedInput.get? axis =
      s.session.appliedInput.get? axis := by
  rcases enqueueWrite_cases s.session conn data inputSeq send with
    ⟨err, hadm, h⟩ | ⟨hadm, _⟩
  · rw [InputRun.step_write h]
    cases inputSeq with
    | none => rfl
    | some p =>
      obtain hnone | ⟨-, hkept⟩ := hroom
      · cases hadm.symm.trans hnone
      have hne : axis ≠ p.1 := fun heq => haxis (by simp [heq])
      exact get?_prune_insert_of_ne hne fun off hoff =>
        hkept _ (s.session.appliedInput.mem_of_get? hoff) hne
  · rw [Meta.isHeldBy_of_admission hadm] at hheld
    cases hheld

/-! ## The invariant -/

/-- Each of the axes that is in `m` is still there in `m'`, at no smaller an offset. -/
def Meta.GrowsOn (axes : List Nat) (m m' : Meta) : Prop :=
  ∀ axis ∈ axes, ∀ off, m.appliedInput.get? axis = some off →
    ∃ off', m'.appliedInput.get? axis = some off' ∧ off ≤ off'

theorem Meta.GrowsOn.of_insert {axes : List Nat} {m' : Meta} {stream v : Nat}
    (h : m'.appliedInput = m.appliedInput.insert stream v) (hv : m.applied stream ≤ v) :
    m.GrowsOn axes m' := by
  intro axis _ off hoff
  rw [h, OrdMap.get?_insert]
  split
  · rename_i heq
    refine ⟨v, rfl, ?_⟩
    rw [heq] at hoff
    simpa [Meta.applied, hoff] using hv
  · exact ⟨off, hoff, le_rfl⟩

theorem Meta.GrowsOn.of_prune {axes : List Nat} {m' : Meta} {stream v : Nat}
    (h : m'.appliedInput = pruneInputAxes (m.appliedInput.insert stream v))
    (hkept : ∀ axis ∈ axes, m.KeepsAxis stream axis)
    (hv : stream ∈ axes → m.applied stream ≤ v) : m.GrowsOn axes m' := by
  intro axis haxis off hoff
  rw [h]
  obtain rfl | hne := eq_or_ne axis stream
  · refine ⟨v, get?_pruneInputAxes (m.appliedInput.get?_insert_self axis v) ?_, ?_⟩
    · rw [OrdMap.above_insert]
      exact hkept axis haxis
    · simpa [Meta.applied, hoff] using hv haxis
  · exact ⟨off, (get?_prune_insert_of_ne hne fun _ _ => hkept axis haxis).trans hoff, le_rfl⟩

/-- The chunks of an axis lie in order below its applied offset. -/
structure InputInv (s : InputRun) : Prop where
  disjoint : ∀ axis, (s.onAxis axis).Pairwise (fun a b => a.start + a.data.length ≤ b.start)
  below : ∀ c ∈ s.enqueued, ∀ axis, c.axis = some axis →
    ∃ off, s.session.appliedInput.get? axis = some off ∧ c.start + c.data.length ≤ off

namespace InputInv

variable {s : InputRun}

theorem grow {s' : InputRun} (hs : InputInv s) (henq : s'.enqueued = s.enqueued)
    (hgrow : s.session.GrowsOn s.used s'.session) : InputInv s' where
  disjoint := by
    unfold InputRun.onAxis
    rw [henq]
    exact hs.disjoint
  below := by
    intro c hc axis haxis
    rw [henq] at hc
    obtain ⟨off, hoff, hle⟩ := hs.below c hc axis haxis
    obtain ⟨off', hoff', hle'⟩ := hgrow axis (mem_filterMap.2 ⟨c, hc, haxis⟩) off hoff
    exact ⟨off', hoff', le_trans hle hle'⟩

theorem unnumbered (hs : InputInv s) {c : Enqueued} (hc : c.axis = none) :
    InputInv { s with enqueued := s.enqueued ++ [c] } where
  disjoint := by
    intro axis
    simpa [InputRun.onAxis, filter_append, hc] using hs.disjoint axis
  below := by
    intro c' hc' axis haxis
    rcases mem_append.1 hc' with hold | hnew
    · exact hs.below c' hold axis haxis
    · rw [mem_singleton.1 hnew, hc] at haxis
      cases haxis

theorem numbered (hs : InputInv s) {m : Meta} {c : Enqueued} {stream seq : Nat}
    (haxis : c.axis = some stream) (hstart : c.start = s.session.applied stream)
    (hend : c.start + c.data.length = seq)
    (hm : m.appliedInput = s.session.appliedInput.insert stream seq) :
    InputInv { session := m, enqueued := s.enqueued ++ [c] } := by
  have hgrow : s.session.GrowsOn s.used m := .of_insert hm (by omega)
  refine ⟨?_, ?_⟩
  · intro axis
    unfold InputRun.onAxis
    rw [filter_append, pairwise_append]
    refine ⟨hs.disjoint axis, ?_, ?_⟩
    · exact (pairwise_singleton _ c).filter _
    intro a ha b hb
    obtain ⟨hmem, hax⟩ := mem_filter.1 ha
    obtain ⟨hb, hbx⟩ := mem_filter.1 hb
    rw [mem_singleton.1 hb]
    rw [mem_singleton.1 hb] at hbx
    obtain ⟨off, hoff, hle⟩ := hs.below a hmem axis (by simpa using hax)
    have hsame : stream = axis := by simpa [haxis] using hbx
    rw [hstart, hsame]
    simpa [Meta.applied, hoff] using hle
  intro c' hc' axis hax
  rcases mem_append.1 hc' with hold | hnew
  · obtain ⟨off, hoff, hle⟩ := hs.below c' hold axis hax
    obtain ⟨off', hoff', hle'⟩ := hgrow axis (mem_filterMap.2 ⟨c', hold, hax⟩) off hoff
    exact ⟨off', hoff', le_trans hle hle'⟩
  rw [mem_singleton.1 hnew] at hax ⊢
  rw [haxis, Option.some.injEq] at hax
  refine ⟨seq, ?_, le_of_eq hend⟩
  rw [← hax, hm]
  exact OrdMap.get?_insert_self _ _ _

theorem new (now : Nat) : InputInv (.new now) where
  disjoint := fun _ => .nil
  below := by simp [InputRun.new]

theorem write (hs : InputInv s) {conn : Nat} {data : List UInt8}
    {inputSeq : Option (Nat × Nat)} {send : SendOutcome}
    (hroom : InRoom s (.write conn data inputSeq send)) :
    InputInv (s.step (.write conn data inputSeq send)) := by
  rcases enqueueWrite_cases s.session conn data inputSeq send with
    ⟨err, hadm, h⟩ | ⟨_, ⟨reply, hreply, h⟩ | ⟨hnone, h⟩ | ⟨stream, seq, hsome, hlen, hle, hlt, h⟩⟩
  · rw [InputRun.step_write h, InputRun.sent_eq_nil (by simp), append_nil]
    cases inputSeq with
    | none => exact hs
    | some p =>
      obtain hnone | ⟨hkept, -⟩ := hroom
      · cases hadm.symm.trans hnone
      · exact hs.grow rfl (.of_prune rfl hkept fun _ => le_max_left _ _)
  · rw [InputRun.step_write h, InputRun.sent_eq_nil hreply, append_nil]
    exact hs
  · rw [InputRun.step_write h]
    refine hs.unnumbered ?_
    rw [hnone]
    rfl
  · subst hsome
    rw [InputRun.step_write h]
    refine hs.numbered rfl rfl ?_ rfl
    show s.session.applied stream +
      (data.drop (s.session.applied stream - (seq - data.length))).length = seq
    rw [length_drop]
    omega

theorem step (hs : InputInv s) {op : InputOp} (hroom : InRoom s op) :
    InputInv (s.step op) := by
  cases op with
  | write conn data inputSeq send => exact hs.write hroom
  | seed id from_ =>
    exact hs.grow rfl (.of_prune rfl hroom.1 hroom.2)
  | _ => exact hs.grow rfl (fun axis _ off hoff => ⟨off, hoff, le_rfl⟩)

end InputInv

/-! ## Isolation -/

/-- In every run whose steps all have room, the chunks enqueued on one axis
cover disjoint and increasing ranges of it, and every further step that has
room isolates the peers. -/
theorem input_isolated {now : Nat} {ops : List InputOp} {s : InputRun}
    (h : Run (fun s op => some (s.step op)) InRoom (.new now) ops s) :
    (∀ axis, (s.onAxis axis).Pairwise (fun a b => a.start + a.data.length ≤ b.start)) ∧
      ∀ op, InRoom s op → Isolated s op := by
  have hinv : InputInv s := by
    refine h.invariant ?_ (InputInv.new now)
    intro s op s' hroom hstep hs
    cases hstep
    exact hs.step hroom
  refine ⟨hinv.disjoint, fun op hroom => ⟨write_enqueue s op, ?_, ?_⟩⟩
  · rintro conn data inputSeq send rfl hreply
    exact write_unchanged s conn data inputSeq send hreply
  · rintro conn data inputSeq send rfl hheld axis haxis
    exact write_others hroom hheld haxis

def handover : List InputOp :=
  [.takeLease "device:a" 1 1 false, .write 1 [1, 2] (some (1, 2)) .ok, .reserve,
    .seed 2 (some 1), .takeLease "device:a" 2 2 false, .write 2 [2, 3] (some (2, 3)) .ok,
    .write 1 [9] (some (1, 3)) .ok]

theorem input_isolated_handover :
    ∃ s, Run (fun s op => some (s.step op)) InRoom (.new 0) handover s ∧
      InRoom s (.write 1 [9] (some (1, 4)) .ok) ∧
      (s.onAxis 2).Pairwise (fun a b => a.start + a.data.length ≤ b.start) ∧
      Isolated s (.write 1 [9] (some (1, 4)) .ok) := by
  have hrun : Run (fun s op => some (s.step op)) InRoom (.new 0) handover
      (handover.foldl InputRun.step (.new 0)) :=
    .of_execWhere rfl
  have hroom : InRoom (handover.foldl InputRun.step (.new 0)) (.write 1 [9] (some (1, 4)) .ok) := by
    decide
  obtain ⟨hdisj, hiso⟩ := input_isolated hrun
  exact ⟨_, hrun, hroom, hdisj 2, hiso _ hroom⟩

/-- A second attach opens its stream before the opener does, so the opener
holds the lease and the second attach is demoted.  Thirty-one attaches more
push the opener's axis out of the map, and its next chunk puts it back. -/
def fullMap : List InputOp :=
  [.reserve, .seed 2 (some 1), .takeLease "device:a" 2 2 false, .takeLease "device:a" 1 1 false] ++
  (List.range' 3 31).flatMap (fun id => [.reserve, .seed id (some 2)]) ++
  [.write 1 [97] (some (1, 1)) .ok]

/-- Then a chunk of the demoted attach, refused, removes the axis that the
lease holder is writing on. -/
theorem refused_write_drops_holder_axis :
    (fullMap.foldl InputRun.step (.new 0)).session.lease.isHeldBy 1 = true ∧
    (fullMap.foldl InputRun.step (.new 0)).session.appliedInput.get? 1 = some 1 ∧
    ((fullMap.foldl InputRun.step (.new 0)).step
      (.write 2 [98] (some (2, 1)) .ok)).session.appliedInput.get? 1 = none ∧
    ¬ Isolated (fullMap.foldl InputRun.step (.new 0)) (.write 2 [98] (some (2, 1)) .ok) := by
  have hbefore : (fullMap.foldl InputRun.step (.new 0)).session.appliedInput.get? 1 = some 1 := by
    decide +kernel
  have hafter : ((fullMap.foldl InputRun.step (.new 0)).step
      (.write 2 [98] (some (2, 1)) .ok)).session.appliedInput.get? 1 = none := by
    decide +kernel
  refine ⟨by decide +kernel, hbefore, hafter, fun hiso => ?_⟩
  have hsame := hiso.others 2 [98] (some (2, 1)) .ok rfl (by decide +kernel) 1 (by decide)
  rw [hbefore, hafter] at hsame
  cases hsame

end Qsh.Broker
