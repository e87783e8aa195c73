import Qsh.Broker.RingRead

/-!
# Following the replay ring

A follower starts at an offset and reads again and again, each time from the
cursor the last read returned, while output and control events are pushed in
between.  `FollowerLaw` is what it may rely on, in terms of the events it
received and of everything that was pushed.
-/

namespace Qsh.Broker

open Qsh.Lib List

/-! ## The runs -/

inductive RingOp
  | push (data : List UInt8)
  | pushControl (event : ControlEvent)
  | read (maxBytes : Nat)
  deriving DecidableEq, Repr

def ReplayRing.apply (r : ReplayRing) : RingOp → ReplayRing
  | .push data => r.push data
  | .pushControl event => r.pushControl event
  | .read _ => r

def History.apply (h : History) : RingOp → History
  | .push data => h.push data
  | .pushControl event => h.pushControl event
  | .read _ => h

/-- A consumer that feeds `ReadOut.next` back. -/
structure Follower where
  cursor : Cursor
  received : List ReplayEvent
  deriving DecidableEq, Repr

/-- One operation on the ring; a read moves the follower on. -/
def followStep (r : ReplayRing) (f : Follower) (op : RingOp) :
    Except ReadError (ReplayRing × Follower) :=
  match op with
  | .read maxBytes =>
      match r.read f.cursor maxBytes with
      | .ok out => .ok (r, { cursor := out.next, received := f.received ++ out.events })
      | .error e => .error e
  | op => .ok (r.apply op, f)

/-- A run of a ring and its follower; it fails as soon as a read does. -/
def follow (r : ReplayRing) (f : Follower) :
    List RingOp → Except ReadError (ReplayRing × Follower)
  | [] => .ok (r, f)
  | op :: ops =>
      match followStep r f op with
      | .ok (r', f') => follow r' f' ops
      | .error e => .error e

/-! ## The law -/

def ReplayEvent.after (pos : Nat) : ReplayEvent → Nat
  | .output sequence _ => sequence
  | .gap _ availableFrom => availableFrom
  | .control _ _ _ => pos

/-- The offset that these events reach. -/
def position (pos : Nat) (evs : List ReplayEvent) : Nat :=
  evs.foldl ReplayEvent.after pos

def ReplayEvent.ctlId? : ReplayEvent → Option Nat
  | .control _ id _ => some id
  | _ => none

def ctlIds (evs : List ReplayEvent) : List Nat :=
  evs.filterMap ReplayEvent.ctlId?

/-- The control with number `k` at offset `seq` was received, or a gap was
received whose range has `seq` in it. -/
def Accounted (evs : List ReplayEvent) (k seq : Nat) : Prop :=
  k + 1 ∈ ctlIds evs ∨ ∃ lo hi, .gap lo hi ∈ evs ∧ lo ≤ seq ∧ seq ≤ hi

theorem Accounted.cons {evs : List ReplayEvent} {k seq : Nat} (h : Accounted evs k seq)
    (e : ReplayEvent) : Accounted (e :: evs) k seq := by
  rcases h with hid | ⟨lo, hi, hg, hr⟩
  · refine .inl ?_
    rw [ctlIds, filterMap_cons]
    split
    · exact hid
    · exact mem_cons_of_mem _ hid
  · exact .inr ⟨lo, hi, mem_cons_of_mem _ hg, hr⟩

/-- The event lies behind the control with number `k` at offset `seq`. -/
def ReplayEvent.Passes (k seq : Nat) : ReplayEvent → Prop
  | .output sequence _ => seq < sequence
  | .control _ id _ => k + 1 < id
  | .gap _ _ => False

/-- What a follower from offset `a` has been told, against the whole history. -/
structure FollowerLaw (h : History) (a : Nat) (evs : List ReplayEvent) : Prop where
  /-- Output continues exactly where the events before it ended, and is the
  pushed stream there. -/
  output : ∀ pre sequence data post, evs = pre ++ .output sequence data :: post →
    data ≠ [] ∧ sequence = position a pre + data.length ∧
      sequence ≤ h.bytes.length ∧ slice h.bytes (position a pre) sequence = data
  /-- Offsets are skipped by a gap alone, and its ends are the skipped range. -/
  gap : ∀ pre lo hi post, evs = pre ++ .gap lo hi :: post →
    lo = position a pre ∧ lo ≤ hi ∧ hi ≤ h.bytes.length
  /-- A control is received at the offset it was pushed at. -/
  control : ∀ pre seq id event post, evs = pre ++ .control seq id event :: post →
    seq = position a pre ∧ a ≤ seq ∧ 0 < id ∧ h.ctls[id - 1]? = some (seq, event)
  /-- Control ids increase, so no control is received twice. -/
  ids : (ctlIds evs).Pairwise (· < ·)
  /-- Whatever lies behind a control comes after that control, or after a gap
  over its offset. -/
  skipped : ∀ pre e post, evs = pre ++ e :: post →
    ∀ k seq event, h.ctls[k]? = some (seq, event) → a ≤ seq → e.Passes k seq → Accounted pre k seq

/-! ## From positions to the law -/

namespace Told

variable {h : History} {pos c pos' c' : Nat} {evs : List ReplayEvent}

section

variable (ht : Told h pos c evs pos' c')
include ht

theorem position_eq : position pos evs = pos' := by
  induction ht with
  | nil => rfl
  | output _ _ _ _ ih | gap _ _ _ _ _ _ _ ih | control _ _ ih => exact ih

theorem ctlIds_gt : ∀ id ∈ ctlIds evs, c < id := by
  induction ht with
  | nil => simp [ctlIds]
  | output _ _ _ _ ih => exact ih
  | gap _ _ hc _ _ _ _ ih =>
    intro id hid
    have := ih id hid
    omega
  | control _ _ ih =>
    intro id hid
    rcases mem_cons.1 hid with rfl | hid
    · omega
    · have := ih id hid
      omega

theorem ctlIds_pairwise :
    (ctlIds evs).Pairwise (· < ·) := by
  induction ht with
  | nil => exact .nil
  | output _ _ _ _ ih | gap _ _ _ _ _ _ _ ih => exact ih
  | control _ hr ih => exact .cons hr.ctlIds_gt ih

theorem accounted {k seq : Nat} {event : ControlEvent}
    (hk : h.ctls[k]? = some (seq, event)) (hck : c ≤ k) (hkc : k < c') :
    Accounted evs k seq := by
  induction ht with
  | nil => omega
  | output _ _ _ _ ih => exact (ih hck hkc).cons _
  | @gap pos c hi c₁ _ _ _ _ _ _ _ hskip _ _ ih =>
    by_cases hlt : k < c₁
    · exact .inr ⟨pos, hi, mem_cons_self, hskip k _ hck hlt hk⟩
    · exact (ih (by omega) hkc).cons _
  | @control pos c _ _ _ _ _ _ ih =>
    by_cases hkeq : k = c
    · exact .inl (hkeq ▸ mem_cons_self)
    · exact (ih (by omega) hkc).cons _

/-- What a follower was told obeys the law, when everything in front of its
start was counted at the start and nothing else. -/
theorem law (hstart : ∀ k p, h.ctls[k]? = some p → (pos ≤ p.1 ↔ c ≤ k)) :
    FollowerLaw h pos evs where
  output := by
    rintro pre sequence data post rfl
    obtain ⟨pos₁, c₁, hpre, hrest⟩ := ht.split
    cases hrest with
    | output hne hd _ _ =>
      rw [hpre.position_eq]
      exact ⟨hne, rfl, le_length_of_slice hne hd, hd⟩
  gap := by
    rintro pre lo hi post rfl
    obtain ⟨pos₁, c₁, hpre, hrest⟩ := ht.split
    cases hrest with
    | gap hhi hend _ _ _ _ _ => exact ⟨hpre.position_eq.symm, hhi, hend⟩
  control := by
    rintro pre seq id event post rfl
    obtain ⟨pos₁, c₁, hpre, hrest⟩ := ht.split
    cases hrest with
    | control hc _ => exact ⟨hpre.position_eq.symm, hpre.pos_le, by omega, hc⟩
  ids := ht.ctlIds_pairwise
  skipped := by
    rintro pre e post rfl k seq event hk hseq hpass
    obtain ⟨pos₁, c₁, hpre, hrest⟩ := ht.split
    refine hpre.accounted hk ((hstart k _ hk).1 hseq) ?_
    cases hrest with
    | output _ _ ha _ =>
      by_contra hge
      exact absurd (ha k _ (by omega) hk) (Nat.not_le.2 hpass)
    | gap _ _ _ _ _ _ _ => exact hpass.elim
    | control _ _ =>
      have : k + 1 < c₁ + 1 := hpass
      omega

end

end Told

/-! ## The run -/

theorem History.exists_cut (h : History) (a : Nat) :
    ∃ c ≤ h.ctls.length, ∀ k p, h.ctls[k]? = some p → (a ≤ p.1 ↔ c ≤ k) := by
  refine ⟨h.ctls.findIdx (fun p => decide (a ≤ p.1)), findIdx_le_length, ?_⟩
  intro k p hp
  obtain ⟨hlt, hpk⟩ := List.getElem?_eq_some_iff.1 hp
  constructor
  · intro hap
    by_contra hlt'
    have hbefore := not_of_lt_findIdx (Nat.not_le.1 hlt')
    rw [hpk] at hbefore
    exact of_decide_eq_false hbefore hap
  · intro hck
    have hfound := @findIdx_getElem _ (fun p => decide (a ≤ p.1)) h.ctls (by omega)
    have hle := h.ctls_le (getElem?_eq_getElem (by omega)) hp hck
    exact Nat.le_trans (of_decide_eq_true hfound) hle

/-- A ring and its follower in the middle of a run that started at offset `a`
with `c₀` controls in front of it. -/
structure Following (h : History) (a c₀ : Nat) (r : ReplayRing) (f : Follower) : Prop where
  ring : RingInv r h
  start : ∀ k p, h.ctls[k]? = some p → (a ≤ p.1 ↔ c₀ ≤ k)
  told : ∃ c, Told h a c₀ f.received f.cursor.after c ∧ Tracks h f.cursor.after f.cursor c

namespace Following

variable {h h' : History} {a c₀ : Nat} {r : ReplayRing} {f : Follower}

theorem fromOffset (hinv : RingInv r h) (ha : a ≤ r.endSeq) :
    ∃ c₀, Following h a c₀ r { cursor := .fromOffset a, received := [] } := by
  obtain ⟨c₀, hlen, hcut⟩ := h.exists_cut a
  have hbehind : ∀ k p, k < c₀ → h.ctls[k]? = some p → p.1 < a := by
    intro k p hk hp
    by_contra hge
    have := (hcut k p hp).1 (by omega)
    omega
  refine ⟨c₀, hinv, hcut, c₀, .nil _ _, Nat.le_refl _, ?_, hlen, Nat.zero_le _, ?_, ?_, ?_⟩
  · exact hinv.endSeq_eq ▸ ha
  · exact fun k p _ hk hp => hbehind k p hk hp
  · exact fun k p hk hp => Nat.le_of_lt (hbehind k p hk hp)
  · exact fun k p hck hp => (hcut k p hp).2 hck

theorem push {r' : ReplayRing} (hf : Following h a c₀ r f) (hle : h.Le h')
    (hinv : RingInv r' h') : Following h' a c₀ r' f := by
  obtain ⟨c, htold, htr⟩ := hf.told
  refine ⟨hinv, ?_, c, htold.mono hle, htr.mono hle⟩
  intro k p hp
  rcases hle.ctls_new hp with hold | ⟨hk, hseq⟩
  · exact hf.start k p hold
  have h₁ := htold.pos_le
  have h₂ := htold.c_le
  have h₃ := htr.after_le
  have h₄ := htr.c_le
  exact iff_of_true (by omega) (by omega)

section

variable (hf : Following h a c₀ r f)
include hf

theorem read (maxBytes : Nat) :
    ∃ out c, r.read f.cursor maxBytes = .ok out ∧
      Told h a c₀ (f.received ++ out.events) out.next.after c ∧
      CaughtUp h out.next.after c ∧
      Following h a c₀ r { cursor := out.next, received := f.received ++ out.events } := by
  obtain ⟨c, htold, htr⟩ := hf.told
  obtain ⟨out, c', hread, htold', htr', hcaught⟩ := read_told hf.ring htr maxBytes
  exact ⟨out, c', hread, htold.append htold', hcaught, hf.ring, hf.start, c',
    htold.append htold', htr'⟩

theorem step (op : RingOp) :
    ∃ r' f', followStep r f op = .ok (r', f') ∧ Following (h.apply op) a c₀ r' f' := by
  cases op with
  | push data =>
    exact ⟨_, _, rfl, hf.push (h.le_push data) (hf.ring.push data)⟩
  | pushControl event =>
    exact ⟨_, _, rfl, hf.push (h.le_pushControl event) (hf.ring.pushControl event)⟩
  | read maxBytes =>
    obtain ⟨out, _, hread, _, _, hf'⟩ := hf.read maxBytes
    refine ⟨r, _, ?_, hf'⟩
    unfold followStep
    dsimp only
    rw [hread]

theorem run (ops : List RingOp) :
    ∃ r' f', follow r f ops = .ok (r', f') ∧ Following (ops.foldl History.apply h) a c₀ r' f' := by
  induction ops generalizing h r f with
  | nil => exact ⟨r, f, rfl, hf⟩
  | cons op ops ih =>
    obtain ⟨r₁, f₁, hstep, hf₁⟩ := hf.step op
    obtain ⟨r', f', hrun, hf'⟩ := ih hf₁
    refine ⟨r', f', ?_, hf'⟩
    unfold follow
    rw [hstep]
    exact hrun

end

end Following

theorem RingInv.apply {r : ReplayRing} {h : History} (hinv : RingInv r h) (ops : List RingOp) :
    RingInv (ops.foldl ReplayRing.apply r) (ops.foldl History.apply h) := by
  induction ops generalizing r h with
  | nil => exact hinv
  | cons op ops ih =>
    refine ih ?_
    cases op with
    | push data => exact hinv.push data
    | pushControl event => exact hinv.pushControl event
    | read _ => exact hinv

/-- The follower law.  For every budget, every run before the follower starts,
every start that is not beyond the end, and every run after it: no read fails,
and what the follower received obeys the law.  One more read of any size
reaches every control up to the offset it leads to, and a gap in it runs to
the oldest retained offset, with equal ends when only controls were lost. -/
theorem follow_obeys_law (budget : Nat) (before : List RingOp) (a : Nat)
    (ha : a ≤ (before.foldl ReplayRing.apply (ReplayRing.new budget)).endSeq)
    (ops : List RingOp) :
    ∃ r f, follow (before.foldl ReplayRing.apply (ReplayRing.new budget))
        { cursor := .fromOffset a, received := [] } ops = .ok (r, f) ∧
      FollowerLaw ((before ++ ops).foldl History.apply .empty) a f.received ∧
      ∀ maxBytes, ∃ out, r.read f.cursor maxBytes = .ok out ∧
        FollowerLaw ((before ++ ops).foldl History.apply .empty) a (f.received ++ out.events) ∧
        (∀ k seq event, ((before ++ ops).foldl History.apply .empty).ctls[k]? =
          some (seq, event) → a ≤ seq → seq ≤ out.next.after →
          Accounted (f.received ++ out.events) k seq) ∧
        ∀ lo hi, .gap lo hi ∈ out.events → hi = max lo r.availableFrom := by
  have hinv := (RingInv.new budget).apply before
  obtain ⟨c₀, hstart⟩ := Following.fromOffset hinv ha
  obtain ⟨r, f, hrun, hf⟩ := hstart.run ops
  rw [foldl_append]
  refine ⟨r, f, hrun, ?_, ?_⟩
  · obtain ⟨c, htold, _⟩ := hf.told
    exact htold.law hf.start
  intro maxBytes
  obtain ⟨out, c, hread, htold, hcaught, _⟩ := hf.read maxBytes
  refine ⟨out, hread, htold.law hf.start, ?_, fun lo hi hg => (read_gap hread hg).2⟩
  intro k seq event hk haseq hseq
  refine htold.accounted hk ((hf.start k _ hk).1 haseq) ?_
  by_contra hge
  exact absurd (hcaught k _ (by omega) hk) (Nat.not_lt.2 hseq)

def evictedBefore : List RingOp :=
  [.push [1, 2, 3], .pushControl (.writerChanged none)]

/-- With a budget of one byte the second control forces the first one out. -/
def evictedOps : List RingOp :=
  [.pushControl (.closed .closed), .read 0, .push [4], .read 8]

/-- A budget of one byte keeps one entry.  The follower starts at offset `1` of
a stream whose first three bytes are gone, and the control it waits for is
forced out. -/
theorem follow_obeys_law_evicted :
    1 ≤ (evictedBefore.foldl ReplayRing.apply (ReplayRing.new 1)).endSeq ∧
    ∃ r f, follow (evictedBefore.foldl ReplayRing.apply (ReplayRing.new 1))
        { cursor := .fromOffset 1, received := [] } evictedOps = .ok (r, f) ∧
      FollowerLaw ((evictedBefore ++ evictedOps).foldl History.apply .empty) 1 f.received := by
  refine ⟨by decide, ?_⟩
  obtain ⟨r, f, hrun, hlaw, _⟩ :=
    follow_obeys_law 1 evictedBefore 1 (by decide) evictedOps
  exact ⟨r, f, hrun, hlaw⟩

end Qsh.Broker
