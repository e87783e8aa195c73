import Qsh.Broker.RingLayout

/-!
# What one read tells its consumer

A consumer stands at a position of the history: an offset of the output stream, and the
number of control events behind it.  `Told h pos c events pos' c'` says that `events` lead
from one position to another: an output chunk is the next bytes of the stream, a control is
the next control event and sits exactly at the offset, and a gap says which offsets it
jumps over.  No event passes a control that is still ahead.

A cursor is less than a position: `ctlAfter` is the last id received, and the ids that
a jump passed over are not in it.
-/

namespace Qsh.Broker

open Qsh.Lib

/-! ## Positions -/

/-- The events from number `c` on stand at `pos` or later. -/
def Ahead (h : History) (pos c : Nat) : Prop :=
  ∀ k p, c ≤ k → h.ctls[k]? = some p → pos ≤ p.1

variable {h : History} {c : Nat} {cur : Cursor}

theorem Ahead.mono {h' : History} (hle : h.Le h') {pos : Nat}
    (hpos : pos ≤ h.bytes.length) (ha : Ahead h pos c) : Ahead h' pos c := by
  intro k p hck hp
  rcases hle.ctls_new hp with hold | ⟨_, hnew⟩
  · exact ha k p hck hold
  · omega

/-- `events` lead a consumer from position `(pos, c)` to `(pos', c')`. -/
inductive Told (h : History) : Nat → Nat → List ReplayEvent → Nat → Nat → Prop
  | nil (pos c : Nat) : Told h pos c [] pos c
  | output {pos c pos' c' : Nat} {data : List UInt8} {rest : List ReplayEvent}
      (hne : data ≠ []) (hd : slice h.bytes pos (pos + data.length) = data)
      (ha : Ahead h (pos + data.length) c)
      (hr : Told h (pos + data.length) c rest pos' c') :
      Told h pos c (.output (pos + data.length) data :: rest) pos' c'
  | gap {pos c hi c₁ pos' c' : Nat} {rest : List ReplayEvent}
      (hhi : pos ≤ hi) (hend : hi ≤ h.bytes.length) (hc : c ≤ c₁)
      (hlen : c₁ ≤ h.ctls.length)
      (hskip : ∀ k p, c ≤ k → k < c₁ → h.ctls[k]? = some p → pos ≤ p.1 ∧ p.1 ≤ hi)
      (ha : Ahead h hi c₁) (hr : Told h hi c₁ rest pos' c') :
      Told h pos c (.gap pos hi :: rest) pos' c'
  | control {pos c pos' c' : Nat} {event : ControlEvent} {rest : List ReplayEvent}
      (hc : h.ctls[c]? = some (pos, event)) (hr : Told h pos (c + 1) rest pos' c') :
      Told h pos c (.control pos (c + 1) event :: rest) pos' c'

namespace Told

variable {h h' : History} {pos c pos' c' : Nat} {evs evs' : List ReplayEvent}

theorem append {pos₁ c₁ : Nat} (ht : Told h pos c evs pos₁ c₁)
    (ht' : Told h pos₁ c₁ evs' pos' c') : Told h pos c (evs ++ evs') pos' c' := by
  induction ht with
  | nil => exact ht'
  | output hne hd ha _ ih => exact .output hne hd ha (ih ht')
  | gap hhi hend hc hlen hskip ha _ ih => exact .gap hhi hend hc hlen hskip ha (ih ht')
  | control hc _ ih => exact .control hc (ih ht')

theorem split (ht : Told h pos c (evs ++ evs') pos' c') :
    ∃ pos₁ c₁, Told h pos c evs pos₁ c₁ ∧ Told h pos₁ c₁ evs' pos' c' := by
  induction evs generalizing pos c with
  | nil => exact ⟨pos, c, .nil pos c, ht⟩
  | cons e evs ih =>
    cases ht with
    | output hne hd ha hr =>
      obtain ⟨pos₁, c₁, h₁, h₂⟩ := ih hr
      exact ⟨pos₁, c₁, .output hne hd ha h₁, h₂⟩
    | gap hhi hend hc hlen hskip ha hr =>
      obtain ⟨pos₁, c₁, h₁, h₂⟩ := ih hr
      exact ⟨pos₁, c₁, .gap hhi hend hc hlen hskip ha h₁, h₂⟩
    | control hc hr =>
      obtain ⟨pos₁, c₁, h₁, h₂⟩ := ih hr
      exact ⟨pos₁, c₁, .control hc h₁, h₂⟩

theorem mono (hle : h.Le h') (ht : Told h pos c evs pos' c') :
    Told h' pos c evs pos' c' := by
  induction ht with
  | nil pos c => exact .nil pos c
  | output hne hd ha _ ih =>
    have hin := le_length_of_slice hne hd
    refine .output hne ?_ (ha.mono hle hin) ih
    rw [hle.slice_eq hin]
    exact hd
  | gap hhi hend hc hlen hskip ha _ ih =>
    refine .gap hhi (Nat.le_trans hend hle.length_le) hc
      (Nat.le_trans hlen hle.ctls_length_le) ?_ (ha.mono hle hend) ih
    intro k p hck hkc hp
    rcases hle.ctls_new hp with hold | ⟨hnew, _⟩
    · exact hskip k p hck hkc hold
    · omega
  | control hc _ ih => exact .control (hle.ctls_getElem? hc) ih

theorem pos_le (ht : Told h pos c evs pos' c') : pos ≤ pos' := by
  induction ht with
  | nil => exact Nat.le_refl _
  | output | gap => omega
  | control _ _ ih => exact ih

theorem c_le (ht : Told h pos c evs pos' c') : c ≤ c' := by
  induction ht with
  | nil => exact Nat.le_refl _
  | output _ _ _ _ ih => exact ih
  | gap | control => omega

end Told

/-! ## Cursors -/

/-- The cursor `cur` stands at position `(cur.after, c)`.  The controls that
`c` counts and `ctlAfter` does not are strictly behind `low`, which is where
the next read, or the current one, starts. -/
structure Tracks (h : History) (low : Nat) (cur : Cursor) (c : Nat) : Prop where
  low_le : low ≤ cur.after
  after_le : cur.after ≤ h.bytes.length
  c_le : c ≤ h.ctls.length
  ctlAfter_le : cur.ctlAfter ≤ c
  unreported : ∀ k p, cur.ctlAfter ≤ k → k < c → h.ctls[k]? = some p → p.1 < low
  past : ∀ k p, k < c → h.ctls[k]? = some p → p.1 ≤ cur.after
  ahead : Ahead h cur.after c

namespace Tracks

variable {h h' : History} {low c : Nat} {cur : Cursor}

theorem mono (hle : h.Le h') (ht : Tracks h low cur c) : Tracks h' low cur c where
  __ := ht
  after_le := Nat.le_trans ht.after_le hle.length_le
  c_le := Nat.le_trans ht.c_le hle.ctls_length_le
  unreported := by
    intro k p hk hkc hp
    rcases hle.ctls_new hp with hold | ⟨hnew, _⟩
    · exact ht.unreported k p hk hkc hold
    · have := ht.c_le
      omega
  past := by
    intro k p hkc hp
    rcases hle.ctls_new hp with hold | ⟨hnew, _⟩
    · exact ht.past k p hkc hold
    · have := ht.c_le
      omega
  ahead := ht.ahead.mono hle ht.after_le

section

variable (ht : Tracks h low cur c)
include ht

theorem rest : Tracks h cur.after cur c :=
  { ht with
    low_le := Nat.le_refl _
    unreported := fun k p hk hkc hp =>
      Nat.lt_of_lt_of_le (ht.unreported k p hk hkc hp) ht.low_le }

theorem output {n : Nat} (hn : cur.after + n ≤ h.bytes.length) (ha : Ahead h (cur.after + n) c) :
    Tracks h low { cur with after := cur.after + n } c where
  low_le := Nat.le_trans ht.low_le (Nat.le_add_right _ _)
  after_le := hn
  __ := ht
  past := fun k p hkc hp => Nat.le_trans (ht.past k p hkc hp) (Nat.le_add_right _ _)
  ahead := ha

theorem control {event : ControlEvent} (hc : h.ctls[c]? = some (cur.after, event)) :
    Tracks h low { cur with ctlAfter := c + 1 } (c + 1) where
  __ := ht
  c_le := (List.getElem?_eq_some_iff.1 hc).1
  ctlAfter_le := Nat.le_refl _
  unreported := fun k p hk hkc _ => absurd hkc (Nat.not_lt.2 hk)
  past := by
    intro k p hkc hp
    by_cases hkeq : k = c
    · rw [hkeq, hc, Option.some.injEq] at hp
      subst hp
      exact Nat.le_refl _
    · exact ht.past k p (by omega) hp
  ahead := fun k p hck hp => ht.ahead k p (by omega) hp

theorem mark {id : Nat} (hid : id ≤ c) :
    Tracks h low { cur with ctlAfter := max cur.ctlAfter id } c :=
  { ht with
    ctlAfter_le := Nat.max_le.2 ⟨ht.ctlAfter_le, hid⟩
    unreported := fun k p hk hkc hp =>
      ht.unreported k p (Nat.le_trans (Nat.le_max_left _ _) hk) hkc hp }

theorem lt_of_behind {k : Nat} {p : Nat × ControlEvent}
    (hp : h.ctls[k]? = some p) (hlt : p.1 < cur.after) : k < c := by
  by_contra hge
  have := ht.ahead k p (by omega) hp
  omega

end

end Tracks

/-- After a read nothing is left at the position itself: the controls still
ahead are strictly ahead. -/
def CaughtUp (h : History) (pos c : Nat) : Prop :=
  ∀ k p, c ≤ k → h.ctls[k]? = some p → pos < p.1

/-! ## The loop of `read` -/

/-- What a read that stands at `(cur, c)` returns: events that lead to the
position its next cursor stands at, with nothing left there. -/
def ReadSpec (h : History) (low : Nat) (cur : Cursor) (c : Nat) (out : ReadOut) : Prop :=
  ∃ c', Told h cur.after c out.events out.next.after c' ∧ Tracks h low out.next c' ∧
    CaughtUp h out.next.after c'

/-- The loop over entries laid out from `(off, d)`.  Everything in front of
them is behind the cursor, and the cursor has either not moved in this read or
stands at their beginning. -/
theorem readLoop_spec {low off d : Nat} {entries : List Entry}
    (hl : Laid h off d entries h.bytes.length h.ctls.length)
    (ht : Tracks h low cur c) (hoff : off ≤ cur.after) (hd : d ≤ c)
    (hcur : cur.after = low ∨ cur.after = off) (remaining : Nat) :
    ReadSpec h low cur c (ReplayRing.readLoop low entries cur.after remaining cur.ctlAfter) := by
  generalize hend : h.bytes.length = last at hl
  generalize htotal : h.ctls.length = total at hl
  induction hl generalizing cur c remaining with
  | nil off d =>
    refine ⟨c, .nil _ _, ht, ?_⟩
    intro k p hck hp
    have := (List.getElem?_eq_some_iff.1 hp).1
    omega
  | @output off d _ _ data rest hne hdata hr ih =>
    subst hend htotal
    have hpos : 0 < data.length := List.length_pos_iff.2 hne
    have hin := le_length_of_slice hne hdata
    -- every control still ahead is behind this chunk in the layout
    have hbehind : ∀ k p, c ≤ k → h.ctls[k]? = some p → off + data.length ≤ p.1 :=
      fun k p hck hp => (hr.ctls_within hp (by omega) (List.getElem?_eq_some_iff.1 hp).1).1
    unfold ReplayRing.readLoop
    by_cases hskip : off + data.length ≤ cur.after
    · rw [if_pos hskip]
      exact ih ht hskip hd (.inl (by omega)) remaining rfl rfl
    rw [if_neg hskip]
    by_cases hzero : remaining = 0
    · rw [if_pos hzero]
      refine ⟨c, .nil _ _, ht, fun k p hck hp => ?_⟩
      have := hbehind k p hck hp
      show cur.after < p.1
      omega
    rw [if_neg hzero]
    dsimp only
    generalize hn : min (data.length - (cur.after - off)) remaining = n
    have hchunk : (data.drop (cur.after - off)).take n =
        slice h.bytes cur.after (cur.after + n) := by
      rw [← hdata, drop_slice, take_slice h.bytes (by omega)]
      rw [show off + (cur.after - off) = cur.after by omega]
    have hlen : ((data.drop (cur.after - off)).take n).length = n := by
      rw [List.length_take, List.length_drop]
      omega
    have hahead : Ahead h (cur.after + n) c := by
      intro k p hck hp
      have := hbehind k p hck hp
      omega
    have htold : ∀ {evs pos' c'}, Told h (cur.after + n) c evs pos' c' → Told h cur.after c
          (.output (cur.after + n) ((data.drop (cur.after - off)).take n) :: evs)
          pos' c' := by
      intro evs pos' c' htail
      have hcons := @Told.output h cur.after c pos' c'
        ((data.drop (cur.after - off)).take n) evs (List.ne_nil_of_length_pos (by omega))
      rw [hlen] at hcons
      exact hcons hchunk.symm hahead htail
    have ht' := ht.output (n := n) (by omega) hahead
    by_cases hmid : n < data.length - (cur.after - off)
    · rw [if_pos hmid]
      refine ⟨c, htold (.nil _ _), ht', fun k p hck hp => ?_⟩
      have := hbehind k p hck hp
      show cur.after + n < p.1
      omega
    rw [if_neg hmid]
    have hfull : cur.after + n = off + data.length := by omega
    obtain ⟨c', htail, htr, hcaught⟩ :=
      ih ht' (Nat.le_of_eq hfull.symm) hd (.inr hfull) (remaining - n) rfl rfl
    exact ⟨c', htold htail, htr, hcaught⟩
  | @control off d _ _ event rest hc hr ih =>
    subst hend htotal
    unfold ReplayRing.readLoop
    by_cases hold : off < low
    · -- behind the start of this read, so it was counted before
      rw [if_pos hold]
      have hlow := ht.low_le
      have hdc : d < c := ht.lt_of_behind hc (show off < cur.after by omega)
      exact ih (ht.mark hdc) hoff hdc hcur remaining rfl rfl
    rw [if_neg hold, if_neg (show ¬ cur.after < off by omega)]
    by_cases hseen : d + 1 ≤ cur.ctlAfter
    · rw [if_pos hseen]
      have := ht.ctlAfter_le
      exact ih ht hoff (by omega) hcur remaining rfl rfl
    rw [if_neg hseen]
    have hdc : d = c := by
      by_contra hne
      exact hold (ht.unreported d _ (by omega) (by omega) hc)
    have hhere : cur.after = off := by omega
    subst hdc
    have hc' := hc
    rw [← hhere] at hc'
    obtain ⟨c', htail, htr, hcaught⟩ :=
      ih (ht.control hc') hoff (Nat.le_refl _) (.inr hhere) remaining rfl rfl
    refine ⟨c', ?_, htr, hcaught⟩
    rw [← hhere]
    exact .control hc' htail

/-! ## The start of `read` -/

/-- A jump to `hi` over everything up to number `d`, as a gap event, lands on a
position again when the ids it does not mark are strictly behind. -/
theorem Tracks.gap {hi d ctl : Nat}
    (ht : Tracks h cur.after cur c) (hhi : cur.after ≤ hi) (hend : hi ≤ h.bytes.length)
    (hd : d ≤ h.ctls.length) (hdrop : ∀ k p, k < d → h.ctls[k]? = some p → p.1 ≤ hi)
    (hahead : Ahead h hi (max c d)) (hctl : ctl ≤ max c d)
    (hun : ∀ k p, ctl ≤ k → k < max c d → h.ctls[k]? = some p → p.1 < hi) :
    Told h cur.after c [.gap cur.after hi] hi (max c d) ∧ Tracks h hi ⟨hi, ctl⟩ (max c d) := by
  have hlen : max c d ≤ h.ctls.length := Nat.max_le.2 ⟨ht.c_le, hd⟩
  refine ⟨.gap hhi hend (by omega) hlen ?_ hahead (.nil _ _), ?_⟩
  · intro k p hck hkd hp
    exact ⟨ht.ahead k p hck hp, hdrop k p (by omega) hp⟩
  refine ⟨Nat.le_refl _, hend, hlen, hctl, hun, ?_, hahead⟩
  intro k p hk hp
  by_cases hkc : k < c
  · exact Nat.le_trans (ht.past k p hkc hp) hhi
  · exact hdrop k p (by omega) hp

/-- The three ways a read can start, where it starts being `from_`: controls
were forced out at `from_` that the cursor has not received, bytes were lost,
or nothing was. -/
theorem readStart_cases (r : ReplayRing) (cur : Cursor) {from_ : Nat}
    (hfrom : from_ = max cur.after r.availableFrom) :
    (∃ lostSeq lostId, r.lostCtl = some (lostSeq, lostId) ∧ cur.ctlAfter < lostId ∧
        from_ ≤ lostSeq ∧
        r.readStart cur = ([.gap cur.after from_], from_, lostId)) ∨
      (∀ lostSeq lostId, r.lostCtl = some (lostSeq, lostId) →
          ¬ (cur.ctlAfter < lostId ∧ from_ ≤ lostSeq)) ∧
        (cur.after < from_ ∧ r.readStart cur = ([.gap cur.after from_], from_, cur.ctlAfter) ∨
          cur.after = from_ ∧ r.readStart cur = ([], from_, cur.ctlAfter)) := by
  unfold ReplayRing.readStart
  dsimp only
  by_cases hold : cur.after < r.availableFrom
  · have hf : from_ = r.availableFrom := by omega
    rw [if_pos hold, ← hf]
    cases hlost : r.lostCtl with
    | none => exact .inr ⟨by simp, .inl ⟨by omega, rfl⟩⟩
    | some lost =>
      by_cases hcond : cur.ctlAfter < lost.2 ∧ from_ ≤ lost.1
      · exact .inl ⟨lost.1, lost.2, rfl, hcond.1, hcond.2, by simp [hcond]⟩
      · refine .inr ⟨?_, .inl ⟨by omega, by simp [hcond]⟩⟩
        rintro _ _ ⟨rfl⟩
        exact hcond
  have hf : from_ = cur.after := by omega
  rw [if_neg hold, hf]
  cases hlost : r.lostCtl with
  | none => exact .inr ⟨by simp, .inr ⟨rfl, rfl⟩⟩
  | some lost =>
    by_cases hcond : cur.ctlAfter < lost.2 ∧ cur.after ≤ lost.1
    · exact .inl ⟨lost.1, lost.2, rfl, hcond.1, hcond.2, by simp [hcond]⟩
    · refine .inr ⟨?_, .inr ⟨rfl, by simp [hcond]⟩⟩
      rintro _ _ ⟨rfl⟩
      exact hcond

variable {r : ReplayRing}

/-- What comes before the loop: at most one gap, and then the cursor stands at
or behind the oldest retained offset with every dropped control counted. -/
theorem readStart_spec {d : Nat}
    (hl : Laid h r.availableFrom d r.entries h.bytes.length h.ctls.length)
    (hd : d ≤ h.ctls.length) (hdrop : Dropped h r.availableFrom d r.lostCtl)
      (ht : Tracks h cur.after cur c) :
    ∃ evs from_ ctl c', r.readStart cur = (evs, from_, ctl) ∧
      Told h cur.after c evs from_ c' ∧ Tracks h from_ ⟨from_, ctl⟩ c' ∧
      r.availableFrom ≤ from_ ∧ d ≤ c' := by
  have hend := hl.off_le
  have hctl := ht.ctlAfter_le
  generalize hfrom : max cur.after r.availableFrom = from_
  have hbehind : ∀ k p, k < d → h.ctls[k]? = some p → p.1 ≤ from_ := by
    intro k p hk hp
    have := hdrop.seq_le hk hp
    omega
  have hring : Ahead h from_ (max c d) := by
    intro k p hk hp
    have h₁ := (hl.ctls_within hp (by omega) (List.getElem?_eq_some_iff.1 hp).1).1
    have h₂ := ht.ahead k p (by omega) hp
    omega
  -- what is counted and not marked is strictly behind, once the mark covers
  -- the controls that were forced out here
  have hun : ∀ ctl, cur.ctlAfter ≤ ctl → (∀ lostSeq lostId,
      r.lostCtl = some (lostSeq, lostId) → from_ ≤ lostSeq → lostId ≤ ctl) →
      ∀ k p, ctl ≤ k → k < max c d → h.ctls[k]? = some p → p.1 < from_ := by
    intro ctl hle hcover k p hk hkm hp
    by_cases hkd : k < d
    · rcases hdrop.behind k p hkd hp with hlt | ⟨heq, lostId, hlost, hkl⟩
      · omega
      by_contra hge
      have := hcover _ lostId hlost (by omega)
      omega
    · have := ht.unreported k p (by omega) (by omega) hp
      omega
  rcases readStart_cases r cur hfrom.symm with
    ⟨lostSeq, lostId, hlost, hlt, hle, hstart⟩ | ⟨hnone, hrest⟩
  · obtain ⟨hseq, hid⟩ := hdrop.lost_le lostSeq lostId hlost
    have hcover : ∀ s i, r.lostCtl = some (s, i) → from_ ≤ s → i ≤ lostId := by
      intro s i hsi _
      rw [hlost] at hsi
      cases hsi
      exact Nat.le_refl _
    obtain ⟨htold, htr⟩ := ht.gap (by omega) (by omega) hd hbehind hring (by omega)
      (hun lostId (by omega) hcover)
    exact ⟨_, _, _, _, hstart, htold, htr, by omega, Nat.le_max_right _ _⟩
  have hcover : ∀ s i, r.lostCtl = some (s, i) → from_ ≤ s → i ≤ cur.ctlAfter := by
    intro s i hsi hs
    by_contra hlt
    exact hnone s i hsi ⟨by omega, hs⟩
  rcases hrest with ⟨_, hstart⟩ | ⟨hsame, hstart⟩
  · obtain ⟨htold, htr⟩ := ht.gap (by omega) (by omega) hd hbehind hring (by omega)
      (hun cur.ctlAfter (Nat.le_refl _) hcover)
    exact ⟨_, _, _, _, hstart, htold, htr, by omega, Nat.le_max_right _ _⟩
  subst hsame
  refine ⟨_, _, _, c, hstart, .nil _ _, ht, by omega, ?_⟩
  -- a dropped control that is not counted would have been reported as lost
  by_contra hcd
  obtain ⟨p, hp⟩ : ∃ p, h.ctls[c]? = some p := ⟨_, List.getElem?_eq_getElem (by omega)⟩
  have h₁ := hun cur.ctlAfter (Nat.le_refl _) hcover c p hctl (by omega) hp
  have h₂ := ht.ahead c p (Nat.le_refl _) hp
  omega

/-! ## The specification of `read` -/

/-- A read from a cursor that stands at a position succeeds, and tells the
consumer what lies between that position and the one of the next cursor. -/
theorem read_told (hinv : RingInv r h) (ht : Tracks h cur.after cur c) (maxBytes : Nat) :
    ∃ out c', r.read cur maxBytes = .ok out ∧ Told h cur.after c out.events out.next.after c' ∧
      Tracks h out.next.after out.next c' ∧ CaughtUp h out.next.after c' := by
  obtain ⟨d, hl, hd, hdrop⟩ := hinv.laid
  obtain ⟨evs, from_, ctl, c₁, hstart, htold, htr, hfrom, hdc⟩ :=
    readStart_spec hl hd hdrop ht
  obtain ⟨c', hloop, htr', hcaught⟩ :=
    readLoop_spec hl htr hfrom hdc (.inl rfl) maxBytes
  generalize hout : ReplayRing.readLoop from_ r.entries from_ maxBytes ctl = out at *
  have hend : ¬ r.endSeq < cur.after := by
    rw [hinv.endSeq_eq]
    exact Nat.not_lt.2 ht.after_le
  refine ⟨{ out with events := evs ++ out.events }, c', ?_, htold.append hloop, htr'.rest, hcaught⟩
  unfold ReplayRing.read
  rw [if_neg hend, hstart]
  dsimp only
  rw [hout]

/-! ## Gaps -/

theorem readLoop_no_gap (low : Nat) (entries : List Entry) (from_ remaining ctl lo hi : Nat) :
    .gap lo hi ∉ (ReplayRing.readLoop low entries from_ remaining ctl).events := by
  induction entries generalizing from_ remaining ctl with
  | nil => simp [ReplayRing.readLoop]
  | cons e rest ih =>
    cases e with unfold ReplayRing.readLoop
    | output start data =>
      dsimp only
      split
      · exact ih _ _ _
      split
      · simp
      split
      · simp
      · simpa using ih _ _ _
    | control seq id event =>
      split
      · exact ih _ _ _
      split
      · simp
      split
      · exact ih _ _ _
      · simpa using ih _ _ _

theorem read_gap {maxBytes lo hi : Nat} {out : ReadOut}
    (hread : r.read cur maxBytes = .ok out) (hg : .gap lo hi ∈ out.events) :
    lo = cur.after ∧ hi = max lo r.availableFrom := by
  generalize hfrom : max cur.after r.availableFrom = from_
  have hstart : ∀ e ∈ (r.readStart cur).1, e = .gap cur.after from_ := by
    rcases readStart_cases r cur hfrom.symm with
      ⟨_, _, _, _, _, hs⟩ | ⟨_, ⟨_, hs⟩ | ⟨_, hs⟩⟩ <;> simp [hs]
  unfold ReplayRing.read at hread
  split at hread
  · cases hread
  rw [Except.ok.injEq] at hread
  rw [← hread] at hg
  rcases List.mem_append.1 hg with hmem | hmem
  · obtain ⟨rfl, rfl⟩ := ReplayEvent.gap.inj (hstart _ hmem)
    exact ⟨rfl, hfrom.symm⟩
  · exact absurd hmem (readLoop_no_gap _ _ _ _ _ _ _)

end Qsh.Broker
