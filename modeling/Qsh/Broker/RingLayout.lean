import Mathlib.Algebra.GroupWithZero.Nat
import Qsh.Broker.Ring

/-!
# The layout of the replay ring

`History` is the abstract log: the whole output stream, and the control events with the
offset that was current when they were pushed.

`Laid h off c entries off' c'`: `entries` are the part of the history between two
positions, in order and without a hole, offset `off` to `off'` of the stream and the
control events from number `c` up to `c'`.  Coalescing and splitting keep the layout.

What eviction drops is a prefix of the layout.  `Dropped` is what the ring still knows about
the dropped controls: each is strictly behind the oldest retained offset, or sits exactly
there and `lostCtl` covers it.
-/

namespace Qsh.Broker

open Qsh.Lib List Option ReplayRing

/-! ## The history -/

/-- All output ever pushed, and the control events at their offsets. -/
structure History where
  bytes : List UInt8
  ctls : List (Nat × ControlEvent)
  sorted : ctls.Pairwise (fun a b => a.1 ≤ b.1)
  bounded : ∀ p ∈ ctls, p.1 ≤ bytes.length

namespace History

def empty : History where
  bytes := []
  ctls := []
  sorted := .nil
  bounded := by simp

def push (h : History) (data : List UInt8) : History where
  bytes := h.bytes ++ data
  ctls := h.ctls
  sorted := h.sorted
  bounded := by
    intro p hp
    have := h.bounded p hp
    rw [length_append]
    omega

def pushControl (h : History) (event : ControlEvent) : History where
  bytes := h.bytes
  ctls := h.ctls ++ [(h.bytes.length, event)]
  sorted := by
    rw [pairwise_append]
    refine ⟨h.sorted, pairwise_singleton _ _, ?_⟩
    intro a ha b hb
    rw [mem_singleton] at hb
    rw [hb]
    exact h.bounded a ha
  bounded := by
    intro p hp
    rw [mem_append, mem_singleton] at hp
    rcases hp with hp | rfl
    · exact h.bounded p hp
    · exact Nat.le_refl _

def Le (h h' : History) : Prop :=
  h.bytes <+: h'.bytes ∧ ∃ new, h'.ctls = h.ctls ++ new ∧ ∀ p ∈ new, h.bytes.length ≤ p.1

theorem Le.refl (h : History) : h.Le h :=
  ⟨prefix_refl _, [], by simp, by simp⟩

variable {h h' : History}

theorem Le.length_le (hle : h.Le h') :
    h.bytes.length ≤ h'.bytes.length :=
  hle.1.length_le

theorem Le.ctls_length_le (hle : h.Le h') :
    h.ctls.length ≤ h'.ctls.length := by
  obtain ⟨_, new, hc, _⟩ := hle
  rw [hc, length_append]
  omega

theorem le_push (h : History) (data : List UInt8) : h.Le (h.push data) :=
  ⟨prefix_append _ _, [], by simp [push], by simp⟩

theorem le_pushControl (h : History) (event : ControlEvent) :
    h.Le (h.pushControl event) := by
  refine ⟨prefix_refl _, [(h.bytes.length, event)], rfl, ?_⟩
  intro p hp
  rw [mem_singleton] at hp
  subst hp
  exact Nat.le_refl _

theorem push_push (h : History) (xs ys : List UInt8) :
    (h.push xs).push ys = h.push (xs ++ ys) := by
  simp [push]

theorem slice_push (h : History) (data : List UInt8) :
    slice (h.push data).bytes h.bytes.length (h.bytes.length + data.length) = data :=
  slice_append_right _ _

@[simp]
theorem push_nil (h : History) : h.push [] = h := by
  simp [push]

variable {k j : Nat} {p : Nat × ControlEvent}

theorem Le.ctls_getElem? (hle : h.Le h') (hk : h.ctls[k]? = some p) : h'.ctls[k]? = some p := by
  obtain ⟨_, new, hc, _⟩ := hle
  obtain ⟨hlt, _⟩ := List.getElem?_eq_some_iff.1 hk
  rw [hc, getElem?_append_left hlt]
  exact hk

theorem Le.ctls_new (hle : h.Le h') (hk : h'.ctls[k]? = some p) :
    h.ctls[k]? = some p ∨ h.ctls.length ≤ k ∧ h.bytes.length ≤ p.1 := by
  obtain ⟨_, new, hc, hnew⟩ := hle
  rw [hc] at hk
  by_cases hlt : k < h.ctls.length
  · rw [getElem?_append_left hlt] at hk
    exact .inl hk
  · rw [getElem?_append_right (by omega)] at hk
    exact .inr ⟨by omega, hnew p (mem_of_getElem? hk)⟩

theorem Le.slice_eq (hle : h.Le h') {i : Nat}
    (hj : j ≤ h.bytes.length) : slice h'.bytes i j = slice h.bytes i j := by
  obtain ⟨⟨t, ht⟩, _⟩ := hle
  rw [← ht, slice_append_left hj]

theorem ctls_le {q : Nat × ControlEvent}
    (hj : h.ctls[j]? = some p) (hk : h.ctls[k]? = some q) (hjk : j ≤ k) :
    p.1 ≤ q.1 := by
  obtain ⟨hjl, rfl⟩ := List.getElem?_eq_some_iff.1 hj
  obtain ⟨hkl, rfl⟩ := List.getElem?_eq_some_iff.1 hk
  rcases Nat.lt_or_eq_of_le hjk with hlt | rfl
  · exact pairwise_iff_getElem.1 h.sorted j k hjl hkl hlt
  · exact Nat.le_refl _

end History

/-! ## Entries laid out over the history -/

/-- The entries tile the history from one offset and event to another. -/
inductive Laid (h : History) : Nat → Nat → List Entry → Nat → Nat → Prop
  | nil (off c : Nat) : Laid h off c [] off c
  | output {off c off' c' : Nat} {data : List UInt8} {rest : List Entry}
      (hne : data ≠ []) (hd : slice h.bytes off (off + data.length) = data)
      (hr : Laid h (off + data.length) c rest off' c') :
      Laid h off c (.output off data :: rest) off' c'
  | control {off c off' c' : Nat} {event : ControlEvent} {rest : List Entry}
      (hc : h.ctls[c]? = some (off, event)) (hr : Laid h off (c + 1) rest off' c') :
      Laid h off c (.control off (c + 1) event :: rest) off' c'

variable {h : History} {off : Nat} {r : ReplayRing}

variable {data piece : List UInt8}

theorem le_length_of_slice (hne : data ≠ []) (hd : slice h.bytes off (off + data.length) = data) :
    off + data.length ≤ h.bytes.length := by
  have hpos : 0 < data.length := length_pos_iff.2 hne
  have hlen := congrArg List.length hd
  simp only [slice, length_take, length_drop] at hlen
  omega

namespace Laid

variable {h h' : History} {off c off' c' : Nat} {xs ys : List Entry}

theorem append {off₁ c₁ : Nat} (hx : Laid h off c xs off₁ c₁)
    (hy : Laid h off₁ c₁ ys off' c') : Laid h off c (xs ++ ys) off' c' := by
  induction hx with
  | nil => exact hy
  | output hne hd _ ih => exact .output hne hd (ih hy)
  | control hc _ ih => exact .control hc (ih hy)

theorem split (hl : Laid h off c (xs ++ ys) off' c') :
    ∃ off₁ c₁, Laid h off c xs off₁ c₁ ∧ Laid h off₁ c₁ ys off' c' := by
  induction xs generalizing off c with
  | nil => exact ⟨off, c, .nil off c, hl⟩
  | cons x xs ih =>
    cases hl with
    | output hne hd hr =>
      obtain ⟨off₁, c₁, hx, hy⟩ := ih hr
      exact ⟨off₁, c₁, .output hne hd hx, hy⟩
    | control hc hr =>
      obtain ⟨off₁, c₁, hx, hy⟩ := ih hr
      exact ⟨off₁, c₁, .control hc hx, hy⟩

theorem off_le (hl : Laid h off c xs off' c') : off ≤ off' := by
  induction hl with
  | nil => exact Nat.le_refl _
  | output _ _ _ ih => omega
  | control _ _ ih => exact ih

theorem c_le (hl : Laid h off c xs off' c') : c ≤ c' := by
  induction hl with
  | nil => exact Nat.le_refl _
  | output _ _ _ ih => exact ih
  | control _ _ ih => omega

theorem mono (hle : h.Le h') (hl : Laid h off c xs off' c') :
    Laid h' off c xs off' c' := by
  induction hl with
  | nil off c => exact .nil off c
  | output hne hd _ ih =>
    refine .output hne ?_ ih
    rw [hle.slice_eq (le_length_of_slice hne hd)]
    exact hd
  | control hc _ ih => exact .control (hle.ctls_getElem? hc) ih

section

variable (hl : Laid h off c xs off' c')
include hl

variable {k : Nat} {p : Nat × ControlEvent}

theorem ctls_within (hk : h.ctls[k]? = some p) (hck : c ≤ k) (hkc : k < c') :
    off ≤ p.1 ∧ p.1 ≤ off' := by
  induction hl with
  | nil => omega
  | output _ _ _ ih => omega
  | @control off c _ _ event _ hc hr ih =>
    by_cases hkeq : k = c
    · rw [hkeq, hc, some.injEq] at hk
      subst hk
      exact ⟨Nat.le_refl _, hr.off_le⟩
    · exact ih (by omega) hkc

theorem controls (hx : ∀ e ∈ xs, e.isOutput = false) :
    off' = off ∧ c' = c + xs.length := by
  induction hl with
  | nil => exact ⟨rfl, rfl⟩
  | output _ _ _ _ => exact absurd (hx _ mem_cons_self) (by simp [Entry.isOutput])
  | control _ _ ih =>
    obtain ⟨ho, hc⟩ := ih (fun e he => hx e (mem_cons_of_mem _ he))
    refine ⟨ho, ?_⟩
    rw [hc, length_cons]
    omega

end

variable {piece : List UInt8} {n : Nat}

theorem outputEnd (hpos : 0 < n) (hn : n ≤ piece.length) :
    Laid (h.push (piece.take n)) h.bytes.length c
      [.output h.bytes.length (piece.take n)] (h.bytes.length + n) c := by
  have hlen : (piece.take n).length = n := by
    rw [length_take]
    omega
  have hl : Laid (h.push (piece.take n)) h.bytes.length c [.output h.bytes.length (piece.take n)]
      (h.bytes.length + (piece.take n).length) c := by
    exact .output (ne_nil_of_length_pos (by omega)) (h.slice_push _) (.nil _ _)
  rw [hlen] at hl
  exact hl

theorem growLast {start : Nat} {data : List UInt8}
    (hl : Laid h off c [.output start data] h.bytes.length c') (hn : n ≤ piece.length) :
    Laid (h.push (piece.take n)) off c [.output start (data ++ piece.take n)]
      (h.bytes.length + n) c' := by
  have hlen : (piece.take n).length = n := by
    rw [length_take]
    omega
  cases hl with
  | output hne hd hr =>
    generalize hend : h.bytes.length = last at hr
    cases hr with
    | nil =>
      have hg : Laid (h.push (piece.take n)) off c [.output off (data ++ piece.take n)]
          (off + (data ++ piece.take n).length) c := by
        refine .output (by simp [hne]) ?_ (.nil _ _)
        have hnew := h.slice_push (piece.take n)
        rw [hend] at hnew
        rw [length_append, ← Nat.add_assoc, ← slice_append_slice
          (Nat.le_add_right off data.length) (Nat.le_add_right _ _),
          (h.le_push _).slice_eq (by omega), hd, hnew]
      rw [length_append, hlen, ← Nat.add_assoc] at hg
      exact hg

theorem firstOutput_getD (hl : Laid h off c xs off' c') :
    (firstOutput xs).getD off' = off := by
  induction hl with
  | nil | output => rfl
  | control _ _ ih => exact ih

end Laid

/-! ## The dropped controls -/

/-- What the ring still knows about the controls below number `c`, which it no
longer has: each is strictly behind `off`, or sits at `off` and is covered by
`lost`. -/
structure Dropped (h : History) (off c : Nat) (lost : Option (Nat × Nat)) : Prop where
  behind : ∀ k p, k < c → h.ctls[k]? = some p →
    p.1 < off ∨ p.1 = off ∧ ∃ lostId, lost = some (off, lostId) ∧ k < lostId
  lost_le : ∀ lostSeq lostId, lost = some (lostSeq, lostId) → lostSeq ≤ off ∧ lostId ≤ c

namespace Dropped

variable {h h' : History} {off c : Nat} {lost : Option (Nat × Nat)}

theorem seq_le (hd : Dropped h off c lost) {k : Nat} {p : Nat × ControlEvent}
    (hk : k < c) (hp : h.ctls[k]? = some p) : p.1 ≤ off := by
  rcases hd.behind k p hk hp with hlt | ⟨heq, _⟩ <;> omega

theorem mono (hle : h.Le h') (hc : c ≤ h.ctls.length) (hd : Dropped h off c lost) :
    Dropped h' off c lost where
  behind := by
    intro k p hk hp
    rcases hle.ctls_new hp with hold | ⟨hlen, _⟩
    · exact hd.behind k p hk hold
    · omega
  lost_le := hd.lost_le

theorem advance (hd : Dropped h off c lost) {off₁ c₁ : Nat} (hoff : off < off₁) (hc : c ≤ c₁)
    (hpre : ∀ k p, c ≤ k → k < c₁ → h.ctls[k]? = some p → p.1 = off) :
    Dropped h off₁ c₁ lost where
  behind := by
    intro k p hk hp
    by_cases hkc : k < c
    · have := hd.seq_le hkc hp
      exact .inl (by omega)
    · have := hpre k p (by omega) hk hp
      exact .inl (by omega)
  lost_le := by
    intro lostSeq lostId hl
    obtain ⟨h1, h2⟩ := hd.lost_le lostSeq lostId hl
    exact ⟨by omega, by omega⟩

theorem force (hd : Dropped h off c lost) {event : ControlEvent}
    (hc : h.ctls[c]? = some (off, event)) :
    Dropped h off (c + 1) (some (off, c + 1)) where
  behind := by
    intro k p hk hp
    have hle : p.1 ≤ off := by
      by_cases hkc : k < c
      · exact hd.seq_le hkc hp
      have hkeq : k = c := by omega
      rw [hkeq, hc, some.injEq] at hp
      subst hp
      exact Nat.le_refl _
    rcases Nat.lt_or_eq_of_le hle with hlt | heq
    · exact .inl hlt
    · exact .inr ⟨heq, c + 1, rfl, hk⟩
  lost_le := by
    intro lostSeq lostId hl
    rw [some.injEq, Prod.mk.injEq] at hl
    omega

end Dropped

/-! ## The invariant -/

/-- The invariant of a ring against the history of its pushes.  `off` is the
oldest retained offset and `c` the number of controls that are gone. -/
structure RingInv (r : ReplayRing) (h : History) : Prop where
  pieceMax_pos : 0 < r.pieceMax
  endSeq_eq : r.endSeq = h.bytes.length
  nextCtlId_eq : r.nextCtlId = h.ctls.length + 1
  retained_eq : r.retained = (r.entries.map Entry.cost).sum
  laid : ∃ c, Laid h r.availableFrom c r.entries h.bytes.length h.ctls.length ∧
    c ≤ h.ctls.length ∧ Dropped h r.availableFrom c r.lostCtl

theorem availableFrom_eq {c c' : Nat} (hend : r.endSeq = h.bytes.length)
    (hl : Laid h off c r.entries h.bytes.length c') : r.availableFrom = off := by
  rw [availableFrom, hend]
  exact hl.firstOutput_getD

theorem RingInv.new (budget : Nat) : RingInv (ReplayRing.new budget) History.empty where
  pieceMax_pos := by
    simp only [ReplayRing.new, RING_CHUNK_MAX]
    omega
  endSeq_eq := rfl
  nextCtlId_eq := rfl
  retained_eq := rfl
  laid := ⟨0, .nil 0 0, Nat.le_refl _, by intro k p hk; omega, by intro _ _ h; cases h⟩

/-! ## Eviction -/

theorem exists_split_of_findIdx? {xs : List Entry} {i : Nat}
    (hi : xs.findIdx? Entry.isOutput = some i) :
    ∃ pre start data post, xs = pre ++ .output start data :: post ∧
      pre.length = i ∧ ∀ e ∈ pre, e.isOutput = false := by
  obtain ⟨hlt, hout, hbefore⟩ := findIdx?_eq_some_iff_getElem.1 hi
  cases hx : xs[i] with
  | control =>
    rw [hx] at hout
    cases hout
  | output start data =>
    refine ⟨xs.take i, start, data, xs.drop (i + 1), ?_,
      length_take_of_le (Nat.le_of_lt hlt), fun e he => ?_⟩
    · rw [← hx, ← drop_eq_getElem_cons hlt, take_append_drop]
    · obtain ⟨j, hj, rfl⟩ := mem_take_iff_getElem.1 he
      exact Bool.eq_false_iff.2 (hbefore j (by omega))

variable {pre post : List Entry}

theorem evictOldest_output {start : Nat} (hent : r.entries = pre ++ .output start data :: post)
    (hfi : r.entries.findIdx? Entry.isOutput = some pre.length) (hpost : post ≠ []) :
    r.evictOldest = { r with
      entries := pre ++ post, retained := r.retained - data.length } := by
  have hlt : pre.length + 1 < r.entries.length := by
    have := length_pos_iff.2 hpost
    rw [hent, length_append, length_cons]
    omega
  rw [evictOldest, hfi]
  dsimp only
  rw [if_pos hlt, hent, eraseIdx_append_of_length_le (Nat.le_refl _)]
  simp [Entry.cost]

theorem evictOldest_control {seq id : Nat} {event : ControlEvent}
    {rest : List Entry} (hent : r.entries = .control seq id event :: rest)
    (hfi : ∀ i, r.entries.findIdx? Entry.isOutput = some i → ¬ i + 1 < r.entries.length) :
    r.evictOldest = { r with
      entries := rest, retained := r.retained - CONTROL_ENTRY_COST,
      lostCtl := some (seq, id) } := by
  rw [evictOldest]
  cases hi : r.entries.findIdx? Entry.isOutput with
  | none =>
    rw [hent]
  | some i =>
    dsimp only
    rw [if_neg (hfi i hi), hent]

/-- The two things one round of `evict` can do first.  Either an output chunk
that is not the newest entry goes, or the entry in front is a control and is
forced out. -/
theorem evictOldest_cases (hlen : 1 < r.entries.length) :
    (∃ pre start data post, r.entries = pre ++ .output start data :: post ∧
        (∀ e ∈ pre, e.isOutput = false) ∧ post ≠ [] ∧
        r.evictOldest = { r with
          entries := pre ++ post, retained := r.retained - data.length }) ∨
      ∃ seq id event rest, r.entries = .control seq id event :: rest ∧ r.evictOldest = { r with
          entries := rest, retained := r.retained - CONTROL_ENTRY_COST,
          lostCtl := some (seq, id) } := by
  by_cases hsp : ∃ pre start data post, r.entries = pre ++ .output start data :: post ∧
      r.entries.findIdx? Entry.isOutput = some pre.length ∧
      (∀ e ∈ pre, e.isOutput = false) ∧ post ≠ []
  · obtain ⟨pre, start, data, post, hent, hfi, hpre, hpost⟩ := hsp
    exact .inl ⟨pre, start, data, post, hent, hpre, hpost, evictOldest_output hent hfi hpost⟩
  -- an output chunk can only be the newest entry, so a control is in front
  have hlast : ∀ i, r.entries.findIdx? Entry.isOutput = some i → ¬ i + 1 < r.entries.length := by
    intro i hi hlt
    obtain ⟨pre, start, data, post, hent, hpl, hpre⟩ := exists_split_of_findIdx? hi
    refine hsp ⟨pre, start, data, post, hent, hpl ▸ hi, hpre, ?_⟩
    rintro rfl
    rw [hent, length_append, hpl, length_singleton] at hlt
    omega
  cases hent : r.entries with
  | nil => simp [hent] at hlen
  | cons e rest =>
    cases e with
    | output start data =>
      have h0 : r.entries.findIdx? Entry.isOutput = some 0 := by
        rw [hent, findIdx?_cons, Entry.isOutput, if_pos rfl]
      exact absurd hlen (hlast 0 h0)
    | control seq id event =>
      exact .inr ⟨seq, id, event, rest, rfl, evictOldest_control hent hlast⟩

theorem dropBehind_laid {c off' c' from_ retained : Nat}
    {xs : List Entry} (hl : Laid h off c xs off' c') (hf : from_ ≤ off) :
    dropBehind from_ xs retained = (xs, retained) := by
  cases hl with
  | nil | output => rfl
  | control => rw [dropBehind, if_neg (by omega)]

theorem dropBehind_append {c off' c' from_ : Nat} (hl : Laid h off c pre off' c')
    (hpre : ∀ e ∈ pre, e.isOutput = false) (hf : off < from_) (retained : Nat) :
    dropBehind from_ (pre ++ post) retained = dropBehind from_ post
        (retained - (pre.map Entry.cost).sum) := by
  induction hl generalizing retained with
  | nil => simp
  | output => exact absurd (hpre _ mem_cons_self) (by simp [Entry.isOutput])
  | control _ _ ih =>
    rw [cons_append, dropBehind, if_pos hf, ih (fun e he => hpre e (mem_cons_of_mem _ he)) hf]
    rw [map_cons, sum_cons, Entry.cost, Nat.sub_sub]

theorem firstOutput_append (hpre : ∀ e ∈ pre, e.isOutput = false) :
    firstOutput (pre ++ post) = firstOutput post := by
  induction pre with
  | nil => rfl
  | cons e pre ih =>
    cases e with
    | output => exact absurd (hpre _ mem_cons_self) (by simp [Entry.isOutput])
    | control =>
      rw [cons_append, firstOutput]
      exact ih (fun e he => hpre e (mem_cons_of_mem _ he))

/-- `r'` is `r` with entries dropped at the front. -/
structure Trims (r r' : ReplayRing) : Prop where
  suffix : r'.entries <:+ r.entries
  nonempty : r.entries ≠ [] → r'.entries ≠ []
  budget_eq : r'.budget = r.budget
  pieceMax_eq : r'.pieceMax = r.pieceMax

theorem RingInv.evictRound (hinv : RingInv r h) (hlen : 1 < r.entries.length) :
    RingInv r.evictOldest.dropStale h ∧ Trims r r.evictOldest.dropStale ∧
      r.evictOldest.dropStale.entries.length < r.entries.length := by
  obtain ⟨c, hl, hcl, hdrop⟩ := hinv.laid
  have hret := hinv.retained_eq
  rcases evictOldest_cases hlen with
    ⟨pre, start, data, post, hent, hpre, hpost, hev⟩ | ⟨seq, id, event, rest, hent, hev⟩
  · -- the chunk goes, and with it every control in front of it
    rw [hent] at hl
    obtain ⟨off₁, c₁, hlpre, hlrest⟩ := hl.split
    obtain ⟨rfl, rfl⟩ := hlpre.controls hpre
    cases hlrest with
    | output hne hd hlpost =>
      have hpos : 0 < data.length := length_pos_iff.2 hne
      have hfrom : r.evictOldest.availableFrom = r.availableFrom + data.length := by
        rw [hev, availableFrom, firstOutput_append hpre]
        exact hinv.endSeq_eq ▸ hlpost.firstOutput_getD
      have hstale : r.evictOldest.dropStale = { r with
          entries := post
          retained := r.retained - data.length - (pre.map Entry.cost).sum } := by
        rw [dropStale, hfrom, hev]
        dsimp only
        rw [dropBehind_append hlpre hpre (by omega), dropBehind_laid hlpost (Nat.le_refl _)]
      rw [hstale]
      refine ⟨⟨hinv.pieceMax_pos, hinv.endSeq_eq, hinv.nextCtlId_eq, ?_, ?_⟩,
        ⟨⟨pre ++ [.output r.availableFrom data], by simp [hent]⟩, fun _ => hpost, rfl, rfl⟩, ?_⟩
      · rw [hent] at hret
        simp only [map_append, sum_append, map_cons, sum_cons, Entry.cost] at hret
        dsimp only
        omega
      · have hoff := availableFrom_eq (r := { r with
          entries := post
          retained := r.retained - data.length - (pre.map Entry.cost).sum })
          hinv.endSeq_eq hlpost
        rw [hoff]
        refine ⟨c + pre.length, hlpost, ?_, hdrop.advance (by omega) (by omega) ?_⟩
        · exact hlpost.c_le
        · intro k p hck hkc hp
          obtain ⟨hge, hle⟩ := hlpre.ctls_within hp hck hkc
          exact Nat.le_antisymm hle hge
      · rw [hent]
        simp only [length_append, length_cons]
        omega
  · -- the control in front is forced out, and the oldest offset stays
    rw [hent] at hl
    cases hl with
    | control hc hlrest =>
      have hoff : r.evictOldest.availableFrom = r.availableFrom := by
        rw [hev]
        exact availableFrom_eq hinv.endSeq_eq hlrest
      have hstale : r.evictOldest.dropStale = r.evictOldest := by
        rw [dropStale, hoff, hev]
        dsimp only
        rw [dropBehind_laid hlrest (Nat.le_refl _)]
      have hrest : rest ≠ [] := by
        rintro rfl
        simp [hent] at hlen
      rw [hstale]
      rw [hev] at hoff ⊢
      refine ⟨⟨hinv.pieceMax_pos, hinv.endSeq_eq, hinv.nextCtlId_eq, ?_, ?_⟩,
        ⟨⟨[_], hent.symm⟩, fun _ => hrest, rfl, rfl⟩, ?_⟩
      · rw [hent] at hret
        simp only [map_cons, sum_cons, Entry.cost] at hret
        dsimp only
        omega
      · rw [hoff]
        exact ⟨c + 1, hlrest, hlrest.c_le, hdrop.force hc⟩
      · simp [hent]

theorem evictLoop_done (fuel : Nat) (hinv : RingInv r h) (hfuel : r.entries.length ≤ fuel) :
    RingInv (evictLoop fuel r) h ∧ Trims r (evictLoop fuel r) ∧
      ¬ ((evictLoop fuel r).budget < (evictLoop fuel r).retained ∧
        1 < (evictLoop fuel r).entries.length) := by
  induction fuel generalizing r with rw [evictLoop]
  | zero =>
    exact ⟨hinv, ⟨suffix_rfl, id, rfl, rfl⟩, by omega⟩
  | succ fuel ih =>
    split
    · rename_i hcond
      obtain ⟨hinv', htrim, hlt⟩ := hinv.evictRound hcond.2
      obtain ⟨hloop, hmore, hdone⟩ := ih hinv' (by omega)
      exact ⟨hloop, ⟨hmore.suffix.trans htrim.suffix, hmore.nonempty ∘ htrim.nonempty,
        hmore.budget_eq.trans htrim.budget_eq, hmore.pieceMax_eq.trans htrim.pieceMax_eq⟩, hdone⟩
    · rename_i hcond
      exact ⟨hinv, ⟨suffix_rfl, id, rfl, rfl⟩, hcond⟩

theorem RingInv.evict (hinv : RingInv r h) : RingInv r.evict h :=
  (evictLoop_done _ hinv (Nat.le_refl _)).1

/-! ## Pushing -/

/-- Some of the bytes are taken, and laid out at the end. -/
def Appends (r : ReplayRing) (h : History) (piece : List UInt8) (x : ReplayRing × Nat) : Prop :=
  ∃ n entries, x = ({ r with entries := entries }, n) ∧ 0 < n ∧ n ≤ piece.length ∧
    (entries.map Entry.cost).sum = r.retained + n ∧
    ∀ c, Laid h r.availableFrom c r.entries h.bytes.length h.ctls.length →
      Laid (h.push (piece.take n)) r.availableFrom c entries (h.bytes.length + n) h.ctls.length

/-- Whether it starts a chunk or grows the last one. -/
theorem appendOutput_spec (hinv : RingInv r h) (hne : piece ≠ []) :
    Appends r h piece (r.appendOutput piece) := by
  have hpos : 0 < piece.length := length_pos_iff.2 hne
  have hpm := hinv.pieceMax_pos
  have hret := hinv.retained_eq
  -- a new chunk behind the last entry
  have hfresh : Appends r h piece ({ r with entries := r.entries ++
      [.output r.endSeq (piece.take (min piece.length r.pieceMax))] },
      min piece.length r.pieceMax) := by
    refine ⟨min piece.length r.pieceMax, _, rfl, by omega, by omega, ?_, ?_⟩
    · simp [Entry.cost, hret]
    intro c hl
    have hout : Laid (h.push (piece.take (min piece.length r.pieceMax)))
        h.bytes.length h.ctls.length _ _ _ :=
      Laid.outputEnd (by omega) (by omega)
    rw [hinv.endSeq_eq]
    exact (hl.mono (h.le_push _)).append hout
  rw [appendOutput]
  split
  swap
  · exact hfresh
  rename_i start data hlast
  split
  swap
  · exact hfresh
  rename_i hroom
  have hent : r.entries = r.entries.dropLast ++ [.output start data] :=
    (dropLast_append_getLast? _ hlast).symm
  refine ⟨min piece.length (r.pieceMax - data.length), _, rfl, by omega, by omega, ?_, ?_⟩
  · rw [hent] at hret
    simp only [map_append, sum_append, map_cons, map_nil,
      sum_cons, sum_nil, Entry.cost, length_append,
      length_take] at hret ⊢
    omega
  · intro c hl
    rw [hent] at hl
    obtain ⟨off₁, c₁, hfront, htail⟩ := hl.split
    exact (hfront.mono (h.le_push _)).append (htail.growLast (by omega))

theorem RingInv.push_nonempty (hinv : RingInv r h) (hne : piece ≠ []) :
    0 < (r.appendOutput piece).2 ∧ RingInv { (r.appendOutput piece).1 with
        retained := (r.appendOutput piece).1.retained + (r.appendOutput piece).2
        endSeq := (r.appendOutput piece).1.endSeq + (r.appendOutput piece).2 }
        (h.push (piece.take (r.appendOutput piece).2)) := by
  obtain ⟨n, entries, happ, hpos, hn, hcost, hlaid⟩ := appendOutput_spec hinv hne
  obtain ⟨c, hl, hcl, hdrop⟩ := hinv.laid
  have hlen : (h.push (piece.take n)).bytes.length = h.bytes.length + n := by
    rw [History.push, length_append, length_take]
    omega
  have hl' := hlaid c hl
  rw [← hlen] at hl'
  rw [happ]
  refine ⟨hpos, hinv.pieceMax_pos, ?_, hinv.nextCtlId_eq, hcost.symm, c, ?_⟩
  · rw [hlen]
    exact congrArg (· + n) hinv.endSeq_eq
  · rw [availableFrom_eq (by rw [hlen]; exact congrArg (· + n) hinv.endSeq_eq) hl']
    exact ⟨hl', hcl, hdrop.mono (h.le_push _) hcl⟩

def ReplayRing.pushRound (r : ReplayRing) (piece : List UInt8) : ReplayRing :=
  evict { (r.appendOutput piece).1 with
    retained := (r.appendOutput piece).1.retained + (r.appendOutput piece).2
    endSeq := (r.appendOutput piece).1.endSeq + (r.appendOutput piece).2 }

theorem pushLoop_rule {I : ReplayRing → History → Prop}
    (hround : ∀ {r h piece}, I r h → piece ≠ [] → 0 < (r.appendOutput piece).2 ∧
      I (r.pushRound piece) (h.push (piece.take (r.appendOutput piece).2)))
    (fuel : Nat) (hI : I r h) {rest : List UInt8} (hfuel : rest.length ≤ fuel) :
    I (pushLoop fuel r rest) (h.push rest) := by
  induction fuel generalizing r h rest with
  | zero =>
    have hnil : rest = [] := eq_nil_of_length_eq_zero (by omega)
    rw [hnil, History.push_nil]
    exact hI
  | succ fuel ih =>
    rw [pushLoop]
    split
    · rename_i hnil
      rw [hnil, History.push_nil]
      exact hI
    rename_i hne
    obtain ⟨hpos, hI'⟩ := hround hI hne
    have hlen : (rest.drop (r.appendOutput rest).2).length ≤ fuel := by
      rw [length_drop]
      omega
    have hstep := ih hI' hlen
    rwa [History.push_push, take_append_drop] at hstep

theorem RingInv.push (hinv : RingInv r h)
    (data : List UInt8) : RingInv (r.push data) (h.push data) :=
  pushLoop_rule (fun hinv hne => ⟨(hinv.push_nonempty hne).1, (hinv.push_nonempty hne).2.evict⟩) _
    hinv (Nat.le_refl _)

theorem RingInv.appendControl (hinv : RingInv r h) (event : ControlEvent) :
    RingInv { r with
      nextCtlId := r.nextCtlId + 1
      entries := r.entries ++ [.control r.endSeq r.nextCtlId event]
      retained := r.retained + CONTROL_ENTRY_COST } (h.pushControl event) := by
  obtain ⟨c, hl, hcl, hdrop⟩ := hinv.laid
  have hlen : (h.pushControl event).ctls.length = h.ctls.length + 1 := by
    simp [History.pushControl]
  have hlast : Laid (h.pushControl event) h.bytes.length h.ctls.length
      [.control h.bytes.length (h.ctls.length + 1) event]
      h.bytes.length (h.ctls.length + 1) :=
    .control (by simp [History.pushControl]) (.nil _ _)
  have hl' := (hl.mono (h.le_pushControl event)).append hlast
  refine ⟨hinv.pieceMax_pos, hinv.endSeq_eq, ?_, ?_, c, ?_⟩
  · rw [hlen]
    exact congrArg (· + 1) hinv.nextCtlId_eq
  · simp [Entry.cost, hinv.retained_eq]
  · rw [hinv.endSeq_eq, hinv.nextCtlId_eq, hlen]
    rw [availableFrom_eq (h := h.pushControl event) rfl hl']
    exact ⟨hl', by omega, hdrop.mono (h.le_pushControl event) hcl⟩

theorem RingInv.pushControl (hinv : RingInv r h)
    (event : ControlEvent) : RingInv (r.pushControl event) (h.pushControl event) :=
  (hinv.appendControl event).evict

end Qsh.Broker
