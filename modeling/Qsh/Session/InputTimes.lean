import Mathlib.Data.List.Induction

/-!
# The input write-time table

`input_times.rs`.  `ScreenEcho.input_seq`
claims that every input byte below it was written at least `ECHO_GRACE` ago, so
the host keeps the time of each write.  The table is capped: past the cap the
two oldest entries merge.

A `VecDeque` is a list, oldest entry first, and an `Instant` is a `Nat` of
nanoseconds.
-/

namespace Qsh.Session

open List

/-- How old a write has to be before its echo counts as settled: 50 ms, in nanoseconds. -/
def ECHO_GRACE : Nat := 50 * 1000000

def MAX_INPUT_TIMES : Nat := 64

structure InputTimes where
  settled : Nat
  pending : List (Nat × Nat)
  deriving DecidableEq, Repr

namespace InputTimes

def new (from_ : Nat) : InputTimes := ⟨from_, []⟩

def newest (t : InputTimes) : Nat :=
  (t.pending.getLast?.map Prod.fst).getD t.settled

/-- The two oldest become one entry, as young as the younger. -/
def mergeOldest : List (Nat × Nat) → List (Nat × Nat)
  | (_, firstAt) :: (second, secondAt) :: rest => (second, max secondAt firstAt) :: rest
  | _ => []

def makeRoom (pending : List (Nat × Nat)) : List (Nat × Nat) :=
  if pending.length = MAX_INPUT_TIMES then mergeOldest pending else pending

/-- Notes that the input up to `end_` was written now. -/
def record (t : InputTimes) (end_ now : Nat) : InputTimes :=
  if end_ ≤ t.newest then t
  else { t with pending := makeRoom t.pending ++ [(end_, now)] }

def settleLoop (now : Nat) : Nat → List (Nat × Nat) → InputTimes
  | settled, [] => ⟨settled, []⟩
  | settled, (end_, written) :: rest =>
      -- `now.saturating_duration_since(at) < ECHO_GRACE`
      if now - written < ECHO_GRACE then ⟨settled, (end_, written) :: rest⟩
      else settleLoop now end_ rest

/-- Moves on over the writes that are old enough. -/
def settle (t : InputTimes) (now : Nat) : InputTimes :=
  settleLoop now t.settled t.pending

/-! ## Calls -/

inductive Call
  | record (end_ now : Nat)
  | settle (now : Nat)
  deriving DecidableEq, Repr

def apply (t : InputTimes) : Call → InputTimes
  | .record end_ now => t.record end_ now
  | .settle now => t.settle now

def run (from_ : Nat) (calls : List Call) : InputTimes :=
  calls.foldl apply (new from_)

def recorded (calls : List Call) : List (Nat × Nat) :=
  calls.filterMap fun
    | .record end_ now => some (end_, now)
    | .settle _ => none

def settles (calls : List Call) : List Nat :=
  calls.filterMap fun
    | .record _ _ => none
    | .settle now => some now

/-! ## The table and its calls -/

structure Inv (from_ : Nat) (recs : List (Nat × Nat)) (at_ : List Nat) (t : InputTimes) :
    Prop where
  sorted : (t.settled :: t.pending.map Prod.fst).Pairwise (· ≤ ·)
  le_newest : ∀ p ∈ t.pending, p.1 ≤ t.newest
  from_le : from_ ≤ t.settled
  recs_le : ∀ r ∈ recs, r.1 ≤ t.newest
  -- an entry is no older than the write of its offset, and no newer than the last write
  source : ∀ p ∈ t.pending, (∃ r ∈ recs, r.1 = p.1 ∧ r.2 ≤ p.2) ∧ ∃ r ∈ recs, r.2 = p.2
  settled_source : t.settled = from_ ∨
    ∃ r ∈ recs, r.1 = t.settled ∧ ∃ now ∈ at_, r.2 + ECHO_GRACE ≤ now
  cap : t.pending.length ≤ MAX_INPUT_TIMES

variable {from_ now end_ : Nat} {recs : List (Nat × Nat)} {at_ : List Nat} {t : InputTimes}

theorem newest_append (t : InputTimes) (pending : List (Nat × Nat)) (p : Nat × Nat) :
    newest { t with pending := pending ++ [p] } = p.1 := by
  simp [newest]

theorem settled_le_newest (h : Inv from_ recs at_ t) : t.settled ≤ t.newest := by
  rcases hp : t.pending.getLast? with _ | p
  · simp [newest, hp]
  · have hmem := mem_of_getLast? hp
    simpa [newest, hp] using rel_of_pairwise_cons h.sorted (mem_map_of_mem hmem)

theorem makeRoom_spec {l : List (Nat × Nat)} (hl : l.length ≤ MAX_INPUT_TIMES) :
    (makeRoom l).length < MAX_INPUT_TIMES ∧ ((makeRoom l).map Prod.fst).Sublist (l.map Prod.fst) ∧
      ∀ p ∈ makeRoom l, (∃ q ∈ l, q.1 = p.1 ∧ q.2 ≤ p.2) ∧ ∃ q ∈ l, q.2 = p.2 := by
  unfold makeRoom
  split_ifs with hfull
  · match l, hfull with
    | (e₁, a₁) :: (e₂, a₂) :: rest, hfull =>
      refine ⟨by rw [← hfull]; exact Nat.lt_succ_self _, sublist_cons_self _ _, ?_⟩
      intro p hp
      rcases mem_cons.1 hp with rfl | hp
      · refine ⟨⟨(e₂, a₂), by simp, rfl, Nat.le_max_left _ _⟩, ?_⟩
        rcases Nat.le_total a₁ a₂ with h | h
        · exact ⟨(e₂, a₂), by simp, (Nat.max_eq_left h).symm⟩
        · exact ⟨(e₁, a₁), by simp, (Nat.max_eq_right h).symm⟩
      · have hp := mem_cons_of_mem (e₁, a₁) (mem_cons_of_mem (e₂, a₂) hp)
        exact ⟨⟨p, hp, rfl, Nat.le_refl _⟩, p, hp, rfl⟩
  · refine ⟨Nat.lt_of_le_of_ne hl hfull, List.Sublist.refl _, ?_⟩
    intro p hp
    exact ⟨⟨p, hp, rfl, Nat.le_refl _⟩, p, hp, rfl⟩

theorem Inv.record (h : Inv from_ recs at_ t) :
    Inv from_ (recs ++ [(end_, now)]) at_ (t.record end_ now) := by
  have hsettled := settled_le_newest h
  obtain ⟨hlen, hsub, hfrom⟩ := makeRoom_spec h.cap
  have hrecs := h.recs_le
  have hsource := h.source
  have hclaimed : t.settled = from_ ∨ ∃ r ∈ recs ++ [(end_, now)], r.1 = t.settled ∧
      ∃ m ∈ at_, r.2 + ECHO_GRACE ≤ m :=
    h.settled_source.imp_right fun ⟨r, hr, hrest⟩ => ⟨r, mem_append_left _ hr, hrest⟩
  unfold InputTimes.record
  split_ifs with hle
  · refine { h with recs_le := ?_, source := ?_, settled_source := hclaimed }
    · grind
    · grind
  have hbelow : ∀ e ∈ t.settled :: (makeRoom t.pending).map Prod.fst, e ≤ end_ := by
    intro e he
    rcases mem_cons.1 he with rfl | he
    · omega
    obtain ⟨p, hp, rfl⟩ := mem_map.1 (hsub.subset he)
    have := h.le_newest p hp
    omega
  constructor
  · rw [map_append, ← cons_append]
    exact pairwise_append.2 ⟨h.sorted.sublist (hsub.cons_cons _), pairwise_singleton _ _,
      fun e he _ hb => mem_singleton.1 hb ▸ hbelow e he⟩
  · rw [newest_append]
    grind
  · exact h.from_le
  · rw [newest_append]
    grind
  · intro p hp
    rcases mem_append.1 hp with hp | hp
    · obtain ⟨⟨q, hq, hend, hat⟩, q', hq', hat'⟩ := hfrom p hp
      have hq := hsource q hq
      have hq' := hsource q' hq'
      grind
    · grind
  · exact hclaimed
  · rw [length_append]
    exact hlen

theorem Inv.pop {written settled : Nat} {rest : List (Nat × Nat)}
    (h : Inv from_ recs at_ ⟨settled, (end_, written) :: rest⟩)
    (hold : written + ECHO_GRACE ≤ now) (hnow : now ∈ at_) : Inv from_ recs at_ ⟨end_, rest⟩ := by
  have hsorted : settled ≤ end_ ∧ ((end_ :: rest.map Prod.fst).Pairwise (· ≤ ·)) :=
    ⟨rel_of_pairwise_cons h.sorted mem_cons_self, h.sorted.tail⟩
  have hnewest : newest ⟨settled, (end_, written) :: rest⟩ = newest ⟨end_, rest⟩ := by
    cases hrest : rest.getLast? <;> simp [newest, getLast?_cons, hrest]
  obtain ⟨⟨r, hr, hrend, hrat⟩, -⟩ := h.source _ mem_cons_self
  exact {
    sorted := hsorted.2
    le_newest := fun p hp => hnewest ▸ h.le_newest p (mem_cons_of_mem _ hp)
    from_le := Nat.le_trans h.from_le hsorted.1
    recs_le := fun r hr => hnewest ▸ h.recs_le r hr
    source := fun p hp => h.source p (mem_cons_of_mem _ hp)
    settled_source := .inr ⟨r, hr, hrend, now, hnow,
      Nat.le_trans (by omega) hold⟩
    cap := Nat.le_of_succ_le h.cap }

theorem Inv.settleLoop (hnow : now ∈ at_) : ∀ {settled : Nat} {pending : List (Nat × Nat)},
    Inv from_ recs at_ ⟨settled, pending⟩ → Inv from_ recs at_ (settleLoop now settled pending) ∧
        settled ≤ (settleLoop now settled pending).settled := by
  intro settled pending h
  induction pending generalizing settled with
  | nil => exact ⟨h, Nat.le_refl _⟩
  | cons p rest ih =>
    unfold InputTimes.settleLoop
    split_ifs with hyoung
    · exact ⟨h, Nat.le_refl _⟩
    · have hpos : 0 < ECHO_GRACE := by decide
      obtain ⟨hinv, hle⟩ := ih (h.pop (by omega) hnow)
      exact ⟨hinv, Nat.le_trans (rel_of_pairwise_cons h.sorted mem_cons_self) hle⟩

theorem Inv.mono {more : List Nat} (h : Inv from_ recs at_ t) : Inv from_ recs (at_ ++ more) t :=
  { h with
    settled_source := h.settled_source.imp_right fun ⟨r, hr, he, m, hm, hle⟩ =>
      ⟨r, hr, he, m, mem_append_left _ hm, hle⟩ }

theorem Inv.settle (h : Inv from_ recs at_ t) (now : Nat) :
    Inv from_ recs (at_ ++ [now]) (t.settle now) ∧ t.settled ≤ (t.settle now).settled :=
  Inv.settleLoop (mem_append_right _ mem_cons_self) h.mono

theorem run_snoc (calls : List Call) (c : Call) :
    run from_ (calls ++ [c]) = (run from_ calls).apply c := by
  rw [run, foldl_append]
  rfl

theorem run_inv (from_ : Nat) (calls : List Call) :
    Inv from_ (recorded calls) (settles calls) (run from_ calls) := by
  induction calls using List.reverseRecOn with
  | nil =>
    exact ⟨pairwise_singleton _ _, by simp [run, new], Nat.le_refl _, by simp [recorded],
      by simp [run, new], .inl rfl, Nat.zero_le _⟩
  | append_singleton calls c ih =>
    cases c with
    | record end_ now => simpa [run_snoc, recorded, settles, apply] using ih.record
    | settle now => simpa [run_snoc, recorded, settles, apply] using (ih.settle now).1

theorem settled_le_run (calls more : List Call) :
    (run from_ calls).settled ≤ (run from_ (calls ++ more)).settled := by
  induction more using List.reverseRecOn with
  | nil => exact Nat.le_of_eq (by rw [append_nil])
  | append_singleton more c ih =>
    rw [← append_assoc, run_snoc]
    refine Nat.le_trans ih ?_
    cases c with
    | record end_ now =>
      show _ ≤ (InputTimes.record _ end_ now).settled
      unfold InputTimes.record
      split_ifs <;> exact Nat.le_refl _
    | settle now => exact ((run_inv from_ (calls ++ more)).settle now).2

theorem settleLoop_all_old {settled : Nat} {pending : List (Nat × Nat)}
    (h : ∀ p ∈ pending, p.2 + ECHO_GRACE ≤ now) :
    (settleLoop now settled pending).settled = newest ⟨settled, pending⟩ := by
  induction pending generalizing settled with
  | nil => rfl
  | cons p rest ih =>
    have hp := h p mem_cons_self
    rw [settleLoop, if_neg (by omega), ih fun q hq => h q (mem_cons_of_mem _ hq)]
    cases hrest : rest.getLast? <;> simp [newest, getLast?_cons, hrest]

/-- After any calls: the answers never go back; an answer is covered by a write
that is old enough, unless a later `now` was asked about before; once all writes
are old enough the answer is the last offset; and the table keeps its cap. -/
theorem settle_never_optimistic (from_ : Nat) (calls : List Call) :
    (∀ more, (run from_ calls).settled ≤ (run from_ (calls ++ more)).settled) ∧
    (∀ now, (∀ m ∈ settles calls, m ≤ now) → ((run from_ calls).settle now).settled ≤ from_ ∨
        ∃ r ∈ recorded calls, r.2 + ECHO_GRACE ≤ now ∧
          ((run from_ calls).settle now).settled ≤ r.1) ∧
    (∀ now last, (recorded calls).Pairwise (fun q r => q.1 ≤ r.1) →
      (recorded calls).getLast? = some last → (∀ r ∈ recorded calls, r.2 + ECHO_GRACE ≤ now) →
      ((run from_ calls).settle now).settled = max from_ last.1) ∧
    (run from_ calls).pending.length ≤ MAX_INPUT_TIMES := by
  have hinv := run_inv from_ calls
  refine ⟨settled_le_run calls, ?_, ?_, hinv.cap⟩
  · intro now hnow
    rcases (hinv.settle now).1.settled_source with h | ⟨r, hr, he, m, hm, hle⟩
    · exact .inl (by omega)
    have hm : m ≤ now := by
      rcases mem_append.1 hm with hm | hm
      · exact hnow m hm
      · exact Nat.le_of_eq (mem_singleton.1 hm)
    exact .inr ⟨r, hr, Nat.le_trans hle hm, Nat.le_of_eq he.symm⟩
  intro now last hends hlast hold
  have hset := (hinv.settle now).1
  have hnewest : ((run from_ calls).settle now).settled = (run from_ calls).newest :=
    settleLoop_all_old fun p hp => by
      obtain ⟨r, hr, hat⟩ := (hinv.source p hp).2
      exact hat ▸ hold r hr
  obtain ⟨init, hinit⟩ := getLast?_eq_some_iff.1 hlast
  have hmem : last ∈ recorded calls := mem_of_getLast? hlast
  have hupper : ((run from_ calls).settle now).settled ≤ max from_ last.1 := by
    rcases hset.settled_source with h | ⟨r, hr, he, -⟩
    · omega
    rw [hinit] at hr hends
    rcases mem_append.1 hr with hr | hr
    · have := (pairwise_append.1 hends).2.2 r hr last mem_cons_self
      omega
    · rw [mem_singleton.1 hr] at he
      omega
  have hlower := hinv.recs_le last hmem
  have hfrom := hset.from_le
  omega

end InputTimes

end Qsh.Session
