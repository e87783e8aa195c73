import Qsh.Client.PredictPending

/-!
# Judging the pending predictions

What the host screen can do to the predictions that wait for a verdict.

* `Judged` is the frame of everything between the arrival of a host event and
  the next key: predictions go and none comes, the epoch only grows, the row
  stays while something is pending, and an epoch becomes confirmed only by a
  prediction that the host screen shows (`Shows`).  It composes, and
  `reconcile_judged` is the chain of the source's functions.
-/

namespace Qsh.Client

open List

open Qsh.Screen (ScreenState Cell)

namespace Predictor

/-! ## What judging leaves alone -/

/-- The predictor without its predictions, epochs, view and counters. -/
def hostSide (s : Predictor) : Predictor :=
  { s with
    row := 0
    view := []
    cursor := none
    staleUntil := none
    pending := []
    epoch := 0
    confirmedEpochs := []
    wrongRun := 0
    suspended := false
    undrawnConfirms := 0
    glitch := false
    repairRun := 0
    stats := ⟨0, 0, 0, 0⟩ }

def uncounted (s : Predictor) : Predictor :=
  { s with
    confirmedEpochs := []
    wrongRun := 0
    suspended := false
    undrawnConfirms := 0
    glitch := false
    repairRun := 0
    stats := ⟨0, 0, 0, 0⟩ }

/-- The host shows the character that was predicted. -/
def Shows (s : Predictor) (p : Pred) : Prop :=
  p.kind = .insert ∧ isBlank p.expect = false ∧
    ((s.hostCells s.row).bind (·[p.primary.getD 0]?)).map (·.text) = some p.expect

variable {s : Predictor} {p : Pred}

variable {t : Predictor}

theorem shows_of_hostSide (h : t.hostSide = s.hostSide) (hrow : t.row = s.row)
    : t.Shows p ↔ s.Shows p := by
  have hcursor : t.hostCursor = s.hostCursor := (congrArg Predictor.hostCursor h :)
  have hsnap : t.snap = s.snap := (congrArg Predictor.snap h :)
  rw [Shows, Shows, hostCells, hostCells, hcursor, hsnap, hrow]

/-- What judging predictions keeps and what it may change. -/
structure Judged (s t : Predictor) : Prop where
  host : t.hostSide = s.hostSide
  epoch : s.epoch ≤ t.epoch
  pending : t.pending.Sublist s.pending
  row : t.pending ≠ [] → t.row = s.row
  evidence : s.pending.Nodup → ∀ e ∈ t.confirmedEpochs, e ∈ s.confirmedEpochs ∨
    ∃ p ∈ s.pending, p ∉ t.pending ∧ p.epoch = e ∧ s.Shows p

namespace Judged

theorem refl (s : Predictor) : Judged s s :=
  ⟨rfl, Nat.le_refl _, .refl _, fun _ => rfl, fun _ _ he => .inl he⟩

theorem trans {s t u : Predictor} (h : Judged s t) (h' : Judged t u) : Judged s u where
  host := h'.host.trans h.host
  epoch := Nat.le_trans h.epoch h'.epoch
  pending := h'.pending.trans h.pending
  row hu :=
    have ht : t.pending ≠ [] := fun hnil => hu (sublist_nil.1 (hnil ▸ h'.pending))
    (h'.row hu).trans (h.row ht)
  evidence hnodup e he := by
    rcases h'.evidence (hnodup.sublist h.pending) e he with he | ⟨p, hp, hgone, hpe, hshows⟩
    · rcases h.evidence hnodup e he with he | ⟨p, hp, hgone, hpe, hshows⟩
      · exact .inl he
      · exact .inr ⟨p, hp, fun hin => hgone (h'.pending.subset hin), hpe, hshows⟩
    · have hrow := h.row (ne_nil_of_mem hp)
      exact .inr ⟨p, h.pending.subset hp, hgone, hpe, (shows_of_hostSide h.host hrow).1 hshows⟩

theorem ite {c : Prop} [Decidable c] {s t u : Predictor} (ht : Judged s t) (hu : Judged s u) :
    Judged s (if c then t else u) := by
  split
  · exact ht
  · exact hu

end Judged

theorem pruneEpochs_judged (s : Predictor) : Judged s s.pruneEpochs :=
  ⟨rfl, Nat.le_refl _, .refl _, fun _ => rfl,
    fun _ _ he => .inl (mem_of_mem_filter he)⟩

theorem rebuildView_judged (s : Predictor) : Judged s s.rebuildView :=
  ⟨rfl, Nat.le_refl _, .refl _, fun _ => rfl, fun _ _ he => .inl he⟩

theorem discardAll_judged (s : Predictor) : Judged s s.discardAll :=
  ⟨rfl, Nat.le_succ _, nil_sublist _, fun h => absurd rfl h,
    fun _ _ he => .inl (mem_of_mem_filter he)⟩

theorem checkBlock_judged (s : Predictor) :
    Judged { s with wasBlocked := s.blocked.isSome } s.checkBlock := by
  rw [checkBlock]
  split
  · exact discardAll_judged { s with wasBlocked := s.blocked.isSome }
  · exact .refl _

structure Blocks (s : Predictor) : Prop where
  known : s.wasBlocked = s.blocked.isSome
  nil : s.blocked.isSome = true → s.pending = []

theorem checkBlock_blocks (h : s.wasBlocked = true → s.pending = []) :
    s.checkBlock.Blocks := by
  rw [checkBlock]
  split
  · exact ⟨rfl, fun _ => rfl⟩
  rename_i hno
  refine ⟨rfl, fun hb => ?_⟩
  cases hwas : s.wasBlocked with
  | true => exact h hwas
  | false => exact absurd ⟨hb, by rw [hwas]; rfl⟩ hno

theorem Judged.blocks (h : Judged s t) (hs : s.Blocks) : t.Blocks := by
  have hblocked : t.blocked = s.blocked := (congrArg blocked h.host :)
  have hwas : t.wasBlocked = s.wasBlocked := (congrArg Predictor.wasBlocked h.host :)
  refine ⟨?_, fun hb => ?_⟩
  · rw [hwas, hblocked]
    exact hs.known
  · rw [hblocked] at hb
    exact sublist_nil.1 (hs.nil hb ▸ h.pending)

/-! ## Verdicts -/

theorem verdictOwn_evidence {later : List Pred}
    (h : s.verdictOwn p later = .matched true) : s.Shows p := by
  rw [verdictOwn] at h
  dsimp only at h
  split at h
  · split_ifs at h
    cases h
  · split_ifs at h
    cases h
  split_ifs at h with hwait htext hwrong
  have hbits := Verdict.matched.inj h
  rw [Bool.and_eq_true, Bool.not_eq_true', decide_eq_true_eq] at hbits
  refine ⟨hbits.2, hbits.1, ?_⟩
  rw [textEq, hbits.1, Bool.and_false, Bool.or_false, decide_eq_true_eq] at htext
  cases hcell : ((s.hostCells s.row).bind (·[p.primary.getD 0]?)).map (·.text) with
  | none =>
    rw [hcell, Option.getD_none] at htext
    rw [← htext] at hbits
    exact absurd hbits.1 (by decide)
  | some text =>
    rw [hcell, Option.getD_some] at htext
    rw [htext]

theorem verdicts_evidence {ps : List Pred}
    (h : (p, .matched true) ∈ s.verdicts ps) : s.Shows p := by
  induction ps with
  | nil => cases h
  | cons q later ih =>
    rw [verdicts] at h
    rcases mem_cons.1 h with h | h
    · have hp := congrArg Prod.fst h
      have hv := congrArg Prod.snd h
      subst hp
      split at hv
      · cases hv
      · cases hv
      · exact verdictOwn_evidence hv.symm
    · exact ih h

theorem settle_evidence {vs : List (Pred × Verdict)}
    (h : (p, .matched true) ∈ s.settle vs) : (p, .matched true) ∈ vs := by
  induction vs with
  | nil => exact h
  | cons v rest ih =>
    obtain ⟨q, v⟩ := v
    rw [settle] at h
    rcases mem_cons.1 h with h | h
    · have hp := congrArg Prod.fst h
      have hv := congrArg Prod.snd h
      dsimp only at hp hv
      subst hp
      split at hv
      · cases hv
      · rw [← hv]
        exact mem_cons_self
    · exact mem_cons_of_mem _ (ih h)

/-! ## The sweep -/

theorem countUndrawn_uncounted (s : Predictor) :
    s.countUndrawn.uncounted = s.uncounted ∧
      s.countUndrawn.confirmedEpochs = s.confirmedEpochs := by
  rw [countUndrawn]
  split_ifs <;> exact ⟨rfl, rfl⟩

theorem noteDelay_uncounted (s : Predictor) (delay : Nat) :
    (s.noteDelay delay).uncounted = s.uncounted ∧
      (s.noteDelay delay).confirmedEpochs = s.confirmedEpochs := by
  rw [noteDelay]
  split_ifs <;> exact ⟨rfl, rfl⟩

theorem confirm_uncounted (s : Predictor) (p : Pred) (now : Nat) :
    (s.confirm p now).uncounted = s.uncounted ∧
      ∀ e ∈ (s.confirm p now).confirmedEpochs, e ∈ s.confirmedEpochs ∨ e = p.epoch := by
  rw [confirm]
  rw [(noteDelay_uncounted _ _).1, (noteDelay_uncounted _ _).2, (countUndrawn_uncounted _).1,
    (countUndrawn_uncounted _).2]
  refine ⟨rfl, fun e he => ?_⟩
  split at he
  · exact .inl he
  · exact (mem_append.1 he).imp_right mem_singleton.1

/-- From `w` to `w'` counters change only; what is kept is a part of what was judged, and
an epoch is confirmed by a prediction that is not kept. -/
def Sifts (judged : List (Pred × Verdict)) (w w' : Sweep) : Prop :=
  w'.predictor.uncounted = w.predictor.uncounted ∧
    ∃ kept, w'.keep = w.keep ++ kept ∧ kept.Sublist (judged.map (·.1)) ∧
      ((judged.map (·.1)).Nodup → ∀ e ∈ w'.predictor.confirmedEpochs,
        e ∈ w.predictor.confirmedEpochs ∨
          ∃ p, (p, .matched true) ∈ judged ∧ p ∉ kept ∧ p.epoch = e)

theorem sweep_judges (now : Nat) (judged : List (Pred × Verdict)) (w : Sweep) :
    Sifts judged w (judged.foldl (sweepOne now) w) := by
  induction judged generalizing w with
  | nil =>
    exact ⟨rfl, [], (append_nil _).symm, .refl _, fun _ e he => .inl he⟩
  | cons pv judged ih =>
    obtain ⟨p, v⟩ := pv
    rw [foldl_cons]
    -- a step that keeps nothing: the rest of the sweep decides
    have hgone : ∀ w' : Sweep, w'.keep = w.keep → w'.predictor.uncounted = w.predictor.uncounted →
        (∀ e ∈ w'.predictor.confirmedEpochs,
          e ∈ w.predictor.confirmedEpochs ∨ v = .matched true ∧ e = p.epoch) →
        Sifts ((p, v) :: judged) w (judged.foldl (sweepOne now) w') := by
      intro w' hkeep hun hconf
      obtain ⟨hun', kept, hkept, hsub, hev⟩ := ih w'
      refine ⟨hun'.trans hun, kept, hkeep ▸ hkept, hsub.trans (sublist_cons_self _ _),
        fun hnodup e he => ?_⟩
      obtain ⟨hfresh, hnodup⟩ := nodup_cons.1 hnodup
      rcases hev hnodup e he with he | ⟨q, hq, hnot, hqe⟩
      · rcases hconf e he with he | ⟨rfl, rfl⟩
        · exact .inl he
        · exact .inr ⟨p, mem_cons_self, fun hin => hfresh (hsub.subset hin), rfl⟩
      · exact .inr ⟨q, mem_cons_of_mem _ hq, hnot, hqe⟩
    cases hdrop : w.droppedEnd with
    | some d =>
      simp only [sweepOne, hdrop]
      exact hgone _ rfl rfl fun e he => .inl he
    | none =>
      cases v with simp only [sweepOne, hdrop]
      | pending =>
        obtain ⟨hun, kept, hkept, hsub, hev⟩ :=
          ih { w with keep := w.keep ++ [p], droppedEnd := none }
        refine ⟨hun, p :: kept, ?_, hsub.cons_cons p, fun hnodup e he => ?_⟩
        · rw [hkept, append_assoc]
          rfl
        obtain ⟨hfresh, hnodup⟩ := nodup_cons.1 hnodup
        rcases hev hnodup e he with he | ⟨q, hq, hnot, hqe⟩
        · exact .inl he
        refine .inr ⟨q, mem_cons_of_mem _ hq, fun hin => ?_, hqe⟩
        rcases mem_cons.1 hin with rfl | hin
        · have hlater := mem_map_of_mem (f := Prod.fst) hq
          exact hfresh hlater
        · exact hnot hin
      | matched evidence =>
        obtain ⟨hun, hconf⟩ := confirm_uncounted w.predictor p now
        cases evidence with
        | false => exact hgone _ rfl rfl fun e he => .inl he
        | true =>
          refine hgone _ rfl hun fun e he => ?_
          rcases hconf e he with he | he
          · exact .inl he
          · exact .inr ⟨rfl, he⟩
      | wrong => exact hgone _ rfl rfl fun e he => .inl he

/-! ## Passes -/

theorem resolve_judged (s : Predictor) : Judged s s.resolve.1 := by
  rw [resolve]
  split
  swap
  · exact .refl s
  rename_i first later now hpending hnow
  obtain ⟨hun, kept, hkept, hsub, hev⟩ :=
    sweep_judges now (s.settle (s.verdicts s.pending)) ⟨s, [], false, none⟩
  rw [settle_fst, verdicts_fst] at hsub hev
  rw [nil_append] at hkept
  have hhost : _ = s.hostSide := (congrArg hostSide hun :)
  have hepoch : _ = s.epoch := (congrArg Predictor.epoch hun :)
  have hrow : _ = s.row := (congrArg Predictor.row hun :)
  dsimp only
  generalize (s.settle (s.verdicts s.pending)).foldl (sweepOne now) ⟨s, [], false, none⟩ = w at *
  have hevidence : s.pending.Nodup → ∀ e ∈ w.predictor.confirmedEpochs, e ∈ s.confirmedEpochs ∨
        ∃ p ∈ s.pending, p ∉ w.keep ∧ p.epoch = e ∧ s.Shows p := by
    intro hnodup e he
    rcases hev hnodup e he with he | ⟨p, hp, hnot, hpe⟩
    · exact .inl he
    have hjudged := settle_evidence hp
    have hmem : p ∈ s.pending := by
      have h := mem_map_of_mem (f := Prod.fst) hjudged
      rwa [verdicts_fst] at h
    exact .inr ⟨p, hmem, hkept ▸ hnot, hpe, verdicts_evidence hjudged⟩
  split
  · exact ⟨hhost, Nat.le_of_lt (Nat.lt_succ_of_le (Nat.le_of_eq hepoch.symm)), hkept ▸ hsub,
      fun _ => hrow, hevidence⟩
  · exact ⟨hhost, Nat.le_of_eq hepoch.symm, hkept ▸ hsub, fun _ => hrow, hevidence⟩

theorem resolveAll_judged (n : Nat) (s : Predictor) : Judged s (resolveAll n s) := by
  induction n generalizing s with
  | zero => exact .refl s
  | succ n ih =>
    have hone := resolve_judged s
    rw [resolveAll]
    cases hres : s.resolve with
    | mk t again =>
      rw [hres] at hone
      cases again with
      | true => exact hone.trans (ih t)
      | false => exact hone

/-! ## Reconciling -/

/-- The last part of `reconcile`: the row and the cursor of the host are taken
over where nothing is pending. -/
theorem resync_judged (s : Predictor) : Judged s s.resync where
  host := rfl
  epoch := Nat.le_refl _
  pending := .refl _
  row hne := by
    have hempty : s.pending.isEmpty = false := isEmpty_eq_false_iff.2 hne
    rw [resync, hempty]
    rfl
  evidence _ _ he := .inl he

theorem reconcile_judged (hb : s.blocked.isSome → s.pending = []) :
    Judged s s.reconcile := by
  rw [reconcile]
  split
  · exact .refl s
  split
  · next hblocked =>
    exact ⟨rfl, Nat.le_refl _, .refl _, fun hne => absurd (hb hblocked) hne,
      fun _ _ he => .inl he⟩
  have hres := resolveAll_judged (s.pending.length + 1) s
  generalize resolveAll (s.pending.length + 1) s = t at hres ⊢
  have hdisp : Judged t (if t.displaced then t.discardAll else t) :=
    .ite t.discardAll_judged (.refl t)
  exact hres.trans (hdisp.trans ((resync_judged _).trans
    ((pruneEpochs_judged _).trans (rebuildView_judged _))))

end Predictor

end Qsh.Client
