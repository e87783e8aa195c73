import Qsh.Client.Predict

/-!
# What happens to the pending predictions

Two frames of the predictor's operations.

* `Narrows`: everything but typed input only takes predictions away, and leaves the
  bytes of a split character alone.
* `onInput_spec`: typed input adds predictions only for the bytes of that read and of
  the character that was split before it, and none under a secret tty.
-/

namespace Qsh.Client

open List

open Qsh.Screen (Text ScreenState)

namespace Predictor

/-! ## Predictions only go -/

/-- `t` has no prediction that `s` does not have, and carries the same bytes
under the same tty state. -/
structure Narrows (s t : Predictor) : Prop where
  pending : ∀ p ∈ t.pending, p ∈ s.pending
  carry : t.carry = s.carry
  tty : t.tty = s.tty

namespace Narrows

theorem refl (s : Predictor) : Narrows s s :=
  ⟨fun _ hp => hp, rfl, rfl⟩

theorem trans {s t u : Predictor} (h : Narrows s t) (h' : Narrows t u) : Narrows s u :=
  ⟨fun p hp => h.pending p (h'.pending p hp), h'.carry.trans h.carry, h'.tty.trans h.tty⟩

theorem ite {c : Prop} [Decidable c] {s t u : Predictor} (ht : Narrows s t) (hu : Narrows s u) :
    Narrows s (if c then t else u) := by
  split
  · exact ht
  · exact hu

end Narrows

section

variable (s : Predictor)
include s

theorem tick_narrows (now : Nat) : Narrows s (s.tick now) := by
  rw [tick]
  split
  · exact .ite ⟨fun _ hp => hp, rfl, rfl⟩ ⟨fun _ hp => hp, rfl, rfl⟩
  · exact ⟨fun _ hp => hp, rfl, rfl⟩

theorem discardAll_narrows : Narrows s s.discardAll :=
  ⟨fun _ hp => absurd hp not_mem_nil, rfl, rfl⟩

theorem checkBlock_narrows : Narrows s s.checkBlock := by
  have h : Narrows s (if s.blocked.isSome ∧ !s.wasBlocked then s.discardAll else s) :=
    .ite s.discardAll_narrows (.refl s)
  exact { h with }

/-! ### Judging -/

theorem verdicts_fst (ps : List Pred) : (s.verdicts ps).map (·.1) = ps := by
  induction ps with
  | nil => rfl
  | cons p later ih =>
    rw [verdicts, map_cons, ih]

theorem settle_fst (vs : List (Pred × Verdict)) :
    (s.settle vs).map (·.1) = vs.map (·.1) := by
  induction vs with
  | nil => rfl
  | cons v rest ih =>
    rw [settle, map_cons, map_cons, ih]

theorem countUndrawn_narrows : Narrows s s.countUndrawn :=
  .ite (.refl s) (.ite ⟨fun _ hp => hp, rfl, rfl⟩ ⟨fun _ hp => hp, rfl, rfl⟩)

theorem noteDelay_narrows (delay : Nat) : Narrows s (s.noteDelay delay) := by
  refine .ite ⟨fun _ hp => hp, rfl, rfl⟩ (.ite (.refl s) ?_)
  exact .ite ⟨fun _ hp => hp, rfl, rfl⟩ (.ite ⟨fun _ hp => hp, rfl, rfl⟩ ⟨fun _ hp => hp, rfl, rfl⟩)

theorem confirm_narrows (p : Pred) (now : Nat) : Narrows s (s.confirm p now) := by
  have hall := (countUndrawn_narrows
    { s with
      stats := { s.stats with confirmed := s.stats.confirmed + 1 }
      confirmedEpochs :=
        if p.epoch ∈ s.confirmedEpochs then s.confirmedEpochs
        else s.confirmedEpochs ++ [p.epoch]
      wrongRun := 0 }).trans (noteDelay_narrows _ (now - p.madeAt))
  exact { hall with }

end

theorem sweepOne_spec (now : Nat) (w : Sweep) (pv : Pred × Verdict) :
    Narrows w.predictor (sweepOne now w pv).predictor ∧
      ∀ p ∈ (sweepOne now w pv).keep, p ∈ w.keep ∨ p = pv.1 := by
  obtain ⟨p, v⟩ := pv
  unfold sweepOne
  dsimp only
  split
  · exact ⟨.refl _, fun q hq => .inl hq⟩
  cases v with
  | pending => exact ⟨.refl _, fun q hq => (mem_append.1 hq).imp_right mem_singleton.1⟩
  | matched evidence =>
    exact ⟨.ite (confirm_narrows _ _ _) (.refl _), fun q hq => .inl hq⟩
  | wrong => exact ⟨⟨fun _ hp => hp, rfl, rfl⟩, fun q hq => .inl hq⟩

theorem sweep_spec (now : Nat) (judged : List (Pred × Verdict)) (w : Sweep) :
    Narrows w.predictor (judged.foldl (sweepOne now) w).predictor ∧
      ∀ p ∈ (judged.foldl (sweepOne now) w).keep, p ∈ w.keep ∨ p ∈ judged.map (·.1) := by
  induction judged generalizing w with
  | nil => exact ⟨.refl _, fun p hp => .inl hp⟩
  | cons pv judged ih =>
    obtain ⟨hone, hkeep⟩ := sweepOne_spec now w pv
    obtain ⟨hrest, hkeeps⟩ := ih (sweepOne now w pv)
    refine ⟨hone.trans hrest, fun p hp => ?_⟩
    rw [map_cons, mem_cons]
    rcases hkeeps p hp with h | h
    · rcases hkeep p h with h | h
      · exact .inl h
      · exact .inr (.inl h)
    · exact .inr (.inr h)

theorem resolve_narrows (s : Predictor) : Narrows s s.resolve.1 := by
  rw [resolve]
  split
  swap
  · exact .refl s
  rename_i now hpending hnow
  obtain ⟨hnarrow, hkeep⟩ :=
    sweep_spec now (s.settle (s.verdicts s.pending)) ⟨s, [], false, none⟩
  have hkept : ∀ p ∈ ((s.settle (s.verdicts s.pending)).foldl (sweepOne now)
      ⟨s, [], false, none⟩).keep, p ∈ s.pending := by
    intro p hp
    rcases hkeep p hp with h | h
    · cases h
    · rwa [settle_fst, verdicts_fst] at h
  dsimp only
  rw [hpending] at hkept hnarrow ⊢
  split <;> exact ⟨fun p hp => hpending ▸ hkept p hp, hnarrow.carry, hnarrow.tty⟩

theorem resolveAll_narrows (n : Nat) (s : Predictor) : Narrows s (resolveAll n s) := by
  induction n generalizing s with
  | zero => exact .refl s
  | succ n ih =>
    have hone := resolve_narrows s
    rw [resolveAll]
    cases hres : s.resolve with
    | mk t again =>
      rw [hres] at hone
      cases again with
      | true => exact hone.trans (ih t)
      | false => exact hone

theorem reconcile_narrows (s : Predictor) : Narrows s s.reconcile := by
  rw [reconcile]
  refine .ite (.refl s) (.ite ⟨fun _ hp => hp, rfl, rfl⟩ ?_)
  have hres := resolveAll_narrows (s.pending.length + 1) s
  generalize resolveAll (s.pending.length + 1) s = t at hres ⊢
  have hdisp : Narrows t (if t.displaced then t.discardAll else t) :=
    .ite t.discardAll_narrows (.refl t)
  exact hres.trans (hdisp.trans ⟨fun _ hp => hp, rfl, rfl⟩)

/-! ### Inputs from the host -/

theorem releaseHeld_narrows (s : Predictor) : Narrows s s.releaseHeld := by
  rw [releaseHeld]
  split
  · exact .ite ⟨fun _ hp => hp, rfl, rfl⟩ (.refl s)
  · exact .refl s

theorem onState_narrows (s : Predictor) (state : ScreenState) (stateNum now : Nat) :
    Narrows s (s.onState state stateNum now) := by
  have htick := s.tick_narrows now
  rw [onState]
  generalize s.tick now = t at htick ⊢
  have hsize : Narrows t
      (if t.haveState ∧ (state.rows ≠ t.rows ∨ state.cols ≠ t.cols) then t.discardAll else t) :=
    .ite t.discardAll_narrows (.refl t)
  have hadopt (u : Predictor) : Narrows u (u.adopt state stateNum now) :=
    ⟨fun _ hp => hp, rfl, rfl⟩
  exact htick.trans (hsize.trans ((hadopt _).trans ((releaseHeld_narrows _).trans
    ((checkBlock_narrows _).trans (reconcile_narrows _)))))

theorem onWriter_narrows (s : Predictor) (writer : Bool) : Narrows s (s.onWriter writer) := by
  have hset : Narrows s { s with writer } := ⟨fun _ hp => hp, rfl, rfl⟩
  exact hset.trans ((checkBlock_narrows _).trans (reconcile_narrows _))

/-- Whether the predictor takes a report: it is not ahead of the input and it
is newer than the last one taken. -/
def Takes (s : Predictor) (report : EchoReport) : Prop :=
  report.inputSeq ≤ s.lastInputEnd ∧ s.isStale report = false

instance (s : Predictor) (report : EchoReport) : Decidable (s.Takes report) :=
  inferInstanceAs (Decidable (_ ∧ _))

theorem takeReport_narrows (s : Predictor) (report : EchoReport) :
    Narrows { s with tty := report.tty } (s.takeReport report) := by
  have hheld := checkBlock_narrows
    { s with
      lastReportKey := some (report.stateNum, report.inputSeq)
      tty := report.tty
      held := some report }
  have hcover := (checkBlock_narrows
    { s with
      lastReportKey := some (report.stateNum, report.inputSeq)
      tty := report.tty
      covered := max s.covered report.inputSeq }).trans (reconcile_narrows _)
  exact .ite { hheld with } { hcover with }

theorem tick_takes (s : Predictor) (report : EchoReport) (now : Nat) :
    (s.tick now).Takes report ↔ s.Takes report := by
  have hsame : (s.tick now).lastInputEnd = s.lastInputEnd ∧
      (s.tick now).lastReportKey = s.lastReportKey := by
    rw [tick]
    split
    · split <;> exact ⟨rfl, rfl⟩
    · exact ⟨rfl, rfl⟩
  rw [Takes, Takes, isStale, isStale, hsame.1, hsame.2]

theorem onEcho_of_takes {s : Predictor} {report : EchoReport} (now : Nat)
    (h : s.Takes report) : s.onEcho report now = (s.tick now).takeReport report := by
  obtain ⟨hin, hnew⟩ := (s.tick_takes report now).2 h
  rw [onEcho]
  rw [if_neg (by omega), if_neg (by rw [hnew]; exact Bool.false_ne_true)]

theorem onEcho_narrows (s : Predictor) (report : EchoReport) (now : Nat) :
    Narrows { s with tty := if s.Takes report then report.tty else s.tty }
      (s.onEcho report now) := by
  have htick := s.tick_narrows now
  by_cases htakes : s.Takes report
  · rw [if_pos htakes, onEcho_of_takes now htakes]
    have htake := (s.tick now).takeReport_narrows report
    exact ⟨fun p hp => htick.pending p (htake.pending p hp), htake.carry.trans htick.carry,
      htake.tty⟩
  rw [if_neg htakes]
  rw [← s.tick_takes report now] at htakes
  rw [onEcho]
  generalize s.tick now = t at htick htakes ⊢
  split
  · exact { htick with }
  rename_i hin
  split
  · exact { htick with }
  · next hnew =>
    exact absurd ⟨Nat.not_lt.1 hin, Bool.eq_false_iff.2 hnew⟩ htakes

/-! ## Typed input adds predictions -/

end Predictor

/-- The input offset of the first byte that a prediction stands for.  Only a
character can begin in an earlier read; of the other keys it is the last byte
that counts. -/
def Pred.begin (p : Pred) : Nat :=
  match p.kind with
  | .insert => p.inputEnd - p.expect.len
  | _ => p.inputEnd - 1

namespace Predictor

variable {s : Predictor} {c now : Nat} {p : Pred}

theorem buildInsert_eq_some {W : Widths} {ch : Char}
    (h : s.buildInsert W ch c now = some p) : p.kind = .insert ∧ p.expect = [ch] := by
  rw [buildInsert] at h
  split at h
  · cases h
  dsimp only at h
  split at h <;> cases h
  exact ⟨rfl, rfl⟩

theorem buildBackspace_eq_some (h : s.buildBackspace c now = some p) : p.kind = .backspace := by
  rw [buildBackspace] at h
  split at h <;> cases h
  rfl

theorem buildLeft_eq_some (h : s.buildLeft c now = some p) : p.kind = .left := by
  rw [buildLeft] at h
  split_ifs at h <;> cases h <;> rfl

theorem buildRight_eq_some (h : s.buildRight c now = some p) : p.kind = .right := by
  rw [buildRight] at h
  dsimp only at h
  split_ifs at h <;> cases h <;> rfl

theorem build_begin {W : Widths} {ev : Ev} {e lo hi : Nat}
    (h : s.build W ev c now = some p) (hkey : KeyWithin lo hi (ev, e)) :
    lo ≤ Pred.begin { p with epoch := s.epoch, inputEnd := e } := by
  obtain ⟨hlt, _, hchar⟩ := hkey
  cases ev with
  | char ch =>
    obtain ⟨hkind, hexpect⟩ := buildInsert_eq_some h
    have hle := hchar ch rfl
    simp only [Pred.begin, hkind, hexpect]
    omega
  | backspace =>
    simp only [Pred.begin, buildBackspace_eq_some h]
    omega
  | left =>
    simp only [Pred.begin, buildLeft_eq_some h]
    omega
  | right =>
    simp only [Pred.begin, buildRight_eq_some h]
    omega
  | breaks => cases h

theorem blocked_of_secret (h : s.tty = .secret) : s.blocked.isSome := by
  rw [blocked, if_pos h]
  split
  · rfl
  split <;> rfl

theorem predictAt_not_secret {rc : Nat × Nat} (h : s.predictAt = some rc) :
    s.tty ≠ .secret := by
  intro hsecret
  rw [predictAt, if_pos (.inl (blocked_of_secret hsecret))] at h
  cases h

theorem onKey_spec (W : Widths) (now : Nat) (s : Predictor) {lo hi : Nat} {key : Ev × Nat}
    (hkey : KeyWithin lo hi key) :
    (∀ p ∈ (onKey W now s key).pending,
      p ∈ s.pending ∨ s.tty ≠ .secret ∧ lo ≤ p.begin ∧ p.inputEnd ≤ hi) ∧
      (onKey W now s key).carry = s.carry ∧ (onKey W now s key).tty = s.tty := by
  obtain ⟨ev, e⟩ := key
  rw [onKey]
  cases htry : s.tryPredict W ev e now with
  | none => exact ⟨fun _ hp => .inl hp, rfl, rfl⟩
  | some t =>
    rw [tryPredict] at htry
    split at htry
    · cases htry
    rename_i r c hat
    split at htry
    · cases htry
    rename_i p hbuild
    cases htry
    refine ⟨fun q hq => ?_, rfl, rfl⟩
    rcases mem_append.1 hq with hq | hq
    · exact .inl hq
    · rw [mem_singleton] at hq
      subst hq
      exact .inr ⟨predictAt_not_secret hat, build_begin hbuild hkey, hkey.2.1⟩

theorem onKeys_spec (W : Widths) (now : Nat) (s : Predictor) {lo hi : Nat}
    {keys : List (Ev × Nat)} (hkeys : ∀ key ∈ keys, KeyWithin lo hi key) :
    (∀ p ∈ (keys.foldl (onKey W now) s).pending,
      p ∈ s.pending ∨ s.tty ≠ .secret ∧ lo ≤ p.begin ∧ p.inputEnd ≤ hi) ∧
      (keys.foldl (onKey W now) s).carry = s.carry ∧
      (keys.foldl (onKey W now) s).tty = s.tty := by
  induction keys generalizing s with
  | nil => exact ⟨fun p hp => .inl hp, rfl, rfl⟩
  | cons key keys ih =>
    obtain ⟨hone, hcarry, htty⟩ := onKey_spec W now s (hkeys key mem_cons_self)
    obtain ⟨hrest, hcarries, httys⟩ :=
      ih (onKey W now s key) fun k hk => hkeys k (mem_cons_of_mem key hk)
    refine ⟨fun p hp => ?_, hcarries.trans hcarry, httys.trans htty⟩
    rcases hrest p hp with h | h
    · exact hone p h
    · rw [htty] at h
      exact .inr h

theorem onInput_spec (W : Widths) (s : Predictor) (bytes : List UInt8) {typed : Nat} (now : Nat)
    (hcarry : s.carry.length ≤ typed) :
    (∀ p ∈ (s.onInput W bytes (typed + bytes.length) now).pending, p ∈ s.pending ∨
        s.tty ≠ .secret ∧ typed - s.carry.length ≤ p.begin ∧ p.inputEnd ≤ typed + bytes.length) ∧
      (s.onInput W bytes (typed + bytes.length) now).carry.length ≤ s.carry.length + bytes.length ∧
      (s.onInput W bytes (typed + bytes.length) now).tty = s.tty := by
  have htick := s.tick_narrows now
  rw [onInput]
  generalize s.tick now = t at htick ⊢
  rw [← htick.carry] at hcarry ⊢
  rw [← htick.tty]
  obtain ⟨hpending, hcarry', htty⟩ := onKeys_spec W now
    { t with
      lastInputEnd := max t.lastInputEnd (typed + bytes.length)
      carry := (parseRead t.carry bytes t.inPaste (typed + bytes.length)).carry
      inPaste := (parseRead t.carry bytes t.inPaste (typed + bytes.length)).inPaste }
    (fun key hkey => ((parseRead_spec bytes t.inPaste hcarry).1 key hkey).mono (Nat.le_refl _)
      (Nat.sub_le _ _))
  refine ⟨fun p hp => ?_, ?_, htty⟩
  · rcases hpending p hp with h | h
    · exact .inl (htick.pending p h)
    · exact .inr h
  · rw [hcarry']
    exact parseRead_carry_le _ _ _ _

theorem overlay_of_secret (h : s.tty = .secret) : s.overlay = .empty := by
  rw [overlay]
  rw [if_pos (.inl (blocked_of_secret h))]

end Predictor

end Qsh.Client
