import Mathlib.Data.List.Basic

/-!
# Runs of a step function

A concurrent component is a step function.  A state and a label give the next state, or
`none` when the label is not enabled there.  Every choice of the environment (which task
moves, what the network does, what the clock reads) is part of the label, so a run is a
list of labels and an interleaving is an order of labels.

`Run step C s as t` is the run from `s` to `t` over the labels `as`.  The condition `C`
is met by every step, in the state before it; a statement about every interleaving takes
`C := fun _ _ => True`.

`Run.invariant` is the induction rule.  `Run.of_execWhere` is the executable way:
`execWhere` plays the labels one after the other and checks `C` on the way.
-/

namespace Qsh.Lib

variable {σ α : Type}

/-- A run of `step` whose steps all meet `C` in the state before them. -/
inductive Run (step : σ → α → Option σ) (C : σ → α → Prop) :
    σ → List α → σ → Prop
  | nil (s : σ) : Run step C s [] s
  | cons {s s' t : σ} {a : α} {as : List α} (hC : C s a)
      (hs : step s a = some s') (hr : Run step C s' as t) :
      Run step C s (a :: as) t

namespace Run

variable {step : σ → α → Option σ} {C : σ → α → Prop}

variable {s t : σ} {as : List α}

variable {I : σ → Prop}

theorem invariant (hstep : ∀ s a s', C s a → step s a = some s' → I s → I s')
      (h : Run step C s as t) (hs : I s) : I t := by
  induction h with
  | nil s => exact hs
  | cons hC hstep' _ ih => exact ih (hstep _ _ _ hC hstep' hs)

variable {D : σ → α → Prop}

theorem mono (hCD : ∀ s a, C s a → D s a) (h : Run step C s as t) : Run step D s as t := by
  induction h with
  | nil s => exact .nil s
  | cons hC hs _ ih => exact .cons (hCD _ _ hC) hs ih

/-- A run meets every condition that follows from its own in the states that keep an
invariant. -/
theorem mono_of_invariant
    (hstep : ∀ s a s', D s a → step s a = some s' → I s → I s') (hCD : ∀ s a, I s → C s a → D s a)
    (h : Run step C s as t) (hs : I s) : Run step D s as t := by
  induction h with
  | nil s => exact .nil s
  | cons hC hstep' _ ih =>
    have hD := hCD _ _ hs hC
    exact .cons hD hstep' (ih (hstep _ _ _ hD hstep' hs))

theorem snoc {u : σ} {a : α} (h : Run step C s as t) (hC : C t a)
    (hs : step t a = some u) : Run step C s (as ++ [a]) u := by
  induction h with
  | nil s => exact .cons hC hs (.nil u)
  | cons hC' hs' _ ih => exact .cons hC' hs' (ih hC hs)

/-- The rule for leaving labels out.  A relation that a kept label carries from
one run to the other, and that a dropped label of the first run keeps, holds at
the end of a run over the kept labels alone. -/
theorem filter_sim {keep : α → Bool} {R : σ → σ → Prop} (h : Run step C s as t)
    (hkeep : ∀ s s' u a, keep a = true → C s a → step s a = some s' → R s u →
      ∃ u', C u a ∧ step u a = some u' ∧ R s' u')
    (hdrop : ∀ s s' u a, keep a = false → C s a → step s a = some s' → R s u → R s' u)
    {u : σ} (hR : R s u) :
    ∃ u', Run step C u (as.filter keep) u' ∧ R t u' := by
  induction h generalizing u with
  | nil s => exact ⟨u, .nil u, hR⟩
  | @cons s s' t a as hC hs _ ih =>
    cases hk : keep a with
    | true =>
      obtain ⟨v, hCv, hsv, hRv⟩ := hkeep s s' u a hk hC hs hR
      obtain ⟨u', hrun, hRt⟩ := ih hRv
      rw [List.filter_cons_of_pos hk]
      exact ⟨u', .cons hCv hsv hrun, hRt⟩
    | false =>
      rw [List.filter_cons_of_neg (by simp [hk])]
      exact ih (hdrop s s' u a hk hC hs hR)

end Run

/-- Play the labels one after the other, and stop at the first one that is
not enabled or that does not meet `C`. -/
def execWhere (step : σ → α → Option σ) (C : σ → α → Prop)
    [∀ s a, Decidable (C s a)] (s : σ) : List α → Option σ
  | [] => some s
  | a :: as =>
      if C s a then
        match step s a with
        | some s' => execWhere step C s' as
        | none => none
      else none

theorem Run.of_execWhere {step : σ → α → Option σ} {C : σ → α → Prop}
    [∀ s a, Decidable (C s a)] {s t : σ} {as : List α}
    (h : execWhere step C s as = some t) : Run step C s as t := by
  induction as generalizing s with
  | nil =>
    rw [execWhere, Option.some.injEq] at h
    exact h ▸ .nil s
  | cons a as ih =>
    rw [execWhere] at h
    split_ifs at h with hC
    split at h
    · rename_i s' hs'
      exact .cons hC hs' (ih h)
    · cases h

/-- A run that plays to a state with a property that can be checked, and with what
follows from it. -/
theorem Run.exists_exec {step : σ → α → Option σ} {C : σ → α → Prop}
    [∀ s a, Decidable (C s a)] {s : σ} {as : List α} {Q : σ → Prop} (P : σ → Prop)
    [DecidablePred P] (h : (execWhere step C s as).any (fun t => decide (P t)) = true)
    (hQ : ∀ t, Run step C s as t → P t → Q t) : ∃ t, Run step C s as t ∧ Q t := by
  obtain ⟨t, hexec, hP⟩ := (Option.any_eq_true _ _).1 h
  have hrun := Run.of_execWhere hexec
  exact ⟨t, hrun, hQ t hrun (of_decide_eq_true hP)⟩

theorem Run.exists_of_exec {step : σ → α → Option σ} {C : σ → α → Prop}
    [∀ s a, Decidable (C s a)] {s : σ} {as : List α} {P : σ → Prop} [DecidablePred P]
    (h : (execWhere step C s as).any (fun t => decide (P t)) = true) :
    ∃ t, Run step C s as t ∧ P t :=
  Run.exists_exec P h fun _ _ hP => hP

end Qsh.Lib
