import Mathlib.Logic.Function.Basic

/-!
# Point updates

A table is a function from its keys, and a write to one key is
`Function.update`.  `update_cases` reads an entry of the table after the write:
it is the one that was written, or an old one under another key.  `update_pred`
is the same for what is known of the entry.
-/

namespace Qsh.Lib

variable {α β : Type} [DecidableEq α] {f : α → β} {k j : α} {x y : β}

theorem update_pred {P : β → Prop} (h : P (Function.update f k x j)) :
    j = k ∧ P x ∨ j ≠ k ∧ P (f j) := by
  rw [Function.update_apply] at h
  split at h
  · exact .inl ⟨‹_›, h⟩
  · exact .inr ⟨‹_›, h⟩

theorem update_cases (h : Function.update f k x j = y) :
    j = k ∧ x = y ∨ j ≠ k ∧ f j = y :=
  update_pred (P := fun z => z = y) h

end Qsh.Lib
