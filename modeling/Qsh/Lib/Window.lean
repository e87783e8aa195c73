import Mathlib.Data.List.Basic

/-!
# The newest entries of a list

A queue with a cap drops its oldest entries.  `keepLast n xs` is what is left
of `xs` when entries are removed from the front until at most `n` remain.

`Near` is for a queue of numbers that go up: `Near.mem_keepLast` says which of
them are sure to be among the newest entries.
-/

namespace Qsh.Lib

open List

variable {α β : Type}

/-- The last `n` elements. -/
def keepLast (n : Nat) (xs : List α) : List α :=
  (xs.reverse.take n).reverse

theorem keepLast_eq_drop (n : Nat) (xs : List α) : keepLast n xs = xs.drop (xs.length - n) := by
  rw [keepLast, take_reverse, reverse_reverse]

theorem keepLast_suffix (n : Nat) (xs : List α) : keepLast n xs <:+ xs := by
  rw [keepLast_eq_drop]
  exact drop_suffix _ _

variable {n : Nat} {l : List Nat}

theorem mem_of_mem_keepLast {xs : List α} {a : α} (h : a ∈ keepLast n xs) : a ∈ xs :=
  (keepLast_suffix n xs).mem h

theorem length_keepLast (n : Nat) (xs : List α) : (keepLast n xs).length = min n xs.length := by
  rw [keepLast_eq_drop, length_drop]
  omega

theorem map_keepLast (f : α → β) (n : Nat) (xs : List α) :
    (keepLast n xs).map f = keepLast n (xs.map f) := by
  rw [keepLast_eq_drop, keepLast_eq_drop, map_drop, length_map]

theorem keepLast_append_singleton (hn : 0 < n) (xs : List α) (a : α) :
    keepLast n (xs ++ [a]) = keepLast (n - 1) xs ++ [a] := by
  rw [keepLast_eq_drop, keepLast_eq_drop, length_append, length_singleton,
    show xs.length + 1 - n = xs.length - (n - 1) by omega,
    drop_append_of_le_length (by omega)]

/-! ## Numbers in a window -/

/-- Behind the last place of a number there are no more entries than it is
below `top`. -/
def Near (top : Nat) (l : List Nat) : Prop :=
  ∀ before m after, l = before ++ m :: after → m ∉ after → m + after.length ≤ top

theorem Near.nil (top : Nat) : Near top [] := fun _ _ _ h =>
  absurd h.symm (append_ne_nil_of_right_ne_nil _ (cons_ne_nil _ _))

variable {top m : Nat}

theorem Near.of_suffix {l' : List Nat} (h : Near top l) (hs : l' <:+ l) :
    Near top l' := by
  obtain ⟨dropped, rfl⟩ := hs
  intro before m after hl hm
  exact h (dropped ++ before) m after (by rw [hl, append_assoc]) hm

theorem append_singleton_eq {before after : List Nat} (h : l ++ [n] = before ++ m :: after) :
    (after = [] ∧ m = n) ∨ ∃ rest, after = rest ++ [n] ∧ l = before ++ m :: rest := by
  rcases eq_nil_or_concat after with rfl | ⟨rest, x, rfl⟩
  · exact .inl ⟨rfl, (List.cons.inj (append_inj' h rfl).2).1.symm⟩
  rw [concat_eq_append, ← cons_append, ← append_assoc] at h
  obtain ⟨hl, hx⟩ := append_inj' h rfl
  cases hx
  exact .inr ⟨rest, concat_eq_append, hl⟩

theorem Near.append (h : Near top l) (hn : top < n) :
    Near n (l ++ [n]) := by
  intro before m after hl hm
  rcases append_singleton_eq hl with ⟨rfl, rfl⟩ | ⟨rest, rfl, rfl⟩
  · exact Nat.le_refl _
  · have := h before m rest rfl fun hmem => hm (mem_append_left _ hmem)
    rw [length_append, length_singleton]
    omega

theorem Near.again (h : ∀ m ∈ l, m = n) : Near n (l ++ [n]) := by
  intro before m after hl hm
  rcases append_singleton_eq hl with ⟨rfl, rfl⟩ | ⟨rest, rfl, rfl⟩
  · exact Nat.le_refl _
  · rw [h m (mem_append_right _ mem_cons_self)] at hm
    exact absurd (mem_append_right _ (mem_singleton_self n)) hm

theorem exists_last_place (h : m ∈ l) :
    ∃ before after, l = before ++ m :: after ∧ m ∉ after := by
  induction l with
  | nil => cases h
  | cons x l ih =>
    by_cases hm : m ∈ l
    · obtain ⟨before, after, rfl, hafter⟩ := ih hm
      exact ⟨x :: before, after, rfl, hafter⟩
    · rcases mem_cons.1 h with rfl | hl
      · exact ⟨[], l, rfl, hm⟩
      · exact absurd hl hm

theorem Near.mem_keepLast (h : Near top l) (hm : m ∈ l)
    (hnear : top < m + n) : m ∈ keepLast n l := by
  obtain ⟨before, after, rfl, hafter⟩ := exists_last_place hm
  have hlen := h before m after rfl hafter
  rw [keepLast_eq_drop]
  have hle : (before ++ m :: after).length - n ≤ before.length := by
    rw [length_append, length_cons]
    omega
  rw [drop_append_of_le_length hle]
  exact mem_append_right _ mem_cons_self

end Qsh.Lib
