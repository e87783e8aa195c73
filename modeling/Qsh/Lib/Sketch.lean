import Mathlib.Order.Lattice
import Mathlib.Data.List.Basic

/-!
# Counters in rows, for two generations

A count-min table counts events by key.  Every row has a column for a key, so that
a counter holds the events of its key and of those that share the column.  The
table keeps two generations of counters: those of epoch `e` are those of its
parity, and are cleared when the table comes to an epoch of the same parity.
Counters are taken modulo `bound`.

`Tracks` says what a table holds after a list of events: the current generation
counts the events of the current epoch and the other generation those of the epoch
before, as long as no counter wraps around.
-/

namespace Qsh.Lib

variable {ρ κ : Type}

/-- Two generations of rows of counters; `index` is the current epoch. -/
structure Sketch (ρ : Type) where
  index : Nat
  /-- The counter of a generation, a row and a column. -/
  cells : Bool → ρ → Nat → Nat

namespace Sketch

def gen (epoch : Nat) : Bool := epoch % 2 == 1

theorem gen_succ (epoch : Nat) : gen (epoch + 1) = !gen epoch := by
  rcases Nat.mod_two_eq_zero_or_one epoch with h | h <;> simp [gen, Nat.add_mod, h]

def empty : Sketch ρ where
  index := 0
  cells := fun _ _ _ => 0

/-- Come to the epoch `target`.  One epoch on, the generation that becomes
current is cleared; further on, both are. -/
def advanceTo (s : Sketch ρ) (target : Nat) : Sketch ρ :=
  if target ≤ s.index then s
  else if target - s.index = 1 then
    { index := target, cells := fun g => if g = gen target then fun _ _ => 0 else s.cells g }
  else { index := target, cells := fun _ _ _ => 0 }

/-- Add one event to the column `col r` of every row `r`, in the generation of
`epoch`. -/
def bump (bound : Nat) (s : Sketch ρ) (col : ρ → Nat) (epoch : Nat) : Sketch ρ :=
  { s with
    cells := fun g r c =>
      if g = gen epoch ∧ c = col r then (s.cells g r c + 1) % bound else s.cells g r c }

/-- How many of the events of an epoch fall into a column of a row. -/
def total (col : ρ → κ → Nat) (evs : List (κ × Nat)) (epoch : Nat) (r : ρ) (c : Nat) : Nat :=
  evs.countP fun x => x.2 = epoch ∧ col r x.1 = c

def totalBefore (col : ρ → κ → Nat) (evs : List (κ × Nat)) (epoch : Nat) (r : ρ) (c : Nat) :
    Nat :=
  if epoch = 0 then 0 else total col evs (epoch - 1) r c

/-- The cells of both epochs count the events. -/
structure Tracks (col : ρ → κ → Nat) (s : Sketch ρ) (evs : List (κ × Nat)) : Prop where
  past : ∀ x ∈ evs, x.2 ≤ s.index
  current : ∀ r c, s.cells (gen s.index) r c = total col evs s.index r c
  previous : ∀ r c, s.cells (!gen s.index) r c = totalBefore col evs s.index r c

variable {col : ρ → κ → Nat} {s : Sketch ρ} {evs : List (κ × Nat)}

theorem Tracks.empty : Tracks col (empty : Sketch ρ) [] where
  past := by simp
  current := fun _ _ => rfl
  previous := fun _ _ => rfl

theorem total_eq_zero {n epoch : Nat} (h : ∀ x ∈ evs, x.2 ≤ n) (hlt : n < epoch) (r : ρ)
    (c : Nat) : total col evs epoch r c = 0 := by
  refine List.countP_eq_zero.2 ?_
  intro x hx hc
  have hle := h x hx
  have heq : x.2 = epoch := (of_decide_eq_true hc).1
  omega

theorem advanceTo_index {target : Nat} (h : s.index ≤ target) :
    (s.advanceTo target).index = target := by
  unfold advanceTo
  split
  · omega
  split <;> rfl

theorem Tracks.advance (h : Tracks col s evs) {target : Nat} (hle : s.index ≤ target) :
    Tracks col (s.advanceTo target) evs := by
  unfold advanceTo
  split
  · exact h
  have hpast : ∀ x ∈ evs, x.2 ≤ target := fun x hx => le_trans (h.past x hx) hle
  split
  · have htarget : target = s.index + 1 := by omega
    subst htarget
    refine ⟨hpast, ?_, ?_⟩
    · intro r c
      show (if gen (s.index + 1) = gen (s.index + 1) then fun _ _ => 0 else _) r c = _
      rw [if_pos rfl, total_eq_zero h.past (Nat.lt_succ_self _)]
    intro r c
    have hne : (!gen (s.index + 1)) ≠ gen (s.index + 1) := by simp
    show (if (!gen (s.index + 1)) = gen (s.index + 1) then fun _ _ => 0 else
      s.cells (!gen (s.index + 1))) r c = _
    rw [if_neg hne, gen_succ, Bool.not_not, h.current, totalBefore, if_neg (Nat.succ_ne_zero _),
      Nat.add_sub_cancel]
  refine ⟨hpast, ?_, ?_⟩
  · intro r c
    have hlater : s.index < target := by omega
    exact (total_eq_zero h.past hlater r c).symm
  intro r c
  show 0 = totalBefore col evs target r c
  unfold totalBefore
  split
  · rfl
  · exact (total_eq_zero h.past (by omega) r c).symm

theorem total_concat (x : κ × Nat) (epoch : Nat) (r : ρ) (c : Nat) :
    total col (evs ++ [x]) epoch r c =
      total col evs epoch r c + if x.2 = epoch ∧ col r x.1 = c then 1 else 0 := by
  unfold total
  rw [List.countP_append, List.countP_singleton]
  simp only [decide_eq_true_eq]

theorem Tracks.record {bound : Nat} (h : Tracks col s evs) (key : κ)
    (hroom : ∀ r, s.cells (gen s.index) r (col r key) + 1 < bound) :
    Tracks col (s.bump bound (fun r => col r key) s.index) (evs ++ [(key, s.index)]) where
  past := List.forall_mem_append.2 ⟨h.past, List.forall_mem_singleton.2 le_rfl⟩
  current := by
    intro r c
    show (if gen s.index = gen s.index ∧ c = col r key then
      (s.cells (gen s.index) r c + 1) % bound else s.cells (gen s.index) r c) =
        total col (evs ++ [(key, s.index)]) s.index r c
    rw [total_concat, ← h.current]
    by_cases hc : c = col r key
    · subst hc
      rw [if_pos ⟨rfl, rfl⟩, if_pos ⟨rfl, rfl⟩, Nat.mod_eq_of_lt (hroom r)]
    · rw [if_neg (fun hh => hc hh.2), if_neg (fun hh => hc hh.2.symm), Nat.add_zero]
  previous := by
    intro r c
    have hne : ¬((!gen s.index) = gen s.index ∧ c = col r key) := by simp
    show (if (!gen s.index) = gen s.index ∧ c = col r key then
      (s.cells (!gen s.index) r c + 1) % bound else s.cells (!gen s.index) r c) =
        totalBefore col (evs ++ [(key, s.index)]) s.index r c
    rw [if_neg hne, h.previous]
    unfold totalBefore
    split
    · rfl
    · rw [total_concat, if_neg (by simp only; omega), Nat.add_zero]

variable {evs' : List (κ × Nat)}

theorem total_sublist (h : evs'.Sublist evs) (epoch : Nat) (r : ρ)
    (c : Nat) : total col evs' epoch r c ≤ total col evs epoch r c :=
  h.countP_le

theorem totalBefore_sublist (h : evs'.Sublist evs) (epoch : Nat) (r : ρ)
    (c : Nat) : totalBefore col evs' epoch r c ≤ totalBefore col evs epoch r c := by
  unfold totalBefore
  split
  · exact le_rfl
  · exact total_sublist h _ r c

theorem countP_key_le_total [DecidableEq κ] (key : κ) (epoch : Nat) (r : ρ) :
    (evs.countP fun x => x.2 = epoch ∧ x.1 = key) ≤ total col evs epoch r (col r key) := by
  refine List.countP_mono_left ?_
  intro x _ hx
  obtain ⟨hepoch, hkey⟩ := of_decide_eq_true hx
  exact decide_eq_true ⟨hepoch, by rw [hkey]⟩

end Sketch

end Qsh.Lib
