import Mathlib.Order.Lattice
import Mathlib.Data.List.Basic

/-!
# Maps in key order

A finite map whose entries are kept in the order of their keys, with the
oldest entry, the one with the smallest key, removed from the front.  It is
the part of an ordered map that a bounded window needs: look up, insert or
replace, count, and drop the smallest key.

The order of the entries is a field of the structure.
-/

namespace Qsh.Lib

open List

variable {κ ν : Type} [LinearOrder κ]

/-- A map as a list of entries in the order of the keys. -/
structure OrdMap (κ ν : Type) [LinearOrder κ] where
  entries : List (κ × ν)
  sorted : entries.Pairwise (fun a b => a.1 < b.1)

/-- Put an entry where its key belongs, in place of one with the same key. -/
def place (k : κ) (v : ν) : List (κ × ν) → List (κ × ν)
  | [] => [(k, v)]
  | e :: rest =>
      if e.1 < k then e :: place k v rest
      else if e.1 = k then (k, v) :: rest
      else (k, v) :: e :: rest

variable {k : κ} {entries : List (κ × ν)}

theorem mem_place {v : ν} {e : κ × ν} (he : e ∈ place k v entries) : e = (k, v) ∨ e ∈ entries := by
  induction entries with
  | nil => exact .inl (mem_singleton.1 he)
  | cons x rest ih =>
    unfold place at he
    split at he
    · rcases mem_cons.1 he with rfl | he
      · exact .inr mem_cons_self
      · exact (ih he).imp_right (mem_cons_of_mem _)
    split at he
    · exact (mem_cons.1 he).imp_right (mem_cons_of_mem _)
    · exact mem_cons.1 he

/-- Where an entry is placed before others its key is below all of theirs. -/
theorem lt_keys {x : κ × ν} (hs : (x :: entries).Pairwise (fun a b => a.1 < b.1))
    (hge : ¬x.1 < k) (hne : x.1 ≠ k) : ∀ e ∈ x :: entries, k < e.1 := by
  have hlt : k < x.1 := lt_of_le_of_ne (not_lt.1 hge) (Ne.symm hne)
  exact forall_mem_cons.2 ⟨hlt, fun e he => lt_trans hlt ((pairwise_cons.1 hs).1 e he)⟩

theorem place_sorted (k : κ) (v : ν) (hs : entries.Pairwise (fun a b => a.1 < b.1)) :
    (place k v entries).Pairwise (fun a b => a.1 < b.1) := by
  induction entries with
  | nil => exact pairwise_singleton _ _
  | cons x rest ih =>
    obtain ⟨hx, hrest⟩ := pairwise_cons.1 hs
    unfold place
    split
    · rename_i hlt
      refine .cons ?_ (ih hrest)
      intro e he
      rcases mem_place he with rfl | he
      · exact hlt
      · exact hx e he
    split
    · rename_i heq
      exact .cons (fun e he => heq ▸ hx e he) hrest
    · rename_i hge hne
      exact .cons (lt_keys hs hge hne) hs

theorem lookup_eq_none_of_lt (h : ∀ e ∈ entries, k < e.1) :
    entries.lookup k = none := by
  rw [lookup_eq_none_iff]
  intro e he
  simpa using ne_of_lt (h e he)

/-- The entries whose keys are wanted, after one is placed. -/
theorem countP_place (q : κ → Prop) [DecidablePred q] (k : κ) (v : ν)
    (hs : entries.Pairwise (fun a b => a.1 < b.1)) :
    (place k v entries).countP (fun e => q e.1) = entries.countP (fun e => q e.1) +
      if q k ∧ entries.lookup k = none then 1 else 0 := by
  induction entries with
  | nil => simp [place]
  | cons x rest ih =>
    obtain ⟨-, hrest⟩ := pairwise_cons.1 hs
    rw [place]
    by_cases hlt : x.1 < k
    · rw [if_pos hlt, countP_cons, countP_cons, ih hrest, lookup_cons,
        beq_eq_false_iff_ne.2 (ne_of_gt hlt)]
      exact Nat.add_right_comm _ _ _
    by_cases heq : x.1 = k
    · rw [if_neg hlt, if_pos heq, countP_cons, countP_cons, lookup_cons, heq, beq_self_eq_true]
      simp
    · -- every later key is larger still, so `k` is not found
      rw [if_neg hlt, if_neg heq, lookup_eq_none_of_lt (lt_keys hs hlt heq), countP_cons]
      simp

namespace OrdMap

def empty : OrdMap κ ν where
  entries := []
  sorted := .nil

variable (m : OrdMap κ ν)

def get? (k : κ) : Option ν :=
  m.entries.lookup k

def insert (k : κ) (v : ν) : OrdMap κ ν where
  entries := place k v m.entries
  sorted := place_sorted k v m.sorted

def size : Nat :=
  m.entries.length

def dropMin : OrdMap κ ν where
  entries := m.entries.tail
  sorted := m.sorted.tail

def above (k : κ) : Nat :=
  m.entries.countP fun e => k < e.1

@[simp]
theorem get?_insert_self (k : κ) (v : ν) :
    (m.insert k v).get? k = some v := by
  show (place k v m.entries).lookup k = some v
  induction m.entries with
  | nil => simp [place]
  | cons x rest ih =>
    unfold place
    split
    · rename_i hlt
      have hne : (k == x.1) = false := by simpa using ne_of_gt hlt
      rw [lookup_cons, hne]
      exact ih
    split <;> simp

variable {k : κ}

theorem get?_insert_ne {k' : κ} (v : ν) (hne : k' ≠ k) :
    (m.insert k v).get? k' = m.get? k' := by
  show (place k v m.entries).lookup k' = m.entries.lookup k'
  have hk : (k' == k) = false := by simpa using hne
  induction m.entries with
  | nil => simp [place, hne]
  | cons x rest ih =>
    unfold place
    split
    · rw [lookup_cons, lookup_cons, ih]
    split
    · rename_i heq
      rw [lookup_cons, lookup_cons, hk, heq, hk]
    · rw [lookup_cons, hk]

theorem get?_insert (k k' : κ) (v : ν) :
    (m.insert k v).get? k' = if k' = k then some v else m.get? k' := by
  split
  · rename_i heq
    rw [heq, get?_insert_self]
  · rename_i hne
    exact m.get?_insert_ne v hne

variable {v : ν}

theorem get?_of_get?_dropMin (h : m.dropMin.get? k = some v) :
    m.get? k = some v := by
  have hs := m.sorted
  have hl : m.entries.tail.lookup k = some v := h
  show m.entries.lookup k = some v
  generalize m.entries = entries at hs hl
  cases entries with
  | nil => cases hl
  | cons x rest =>
    have hne : (k == x.1) = false := by
      refine Bool.eq_false_iff.2 fun heq => ?_
      have hlt := (pairwise_cons.1 hs).1
      rw [eq_of_beq heq, tail_cons, lookup_eq_none_of_lt hlt] at hl
      cases hl
    rw [lookup_cons, hne]
    exact hl

theorem get?_dropMin_of_above (hk : m.get? k = some v)
    (h : m.above k + 1 < m.size) : m.dropMin.get? k = some v := by
  have hs := m.sorted
  have hl : m.entries.lookup k = some v := hk
  have hlt : m.entries.countP (fun e => k < e.1) + 1 < m.entries.length := h
  show m.entries.tail.lookup k = some v
  generalize m.entries = entries at hs hl hlt
  cases entries with
  | nil => cases hl
  | cons x rest =>
    by_cases heq : k = x.1
    · -- then every other key is larger
      have hall : rest.countP (fun e => k < e.1) = rest.length :=
        countP_eq_length.2 fun e he =>
          decide_eq_true (heq ▸ (pairwise_cons.1 hs).1 e he)
      rw [countP_cons, length_cons] at hlt
      omega
    · rw [lookup_cons, beq_eq_false_iff_ne.2 heq] at hl
      exact hl

theorem mem_of_get? (hk : m.get? k = some v) : (k, v) ∈ m.entries := by
  obtain ⟨l₁, l₂, heq, -⟩ := lookup_eq_some_iff.1 hk
  rw [heq]
  exact mem_append_right l₁ mem_cons_self

theorem above_insert (k k' : κ) (v : ν) :
    (m.insert k v).above k' = m.above k' + if k' < k ∧ m.get? k = none then 1 else 0 := by
  exact countP_place (k' < ·) k v m.sorted

end OrdMap

end Qsh.Lib
