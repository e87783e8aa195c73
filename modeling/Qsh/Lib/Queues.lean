import Mathlib.Data.List.Perm.Basic

/-!
# Keyed queues

A table of queues, one for each key that has one: items are added at the back of the
queue of their key and taken from its front, whole queues are dropped, and the front of
every queue is trimmed.  An entry may be empty, as an entry of a hash map may.
-/

namespace Qsh.Lib

open List

variable {κ α : Type}

/-- A queue for each key. -/
abbrev Queues (κ α : Type) := List (κ × List α)

namespace Queues

def items (qs : Queues κ α) : List α := qs.flatMap (·.2)

def drop (gone : κ → Bool) (qs : Queues κ α) : Queues κ α := qs.filter fun e => !gone e.1

def dropped (gone : κ → Bool) (qs : Queues κ α) : List α := items (qs.filter fun e => gone e.1)

/-- Each queue without its trimmed front; a queue that becomes empty goes. -/
def trim (old : α → Bool) (qs : Queues κ α) : Queues κ α :=
  (qs.map fun e => (e.1, e.2.dropWhile old)).filter fun e => !e.2.isEmpty

def trimmed (old : α → Bool) (qs : Queues κ α) : List α := qs.flatMap fun e => e.2.takeWhile old

section Keyed

variable [DecidableEq κ]

def pushBack (k : κ) (a : α) : Queues κ α → Queues κ α
  | [] => [(k, [a])]
  | e :: qs => if e.1 = k then (e.1, e.2 ++ [a]) :: qs else e :: pushBack k a qs

def popFront (k : κ) : Queues κ α → Option (α × Queues κ α)
  | [] => none
  | e :: qs =>
      if e.1 = k then
        match e.2 with
        | [] => none
        | a :: q => some (a, (e.1, q) :: qs)
      else (popFront k qs).map fun r => (r.1, e :: r.2)

theorem items_pushBack (k : κ) (a : α) (qs : Queues κ α) :
    (pushBack k a qs).items.Perm (a :: qs.items) := by
  induction qs with
  | nil => exact List.Perm.refl _
  | cons e qs ih =>
    unfold pushBack
    split
    · show ((e.2 ++ [a]) ++ items qs).Perm (a :: (e.2 ++ items qs))
      rw [append_assoc]
      exact perm_middle
    · exact (List.Perm.append_left e.2 ih).trans perm_middle

variable {k : κ} {a : α} {qs qs' : Queues κ α}

theorem mem_pushBack {e : κ × List α} (h : e ∈ pushBack k a qs) :
    e ∈ qs ∨ e.1 = k ∧ ∀ b ∈ e.2, b = a ∨ ∃ q, (k, q) ∈ qs ∧ b ∈ q := by
  induction qs with
  | nil =>
    rw [mem_singleton.1 h]
    exact .inr ⟨rfl, fun b hb => .inl (mem_singleton.1 hb)⟩
  | cons f qs ih =>
    unfold pushBack at h
    split at h
    · rename_i hk
      rcases mem_cons.1 h with rfl | h
      · right
        exact ⟨hk, fun b hb => (mem_append.1 hb).symm.imp mem_singleton.1
          fun hb => ⟨f.2, hk ▸ mem_cons_self, hb⟩⟩
      · exact .inl (mem_cons_of_mem _ h)
    rcases mem_cons.1 h with rfl | h
    · exact .inl mem_cons_self
    rcases ih h with h | ⟨hk, hall⟩
    · exact .inl (mem_cons_of_mem _ h)
    right
    refine ⟨hk, fun b hb => ?_⟩
    rcases hall b hb with hb | ⟨q, hq, hb⟩
    · exact .inl hb
    · exact .inr ⟨q, mem_cons_of_mem _ hq, hb⟩

theorem popFront_spec (h : popFront k qs = some (a, qs')) :
    qs.items.Perm (a :: qs'.items) ∧ (∃ q, (k, q) ∈ qs ∧ a ∈ q) ∧
      ∀ e ∈ qs', ∃ q, (e.1, q) ∈ qs ∧ ∀ b ∈ e.2, b ∈ q := by
  induction qs generalizing qs' with
  | nil => cases h
  | cons f qs ih =>
    unfold popFront at h
    split at h
    · rename_i hk
      split at h
      · cases h
      rename_i b q hq
      cases h
      refine ⟨?_, ⟨f.2, hk ▸ mem_cons_self, by rw [hq]; exact mem_cons_self⟩, ?_⟩
      · show (f.2 ++ items qs).Perm (a :: (q ++ items qs))
        rw [hq]
        exact List.Perm.refl _
      refine forall_mem_cons.2 ⟨⟨f.2, mem_cons_self, fun b hb => ?_⟩,
        fun e he => ⟨e.2, mem_cons_of_mem _ he, fun _ hb => hb⟩⟩
      rw [hq]
      exact mem_cons_of_mem _ hb
    · obtain ⟨⟨b, rest⟩, hrest, hpair⟩ := Option.map_eq_some_iff.1 h
      cases hpair
      obtain ⟨hitems, ⟨q, hq, ha⟩, hall⟩ := ih hrest
      refine ⟨(List.Perm.append_left f.2 hitems).trans perm_middle,
        ⟨q, mem_cons_of_mem _ hq, ha⟩, ?_⟩
      refine forall_mem_cons.2 ⟨⟨f.2, mem_cons_self, fun _ hb => hb⟩, fun e he => ?_⟩
      obtain ⟨q, hq, hsub⟩ := hall e he
      exact ⟨q, mem_cons_of_mem _ hq, hsub⟩

end Keyed

theorem items_drop (gone : κ → Bool) (qs : Queues κ α) :
    qs.items.Perm (dropped gone qs ++ (drop gone qs).items) := by
  have hsplit := (filter_append_perm (fun e => gone e.1) qs).symm.flatMap_right (·.2)
  rwa [flatMap_append] at hsplit

theorem items_trim (old : α → Bool) (qs : Queues κ α) :
    qs.items.Perm (trimmed old qs ++ (trim old qs).items) := by
  have hrest : (trim old qs).items = qs.flatMap fun e => e.2.dropWhile old := by
    induction qs with
    | nil => rfl
    | cons e qs ih =>
      rw [flatMap_cons, ← ih]
      cases hempty : (e.2.dropWhile old).isEmpty with
      | true =>
        have hnil : e.2.dropWhile old = [] := List.isEmpty_iff.1 hempty
        simp [trim, items, hnil]
      | false => simp [trim, items, hempty]
  have hsplit := (flatMap_append_perm qs (·.2.takeWhile old) (·.2.dropWhile old)).symm
  simp only [takeWhile_append_dropWhile] at hsplit
  rw [hrest]
  exact hsplit

variable {qs : Queues κ α} {e : κ × List α}

theorem mem_drop {gone : κ → Bool} (h : e ∈ drop gone qs) :
    e ∈ qs ∧ gone e.1 = false := by
  simpa [drop] using h

theorem mem_trim {old : α → Bool} (h : e ∈ trim old qs) :
    ∃ q, (e.1, q) ∈ qs ∧ ∀ b ∈ e.2, b ∈ q := by
  obtain ⟨h, -⟩ := mem_filter.1 h
  obtain ⟨f, hf, rfl⟩ := mem_map.1 h
  exact ⟨f.2, hf, fun b hb => (dropWhile_sublist old).subset hb⟩

end Queues

end Qsh.Lib
