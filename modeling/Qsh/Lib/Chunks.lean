import Mathlib.Data.List.Basic

/-!
# Chunks

A list cut into chunks of `n` elements, the last one shorter, with one empty
chunk for the empty list.  `take_append_chunk` is the rule for a receiver that
gets the chunks in order, and `flatten_chunks` for one that has them all.
-/

namespace Qsh.Lib

open List

variable {α : Type}

/-- Chunk `i` of chunks of length `n`. -/
def chunk (n : Nat) (xs : List α) (i : Nat) : List α :=
  (xs.drop (i * n)).take n

def chunkCount (n : Nat) (xs : List α) : Nat :=
  max 1 ((xs.length + n - 1) / n)

theorem chunkCount_pos (n : Nat) (xs : List α) : 0 < chunkCount n xs :=
  Nat.le_max_left 1 _

theorem length_chunk_le (n : Nat) (xs : List α) (i : Nat) : (chunk n xs i).length ≤ n := by
  rw [chunk, length_take]
  omega

theorem chunk_zero (n : Nat) (xs : List α) : chunk n xs 0 = xs.take n := by
  rw [chunk, Nat.zero_mul, drop_zero]

theorem take_append_chunk (n : Nat) (xs : List α) (i : Nat) :
    xs.take (i * n) ++ chunk n xs i = xs.take ((i + 1) * n) := by
  rw [Nat.succ_mul, take_add]
  rfl

theorem length_le_chunkCount_mul {n : Nat} (hn : 0 < n) (xs : List α) :
    xs.length ≤ chunkCount n xs * n := by
  have hdiv : (xs.length + n - 1) / n ≤ chunkCount n xs := Nat.le_max_right 1 _
  have hlt := Nat.lt_div_mul_add hn (a := xs.length + n - 1)
  have hmul := Nat.mul_le_mul_right n hdiv
  omega

theorem take_chunkCount_mul {n : Nat} (hn : 0 < n) (xs : List α) :
    xs.take (chunkCount n xs * n) = xs :=
  take_of_length_le (length_le_chunkCount_mul hn xs)

theorem chunkCount_le {n k : Nat} (hn : 0 < n) (hk : 0 < k) {xs : List α}
    (h : xs.length ≤ k * n) : chunkCount n xs ≤ k := by
  refine Nat.max_le.2 ⟨hk, ?_⟩
  have hlt : xs.length + n - 1 < (k + 1) * n := by
    rw [Nat.succ_mul]
    omega
  exact Nat.le_of_lt_succ ((Nat.div_lt_iff_lt_mul hn).2 hlt)

theorem flatten_map_chunk (n : Nat) (xs : List α) (k : Nat) :
    ((range k).map (chunk n xs)).flatten = xs.take (k * n) := by
  induction k with
  | zero => rw [Nat.zero_mul]; rfl
  | succ k ih =>
    rw [range_succ, map_append, flatten_append, ih, ← take_append_chunk,
      map_singleton, flatten_singleton]

theorem flatten_chunks {n : Nat} (hn : 0 < n) (xs : List α) :
    ((range (chunkCount n xs)).map (chunk n xs)).flatten = xs := by
  rw [flatten_map_chunk, take_chunkCount_mul hn]

theorem length_flatten_le {m : Nat} {xss : List (List α)} (h : ∀ xs ∈ xss, xs.length ≤ m) :
    xss.flatten.length ≤ xss.length * m := by
  induction xss with
  | nil => exact Nat.zero_le _
  | cons xs xss ih =>
    have hxs := h xs mem_cons_self
    have htail := ih fun ys hys => h ys (mem_cons_of_mem _ hys)
    rw [flatten_cons, length_append, length_cons, Nat.succ_mul]
    omega

end Qsh.Lib
