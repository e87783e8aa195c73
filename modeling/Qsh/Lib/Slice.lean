import Mathlib.Data.List.Basic

/-!
# Slices of a list by offset

A byte stream is numbered by cumulative offset, and a chunk of it is named by
the two offsets it lies between.  `slice xs i j` is that chunk: the elements
of `xs` from offset `i` up to and not including `j`.
-/

namespace Qsh.Lib

open List

variable {α : Type}

/-- `xs[i..j]`. -/
def slice (xs : List α) (i j : Nat) : List α :=
  (xs.drop i).take (j - i)

variable {xs : List α} {i j k n : Nat}

theorem length_slice (hj : j ≤ xs.length) :
    (slice xs i j).length = j - i := by
  simp only [slice, length_take, length_drop]
  omega

@[simp]
theorem slice_self (xs : List α) (i : Nat) : slice xs i i = [] := by
  simp [slice]

theorem slice_zero (xs : List α) (j : Nat) : slice xs 0 j = xs.take j := by
  simp [slice]

theorem slice_append_left {ys : List α} (hj : j ≤ xs.length) :
    slice (xs ++ ys) i j = slice xs i j := by
  by_cases hi : i ≤ j
  · rw [slice, slice, drop_append_of_le_length (by omega),
      take_append_of_le_length (by rw [length_drop]; omega)]
  · have h0 : j - i = 0 := by omega
    simp [slice, h0]

theorem slice_append_right (xs ys : List α) :
    slice (xs ++ ys) xs.length (xs.length + ys.length) = ys := by
  simp [slice]

theorem slice_append_slice (hij : i ≤ j) (hjk : j ≤ k) :
    slice xs i j ++ slice xs j k = slice xs i k := by
  have hk : k - i = (j - i) + (k - j) := by omega
  have hd : i + (j - i) = j := by omega
  rw [slice, slice, slice, hk, take_add, drop_drop, hd]

theorem drop_slice (xs : List α) (i k n : Nat) :
    (slice xs i k).drop n = slice xs (i + n) k := by
  rw [slice, slice, drop_take, drop_drop, Nat.sub_sub]

theorem take_slice (xs : List α) (hn : i + n ≤ k) :
    (slice xs i k).take n = slice xs i (i + n) := by
  have hmin : min n (k - i) = i + n - i := by omega
  rw [slice, slice, take_take, hmin]

theorem getElem?_slice (hn : i + n < j) :
    (slice xs i j)[n]? = xs[i + n]? := by
  rw [slice, getElem?_take_of_lt (by omega), getElem?_drop]

end Qsh.Lib
