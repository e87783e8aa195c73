import Qsh.Lib.Slice

/-!
# Calls that can panic

A call of the source ends with a value, with an error that it returns, or with
a panic.  `Fault` keeps the last two apart, so that "no access is out of
range" can be stated: it says that `panic` is not the outcome.

`index`, `sliceOf` and `overwrite` are the accesses.  `Safe P x` says that `x` is a value
that meets `P` or a returned error; `Safe.bind` chains it through a program.
-/

namespace Qsh.Lib

variable {ε α γ : Type}

/-- How a call ends when it ends without a value. -/
inductive Fault (ε : Type)
  | err (e : ε)
  | panic
  deriving DecidableEq, Repr

def index (xs : List α) (i : Nat) : Except (Fault ε) α :=
  match xs[i]? with
  | some a => .ok a
  | none => .error .panic

def sliceOf (xs : List α) (i j : Nat) : Except (Fault ε) (List α) :=
  if i ≤ j ∧ j ≤ xs.length then .ok (slice xs i j) else .error .panic

def overwrite (xs : List α) (i : Nat) (ys : List α) : Except (Fault ε) (List α) :=
  if i + ys.length ≤ xs.length then .ok (xs.take i ++ (ys ++ xs.drop (i + ys.length)))
  else .error .panic

theorem bind_of_ok {x : Except (Fault ε) α} {a : α} (k : α → Except (Fault ε) γ)
    (h : x = .ok a) : x >>= k = k a := by
  rw [h]
  rfl

theorem bind_eq_ok {x : Except (Fault ε) α} {k : α → Except (Fault ε) γ} {c : γ}
    (h : x >>= k = .ok c) : ∃ a, x = .ok a ∧ k a = .ok c := by
  cases x with
  | error f => cases h
  | ok a => exact ⟨a, rfl, h⟩

variable {xs : List α} {i : Nat}

theorem index_of_getElem? {a : α} (h : xs[i]? = some a) :
    (index xs i : Except (Fault ε) α) = .ok a := by
  rw [index, h]

theorem index_of_lt (h : i < xs.length) :
    (index xs i : Except (Fault ε) α) = .ok xs[i] :=
  index_of_getElem? (List.getElem?_eq_getElem h)

theorem sliceOf_of_le {j : Nat} (hij : i ≤ j) (hj : j ≤ xs.length) :
    (sliceOf xs i j : Except (Fault ε) (List α)) = .ok (slice xs i j) := by
  rw [sliceOf, if_pos ⟨hij, hj⟩]

theorem overwrite_of_le {ys : List α} (h : i + ys.length ≤ xs.length) :
    (overwrite xs i ys : Except (Fault ε) (List α)) =
      .ok (xs.take i ++ (ys ++ xs.drop (i + ys.length))) := by
  rw [overwrite, if_pos h]

/-- A value that meets `P`, or a returned error: not a panic. -/
def Safe (P : α → Prop) : Except (Fault ε) α → Prop
  | .ok a => P a
  | .error (.err _) => True
  | .error .panic => False

namespace Safe

variable {P : α → Prop} {Q : γ → Prop} {x : Except (Fault ε) α}

theorem bind {k : α → Except (Fault ε) γ} (hx : Safe P x) (hk : ∀ a, P a → Safe Q (k a)) :
    Safe Q (x >>= k) := by
  cases x with
  | ok a => exact hk a hx
  | error f =>
    cases f with
    | err e => trivial
    | panic => exact hx

theorem index {xs : List α} {i : Nat} (hi : i < xs.length) (hP : ∀ a ∈ xs, P a) :
    Safe P (Qsh.Lib.index xs i : Except (Fault ε) α) := by
  rw [index_of_lt hi]
  exact hP _ (List.getElem_mem hi)

theorem ok_or_err (h : Safe P x) : (∃ a, x = .ok a ∧ P a) ∨ ∃ e, x = .error (.err e) := by
  cases x with
  | ok a => exact .inl ⟨a, rfl, h⟩
  | error f =>
    cases f with
    | err e => exact .inr ⟨e, rfl⟩
    | panic => exact absurd h id

end Safe

end Qsh.Lib
