import Mathlib.Data.List.Basic

/-!
# Readers of a byte string

A decoder consumes the front of a byte string and returns a value, or it
fails with an error.  `Reader` is a state monad over the bytes that are left, on
top of `Except`.

`Exact r P put` says that a reader and an encoder fit each other.  Every value
that meets `P` is read back from its encoding, whatever follows it, and every
value that is read meets `P` and was encoded by exactly the bytes that were
consumed.

The rules follow the shape of a decoder: `Exact.bind` for a field that comes
before the rest, `Exact.check` for a check, and `exact_readList` for a loop
whose checks depend on the items before.
-/

namespace Qsh.Lib

open List

variable {ε β α γ σ : Type}

abbrev Reader (ε β α : Type) := StateT (List β) (Except ε) α

def ensure (c : Prop) [Decidable c] (e : ε) : Reader ε β Unit :=
  if c then pure () else throw e

/-- `n` items one after the other.  The reader of an item depends on a state
that `next` carries from item to item. -/
def readList (item : σ → Reader ε β α) (next : σ → α → σ) :
    Nat → σ → Reader ε β (List α)
  | 0, _ => pure []
  | n + 1, s => do
    let a ← item s
    let as ← readList item next n (next s a)
    pure (a :: as)

/-- Each item meets `P` at the state that the items before it left. -/
def Chain (P : σ → α → Prop) (next : σ → α → σ) : σ → List α → Prop
  | _, [] => True
  | s, a :: as => P s a ∧ Chain P next (next s a) as

/-! ## Running a reader -/

@[simp]
theorem run_pure_reader (a : α) (b : List β) :
    (pure a : Reader ε β α).run b = .ok (a, b) := rfl

@[simp]
theorem run_throw_reader (e : ε) (b : List β) :
    (throw e : Reader ε β α).run b = .error e := rfl

theorem run_bind_reader (r : Reader ε β α) (k : α → Reader ε β γ) (b : List β) :
    (r >>= k).run b =
      match r.run b with
      | .ok (a, rest) => (k a).run rest
      | .error e => .error e := by
  rw [StateT.run_bind]
  cases r.run b <;> rfl

variable {k : α → Reader ε β γ} {b : List β}

theorem run_bind_eq_ok {r : Reader ε β α} {rest : List β} {c : γ}
    (h : (r >>= k).run b = .ok (c, rest)) :
    ∃ a mid, r.run b = .ok (a, mid) ∧ (k a).run mid = .ok (c, rest) := by
  rw [run_bind_reader] at h
  cases hr : r.run b with
  | error e => rw [hr] at h; cases h
  | ok p => rw [hr] at h; exact ⟨p.1, p.2, rfl, h⟩

theorem run_bind_of_ok {r : Reader ε β α} {mid : List β} {a : α}
    (h : r.run b = .ok (a, mid)) : (r >>= k).run b = (k a).run mid := by
  rw [run_bind_reader, h]

theorem run_get_bind (k : List β → Reader ε β α) (b : List β) :
    ((get : Reader ε β (List β)) >>= k).run b = (k b).run b := rfl

variable {c : Prop} {e : ε}

theorem run_ensure_bind_of [Decidable c] {k : Unit → Reader ε β α}
    (hc : c) : ((ensure c e : Reader ε β Unit) >>= k).run b = (k ()).run b := by
  rw [ensure, if_pos hc, run_bind_of_ok (run_pure_reader () b)]

theorem run_ensure_bind_eq_ok [Decidable c] {k : Unit → Reader ε β α} {p : α × List β}
    (h : ((ensure c e : Reader ε β Unit) >>= k).run b = .ok p) :
    c ∧ (k ()).run b = .ok p := by
  by_cases hc : c
  · rw [run_ensure_bind_of hc] at h
    exact ⟨hc, h⟩
  · rw [ensure, if_neg hc, run_bind_reader, run_throw_reader] at h
    cases h

/-! ## Readers that fit an encoder -/

/-- `r` reads what `put` writes, and nothing else of these values. -/
structure Exact (r : Reader ε β α) (P : α → Prop) (put : α → List β) : Prop where
  read_put : ∀ a rest, P a → r.run (put a ++ rest) = .ok (a, rest)
  of_read : ∀ b a rest, r.run b = .ok (a, rest) → P a ∧ b = put a ++ rest

namespace Exact

variable {r : Reader ε β α} {P Q : α → Prop} {put put' : α → List β}

theorem congr (h : Exact r P put) (hP : ∀ a, Q a ↔ P a) (hput : ∀ a, P a → put' a = put a) :
    Exact r Q put' where
  read_put a rest ha := by
    have hPa := (hP a).1 ha
    rw [hput a hPa]
    exact h.read_put a rest hPa
  of_read b a rest hr := by
    obtain ⟨hPa, hb⟩ := h.of_read b a rest hr
    exact ⟨(hP a).2 hPa, by rw [hput a hPa]; exact hb⟩

/-- A field and what comes after it; `f` finds the field in what was read. -/
theorem bind {k : α → Reader ε β γ} {R : α → γ → Prop} {putRest : γ → List β} {f : γ → α}
    (h : Exact r P put) (hk : ∀ a, P a → Exact (k a) (R a) putRest)
    (hf : ∀ a c, R a c → f c = a) :
    Exact (r >>= k) (fun c => P (f c) ∧ R (f c) c) (fun c => put (f c) ++ putRest c) where
  read_put c rest hc := by
    rw [append_assoc, run_bind_of_ok (h.read_put _ _ hc.1)]
    exact (hk _ hc.1).read_put c rest hc.2
  of_read b c rest hr := by
    obtain ⟨a, mid, ha, hr⟩ := run_bind_eq_ok hr
    obtain ⟨hP, hb⟩ := h.of_read b a mid ha
    obtain ⟨hR, hmid⟩ := (hk a hP).of_read mid c rest hr
    obtain rfl := hf a c hR
    exact ⟨⟨hP, hR⟩, by rw [hb, hmid, append_assoc]⟩

theorem check {c : Prop} [Decidable c] {e : ε} {k : Unit → Reader ε β α}
    (h : c → Exact (k ()) P put) :
    Exact ((ensure c e : Reader ε β Unit) >>= k) (fun a => c ∧ P a) put where
  read_put a rest ha := by
    rw [run_ensure_bind_of ha.1]
    exact (h ha.1).read_put a rest ha.2
  of_read b a rest hr := by
    obtain ⟨hc, hr⟩ := run_ensure_bind_eq_ok hr
    obtain ⟨hP, hb⟩ := (h hc).of_read b a rest hr
    exact ⟨⟨hc, hP⟩, hb⟩

theorem ret (x : α) : Exact (pure x : Reader ε β α) (· = x) (fun _ => []) where
  read_put a rest ha := by rw [ha]; rfl
  of_read b a rest hr := by
    cases hr
    exact ⟨rfl, rfl⟩

/-- An encoding tells where it ends: what was encoded and what follows it are
both determined. -/
def PrefixInj (P : α → Prop) (put : α → List β) : Prop :=
  ∀ a b x y, P a → P b → put a ++ x = put b ++ y → a = b ∧ x = y

theorem prefixInj (h : Exact r P put) : PrefixInj P put := by
  intro a b x y ha hb heq
  have hread := h.read_put a x ha
  rw [heq, h.read_put b y hb] at hread
  cases hread
  exact ⟨rfl, rfl⟩

theorem PrefixInj.flatMap (h : PrefixInj P put) (n : Nat) :
    PrefixInj (fun as : List α => as.length = n ∧ ∀ a ∈ as, P a) (List.flatMap put) := by
  intro as bs x y ha hb heq
  induction n generalizing as bs with
  | zero =>
    cases length_eq_zero_iff.1 ha.1
    cases length_eq_zero_iff.1 hb.1
    exact ⟨rfl, heq⟩
  | succ n ih =>
    obtain ⟨a, as, rfl⟩ := exists_cons_of_length_eq_add_one ha.1
    obtain ⟨b, bs, rfl⟩ := exists_cons_of_length_eq_add_one hb.1
    simp only [flatMap_cons, append_assoc] at heq
    obtain ⟨rfl, htail⟩ := h a b _ _ (ha.2 a mem_cons_self) (hb.2 b mem_cons_self) heq
    obtain ⟨rfl, hrest⟩ := ih as bs ⟨Nat.succ.inj ha.1, fun c hc => ha.2 c (.tail _ hc)⟩
      ⟨Nat.succ.inj hb.1, fun c hc => hb.2 c (.tail _ hc)⟩ htail
    exact ⟨rfl, hrest⟩

end Exact

variable {next : σ → α → σ}

theorem exact_readList {item : σ → Reader ε β α} {P : σ → α → Prop}
    {put : α → List β} (hitem : ∀ s, Exact (item s) (P s) put) (n : Nat) (s : σ) :
    Exact (readList item next n s) (fun as => as.length = n ∧ Chain P next s as)
      (fun as => as.flatMap put) where
  read_put as rest h := by
    induction n generalizing s as with
    | zero =>
      rw [length_eq_zero_iff.1 h.1]
      rfl
    | succ n ih =>
      obtain ⟨hlen, hchain⟩ := h
      cases as with
      | nil => cases hlen
      | cons a as =>
        have hrest := ih (next s a) as ⟨Nat.succ.inj hlen, hchain.2⟩
        rw [readList, flatMap_cons, append_assoc,
          run_bind_of_ok ((hitem s).read_put a _ hchain.1), run_bind_of_ok hrest]
        rfl
  of_read b as rest h := by
    induction n generalizing s b as with
    | zero =>
      cases h
      exact ⟨⟨rfl, trivial⟩, rfl⟩
    | succ n ih =>
      obtain ⟨a, mid, hra, h⟩ := run_bind_eq_ok h
      obtain ⟨as', mid', hras, h⟩ := run_bind_eq_ok h
      cases h
      obtain ⟨hPa, hb⟩ := (hitem s).of_read b a mid hra
      obtain ⟨⟨hlen, hchain⟩, hmid⟩ := ih (next s a) mid as' hras
      refine ⟨⟨by rw [length_cons, hlen], hPa, hchain⟩, ?_⟩
      rw [flatMap_cons, append_assoc, ← hmid]
      exact hb

variable {as : List α}

theorem length_flatMap_ge {put : α → List β} {m : Nat}
    (h : ∀ a ∈ as, m ≤ (put a).length) : as.length * m ≤ (as.flatMap put).length := by
  induction as with
  | nil => simp
  | cons a as ih =>
    have ha := h a mem_cons_self
    have has := ih (fun x hx => h x (mem_cons_of_mem _ hx))
    rw [flatMap_cons, length_append, length_cons, Nat.succ_mul]
    omega

theorem chain_const_iff {Q : α → Prop} {s : σ} :
    Chain (fun _ => Q) next s as ↔ ∀ a ∈ as, Q a := by
  induction as generalizing s with
  | nil => exact ⟨by simp, fun _ => trivial⟩
  | cons a as ih => rw [Chain, ih, forall_mem_cons]

theorem Chain.forall {P : σ → α → Prop} {Q : α → Prop}
    (hPQ : ∀ s a, P s a → Q a) {s : σ} (h : Chain P next s as) :
    ∀ a ∈ as, Q a := by
  induction as generalizing s with
  | nil => exact by simp
  | cons a as ih => exact forall_mem_cons.2 ⟨hPQ s a h.1, ih h.2⟩

end Qsh.Lib
