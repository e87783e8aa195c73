import Mathlib.Data.List.Infix

/-!
# The variation-selector filter

`Vs16Filter` (`screen/mod.rs`) turns every U+FE0F of the program's output into a NUL
before the emulator sees it.  The output comes in pieces, so a beginning of the
sequence at the end of a piece is held back.
-/

namespace Qsh.Screen.Vs16Filter

def SEQ : List UInt8 := [0xEF, 0xB8, 0x8F]

def pushByte (held : List UInt8) (b : UInt8) : List UInt8 × List UInt8 :=
  if SEQ[held.length]? = some b then
    if held.length = 2 then ([0], []) else ([], held ++ [b])
  else if b = 0xEF then (held, [b])
  else (held ++ [b], [])

def filterLoop (held : List UInt8) : List UInt8 → List UInt8 × List UInt8
  | [] => ([], held)
  | b :: data =>
      let r := filterLoop (pushByte held b).2 data
      ((pushByte held b).1 ++ r.1, r.2)

/-- The output without the variation selector, and the bytes held back. -/
def filter (held data : List UInt8) : List UInt8 × List UInt8 :=
  if held.length = 0 ∧ 0xEF ∉ data then (data, held) else filterLoop held data

def filterAll (held : List UInt8) : List (List UInt8) → List UInt8 × List UInt8
  | [] => ([], held)
  | data :: pieces =>
      let r := filterAll (filter held data).2 pieces
      ((filter held data).1 ++ r.1, r.2)

/-- The stream with a NUL for every occurrence of the sequence, from the left. -/
def replaced : List UInt8 → List UInt8
  | 0xEF :: 0xB8 :: 0x8F :: rest => 0 :: replaced rest
  | b :: rest => b :: replaced rest
  | [] => []

variable {rest held : List UInt8}

theorem replaced_cons {b : UInt8} (h : ¬SEQ <+: b :: rest) :
    replaced (b :: rest) = b :: replaced rest := by
  rw [replaced]
  rintro rest' rfl rfl
  exact h ⟨rest', rfl⟩

/-- The bytes that may be held. -/
def Held (held : List UInt8) : Prop := held = [] ∨ held = [0xEF] ∨ held = [0xEF, 0xB8]

theorem pushByte_spec (h : Held held) (b : UInt8) :
    Held (pushByte held b).2 ∧ ∀ rest,
      (pushByte held b).1 ++ replaced ((pushByte held b).2 ++ rest) =
        replaced (held ++ b :: rest) := by
  have hskip : ∀ c ≠ (0xEF : UInt8), ∀ rest, replaced (c :: rest) = c :: replaced rest :=
    fun c hc rest => replaced_cons (by simp [SEQ, hc.symm])
  rcases h with rfl | rfl | rfl
  · by_cases hb : b = 0xEF
    · simp [pushByte, SEQ, Held, hb]
    · simp [pushByte, SEQ, Held, hb, Ne.symm hb, hskip b hb]
  · have hfirst : ∀ rest, b ≠ 0xB8 → replaced (0xEF :: b :: rest) = 0xEF :: replaced (b :: rest) :=
      fun rest hb => replaced_cons (by simp [SEQ, hb.symm])
    by_cases hb : b = 0xB8
    · simp [pushByte, SEQ, Held, hb]
    by_cases hef : b = 0xEF
    · simp [pushByte, SEQ, Held, hef] at hfirst ⊢
      simp [hfirst]
    · simp [pushByte, SEQ, Held, Ne.symm hb, hef, hfirst _ hb, hskip b hef]
  have hfirst : ∀ rest, b ≠ 0x8F →
      replaced (0xEF :: 0xB8 :: b :: rest) = 0xEF :: 0xB8 :: replaced (b :: rest) := by
    intro rest hb
    rw [replaced_cons (by simp [SEQ, hb.symm]), hskip _ (by decide)]
  by_cases hb : b = 0x8F
  · simp [pushByte, SEQ, Held, hb, replaced]
  by_cases hef : b = 0xEF
  · simp [pushByte, SEQ, Held, hef] at hfirst ⊢
    simp [hfirst]
  · simp [pushByte, SEQ, Held, Ne.symm hb, hef, hfirst _ hb, hskip b hef]

theorem filterLoop_spec (h : Held held) (data : List UInt8) :
    Held (filterLoop held data).2 ∧ ∀ rest,
      (filterLoop held data).1 ++ replaced ((filterLoop held data).2 ++ rest) =
        replaced (held ++ data ++ rest) := by
  induction data generalizing held with
  | nil => simp [filterLoop, h]
  | cons b data ih =>
    obtain ⟨hpush, hone⟩ := pushByte_spec h b
    obtain ⟨hheld, hloop⟩ := ih hpush
    refine ⟨hheld, fun rest => ?_⟩
    simp [filterLoop, hloop rest, hone (data ++ rest)]

theorem filterLoop_of_not_mem {data : List UInt8} (h : 0xEF ∉ data) :
    filterLoop [] data = (data, []) := by
  induction data with
  | nil => rfl
  | cons b data ih =>
    simp only [List.mem_cons, not_or] at h
    simp [filterLoop, pushByte, SEQ, h.1, Ne.symm h.1, ih h.2]

theorem filter_eq (held data : List UInt8) : filter held data = filterLoop held data := by
  unfold filter
  split_ifs with h
  · rw [List.length_eq_zero_iff.1 h.1, filterLoop_of_not_mem h.2]
  · rfl

theorem filterAll_spec (h : Held held) (pieces : List (List UInt8)) :
    Held (filterAll held pieces).2 ∧ ∀ rest,
      (filterAll held pieces).1 ++ replaced ((filterAll held pieces).2 ++ rest) =
        replaced (held ++ pieces.flatten ++ rest) := by
  induction pieces generalizing held with
  | nil => simp [filterAll, h]
  | cons data pieces ih =>
    obtain ⟨hdata, hone⟩ := filterLoop_spec h data
    rw [← filter_eq] at hdata hone
    obtain ⟨hheld, hall⟩ := ih hdata
    refine ⟨hheld, fun rest => ?_⟩
    simp [filterAll, hall rest, hone (pieces.flatten ++ rest)]

theorem replaced_head {c : UInt8} {l : List UInt8} (h : replaced l = c :: rest)
    (hc : c ≠ 0) : ∃ l', l = c :: l' ∧ replaced l' = rest := by
  unfold replaced at h
  split at h
  · simp_all
  · simp_all
  · simp at h

theorem seq_not_infix_replaced (l : List UInt8) : ¬SEQ <:+: replaced l := by
  induction l using replaced.induct with
  | case1 rest ih =>
    rw [replaced, List.infix_cons_iff]
    simp [SEQ] at ih ⊢
    exact ih
  | case2 b rest hnot ih =>
    rw [replaced_cons, List.infix_cons_iff]
    · rintro (⟨t, ht⟩ | hrest)
      · -- the three bytes were there before, so they would have been replaced
        simp only [SEQ, List.cons_append, List.nil_append, List.cons.injEq] at ht
        obtain ⟨rest₁, rfl, h₁⟩ := replaced_head ht.2.symm (by decide)
        obtain ⟨rest₂, rfl, -⟩ := replaced_head h₁ (by decide)
        exact hnot rest₂ ht.1.symm rfl
      · exact ih hrest
    · rintro ⟨t, ht⟩
      simp only [SEQ, List.cons_append, List.nil_append, List.cons.injEq] at ht
      exact hnot t ht.1.symm ht.2.symm
  | case3 => simp [replaced, SEQ]

/-- For every stream and every way of cutting it: the output and the bytes still held are
the stream with its sequences replaced, no sequence is given out, and the held bytes are a
proper beginning of one. -/
theorem filter_is_exact (pieces : List (List UInt8)) :
    (filterAll [] pieces).1 ++ (filterAll [] pieces).2 = replaced pieces.flatten ∧
      ¬SEQ <:+: (filterAll [] pieces).1 ∧
      (filterAll [] pieces).2 <+: SEQ ∧ (filterAll [] pieces).2 ≠ SEQ := by
  obtain ⟨hheld, hspec⟩ := filterAll_spec (.inl rfl) pieces
  have heq : (filterAll [] pieces).1 ++ (filterAll [] pieces).2 = replaced pieces.flatten := by
    have hrest := hspec []
    simp only [List.append_nil, List.nil_append] at hrest
    rw [← hrest]
    rcases hheld with h | h | h <;> rw [h] <;> rfl
  refine ⟨heq, fun hin => ?_, ?_⟩
  · have hall := hin.trans (List.prefix_append _ (filterAll [] pieces).2).isInfix
    rw [heq] at hall
    exact seq_not_infix_replaced _ hall
  · rcases hheld with h | h | h <;> rw [h] <;> decide

end Qsh.Screen.Vs16Filter
