import Qsh.Client.Terminal

/-!
# The changed runs of a row

Rewriting the runs of `changedSpans` turns a row that shows the cells `prev` into
one that shows the cells `now` (`paintSpans_changed`).

A run starts behind an unchanged column and stops at one (`RawSpan`), and every
changed column is in a run (`changedSpans_cover`).  Widened to whole double-width
characters, a run cuts no character, neither of the new row nor of what is on the
screen in between (`widen_closed`): the unchanged column next to it shows the same
half in both.
-/

namespace Qsh.Client

open List

open Qsh.Lib (slice length_slice getElem?_slice)
open Qsh.Screen (Cell WIDE WIDE_CONT)

/-! ## What a cell looks like on the terminal -/

/-- The cell as a terminal shows it. -/
def glyph (c : Cell) : Glyph :=
  if hasFlag c WIDE_CONT then .tail
  else .char (if c.text = [] then [' '] else c.text) (hasFlag c WIDE) (Pen.of c)

/-- The cell is what its documentation says: a double-width cell holds a base
character of width 2, another one holds nothing or a base character of width 1,
and all that follows are combining marks. -/
def Drawable (W : Char → Nat) (c : Cell) : Prop :=
  c.IsValid ∧ (hasFlag c WIDE = true → c.text ≠ []) ∧
    (∀ base ∈ c.text.head?, W base = if hasFlag c WIDE then 2 else 1) ∧
    ∀ mark ∈ c.text.drop 1, W mark = 0

def hasWidth (W : Char → Nat) (width : Nat) : Screen.Text → Bool
  | [] => true
  | base :: marks => W base == width && marks.all (W · == 0)

instance (W : Char → Nat) (c : Cell) : Decidable (Drawable W c) :=
  decidable_of_iff (c.IsValid ∧ (hasFlag c WIDE = true → c.text ≠ []) ∧
      hasWidth W (if hasFlag c WIDE then 2 else 1) c.text = true) <| by
    rw [Drawable]
    cases c.text with
    | nil | cons => simp [hasWidth]

theorem not_both {c : Cell} (h : c.IsValid) : (hasFlag c WIDE && hasFlag c WIDE_CONT) = false := by
  rw [Bool.and_eq_false_imp, hasFlag, hasFlag]
  intro hwide
  rw [bne_eq_false_iff_eq]
  by_contra hcont
  exact h.2.1 ⟨bne_iff_ne.1 hwide, hcont⟩

theorem isTail_glyph (c : Cell) : (glyph c).isTail = hasFlag c WIDE_CONT := by
  rw [glyph]
  cases h : hasFlag c WIDE_CONT <;> rfl

theorem isWide_glyph {c : Cell} (h : c.IsValid) : (glyph c).isWide = hasFlag c WIDE := by
  have hboth := not_both h
  rw [glyph]
  cases hcont : hasFlag c WIDE_CONT
  · rfl
  · rw [hcont, Bool.and_true] at hboth
    rw [hboth]
    rfl

theorem paired_glyphs {o : Bool} {row : List Cell} (h : ∀ c ∈ row, c.IsValid) :
    glyphHalves.Paired o (row.map glyph) ↔ cellHalves.Paired o row := by
  rw [← map_id row, map_map]
  exact cellHalves.paired_map fun c hc => ⟨isWide_glyph (h c hc), isTail_glyph c⟩

/-! ## Runs -/

/-- A run of columns behind an unchanged column and before one. -/
structure RawSpan (prev now : List Cell) (span : Nat × Nat) : Prop where
  lt : span.1 < span.2
  le : span.2 ≤ now.length
  left : span.1 = 0 ∨ prev[span.1 - 1]? = now[span.1 - 1]?
  right : span.2 = now.length ∨ prev[span.2]? = now[span.2]?

section Spans

variable {prev now : List Cell}

theorem spanEnd_spec (left : Nat) {stop probe : Nat} (hprobe : probe + left = now.length)
    (hle : stop ≤ probe) (hgap : ∀ k, stop ≤ k → k < probe → prev[k]? = now[k]?) :
    stop ≤ spanEnd prev now left stop probe ∧ spanEnd prev now left stop probe ≤ now.length ∧
      (spanEnd prev now left stop probe = now.length ∨
        prev[spanEnd prev now left stop probe]? = now[spanEnd prev now left stop probe]?) := by
  induction left generalizing stop probe with rw [spanEnd]
  | zero =>
    refine ⟨le_rfl, by omega, ?_⟩
    by_cases hlast : stop = now.length
    · exact .inl hlast
    · exact .inr (hgap stop le_rfl (by omega))
  | succ left ih =>
    split_ifs with hchanged hshort
    · obtain ⟨hlow, hrest⟩ := ih (show probe + 1 + left = now.length by omega)
        (Nat.le_refl (probe + 1)) (fun k hk hk' => absurd hk (by omega))
      exact ⟨by omega, hrest⟩
    · refine ih (by omega) (by omega) fun k hk hk' => ?_
      obtain rfl | hlast := eq_or_ne k probe
      · exact not_not.1 hchanged
      · exact hgap k hk (by omega)
    · rw [GAP_SPLIT] at hshort
      exact ⟨le_rfl, by omega, .inr (hgap stop le_rfl (by omega))⟩

variable {c k : Nat}

theorem spanEnd_after (prev : List Cell) (hc : c < now.length) :
    c + 1 ≤ spanEnd prev now (now.length - (c + 1)) (c + 1) (c + 1) ∧
      spanEnd prev now (now.length - (c + 1)) (c + 1) (c + 1) ≤ now.length ∧
      (spanEnd prev now (now.length - (c + 1)) (c + 1) (c + 1) = now.length ∨
        prev[spanEnd prev now (now.length - (c + 1)) (c + 1) (c + 1)]? =
          now[spanEnd prev now (now.length - (c + 1)) (c + 1) (c + 1)]?) :=
  spanEnd_spec _ (by omega) le_rfl fun k hk hk' => absurd hk (by omega)

theorem spansFrom_raw (fuel : Nat)
    (hc : (c = 0 ∨ prev[c - 1]? = now[c - 1]?) ∨ c = now.length ∨ prev[c]? = now[c]?) :
    ∀ span ∈ spansFrom prev now fuel c, RawSpan prev now span := by
  induction fuel generalizing c with
  | zero => exact fun _ hmem => absurd hmem not_mem_nil
  | succ fuel ih =>
    intro span hmem
    rw [spansFrom] at hmem
    split_ifs at hmem with hin hsame
    · exact ih (.inl (.inr hsame)) span hmem
    · obtain ⟨hlow, hhigh, hright⟩ := spanEnd_after prev hin
      rcases mem_cons.1 hmem with rfl | hmem
      · refine ⟨hlow, hhigh, hc.resolve_right ?_, hright⟩
        rintro (hlast | hsame')
        · omega
        · exact hsame hsame'
      · exact ih (.inr hright) span hmem
    · cases hmem

theorem spansFrom_cover (fuel : Nat) (hfuel : now.length ≤ c + fuel) (hck : c ≤ k)
    (hk : k < now.length) (hchanged : prev[k]? ≠ now[k]?) :
    ∃ span ∈ spansFrom prev now fuel c, span.1 ≤ k ∧ k < span.2 := by
  induction fuel generalizing c with
  | zero => omega
  | succ fuel ih =>
    rw [spansFrom, if_pos (by omega)]
    split_ifs with hsame
    · have hne : c ≠ k := by
        rintro rfl
        exact hchanged hsame
      exact ih (by omega) (by omega)
    have hlow := (spanEnd_after prev (show c < now.length by omega)).1
    generalize spanEnd prev now (now.length - (c + 1)) (c + 1) (c + 1) = stop at hlow
    by_cases hin : k < stop
    · exact ⟨(c, stop), mem_cons_self, hck, hin⟩
    · obtain ⟨span, hmem, hspan⟩ := ih (c := stop) (by omega) (by omega)
      exact ⟨span, mem_cons_of_mem _ hmem, hspan⟩

theorem spansFrom_self (row : List Cell) (fuel c : Nat) : spansFrom row row fuel c = [] := by
  induction fuel generalizing c with
  | zero => rfl
  | succ fuel ih =>
    rw [spansFrom, if_pos rfl, ih]
    split_ifs <;> rfl

theorem changedSpans_self (row : List Cell) : changedSpans row row = [] := by
  rw [changedSpans, spansFrom_self]
  rfl

variable {span : Nat × Nat}

theorem eraseTail_raw (h : RawSpan prev now span) :
    RawSpan prev now (eraseTail now span) := by
  rw [eraseTail]
  split
  · have hlt := h.lt
    exact ⟨by omega, le_rfl, h.left, .inl rfl⟩
  · exact h

variable {spans : List (Nat × Nat)}

theorem eraseLast_spec (now : List Cell) (spans : List (Nat × Nat)) :
    (∀ span ∈ eraseLast now spans, ∃ old ∈ spans, span = old ∨ span = eraseTail now old) ∧
      ∀ old ∈ spans, ∃ span ∈ eraseLast now spans, span = old ∨ span = eraseTail now old := by
  induction spans with
  | nil => exact ⟨fun _ h => absurd h not_mem_nil, fun _ h => absurd h not_mem_nil⟩
  | cons first spans ih =>
    cases spans with
    | nil => simp [eraseLast]
    | cons second spans =>
      refine ⟨fun x h => ?_, fun x h => ?_⟩
      all_goals rcases mem_cons.1 h with rfl | h
      · exact ⟨x, mem_cons_self, .inl rfl⟩
      · obtain ⟨old, hold, hspan⟩ := ih.1 x h
        exact ⟨old, mem_cons_of_mem _ hold, hspan⟩
      · exact ⟨x, mem_cons_self, .inl rfl⟩
      · obtain ⟨span, hmem, hspan⟩ := ih.2 x h
        exact ⟨span, mem_cons_of_mem _ hmem, hspan⟩

theorem changedSpans_raw : ∀ span ∈ changedSpans prev now,
    ∃ raw, RawSpan prev now raw ∧ span = widen now raw := by
  intro span hmem
  obtain ⟨raw, hraw, rfl⟩ := mem_map.1 hmem
  obtain ⟨old, hold, hspan⟩ := (eraseLast_spec now _).1 raw hraw
  have hok := spansFrom_raw now.length (.inl (.inl rfl)) old hold
  refine ⟨raw, ?_, rfl⟩
  rcases hspan with rfl | rfl
  · exact hok
  · exact eraseTail_raw hok

theorem widen_start (now : List Cell) (span : Nat × Nat) : (widen now span).1 ≤ span.1 := by
  unfold widen
  split <;> omega

theorem widen_stop (now : List Cell) (span : Nat × Nat) :
    span.2 ≤ (widen now span).2 ∧
      ((widen now span).2 ≤ now.length ∨ (widen now span).2 = span.2) := by
  unfold widen
  dsimp only
  split <;> omega

theorem changedSpans_cover (hk : k < now.length) (hchanged : prev[k]? ≠ now[k]?) :
    ∃ span ∈ changedSpans prev now, span.1 ≤ k ∧ k < span.2 := by
  obtain ⟨old, hold, hlow, hhigh⟩ :=
    spansFrom_cover now.length (by omega) (Nat.zero_le k) hk hchanged
  obtain ⟨raw, hraw, hspan⟩ := (eraseLast_spec now _).2 old hold
  refine ⟨widen now raw, mem_map_of_mem hraw, ?_⟩
  have hraw : raw.1 ≤ k ∧ k < raw.2 := by
    rcases hspan with rfl | rfl
    · exact ⟨hlow, hhigh⟩
    rw [eraseTail]
    split
    · exact ⟨hlow, hk⟩
    · exact ⟨hlow, hhigh⟩
  have hstart := widen_start now raw
  have hstop := widen_stop now raw
  omega

theorem widen_le (h : RawSpan prev now span) :
    (widen now span).1 < (widen now span).2 ∧ (widen now span).2 ≤ now.length := by
  have hlt := h.lt
  have hle := h.le
  have hstart := widen_start now span
  have hstop := widen_stop now span
  omega

/-! ## No run cuts a character -/

theorem getD_glyphs (row : List Cell) (k : Nat) :
    (row.map glyph).getD k .blank = glyph (row.getD k .blank) := by
  rw [getD_eq_getElem?_getD, getD_eq_getElem?_getD, getElem?_map]
  cases row[k]? <;> rfl

theorem widen_closed (hvalid : ∀ c ∈ now, c.IsValid) (hnow : cellHalves.Paired false now)
    {row : List Glyph} (hrow : glyphHalves.Paired false row) (hlen : row.length = now.length)
    (hsame : ∀ k : Nat, prev[k]? = now[k]? → row[k]? = (now.map glyph)[k]?)
    (h : RawSpan prev now span) :
    (row.getD (widen now span).1 .blank).isTail = false ∧
      (row.getD (widen now span).2 .blank).isTail = false := by
  have hglyphs := glyphHalves.paired_iff_getD.1 ((paired_glyphs hvalid).2 hnow)
  have hplaces := glyphHalves.paired_iff_getD.1 hrow
  have hget : ∀ k : Nat, prev[k]? = now[k]? →
      row.getD k .blank = (now.map glyph).getD k .blank := by
    intro k hk
    rw [getD_eq_getElem?_getD, getD_eq_getElem?_getD, hsame k hk]
  -- the tail in column `k + 1` is the one of the lead in column `k`
  have hrowNext : ∀ k, (row.getD (k + 1) .blank).isTail = (row.getD k .blank).isWide :=
    fun k => (hplaces.2 k).1
  have hrowOne : ∀ k, ((row.getD k .blank).isWide && (row.getD k .blank).isTail) = false :=
    fun k => (hplaces.2 k).2
  have hnowNext : ∀ k, hasFlag (now.getD (k + 1) .blank) WIDE_CONT =
      (glyph (now.getD k .blank)).isWide := by
    intro k
    have hnext := (hglyphs.2 k).1
    rw [← isTail_glyph, ← getD_glyphs, ← getD_glyphs]
    exact hnext
  have hwideGlyph : ∀ k, (glyph (now.getD k .blank)).isWide = hasFlag (now.getD k .blank) WIDE :=
    Lib.Halves.forall_getD (fun c hc => isWide_glyph (hvalid c hc)) rfl
  constructor
  · by_cases hzero : span.1 = 0
    · have hfirst : (widen now span).1 = 0 := by
        have hstart := widen_start now span
        omega
      rw [hfirst]
      exact hplaces.1
    have hleft := h.left.resolve_left hzero
    obtain ⟨k, hk⟩ := Nat.exists_eq_succ_of_ne_zero hzero
    rw [hk, Nat.succ_sub_one] at hleft
    have hwide : (row.getD k .blank).isWide = hasFlag (now.getD (k + 1) .blank) WIDE_CONT := by
      rw [hget k hleft, getD_glyphs, hnowNext]
    cases hcont : hasFlag (now.getD (k + 1) .blank) WIDE_CONT with
    | false =>
      have hstart : (widen now span).1 = k + 1 := by
        unfold widen
        rw [hk, hcont, if_neg (by simp)]
      rw [hstart, hrowNext, hwide, hcont]
    | true =>
      have hstart : (widen now span).1 = k := by
        unfold widen
        rw [hk, hcont, if_pos ⟨by omega, rfl⟩]
        rfl
      have hone := hrowOne k
      rw [hwide, hcont, Bool.true_and] at hone
      rw [hstart, hone]
  · have hlt := h.lt
    rcases h.right with hlast | hright
    · have hstop : (widen now span).2 = now.length := by
        have hstop := widen_stop now span
        omega
      rw [hstop, getD_eq_default _ _ (by omega)]
      rfl
    obtain ⟨k, hk⟩ := Nat.exists_eq_succ_of_ne_zero (show span.2 ≠ 0 by omega)
    rw [hk] at hright
    have htail : (row.getD (k + 1) .blank).isTail = hasFlag (now.getD k .blank) WIDE := by
      rw [hget (k + 1) hright, getD_glyphs, isTail_glyph, hnowNext, hwideGlyph]
    by_cases hwiden : span.2 < now.length ∧ hasFlag (now.getD (span.2 - 1) .blank) WIDE = true
    · have hstop : (widen now span).2 = k + 1 + 1 := by
        unfold widen
        rw [if_pos hwiden, hk]
      rw [hk, Nat.succ_sub_one] at hwiden
      have hone := hrowOne (k + 1)
      rw [htail, hwiden.2, Bool.and_true] at hone
      rw [hstop, hrowNext, hone]
    have hstop : (widen now span).2 = k + 1 := by
      unfold widen
      rw [if_neg hwiden, hk]
    rw [hstop]
    by_cases hin : k + 1 < now.length
    · rw [htail]
      cases hwide : hasFlag (now.getD k .blank) WIDE with
      | false => rfl
      | true =>
        rw [hk, Nat.succ_sub_one] at hwiden
        exact absurd ⟨hin, hwide⟩ hwiden
    · rw [getD_eq_default _ _ (by omega)]
      rfl

end Spans

/-! ## Rewriting the runs -/

def paintSpans (now : List Cell) (row : List Glyph) (spans : List (Nat × Nat)) : List Glyph :=
  spans.foldl
    (fun row span => glyphHalves.write row span.1 ((slice now span.1 span.2).map glyph)) row

/-- A span that cuts no wide character. -/
structure Closed (now : List Cell) (span : Nat × Nat) : Prop where
  lt : span.1 < span.2
  le : span.2 ≤ now.length
  left : hasFlag (now.getD span.1 .blank) WIDE_CONT = false
  right : hasFlag (now.getD span.2 .blank) WIDE_CONT = false

variable {now : List Cell}

theorem Closed.paired {span : Nat × Nat} (h : Closed now span)
    (hnow : cellHalves.Paired false now) :
    cellHalves.Paired false (slice now span.1 span.2) :=
  cellHalves.paired_slice hnow (le_of_lt h.lt) h.left h.right

theorem mem_slice {α : Type} {xs : List α} {i j : Nat} {a : α} (h : a ∈ slice xs i j) : a ∈ xs :=
  mem_of_mem_drop (mem_of_mem_take h)

theorem changedSpans_closed {prev : List Cell} (hvalid : ∀ c ∈ now, c.IsValid)
    (hnow : cellHalves.Paired false now) :
    ∀ span ∈ changedSpans prev now, Closed now span := by
  intro span hmem
  obtain ⟨raw, hraw, rfl⟩ := changedSpans_raw span hmem
  have hle := widen_le hraw
  have hends := widen_closed hvalid hnow ((paired_glyphs hvalid).2 hnow) (length_map _)
    (fun _ _ => rfl) hraw
  rw [getD_glyphs, getD_glyphs, isTail_glyph, isTail_glyph] at hends
  exact ⟨hle.1, hle.2, hends.1, hends.2⟩

variable {row : List Glyph}

theorem paint_span {prev : List Cell} (hvalid : ∀ c ∈ now, c.IsValid)
    (hnow : cellHalves.Paired false now) (hrow : glyphHalves.Paired false row)
    (hlen : row.length = now.length)
    (hsame : ∀ k : Nat, prev[k]? = now[k]? → row[k]? = (now.map glyph)[k]?) {span : Nat × Nat}
    (hmem : span ∈ changedSpans prev now) :
    glyphHalves.Paired false
        (glyphHalves.write row span.1 ((slice now span.1 span.2).map glyph)) ∧
      ∀ k : Nat, (glyphHalves.write row span.1 ((slice now span.1 span.2).map glyph))[k]? =
        if span.1 ≤ k ∧ k < span.2 then (now.map glyph)[k]? else row[k]? := by
  have hclosed := changedSpans_closed hvalid hnow span hmem
  obtain ⟨raw, hraw, rfl⟩ := changedSpans_raw span hmem
  have hends := widen_closed hvalid hnow hrow hlen hsame hraw
  generalize widen now raw = span at *
  have hlt := hclosed.lt
  have hle := hclosed.le
  have hcells : ((slice now span.1 span.2).map glyph).length = span.2 - span.1 := by
    rw [length_map, length_slice hle]
  have hstop : span.1 + (span.2 - span.1) = span.2 := by omega
  have hitems :=
    (paired_glyphs fun c hc => hvalid c (mem_slice hc)).2 (hclosed.paired hnow)
  have hbetween := glyphHalves.write_between hrow hitems (by rw [hcells]; omega) hends.1
    (by rw [hcells, hstop]; exact hends.2)
  refine ⟨glyphHalves.paired_write_at hrow hitems (by rw [hcells]; omega), fun k => ?_⟩
  rw [hbetween, hcells, hstop, append_assoc, getElem?_append]
  have htake : (row.take span.1).length = span.1 := by
    rw [length_take]
    omega
  split_ifs with h1 h2 h2
  · omega
  · exact getElem?_take_of_lt (by omega)
  · rw [getElem?_append_left (by omega), htake, getElem?_map, getElem?_map,
      getElem?_slice (by omega), Nat.add_sub_cancel' h2.1]
  · rw [getElem?_append_right (by omega), getElem?_drop, htake, hcells]
    congr 1
    omega

theorem paintSpans_changed {prev : List Cell} (hvalid : ∀ c ∈ now, c.IsValid)
    (hprev : cellHalves.Paired false prev) (hpvalid : ∀ c ∈ prev, c.IsValid)
    (hnow : cellHalves.Paired false now) (hlen : prev.length = now.length) :
    paintSpans now (prev.map glyph) (changedSpans prev now) = now.map glyph := by
  have hgen : ∀ (spans : List (Nat × Nat)) (row : List Glyph),
      (∀ span ∈ spans, span ∈ changedSpans prev now) → glyphHalves.Paired false row →
      row.length = now.length → (∀ k : Nat, prev[k]? = now[k]? → row[k]? = (now.map glyph)[k]?) →
      ∀ k, (row[k]? = (now.map glyph)[k]? ∨ ∃ span ∈ spans, span.1 ≤ k ∧ k < span.2) →
        (paintSpans now row spans)[k]? = (now.map glyph)[k]? := by
    intro spans
    induction spans with
    | nil =>
      rintro row - - - - k (hk | ⟨_, hmem, -⟩)
      · exact hk
      · cases hmem
    | cons span spans ih =>
      intro row hmem hrow hrlen hsame k hk
      have hspan := hmem span mem_cons_self
      obtain ⟨hpaired, hone⟩ := paint_span hvalid hnow hrow hrlen hsame hspan
      refine ih _ (fun s hs => hmem s (mem_cons_of_mem _ hs)) hpaired
        ((glyphHalves.length_write ..).trans hrlen) (fun j hj => ?_) k ?_
      · rw [hone j]
        split
        · rfl
        · exact hsame j hj
      rw [hone k]
      rcases hk with hk | ⟨s, hs, hin⟩
      · left
        split
        · rfl
        · exact hk
      · rcases mem_cons.1 hs with rfl | hs
        · exact .inl (if_pos hin)
        · exact .inr ⟨s, hs, hin⟩
  refine ext_getElem? fun k => ?_
  have hstart : ∀ k : Nat, prev[k]? = now[k]? → (prev.map glyph)[k]? = (now.map glyph)[k]? := by
    intro k hk
    rw [getElem?_map, getElem?_map, hk]
  refine hgen _ _ (fun _ h => h) ((paired_glyphs hpvalid).2 hprev) (by rw [length_map, hlen])
    hstart k ?_
  by_cases hk : prev[k]? = now[k]?
  · exact .inl (hstart k hk)
  by_cases hin : k < now.length
  · exact .inr (changedSpans_cover hin hk)
  · refine absurd ?_ hk
    rw [getElem?_eq_none (by omega), getElem?_eq_none (by omega)]

theorem paintSpans_whole (hvalid : ∀ c ∈ now, c.IsValid)
    (hnow : cellHalves.Paired false now) (hrow : glyphHalves.Paired false row)
    (hlen : row.length = now.length) :
    paintSpans now row [(0, now.length)] = now.map glyph := by
  have hslice : slice now 0 now.length = now := by
    rw [Qsh.Lib.slice_zero, take_length]
  have hbetween := glyphHalves.write_between (j := 0) hrow ((paired_glyphs hvalid).2 hnow)
    (by rw [length_map]; omega) (glyphHalves.paired_iff_getD.1 hrow).1
    (by rw [length_map, getD_eq_default _ _ (by omega)]; rfl)
  show glyphHalves.write row 0 ((slice now 0 now.length).map glyph) = _
  rw [hslice, hbetween, length_map, drop_of_length_le (by omega)]
  simp

end Qsh.Client
