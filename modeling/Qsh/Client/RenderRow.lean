import Mathlib.Data.List.TakeWhile
import Qsh.Client.RenderSpans

/-!
# Writing cells to the terminal

What the terminal does with the text of `writeRun`, `writeSpan`, `writeSpans` and
`writeRows`: the cells of a run stand in its columns (`shown_writeSpan`), and the
rows are those of `paintSpans` (`shown_writeRows`).

The renderer's picture of the pen is either unknown or right (`Tracks`).
-/

namespace Qsh.Client

open List Option

open Qsh.Lib (slice length_slice)
open Qsh.Lib.Escape (Emits emits_print)
open Qsh.Screen (Text Cell WIDE WIDE_CONT)

namespace Terminal

/-! ## One character after the other -/

section Put

variable {W : Char → Nat} {t : Terminal} {xs : List Glyph} {p : Pen}

def wrote (t : Terminal) (xs : List Glyph) (p : Pen) : Terminal :=
  { t.put xs with pen := p }

theorem wrote_nil (h : t.Sound) (hwrap : t.wrapNext = false) : t.wrote [] t.pen = t := by
  have hcol := h.col
  have hgrid : t.grid.modify t.row (glyphHalves.write · t.col []) = t.grid := modify_id t.row _
  have hmin : min t.col (t.cols - 1) = t.col := by omega
  have hno : decide (t.cols ≤ t.col) = false := decide_eq_false (by omega)
  rw [wrote, put, hgrid, length_nil, Nat.add_zero, hmin, hno, ← hwrap]

theorem put_wrote (hroom : t.col + xs.length < t.cols) (ys : List Glyph) :
    (t.wrote xs p).put ys = t.wrote (xs ++ ys) p := by
  have hmin : min (t.col + xs.length) (t.cols - 1) = t.col + xs.length := by omega
  simp only [wrote, put, hmin, length_append, ← Nat.add_assoc]
  congr 1
  rw [modify_modify_eq]
  congr 1
  funext row
  exact glyphHalves.write_write row t.col xs ys

theorem wrote_wrap (hroom : t.col + xs.length < t.cols) : (t.wrote xs p).wrap = t.wrote xs p := by
  have hno : (t.wrote xs p).wrapNext = false := decide_eq_false (by omega)
  rw [wrap, hno, if_neg (by simp)]

theorem print_narrow {c : Char} (hc : W c = 1) (hroom : t.col + xs.length < t.cols) :
    (t.wrote xs p).print W c = t.wrote (xs ++ [.char [c] false p]) p := by
  rw [print, if_neg (by omega), if_pos hc, wrote_wrap hroom]
  exact put_wrote hroom _

theorem print_wide {c : Char} (hc : W c = 2) (hroom : t.col + xs.length + 1 < t.cols) :
    (t.wrote xs p).print W c = t.wrote (xs ++ [.char [c] true p, .tail]) p := by
  have hcol : (t.wrote xs p).col = t.col + xs.length := by
    show min (t.col + xs.length) (t.cols - 1) = _
    omega
  have hcols : (t.wrote xs p).cols = t.cols := rfl
  have hfits : ¬((t.wrote xs p).cols ≤ (t.wrote xs p).col + 1 ∧
      (t.wrote xs p).modes.autowrap = true) := by
    rw [hcol, hcols]
    omega
  rw [print, if_neg (by omega), if_neg (by omega), wrote_wrap (by omega), printWide, if_neg hfits,
    if_pos (by rw [hcol, hcols]; exact hroom)]
  exact put_wrote (by omega) _

theorem getD_wrote (h : t.Sound) :
    (t.wrote xs p).grid.getD t.row [] = glyphHalves.write (t.grid.getD t.row []) t.col xs := by
  have hrow : t.row < t.grid.length := h.grid.1 ▸ h.row
  show (t.grid.modify t.row (glyphHalves.write · t.col xs)).getD t.row [] = _
  rw [getD_eq_getElem?_getD, getElem?_modify_eq, getD_eq_getElem?_getD, getElem?_eq_getElem hrow]
  rfl

theorem row_ok (h : t.Sound) :
    (t.grid.getD t.row []).length = t.cols ∧ glyphHalves.Paired false (t.grid.getD t.row []) := by
  have hrow : t.row < t.grid.length := h.grid.1 ▸ h.row
  rw [getD_eq_getElem _ _ hrow]
  exact h.grid.2 _ (getElem_mem hrow)

def places (text : Text) (wide : Bool) (pen : Pen) : List Glyph :=
  .char text wide pen :: if wide then [.tail] else []

theorem length_places (text : Text) (wide : Bool) (pen : Pen) :
    (places text wide pen).length = 1 + if wide then 1 else 0 := by
  cases wide <;> rfl

theorem paired_places (text : Text) (wide : Bool) (pen : Pen) :
    glyphHalves.Paired false (places text wide pen) := by
  cases wide with
  | false => exact paired_replicate rfl rfl 1
  | true =>
    exact glyphHalves.paired_cons.2 ⟨rfl, rfl, glyphHalves.paired_cons.2
      ⟨rfl, rfl, glyphHalves.paired_nil⟩⟩

section Mark

variable {text : Text} {wide : Bool} {pen : Pen}

theorem markCol_wrote (h : t.Sound) (hxs : glyphHalves.Paired false (xs ++ places text wide pen))
    (hroom : t.col + (xs ++ places text wide pen).length ≤ t.cols) :
    (t.wrote (xs ++ places text wide pen) p).markCol = t.col + xs.length := by
  obtain ⟨hlen, hrow⟩ := row_ok h
  have hplaces := length_places text wide pen
  rw [length_append] at hroom
  -- the last place that was written, whether the wrap is deferred or not
  have hlast : (if (t.wrote (xs ++ places text wide pen) p).wrapNext = true
      then (t.wrote (xs ++ places text wide pen) p).col
      else (t.wrote (xs ++ places text wide pen) p).col - 1) =
      t.col + (xs.length + if wide then 1 else 0) := by
    have hwrap : (t.wrote (xs ++ places text wide pen) p).wrapNext =
        decide (t.cols ≤ t.col + (xs.length + (places text wide pen).length)) := by
      rw [← length_append]
      rfl
    have hcol : (t.wrote (xs ++ places text wide pen) p).col =
        min (t.col + (xs.length + (places text wide pen).length)) (t.cols - 1) := by
      rw [← length_append]
      rfl
    rw [hwrap, hcol]
    simp only [decide_eq_true_eq]
    split <;> omega
  have hget := glyphHalves.getD_write (j := t.col) (k := xs.length + if wide then 1 else 0) hrow hxs
    (by rw [length_append]; omega) (by rw [length_append]; omega)
  have hplace : (xs ++ places text wide pen).getD (xs.length + if wide then 1 else 0)
      glyphHalves.blank = if wide then .tail else .char text wide pen := by
    rw [getD_append_right _ _ _ _ (by omega), Nat.add_sub_cancel_left]
    cases wide <;> rfl
  have hrowEq : (t.wrote (xs ++ places text wide pen) p).row = t.row := rfl
  rw [markCol, hlast, hrowEq, getD_wrote h]
  rw [hplace] at hget
  have hget : (glyphHalves.write (t.grid.getD t.row []) t.col (xs ++ places text wide pen)).getD
      (t.col + (xs.length + if wide then 1 else 0)) .blank =
      if wide then .tail else .char text wide pen := hget
  rw [hget]
  cases wide
  · rfl
  · show t.col + (xs.length + 1) - 1 = t.col + xs.length
    omega

theorem joinMark_wrote (h : t.Sound) (mark : Char)
    (hxs : glyphHalves.Paired false (xs ++ places text wide pen))
    (hroom : t.col + (xs ++ places text wide pen).length ≤ t.cols) :
    (t.wrote (xs ++ places text wide pen) p).joinMark mark =
      t.wrote (xs ++ places (text ++ [mark]) wide pen) p := by
  obtain ⟨hlen, hrow⟩ := row_ok h
  have hin : t.row < t.grid.length := h.grid.1 ▸ h.row
  rw [getD_eq_getElem _ _ hin] at hlen hrow
  have hsame : (xs ++ places (text ++ [mark]) wide pen).length =
      (xs ++ places text wide pen).length := by
    rw [length_append, length_append, length_places, length_places]
  -- the row is changed in place
  have hgrid : (t.grid.modify t.row (glyphHalves.write · t.col (xs ++ places text wide pen))).modify
      t.row (·.modify (t.col + xs.length) (Glyph.join mark)) =
      t.grid.modify t.row (glyphHalves.write · t.col (xs ++ places (text ++ [mark]) wide pen)) := by
    refine ext_getElem? fun k => ?_
    rw [modify_modify_eq, getElem?_modify, getElem?_modify]
    obtain rfl | hk := eq_or_ne t.row k
    · rw [getElem?_eq_getElem hin]
      simp only [Option.map_eq_map, map_some, if_true, Function.comp_apply]
      have hlen : t.col + (xs ++ places text wide pen).length ≤ t.grid[t.row].length := by omega
      exact congrArg some (glyphHalves.modify_write hrow hxs hlen rfl rfl)
    · simp only [if_neg hk]
  rw [joinMark, markCol_wrote h hxs hroom]
  simp only [wrote, put, hsame]
  rw [hgrid]

theorem print_marks (h : t.Sound) (marks : List Char) (hmarks : ∀ m ∈ marks, W m = 0)
    (hxs : glyphHalves.Paired false xs)
    (hroom : t.col + (xs ++ places text wide pen).length ≤ t.cols) :
    (marks.map Lib.Escape.Token.print).foldl (exec W) (t.wrote (xs ++ places text wide pen) p) =
      t.wrote (xs ++ places (text ++ marks) wide pen) p := by
  induction marks generalizing text with
  | nil => rw [append_nil]; rfl
  | cons m marks ih =>
    have hpaired : glyphHalves.Paired false (xs ++ places text wide pen) := by
      exact hxs.append (paired_places text wide pen)
    have hone : (t.wrote (xs ++ places text wide pen) p).exec W (.print m) =
        t.wrote (xs ++ places (text ++ [m]) wide pen) p := by
      show print W _ m = _
      rw [print, if_pos (hmarks m mem_cons_self)]
      exact joinMark_wrote h m hpaired hroom
    rw [map_cons, foldl_cons, hone, ih (fun m' hm' => hmarks m' (mem_cons_of_mem m hm'))
        (by rw [length_append, length_places] at hroom ⊢; exact hroom),
      append_assoc]
    rfl

end Mark

end Put

/-! ## Cells -/

/-- The renderer's picture of the pen is right, if it has one. -/
def Tracks (pen : Option Pen) (p : Pen) : Prop :=
  ∀ q ∈ pen, q = p

section Cells

variable {W : Char → Nat} {t : Terminal} {xs : List Glyph} {p : Pen} {pen : Option Pen}

theorem shownText_eq (hspace : W ' ' = 1) {c : Cell} (hc : Drawable W c) :
    ∃ base marks, (if c.text = [] then [' '] else c.text) = base :: marks ∧
      W base = (if hasFlag c WIDE then 2 else 1) ∧ (∀ m ∈ marks, W m = 0) ∧
      (base :: marks).any Screen.isControl = false := by
  obtain ⟨hvalid, hwide, hbase, hmarks⟩ := hc
  cases htext : c.text with
  | nil =>
    have hnarrow : hasFlag c WIDE = false := by
      cases h : hasFlag c WIDE with
      | false => rfl
      | true => exact absurd htext (hwide h)
    refine ⟨' ', [], rfl, ?_, by simp, by decide⟩
    rw [hnarrow]
    exact hspace
  | cons base marks =>
    rw [htext] at hbase hmarks
    refine ⟨base, marks, rfl, hbase base rfl, hmarks, ?_⟩
    rw [← htext]
    exact hvalid.2.2.2.1

theorem shown_cell (hspace : W ' ' = 1) (h : t.Sound) {c : Cell} (hc : Drawable W c)
    (hcont : hasFlag c WIDE_CONT = false) (hxs : glyphHalves.Paired false xs)
    (hroom : t.col + (xs.length + 1 + if hasFlag c WIDE then 1 else 0) ≤ t.cols) :
    Shown W (t.wrote xs (Pen.of c)) (if c.text = [] then [' '] else c.text)
      (t.wrote (xs ++ glyph c :: if hasFlag c WIDE then [.tail] else []) (Pen.of c)) := by
  obtain ⟨base, marks, htext, hbase, hmarks, hplain⟩ := shownText_eq hspace hc
  have hglyph : glyph c = .char (base :: marks) (hasFlag c WIDE) (Pen.of c) := by
    rw [glyph, hcont, if_neg Bool.false_ne_true, htext]
  have hfirst : (t.wrote xs (Pen.of c)).print W base =
      t.wrote (xs ++ places [base] (hasFlag c WIDE) (Pen.of c)) (Pen.of c) := by
    cases hwide : hasFlag c WIDE with
    | false =>
      rw [hwide] at hbase
      exact print_narrow hbase (by omega)
    | true =>
      rw [hwide] at hbase hroom
      simp only [if_true] at hroom
      exact print_wide hbase (by omega)
  rw [htext, hglyph]
  refine ⟨_, emits_print hplain, ?_⟩
  rw [map_cons, foldl_cons]
  show List.foldl (exec W) ((t.wrote xs (Pen.of c)).print W base) _ = _
  rw [hfirst, print_marks h marks hmarks hxs (by rw [length_append, length_places]; omega)]
  rfl

theorem shown_pen (htracks : Tracks pen p) {want : Pen} (hwant : IsPen want) :
    Shown W (t.wrote xs p) (if pen ≠ some want then want.sgr else []) (t.wrote xs want) := by
  split
  · exact shown_sgr hwant
  · next hsame =>
    rw [htracks want (not_not.1 hsame)]
    exact .nil

/-- Behind `xs` the run puts its glyphs on the row, and the renderer knows the pen it leaves. -/
def RunShown (W : Char → Nat) (t : Terminal) (xs : List Glyph) (p : Pen) (pen : Option Pen)
    (cells : List Cell) : Prop :=
  ∃ p', Tracks (writeRun pen cells).1 p' ∧ (cells ≠ [] → (writeRun pen cells).1.isSome) ∧
    Shown W (t.wrote xs p) (writeRun pen cells).2 (t.wrote (xs ++ cells.map glyph) p')

theorem shown_writeRun_cons (hspace : W ' ' = 1) (h : t.Sound) {c : Cell} {m row : List Cell}
    (hc : Drawable W c) (hcont : hasFlag c WIDE_CONT = false)
    (hmore : m.map glyph = if hasFlag c WIDE then [.tail] else [])
    (hskip : ∀ pen, writeRun pen (m ++ row) = writeRun pen row)
    (hxs : glyphHalves.Paired false xs) (hroom : t.col + (xs.length + (m.length + 1)) ≤ t.cols)
    (htracks : Tracks pen p)
    (hrest : glyphHalves.Paired false (xs ++ (c :: m).map glyph) →
      RunShown W t (xs ++ (c :: m).map glyph) (Pen.of c) (some (Pen.of c)) row) :
    RunShown W t xs p pen (c :: (m ++ row)) := by
  have hlen := congrArg length hmore
  rw [length_map, apply_ite length, length_singleton, length_nil] at hlen
  have hcell := shown_cell hspace h hc hcont hxs (by omega)
  have hplaces : (c :: m).map glyph =
      places (if c.text = [] then [' '] else c.text) (hasFlag c WIDE) (Pen.of c) := by
    rw [map_cons, hmore, glyph, hcont, if_neg Bool.false_ne_true]
    rfl
  obtain ⟨p', htracks', hsome, hrest⟩ := hrest (hxs.append (hplaces ▸ paired_places _ _ _))
  rw [RunShown, writeRun, hcont, if_neg Bool.false_ne_true]
  simp only [hskip]
  refine ⟨p', htracks', fun _ => ?_, ?_⟩
  · by_cases hnil : row = []
    · rw [hnil]
      rfl
    · exact hsome hnil
  · rw [append_assoc, ← map_append] at hrest
    rw [← hmore] at hcell
    exact ((shown_pen htracks (isPen_of c)).append hcell).append hrest

theorem shown_writeRun (hspace : W ' ' = 1) (h : t.Sound) : ∀ cells,
    cellHalves.Paired false cells → (∀ c ∈ cells, Drawable W c) →
    ∀ {xs : List Glyph} {p : Pen} {pen : Option Pen}, glyphHalves.Paired false xs →
      t.col + (xs.length + cells.length) ≤ t.cols → Tracks pen p →
      RunShown W t xs p pen cells := by
  -- along the characters of the run: a single cell, or a lead and its tail
  refine cellHalves.paired_induction ?_ ?_ ?_
  · intro _ xs p pen _ _ htracks
    refine ⟨p, htracks, fun hne => absurd rfl hne, ?_⟩
    rw [map_nil, append_nil]
    exact .nil
  · intro c row hwide hcont _ ih hdraw xs p pen hxs hroom htracks
    have hwide : hasFlag c WIDE = false := hwide
    rw [length_cons] at hroom
    refine shown_writeRun_cons (m := []) hspace h (hdraw c mem_cons_self) hcont (by rw [hwide]; rfl)
      (fun _ => rfl) hxs (by rw [length_nil]; omega) htracks fun hxs' => ?_
    exact ih (fun d hd => hdraw d (mem_cons_of_mem c hd)) hxs'
      (by simp only [length_append, length_map, length_singleton]; omega)
      (fun q hq => (some.inj hq).symm)
  intro c d row hwide hcont _ htail _ ih hdraw xs p pen hxs hroom htracks
  have hwide : hasFlag c WIDE = true := hwide
  have htail : hasFlag d WIDE_CONT = true := htail
  rw [length_cons, length_cons] at hroom
  refine shown_writeRun_cons (m := [d]) hspace h (hdraw c mem_cons_self) hcont
    (by rw [map_singleton, glyph, if_pos htail, if_pos hwide])
    (fun pen => by rw [singleton_append, writeRun, if_pos htail]) hxs
    (by rw [length_singleton]; omega) htracks fun hxs' => ?_
  exact ih (fun e he => hdraw e (mem_cons_of_mem c (mem_cons_of_mem d he))) hxs'
    (by simp only [length_append, length_map, length_cons, length_nil]; omega)
    (fun q hq => (some.inj hq).symm)

end Cells

end Terminal

/-! ## Runs -/

theorem eq_blank_of_isPlainBlank {c : Cell} (h : isPlainBlank c = true) : c = .blank := by
  obtain ⟨text, fg, bg, flags⟩ := c
  simp only [isPlainBlank, Bool.and_eq_true, List.isEmpty_iff, beq_iff_eq] at h
  obtain ⟨⟨⟨rfl, rfl⟩, rfl⟩, rfl⟩ := h
  rfl

theorem drop_blanks (cells : List Cell) (p : Cell → Bool) :
    ∀ c ∈ cells.drop (cells.length - (cells.reverse.takeWhile p).length), p c = true := by
  have hsplit := takeWhile_append_dropWhile (p := p) (l := cells.reverse)
  have hcells : cells =
      (cells.reverse.dropWhile p).reverse ++ (cells.reverse.takeWhile p).reverse := by
    rw [← reverse_append, hsplit, reverse_reverse]
  have hlen : cells.length - (cells.reverse.takeWhile p).length =
      (cells.reverse.dropWhile p).reverse.length := by
    have hsum := congrArg List.length hsplit
    rw [length_append, length_reverse] at hsum
    rw [length_reverse]
    omega
  have hdrop : ∀ a b : List Cell, cells = a ++ b → cells.drop a.length = b := by
    rintro a b rfl
    exact drop_left
  intro c hc
  rw [hlen, hdrop _ _ hcells, mem_reverse] at hc
  exact mem_takeWhile_imp hc

theorem writeStop_spec {row : List Cell} {start stop : Nat} (hle : start ≤ stop)
    (hstop : stop ≤ row.length) :
    start ≤ writeStop row start stop ∧ writeStop row start stop ≤ stop ∧
      (writeStop row start stop < stop → stop = row.length ∧
        ∀ c ∈ slice row (writeStop row start stop) stop, c = .blank) := by
  have hlen := length_slice (i := start) hstop
  have hcount : ((slice row start stop).reverse.takeWhile isPlainBlank).length ≤ stop - start := by
    have hsub :=
      (takeWhile_sublist (l := (slice row start stop).reverse) isPlainBlank).length_le
    rwa [length_reverse, hlen] at hsub
  have hblank := drop_blanks (slice row start stop) isPlainBlank
  unfold writeStop
  dsimp only
  generalize ((slice row start stop).reverse.takeWhile isPlainBlank).length = blanks
    at hcount hblank
  split
  · next herase =>
    refine ⟨by omega, by omega, fun _ => ⟨herase.1, fun c hc => ?_⟩⟩
    refine eq_blank_of_isPlainBlank (hblank c ?_)
    rw [hlen, Qsh.Lib.drop_slice]
    have heq : start + (stop - start - blanks) = stop - blanks := by omega
    rwa [heq]
  · exact ⟨hle, le_rfl, fun hlt => absurd hlt (lt_irrefl _)⟩

namespace Terminal

section Spans

variable {W : Char → Nat} {t : Terminal} {pen : Option Pen} {now : List Cell}

/-- The terminal `u` after a text that started at `t`: its buffer, and the same
modes. -/
structure Painted (t : Terminal) (grid : List (List Glyph)) (pen : Option Pen) (u : Terminal) :
    Prop where
  grid : u.grid = grid
  modes : u.modes = t.modes
  tracks : Tracks pen u.pen

theorem shown_writeSpan (hspace : W ' ' = 1) (h : t.Sound) (hwrap : t.wrapNext = false)
    (hlen : now.length = t.cols) (hnow : cellHalves.Paired false now)
    (hdraw : ∀ c ∈ now, Drawable W c) {span : Nat × Nat} (hspan : Closed now span)
    (hcol : t.col = span.1) (htracks : Tracks pen t.pen) :
    (writeSpan now span.1 span.2 pen).1.isSome ∧
      ∃ u, Shown W t (writeSpan now span.1 span.2 pen).2 u ∧ Painted t (t.grid.modify t.row
            (glyphHalves.write · span.1 ((slice now span.1 span.2).map glyph)))
          (writeSpan now span.1 span.2 pen).1 u := by
  have hlt := hspan.lt
  have hle := hspan.le
  obtain ⟨hlow, hhigh, hrest⟩ := writeStop_spec (le_of_lt hlt) hle
  have hblank : writeStop now span.1 span.2 < span.2 →
      hasFlag (now.getD (writeStop now span.1 span.2) .blank) WIDE_CONT = false := by
    intro herase
    have hin : writeStop now span.1 span.2 < now.length := by omega
    have hmem : now[writeStop now span.1 span.2] ∈
        slice now (writeStop now span.1 span.2) span.2 := by
      refine mem_of_getElem? (i := 0) ?_
      rw [Qsh.Lib.getElem?_slice (by omega), Nat.add_zero, getElem?_eq_getElem hin]
    rw [getD_eq_getElem _ _ hin, (hrest herase).2 _ hmem]
    rfl
  unfold writeSpan
  dsimp only
  generalize writeStop now span.1 span.2 = last at *
  have hcells : cellHalves.Paired false (slice now span.1 last) := by
    refine cellHalves.paired_slice hnow hlow hspan.left ?_
    by_cases herase : last < span.2
    · exact hblank herase
    · have heq : last = span.2 := by omega
      rw [heq]
      exact hspan.right
  have hslice : (slice now span.1 last).length = last - span.1 := length_slice (by omega)
  obtain ⟨p', htracks', hsome, hrun⟩ := shown_writeRun hspace h _ hcells
    (fun c hc => hdraw c (mem_slice hc)) glyphHalves.paired_nil
    (by rw [length_nil, hslice, hcol]; omega) htracks
  rw [wrote_nil h hwrap, nil_append] at hrun
  split
  · next herase =>
    -- the tail is erased with the default pen
    obtain ⟨hend, hall⟩ := hrest herase
    have hpen := (hrun.append (shown_pen htracks' isPen_default)).append
      (shown_erase (t := t.wrote ((slice now span.1 last).map glyph) .default))
    refine ⟨rfl, _, hpen, ?_, rfl, fun q hq => (some.inj hq).symm⟩
    have hat : (t.wrote ((slice now span.1 last).map glyph) .default).col = last := by
      show min (t.col + ((slice now span.1 last).map glyph).length) (t.cols - 1) = last
      rw [length_map, hslice, hcol]
      omega
    have htail : (slice now last span.2).map glyph = replicate (t.cols - last) .blank := by
      have hreplicate : slice now last span.2 = replicate (t.cols - last) Cell.blank := by
        refine eq_replicate_iff.2 ⟨?_, hall⟩
        rw [length_slice hle]
        omega
      rw [hreplicate, map_replicate]
      rfl
    show (t.grid.modify t.row _).modify t.row (glyphHalves.write ·
      (t.wrote ((slice now span.1 last).map glyph) .default).col
      (replicate (t.cols - (t.wrote ((slice now span.1 last).map glyph) .default).col)
        Glyph.blank)) = _
    rw [hat, ← htail, modify_modify_eq, ← Qsh.Lib.slice_append_slice hlow hhigh, map_append, ← hcol]
    congr 1
    funext row
    have hwrite := glyphHalves.write_write row t.col ((slice now t.col last).map glyph)
      ((slice now last span.2).map glyph)
    rw [length_map, hcol, hslice, Nat.add_sub_cancel' hlow] at hwrite
    rw [Function.comp_apply, hcol]
    exact hwrite
  · next hno =>
    have heq : last = span.2 := by omega
    subst heq
    have hne : slice now span.1 span.2 ≠ [] := by
      refine ne_nil_of_length_pos ?_
      omega
    exact ⟨hsome hne, _, hrun, by rw [← hcol]; rfl, rfl, htracks'⟩

theorem shown_writeSpans (hspace : W ' ' = 1) (h : t.Sound) {r : Nat} (hr : r < t.rows)
    (hlen : now.length = t.cols) (hnow : cellHalves.Paired false now)
    (hdraw : ∀ c ∈ now, Drawable W c) {spans : List (Nat × Nat)}
    (hspans : ∀ span ∈ spans, Closed now span) (htracks : Tracks pen t.pen) :
    ((pen.isSome ∨ spans ≠ []) → (writeSpans r now pen spans).1.isSome) ∧
      ∃ u, Shown W t (writeSpans r now pen spans).2 u ∧
        Painted t (t.grid.modify r (paintSpans now · spans)) (writeSpans r now pen spans).1 u := by
  induction spans generalizing t pen with
  | nil =>
    refine ⟨fun hsome => hsome.resolve_right fun hne => hne rfl, t, .nil, ?_, rfl, htracks⟩
    exact (modify_id r t.grid).symm
  | cons span spans ih =>
    have hspan := hspans span mem_cons_self
    have hlt := hspan.lt
    have hle := hspan.le
    have hmove := shown_cup (W := W) hr (show span.1 < t.cols by omega)
    have hmoved := (hmove.kept h).sound
    obtain ⟨hsome, u, hu, hpaint⟩ :=
      shown_writeSpan hspace hmoved rfl hlen hnow hdraw hspan rfl htracks
    have hkept := (hmove.append hu).kept h
    obtain ⟨hsome', v, hv, hpaint'⟩ := ih hkept.sound (hkept.rows ▸ hr) (hlen.trans hkept.cols.symm)
      (fun s hs => hspans s (mem_cons_of_mem span hs)) hpaint.tracks
    refine ⟨fun _ => hsome' (.inl hsome), v, (hmove.append hu).append hv, ?_,
      hpaint'.modes.trans hpaint.modes, hpaint'.tracks⟩
    rw [hpaint'.grid, hpaint.grid, modify_modify_eq]
    rfl

end Spans

/-! ## Rows -/

/-- The frame has its size, and its wide characters both halves. -/
structure FrameOk (W : Char → Nat) (f : Frame) : Prop where
  length : f.cells.length = f.rows
  cells : ∀ row ∈ f.cells,
    row.length = f.cols ∧ cellHalves.Paired false row ∧ ∀ c ∈ row, Drawable W c
  cols : 0 < f.cols
  rows : 0 < f.rows
  cursorRow : f.cursorRow < f.rows
  cursorCol : f.cursorCol < f.cols

def glyphs (f : Frame) : List (List Glyph) :=
  f.cells.map (·.map glyph)

section Rows

variable {W : Char → Nat} {t : Terminal} {frame : Frame}

theorem FrameOk.row (h : FrameOk W frame) {r : Nat} (hr : r < frame.rows) :
    frame.cells[r]? = some (frame.row r) ∧ (frame.row r).length = frame.cols ∧
      cellHalves.Paired false (frame.row r) ∧ ∀ c ∈ frame.row r, Drawable W c := by
  have hin : r < frame.cells.length := h.length ▸ hr
  rw [Frame.row, getD_eq_getElem _ _ hin]
  exact ⟨getElem?_eq_getElem hin, h.cells _ (getElem_mem hin)⟩

theorem rowSpans_closed (h : FrameOk W frame) (previous : Option Frame) {r : Nat}
    (hr : r < frame.rows) : ∀ span ∈ rowSpans previous frame r, Closed (frame.row r) span := by
  obtain ⟨-, hlen, hpaired, hdraw⟩ := h.row hr
  have hcols := h.cols
  cases previous with
  | some prev => exact changedSpans_closed (fun c hc => (hdraw c hc).1) hpaired
  | none =>
    intro span hmem
    rw [rowSpans] at hmem
    split at hmem
    · cases hmem
    rw [mem_singleton.1 hmem]
    refine ⟨by omega, le_rfl, (cellHalves.paired_iff_getD.1 hpaired).1, ?_⟩
    rw [getD_eq_default _ _ le_rfl]
    rfl

theorem shown_writeRows (hspace : W ' ' = 1) (h : t.Sound) (hframe : FrameOk W frame)
    (hcols : frame.cols = t.cols) (hrows : frame.rows = t.rows) (previous : Option Frame)
    {pen : Option Pen} (rs : List Nat) (hrs : ∀ r ∈ rs, r < frame.rows)
    (htracks : Tracks pen t.pen) :
    ((pen.isSome ∨ ∃ r ∈ rs, rowSpans previous frame r ≠ []) →
        (writeRows previous frame pen rs).1.isSome) ∧
      ∃ u, Shown W t (writeRows previous frame pen rs).2 u ∧ Painted t (rs.foldl (fun grid r =>
            grid.modify r (paintSpans (frame.row r) · (rowSpans previous frame r))) t.grid)
          (writeRows previous frame pen rs).1 u := by
  induction rs generalizing t pen with
  | nil =>
    refine ⟨fun hsome => hsome.resolve_right ?_, t, .nil, rfl, rfl, htracks⟩
    rintro ⟨_, hmem, -⟩
    cases hmem
  | cons r rs ih =>
    have hr := hrs r mem_cons_self
    obtain ⟨-, hlen, hpaired, hdraw⟩ := hframe.row hr
    obtain ⟨hsome, u, hu, hpaint⟩ := shown_writeSpans hspace h (hrows ▸ hr) (hlen.trans hcols)
      hpaired hdraw (rowSpans_closed hframe previous hr) htracks
    have hkept := hu.kept h
    obtain ⟨hsome', v, hv, hpaint'⟩ := ih hkept.sound (hcols.trans hkept.cols.symm)
      (hrows.trans hkept.rows.symm) (fun r' hr' => hrs r' (mem_cons_of_mem r hr'))
      hpaint.tracks
    refine ⟨fun hany => hsome' ?_, v, hu.append hv, ?_, hpaint'.modes.trans hpaint.modes,
      hpaint'.tracks⟩
    · rcases hany with hpen | ⟨r', hmem, hne⟩
      · exact .inl (hsome (.inl hpen))
      rcases mem_cons.1 hmem with rfl | hmem
      · exact .inl (hsome (.inr hne))
      · exact .inr ⟨r', hmem, hne⟩
    · rw [hpaint'.grid, hpaint.grid]
      rfl

theorem getElem?_foldl_modify {α : Type} (f : Nat → α → α) {rs : List Nat} (hrs : rs.Nodup)
    (grid : List α) (k : Nat) :
    (rs.foldl (fun g r => g.modify r (f r)) grid)[k]? =
      if k ∈ rs then grid[k]?.map (f k) else grid[k]? := by
  induction rs generalizing grid with
  | nil => rfl
  | cons r rs ih =>
    obtain ⟨hnot, hrs⟩ := nodup_cons.1 hrs
    rw [foldl_cons, ih hrs, getElem?_modify]
    obtain rfl | hk := eq_or_ne r k
    · rw [if_neg hnot, if_pos mem_cons_self]
      simp only [if_true]
      rfl
    have hmem : k ∈ r :: rs ↔ k ∈ rs := by
      rw [mem_cons]
      exact ⟨fun h => h.resolve_left fun h => hk h.symm, .inr⟩
    simp only [if_neg hk, hmem, id_map']

/-- After all rows the terminal shows the frame: whatever it showed before a full
repaint, and from the frame before it otherwise. -/
theorem paintRows_eq (hframe : FrameOk W frame) {previous : Option Frame}
    {grid : List (List Glyph)} (hgrid : GridOk frame.cols frame.rows grid)
    (hprev : ∀ prev ∈ previous, FrameOk W prev ∧ prev.cols = frame.cols ∧
      prev.rows = frame.rows ∧ grid = glyphs prev) :
    (range frame.rows).foldl (fun grid r =>
        grid.modify r (paintSpans (frame.row r) · (rowSpans previous frame r))) grid =
      glyphs frame := by
  refine ext_getElem? fun k => ?_
  rw [getElem?_foldl_modify (fun r row => paintSpans (frame.row r) row (rowSpans previous frame r))
    nodup_range, glyphs, getElem?_map]
  by_cases hk : k < frame.rows
  · obtain ⟨hget, hlen, hpaired, hdraw⟩ := hframe.row hk
    have hvalid : ∀ c ∈ frame.row k, c.IsValid := fun c hc => (hdraw c hc).1
    have hin : k < grid.length := hgrid.1 ▸ hk
    rw [if_pos (mem_range.2 hk), hget, getElem?_eq_getElem hin, map_some, map_some]
    congr 1
    have hrow := hgrid.2 _ (getElem_mem hin)
    cases previous with
    | none =>
      have hne : (frame.row k).isEmpty = false := by
        have hcols := hframe.cols
        cases hempty : frame.row k with
        | nil => rw [hempty] at hlen; simp at hlen; omega
        | cons c row => rfl
      rw [rowSpans, hne, if_neg Bool.false_ne_true]
      exact paintSpans_whole hvalid hpaired hrow.2 (hrow.1.trans hlen.symm)
    | some prev =>
      obtain ⟨hok, hcols, hrows, rfl⟩ := hprev prev rfl
      obtain ⟨hget', hlen', hpaired', hdraw'⟩ := hok.row (hrows ▸ hk)
      have heq : (glyphs prev)[k] = (prev.row k).map glyph := by
        refine some.inj ?_
        rw [← getElem?_eq_getElem, glyphs, getElem?_map, hget', map_some]
      rw [heq]
      exact paintSpans_changed hvalid hpaired' (fun c hc => (hdraw' c hc).1) hpaired
        (by rw [hlen', hlen, hcols])
  · rw [if_neg (fun h => hk (mem_range.1 h)), getElem?_eq_none, getElem?_eq_none]
    · rfl
    · rw [hframe.length]
      omega
    · rw [hgrid.1]
      omega

end Rows

end Terminal

end Qsh.Client
