import Mathlib.Tactic.FinCases
import Mathlib.Tactic.IntervalCases
import Qsh.Client.Render

/-!
# The local terminal

A terminal that the renderer writes to: two buffers, the cursor with its deferred
wrap, the pen, and the modes that the renderer switches.  Writing over one half of
a double-width character blanks the other half, so that a row never has a lone
half.

The table `W` of character widths is the terminal's own: 0 for a combining mark,
2 for a double-width character.  Of the control functions only those are here
that the renderer writes.
-/

namespace Qsh.Client

open List

open Qsh.Lib (Halves)
open Qsh.Lib.Escape (Token Emits num)
open Qsh.Screen (Text Color Modes)

/-! ## The state -/

inductive Glyph
  /-- The right half of the character before it. -/
  | tail
  | char (text : Text) (wide : Bool) (pen : Pen)
  deriving DecidableEq, Repr

namespace Glyph

def blank : Glyph :=
  .char [' '] false .default

def join (mark : Char) : Glyph → Glyph
  | .tail => .tail
  | .char text wide pen => .char (text ++ [mark]) wide pen

def isTail : Glyph → Bool
  | .tail => true
  | .char _ _ _ => false

def isWide : Glyph → Bool
  | .tail => false
  | .char _ wide _ => wide

end Glyph

def glyphHalves : Halves Glyph where
  lead := Glyph.isWide
  tail := Glyph.isTail
  blank := .blank
  lead_blank := rfl
  tail_blank := rfl

structure TerminalModes where
  alternate : Bool
  hidden : Bool
  appCursor : Bool
  appKeypad : Bool
  bracketedPaste : Bool
  autowrap : Bool
  mouse : Option Nat
  encoding : Option Nat
  deriving DecidableEq, Repr

/-- The local terminal, with its two buffers. -/
structure Terminal where
  cols : Nat
  rows : Nat
  /-- The buffer on the screen. -/
  grid : List (List Glyph)
  /-- The other one of the primary and the alternate buffer. -/
  other : List (List Glyph)
  row : Nat
  col : Nat
  /-- The last column is written, and the next character goes to the next row. -/
  wrapNext : Bool
  pen : Pen
  /-- The cursor and the pen at the switch to the alternate buffer. -/
  saved : Nat × Nat × Pen
  modes : TerminalModes
  deriving DecidableEq, Repr

namespace Terminal

/-! ## Characters -/

def erased (t : Terminal) : Glyph :=
  .char [' '] false { Pen.default with bg := t.pen.bg }

def lineFeed (t : Terminal) : Terminal :=
  if t.row + 1 < t.rows then { t with row := t.row + 1, wrapNext := false }
  else
    { t with
      grid := t.grid.drop 1 ++ [replicate t.cols t.erased]
      wrapNext := false }

def nextLine (t : Terminal) : Terminal :=
  { t with col := 0 }.lineFeed

/-- Writes glyphs at the cursor. -/
def put (t : Terminal) (items : List Glyph) : Terminal :=
  { t with
    grid := t.grid.modify t.row (glyphHalves.write · t.col items)
    col := min (t.col + items.length) (t.cols - 1)
    wrapNext := decide (t.cols ≤ t.col + items.length) }

def markCol (t : Terminal) : Nat :=
  let col := if t.wrapNext then t.col else t.col - 1
  if ((t.grid.getD t.row []).getD col .blank).isTail then col - 1 else col

def joinMark (t : Terminal) (mark : Char) : Terminal :=
  { t with grid := t.grid.modify t.row (·.modify t.markCol (Glyph.join mark)) }

def printNarrow (t : Terminal) (c : Char) : Terminal :=
  t.put [.char [c] false t.pen]

/-- Print a double-width character.  It does not start in the last column. -/
def printWide (t : Terminal) (c : Char) : Terminal :=
  let t := if t.cols ≤ t.col + 1 ∧ t.modes.autowrap then t.nextLine else t
  if t.col + 1 < t.cols then t.put [.char [c] true t.pen, .tail] else t

def wrap (t : Terminal) : Terminal :=
  if t.wrapNext ∧ t.modes.autowrap then t.nextLine else t

/-- A printed character, by its width. -/
def print (W : Char → Nat) (t : Terminal) (c : Char) : Terminal :=
  if W c = 0 then t.joinMark c
  else if W c = 1 then t.wrap.printNarrow c
  else t.wrap.printWide c

/-! ## Control functions -/

def penWith (p : Pen) (n : Nat) : Pen :=
  if n = 0 then .default
  else if n = 1 then { p with flags := p.flags ||| BOLD }
  else if n = 2 then { p with flags := p.flags ||| DIM }
  else if n = 3 then { p with flags := p.flags ||| ITALIC }
  else if n = 4 then { p with flags := p.flags ||| UNDERLINE }
  else if n = 7 then { p with flags := p.flags ||| INVERSE }
  else if 30 ≤ n ∧ n < 38 then { p with fg := .idx (UInt8.ofNat (n - 30)) }
  else if n = 39 then { p with fg := .default }
  else if 40 ≤ n ∧ n < 48 then { p with bg := .idx (UInt8.ofNat (n - 40)) }
  else if n = 49 then { p with bg := .default }
  else if 90 ≤ n ∧ n < 98 then { p with fg := .idx (UInt8.ofNat (n - 90 + 8)) }
  else if 100 ≤ n ∧ n < 108 then { p with bg := .idx (UInt8.ofNat (n - 100 + 8)) }
  else p

def sgr (p : Pen) : List Nat → Pen
  | 38 :: 5 :: i :: ps => sgr { p with fg := .idx (UInt8.ofNat i) } ps
  | 38 :: 2 :: r :: g :: b :: ps =>
      sgr { p with fg := .rgb (UInt8.ofNat r) (UInt8.ofNat g) (UInt8.ofNat b) } ps
  | 48 :: 5 :: i :: ps => sgr { p with bg := .idx (UInt8.ofNat i) } ps
  | 48 :: 2 :: r :: g :: b :: ps =>
      sgr { p with bg := .rgb (UInt8.ofNat r) (UInt8.ofNat g) (UInt8.ofNat b) } ps
  | n :: ps => sgr (penWith p n) ps
  | [] => p

def moveTo (t : Terminal) (row col : Nat) : Terminal :=
  { t with
    row := min (row - 1) (t.rows - 1)
    col := min (col - 1) (t.cols - 1)
    wrapNext := false }

def eraseFrom (t : Terminal) (col : Nat) : Terminal :=
  { t with
    grid := t.grid.modify t.row (glyphHalves.write · col (replicate (t.cols - col) t.erased)) }

def enterAlternate (t : Terminal) : Terminal :=
  { t with
    grid := replicate t.rows (replicate t.cols .blank)
    other := t.grid
    saved := (t.row, t.col, t.pen)
    modes := { t.modes with alternate := true } }

def leaveAlternate (t : Terminal) : Terminal :=
  { t with
    grid := t.other
    other := t.grid
    row := t.saved.1
    col := t.saved.2.1
    wrapNext := false
    pen := t.saved.2.2
    modes := { t.modes with alternate := false } }

def switched (m : TerminalModes) (on : Bool) (p : Nat) : TerminalModes :=
  if p = 1 then { m with appCursor := on }
  else if p = 7 then { m with autowrap := on }
  else if p = 25 then { m with hidden := !on }
  else if p = 2004 then { m with bracketedPaste := on }
  else if p = 9 ∨ p = 1000 ∨ p = 1002 ∨ p = 1003 then
    { m with mouse := if on then some p else none }
  else if p = 1005 ∨ p = 1006 then { m with encoding := if on then some p else none }
  else m

def setPrivate (on : Bool) (t : Terminal) (p : Nat) : Terminal :=
  if p = 1049 then
    if on = t.modes.alternate then t else if on then t.enterAlternate else t.leaveAlternate
  else { t with modes := switched t.modes on p }

/-- A control sequence. -/
def csi (t : Terminal) (isPrivate : Bool) (params : List Nat) (final : Char) : Terminal :=
  if isPrivate then
    if final = 'h' then params.foldl (setPrivate true) t
    else if final = 'l' then params.foldl (setPrivate false) t
    else t
  else if final = 'H' then t.moveTo (params.getD 0 1) (params.getD 1 1)
  else if final = 'm' then { t with pen := sgr t.pen params }
  else if final = 'K' ∧ params = [0] then t.eraseFrom t.col
  else if final = 'K' ∧ params = [2] then t.eraseFrom 0
  else t

def control (t : Terminal) (c : Char) : Terminal :=
  if c = '\n' then t.lineFeed
  else if c = '\r' then { t with col := 0, wrapNext := false }
  else t

def escape (t : Terminal) (c : Char) : Terminal :=
  if c = '=' then { t with modes := { t.modes with appKeypad := true } }
  else if c = '>' then { t with modes := { t.modes with appKeypad := false } }
  else t

/-- One token of the text. -/
def exec (W : Char → Nat) (t : Terminal) : Token → Terminal
  | .print c => t.print W c
  | .control c => t.control c
  | .escape c => t.escape c
  | .csi isPrivate params final => t.csi isPrivate params final
  | .osc => t

/-! ## The invariant -/

def GridOk (cols rows : Nat) (grid : List (List Glyph)) : Prop :=
  grid.length = rows ∧ ∀ row ∈ grid, row.length = cols ∧ glyphHalves.Paired false row

instance (cols rows : Nat) (grid : List (List Glyph)) : Decidable (GridOk cols rows grid) :=
  inferInstanceAs (Decidable (_ ∧ _))

/-- The buffers have their size, and no half of a wide character is alone. -/
structure Sound (t : Terminal) : Prop where
  cols : 0 < t.cols
  rows : 0 < t.rows
  grid : GridOk t.cols t.rows t.grid
  other : GridOk t.cols t.rows t.other
  row : t.row < t.rows
  col : t.col < t.cols
  saved : t.saved.1 < t.rows ∧ t.saved.2.1 < t.cols

structure Kept (t t' : Terminal) : Prop where
  sound : t'.Sound
  cols : t'.cols = t.cols
  rows : t'.rows = t.rows

structure Steady (t t' : Terminal) : Prop extends Kept t t' where
  modes : t'.modes = t.modes

variable {t : Terminal}

theorem Steady.refl (h : t.Sound) : Steady t t :=
  ⟨⟨h, rfl, rfl⟩, rfl⟩

theorem Kept.trans {u v : Terminal} (h : Kept t u) (h' : Kept u v) : Kept t v :=
  ⟨h'.sound, h'.cols.trans h.cols, h'.rows.trans h.rows⟩

theorem Steady.trans {u v : Terminal} (h : Steady t u) (h' : Steady u v) : Steady t v :=
  ⟨h.toKept.trans h'.toKept, h'.modes.trans h.modes⟩

theorem paired_replicate {g : Glyph} (hw : g.isWide = false) (ht : g.isTail = false) (n : Nat) :
    glyphHalves.Paired false (replicate n g) :=
  glyphHalves.paired_of_single fun _ ha => eq_of_mem_replicate ha ▸ ⟨hw, ht⟩

variable {cols rows : Nat} {grid : List (List Glyph)}

theorem GridOk.modify (h : GridOk cols rows grid) (r : Nat) {f : List Glyph → List Glyph}
    (hf : ∀ row, row.length = cols → glyphHalves.Paired false row →
      (f row).length = cols ∧ glyphHalves.Paired false (f row)) :
    GridOk cols rows (grid.modify r f) := by
  refine ⟨(length_modify ..).trans h.1, fun row hrow => ?_⟩
  obtain ⟨k, hk⟩ := mem_iff_getElem?.1 hrow
  rw [getElem?_modify] at hk
  obtain ⟨old, hold, rfl⟩ := Option.map_eq_some_iff.1 hk
  have hok := h.2 old (mem_of_getElem? hold)
  split
  · exact hf old hok.1 hok.2
  · exact hok

theorem GridOk.write (h : GridOk cols rows grid)
    (r col : Nat) {items : List Glyph} (hitems : glyphHalves.Paired false items)
    (hlen : col + items.length ≤ cols) :
    GridOk cols rows (grid.modify r (glyphHalves.write · col items)) := by
  refine h.modify r fun row hcols hrow => ⟨(glyphHalves.length_write row col items).trans hcols, ?_⟩
  exact glyphHalves.paired_write_at hrow hitems (by omega)

theorem gridOk_blank {g : Glyph} (hw : g.isWide = false) (ht : g.isTail = false)
    (cols rows : Nat) : GridOk cols rows (replicate rows (replicate cols g)) := by
  refine ⟨length_replicate, fun row hrow => ?_⟩
  rw [eq_of_mem_replicate hrow]
  exact ⟨length_replicate, paired_replicate hw ht cols⟩

section

variable (h : t.Sound)
include h

theorem lineFeed_steady : Steady t t.lineFeed := by
  rw [lineFeed]
  split
  · next hrow => exact ⟨⟨{ h with row := hrow }, rfl, rfl⟩, rfl⟩
  refine ⟨⟨{ h with grid := ⟨?_, ?_⟩ }, rfl, rfl⟩, rfl⟩
  · have hlen := h.grid.1
    have hrows := h.rows
    simp only [length_append, length_drop, length_singleton]
    omega
  · exact forall_mem_append.2 ⟨fun row hrow => h.grid.2 row (mem_of_mem_drop hrow),
      forall_mem_singleton.2 ⟨length_replicate, paired_replicate rfl rfl _⟩⟩

theorem nextLine_steady : Steady t t.nextLine := by
  have h' : Sound { t with col := 0 } := { h with col := h.cols }
  have hfeed := lineFeed_steady h'
  exact ⟨⟨hfeed.sound, hfeed.cols, hfeed.rows⟩, hfeed.modes⟩

theorem put_steady {items : List Glyph}
    (hitems : glyphHalves.Paired false items) (hlen : t.col + items.length ≤ t.cols) :
    Steady t (t.put items) := by
  refine ⟨⟨⟨h.cols, h.rows, h.grid.write t.row t.col hitems hlen, h.other, h.row, ?_, h.saved⟩, rfl,
    rfl⟩, rfl⟩
  have hcols := h.cols
  show min (t.col + items.length) (t.cols - 1) < t.cols
  omega

theorem joinMark_steady (mark : Char) :
    Steady t (t.joinMark mark) := by
  have hgrid : GridOk t.cols t.rows (t.joinMark mark).grid := by
    refine h.grid.modify t.row fun row hcols hrow => ⟨(length_modify ..).trans hcols, ?_⟩
    exact glyphHalves.paired_modify t.markCol (fun g => by cases g <;> rfl)
      (fun g => by cases g <;> rfl) hrow
  exact ⟨⟨{ h with grid := hgrid }, rfl, rfl⟩, rfl⟩

theorem printNarrow_steady (c : Char) :
    Steady t (t.printNarrow c) :=
  put_steady h (paired_replicate rfl rfl 1) h.col

theorem printWide_steady (c : Char) : Steady t (t.printWide c) := by
  rw [printWide]
  have hline : Steady t (if t.cols ≤ t.col + 1 ∧ t.modes.autowrap then t.nextLine else t) := by
    split
    · exact nextLine_steady h
    · exact .refl h
  generalize (if t.cols ≤ t.col + 1 ∧ t.modes.autowrap then t.nextLine else t) = u at hline ⊢
  split
  · next hroom =>
    refine hline.trans (put_steady hline.sound ?_ hroom)
    exact glyphHalves.paired_cons.2 ⟨rfl, rfl, glyphHalves.paired_cons.2
      ⟨rfl, rfl, glyphHalves.paired_nil⟩⟩
  · exact hline

theorem wrap_steady : Steady t t.wrap := by
  rw [wrap]
  split
  · exact nextLine_steady h
  · exact .refl h

end

theorem print_steady (W : Char → Nat) (h : t.Sound) (c : Char) :
    Steady t (t.print W c) := by
  have hwrap := wrap_steady h
  rw [print]
  split_ifs
  · exact joinMark_steady h c
  · exact hwrap.trans (printNarrow_steady hwrap.sound c)
  · exact hwrap.trans (printWide_steady hwrap.sound c)

section

variable (h : t.Sound)
include h

theorem moveTo_steady (row col : Nat) :
    Steady t (t.moveTo row col) := by
  have hrows := h.rows
  have hcols := h.cols
  refine ⟨⟨⟨hcols, hrows, h.grid, h.other, ?_, ?_, h.saved⟩, rfl, rfl⟩, rfl⟩
  · show min (row - 1) (t.rows - 1) < t.rows
    omega
  · show min (col - 1) (t.cols - 1) < t.cols
    omega

theorem eraseFrom_steady {col : Nat} (hcol : col < t.cols) :
    Steady t (t.eraseFrom col) := by
  have hgrid : GridOk t.cols t.rows (t.eraseFrom col).grid := by
    refine h.grid.write t.row col (paired_replicate rfl rfl _) ?_
    rw [length_replicate]
    omega
  exact ⟨⟨{ h with grid := hgrid }, rfl, rfl⟩, rfl⟩

theorem steady_pen (p : Pen) : Steady t { t with pen := p } :=
  ⟨⟨{ h with }, rfl, rfl⟩, rfl⟩

theorem kept_modes (m : TerminalModes) :
    Kept t { t with modes := m } :=
  ⟨{ h with }, rfl, rfl⟩

theorem control_steady (c : Char) : Steady t (t.control c) := by
  rw [control]
  split_ifs
  · exact lineFeed_steady h
  · exact ⟨⟨{ h with col := h.cols }, rfl, rfl⟩, rfl⟩
  · exact .refl h

theorem setPrivate_kept (on : Bool) (p : Nat) :
    Kept t (setPrivate on t p) := by
  rw [setPrivate]
  split_ifs
  · exact ⟨h, rfl, rfl⟩
  · exact ⟨⟨h.cols, h.rows, gridOk_blank rfl rfl _ _, h.grid, h.row, h.col, h.row, h.col⟩, rfl, rfl⟩
  · exact ⟨⟨h.cols, h.rows, h.other, h.grid, h.saved.1, h.saved.2, h.saved⟩, rfl, rfl⟩
  · exact kept_modes h _

theorem csi_steady (params : List Nat) (final : Char) :
    Steady t (t.csi false params final) := by
  rw [csi, if_neg Bool.false_ne_true]
  split_ifs
  · exact moveTo_steady h _ _
  · exact steady_pen h _
  · exact eraseFrom_steady h h.col
  · exact eraseFrom_steady h h.cols
  · exact .refl h

end

theorem exec_sound (W : Char → Nat) (h : t.Sound) (token : Token) :
    Kept t (t.exec W token) := by
  cases token with
  | print c => exact (print_steady W h c).toKept
  | control c => exact (control_steady h c).toKept
  | escape c =>
    show Kept t (t.escape c)
    rw [escape]
    split_ifs
    · exact kept_modes h _
    · exact kept_modes h _
    · exact ⟨h, rfl, rfl⟩
  | csi isPrivate params final =>
    cases isPrivate with
    | false => exact (csi_steady h params final).toKept
    | true =>
      have hfold : ∀ (on : Bool) (ps : List Nat) {u : Terminal}, u.Sound →
          Kept u (ps.foldl (setPrivate on) u) := by
        intro on ps
        induction ps with
        | nil => exact fun hu => ⟨hu, rfl, rfl⟩
        | cons p ps ih =>
          intro u hu
          have hone := setPrivate_kept hu on p
          exact hone.trans (ih hone.sound)
      show Kept t (t.csi true params final)
      rw [csi, if_pos rfl]
      split_ifs
      · exact hfold true params h
      · exact hfold false params h
      · exact ⟨h, rfl, rfl⟩
  | osc => exact ⟨h, rfl, rfl⟩

/-! ## What a text does -/

section Shown

variable {W : Char → Nat} {t u v : Terminal} {a b text : Text}

/-- The text takes `t` to `t'` and ends outside a sequence. -/
def Shown (W : Char → Nat) (t : Terminal) (text : Text) (t' : Terminal) : Prop :=
  ∃ tokens, Emits text tokens ∧ tokens.foldl (exec W) t = t'

theorem Shown.nil : Shown W t [] t :=
  ⟨[], .nil, rfl⟩

theorem Shown.append (h : Shown W t a u) (h' : Shown W u b v) : Shown W t (a ++ b) v := by
  obtain ⟨ta, ha, hu⟩ := h
  obtain ⟨tb, hb, hv⟩ := h'
  refine ⟨ta ++ tb, ha.append hb, ?_⟩
  rw [foldl_append, hu, hv]

theorem Shown.of_emits {token : Token} (h : Emits text [token]) :
    Shown W t text (t.exec W token) :=
  ⟨[token], h, rfl⟩

theorem Shown.kept (h : Shown W t text u) (ht : t.Sound) : Kept t u := by
  obtain ⟨tokens, -, rfl⟩ := h
  induction tokens generalizing t with
  | nil => exact ⟨ht, rfl, rfl⟩
  | cons token tokens ih =>
    have hone := exec_sound W ht token
    exact hone.trans (ih hone.sound)

theorem shown_control {c : Char} (hc : Lib.Escape.isControl c = true) (hesc : c ≠ '\x1b') :
    Shown W t [c] (t.control c) :=
  .of_emits (Lib.Escape.emits_control hc hesc)

theorem shown_osc (h : text.any Screen.isControl = false) : Shown W t (osc text) t :=
  .of_emits (Lib.Escape.emits_osc h)

theorem shown_cup {r c : Nat} (hr : r < t.rows) (hc : c < t.cols) :
    Shown W t (cup r c) { t with row := r, col := c, wrapNext := false } := by
  have htext : cup r c = Lib.Escape.csi false (r + 1) [c + 1] 'H' := by
    simp [cup, Lib.Escape.csi]
  have hmove : t.exec W (.csi false [r + 1, c + 1] 'H') =
      { t with row := r, col := c, wrapNext := false } := by
    show t.moveTo (r + 1) (c + 1) = _
    rw [moveTo, Nat.add_sub_cancel, Nat.add_sub_cancel, min_eq_left (by omega),
      min_eq_left (by omega)]
  rw [htext, ← hmove]
  exact .of_emits (Lib.Escape.emits_csi _ _ (by decide))

theorem shown_setMode (p : Nat) (on : Bool) :
    Shown W t (setMode p on) (setPrivate on t p) := by
  have htext : setMode p on = Lib.Escape.csi true p [] (if on then 'h' else 'l') := by
    simp [setMode, Lib.Escape.csi]
  rw [htext]
  cases on
  all_goals exact .of_emits (Lib.Escape.emits_csi _ _ (by decide))

/-! ### The pen -/

def colorNumbers (c : Color) (base bright ext : Nat) : List Nat :=
  match c with
  | .default => []
  | .idx i =>
      if i < 8 then [base + i.toNat]
      else if i < 16 then [bright + i.toNat - 8]
      else [ext, 5, i.toNat]
  | .rgb r g b => [ext, 2, r.toNat, g.toNat, b.toNat]

theorem color_eq (c : Color) (base bright ext : Nat) :
    color c base bright ext = (colorNumbers c base bright ext).flatMap (num ';') := by
  cases c with
  | default => rfl
  | idx i =>
    rw [color, colorNumbers]
    split_ifs <;> simp
  | rgb r g b => simp [color, colorNumbers]

def flagNumbers (flags : UInt8) (as : List (UInt8 × Nat)) : List Nat :=
  as.flatMap fun a => if flags &&& a.1 ≠ 0 then [a.2] else []

def penNumbers (p : Pen) : List Nat :=
  flagNumbers p.flags attributes ++ colorNumbers p.fg 30 90 38 ++ colorNumbers p.bg 40 100 48

theorem sgr_eq_csi (p : Pen) : p.sgr = Lib.Escape.csi false 0 (penNumbers p) 'm' := by
  have hflags : ∀ as : List (UInt8 × Nat),
      as.flatMap (fun a => if p.flags &&& a.1 ≠ 0 then num ';' a.2 else []) =
        (flagNumbers p.flags as).flatMap (num ';') := by
    intro as
    induction as with
    | nil => rfl
    | cons a as ih =>
      rw [flatMap_cons, ih, flagNumbers, flagNumbers, flatMap_cons, flatMap_append]
      split_ifs <;> simp
  simp only [Pen.sgr, hflags, color_eq, Lib.Escape.csi, penNumbers, flatMap_append, append_assoc]
  rfl

variable {p : Pen}

theorem sgr_flags (flags : UInt8) {as : List (UInt8 × Nat)} {ps : List Nat}
    (h : ∀ a ∈ as, ∀ q : Pen, ∀ rest,
      sgr q (a.2 :: rest) = sgr { q with flags := q.flags ||| a.1 } rest) :
    sgr p (flagNumbers flags as ++ ps) = sgr { p with
          flags := as.foldl (fun f a => if flags &&& a.1 ≠ 0 then f ||| a.1 else f) p.flags }
        ps := by
  induction as generalizing p with
  | nil => rfl
  | cons a as ih =>
    have hrest := fun b hb => h b (mem_cons_of_mem a hb)
    rw [flagNumbers, flatMap_cons, append_assoc, foldl_cons]
    split_ifs with hon
    · exact (h a mem_cons_self p _).trans (ih hrest)
    · exact ih hrest

theorem fold_attributes (flags : UInt8) :
    attributes.foldl (fun f a => if flags &&& a.1 ≠ 0 then f ||| a.1 else f) 0 =
      flags &&& (BOLD ||| DIM ||| ITALIC ||| UNDERLINE ||| INVERSE) := by
  revert flags
  exact Screen.forall_byte (by decide +kernel)

theorem sgr_color {s : Pen → Color → Pen} {base bright ext : Nat}
    (h8 : ∀ p k ps, k < 8 → sgr p ((base + k) :: ps) = sgr (s p (.idx (UInt8.ofNat k))) ps)
    (h16 : ∀ p k ps, 8 ≤ k → k < 16 →
      sgr p ((bright + k - 8) :: ps) = sgr (s p (.idx (UInt8.ofNat k))) ps)
    (hidx : ∀ p i ps, sgr p (ext :: 5 :: i :: ps) = sgr (s p (.idx (UInt8.ofNat i))) ps)
    (hrgb : ∀ p r g b ps, sgr p (ext :: 2 :: r :: g :: b :: ps) =
      sgr (s p (.rgb (UInt8.ofNat r) (UInt8.ofNat g) (UInt8.ofNat b))) ps)
    (p : Pen) (c : Color) (ps : List Nat) :
    sgr p (colorNumbers c base bright ext ++ ps) = sgr (if c = .default then p else s p c) ps := by
  cases c with
  | default => rfl
  | idx i =>
    rw [if_neg (show ¬ Color.idx i = .default by simp), colorNumbers]
    split_ifs with hlow hhigh
    · exact (h8 p i.toNat ps (UInt8.lt_iff_toNat_lt.1 hlow)).trans (by rw [UInt8.ofNat_toNat])
    · exact (h16 p i.toNat ps (Nat.le_of_not_lt hlow) (UInt8.lt_iff_toNat_lt.1 hhigh)).trans
        (by rw [UInt8.ofNat_toNat])
    · exact (hidx p i.toNat ps).trans (by rw [UInt8.ofNat_toNat])
  | rgb r g b =>
    rw [if_neg (show ¬ Color.rgb r g b = .default by simp)]
    exact (hrgb p _ _ _ ps).trans (by rw [UInt8.ofNat_toNat, UInt8.ofNat_toNat, UInt8.ofNat_toNat])

theorem sgr_fg (p : Pen) (c : Color) (ps : List Nat) :
    sgr p (colorNumbers c 30 90 38 ++ ps) =
      sgr (if c = .default then p else { p with fg := c }) ps := by
  refine sgr_color (s := fun p c => { p with fg := c }) (fun p k ps hk => ?_)
    (fun p k ps hlow hhigh => ?_) (fun _ _ _ => rfl) (fun _ _ _ _ _ => rfl) p c ps
  all_goals interval_cases k <;> rfl

theorem sgr_bg (p : Pen) (c : Color) (ps : List Nat) :
    sgr p (colorNumbers c 40 100 48 ++ ps) =
      sgr (if c = .default then p else { p with bg := c }) ps := by
  refine sgr_color (s := fun p c => { p with bg := c }) (fun p k ps hk => ?_)
    (fun p k ps hlow hhigh => ?_) (fun _ _ _ => rfl) (fun _ _ _ _ _ => rfl) p c ps
  all_goals interval_cases k <;> rfl

def IsPen (p : Pen) : Prop :=
  p.flags &&& (BOLD ||| DIM ||| ITALIC ||| UNDERLINE ||| INVERSE) = p.flags

theorem isPen_of (cell : Screen.Cell) : IsPen (Pen.of cell) := by
  rw [IsPen, Pen.of]
  rw [UInt8.and_assoc, UInt8.and_self]

theorem isPen_default : IsPen .default :=
  rfl

theorem sgr_penNumbers (hp : IsPen p) (q : Pen) : sgr q (0 :: penNumbers p) = p := by
  have hset : ∀ a ∈ attributes, ∀ q : Pen, ∀ rest,
      sgr q (a.2 :: rest) = sgr { q with flags := q.flags ||| a.1 } rest := by
    intro a ha q rest
    fin_cases ha <;> rfl
  have hstart : sgr q (0 :: penNumbers p) = sgr .default (penNumbers p) := rfl
  rw [hstart, penNumbers, append_assoc, sgr_flags p.flags hset, sgr_fg,
    ← append_nil (colorNumbers p.bg 40 100 48), sgr_bg]
  have hflags := fold_attributes p.flags
  rw [hp] at hflags
  rw [show (Pen.default.flags) = 0 from rfl, hflags, sgr]
  obtain ⟨fg, bg, flags⟩ := p
  cases fg <;> cases bg <;> rfl

theorem shown_sgr (hp : IsPen p) : Shown W t p.sgr { t with pen := p } := by
  have hexec : t.exec W (.csi false (0 :: penNumbers p) 'm') = { t with pen := p } := by
    show { t with pen := sgr t.pen (0 :: penNumbers p) } = _
    rw [sgr_penNumbers hp]
  rw [sgr_eq_csi, ← hexec]
  exact .of_emits (Lib.Escape.emits_csi _ _ (by decide))

theorem shown_resetPen : Shown W t resetPen { t with pen := .default } :=
  .of_emits (show Emits resetPen [.csi false [0] 'm'] from rfl)

theorem shown_erase : Shown W t ['\x1b', '[', 'K'] (t.eraseFrom t.col) :=
  .of_emits (show Emits ['\x1b', '[', 'K'] [.csi false [0] 'K'] from rfl)

end Shown

end Terminal

end Qsh.Client
