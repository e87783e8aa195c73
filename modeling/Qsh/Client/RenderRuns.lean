import Qsh.Client.RenderText
import Qsh.Lib.Run

/-!
# Incremental rendering shows the frame

A renderer and the terminal it writes to, over whole runs: composed frames,
history lines, window changes, and the reset of the modes, in any order.  After
every `compose` the terminal shows the fitted frame, its cursor, and the modes of
the state, and a second `compose` of the same frame writes nothing.
-/

namespace Qsh.Client

open List Option ScreenRenderer

open Qsh.Lib (Run)
open Qsh.Lib.Escape (Emits scan)
open Qsh.Screen (Text Cell Modes ScreenState Effect WIDE WIDE_CONT)

namespace Terminal

/-- The terminal shows this frame. -/
structure Shows (f : Frame) (t : Terminal) : Prop where
  grid : t.grid = glyphs f
  row : t.row = f.cursorRow
  col : t.col = f.cursorCol
  wrapNext : t.wrapNext = false
  pen : t.pen = .default

section Compose

variable {W : Char → Nat} {t u : Terminal} {s : ScreenRenderer}

theorem Shown.eq_of_nil (h : Shown W t [] u) : u = t := by
  obtain ⟨tokens, htokens, rfl⟩ := h
  cases htokens
  rfl

/-! ## The parts of a draw -/

variable {previous : Option Frame} {frame : Frame} {rs : List Nat}

theorem writeRows_nil (h : ∀ r ∈ rs, rowSpans previous frame r = []) (pen : Option Pen) :
    writeRows previous frame pen rs = (pen, []) := by
  induction rs with
  | nil => rfl
  | cons r rs ih =>
    have hspans := h r mem_cons_self
    have hrest := ih fun r' hr' => h r' (mem_cons_of_mem r hr')
    simp only [writeRows, hspans, writeSpans, hrest, append_nil]

theorem count_eq_zero_iff :
    (rs.map fun r => (rowSpans previous frame r).length).sum = 0 ↔
      ∀ r ∈ rs, rowSpans previous frame r = [] := by
  induction rs with
  | nil => simp
  | cons r rs ih =>
    rw [map_cons, sum_cons, Nat.add_eq_zero_iff, ih, length_eq_zero_iff, forall_mem_cons]

theorem shown_writeCells (hspace : W ' ' = 1) (h : u.Sound)
    (hframe : FrameOk W frame) (hcols : frame.cols = u.cols) (hrows : frame.rows = u.rows)
    (full : Bool)
    (hprev : full = false → ∃ prev, s.drawn = some prev ∧ FrameOk W prev ∧
      prev.cols = frame.cols ∧ prev.rows = frame.rows ∧ u.grid = glyphs prev ∧
      u.pen = .default) :
    ∃ v, Shown W u (s.writeCells frame full).2 v ∧ v.grid = glyphs frame ∧ v.modes = u.modes ∧
      v.pen = .default ∧ ((s.writeCells frame full).1 = 0 → v = u) ∧
      (full = true → 0 < (s.writeCells frame full).1) := by
  have hgrid : GridOk frame.cols frame.rows u.grid := hcols ▸ hrows ▸ h.grid
  obtain ⟨previous, hprevious⟩ : ∃ previous, (if full then none else s.drawn) = previous :=
    ⟨_, rfl⟩
  have hknown : ∀ prev ∈ previous, full = false ∧ FrameOk W prev ∧ prev.cols = frame.cols ∧
      prev.rows = frame.rows ∧ u.grid = glyphs prev ∧ u.pen = .default := by
    intro prev hmem
    rw [← hprevious] at hmem
    cases full with
    | true => cases hmem
    | false =>
      obtain ⟨d, hd, hok⟩ := hprev rfl
      rw [if_neg Bool.false_ne_true, hd] at hmem
      cases hmem
      exact ⟨rfl, hok⟩
  have htracks : Tracks (previous.map fun _ => Pen.default) u.pen := by
    intro q hq
    obtain ⟨prev, hmem, rfl⟩ := map_eq_some_iff.1 hq
    exact (hknown prev hmem).2.2.2.2.2.symm
  obtain ⟨hsome, v, hv, hpaint⟩ := shown_writeRows hspace h hframe hcols hrows previous
    (range frame.rows) (fun r hr => mem_range.1 hr) htracks
  have hshown : v.grid = glyphs frame := by
    rw [hpaint.grid]
    exact paintRows_eq hframe hgrid fun prev hmem =>
      ⟨(hknown prev hmem).2.1, (hknown prev hmem).2.2.1, (hknown prev hmem).2.2.2.1,
        (hknown prev hmem).2.2.2.2.1⟩
  -- in a full repaint every row is a run
  have hfull : previous = none → ∀ r < frame.rows, rowSpans previous frame r ≠ [] := by
    rintro rfl r hr
    obtain ⟨-, hlen, -⟩ := hframe.row hr
    have hpos := hframe.cols
    have hne : (frame.row r).isEmpty = false := by
      rw [isEmpty_eq_false_iff]
      exact ne_nil_of_length_pos (by omega)
    rw [rowSpans, hne, if_neg Bool.false_ne_true]
    exact cons_ne_nil _ _
  have hpen : (writeRows previous frame (previous.map fun _ => Pen.default)
      (range frame.rows)).1.isSome := by
    refine hsome ?_
    cases previous with
    | none => exact .inr ⟨0, mem_range.2 hframe.rows, hfull rfl 0 hframe.rows⟩
    | some prev => exact .inl rfl
  unfold writeCells
  simp only [hprevious]
  have hruns : (((range frame.rows).map fun r => (rowSpans previous frame r).length).sum = 0 →
      ∀ r ∈ range frame.rows, rowSpans previous frame r = []) := count_eq_zero_iff.1
  obtain ⟨p, hp⟩ := isSome_iff_exists.1 hpen
  have hpv : p = v.pen := hpaint.tracks p hp
  have hcount : full = true →
      0 < ((range frame.rows).map fun r => (rowSpans previous frame r).length).sum := by
    rintro rfl
    refine Nat.pos_of_ne_zero fun hzero => ?_
    exact hfull hprevious.symm 0 hframe.rows (hruns hzero 0 (mem_range.2 hframe.rows))
  rw [hp]
  by_cases hdefault : p = .default
  · rw [any_some, if_neg (by simpa using hdefault), append_nil]
    refine ⟨v, hv, hshown, hpaint.modes, hpv ▸ hdefault, fun hzero => ?_, hcount⟩
    rw [writeRows_nil (hruns hzero)] at hv
    exact hv.eq_of_nil
  rw [any_some, if_pos (decide_eq_true hdefault)]
  refine ⟨_, hv.append shown_resetPen, hshown, hpaint.modes, rfl, fun hzero => ?_, hcount⟩
  -- without a run the pen is still the default one
  rw [writeRows_nil (hruns hzero)] at hp
  obtain ⟨-, -, rfl⟩ := map_eq_some_iff.1 hp
  exact absurd rfl hdefault

theorem harmless_firstScroll (s : ScreenRenderer) (rows : Nat) :
    Harmless W (s.firstScroll rows) := by
  rw [firstScroll]
  split
  · exact .nil
  refine (harmless_moveTo rows).append ?_
  generalize rows = n
  induction n with
  | zero => exact .nil
  | succ n ih =>
    rw [replicate_succ]
    exact Harmless.append (a := ['\n']) (harmless_control rfl (by decide)) ih

theorem flag_of_xor {a b c : UInt8} (h : (a ^^^ b) &&& c = 0) : a &&& c = b &&& c := by
  have hdistrib : (a ^^^ b) &&& c = (a &&& c) ^^^ (b &&& c) := by
    refine UInt8.toNat_inj.1 ?_
    rw [UInt8.toNat_and, UInt8.toNat_xor, UInt8.toNat_xor, UInt8.toNat_and, UInt8.toNat_and,
      Nat.and_xor_distrib_right]
  exact UInt8.xor_eq_zero_iff.1 (hdistrib ▸ h)

variable {state : ScreenState}

variable {cols rows : Nat}

theorem isFull_eq_false (h : s.isFull state cols rows = false) :
    ∃ d, s.drawn = some d ∧ d.cols = cols ∧ d.rows = rows ∧
      modeFlag s.modes ALT_SCREEN = modeFlag state.modes ALT_SCREEN := by
  rw [isFull, Bool.or_eq_false_iff] at h
  obtain ⟨hdrawn, halt⟩ := h
  cases hd : s.drawn with rw [hd] at hdrawn
  | none =>
    cases hdrawn
  | some d =>
    have hsize : (d.cols, d.rows) = (cols, rows) := by
      by_contra hne
      exact absurd (hdrawn.symm.trans (decide_eq_true hne)) Bool.false_ne_true
    refine ⟨d, rfl, congrArg Prod.fst hsize, congrArg Prod.snd hsize, ?_⟩
    rw [modeFlag, modeFlag, flag_of_xor (bne_eq_false_iff_eq.1 halt)]

theorem shown_flag {mode : Nat} {b on : Bool} {m : TerminalModes} (hmode : mode ≠ 1049)
    (hno : b = false → t.modes = m) (hyes : b = true → switched t.modes on mode = m) :
    Shown W t (if b then setMode mode on else []) { t with modes := m } := by
  cases b with
  | false =>
    rw [if_neg Bool.false_ne_true, ← hno rfl]
    exact .nil
  | true => exact hyes rfl ▸ shown_mode hmode on

/-! ## One draw -/

/-- The terminal shows what the renderer believes it does. -/
structure Synced (W : Char → Nat) (s : ScreenRenderer) (t : Terminal) : Prop where
  sound : t.Sound
  modes : t.modes = modesOf s.modes
  started : s.drawn.isSome → s.started = true
  drawn : ∀ f ∈ s.drawn, FrameOk W f ∧ f.cols = t.cols ∧ f.rows = t.rows ∧ Shows f t

/-- What the renderer may be given. -/
structure Inputs (W : Char → Nat) (state : ScreenState) (overlay : Option Overlay)
    (status : Option Text) (effects : List Effect) : Prop where
  state : StateOk W state
  overlay : ∀ o ∈ overlay, OverlayOk W o
  status : ∀ text ∈ status, StatusOk W text
  effects : ∀ e ∈ effects, e.IsValid

variable {overlay : Option Overlay} {status : Option Text} {effects : List Effect}

theorem shown_compose (hspace : W ' ' = 1) (h : Synced W s t)
    (hin : Inputs W state overlay status effects) :
    ∃ u, Shown W t (s.compose state overlay status effects (t.cols, t.rows)).2 u ∧
      u.modes = modesOf state.modes ∧
      Shows (Frame.fit state overlay status t.cols t.rows) u := by
  have hframe := Frame.fit_ok hspace hin.state hin.overlay hin.status h.sound.cols h.sound.rows
  have hcols : max t.cols 1 = t.cols := max_eq_left h.sound.cols
  have hrows : max t.rows 1 = t.rows := max_eq_left h.sound.rows
  have hsize : (Frame.fit state overlay status t.cols t.rows).cols = t.cols ∧
    (Frame.fit state overlay status t.cols t.rows).rows = t.rows := ⟨rfl, rfl⟩
  unfold ScreenRenderer.compose
  simp only [hcols, hrows]
  generalize Frame.fit state overlay status t.cols t.rows = frame at hframe hsize
  -- the first scroll and the modes
  obtain ⟨t1, ht1, hmodes1⟩ := harmless_firstScroll (W := W) s t.rows t h.sound
  have hkept1 := ht1.kept h.sound
  obtain ⟨t2, ht2, hmodes2, hsame2⟩ := shown_modeChanges (W := W) state.modes
    (hmodes1.trans h.modes)
  have hkept2 := hkept1.trans (ht2.kept hkept1.sound)
  -- a known frame is still there
  have hknown : s.isFull state t.cols t.rows = false → ∃ d, s.drawn = some d ∧ FrameOk W d ∧
      d.cols = frame.cols ∧ d.rows = frame.rows ∧ Shows d t2 := by
    intro hfull
    obtain ⟨d, hd, hdcols, hdrows, halt⟩ := isFull_eq_false hfull
    obtain ⟨hok, -, -, hshows⟩ := h.drawn d hd
    have hstart : s.started = true := h.started (by rw [hd]; rfl)
    rw [firstScroll, if_pos hstart] at ht1
    have heq : t2 = { t with modes := modesOf state.modes } := by
      rw [hsame2 halt, ht1.eq_of_nil]
    refine ⟨d, hd, hok, hdcols.trans hsize.1.symm, hdrows.trans hsize.2.symm, ?_⟩
    rw [heq]
    exact { hshows with }
  -- the cells, with the cursor hidden or not
  obtain ⟨hide, hhide⟩ : ∃ hide, (decide (1 < (s.writeCells frame
      (s.isFull state t.cols t.rows)).1) && !modeFlag state.modes CURSOR_HIDDEN) = hide := ⟨_, rfl⟩
  have hhidden : hide = true → modeFlag state.modes CURSOR_HIDDEN = false := by
    rintro rfl
    rw [Bool.and_eq_true, Bool.not_eq_true'] at hhide
    exact hhide.2
  simp only [hhide]
  generalize hm : ({ modesOf state.modes with hidden := true } : TerminalModes) = hiddenModes
  have ht3 : Shown W t2 (if hide then setMode 25 false else [])
      { t2 with modes := if hide then hiddenModes else modesOf state.modes } := by
    refine shown_flag (by decide) (fun hno => ?_) fun hyes => ?_
    · rw [hno, hmodes2]
      rfl
    · rw [hyes, hmodes2, ← hm]
      rfl
  have hkept3 := hkept2.trans
    (kept_modes hkept2.sound (if hide then hiddenModes else modesOf state.modes))
  obtain ⟨t4, ht4, hgrid4, hmodes4, hpen4, hzero4, hfull4⟩ := shown_writeCells hspace
    hkept3.sound hframe
    (hsize.1.trans hkept3.cols.symm) (hsize.2.trans hkept3.rows.symm) (s := s)
    (s.isFull state t.cols t.rows) (fun hfull => by
      obtain ⟨d, hd, hok, hdcols, hdrows, hshows⟩ := hknown hfull
      exact ⟨d, hd, hok, hdcols, hdrows, hshows.grid, hshows.pen⟩)
  have hkept4 := hkept3.trans (ht4.kept hkept3.sound)
  -- the cursor
  have ht5 : ∃ t5, Shown W t4 (if 0 < (s.writeCells frame (s.isFull state t.cols t.rows)).1 ∨
      (s.drawn.all fun d =>
        decide ((d.cursorRow, d.cursorCol) ≠ (frame.cursorRow, frame.cursorCol))) =
        true ∨ s.isFull state t.cols t.rows = true then cup frame.cursorRow frame.cursorCol else [])
      t5 ∧ Shows frame t5 ∧ t5.modes = t4.modes := by
    split
    · refine ⟨_, shown_cup (hkept4.rows ▸ hsize.2 ▸ hframe.cursorRow)
        (hkept4.cols ▸ hsize.1 ▸ hframe.cursorCol), ⟨hgrid4, rfl, rfl, rfl, hpen4⟩, rfl⟩
    rename_i hno
    rw [not_or, not_or] at hno
    obtain ⟨d, hd, -, -, -, hshows⟩ := hknown (Bool.not_eq_true _ ▸ hno.2.2)
    have hmoved := hno.2.1
    rw [hd] at hmoved
    have hcursor : (d.cursorRow, d.cursorCol) = (frame.cursorRow, frame.cursorCol) := by
      by_contra hne
      exact hmoved (decide_eq_true hne)
    have heq := hzero4 (by omega)
    refine ⟨t4, .nil, ⟨hgrid4, ?_, ?_, ?_, hpen4⟩, rfl⟩
    · rw [heq]
      exact hshows.row.trans (congrArg Prod.fst hcursor)
    · rw [heq]
      exact hshows.col.trans (congrArg Prod.snd hcursor)
    · rw [heq]
      exact hshows.wrapNext
  obtain ⟨t5, ht5, hshows5, hmodes5⟩ := ht5
  -- the cursor is shown again
  have ht6 : Shown W t5 (if hide then setMode 25 true else [])
      { t5 with modes := modesOf state.modes } := by
    have hmodes : t5.modes = if hide then hiddenModes else modesOf state.modes :=
      hmodes5.trans hmodes4
    refine shown_flag (by decide) (fun hno => ?_) fun hyes => ?_
    · rw [hmodes, hno]
      rfl
    rw [hmodes, hyes, if_pos rfl, ← hm]
    show ({ modesOf state.modes with hidden := false } : TerminalModes) = _
    rw [← hhidden hyes]
    rfl
  refine ⟨{ t5 with modes := modesOf state.modes },
    (((((ht1.append ht2).append ht3).append ht4).append ht5).append ht6).append
      (shown_writeEffects hin.effects), rfl, ?_⟩
  exact { hshows5 with }

theorem Synced.compose (hspace : W ' ' = 1) (h : Synced W s t)
    (hin : Inputs W state overlay status effects)
    (hu : Shown W t (s.compose state overlay status effects (t.cols, t.rows)).2 u)
    (hmodes : u.modes = modesOf state.modes)
    (hshows : Shows (Frame.fit state overlay status t.cols t.rows) u) :
    Synced W (s.compose state overlay status effects (t.cols, t.rows)).1 u := by
  have hcols : max t.cols 1 = t.cols := max_eq_left h.sound.cols
  have hrows : max t.rows 1 = t.rows := max_eq_left h.sound.rows
  have hkept := hu.kept h.sound
  refine ⟨hkept.sound, hmodes, fun _ => rfl, fun f hf => ?_⟩
  have hf : f = Frame.fit state overlay status (max t.cols 1) (max t.rows 1) :=
    (some.inj hf).symm
  rw [hcols, hrows] at hf
  subst hf
  exact ⟨Frame.fit_ok hspace hin.state hin.overlay hin.status h.sound.cols h.sound.rows,
    hkept.cols.symm, hkept.rows.symm, hshows⟩

theorem compose_unchanged (hcols : 0 < cols) (hrows : 0 < rows) (hstarted : s.started = true)
    (hdrawn : s.drawn = some (Frame.fit state overlay status cols rows))
    (hmodes : s.modes = state.modes) :
    (s.compose state overlay status [] (cols, rows)).2 = [] := by
  have hc : max cols 1 = cols := max_eq_left hcols
  have hr : max rows 1 = rows := max_eq_left hrows
  have hsize : (Frame.fit state overlay status cols rows).cols = cols ∧
    (Frame.fit state overlay status cols rows).rows = rows := ⟨rfl, rfl⟩
  unfold ScreenRenderer.compose
  simp only [hc, hr]
  generalize Frame.fit state overlay status cols rows = frame at hdrawn hsize
  have hfull : s.isFull state cols rows = false := by
    rw [isFull, hdrawn, hmodes, UInt8.xor_self, hsize.1.symm, hsize.2.symm]
    simp
  have hspans : ∀ r ∈ range frame.rows, rowSpans (some frame) frame r = [] :=
    fun r _ => changedSpans_self (frame.row r)
  have hcells : s.writeCells frame false = (0, []) := by
    unfold writeCells
    simp only [Bool.false_eq_true, if_false, hdrawn, map_some, writeRows_nil hspans]
    have hsum : ((range frame.rows).map fun r =>
        (rowSpans (some frame) frame r).length).sum = 0 := count_eq_zero_iff.2 hspans
    rw [hsum]
    rfl
  have hflag : ∀ bit text, changeFlag state.modes state.modes bit text = [] :=
    fun bit text => if_neg fun h => h rfl
  have hparam : ∀ p : Option Nat, changeParam false p p = [] := fun p => rfl
  have hmode : modeChanges state.modes state.modes = [] := by
    simp only [modeChanges, hflag, bne_self_eq_false, hparam, append_nil]
  rw [hfull, hcells, firstScroll, if_pos hstarted, writeModes, hmodes, hmode]
  simp [hdrawn, writeEffects]

/-! ## History lines and the reset -/

theorem Synced.forget (hsound : u.Sound) (hmodes : u.modes = modesOf s.modes)
    (hdrawn : s.drawn = none) : Synced W s u :=
  ⟨hsound, hmodes, fun h => absurd h (by rw [hdrawn]; decide), fun f hf => by
    rw [hdrawn] at hf
    cases hf⟩

theorem harmless_historyLine {text : Text} (h : Harmless W text) (rows : Nat) :
    Harmless W (historyLine rows text) := by
  have htop : Harmless W ['\x1b', '[', '1', ';', '1', 'H'] :=
    harmless_csi (show Emits _ [.csi false [1, 1] 'H'] from rfl)
  have herase : Harmless W ['\x1b', '[', '2', 'K'] :=
    harmless_csi (show Emits _ [.csi false [2] 'K'] from rfl)
  have hmove := (harmless_moveTo (W := W) rows).append
    (harmless_control (c := '\n') rfl (by decide))
  have hall := ((((htop.append harmless_resetPen).append herase).append h).append
    harmless_resetPen).append hmove
  simp only [append_assoc, cons_append, nil_append] at hall
  simp only [historyLine, append_assoc, cons_append, nil_append]
  exact hall

theorem harmless_texts (lines : List Text) (skipped : Nat) :
    ∀ text ∈ lines.map sanitizeHistoryLine ++ (if 0 < skipped then [skippedLine skipped] else []),
      Harmless W text := by
  intro text hmem
  rcases mem_append.1 hmem with hmem | hmem
  · obtain ⟨line, -, rfl⟩ := List.mem_map.1 hmem
    exact harmless_sanitizeFrom .text line
  split at hmem
  · rw [mem_singleton.1 hmem]
    exact harmless_skippedLine skipped
  · cases hmem

def historyModes (m : Modes) : TerminalModes :=
  { modesOf m with alternate := false, hidden := true, autowrap := false }

theorem shown_screen (flag on : Bool) (h : flag = true → t.modes.alternate = !on) :
    ∃ a, Shown W t (if flag then setMode 1049 on else []) a ∧
      a.modes = { t.modes with alternate := if flag then on else t.modes.alternate } := by
  cases flag with
  | false => exact ⟨t, .nil, rfl⟩
  | true =>
    refine ⟨_, shown_setMode 1049 on, ?_⟩
    rw [setPrivate, if_pos rfl, h rfl]
    cases on <;> rfl

theorem shown_historyStart (h : t.modes = modesOf s.modes) :
    ∃ u, Shown W t ((if modeFlag s.modes ALT_SCREEN then setMode 1049 false else []) ++
      setMode 25 false ++ setMode 7 false) u ∧ u.modes = historyModes s.modes := by
  have halt : t.modes.alternate = modeFlag s.modes ALT_SCREEN := by
    rw [h]
    rfl
  obtain ⟨a, ha, hmodes⟩ := shown_screen (W := W) (t := t) _ false halt.trans
  have hprimary : (if modeFlag s.modes ALT_SCREEN then false else t.modes.alternate) = false := by
    rw [halt]
    cases modeFlag s.modes ALT_SCREEN <;> rfl
  rw [hprimary, h] at hmodes
  have hhide := shown_mode (W := W) (t := a) (show 25 ≠ 1049 by decide) false
  have hwrap := shown_mode (W := W) (t := { a with modes := switched a.modes false 25 })
    (show 7 ≠ 1049 by decide) false
  refine ⟨_, (ha.append hhide).append hwrap, ?_⟩
  rw [hmodes]
  rfl

theorem shown_historyEnd (h : t.modes = historyModes s.modes) :
    ∃ u, Shown W t (setMode 7 true ++
      (if modeFlag s.modes ALT_SCREEN then setMode 1049 true else []) ++
      if modeFlag s.modes CURSOR_HIDDEN then [] else setMode 25 true) u ∧
      u.modes = modesOf s.modes := by
  have hwrap := shown_mode (W := W) (t := t) (show 7 ≠ 1049 by decide) true
  have hmodes : switched t.modes true 7 =
      { modesOf s.modes with alternate := false, hidden := true } := by
    rw [h]
    rfl
  rw [hmodes] at hwrap
  obtain ⟨a, ha, hmodes⟩ := shown_screen (W := W)
    (t := { t with modes := { modesOf s.modes with alternate := false, hidden := true } })
    (modeFlag s.modes ALT_SCREEN) true fun _ => rfl
  have halt : (if modeFlag s.modes ALT_SCREEN then true else false) =
      modeFlag s.modes ALT_SCREEN := by
    cases modeFlag s.modes ALT_SCREEN <;> rfl
  replace hmodes : a.modes = { modesOf s.modes with hidden := true } := by
    rw [hmodes, halt]
    rfl
  cases hhidden : modeFlag s.modes CURSOR_HIDDEN with
  | true =>
    refine ⟨a, (hwrap.append ha).append .nil, ?_⟩
    rw [hmodes, ← hhidden]
    rfl
  | false =>
    refine ⟨_, (hwrap.append ha).append (shown_mode (show 25 ≠ 1049 by decide) true), ?_⟩
    rw [hmodes]
    show ({ modesOf s.modes with hidden := false } : TerminalModes) = _
    rw [← hhidden]
    rfl

theorem shown_history (h : Synced W s t) (lines : List Text) (skipped : Nat) :
    ∃ u, Shown W t (s.history lines skipped (t.cols, t.rows)).2 u ∧
      Synced W (s.history lines skipped (t.cols, t.rows)).1 u := by
  have htexts := harmless_texts (W := W) lines skipped
  unfold ScreenRenderer.history
  generalize lines.map sanitizeHistoryLine ++
    (if 0 < skipped then [skippedLine skipped] else []) = texts at htexts
  by_cases hnone : texts = []
  · rw [if_pos hnone]
    exact ⟨t, .nil, h⟩
  rw [if_neg hnone]
  by_cases hstarted : s.started = false
  · rw [if_pos hstarted]
    have hdrawn : s.drawn = none := by
      cases hd : s.drawn with
      | none => rfl
      | some d =>
        have hyes := h.started (by rw [hd]; rfl)
        rw [hstarted] at hyes
        cases hyes
    obtain ⟨u, hu, hmodes⟩ := Harmless.flatMap (W := W)
      (f := fun t => resetPen ++ t ++ resetPen ++ ['\r', '\n'])
      (fun text hmem => ((harmless_resetPen.append (htexts text hmem)).append
        harmless_resetPen).append (Harmless.append (a := ['\r'])
          (harmless_control rfl (by decide)) (harmless_control rfl (by decide)))) t h.sound
    exact ⟨u, hu, .forget (hu.kept h.sound).sound (hmodes.trans h.modes) hdrawn⟩
  rw [if_neg hstarted]
  obtain ⟨a, ha, hma⟩ := shown_historyStart (W := W) h.modes
  obtain ⟨b, hb, hmb⟩ := Harmless.flatMap (W := W)
    (fun text hmem => harmless_historyLine (htexts text hmem) (max t.rows 1)) a
    (ha.kept h.sound).sound
  obtain ⟨c, hc, hmc⟩ := shown_historyEnd (W := W) (hmb.trans hma)
  have hall := (ha.append hb).append hc
  refine ⟨c, ?_, .forget (hall.kept h.sound).sound hmc rfl⟩
  simp only [append_assoc] at hall ⊢
  exact hall

theorem shown_reset (h : Synced W s t) :
    ∃ u, Shown W t s.reset.2 u ∧ Synced W s.reset.1 u := by
  rw [ScreenRenderer.reset]
  split
  · obtain ⟨u, hu, hmodes, -⟩ := shown_modeChanges (W := W) .none h.modes
    have hall := hu.append shown_resetPen
    exact ⟨_, hall, .forget (hall.kept h.sound).sound hmodes rfl⟩
  · exact ⟨t, .nil, .forget h.sound h.modes rfl⟩

end Compose

end Terminal

/-! ## Runs -/

/-- A renderer and the terminal it writes to. -/
structure Display where
  renderer : ScreenRenderer
  terminal : Terminal
  /-- Where in a control sequence the terminal is. -/
  parser : Lib.Escape.State

inductive DisplayOp
  /-- Draw a state. -/
  | compose (state : ScreenState) (overlay : Option Overlay) (status : Option Text)
      (effects : List Effect)
  /-- Put lines into the scrollback. -/
  | history (lines : List Text) (skipped : Nat)
  /-- Something else wrote to the terminal. -/
  | invalidate
  /-- Put the modes back. -/
  | reset
  /-- The window changed: the terminal shows anything, and the renderer trusts
  nothing that was drawn. -/
  | resize (terminal : Terminal)

namespace Display

def start (t : Terminal) : Display where
  renderer := .new
  terminal := t
  parser := .ground

def write (W : Char → Nat) (d : Display) (drawn : ScreenRenderer × Text) : Option Display := do
  let text ← Text.fromUtf8 drawn.2.bytes
  let read := scan d.parser text
  return { renderer := drawn.1
           terminal := read.1.foldl (Terminal.exec W) d.terminal
           parser := read.2 }

def size (d : Display) : Nat × Nat :=
  (d.terminal.cols, d.terminal.rows)

def step (W : Char → Nat) (d : Display) : DisplayOp → Option Display
  | .compose state overlay status effects =>
      d.write W (d.renderer.compose state overlay status effects d.size)
  | .history lines skipped => d.write W (d.renderer.history lines skipped d.size)
  | .invalidate => some { d with renderer := d.renderer.invalidate }
  | .reset => d.write W d.renderer.reset
  | .resize terminal => some { d with renderer := d.renderer.invalidate, terminal }

/-- What is drawn is well formed, and a changed window keeps the modes. -/
def Expected (W : Char → Nat) (d : Display) : DisplayOp → Prop
  | .compose state overlay status effects => Terminal.Inputs W state overlay status effects
  | .resize terminal => terminal.Sound ∧ terminal.modes = d.terminal.modes
  | _ => True

structure Good (W : Char → Nat) (d : Display) : Prop where
  synced : Terminal.Synced W d.renderer d.terminal
  parser : d.parser = .ground

theorem write_eq (W : Char → Nat) (d : Display) (drawn : ScreenRenderer × Text) :
    d.write W drawn = some
      { renderer := drawn.1
        terminal := (scan d.parser drawn.2).1.foldl (Terminal.exec W) d.terminal
        parser := (scan d.parser drawn.2).2 } := by
  rw [write, Text.fromUtf8_bytes]
  rfl

variable {W : Char → Nat}

variable {d : Display}

theorem write_shown (hparser : d.parser = .ground) {drawn : ScreenRenderer × Text} {u : Terminal}
    (hu : Terminal.Shown W d.terminal drawn.2 u) :
    d.write W drawn = some { renderer := drawn.1, terminal := u, parser := .ground } := by
  obtain ⟨tokens, htokens, rfl⟩ := hu
  rw [write_eq, hparser, htokens]

theorem compose_step (hspace : W ' ' = 1) (h : Good W d)
    {state : ScreenState} {overlay : Option Overlay} {status : Option Text}
    {effects : List Effect} (hin : Terminal.Inputs W state overlay status effects) :
    ∃ u, d.step W (.compose state overlay status effects) =
        some { renderer := (d.renderer.compose state overlay status effects d.size).1
               terminal := u
               parser := .ground } ∧
      u.modes = Terminal.modesOf state.modes ∧
      Terminal.Shows (Frame.fit state overlay status d.terminal.cols d.terminal.rows) u ∧
      Terminal.Synced W (d.renderer.compose state overlay status effects d.size).1 u := by
  obtain ⟨u, hu, hmodes, hshows⟩ := Terminal.shown_compose hspace h.synced hin
  exact ⟨u, write_shown h.parser hu, hmodes, hshows, h.synced.compose hspace hin hu hmodes hshows⟩

theorem step_good (hspace : W ' ' = 1) {e : Display} {op : DisplayOp}
    (hop : Expected W d op) (hs : d.step W op = some e) (h : Good W d) : Good W e := by
  cases op with
  | compose state overlay status effects =>
    obtain ⟨u, hu, -, -, hsynced⟩ := compose_step hspace h hop
    cases hs.symm.trans hu
    exact ⟨hsynced, rfl⟩
  | history lines skipped =>
    obtain ⟨u, hu, hsynced⟩ := Terminal.shown_history h.synced lines skipped
    cases hs.symm.trans (write_shown h.parser hu)
    exact ⟨hsynced, rfl⟩
  | invalidate =>
    cases hs
    exact ⟨.forget h.synced.sound h.synced.modes rfl, h.parser⟩
  | reset =>
    obtain ⟨u, hu, hsynced⟩ := Terminal.shown_reset h.synced
    cases hs.symm.trans (write_shown h.parser hu)
    exact ⟨hsynced, rfl⟩
  | resize terminal =>
    cases hs
    exact ⟨.forget hop.1 (hop.2.trans h.synced.modes) rfl, h.parser⟩

/-- In every run, from a terminal that shows anything: after each draw the
terminal shows the fitted frame with its cursor and has the modes of the state,
and drawing the same frame once more writes nothing. -/
theorem compose_shows_frame {W : Char → Nat} (hspace : W ' ' = 1) {t : Terminal} (ht : t.Sound)
    (hmodes : t.modes = Terminal.modesOf .none) {ops : List DisplayOp} {d : Display}
    (hrun : Run (step W) (Expected W) (start t) ops d) {state : ScreenState}
    {overlay : Option Overlay} {status : Option Text} {effects : List Effect}
    (hin : Terminal.Inputs W state overlay status effects) :
    ∃ e, d.step W (.compose state overlay status effects) = some e ∧
      Terminal.Shows (Frame.fit state overlay status d.terminal.cols d.terminal.rows) e.terminal ∧
      e.terminal.modes = Terminal.modesOf state.modes ∧
      ∀ state' overlay' status', Frame.fit state' overlay' status' d.terminal.cols d.terminal.rows =
          Frame.fit state overlay status d.terminal.cols d.terminal.rows →
        state'.modes = state.modes →
        (e.renderer.compose state' overlay' status' [] d.size).2.bytes = [] := by
  have h : Good W d := hrun.invariant (fun _ _ _ hop hs h => step_good hspace hop hs h)
    ⟨.forget ht hmodes rfl, rfl⟩
  obtain ⟨u, hu, hmodes, hshows, -⟩ := compose_step hspace h hin
  refine ⟨_, hu, hshows, hmodes, fun state' overlay' status' hsame hmodes' => ?_⟩
  have hcols := h.synced.sound.cols
  have hrows := h.synced.sound.rows
  rw [size, Terminal.compose_unchanged hcols hrows rfl ?_ hmodes'.symm]
  · rfl
  · show some (Frame.fit state overlay status (max d.terminal.cols 1) (max d.terminal.rows 1)) = _
    rw [hsame, max_eq_left hcols, max_eq_left hrows]

def someWidths (c : Char) : Nat :=
  if 0x300 ≤ c.toNat ∧ c.toNat < 0x370 then 0 else if 0x1100 ≤ c.toNat then 2 else 1

def shell : Terminal where
  cols := 6
  rows := 2
  grid :=
    [['$', ' ', 'q', 's', 'h', ' '].map fun c => .char [c] false .default, replicate 6 .blank]
  other := replicate 2 (replicate 6 .blank)
  row := 1
  col := 0
  wrapNext := false
  pen := .default
  saved := (0, 0, .default)
  modes := Terminal.modesOf .none

def screenOf (cells : List Cell) (cursorCol : Nat) : ScreenState where
  rows := 2
  cols := 6
  cursorRow := 0
  cursorCol := cursorCol
  modes := .none
  grid :=
    [{ cells := cells ++ replicate (6 - cells.length) .blank, wrapped := false },
      { cells := replicate 6 .blank, wrapped := false }]

def cellOf (text : Text) (flags : UInt8) : Cell :=
  { Cell.blank with text, flags }

theorem shell_sound : shell.Sound where
  cols := by decide
  rows := by decide
  grid := by decide
  other := by decide
  row := by decide
  col := by decide
  saved := by decide

/-- A double-width character is drawn, and then a single-width one over it. -/
theorem compose_shows_frame_typed :
    ∃ d, Run (step someWidths) (Expected someWidths) (start shell)
        [.compose (screenOf [cellOf ['a'] BOLD, cellOf ['한'] WIDE, cellOf [] WIDE_CONT] 3) none none
          []] d ∧
      ∃ e, d.step someWidths
          (.compose (screenOf [cellOf ['a'] 0, cellOf ['b', '\u0301'] 0] 2) none none [.bell]) =
            some e ∧
        e.terminal.grid = [[.char ['a'] false .default, .char ['b', '\u0301'] false .default] ++
          replicate 4 .blank, replicate 6 .blank] ∧
        (e.terminal.row, e.terminal.col) = (0, 2) := by
  have hfirst : Terminal.Inputs someWidths
      (screenOf [cellOf ['a'] BOLD, cellOf ['한'] WIDE, cellOf [] WIDE_CONT] 3) none none [] :=
    ⟨by decide +kernel, by decide, by decide, by decide⟩
  have hnext : Terminal.Inputs someWidths
      (screenOf [cellOf ['a'] 0, cellOf ['b', '\u0301'] 0] 2) none none [.bell] :=
    ⟨by decide +kernel, by decide, by decide, by decide⟩
  have hrun : Run (step someWidths) (Expected someWidths) (start shell)
      [.compose (screenOf [cellOf ['a'] BOLD, cellOf ['한'] WIDE, cellOf [] WIDE_CONT] 3) none none
        []] _ :=
    .cons hfirst (write_eq someWidths (start shell) _) (.nil _)
  obtain ⟨e, he, hshows, -⟩ := compose_shows_frame (by decide) shell_sound rfl hrun hnext
  refine ⟨_, hrun, e, he, ?_, ?_⟩
  · rw [hshows.grid]
    decide +kernel
  · rw [hshows.row, hshows.col]
    decide +kernel

/-- A valid state whose double-width cell has no continuation: the next cell is
drawn one column to the right of its place. -/
theorem lone_wide_cell_shifts_row :
    (screenOf [cellOf ['한'] WIDE, cellOf ['b'] 0] 2).IsValid ∧ ∃ d, (start shell).step someWidths
          (.compose (screenOf [cellOf ['한'] WIDE, cellOf ['b'] 0] 2) none none []) = some d ∧
        d.terminal.grid ≠ Terminal.glyphs
          (Frame.fit (screenOf [cellOf ['한'] WIDE, cellOf ['b'] 0] 2) none none 6 2) := by
  refine ⟨by decide +kernel, _, write_eq someWidths (start shell) _, ?_⟩
  decide +kernel

end Display

end Qsh.Client
