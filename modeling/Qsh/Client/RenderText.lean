import Qsh.Client.RenderFit

/-!
# Modes, effects and history lines on the terminal

What the terminal does with the rest of the renderer's text.  The modes follow
those of the renderer (`shown_modeChanges`), an effect changes nothing on the
screen (`shown_writeEffects`), and a sanitized history line cannot switch a mode,
whatever the host sent (`harmless_sanitize`).
-/

namespace Qsh.Client

open List

open Qsh.Lib.Escape (Emits Token scan emits_print emits_csi)
open Qsh.Screen (Text Modes Effect)

namespace Terminal

section Texts

variable {W : Char → Nat} {t u : Terminal}

/-! ## Modes -/

def modesOf (m : Modes) : TerminalModes where
  alternate := modeFlag m ALT_SCREEN
  hidden := modeFlag m CURSOR_HIDDEN
  appCursor := modeFlag m APP_CURSOR
  appKeypad := modeFlag m APP_KEYPAD
  bracketedPaste := modeFlag m BRACKETED_PASTE
  autowrap := true
  mouse := mouseParam m.mouseMode
  encoding := encodingParam m.mouseEncoding

variable {p : Nat}

theorem shown_mode (hp : p ≠ 1049) (on : Bool) :
    Shown W t (setMode p on) { t with modes := switched t.modes on p } := by
  have h := shown_setMode (W := W) (t := t) p on
  rwa [setPrivate, if_neg hp] at h

theorem shown_keypad (on : Bool) :
    Shown W t ['\x1b', if on then '=' else '>']
      { t with modes := { t.modes with appKeypad := on } } := by
  cases on
  · exact .of_emits (show Emits ['\x1b', '>'] [.escape '>'] from rfl)
  · exact .of_emits (show Emits ['\x1b', '='] [.escape '='] from rfl)

theorem shown_changeFlag (old new : Modes) (bit : UInt8) (text : Bool → Text)
    (set : Bool → TerminalModes)
    (htext : Shown W t (text (modeFlag new bit)) { t with modes := set (modeFlag new bit) })
    (hold : set (modeFlag old bit) = t.modes) :
    Shown W t (changeFlag old new bit text) { t with modes := set (modeFlag new bit) } := by
  rw [changeFlag]
  split
  · exact htext
  rename_i hsame
  rw [← not_not.1 hsame, hold]
  exact .nil

theorem shown_changeParam (changed : Bool) (old new : Option Nat) (set : Option Nat → TerminalModes)
    (hset : ∀ p ∈ new, ∀ q, switched (set q) true p = set (some p))
    (hreset : ∀ p ∈ old, ∀ q, switched (set q) false p = set none)
    (hnum : ∀ p, p ∈ old ∨ p ∈ new → p ≠ 1049) (hmodes : t.modes = set old)
    (hchanged : changed = false → old = new) :
    Shown W t (changeParam changed old new) { t with modes := set new } := by
  rw [changeParam]
  cases changed with
  | false =>
    rw [← hchanged rfl, ← hmodes]
    exact .nil
  | true =>
    have hoff : Shown W t (old.elim [] (setMode · false)) { t with modes := set none } := by
      cases old with
      | none =>
        rw [← hmodes]
        exact .nil
      | some p =>
        have h := shown_mode (W := W) (t := t) (hnum p (.inl rfl)) false
        rwa [hmodes, hreset p rfl] at h
    have hon : Shown W { t with modes := set none } (new.elim [] (setMode · true))
        { t with modes := set new } := by
      cases new with
      | none => exact .nil
      | some p =>
        have h := shown_mode (W := W) (t := { t with modes := set none }) (hnum p (.inr rfl)) true
        rwa [hset p rfl] at h
    exact hoff.append hon

theorem shown_alternate {old : Modes} (new : Modes)
    (h : t.modes.alternate = modeFlag old ALT_SCREEN) :
    ∃ u, Shown W t (changeFlag old new ALT_SCREEN (setMode 1049)) u ∧
      u.modes = { t.modes with alternate := modeFlag new ALT_SCREEN } ∧
      (modeFlag old ALT_SCREEN = modeFlag new ALT_SCREEN → u = t) := by
  rw [changeFlag]
  split
  · next hchanged =>
    refine ⟨_, shown_setMode 1049 _, ?_, fun hsame => absurd hsame hchanged⟩
    rw [setPrivate, if_pos rfl, h, if_neg fun hsame => hchanged hsame.symm]
    cases modeFlag new ALT_SCREEN <;> rfl
  · next hsame =>
    refine ⟨t, .nil, ?_, fun _ => rfl⟩
    rw [← not_not.1 hsame, ← h]

theorem mouseParam_cases {mode : UInt8} (h : p ∈ mouseParam mode) :
    p = 9 ∨ p = 1000 ∨ p = 1002 ∨ p = 1003 := by
  rw [mouseParam] at h
  split_ifs at h <;> cases h <;> simp

theorem encodingParam_cases {enc : UInt8} (h : p ∈ encodingParam enc) :
    p = 1005 ∨ p = 1006 := by
  rw [encodingParam] at h
  split_ifs at h <;> cases h <;> simp

theorem shown_modeChanges {old : Modes} (new : Modes) (h : t.modes = modesOf old) :
    ∃ u, Shown W t (modeChanges old new) u ∧ u.modes = modesOf new ∧
      (modeFlag old ALT_SCREEN = modeFlag new ALT_SCREEN →
        u = { t with modes := modesOf new }) := by
  obtain ⟨u, hu, hmodes, hsame⟩ := shown_alternate (W := W) new
    (show t.modes.alternate = modeFlag old ALT_SCREEN by rw [h]; rfl)
  rw [h] at hmodes
  -- the modes after each of the changes
  let m₁ : TerminalModes := { u.modes with hidden := modeFlag new CURSOR_HIDDEN }
  let m₂ : TerminalModes := { m₁ with appCursor := modeFlag new APP_CURSOR }
  let m₃ : TerminalModes := { m₂ with appKeypad := modeFlag new APP_KEYPAD }
  let m₄ : TerminalModes := { m₃ with bracketedPaste := modeFlag new BRACKETED_PASTE }
  have hhidden := shown_changeFlag (W := W) (t := u) old new CURSOR_HIDDEN
    (fun is => setMode 25 !is)
    (fun is => { u.modes with hidden := is }) (by
      have hone := shown_mode (W := W) (t := u) (show 25 ≠ 1049 by decide)
        (!modeFlag new CURSOR_HIDDEN)
      have hswitch : switched u.modes (!modeFlag new CURSOR_HIDDEN) 25 =
          { u.modes with hidden := !!modeFlag new CURSOR_HIDDEN } := rfl
      rwa [hswitch, Bool.not_not] at hone) (by rw [hmodes]; rfl)
  have hcursor := shown_changeFlag (W := W) (t := { u with modes := m₁ }) old new APP_CURSOR
    (setMode 1) (fun is => { m₁ with appCursor := is })
    (shown_mode (show 1 ≠ 1049 by decide) _) (by simp only [m₁, hmodes]; rfl)
  have hkeypad := shown_changeFlag (W := W) (t := { u with modes := m₂ }) old new APP_KEYPAD
    (fun is => ['\x1b', if is then '=' else '>']) (fun is => { m₂ with appKeypad := is })
    (shown_keypad _) (by simp only [m₂, m₁, hmodes]; rfl)
  have hpaste := shown_changeFlag (W := W) (t := { u with modes := m₃ }) old new BRACKETED_PASTE
    (setMode 2004) (fun is => { m₃ with bracketedPaste := is })
    (shown_mode (show 2004 ≠ 1049 by decide) _) (by simp only [m₃, m₂, m₁, hmodes]; rfl)
  have hmouse := shown_changeParam (W := W) (t := { u with modes := m₄ })
    (old.mouseMode != new.mouseMode) (mouseParam old.mouseMode) (mouseParam new.mouseMode)
    (fun mouse => { modesOf new with
      mouse
      encoding := encodingParam old.mouseEncoding })
    (fun p hp q => by rcases mouseParam_cases hp with rfl | rfl | rfl | rfl <;> rfl)
    (fun p hp q => by rcases mouseParam_cases hp with rfl | rfl | rfl | rfl <;> rfl)
    (fun p hp => by rcases hp with hp | hp <;> have := mouseParam_cases hp <;> omega)
    (by simp only [m₄, m₃, m₂, m₁, hmodes]; rfl) (fun hno => by rw [bne_eq_false_iff_eq.1 hno])
  have hencoding := shown_changeParam (W := W)
    (t := { u with modes := { modesOf new with encoding := encodingParam old.mouseEncoding } })
    (old.mouseEncoding != new.mouseEncoding) (encodingParam old.mouseEncoding)
    (encodingParam new.mouseEncoding) (fun encoding => { modesOf new with encoding })
    (fun p hp q => by rcases encodingParam_cases hp with rfl | rfl <;> rfl)
    (fun p hp q => by rcases encodingParam_cases hp with rfl | rfl <;> rfl)
    (fun p hp => by rcases hp with hp | hp <;> have := encodingParam_cases hp <;> omega)
    rfl (fun hno => by rw [bne_eq_false_iff_eq.1 hno])
  refine ⟨{ u with modes := modesOf new },
    (((((hu.append hhidden).append hcursor).append hkeypad).append hpaste).append hmouse).append
      hencoding, rfl, fun hno => ?_⟩
  rw [hsame hno]

/-! ## Effects -/

variable {text seq : Text}

theorem plain_of_bytes {p : UInt8 → Bool} (hp : ∀ b, p b = true → 32 ≤ b.toNat ∧ b.toNat < 127)
    (h : text.bytes.all p = true) : text.any Screen.isControl = false := by
  rw [any_eq_false]
  intro c hc
  have hbytes : ∀ b ∈ String.utf8EncodeChar c, p b = true := fun b hb =>
    all_eq_true.1 h b (mem_flatMap.2 ⟨c, hc, hb⟩)
  have hval : c.toNat ≤ 127 ∧ 32 ≤ c.toNat ∧ c.toNat < 127 := by
    rw [String.utf8EncodeChar] at hbytes
    have htoNat : c.val.toNat = c.toNat := rfl
    rw [htoNat] at hbytes
    split_ifs at hbytes with h1 h2 h3
    all_goals
      have hone := hp _ (hbytes _ mem_cons_self)
      rw [UInt8.toNat_ofNat'] at hone
      omega
  simp only [Screen.isControl, Bool.or_eq_true, decide_eq_true_eq, Bool.and_eq_true, not_or]
  omega

theorem shown_effect {e : Effect} (h : e.IsValid) : Shown W t (effectText e) t := by
  cases e with
  | title text =>
    refine shown_osc ?_
    rw [any_append, h.2]
    rfl
  | bell => exact shown_control (c := '\x07') rfl (by decide)
  | clipboard selection data =>
    have hsel : selection.any Screen.isControl = false :=
      plain_of_bytes (p := fun b => [99, 112, 113, 115, 48, 49, 50, 51, 52, 53, 54, 55].contains b)
        (fun b hb => by
          have hmem := contains_iff_mem.1 hb
          fin_cases hmem <;> decide) h.1.2
    have hdata : data.any Screen.isControl = false :=
      plain_of_bytes (p := Screen.isBase64) (fun b hb => by
        simp only [Screen.isBase64, Bool.or_eq_true, Bool.and_eq_true, decide_eq_true_eq,
          beq_iff_eq, UInt8.le_iff_toNat_le] at hb
        rcases hb with ((((hb | hb) | hb) | rfl) | rfl) | rfl
        · exact ⟨le_trans (by decide) hb.1, lt_of_le_of_lt hb.2 (by decide)⟩
        · exact ⟨le_trans (by decide) hb.1, lt_of_le_of_lt hb.2 (by decide)⟩
        · exact ⟨le_trans (by decide) hb.1, lt_of_le_of_lt hb.2 (by decide)⟩
        · decide
        · decide
        · decide) h.2.2
    rw [effectText]
    split
    · refine shown_osc ?_
      rw [any_append, any_append, any_append, hsel, hdata]
      rfl
    · exact .nil
  | hyperlink params uri =>
    refine shown_osc ?_
    rw [any_append, any_append, any_append, h.1.2, h.2.2]
    rfl

theorem shown_writeEffects {effects : List Effect} (h : ∀ e ∈ effects, e.IsValid) :
    Shown W t (writeEffects effects) t := by
  have hall : Shown W t (effects.flatMap effectText) t := by
    induction effects with
    | nil => exact .nil
    | cons e effects ih =>
      exact (shown_effect (h e mem_cons_self)).append
        (ih fun e' he' => h e' (mem_cons_of_mem e he'))
  refine hall.append ?_
  split
  · exact shown_osc (by decide)
  · exact .nil

/-! ## History lines -/

/-- A text that leaves the modes of every terminal as they are. -/
def Harmless (W : Char → Nat) (text : Text) : Prop :=
  ∀ t : Terminal, t.Sound → ∃ u, Shown W t text u ∧ u.modes = t.modes

theorem Harmless.nil : Harmless W [] :=
  fun t _ => ⟨t, .nil, rfl⟩

theorem Harmless.append {a b : Text} (ha : Harmless W a) (hb : Harmless W b) :
    Harmless W (a ++ b) := by
  intro t ht
  obtain ⟨u, hu, hmodes⟩ := ha t ht
  obtain ⟨v, hv, hmodes'⟩ := hb u (hu.kept ht).sound
  exact ⟨v, hu.append hv, hmodes'.trans hmodes⟩

theorem Harmless.flatMap {α : Type} {f : α → Text} {xs : List α} (h : ∀ x ∈ xs, Harmless W (f x)) :
    Harmless W (xs.flatMap f) := by
  induction xs with
  | nil => exact .nil
  | cons x xs ih =>
    exact (h x mem_cons_self).append (ih fun y hy => h y (mem_cons_of_mem x hy))

theorem harmless_print (h : text.any Screen.isControl = false) :
    Harmless W text := by
  intro t ht
  refine ⟨_, ⟨_, emits_print h, rfl⟩, ?_⟩
  clear h
  induction text generalizing t with
  | nil => rfl
  | cons c text ih =>
    have hone := print_steady W ht c
    exact (ih _ hone.sound).trans hone.modes

theorem harmless_control {c : Char} (hc : Lib.Escape.isControl c = true) (hesc : c ≠ '\x1b') :
    Harmless W [c] :=
  fun _ ht => ⟨_, shown_control hc hesc, (control_steady ht c).modes⟩

theorem harmless_csi {params : List Nat} {final : Char}
    (h : Emits text [.csi false params final]) : Harmless W text :=
  fun _ ht => ⟨_, .of_emits h, (csi_steady ht params final).modes⟩

theorem harmless_resetPen : Harmless W resetPen :=
  harmless_csi (show Emits resetPen [.csi false [0] 'm'] from rfl)

theorem scan_sgrParams (h : seq.all isSgrParam = true) (params : List Nat) (n : Nat) (rest : Text) :
    ∃ params' n', scan (.csi false params n) (seq ++ rest) = scan (.csi false params' n') rest := by
  induction seq generalizing params n with
  | nil => exact ⟨params, n, rfl⟩
  | cons c seq ih =>
    rw [all_cons, Bool.and_eq_true] at h
    rw [cons_append]
    have hc : c.isDigit = true ∨ c = ';' ∨ c = ':' := by
      have hone := h.1
      simp only [isSgrParam, Bool.or_eq_true, beq_iff_eq] at hone
      exact or_assoc.1 hone
    by_cases hdigit : c.isDigit = true
    · rw [Lib.Escape.scan_cons_of_step (by rw [Lib.Escape.step, if_pos hdigit])]
      exact ih h.2 _ _
    · rw [Lib.Escape.scan_cons_of_step
        (by rw [Lib.Escape.step, if_neg hdigit, if_pos (hc.resolve_left hdigit)])]
      exact ih h.2 _ _

theorem harmless_sgr (h : seq.all isSgrParam = true) :
    Harmless W (['\x1b', '['] ++ seq ++ ['m']) := by
  obtain ⟨params, n, hscan⟩ := scan_sgrParams h [] 0 ['m']
  have hemits : Emits (['\x1b', '['] ++ seq ++ ['m']) [.csi false (params ++ [n]) 'm'] := by
    rw [Emits, append_assoc]
    exact hscan
  exact harmless_csi hemits

theorem harmless_sanitizeFrom (state : LineState) (line : Text) :
    Harmless W (sanitizeFrom state line) := by
  induction line generalizing state with
  | nil =>
    rw [sanitizeFrom]
    exact .nil
  | cons c line ih =>
    cases state with rw [sanitizeFrom]
    | text =>
      split_ifs with hesc hcontrol
      · exact ih _
      · exact ih _
      refine Harmless.append (a := [c]) (harmless_print ?_) (ih _)
      rw [Bool.not_eq_true] at hcontrol
      rw [any_cons, hcontrol]
      rfl
    | escape | string =>
      split_ifs
      all_goals exact ih _
    | csi seq =>
      split_ifs with hfinal hsgr
      · exact (harmless_sgr hsgr.2).append (ih _)
      · exact ih _
      · exact ih _
    | stringEscape =>
      exact ih _

theorem isControl_of_isDigit {c : Char} (h : c.isDigit = true) : Screen.isControl c = false := by
  rw [Char.isDigit, Bool.and_eq_true, decide_eq_true_eq, decide_eq_true_eq] at h
  have hlow : 48 ≤ c.toNat := h.1
  have hhigh : c.toNat ≤ 57 := h.2
  simp only [Screen.isControl, Bool.or_eq_false_iff, decide_eq_false_iff_not, Bool.and_eq_false_iff]
  omega

theorem harmless_skippedLine (n : Nat) : Harmless W (skippedLine n) := by
  refine harmless_print ?_
  rw [skippedLine, any_append, any_append, Bool.or_eq_false_iff, Bool.or_eq_false_iff]
  refine ⟨⟨by decide, ?_⟩, by decide⟩
  rw [any_eq_false]
  intro c hc
  rw [isControl_of_isDigit (Nat.isDigit_of_mem_toDigits (by decide) (by decide) hc)]
  decide

theorem harmless_moveTo (r : Nat) :
    Harmless W (['\x1b', '['] ++ Nat.toDigits 10 r ++ [';', '1', 'H']) := by
  have h : Emits (Lib.Escape.csi false r [1] 'H') [.csi false [r, 1] 'H'] :=
    emits_csi r [1] (by decide)
  have hone : Nat.toDigits 10 1 = ['1'] := by decide
  exact harmless_csi (by simpa [Lib.Escape.csi, Lib.Escape.num, hone] using h)

end Texts

end Terminal

end Qsh.Client
