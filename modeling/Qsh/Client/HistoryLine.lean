import Qsh.Client.Render

/-!
# History lines

Lines of the scrollback are printed as they are, so `sanitize_history_line` keeps only
text and `SGR` sequences of what the host sent.  `SgrText` is what such a line may be.
Every sanitized line is one (`sgrText_sanitizeFrom`), and a line that is one already is
not changed (`sanitizeFrom_of_sgrText`), so nothing recombines into a new sequence.

A sequence is kept exactly where the scan is between sequences (`LineState.next`).  Inside
of another one its escape character is no beginning, and what follows it is left as text:
a string sequence ends at any escape character, not only at the string terminator.
-/

namespace Qsh.Client

open Qsh.Screen (Text)

/-- The `SGR` sequence with the parameters `seq`. -/
def sgr (seq : Text) : Text := '\x1b' :: '[' :: seq ++ ['m']

/-- Characters that are no control characters, and complete `SGR` sequences. -/
inductive SgrText : Text → Prop
  | nil : SgrText []
  | char {c : Char} {line : Text} (h : Screen.isControl c = false) (rest : SgrText line) :
      SgrText (c :: line)
  | sgr {seq line : Text} (h : seq.all isSgrParam = true) (rest : SgrText line) :
      SgrText (sgr seq ++ line)

/-- Where the scan of a line is after one more character. -/
def LineState.next : LineState → Char → LineState
  | .text, c => if c = '\x1b' then .escape else .text
  | .escape, c =>
      if c = '[' then .csi []
      else if c = ']' ∨ c = 'P' ∨ c = '^' ∨ c = '_' ∨ c = 'X' then .string
      else .text
  | .csi seq, c => if '\x40' ≤ c ∧ c ≤ '\x7e' then .text else .csi (seq ++ [c])
  | .string, c =>
      if c = '\x07' then .text else if c = '\x1b' then .stringEscape else .string
  | .stringEscape, _ => .text

theorem sanitizeFrom_append (state : LineState) (a b : Text) :
    sanitizeFrom state (a ++ b) =
      sanitizeFrom state a ++ sanitizeFrom (a.foldl LineState.next state) b := by
  induction a generalizing state with
  | nil => simp [sanitizeFrom]
  | cons c a ih =>
    cases state <;> simp only [List.cons_append, List.foldl_cons, sanitizeFrom, LineState.next]
    case text => split_ifs <;> simp [ih]
    case escape => split_ifs <;> simp [ih]
    case csi seq => split_ifs <;> simp [ih]
    case string => split_ifs <;> simp [ih]
    case stringEscape => simp [ih]

theorem toNat_of_isSgrParam {c : Char} (h : isSgrParam c = true) :
    48 ≤ c.toNat ∧ c.toNat ≤ 59 := by
  simp only [isSgrParam, Bool.or_eq_true, beq_iff_eq] at h
  rcases h with (h | rfl) | rfl
  · simp only [Char.isDigit, Bool.and_eq_true, decide_eq_true_eq, UInt32.le_iff_toNat_le] at h
    have hlow : 48 ≤ c.toNat := h.1
    have hhigh : c.toNat ≤ 57 := h.2
    omega
  · decide
  · decide

theorem not_final_of_isSgrParam {c : Char} (h : isSgrParam c = true) :
    ¬('\x40' ≤ c ∧ c ≤ '\x7e') := by
  have hrange := toNat_of_isSgrParam h
  intro hc
  have hlow : 64 ≤ c.toNat := hc.1
  omega

theorem not_control_of_isSgrParam {c : Char} (h : isSgrParam c = true) :
    Screen.isControl c = false := by
  have hrange := toNat_of_isSgrParam h
  simp only [Screen.isControl, Bool.or_eq_false_iff, Bool.and_eq_false_iff,
    decide_eq_false_iff_not]
  omega

variable {seq line : Text}

theorem sanitizeFrom_params {a : Text} (ha : a.all isSgrParam = true)
    (h : seq.all isSgrParam = true) (rest : Text) :
    sanitizeFrom (.csi a) (seq ++ 'm' :: rest) = sgr (a ++ seq) ++ sanitizeFrom .text rest := by
  induction seq generalizing a with
  | nil => simp [sanitizeFrom, sgr, ha]
  | cons c seq ih =>
    simp only [List.all_cons, Bool.and_eq_true] at h
    rw [List.cons_append, sanitizeFrom, if_neg (not_final_of_isSgrParam h.1),
      ih (by simp [ha, h.1]) h.2]
    simp

theorem sanitizeFrom_sgr (h : seq.all isSgrParam = true) (rest : Text) :
    sanitizeFrom .text (sgr seq ++ rest) = sgr seq ++ sanitizeFrom .text rest := by
  simpa [sgr, sanitizeFrom] using sanitizeFrom_params (a := []) rfl h rest

theorem sgrText_sanitizeFrom (state : LineState) (line : Text) :
    SgrText (sanitizeFrom state line) := by
  induction line generalizing state with
  | nil => simpa [sanitizeFrom] using SgrText.nil
  | cons c line ih =>
    cases state <;> rw [sanitizeFrom]
    case text =>
      split_ifs with hesc hcontrol
      · exact ih _
      · exact ih _
      · exact .char (by simpa using hcontrol) (ih _)
    case escape => split_ifs <;> exact ih _
    case csi seq =>
      split_ifs with hfinal hsgr
      · simpa [sgr] using SgrText.sgr hsgr.2 (ih .text)
      · exact ih _
      · exact ih _
    case string => split_ifs <;> exact ih _
    case stringEscape => exact ih _

theorem ne_escape {c : Char} (h : Screen.isControl c = false) : c ≠ '\x1b' := by
  rintro rfl
  exact absurd h (by decide)

theorem sanitizeFrom_char {c : Char} (h : Screen.isControl c = false) (line : Text) :
    sanitizeFrom .text (c :: line) = c :: sanitizeFrom .text line := by
  rw [sanitizeFrom, if_neg (ne_escape h), if_neg (by simp [h])]

theorem sanitizeFrom_of_sgrText (h : SgrText line) :
    sanitizeFrom .text line = line := by
  induction h with
  | nil => rfl
  | char h rest ih => rw [sanitizeFrom_char h, ih]
  | sgr h rest ih => rw [sanitizeFrom_sgr h, ih]

theorem sgrText_of_no_control (h : line.any Screen.isControl = false) :
    SgrText line := by
  induction line with
  | nil => exact .nil
  | cons c line ih =>
    simp only [List.any_cons, Bool.or_eq_false_iff] at h
    exact .char h.1 (ih h.2)

/-- In the middle of another sequence the escape character is no beginning: what is left
of the `SGR` sequence is text. -/
theorem head_sanitizeFrom_sgr {state : LineState} (hstate : state ≠ .text)
    (h : seq.all isSgrParam = true) (rest : Text) :
    (sanitizeFrom state (sgr seq ++ rest)).head? ≠ some '\x1b' := by
  have hbracket : (sanitizeFrom .text ('[' :: (seq ++ 'm' :: rest))).head? ≠ some '\x1b' := by
    rw [sanitizeFrom_char (by decide)]
    simp
  have hparams : (sanitizeFrom .text (seq ++ 'm' :: rest)).head? ≠ some '\x1b' := by
    cases seq with
    | nil =>
      rw [List.nil_append, sanitizeFrom_char (by decide)]
      simp
    | cons c seq =>
      simp only [List.all_cons, Bool.and_eq_true] at h
      have hc := not_control_of_isSgrParam h.1
      rw [List.cons_append, sanitizeFrom_char hc, List.head?_cons, ne_eq, Option.some.injEq]
      exact ne_escape hc
  have hsgr : sgr seq ++ rest = '\x1b' :: '[' :: (seq ++ 'm' :: rest) := by simp [sgr]
  rw [hsgr]
  cases state with
  | text => exact absurd rfl hstate
  | escape | stringEscape => simpa [sanitizeFrom] using hbracket
  | csi | string => simpa [sanitizeFrom] using hparams

/-- For every line: what is left is text and complete `SGR` sequences, a line without
control characters is not changed, a second pass changes nothing, and an `SGR` sequence
is kept exactly if it does not begin inside of another sequence. -/
theorem history_line_is_inert (line : Text) :
    SgrText (sanitizeHistoryLine line) ∧
      (line.any Screen.isControl = false → sanitizeHistoryLine line = line) ∧
      sanitizeHistoryLine (sanitizeHistoryLine line) = sanitizeHistoryLine line ∧
      ∀ seq rest, seq.all isSgrParam = true →
        (sanitizeHistoryLine (line ++ sgr seq ++ rest) =
            sanitizeHistoryLine line ++ sgr seq ++ sanitizeHistoryLine rest ↔
          line.foldl LineState.next .text = .text) := by
  have hsgr : SgrText (sanitizeHistoryLine line) := sgrText_sanitizeFrom .text line
  refine ⟨hsgr, fun h => sanitizeFrom_of_sgrText (sgrText_of_no_control h),
    sanitizeFrom_of_sgrText hsgr, fun seq rest hseq => ?_⟩
  simp only [sanitizeHistoryLine, List.append_assoc]
  rw [sanitizeFrom_append, List.append_cancel_left_eq]
  refine ⟨fun hkept => ?_, fun hline => ?_⟩
  · by_contra hinside
    exact head_sanitizeFrom_sgr hinside hseq rest (by rw [hkept]; rfl)
  · rw [hline, sanitizeFrom_sgr hseq]

/-- A title that is never ended, with an `SGR` sequence in it: the escape character of the
sequence ends the title. -/
theorem sgr_in_a_title_is_dropped :
    [].all isSgrParam = true ∧ sanitizeHistoryLine ('\x1b' :: ']' :: sgr []) = ['m'] := by
  decide

end Qsh.Client
