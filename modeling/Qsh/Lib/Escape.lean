import Mathlib.Data.Nat.Digits.Defs

/-!
# Control sequences

The characters that a terminal reads are single characters to print, control
characters, and sequences that start with `ESC`.  `scan` cuts a text into tokens
with a small state machine, as terminals do; a sequence may go on in the next
text, so `scan` starts and ends in a `State`.
-/

namespace Qsh.Lib.Escape

open List

def isControl (c : Char) : Bool :=
  c.toNat < 0x20 || (0x7f ≤ c.toNat && c.toNat < 0xa0)

inductive Token
  | print (c : Char)
  | control (c : Char)
  | escape (c : Char)
  | csi (isPrivate : Bool) (params : List Nat) (final : Char)
  | osc
  deriving DecidableEq, Repr

inductive State
  | ground
  | escape
  | csi (isPrivate : Bool) (params : List Nat) (param : Nat)
  | osc
  | oscEscape
  deriving DecidableEq, Repr

/-- One character of the text. -/
def step : State → Char → State × List Token
  | .ground, c =>
      if c = '\x1b' then (.escape, [])
      else (.ground, [if isControl c then .control c else .print c])
  | .escape, c =>
      if c = '[' then (.csi false [] 0, [])
      else if c = ']' then (.osc, [])
      else (.ground, [.escape c])
  | .csi isPrivate params param, c =>
      if c.isDigit then (.csi isPrivate params (10 * param + (c.toNat - '0'.toNat)), [])
      else if c = ';' ∨ c = ':' then (.csi isPrivate (params ++ [param]) 0, [])
      else if c = '?' then (.csi true params param, [])
      else if '@' ≤ c ∧ c ≤ '~' then (.ground, [.csi isPrivate (params ++ [param]) c])
      else (.csi isPrivate params param, [])
  | .osc, c =>
      if c = '\x07' then (.ground, [.osc])
      else if c = '\x1b' then (.oscEscape, [])
      else (.osc, [])
  | .oscEscape, _ => (.ground, [.osc])

/-- The tokens of a text, and the state after it. -/
def scan : State → List Char → List Token × State
  | s, [] => ([], s)
  | s, c :: text => ((step s c).2 ++ (scan (step s c).1 text).1, (scan (step s c).1 text).2)

theorem scan_append (s : State) (a b : List Char) :
    scan s (a ++ b) = ((scan s a).1 ++ (scan (scan s a).2 b).1, (scan (scan s a).2 b).2) := by
  induction a generalizing s with
  | nil => rfl
  | cons c a ih => simp only [cons_append, scan, ih, append_assoc]

variable {text : List Char} {isPrivate : Bool}

variable {c final : Char}

theorem scan_cons_of_step {s s' : State} {out : List Token} (h : step s c = (s', out)) :
    scan s (c :: text) = (out ++ (scan s' text).1, (scan s' text).2) := by
  rw [scan, h]

/-! ## Texts that end in the ground state -/

/-- The text is these tokens and ends between sequences. -/
def Emits (text : List Char) (tokens : List Token) : Prop :=
  scan .ground text = (tokens, .ground)

theorem Emits.nil : Emits [] [] :=
  rfl

theorem Emits.append {a b : List Char} {ta tb : List Token} (ha : Emits a ta) (hb : Emits b tb) :
    Emits (a ++ b) (ta ++ tb) := by
  rw [Emits, scan_append, ha, hb]

theorem emits_control (hc : isControl c = true) (hesc : c ≠ '\x1b') :
    Emits [c] [.control c] := by
  simp only [Emits, scan, step, if_neg hesc, if_pos hc, append_nil]

theorem emits_print (h : text.any isControl = false) :
    Emits text (text.map .print) := by
  induction text with
  | nil => rfl
  | cons c text ih =>
    simp only [any_cons, Bool.or_eq_false_iff] at h
    have hesc : c ≠ '\x1b' := by
      rintro rfl
      exact absurd h.1 (by decide)
    have hone : Emits [c] [.print c] := by
      simp only [Emits, scan, step, if_neg hesc, h.1, append_nil]
      rfl
    exact hone.append (ih h.2)

/-! ## Control sequences -/

/-- A number of a control sequence, with the character before it. -/
def num (sep : Char) (n : Nat) : List Char :=
  sep :: Nat.toDigits 10 n

def csi (isPrivate : Bool) (n : Nat) (ns : List Nat) (final : Char) : List Char :=
  ['\x1b', '['] ++ (if isPrivate then ['?'] else []) ++ Nat.toDigits 10 n ++
    ns.flatMap (num ';') ++ [final]

variable {params : List Nat}

theorem scan_digits (digits rest : List Char) (k : Nat) (h : ∀ c ∈ digits, c.isDigit = true) :
    scan (.csi isPrivate params k) (digits ++ rest) =
      scan (.csi isPrivate params (Nat.ofDigitChars 10 digits k)) rest := by
  rw [Nat.ofDigitChars_eq_foldl]
  induction digits generalizing k with
  | nil => rfl
  | cons c digits ih =>
    have hc : c.isDigit = true := h c mem_cons_self
    have hstep : step (.csi isPrivate params k) c =
        (.csi isPrivate params (10 * k + (c.toNat - '0'.toNat)), []) := by
      rw [step, if_pos hc]
    rw [cons_append, scan_cons_of_step hstep]
    exact ih _ fun d hd => h d (mem_cons_of_mem _ hd)

theorem scan_number (n : Nat) (rest : List Char) :
    scan (.csi isPrivate params 0) (Nat.toDigits 10 n ++ rest) =
      scan (.csi isPrivate params n) rest := by
  rw [scan_digits _ _ _ fun c hc => Nat.isDigit_of_mem_toDigits (by decide) (by decide) hc,
    Nat.ofDigitChars_ten_toDigits]

theorem scan_numbers (n : Nat) (ns : List Nat) (hfinal : '@' ≤ final ∧ final ≤ '~') :
    scan (.csi isPrivate params n) (ns.flatMap (num ';') ++ [final]) =
      ([.csi isPrivate (params ++ n :: ns) final], .ground) := by
  induction ns generalizing params n with
  | nil =>
    have hlow : 64 ≤ final.toNat := hfinal.1
    have hdigit : final.isDigit = false := by
      rw [Char.isDigit, Bool.and_eq_false_iff]
      right
      rw [decide_eq_false_iff_not, UInt32.le_iff_toNat_le]
      show ¬ final.toNat ≤ 57
      omega
    have hne : ∀ d : Char, d.toNat < 64 → final ≠ d := by
      rintro d hd rfl
      omega
    have hsep : ¬(final = ';' ∨ final = ':') := by
      rintro (h | h)
      · exact hne ';' (by decide) h
      · exact hne ':' (by decide) h
    have hstep : step (.csi isPrivate params n) final =
        (.ground, [.csi isPrivate (params ++ [n]) final]) := by
      rw [step, if_neg (by rw [hdigit]; decide), if_neg hsep, if_neg (hne '?' (by decide)),
        if_pos hfinal]
    rw [flatMap_nil, nil_append, scan_cons_of_step hstep]
    rfl
  | cons m ns ih =>
    have hstep : step (.csi isPrivate params n) ';' = (.csi isPrivate (params ++ [n]) 0, []) := rfl
    rw [flatMap_cons, num, cons_append, cons_append, scan_cons_of_step hstep,
      append_assoc, scan_number, ih, append_assoc]
    rfl

theorem emits_csi (n : Nat) (ns : List Nat) (hfinal : '@' ≤ final ∧ final ≤ '~') :
    Emits (csi isPrivate n ns final) [.csi isPrivate (n :: ns) final] := by
  have hstart : ∀ rest : List Char,
      scan .ground (['\x1b', '['] ++ (if isPrivate then ['?'] else []) ++ rest) =
        scan (.csi isPrivate [] 0) rest := by
    intro rest
    cases isPrivate <;> rfl
  rw [Emits, csi, append_assoc, append_assoc, hstart, scan_number, scan_numbers n ns hfinal]
  rfl

/-! ## String sequences -/

theorem scan_osc (h : text.any isControl = false) (rest : List Char) :
    scan .osc (text ++ rest) = scan .osc rest := by
  induction text with
  | nil => rfl
  | cons c text ih =>
    simp only [any_cons, Bool.or_eq_false_iff] at h
    have hne : ∀ d : Char, isControl d = true → c ≠ d := by
      rintro d hd rfl
      rw [h.1] at hd
      cases hd
    have hstep : step .osc c = (.osc, []) := by
      rw [step, if_neg (hne '\x07' (by decide)), if_neg (hne '\x1b' (by decide))]
    rw [cons_append, scan_cons_of_step hstep, ih h.2]
    rfl

theorem emits_osc (h : text.any isControl = false) :
    Emits (['\x1b', ']'] ++ text ++ ['\x1b', '\\']) [.osc] := by
  rw [Emits, append_assoc]
  exact scan_osc h ['\x1b', '\\']

end Qsh.Lib.Escape
