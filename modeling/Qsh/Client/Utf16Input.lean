import Mathlib.Data.List.Basic

/-!
# Console input

`Utf16Reader` (`tui/utf16_input.rs`) decodes the UTF-16 units of a console and hands the
bytes out in pieces.  A high surrogate is held until the next unit comes or the input ends.
-/

namespace Qsh.Client.Utf16

open String (utf8EncodeChar)

def REPLACEMENT : List UInt8 := [0xEF, 0xBF, 0xBD]

abbrev isHigh (unit : UInt16) : Prop := 0xD800 ≤ unit.toNat ∧ unit.toNat ≤ 0xDBFF

abbrev isLow (unit : UInt16) : Prop := 0xDC00 ≤ unit.toNat ∧ unit.toNat < 0xE000

def pairOf (high low : UInt16) : Nat :=
  0x10000 + (high.toNat - 0xD800) <<< 10 + (low.toNat - 0xDC00)

/-- `push_char` of `char::from_u32`, or of the replacement character. -/
def pushChar (c : Nat) : List UInt8 :=
  utf8EncodeChar (if c.isValidChar then Char.ofNat c else '�')

/-- The `match` of `push`: the surrogate it holds, and the bytes. -/
def pushAlone (unit : UInt16) : Option UInt16 × List UInt8 :=
  if isHigh unit then (some unit, [])
  else if isLow unit then (none, REPLACEMENT)
  else (none, pushChar unit.toNat)

/-- The body of the loop of `push`. -/
def pushUnit : Option UInt16 → UInt16 → Option UInt16 × List UInt8
  | none, unit => pushAlone unit
  | some high, unit =>
      if isLow unit then (none, pushChar (pairOf high unit))
      else ((pushAlone unit).1, REPLACEMENT ++ (pushAlone unit).2)

/-- Decodes units; a high surrogate at the end is held. -/
def push (held : Option UInt16) : List UInt16 → Option UInt16 × List UInt8
  | [] => (held, [])
  | unit :: units =>
      let (held, out) := pushUnit held unit
      ((push held units).1, out ++ (push held units).2)

def finish (held : Option UInt16) : List UInt8 :=
  if held.isSome then REPLACEMENT else []

/-- What `read_units` returns: reads of at least one unit, and then the end of the input. -/
abbrev Source := List (UInt16 × List UInt16)

structure Utf16Reader where
  decoder : Option UInt16 := none
  queued : List UInt8 := []
  ended : Bool := false

/-- The `while` of `read`. -/
def fill : Source → Utf16Reader → Source × Utf16Reader
  | [], r => ([], if r.queued = [] ∧ ¬r.ended then ⟨none, finish r.decoder, true⟩ else r)
  | (unit, units) :: source, r =>
      if r.queued = [] ∧ ¬r.ended then
        fill source { r with
          decoder := (push r.decoder (unit :: units)).1
          queued := (push r.decoder (unit :: units)).2 }
      else ((unit, units) :: source, r)

/-- A read into a buffer of `len` bytes. -/
def read (len : Nat) (s : Source × Utf16Reader) : List UInt8 × (Source × Utf16Reader) :=
  if len = 0 then ([], s)
  else
    let (source, r) := fill s.1 s.2
    (r.queued.take len, source, { r with queued := r.queued.drop len })

def reads (s : Source × Utf16Reader) : List Nat → List UInt8 × (Source × Utf16Reader)
  | [] => ([], s)
  | len :: lens =>
      let (out, s) := read len s
      (out ++ (reads s lens).1, (reads s lens).2)

/-! ## The decoder -/

def lossy (unit : UInt16) : Char :=
  if isHigh unit ∨ isLow unit then '�' else Char.ofNat unit.toNat

/-- The standard lossy decoding of UTF-16. -/
def decodeLossy : List UInt16 → List Char
  | [] => []
  | [u] => [lossy u]
  | u :: v :: units =>
      if isHigh u ∧ isLow v then Char.ofNat (pairOf u v) :: decodeLossy units
      else lossy u :: decodeLossy (v :: units)

/-- What a lossy decoding of all units gives, in UTF-8. -/
def encodeLossy (units : List UInt16) : List UInt8 := (decodeLossy units).flatMap utf8EncodeChar

/-- All that `held` and `units` become, the end of the input included. -/
def emit (held : Option UInt16) (units : List UInt16) : List UInt8 :=
  (push held units).2 ++ finish (push held units).1

theorem emit_cons (held : Option UInt16) (unit : UInt16) (units : List UInt16) :
    emit held (unit :: units) = (pushUnit held unit).2 ++ emit (pushUnit held unit).1 units :=
  List.append_assoc ..

theorem emit_append (held : Option UInt16) (a b : List UInt16) :
    emit held (a ++ b) = (push held a).2 ++ emit (push held a).1 b := by
  induction a generalizing held with
  | nil => rfl
  | cons unit a ih => rw [List.cons_append, emit_cons, ih, ← List.append_assoc]; rfl

theorem encodeLossy_pair {u v : UInt16} (hu : isHigh u) (hv : isLow v) (units : List UInt16) :
    encodeLossy (u :: v :: units) = pushChar (pairOf u v) ++ encodeLossy units := by
  have valid : (pairOf u v).isValidChar := .inr (by unfold pairOf; omega)
  rw [encodeLossy, decodeLossy, if_pos ⟨hu, hv⟩, pushChar, if_pos valid, List.flatMap_cons]
  rfl

/-- A unit alone: a surrogate is held and then flushed, or replaced at once. -/
theorem encode_lossy (u : UInt16) :
    utf8EncodeChar (lossy u) = (pushAlone u).2 ++ finish (pushAlone u).1 := by
  rw [lossy, pushAlone]
  by_cases high : isHigh u
  · rw [if_pos high, if_pos (.inl high)]
    rfl
  by_cases low : isLow u
  · rw [if_neg high, if_pos low, if_pos (.inr low)]
    rfl
  have valid : u.toNat.isValidChar := by
    have := u.toNat_lt
    unfold Nat.isValidChar
    omega
  rw [if_neg high, if_neg low, if_neg (by tauto), pushChar, if_pos valid]
  exact (List.append_nil _).symm

/-- The decoder with a held surrogate decodes as if that one were still to come. -/
theorem emit_eq (units : List UInt16) :
    emit none units = encodeLossy units ∧
    ∀ u, isHigh u → emit (some u) units = encodeLossy (u :: units) := by
  induction units with
  | nil =>
    refine ⟨rfl, fun u hu => ?_⟩
    rw [encodeLossy, decodeLossy, List.flatMap_singleton, encode_lossy, pushAlone, if_pos hu]
    rfl
  | cons v units ih =>
    have alone : emit none (v :: units) = encodeLossy (v :: units) := by
      rw [emit_cons, pushUnit]
      by_cases high : isHigh v
      · rw [pushAlone, if_pos high]
        exact ih.2 v high
      · have held : (pushAlone v).1 = none := by grind [pushAlone]
        have first : decodeLossy (v :: units) = lossy v :: decodeLossy units := by
          cases units <;> grind [decodeLossy]
        rw [encodeLossy, first, List.flatMap_cons, encode_lossy, held, ih.1, List.append_assoc]
        rfl
    refine ⟨alone, fun u hu => ?_⟩
    by_cases hv : isLow v
    · rw [emit_cons, pushUnit, if_pos hv, encodeLossy_pair hu hv, ← ih.1]
    · rw [encodeLossy, decodeLossy, if_neg (by tauto), List.flatMap_cons, ← encodeLossy, ← alone,
        encode_lossy, emit_cons, emit_cons, pushUnit, pushUnit, if_neg hv, pushAlone.eq_def u,
        if_pos hu]
      exact List.append_assoc ..

/-! ## The reader -/

/-- The bytes still to be handed out. -/
def left (s : Source × Utf16Reader) : List UInt8 :=
  s.2.queued ++ if s.2.ended then [] else emit s.2.decoder (s.1.flatMap fun r => r.1 :: r.2)

theorem left_fill (source : Source) (r : Utf16Reader) :
    left (fill source r) = left (source, r) ∧
    ((fill source r).2.queued = [] → (fill source r).2.ended = true) := by
  induction source generalizing r with
  | nil =>
    rw [fill]
    split_ifs with h
    · simp [left, h, emit, push]
    · exact ⟨rfl, by simpa using h⟩
  | cons units source ih =>
    rw [fill]
    split_ifs with h
    · obtain ⟨kept, last⟩ := ih _
      refine ⟨kept.trans ?_, last⟩
      simp [left, h, ← emit_append]
    · exact ⟨rfl, by simpa using h⟩

/-- A read takes its bytes off those left, and takes none only at the end. -/
theorem left_read {len : Nat} (hlen : len ≠ 0) (s : Source × Utf16Reader) :
    (read len s).1 ++ left (read len s).2 = left s ∧
    ((read len s).1 = [] →
      (read len s).2.2.ended = true ∧ (read len s).2.2.queued = [] ∧ left s = []) := by
  obtain ⟨kept, last⟩ := left_fill s.1 s.2
  rw [read, if_neg hlen, ← kept]
  refine ⟨by simp [left, ← List.append_assoc], fun none => ?_⟩
  have empty := (List.take_eq_nil_iff.mp none).resolve_left hlen
  simp [left, empty, last empty]

theorem left_reads {lens : List Nat} (hlens : ∀ len ∈ lens, len ≠ 0) (s : Source × Utf16Reader) :
    (reads s lens).1 ++ left (reads s lens).2 = left s ∧
    ((left s).length ≤ lens.length → (reads s lens).1 = left s) := by
  induction lens generalizing s with
  | nil => exact ⟨rfl, fun h => (List.eq_nil_of_length_eq_zero (Nat.le_zero.mp h)).symm⟩
  | cons len lens ih =>
    obtain ⟨kept, last⟩ := left_read (hlens len (by simp)) s
    obtain ⟨more, all⟩ := ih (fun l h => hlens l (by simp [h])) (read len s).2
    refine ⟨by rw [reads, List.append_assoc, more, kept], fun h => ?_⟩
    -- a read that takes nothing leaves nothing, any other takes a byte
    have fewer : (left (read len s).2).length ≤ lens.length := by
      by_cases none : (read len s).1 = []
      · have rest := (last none).2.2
        rw [← kept, none, List.nil_append] at rest
        simp [rest]
      · have := congrArg List.length kept
        have := List.length_pos_iff.mpr none
        grind
    exact (congrArg _ (all fewer)).trans kept

/-- Whatever the reads of the source and the buffers, the bytes come out in order, and all of
them after as many reads as there are bytes.  A read of none is a read at the end. -/
theorem transcoding_is_exact (source : Source) (lens : List Nat) (hlens : ∀ len ∈ lens, len ≠ 0) :
    let text := encodeLossy (source.flatMap fun r => r.1 :: r.2)
    let (out, s) := reads (source, {}) lens
    out <+: text ∧ (text.length ≤ lens.length → out = text) ∧
    ∀ len ≠ 0, (read len s).1 = [] →
      out = text ∧ (read len s).2.2.ended = true ∧ (read len s).2.2.queued = [] := by
  obtain ⟨kept, all⟩ := left_reads hlens (source, {})
  rw [show left (source, {}) = _ from (emit_eq _).1] at kept all
  refine ⟨⟨_, kept⟩, all, fun len hlen none => ?_⟩
  obtain ⟨ended, empty, rest⟩ := (left_read hlen _).2 none
  refine ⟨?_, ended, empty⟩
  rwa [rest, List.append_nil] at kept

/-- A pair cut by the reads of the source, and its bytes by those of the caller. -/
theorem transcoding_is_exact_pair :
    (reads ([(0xD83D, []), (0xDE00, [])], {}) [3, 3, 1, 1]).1 = [0xF0, 0x9F, 0x98, 0x80] :=
  (transcoding_is_exact [(0xD83D, []), (0xDE00, [])] [3, 3, 1, 1] (by decide)).2.1 (by decide)

end Qsh.Client.Utf16
