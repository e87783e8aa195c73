import Mathlib.Algebra.Group.Nat.Defs
import Mathlib.Data.List.Basic

/-!
# The screen state

`qsh-proto/src/screen/mod.rs`: the normalised terminal
screen both sides of a session agree on, with the rules a well-formed screen
obeys (`ScreenState.IsValid`) and the blank screen of a size.

Dimensions, cursor positions and offsets are `Nat`; the rules bound them far
below their machine types.  A text is the list of its characters, and its
bytes are their UTF-8 encoding.
-/

namespace Qsh.Screen

open List

def MAX_DIM : Nat := 2048

def MAX_CELLS : Nat := 2 ^ 20

def MAX_CELL_TEXT : Nat := 32

def HASH_LEN : Nat := 8

/-- What is checked of every number of a byte holds of every byte. -/
theorem forall_byte {p : UInt8 → Prop} (h : ∀ n < 256, p (UInt8.ofNat n)) (b : UInt8) : p b := by
  have hb := h b.toNat b.toNat_lt
  rwa [UInt8.ofNat_toNat] at hb

/-! ## Texts -/

abbrev Text := List Char

namespace Text

def bytes (t : Text) : List UInt8 :=
  t.flatMap String.utf8EncodeChar

def len (t : Text) : Nat :=
  t.bytes.length

def fromUtf8 (b : List UInt8) : Option Text :=
  b.toByteArray.utf8Decode?.map Array.toList

theorem fromUtf8_bytes (t : Text) : fromUtf8 t.bytes = some t := by
  have h : t.bytes.toByteArray.utf8Decode? = some t.toArray := utf8Decode?_utf8Encode
  rw [fromUtf8, h]
  rfl

theorem bytes_of_fromUtf8 {b : List UInt8} {t : Text} (h : fromUtf8 b = some t) :
    t.bytes = b := by
  obtain ⟨cs, hcs, rfl⟩ := Option.map_eq_some_iff.1 h
  have hsome : b.toByteArray.utf8Decode?.isSome := by rw [hcs]; rfl
  have henc : (b.toByteArray.utf8Decode?.get hsome).toList.utf8Encode = b.toByteArray :=
    ByteArray.utf8Encode_get_utf8Decode?
  have hget : b.toByteArray.utf8Decode?.get hsome = cs := Option.get_of_eq_some hsome hcs
  rw [hget] at henc
  have hdata := congrArg (fun a => a.data.toList) henc
  rw [bytes]
  simpa only [List.utf8Encode, toList_data_toByteArray] using hdata

theorem len_eq_zero_iff (t : Text) : t.len = 0 ↔ t = [] := by
  refine ⟨fun h => ?_, fun h => by rw [h]; rfl⟩
  have hbytes : t.bytes = [] := length_eq_zero_iff.1 h
  have hback := fromUtf8_bytes t
  rw [hbytes, show fromUtf8 [] = some [] by decide, Option.some.injEq] at hback
  exact hback.symm

end Text

def isControl (c : Char) : Bool :=
  c.toNat < 0x20 || (0x7f ≤ c.toNat && c.toNat < 0xa0)

/-! ## Cells, rows and modes -/

inductive Color
  | default
  | idx (i : UInt8)
  | rgb (r g b : UInt8)
  deriving DecidableEq, Repr

def WIDE : UInt8 := 32

def WIDE_CONT : UInt8 := 64

def ALL : UInt8 := 127

/-- One cell of the screen. -/
structure Cell where
  text : Text
  fg : Color
  bg : Color
  flags : UInt8
  deriving DecidableEq, Repr

def Cell.blank : Cell where
  text := []
  fg := .default
  bg := .default
  flags := 0

def Cell.IsValid (c : Cell) : Prop :=
  c.flags &&& ~~~ALL = 0 ∧ ¬(c.flags &&& WIDE ≠ 0 ∧ c.flags &&& WIDE_CONT ≠ 0) ∧
    c.text.len ≤ MAX_CELL_TEXT ∧
    c.text.any isControl = false ∧
    ¬(c.flags &&& WIDE_CONT ≠ 0 ∧ c.text ≠ [])

instance (c : Cell) : Decidable c.IsValid := by
  unfold Cell.IsValid
  infer_instance

theorem Cell.blank_isValid : Cell.blank.IsValid := by decide

structure Row where
  cells : List Cell
  wrapped : Bool
  deriving DecidableEq, Repr

structure Modes where
  flags : UInt8
  mouseMode : UInt8
  mouseEncoding : UInt8
  deriving DecidableEq, Repr

def Modes.FLAGS_ALL : UInt8 := 31

def Modes.none : Modes where
  flags := 0
  mouseMode := 0
  mouseEncoding := 0

def Modes.IsValid (m : Modes) : Prop :=
  m.flags &&& ~~~Modes.FLAGS_ALL = 0 ∧ m.mouseMode ≤ 4 ∧ m.mouseEncoding ≤ 2

instance (m : Modes) : Decidable m.IsValid := by
  unfold Modes.IsValid
  infer_instance

theorem Modes.none_isValid : Modes.none.IsValid := by decide

/-! ## The screen -/

structure ScreenState where
  rows : Nat
  cols : Nat
  cursorRow : Nat
  cursorCol : Nat
  modes : Modes
  grid : List Row
  deriving DecidableEq, Repr

def SizeIsValid (rows cols : Nat) : Prop :=
  (1 ≤ rows ∧ rows ≤ MAX_DIM) ∧ (1 ≤ cols ∧ cols ≤ MAX_DIM) ∧ rows * cols ≤ MAX_CELLS

instance (rows cols : Nat) : Decidable (SizeIsValid rows cols) := by
  unfold SizeIsValid
  infer_instance

structure BadSize where
  rows : Nat
  cols : Nat
  deriving DecidableEq, Repr

namespace ScreenState

def blankGrid (rows cols : Nat) : List Row :=
  replicate rows { cells := replicate cols Cell.blank, wrapped := false }

def blankState (rows cols : Nat) : ScreenState where
  rows := rows
  cols := cols
  cursorRow := 0
  cursorCol := 0
  modes := Modes.none
  grid := blankGrid rows cols

def blank (rows cols : Nat) : Except BadSize ScreenState :=
  if ¬SizeIsValid rows cols then .error { rows := rows, cols := cols }
  else .ok (blankState rows cols)

def RowIsValid (cols : Nat) (r : Row) : Prop :=
  r.cells.length = cols ∧ ∀ c ∈ r.cells, c.IsValid

instance (cols : Nat) (r : Row) : Decidable (RowIsValid cols r) := by
  unfold RowIsValid
  infer_instance

/-- The rules that a state keeps on the wire. -/
def IsValid (s : ScreenState) : Prop :=
  SizeIsValid s.rows s.cols ∧ s.cursorRow < s.rows ∧ s.cursorCol < s.cols ∧ s.modes.IsValid ∧
    s.grid.length = s.rows ∧
    ∀ r ∈ s.grid, RowIsValid s.cols r

instance (s : ScreenState) : Decidable s.IsValid := by
  unfold IsValid
  infer_instance

variable {rows cols : Nat}

theorem blank_eq (h : SizeIsValid rows cols) :
    blank rows cols = .ok (blankState rows cols) := by
  rw [blank, if_neg (not_not.2 h)]

theorem blankGrid_row_isValid {r : Row} (hr : r ∈ blankGrid rows cols) :
    RowIsValid cols r := by
  rw [(mem_replicate.1 hr).2]
  refine ⟨length_replicate, fun c hc => ?_⟩
  rw [(mem_replicate.1 hc).2]
  exact Cell.blank_isValid

theorem blank_isValid {s : ScreenState} (h : blank rows cols = .ok s) :
    s.IsValid ∧ s.rows = rows ∧ s.cols = cols := by
  unfold blank at h
  split_ifs at h with hsize
  cases h
  refine ⟨⟨hsize, ?_, ?_, Modes.none_isValid, length_replicate, ?_⟩, rfl, rfl⟩
  · exact hsize.1.1
  · exact hsize.2.1.1
  · exact fun r hr => blankGrid_row_isValid hr

end ScreenState

end Qsh.Screen
