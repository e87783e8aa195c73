import Qsh.Screen.Codec
import Qsh.Screen.Diff

/-!
# The encoding of a screen diff

`ScreenDiff::encode_into`, `read` and `decode` (`qsh-proto/src/screen/diff.rs`).

`ScreenDiff.IsOk` are the rules of the format: runs are not empty, do not overlap
and stay on the row, changed rows ascend and stay on the screen, and every cell is
valid.  `exact_readDiff` says that the reader accepts exactly the encodings of the
diffs that obey them: its own caps on counts and its demand for a minimum of bytes
an item never fire on such a diff.
-/

namespace Qsh.Screen

open Qsh.Lib List

/-! ## The encoder -/

def putRun (r : Run) : List UInt8 :=
  putVarint r.col ++ (putVarint r.cells.length ++ r.cells.flatMap putCell)

def putWrap (wrapped : Bool) : List UInt8 :=
  [if wrapped then 1 else 0]

def putChange (c : RowChange) : List UInt8 :=
  putVarint c.row ++ (putWrap c.wrapped ++ (putVarint c.runs.length ++ c.runs.flatMap putRun))

def putModes (m : Modes) : List UInt8 :=
  [m.flags, m.mouseMode, m.mouseEncoding]

/-- The bytes of a difference. -/
def ScreenDiff.encode (d : ScreenDiff) : List UInt8 :=
  putVarint d.rows ++ (putVarint d.cols ++ (putVarint d.cursorRow ++ (putVarint d.cursorCol ++
    (putModes d.modes ++ (putVarint d.changes.length ++ d.changes.flatMap putChange)))))

/-! ## The reader -/

namespace Read

def rowRun (cols nextFree : Nat) : Read Run := do
  let col ← varintU16
  let cells ← items 2 (fun n => ¬(n = 0 ∨ col < nextFree ∨ col + n > cols))
    "run is empty, overlapping or off the row" (fun _ => cell) (fun _ _ => ()) ()
  pure { col := col, cells := cells }

def wrap : Read Bool := do
  let b ← u8
  if b = 0 then pure false
  else if b = 1 then pure true
  else throw (.invalid "wrap flag is not 0 or 1")

def change (rows cols : Nat) (lastRow : Option Nat) : Read RowChange := do
  let row ← varintU16
  ensure (¬(row ≥ rows ∨ ∃ l ∈ lastRow, row ≤ l)) (.invalid "changed rows are not ascending")
  let wrapped ← wrap
  let runs ← items 4 (fun n => n ≤ cols) "more runs than columns" (rowRun cols)
    (fun _ r => r.col + r.cells.length) 0
  pure { row := row, wrapped := wrapped, runs := runs }

def modes : Read Modes := do
  let flags ← u8
  let mouseMode ← u8
  let mouseEncoding ← u8
  pure { flags := flags, mouseMode := mouseMode, mouseEncoding := mouseEncoding }

def diff : Read ScreenDiff := do
  let rows ← varintU16
  let cols ← varintU16
  ensure (SizeIsValid rows cols) (.invalid "screen size out of range")
  let cursorRow ← varintU16
  let cursorCol ← varintU16
  ensure (¬(cursorRow ≥ rows ∨ cursorCol ≥ cols)) (.invalid "cursor outside the screen")
  let m ← modes
  ensure m.IsValid (.invalid "mode value out of range")
  let changes ← items 3 (fun n => n ≤ rows) "more changed rows than rows" (change rows cols)
    (fun _ c => some c.row) none
  pure
    { rows := rows
      cols := cols
      cursorRow := cursorRow
      cursorCol := cursorCol
      modes := m
      changes := changes }

end Read

def decodeAll {α : Type} (r : Read α) (bytes : List UInt8) : Except DecodeError α :=
  match r.run bytes with
  | .ok (a, []) => .ok a
  | .ok (_, _ :: _) => .error .trailing
  | .error e => .error e

/-- Reads a difference, and nothing after it. -/
def ScreenDiff.decode (bytes : List UInt8) : Except DecodeError ScreenDiff :=
  decodeAll Read.diff bytes

/-! ## The rules of the format -/

def RunIsOk (cols nextFree : Nat) (r : Run) : Prop :=
  r.cells ≠ [] ∧ nextFree ≤ r.col ∧ r.col + r.cells.length ≤ cols ∧ ∀ c ∈ r.cells, c.IsValid

def ChangeIsOk (rows cols : Nat) (lastRow : Option Nat) (c : RowChange) : Prop :=
  c.row < rows ∧ (∀ l ∈ lastRow, l < c.row) ∧
    Chain (RunIsOk cols) (fun _ r => r.col + r.cells.length) 0 c.runs

/-- What the encoder writes and the decoder accepts. -/
def ScreenDiff.IsOk (d : ScreenDiff) : Prop :=
  SizeIsValid d.rows d.cols ∧ d.cursorRow < d.rows ∧ d.cursorCol < d.cols ∧ d.modes.IsValid ∧
    Chain (ChangeIsOk d.rows d.cols) (fun _ c => some c.row) none d.changes

variable {cols nextFree : Nat}

theorem length_runs_le {runs : List Run}
    (h : Chain (RunIsOk cols) (fun _ r => r.col + r.cells.length) nextFree runs) :
    runs.length ≤ cols - nextFree := by
  induction runs generalizing nextFree with
  | nil => exact Nat.zero_le _
  | cons r runs ih =>
    obtain ⟨⟨hne, hfree, hend, -⟩, hrest⟩ := h
    have hpos : 0 < r.cells.length := length_pos_iff.2 hne
    have hrest : runs.length ≤ cols - (r.col + r.cells.length) := ih hrest
    rw [length_cons]
    omega

theorem length_changes_le {rows : Nat} {lastRow : Option Nat} {changes : List RowChange}
    (h : Chain (ChangeIsOk rows cols) (fun _ c => some c.row) lastRow changes) :
    changes.length ≤ rows - (lastRow.elim 0 Nat.succ) := by
  induction changes generalizing lastRow with
  | nil => exact Nat.zero_le _
  | cons c changes ih =>
    obtain ⟨⟨hrow, hlast, -⟩, hrest⟩ := h
    have hrest : changes.length ≤ rows - (c.row + 1) := ih hrest
    have hle : lastRow.elim 0 Nat.succ ≤ c.row := by
      cases lastRow with
      | none => exact Nat.zero_le _
      | some l => exact hlast l rfl
    rw [length_cons]
    omega

theorem four_le_length_putRun {r : Run} (h : RunIsOk cols nextFree r) :
    4 ≤ (putRun r).length := by
  have hcol := one_le_length_leb128 r.col
  have hcount := one_le_length_leb128 r.cells.length
  have hcells : r.cells.length * 2 ≤ (r.cells.flatMap putCell).length :=
    length_flatMap_ge (fun c _ => two_le_length_putCell c)
  have hpos : 0 < r.cells.length := length_pos_iff.2 h.1
  simp only [putRun, putVarint, length_append]
  omega

theorem three_le_length_putChange (c : RowChange) : 3 ≤ (putChange c).length := by
  have hrow := one_le_length_leb128 c.row
  have hcount := one_le_length_leb128 c.runs.length
  simp only [putChange, putWrap, putVarint, length_append, length_singleton]
  omega

/-! ## What the readers accept -/

namespace Read

theorem exact_wrap : Exact wrap (fun _ => True) putWrap where
  read_put w rest _ := by cases w <;> rfl
  of_read b w rest h := by
    obtain ⟨x, mid, hx, h⟩ := run_bind_eq_ok h
    refine ⟨trivial, ?_⟩
    split_ifs at h with h0 h1
    · cases h
      rw [eq_cons_of_u8 hx, h0]
      rfl
    · cases h
      rw [eq_cons_of_u8 hx, h1]
      rfl
    · cases h

theorem exact_modes : Exact modes (fun _ => True) putModes := by
  refine (exact_u8.bind (f := Modes.flags) (fun _ _ => exact_u8.bind (f := Modes.mouseMode)
    (fun _ _ => exact_u8.bind (f := Modes.mouseEncoding) (fun _ _ => .ret _) ?_) ?_) ?_).congr
    (fun _ => ⟨fun _ => ⟨trivial, trivial, trivial, rfl⟩, fun _ => trivial⟩) fun _ _ => rfl
  all_goals grind

theorem exact_cells {fits : Nat → Prop} [DecidablePred fits] (rule : String) :
    Exact (items 2 fits rule (fun _ => cell) (fun _ _ => ()) ())
      (fun cells => cells.length < 2 ^ 64 ∧ fits cells.length ∧ ∀ c ∈ cells, c.IsValid)
      (fun cells => putVarint cells.length ++ cells.flatMap putCell) := by
  refine (exact_items (fun _ => exact_cell) (by decide)
    (fun _ c _ => two_le_length_putCell c) ()).congr (fun cells => ?_) (fun _ _ => rfl)
  rw [chain_const_iff]

variable {cols rows : Nat}

theorem exact_rowRun {nextFree : Nat} (hcols : cols < 2 ^ 16) :
    Exact (rowRun cols nextFree) (RunIsOk cols nextFree) putRun := by
  refine (exact_varintU16.bind (f := Run.col) (fun _ _ => (exact_cells _).bind (f := Run.cells)
    (fun _ _ => .ret _) (by grind)) (by grind)).congr (fun r => ?_) (fun _ _ => by simp [putRun])
  have hempty := length_eq_zero_iff (l := r.cells)
  constructor
  · rintro ⟨hne, hfree, hend, hcells⟩
    have hpos := mt hempty.1 hne
    exact ⟨by omega, ⟨by omega, by omega, hcells⟩, rfl⟩
  · rintro ⟨-, ⟨-, hfits, hcells⟩, -⟩
    exact ⟨fun h => hfits (.inl (hempty.2 h)), by omega, by omega, hcells⟩

theorem exact_runs (hcols : cols < 2 ^ 16) :
    Exact (items 4 (fun n => n ≤ cols) "more runs than columns" (rowRun cols)
        (fun _ r => r.col + r.cells.length) 0)
      (Chain (RunIsOk cols) (fun _ r => r.col + r.cells.length) 0)
      (fun runs => putVarint runs.length ++ runs.flatMap putRun) := by
  refine (exact_items (fun _ => exact_rowRun hcols) (by decide)
    (fun _ _ h => four_le_length_putRun h) 0).congr (fun runs => ?_) (fun _ _ => rfl)
  refine ⟨fun h => ?_, fun h => h.2.2⟩
  have hle := length_runs_le h
  exact ⟨by omega, by omega, h⟩

theorem exact_change (hrows : rows < 2 ^ 16) (hcols : cols < 2 ^ 16) (lastRow : Option Nat) :
    Exact (change rows cols lastRow) (ChangeIsOk rows cols lastRow) putChange := by
  refine (exact_varintU16.bind (f := RowChange.row) (fun _ _ => .check fun _ =>
    exact_wrap.bind (f := RowChange.wrapped) (fun _ _ => (exact_runs hcols).bind
    (f := RowChange.runs) (fun _ _ => .ret _) (by grind)) (by grind)) (by grind)).congr
    (fun c => ?_) (fun _ _ => by simp [putChange])
  simp only [not_or, not_exists, not_and, not_le, ge_iff_le]
  constructor
  · rintro ⟨hrow, hlast, hruns⟩
    exact ⟨by omega, ⟨hrow, hlast⟩, trivial, hruns, trivial⟩
  · rintro ⟨-, ⟨hrow, hlast⟩, -, hruns, -⟩
    exact ⟨hrow, hlast, hruns⟩

theorem exact_changes (hrows : rows < 2 ^ 16) (hcols : cols < 2 ^ 16) :
    Exact (items 3 (fun n => n ≤ rows) "more changed rows than rows" (change rows cols)
        (fun _ c => some c.row) none)
      (Chain (ChangeIsOk rows cols) (fun _ c => some c.row) none)
      (fun changes => putVarint changes.length ++ changes.flatMap putChange) := by
  refine (exact_items (exact_change hrows hcols) (by decide)
    (fun _ c _ => three_le_length_putChange c) none).congr (fun changes => ?_) (fun _ _ => rfl)
  refine ⟨fun h => ?_, fun h => h.2.2⟩
  have hle : changes.length ≤ rows - 0 := length_changes_le h
  exact ⟨by omega, by omega, h⟩

theorem size_lt (h : SizeIsValid rows cols) : rows < 2 ^ 16 ∧ cols < 2 ^ 16 :=
  ⟨lt_of_le_of_lt h.1.2 (by decide), lt_of_le_of_lt h.2.1.2 (by decide)⟩

theorem exact_diff : Exact diff ScreenDiff.IsOk ScreenDiff.encode := by
  refine (exact_varintU16.bind (f := ScreenDiff.rows) (fun _ hrows =>
    exact_varintU16.bind (f := ScreenDiff.cols) (fun _ hcols => .check fun _ =>
    exact_varintU16.bind (f := ScreenDiff.cursorRow) (fun _ _ =>
    exact_varintU16.bind (f := ScreenDiff.cursorCol) (fun _ _ => .check fun _ =>
    exact_modes.bind (f := ScreenDiff.modes) (fun _ _ => .check fun _ =>
    (exact_changes hrows hcols).bind (f := ScreenDiff.changes) (fun _ _ => .ret _)
    ?_) ?_) ?_) ?_) ?_) ?_).congr (fun d => ⟨?_, ?_⟩) (fun _ _ => by simp [ScreenDiff.encode])
  case refine_7 =>
    rintro ⟨hsize, hrow, hcol, hmodes, hchanges⟩
    obtain ⟨hrows, hcols⟩ := size_lt hsize
    exact ⟨hrows, hcols, hsize, by omega, by omega, by omega, trivial, hmodes, hchanges, rfl⟩
  case refine_8 =>
    rintro ⟨-, -, hsize, -, -, hcursor, -, hmodes, hchanges, -⟩
    exact ⟨hsize, by omega, by omega, hmodes, hchanges⟩
  all_goals grind

end Read

theorem decodeAll_eq_ok_iff {α : Type} {r : Read α} {P : α → Prop} {put : α → List UInt8}
    (hr : Exact r P put) {bytes : List UInt8} {a : α} :
    decodeAll r bytes = .ok a ↔ P a ∧ bytes = put a := by
  constructor
  · intro h
    unfold decodeAll at h
    split at h <;> cases h
    rename_i a' hrun
    obtain ⟨hP, hb⟩ := hr.of_read _ _ _ hrun
    exact ⟨hP, by rw [hb, append_nil]⟩
  · rintro ⟨hP, rfl⟩
    have hrun := hr.read_put a [] hP
    rw [append_nil] at hrun
    rw [decodeAll, hrun]

/-! ## Diffs are correct -/

/-- Between valid screens of any sizes there is a diff, it turns the one into
the other, and on a screen of another size it does what it does on the blank
one.  A diff that was decoded from bytes gives a valid screen or an error on
every valid screen: no access is out of range. -/
theorem screen_diff_correct :
    (∀ base new : ScreenState, base.IsValid → new.IsValid →
      ∃ d b, ScreenDiff.between base new = .ok d ∧ d.apply base = .ok new ∧
        ScreenState.blank new.rows new.cols = .ok b ∧
        ∀ s : ScreenState, s.IsValid → ¬(s.rows = new.rows ∧ s.cols = new.cols) →
          d.apply s = d.apply b) ∧
    ∀ (bytes : List UInt8) (d : ScreenDiff) (s : ScreenState),
      ScreenDiff.decode bytes = .ok d → s.IsValid →
        (∃ t, d.apply s = .ok t ∧ t.IsValid) ∨ ∃ e, d.apply s = .error (.err e) := by
  refine ⟨fun base new hbase hnew => ?_, fun bytes d s _ hs => (d.safe_apply hs).ok_or_err⟩
  obtain ⟨d, hbetween, hrows, hcols, happly⟩ := ScreenDiff.apply_between hbase hnew
  have hblank := ScreenState.blank_eq hnew.1
  refine ⟨d, _, hbetween, happly, hblank, fun s _ hne => ?_⟩
  exact ScreenDiff.apply_of_size_ne (by rw [hrows, hcols]; exact hblank)
    (by rw [hrows, hcols]; exact hne)

def lineOf (flags : List UInt8) : ScreenState where
  rows := 1
  cols := flags.length
  cursorRow := 0
  cursorCol := 0
  modes := Modes.none
  grid := [{ cells := flags.map fun f => { Cell.blank with flags := f }, wrapped := false }]

/-- A line that changes in two places and grows by a cell, and the decoded
bytes of its diff. -/
theorem screen_diff_correct_lines :
    (∃ d b, ScreenDiff.between (lineOf [1, 0, 0]) (lineOf [0, 0, 2, 1]) = .ok d ∧
      d.apply (lineOf [1, 0, 0]) = .ok (lineOf [0, 0, 2, 1]) ∧
      ScreenState.blank 1 4 = .ok b ∧ d.apply (lineOf [4, 4]) = d.apply b) ∧
    ((∃ t, (ScreenDiff.mk 1 3 0 2 Modes.none []).apply (lineOf [4, 4]) = .ok t ∧ t.IsValid) ∨
      ∃ e, (ScreenDiff.mk 1 3 0 2 Modes.none []).apply (lineOf [4, 4]) = .error (.err e)) := by
  constructor
  · obtain ⟨d, b, hd, happly, hb, hother⟩ :=
      screen_diff_correct.1 (lineOf [1, 0, 0]) (lineOf [0, 0, 2, 1]) (by decide) (by decide)
    exact ⟨d, b, hd, happly, hb, hother (lineOf [4, 4]) (by decide) (by decide)⟩
  · exact screen_diff_correct.2 [1, 3, 0, 2, 0, 0, 0, 0] _ _ (by decide) (by decide)

end Qsh.Screen
