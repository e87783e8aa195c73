import Qsh.Lib.Fault
import Qsh.Screen.State

/-!
# Screen diffs

`ScreenDiff::between` and `ScreenDiff::apply` (`qsh-proto/src/screen/diff.rs`).

`scanRow` walks a row, and `mergeEnd` looks ahead from a changed cell for another one at
most `MERGE_GAP` cells on.  Index and slice accesses can panic (`Fault.panic`), also
those of `apply`, which gets its diff from the network.

The invariant of the row scan is the row written so far: the new cells up to the scan
position and the old ones behind it.  `safe_apply`: whatever the diff says, its
application to a valid screen gives a valid screen or an error.
-/

namespace Qsh.Screen

open Qsh.Lib List

def MERGE_GAP : Nat := 4

inductive ApplyError
  | badSize
  | badHeader
  | outOfRange
  | hashMismatch
  deriving DecidableEq, Repr

structure Run where
  col : Nat
  cells : List Cell
  deriving DecidableEq, Repr

structure RowChange where
  row : Nat
  wrapped : Bool
  runs : List Run
  deriving DecidableEq, Repr

structure ScreenDiff where
  rows : Nat
  cols : Nat
  cursorRow : Nat
  cursorCol : Nat
  modes : Modes
  changes : List RowChange
  deriving DecidableEq, Repr

/-! ## Computing a diff -/

/-- The inner loop of the row scan: the end of the run that has reached `e`,
from column `k` on. -/
def mergeEnd (old new : List Cell) : Nat → Nat → Nat → Except (Fault BadSize) Nat
  | 0, e, _ => pure e
  | fuel + 1, e, k =>
      if k < new.length ∧ k - e ≤ MERGE_GAP then do
        let a ← index old k
        let b ← index new k
        mergeEnd old new fuel (if a ≠ b then k + 1 else e) (k + 1)
      else pure e

/-- The runs of changed cells; a short gap does not end a run. -/
def scanRow (old new : List Cell) : Nat → Nat → Except (Fault BadSize) (List Run)
  | 0, _ => pure []
  | fuel + 1, c =>
      if c < new.length then do
        let a ← index old c
        let b ← index new c
        if a = b then scanRow old new fuel (c + 1)
        else do
          let e ← mergeEnd old new new.length (c + 1) (c + 1)
          let cells ← sliceOf new c e
          let runs ← scanRow old new fuel e
          -- `start as u16`
          pure ({ col := c % 2 ^ 16, cells := cells } :: runs)
      else pure []

def rowChanges : Nat → List (Row × Row) → Except (Fault BadSize) (List RowChange)
  | _, [] => pure []
  | r, (old, new) :: rest => do
      let runs ← scanRow old.cells new.cells new.cells.length 0
      let changes ← rowChanges (r + 1) rest
      if runs ≠ [] ∨ old.wrapped ≠ new.wrapped then
        pure ({ row := r % 2 ^ 16, wrapped := new.wrapped, runs := runs } :: changes)
      else pure changes

namespace ScreenDiff

/-- The screen a diff to size `rows` by `cols` starts from: the base, or the
blank screen if the size changes. -/
def startFrom {ε : Type} (bad : ε) (base : ScreenState) (rows cols : Nat) :
    Except (Fault ε) ScreenState :=
  if base.rows = rows ∧ base.cols = cols then .ok base
  else
    match ScreenState.blank rows cols with
    | .ok s => .ok s
    | .error _ => .error (.err bad)

/-- The difference of two states. -/
def between (base new : ScreenState) : Except (Fault BadSize) ScreenDiff := do
  let start ← startFrom { rows := new.rows, cols := new.cols } base new.rows new.cols
  let changes ← rowChanges 0 (start.grid.zip new.grid)
  pure
    { rows := new.rows
      cols := new.cols
      cursorRow := new.cursorRow
      cursorCol := new.cursorCol
      modes := new.modes
      changes := changes }

end ScreenDiff

/-! ## Applying a diff -/

/-- The loop over the runs of a row.  `nextFree` is the end of the run before. -/
def applyRuns (cols : Nat) : Nat → List Run → List Cell → Except (Fault ApplyError) (List Cell)
  | _, [], cells => pure cells
  | nextFree, run :: runs, cells =>
      if run.cells = [] ∨ run.col < nextFree ∨ run.col + run.cells.length > cols ∨
          ¬∀ c ∈ run.cells, c.IsValid then
        .error (.err .outOfRange)
      else do
        let cells ← overwrite cells run.col run.cells
        applyRuns cols (run.col + run.cells.length) runs cells

def applyChanges (rows cols : Nat) :
    Option Nat → List RowChange → List Row → Except (Fault ApplyError) (List Row)
  | _, [], grid => pure grid
  | lastRow, change :: changes, grid =>
      if change.row ≥ rows ∨ ∃ l ∈ lastRow, change.row ≤ l then .error (.err .outOfRange)
      else do
        let row ← index grid change.row
        let cells ← applyRuns cols 0 change.runs row.cells
        applyChanges rows cols (some change.row) changes
          (grid.set change.row { cells := cells, wrapped := change.wrapped })

/-- Applies a difference to its base. -/
def ScreenDiff.apply (d : ScreenDiff) (base : ScreenState) :
    Except (Fault ApplyError) ScreenState :=
  if ¬SizeIsValid d.rows d.cols then .error (.err .badSize)
  else if d.cursorRow ≥ d.rows ∨ d.cursorCol ≥ d.cols ∨ ¬d.modes.IsValid then
    .error (.err .badHeader)
  else do
    let out ← startFrom .badSize base d.rows d.cols
    let grid ← applyChanges d.rows d.cols none d.changes out.grid
    pure
      { out with
        cursorRow := d.cursorRow
        cursorCol := d.cursorCol
        modes := d.modes
        grid := grid }

/-! ## The row scan -/

variable {old new : List Cell}

variable {e c : Nat}

theorem mergeEnd_spec (hlen : old.length = new.length) (fuel : Nat)
    {k : Nat} (he : e ≤ new.length) (hk : e ≤ k) :
    ∃ e', mergeEnd old new fuel e k = .ok e' ∧ e ≤ e' ∧ e' ≤ new.length := by
  induction fuel generalizing e k with
  | zero => exact ⟨e, rfl, Nat.le_refl e, he⟩
  | succ fuel ih =>
    rw [mergeEnd]
    by_cases hgo : k < new.length ∧ k - e ≤ MERGE_GAP
    · rw [if_pos hgo, bind_of_ok _ (index_of_lt (hlen ▸ hgo.1)), bind_of_ok _ (index_of_lt hgo.1)]
      split_ifs
      · obtain ⟨e', hrun, hle, hend⟩ := ih (e := k + 1) hgo.1 (Nat.le_refl _)
        exact ⟨e', hrun, by omega, hend⟩
      · exact ih he (by omega)
    · exact ⟨e, if_neg hgo, Nat.le_refl e, he⟩

theorem take_append_drop_succ (ho : c < old.length) (hn : c < new.length) (heq : old[c] = new[c]) :
    new.take c ++ old.drop c = new.take (c + 1) ++ old.drop (c + 1) := by
  rw [drop_eq_getElem_cons ho, take_add_one, getElem?_eq_getElem hn, heq, append_assoc]
  rfl

/-- Writing the new cells from `c` to `e` moves the boundary between new and
old cells from `c` to `e`. -/
theorem overwrite_scanned (hlen : old.length = new.length) (hce : c ≤ e) (he : e ≤ new.length) :
    (overwrite (new.take c ++ old.drop c) c (slice new c e) :
      Except (Fault ApplyError) (List Cell)) = .ok (new.take e ++ old.drop e) := by
  have htake : (new.take c).length = c := length_take_of_le (by omega)
  have hslice : (slice new c e).length = e - c := length_slice he
  rw [overwrite_of_le (by rw [hslice, length_append, htake, length_drop]; omega),
    hslice, take_left' htake, show c + (e - c) = (new.take c).length + (e - c) by omega,
    drop_length_add_append, drop_drop, ← append_assoc, ← slice_zero new c,
    slice_append_slice (Nat.zero_le c) hce, slice_zero, show c + (e - c) = e by omega]

/-- The scan of a row does not panic, and the runs it finds turn the old row
into the new one: applied where the cells before `c` are new and the others
old, they give the new row. -/
theorem applyRuns_scanRow (hlen : old.length = new.length)
    (hcols : new.length ≤ 2 ^ 16) (hvalid : ∀ c ∈ new, c.IsValid) (fuel : Nat)
    (hc : c ≤ new.length) (hfuel : new.length - c ≤ fuel) :
    ∃ runs, scanRow old new fuel c = .ok runs ∧ ∀ nextFree ≤ c,
        applyRuns new.length nextFree runs (new.take c ++ old.drop c) = .ok new := by
  have hdone : ∀ c, c = new.length → new.take c ++ old.drop c = new := by
    intro c h
    rw [h, take_length, ← hlen, drop_length, append_nil]
  induction fuel generalizing c with
  | zero => exact ⟨[], rfl, fun _ _ => congrArg _ (hdone c (by omega))⟩
  | succ fuel ih =>
    rw [scanRow]
    by_cases hlt : c < new.length
    swap
    · exact ⟨[], if_neg hlt, fun _ _ => congrArg _ (hdone c (by omega))⟩
    have ho : c < old.length := hlen ▸ hlt
    rw [if_pos hlt, bind_of_ok _ (index_of_lt ho), bind_of_ok _ (index_of_lt hlt)]
    by_cases heq : old[c] = new[c]
    · obtain ⟨runs, hscan, happly⟩ := ih (c := c + 1) hlt (by omega)
      refine ⟨runs, by rw [if_pos heq, hscan], fun nextFree hfree => ?_⟩
      rw [take_append_drop_succ ho hlt heq]
      exact happly nextFree (by omega)
    obtain ⟨e, hmerge, hle, hend⟩ := mergeEnd_spec hlen new.length hlt (Nat.le_refl (c + 1))
    obtain ⟨runs, hscan, happly⟩ := ih (c := e) hend (by omega)
    refine ⟨{ col := c % 2 ^ 16, cells := slice new c e } :: runs, ?_, ?_⟩
    · rw [if_neg heq, bind_of_ok _ hmerge, bind_of_ok _ (sliceOf_of_le (by omega) hend),
        bind_of_ok _ hscan]
      rfl
    intro nextFree hfree
    have hcol : c % 2 ^ 16 = c := Nat.mod_eq_of_lt (by omega)
    have hslice : (slice new c e).length = e - c := length_slice hend
    have hne : slice new c e ≠ [] := fun h => by rw [h, length_nil] at hslice; omega
    have hcells : ∀ x ∈ slice new c e, x.IsValid :=
      fun x hx => hvalid x (mem_of_mem_drop (mem_of_mem_take hx))
    rw [applyRuns, hcol, hslice, if_neg,
      bind_of_ok _ (overwrite_scanned hlen (by omega) hend),
      show c + (e - c) = e by omega]
    · exact happly e (Nat.le_refl e)
    rintro (h | h | h | h)
    · exact hne h
    · exact Nat.not_lt.2 hfree h
    · have hgt : c + (e - c) > new.length := h
      omega
    · exact h hcells

/-! ## The grid -/

/-- The scan of the rows does not panic, and the changes it finds turn the old
rows into the new ones behind the rows `done` that are new already. -/
theorem applyChanges_rowChanges {cols : Nat} (hcols : cols ≤ 2 ^ 16) {olds news : List Row}
    (hlen : olds.length = news.length) (hold : ∀ r ∈ olds, r.cells.length = cols)
    (hnew : ∀ r ∈ news, ScreenState.RowIsValid cols r) (done : List Row)
    (hrows : done.length + news.length ≤ 2 ^ 16) :
    ∃ changes, rowChanges done.length (olds.zip news) = .ok changes ∧
      ∀ lastRow : Option Nat, (∀ l ∈ lastRow, l < done.length) →
        applyChanges (done.length + news.length) cols lastRow changes (done ++ olds) =
          .ok (done ++ news) := by
  induction olds generalizing news done with
  | nil =>
    obtain rfl : news = [] := length_eq_zero_iff.1 hlen.symm
    exact ⟨[], rfl, fun _ _ => rfl⟩
  | cons old olds ih =>
    cases news with
    | nil => cases hlen
    | cons new news =>
      obtain ⟨hwidth, hcells⟩ := hnew new mem_cons_self
      have hsame : old.cells.length = new.cells.length :=
        (hold old mem_cons_self).trans hwidth.symm
      obtain ⟨runs, hscan, happly⟩ := applyRuns_scanRow hsame (hwidth ▸ hcols) hcells
        new.cells.length (Nat.zero_le _) (by omega)
      have hrow : applyRuns cols 0 runs old.cells = .ok new.cells :=
        hwidth ▸ happly 0 (Nat.le_refl 0)
      have hdone : (done ++ [new]).length = done.length + 1 := by simp
      rw [length_cons] at hrows
      obtain ⟨changes, hchanges, hrest⟩ := ih (Nat.succ.inj hlen)
        (fun r hr => hold r (mem_cons_of_mem _ hr))
        (fun r hr => hnew r (mem_cons_of_mem _ hr)) (done ++ [new]) (by omega)
      rw [hdone] at hchanges hrest
      have hsize : done.length + 1 + news.length = done.length + (new :: news).length := by
        rw [length_cons]
        omega
      rw [hsize, append_assoc, append_assoc] at hrest
      rw [zip_cons_cons, rowChanges, bind_of_ok _ hscan, bind_of_ok _ hchanges]
      by_cases hpush : runs ≠ [] ∨ old.wrapped ≠ new.wrapped
      · refine ⟨_, if_pos hpush, fun lastRow hlast => ?_⟩
        have hindex : done.length % 2 ^ 16 = done.length := Nat.mod_eq_of_lt (by omega)
        have hat : (done ++ old :: olds)[done.length]? = some old := by simp
        rw [applyChanges, hindex, if_neg, bind_of_ok _ (index_of_getElem? hat), bind_of_ok _ hrow,
           set_append_right _ _ (Nat.le_refl _), Nat.sub_self]
        · exact hrest (some done.length) (fun l hl => by cases hl; exact Nat.lt_succ_self _)
        rintro (h | ⟨l, hl, h⟩)
        · have hge : done.length ≥ done.length + (new :: news).length := h
          rw [length_cons] at hge
          omega
        · exact Nat.not_lt.2 h (hlast l hl)
      -- nothing to send: the old row is the new row
      obtain ⟨hruns, hwrap⟩ := not_or.1 hpush
      rw [not_not.1 hruns, applyRuns] at hrow
      have heq : old = new := by
        cases old; cases new
        cases hrow
        cases not_not.1 hwrap
        rfl
      refine ⟨changes, if_neg hpush, fun lastRow hlast => ?_⟩
      rw [heq]
      exact hrest lastRow (fun l hl => Nat.lt_succ_of_lt (hlast l hl))

/-! ## Diffs between valid screens -/

namespace ScreenDiff

variable {base : ScreenState} {rows cols : Nat}

theorem startFrom_spec {ε : Type} (bad : ε) (hbase : base.IsValid) (hsize : SizeIsValid rows cols) :
    ∃ start, startFrom bad base rows cols = .ok start ∧ start.IsValid ∧ start.rows = rows ∧
      start.cols = cols := by
  unfold startFrom
  by_cases hsame : base.rows = rows ∧ base.cols = cols
  · exact ⟨base, if_pos hsame, hbase, hsame⟩
  · obtain ⟨hvalid, hrows, hcols⟩ := ScreenState.blank_isValid (ScreenState.blank_eq hsize)
    rw [if_neg hsame, ScreenState.blank_eq hsize]
    exact ⟨_, rfl, hvalid, hrows, hcols⟩

theorem startFrom_eq_ok {ε δ : Type} {bad : ε} (bad' : δ) {start : ScreenState}
    (h : startFrom bad base rows cols = .ok start) :
    startFrom bad' base rows cols = .ok start := by
  unfold startFrom at h ⊢
  split_ifs at h ⊢ with hsame
  · cases h
    rfl
  · cases hb : ScreenState.blank rows cols with
    | ok s => rw [hb] at h; cases h; rfl
    | error e => rw [hb] at h; cases h

theorem size_le (s : ScreenState) (hs : s.IsValid) : s.rows ≤ 2 ^ 16 ∧ s.cols ≤ 2 ^ 16 := by
  obtain ⟨⟨⟨-, hr⟩, ⟨-, hc⟩, -⟩, -⟩ := hs
  exact ⟨Nat.le_trans hr (by decide), Nat.le_trans hc (by decide)⟩

theorem apply_between {new : ScreenState} (hbase : base.IsValid) (hnew : new.IsValid) :
    ∃ d, between base new = .ok d ∧ d.rows = new.rows ∧ d.cols = new.cols ∧
      d.apply base = .ok new := by
  obtain ⟨hrows, hcols⟩ := size_le new hnew
  obtain ⟨hsize, hcrow, hccol, hmodes, hgrid, hvalid⟩ := hnew
  obtain ⟨start, hstart, ⟨-, -, -, -, hlen, hold⟩, hsr, hsc⟩ :=
    startFrom_spec (BadSize.mk new.rows new.cols) hbase hsize
  rw [hsr] at hlen
  rw [hsc] at hold
  obtain ⟨changes, hchanges, happly⟩ := applyChanges_rowChanges hcols (hlen.trans hgrid.symm)
    (fun r hr => (hold r hr).1) hvalid [] (by rw [length_nil]; omega)
  have happly := happly none nofun
  rw [length_nil, Nat.zero_add, hgrid] at happly
  refine ⟨_, (bind_of_ok _ hstart).trans (bind_of_ok _ hchanges), rfl, rfl, ?_⟩
  rw [ScreenDiff.apply, if_neg (not_not.2 hsize), if_neg, bind_of_ok _ (startFrom_eq_ok _ hstart)]
  · refine (bind_of_ok _ happly).trans ?_
    cases new
    cases hsr
    cases hsc
    rfl
  · rintro (h | h | h)
    · exact Nat.not_le.2 hcrow h
    · exact Nat.not_le.2 hccol h
    · exact h hmodes

theorem apply_of_size_ne {d : ScreenDiff} {s b : ScreenState}
    (hb : ScreenState.blank d.rows d.cols = .ok b) (hne : ¬(s.rows = d.rows ∧ s.cols = d.cols)) :
    d.apply s = d.apply b := by
  obtain ⟨-, hrows, hcols⟩ := ScreenState.blank_isValid hb
  have hs : startFrom ApplyError.badSize s d.rows d.cols = .ok b := by
    rw [startFrom, if_neg hne, hb]
  have hb' : startFrom ApplyError.badSize b d.rows d.cols = .ok b := by
    rw [startFrom, if_pos ⟨hrows, hcols⟩]
  rw [ScreenDiff.apply, ScreenDiff.apply, hs, hb']

end ScreenDiff

/-! ## Diffs from the network -/

theorem safe_applyRuns (cols nextFree : Nat) (runs : List Run) {cells : List Cell}
    (hlen : cells.length = cols) (hvalid : ∀ c ∈ cells, c.IsValid) :
    Safe (fun cells => cells.length = cols ∧ ∀ c ∈ cells, c.IsValid)
      (applyRuns cols nextFree runs cells) := by
  induction runs generalizing nextFree cells with
  | nil => exact ⟨hlen, hvalid⟩
  | cons run runs ih =>
    rw [applyRuns]
    split_ifs with hbad
    · trivial
    simp only [not_or, not_not] at hbad
    obtain ⟨-, -, hend, hcells⟩ := hbad
    have hfit : run.col + run.cells.length ≤ cells.length := by omega
    rw [bind_of_ok _ (overwrite_of_le hfit)]
    refine ih _ ?_ ?_
    · rw [length_append, length_append, length_take, length_drop]
      omega
    intro c hc
    rcases mem_append.1 hc with h | h
    · exact hvalid c (mem_of_mem_take h)
    rcases mem_append.1 h with h | h
    · exact hcells c h
    · exact hvalid c (mem_of_mem_drop h)

theorem safe_applyChanges (rows cols : Nat) (lastRow : Option Nat) (changes : List RowChange)
    {grid : List Row} (hlen : grid.length = rows)
    (hvalid : ∀ r ∈ grid, ScreenState.RowIsValid cols r) :
    Safe (fun grid => grid.length = rows ∧ ∀ r ∈ grid, ScreenState.RowIsValid cols r)
      (applyChanges rows cols lastRow changes grid) := by
  induction changes generalizing lastRow grid with
  | nil => exact ⟨hlen, hvalid⟩
  | cons change changes ih =>
    rw [applyChanges]
    split_ifs with hbad
    · trivial
    have hrow : change.row < grid.length := by
      omega
    refine (Safe.index hrow hvalid).bind fun row hrow => ?_
    refine (safe_applyRuns cols 0 change.runs hrow.1 hrow.2).bind fun cells hcells => ?_
    refine ih _ (by rw [length_set]; exact hlen) fun r hr => ?_
    rcases mem_or_eq_of_mem_set hr with h | rfl
    · exact hvalid r h
    · exact hcells

theorem ScreenDiff.safe_apply (d : ScreenDiff) {s : ScreenState} (hs : s.IsValid) :
    Safe ScreenState.IsValid (d.apply s) := by
  unfold ScreenDiff.apply
  split_ifs with hsize hhead
  · trivial
  · simp only [not_or, not_not, Nat.not_le, ge_iff_le] at hhead
    obtain ⟨hcrow, hccol, hmodes⟩ := hhead
    obtain ⟨start, hstart, ⟨-, -, -, -, hlen, hvalid⟩, hrows, hcols⟩ :=
      startFrom_spec ApplyError.badSize hs hsize
    rw [bind_of_ok _ hstart]
    rw [hrows] at hlen
    rw [hcols] at hvalid
    refine (safe_applyChanges d.rows d.cols none d.changes hlen hvalid).bind fun grid hgrid => ?_
    refine ⟨?_, ?_, ?_, hmodes, ?_, ?_⟩
    all_goals simp only [hrows, hcols]
    · exact hsize
    · exact hcrow
    · exact hccol
    · exact hgrid.1
    · exact hgrid.2
  · trivial

end Qsh.Screen
