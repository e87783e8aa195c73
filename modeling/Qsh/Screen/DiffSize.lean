import Mathlib.Algebra.BigOperators.Group.List.Basic
import Qsh.Screen.DiffCodec

/-!
# Diffs of the host obey the rules and are of bounded size

The diff obeys the rules of the format (`between_isOk`), which
follows from the fact that it can be applied.  Its encoding is no longer than
a cost that can be read off the two screens (`length_encode_between_le`): for
every row that changed, the encodings of its cells, with room for a run header
at every changed cell and for the header of the row.
-/

namespace Qsh.Screen

open Qsh.Lib List

/-! ## A diff that can be applied obeys the rules -/

variable {cols c e : Nat} {runs : List Run}

theorem chain_of_applyRuns {nextFree : Nat} {cells cells' : List Cell}
    (h : applyRuns cols nextFree runs cells = .ok cells') :
    Chain (RunIsOk cols) (fun _ r => r.col + r.cells.length) nextFree runs := by
  induction runs generalizing nextFree cells with
  | nil => trivial
  | cons run runs ih =>
    rw [applyRuns] at h
    split_ifs at h with hbad
    simp only [not_or, not_not, not_lt] at hbad
    obtain ⟨hne, hfree, hend, hcells⟩ := hbad
    obtain ⟨written, hover, h⟩ := bind_eq_ok h
    exact ⟨⟨hne, hfree, hend, hcells⟩, ih h⟩

variable {changes : List RowChange}

theorem chain_of_applyChanges {rows : Nat} {lastRow : Option Nat} {grid grid' : List Row}
    (h : applyChanges rows cols lastRow changes grid = .ok grid') :
    Chain (ChangeIsOk rows cols) (fun _ c => some c.row) lastRow changes := by
  induction changes generalizing lastRow grid with
  | nil => trivial
  | cons change changes ih =>
    rw [applyChanges] at h
    split_ifs at h with hbad
    obtain ⟨hrow, hlast⟩ := not_or.1 hbad
    obtain ⟨row, hindex, h⟩ := bind_eq_ok h
    obtain ⟨cells, hruns, h⟩ := bind_eq_ok h
    have hasc : ∀ l ∈ lastRow, l < change.row :=
      fun l hl => not_le.1 fun hle => hlast ⟨l, hl, hle⟩
    exact ⟨⟨not_le.1 hrow, hasc, chain_of_applyRuns hruns⟩, ih h⟩

variable {d : ScreenDiff}

theorem ScreenDiff.isOk_of_apply {s t : ScreenState} (h : d.apply s = .ok t) :
    d.IsOk := by
  unfold ScreenDiff.apply at h
  split_ifs at h with hsize hhead
  simp only [not_or, not_not, not_le, ge_iff_le] at hhead
  obtain ⟨hcrow, hccol, hmodes⟩ := hhead
  obtain ⟨out, hstart, h⟩ := bind_eq_ok h
  obtain ⟨grid, hgrid, h⟩ := bind_eq_ok h
  exact ⟨hsize, hcrow, hccol, hmodes, chain_of_applyChanges hgrid⟩

theorem ScreenDiff.between_isOk {base new : ScreenState} (hbase : base.IsValid)
    (hnew : new.IsValid) (h : between base new = .ok d) : d.IsOk := by
  obtain ⟨d', hd', -, -, happly⟩ := apply_between hbase hnew
  rw [h] at hd'
  cases hd'
  exact isOk_of_apply happly

/-! ## How long a diff is -/

def cellCost (old new : Cell) : Nat :=
  (putCell new).length + if old = new then 0 else 4

def cellsCost (old new : List Cell) (c : Nat) : Nat :=
  (((old.zip new).drop c).map fun p => cellCost p.1 p.2).sum

def rowCost (old new : Row) : Nat :=
  if old = new then 0 else 5 + cellsCost old.cells new.cells 0

def gridCost (olds news : List Row) : Nat :=
  ((olds.zip news).map fun p => rowCost p.1 p.2).sum

/-- A bound for the encoded difference. -/
def ScreenDiff.cost (base new : ScreenState) : Nat :=
  13 + gridCost (if base.rows = new.rows ∧ base.cols = new.cols then base.grid
      else ScreenState.blankGrid new.rows new.cols)
    new.grid

variable {new old : List Cell}

theorem cellsCost_eq (ho : c < old.length) (hn : c < new.length) :
    cellsCost old new c = cellCost old[c] new[c] + cellsCost old new (c + 1) := by
  have hz : c < (old.zip new).length := by
    rw [length_zip]
    omega
  rw [cellsCost, drop_eq_getElem_cons hz, map_cons, sum_cons, getElem_zip]
  rfl

theorem slice_eq_cons (hce : c < e) (hn : c < new.length) :
    slice new c e = new[c] :: slice new (c + 1) e := by
  rw [slice, slice, drop_eq_getElem_cons hn, show e - c = (e - (c + 1)) + 1 by omega,
    take_succ_cons]

theorem length_slice_add_cellsCost_le (hlen : old.length = new.length)
    (hce : c ≤ e) (he : e ≤ new.length) :
    ((slice new c e).flatMap putCell).length + cellsCost old new e ≤ cellsCost old new c := by
  induction hce using Nat.decreasingInduction with
  | self => simp
  | of_succ c hc ih =>
    have hn : c < new.length := by omega
    rw [slice_eq_cons hc hn, flatMap_cons, length_append, cellsCost_eq (hlen ▸ hn) hn, cellCost]
    omega

theorem length_putVarint_le_two {v : Nat} (hv : v ≤ MAX_DIM) : (putVarint v).length ≤ 2 :=
  length_leb128_le (by decide) (lt_of_le_of_lt hv (by decide))

theorem length_putRun (col : Nat) (cells : List Cell) :
    (putRun { col := col, cells := cells }).length =
      (putVarint col).length + (putVarint cells.length).length +
        (cells.flatMap putCell).length := by
  rw [putRun, length_append, length_append, Nat.add_assoc]

theorem length_putChange (row : Nat) (wrapped : Bool) (runs : List Run) :
    (putChange { row := row, wrapped := wrapped, runs := runs }).length =
      (putVarint row).length + 1 + (putVarint runs.length).length +
        (runs.flatMap putRun).length := by
  rw [putChange, length_append, length_append, length_append, putWrap,
    length_singleton, Nat.add_assoc, Nat.add_assoc]

theorem length_scanRow_le (hlen : old.length = new.length)
    (hcols : new.length ≤ MAX_DIM) (fuel : Nat)
    (hc : c ≤ new.length) (h : scanRow old new fuel c = .ok runs) :
    (runs.flatMap putRun).length ≤ cellsCost old new c ∧ runs.length ≤ new.length - c := by
  induction fuel generalizing c runs with
  | zero => cases h; exact ⟨Nat.zero_le _, Nat.zero_le _⟩
  | succ fuel ih =>
    rw [scanRow] at h
    by_cases hlt : c < new.length
    · have ho : c < old.length := hlen ▸ hlt
      rw [if_pos hlt, bind_of_ok _ (index_of_lt ho), bind_of_ok _ (index_of_lt hlt)] at h
      rw [cellsCost_eq ho hlt]
      by_cases heq : old[c] = new[c]
      · rw [if_pos heq] at h
        obtain ⟨hcost, hcount⟩ := ih hlt h
        exact ⟨hcost.trans (Nat.le_add_left _ _), by omega⟩
      obtain ⟨e, hmerge, hle, hend⟩ := mergeEnd_spec hlen new.length hlt (Nat.le_refl (c + 1))
      rw [if_neg heq, bind_of_ok _ hmerge, bind_of_ok _ (sliceOf_of_le (by omega) hend)] at h
      obtain ⟨rest, hscan, h⟩ := bind_eq_ok h
      cases h
      obtain ⟨hrest, hcount⟩ := ih hend hscan
      have hcol := length_putVarint_le_two
        (le_trans (Nat.mod_le c (2 ^ 16)) (le_trans hc hcols))
      have hcells : (putVarint (slice new c e).length).length ≤ 2 :=
        length_putVarint_le_two (by rw [length_slice hend]; omega)
      have htail : ((slice new (c + 1) e).flatMap putCell).length + cellsCost old new e ≤
          cellsCost old new (c + 1) := length_slice_add_cellsCost_le hlen hle hend
      have hhead : ((slice new c e).flatMap putCell).length =
          (putCell new[c]).length + ((slice new (c + 1) e).flatMap putCell).length := by
        rw [slice_eq_cons hle hlt, flatMap_cons, length_append]
      -- the run header is paid by the changed cell that starts the run
      rw [flatMap_cons, length_append, length_putRun, length_cons, cellCost, if_neg heq]
      constructor <;> omega
    · rw [if_neg hlt] at h
      cases h
      exact ⟨Nat.zero_le _, Nat.zero_le _⟩

theorem scanRow_self (cells : List Cell) (fuel c : Nat) : scanRow cells cells fuel c = .ok [] := by
  induction fuel generalizing c with
  | zero => rfl
  | succ fuel ih =>
    rw [scanRow]
    by_cases hlt : c < cells.length
    · rw [if_pos hlt, bind_of_ok _ (index_of_lt hlt), bind_of_ok _ (index_of_lt hlt), if_pos rfl]
      exact ih (c + 1)
    · exact if_neg hlt

theorem length_rowChanges_le (hcols : cols ≤ MAX_DIM) {olds news : List Row}
    (hlen : olds.length = news.length) (hold : ∀ r ∈ olds, r.cells.length = cols)
    (hnew : ∀ r ∈ news, r.cells.length = cols) {r : Nat} (hr : r + news.length ≤ MAX_DIM)
    (h : rowChanges r (olds.zip news) = .ok changes) :
    (changes.flatMap putChange).length ≤ gridCost olds news ∧ changes.length ≤ news.length := by
  induction olds generalizing news r changes with
  | nil => cases h; exact ⟨Nat.zero_le _, Nat.zero_le _⟩
  | cons old olds ih =>
    cases news with
    | nil => cases hlen
    | cons new news =>
      have ho := hold old mem_cons_self
      have hn := hnew new mem_cons_self
      rw [zip_cons_cons, rowChanges] at h
      rw [length_cons] at hr ⊢
      obtain ⟨runs, hscan, h⟩ := bind_eq_ok h
      obtain ⟨rest, hrest, h⟩ := bind_eq_ok h
      obtain ⟨hcost, hcount⟩ := ih (Nat.succ.inj hlen)
        (fun x hx => hold x (mem_cons_of_mem _ hx))
        (fun x hx => hnew x (mem_cons_of_mem _ hx)) (by omega) hrest
      have hsum : gridCost (old :: olds) (new :: news) =
          rowCost old new + gridCost olds news := by
        rw [gridCost, zip_cons_cons, map_cons, sum_cons]
        rfl
      rw [hsum]
      split_ifs at h with hpush
      · cases h
        have hne : old ≠ new := by
          rintro rfl
          rw [scanRow_self] at hscan
          cases hscan
          exact hpush.elim (fun h => h rfl) (fun h => h rfl)
        obtain ⟨hruns, hcount'⟩ :=
          length_scanRow_le (ho.trans hn.symm) (hn ▸ hcols) _ (Nat.zero_le _) hscan
        have hrow := length_putVarint_le_two
          (le_trans (Nat.mod_le r (2 ^ 16)) (show r ≤ MAX_DIM by omega))
        have hruns' : (putVarint runs.length).length ≤ 2 :=
          length_putVarint_le_two (by omega)
        rw [flatMap_cons, length_append, length_putChange, length_cons, rowCost, if_neg hne]
        constructor <;> omega
      · cases h
        exact ⟨hcost.trans (Nat.le_add_left _ _), by omega⟩

theorem ScreenDiff.length_encode_between_le {base new : ScreenState}
    (hbase : base.IsValid) (hnew : new.IsValid) (h : between base new = .ok d) :
    d.encode.length ≤ cost base new := by
  obtain ⟨hsize, hcrow, hccol, -, hgrid, hvalid⟩ := hnew
  obtain ⟨start, hstart, ⟨-, -, -, -, hlen, hold⟩, hrows, hcols⟩ :=
    startFrom_spec (BadSize.mk new.rows new.cols) hbase hsize
  rw [between, bind_of_ok _ hstart] at h
  obtain ⟨changes, hchanges, h⟩ := bind_eq_ok h
  cases h
  have hstartGrid : start.grid =
      if base.rows = new.rows ∧ base.cols = new.cols then base.grid
      else ScreenState.blankGrid new.rows new.cols := by
    unfold startFrom at hstart
    split_ifs at hstart ⊢ with hsame
    · cases hstart
      rfl
    · rw [ScreenState.blank_eq hsize] at hstart
      cases hstart
      rfl
  rw [hrows] at hlen
  rw [hcols] at hold
  have hmax : new.rows ≤ MAX_DIM ∧ new.cols ≤ MAX_DIM := ⟨hsize.1.2, hsize.2.1.2⟩
  obtain ⟨hcost, hcount⟩ := length_rowChanges_le hmax.2 (hlen.trans hgrid.symm)
    (fun r hr => (hold r hr).1) (fun r hr => (hvalid r hr).1) (by omega) hchanges
  have h1 := length_putVarint_le_two hmax.1
  have h2 := length_putVarint_le_two hmax.2
  have h3 : (putVarint new.cursorRow).length ≤ 2 := length_putVarint_le_two (by omega)
  have h4 : (putVarint new.cursorCol).length ≤ 2 := length_putVarint_le_two (by omega)
  have h5 : (putVarint changes.length).length ≤ 2 := length_putVarint_le_two (by omega)
  rw [cost, ← hstartGrid]
  simp only [encode, putModes, length_append, length_cons, length_nil]
  omega

end Qsh.Screen
