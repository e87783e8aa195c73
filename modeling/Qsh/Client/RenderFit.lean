import Qsh.Client.RenderRow

/-!
# A fitted frame can be drawn

`Frame.fit` gives a frame of whole characters (`fit_ok`), if the state, the
overlay and the status line are what their types say: the crop blanks a
double-width character that it cuts in half, and what the overlay cuts apart is
repaired.
-/

namespace Qsh.Client

open List

open Qsh.Screen (Text Cell ScreenState WIDE WIDE_CONT)

/-- A state whose cells are what their documentation says: a double-width cell
stands before its continuation, and the text of a cell has its width. -/
structure StateOk (W : Char → Nat) (state : ScreenState) : Prop where
  valid : state.IsValid
  rows : ∀ row ∈ state.grid, cellHalves.Paired false row.cells ∧ ∀ c ∈ row.cells, Drawable W c

/-- An overlay of such cells.  The column after one is a number of 16 bits. -/
def OverlayOk (W : Char → Nat) (o : Overlay) : Prop :=
  ∀ oc ∈ o.cells, Drawable W oc.cell ∧ oc.col + 1 < 65536

def StatusOk (W : Char → Nat) (text : Text) : Prop :=
  ∀ c ∈ text, W c = 1 ∧ Screen.isControl c = false

instance (W : Char → Nat) (o : Overlay) : Decidable (OverlayOk W o) :=
  inferInstanceAs (Decidable (∀ oc ∈ o.cells, _))

instance (W : Char → Nat) (text : Text) : Decidable (StatusOk W text) :=
  decidable_of_iff (text.all (fun c => W c == 1 && !Screen.isControl c) = true) <| by
    simp [StatusOk]

instance (W : Char → Nat) (state : ScreenState) : Decidable (StateOk W state) :=
  decidable_of_iff (state.IsValid ∧ ∀ row ∈ state.grid,
      cellHalves.Paired false row.cells ∧ ∀ c ∈ row.cells, Drawable W c)
    ⟨fun h => ⟨h.1, h.2⟩, fun h => ⟨h.valid, h.rows⟩⟩

section Fit

variable {W : Char → Nat}

/-! ## Single cells -/

theorem drawable_empty {c : Cell} (hvalid : c.IsValid) (hwide : hasFlag c WIDE = false)
    (htext : c.text = []) : Drawable W c := by
  refine ⟨hvalid, fun h => absurd (hwide.symm.trans h) Bool.false_ne_true, fun _ h => ?_,
    fun _ h => ?_⟩
  · rw [htext] at h
    cases h
  · rw [htext] at h
    cases h

theorem drawable_blank : Drawable W .blank :=
  drawable_empty Screen.Cell.blank_isValid rfl rfl

theorem hasFlag_visible (c : Cell) (flag : UInt8) : hasFlag (visible c) flag = hasFlag c flag := by
  unfold visible
  dsimp only
  split_ifs <;> rfl

theorem drawable_visible (hspace : W ' ' = 1) {c : Cell} (h : Drawable W c) :
    Drawable W (visible c) := by
  have hcolor : ∀ {c : Cell} (fg : Screen.Color), Drawable W c → Drawable W { c with fg } :=
    fun _ h => ⟨h.1, h.2.1, h.2.2.1, h.2.2.2⟩
  unfold visible
  dsimp only
  by_cases htext : c.text = [' ']
  · have hnarrow : hasFlag c WIDE = false := by
      have hwidth := h.2.2.1 ' ' (by rw [htext]; rfl)
      cases hwide : hasFlag c WIDE with
      | false => rfl
      | true =>
        rw [hwide, hspace] at hwidth
        cases hwidth
    have hempty : Drawable W { c with text := [] } :=
      drawable_empty ⟨h.1.1, h.1.2.1, Nat.zero_le _, rfl, fun hne => hne.2 rfl⟩ hnarrow rfl
    rw [if_pos htext]
    split
    · exact hcolor .default hempty
    · exact hempty
  · rw [if_neg htext]
    split
    · exact hcolor .default h
    · exact h

namespace Frame

/-! ## The host screen -/

variable {cell : Cell} {cols rows : Nat}

theorem drawable_fitCell (hspace : W ' ' = 1) (cols c : Nat)
    (h : Drawable W cell) : Drawable W (fitCell cols c cell) := by
  rw [fitCell]
  refine drawable_visible hspace ?_
  split
  · exact drawable_blank
  · exact h

theorem not_cut {c : Nat} (hfirst : c = 0 → hasFlag cell WIDE_CONT = false) :
    (hasFlag cell WIDE_CONT && c == 0) = false := by
  cases h : c == 0 with
  | false => rw [Bool.and_false]
  | true => rw [hfirst (beq_iff_eq.1 h), Bool.false_and]

theorem wide_fitCell (cols : Nat) {c : Nat} (hfirst : c = 0 → hasFlag cell WIDE_CONT = false) :
    hasFlag (fitCell cols c cell) WIDE = (hasFlag cell WIDE && c + 1 != cols) := by
  rw [fitCell, not_cut hfirst, Bool.or_false, hasFlag_visible]
  cases hwide : hasFlag cell WIDE with
  | false => exact hwide
  | true =>
    rw [Bool.true_and, Bool.true_and]
    cases hlast : c + 1 == cols with
    | false =>
      rw [if_neg Bool.false_ne_true, bne, hlast]
      exact hwide
    | true =>
      rw [if_pos rfl, bne, hlast]
      rfl

theorem cont_fitCell (cols : Nat) {c : Nat} (hvalid : cell.IsValid)
    (hfirst : c = 0 → hasFlag cell WIDE_CONT = false) :
    hasFlag (fitCell cols c cell) WIDE_CONT = hasFlag cell WIDE_CONT := by
  have hboth := not_both hvalid
  rw [fitCell, not_cut hfirst, Bool.or_false, hasFlag_visible]
  cases hwide : hasFlag cell WIDE with
  | false => rfl
  | true =>
    rw [hwide, Bool.true_and] at hboth
    rw [Bool.true_and, hboth]
    split
    · rfl
    · exact hboth

theorem getD_fitRow (cells : List Cell) (cols k : Nat) :
    (fitRow cells cols).getD k .blank =
      if k < cols then fitCell cols k (cells.getD k .blank) else .blank := by
  rw [fitRow, getD_eq_getElem?_getD, getElem?_map]
  split
  · next hk => rw [getElem?_range hk]; rfl
  · next hk => rw [getElem?_eq_none (by rw [length_range]; omega)]; rfl

theorem paired_fitRow {cells : List Cell} (hpaired : cellHalves.Paired false cells)
    (hvalid : ∀ c ∈ cells, c.IsValid) (hcols : 0 < cols) :
    cellHalves.Paired false (fitRow cells cols) := by
  have hplaces := cellHalves.paired_iff_getD.1 hpaired
  have hfirst : hasFlag (cells.getD 0 .blank) WIDE_CONT = false := hplaces.1
  have hnext : ∀ k, hasFlag (cells.getD (k + 1) .blank) WIDE_CONT =
      hasFlag (cells.getD k .blank) WIDE := fun k => (hplaces.2 k).1
  have hone : ∀ k, (hasFlag (cells.getD k .blank) WIDE &&
      hasFlag (cells.getD k .blank) WIDE_CONT) = false := fun k => (hplaces.2 k).2
  have hok : ∀ k, (cells.getD k .blank).IsValid :=
    Lib.Halves.forall_getD hvalid Screen.Cell.blank_isValid
  have hzero : ∀ k, k = 0 → hasFlag (cells.getD k .blank) WIDE_CONT = false := by
    rintro _ rfl
    exact hfirst
  have hwide : ∀ k, k < cols → hasFlag ((fitRow cells cols).getD k .blank) WIDE =
      (hasFlag (cells.getD k .blank) WIDE && k + 1 != cols) := by
    intro k hk
    rw [getD_fitRow, if_pos hk, wide_fitCell cols (hzero k)]
  have hcont : ∀ k, k < cols → hasFlag ((fitRow cells cols).getD k .blank) WIDE_CONT =
      hasFlag (cells.getD k .blank) WIDE_CONT := by
    intro k hk
    rw [getD_fitRow, if_pos hk, cont_fitCell cols (hok k) (hzero k)]
  have hout : ∀ k, cols ≤ k → (fitRow cells cols).getD k .blank = .blank := by
    intro k hk
    rw [getD_fitRow, if_neg (by omega)]
  refine cellHalves.paired_iff_getD.2 ⟨(hcont 0 hcols).trans hfirst, fun k => ?_⟩
  show hasFlag ((fitRow cells cols).getD (k + 1) .blank) WIDE_CONT =
      hasFlag ((fitRow cells cols).getD k .blank) WIDE ∧
    (hasFlag ((fitRow cells cols).getD k .blank) WIDE &&
      hasFlag ((fitRow cells cols).getD k .blank) WIDE_CONT) = false
  by_cases hk : k < cols
  · rw [hwide k hk, hcont k hk]
    constructor
    · by_cases hlast : k + 1 = cols
      · rw [hout (k + 1) (by omega), hlast, bne_self_eq_false, Bool.and_false]
        rfl
      · rw [hcont (k + 1) (by omega), hnext, bne_iff_ne.2 hlast, Bool.and_true]
    · rw [Bool.and_right_comm, hone k, Bool.false_and]
  · rw [hout k (by omega), hout (k + 1) (by omega)]
    exact ⟨rfl, rfl⟩

def Filled (W : Char → Nat) (cols rows : Nat) (cells : List (List Cell)) : Prop :=
  cells.length = rows ∧ ∀ row ∈ cells, row.length = cols ∧ ∀ c ∈ row, Drawable W c

def AllPaired (cells : List (List Cell)) : Prop :=
  ∀ row ∈ cells, cellHalves.Paired false row

variable {state : ScreenState}

theorem hostCells_ok (hspace : W ' ' = 1) (h : StateOk W state) (hcols : 0 < cols) (rows : Nat) :
    Filled W cols rows (hostCells state cols rows) ∧ AllPaired (hostCells state cols rows) := by
  have hsrc : ∀ r : Nat, cellHalves.Paired false (state.grid[r]?.elim [] (·.cells)) ∧
        ∀ c ∈ state.grid[r]?.elim [] (·.cells), Drawable W c := by
    intro r
    cases hr : state.grid[r]? with
    | none => exact ⟨cellHalves.paired_nil, by simp⟩
    | some row => exact h.rows row (mem_of_getElem? hr)
  refine ⟨⟨by rw [hostCells, length_map, length_range], fun row hrow => ?_⟩,
    fun row hrow => ?_⟩
  · obtain ⟨r, -, rfl⟩ := mem_map.1 hrow
    refine ⟨by rw [fitRow, length_map, length_range], fun c hc => ?_⟩
    obtain ⟨k, -, rfl⟩ := mem_map.1 hc
    refine drawable_fitCell hspace cols k ?_
    exact Lib.Halves.forall_getD (hsrc _).2 drawable_blank k
  · obtain ⟨r, -, rfl⟩ := mem_map.1 hrow
    exact paired_fitRow (hsrc _).1 (fun c hc => ((hsrc _).2 c hc).1) hcols

/-! ## The overlay -/

theorem Filled.put {cells : List (List Cell)} (h : Filled W cols rows cells)
    (r c : Nat) (hcell : Drawable W cell) :
    Filled W cols rows (cells.modify r (·.set c cell)) := by
  refine ⟨(length_modify ..).trans h.1, fun row hrow => ?_⟩
  obtain ⟨k, hk⟩ := mem_iff_getElem?.1 hrow
  rw [getElem?_modify] at hk
  obtain ⟨old, hold, rfl⟩ := Option.map_eq_some_iff.1 hk
  obtain ⟨hlen, hdraw⟩ := h.2 old (mem_of_getElem? hold)
  split
  · refine ⟨length_set.trans hlen, fun d hd => ?_⟩
    rcases mem_or_eq_of_mem_set hd with hd | rfl
    · exact hdraw d hd
    · exact hcell
  · exact ⟨hlen, hdraw⟩

theorem drawable_rightHalf : Drawable W { Cell.blank with flags := WIDE_CONT } :=
  drawable_empty (by decide) rfl rfl

section Overlay

variable {offset cols rows : Nat} {cells : List (List Cell)}

variable {oc : OverlayCell}

theorem Filled.putOverlay (hspace : W ' ' = 1) (h : Filled W cols rows cells)
    (hoc : Drawable W oc.cell) : Filled W cols rows (putOverlay offset cols rows cells oc) := by
  rw [Frame.putOverlay]
  split
  · split
    · exact h.put _ _ (drawable_visible hspace hoc)
    · exact h
  · exact h

theorem Filled.putRightHalf (h : Filled W cols rows cells) (oc : OverlayCell) :
    Filled W cols rows (putRightHalf offset cols rows cells oc) := by
  rw [Frame.putRightHalf]
  split
  · split
    · exact h.put _ _ drawable_rightHalf
    · exact h
  · exact h

theorem put_of_not_touches (cells : List (List Cell)) (h : touches offset cols rows oc = false) :
    putOverlay offset cols rows cells oc = cells ∧
      putRightHalf offset cols rows cells oc = cells := by
  rw [putOverlay, putRightHalf]
  rw [touches] at h
  cases hr : windowRow offset rows oc.row with
  | none => exact ⟨rfl, rfl⟩
  | some r =>
    rw [hr, Option.isSome_some, Bool.true_and, decide_eq_false_iff_not] at h
    exact ⟨if_neg h, if_neg fun hwide => h (by omega)⟩

theorem foldl_of_not_touches (cells : List (List Cell)) {ocs : List OverlayCell}
    (h : ocs.any (touches offset cols rows) = false) :
    ocs.foldl (putOverlay offset cols rows) cells = cells ∧
      ocs.foldl (putRightHalf offset cols rows) cells = cells := by
  induction ocs with
  | nil => exact ⟨rfl, rfl⟩
  | cons oc ocs ih =>
    rw [any_cons, Bool.or_eq_false_iff] at h
    obtain ⟨hput, hright⟩ := put_of_not_touches cells h.1
    rw [foldl_cons, foldl_cons, hput, hright]
    exact ih h.2

theorem overlaid_ok (hspace : W ' ' = 1) {o : Overlay} (ho : OverlayOk W o)
    (h : Filled W cols rows cells) (hpaired : AllPaired cells) :
    Filled W cols rows (overlaid offset cols rows cells o) ∧
      AllPaired (overlaid offset cols rows cells o) := by
  have hfirst : Filled W cols rows (o.cells.foldl (putOverlay offset cols rows) cells) :=
    List.foldlRecOn _ _ h fun _ h oc hoc => h.putOverlay hspace (ho oc hoc).1
  have hboth := List.foldlRecOn o.cells (putRightHalf offset cols rows)
    (motive := Filled W cols rows) hfirst fun _ h oc _ => h.putRightHalf oc
  rw [overlaid]
  cases htouched : o.cells.any (touches offset cols rows) with
  | false =>
    obtain ⟨hput, hright⟩ := foldl_of_not_touches cells htouched
    rw [if_neg Bool.false_ne_true, hput, hright]
    exact ⟨h, hpaired⟩
  | true =>
    rw [if_pos rfl]
    generalize o.cells.foldl (putRightHalf offset cols rows)
      (o.cells.foldl (putOverlay offset cols rows) cells) = put at hboth
    refine ⟨⟨(length_map _).trans hboth.1, fun row hrow => ?_⟩, fun row hrow => ?_⟩
    · obtain ⟨old, hold, rfl⟩ := mem_map.1 hrow
      obtain ⟨hlen, hdraw⟩ := hboth.2 old hold
      refine ⟨(cellHalves.length_repair false old).trans hlen, fun c hc => ?_⟩
      rcases cellHalves.mem_repair hc with hc | rfl
      · exact hdraw c hc
      · exact drawable_blank
    · obtain ⟨old, hold, rfl⟩ := mem_map.1 hrow
      exact cellHalves.paired_repair (fun c hc => not_both ((hboth.2 old hold).2 c hc).1)
        nofun

theorem overlayCursor_lt (hcols : 0 < cols) (offset : Nat) (o : Overlay) (cursor : Nat × Nat)
    (h : cursor.1 < rows ∧ cursor.2 < cols) :
    (overlayCursor offset cols rows o cursor).1 < rows ∧
      (overlayCursor offset cols rows o cursor).2 < cols := by
  rw [overlayCursor]
  split
  swap
  · exact h
  rename_i r c _
  rw [windowRow]
  split
  · next hr =>
    split at hr <;> cases hr
    exact ⟨by omega, by omega⟩
  · exact h

end Overlay

/-! ## The status line -/

theorem wide_statusCell (ch : Char) : hasFlag (statusCell ch) WIDE = false := by
  show (INVERSE &&& WIDE != 0) = false
  decide

theorem cont_statusCell (ch : Char) : hasFlag (statusCell ch) WIDE_CONT = false := by
  show (INVERSE &&& WIDE_CONT != 0) = false
  decide

theorem statusCell_ok {ch : Char} (hwidth : W ch = 1) (hplain : Screen.isControl ch = false) :
    Drawable W (statusCell ch) := by
  have hlen : Text.len [ch] ≤ Screen.MAX_CELL_TEXT := by
    have hbytes : (String.utf8EncodeChar ch).length ≤ 4 := by
      rw [String.length_utf8EncodeChar]
      exact Char.utf8Size_le_four _
    rw [Text.len, Text.bytes, flatMap_cons, flatMap_nil, append_nil, Screen.MAX_CELL_TEXT]
    omega
  have hwide := wide_statusCell ch
  have hcont := bne_eq_false_iff_eq.1 (cont_statusCell ch)
  have hflags : (statusCell ch).flags &&& ~~~Screen.ALL = 0 := by
    show INVERSE &&& ~~~Screen.ALL = 0
    decide
  refine ⟨⟨hflags, fun h => h.2 hcont, hlen, ?_, fun h => h.1 hcont⟩,
    fun h => absurd (hwide.symm.trans h) Bool.false_ne_true, fun base hbase => ?_,
    fun _ hm => absurd hm not_mem_nil⟩
  · show [ch].any Screen.isControl = false
    rw [any_cons, hplain]
    rfl
  · cases hbase
    rw [hwide]
    exact hwidth

theorem statusRow_ok (hspace : W ' ' = 1) {text : Text} (h : StatusOk W text) (cols : Nat) :
    (statusRow text cols).length = cols ∧ cellHalves.Paired false (statusRow text cols) ∧
      ∀ c ∈ statusRow text cols, Drawable W c := by
  have hchar : ∀ k, W (text.getD k ' ') = 1 ∧ Screen.isControl (text.getD k ' ') = false :=
    Lib.Halves.forall_getD h ⟨hspace, by decide⟩
  refine ⟨by rw [statusRow, length_map, length_range], ?_, fun c hc => ?_⟩
  · exact cellHalves.paired_of_single (forall_mem_map.2 fun k _ =>
      ⟨wide_statusCell _, cont_statusCell _⟩)
  · obtain ⟨k, -, rfl⟩ := mem_map.1 hc
    exact statusCell_ok (hchar k).1 (hchar k).2

/-! ## The frame -/

variable {overlay : Option Overlay}

theorem withOverlay_ok (hspace : W ' ' = 1) (hstate : StateOk W state)
    (hoverlay : ∀ o ∈ overlay, OverlayOk W o)
    (hcols : 0 < cols) (hrows : 0 < rows) :
    (Filled W cols rows (withOverlay state overlay cols rows).1 ∧
      AllPaired (withOverlay state overlay cols rows).1) ∧
      (withOverlay state overlay cols rows).2.1 < rows ∧
      (withOverlay state overlay cols rows).2.2 < cols := by
  have hcells := hostCells_ok hspace hstate hcols rows
  have hcursor : (hostCursor state cols rows).1 < rows ∧ (hostCursor state cols rows).2 < cols := by
    show min _ (rows - 1) < rows ∧ min _ (cols - 1) < cols
    omega
  rw [withOverlay]
  split
  · next o ho =>
    have ho := hoverlay o (Option.mem_filter_iff.1 ho).1
    exact ⟨overlaid_ok hspace ho hcells.1 hcells.2, overlayCursor_lt hcols _ o _ hcursor⟩
  · exact ⟨hcells, hcursor⟩

variable {status : Option Text}

theorem withStatus_ok (hspace : W ' ' = 1)
    (hstatus : ∀ text ∈ status, StatusOk W text) (cursorRow : Nat)
    {cells : List (List Cell)} (h : Filled W cols rows cells) (hpaired : AllPaired cells) :
    Filled W cols rows (withStatus status cols rows cursorRow cells) ∧
      AllPaired (withStatus status cols rows cursorRow cells) := by
  rw [withStatus]
  split
  swap
  · exact ⟨h, hpaired⟩
  rename_i text ht
  have hrow := statusRow_ok hspace (hstatus text (Option.mem_filter_iff.1 ht).1) cols
  refine ⟨⟨length_set.trans h.1, fun row hmem => ?_⟩, fun row hmem => ?_⟩
  · rcases mem_or_eq_of_mem_set hmem with hmem | rfl
    · exact h.2 row hmem
    · exact ⟨hrow.1, hrow.2.2⟩
  · rcases mem_or_eq_of_mem_set hmem with hmem | rfl
    · exact hpaired row hmem
    · exact hrow.2.1

theorem fit_ok (hspace : W ' ' = 1) (hstate : StateOk W state)
    (hoverlay : ∀ o ∈ overlay, OverlayOk W o)
    (hstatus : ∀ text ∈ status, StatusOk W text)
    (hcols : 0 < cols) (hrows : 0 < rows) :
    Terminal.FrameOk W (fit state overlay status cols rows) := by
  obtain ⟨⟨hfilled, hpaired⟩, hcursor⟩ := withOverlay_ok hspace hstate hoverlay hcols hrows
  obtain ⟨hfilled, hpaired⟩ := withStatus_ok hspace hstatus
    (withOverlay state overlay cols rows).2.1 hfilled hpaired
  exact ⟨hfilled.1, fun row hrow => ⟨(hfilled.2 row hrow).1, hpaired row hrow,
    (hfilled.2 row hrow).2⟩, hcols, hrows, hcursor.1, hcursor.2⟩

end Frame

end Fit

end Qsh.Client
