import Mathlib.Order.MinMax
import Qsh.Lib.Halves
import Qsh.Client.PredictPending

/-!
# The shape of predicted cells

A double-width character takes two cells of a row, the lead and the right half.
A prediction is a snapshot of the cells from its column on.

`put_atomic` keeps the two together as it writes over a canvas (`slots_putAtomic`), and
every cell of an overlay comes from a prediction that is shown (`overlay_of_shown`).
-/

namespace Qsh.Client

open Qsh.Lib List Option
open Qsh.Screen (Cell WIDE WIDE_CONT)

def cellHalves : Halves Cell where
  lead c := hasFlag c WIDE
  tail c := hasFlag c WIDE_CONT
  blank := .blank
  lead_blank := rfl
  tail_blank := rfl

def slotHalves : Halves (Option Cell) where
  lead c := c.any fun c => hasFlag c WIDE
  tail c := c.any fun c => hasFlag c WIDE_CONT
  blank := some .blank
  lead_blank := rfl
  tail_blank := rfl

/-! ## What is written on a canvas -/

variable (v : Canvas)

def Canvas.slots : List (Option Cell) :=
  List.zipWith (fun cell written => if written then some cell else none) v.cells v.written

theorem Canvas.getElem?_slots (k : Nat) (h : v.cells.length = v.written.length) :
    v.slots[k]? =
      v.cells[k]?.map fun cell => if v.written.getD k false then some cell else none := by
  rw [slots, getElem?_zipWith]
  cases hc : v.cells[k]? with
  | none => rfl
  | some cell =>
    have hlt : k < v.written.length := h ▸ (List.getElem?_eq_some_iff.1 hc).1
    rw [getElem?_eq_getElem hlt, getD_eq_getElem _ _ hlt]
    rfl

theorem Canvas.slots_getD (k : Nat) (h : v.cells.length = v.written.length) :
    v.slots.getD k slotHalves.blank =
      if k < v.cells.length ∧ v.written.getD k false = false then none
      else some (v.cells.getD k .blank) := by
  rw [getD_eq_getElem?_getD, v.getElem?_slots k h]
  by_cases hlt : k < v.cells.length
  · rw [getElem?_eq_getElem hlt, getD_eq_getElem _ _ hlt]
    cases v.written.getD k false <;> simp [hlt]
  · rw [getElem?_eq_none (by omega), getD_eq_default _ _ (by omega)]
    simp [hlt, slotHalves]

theorem Canvas.slot_halves (k : Nat) (h : v.cells.length = v.written.length) :
    slotHalves.lead (v.slots.getD k slotHalves.blank) =
        (v.written.getD k false && hasFlag (v.cells.getD k .blank) WIDE) ∧
      slotHalves.tail (v.slots.getD k slotHalves.blank) =
        (v.written.getD k false && hasFlag (v.cells.getD k .blank) WIDE_CONT) := by
  rw [v.slots_getD k h]
  by_cases hlt : k < v.cells.length
  · cases v.written.getD k false <;> simp [hlt, slotHalves]
  · rw [getD_eq_default _ _ (by omega)]
    simp [hlt, slotHalves, hasFlag, Cell.blank]

theorem Canvas.slots_set (j : Nat) (cell : Cell) :
    Canvas.slots ⟨v.cells.set j cell, v.written.set j true⟩ = v.slots.set j (some cell) := by
  apply ext_getElem?
  intro k
  simp only [slots, getElem?_zipWith, getElem?_set]
  obtain rfl | hk := eq_or_ne j k
  · by_cases hc : j < v.cells.length <;> by_cases hw : j < v.written.length <;>
      simp [hc, hw, length_zipWith]
  · simp [hk]

theorem Canvas.slots_replace (j : Nat) (cell : Cell) (hw : v.written.getD j false = true) :
    Canvas.slots ⟨v.cells.set j cell, v.written⟩ = v.slots.set j (some cell) := by
  have hset : v.written.set j true = v.written := by
    apply ext_getElem?
    intro k
    rw [getElem?_set]
    obtain rfl | hk := eq_or_ne j k
    · by_cases hlt : j < v.written.length
      · rw [getD_eq_getElem _ _ hlt] at hw
        simp [hlt, hw]
      · simp [hlt]
    · simp [hk]
  rw [← v.slots_set, hset]

theorem slots_putAtomic (j : Nat) (cell : Cell) (h : v.cells.length = v.written.length) :
    (putAtomic v j cell).slots = slotHalves.put v.slots j (some cell) := by
  have hlead : slotHalves.lead (some cell) = hasFlag cell WIDE := rfl
  have htail : slotHalves.tail (some cell) = hasFlag cell WIDE_CONT := rfl
  -- first the right half of a lead that goes, then the lead of a right half
  rw [putAtomic, Halves.put, (v.slot_halves j h).1, (v.slot_halves j h).2, hlead, htail]
  generalize hcells : (if v.written.getD j false = true ∧
      hasFlag (v.cells.getD j .blank) WIDE = true ∧ (!hasFlag cell WIDE) = true ∧
      j + 1 < v.cells.length ∧ v.written.getD (j + 1) false = true ∧
      hasFlag (v.cells.getD (j + 1) .blank) WIDE_CONT = true then
    v.cells.set (j + 1) .blank else v.cells) = cells
  have hlen : cells.length = v.cells.length := by
    rw [← hcells]
    split
    · exact length_set
    · rfl
  have hright : Canvas.slots ⟨cells, v.written⟩ =
      if (v.written.getD j false && hasFlag (v.cells.getD j .blank) WIDE) && !hasFlag cell WIDE then
        slotHalves.clearTail v.slots (j + 1) else v.slots := by
    rw [← hcells, Halves.clearTail, (v.slot_halves (j + 1) h).2]
    by_cases hlt : j + 1 < v.cells.length
    · cases hw : v.written.getD (j + 1) false with
      | false => simp
      | true =>
        have hrep := v.slots_replace (j + 1) .blank hw
        cases v.written.getD j false <;> cases hasFlag (v.cells.getD j .blank) WIDE <;>
          cases hasFlag cell WIDE <;> cases hasFlag (v.cells.getD (j + 1) .blank) WIDE_CONT <;>
          simp [hlt, hrep, slotHalves]
    · have hout : v.written.getD (j + 1) false = false :=
        getD_eq_default _ _ (h ▸ Nat.not_lt.1 hlt)
      simp only [hlt, hout]
      simp
  have hprev : 0 < j → cells.getD (j - 1) .blank = v.cells.getD (j - 1) .blank := by
    intro hj
    rw [← hcells]
    split
    · rw [getD_eq_getElem?_getD, getElem?_set_ne (by omega), getD_eq_getElem?_getD]
    · rfl
  rw [Canvas.slots_set ⟨_, v.written⟩ j cell, ← hright, Halves.clearLead,
    (Canvas.slot_halves ⟨cells, v.written⟩ (j - 1) (hlen.trans h)).1]
  congr 1
  by_cases hj : 0 < j
  · rw [hprev hj]
    split_ifs with hall hold hrepair hold hrepair
    · exact Canvas.slots_replace ⟨cells, v.written⟩ (j - 1) .blank hall.2.2.2.2.1
    · simp_all
    · simp_all
    · simp_all
    · rfl
    · rfl
  · simp [hj]

variable {cols : Nat}

def Canvas.Sized (v : Canvas) (cols : Nat) : Prop :=
  v.cells.length = cols ∧ v.written.length = cols

theorem Canvas.Sized.putAtomic {v : Canvas} (h : v.Sized cols) (j : Nat) (cell : Cell) :
    (putAtomic v j cell).Sized cols := by
  rw [Client.putAtomic]
  refine ⟨?_, length_set.trans h.2⟩
  rw [← h.1]
  split_ifs <;> simp only [length_set]

theorem length_putPred (mark : Cell → Bool → Cell) (v : Canvas) (p : Pred)
    (hlen : v.Sized cols) : (putPred cols mark v p).Sized cols := by
  refine List.foldlRecOn p.cells _ (motive := (Canvas.Sized · cols)) hlen fun v hlen c _ => ?_
  dsimp only
  split
  · exact hlen.putAtomic c.1 (mark c.2.1 c.2.2)
  · exact hlen

variable {mark : Cell → Bool → Cell}

/-- What holds of every written cell and every cell of a snapshot holds after the
snapshot is written, if it holds of a blank in the place of a cell. -/
theorem putPred_induction {Q : Nat → Cell → Prop}
    (hblank : ∀ k cell, Q k cell → Q k .blank) {v : Canvas} {p : Pred}
    (hlen : v.Sized cols)
    (hv : ∀ k cell, v.slots[k]? = some (some cell) → Q k cell)
    (hp : ∀ c ∈ p.cells, Q c.1 (mark c.2.1 c.2.2)) :
    ∀ k cell, (putPred cols mark v p).slots[k]? = some (some cell) → Q k cell := by
  rw [putPred]
  generalize p.cells = cells at hp ⊢
  induction cells generalizing v with
  | nil => exact hv
  | cons c cells ih =>
    obtain ⟨col, new, fresh⟩ := c
    rw [foldl_cons]
    dsimp only
    have hrest : ∀ c ∈ cells, Q c.1 (mark c.2.1 c.2.2) :=
      fun c hc => hp c (mem_cons_of_mem _ hc)
    split
    swap
    · exact ih hlen hv hrest
    refine ih (hlen.putAtomic col (mark new fresh)) (fun k cell hk => ?_) hrest
    rw [slots_putAtomic v col _ (hlen.1.trans hlen.2.symm)] at hk
    rcases slotHalves.getElem?_put hk with ⟨rfl, heq⟩ | hold | ⟨heq, old, hold, hhalf⟩
    · cases heq
      exact hp (k, new, fresh) mem_cons_self
    · exact hv k cell hold
    cases heq
    cases old with
    | none => rcases hhalf with hhalf | hhalf <;> cases hhalf
    | some old => exact hblank k old (hv k old hold)

/-! ## The overlay -/

/-- The cell of the overlay shows a cell of the snapshot of `p`, or a blank where
a snapshot cut a character of it. -/
def OverlayCell.OfSnapshot (c : OverlayCell) (p : Pred) : Prop :=
  ∃ k ∈ p.cells, c.col = k.1 ∧
    ((∃ underline, c.cell = Predictor.drawn underline k.2.1 k.2.2) ∨ c.cell = .blank)

namespace Predictor

/-- The predictions that the overlay draws. -/
def shown (s : Predictor) : List Pred :=
  if s.blocked.isSome ∨ s.suspended ∨ s.effectiveMode = .off then []
  else s.pending.filter fun p => p.epoch ∈ s.confirmedEpochs

def blankCanvas (cols : Nat) : Canvas where
  cells := replicate cols .blank
  written := replicate cols false

def drawnCanvas (s : Predictor) : Canvas :=
  s.shown.foldl (putPred s.cols (drawn (s.effectiveMode = .underline))) (blankCanvas s.cols)

theorem slots_blankCanvas (cols : Nat) : (blankCanvas cols).slots = replicate cols none := by
  rw [Canvas.slots, blankCanvas, zipWith_replicate, Nat.min_self]
  rfl

theorem foldl_overlay (epochs : List Nat) (row : Nat) (draw : Canvas → Pred → Canvas)
    (ps : List Pred) (v : Canvas) (cursor : Option (Nat × Nat)) :
    (ps.foldl (fun (canvas, cursor) p =>
        if p.epoch ∈ epochs then (draw canvas p, some (row, p.cursorAfter))
        else (canvas, cursor)) (v, cursor)) =
      ((ps.filter fun p => p.epoch ∈ epochs).foldl draw v,
        (ps.filter fun p => p.epoch ∈ epochs).foldl (fun _ p => some (row, p.cursorAfter))
          cursor) := by
  induction ps generalizing v cursor with
  | nil => rfl
  | cons p ps ih =>
    rw [foldl_cons]
    by_cases hp : p.epoch ∈ epochs
    · simp only [if_pos hp, ih, filter_cons, decide_eq_true hp, if_true, foldl_cons]
    · simp only [if_neg hp, ih, filter_cons, decide_eq_false hp, Bool.false_eq_true, if_false]

theorem overlay_eq (s : Predictor) :
    s.overlay =
      { cells := ((s.drawnCanvas.cells.zip s.drawnCanvas.written).zipIdx.filter
          fun c => c.1.2).map fun c => { row := s.row, col := c.2, cell := c.1.1 }
        cursor := s.shown.foldl (fun _ p => some (s.row, p.cursorAfter)) none } := by
  rw [overlay, drawnCanvas, shown]
  dsimp only
  split
  · have hnone : (((replicate s.cols Cell.blank).zip
        (replicate s.cols false)).zipIdx.filter fun c => c.1.2) = [] := by
      rw [filter_eq_nil_iff]
      intro c hc
      rw [mem_zipIdx_iff_getElem?, zip_replicate'] at hc
      rw [(mem_replicate.1 (mem_of_getElem? hc)).2]
      exact Bool.false_ne_true
    rw [foldl_nil, blankCanvas, hnone]
    rfl
  · rw [foldl_overlay]
    rfl

variable {s : Predictor} {c k : Nat}

theorem mem_overlay_cells {c : OverlayCell}
    (hlen : s.drawnCanvas.cells.length = s.drawnCanvas.written.length) :
    c ∈ s.overlay.cells ↔ c.row = s.row ∧ s.drawnCanvas.slots[c.col]? = some (some c.cell) := by
  rw [overlay_eq, List.mem_map, s.drawnCanvas.getElem?_slots c.col hlen]
  simp only [mem_filter, mem_zipIdx_iff_getElem?, getElem?_zip_eq_some]
  constructor
  · rintro ⟨x, ⟨⟨hcell, hw⟩, hwritten⟩, rfl⟩
    refine ⟨rfl, ?_⟩
    rw [hcell, getD_eq_getElem?_getD, hw, getD_some, hwritten]
    rfl
  rintro ⟨hrow, hslot⟩
  obtain ⟨cell, hcell, hif⟩ := map_eq_some_iff.1 hslot
  cases hw : s.drawnCanvas.written.getD c.col false with rw [hw] at hif
  | false =>
    cases hif
  | true =>
    cases hif
    have hlt : c.col < s.drawnCanvas.written.length :=
      hlen ▸ (List.getElem?_eq_some_iff.1 hcell).1
    rw [getD_eq_getElem _ _ hlt] at hw
    refine ⟨((c.cell, true), c.col), ⟨⟨hcell, ?_⟩, rfl⟩, ?_⟩
    · rw [getElem?_eq_getElem hlt, hw]
    · rw [← hrow]

theorem length_drawnCanvas (s : Predictor) :
    s.drawnCanvas.Sized s.cols :=
  List.foldlRecOn (motive := fun v : Canvas => v.Sized s.cols) s.shown _
    ⟨length_replicate, length_replicate⟩ fun v h p _ => length_putPred _ v p h

theorem drawnCanvas_induction {I : Canvas → Prop} (hblank : I (blankCanvas s.cols))
    (hput : ∀ v, ∀ p ∈ s.shown, v.Sized s.cols → I v →
      I (putPred s.cols (drawn (s.effectiveMode = .underline)) v p)) : I s.drawnCanvas := by
  have hboth := List.foldlRecOn
    (motive := fun v : Canvas => v.Sized s.cols ∧ I v)
    s.shown (putPred s.cols (drawn (s.effectiveMode = .underline)))
    ⟨⟨length_replicate, length_replicate⟩, hblank⟩
    fun v h p hp => ⟨length_putPred _ v p h.1, hput v p hp h.1 h.2⟩
  exact hboth.2

theorem shown_subset {p : Pred} (h : p ∈ s.shown) : p ∈ s.pending := by
  rw [shown] at h
  split at h
  · cases h
  · exact mem_of_mem_filter h

theorem epoch_of_shown {p : Pred} (h : p ∈ s.shown) :
    p.epoch ∈ s.confirmedEpochs := by
  rw [shown] at h
  split at h
  · cases h
  · exact of_decide_eq_true (mem_filter.1 h).2

theorem overlay_of_shown {c : OverlayCell} (hc : c ∈ s.overlay.cells) :
    ∃ p ∈ s.shown, c.OfSnapshot p := by
  obtain ⟨hcells, hwritten⟩ := s.length_drawnCanvas
  obtain ⟨-, hslot⟩ := (mem_overlay_cells (hcells.trans hwritten.symm)).1 hc
  refine drawnCanvas_induction (I := fun v => ∀ (k : Nat) cell, v.slots[k]? = some (some cell) →
    ∃ p ∈ s.shown, OverlayCell.OfSnapshot ⟨s.row, k, cell⟩ p) ?_ ?_ c.col c.cell hslot
  · intro k cell hk
    rw [slots_blankCanvas, getElem?_replicate] at hk
    split at hk <;> cases hk
  intro v p hp hlen hv
  refine putPred_induction (fun k cell => ?_) hlen hv fun k hk => ?_
  · rintro ⟨q, hq, i, hi, hcol, -⟩
    exact ⟨q, hq, i, hi, hcol, .inr rfl⟩
  · exact ⟨p, hp, k, hk, rfl, .inl ⟨_, rfl⟩⟩

theorem overlay_cursor_of_shown {rc : Nat × Nat} (hc : s.overlay.cursor = some rc) :
    ∃ p ∈ s.shown, rc = (s.row, p.cursorAfter) := by
  rw [overlay_eq] at hc
  rcases eq_nil_or_concat s.shown with hnil | ⟨ps, p, hps⟩
  · rw [hnil] at hc
    cases hc
  rw [hps, concat_eq_append, foldl_append] at hc
  cases hc
  exact ⟨p, by rw [hps, concat_eq_append]; exact mem_append_right _ mem_cons_self,
    rfl⟩

end Predictor

end Qsh.Client
