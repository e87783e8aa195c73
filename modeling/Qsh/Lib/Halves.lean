import Mathlib.Data.List.Basic
import Mathlib.Data.List.GetD

/-!
# Rows with items that take two places

Some items of a row take two places: a lead, and a tail right after it.  A
write over one half of such an item leaves the other half without meaning, so
it is blanked.

* `Paired` says that a row has no lone half.  It is stated along the row, with
  a flag for a lead that is still open, so that rows can be cut and joined
  (`paired_append`); `paired_iff_getD` is the same place by place.
* `write_eq`: writing a paired segment item by item replaces that segment and
  blanks at most one half on either side, so the row stays paired
  (`paired_write_at`).
-/

namespace Qsh.Lib

open List

/-- How to tell the halves of a two-place item, and the item that is neither. -/
structure Halves (α : Type) where
  lead : α → Bool
  tail : α → Bool
  blank : α
  lead_blank : lead blank = false
  tail_blank : tail blank = false

namespace Halves

variable {α : Type} (H : Halves α)

attribute [simp] lead_blank tail_blank

/-! ## Rows without lone halves -/

/-- An item is a tail exactly if the one before it is a lead; `o` says whether
the one before the row is. -/
def Linked (o : Bool) : List α → Prop
  | [] => True
  | a :: row => H.tail a = o ∧ (H.lead a && H.tail a) = false ∧ Linked (H.lead a) row

def openAfter (o : Bool) : List α → Bool
  | [] => o
  | a :: row => openAfter (H.lead a) row

/-- Every left half has its right half next to it. -/
def Paired (o : Bool) (row : List α) : Prop :=
  H.Linked o row ∧ H.openAfter o row = false

instance decidableLinked : (o : Bool) → (row : List α) → Decidable (H.Linked o row)
  | _, [] => .isTrue trivial
  | _, a :: row =>
      have := decidableLinked (H.lead a) row
      inferInstanceAs (Decidable (_ ∧ _ ∧ _))

instance (o : Bool) (row : List α) : Decidable (H.Paired o row) :=
  inferInstanceAs (Decidable (_ ∧ _))

theorem paired_nil : H.Paired false [] :=
  ⟨trivial, rfl⟩

variable {o : Bool} {a : α} {row items : List α} {j k : Nat}

theorem paired_cons :
    H.Paired o (a :: row) ↔
      H.tail a = o ∧ (H.lead a && H.tail a) = false ∧ H.Paired (H.lead a) row := by
  rw [Paired, Paired, Linked, openAfter, and_assoc, and_assoc]

/-- Items that are no halves. -/
theorem paired_of_single (h : ∀ a ∈ row, H.lead a = false ∧ H.tail a = false) :
    H.Paired false row := by
  induction row with
  | nil => exact H.paired_nil
  | cons a row ih =>
    obtain ⟨hlead, htail⟩ := h a mem_cons_self
    rw [H.paired_cons, hlead, htail]
    exact ⟨rfl, rfl, ih fun b hb => h b (mem_cons_of_mem a hb)⟩

theorem forall_getD {P : α → Prop} {d : α} (h : ∀ a ∈ row, P a) (hd : P d) (k : Nat) :
    P (row.getD k d) := by
  by_cases hk : k < row.length
  · rw [getD_eq_getElem _ _ hk]
    exact h _ (getElem_mem hk)
  · rw [getD_eq_default _ _ (by omega)]
    exact hd

variable {row' pre post : List α}

theorem linked_append :
    H.Linked o (row ++ row') ↔ H.Linked o row ∧ H.Linked (H.openAfter o row) row' := by
  induction row generalizing o with
  | nil => exact ⟨fun h => ⟨trivial, h⟩, fun h => h.2⟩
  | cons a row ih =>
    rw [cons_append, Linked, Linked, openAfter, ih, and_assoc, and_assoc]

theorem openAfter_append :
    H.openAfter o (row ++ row') = H.openAfter (H.openAfter o row) row' := by
  induction row generalizing o with
  | nil => rfl
  | cons a row ih => exact ih

theorem paired_append :
    H.Paired o (row ++ row') ↔ H.Linked o row ∧ H.Paired (H.openAfter o row) row' := by
  rw [Paired, Paired, linked_append, openAfter_append, and_assoc]

variable {H} in
theorem Paired.append (hrow : H.Paired o row) (hrow' : H.Paired false row') :
    H.Paired o (row ++ row') :=
  H.paired_append.2 ⟨hrow.1, hrow.2 ▸ hrow'⟩

theorem paired_iff_getD :
    H.Paired o row ↔ H.tail (row.getD 0 H.blank) = o ∧ ∀ k,
      H.tail (row.getD (k + 1) H.blank) = H.lead (row.getD k H.blank) ∧
        (H.lead (row.getD k H.blank) && H.tail (row.getD k H.blank)) = false := by
  induction row generalizing o with
  | nil =>
    simp only [Paired, Linked, openAfter, true_and, getD_nil, H.tail_blank, H.lead_blank,
      Bool.and_false, and_self, implies_true, and_true]
    exact eq_comm
  | cons a row ih =>
    rw [H.paired_cons, ih]
    constructor
    · rintro ⟨ho, hboth, hfirst, hrest⟩
      refine ⟨ho, fun k => ?_⟩
      cases k with
      | zero => exact ⟨hfirst, hboth⟩
      | succ k => exact hrest k
    · rintro ⟨ho, hall⟩
      exact ⟨ho, (hall 0).2, (hall 0).1, fun k => hall (k + 1)⟩

theorem paired_map {β γ : Type} {H' : Halves β} {f : γ → α} {g : γ → β} {xs : List γ}
    (h : ∀ x ∈ xs, H'.lead (g x) = H.lead (f x) ∧ H'.tail (g x) = H.tail (f x)) :
    H'.Paired o (xs.map g) ↔ H.Paired o (xs.map f) := by
  induction xs generalizing o with
  | nil => exact Iff.rfl
  | cons x xs ih =>
    have hx := h x mem_cons_self
    rw [map_cons, map_cons, H'.paired_cons, H.paired_cons, hx.1, hx.2,
      ih fun y hy => h y (mem_cons_of_mem x hy)]

variable {f : α → α}

theorem paired_modify (k : Nat)
    (hlead : ∀ a, H.lead (f a) = H.lead a) (htail : ∀ a, H.tail (f a) = H.tail a)
    (h : H.Paired o row) : H.Paired o (row.modify k f) := by
  induction row generalizing o k with
  | nil =>
    rw [modify_nil]
    exact h
  | cons a row ih =>
    rw [H.paired_cons] at h
    cases k with
    | zero =>
      rw [modify_zero_cons, H.paired_cons, hlead, htail]
      exact h
    | succ k =>
      rw [modify_succ_cons, H.paired_cons]
      exact ⟨h.1, h.2.1, ih k h.2.2⟩

/-! ## Writing with repair -/

def closeLeft : List α → List α
  | [] => []
  | a :: row => (if H.tail a then H.blank else a) :: row

def closeRight : List α → List α
  | [] => []
  | [a] => [if H.lead a then H.blank else a]
  | a :: b :: row => a :: closeRight (b :: row)

def clearTail (row : List α) (k : Nat) : List α :=
  if H.tail (row.getD k H.blank) then row.set k H.blank else row

def clearLead (row : List α) (k : Nat) : List α :=
  if H.lead (row.getD k H.blank) then row.set k H.blank else row

/-- Write one item.  If it lands on one half of an item, the other half is
blanked. -/
def put (row : List α) (j : Nat) (a : α) : List α :=
  let old := row.getD j H.blank
  let right := if H.lead old && !H.lead a then H.clearTail row (j + 1) else row
  let both := if H.tail old && !H.tail a && 0 < j then H.clearLead right (j - 1) else right
  both.set j a

/-- Write items one after the other from place `j` on. -/
def write (row : List α) : Nat → List α → List α
  | _, [] => row
  | j, a :: items => write (H.put row j a) (j + 1) items

@[simp]
theorem length_closeLeft (row : List α) : (H.closeLeft row).length = row.length := by
  cases row <;> rfl

@[simp]
theorem length_closeRight (row : List α) : (H.closeRight row).length = row.length := by
  induction row with
  | nil => rfl
  | cons a row ih =>
    cases row with
    | nil => rfl
    | cons b row => exact congrArg (· + 1) ih

theorem length_put (row : List α) (j : Nat) (a : α) : (H.put row j a).length = row.length := by
  unfold put clearLead clearTail
  dsimp only
  split_ifs <;> simp only [length_set]

theorem length_write (row : List α) (j : Nat) (items : List α) :
    (H.write row j items).length = row.length := by
  induction items generalizing row j with
  | nil => rfl
  | cons a items ih => rw [write, ih, H.length_put]

variable {b : α}

/-- `clearTail` and `clearLead` blank an item of one kind. -/
theorem getElem?_clear {p : α → Bool}
    (h : (if p (row.getD j H.blank) then row.set j H.blank else row)[k]? = some b) :
    row[k]? = some b ∨ b = H.blank ∧ ∃ c, row[k]? = some c ∧ p c = true := by
  split at h
  · next hp =>
    rw [getElem?_set] at h
    split_ifs at h with hj hlt
    · subst hj
      rw [getD_eq_getElem _ _ hlt] at hp
      exact .inr ⟨(Option.some.inj h).symm, _, getElem?_eq_getElem hlt, hp⟩
    · exact .inl h
  · exact .inl h

/-- An item of the row after a write: the one written, one that was there, or a
blank in the place of a half. -/
theorem getElem?_put (h : (H.put row j a)[k]? = some b) :
    k = j ∧ b = a ∨ row[k]? = some b ∨
      b = H.blank ∧ ∃ c, row[k]? = some c ∧ (H.lead c = true ∨ H.tail c = true) := by
  rw [put] at h
  obtain rfl | hj := eq_or_ne j k
  · rw [getElem?_set_self'] at h
    obtain ⟨-, -, rfl⟩ := Option.map_eq_some_iff.1 h
    exact .inl ⟨rfl, rfl⟩
  rw [getElem?_set_ne hj] at h
  split_ifs at h
  · -- both sides are repaired, first the right one
    rcases H.getElem?_clear h with h | ⟨rfl, c, h, hlead⟩
    · rcases H.getElem?_clear h with h | ⟨rfl, c, h, htail⟩
      · exact .inr (.inl h)
      · exact .inr (.inr ⟨rfl, c, h, .inr htail⟩)
    rcases H.getElem?_clear h with h | ⟨rfl, -⟩
    · exact .inr (.inr ⟨rfl, c, h, .inl hlead⟩)
    · rw [H.lead_blank] at hlead
      cases hlead
  · rcases H.getElem?_clear h with h | ⟨rfl, c, h, hlead⟩
    · exact .inr (.inl h)
    · exact .inr (.inr ⟨rfl, c, h, .inl hlead⟩)
  · rcases H.getElem?_clear h with h | ⟨rfl, c, h, htail⟩
    · exact .inr (.inl h)
    · exact .inr (.inr ⟨rfl, c, h, .inr htail⟩)
  · exact .inr (.inl h)

theorem closeLeft_eq (h : H.Paired false row) : H.closeLeft row = row := by
  cases row with
  | nil => rfl
  | cons a row =>
    have ha : H.tail a = false := (H.paired_cons.1 h).1
    rw [closeLeft, ha]
    rfl

theorem paired_closeLeft (h : H.Paired o row) :
    H.Paired false (H.closeLeft row) := by
  cases row with
  | nil => exact H.paired_nil
  | cons a row =>
    obtain ⟨ho, hboth, hrest⟩ := H.paired_cons.1 h
    cases ha : H.tail a with
    | false =>
      rw [closeLeft, ha]
      exact H.paired_cons.2 ⟨ha, hboth, hrest⟩
    | true =>
      rw [ha, Bool.and_true] at hboth
      rw [closeLeft, ha]
      refine H.paired_cons.2 ⟨H.tail_blank, by simp, ?_⟩
      rw [if_pos rfl, H.lead_blank, ← hboth]
      exact hrest

theorem closeRight_concat (row : List α) (a : α) :
    H.closeRight (row ++ [a]) = row ++ [if H.lead a then H.blank else a] := by
  induction row with
  | nil => rfl
  | cons b row ih =>
    cases row with
    | nil => rfl
    | cons c row =>
      rw [cons_append, cons_append, closeRight, ← cons_append, ih]
      rfl

theorem linked_closeRight (h : H.Linked false row) :
    H.Paired false (H.closeRight row) := by
  rcases eq_nil_or_concat row with rfl | ⟨init, a, rfl⟩
  · exact H.paired_nil
  rw [concat_eq_append] at h ⊢
  rw [H.closeRight_concat]
  obtain ⟨hinit, ha, hboth, -⟩ := H.linked_append.1 h
  refine H.paired_append.2 ⟨hinit, H.paired_cons.2 ?_⟩
  cases hlead : H.lead a with
  | false => exact ⟨ha, by simp [hlead], trivial, hlead⟩
  | true =>
    rw [hlead, Bool.true_and] at hboth
    exact ⟨by simpa [hboth] using ha, by simp, trivial, by simp [openAfter]⟩

theorem closeRight_eq (h : H.openAfter o row = false)
    (hne : row ≠ []) : H.closeRight row = row := by
  obtain ⟨init, a, rfl⟩ : ∃ init a, row = init ++ [a] :=
    ⟨row.dropLast, row.getLast hne, (dropLast_append_getLast hne).symm⟩
  rw [H.openAfter_append] at h
  have ha : H.lead a = false := h
  rw [H.closeRight_concat, ha]
  rfl

theorem clearTail_append (pre : List α) (b : α) (rest : List α) :
    H.clearTail (pre ++ b :: rest) (pre.length + 1) = pre ++ b :: H.closeLeft rest := by
  have hnext : (pre ++ b :: rest).getD (pre.length + 1) H.blank = rest.getD 0 H.blank := by
    rw [getD_append_right _ _ _ _ (by omega), Nat.add_sub_cancel_left]
    rfl
  rw [clearTail, hnext]
  cases rest with
  | nil => simp [closeLeft]
  | cons c rest =>
    rw [closeLeft, getD_cons_zero]
    cases H.tail c with
    | false => rfl
    | true => simp [set_append_right]

theorem clearLead_append (pre rest : List α) (hpre : 0 < pre.length) :
    H.clearLead (pre ++ rest) (pre.length - 1) = H.closeRight pre ++ rest := by
  have hne : pre ≠ [] := ne_nil_of_length_pos hpre
  obtain ⟨init, p, rfl⟩ : ∃ init p, pre = init ++ [p] :=
    ⟨pre.dropLast, pre.getLast hne, (dropLast_append_getLast hne).symm⟩
  have hlast : (init ++ [p]).length - 1 = init.length := by simp
  have hat : (init ++ [p] ++ rest).getD init.length H.blank = p := by
    rw [append_assoc, getD_append_right _ _ _ _ (Nat.le_refl _), Nat.sub_self]
    rfl
  rw [hlast, clearLead, hat, H.closeRight_concat]
  cases H.lead p with
  | false => rfl
  | true => simp [set_append_right]

theorem put_append (pre : List α) (b : α) (rest : List α) (a : α) :
    H.put (pre ++ b :: rest) pre.length a =
      (if H.tail b && !H.tail a then H.closeRight pre else pre) ++
        a :: (if H.lead b && !H.lead a then H.closeLeft rest else rest) := by
  have hat : (pre ++ b :: rest).getD pre.length H.blank = b := by
    rw [getD_append_right _ _ _ _ (Nat.le_refl _), Nat.sub_self]
    rfl
  have hright : (if H.lead b && !H.lead a then H.clearTail (pre ++ b :: rest) (pre.length + 1)
      else pre ++ b :: rest) =
      pre ++ b :: (if H.lead b && !H.lead a then H.closeLeft rest else rest) := by
    split
    · exact H.clearTail_append pre b rest
    · rfl
  unfold put
  rw [hat]
  dsimp only
  rw [hright]
  generalize (if H.lead b && !H.lead a then H.closeLeft rest else rest) = rest'
  cases pre with
  | nil => cases H.tail b && !H.tail a <;> rfl
  | cons c pre =>
    have hpos : 0 < (c :: pre).length := Nat.succ_pos _
    rw [H.clearLead_append (c :: pre) (b :: rest') hpos, decide_eq_true hpos, Bool.and_true]
    split
    · rw [set_append_right _ _ (Nat.le_of_eq (H.length_closeRight _)), H.length_closeRight,
        Nat.sub_self]
      rfl
    · rw [set_append_right _ _ (Nat.le_refl _), Nat.sub_self]
      rfl

theorem write_append {q : Bool} (items pre post : List α) (hitems : H.Paired o items)
    (hpost : H.Paired q post) (hq : o = false → q = false)
    (hlen : items.length ≤ post.length) :
    H.write (pre ++ post) pre.length items =
      pre ++ items ++ H.closeLeft (post.drop items.length) := by
  -- `o`: the item written last is a lead, so the next one is its tail; only
  -- then may `post` still start with the tail of an item that is gone
  induction items generalizing o q pre post with
  | nil =>
    have ho : o = false := hitems.2
    rw [hq ho] at hpost
    rw [write, append_nil, length_nil, drop_zero, H.closeLeft_eq hpost]
  | cons a items ih =>
    obtain ⟨ha, hboth, hrest⟩ := H.paired_cons.1 hitems
    cases post with
    | nil => simp at hlen
    | cons b post =>
      obtain ⟨hb, hbothb, hrestb⟩ := H.paired_cons.1 hpost
      have hkeep : (H.tail b && !H.tail a) = false := by
        rw [hb, ha]
        cases o with
        | false => rw [hq rfl]; rfl
        | true => simp
      rw [write, H.put_append, hkeep, if_neg Bool.false_ne_true]
      have hlen' : items.length ≤ post.length := Nat.le_of_succ_le_succ hlen
      -- what is behind the item: paired, and without a tail unless `a` is a lead
      have hbehind : ∃ q', H.Paired q' (if H.lead b && !H.lead a then H.closeLeft post else post) ∧
          (H.lead a = false → q' = false) := by
        cases hlb : H.lead b with
        | false => exact ⟨false, by simpa [hlb] using hrestb, fun _ => rfl⟩
        | true =>
          cases hla : H.lead a with
          | false => exact ⟨false, by simpa using H.paired_closeLeft hrestb, fun _ => rfl⟩
          | true => exact ⟨true, by simpa [hlb] using hrestb, nofun⟩
      obtain ⟨q', hq', himp⟩ := hbehind
      have hdrop : H.closeLeft ((if H.lead b && !H.lead a then H.closeLeft post else post).drop
          items.length) = H.closeLeft (post.drop items.length) := by
        split
        · cases items with
          | nil =>
            cases post with
            | nil => rfl
            | cons c post =>
              cases hc : H.tail c <;> simp [closeLeft, hc]
          | cons d items =>
            cases post with
            | nil | cons => rfl
        · rfl
      have hih := ih (pre ++ [a]) _ hrest hq' himp (by
        split
        · rw [H.length_closeLeft]; exact hlen'
        · exact hlen')
      rw [length_append, length_singleton, append_assoc, singleton_append] at hih
      rw [hih, hdrop, append_assoc, append_assoc, append_assoc, length_cons, drop_succ_cons]
      rfl

/-- Writing a segment replaces it, and blanks the half that it cut off on either
side. -/
theorem write_eq (hrow : H.Paired false (pre ++ post))
    (hitems : H.Paired false items) (hne : items ≠ []) (hlen : items.length ≤ post.length) :
    H.write (pre ++ post) pre.length items =
      H.closeRight pre ++ items ++ H.closeLeft (post.drop items.length) := by
  obtain ⟨hpre, hpost⟩ := H.paired_append.1 hrow
  cases items with
  | nil => exact absurd rfl hne
  | cons a items =>
    cases post with
    | nil => simp at hlen
    | cons b post =>
      have ha : H.tail a = false := (H.paired_cons.1 hitems).1
      have hb : H.tail b = H.openAfter false pre := (H.paired_cons.1 hpost).1
      -- the first item closes `pre`, the others are behind it
      have hclose : (if H.tail b && !H.tail a then H.closeRight pre else pre) =
          H.closeRight pre := by
        rw [ha, hb]
        cases hopen : H.openAfter false pre with
        | true => rfl
        | false =>
          cases pre with
          | nil => rfl
          | cons c pre => exact (H.closeRight_eq hopen (cons_ne_nil c pre)).symm
      have hbehind := (H.write_append (a :: items) (H.closeRight pre) (H.closeLeft (b :: post))
        hitems (H.paired_closeLeft hpost) (fun _ => rfl) (by rwa [H.length_closeLeft]))
      have hfirst :
          H.put (H.closeRight pre ++ H.closeLeft (b :: post)) (H.closeRight pre).length a =
          H.put (pre ++ b :: post) pre.length a := by
        rw [closeLeft, H.put_append, H.put_append, hclose]
        have hl : H.tail (if H.tail b then H.blank else b) = false := by
          cases hb : H.tail b <;> simp [hb]
        rw [hl]
        cases hbt : H.tail b with
        | false => simp
        | true =>
          have hlb : H.lead b = false := by
            have hboth := (H.paired_cons.1 hpost).2.1
            rwa [hbt, Bool.and_true] at hboth
          simp [hlb]
      rw [write, hfirst, H.length_closeRight] at hbehind
      rw [write, hbehind, closeLeft, length_cons, drop_succ_cons, drop_succ_cons]

theorem write_eq_at (hrow : H.Paired false row) (hitems : H.Paired false items) (hne : items ≠ [])
    (hlen : j + items.length ≤ row.length) :
    H.write row j items =
      H.closeRight (row.take j) ++ items ++ H.closeLeft (row.drop (j + items.length)) := by
  have hj : (row.take j).length = j := by
    rw [length_take]
    omega
  have hsplit := take_append_drop j row
  rw [← hsplit] at hrow
  have hwrite := H.write_eq hrow hitems hne (by rw [length_drop]; omega)
  rwa [hsplit, hj, drop_drop] at hwrite

theorem paired_write_at (hrow : H.Paired false row)
    (hitems : H.Paired false items) (hlen : j + items.length ≤ row.length) :
    H.Paired false (H.write row j items) := by
  obtain rfl | hne := eq_or_ne items []
  · exact hrow
  have hpre := hrow
  rw [← take_append_drop j row] at hpre
  have hpost := hrow
  rw [← take_append_drop (j + items.length) row] at hpost
  rw [H.write_eq_at hrow hitems hne hlen, append_assoc]
  exact (H.linked_closeRight (H.paired_append.1 hpre).1).append
    (hitems.append (H.paired_closeLeft (H.paired_append.1 hpost).2))

theorem write_write (row : List α) (j : Nat) (items items' : List α) :
    H.write (H.write row j items) (j + items.length) items' = H.write row j (items ++ items') := by
  induction items generalizing row j with
  | nil => rfl
  | cons a items ih =>
    rw [cons_append, write, write, ← ih, length_cons, Nat.add_assoc, Nat.add_comm 1]

theorem write_between (hrow : H.Paired false row)
    (hitems : H.Paired false items) (hlen : j + items.length ≤ row.length)
    (hleft : H.tail (row.getD j H.blank) = false)
    (hright : H.tail (row.getD (j + items.length) H.blank) = false) :
    H.write row j items = row.take j ++ items ++ row.drop (j + items.length) := by
  obtain rfl | hne := eq_or_ne items []
  · simp [write]
  rw [H.write_eq_at hrow hitems hne hlen]
  rw [← take_append_drop j row] at hrow
  obtain ⟨hpre, hpost⟩ := H.paired_append.1 hrow
  have hopen : H.openAfter false (row.take j) = false := by
    rw [← (H.paired_iff_getD.1 hpost).1, ← hleft]
    simp
  have hclose : H.closeRight (row.take j) = row.take j := by
    by_cases hnil : row.take j = []
    · rw [hnil]
      rfl
    · exact H.closeRight_eq hopen hnil
  have hrest : H.closeLeft (row.drop (j + items.length)) = row.drop (j + items.length) := by
    cases hdrop : row.drop (j + items.length) with
    | nil => rfl
    | cons b rest =>
      have hb : H.tail b = false := by
        have hget := congrArg (·.getD 0 H.blank) hdrop
        simp only [getD_eq_getElem?_getD, getElem?_drop, Nat.add_zero] at hget hright
        rw [hget] at hright
        exact hright
      rw [closeLeft, hb]
      rfl
  rw [hclose, hrest]

theorem getD_write (hrow : H.Paired false row)
    (hitems : H.Paired false items) (hlen : j + items.length ≤ row.length)
    (hk : k < items.length) :
    (H.write row j items).getD (j + k) H.blank = items.getD k H.blank := by
  have hne : items ≠ [] := ne_nil_of_length_pos (by omega)
  have hpre : (H.closeRight (row.take j)).length = j := by
    rw [H.length_closeRight, length_take]
    omega
  rw [H.write_eq_at hrow hitems hne hlen, append_assoc,
    getD_append_right _ _ _ _ (by omega), hpre, Nat.add_sub_cancel_left, getD_append _ _ _ _ hk]

theorem modify_middle (pre : List α) (a : α) (post : List α) (f : α → α) :
    (pre ++ a :: post).modify pre.length f = pre ++ f a :: post := by
  induction pre with
  | nil => rfl
  | cons b pre ih => exact congrArg (b :: ·) ih

theorem modify_write {xs ys : List α} (hrow : H.Paired false row)
    (hitems : H.Paired false (xs ++ a :: ys)) (hlen : j + (xs ++ a :: ys).length ≤ row.length)
    (hlead : H.lead (f a) = H.lead a) (htail : H.tail (f a) = H.tail a) :
    (H.write row j (xs ++ a :: ys)).modify (j + xs.length) f = H.write row j (xs ++ f a :: ys) := by
  have hitems' : H.Paired false (xs ++ f a :: ys) := by
    obtain ⟨hxs, hys⟩ := H.paired_append.1 hitems
    refine H.paired_append.2 ⟨hxs, ?_⟩
    rw [H.paired_cons] at hys ⊢
    rwa [hlead, htail]
  have hpre : (H.closeRight (row.take j) ++ xs).length = j + xs.length := by
    rw [length_append, H.length_closeRight, length_take]
    omega
  rw [H.write_eq_at hrow hitems (by simp) hlen,
    H.write_eq_at hrow hitems' (by simp) (by simpa using hlen), ← append_assoc, ← append_assoc,
    append_assoc _ (a :: ys), append_assoc _ (f a :: ys), ← hpre, cons_append, cons_append,
    modify_middle, length_append, length_append]
  rfl

theorem paired_slice {i : Nat} (hrow : H.Paired false row) (hij : i ≤ j)
    (hleft : H.tail (row.getD i H.blank) = false)
    (hright : H.tail (row.getD j H.blank) = false) :
    H.Paired false ((row.drop i).take (j - i)) := by
  have htail : ∀ k {o : Bool}, H.Paired o (row.drop k) → o = H.tail (row.getD k H.blank) := by
    intro k o h
    rw [← (H.paired_iff_getD.1 h).1]
    simp
  have hsplit := take_append_drop i row
  rw [← hsplit] at hrow
  obtain ⟨-, hpost⟩ := H.paired_append.1 hrow
  rw [htail i hpost, hleft] at hpost
  have hsplit' := take_append_drop (j - i) (row.drop i)
  rw [← hsplit'] at hpost
  obtain ⟨hmid, hend⟩ := H.paired_append.1 hpost
  have hj : (row.drop i).drop (j - i) = row.drop j := by
    rw [drop_drop]
    congr 1
    omega
  rw [hj] at hend
  exact ⟨hmid, (htail j hend).trans hright⟩

theorem paired_induction {motive : List α → Prop} (nil : motive [])
    (one : ∀ a row, H.lead a = false → H.tail a = false → H.Paired false row → motive row →
      motive (a :: row))
    (two : ∀ a b row, H.lead a = true → H.tail a = false → H.lead b = false → H.tail b = true →
      H.Paired false row → motive row → motive (a :: b :: row)) :
    ∀ row, H.Paired false row → motive row
  | [], _ => nil
  | [a], h => by
    obtain ⟨htail, -, -, hopen⟩ := H.paired_cons.1 h
    exact one a [] hopen htail H.paired_nil nil
  | a :: b :: row, h => by
    obtain ⟨htail, -, hrest⟩ := H.paired_cons.1 h
    cases hlead : H.lead a with rw [hlead] at hrest
    | false =>
      exact one a (b :: row) hlead htail hrest (paired_induction nil one two (b :: row) hrest)
    | true =>
      obtain ⟨hb, hboth, hrow⟩ := H.paired_cons.1 hrest
      have hlb : H.lead b = false := by
        rwa [hb, Bool.and_true] at hboth
      rw [hlb] at hrow
      exact two a b row hlead htail hlb hb hrow (paired_induction nil one two row hrow)

/-! ## Repairing a row -/

/-- Blank every half whose other half is missing, from left to right.  `o` says
whether the item before, as it was repaired, is a lead. -/
def repair (o : Bool) : List α → List α
  | [] => []
  | a :: row =>
      let alone := (H.lead a && !H.tail (row.headD H.blank)) || (H.tail a && !o)
      let a' := if alone then H.blank else a
      a' :: repair (H.lead a') row

theorem length_repair (o : Bool) (row : List α) : (H.repair o row).length = row.length := by
  induction row generalizing o with
  | nil => rfl
  | cons a row ih => rw [repair, length_cons, length_cons, ih]

theorem mem_repair (h : a ∈ H.repair o row) :
    a ∈ row ∨ a = H.blank := by
  induction row generalizing o with
  | nil => cases h
  | cons b row ih =>
    rw [repair] at h
    rcases mem_cons.1 h with h | h
    · split at h
      · exact .inr h
      · exact .inl (h ▸ mem_cons_self)
    · exact (ih h).imp_left (mem_cons_of_mem b)

theorem paired_repair (hboth : ∀ a ∈ row, (H.lead a && H.tail a) = false)
    (ho : o = true → H.tail (row.headD H.blank) = true) : H.Paired o (H.repair o row) := by
  induction row generalizing o with
  | nil =>
    cases o with
    | false => exact H.paired_nil
    | true =>
      have hblank := ho rfl
      rw [headD_nil, H.tail_blank] at hblank
      cases hblank
  | cons a row ih =>
    rw [headD_cons] at ho
    rw [repair]
    refine H.paired_cons.2 ?_
    cases hlead : H.lead a <;> cases htail : H.tail a <;> cases o <;>
      cases hnext : H.tail (row.headD H.blank) <;>
      simp_all

end Halves

end Qsh.Lib
