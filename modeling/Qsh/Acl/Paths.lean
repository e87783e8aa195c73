import Mathlib.Algebra.GroupWithZero.Nat
import Mathlib.Data.List.Basic

/-!
# Path entries

A `paths` entry of a grant is the text of an absolute path (`acl/pin_grants.rs`).
`entry_within` compares two entries as texts.  On entries that pass the check this is
the comparison of their components, which is what enforcement does
(`entryWithin_iff`).
-/

namespace Qsh.Acl

open List

abbrev Text := List Char

/-- The pieces of a text between its slashes. -/
def splitSlash : Text → List Text
  | [] => [[]]
  | c :: cs =>
      if c = '/' then [] :: splitSlash cs
      else
        match splitSlash cs with
        | [] => [[c]]
        | w :: ws => (c :: w) :: ws

def components (t : Text) : List Text := (splitSlash t).filter (· ≠ [])

def PATH_MAX_BYTES : Nat := 4096

inductive EntryError where
  | tooLong
  | nul
  | notAbsolute
  | trailingSlash
  | emptyComponent
  | dotComponent
  deriving DecidableEq, Repr

def validateComponents : List Text → Except EntryError Unit
  | [] => .ok ()
  | c :: cs =>
      if c = [] then .error .emptyComponent
      else if c = ['.'] ∨ c = ['.', '.'] then .error .dotComponent
      else validateComponents cs

/-- The checks of one entry of a path list, in the source's order. -/
def validateEntry (t : Text) : Except EntryError Unit :=
  if PATH_MAX_BYTES < (t.map Char.utf8Size).sum then .error .tooLong
  else if '\x00' ∈ t then .error .nul
  else if t.head? ≠ some '/' then .error .notAbsolute
  else if t.tail = [] then .ok ()
  else if t.tail.getLast? = some '/' then .error .trailingSlash
  else validateComponents (splitSlash t.tail)

def stripFront : Text → Text → Option Text
  | [], child => some child
  | _ :: _, [] => none
  | p :: parent, c :: child => if p = c then stripFront parent child else none

/-- Whether `child` is `parent` or lies below it, by whole components. -/
def entryWithin (parent child : Text) : Bool :=
  parent = child ||
    (stripFront parent child).any fun rest => parent.getLast? = some '/' || rest.head? = some '/'

/-! ## Entries and their components -/

/-- The absolute path with these components. -/
def render : List Text → Text
  | [] => ['/']
  | p :: parts => (p :: parts).flatMap fun x => '/' :: x

def IsName (c : Text) : Prop := c ≠ [] ∧ '/' ∉ c

theorem splitSlash_ne_nil (t : Text) : splitSlash t ≠ [] := by
  cases t with
  | nil => exact cons_ne_nil _ _
  | cons c cs =>
    unfold splitSlash
    split
    · exact cons_ne_nil _ _
    · split <;> exact cons_ne_nil _ _

theorem splitSlash_cons {c : Char} (hc : c ≠ '/') {cs w : Text} {ws : List Text}
    (h : splitSlash cs = w :: ws) : splitSlash (c :: cs) = (c :: w) :: ws := by
  rw [splitSlash, if_neg hc, h]

theorem splitSlash_append (x y : Text) :
    splitSlash (x ++ '/' :: y) = splitSlash x ++ splitSlash y := by
  induction x with
  | nil =>
    show splitSlash ('/' :: y) = [[]] ++ splitSlash y
    rw [splitSlash, if_pos rfl]
    rfl
  | cons c x ih =>
    obtain rfl | hc := eq_or_ne c '/'
    · show splitSlash ('/' :: (x ++ '/' :: y)) = splitSlash ('/' :: x) ++ splitSlash y
      rw [splitSlash, splitSlash, if_pos rfl, if_pos rfl, ih]
      rfl
    obtain ⟨w, ws, hx⟩ := exists_cons_of_ne_nil (splitSlash_ne_nil x)
    rw [hx] at ih
    have hleft : splitSlash (c :: (x ++ '/' :: y)) = (c :: w) :: (ws ++ splitSlash y) :=
      splitSlash_cons hc ih
    rw [cons_append, hleft, splitSlash_cons hc hx]
    rfl

variable {c p t parent child : Text}

theorem splitSlash_name (h : '/' ∉ c) : splitSlash c = [c] := by
  induction c with
  | nil => rfl
  | cons x c ih =>
    have hx : x ≠ '/' := fun heq => h (heq ▸ mem_cons_self)
    exact splitSlash_cons hx (ih fun hmem => h (mem_cons_of_mem _ hmem))

variable {parts : List Text}

theorem splitSlash_flatMap (hp : '/' ∉ p) (hparts : ∀ x ∈ parts, '/' ∉ x) :
    splitSlash (p ++ parts.flatMap fun x => '/' :: x) = p :: parts := by
  induction parts generalizing p with
  | nil =>
    rw [flatMap_nil, append_nil]
    exact splitSlash_name hp
  | cons q parts ih =>
    have hrest := ih (hparts q mem_cons_self) fun x hx =>
      hparts x (mem_cons_of_mem _ hx)
    rw [flatMap_cons, cons_append, splitSlash_append, hrest, splitSlash_name hp]
    rfl

theorem splitSlash_render (h : ∀ x ∈ p :: parts, IsName x) :
    splitSlash (render (p :: parts)) = [] :: p :: parts := by
  have hbody := splitSlash_flatMap (h p mem_cons_self).2
    fun x hx => (h x (mem_cons_of_mem _ hx)).2
  show splitSlash ('/' :: (p ++ parts.flatMap fun x => '/' :: x)) = _
  rw [splitSlash, if_pos rfl, hbody]

theorem components_render (h : ∀ x ∈ parts, IsName x) :
    components (render parts) = parts := by
  cases parts with
  | nil => rfl
  | cons p parts =>
    have hfilter : (p :: parts).filter (fun x => decide (x ≠ [])) = p :: parts :=
      filter_eq_self.2 fun x hx => decide_eq_true (h x hx).1
    unfold components
    rw [splitSlash_render h]
    exact hfilter

theorem splitSlash_spec (t : Text) :
    (∀ c ∈ splitSlash t, '/' ∉ c) ∧ (splitSlash t).flatMap (fun x => '/' :: x) = '/' :: t := by
  induction t with
  | nil => exact ⟨forall_mem_singleton.2 not_mem_nil, rfl⟩
  | cons x t ih =>
    obtain ⟨hnames, hflat⟩ := ih
    obtain rfl | hx := eq_or_ne x '/'
    · rw [splitSlash, if_pos rfl, flatMap_cons, hflat]
      exact ⟨forall_mem_cons.2 ⟨not_mem_nil, hnames⟩, rfl⟩
    obtain ⟨w, ws, ht⟩ := exists_cons_of_ne_nil (splitSlash_ne_nil t)
    rw [ht] at hnames hflat
    obtain ⟨hw, hws⟩ := forall_mem_cons.1 hnames
    rw [flatMap_cons, cons_append] at hflat
    rw [splitSlash_cons hx ht]
    refine ⟨forall_mem_cons.2 ⟨fun h => (mem_cons.1 h).elim (Ne.symm hx) hw, hws⟩, ?_⟩
    rw [flatMap_cons, cons_append, cons_append, (List.cons.inj hflat).2]

theorem ne_nil_of_validateComponents {cs : List Text} (h : validateComponents cs = .ok ()) :
    ∀ c ∈ cs, c ≠ [] := by
  induction cs with
  | nil => exact nofun
  | cons d cs ih =>
    unfold validateComponents at h
    split at h
    · cases h
    rename_i hd
    split at h
    · cases h
    · exact forall_mem_cons.2 ⟨hd, ih h⟩

theorem render_of_validateEntry (h : validateEntry t = .ok ()) :
    ∃ parts, (∀ x ∈ parts, IsName x) ∧ t = render parts := by
  unfold validateEntry at h
  split at h
  · cases h
  split at h
  · cases h
  split at h
  · cases h
  rename_i hhead
  obtain ⟨rest, rfl⟩ : ∃ rest, t = '/' :: rest :=
    head?_eq_some_iff.1 (Decidable.not_not.1 hhead)
  split at h
  · rename_i hempty
    refine ⟨[], ?_, ?_⟩
    · nofun
    · rw [show rest = [] from hempty]
      rfl
  split at h
  · cases h
  obtain ⟨hnames, hflat⟩ := splitSlash_spec rest
  refine ⟨splitSlash rest, ?_, ?_⟩
  · intro x hx
    exact ⟨ne_nil_of_validateComponents h x hx, hnames x hx⟩
  obtain ⟨w, ws, hsplit⟩ := exists_cons_of_ne_nil (splitSlash_ne_nil rest)
  rw [hsplit] at hflat ⊢
  exact hflat.symm

theorem stripFront_eq_some {rest : Text} :
    stripFront parent child = some rest ↔ child = parent ++ rest := by
  induction parent generalizing child with
  | nil => exact Option.some_inj
  | cons p parent ih =>
    cases child with
    | nil => simp [stripFront]
    | cons c child =>
      unfold stripFront
      split
      · rename_i hpc
        rw [ih, hpc]
        simp
      · rename_i hpc
        simp [Ne.symm hpc]

theorem getLast_render (h : ∀ x ∈ p :: parts, IsName x) :
    (render (p :: parts)).getLast? ≠ some '/' := by
  intro hlast
  obtain ⟨front, hfront⟩ := getLast?_eq_some_iff.1 hlast
  -- a slash at the end leaves an empty component after it
  have hsplit := splitSlash_render h
  rw [hfront, splitSlash_append] at hsplit
  obtain ⟨w, ws, hw⟩ := exists_cons_of_ne_nil (splitSlash_ne_nil front)
  rw [hw] at hsplit
  have htail : ws ++ [[]] = p :: parts := (List.cons.inj hsplit).2
  exact (h [] (htail ▸ mem_append_right ws mem_cons_self)).1 rfl

theorem entryWithin_iff
    (hparent : validateEntry parent = .ok ()) (hchild : validateEntry child = .ok ()) :
    entryWithin parent child = true ↔ components parent <+: components child := by
  obtain ⟨P, hP, rfl⟩ := render_of_validateEntry hparent
  obtain ⟨C, hC, rfl⟩ := render_of_validateEntry hchild
  rw [components_render hP, components_render hC]
  unfold entryWithin
  simp only [Bool.or_eq_true, decide_eq_true_eq]
  constructor
  · rintro (heq | hstrip)
    · have hcomp := congrArg components heq
      rw [components_render hP, components_render hC] at hcomp
      exact hcomp ▸ prefix_rfl
    obtain ⟨rest, hrest, hslash⟩ := (Option.any_eq_true _ _).1 hstrip
    rw [stripFront_eq_some] at hrest
    simp only [Bool.or_eq_true, decide_eq_true_eq] at hslash
    cases P with
    | nil => exact nil_prefix
    | cons p P =>
      have hhead := hslash.resolve_left (getLast_render hP)
      obtain ⟨tail, rfl⟩ : ∃ tail, rest = '/' :: tail := by
        cases rest with
        | nil => cases hhead
        | cons x tail =>
          cases hhead
          exact ⟨tail, rfl⟩
      have hcomp := congrArg components hrest
      unfold components at hcomp
      rw [splitSlash_append, filter_append] at hcomp
      have hC' := components_render hC
      have hP' := components_render hP
      unfold components at hC' hP'
      rw [hC', hP'] at hcomp
      exact ⟨_, hcomp.symm⟩
  · rintro ⟨D, rfl⟩
    cases D with
    | nil =>
      left
      rw [append_nil]
    | cons d D =>
      right
      cases P with
      | nil =>
        refine (Option.any_eq_true _ _).2 ⟨(d ++ D.flatMap fun x => '/' :: x), ?_, ?_⟩
        · rw [stripFront_eq_some]
          rfl
        · rfl
      | cons p P =>
        refine (Option.any_eq_true _ _).2 ⟨render (d :: D), ?_, ?_⟩
        · rw [stripFront_eq_some]
          show ((p :: P) ++ (d :: D)).flatMap (fun x => '/' :: x) = _
          rw [flatMap_append]
          rfl
        · simp [render]

end Qsh.Acl
