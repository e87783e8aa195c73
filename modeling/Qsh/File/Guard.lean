import Mathlib.Algebra.GroupWithZero.Nat
import Mathlib.Data.List.Basic
import Mathlib.Order.Lattice
import Qsh.Lib.FileTree

/-!
# Normalised file paths

A file request is checked against the `paths` of the policy and against the
protected set by its normalised path (`file/guard.rs`).  `normalize_with` resolves
the longest prefix that exists with `realpath` and folds the remaining components
onto it without another look at the tree: a `..` removes the name before it, or
steps above the prefix when there is none.

After a `..` the fold may be back in a directory that exists, and the last name of
a prefix that does not resolve may be a link to nowhere.  So a name that the fold
appends can be a symbolic link.
-/

namespace Qsh.File

open Qsh.Lib List

variable {ν : Type}

def PATH_MAX_BYTES : Nat := 4096

/-- A path as it comes in: its length, and its components without the root and
`.`. -/
structure RawPath (ν : Type) where
  absolute : Bool
  bytes : Nat
  parts : List (PathPart ν)

inductive NormalizeError where
  | notAbsolute
  | tooLong
  | resolve (e : WalkError)
  deriving DecidableEq

def foldRest (base pending : List ν) : List (PathPart ν) → List ν
  | [] => base ++ pending
  | .normal name :: rest => foldRest base (pending ++ [name]) rest
  | .parent :: rest =>
      if pending.isEmpty then foldRest base.dropLast [] rest
      else foldRest base pending.dropLast rest

def search (t : FileTree ν) (links : Nat) (parts : List (PathPart ν)) :
    Nat → Except NormalizeError (List ν)
  | 0 =>
      match t.realpath links [] with
      | .ok base => .ok (foldRest base [] parts)
      | .error e => .error (.resolve e)
  | keep + 1 =>
      match t.realpath links (parts.take (keep + 1)) with
      | .ok base => .ok (foldRest base [] (parts.drop (keep + 1)))
      | .error .notFound => search t links parts keep
      | .error e => .error (.resolve e)

/-- The real path of the longest part that exists, then the rest. -/
def normalizeWith (t : FileTree ν) (links : Nat) (p : RawPath ν) :
    Except NormalizeError (List ν) :=
  if p.absolute = false then .error .notAbsolute
  else if PATH_MAX_BYTES < p.bytes then .error .tooLong
  else search t links p.parts p.parts.length

/-! ## The fold -/

/-- What a list of components leaves over: how often it steps above where it
starts, and the names. -/
def leftover (ups : Nat) (names : List ν) : List (PathPart ν) → Nat × List ν
  | [] => (ups, names)
  | .normal name :: rest => leftover ups (names ++ [name]) rest
  | .parent :: rest =>
      if names.isEmpty then leftover (ups + 1) [] rest else leftover ups names.dropLast rest

def above (base : List ν) (ups : Nat) : List ν := base.take (base.length - ups)

theorem foldRest_eq (base : List ν) (ups : Nat) (names : List ν) (rest : List (PathPart ν)) :
    foldRest (above base ups) names rest =
      above base (leftover ups names rest).1 ++ (leftover ups names rest).2 := by
  induction rest generalizing ups names with
  | nil => rfl
  | cons part rest ih =>
    cases part with
    | normal name => exact ih ups (names ++ [name])
    | parent =>
      unfold foldRest leftover
      split
      · have hup : (above base ups).dropLast = above base (ups + 1) := by
          unfold above
          rw [dropLast_eq_take, take_take, length_take]
          congr 1
          omega
        rw [hup]
        exact ih (ups + 1) []
      · exact ih ups names.dropLast

theorem foldRest_normal (base pending names : List ν) :
    foldRest base pending (names.map .normal) = base ++ pending ++ names := by
  induction names generalizing pending with
  | nil =>
    show base ++ pending = _
    rw [append_nil]
  | cons name names ih =>
    show foldRest base (pending ++ [name]) (names.map .normal) = _
    rw [ih]
    simp

/-! ## The search -/

/-- The longest prefix that resolves: so many components, to this path. -/
def Longest (t : FileTree ν) (links : Nat) (parts : List (PathPart ν)) (keep : Nat)
    (base : List ν) : Prop :=
  keep ≤ parts.length ∧ t.realpath links (parts.take keep) = .ok base ∧
    ∀ k, keep < k → k ≤ parts.length → t.realpath links (parts.take k) = .error .notFound

variable {t : FileTree ν} {links k : Nat} {parts : List (PathPart ν)}

theorem search_ok {c : List ν} (h : search t links parts parts.length = .ok c) :
    ∃ keep base, Longest t links parts keep base ∧ c = foldRest base [] (parts.drop keep) := by
  have hgen : ∀ n, n ≤ parts.length →
      (∀ k, n < k → k ≤ parts.length → t.realpath links (parts.take k) = .error .notFound) →
      search t links parts n = .ok c →
      ∃ keep base, Longest t links parts keep base ∧ c = foldRest base [] (parts.drop keep) := by
    intro n
    induction n with intro hn hall h
    | zero =>
      unfold search at h
      split at h
      · rename_i base hbase
        exact ⟨0, base, ⟨hn, hbase, hall⟩, (Except.ok.inj h).symm⟩
      · exact nomatch h
    | succ n ih =>
      unfold search at h
      split at h
      · rename_i base hbase
        exact ⟨n + 1, base, ⟨hn, hbase, hall⟩, (Except.ok.inj h).symm⟩
      · rename_i hmiss
        refine ih (by omega) ?_ h
        intro k hk hle
        by_cases hkn : k = n + 1
        · rw [hkn]
          exact hmiss
        · exact hall k (by omega) hle
      · exact nomatch h
  exact hgen parts.length le_rfl (fun k hk hle => absurd hk (by omega)) h

theorem Longest.unique {k' : Nat}
    {base base' : List ν} (h : Longest t links parts k base) (h' : Longest t links parts k' base') :
    k = k' ∧ base = base' := by
  have hk : k = k' := by
    rcases Nat.lt_trichotomy k k' with hlt | heq | hlt
    · exact nomatch h'.2.1.symm.trans (h.2.2 k' hlt h'.1)
    · exact heq
    · exact nomatch h.2.1.symm.trans (h'.2.2 k hlt h.1)
  subst hk
  exact ⟨rfl, Except.ok.inj (h.2.1.symm.trans h'.2.1)⟩

theorem Longest.all_of_file {base : List ν} (h : Longest t links parts k base)
    (hfile : ∃ dir name, base = dir ++ [name] ∧ t.AllDirs dir ∧ t.node base = some .file) :
    k = parts.length := by
  by_contra hne
  have hlt : k < parts.length := Nat.lt_of_le_of_ne h.1 hne
  obtain ⟨-, -, -, -, hnode⟩ := hfile
  have hmiss := h.2.2 (k + 1) (Nat.lt_succ_self k) hlt
  have hsplit : parts.take (k + 1) = parts.take k ++ [parts[k]] := by
    rw [take_append_getElem hlt]
  rw [hsplit] at hmiss
  have hbelow := (FileTree.walk_spec t.allDirs_nil h.2.1).2 hnode [parts[k]] (cons_ne_nil _ _)
  exact nomatch hmiss.symm.trans hbelow

/-- No name that the components after the longest resolving prefix leave over is a
link, or a file with more names to come, where it is appended. -/
def LeftoverPlain (t : FileTree ν) (links : Nat) (p : RawPath ν) : Prop :=
  ∀ keep base, Longest t links p.parts keep base →
    t.plain (above base (leftover 0 [] (p.parts.drop keep)).1)
      (leftover 0 [] (p.parts.drop keep)).2 = true

def asPath (size : ν → Nat) (c : List ν) : RawPath ν where
  absolute := true
  bytes := max 1 (c.map fun name => size name + 1).sum
  parts := c.map .normal

theorem search_self_iff (t : FileTree ν) (links : Nat) (c : List ν) :
    t.NoLink c ∧ search t links (c.map PathPart.normal) (c.map PathPart.normal).length = .ok c ↔
      t.plain [] c = true := by
  constructor
  · rintro ⟨hno, hself⟩
    by_contra hnot
    have hblocked := (FileTree.realpath_normal links hno).2 (by simpa using hnot)
    cases c with
    | nil => exact hnot rfl
    | cons name rest =>
      unfold search at hself
      rw [length_map, length_cons] at hself
      simp only at hself
      rw [← length_cons (a := name), ← length_map (f := PathPart.normal),
        take_length, hblocked] at hself
      exact nomatch hself
  intro hplain
  refine ⟨FileTree.noLink_of_plain hplain, ?_⟩
  -- every prefix resolves to itself or misses a component
  have hprefix : ∀ k, t.realpath links ((c.map PathPart.normal).take k) = .ok (c.take k) ∨
      t.realpath links ((c.map PathPart.normal).take k) = .error .notFound := by
    intro k
    rw [← map_take]
    have htake := FileTree.plain_take k hplain
    exact (FileTree.realpath_normal links (FileTree.noLink_of_plain htake)).1 htake
  have hfold : ∀ k, foldRest (c.take k) [] ((c.map PathPart.normal).drop k) = c := by
    intro k
    rw [← map_drop, foldRest_normal, append_nil, take_append_drop]
  have hgen : ∀ k, search t links (c.map .normal) k = .ok c := by
    intro k
    induction k with
    | zero =>
      have hroot : t.realpath links [] = .ok [] := by
        cases links <;> rfl
      unfold search
      rw [hroot]
      exact congrArg Except.ok (hfold 0)
    | succ k ih =>
      unfold search
      rcases hprefix (k + 1) with hok | hmiss
      · rw [hok]
        exact congrArg Except.ok (hfold (k + 1))
      · rw [hmiss]
        exact ih
  exact hgen _

/-- When a path is normalised to `c`: no place on `c` is a link and `c` is its own
normalisation (so that opening `c` reaches `c`) if and only if nothing that the
fold appends is a link, or a file with more names to come. -/
theorem normalize_real_iff (t : FileTree ν) (links : Nat) (size : ν → Nat) (p : RawPath ν)
    {c : List ν} (h : normalizeWith t links p = .ok c) :
    (t.NoLink c ∧ (∀ d, t.realpath links (c.map .normal) = .ok d → d = c) ∧
      search t links (asPath size c).parts (asPath size c).parts.length = .ok c ∧
      ((asPath size c).bytes ≤ PATH_MAX_BYTES → normalizeWith t links (asPath size c) = .ok c)) ↔
    LeftoverPlain t links p := by
  have hsearch : search t links p.parts p.parts.length = .ok c := by
    unfold normalizeWith at h
    split at h
    · exact nomatch h
    split at h
    · exact nomatch h
    · exact h
  obtain ⟨keep, base, hlong, hc⟩ := search_ok hsearch
  have hbase : base = above base 0 := by
    unfold above
    rw [Nat.sub_zero, take_length]
  rw [hbase, foldRest_eq] at hc
  -- the base is resolved, so only what is appended can be a link
  have hreal := (FileTree.walk_spec t.allDirs_nil hlong.2.1).1
  have hplain : t.plain [] c = true ↔ LeftoverPlain t links p := by
    rcases hreal with hdirs | hfile
    · have habove : t.AllDirs (above base (leftover 0 [] (p.parts.drop keep)).1) := hdirs.take _
      rw [hc, FileTree.plain_append habove]
      constructor
      · intro hp keep' base' hlong'
        obtain ⟨rfl, rfl⟩ := hlong.unique hlong'
        exact hp
      · intro hp
        exact hp keep base hlong
    have hend := hlong.all_of_file hfile
    have hnil : p.parts.drop keep = [] := by
      rw [hend, drop_length]
    have hcb : c = base := by
      rw [hc, hnil]
      show above base 0 ++ [] = base
      rw [append_nil, ← hbase]
    constructor
    · intro _ keep' base' hlong'
      obtain ⟨rfl, rfl⟩ := hlong.unique hlong'
      rw [hnil]
      rfl
    · intro _
      rw [hcb]
      exact FileTree.Real.plain (.inr hfile)
  rw [← hplain, ← search_self_iff t links c]
  constructor
  · rintro ⟨hno, -, hself, -⟩
    exact ⟨hno, hself⟩
  rintro ⟨hno, hself⟩
  refine ⟨hno, ?_, hself, ?_⟩
  · intro d hd
    have hp := (search_self_iff t links c).1 ⟨hno, hself⟩
    rcases (FileTree.realpath_normal links hno).1 hp with hok | hmiss
    · exact Except.ok.inj (hd.symm.trans hok)
    · exact nomatch hd.symm.trans hmiss
  · intro hle
    unfold normalizeWith
    rw [if_neg (by simp [asPath]), if_neg (by omega)]
    exact hself

def linkedTree : FileTree Nat where
  node := fun d =>
    if d = [] ∨ d = [1] ∨ d = [3] then some .dir
    else if d = [1, 2] then some (.link true [.normal 3])
    else none
  root := rfl
  inside := by
    intro d name h
    match d with
    | [] => rfl
    | [a] =>
      by_cases ha : a = 1
      · simp [ha]
      · exact absurd (by simp [ha]) h
    | a :: b :: rest => exact absurd (by simp) h

/-- A request for `/1/9/8`, of which `/1` exists. -/
theorem normalize_real_iff_missing :
    ∃ c, normalizeWith linkedTree 40 ⟨true, 6, [.normal 1, .normal 9, .normal 8]⟩ = .ok c ∧
      linkedTree.NoLink c := by
  have hok : normalizeWith linkedTree 40 ⟨true, 6, [.normal 1, .normal 9, .normal 8]⟩ =
      .ok [1, 9, 8] := by decide
  refine ⟨_, hok, ((normalize_real_iff linkedTree 40 (fun _ => 1) _ hok).2 ?_).1⟩
  intro keep base hlong
  have hlong' : Longest linkedTree 40 [.normal 1, .normal 9, .normal 8] 1 [1] := by
    refine ⟨by decide, by rfl, ?_⟩
    intro k hk hle
    have hle' : k ≤ 3 := hle
    obtain rfl | rfl : k = 2 ∨ k = 3 := by omega
    · rfl
    · rfl
  obtain ⟨rfl, rfl⟩ := hlong.unique hlong'
  rfl

/-- `/1/9/../2` is normalised to `/1/2`, which is a symbolic link. -/
theorem normalized_path_is_a_link :
    normalizeWith linkedTree 40 ⟨true, 9, [.normal 1, .normal 9, .parent, .normal 2]⟩ = .ok [1, 2] ∧
      linkedTree.node [1, 2] = some (.link true [.normal 3]) ∧
      normalizeWith linkedTree 40 ⟨true, 4, [.normal 1, .normal 2]⟩ = .ok [3] := by
  refine ⟨?_, rfl, ?_⟩ <;> decide

end Qsh.File
