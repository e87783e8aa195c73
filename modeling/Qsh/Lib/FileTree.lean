import Mathlib.Data.List.Induction

/-!
# Paths in a tree with symbolic links

A tree says of every physical path (the names from the root, none of them a link)
what is there: nothing, a directory, a file or a symbolic link with its target.
What is there has a directory above it; that is part of the type.

`realpath` resolves a path the way a kernel does: one component after the other,
`..` going to the physical parent, a link being replaced by its target, at most a
given number of times.

`Plain` is a walk along names that meets no link and no file before the last
name.  `realpath` leaves such a path alone, and what it returns is one.
-/

namespace Qsh.Lib

open List

variable {ν : Type}

inductive PathPart (ν : Type) where
  | normal (name : ν)
  | parent
  deriving DecidableEq

inductive TreeNode (ν : Type) where
  | dir
  | file
  | link (absolute : Bool) (target : List (PathPart ν))
  deriving DecidableEq

/-- A tree of directories, files and links, by absolute paths. -/
structure FileTree (ν : Type) where
  node : List ν → Option (TreeNode ν)
  root : node [] = some .dir
  inside : ∀ d name, node (d ++ [name]) ≠ none → node d = some .dir

inductive WalkError where
  | notFound
  | notADirectory
  | tooManyLinks
  deriving DecidableEq

namespace FileTree

def walkWith (t : FileTree ν)
    (onLink : List ν → List (PathPart ν) → Except WalkError (List ν)) (cur : List ν) :
    List (PathPart ν) → Except WalkError (List ν)
  | [] => .ok cur
  | .parent :: rest => walkWith t onLink cur.dropLast rest
  | .normal name :: rest =>
      match t.node (cur ++ [name]) with
      | none => .error .notFound
      | some .dir => walkWith t onLink (cur ++ [name]) rest
      | some .file => if rest.isEmpty then .ok (cur ++ [name]) else .error .notADirectory
      | some (.link absolute target) => onLink (if absolute then [] else cur) (target ++ rest)

/-- Walk from a directory, through at most this many links. -/
def walk (t : FileTree ν) : Nat → List ν → List (PathPart ν) → Except WalkError (List ν)
  | 0 => walkWith t fun _ _ => .error .tooManyLinks
  | links + 1 => walkWith t (walk t links)

/-- The path with its links followed, at most this many. -/
def realpath (t : FileTree ν) (links : Nat) (parts : List (PathPart ν)) :
    Except WalkError (List ν) :=
  t.walk links [] parts

/-- A walk along names that meets no link, and no file before the last name. -/
def plain (t : FileTree ν) (d : List ν) : List ν → Bool
  | [] => true
  | name :: rest =>
      match t.node (d ++ [name]) with
      | none => true
      | some .dir => plain t (d ++ [name]) rest
      | some .file => rest.isEmpty
      | some (.link _ _) => false

def AllDirs (t : FileTree ν) (d : List ν) : Prop := ∀ k, t.node (d.take k) = some .dir

def Real (t : FileTree ν) (d : List ν) : Prop :=
  t.AllDirs d ∨ ∃ dir name, d = dir ++ [name] ∧ t.AllDirs dir ∧ t.node d = some .file

theorem allDirs_nil (t : FileTree ν) : t.AllDirs [] := by
  intro k
  rw [take_nil]
  exact t.root

variable {t : FileTree ν} {d names : List ν}

theorem AllDirs.snoc (h : t.AllDirs d) {name : ν}
    (hname : t.node (d ++ [name]) = some .dir) : t.AllDirs (d ++ [name]) := by
  intro k
  by_cases hk : k ≤ d.length
  · rw [take_append_of_le_length hk]
    exact h k
  · rw [take_of_length_le (by simp; omega)]
    exact hname

theorem AllDirs.take (h : t.AllDirs d) (n : Nat) :
    t.AllDirs (d.take n) := by
  intro k
  rw [take_take]
  exact h _

theorem AllDirs.dropLast (h : t.AllDirs d) :
    t.AllDirs d.dropLast := by
  rw [dropLast_eq_take]
  exact h.take _

variable {links : Nat} {cur : List ν} {parts : List (PathPart ν)}

/-- A walk ends at a directory or a file, and does not go on below a file. -/
theorem walk_spec (hcur : t.AllDirs cur) (h : t.walk links cur parts = .ok d) :
    t.Real d ∧ (t.node d = some .file → ∀ rest ≠ [],
      t.walk links cur (parts ++ rest) = .error .notADirectory) := by
  have hwith : ∀ onLink : List ν → List (PathPart ν) → Except WalkError (List ν),
      (∀ cur parts, t.AllDirs cur → onLink cur parts = .ok d → t.Real d ∧
        (t.node d = some .file → ∀ rest ≠ [], onLink cur (parts ++ rest) = .error .notADirectory)) →
      ∀ parts cur, t.AllDirs cur → t.walkWith onLink cur parts = .ok d → t.Real d ∧
        (t.node d = some .file → ∀ rest ≠ [],
          t.walkWith onLink cur (parts ++ rest) = .error .notADirectory) := by
    intro onLink hlink parts
    induction parts with intro cur hcur h
    | nil =>
      obtain rfl := Except.ok.inj h
      refine ⟨.inl hcur, fun hfile => ?_⟩
      have hdir := hcur cur.length
      rw [take_length, hfile] at hdir
      exact nomatch hdir
    | cons part parts ih =>
      cases part with
      | parent => exact ih cur.dropLast hcur.dropLast h
      | normal name =>
        simp only [cons_append, walkWith] at h ⊢
        cases hnode : t.node (cur ++ [name]) with rw [hnode] at h
        | none =>
          exact nomatch h
        | some x =>
          cases x with
          | dir => exact ih _ (hcur.snoc hnode) h
          | file =>
            cases parts with
            | cons _ _ => exact nomatch h
            | nil =>
              cases h
              refine ⟨.inr ⟨cur, name, rfl, hcur, hnode⟩, fun _ rest hne => ?_⟩
              cases rest with
              | nil => exact absurd rfl hne
              | cons _ _ => rfl
          | link absolute target =>
            simp only [← append_assoc]
            refine hlink _ _ ?_ h
            split
            · exact t.allDirs_nil
            · exact hcur
  induction links generalizing cur parts with
  | zero =>
    exact hwith (fun _ _ => .error .tooManyLinks) nofun parts cur hcur h
  | succ links ih => exact hwith _ (fun cur parts hcur h => ih hcur h) parts cur hcur h

theorem plain_append {dir : List ν} (h : t.AllDirs dir) (names : List ν) :
    t.plain [] (dir ++ names) = t.plain dir names := by
  have hgen : ∀ rest done, done ++ rest = dir →
      t.plain done (rest ++ names) = t.plain dir names := by
    intro rest
    induction rest with intro done hdone
    | nil =>
      rw [append_nil] at hdone
      rw [hdone]
      rfl
    | cons name rest ih =>
      have hnode : t.node (done ++ [name]) = some .dir := by
        have := h (done.length + 1)
        rw [← hdone, take_append, take_of_length_le (by omega)] at this
        simpa using this
      show (match t.node (done ++ [name]) with
        | none => true
        | some .dir => t.plain (done ++ [name]) (rest ++ names)
        | some .file => (rest ++ names).isEmpty
        | some (.link _ _) => false) = _
      rw [hnode]
      exact ih (done ++ [name]) (by rw [append_assoc]; exact hdone)
  exact hgen dir [] rfl

theorem Real.plain (h : t.Real d) : t.plain [] d = true := by
  rcases h with h | ⟨dir, name, rfl, hdir, hfile⟩
  · have := plain_append h []
    rw [append_nil] at this
    exact this
  rw [plain_append hdir [name]]
  unfold FileTree.plain
  rw [hfile]
  rfl

theorem plain_take (k : Nat) :
    ∀ {d : List ν}, t.plain d names = true → t.plain d (names.take k) = true := by
  induction names generalizing k with
  | nil =>
    intro d h
    rw [take_nil]
    exact h
  | cons name rest ih =>
    intro d h
    cases k with
    | zero => rfl
    | succ k =>
      rw [take_succ_cons]
      unfold FileTree.plain at h ⊢
      cases hnode : t.node (d ++ [name]) with
      | none => rfl
      | some x =>
        rw [hnode] at h
        cases x with
        | dir => exact ih k h
        | file =>
          obtain rfl := List.isEmpty_iff.1 h
          rw [take_nil]
          rfl
        | link absolute target => cases h

def NoLink (t : FileTree ν) (names : List ν) : Prop :=
  ∀ k absolute target, t.node (names.take k) ≠ some (.link absolute target)

theorem node_none_of_not_dir (h : t.node d ≠ some .dir)
    (names : List ν) (hne : names ≠ []) : t.node (d ++ names) = none := by
  induction names using List.reverseRecOn with
  | nil => exact absurd rfl hne
  | append_singleton rest name ih =>
    by_contra hsome
    have hdir := t.inside (d ++ rest) name (by rwa [append_assoc])
    obtain rfl | hrest := eq_or_ne rest []
    · rw [append_nil] at hdir
      exact h hdir
    · rw [ih hrest] at hdir
      cases hdir

theorem allDirs_of_node {name : ν} (h : t.node (d ++ [name]) ≠ none) : t.AllDirs d := by
  intro k
  by_contra hdir
  have hnone := node_none_of_not_dir hdir (d.drop k ++ [name]) (by simp)
  rw [← append_assoc, take_append_drop] at hnone
  exact h hnone

theorem noLink_of_plain (h : t.plain [] names = true) : t.NoLink names := by
  intro k absolute target hlink
  rcases eq_nil_or_concat (names.take k) with hnil | ⟨dir, name, htake⟩
  · rw [hnil, t.root] at hlink
    exact nomatch hlink
  -- the names before the link are directories, so the walk comes to it
  rw [concat_eq_append] at htake
  rw [htake] at hlink
  have hdirs : t.AllDirs dir := allDirs_of_node (by rw [hlink]; exact nofun)
  rw [← take_append_drop k names, htake, append_assoc, plain_append hdirs] at h
  simp [FileTree.plain, hlink] at h

theorem realpath_normal (links : Nat) (hno : t.NoLink names) :
    (t.plain [] names = true → t.realpath links (names.map .normal) = .ok names ∨
      t.realpath links (names.map .normal) = .error .notFound) ∧
    (t.plain [] names = false →
      t.realpath links (names.map .normal) = .error .notADirectory) := by
  have hgen : ∀ onLink rest done, done ++ rest = names →
      (t.plain done rest = true → t.walkWith onLink done (rest.map .normal) = .ok names ∨
        t.walkWith onLink done (rest.map .normal) = .error .notFound) ∧
      (t.plain done rest = false →
        t.walkWith onLink done (rest.map .normal) = .error .notADirectory) := by
    intro onLink rest
    induction rest with intro done hdone
    | nil =>
      rw [append_nil] at hdone
      exact ⟨fun _ => .inl (congrArg _ hdone), nofun⟩
    | cons name rest ih =>
      rw [map_cons]
      unfold walkWith FileTree.plain
      cases hnode : t.node (done ++ [name]) with
      | none => exact ⟨fun _ => .inr rfl, nofun⟩
      | some x =>
        cases x with
        | dir => exact ih (done ++ [name]) (by rw [append_assoc]; exact hdone)
        | file =>
          cases rest with
          | nil => exact ⟨fun _ => .inl (congrArg _ hdone), nofun⟩
          | cons _ _ => exact ⟨nofun, fun _ => rfl⟩
        | link absolute target =>
          refine absurd hnode ?_
          have := hno (done.length + 1) absolute target
          rw [← hdone, take_append, take_of_length_le (by omega)] at this
          simpa using this
  cases links with
  | zero | succ => exact hgen _ names [] rfl

end FileTree

end Qsh.Lib
