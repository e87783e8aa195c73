import Qsh.File.Guard

/-!
# Request paths

The shape check of a request path (`file/guard.rs`): `~` and relative texts are joined to
the home of the account.  A text and a home are bytes; `Path::join` drops the home when
what is joined to it starts with a slash.
-/

namespace Qsh.File

open List

abbrev Bytes := List UInt8

def SLASH : UInt8 := 0x2F
def TILDE : UInt8 := 0x7E
def DOT : UInt8 := 0x2E

inductive FileOp where
  | read
  | list
  | write
  | mkdir

def FileOp.creates : FileOp → Bool
  | .write | .mkdir => true
  | _ => false

inductive ShapeError where
  | tooLong
  | tildeUser
  | noHome
  | dotLastComponent

structure ShapedPath where
  absolute : Bytes
  mustBeDir : Bool

def components (path : Bytes) : List Bytes := (path.splitOn SLASH).filter (· ≠ [])

/-- `Path::join`. -/
def join (base path : Bytes) : Bytes :=
  if path.head? = some SLASH then path
  else if base = [] ∨ base.getLast? = some SLASH then base ++ path
  else base ++ SLASH :: path

def joinRelative (home rest : Bytes) : Bytes :=
  if rest = [] then home else join home rest

def usableHome (home : Option Bytes) : Except ShapeError Bytes :=
  match home.filter (·.head? = some SLASH) with
  | some home => .ok home
  | none => .error .noHome

/-- The absolute path of a text, before its length is checked. -/
def absoluteOf (text : Bytes) (home : Option Bytes) : Except ShapeError Bytes :=
  if text.head? = some SLASH then .ok text
  else if text = [TILDE] then usableHome home
  else if text.take 2 = [TILDE, SLASH] then (usableHome home).map (joinRelative · (text.drop 2))
  else if text.head? = some TILDE then .error .tildeUser
  else (usableHome home).map (joinRelative · text)

/-- The absolute path of a text, or the rule it breaks. -/
def shapePosix (text : Bytes) (op : FileOp) (home : Option Bytes) :
    Except ShapeError ShapedPath :=
  if op.creates ∧ (components text).getLast?.any fun last => last = [DOT] ∨ last = [DOT, DOT] then
    .error .dotLastComponent
  else
    match absoluteOf text home with
    | .error e => .error e
    | .ok absolute =>
        if PATH_MAX_BYTES < absolute.length then .error .tooLong
        else .ok ⟨absolute, text.getLast? = some SLASH⟩

def afterTilde (text : Bytes) : Bytes :=
  if text.head? = some TILDE then text.tail else text

variable {text home path : Bytes}

theorem components_append (x y : Bytes) :
    components (x ++ SLASH :: y) = components x ++ components y := by
  rw [components, splitOn_append_cons_self, filter_append]
  rfl

theorem components_joinRelative (hpath : path.head? ≠ some SLASH) :
    components (joinRelative home path) = components home ++ components path := by
  rw [joinRelative, join, if_neg hpath]
  split_ifs with hempty hend
  · rw [hempty]
    exact (append_nil _).symm
  · rcases hend with rfl | hend
    · rfl
    -- the slash at the end of the home is the one that separates
    obtain ⟨x, rfl⟩ := getLast?_eq_some_iff.1 hend
    rw [append_assoc, singleton_append, components_append, components_append]
    exact congrArg (· ++ _) (append_nil _).symm
  · exact components_append home path

theorem usableHome_eq (h : usableHome (some home) = .ok path) : path = home := by
  simp only [usableHome, Option.filter_some] at h
  split at h
  · next hsome =>
    cases h
    split_ifs at hsome
    exact (Option.some.inj hsome).symm
  · cases h

theorem absoluteOf_of_shapePosix {op : FileOp} {shaped : ShapedPath}
    (h : shapePosix text op (some home) = .ok shaped) :
    absoluteOf text (some home) = .ok shaped.absolute := by
  rw [shapePosix] at h
  split_ifs at h
  cases hpath : absoluteOf text (some home) with simp only [hpath] at h
  | error e => cases h
  | ok path =>
    split_ifs at h
    cases h
    rfl

theorem joined_to_home {rest : Bytes}
    (h : (usableHome (some home)).map (joinRelative · rest) = .ok path) :
    path = joinRelative home rest := by
  cases hhome : usableHome (some home) with rw [hhome] at h
  | error e => cases h
  | ok base => rw [← Except.ok.inj h, usableHome_eq hhome]

/-- What follows `~/` is taken below the home unless it starts with a slash: `Path::join`
then drops the home, which shows unless the home is the root. -/
theorem components_tilde_slash (home rest : Bytes) :
    components (joinRelative home rest) = components home ++ components (SLASH :: rest) ↔
      rest.head? ≠ some SLASH ∨ components home = [] := by
  have hslash : components (SLASH :: rest) = components rest := components_append [] rest
  rw [hslash]
  by_cases hrest : rest.head? = some SLASH
  · have hne : rest ≠ [] := by
      rintro rfl
      cases hrest
    rw [joinRelative, if_neg hne, join, if_pos hrest, self_eq_append_left]
    simp [hrest]
  · simp [components_joinRelative hrest, hrest]

/-- An accepted text that is not absolute is taken below the home, with its components
appended to those of the home, exactly if it does not start with `~//` or the home is the
root. -/
theorem home_paths_are_below_home {op : FileOp} {shaped : ShapedPath}
    (habs : text.head? ≠ some SLASH) (h : shapePosix text op (some home) = .ok shaped) :
    components shaped.absolute = components home ++ components (afterTilde text) ↔
      text.take 3 ≠ [TILDE, SLASH, SLASH] ∨ components home = [] := by
  have hpath := absoluteOf_of_shapePosix h
  rw [absoluteOf, if_neg habs] at hpath
  split_ifs at hpath with htilde htake htext
  · rw [usableHome_eq hpath, htilde]
    exact iff_of_true (append_nil _).symm (.inl (by decide))
  · match text, htake with
    | _ :: _ :: rest, htake =>
      cases htake
      rw [joined_to_home hpath]
      refine (components_tilde_slash home rest).trans (or_congr_left (not_congr ?_))
      cases rest <;> simp
  · rw [afterTilde, if_neg htext, joined_to_home hpath]
    refine iff_of_true (components_joinRelative habs) (.inl fun htake => htext ?_)
    have hhead : (text.take 3).head? = text.head? := by cases text <;> rfl
    rw [← hhead, htake]
    rfl

theorem home_paths_are_below_home_tilde :
    ∃ shaped, shapePosix [TILDE, SLASH, 0x61] .write (some [SLASH, 0x68]) = .ok shaped ∧
      components shaped.absolute = [[0x68], [0x61]] := by
  have h : shapePosix [TILDE, SLASH, 0x61] .write (some [SLASH, 0x68]) = .ok _ := rfl
  exact ⟨_, h, ((home_paths_are_below_home (by decide) h).2 (.inl (by decide))).trans (by decide)⟩

/-- A second slash after the tilde: the home is dropped. -/
theorem second_slash_drops_home :
    ∃ shaped, shapePosix [TILDE, SLASH, SLASH, 0x61] .read (some [SLASH, 0x68]) = .ok shaped ∧
      components shaped.absolute = [[0x61]] :=
  ⟨_, rfl, by decide⟩

end Qsh.File
