import Mathlib.Data.List.Chain
import Mathlib.Data.List.Sort
import Mathlib.Order.Nat

/-!
# Listing a remote directory

`list_all` (`ops/file/copy/tree.rs`) joins the pages of a directory.  It asks for the page
after the last name it has, and an empty page that says there is more makes it ask the
same again.

A name is an element of a linear order, the byte order; `⊥` is the empty text, the first
cursor.
-/

namespace Qsh.File

open List

variable {ν ι : Type}

def FILE_LIST_DIR_MAX : Nat := 65536

structure FileEntry (ν ι : Type) where
  name : ν
  info : ι

/-- One page of a listing. -/
structure FileListed (ν ι : Type) where
  isDir : Bool
  entries : List (FileEntry ν ι)
  more : Bool
  unlistable : Nat

inductive ErrorCode where
  | invalidArgument
  | remoteError
  | resourceExhausted

inductive XferFailure where
  | remote (code : ErrorCode) (message : String)
  | «local» (code : ErrorCode) (message : String)
  /-- The request itself failed, or was cancelled. -/
  | request

/-- What the host answers, by the number of the page and the cursor. -/
abbrev ListHost (ν ι : Type) := Nat → ν → Except XferFailure (FileListed ν ι)

section Client

variable [LinearOrder ν]

/-- The inner loop of `list_all`. -/
def addEntries (entries : List (FileEntry ν ι)) :
    List (FileEntry ν ι) → Except XferFailure (List (FileEntry ν ι))
  | [] => .ok entries
  | entry :: rest =>
      if entries.getLast?.any fun prev => entry.name ≤ prev.name then
        .error (.remote .remoteError "the host listed a directory out of order")
      else if FILE_LIST_DIR_MAX < entries.length + 1 then
        .error (.local .resourceExhausted
          ("directory has more than " ++ toString FILE_LIST_DIR_MAX ++ " entries"))
      else addEntries (entries ++ [entry]) rest

/-- What `list_all` does with a page: it has all the entries, or goes on after a name. -/
def readPage (entries : List (FileEntry ν ι)) (page : FileListed ν ι) :
    Except XferFailure (List (FileEntry ν ι) × Option ν) := do
  let entries ← addEntries entries page.entries
  if page.more then
    match entries.getLast? with
    | none => .error (.remote .remoteError "the host's directory listing did not advance")
    | some last => .ok (entries, some last.name)
  else .ok (entries, none)

/-- The loop of `list_all`, with `asked` pages asked for: how many were in the end, and the
result.  Every round takes fuel. -/
def listLoop (host : ListHost ν ι) :
    Nat → Nat → List (FileEntry ν ι) → FileListed ν ι →
      Option (Nat × Except XferFailure (List (FileEntry ν ι)))
  | 0, _, _, _ => none
  | fuel + 1, asked, entries, page =>
      match readPage entries page with
      | .error e => some (asked, .error e)
      | .ok (entries, none) => some (asked, .ok entries)
      | .ok (entries, some after) =>
          match host asked after with
          | .error e => some (asked + 1, .error e)
          | .ok page => listLoop host fuel (asked + 1) entries page

/-- `list_all`: how many requests it sent, and the entries with the count of names that the
host could not list.  The caller may have asked for the first page. -/
def listAll [OrderBot ν] (host : ListHost ν ι) (first : Option (FileListed ν ι)) (fuel : Nat) :
    Option (Nat × Except XferFailure (List (FileEntry ν ι) × Nat)) :=
  match first.elim (host 0 ⊥) .ok with
  | .error e => some (1, .error e)
  | .ok page =>
      if page.isDir then
        (listLoop host fuel 1 [] page).map fun r =>
          (r.1 - first.toList.length, r.2.map (·, page.unlistable))
      else some (1 - first.toList.length, .error (.remote .invalidArgument "not a directory"))

variable {entries out : List (FileEntry ν ι)} {page : FileListed ν ι} {after : Option ν}

/-- In order, and no more than a directory may have. -/
structure Listed (entries : List (FileEntry ν ι)) : Prop where
  sorted : (entries.map (·.name)).IsChain (· < ·)
  bounded : entries.length ≤ FILE_LIST_DIR_MAX

theorem addEntries_spec {new : List (FileEntry ν ι)} (hl : Listed entries)
    (h : addEntries entries new = .ok out) : out = entries ++ new ∧ Listed out := by
  induction new generalizing entries with
  | nil =>
    cases h
    exact ⟨(append_nil _).symm, hl⟩
  | cons entry rest ih =>
    rw [addEntries] at h
    split_ifs at h with horder hmax
    have hlast : ∀ x ∈ (entries.map (·.name)).getLast?, x < entry.name := by
      simpa [getLast?_map, Option.any_eq_false] using horder
    have hnext : Listed (entries ++ [entry]) := by
      refine ⟨?_, by simp at hmax ⊢; omega⟩
      rw [map_append, isChain_append]
      exact ⟨hl.sorted, isChain_singleton _, by simpa using hlast⟩
    simpa using ih hnext h

/-- The page is added, and the next one starts after its last entry. -/
theorem readPage_spec (hl : Listed entries) (h : readPage entries page = .ok (out, after)) :
    out = entries ++ page.entries ∧ Listed out ∧
      (page.more = false ∧ after = none ∨
        page.more = true ∧ ∃ last, out.getLast? = some last ∧ after = some last.name) := by
  rw [readPage] at h
  cases hadd : addEntries entries page.entries with rw [hadd] at h
  | error e => cases h
  | ok added =>
    obtain ⟨happ, hlisted⟩ := addEntries_spec hl hadd
    simp only [bind, Except.bind] at h
    split at h
    · next hmore =>
      split at h
      · cases h
      · next last hlast =>
        cases h
        exact ⟨happ, hlisted, .inr ⟨hmore, last, hlast, rfl⟩⟩
    · next hmore =>
      cases h
      exact ⟨happ, hlisted, .inl ⟨by simpa using hmore, rfl⟩⟩

section Ends

variable [OrderBot ν] {host : ListHost ν ι} {first : Option (FileListed ν ι)}

variable (host first) in
/-- The pages of a listing: the page with its number, and the entries that `list_all` has
before it. -/
inductive Answered : Nat → List (FileEntry ν ι) → FileListed ν ι → Prop
  | first {page : FileListed ν ι} (h : first.elim (host 0 ⊥) .ok = .ok page) :
      Answered 1 [] page
  | next {n : Nat} {entries out : List (FileEntry ν ι)} {page page' : FileListed ν ι} {after : ν}
      (ha : Answered n entries page) (hread : readPage entries page = .ok (out, some after))
      (h : host n after = .ok page') : Answered (n + 1) out page'

variable (hhost : ∀ n entries page, Answered host first n entries page → page.more = true →
  entries ≠ [] → page.entries ≠ [])
include hhost

theorem listLoop_returns {fuel asked : Nat} (hl : Listed entries)
    (hpage : Answered host first asked entries page)
    (hasked : asked ≤ entries.length + 1) (hfuel : FILE_LIST_DIR_MAX < fuel + entries.length) :
    ∃ n r, n ≤ FILE_LIST_DIR_MAX + 1 ∧ listLoop host fuel asked entries page = some (n, r) := by
  have hmax := hl.bounded
  induction fuel generalizing asked entries page with
  | zero => omega
  | succ fuel ih =>
    rw [listLoop]
    cases hread : readPage entries page with
    | error e => exact ⟨asked, .error e, by omega, rfl⟩
    | ok read =>
      obtain ⟨out, after⟩ := read
      obtain ⟨rfl, hout, ⟨-, rfl⟩ | ⟨hmore, last, hlast, rfl⟩⟩ := readPage_spec hl hread
      · exact ⟨asked, _, by omega, rfl⟩
      have hnew : page.entries ≠ [] := by
        obtain rfl | hne := eq_or_ne entries []
        · rintro hnil
          simp [hnil] at hlast
        · exact hhost _ _ _ hpage hmore hne
      have hlen := length_pos_iff.2 hnew
      have hbound := hout.bounded
      have happ : (entries ++ page.entries).length = _ := length_append
      dsimp only
      cases hnext : host asked last.name with
      | error e => exact ⟨asked + 1, .error e, by omega, rfl⟩
      | ok next => exact ih hout (hpage.next hread hnext) (by omega) (by omega) hbound

/-- If in the listing no page after an entry is empty and says there is more, `list_all`
returns after at most `FILE_LIST_DIR_MAX + 1` requests, whatever else the pages hold. -/
theorem hostile_listing_ends :
    ∃ n r, n ≤ FILE_LIST_DIR_MAX + 1 ∧
      listAll host first (FILE_LIST_DIR_MAX + 1) = some (n, r) := by
  unfold listAll
  split
  · exact ⟨1, _, by simp, rfl⟩
  split
  · obtain ⟨n, r, hn, hr⟩ := listLoop_returns hhost ⟨isChain_nil, Nat.zero_le _⟩
      (.first ‹_›) (Nat.le_refl 1) (Nat.lt_succ_self _)
    exact ⟨_, _, (Nat.sub_le _ _).trans hn, by rw [hr]; rfl⟩
  · exact ⟨_, _, (Nat.sub_le _ _).trans (by simp), rfl⟩

end Ends

/-- Three pages, the second with two entries. -/
def threePages : ListHost ℕ Unit
  | 0, _ => .ok ⟨true, [⟨1, ()⟩], true, 0⟩
  | 1, _ => .ok ⟨true, [⟨2, ()⟩, ⟨3, ()⟩], true, 0⟩
  | _ + 2, _ => .ok ⟨true, [⟨4, ()⟩], false, 1⟩

theorem hostile_listing_ends_threePages :
    ∃ n r, n ≤ FILE_LIST_DIR_MAX + 1 ∧
      listAll threePages none (FILE_LIST_DIR_MAX + 1) = some (n, r) := by
  have hpages : ∀ n x page, threePages n x = .ok page → page.entries ≠ [] := by
    intro n x page h
    match n, h with
    | 0, rfl | 1, rfl | _ + 2, rfl => simp
  apply hostile_listing_ends
  intro n entries page hpage _ _
  cases hpage with
  | first h => exact hpages 0 ⊥ _ h
  | next _ _ h => exact hpages _ _ _ h

/-- One entry, and then pages that are empty and say that there is more. -/
def emptyPages : ListHost ℕ Unit
  | 0, _ => .ok ⟨true, [⟨1, ()⟩], true, 0⟩
  | _ + 1, _ => .ok ⟨true, [], true, 0⟩

theorem empty_pages_never_end : listAll emptyPages none = fun _ => none := by
  funext fuel
  have hloop : ∀ fuel asked, listLoop emptyPages fuel (asked + 1) [⟨1, ()⟩] ⟨true, [], true, 0⟩ =
      none := by
    intro fuel
    induction fuel with
    | zero => exact fun _ => rfl
    | succ fuel ih => exact fun asked => ih (asked + 1)
  cases fuel with
  | zero => rfl
  | succ fuel => exact congrArg (Option.map _) (hloop fuel 1)

end Client

end Qsh.File
