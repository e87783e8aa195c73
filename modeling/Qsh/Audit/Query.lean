import Qsh.Lib.Directory
import Qsh.Lib.Run

/-!
# A query while the log rotates

`audit.query` (`audit/reader.rs`) reads the rotated files, the oldest first, and then the
active file.  It takes no lock: it opens the files by name, one after the other.  Meanwhile
the writer may rotate (`rotate_files`): it removes the file of slot `retain`, gives every
other file the next slot, the newest last, and makes a new active file.

How a line is read and what the filter accepts are parameters.

A file that is moved to the slot which the query opened last is not found by it.
-/

namespace Qsh.Audit

open Qsh.Lib List Option

variable {κ ρ : Type}

structure Filter (κ ρ : Type) where
  parse : κ → Option ρ
  accepts : ρ → Bool
  limit : Nat

/-- What the scan has found so far, oldest record first. -/
structure Findings (ρ : Type) where
  window : List ρ
  matched : Nat
  skippedLines : Nat
  oldest : Option ρ

structure Answer (ρ : Type) where
  truncated : Bool
  records : List ρ
  skippedLines : Nat
  oldest : Option ρ

namespace Findings

/-- One line of a file: skipped, not wanted, or put into the window. -/
def scanLine (q : Filter κ ρ) (s : Findings ρ) (line : κ) : Findings ρ :=
  match q.parse line with
  | none => { s with skippedLines := s.skippedLines + 1 }
  | some record =>
      let oldest := s.oldest.or (some record)
      if q.accepts record then
        { window := (if s.window.length = q.limit then s.window.tail else s.window) ++ [record]
          matched := s.matched + 1
          skippedLines := s.skippedLines
          oldest }
      else { s with oldest }

def answer (q : Filter κ ρ) (s : Findings ρ) : Answer ρ where
  truncated := s.matched > q.limit
  records := s.window.reverse
  skippedLines := s.skippedLines
  oldest := s.oldest

end Findings

inductive Rotation where
  | idle
  /-- The file of this slot is moved next. -/
  | shift (slot : Nat)
  | create
  | done
  deriving DecidableEq

/-- A query and a writer at one log.  `left` is how many slots the query has still
to open, and `cur` the file it reads and the line it is at.  `scanned` remembers
each line that was read with its place. -/
structure Query (κ ρ : Type) where
  dir : Directory (List κ)
  retain : Nat
  filter : Filter κ ρ
  rotation : Rotation
  left : Nat
  cur : Option (Nat × Nat)
  found : Findings ρ
  scanned : List (Nat × Nat × κ)

inductive QueryOp (κ : Type) where
  /-- The next step of `rotate_files`, or the new active file. -/
  | rotate
  | append (slot : Nat) (line : κ)
  | openNext
  | readLine

namespace Query

/-- One step of the rotation, of the writers or of the reader. -/
def step (s : Query κ ρ) : QueryOp κ → Option (Query κ ρ)
  | .rotate =>
      match s.rotation with
      | .idle =>
          match s.retain with
          | 0 => some { s with dir := s.dir.remove 0, rotation := .create }
          | n + 1 => some { s with dir := s.dir.remove (n + 1), rotation := .shift n }
      | .shift n =>
          -- the slots below retain, and then the active file as slot 0
          some { s with
            dir := if (s.dir.name n).isSome then s.dir.rename n (n + 1) else s.dir
            rotation := match n with
              | 0 => .create
              | m + 1 => .shift m }
      | .create =>
          some { s with
            dir := if (s.dir.name 0).isSome then s.dir else s.dir.create 0 []
            rotation := .done }
      | .done => none
  | .append slot line =>
      (s.dir.name slot).map fun i => { s with dir := s.dir.modify i (· ++ [line]) }
  | .openNext =>
      match s.cur, s.left with
      | none, n + 1 => some { s with left := n, cur := (s.dir.name n).map fun i => (i, 0) }
      | _, _ => none
  | .readLine =>
      match s.cur with
      | some (i, k) =>
          match (s.dir.file i)[k]? with
          | some line =>
              some { s with
                cur := some (i, k + 1)
                found := s.found.scanLine s.filter line
                scanned := s.scanned ++ [(i, k, line)] }
          | none => some { s with cur := none }
      | none => none

def start (dir : Directory (List κ)) (retain : Nat) (filter : Filter κ ρ) : Query κ ρ where
  dir
  retain
  filter
  rotation := .idle
  left := retain + 1
  cur := none
  found := { window := [], matched := 0, skippedLines := 0, oldest := none }
  scanned := []

def Finished (s : Query κ ρ) : Prop := s.left = 0 ∧ s.cur = none

/-- No file is moved out of the slot that the query opens next. -/
def InTurn (s : Query κ ρ) : QueryOp κ → Prop
  | .rotate => ∀ n, s.rotation = .shift n → s.dir.name n = none ∨ s.left ≠ n + 1
  | _ => True

/-! ## What one step does -/

variable {s t : Query κ ρ} {i : Nat} {lines : List κ}

theorem step_rotate (hs : s.step .rotate = some t) :
    ∃ dir rotation, t = { s with dir, rotation } ∧ ((∃ n, dir = s.dir.remove n) ∨ dir = s.dir ∨
        (∃ n, s.rotation = .shift n ∧ s.dir.name n ≠ none ∧ dir = s.dir.rename n (n + 1)) ∨
        dir = s.dir.create 0 []) := by
  simp only [step] at hs
  split at hs
  · split at hs
    all_goals exact ⟨_, _, (some.inj hs).symm, .inl ⟨_, rfl⟩⟩
  · rename_i n hrot
    refine ⟨_, _, (some.inj hs).symm, ?_⟩
    split
    · rename_i hsome
      refine .inr (.inr (.inl ⟨n, hrot, ?_, rfl⟩))
      intro hnone
      rw [hnone] at hsome
      cases hsome
    · exact .inr (.inl rfl)
  · refine ⟨_, _, (some.inj hs).symm, ?_⟩
    split
    · exact .inr (.inl rfl)
    · exact .inr (.inr (.inr rfl))
  · cases hs

theorem step_openNext (hs : s.step .openNext = some t) :
    ∃ n, s.cur = none ∧ s.left = n + 1 ∧
      t = { s with left := n, cur := (s.dir.name n).map fun i => (i, 0) } := by
  simp only [step] at hs
  split at hs
  · exact ⟨_, ‹_›, ‹_›, (some.inj hs).symm⟩
  · cases hs

theorem step_readLine (hs : s.step .readLine = some t) :
    ∃ i k, s.cur = some (i, k) ∧ ((∃ line, (s.dir.file i)[k]? = some line ∧ t = { s with
            cur := some (i, k + 1)
            found := s.found.scanLine s.filter line
            scanned := s.scanned ++ [(i, k, line)] }) ∨
        ((s.dir.file i)[k]? = none ∧ t = { s with cur := none })) := by
  simp only [step] at hs
  split at hs
  · rename_i i k hcur
    refine ⟨i, k, hcur, ?_⟩
    split at hs
    · exact .inl ⟨_, ‹_›, (some.inj hs).symm⟩
    · exact .inr ⟨‹_›, (some.inj hs).symm⟩
  · cases hs

/-! ## Where a file is -/

/-- The lines read from file `i` while it was open for slot `k`. -/
def readAt (s : Query κ ρ) (i k : Nat) : List (Nat × Nat × κ) :=
  s.scanned.filter fun x => x.1 = i ∧ x.2.1 = k

/-- The lines of a file before a place have been read once, the others not. -/
def ReadTo (s : Query κ ρ) (i pos : Nat) : Prop :=
  ∀ k, s.readAt i k =
    if k < pos then ((s.dir.file i)[k]?).toList.map fun line => (i, k, line) else []

/-- How far the query is with a file that had these lines when it started: the
file is gone, it is still to be opened, it is being read, or it has been read. -/
structure Track (s : Query κ ρ) (i : Nat) (lines : List κ) : Prop where
  known : i < s.dir.next
  grown : lines <+: s.dir.file i
  place : (∀ n, s.dir.name n ≠ some i) ∨
    (∃ n, s.dir.name n = some i ∧ n < s.left ∧ s.ReadTo i 0 ∧ ∀ pos, s.cur ≠ some (i, pos)) ∨
    (∀ n, s.dir.name n = some i → s.left ≤ n) ∧
      ((∃ pos, s.cur = some (i, pos) ∧ pos ≤ (s.dir.file i).length ∧ s.ReadTo i pos) ∨
        (∀ pos, s.cur ≠ some (i, pos)) ∧
          ∃ pos, lines.length ≤ pos ∧ pos ≤ (s.dir.file i).length ∧ s.ReadTo i pos)

variable {pos : Nat}

theorem ReadTo.grow (h : s.ReadTo i pos)
    (hscanned : t.scanned = s.scanned) (hpos : pos ≤ (s.dir.file i).length)
    (hgrow : s.dir.file i <+: t.dir.file i) : t.ReadTo i pos := by
  intro k
  have hk := h k
  unfold readAt at hk ⊢
  rw [hscanned, hk]
  split
  · rename_i hlt
    obtain ⟨more, hmore⟩ := hgrow
    rw [← hmore, getElem?_append_left (by omega)]
  · rfl

/-- A step of the writer under which names only go up past what the query has
opened, or stay before it. -/
theorem Track.write (h : s.Track i lines) (hscanned : t.scanned = s.scanned) (hcur : t.cur = s.cur)
    (hnext : s.dir.next ≤ t.dir.next) (hgrow : s.dir.file i <+: t.dir.file i)
    (hnames : ∀ n, t.dir.name n = some i → ∃ m, s.dir.name m = some i ∧
      (m < s.left → n < t.left) ∧ (s.left ≤ m → t.left ≤ n)) : t.Track i lines := by
  refine ⟨Nat.lt_of_lt_of_le h.known hnext, h.grown.trans hgrow, ?_⟩
  rcases h.place with hgone | ⟨m, hm, hlt, hread, hnot⟩ | ⟨hpast, hreading⟩
  · left
    intro n hn
    obtain ⟨m, hm, -⟩ := hnames n hn
    exact hgone m hm
  · by_cases hthere : ∃ n, t.dir.name n = some i
    · obtain ⟨n, hn⟩ := hthere
      obtain ⟨m', hm', hbefore, -⟩ := hnames n hn
      obtain rfl := s.dir.distinct m m' i hm hm'
      exact .inr (.inl ⟨n, hn, hbefore hlt, hread.grow hscanned (Nat.zero_le _) hgrow,
        fun pos => hcur ▸ hnot pos⟩)
    · exact .inl fun n hn => hthere ⟨n, hn⟩
  refine .inr (.inr ⟨?_, ?_⟩)
  · intro n hn
    obtain ⟨m, hm, -, hafter⟩ := hnames n hn
    exact hafter (hpast m hm)
  have hlen : (s.dir.file i).length ≤ (t.dir.file i).length := hgrow.length_le
  rcases hreading with ⟨pos, hc, hpos, hread⟩ | ⟨hnot, pos, hle, hpos, hread⟩
  · exact .inl ⟨pos, hcur ▸ hc, Nat.le_trans hpos hlen, hread.grow hscanned hpos hgrow⟩
  · exact .inr ⟨fun p => hcur ▸ hnot p, pos, hle, Nat.le_trans hpos hlen,
      hread.grow hscanned hpos hgrow⟩

theorem ReadTo.other {j k : Nat} {line : κ} (h : s.ReadTo i pos)
    (hne : j ≠ i) (found : Findings ρ) (cur : Option (Nat × Nat)) :
    ReadTo { s with cur, found, scanned := s.scanned ++ [(j, k, line)] } i pos := by
  intro k'
  have hk := h k'
  unfold readAt at hk ⊢
  rw [filter_append, hk]
  simp [hne]

theorem ReadTo.next {line : κ} (h : s.ReadTo i pos)
    (hline : (s.dir.file i)[pos]? = some line) (found : Findings ρ) (cur : Option (Nat × Nat)) :
    ReadTo { s with cur, found, scanned := s.scanned ++ [(i, pos, line)] } i (pos + 1) := by
  intro k
  have hk := h k
  unfold readAt at hk ⊢
  rw [filter_append, hk]
  obtain rfl | heq := eq_or_ne k pos
  · simp [hline]
  · have hiff : k < pos + 1 ↔ k < pos := by omega
    simp [hiff, Ne.symm heq]

theorem Track.openNext {n : Nat} (h : s.Track i lines)
    (hcur : s.cur = none) (hleft : s.left = n + 1) :
    Track { s with left := n, cur := (s.dir.name n).map fun i => (i, 0) } i lines := by
  refine ⟨h.known, h.grown, ?_⟩
  have hother : s.dir.name n ≠ some i → ∀ pos,
      ((s.dir.name n).map fun i => (i, 0)) ≠ some (i, pos) := by
    intro hne pos heq
    obtain ⟨j, hj, hpair⟩ := map_eq_some_iff.1 heq
    exact hne (hj.trans (congrArg some (Prod.mk.inj hpair).1))
  rcases h.place with hgone | ⟨m, hm, hlt, hread, hnot⟩ | ⟨hpast, hreading⟩
  · exact .inl hgone
  · obtain rfl | hmn := eq_or_ne m n
    · refine .inr (.inr ⟨?_, .inl ⟨0, ?_, Nat.zero_le _, hread⟩⟩)
      · intro n' hn'
        exact Nat.le_of_eq (s.dir.distinct m n' i hm hn')
      · rw [hm]
        rfl
    refine .inr (.inl ⟨m, hm, ?_, hread, hother ?_⟩)
    · show m < n
      omega
    · intro hn
      exact hmn (s.dir.distinct m n i hm hn)
  have hn : s.dir.name n ≠ some i := by
    intro hn
    have := hpast n hn
    omega
  refine .inr (.inr ⟨?_, .inr ⟨hother hn, ?_⟩⟩)
  · intro m hm
    have := hpast m hm
    show n ≤ m
    omega
  · rcases hreading with ⟨pos, hc, -⟩ | ⟨-, hdone⟩
    · cases hcur.symm.trans hc
    · exact hdone

theorem Track.readLine (h : s.Track i lines)
    (hs : s.step .readLine = some t) : t.Track i lines := by
  obtain ⟨j, k, hcur, ⟨line, hline, rfl⟩ | ⟨hend, rfl⟩⟩ := step_readLine hs
  · refine ⟨h.known, h.grown, ?_⟩
    rcases h.place with hgone | ⟨m, hm, hlt, hread, hnot⟩ | ⟨hpast, hreading⟩
    · exact .inl hgone
    · have hji : j ≠ i := by
        rintro rfl
        exact hnot k hcur
      refine .inr (.inl ⟨m, hm, hlt, hread.other hji _ _, ?_⟩)
      intro pos heq
      exact hji (Prod.mk.inj (some.inj heq)).1
    refine .inr (.inr ⟨hpast, ?_⟩)
    rcases hreading with ⟨pos, hc, hpos, hread⟩ | ⟨hnot, pos, hle, hpos, hread⟩
    · obtain ⟨rfl, rfl⟩ := Prod.mk.inj (some.inj (hcur.symm.trans hc))
      have hlt := (List.getElem?_eq_some_iff.1 hline).1
      exact .inl ⟨k + 1, rfl, hlt, hread.next hline _ _⟩
    have hji : j ≠ i := by
      rintro rfl
      exact hnot k hcur
    refine .inr ⟨?_, pos, hle, hpos, hread.other hji _ _⟩
    intro p heq
    exact hji (Prod.mk.inj (some.inj heq)).1
  · refine ⟨h.known, h.grown, ?_⟩
    rcases h.place with hgone | ⟨m, hm, hlt, hread, -⟩ | ⟨hpast, hreading⟩
    · exact .inl hgone
    · exact .inr (.inl ⟨m, hm, hlt, hread, fun _ => by simp⟩)
    refine .inr (.inr ⟨hpast, .inr ⟨fun _ => by simp, ?_⟩⟩)
    rcases hreading with ⟨pos, hc, hpos, hread⟩ | ⟨-, hdone⟩
    · -- the end of the file is past the lines it had at the start
      obtain ⟨rfl, rfl⟩ := Prod.mk.inj (some.inj (hcur.symm.trans hc))
      have hlen := List.getElem?_eq_none_iff.1 hend
      exact ⟨k, Nat.le_trans h.grown.length_le hlen, hpos, hread⟩
    · exact hdone

variable {op : QueryOp κ}

theorem Track.step (h : s.Track i lines)
    (hC : s.InTurn op) (hs : s.step op = some t) : t.Track i lines := by
  cases op with
  | rotate =>
    obtain ⟨dir, rotation, rfl, ⟨n, rfl⟩ | rfl | ⟨n, hrot, hsome, rfl⟩ | rfl⟩ := step_rotate hs
    · refine h.write rfl rfl (Nat.le_refl _) (prefix_refl _) ?_
      intro m hm
      exact ⟨m, (Directory.remove_cases hm).2, id, id⟩
    · exact h.write rfl rfl (Nat.le_refl _) (prefix_refl _) fun m hm => ⟨m, hm, id, id⟩
    · have hturn : s.left ≠ n + 1 := (hC n hrot).resolve_left hsome
      refine h.write rfl rfl (Nat.le_refl _) (prefix_refl _) ?_
      intro m hm
      rcases Directory.rename_cases hm with ⟨rfl, hsrc⟩ | ⟨-, -, hm⟩
      · refine ⟨n, hsrc, ?_, ?_⟩
        · intro hlt
          show n + 1 < s.left
          omega
        · intro hle
          show s.left ≤ n + 1
          omega
      · exact ⟨m, hm, id, id⟩
    · refine h.write rfl rfl (Nat.le_succ _) ?_ ?_
      · exact ⟨[], (append_nil _).trans (s.dir.create_file_of_lt [] h.known).symm⟩
      intro m hm
      rcases Directory.create_cases hm with ⟨-, rfl⟩ | ⟨-, hm⟩
      · exact absurd h.known (Nat.lt_irrefl _)
      · exact ⟨m, hm, id, id⟩
  | append slot line =>
    obtain ⟨j, -, rfl⟩ := map_eq_some_iff.1 hs
    refine h.write rfl rfl (Nat.le_refl _) ?_ fun m hm => ⟨m, hm, id, id⟩
    rw [Directory.modify_file]
    split
    · rename_i hij
      rw [hij]
      exact prefix_append _ _
    · exact prefix_refl _
  | openNext =>
    obtain ⟨n, hcur, hleft, rfl⟩ := step_openNext hs
    exact h.openNext hcur hleft
  | readLine => exact h.readLine hs

/-! ## The answer -/

/-- The records among the lines read that the filter accepts. -/
def wanted (q : Filter κ ρ) (scanned : List (Nat × Nat × κ)) : List ρ :=
  scanned.filterMap fun x => (q.parse x.2.2).filter q.accepts

/-- The window has what was found, as long as it is large enough. -/
structure Kept (s : Query κ ρ) : Prop where
  matched : s.found.matched = (wanted s.filter s.scanned).length
  window : s.found.matched ≤ s.filter.limit → s.found.window = wanted s.filter s.scanned

theorem Kept.scanLine (h : s.Kept) (i k : Nat) (line : κ) (cur : Option (Nat × Nat)) :
    Kept { s with
      cur, found := s.found.scanLine s.filter line, scanned := s.scanned ++ [(i, k, line)] } := by
  have happ : wanted s.filter (s.scanned ++ [(i, k, line)]) =
      wanted s.filter s.scanned ++ ((s.filter.parse line).filter s.filter.accepts).toList := by
    unfold wanted
    rw [filterMap_append]
    cases hx : (s.filter.parse line).filter s.filter.accepts <;> simp [hx]
  refine ⟨?_, ?_⟩
  · rw [happ, length_append, ← h.matched]
    unfold Findings.scanLine
    cases hparse : s.filter.parse line with
    | none => rfl
    | some record =>
      by_cases hacc : s.filter.accepts record = true
      · simp [hacc, filter_some_pos hacc]
      · simp [hacc, filter_some_neg (by simpa using hacc)]
  rw [happ]
  have hwindow := h.window
  unfold Findings.scanLine
  cases hparse : s.filter.parse line with
  | none => simpa using hwindow
  | some record =>
    by_cases hacc : s.filter.accepts record = true
    · simp only [hacc, if_true, filter_some_pos hacc, toList_some]
      intro hle
      have hold := hwindow (by omega)
      have hlen : s.found.window.length ≠ s.filter.limit := by
        rw [hold, ← h.matched]
        omega
      rw [if_neg hlen, hold]
    · simpa [hacc, filter_some_neg (by simpa using hacc)] using hwindow

theorem Kept.step (h : s.Kept) (hs : s.step op = some t) : t.Kept ∧ t.filter = s.filter := by
  cases op with
  | rotate =>
    obtain ⟨dir, rotation, rfl, -⟩ := step_rotate hs
    exact ⟨⟨h.matched, h.window⟩, rfl⟩
  | append slot line =>
    obtain ⟨j, -, rfl⟩ := map_eq_some_iff.1 hs
    exact ⟨⟨h.matched, h.window⟩, rfl⟩
  | openNext =>
    obtain ⟨n, -, -, rfl⟩ := step_openNext hs
    exact ⟨⟨h.matched, h.window⟩, rfl⟩
  | readLine =>
    obtain ⟨i, k, -, ⟨line, -, rfl⟩ | ⟨-, rfl⟩⟩ := step_readLine hs
    · exact ⟨h.scanLine i k line _, rfl⟩
    · exact ⟨⟨h.matched, h.window⟩, rfl⟩

/-- In a query during which no file is moved out of the slot that is opened next,
every line that was in a slot of the log at the start, and whose file still has a
name at the end, is read exactly once; and as long as the limit is large enough
the answer has the records that were read, the newest first. -/
theorem query_scans_once (dir : Directory (List κ)) (retain : Nat) (q : Filter κ ρ)
    {ops : List (QueryOp κ)} {t : Query κ ρ} (hr : Run step InTurn (start dir retain q) ops t)
    (hdone : t.Finished) :
    (∀ n i k line, n ≤ retain → dir.name n = some i → (dir.file i)[k]? = some line →
      (∃ m, t.dir.name m = some i) → t.readAt i k = [(i, k, line)]) ∧
    (t.found.matched ≤ q.limit → (t.found.answer q).records = (wanted q t.scanned).reverse ∧
        (t.found.answer q).truncated = false) := by
  refine ⟨?_, ?_⟩
  · intro n i k line hn hi hline hthere
    have htrack : t.Track i (dir.file i) := by
      refine hr.invariant (I := fun s => s.Track i (dir.file i))
        (fun s op s' hC hs h => h.step hC hs) ?_
      refine ⟨dir.below n i hi, prefix_refl _, .inr (.inl ⟨n, hi, ?_, ?_, ?_⟩)⟩
      · exact Nat.lt_succ_of_le hn
      · intro k
        rfl
      · nofun
    obtain ⟨m, hm⟩ := hthere
    rcases htrack.place with hgone | ⟨n', -, hlt, -⟩ | ⟨-, hreading⟩
    · exact absurd hm (hgone m)
    · rw [hdone.1] at hlt
      omega
    rcases hreading with ⟨pos, hc, -⟩ | ⟨-, pos, hle, -, hread⟩
    · cases hdone.2.symm.trans hc
    have hk := (List.getElem?_eq_some_iff.1 hline).1
    obtain ⟨more, hmore⟩ := htrack.grown
    rw [hread k, if_pos (by omega), ← hmore, getElem?_append_left hk, hline]
    rfl
  · intro hle
    have hkept : t.Kept ∧ t.filter = q := by
      refine hr.invariant (I := fun s => s.Kept ∧ s.filter = q) ?_ ⟨⟨rfl, fun _ => rfl⟩, rfl⟩
      intro s op s' _ hs h
      exact ⟨(h.1.step hs).1, (h.1.step hs).2.trans h.2⟩
    obtain ⟨hk, hq⟩ := hkept
    refine ⟨?_, ?_⟩
    · show t.found.window.reverse = _
      rw [hk.window (hq ▸ hle), hq]
    · exact decide_eq_false (by omega)

def twoFiles : Directory (List Nat) := ((Directory.empty []).create 1 [10]).create 0 [20]

def everyLine : Filter Nat Nat where
  parse := some
  accepts := fun _ => true
  limit := 100

instance (s : Query Nat Nat) (op : QueryOp Nat) : Decidable (s.InTurn op) :=
  match op with
  | .rotate =>
      match h : s.rotation with
      | .shift n =>
          decidable_of_iff (s.dir.name n = none ∨ s.left ≠ n + 1) ⟨fun hn m hm => by
              cases h.symm.trans hm
              exact hn, fun hall => hall n h⟩
      | .idle => .isTrue fun n hn => nomatch h.symm.trans hn
      | .create => .isTrue fun n hn => nomatch h.symm.trans hn
      | .done => .isTrue fun n hn => nomatch h.symm.trans hn
  | .append _ _ => .isTrue trivial
  | .openNext => .isTrue trivial
  | .readLine => .isTrue trivial

/-- The log rotates after the query has opened the first of two files. -/
theorem query_scans_once_twoFiles :
    ∃ t : Query Nat Nat, Run step InTurn (start twoFiles 2 everyLine)
        [.openNext, .openNext, .rotate, .rotate, .readLine, .readLine, .openNext, .readLine,
          .append 0 30, .readLine, .readLine] t ∧ t.Finished ∧
      twoFiles.name 0 = some 1 ∧ (twoFiles.file 1)[0]? = some 20 ∧
      (∃ m, t.dir.name m = some 1) ∧ t.readAt 1 0 = [(1, 0, 20)] := by
  refine Run.exists_exec
    (fun t => t.left = 0 ∧ t.cur = none ∧ t.dir.name 0 = some 1) (by decide +kernel)
    fun t hr hall => ?_
  obtain ⟨hleft, hcur, hname⟩ := hall
  exact ⟨⟨hleft, hcur⟩, rfl, rfl, ⟨0, hname⟩,
    (query_scans_once twoFiles 2 everyLine hr ⟨hleft, hcur⟩).1 0 1 0 20 (by decide) rfl rfl
      ⟨0, hname⟩⟩

/-- The query finds slot 2 empty.  The writer then moves the file of slot 1 to slot
2, the active file to slot 1, and makes a new one.  The query reads the slots 1
and 0; the line of the first file is in slot 2 at the end, and was not read. -/
theorem moved_file_is_skipped :
    ∃ t : Query Nat Nat, Run step (fun _ _ => True) (start twoFiles 2 everyLine)
        [.openNext, .rotate, .rotate, .rotate, .rotate, .openNext, .readLine, .readLine,
          .openNext, .readLine] t ∧ t.Finished ∧
      twoFiles.name 1 = some 0 ∧ (twoFiles.file 0)[0]? = some 10 ∧
      t.dir.name 2 = some 0 ∧ t.readAt 0 0 = [] ∧ (t.found.answer everyLine).records = [20] :=
  Run.exists_exec
    (fun t => (t.left = 0 ∧ t.cur = none) ∧ t.dir.name 2 = some 0 ∧ t.readAt 0 0 = [] ∧
      (t.found.answer everyLine).records = [20]) (by decide +kernel)
    fun _ _ hend => ⟨hend.1, rfl, rfl, hend.2⟩

end Query

end Qsh.Audit
