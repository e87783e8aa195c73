import Qsh.Audit.Query
import Qsh.Audit.Writer

/-!
# Two writers at one log

`qsh serve` and `qsh reverse` append to the same log, each through its own `RotatingFile`.
A lock covers what changes names (`revalidate`, `ensure_open`, `rotate`); the append and
its repair come after the lock is given back.  So a writer appends to the file it has open,
whatever has become of its name, and repairs the file that has the active name.

`accepted_lines_survive` holds as long as a writer appends before its file has been rotated
twice, and an append fails only where the writer knows everything about it: the file is the
active one, as long as the writer counts, and the other writer waits for the repair
(`Alone`).
-/

namespace Qsh.Audit

open Qsh.Lib List Function Option

inductive Phase where
  | idle
  /-- It has the lock. -/
  | opening (line : List UInt8)
  | rotating (line : List UInt8)
  /-- It has given the lock back. -/
  | ready (line : List UInt8)
  /-- Its append failed; the repair comes next. -/
  | failed
  deriving DecidableEq

/-- A write that returned `Ok`: the file, the line, and how many rotations had
been completed. -/
structure Accepted where
  inode : Nat
  line : List UInt8
  mark : Nat
  deriving DecidableEq

/-- Two writers and their log.  A rotation is under way unless `rotation` is idle;
`torn` is what a failed append has left at the end of a file. -/
structure Duo where
  disk : Disk
  retain : Nat
  holder : Option Bool
  rotation : Rotation
  begun : Nat
  completed : Nat
  phase : Bool → Phase
  writer : Bool → RotatingFile
  lines : Nat → List (List UInt8)
  accepted : List Accepted
  torn : Option (Nat × List UInt8)

inductive DuoOp where
  /-- Call `write_line` and take the lock. -/
  | lock (p : Bool) (line : List UInt8)
  /-- `revalidate` and `ensure_open`, with these failures. -/
  | openFile (p : Bool) (faults : Faults)
  /-- The next step of `rotate`. -/
  | rotate (p : Bool) (fault : OpenFault)
  /-- Append the line; it fails after this many bytes. -/
  | append (p : Bool) (failure : Option Nat)
  | repair (p : Bool)

/-- The part of `write_line` before the rotation. -/
def RotatingFile.openLocked (w : RotatingFile) (d : Disk) (f : Faults) :
    RotatingFile × Disk × Bool :=
  match w.revalidate d f with
  | (w, d, false) => (w, d, false)
  | (w, d, true) => w.ensureOpen d f.first

namespace Duo

def setPhase (s : Duo) (p : Bool) (phase : Phase) : Duo :=
  { s with phase := update s.phase p phase }

def setWriter (s : Duo) (p : Bool) (w : RotatingFile) : Duo :=
  { s with writer := update s.writer p w }

/-- One step of either writer. -/
def step (s : Duo) : DuoOp → Option Duo
  | .lock p line =>
      match s.phase p, s.holder with
      | .idle, none => some ({ s with holder := some p }.setPhase p (.opening line))
      | _, _ => none
  | .openFile p f =>
      match s.phase p with
      | .opening line =>
          let r := (s.writer p).openLocked s.disk f
          let s : Duo := { s with disk := r.2.1 }
          if r.2.2 then
            if 0 < r.1.bytesWritten ∧ r.1.maxBytes < r.1.bytesWritten + line.length then
              some ((s.setWriter p { r.1 with file := none }).setPhase p (.rotating line))
            else some (({ s with holder := none }.setWriter p r.1).setPhase p (.ready line))
          else some (({ s with holder := none }.setWriter p r.1).setPhase p .idle)
      | _ => none
  | .rotate p fault =>
      match s.phase p with
      | .rotating line =>
          match s.rotation with
          | .idle =>
              some { s with
                disk := { s.disk with dir := s.disk.dir.remove s.retain }
                begun := s.begun + 1
                rotation := match s.retain with
                  | 0 => .create
                  | n + 1 => .shift n }
          | .shift n =>
              some { s with
                disk := { s.disk with
                  dir := if (s.disk.dir.name n).isSome then s.disk.dir.rename n (n + 1)
                    else s.disk.dir }
                rotation := match n with
                  | 0 => .create
                  | m + 1 => .shift m }
          | .create =>
              let r := s.disk.openFresh fault
              let s : Duo := { s with
                disk := r.1, rotation := .idle, completed := s.completed + 1, holder := none }
              match r.2 with
              | some (i, _) =>
                  let w : RotatingFile := { s.writer p with file := some i, bytesWritten := 0 }
                  some ((s.setWriter p w).setPhase p (.ready line))
              | none => some ((s.setWriter p (s.writer p)).setPhase p .idle)
          | .done => none
      | _ => none
  | .append p failure =>
      match s.phase p, (s.writer p).file with
      | .ready line, some i =>
          match failure with
          | none =>
              let w : RotatingFile :=
                { s.writer p with bytesWritten := (s.writer p).bytesWritten + line.length }
              let s : Duo := { s with
                disk := { s.disk with dir := s.disk.dir.modify i (· ++ line) }
                lines := update s.lines i (s.lines i ++ [line])
                accepted := s.accepted ++ [{ inode := i, line, mark := s.completed }] }
              some ((s.setWriter p w).setPhase p .idle)
          | some k =>
              some ({ s with
                disk := { s.disk with dir := s.disk.dir.modify i (· ++ line.take k) }
                torn := some (i, line.take k) }.setPhase p .failed)
      | _, _ => none
  | .repair p =>
      match s.phase p with
      | .failed =>
          some ({ s with
            disk := (s.writer p).repairPartialWrite s.disk
            torn := none }.setPhase p .idle)
      | _ => none

/-- Two writers that have not written yet, at a log of whole lines. -/
def start (dir : Directory (List UInt8)) (lines : Nat → List (List UInt8))
    (retain : Nat) (maxBytes : Bool → Nat) : Duo where
  disk := { dir, dropped := [] }
  retain
  holder := none
  rotation := .idle
  begun := 0
  completed := 0
  phase := fun _ => .idle
  writer := fun p => RotatingFile.new (maxBytes p) retain
  lines
  accepted := []
  torn := none

/-- An append that succeeds finds its file active or rotated once.  One that fails
finds it active and of the length that the writer counts, and nobody acts before
the repair. -/
def Alone (s : Duo) (op : DuoOp) : Prop :=
  (∀ p, s.phase p = .failed → op = .repair p) ∧
    (∀ p i, op = .append p none → (s.writer p).file = some i →
      s.disk.dir.name 0 = some i ∨ s.disk.dir.name 1 = some i) ∧
    ∀ p k i, op = .append p (some k) → (s.writer p).file = some i →
      s.disk.dir.name 0 = some i ∧ (s.writer p).bytesWritten = (s.disk.dir.file i).length

/-- The torn bytes at the end of file `i`. -/
def tail (s : Duo) (i : Nat) : List UInt8 :=
  match s.torn with
  | some (j, rest) => if j = i then rest else []
  | none => []

def toMove (s : Duo) (n : Nat) : Nat :=
  match s.rotation with
  | .shift m => if n ≤ m then 1 else 0
  | _ => 0

/-! ## What one step does -/

theorem openFresh_disk (d : Disk) (fault : OpenFault) :
    (d.openFresh fault).1 = d ∨ d.dir.name 0 = none ∧
      (d.openFresh fault).1 = { d with dir := d.dir.create 0 [] } := by
  cases fault with
  | notOpened => exact .inl rfl
  | ok | noSize =>
    unfold Disk.openFresh
    cases h : d.dir.name 0 with
    | some i => exact .inl rfl
    | none => exact .inr ⟨rfl, rfl⟩

def Opened (w : RotatingFile) (d : Disk) (r : RotatingFile × Disk × Bool) : Prop :=
  (r.2.1 = d ∨ d.dir.name 0 = none ∧ r.2.1 = { d with dir := d.dir.create 0 [] }) ∧
    ∀ i, r.1.file = some i → w.file = some i ∨ r.2.1.dir.name 0 = some i

variable {w : RotatingFile} {d : Disk} {r : RotatingFile × Disk × Bool}

theorem Opened.names (h : Opened w d r) {n i : Nat} (hn : d.dir.name n = some i) :
    r.2.1.dir.name n = some i := by
  rcases h.1 with heq | ⟨hnone, heq⟩
  · rw [heq]
    exact hn
  rw [heq]
  have hne : n ≠ 0 := by
    rintro rfl
    cases hnone.symm.trans hn
  exact (d.dir.create_name_of_ne [] hne).trans hn

theorem Opened.trans {w₁ : RotatingFile} {d₁ : Disk} {ok : Bool} (h₁ : Opened w d (w₁, d₁, ok))
    (h₂ : Opened w₁ d₁ r) : Opened w d r := by
  refine ⟨?_, fun j hj => ?_⟩
  · rcases h₁.1 with rfl | ⟨hnone, rfl⟩
    · exact h₂.1
    · -- the file has just been made, so the second open leaves it
      refine .inr ⟨hnone, h₂.1.resolve_right fun hnone' => ?_⟩
      cases (d.dir.create_name_self 0 []).symm.trans hnone'.1
  rcases h₂.2 j hj with hw | hname
  · rcases h₁.2 j hw with hw | hname
    · exact .inl hw
    · exact .inr (h₂.names hname)
  · exact .inr hname

theorem opened_of_openFresh {fault : OpenFault} {o : Option (Nat × Nat)}
    (hr : d.openFresh fault = (r.2.1, o))
    (hfile : ∀ i, r.1.file = some i → w.file = some i ∨ ∃ n, o = some (i, n)) : Opened w d r := by
  have hdisk := openFresh_disk d fault
  have hspec := (d.openFresh_spec fault 0).2
  rw [hr] at hdisk hspec
  refine ⟨hdisk, fun i hi => ?_⟩
  rcases hfile i hi with hw | ⟨n, rfl⟩
  · exact .inl hw
  · exact .inr (hspec i n rfl).1

theorem ensureOpen_opened (w : RotatingFile) (d : Disk) (fault : OpenFault) :
    Opened w d (w.ensureOpen d fault) := by
  unfold RotatingFile.ensureOpen
  cases hfile : w.file with
  | some i => exact ⟨.inl rfl, fun j hj => .inl hj⟩
  | none =>
    cases hr : d.openFresh fault with
    | mk d' o =>
      cases o with
      | none => exact opened_of_openFresh hr fun j hj => .inl hj
      | some x => exact opened_of_openFresh hr fun j hj => .inr ⟨x.2, by rw [← some.inj hj]⟩

theorem openLocked_opened (w : RotatingFile) (d : Disk) (f : Faults) :
    Opened w d (w.openLocked d f) := by
  have hrev : Opened w d (w.revalidate d f) := by
    unfold RotatingFile.revalidate
    cases hfile : w.file with
    | none => exact ⟨.inl rfl, fun j hj => .inl hj⟩
    | some i =>
      simp only
      split
      · exact ⟨.inl rfl, fun j hj => .inl hj⟩
      split
      · obtain ⟨hdisk, hopen⟩ := ensureOpen_opened { w with file := none } d f.first
        exact ⟨hdisk, fun j hj => .inr ((hopen j hj).resolve_left (by simp))⟩
      · exact ⟨.inl rfl, fun j hj => .inl hj⟩
  unfold RotatingFile.openLocked
  cases hr : w.revalidate d f with
  | mk w₁ r =>
    obtain ⟨d₁, ok⟩ := r
    rw [hr] at hrev
    cases ok with
    | false => exact hrev
    | true => exact hrev.trans (ensureOpen_opened w₁ d₁ f.first)

variable {s t : Duo} {p : Bool} {line : List UInt8} {op : DuoOp}

theorem step_lock (hs : s.step (.lock p line) = some t) :
    s.phase p = .idle ∧ s.holder = none ∧
      t = { s with holder := some p }.setPhase p (.opening line) := by
  simp only [step] at hs
  split at hs
  · exact ⟨‹_›, ‹_›, (some.inj hs).symm⟩
  · cases hs

theorem step_openFile {f : Faults} (hs : s.step (.openFile p f) = some t) :
    ∃ line w disk holder phase, s.phase p = .opening line ∧
      Opened (s.writer p) s.disk (w, disk, true) ∧
      t = ({ s with disk, holder }.setWriter p w).setPhase p phase ∧
      (holder = s.holder ∧ phase = .rotating line ∨
        holder = none ∧ (phase = .ready line ∨ phase = .idle)) := by
  simp only [step] at hs
  split at hs
  swap
  · cases hs
  rename_i line hphase
  have hopened := openLocked_opened (s.writer p) s.disk f
  split at hs
  · split at hs
    · refine ⟨line, _, _, s.holder, _, hphase, ?_, (some.inj hs).symm, .inl ⟨rfl, rfl⟩⟩
      exact ⟨hopened.1, nofun⟩
    · exact ⟨line, _, _, none, _, hphase, ⟨hopened.1, hopened.2⟩, (some.inj hs).symm,
        .inr ⟨rfl, .inl rfl⟩⟩
  · exact ⟨line, _, _, none, _, hphase, ⟨hopened.1, hopened.2⟩, (some.inj hs).symm,
      .inr ⟨rfl, .inr rfl⟩⟩

theorem step_rotate {fault : OpenFault} (hs : s.step (.rotate p fault) = some t) :
    ∃ line, s.phase p = .rotating line ∧ ((∃ rotation, s.rotation = .idle ∧
          (s.retain = 0 ∧ rotation = .create ∨ ∃ n, s.retain = n + 1 ∧ rotation = .shift n) ∧
          t = { s with
            disk := { s.disk with dir := s.disk.dir.remove s.retain }
            begun := s.begun + 1
            rotation }) ∨
        (∃ n dir rotation, s.rotation = .shift n ∧
          (n = 0 ∧ rotation = .create ∨ ∃ m, n = m + 1 ∧ rotation = .shift m) ∧
          (s.disk.dir.name n = none ∧ dir = s.disk.dir ∨ dir = s.disk.dir.rename n (n + 1)) ∧
          t = { s with disk := { s.disk with dir }, rotation }) ∨
        ∃ w disk phase, s.rotation = .create ∧ Opened (s.writer p) s.disk (w, disk, true) ∧
          (phase = .ready line ∨ phase = .idle) ∧
          t = (Duo.setWriter { s with
            disk, rotation := .idle, completed := s.completed + 1, holder := none
            } p w).setPhase p phase) := by
  simp only [step] at hs
  split at hs
  swap
  · cases hs
  rename_i line hphase
  refine ⟨line, hphase, ?_⟩
  split at hs
  · rename_i hrot
    refine .inl ⟨_, hrot, ?_, (some.inj hs).symm⟩
    cases s.retain with
    | zero => exact .inl ⟨rfl, rfl⟩
    | succ n => exact .inr ⟨n, rfl, rfl⟩
  · rename_i n hrot
    refine .inr (.inl ⟨n, _, _, hrot, ?_, ?_, (some.inj hs).symm⟩)
    · cases n with
      | zero => exact .inl ⟨rfl, rfl⟩
      | succ m => exact .inr ⟨m, rfl, rfl⟩
    · cases hn : s.disk.dir.name n with
      | none => exact .inl ⟨rfl, rfl⟩
      | some i => exact .inr rfl
  · rename_i hrot
    cases hr : s.disk.openFresh fault with
    | mk d o =>
      rw [hr] at hs
      cases o with
      | some x =>
        refine .inr (.inr ⟨_, d, _, hrot, opened_of_openFresh hr ?_, .inl rfl,
          (some.inj hs).symm⟩)
        exact fun i hi => .inr ⟨x.2, by rw [← some.inj hi]⟩
      | none =>
        exact .inr (.inr ⟨_, d, _, hrot, opened_of_openFresh hr fun i hi => .inl hi, .inr rfl,
          (some.inj hs).symm⟩)
  · cases hs

theorem step_append {failure : Option Nat} (hs : s.step (.append p failure) = some t) :
    ∃ line i, s.phase p = .ready line ∧ (s.writer p).file = some i ∧
      ((∃ w, failure = none ∧ w.file = some i ∧ t = (Duo.setWriter { s with
            disk := { s.disk with dir := s.disk.dir.modify i (· ++ line) }
            lines := update s.lines i (s.lines i ++ [line])
            accepted := s.accepted ++ [{ inode := i, line, mark := s.completed }]
            } p w).setPhase p .idle) ∨
        ∃ k, failure = some k ∧ t = Duo.setPhase { s with
            disk := { s.disk with dir := s.disk.dir.modify i (· ++ line.take k) }
            torn := some (i, line.take k) } p .failed) := by
  simp only [step] at hs
  split at hs
  · rename_i line i hphase hfile
    refine ⟨line, i, hphase, hfile, ?_⟩
    split at hs
    · exact .inl ⟨{ s.writer p with
          bytesWritten := (s.writer p).bytesWritten + line.length }, rfl, hfile,
        (some.inj hs).symm⟩
    · exact .inr ⟨_, rfl, (some.inj hs).symm⟩
  · cases hs

theorem step_repair (hs : s.step (.repair p) = some t) :
    s.phase p = .failed ∧ t = Duo.setPhase { s with
        disk := (s.writer p).repairPartialWrite s.disk, torn := none } p .idle := by
  simp only [step] at hs
  split at hs
  · exact ⟨‹_›, (some.inj hs).symm⟩
  · cases hs

/-! ## What the files contain -/

/-- Every file is its whole lines and what a failed append has left; the lines are
those of the start and those that were accepted. -/
structure Content (lines₀ : Nat → List (List UInt8)) (s : Duo) : Prop where
  content : ∀ i, s.disk.dir.file i = (s.lines i).flatten ++ s.tail i
  fresh : ∀ i, s.disk.dir.next ≤ i → s.lines i = []
  log : ∀ i, s.lines i = lines₀ i ++ (s.accepted.filter fun a => a.inode = i).map Accepted.line
  handle : ∀ p i, (s.writer p).file = some i → i < s.disk.dir.next
  failedTorn : ∀ p, s.phase p = .failed → ∃ i rest, s.torn = some (i, rest) ∧
    (s.writer p).file = some i ∧ s.disk.dir.name 0 = some i ∧
    (s.writer p).bytesWritten = (s.lines i).flatten.length
  tornFailed : s.torn ≠ none → ∃ p, s.phase p = .failed

variable {lines₀ : Nat → List (List UInt8)}

theorem Content.whole (h : s.Content lines₀) (hC : s.Alone op)
    (hop : ∀ p, op ≠ .repair p) : s.torn = none ∧ ∀ p, s.phase p ≠ .failed := by
  have hnot : ∀ p, s.phase p ≠ .failed := fun p hp => hop p (hC.1 p hp)
  refine ⟨?_, hnot⟩
  by_contra hne
  obtain ⟨p, hp⟩ := h.tornFailed hne
  exact hnot p hp

theorem tail_of_whole (h : s.torn = none) (i : Nat) : s.tail i = [] := by
  unfold tail
  rw [h]

theorem Content.moved (h : s.Content lines₀) (hwhole : s.torn = none)
    (hnext : s.disk.dir.next ≤ t.disk.dir.next)
    (hfile : ∀ i, t.disk.dir.file i = s.disk.dir.file i ∨
      s.disk.dir.next ≤ i ∧ t.disk.dir.file i = [])
    (hlines : t.lines = s.lines) (haccepted : t.accepted = s.accepted) (htorn : t.torn = s.torn)
    (hhandle : ∀ p i, (t.writer p).file = some i → i < t.disk.dir.next)
    (hphase : ∀ p, t.phase p ≠ .failed) : t.Content lines₀ := by
  have htorn' : t.torn = none := htorn.trans hwhole
  refine ⟨?_, ?_, ?_, hhandle, fun p hp => absurd hp (hphase p), fun hne => absurd htorn' hne⟩
  · intro i
    rw [hlines, tail_of_whole htorn' i]
    rcases hfile i with heq | ⟨hle, heq⟩
    · rw [heq, h.content i, tail_of_whole hwhole i]
    · rw [heq, h.fresh i hle]
      rfl
  · intro i hi
    rw [hlines]
    exact h.fresh i (by omega)
  · intro i
    rw [hlines, haccepted]
    exact h.log i

theorem Opened.files (h : Opened w d r) : d.dir.next ≤ r.2.1.dir.next ∧
      ∀ i, r.2.1.dir.file i = d.dir.file i ∨ d.dir.next ≤ i ∧ r.2.1.dir.file i = [] := by
  rcases h.1 with heq | ⟨-, heq⟩
  · rw [heq]
    exact ⟨Nat.le_refl _, fun i => .inl rfl⟩
  rw [heq]
  refine ⟨Nat.le_succ _, fun i => ?_⟩
  obtain rfl | hi := eq_or_ne i d.dir.next
  · exact .inr ⟨Nat.le_refl _, d.dir.create_file_self 0 []⟩
  · left
    show update d.dir.file d.dir.next [] i = _
    rw [update_of_ne hi]

theorem Content.handles (h : s.Content lines₀) (hopen : Opened (s.writer p) s.disk r) :
    ∀ q i, (update s.writer p r.1 q).file = some i → i < r.2.1.dir.next := by
  intro q i hi
  rcases update_pred (P := fun w : RotatingFile => w.file = some i) hi with ⟨-, hi⟩ | ⟨-, hi⟩
  · rcases hopen.2 i hi with hw | hname
    · exact Nat.lt_of_lt_of_le (h.handle p i hw) hopen.files.1
    · exact r.2.1.dir.below 0 i hname
  · exact Nat.lt_of_lt_of_le (h.handle q i hi) hopen.files.1

theorem not_failed_update {phase : Bool → Phase} {x : Phase}
    (h : ∀ q, phase q ≠ .failed) (hx : x ≠ .failed) :
    ∀ q, update phase p x q ≠ .failed := by
  intro q hq
  rcases update_cases hq with ⟨-, hq⟩ | ⟨-, hq⟩
  · exact hx hq
  · exact h q hq

theorem Content.rotate {fault : OpenFault} (h : s.Content lines₀)
    (hC : s.Alone (.rotate p fault)) (hs : s.step (.rotate p fault) = some t) :
    t.Content lines₀ := by
  obtain ⟨htorn, hnot⟩ := h.whole hC (by simp)
  obtain ⟨line, -, ⟨rotation, -, -, rfl⟩ | ⟨n, dir, rotation, -, -, hdir, rfl⟩ |
    ⟨w, disk, phase, -, hopen, hphase, rfl⟩⟩ := step_rotate hs
  · exact h.moved htorn (Nat.le_refl _) (fun i => .inl rfl) rfl rfl rfl h.handle hnot
  · have hsame : dir.next = s.disk.dir.next ∧ dir.file = s.disk.dir.file := by
      rcases hdir with ⟨-, rfl⟩ | rfl
      all_goals exact ⟨rfl, rfl⟩
    refine h.moved htorn (Nat.le_of_eq hsame.1.symm) (fun i => .inl ?_) rfl rfl rfl ?_ hnot
    · exact congrFun hsame.2 i
    · intro q i hi
      exact Nat.lt_of_lt_of_eq (h.handle q i hi) hsame.1.symm
  · refine h.moved htorn hopen.files.1 hopen.files.2 rfl rfl rfl (h.handles hopen)
      (not_failed_update hnot ?_)
    rcases hphase with rfl | rfl <;> simp

theorem Content.append {failure : Option Nat} (h : s.Content lines₀)
    (hC : s.Alone (.append p failure)) (hs : s.step (.append p failure) = some t) :
    t.Content lines₀ := by
  obtain ⟨htorn, hnot⟩ := h.whole hC (by simp)
  have htail := tail_of_whole htorn
  obtain ⟨line, i, -, hfile, ⟨w, -, hw, rfl⟩ | ⟨k, rfl, rfl⟩⟩ := step_append hs
  · have hlt := h.handle p i hfile
    refine ⟨?_, ?_, ?_, ?_, fun q hq => absurd hq (not_failed_update hnot (by simp) q),
      fun hne => absurd htorn hne⟩
    · intro j
      have hj := h.content j
      rw [htail j, append_nil] at hj
      show (s.disk.dir.modify i (· ++ line)).file j =
        (update s.lines i (s.lines i ++ [line]) j).flatten ++ s.tail j
      rw [htail j, append_nil, Directory.modify_file, update_apply]
      split
      · rename_i hji
        rw [← hji, hj, flatten_append]
        simp
      · exact hj
    · intro j hj
      have hji : j ≠ i := fun heq => Nat.not_lt.2 hj (heq ▸ hlt)
      show update s.lines i _ j = []
      rw [update_of_ne hji]
      exact h.fresh j hj
    · intro j
      show update s.lines i (s.lines i ++ [line]) j = lines₀ j ++
        ((s.accepted ++ [({ inode := i, line, mark := s.completed } : Accepted)]).filter
          fun a => a.inode = j).map Accepted.line
      rw [update_apply, filter_append, map_append, ← append_assoc, ← h.log j]
      obtain rfl | hji := eq_or_ne j i
      · simp
      · simp [hji, Ne.symm hji]
    · intro q j hj
      rcases update_pred (P := fun w : RotatingFile => w.file = some j) hj with ⟨-, hj⟩ | ⟨-, hj⟩
      · cases hw.symm.trans hj
        exact hlt
      · exact h.handle q j hj
  · obtain ⟨hname, hlen⟩ := hC.2.2 p k i rfl hfile
    have hi := h.content i
    rw [htail i, append_nil] at hi
    refine ⟨?_, h.fresh, h.log, h.handle, ?_, fun _ => ⟨p, update_self _ _ _⟩⟩
    · intro j
      have hj := h.content j
      rw [htail j, append_nil] at hj
      show (s.disk.dir.modify i (· ++ line.take k)).file j =
        (s.lines j).flatten ++ if i = j then line.take k else []
      rw [Directory.modify_file]
      obtain rfl | hji := eq_or_ne j i
      · rw [if_pos rfl, if_pos rfl, hj]
      · rw [if_neg hji, if_neg (Ne.symm hji), hj, append_nil]
    · intro q hq
      rcases update_cases hq with ⟨rfl, -⟩ | ⟨-, hq⟩
      · exact ⟨i, _, rfl, hfile, hname, hlen.trans (congrArg List.length hi)⟩
      · exact absurd hq (hnot q)

theorem Content.repair (h : s.Content lines₀) (hC : s.Alone (.repair p))
    (hs : s.step (.repair p) = some t) : t.Content lines₀ := by
  obtain ⟨hphase, rfl⟩ := step_repair hs
  obtain ⟨i, rest, htorn, hfile, hname, hlen⟩ := h.failedTorn p hphase
  have honly : ∀ q, update s.phase p .idle q ≠ .failed := by
    intro q hq
    obtain ⟨-, ⟨⟩⟩ | ⟨hne, hq⟩ := update_cases hq
    exact hne (DuoOp.repair.inj (hC.1 q hq)).symm
  have hrepair : (s.writer p).repairPartialWrite s.disk = { s.disk with
      dir := s.disk.dir.modify i
        (fun bytes => Disk.setLen bytes (s.writer p).bytesWritten) } := by
    unfold RotatingFile.repairPartialWrite
    rw [hfile]
    simp only [hname]
  refine ⟨?_, ?_, h.log, ?_, fun q hq => absurd hq (honly q), fun hne => absurd rfl hne⟩
  · intro j
    show ((s.writer p).repairPartialWrite s.disk).dir.file j = (s.lines j).flatten ++ []
    have hj := h.content j
    unfold tail at hj
    rw [htorn] at hj
    rw [hrepair, append_nil]
    rw [Directory.modify_file]
    split
    · rename_i hji
      rw [hji] at hj ⊢
      rw [hj, hlen]
      exact RotatingFile.setLen_append _ _
    · rename_i hji
      simp only [if_neg (Ne.symm hji), append_nil] at hj
      exact hj
  · intro j hj
    refine h.fresh j ?_
    have hj' : ((s.writer p).repairPartialWrite s.disk).dir.next ≤ j := hj
    rw [hrepair] at hj'
    exact hj'
  · intro q j hj
    rw [hrepair]
    exact h.handle q j hj

theorem Content.step (h : s.Content lines₀) (hC : s.Alone op)
    (hs : s.step op = some t) : t.Content lines₀ := by
  cases op with
  | lock p line =>
    obtain ⟨htorn, hnot⟩ := h.whole hC (by simp)
    obtain ⟨-, -, rfl⟩ := step_lock hs
    exact h.moved htorn (Nat.le_refl _) (fun i => .inl rfl) rfl rfl rfl h.handle
      (not_failed_update hnot (by simp))
  | openFile p f =>
    obtain ⟨htorn, hnot⟩ := h.whole hC (by simp)
    obtain ⟨line, w, disk, holder, phase, -, hopen, rfl, hphase⟩ := step_openFile hs
    refine h.moved htorn hopen.files.1 hopen.files.2 rfl rfl rfl (h.handles hopen)
      (not_failed_update hnot ?_)
    rcases hphase with ⟨-, rfl⟩ | ⟨-, rfl | rfl⟩ <;> simp
  | rotate p fault => exact h.rotate hC hs
  | append p failure => exact h.append hC hs
  | repair p => exact h.repair hC hs

/-! ## Where the files are -/

/-- The lock and the rotation, and how far a file with accepted lines has been
moved since. -/
structure Places (s : Duo) : Prop where
  holder : ∀ p line, s.phase p = .opening line ∨ s.phase p = .rotating line → s.holder = some p
  underWay : s.rotation ≠ .idle → ∃ p line, s.phase p = .rotating line
  ended : s.rotation = .idle → s.begun = s.completed
  going : s.rotation ≠ .idle → s.begun = s.completed + 1
  marks : ∀ a ∈ s.accepted, a.mark ≤ s.completed
  slotFree : ∀ m, s.rotation = .shift m → s.disk.dir.name (m + 1) = none ∧ m + 1 ≤ s.retain
  place : ∀ a ∈ s.accepted, (∃ n, s.disk.dir.name n = some a.inode ∧ n ≤ s.retain ∧
    n + s.toMove n ≤ 1 + (s.begun - a.mark)) ∨ s.retain ≤ s.begun - a.mark

theorem toMove_le (s : Duo) (n : Nat) : s.toMove n ≤ 1 := by
  unfold toMove
  split
  · split <;> omega
  · omega

theorem Places.idle_of_opening (h : s.Places)
    (hp : s.phase p = .opening line) : s.rotation = .idle := by
  by_contra hne
  obtain ⟨q, line', hq⟩ := h.underWay hne
  have hsame := (h.holder p line (.inl hp)).symm.trans (h.holder q line' (.inr hq))
  cases hsame
  cases hp.symm.trans hq

theorem Places.holder_update (h : s.Places) {phase : Phase} {holder : Option Bool}
    (hother : ∀ q, q ≠ p → s.holder = some q → holder = some q)
    (hphase : ∀ line, phase = .opening line ∨ phase = .rotating line → holder = some p) :
    ∀ q line, update s.phase p phase q = .opening line ∨
      update s.phase p phase q = .rotating line → holder = some q := by
  intro q line hq
  obtain rfl | hqp := eq_or_ne q p
  · rw [update_self] at hq
    exact hphase line hq
  · rw [update_of_ne hqp] at hq
    exact hother q hqp (h.holder q line hq)

theorem Places.phase_update (h : s.Places) (p : Bool) (phase : Phase)
    (hnot : ∀ line, ¬(phase = .opening line ∨ phase = .rotating line))
    (hp : ∀ line, s.phase p ≠ .rotating line) :
    (∀ q line, update s.phase p phase q = .opening line ∨
      update s.phase p phase q = .rotating line → s.holder = some q) ∧
    (s.rotation ≠ .idle → ∃ q line, update s.phase p phase q = .rotating line) := by
  refine ⟨h.holder_update (fun _ _ hq => hq) fun line hq => absurd hq (hnot line), ?_⟩
  intro hne
  obtain ⟨q, line, hq⟩ := h.underWay hne
  have hqp : q ≠ p := by
    rintro rfl
    exact hp line hq
  exact ⟨q, line, by rw [update_of_ne hqp]; exact hq⟩

theorem repairPartialWrite_name (w : RotatingFile) (d : Disk) :
    (w.repairPartialWrite d).dir.name = d.dir.name := by
  unfold RotatingFile.repairPartialWrite
  split <;> rfl

variable {rotation : Rotation}

theorem Places.begin (h : s.Places)
    (hphase : s.phase p = .rotating line) (hrot : s.rotation = .idle)
    (hnext : s.retain = 0 ∧ rotation = .create ∨ ∃ n, s.retain = n + 1 ∧ rotation = .shift n) :
    Places { s with
      disk := { s.disk with dir := s.disk.dir.remove s.retain }
      begun := s.begun + 1
      rotation } := by
  have hbegun := h.ended hrot
  refine ⟨h.holder, fun _ => ⟨p, line, hphase⟩, ?_, fun _ => congrArg (· + 1) hbegun, h.marks,
    ?_, ?_⟩
  · intro hidle
    rcases hnext with ⟨-, rfl⟩ | ⟨n, -, rfl⟩ <;> cases hidle
  · intro m hm
    rcases hnext with ⟨-, rfl⟩ | ⟨n, hn, rfl⟩
    · cases hm
    · cases hm
      exact ⟨by rw [← hn]; exact s.disk.dir.remove_name_self _, Nat.le_of_eq hn.symm⟩
  intro a ha
  have hmark := h.marks a ha
  rcases h.place a ha with ⟨n, hn, hle, hbound⟩ | hover
  · by_cases hlast : n = s.retain
    · right
      show s.retain ≤ s.begun + 1 - a.mark
      omega
    refine .inl ⟨n, ?_, hle, ?_⟩
    · exact (s.disk.dir.remove_name_of_ne hlast).trans hn
    · refine Nat.le_trans (Nat.add_le_add_left (toMove_le _ n) n) ?_
      show n + 1 ≤ 1 + (s.begun + 1 - a.mark)
      omega
  · right
    show s.retain ≤ s.begun + 1 - a.mark
    omega

theorem Places.shift (h : s.Places)
    (hphase : s.phase p = .rotating line) {n : Nat} (hrot : s.rotation = .shift n)
    {dir : Directory (List UInt8)}
    (hnext : n = 0 ∧ rotation = .create ∨ ∃ m, n = m + 1 ∧ rotation = .shift m)
    (hdir : s.disk.dir.name n = none ∧ dir = s.disk.dir ∨ dir = s.disk.dir.rename n (n + 1)) :
    Places { s with disk := { s.disk with dir }, rotation } := by
  obtain ⟨hfree, hret⟩ := h.slotFree n hrot
  have hgone : dir.name n = none := by
    rcases hdir with ⟨hnone, rfl⟩ | rfl
    · exact hnone
    · exact s.disk.dir.rename_name_src (by omega)
  -- where a file is now
  have hmoved : ∀ k i, s.disk.dir.name k = some i →
      k = n ∧ dir.name (n + 1) = some i ∨ k ≠ n ∧ k ≠ n + 1 ∧ dir.name k = some i := by
    intro k i hk
    have hk1 : k ≠ n + 1 := by
      rintro rfl
      cases hfree.symm.trans hk
    rcases hdir with ⟨hnone, rfl⟩ | rfl
    · refine .inr ⟨?_, hk1, hk⟩
      rintro rfl
      cases hnone.symm.trans hk
    · by_cases hkn : k = n
      · exact .inl ⟨hkn, (s.disk.dir.rename_name_dst n (n + 1)).trans (hkn ▸ hk)⟩
      · exact .inr ⟨hkn, hk1, (s.disk.dir.rename_name_of_ne hkn hk1).trans hk⟩
  refine ⟨h.holder, fun _ => ⟨p, line, hphase⟩, ?_, ?_, h.marks, ?_, ?_⟩
  · intro hidle
    rcases hnext with ⟨-, rfl⟩ | ⟨m, -, rfl⟩ <;> cases hidle
  · intro _
    exact h.going (by rw [hrot]; simp)
  · intro m hm
    rcases hnext with ⟨-, rfl⟩ | ⟨m', rfl, rfl⟩
    · cases hm
    · cases hm
      exact ⟨hgone, Nat.le_of_succ_le hret⟩
  intro a ha
  rcases h.place a ha with ⟨k, hk, hle, hbound⟩ | hover
  swap
  · exact .inr hover
  have hmove : s.toMove k = if k ≤ n then 1 else 0 := by
    unfold toMove
    rw [hrot]
  have hmove' : ∀ j, toMove { s with disk := { s.disk with dir }, rotation } j =
      if j < n then 1 else 0 := by
    intro j
    unfold toMove
    rcases hnext with ⟨rfl, rfl⟩ | ⟨m, rfl, rfl⟩
    · simp
    · simp only [Nat.lt_succ_iff]
  rw [hmove] at hbound
  rcases hmoved k _ hk with ⟨rfl, hk'⟩ | ⟨hkn, hkn1, hk'⟩
  · refine .inl ⟨k + 1, hk', hret, ?_⟩
    rw [hmove', if_neg (by omega)]
    simpa [Nat.add_comm] using hbound
  · refine .inl ⟨k, hk', hle, ?_⟩
    rw [hmove']
    split at hbound <;> split <;> omega

theorem Places.step (h : s.Places) (hC : s.Alone op) (hs : s.step op = some t) :
    t.Places ∧ t.retain = s.retain := by
  cases op with
  | lock p line =>
    obtain ⟨hidle, hnone, rfl⟩ := step_lock hs
    refine ⟨⟨h.holder_update ?_ fun _ _ => rfl, ?_, h.ended, h.going, h.marks, h.slotFree,
      h.place⟩, rfl⟩
    · intro q _ hq
      cases hnone.symm.trans hq
    · intro hne
      obtain ⟨q, line', hq⟩ := h.underWay hne
      cases hnone.symm.trans (h.holder q line' (.inr hq))
  | openFile p f =>
    obtain ⟨line, w, disk, holder, phase, hphase, hopen, rfl, hcase⟩ := step_openFile hs
    have hrot := h.idle_of_opening hphase
    have hp := h.holder p line (.inl hphase)
    refine ⟨⟨?_, fun hne => absurd hrot hne, h.ended, h.going, h.marks, ?_, ?_⟩, rfl⟩
    · refine h.holder_update (fun q hne hq => absurd (some.inj (hq.symm.trans hp)) hne) ?_
      intro line' hphase'
      rcases hcase with ⟨rfl, rfl⟩ | ⟨rfl, rfl | rfl⟩
      · exact hp
      all_goals exact absurd hphase' (by simp)
    · intro m hm
      cases hrot.symm.trans hm
    · intro a ha
      rcases h.place a ha with ⟨n, hn, hrest⟩ | hover
      · exact .inl ⟨n, hopen.names hn, hrest⟩
      · exact .inr hover
  | rotate p fault =>
    obtain ⟨line, hphase, ⟨rotation, hrot, hnext, rfl⟩ |
      ⟨n, dir, rotation, hrot, hnext, hdir, rfl⟩ |
      ⟨w, disk, phase, hrot, hopen, hcase, rfl⟩⟩ := step_rotate hs
    · exact ⟨h.begin hphase hrot hnext, rfl⟩
    · exact ⟨h.shift hphase hrot hnext hdir, rfl⟩
    have hp := h.holder p line (.inr hphase)
    have hbegun := h.going (by rw [hrot]; simp)
    refine ⟨⟨?_, fun hne => absurd rfl hne, fun _ => hbegun, fun hne => absurd rfl hne, ?_,
      fun m hm => absurd hm (by simp [setPhase, setWriter]), ?_⟩, rfl⟩
    · refine h.holder_update (fun q hne hq => absurd (some.inj (hq.symm.trans hp)) hne) ?_
      intro line' hphase'
      rcases hcase with rfl | rfl <;> exact absurd hphase' (by simp)
    · intro a ha
      exact Nat.le_succ_of_le (h.marks a ha)
    · intro a ha
      rcases h.place a ha with ⟨n, hn, hle, hbound⟩ | hover
      · exact .inl ⟨n, hopen.names hn, hle, Nat.le_trans (Nat.le_add_right n _) hbound⟩
      · exact .inr hover
  | append p failure =>
    obtain ⟨line, i, hphase, hfile, ⟨w, rfl, -, rfl⟩ | ⟨k, -, rfl⟩⟩ := step_append hs
    · obtain ⟨hholder, hway⟩ := h.phase_update p .idle (by simp) (by simp [hphase])
      refine ⟨⟨hholder, hway, h.ended, h.going, ?_, h.slotFree, ?_⟩, rfl⟩
      · exact forall_mem_append.2 ⟨h.marks, forall_mem_singleton.2 (Nat.le_refl _)⟩
      intro a ha
      rcases mem_append.1 ha with ha | ha
      · exact h.place a ha
      rw [mem_singleton.1 ha]
      by_cases hret : s.retain = 0
      · exact .inr (by show s.retain ≤ _; omega)
      have hone := toMove_le s
      -- a rotation that is under way counts as one that comes later
      have hslot : ∀ n ≤ 1, n + s.toMove n ≤ 1 + (s.begun - s.completed) := by
        intro n hn
        have hn1 := hone n
        by_cases hidle : s.rotation = .idle
        · have hzero : s.toMove n = 0 := by
            unfold toMove
            rw [hidle]
          omega
        · have hgoing := h.going hidle
          omega
      rcases hC.2.1 p i rfl hfile with hname | hname
      · exact .inl ⟨0, hname, Nat.zero_le _, hslot 0 (by omega)⟩
      · exact .inl ⟨1, hname, by show 1 ≤ s.retain; omega, hslot 1 (by omega)⟩
    · obtain ⟨hholder, hway⟩ := h.phase_update p .failed (by simp) (by simp [hphase])
      exact ⟨⟨hholder, hway, h.ended, h.going, h.marks, h.slotFree, h.place⟩, rfl⟩
  | repair p =>
    obtain ⟨hphase, rfl⟩ := step_repair hs
    obtain ⟨hholder, hway⟩ := h.phase_update p .idle (by simp) (by simp [hphase])
    have hnames := repairPartialWrite_name (s.writer p) s.disk
    refine ⟨⟨hholder, hway, h.ended, h.going, h.marks, ?_, ?_⟩, rfl⟩
    · intro m hm
      exact ⟨(congrFun hnames _).trans (h.slotFree m hm).1, (h.slotFree m hm).2⟩
    intro a ha
    rcases h.place a ha with ⟨n, hn, hrest⟩ | hover
    · exact .inl ⟨n, (congrFun hnames n).trans hn, hrest⟩
    · exact .inr hover

/-- In every run that keeps away from late appends and lonely repairs, a file is
the lines it had at the start, the lines that were accepted into it, each once and
in order, and at its end what an append has left that has just failed; and a file
with an accepted line has a name until at least `retain` rotations have begun after
those that were completed when the line was accepted. -/
theorem accepted_lines_survive (dir : Directory (List UInt8)) (lines : Nat → List (List UInt8))
    (hlines : ∀ i, dir.file i = (lines i).flatten) (hfresh : ∀ i, dir.next ≤ i → lines i = [])
    (retain : Nat) (maxBytes : Bool → Nat) {ops : List DuoOp} {s : Duo}
    (hr : Run step Alone (start dir lines retain maxBytes) ops s) :
    (∀ i, s.disk.dir.file i = (lines i ++
        (s.accepted.filter fun a => a.inode = i).map Accepted.line).flatten ++ s.tail i) ∧
      (∀ i, s.tail i ≠ [] → ∃ p, s.phase p = .failed ∧ (s.writer p).file = some i) ∧
      ∀ a ∈ s.accepted, s.begun - a.mark < retain →
        ∃ n ≤ retain, s.disk.dir.name n = some a.inode := by
  have hinv : s.Content lines ∧ s.Places ∧ s.retain = retain := by
    refine hr.invariant (I := fun s => s.Content lines ∧ s.Places ∧ s.retain = retain) ?_
      ⟨?_, ?_, rfl⟩
    · intro s op t hC hs h
      obtain ⟨hplaces, hretain⟩ := h.2.1.step hC hs
      exact ⟨h.1.step hC hs, hplaces, hretain.trans h.2.2⟩
    · exact ⟨fun i => (hlines i).trans (append_nil _).symm, hfresh,
        fun i => (append_nil _).symm, nofun, nofun,
        fun h => absurd rfl h⟩
    · refine ⟨?_, fun h => absurd rfl h, fun _ => rfl, fun h => absurd rfl h,
        nofun, nofun, nofun⟩
      intro _ _ h
      rcases h with h | h <;> exact nomatch h
  obtain ⟨hcontent, hplaces, hretain⟩ := hinv
  refine ⟨?_, ?_, ?_⟩
  · intro i
    rw [← hcontent.log i]
    exact hcontent.content i
  · intro i hne
    obtain ⟨p, hp⟩ := hcontent.tornFailed fun hnone => hne (tail_of_whole hnone i)
    obtain ⟨j, rest, heq, hfile, -⟩ := hcontent.failedTorn p hp
    have hji : j = i := by
      by_contra hji
      refine hne ?_
      unfold tail
      rw [heq]
      exact if_neg hji
    exact ⟨p, hp, hji ▸ hfile⟩
  · intro a ha hlt
    rcases hplaces.place a ha with ⟨n, hn, hle, -⟩ | hover
    · exact ⟨n, hretain ▸ hle, hn⟩
    · omega

/-- What keeps a repair from another writer's line. -/
def aloneNow (s : Duo) : DuoOp → Bool
  | .repair p => decide (∀ q, s.phase q = .failed → q = p)
  | .append p none =>
      decide (∀ q, s.phase q ≠ .failed) &&
        ((s.writer p).file = s.disk.dir.name 0 || (s.writer p).file = s.disk.dir.name 1)
  | .append p (some _) =>
      decide (∀ q, s.phase q ≠ .failed) && (s.writer p).file = s.disk.dir.name 0 &&
        (s.writer p).file.all fun i => (s.writer p).bytesWritten = (s.disk.dir.file i).length
  | _ => decide (∀ q, s.phase q ≠ .failed)

theorem alone_of_now (h : s.aloneNow op = true) : s.Alone op := by
  refine ⟨fun q hq => ?_, fun p i hop hfile => ?_, fun p k i hop hfile => ?_⟩
  · cases op with
    | lock | openFile | rotate => exact absurd hq (of_decide_eq_true h q)
    | repair p => rw [of_decide_eq_true h q hq]
    | append p failure =>
      cases failure with simp only [aloneNow, Bool.and_eq_true, decide_eq_true_eq] at h
      | none => exact absurd hq (h.1 q)
      | some k => exact absurd hq (h.1.1 q)
  · subst hop
    simp only [aloneNow, hfile, Bool.and_eq_true, Bool.or_eq_true, decide_eq_true_eq] at h
    exact h.2.imp Eq.symm Eq.symm
  · subst hop
    simp only [aloneNow, hfile, Bool.and_eq_true, decide_eq_true_eq, all_some] at h
    exact ⟨h.1.2.symm, h.2⟩

def emptyLog : Duo := start (Directory.empty []) (fun _ => []) 2 fun _ => 100

/-- One writer appends a line, the other fails and repairs; the line is still in the
active file. -/
theorem accepted_lines_survive_repair :
    ∃ s : Duo, Run step Alone emptyLog
        [.lock true [1, 10], .openFile true Faults.none, .append true none,
          .lock false [2, 10], .openFile false Faults.none, .append false (some 1),
          .repair false] s ∧
      s.accepted = [⟨0, [1, 10], 0⟩] ∧ s.disk.dir.file 0 = [1, 10] ∧
      ∃ n ≤ 2, s.disk.dir.name n = some 0 := by
  obtain ⟨s, hrun, hacc, hfile, hbegun⟩ : ∃ s, Run step (fun s op => s.aloneNow op = true) emptyLog
      [.lock true [1, 10], .openFile true Faults.none, .append true none,
        .lock false [2, 10], .openFile false Faults.none, .append false (some 1),
        .repair false] s ∧
      s.accepted = [⟨0, [1, 10], 0⟩] ∧ s.disk.dir.file 0 = [1, 10] ∧ s.begun = 0 :=
    Run.exists_of_exec (by decide +kernel)
  have hr := hrun.mono (D := Alone) fun _ _ h => alone_of_now h
  refine ⟨s, hr, hacc, hfile, ?_⟩
  refine (accepted_lines_survive (Directory.empty []) (fun _ => []) (fun _ => rfl) (fun _ _ => rfl)
    2 (fun _ => 100) hr).2.2 ⟨0, [1, 10], 0⟩ ?_ ?_
  · rw [hacc]
    exact mem_singleton.2 rfl
  · rw [hbegun]
    decide

/-- Both writers open the empty active file.  The second appends a line; the append
of the first fails after a byte, and it cuts the file back to the length it knows,
which is 0.  The accepted line is gone, and nothing has been rotated. -/
theorem repair_cuts_an_accepted_line :
    ∃ s : Duo, Run step (fun _ _ => True) emptyLog
        [.lock true [1, 10], .openFile true Faults.none, .lock false [2, 10],
          .openFile false Faults.none, .append false none, .append true (some 1),
          .repair true] s ∧
      s.accepted = [⟨0, [2, 10], 0⟩] ∧ s.begun = 0 ∧ s.disk.dir.name 0 = some 0 ∧
      s.disk.dir.file 0 = [] ∧ s.tail 0 = [] := by
  exact Run.exists_of_exec (by decide +kernel)

end Duo

end Qsh.Audit
