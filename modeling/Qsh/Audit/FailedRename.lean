import Qsh.Audit.TwoWriters

/-!
# Rotations whose renames fail

`rotate_files` deletes the last slot before it renames anything, and a failing rename ends
it.  `rotate` then opens the active file again, so the next line tries again from the start
and deletes the last slot again, which may hold what the failed attempt had moved there.
Everything but the renames succeeds here.
-/

namespace Qsh.Audit

open Qsh.Lib

variable {dir : Directory (List UInt8)} {d : Disk} {w : RotatingFile} {m n i k a c : Nat}
  (fails : Nat → Bool)

namespace Disk

/-- The loop of `rotate_files` where the rename of slot `n` fails if `fails n`. -/
def shiftUpTrying (dir : Directory (List UInt8)) : Nat → Directory (List UInt8) × Bool
  | 0 =>
      if (dir.name 0).isSome then
        if fails 0 then (dir, false) else (dir.rename 0 1, true)
      else (dir, true)
  | n + 1 =>
      if (dir.name (n + 1)).isSome then
        if fails (n + 1) then (dir, false) else shiftUpTrying (dir.rename (n + 1) (n + 2)) n
      else shiftUpTrying dir n

/-- `rotate_files` that stops at the first rename that fails. -/
def rotateFilesTrying (d : Disk) : Nat → Disk × Bool
  | 0 => (d.rotateFiles 0, true)
  | n + 1 =>
      let r := shiftUpTrying fails (d.dir.remove (n + 1)) n
      ({ dir := r.1, dropped := d.dropped ++ slotBytes d.dir (n + 1) }, r.2)

/-- The file is the active one or in one of the slots. -/
def Holds (d : Disk) (retain i : Nat) : Prop := ∃ n ≤ retain, d.dir.name n = some i

instance (retain : Nat) : Decidable (d.Holds retain i) := Nat.decidableExistsLE _

theorem rename_up (h : dir.name (n + 1) = none) (hm : dir.name m = some i) :
    m = n ∧ (dir.rename n (n + 1)).name (n + 1) = some i ∨
      m ≠ n ∧ (dir.rename n (n + 1)).name m = some i := by
  obtain rfl | hmn := eq_or_ne m n
  · exact .inl ⟨rfl, (dir.rename_name_dst m (m + 1)).trans hm⟩
  have hfree : m ≠ n + 1 := by
    intro heq
    rw [heq, h] at hm
    cases hm
  exact .inr ⟨hmn, (dir.rename_name_of_ne hmn hfree).trans hm⟩

theorem shiftUpTrying_spec (h : dir.name (n + 1) = none) :
    (shiftUpTrying fails dir n).1.file = dir.file ∧ ∀ m i, dir.name m = some i →
      (shiftUpTrying fails dir n).1.name m = some i ∨
        m ≤ n ∧ (shiftUpTrying fails dir n).1.name (m + 1) = some i := by
  -- The slot above the one that is moved is free at every step of the loop.
  induction n generalizing dir with unfold shiftUpTrying
  | zero =>
      split_ifs
      · exact ⟨rfl, fun m i hm => .inl hm⟩
      · refine ⟨rfl, fun m i hm => ?_⟩
        rcases rename_up h hm with ⟨rfl, hup⟩ | ⟨-, hsame⟩
        · exact .inr ⟨Nat.le_refl _, hup⟩
        · exact .inl hsame
      · exact ⟨rfl, fun m i hm => .inl hm⟩
  | succ n ih =>
      split_ifs with hsome hfail
      · exact ⟨rfl, fun m i hm => .inl hm⟩
      · obtain ⟨hfile, hmoves⟩ := ih (dir.rename_name_src (Nat.succ_ne_self (n + 1)).symm)
        refine ⟨hfile, fun m i hm => ?_⟩
        rcases rename_up h hm with ⟨rfl, hup⟩ | ⟨-, hsame⟩
        · exact .inr ⟨Nat.le_refl _, (hmoves _ i hup).resolve_right fun hr => by omega⟩
        · exact (hmoves m i hsame).imp_right fun hr => ⟨Nat.le_succ_of_le hr.1, hr.2⟩
      · obtain ⟨hfile, hmoves⟩ := ih (by simpa using hsome)
        refine ⟨hfile, fun m i hm => ?_⟩
        exact (hmoves m i hm).imp_right fun hr => ⟨Nat.le_succ_of_le hr.1, hr.2⟩

theorem rotateFilesTrying_spec (d : Disk) (retain : Nat) :
    (d.rotateFilesTrying fails retain).1.dir.file = d.dir.file ∧
      ∀ m i, d.dir.name m = some i → m ≠ retain →
        (d.rotateFilesTrying fails retain).1.dir.name m = some i ∨
          m < retain ∧ (d.rotateFilesTrying fails retain).1.dir.name (m + 1) = some i := by
  cases retain with
  | zero => exact ⟨rfl, fun m i hm h => .inl ((d.dir.remove_name_of_ne h).trans hm)⟩
  | succ n =>
      obtain ⟨hfile, hmoves⟩ := shiftUpTrying_spec fails (d.dir.remove_name_self (n + 1))
      refine ⟨hfile, fun m i hm h => ?_⟩
      exact (hmoves m i ((d.dir.remove_name_of_ne h).trans hm)).imp_right
        fun hr => ⟨Nat.lt_succ_of_le hr.1, hr.2⟩

end Disk

namespace RotatingFile

/-- What `write_line` does under the lock and, if it tried to rotate, whether every rename
succeeded. -/
def lockedTrying (w : RotatingFile) (d : Disk) (length : Nat) :
    RotatingFile × Disk × Option Bool :=
  let o := w.openLocked d .none
  if 0 < o.1.bytesWritten ∧ o.1.maxBytes < o.1.bytesWritten + length then
    let r := o.2.1.rotateFilesTrying fails w.retain
    let p := { o.1 with file := none }.ensureOpen r.1 .ok
    (if r.2 then { p.1 with bytesWritten := 0 } else p.1, p.2.1, some r.2)
  else (o.1, o.2.1, none)

/-- `write_line` over that rotation. -/
def writeLineTrying (w : RotatingFile) (d : Disk) (line : List UInt8) :
    RotatingFile × Disk × Option Bool :=
  let r := w.lockedTrying fails d line.length
  match r.1.file with
  | none => r
  | some i =>
      ({ r.1 with bytesWritten := r.1.bytesWritten + line.length },
        { r.2.1 with dir := r.2.1.dir.modify i (· ++ line) }, r.2.2)

/-- The file stays where it is.  If there was an attempt, it may also be one slot further, or
it was in the last slot. -/
theorem writeLineTrying_moves (line : List UInt8) (hm : d.dir.name m = some i) :
    (w.writeLineTrying fails d line).2.1.dir.name m = some i ∨
      (w.writeLineTrying fails d line).2.2.toList.length = 1 ∧
        (m < w.retain ∧ (w.writeLineTrying fails d line).2.1.dir.name (m + 1) = some i ∨
          m = w.retain) := by
  have hopen := (Duo.openLocked_opened w d .none).names hm
  have hlocked : (w.lockedTrying fails d line.length).2.1.dir.name m = some i ∨
      (w.lockedTrying fails d line.length).2.2.toList.length = 1 ∧
        (m < w.retain ∧ (w.lockedTrying fails d line.length).2.1.dir.name (m + 1) = some i ∨
          m = w.retain) := by
    unfold lockedTrying
    dsimp only
    split
    · by_cases hlast : m = w.retain
      · exact .inr ⟨rfl, .inr hlast⟩
      exact ((Disk.rotateFilesTrying_spec fails _ _).2 m i hopen hlast).imp
        (Duo.ensureOpen_opened _ _ _).names
        fun hr => ⟨rfl, .inl ⟨hr.1, (Duo.ensureOpen_opened _ _ _).names hr.2⟩⟩
    · exact .inl hopen
  unfold writeLineTrying
  dsimp only
  split
  · exact hlocked
  · exact hlocked

end RotatingFile

open RotatingFile

/-- An attempt that did not complete has all the same moved the file `i` out of a slot. -/
def slips (retain i : Nat) (d d' : Disk) (t : Option Bool) : Nat :=
  if t = some false ∧ ∃ m ≤ retain, d.dir.name m = some i ∧ d'.dir.name m ≠ some i then 1 else 0

/-- The file `i` left the active name and is still in a slot.  Since then, and with the
rotation that moved it, there were `a` attempts to rotate; `c` of them completed, and `u`
did not complete and moved the file. -/
inductive Since (i : Nat) : Nat → Nat → Nat → Nat → RotatingFile → Disk → Prop
  | left {fails line t} {w w' : RotatingFile} {d d' : Disk}
      (hr : w.writeLineTrying fails d line = (w', d', t)) (hactive : d.dir.name 0 = some i)
      (hmoved : d'.dir.name 0 ≠ some i) (hheld : d'.Holds w.retain i) :
      Since i w.retain t.toList.length (t.toList.count true) (slips w.retain i d d' t) w' d'
  | step {fails line t a c u w d w' d'} (hs : Since i w.retain a c u w d)
      (hr : w.writeLineTrying fails d line = (w', d', t)) (hheld : d'.Holds w.retain i) :
      Since i w.retain (a + t.toList.length) (c + t.toList.count true)
        (u + slips w.retain i d d' t) w' d'

variable {u : Nat}

theorem completed_add_slips_le (retain i : Nat) (d d' : Disk) (t : Option Bool) :
    t.toList.count true + slips retain i d d' t ≤ t.toList.length := by
  unfold slips
  split
  · rename_i h
    rw [h.1]
    exact Nat.le_refl _
  · exact List.count_le_length

theorem one_le_completed_add_slips {retain : Nat} {d' : Disk} {t : Option Bool}
    (hm : d.dir.name m = some i) (hle : m ≤ retain)
    (hleft : d'.dir.name m ≠ some i) (ht : t.toList.length = 1) :
    1 ≤ t.toList.count true + slips retain i d d' t := by
  match t, ht with
  | some true, _ => exact Nat.le_add_right 1 _
  | some false, _ =>
    unfold slips
    rw [if_pos ⟨rfl, m, hle, hm, hleft⟩]
    exact Nat.le_add_left 1 _

theorem Since.counts (hs : Since i k a c u w d) : c + u ≤ a := by
  induction hs with
  | left => exact completed_add_slips_le _ _ _ _ _
  | @step fails line t a c u w d w' d' _ _ _ ih =>
    have hone := completed_add_slips_le w.retain i d d' t
    omega

theorem Since.slot (hs : Since i k a c u w d) : ∃ n ≤ k, n ≤ c + u ∧ d.dir.name n = some i := by
  -- A file goes up one slot at most with each attempt that completes or moves it.
  induction hs with
  | @left fails line t w w' d d' hr hactive hmoved hheld =>
      have hmoves := writeLineTrying_moves fails (w := w) line hactive
      rw [hr] at hmoves
      obtain ⟨n, hn, hname⟩ := hheld
      rcases hmoves with h | ⟨ht, ⟨hlt, h⟩ | h⟩
      · exact absurd h hmoved
      · exact ⟨1, hlt, one_le_completed_add_slips hactive (Nat.zero_le _) hmoved ht, h⟩
      · exact ⟨n, hn, by omega, hname⟩
  | @step fails line t a c u w d w' d' _ hr hheld ih =>
      obtain ⟨m, hm, hmc, hslot⟩ := ih
      have hmoves := writeLineTrying_moves fails (w := w) line hslot
      rw [hr] at hmoves
      obtain ⟨n, hn, hname⟩ := hheld
      by_cases hstays : d'.dir.name m = some i
      · exact ⟨m, hm, by omega, hstays⟩
      rcases hmoves with h | ⟨ht, ⟨hlt, h⟩ | h⟩
      · exact absurd h hstays
      · have hone : 1 ≤ t.toList.count true + slips w.retain i d d' t :=
          one_le_completed_add_slips hslot hm hstays ht
        exact ⟨m + 1, hlt, by omega, h⟩
      · exact ⟨n, hn, by omega, hname⟩

/-- A file is deleted after `retain` completed rotations at the earliest, if no attempt that
did not complete has moved it since it left; each that did counts as one more.  An attempt
leaves every file but the one in the last slot where it was or one slot further, with its
lines. -/
theorem retention_of_completed_attempts :
    (∀ i a c u w d line, Since i w.retain a c u w d →
      ¬ (w.writeLineTrying fails d line).2.1.Holds w.retain i →
        w.retain ≤ c + u ∧ c + u ≤ a ∧ (u = 0 → w.retain ≤ c)) ∧
      ∀ (d : Disk) (retain m i : Nat), d.dir.name m = some i → m ≠ retain →
        (d.rotateFilesTrying fails retain).1.dir.file i = d.dir.file i ∧
          ((d.rotateFilesTrying fails retain).1.dir.name m = some i ∨
            (d.rotateFilesTrying fails retain).1.dir.name (m + 1) = some i) := by
  refine ⟨fun i a c u w d line hs hgone => ?_, fun d retain m i hm hlast => ?_⟩
  · obtain ⟨n, hn, hnc, hname⟩ := hs.slot
    have hle : w.retain ≤ c + u := by
      rcases writeLineTrying_moves fails line hname with h | ⟨-, ⟨hlt, h⟩ | h⟩
      · exact absurd ⟨n, hn, h⟩ hgone
      · exact absurd ⟨n + 1, hlt, h⟩ hgone
      · omega
    exact ⟨hle, hs.counts, fun hu => by omega⟩
  · obtain ⟨hfile, hmoves⟩ := d.rotateFilesTrying_spec fails retain
    exact ⟨congrFun hfile i, (hmoves m i hm hlast).imp_right And.right⟩

/-- A writer that keeps two files, of one byte each, after its first line. -/
def oneLine : RotatingFile × Disk × Option Bool :=
  (new 1 2).writeLineTrying (fun _ => false) ⟨.empty [], []⟩ [1]

def twoLines : RotatingFile × Disk × Option Bool :=
  oneLine.1.writeLineTrying (fun _ => false) oneLine.2.1 [2]

/-- The rename of the first slot has failed, and nothing has moved. -/
def threeLines : RotatingFile × Disk × Option Bool :=
  twoLines.1.writeLineTrying (· == 1) twoLines.2.1 [3]

theorem since_twoLines : Since 0 2 1 1 0 twoLines.1 twoLines.2.1 :=
  .left (show oneLine.1.writeLineTrying (fun _ => false) oneLine.2.1 [2] = _ from rfl) rfl
    (by decide) (by decide)

/-- Of three attempts one fails and moves nothing: the first file goes with the fourth, and
two have completed. -/
theorem retention_of_completed_attempts_three : ∃ w d, Since 0 2 3 2 0 w d ∧ w.retain = 2 ∧
    ¬ (w.writeLineTrying (fun _ => false) d [5]).2.1.Holds 2 0 ∧ w.retain ≤ 2 := by
  have hfailed : Since 0 2 2 1 0 threeLines.1 threeLines.2.1 := .step since_twoLines
    (show twoLines.1.writeLineTrying (· == 1) twoLines.2.1 [3] = _ from rfl) (by decide)
  have hs : Since 0 2 3 2 0 _ _ := .step hfailed
    (show threeLines.1.writeLineTrying (fun _ => false) threeLines.2.1 [4] = _ from rfl)
    (by decide)
  exact ⟨_, _, hs, rfl, by decide,
    ((retention_of_completed_attempts fun _ => false).1 0 3 2 0 _ _ [5] hs (by decide)).2.2 rfl⟩

/-- The rename of the active file fails once.  The first file is then in slot 2, and the next
attempt deletes it, though one rotation completed and two files are to be kept. -/
theorem deleted_after_one_completed_rotation : ∃ w d, Since 0 2 2 1 1 w d ∧ w.retain = 2 ∧
    ¬ (w.writeLineTrying (fun _ => false) d [4]).2.1.Holds 2 0 := by
  have hs : Since 0 2 2 1 1 _ _ := .step since_twoLines
    (show twoLines.1.writeLineTrying (· == 0) twoLines.2.1 [3] = _ from rfl) (by decide)
  exact ⟨_, _, hs, rfl, by decide⟩

end Qsh.Audit
