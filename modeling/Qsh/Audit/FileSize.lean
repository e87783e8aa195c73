import Qsh.Audit.Writer
import Qsh.Lib.Run

/-!
# How large a file of the log gets

Any number of writers at one log, with no failures.  What a writer does under the lock
is one step: the other writers only append meanwhile, and appends change no name.  It
decides about a rotation there, from the number of bytes it counts, and appends later.

`files_stay_bounded` asks that an append finds the file as long as its writer counts
it.  Nothing in the code makes sure of that when another writer appends to the file too.
-/

namespace Qsh.Audit

open Qsh.Lib Function

/-! ## Under the lock -/

namespace Disk

theorem shiftUp_file (dir : Directory (List UInt8)) (n : Nat) :
    (shiftUp dir n).file = dir.file := by
  induction n generalizing dir with
  | zero => simp [shiftUp, apply_ite Directory.file, Directory.rename]
  | succ n ih => simp [shiftUp, ih, apply_ite Directory.file, Directory.rename]

/-- Every file is as it was, or new. -/
def Grows (d d' : Disk) : Prop := ∀ i, d'.dir.file i = d.dir.file i ∨ d'.dir.file i = []

theorem rotateFiles_grows (d : Disk) (retain : Nat) : d.Grows (d.rotateFiles retain) := by
  cases retain with
  | zero => exact fun _ => .inl rfl
  | succ n => exact fun i => .inl (congrFun (shiftUp_file _ n) i)

theorem openFresh_grows (d : Disk) :
    ∃ d' i size, d.openFresh .ok = (d', some (i, size)) ∧ d.Grows d' := by
  unfold openFresh
  cases d.dir.name 0 with
  | some i => exact ⟨_, _, _, rfl, fun _ => .inl rfl⟩
  | none =>
    refine ⟨_, _, _, rfl, fun i => ?_⟩
    by_cases hi : i = d.dir.next <;> simp [Directory.create, hi]

theorem Grows.trans {d d' d'' : Disk} (h : d.Grows d') (h' : d'.Grows d'') : d.Grows d'' := by
  intro i
  rcases h' i with h' | h'
  · exact h' ▸ h i
  · exact .inr h'

end Disk

namespace RotatingFile

variable (w : RotatingFile) (d : Disk)

theorem ensureOpen_grows : ∃ w' d', w.ensureOpen d .ok = (w', d', true) ∧
    w'.maxBytes = w.maxBytes ∧ d.Grows d' := by
  obtain ⟨d', i, size, hopen, hgrows⟩ := d.openFresh_grows
  unfold ensureOpen
  cases w.file with
  | some _ => exact ⟨_, _, rfl, rfl, fun _ => .inl rfl⟩
  | none =>
    rw [hopen]
    exact ⟨_, _, rfl, rfl, hgrows⟩

theorem revalidate_grows : ∃ w' d', w.revalidate d .none = (w', d', true) ∧
    w'.maxBytes = w.maxBytes ∧ d.Grows d' := by
  unfold revalidate
  cases w.file with
  | none => exact ⟨_, _, rfl, rfl, fun _ => .inl rfl⟩
  | some i =>
    by_cases hname : d.dir.name 0 = some i
    · exact ⟨_, _, by simp [Faults.none, hname], rfl, fun _ => .inl rfl⟩
    · simpa [Faults.none, hname] using ensureOpen_grows { w with file := none } d

theorem locked_room (length : Nat) : ∃ w' d', w.locked d .none length = (w', d', true) ∧
    w'.maxBytes = w.maxBytes ∧ d.Grows d' ∧
    (w'.bytesWritten = 0 ∨ w'.bytesWritten + length ≤ w.maxBytes) := by
  obtain ⟨w₁, d₁, h₁, hmax₁, hgrows₁⟩ := w.revalidate_grows d
  obtain ⟨w₂, d₂, h₂, hmax₂, hgrows₂⟩ := w₁.ensureOpen_grows d₁
  have hgrows := hgrows₁.trans hgrows₂
  have hlocked : w.locked d .none length =
      if 0 < w₂.bytesWritten ∧ w₂.maxBytes < w₂.bytesWritten + length then w₂.rotate d₂ .ok
      else (w₂, d₂, true) := by
    simp [locked, Faults.none] at h₁ h₂ ⊢
    simp [h₁, h₂]
  rw [hlocked]
  split
  · obtain ⟨d₃, i, size, h₃, hgrows₃⟩ := (d₂.rotateFiles w₂.retain).openFresh_grows
    refine ⟨{ w₂ with file := some i, bytesWritten := 0 }, d₃, by simp [rotate, h₃],
      hmax₂.trans hmax₁, hgrows.trans ((d₂.rotateFiles_grows _).trans hgrows₃), .inl rfl⟩
  · exact ⟨w₂, d₂, rfl, hmax₂.trans hmax₁, hgrows, by omega⟩

end RotatingFile

/-! ## Any number of writers -/

/-- The writers, those that have a line to append, and the line that was appended to
each file last. -/
structure Crew where
  disk : Disk
  writer : Nat → RotatingFile
  ready : Nat → Option (List UInt8)
  last : Nat → List UInt8

inductive CrewOp where
  /-- Call `write_line`, up to the return of the lock. -/
  | lock (p : Nat) (line : List UInt8)
  | append (p : Nat)

namespace Crew

/-- One step of any writer: lock and prepare, then append. -/
def step (s : Crew) : CrewOp → Option Crew
  | .lock p line =>
      match s.ready p with
      | some _ => none
      | none =>
          let r := (s.writer p).locked s.disk .none line.length
          some { s with
            disk := r.2.1
            writer := update s.writer p r.1
            ready := update s.ready p (some line) }
  | .append p =>
      match s.ready p, (s.writer p).file with
      | some line, some i =>
          some
            { disk := { s.disk with dir := s.disk.dir.modify i (· ++ line) }
              writer := update s.writer p { s.writer p with
                bytesWritten := (s.writer p).bytesWritten + line.length }
              ready := update s.ready p none
              last := update s.last i line }
      | _, _ => none

/-- An append finds the file as long as its writer counts it. -/
def Counted (s : Crew) : CrewOp → Prop
  | .lock _ _ => True
  | .append p => ∀ i ∈ (s.writer p).file,
      (s.disk.dir.file i).length = (s.writer p).bytesWritten

/-- A file is not longer than `maxBytes`, or it is the line appended to it last. -/
def Bounded (s : Crew) (maxBytes : Nat) : Prop :=
  ∀ i, (s.disk.dir.file i).length ≤ maxBytes ∨ s.disk.dir.file i = s.last i

/-- What bounds the files, with the line that each writer is about to append. -/
structure Inv (maxBytes : Nat) (s : Crew) : Prop where
  bounded : s.Bounded maxBytes
  same : ∀ p, (s.writer p).maxBytes = maxBytes
  room : ∀ p, ∀ line ∈ s.ready p, (s.writer p).bytesWritten = 0 ∨
    (s.writer p).bytesWritten + line.length ≤ maxBytes

theorem Inv.step {maxBytes : Nat} {s t : Crew} {op : CrewOp} (h : s.Inv maxBytes)
    (hC : s.Counted op) (hs : s.step op = some t) : t.Inv maxBytes := by
  cases op with
  | lock p line =>
    obtain ⟨w, d, hlocked, hmax, hgrows, hroom⟩ := (s.writer p).locked_room s.disk line.length
    rw [h.same p] at hmax hroom
    simp only [Crew.step, hlocked] at hs
    split at hs
    · cases hs
    cases hs
    refine ⟨fun i => ?_, fun q => ?_, fun q line' hline => ?_⟩
    · rcases hgrows i with hi | hi <;> simp only [hi]
      · exact h.bounded i
      · exact .inl (Nat.zero_le _)
    · by_cases hq : q = p
      · simp [hq, hmax]
      · simp [hq, h.same q]
    by_cases hq : q = p
    · simp only [hq, update_self, Option.mem_some_iff] at hline ⊢
      exact hline ▸ hroom
    · simp only [update_of_ne hq] at hline ⊢
      exact h.room q line' hline
  | append p =>
    simp only [Crew.step] at hs
    split at hs <;> cases hs
    rename_i line i hready hfile
    refine ⟨fun j => ?_, fun q => ?_, fun q line' hline => ?_⟩
    · obtain rfl | hj := eq_or_ne j i
      · have hcount := hC j hfile
        simp only [Directory.modify, update_self]
        rcases h.room p line hready with hzero | hroom
        · have hempty := List.length_eq_zero_iff.1 (hcount.trans hzero)
          exact .inr (by rw [hempty]; rfl)
        · refine .inl ?_
          rw [List.length_append]
          omega
      · simp only [Directory.modify, update_of_ne hj]
        exact h.bounded j
    · by_cases hq : q = p
      · simp [hq, h.same p]
      · simp [hq, h.same q]
    · by_cases hq : q = p
      · simp [hq] at hline
      · simp only [update_of_ne hq] at hline ⊢
        exact h.room q line' hline

def start (disk : Disk) (maxBytes : Nat) (retain : Nat → Nat) (last : Nat → List UInt8) :
    Crew where
  disk
  writer := fun p => .new maxBytes (retain p)
  ready := fun _ => none
  last

/-- From a log whose files are bounded, every interleaving in which each append finds
what its writer counts keeps them bounded. -/
theorem files_stay_bounded {disk : Disk} {maxBytes : Nat} {retain : Nat → Nat}
    {last : Nat → List UInt8} (h0 : (start disk maxBytes retain last).Bounded maxBytes)
    {ops : List CrewOp} {s : Crew}
    (hr : Run step Counted (start disk maxBytes retain last) ops s) : s.Bounded maxBytes :=
  (hr.invariant (I := Inv maxBytes) (fun _ _ _ hC hs h => h.step hC hs)
    ⟨h0, fun _ => rfl, nofun⟩).bounded

def emptyLog : Disk := ⟨.empty [], []⟩

instance (s : Crew) (op : CrewOp) : Decidable (s.Counted op) := by
  cases op <;> unfold Counted <;> infer_instance

/-- The second writer rotates for its line, and the first one follows it to the new
file. -/
theorem files_stay_bounded_rotated :
    ∃ s, Run step Counted (start emptyLog 3 (fun _ => 1) fun _ => [])
      [.lock 0 [1, 2], .append 0, .lock 1 [3, 4], .append 1, .lock 0 [5], .append 0] s ∧
      s.disk.dir.file 0 = [1, 2] ∧ s.disk.dir.file 1 = [3, 4, 5] ∧ s.Bounded 3 :=
  Run.exists_exec (fun s => s.disk.dir.file 0 = [1, 2] ∧ s.disk.dir.file 1 = [3, 4, 5])
    (by decide +kernel)
    fun _ hr hfiles => ⟨hfiles.1, hfiles.2, files_stay_bounded (fun _ => .inl (Nat.zero_le _)) hr⟩

/-- Two writers find an empty file and append two bytes each, where three are allowed. -/
theorem two_appends_exceed :
    ∃ s, Run step (fun _ _ => True) (start emptyLog 3 (fun _ => 1) fun _ => [])
    [.lock 0 [1, 2], .lock 1 [3, 4], .append 0, .append 1] s ∧ s.disk.dir.name 0 = some 0 ∧
      ¬((s.disk.dir.file 0).length ≤ 3 ∨ s.disk.dir.file 0 = s.last 0) :=
  Run.exists_of_exec (by decide +kernel)

end Crew

end Qsh.Audit
