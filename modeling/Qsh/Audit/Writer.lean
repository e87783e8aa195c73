import Mathlib.Data.List.Basic
import Qsh.Lib.Directory

/-!
# The rotating audit file

`RotatingFile` (`audit/writer.rs`) appends lines to the active file and rotates it when it
would get longer than `max_bytes`.  Slot 0 of the directory is the active file and slot `n`
is `<active>.<n>`.  `Disk` also remembers the bytes that rotations have deleted.

What fails is an argument (`Faults`): the lock, the metadata calls, the opens, and an
append after any number of bytes.  Renames and the truncation of a repair succeed.
-/

namespace Qsh.Audit

open Qsh.Lib List

/-- What an open does: it may fail before the file is made, or when its size is
read. -/
inductive OpenFault where
  | ok
  | notOpened
  | noSize
  deriving DecidableEq

/-- The calls to the system that fail in one `write_line`. -/
structure Faults where
  /-- The lock is not taken. -/
  lock : Bool
  /-- The metadata of the open file is not read. -/
  handleMeta : Bool
  /-- The metadata of the path is not read. -/
  pathMeta : Bool
  /-- The open of `revalidate` or `ensure_open`. -/
  first : OpenFault
  /-- The open after a rotation. -/
  rotated : OpenFault
  /-- The append fails after this many bytes. -/
  append : Option Nat

def Faults.none : Faults := ⟨false, false, false, .ok, .ok, .none⟩

/-- The files of the log, and the bytes of those that were deleted. -/
structure Disk where
  dir : Directory (List UInt8)
  dropped : List UInt8

namespace Disk

def slotBytes (dir : Directory (List UInt8)) (n : Nat) : List UInt8 :=
  ((dir.name n).map dir.file).getD []

def bytesFrom (dir : Directory (List UInt8)) : Nat → List UInt8
  | 0 => slotBytes dir 0
  | n + 1 => slotBytes dir (n + 1) ++ bytesFrom dir n

/-- All that was ever written, oldest first. -/
def allBytes (d : Disk) (retain : Nat) : List UInt8 := d.dropped ++ bytesFrom d.dir retain

/-- The loop of `rotate_files`, from slot `n` down; the active file is the last. -/
def shiftUp (dir : Directory (List UInt8)) : Nat → Directory (List UInt8)
  | 0 => if (dir.name 0).isSome then dir.rename 0 1 else dir
  | n + 1 =>
      shiftUp (if (dir.name (n + 1)).isSome then dir.rename (n + 1) (n + 2) else dir) n

/-- Drops the oldest file and moves each other one up a slot. -/
def rotateFiles (d : Disk) : Nat → Disk
  | 0 => { dir := d.dir.remove 0, dropped := d.dropped ++ slotBytes d.dir 0 }
  | n + 1 =>
      { dir := shiftUp (d.dir.remove (n + 1)) n
        dropped := d.dropped ++ slotBytes d.dir (n + 1) }

def setLen (bytes : List UInt8) (n : Nat) : List UInt8 :=
  bytes.take n ++ replicate (n - bytes.length) 0

def openFresh (d : Disk) (fault : OpenFault) : Disk × Option (Nat × Nat) :=
  match fault with
  | .notOpened => (d, none)
  | .ok =>
      match d.dir.name 0 with
      | some i => (d, some (i, (d.dir.file i).length))
      | none => ({ d with dir := d.dir.create 0 [] }, some (d.dir.next, 0))
  | .noSize =>
      match d.dir.name 0 with
      | some _ => (d, none)
      | none => ({ d with dir := d.dir.create 0 [] }, none)

end Disk

/-- A writer: its open file and the size it believes it has. -/
structure RotatingFile where
  maxBytes : Nat
  retain : Nat
  file : Option Nat
  bytesWritten : Nat
  deriving DecidableEq

namespace RotatingFile

def new (maxBytes retain : Nat) : RotatingFile where
  maxBytes
  retain
  file := none
  bytesWritten := 0

def ensureOpen (w : RotatingFile) (d : Disk) (fault : OpenFault) : RotatingFile × Disk × Bool :=
  match w.file with
  | some _ => (w, d, true)
  | none =>
      match d.openFresh fault with
      | (d, some (i, size)) => ({ w with file := some i, bytesWritten := size }, d, true)
      | (d, none) => (w, d, false)

/-- Gives up an open file that is no longer the one at the active path. -/
def revalidate (w : RotatingFile) (d : Disk) (f : Faults) : RotatingFile × Disk × Bool :=
  match w.file with
  | none => (w, d, true)
  | some i =>
      if f.handleMeta then (w, d, false)
      else if f.pathMeta || d.dir.name 0 ≠ some i then
        { w with file := none }.ensureOpen d f.first
      else (w, d, true)

/-- Moves the files and opens a fresh one. -/
def rotate (w : RotatingFile) (d : Disk) (fault : OpenFault) : RotatingFile × Disk × Bool :=
  match (d.rotateFiles w.retain).openFresh fault with
  | (d, some (i, _)) => ({ w with file := some i, bytesWritten := 0 }, d, true)
  | (d, none) => ({ w with file := none }, d, false)

def locked (w : RotatingFile) (d : Disk) (f : Faults) (length : Nat) :
    RotatingFile × Disk × Bool :=
  if f.lock then (w, d, false)
  else
    match w.revalidate d f with
    | (w, d, false) => (w, d, false)
    | (w, d, true) =>
        match w.ensureOpen d f.first with
        | (w, d, false) => (w, d, false)
        | (w, d, true) =>
            if 0 < w.bytesWritten ∧ w.maxBytes < w.bytesWritten + length then w.rotate d f.rotated
            else (w, d, true)

/-- Truncates the active file to the length before the write. -/
def repairPartialWrite (w : RotatingFile) (d : Disk) : Disk :=
  match w.file, d.dir.name 0 with
  | some _, some i => { d with dir := d.dir.modify i fun bytes => Disk.setLen bytes w.bytesWritten }
  | _, _ => d

/-- `write_line`: open, rotate if the line does not fit, append. -/
def writeLine (w : RotatingFile) (d : Disk) (line : List UInt8) (f : Faults) :
    RotatingFile × Disk × Bool :=
  match w.locked d f line.length with
  | (w, d, false) => (w, d, false)
  | (w, d, true) =>
      match w.file with
      | none => (w, d, false)
      | some i =>
          match f.append with
          | none =>
              ({ w with bytesWritten := w.bytesWritten + line.length },
                { d with dir := d.dir.modify i (· ++ line) }, true)
          | some k =>
              (w, w.repairPartialWrite { d with dir := d.dir.modify i (· ++ line.take k) }, false)

end RotatingFile

/-! ## The bytes of the log -/

namespace Disk

variable {dir : Directory (List UInt8)} {n : Nat}

theorem slotBytes_of_name {i : Nat} (h : dir.name n = some i) :
    slotBytes dir n = dir.file i := by
  unfold slotBytes
  rw [h]
  rfl

theorem slotBytes_of_none (h : dir.name n = none) :
    slotBytes dir n = [] := by
  unfold slotBytes
  rw [h]
  rfl

variable {dir' : Directory (List UInt8)}

theorem bytesFrom_append {x : List UInt8} (h0 : slotBytes dir' 0 = slotBytes dir 0 ++ x)
    (h : ∀ m, slotBytes dir' (m + 1) = slotBytes dir (m + 1)) :
    bytesFrom dir' n = bytesFrom dir n ++ x := by
  induction n with
  | zero => exact h0
  | succ n ih =>
    show slotBytes dir' (n + 1) ++ bytesFrom dir' n = slotBytes dir (n + 1) ++ bytesFrom dir n ++ x
    rw [h n, ih, append_assoc]

theorem slotBytes_modify {i : Nat} (h : dir.name 0 = some i) (f : List UInt8 → List UInt8) :
    slotBytes (dir.modify i f) 0 = f (slotBytes dir 0) ∧
      ∀ m, slotBytes (dir.modify i f) (m + 1) = slotBytes dir (m + 1) := by
  refine ⟨?_, ?_⟩
  · have h' : (dir.modify i f).name 0 = some i := h
    rw [slotBytes_of_name h, slotBytes_of_name h', Directory.modify_file, if_pos rfl]
  intro m
  cases hm : dir.name (m + 1) with
  | none =>
    have hm' : (dir.modify i f).name (m + 1) = none := hm
    rw [slotBytes_of_none hm, slotBytes_of_none hm']
  | some j =>
    have hji : j ≠ i := by
      rintro rfl
      exact absurd (dir.distinct _ _ _ hm h) (Nat.succ_ne_zero m)
    have hm' : (dir.modify i f).name (m + 1) = some j := hm
    rw [slotBytes_of_name hm, slotBytes_of_name hm', Directory.modify_file, if_neg hji]

theorem shiftUp_name (h : dir.name (n + 1) = none) :
    (∀ m ≤ n, (shiftUp dir n).name (m + 1) = dir.name m) ∧ (shiftUp dir n).name 0 = none ∧
      (∀ m > n + 1, (shiftUp dir n).name m = dir.name m) ∧ (shiftUp dir n).file = dir.file := by
  -- one rename into a free slot
  have hmove : ∀ (e : Directory (List UInt8)) k, e.name (k + 1) = none →
      let e' := if (e.name k).isSome then e.rename k (k + 1) else e
      e'.name (k + 1) = e.name k ∧ e'.name k = none ∧
        (∀ m, m ≠ k → m ≠ k + 1 → e'.name m = e.name m) ∧ e'.file = e.file := by
    intro e k hk
    cases hsrc : e.name k with
    | none => exact ⟨hk, hsrc, fun _ _ _ => rfl, rfl⟩
    | some i =>
      exact ⟨(e.rename_name_dst k (k + 1)).trans hsrc,
        e.rename_name_src (by omega),
        fun m hm hm' => e.rename_name_of_ne hm hm', rfl⟩
  induction n generalizing dir with
  | zero =>
    obtain ⟨hto, hfrom, hrest, hfile⟩ := hmove dir 0 h
    refine ⟨?_, hfrom, fun m hm => hrest m (by omega) (by omega), hfile⟩
    intro m hm
    obtain rfl := Nat.le_zero.1 hm
    exact hto
  | succ n ih =>
    obtain ⟨hto, hfrom, hrest, hfile⟩ := hmove dir (n + 1) h
    obtain ⟨hup, hzero, habove, hfile'⟩ := ih hfrom
    refine ⟨?_, hzero, fun m hm => ?_, hfile'.trans hfile⟩
    · intro m hm
      show (shiftUp _ n).name (m + 1) = _
      by_cases hmn : m = n + 1
      · -- the slot just filled is above what the rest of the loop touches
        rw [hmn, habove (n + 2) (by omega), hto]
      · rw [hup m (by omega), hrest m hmn (by omega)]
    · show (shiftUp _ n).name m = _
      rw [habove m (by omega), hrest m (by omega) (by omega)]

theorem rotateFiles_bytes (d : Disk) (retain : Nat) :
    (d.rotateFiles retain).allBytes retain = d.allBytes retain ∧
      (d.rotateFiles retain).dir.name 0 = none := by
  cases retain with
  | zero =>
    have hnone : (d.dir.remove 0).name 0 = none := d.dir.remove_name_self 0
    refine ⟨?_, hnone⟩
    show (d.dropped ++ slotBytes d.dir 0) ++ slotBytes (d.dir.remove 0) 0 =
      d.dropped ++ slotBytes d.dir 0
    rw [slotBytes_of_none hnone, append_nil]
  | succ n =>
    have hfree := d.dir.remove_name_self (n + 1)
    obtain ⟨hup, hzero, -, hfile⟩ := shiftUp_name hfree
    refine ⟨?_, hzero⟩
    have hslot : ∀ m ≤ n, slotBytes (shiftUp (d.dir.remove (n + 1)) n) (m + 1) =
        slotBytes d.dir m := by
      intro m hm
      unfold slotBytes
      rw [hup m hm, hfile]
      rw [d.dir.remove_name_of_ne (by omega)]
      rfl
    have hshift : ∀ k ≤ n, bytesFrom (shiftUp (d.dir.remove (n + 1)) n) (k + 1) =
        bytesFrom d.dir k := by
      intro k
      induction k with intro hk
      | zero =>
        show slotBytes _ 1 ++ slotBytes _ 0 = slotBytes d.dir 0
        rw [hslot 0 hk, slotBytes_of_none hzero, append_nil]
      | succ k ih =>
        show slotBytes _ (k + 2) ++ bytesFrom _ (k + 1) = slotBytes d.dir (k + 1) ++ bytesFrom _ k
        rw [hslot (k + 1) hk, ih (by omega)]
    show (d.dropped ++ slotBytes d.dir (n + 1)) ++
      bytesFrom (shiftUp (d.dir.remove (n + 1)) n) (n + 1) =
        d.dropped ++ (slotBytes d.dir (n + 1) ++ bytesFrom d.dir n)
    rw [hshift n (Nat.le_refl n), append_assoc]

theorem openFresh_spec (d : Disk) (fault : OpenFault) (retain : Nat) :
    (d.openFresh fault).1.allBytes retain = d.allBytes retain ∧
      ∀ i size, (d.openFresh fault).2 = some (i, size) → (d.openFresh fault).1.dir.name 0 = some i ∧
          size = ((d.openFresh fault).1.dir.file i).length := by
  have hcreate : ∀ (h : d.dir.name 0 = none),
      Disk.allBytes { d with dir := d.dir.create 0 [] } retain = d.allBytes retain := by
    intro h
    have hbytes : bytesFrom (d.dir.create 0 []) retain = bytesFrom d.dir retain ++ [] := by
      refine bytesFrom_append ?_ fun m => ?_
      · rw [slotBytes_of_none h, slotBytes_of_name (d.dir.create_name_self 0 []),
          Directory.create_file_self]
        rfl
      unfold slotBytes
      rw [d.dir.create_name_of_ne [] (Nat.succ_ne_zero m)]
      cases hj : d.dir.name (m + 1) with
      | none => rfl
      | some j => exact d.dir.create_file_of_lt [] (d.dir.below _ j hj)
    show d.dropped ++ bytesFrom (d.dir.create 0 []) retain = _
    rw [hbytes, append_nil]
    rfl
  cases fault with unfold openFresh
  | notOpened => exact ⟨rfl, nofun⟩
  | ok =>
    cases h : d.dir.name 0 with
    | some i =>
      refine ⟨rfl, ?_⟩
      intro j size heq
      cases heq
      exact ⟨h, rfl⟩
    | none =>
      refine ⟨hcreate h, ?_⟩
      intro j size heq
      cases heq
      refine ⟨d.dir.create_name_self 0 [], ?_⟩
      rw [Directory.create_file_self]
      rfl
  | noSize =>
    cases h : d.dir.name 0 with
    | some i => exact ⟨rfl, nofun⟩
    | none => exact ⟨hcreate h, nofun⟩

end Disk

namespace RotatingFile

/-- The open file is the active one, and its size is known. -/
def Current (w : RotatingFile) (d : Disk) : Prop :=
  ∀ i, w.file = some i → d.dir.name 0 = some i ∧ w.bytesWritten = (d.dir.file i).length

/-- What a step of `write_line` before the append may do. -/
def Keeps (w : RotatingFile) (d : Disk) (r : RotatingFile × Disk × Bool) : Prop :=
  r.1.Current r.2.1 ∧ r.1.retain = w.retain ∧ r.2.1.allBytes w.retain = d.allBytes w.retain

def Opens (r : RotatingFile × Disk × Bool) : Prop := r.2.2 = true → r.1.file ≠ none

variable {w : RotatingFile} {d : Disk}

theorem ensureOpen_keeps (h : w.Current d) (fault : OpenFault) :
    w.Keeps d (w.ensureOpen d fault) ∧ Opens (w.ensureOpen d fault) := by
  unfold ensureOpen
  cases hfile : w.file with
  | some i => exact ⟨⟨h, rfl, rfl⟩, fun _ => by simp [hfile]⟩
  | none =>
    obtain ⟨hbytes, hopen⟩ := d.openFresh_spec fault w.retain
    cases hr : d.openFresh fault with
    | mk d' o =>
      rw [hr] at hbytes hopen
      cases o with
      | none =>
        refine ⟨⟨?_, rfl, hbytes⟩, nofun⟩
        intro i hi
        cases hfile.symm.trans hi
      | some x =>
        refine ⟨⟨?_, rfl, hbytes⟩, fun _ => by simp⟩
        intro i hi
        cases hi
        exact hopen x.1 x.2 rfl

theorem revalidate_keeps (h : w.Current d) (f : Faults) :
    w.Keeps d (w.revalidate d f) := by
  unfold revalidate
  cases hfile : w.file with
  | none => exact ⟨h, rfl, rfl⟩
  | some i =>
    simp only
    split
    · exact ⟨h, rfl, rfl⟩
    split
    · have hclosed : Current { w with file := none } d := nofun
      exact (ensureOpen_keeps hclosed f.first).1
    · exact ⟨h, rfl, rfl⟩

theorem rotate_keeps (fault : OpenFault) :
    w.Keeps d (w.rotate d fault) ∧ Opens (w.rotate d fault) := by
  unfold rotate
  obtain ⟨hrot, hnone⟩ := d.rotateFiles_bytes w.retain
  obtain ⟨hbytes, hopen⟩ := (d.rotateFiles w.retain).openFresh_spec fault w.retain
  have hempty : ∀ i size, ((d.rotateFiles w.retain).openFresh fault).2 = some (i, size) →
      size = 0 := by
    intro i size h
    unfold Disk.openFresh at h
    rw [hnone] at h
    cases fault with
    | ok => exact (Prod.mk.inj (Option.some.inj h)).2.symm
    | notOpened | noSize => exact nomatch h
  cases hr : (d.rotateFiles w.retain).openFresh fault with
  | mk d' o =>
    rw [hr] at hbytes hopen hempty
    cases o with
    | none => exact ⟨⟨nofun, rfl, hbytes.trans hrot⟩, nofun⟩
    | some x =>
      refine ⟨⟨?_, rfl, hbytes.trans hrot⟩, fun _ => by simp⟩
      intro i hi
      cases hi
      obtain ⟨hname, hsize⟩ := hopen x.1 x.2 rfl
      exact ⟨hname, (hempty x.1 x.2 rfl).symm.trans hsize⟩

theorem locked_keeps (h : w.Current d) (f : Faults) (length : Nat) :
    w.Keeps d (w.locked d f length) ∧ Opens (w.locked d f length) := by
  -- what keeps the log after something that kept it
  have hthen : ∀ {w₁ : RotatingFile} {d₁ : Disk} {r r' : RotatingFile × Disk × Bool},
      w.Keeps d r → r.1 = w₁ → r.2.1 = d₁ → w₁.Keeps d₁ r' → w.Keeps d r' := by
    rintro w₁ d₁ r r' ⟨-, hretain, hbytes⟩ rfl rfl ⟨hcur', hretain', hbytes'⟩
    rw [hretain] at hbytes'
    exact ⟨hcur', hretain'.trans hretain, hbytes'.trans hbytes⟩
  unfold locked
  split
  · exact ⟨⟨h, rfl, rfl⟩, nofun⟩
  have hkept := revalidate_keeps h f
  cases hr : w.revalidate d f with
  | mk w₁ r =>
    obtain ⟨d₁, ok₁⟩ := r
    rw [hr] at hkept
    cases ok₁ with
    | false => exact ⟨hkept, nofun⟩
    | true =>
      obtain ⟨hkept₂, hopen₂⟩ := ensureOpen_keeps hkept.1 f.first
      have hkept₂ := hthen hkept rfl rfl hkept₂
      simp only
      cases hr₂ : w₁.ensureOpen d₁ f.first with
      | mk w₂ r₂ =>
        obtain ⟨d₂, ok₂⟩ := r₂
        rw [hr₂] at hkept₂ hopen₂
        cases ok₂ with
        | false => exact ⟨hkept₂, nofun⟩
        | true =>
          simp only
          split
          · obtain ⟨hkept₃, hopen₃⟩ := rotate_keeps (w := w₂) (d := d₂) f.rotated
            exact ⟨hthen hkept₂ rfl rfl hkept₃, hopen₃⟩
          · exact ⟨hkept₂, hopen₂⟩

theorem setLen_append (bytes x : List UInt8) :
    Disk.setLen (bytes ++ x) bytes.length = bytes := by
  unfold Disk.setLen
  rw [take_left, length_append, Nat.sub_eq_zero_of_le (by omega)]
  exact append_nil _

theorem writeLine_spec (h : w.Current d) (line : List UInt8)
    (f : Faults) {w' : RotatingFile} {d' : Disk} {ok : Bool}
    (heq : w.writeLine d line f = (w', d', ok)) :
    w'.Current d' ∧ w'.retain = w.retain ∧
      d'.allBytes w.retain = d.allBytes w.retain ++ if ok then line else [] := by
  unfold writeLine at heq
  obtain ⟨⟨hcur, hretain, hbytes⟩, hopen⟩ := locked_keeps h f line.length
  cases hr : w.locked d f line.length with
  | mk w₁ r =>
    obtain ⟨d₁, ok₁⟩ := r
    rw [hr] at hcur hretain hbytes hopen heq
    have hbytes' : d₁.allBytes w.retain = d.allBytes w.retain := hbytes
    cases ok₁ with
    | false =>
      obtain ⟨rfl, hrest⟩ := Prod.mk.inj heq
      obtain ⟨rfl, rfl⟩ := Prod.mk.inj hrest
      exact ⟨hcur, hretain, hbytes'.trans (append_nil _).symm⟩
    | true =>
      simp only at heq
      cases hfile : w₁.file with
      | none => exact absurd hfile (hopen rfl)
      | some i =>
        rw [hfile] at heq
        obtain ⟨hname, hlen⟩ := hcur i hfile
        cases hf : f.append with rw [hf] at heq
        | none =>
          obtain ⟨rfl, hrest⟩ := Prod.mk.inj heq
          obtain ⟨rfl, rfl⟩ := Prod.mk.inj hrest
          obtain ⟨h0, hup⟩ := Disk.slotBytes_modify hname (· ++ line)
          refine ⟨?_, hretain, ?_⟩
          · intro j hj
            obtain rfl : i = j := Option.some.inj hj
            refine ⟨hname, ?_⟩
            rw [Directory.modify_file, if_pos rfl, length_append, ← hlen]
          · show d₁.dropped ++ Disk.bytesFrom (d₁.dir.modify i (· ++ line)) w.retain = _
            rw [Disk.bytesFrom_append h0 hup, ← append_assoc]
            exact congrArg (· ++ line) hbytes'
        | some k =>
          obtain ⟨rfl, hrest⟩ := Prod.mk.inj heq
          obtain ⟨rfl, rfl⟩ := Prod.mk.inj hrest
          -- the log is what it was before the append
          have hrepair : w₁.repairPartialWrite
              { d₁ with dir := d₁.dir.modify i (· ++ line.take k) } = d₁ := by
            have hactive : d₁.dir.name 0 = some i := hname
            have hundo := Directory.modify_undone d₁.dir (i := i) (f := (· ++ line.take k))
              (g := fun bytes => Disk.setLen bytes w₁.bytesWritten)
              (by rw [hlen]; exact setLen_append _ _)
            unfold repairPartialWrite
            rw [hfile]
            simp only [Directory.modify_name, hactive, hundo]
          rw [hrepair]
          exact ⟨hcur, hretain, hbytes'.trans (append_nil _).symm⟩

end RotatingFile

end Qsh.Audit
