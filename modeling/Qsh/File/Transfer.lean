import Qsh.Lib.Run

/-!
# A file that is being received

`serve_write` on the host and `download` on the client write the incoming bytes to a
temporary file next to the destination, check them against the `end` frame, and have
`commit_temp` put the file in place.

`Task` is the transfer's future, which may be dropped wherever it waits; its guard then
removes the temporary file.  `Thread` is the blocking thread that creates the file and
later commits it, and runs on when the future is gone.  The disk writer only touches the
contents.  A label says which of the system calls fail.

After the placement the directory is synced, and if that fails, the transfer is reported
as failed although the destination was replaced.
-/

namespace Qsh.File

open Qsh.Lib Option

inductive Entry (ε : Type) where
  | regular (bytes : List UInt8)
  | other (e : ε)
  deriving DecidableEq

inductive Frame (η : Type) where
  | data (chunk : List UInt8)
  | done (size : Nat) (blake3 : η)
  /-- One that does not decode, is over its limits or has no place in the stream. -/
  | invalid

structure Committed where
  overwritten : Bool
  tempGone : Bool
  deriving DecidableEq

/-- The next call of the blocking thread: `create_guarded_temp`, or one of `commit_temp`. -/
inductive Thread where
  | create
  | idle
  | syncFile
  | applyAttrs
  | stat
  | replace (overwritten : Bool)
  | link
  | unlinkTemp
  | syncDir (c : Committed)
  | done (result : Option Committed)
  deriving DecidableEq

/-- What the future awaits.  `returned` has `overwritten`, or `none` for a failure. -/
inductive Task where
  | creating
  | receiving
  | joining
  | committing
  | returned (result : Option Bool)
  | dropped
  deriving DecidableEq

/-- `announced` is the size of the request, on the host. -/
structure Job where
  announced : Option Nat
  overwrite : Bool

/-- A receiving task, its writer thread and the two files. -/
structure Transfer (η ε : Type) where
  dest : Option (Entry ε)
  temp : Bool
  file : List UInt8
  queue : List (List UInt8)
  writeFailed : Bool
  ended : Option (Nat × η)
  task : Task
  thread : Thread
  /-- Ghosts: all bytes that came in, what the destination was before the placement, whether
  the file was placed, and whether an unlink of the temporary file failed. -/
  received : List UInt8
  base : Option (Entry ε)
  placed : Bool
  unlinkFailed : Bool

inductive TransferOp (η ε : Type) where
  | create (ok unlinks : Bool)
  | recv (frame : Frame η) (unlinks : Bool)
  /-- The peer has finished its half of the stream. -/
  | finished (unlinks : Bool)
  /-- The stream is lost, has stalled, or was cancelled; the writer is gone. -/
  | stop (unlinks : Bool)
  | write (ok : Bool)
  | join (unlinks : Bool)
  | call (ok : Bool)
  | collect (unlinks : Bool)
  | drop (unlinks : Bool)
  /-- Another process changes the entry of the destination. -/
  | other (e : Option (Entry ε))

namespace Transfer

variable {η ε : Type}

def start (dest : Option (Entry ε)) : Transfer η ε where
  dest := dest
  temp := false
  file := []
  queue := []
  writeFailed := false
  ended := none
  task := .creating
  thread := .create
  received := []
  base := dest
  placed := false
  unlinkFailed := false

/-- `unlink_at` for the temporary file.  It is an error if the file is gone already. -/
def unlink (s : Transfer η ε) (works : Bool) : Transfer η ε :=
  if s.temp then if works then { s with temp := false } else { s with unlinkFailed := true }
  else s

/-- `guard.clean()`, and the failure is reported. -/
def fail (s : Transfer η ε) (unlinks : Bool) : Transfer η ε :=
  { s.unlink unlinks with task := .returned none }

/-- One round of `receive_upload` or `receive_download`. -/
def recv (job : Job) (s : Transfer η ε) (unlinks : Bool) : Frame η → Transfer η ε
  | .data chunk =>
      if s.ended.isSome ∨ job.announced.any (· < s.received.length + chunk.length) then
        s.fail unlinks
      else if chunk = [] then s
      else { s with received := s.received ++ chunk, queue := s.queue ++ [chunk] }
  | .done size blake3 =>
      if s.ended.isSome then s.fail unlinks else { s with ended := some (size, blake3) }
  | .invalid => s.fail unlinks

/-- The bytes are those of the `end` frame, and as many as were announced. -/
def Matches (hash : List UInt8 → η) (job : Job) (bytes : List UInt8) (ended : Nat × η) : Prop :=
  ended.1 = bytes.length ∧ (∀ n ∈ job.announced, bytes.length = n) ∧ ended.2 = hash bytes

instance [DecidableEq η] (hash : List UInt8 → η) (job : Job) (bytes : List UInt8)
    (ended : Nat × η) : Decidable (Matches hash job bytes ended) :=
  inferInstanceAs (Decidable (_ ∧ _ ∧ _))

def place (s : Transfer η ε) (thread : Thread) : Transfer η ε :=
  { s with dest := some (.regular s.file), placed := true, thread := thread }

/-- The next call of `commit_temp`, or of `place_new` in it. -/
def call [DecidableEq ε] (job : Job) (s : Transfer η ε) (ok : Bool) : Option (Transfer η ε) :=
  match s.thread with
  | .syncFile => some { s with thread := if ok then .applyAttrs else .done none }
  | .applyAttrs =>
      some { s with
        thread := if ok then if job.overwrite then .stat else .link else .done none }
  | .stat =>
      let overwritten := s.dest matches some (.regular _)
      some { s with thread := if ok then .replace overwritten else .done none }
  | .replace overwritten =>
      if ok ∧ s.temp then some { s.place (.syncDir ⟨overwritten, true⟩) with temp := false }
      else some { s with thread := .done none }
  | .link =>
      if ok ∧ s.temp ∧ s.dest = none then some (s.place .unlinkTemp)
      else some { s with thread := .done none }
  | .unlinkTemp => some { s.unlink ok with thread := .syncDir ⟨false, s.temp && ok⟩ }
  | .syncDir c => some { s with thread := .done (if ok then some c else none) }
  | _ => none

/-- One step of the task, of the thread or of the peer. -/
def step [DecidableEq η] [DecidableEq ε] (hash : List UInt8 → η) (job : Job)
    (s : Transfer η ε) : TransferOp η ε → Option (Transfer η ε)
  | .create ok unlinks =>
      if s.thread ≠ .create then none
      else
        let made : Transfer η ε := { s with temp := ok, thread := .idle, task := .creating }
        -- The guard is made on the thread, so a result that nobody awaits has it.
        if s.task = .dropped then some { made.unlink unlinks with task := .dropped }
        else some { made with task := if ok then .receiving else .returned none }
  | .recv frame unlinks => if s.task = .receiving then some (s.recv job unlinks frame) else none
  | .finished unlinks =>
      if s.task ≠ .receiving then none
      else if s.ended.isSome then some { s with task := .joining }
      else some (s.fail unlinks)
  | .stop unlinks =>
      if s.task = .receiving ∨ s.task = .joining then some (s.fail unlinks) else none
  | .write ok =>
      match s.queue with
      | chunk :: queue =>
          if s.writeFailed then none
          else if ok then some { s with file := s.file ++ chunk, queue := queue }
          else some { s with writeFailed := true }
      | [] => none
  | .join unlinks =>
      if s.task ≠ .joining ∨ ¬ (s.queue = [] ∨ s.writeFailed) then none
      else if s.writeFailed = false ∧ ∃ e ∈ s.ended, Matches hash job s.file e then
        some { s with task := .committing, thread := .syncFile }
      else some (s.fail unlinks)
  | .call ok => s.call job ok
  | .collect unlinks =>
      if s.task ≠ .committing then none
      else match s.thread with
        | .done (some c) =>
            some { (if c.tempGone then s else s.unlink unlinks) with
              task := .returned (some c.overwritten) }
        | .done none => some (s.fail unlinks)
        | _ => none
  | .drop unlinks =>
      match s.task with
      | .returned _ | .dropped => none
      | _ => some { s.unlink unlinks with task := .dropped }
  | .other e => if s.placed then none else some { s with dest := e, base := e }

/-- The destination is a file of the bytes that came in, and they are what was promised. -/
def Complete (hash : List UInt8 → η) (job : Job) (s : Transfer η ε) : Prop :=
  s.dest = some (.regular s.received) ∧ ∃ e ∈ s.ended, Matches hash job s.received e

/-- The sync of the directory does not fail. -/
def dirSyncs (s : Transfer η ε) : TransferOp η ε → Bool
  | .call false => !(s.thread matches .syncDir _)
  | _ => true

end Transfer

/-! ## The invariant -/

namespace Thread

/-- A commit is under way, and the file is not placed. -/
def prepares : Thread → Bool
  | .syncFile | .applyAttrs | .stat | .replace _ | .link => true
  | _ => false

def placed : Thread → Bool
  | .unlinkTemp | .syncDir _ | .done (some _) => true
  | _ => false

def replaces : Thread → Bool
  | .stat | .replace _ => true
  | _ => false

def rests : Thread → Bool
  | .idle | .done _ => true
  | _ => false

def result : Thread → Option Committed
  | .syncDir c => some c
  | .done r => r
  | _ => none

variable {thread : Thread}

theorem of_prepares (h : thread.prepares) :
    thread.placed = false ∧ thread.rests = false ∧ thread.result = none ∧ thread ≠ .create := by
  cases thread <;> simp_all [prepares, placed, rests, result]

theorem of_placed (h : thread.placed) :
    thread.replaces = false ∧ thread ≠ .create := by
  cases thread <;> simp_all [placed, replaces]

end Thread

namespace Task

/-- Where the thread may be for a task. -/
def Fits (thread : Thread) : Task → Prop
  | .receiving | .joining => thread = .idle
  | .returned r => thread.rests ∧ r.isSome = thread.placed
  | _ => True

theorem Fits.of_busy {task : Task} {thread : Thread} (h : task.Fits thread)
    (hbusy : thread.rests = false) (thread' : Thread) : task.Fits thread' := by
  cases task with
  | receiving | joining =>
    cases h
    cases hbusy
  | returned r => exact nomatch h.1.symm.trans hbusy
  | _ => trivial

def isOver : Task → Bool
  | .returned _ | .dropped => true
  | _ => false

end Task

namespace Transfer

variable {η ε : Type}

/-- The target is as before, or the whole file with the hash it was announced with. -/
structure Inv (hash : List UInt8 → η) (job : Job) (s : Transfer η ε) : Prop where
  dest : s.dest = if s.placed then some (.regular s.received) else s.base
  placed : s.placed = s.thread.placed
  content : s.writeFailed = false → s.received = s.file ++ s.queue.flatten
  ready : s.thread.prepares ∨ s.thread.placed → s.file = s.received ∧ s.queue = [] ∧
    ∃ e ∈ s.ended, Matches hash job s.received e
  replaces : s.thread.replaces → job.overwrite = true
  fresh : s.placed → job.overwrite = false → s.base = none
  gone : ∀ c ∈ s.thread.result, c.tempGone → s.temp = false
  unmade : s.thread = .create → s.temp = false
  fits : s.task.Fits s.thread
  temp : s.task.isOver → s.temp → s.unlinkFailed

variable {hash : List UInt8 → η} {job : Job} {s t : Transfer η ε}

@[simp] theorem thread_unlink (s : Transfer η ε) (works : Bool) :
    (s.unlink works).thread = s.thread := by
  unfold unlink
  split_ifs <;> rfl

theorem unlinkFailed_of_temp (s : Transfer η ε) (works : Bool) (h : (s.unlink works).temp) :
    (s.unlink works).unlinkFailed := by
  unfold unlink at h ⊢
  split_ifs with htemp hworks
  · simp [htemp, hworks] at h
  · rfl
  · simp [htemp] at h

theorem Inv.unlink (hi : s.Inv hash job) (works : Bool) : (s.unlink works).Inv hash job := by
  unfold Transfer.unlink
  split_ifs
  · exact { hi with gone := fun _ _ _ => rfl, unmade := fun _ => rfl, temp := nofun }
  · exact { hi with temp := fun _ _ => rfl }
  · exact hi

theorem Inv.clean (hi : s.Inv hash job) (unlinks : Bool) {task : Task}
    (hfits : task.Fits s.thread) : Inv hash job { s.unlink unlinks with task := task } :=
  { hi.unlink unlinks with
    fits := by simpa using hfits
    temp := fun _ => unlinkFailed_of_temp s unlinks }

theorem Inv.fail (hi : s.Inv hash job) (unlinks : Bool) (hrests : s.thread.rests)
    (hplaced : s.thread.placed = false) : (s.fail unlinks).Inv hash job :=
  hi.clean unlinks ⟨hrests, hplaced.symm⟩

variable {new : Thread}

theorem Inv.goOn (hi : s.Inv hash job) (hold : s.thread.prepares)
    (hnew : new.prepares ∨ new = .done none) (hreplaces : new.replaces → job.overwrite = true) :
    Inv hash job { s with thread := new } := by
  obtain ⟨hbefore, hbusy, -⟩ := Thread.of_prepares hold
  have hafter : new.placed = false ∧ new.result = none ∧ new ≠ .create := by
    rcases hnew with hnew | rfl
    · obtain ⟨hplaced, -, hresult, hcreate⟩ := Thread.of_prepares hnew
      exact ⟨hplaced, hresult, hcreate⟩
    · exact ⟨rfl, rfl, nofun⟩
  exact { hi with
    placed := hi.placed.trans (hbefore.trans hafter.1.symm)
    ready := fun _ => hi.ready (.inl hold)
    replaces := hreplaces
    gone := fun c hc => nomatch hafter.2.1.symm.trans hc
    unmade := fun h => absurd h hafter.2.2
    fits := hi.fits.of_busy hbusy new }

theorem Inv.place (hi : s.Inv hash job) (hold : s.thread.prepares) {temp : Bool}
    (hnew : new.placed) (htemp : temp → s.temp) (hfresh : job.overwrite = false → s.base = none)
    (hgone : ∀ c ∈ new.result, c.tempGone → temp = false) :
    Inv hash job { s.place new with temp := temp } := by
  obtain ⟨hfile, hready⟩ := hi.ready (.inl hold)
  exact
    { dest := show some (Entry.regular s.file) = some (.regular s.received) by rw [hfile]
      placed := hnew.symm
      content := hi.content
      ready := fun _ => ⟨hfile, hready⟩
      replaces := fun h => nomatch h.symm.trans (Thread.of_placed hnew).1
      fresh := fun _ => hfresh
      gone := hgone
      unmade := fun h => absurd h (Thread.of_placed hnew).2
      fits := hi.fits.of_busy (Thread.of_prepares hold).2.1 new
      temp := fun hover h => hi.temp hover (htemp h) }

theorem Inv.settle (hi : s.Inv hash job) (hold : s.thread.placed) (hbusy : s.thread.rests = false)
    (hnew : new.placed) (hgone : ∀ c ∈ new.result, c.tempGone → s.temp = false) :
    Inv hash job { s with thread := new } :=
  { hi with
    placed := hi.placed.trans (hold.trans hnew.symm)
    ready := fun _ => hi.ready (.inr hold)
    replaces := fun h => nomatch h.symm.trans (Thread.of_placed hnew).1
    gone := hgone
    unmade := fun h => absurd h (Thread.of_placed hnew).2
    fits := hi.fits.of_busy hbusy new }

theorem Inv.call [DecidableEq ε] (hi : s.Inv hash job) {ok : Bool}
    (hsync : ok = false → ∀ c, s.thread ≠ .syncDir c) (hs : s.call job ok = some t) :
    t.Inv hash job := by
  unfold Transfer.call at hs
  split at hs
  case h_1 h =>
    cases hs
    refine hi.goOn (by rw [h]; rfl) ?_ ?_ <;> cases ok <;> simp [Thread.prepares, Thread.replaces]
  case h_2 h =>
    cases hs
    refine hi.goOn (by rw [h]; rfl) ?_ ?_ <;> cases ok <;> cases hover : job.overwrite <;>
      simp [Thread.prepares, Thread.replaces]
  case h_3 h =>
    cases hs
    have hover := hi.replaces (by rw [h]; rfl)
    refine hi.goOn (by rw [h]; rfl) ?_ fun _ => hover
    cases ok <;> simp [Thread.prepares]
  case h_4 overwritten h =>
    have hover := hi.replaces (by rw [h]; rfl)
    split_ifs at hs <;> cases hs
    · exact hi.place (by rw [h]; rfl) rfl nofun (fun hoff => nomatch hover.symm.trans hoff)
        fun _ _ _ => rfl
    · exact hi.goOn (by rw [h]; rfl) (.inr rfl) nofun
  case h_5 h =>
    split_ifs at hs with hok <;> cases hs
    · refine hi.place (by rw [h]; rfl) rfl id (fun _ => ?_) nofun
      rw [← hok.2.2, hi.dest, hi.placed, h]
      rfl
    · exact hi.goOn (by rw [h]; rfl) (.inr rfl) nofun
  case h_6 h =>
    cases hs
    refine (hi.unlink ok).settle (by simp [h, Thread.placed]) (by simp [h, Thread.rests]) rfl ?_
    rintro c ⟨⟩ hgone
    obtain ⟨htemp, hok⟩ := Bool.and_eq_true_iff.1 hgone
    simp [Transfer.unlink, htemp, hok]
  case h_7 c h =>
    cases hs
    cases ok with
    | false => exact absurd h (hsync rfl c)
    | true =>
      have hgone := hi.gone
      rw [h] at hgone
      exact hi.settle (by rw [h]; rfl) (by rw [h]; rfl) rfl hgone
  case h_8 => cases hs

theorem Inv.recv (hi : s.Inv hash job) (unlinks : Bool) (hthread : s.thread = .idle)
    (frame : Frame η) : (s.recv job unlinks frame).Inv hash job := by
  have hfail := hi.fail unlinks (by rw [hthread]; rfl) (by rw [hthread]; rfl)
  have hnot : ¬ (s.thread.prepares ∨ s.thread.placed) := by
    rw [hthread]
    decide
  have hplaced : s.placed = false := by
    rw [hi.placed, hthread]
    rfl
  unfold Transfer.recv
  split
  · split_ifs
    · exact hfail
    · exact hi
    refine { hi with dest := ?_, content := fun h => ?_, ready := fun h => absurd h hnot }
    · rw [hi.dest, hplaced]
      rfl
    · rw [hi.content h]
      simp
  · split_ifs
    · exact hfail
    · exact { hi with ready := fun h => absurd h hnot }
  · exact hfail

variable [DecidableEq η] [DecidableEq ε] {op : TransferOp η ε}

theorem Inv.step (hi : s.Inv hash job) (hsync : s.dirSyncs op)
    (hs : s.step hash job op = some t) : t.Inv hash job := by
  cases op with simp only [Transfer.step] at hs
  | create ok unlinks =>
    obtain ⟨hcreate, hs⟩ := ite_none_left_eq_some.1 hs
    have hplaced := hi.placed
    rw [not_not.1 hcreate] at hplaced
    have hmade : Inv hash job { s with temp := ok, thread := .idle, task := .creating } :=
      { hi with
        placed := hplaced, ready := nofun, replaces := nofun, gone := nofun, unmade := nofun,
        fits := trivial, temp := nofun }
    split_ifs at hs with hdropped hok <;> cases hs
    · exact hmade.clean unlinks trivial
    · exact { hmade with fits := rfl, temp := nofun }
    · exact { hmade with fits := ⟨rfl, rfl⟩, temp := fun _ h => absurd h hok }
  | recv frame unlinks =>
    obtain ⟨htask, rfl⟩ := ite_some_none_eq_some.1 hs
    have hfits := hi.fits
    rw [htask] at hfits
    exact hi.recv unlinks hfits frame
  | finished unlinks =>
    obtain ⟨htask, hs⟩ := ite_none_left_eq_some.1 hs
    have hfits := hi.fits
    rw [not_not.1 htask] at hfits
    split_ifs at hs <;> cases hs
    · exact { hi with fits := hfits, temp := nofun }
    · exact hi.fail unlinks (by rw [hfits]; rfl) (by rw [hfits]; rfl)
  | stop unlinks =>
    obtain ⟨htask, rfl⟩ := ite_some_none_eq_some.1 hs
    have hfits : s.thread = .idle := by
      have hfits := hi.fits
      rcases htask with h | h <;> rwa [h] at hfits
    exact hi.fail unlinks (by rw [hfits]; rfl) (by rw [hfits]; rfl)
  | write ok =>
    split at hs
    case h_1 chunk queue hqueue =>
      have hidle : ¬ (s.thread.prepares ∨ s.thread.placed) := fun h =>
        nomatch hqueue.symm.trans (hi.ready h).2.1
      split_ifs at hs <;> cases hs
      · refine { hi with content := fun h => ?_, ready := fun h => absurd h hidle }
        rw [hi.content h, hqueue]
        simp
      · exact { hi with content := nofun, ready := fun h => absurd h hidle }
    case h_2 => cases hs
  | join unlinks =>
    obtain ⟨hnot, hs⟩ := ite_none_left_eq_some.1 hs
    obtain ⟨htask, hqueue⟩ := not_or.1 hnot
    have hfits := hi.fits
    rw [not_not.1 htask] at hfits
    have hplaced := hi.placed
    rw [hfits] at hplaced
    split_ifs at hs with hmatches <;> cases hs
    · obtain ⟨hwrote, hmatches⟩ := hmatches
      have hempty : s.queue = [] := (not_not.1 hqueue).resolve_right (by simp [hwrote])
      have hfile : s.file = s.received := by simp [hi.content hwrote, hempty]
      rw [hfile] at hmatches
      exact { hi with
        placed := hplaced, ready := fun _ => ⟨hfile, hempty, hmatches⟩, replaces := nofun,
        gone := nofun, unmade := nofun, fits := trivial, temp := nofun }
    · exact hi.fail unlinks (by rw [hfits]; rfl) (by rw [hfits]; rfl)
  | call ok =>
    refine hi.call (fun hok c hthread => ?_) hs
    subst hok
    simp [dirSyncs, hthread] at hsync
  | collect unlinks =>
    obtain ⟨-, hs⟩ := ite_none_left_eq_some.1 hs
    split at hs
    case h_1 c h =>
      cases hs
      have hfits : Task.Fits s.thread (.returned (some c.overwritten)) := by
        rw [h]
        exact ⟨rfl, rfl⟩
      split_ifs with hgone
      · have htemp := hi.gone c (by rw [h]; rfl) hgone
        exact { hi with fits := hfits, temp := fun _ h => nomatch htemp.symm.trans h }
      · exact hi.clean unlinks hfits
    case h_2 h =>
      cases hs
      exact hi.fail unlinks (by rw [h]; rfl) (by rw [h]; rfl)
    case h_3 => cases hs
  | drop unlinks =>
    split at hs <;> cases hs
    exact hi.clean unlinks trivial
  | other e =>
    obtain ⟨hplaced, hs⟩ := ite_none_left_eq_some.1 hs
    cases hs
    exact { hi with dest := by simp [hplaced], fresh := fun h => absurd h hplaced }

/-- In every run in which the sync of the directory does not fail: the destination is what it
was or a complete file, the report says which of the two, without `overwrite` nothing is
replaced, and what is left of the temporary file is an unlink that failed. -/
theorem transfer_is_all_or_nothing (hash : List UInt8 → η) (job : Job) (dest : Option (Entry ε))
    {ops : List (TransferOp η ε)}
    (hr : Run (step hash job) (fun s op => s.dirSyncs op = true) (start dest) ops s) :
    (s.dest = s.base ∨ s.Complete hash job) ∧
      (∀ overwritten, s.task = .returned (some overwritten) → s.Complete hash job) ∧
      (s.task = .returned none → s.dest = s.base) ∧
      (job.overwrite = false → s.dest = s.base ∨ s.base = none) ∧
      (s.task.isOver → s.temp → s.unlinkFailed) := by
  have hi : s.Inv hash job := hr.invariant (I := Inv hash job)
    (fun _ _ _ hsync hs hI => hI.step hsync hs)
    ⟨rfl, rfl, fun _ => rfl, fun h => absurd h (by simp [start, Thread.prepares, Thread.placed]),
      nofun, nofun, nofun, fun _ => rfl, trivial, nofun⟩
  have hbase : s.placed = false → s.dest = s.base := fun h => by
    rw [hi.dest, h]
    rfl
  have hcomplete : s.placed = true → s.Complete hash job := fun h => by
    refine ⟨?_, (hi.ready (.inr (hi.placed.symm.trans h))).2.2⟩
    rw [hi.dest, h]
    rfl
  have hreturned : ∀ r, s.task = .returned r → r.isSome = s.placed := fun r h => by
    have hfits := hi.fits
    rw [h] at hfits
    exact hfits.2.trans hi.placed.symm
  refine ⟨?_, fun overwritten h => hcomplete (hreturned _ h).symm, fun h =>
    hbase (hreturned _ h).symm, fun hoff => ?_, hi.temp⟩
  · cases h : s.placed with
    | false => exact .inl (hbase h)
    | true => exact .inr (hcomplete h)
  · cases h : s.placed with
    | false => exact .inl (hbase h)
    | true => exact .inr (hi.fresh h hoff)

/-- The future is dropped while the file is linked: the name stays, the guard removes the
other one. -/
def droppedInCommit : List (TransferOp Nat Nat) :=
  [.create true true, .recv (.data [7]) true, .recv (.done 1 1) true, .finished true, .write true,
    .join true, .call true, .call true, .call true, .drop true, .call true, .call true]

theorem transfer_is_all_or_nothing_dropped :
    ∃ s, Run (step List.length ⟨some 1, false⟩) (fun s op => s.dirSyncs op = true) (start none)
        droppedInCommit s ∧
      s.thread = .done (some ⟨false, false⟩) ∧ (s.dest = s.base ∨
        s.Complete List.length ⟨some 1, false⟩) ∧ (s.temp → s.unlinkFailed) := by
  refine Run.exists_exec (fun s => s.thread = .done (some ⟨false, false⟩) ∧ s.task = .dropped)
    (by decide +kernel) ?_
  rintro s hr ⟨hthread, htask⟩
  obtain ⟨hdest, -, -, -, htemp⟩ := transfer_is_all_or_nothing _ _ _ hr
  exact ⟨hthread, hdest, htemp (by rw [htask]; rfl)⟩

/-- The file is renamed over the old one, and the sync of the directory fails. -/
theorem failed_transfer_replaces :
    ∃ s : Transfer Nat Nat, Run (step List.length ⟨some 1, true⟩) (fun _ _ => True)
        (start (some (.regular [5])))
        [.create true true, .recv (.data [7]) true, .recv (.done 1 1) true, .finished true,
          .write true, .join true, .call true, .call true, .call true, .call true, .call false,
          .collect true] s ∧
      s.task = .returned none ∧ s.dest = some (.regular [7]) ∧ s.base = some (.regular [5]) :=
  Run.exists_of_exec (by decide +kernel)

end Transfer

end Qsh.File
