import Qsh.Lib.Run

/-!
# Remote forwards

`handle_rfwd_open` spawns the accept loop of a listener and then inserts its entry into
`remote_forwards`.  The entry owns the permit of the forward, which the handler has until
then.  The loop may return by itself, and then removes its entry; `handle_rfwd_close` and
`purge_connection` remove entries under the lock and abort their loops after it.  An
abort does not stop a loop that has returned from `serve`: its removal follows without an
await.

A loop that returns before its entry is inserted removes nothing, and the entry stays.
-/

namespace Qsh.Server

open Qsh.Lib List

inductive AcceptLoop where
  | serving
  /-- Out of `serve`, before the removal. -/
  | returned
  | ended
  deriving DecidableEq

/-- Where the permit of a forward is. -/
inductive PermitPlace where
  /-- With `handle_rfwd_open`, which has spawned the loop. -/
  | opening
  | entry
  /-- With a close or a purge, which has removed the entry and not aborted the loop. -/
  | removed
  | released
  deriving DecidableEq

structure RemoteForward where
  connId : Nat
  loop : AcceptLoop
  place : PermitPlace
  deriving DecidableEq

inductive ForwardOp where
  | spawn (connId : Nat)
  | insert (id : Nat)
  | serveReturns (id : Nat)
  | removeOwn (id : Nat)
  | close (id : Nat)
  | purge (connId : Nat)
  | abort (id : Nat)

namespace RemoteForward

/-- What a step does to the forward with this number. -/
def step (f : RemoteForward) (id : Nat) : ForwardOp → RemoteForward
  | .spawn _ => f
  | .insert i => if i = id ∧ f.place = .opening then { f with place := .entry } else f
  | .serveReturns i => if i = id ∧ f.loop = .serving then { f with loop := .returned } else f
  | .removeOwn i =>
      if i = id ∧ f.loop = .returned then
        { f with loop := .ended, place := if f.place = .entry then .released else f.place }
      else f
  | .close i => if i = id ∧ f.place = .entry then { f with place := .removed } else f
  | .purge c => if f.connId = c ∧ f.place = .entry then { f with place := .removed } else f
  | .abort i =>
      if i = id ∧ f.place = .removed then
        { f with loop := if f.loop = .serving then .ended else f.loop, place := .released }
      else f

/-- When the loop is over, neither the handler nor an entry has the permit. -/
def Watched (f : RemoteForward) : Prop :=
  f.loop = .ended → f.place ≠ .opening ∧ f.place ≠ .entry

theorem Watched.step {f : RemoteForward} (h : f.Watched) {id : Nat} {op : ForwardOp}
    (hop : op = .removeOwn id → f.place ≠ .opening) : (f.step id op).Watched := by
  cases op with
  | spawn c => exact h
  | insert | serveReturns | removeOwn | close | purge | abort =>
    grind [RemoteForward.step, Watched]

end RemoteForward

/-- One step; forwards are numbered as they are opened. -/
def stepForwards (s : List RemoteForward) : ForwardOp → Option (List RemoteForward)
  | .spawn c => some (s ++ [⟨c, .serving, .opening⟩])
  | op => some (s.mapIdx fun id f => f.step id op)

/-- No loop comes to its removal before its entry is inserted. -/
def InsertedFirst (s : List RemoteForward) : ForwardOp → Prop
  | .removeOwn id => ∀ f ∈ s[id]?, f.place ≠ .opening
  | _ => True

/-- Nothing is in progress. -/
def ForwardsQuiet (s : List RemoteForward) : Prop :=
  ∀ f ∈ s, f.place ≠ .opening ∧ f.place ≠ .removed ∧ f.loop ≠ .returned

instance (s : List RemoteForward) (op : ForwardOp) : Decidable (InsertedFirst s op) := by
  unfold InsertedFirst
  split <;> infer_instance

instance : DecidablePred ForwardsQuiet :=
  fun s => inferInstanceAs (Decidable (∀ f ∈ s, _))

theorem stepForwards_watched {s t : List RemoteForward} {op : ForwardOp}
    (hop : InsertedFirst s op) (hs : stepForwards s op = some t) (h : ∀ f ∈ s, f.Watched) :
    ∀ f ∈ t, f.Watched := by
  unfold stepForwards at hs
  split at hs
  · cases hs
    exact forall_mem_append.2 ⟨h, forall_mem_singleton.2 nofun⟩
  cases hs
  intro f hf
  obtain ⟨id, hid⟩ := mem_iff_getElem?.1 hf
  rw [getElem?_mapIdx] at hid
  obtain ⟨f₀, hf₀, rfl⟩ := Option.map_eq_some_iff.1 hid
  refine (h f₀ (mem_of_getElem? hf₀)).step ?_
  rintro rfl
  exact hop f₀ hf₀

/-- In every run in which no loop comes to its removal before its entry is inserted,
whenever nothing is in progress a permit is reserved only for a loop that has not ended. -/
theorem permits_have_their_loops {ops : List ForwardOp} {s : List RemoteForward}
    (hr : Run stepForwards InsertedFirst [] ops s) (hq : ForwardsQuiet s) {f : RemoteForward}
    (hf : f ∈ s) (hp : f.place ≠ .released) : f.place = .entry ∧ f.loop = .serving := by
  have hw := hr.invariant (I := fun s => ∀ f ∈ s, f.Watched)
    (fun _ _ _ hop hs h => stepForwards_watched hop hs h) (by simp) f hf
  obtain ⟨hopening, hremoved, hreturned⟩ := hq f hf
  obtain ⟨connId, loop, place⟩ := f
  cases place <;> cases loop <;> simp_all [RemoteForward.Watched]

/-- Two forwards; the loop of the first returns and removes its entry. -/
theorem permits_have_their_loops_opened :
    ∃ s, Run stepForwards InsertedFirst []
        [.spawn 7, .insert 0, .spawn 7, .insert 1, .serveReturns 0, .removeOwn 0] s ∧
      ForwardsQuiet s ∧
      ∃ f ∈ s, f.place ≠ .released ∧ f.place = .entry ∧ f.loop = .serving := by
  refine Run.exists_exec (fun s => ForwardsQuiet s ∧ ∃ f ∈ s, f.place ≠ .released)
    (by decide +kernel) ?_
  rintro s hr ⟨hq, f, hf, hp⟩
  exact ⟨hq, f, hf, hp, permits_have_their_loops hr hq hf hp⟩

/-- The loop returns between the spawn and the insert. -/
theorem entry_outlives_its_loop :
    ∃ s, Run stepForwards (fun _ _ => True) []
        [.spawn 7, .serveReturns 0, .removeOwn 0, .insert 0] s ∧
      ForwardsQuiet s ∧ ∃ f ∈ s, f.place = .entry ∧ f.loop = .ended :=
  Run.exists_of_exec (by decide +kernel)

end Qsh.Server
