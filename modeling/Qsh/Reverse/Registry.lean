import Mathlib.Order.Lattice
import Qsh.Lib.Run

/-!
# Registrations of reverse hosts

A `qsh listen` process keeps two tables about the hosts registered with it.  The
registry (`reverse/registry.rs`) has a row for each name, live or stale; the connection
table (`reverse/listen/conn_table.rs`) has the connection published under a name.  Each
is behind a lock of its own, and both number the registrations of a name by generations.

A registration admits a row, sends its reply, and then publishes the connection and
drives it.  If the reply cannot be sent, or a quota refuses the connection, the row is
rolled back: what to restore is decided from the connection table, and then restored in
the registry.  When the drive loop ends, the connection is removed and the row is marked
stale; a sweeper removes old rows.
-/

namespace Qsh.Reverse

open Qsh.Lib Function

variable {ν φ : Type} [DecidableEq ν] [DecidableEq φ]

/-! ## The registry -/

inductive EntryState where
  | live
  | stale
  deriving DecidableEq

/-- A registered host. -/
structure ReverseEntry (ν φ : Type) where
  name : ν
  fingerprint : φ
  generation : Nat
  state : EntryState
  staleSince : Option Nat
  deriving DecidableEq

structure RegisterOutcome (ν φ : Type) where
  entry : ReverseEntry ν φ
  replacedEntry : Option (ReverseEntry ν φ)
  deriving DecidableEq

structure RegistryState (ν φ : Type) where
  entries : ν → Option (ReverseEntry ν φ)
  lastGeneration : List (ν × Nat)

def MAX_TOMBSTONES : Nat := 10000

namespace RegistryState

variable (r : RegistryState ν φ)

/-- One more than the last generation under the name. -/
def nextGeneration (name : ν) : Nat :=
  ((r.lastGeneration.lookup name).map (· + 1)).getD 0

def evictable : List ν :=
  (r.lastGeneration.map Prod.fst).filter fun name => (r.entries name).isNone

/-- What `prune_tombstones` may evict: as many names as there are too many, in an
order that is not known. -/
def MayEvict (evict : List ν) : Prop :=
  evict.Nodup ∧ (∀ name ∈ evict, name ∈ r.evictable) ∧
    evict.length = min (r.lastGeneration.length - MAX_TOMBSTONES) r.evictable.length

instance (r : RegistryState ν φ) (evict : List ν) : Decidable (r.MayEvict evict) :=
  inferInstanceAs (Decidable (_ ∧ _ ∧ _))

def pruneTombstones (evict : List ν) : RegistryState ν φ :=
  { r with lastGeneration := r.lastGeneration.filter fun e => e.1 ∉ evict }

/-- `Registry::admit`, before the tombstones are pruned.  A row with another
fingerprint refuses. -/
def admitEntry (name : ν) (fingerprint : φ) :
    Option (RegistryState ν φ × RegisterOutcome ν φ) :=
  let insert (generation : Nat) (replaced : Option (ReverseEntry ν φ)) :=
    let entry : ReverseEntry ν φ :=
      { name, fingerprint, generation, state := .live, staleSince := none }
    ({ entries := update r.entries name (some entry)
       lastGeneration := (name, generation) :: r.lastGeneration.filter fun e => e.1 ≠ name },
      { entry, replacedEntry := replaced })
  match r.entries name with
  | some existing =>
      if existing.fingerprint ≠ fingerprint then none
      else some (insert (max (r.nextGeneration name) (existing.generation + 1)) (some existing))
  | none => some (insert (r.nextGeneration name) none)

/-- Puts back what the entry replaced, if it is still current. -/
def rollback (name : ν) (generation : Nat)
    (replaced : Option (ReverseEntry ν φ)) : RegistryState ν φ :=
  if (r.entries name).any fun e => e.generation = generation then
    { r with entries := update r.entries name replaced }
  else r

/-- The host is gone; its name stays reserved for a while. -/
def markStale (name : ν) (generation now : Nat) : RegistryState ν φ :=
  match r.entries name with
  | some e =>
      if e.generation = generation ∧ e.state = .live then
        { r with
          entries := update r.entries name
            (some { e with state := .stale, staleSince := some now }) }
      else r
  | none => r

def expired (e : ReverseEntry ν φ) (now retention : Nat) : Bool :=
  e.state = .stale && e.staleSince.any fun since => retention ≤ now - since

/-- Drops entries that have been stale too long. -/
def sweepExpired (now retention : Nat) : RegistryState ν φ :=
  { r with entries := fun name => (r.entries name).filter fun e => !expired e now retention }

end RegistryState

/-! ## The connection table -/

abbrev ConnTable (ν : Type) := ν → Option (Nat × Nat)

namespace ConnTable

/-- Publishes a connection unless a newer one is there. -/
def publish (t : ConnTable ν) (name : ν) (generation conn : Nat) : Option (ConnTable ν) :=
  if (t name).any fun e => generation ≤ e.1 then none
  else some (update t name (some (generation, conn)))

/-- Removes the connection of this generation only. -/
def removeIf (t : ConnTable ν) (name : ν) (generation : Nat) : ConnTable ν × Bool :=
  if (t name).any fun e => e.1 = generation then (update t name none, true)
  else (t, false)

def occupantGeneration (t : ConnTable ν) (name : ν) : Option Nat := (t name).map Prod.fst

def rollbackTarget (t : ConnTable ν) (name : ν) (replaced : Option (ReverseEntry ν φ)) :
    Option (ReverseEntry ν φ) :=
  replaced.filter fun prev => t.occupantGeneration name = some prev.generation

end ConnTable

/-! ## The listener -/

/-- How far a connection has come. -/
inductive Stage (ν φ : Type) where
  /-- Admitted; neither published nor refused. -/
  | waiting (o : RegisterOutcome ν φ)
  /-- Refused; what to restore has been decided. -/
  | rolling (o : RegisterOutcome ν φ) (target : Option (ReverseEntry ν φ))
  | driving (e : ReverseEntry ν φ)
  /-- Out of the connection table; its row is still to be marked. -/
  | exited (e : ReverseEntry ν φ)
  | gone

/-- The registration that a connection still has something to do with. -/
def Stage.entry? : Stage ν φ → Option (ReverseEntry ν φ)
  | .waiting o => some o.entry
  | .rolling o _ => some o.entry
  | .driving e => some e
  | .exited e => some e
  | .gone => none

/-- The listener: both tables, its connections and the clock.  `lost` remembers
for a name and a fingerprint that a connection was published, and when the last
one was marked stale. -/
structure Listen (ν φ : Type) where
  registry : RegistryState ν φ
  conns : ConnTable ν
  stage : Nat → Option (Stage ν φ)
  now : Nat
  retention : Nat
  lost : ν → φ → Option (Option Nat)

inductive ListenOp (ν φ : Type) where
  | admits (conn : Nat) (name : ν) (fingerprint : φ) (evict : List ν)
  /-- The reply failed or a quota refused: `rollback_target`. -/
  | refuse (conn : Nat)
  | rollback (conn : Nat)
  | publish (conn : Nat)
  /-- The drive loop ends: `conns.remove_if`. -/
  | remove (conn : Nat)
  | markStale (conn : Nat)
  | sweep
  | pass (time : Nat)

namespace Listen

variable (s : Listen ν φ)

def setStage (conn : Nat) (stage : Stage ν φ) : Listen ν φ :=
  { s with stage := update s.stage conn (some stage) }

def setLost (name : ν) (fingerprint : φ) (since : Option Nat) : Listen ν φ :=
  { s with
    lost := update s.lost name (update (s.lost name) fingerprint (some since)) }

/-- One step.  A registration of a name that is taken by another fingerprint is
refused and leaves nothing behind. -/
def step : ListenOp ν φ → Option (Listen ν φ)
  | .admits conn name fingerprint evict =>
      match s.stage conn, s.registry.admitEntry name fingerprint with
      | none, some (registry, o) =>
          if registry.MayEvict evict then
            some ({ s with registry := registry.pruneTombstones evict }.setStage conn (.waiting o))
          else none
      | _, _ => none
  | .refuse conn =>
      match s.stage conn with
      | some (.waiting o) =>
          some (s.setStage conn (.rolling o (s.conns.rollbackTarget o.entry.name o.replacedEntry)))
      | _ => none
  | .rollback conn =>
      match s.stage conn with
      | some (.rolling o target) =>
          some ({ s with registry := s.registry.rollback o.entry.name o.entry.generation target
            }.setStage conn .gone)
      | _ => none
  | .publish conn =>
      match s.stage conn with
      | some (.waiting o) =>
          match s.conns.publish o.entry.name o.entry.generation conn with
          | some conns =>
              some (({ s with conns }.setStage conn (.driving o.entry)).setLost o.entry.name
                o.entry.fingerprint none)
          | none => some (s.setStage conn .gone)
      | _ => none
  | .remove conn =>
      match s.stage conn with
      | some (.driving e) =>
          let (conns, removed) := s.conns.removeIf e.name e.generation
          some ({ s with conns }.setStage conn (if removed then .exited e else .gone))
      | _ => none
  | .markStale conn =>
      match s.stage conn with
      | some (.exited e) =>
          let marked := (s.registry.entries e.name).any fun row =>
            row.generation = e.generation && row.state = .live
          let s' : Listen ν φ :=
            { s with registry := s.registry.markStale e.name e.generation s.now
              }.setStage conn .gone
          some (if marked then s'.setLost e.name e.fingerprint (some s.now) else s')
      | _ => none
  | .sweep => some { s with registry := s.registry.sweepExpired s.now s.retention }
  | .pass time => some { s with now := s.now + time }

def start (retention now : Nat) : Listen ν φ where
  registry := { entries := fun _ => none, lastGeneration := [] }
  conns := fun _ => none
  stage := fun _ => none
  now
  retention
  lost := fun _ _ => none

def Holds (conn : Nat) (name : ν) (generation : Nat) : Prop :=
  ∃ st e, s.stage conn = some st ∧ st.entry? = some e ∧ e.name = name ∧ e.generation = generation

/-- A connection is accepted under a name and a generation: it is published, or
may still be. -/
def Accepted (conn : Nat) (name : ν) (generation : Nat) : Prop :=
  (∃ o, s.stage conn = some (.waiting o) ∧ o.entry.name = name ∧
    o.entry.generation = generation) ∨ s.conns name = some (generation, conn)

/-- No registration is under way. -/
def Quiet : Prop :=
  ∀ conn st, s.stage conn = some st → st = .gone ∨ ∃ e, st = .driving e

end Listen

end Qsh.Reverse
