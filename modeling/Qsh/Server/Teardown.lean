import Qsh.Lib.Run
import Qsh.Lib.Update
import Qsh.Broker.SessionMeta

/-!
# The end of a connection

A connection leaves three things with the server: tickets that nobody has redeemed,
remote-forward listeners, and writer leases.  `serve_control` joins every task of the
connection before it returns; `purge_connection` then sweeps the tickets and the forwards
and asks the actor of every open session for the lease.

A task that was aborted may have queued its `TakeLease` before.  It is still handled, but
the inbox is first in, first out, so `ReleaseConnection` comes after it.

`ServerState.step` is a step of any connection's tasks, of an actor or of the teardown of
`conn`; an abort is a task that takes no more steps.
-/

namespace Qsh.Server

open Qsh.Lib Qsh.Broker Option List Function

/-- The commands of a session actor that are about its lease. -/
inductive LeaseCommand where
  | take (principal : String) (owner physical : Nat) (noSteal : Bool)
  | release (physical : Nat)
  deriving DecidableEq

def LeaseCommand.handle (l : WriterLease) : LeaseCommand → WriterLease
  | .take principal owner physical noSteal => (l.takeOwned principal owner physical noSteal).1
  | .release physical => (l.releaseConnection physical).1

/-- A session with the inbox of its actor, the oldest command first. -/
structure LeasedSession where
  lease : WriterLease
  inbox : List LeaseCommand
  closed : Bool

/-- The tables whose entries belong to a connection: tickets that are not redeemed, and
remote forwards. -/
inductive Table where
  | tickets
  | forwards
  deriving DecidableEq

/-- How far the teardown is: `serve_control` runs, or `purge_connection` has tables to
sweep, or has sessions to ask and waits for the answer of one, or has returned. -/
inductive Phase where
  | serving
  | sweeping (todo : List Table)
  | releasing (todo : List Nat) (waiting : Option Nat)
  | purged
  deriving DecidableEq

/-- The entries of the tables with their connection, and the sessions. -/
structure ServerState where
  tables : Table → Nat → Option Nat
  sessions : Nat → Option LeasedSession
  opened : Nat
  phase : Phase

inductive ServerOp where
  /-- `issue_ticket`, or `handle_rfwd_open`. -/
  | enter (c : Nat) (table : Table) (key : Nat)
  /-- `redeem_ticket` and the expiry of a ticket, or the close of a forward. -/
  | leave (table : Table) (key : Nat)
  | openSession
  /-- A request or a data stream of connection `c` sends `TakeLease`. -/
  | takeLease (c id : Nat) (principal : String) (owner : Nat) (noSteal : Bool)
  /-- The purge of another connection sends `ReleaseConnection`. -/
  | releaseOther (c id : Nat)
  | handle (id : Nat)
  | close (id : Nat)
  /-- `blocking.shutdown()` has joined every task. -/
  | join
  | sweep
  | collect
  | release (id : Nat)
  | acked
  | purged

namespace ServerState

def start : ServerState where
  tables := fun _ _ => none
  sessions := fun _ => none
  opened := 0
  phase := .serving

/-- The tasks of the connection run until they are joined. -/
def Runs (conn : Nat) (s : ServerState) (c : Nat) : Prop := c ≠ conn ∨ s.phase = .serving

instance (conn : Nat) (s : ServerState) (c : Nat) : Decidable (s.Runs conn c) :=
  inferInstanceAs (Decidable (_ ∨ _))

def setEntry (s : ServerState) (table : Table) (key : Nat) (c : Option Nat) : ServerState :=
  { s with
    tables := update s.tables table (update (s.tables table) key c) }

def setSession (s : ServerState) (id : Nat) (x : LeasedSession) : ServerState :=
  { s with sessions := update s.sessions id (some x) }

/-- A command for an actor; that of a closed session has ended. -/
def queue (s : ServerState) (id : Nat) (cmd : LeaseCommand) : Option ServerState :=
  match s.sessions id with
  | some x => if x.closed then none else some (s.setSession id { x with inbox := x.inbox ++ [cmd] })
  | none => none

/-- One step of a request or of the teardown. -/
def step (conn : Nat) (s : ServerState) : ServerOp → Option ServerState
  | .enter c table key =>
      if s.Runs conn c ∧ s.tables table key = none then some (s.setEntry table key (some c))
      else none
  | .leave table key => some (s.setEntry table key none)
  | .openSession =>
      some { s.setSession s.opened ⟨⟨none⟩, [], false⟩ with opened := s.opened + 1 }
  | .takeLease c id principal owner noSteal =>
      if s.Runs conn c then s.queue id (.take principal owner c noSteal) else none
  | .releaseOther c id => if c ≠ conn then s.queue id (.release c) else none
  | .handle id =>
      match s.sessions id with
      | some ⟨lease, cmd :: inbox, false⟩ => some (s.setSession id ⟨cmd.handle lease, inbox, false⟩)
      | _ => none
  | .close id => (s.sessions id).map fun x => s.setSession id { x with closed := true }
  | .join =>
      if s.phase = .serving then some { s with phase := .sweeping [.tickets, .forwards] } else none
  | .sweep =>
      match s.phase with
      | .sweeping (table :: todo) =>
          some { s with
            tables := update s.tables table fun k => (s.tables table k).filter (· ≠ conn)
            phase := .sweeping todo }
      | _ => none
  | .collect =>
      if s.phase = .sweeping [] then
        let open_ := (range s.opened).filter fun id => (s.sessions id).any fun x => !x.closed
        some { s with phase := .releasing open_ none }
      else none
  | .release id =>
      match s.phase with
      | .releasing todo none =>
          if id ∈ todo then
            some { (s.queue id (.release conn)).getD s with
              phase := .releasing (todo.filter (· ≠ id)) (some id) }
          else none
      | _ => none
  | .acked =>
      match s.phase with
      | .releasing todo (some id) =>
          if (s.sessions id).all fun x => x.closed || .release conn ∉ x.inbox then
            some { s with phase := .releasing todo none }
          else none
      | _ => none
  | .purged => if s.phase = .releasing [] none then some { s with phase := .purged } else none

end ServerState

/-! ## What is left of a connection -/

def LeaseCommand.TakesFor (conn : Nat) : LeaseCommand → Prop
  | .take _ _ physical _ => physical = conn
  | .release _ => False

theorem LeaseCommand.physical_handle {l : WriterLease} {cmd : LeaseCommand} {conn : Nat}
    {h : LeaseHolder} (hcmd : ¬ cmd.TakesFor conn) (hh : (cmd.handle l).holder = some h)
    (hl : ∀ h, l.holder = some h → h.physical ≠ conn) : h.physical ≠ conn := by
  cases cmd with
  | take principal owner physical noSteal =>
    simp only [handle, WriterLease.takeOwned] at hh
    split at hh
    · split_ifs at hh
      · exact hl h hh
      · exact hl h hh
      · cases hh
        exact hcmd
    · cases hh
      exact hcmd
  | release physical =>
    simp only [handle, WriterLease.releaseConnection] at hh
    split_ifs at hh
    exact hl h hh

namespace LeasedSession

/-- The connection has no lease and will get none. -/
def Clean (conn : Nat) (x : LeasedSession) : Prop :=
  x.closed = true ∨ (∀ h, x.lease.holder = some h → h.physical ≠ conn) ∧
    ∀ cmd ∈ x.inbox, ¬ cmd.TakesFor conn

/-- The release is in the inbox, and no take of the connection comes after it. -/
def Settling (conn : Nat) (x : LeasedSession) : Prop :=
  ∃ pre post, x.inbox = pre ++ .release conn :: post ∧ ∀ cmd ∈ post, ¬ cmd.TakesFor conn

variable {conn : Nat} {x : LeasedSession}

variable {cmd : LeaseCommand}

theorem Clean.queue (h : x.Clean conn) (hcmd : ¬ cmd.TakesFor conn) :
    Clean conn { x with inbox := x.inbox ++ [cmd] } := by
  refine h.imp_right fun ⟨hlease, hinbox⟩ => ⟨hlease, ?_⟩
  exact forall_mem_append.2 ⟨hinbox, forall_mem_singleton.2 hcmd⟩

theorem Settling.queue (h : x.Settling conn) (hcmd : ¬ cmd.TakesFor conn) :
    Settling conn { x with inbox := x.inbox ++ [cmd] } := by
  obtain ⟨pre, post, hinbox, hpost⟩ := h
  refine ⟨pre, post ++ [cmd], by simp [hinbox], ?_⟩
  exact forall_mem_append.2 ⟨hpost, forall_mem_singleton.2 hcmd⟩

variable {lease : WriterLease} {inbox : List LeaseCommand}

theorem Clean.handle (h : Clean conn ⟨lease, cmd :: inbox, false⟩) :
    Clean conn ⟨cmd.handle lease, inbox, false⟩ := by
  rcases h with h | ⟨hlease, hinbox⟩
  · cases h
  · exact .inr ⟨fun h hh => LeaseCommand.physical_handle (hinbox cmd mem_cons_self) hh hlease,
      fun cmd' hmem => hinbox cmd' (mem_cons_of_mem _ hmem)⟩

theorem Settling.handle (h : Settling conn ⟨lease, cmd :: inbox, false⟩) :
    Clean conn ⟨cmd.handle lease, inbox, false⟩ ∨
      Settling conn ⟨cmd.handle lease, inbox, false⟩ := by
  obtain ⟨pre, post, hinbox, hpost⟩ := h
  cases pre with
  | nil =>
    -- the release itself is handled
    obtain ⟨rfl, rfl⟩ := List.cons.inj hinbox
    refine .inl (.inr ⟨fun h hh => ?_, hpost⟩)
    simp only [LeaseCommand.handle, WriterLease.releaseConnection] at hh
    split_ifs at hh with hheld
    have hh' : lease.holder = some h := hh
    simpa [hh'] using hheld
  | cons first pre =>
    obtain ⟨rfl, rfl⟩ := List.cons.inj hinbox
    exact .inr ⟨pre, post, rfl, hpost⟩

end LeasedSession

namespace Phase

/-- The table has been swept. -/
def Swept (table : Table) : Phase → Prop
  | .serving => False
  | .sweeping todo => table ∉ todo
  | _ => True

/-- The session needed no release, or its actor has answered. -/
def Asked (id : Nat) : Phase → Prop
  | .releasing todo waiting => id ∉ todo ∧ waiting ≠ some id
  | .purged => True
  | _ => False

end Phase

namespace ServerState

/-- A table that was swept has no entry of the connection. -/
structure Inv (conn : Nat) (s : ServerState) : Prop where
  swept : ∀ table, s.phase.Swept table → ∀ k, s.tables table k ≠ some conn
  below : ∀ id x, s.sessions id = some x → id < s.opened
  clean : ∀ id x, s.sessions id = some x → s.phase.Asked id → x.Clean conn
  settling : ∀ todo id x, s.phase = .releasing todo (some id) → s.sessions id = some x →
    x.Clean conn ∨ x.Settling conn

variable {conn : Nat} {s t : ServerState}

variable {id : Nat} {cmd : LeaseCommand}

theorem queue_some (h : s.queue id cmd = some t) :
    ∃ x, s.sessions id = some x ∧ t = s.setSession id { x with inbox := x.inbox ++ [cmd] } := by
  simp only [queue] at h
  split at h
  · split_ifs at h
    exact ⟨_, ‹_›, (Option.some.inj h).symm⟩
  · cases h

theorem Inv.setSession (hi : s.Inv conn) {x x' : LeasedSession} (hx : s.sessions id = some x)
    (hclean : s.phase ≠ .serving → x.Clean conn → x'.Clean conn)
    (hsettle : s.phase ≠ .serving → x.Settling conn → x'.Clean conn ∨ x'.Settling conn) :
    (s.setSession id x').Inv conn := by
  refine ⟨hi.swept, fun id' y hy => ?_, fun id' y hy hasked => ?_, fun todo id' y hphase hy => ?_⟩
  all_goals rcases update_cases hy with ⟨rfl, heq⟩ | ⟨-, hy⟩
  · exact hi.below _ x hx
  · exact hi.below id' y hy
  · cases heq
    refine hclean ?_ (hi.clean _ x hx hasked)
    intro hserving
    rw [show (s.setSession id' x').phase = .serving from hserving] at hasked
    exact hasked
  · exact hi.clean id' y hy hasked
  · cases heq
    have hserving : s.phase ≠ .serving := fun h => nomatch h.symm.trans hphase
    rcases hi.settling todo _ x hphase hx with hx | hx
    · exact .inl (hclean hserving hx)
    · exact hsettle hserving hx
  · exact hi.settling todo id' y hphase hy

theorem Inv.queue (hi : s.Inv conn) (h : s.queue id cmd = some t)
    (hcmd : s.phase ≠ .serving → ¬ cmd.TakesFor conn) : t.Inv conn := by
  obtain ⟨x, hx, rfl⟩ := queue_some h
  exact hi.setSession hx (fun hs hclean => hclean.queue (hcmd hs))
    fun hs hsettle => .inr (hsettle.queue (hcmd hs))

theorem Inv.setEntry (hi : s.Inv conn) {table : Table} {key : Nat} {c : Option Nat}
    (hc : s.phase ≠ .serving → c ≠ some conn) : (s.setEntry table key c).Inv conn := by
  refine ⟨fun table' hswept k hk => ?_, hi.below, hi.clean, hi.settling⟩
  have hold := hi.swept table' hswept k
  rcases update_pred (P := fun f : Nat → Option Nat => f k = some conn) hk with ⟨rfl, hk⟩ | ⟨-, hk⟩
  · rcases update_cases hk with ⟨-, heq⟩ | ⟨-, hk⟩
    · refine hc (fun hserving => ?_) heq
      rw [show (s.setEntry table' key c).phase = .serving from hserving] at hswept
      exact hswept
    · exact hold hk
  · exact hold hk

variable {todo : List Nat}

theorem Inv.release (hi : s.Inv conn) (hphase : s.phase = .releasing todo none) :
    Inv conn { (s.queue id (.release conn)).getD s with
      phase := .releasing (todo.filter (· ≠ id)) (some id) } := by
  have hasked : ∀ id', Phase.Asked id' (.releasing (todo.filter (· ≠ id)) (some id)) →
      s.phase.Asked id' := by
    rintro id' ⟨htodo, hwait⟩
    have hne : id' ≠ id := fun h => hwait (by rw [h])
    rw [hphase]
    exact ⟨fun hmem => htodo (mem_filter.2 ⟨hmem, by simpa using hne⟩), nofun⟩
  have hswept : ∀ table, s.phase.Swept table := fun table => by rw [hphase]; trivial
  cases hq : s.queue id (.release conn) with
  | some t =>
    have ht : t.Inv conn := hi.queue hq fun _ h => h
    obtain ⟨x, hx, rfl⟩ := queue_some hq
    refine ⟨fun table _ => hi.swept table (hswept table), ht.below,
      fun id' y hy hd => ht.clean id' y hy (hasked id' hd), fun todo' id' y hphase' hy => ?_⟩
    cases hphase'
    rcases update_cases hy with ⟨-, ⟨⟩⟩ | ⟨hne, -⟩
    · exact .inr ⟨x.inbox, [], rfl, by simp⟩
    · exact absurd rfl hne
  | none =>
    refine ⟨fun table _ => hi.swept table (hswept table), hi.below,
      fun id' y hy hd => hi.clean id' y hy (hasked id' hd), fun todo' id' y hphase' hy => ?_⟩
    cases hphase'
    have hy' : s.sessions id = some y := hy
    simp only [ServerState.queue, hy'] at hq
    split_ifs at hq with hclosed
    exact .inl (.inl hclosed)

theorem Inv.acked (hi : s.Inv conn) (hphase : s.phase = .releasing todo (some id))
    (hdone : (s.sessions id).all (fun x => x.closed || .release conn ∉ x.inbox) = true) :
    Inv conn { s with phase := .releasing todo none } := by
  refine ⟨fun table _ => hi.swept table (by rw [hphase]; trivial), hi.below,
    fun id' x hx hasked => ?_, nofun⟩
  have hx' : s.sessions id' = some x := hx
  obtain rfl | hid := eq_or_ne id' id
  · rcases hi.settling todo _ x hphase hx with hclean | ⟨pre, post, hinbox, -⟩
    · exact hclean
    · rw [hx', all_some, hinbox] at hdone
      exact .inl (by simpa using hdone)
  · refine hi.clean id' x hx ?_
    rw [hphase]
    exact ⟨hasked.1, fun heq => hid (Option.some.inj heq).symm⟩

theorem Inv.step {op : ServerOp} (hi : s.Inv conn) (hs : s.step conn op = some t) :
    t.Inv conn := by
  cases op with simp only [ServerState.step] at hs
  | enter c table key =>
    obtain ⟨⟨hc, -⟩, rfl⟩ := ite_some_none_eq_some.1 hs
    exact hi.setEntry fun hserving heq => hc.resolve_right hserving (Option.some.inj heq)
  | leave table key =>
    cases hs
    exact hi.setEntry fun _ => nofun
  | openSession =>
    cases hs
    have hnew : LeasedSession.Clean conn ⟨⟨none⟩, [], false⟩ := .inr ⟨nofun, nofun⟩
    refine ⟨hi.swept, fun id x hx => ?_, fun id x hx hasked => ?_, fun todo id x hphase hx => ?_⟩
    all_goals rcases update_cases hx with ⟨rfl, heq⟩ | ⟨-, hx⟩
    · exact Nat.lt_succ_self _
    · exact Nat.lt_succ_of_lt (hi.below id x hx)
    · cases heq
      exact hnew
    · exact hi.clean id x hx hasked
    · cases heq
      exact .inl hnew
    · exact hi.settling todo id x hphase hx
  | takeLease c id principal owner noSteal =>
    obtain ⟨hc, hs⟩ := ite_none_right_eq_some.1 hs
    exact hi.queue hs fun hserving => hc.resolve_right hserving
  | releaseOther c id =>
    obtain ⟨-, hs⟩ := ite_none_right_eq_some.1 hs
    exact hi.queue hs fun _ h => h
  | handle id =>
    split at hs <;> cases hs
    exact hi.setSession ‹_› (fun _ hx => hx.handle) fun _ hx => hx.handle
  | close id =>
    obtain ⟨x, hx, rfl⟩ := map_eq_some_iff.1 hs
    exact hi.setSession hx (fun _ _ => .inl rfl) fun _ _ => .inl (.inl rfl)
  | join =>
    obtain ⟨-, rfl⟩ := ite_some_none_eq_some.1 hs
    refine ⟨fun table hswept => absurd ?_ hswept, hi.below, nofun, nofun⟩
    cases table <;> decide
  | sweep =>
    split at hs <;> cases hs
    rename_i table todo hphase
    refine ⟨fun table' hswept k hk => ?_, hi.below, nofun, nofun⟩
    rcases update_pred (P := fun f : Nat → Option Nat => f k = some conn) hk
      with ⟨-, hk⟩ | ⟨hne, hk⟩
    · simpa using (filter_eq_some_iff.1 hk).2
    · refine hi.swept table' ?_ k hk
      rw [hphase]
      exact not_mem_cons_of_ne_of_not_mem hne hswept
  | collect =>
    obtain ⟨hphase, rfl⟩ := ite_some_none_eq_some.1 hs
    refine ⟨fun table _ => hi.swept table (by rw [hphase]; exact not_mem_nil), hi.below,
      fun id x hx hasked => ?_, nofun⟩
    have hx' : s.sessions id = some x := hx
    have hopen := hasked.1
    simp only [mem_filter, mem_range, not_and, hx', any_some] at hopen
    exact .inl (by simpa using hopen (hi.below id x hx))
  | release id =>
    split at hs
    · obtain ⟨-, rfl⟩ := ite_some_none_eq_some.1 hs
      exact hi.release ‹_›
    · cases hs
  | acked =>
    split at hs
    · obtain ⟨hdone, rfl⟩ := ite_some_none_eq_some.1 hs
      exact hi.acked ‹_› hdone
    · cases hs
  | purged =>
    obtain ⟨hphase, rfl⟩ := ite_some_none_eq_some.1 hs
    refine ⟨fun table _ => hi.swept table (by rw [hphase]; trivial), hi.below,
      fun id x hx _ => hi.clean id x hx ?_, nofun⟩
    rw [hphase]
    exact ⟨nofun, nofun⟩

/-- In every run: once `purge_connection` has returned, no ticket and no forward belongs to
the connection, and no open session has a lease of it. -/
theorem purge_is_final (conn : Nat) {ops : List ServerOp} {s : ServerState}
    (hr : Run (step conn) (fun _ _ => True) start ops s) (hpurged : s.phase = .purged) :
    (∀ table k, s.tables table k ≠ some conn) ∧
      ∀ id x h, s.sessions id = some x → x.closed = false → x.lease.holder = some h →
        h.physical ≠ conn := by
  have hi : s.Inv conn := hr.invariant (I := Inv conn) (fun _ _ _ _ hs hI => hI.step hs)
    ⟨nofun, nofun, nofun, nofun⟩
  refine ⟨fun table => hi.swept table (by rw [hpurged]; trivial), fun id x h hx hopen hh => ?_⟩
  rcases hi.clean id x hx (by rw [hpurged]; trivial) with hclosed | ⟨hlease, -⟩
  · exact nomatch hclosed.symm.trans hopen
  · exact hlease h hh

/-- A take that was queued before the tasks were joined is handled after the sweeps. -/
theorem purge_is_final_queuedTake :
    ∃ s, Run (step 1) (fun _ _ => True) start
        [.openSession, .enter 1 .tickets 5, .leave .tickets 5, .takeLease 1 0 "a" 1 false,
          .enter 1 .tickets 6, .join, .sweep, .sweep, .collect, .release 0, .handle 0, .handle 0,
          .acked, .purged] s ∧ s.phase = .purged ∧ s.tables .tickets 6 ≠ some 1 :=
  Run.exists_exec (fun s => s.phase = .purged) (by decide +kernel)
    fun _ hrun hpurged => ⟨hpurged, (purge_is_final 1 hrun hpurged).1 .tickets 6⟩

end ServerState

end Qsh.Server
