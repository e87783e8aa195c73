import Qsh.Lib.Run
import Qsh.Broker.ResumeRegistry

/-!
# The TTL reaper

`Broker::reap_once` (`broker/mod.rs`) with everything that can run beside it:
`session.open`, the rotation of an attach, attach guards, the exit of the child, explicit
closes and the session actor taking a `Close`.

A pass is cut at each of its locks: it reads the clock, collects the deadlines, decides what
is doomed and what is past its retention, sweeps the latter, hands the deadlines to the
credential registry, and only then sends the `Close` commands.  Any number of passes may be
under way.

Ghosts: `newest` is the token that the host returned last for a session, with its peer;
`lastSync` is the clock reading of the pass that handed over its deadlines last, and
`fresh` says that a token was minted since then.
-/

namespace Qsh.Broker

open Qsh.Lib Option Function

variable {Sid Peer Hash : Type}

/-! ## The broker -/

def CLOSED_RETENTION : Nat := 60

inductive ReapStage
  | begun
  | measured
  | decided
  | swept
  | synced
  deriving DecidableEq, Repr

/-- One pass of the reaper, with what it has read so far. -/
structure ReapPass (Sid : Type) where
  now : Nat
  stage : ReapStage
  deadlines : Sid → Option Nat
  doomed : Sid → Option CloseReason
  expired : Sid → Bool

/-- The broker, the passes under way, and for each session the `Close`
commands of the reaper that its actor has not taken yet. -/
structure BrokerState (Sid Peer Hash : Type) where
  resumeTtl : Nat
  clock : Nat
  registry : Sid → Option Meta
  resume : Resume.Registry Sid Peer Hash
  passes : List (ReapPass Sid)
  closes : Sid → List CloseReason
  opened : Sid → Bool
  newest : Sid → Option (List UInt8 × Peer)
  lastSync : Nat
  fresh : Sid → Bool

inductive BrokerOp (Sid Peer : Type)
  | advance (now : Nat)
  | open (id : Sid)
  | issue (id : Sid) (peer : Peer) (token : List UInt8)
  | rotate (id : Sid) (presented : List UInt8) (peer : Peer)
      (inputStream : Nat) (token : List UInt8)
  | attachGuard (id : Sid)
  | dropGuard (id : Sid)
  | exit (id : Sid)
  | close (id : Sid)
  | markClosed (id : Sid)
  | forget (id : Sid)
  | reapBegin
  | reapMeasure (i : Nat)
  | reapDecide (i : Nat)
  | reapSweep (i : Nat)
  | reapSync (i : Nat)
  | reapSend (i : Nat) (id : Sid)
  | acceptClose (id : Sid)

namespace BrokerState

def new (resumeTtl : Nat) : BrokerState Sid Peer Hash where
  resumeTtl := resumeTtl
  clock := 0
  registry := fun _ => none
  resume := fun _ => none
  passes := []
  closes := fun _ => []
  opened := fun _ => false
  newest := fun _ => none
  lastSync := 0
  fresh := fun _ => false

/-- Runs `f` on pass `i` if it is at this stage. -/
def onPass (s : BrokerState Sid Peer Hash) (i : Nat) (stage : ReapStage)
    (f : ReapPass Sid → Option (BrokerState Sid Peer Hash)) :
    Option (BrokerState Sid Peer Hash) :=
  s.passes[i]?.bind fun p => if p.stage = stage then f p else none

theorem onPass_some {s s' : BrokerState Sid Peer Hash} {i : Nat} {stage : ReapStage}
    {f : ReapPass Sid → Option (BrokerState Sid Peer Hash)}
    (h : s.onPass i stage f = some s') :
    ∃ p ∈ s.passes, s.passes[i]? = some p ∧ p.stage = stage ∧ f p = some s' := by
  simp only [onPass, bind_eq_some_iff, ite_none_right_eq_some] at h
  obtain ⟨p, hp, hstage, hf⟩ := h
  exact ⟨p, List.mem_of_getElem? hp, hp, hstage, hf⟩

section Parts

variable [DecidableEq Sid]

def modify (s : BrokerState Sid Peer Hash) (id : Sid) (f : Meta → Option Meta) :
    Option (BrokerState Sid Peer Hash) :=
  (s.registry id).bind fun m => (f m).map fun m' =>
    { s with registry := update s.registry id (some m') }

theorem modify_some {s s' : BrokerState Sid Peer Hash} {id : Sid}
    {f : Meta → Option Meta} (h : s.modify id f = some s') :
    ∃ m m', s.registry id = some m ∧ f m = some m' ∧
      s' = { s with registry := update s.registry id (some m') } := by
  simp only [modify, bind_eq_some_iff, map_eq_some_iff] at h
  obtain ⟨m, hm, m', hf, rfl⟩ := h
  exact ⟨m, m', hm, hf, rfl⟩

def minted (s : BrokerState Sid Peer Hash) (id : Sid) (peer : Peer)
    (token : List UInt8) : BrokerState Sid Peer Hash :=
  { s with
    newest := update s.newest id (some (token, peer))
    fresh := update s.fresh id true }

end Parts

section Step

variable [DecidableEq Sid] [DecidableEq Peer] [DecidableEq Hash]

/-- One step, or `none` where it cannot happen.  An id is opened once, a close
is complete only after it was accepted, and a credential is forgotten after the
close of its session has resolved. -/
def step (hash : List UInt8 → Hash) (s : BrokerState Sid Peer Hash) :
    BrokerOp Sid Peer → Option (BrokerState Sid Peer Hash)
  | .advance now => if s.clock ≤ now then some { s with clock := now } else none
  | .open id =>
      if s.opened id = true then none
      else some { s with
        registry := update s.registry id (some (.new s.clock))
        opened := update s.opened id true }
  | .issue id peer token =>
      (s.registry id).map fun _ =>
        { s.minted id peer token with
          resume := s.resume.issue hash id peer s.resumeTtl s.clock token }
  | .rotate id presented peer inputStream token =>
      match s.resume.rotate hash id presented peer s.resumeTtl inputStream s.clock token with
      | (resume, some token) => some { s.minted id peer token with resume := resume }
      | (resume, none) => some { s with resume := resume }
  | .attachGuard id => s.modify id fun m => some m.attachGuard
  | .dropGuard id =>
      s.modify id fun m => if 0 < m.attached then some (m.dropGuard s.clock) else none
  | .exit id =>
      s.modify id fun m =>
        if m.state = .running then some (m.setStateExited s.clock) else none
  | .close id => s.modify id fun m => some { m with closing := true }
  | .markClosed id =>
      s.modify id fun m =>
        if m.closing = true ∧ m.closedAt = none then some (m.markClosed s.clock) else none
  | .forget id =>
      if (s.registry id).all (fun m => m.closedAt.isSome) = true then
        some { s with resume := s.resume.forget id }
      else none
  | .reapBegin =>
      some { s with
        passes := s.passes ++
          [{ now := s.clock
             stage := .begun
             deadlines := fun _ => none
             doomed := fun _ => none
             expired := fun _ => false }] }
  | .reapMeasure i => s.onPass i .begun fun p =>
      some { s with
        passes := s.passes.set i
          { p with
            stage := .measured
            deadlines := fun id => (s.registry id).map fun m => m.deadline p.now s.resumeTtl } }
  | .reapDecide i => s.onPass i .measured fun p =>
      some { s with
        passes := s.passes.set i
          { p with
            stage := .decided
            doomed := fun id => (s.registry id).bind fun m => m.reapReason p.now s.resumeTtl
            expired := fun id => (s.registry id).any fun m =>
              m.closedAt.any (fun closed => CLOSED_RETENTION ≤ p.now - closed) } }
  | .reapSweep i => s.onPass i .decided fun p =>
      some { s with
        registry := fun id => if p.expired id = true then none else s.registry id
        passes := s.passes.set i { p with stage := .swept } }
  | .reapSync i => s.onPass i .swept fun p =>
      some { s with
        resume := s.resume.syncExpiry p.deadlines s.clock
        lastSync := p.now
        fresh := fun _ => false
        passes := s.passes.set i { p with stage := .synced } }
  | .reapSend i id => s.onPass i .synced fun p =>
      (p.doomed id).map fun reason =>
        { s with
          closes := update s.closes id (s.closes id ++ [reason])
          passes := s.passes.set i { p with doomed := update p.doomed id none } }
  | .acceptClose id =>
      match s.closes id with
      | [] => none
      | _ :: rest =>
          { s with closes := update s.closes id rest }.modify id fun m =>
            if m.closedAt = none then some { m with closing := true } else none

theorem rotate_some {hash : List UInt8 → Hash} {s s' : BrokerState Sid Peer Hash}
    {id : Sid} {presented : List UInt8} {peer : Peer} {inputStream : Nat}
    {token : List UInt8} (h : s.step hash (.rotate id presented peer inputStream token) = some s') :
    s' = s ∨ (∃ e, s.resume id = some e) ∧ s' = { s.minted id peer token with
      resume := update s.resume id (some
        { hash := hash token
          peer := peer
          expiresAt := s.clock + s.resumeTtl
          inputStream := inputStream }) } := by
  unfold step Resume.Registry.rotate at h
  cases hr : s.resume.redeems id (hash presented) peer s.clock with simp only [hr, some.injEq] at h
  | none =>
    exact .inl h.symm
  | some e =>
    exact .inr ⟨⟨e, (Resume.Registry.redeems_eq_some hr).1⟩, h.symm⟩

end Step

end BrokerState

end Qsh.Broker
