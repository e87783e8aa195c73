import Qsh.Broker.ResumeRegistry

/-!
# The client's resume tokens

`resume.rs`, of the attach in
`ops/session.rs` and of the reattach in `ops/session/recovery.rs`.  All
processes of a device share one file, `resume.json`, which maps a session to
the token that attaches to it.

`Device` puts any number of processes on one file, with the host's credential
registry on the other side.
An attach reads the token without the file's lock, presents it, and writes the
successor or forgets the session when the reply is there, so it is cut into
these steps.
-/

namespace Qsh.Client

open Qsh.Broker Function

variable {Ref Peer Hash : Type}

/-! ## The file -/

structure ResumeEntry (Peer : Type) where
  token : List UInt8
  peerSpki : Peer
  expiresAt : Nat
  deriving DecidableEq, Repr

def ResumeEntry.isExpired (e : ResumeEntry Peer) (now : Nat) : Bool :=
  decide (e.expiresAt ≤ now)

abbrev Document (Ref Peer : Type) := Ref → Option (ResumeEntry Peer)

inductive NoToken
  | missing
  | peerMismatch
  deriving DecidableEq, Repr

namespace Document

def purgeExpired (doc : Document Ref Peer) (now : Nat) : Document Ref Peer :=
  fun ref => (doc ref).filter (fun e => !e.isExpired now)

variable {doc : Document Ref Peer} {now : Nat}

theorem purgeExpired_eq_self
    (h : ∀ ref, ∀ e ∈ doc ref, now < e.expiresAt) : doc.purgeExpired now = doc := by
  funext ref
  unfold purgeExpired
  cases he : doc ref with
  | none => rfl
  | some e =>
    have hlt := h ref e he
    simp [Option.filter, ResumeEntry.isExpired, not_le.2 hlt]

variable [DecidableEq Ref]

/-- Stores a token, without those that have expired. -/
def put (doc : Document Ref Peer) (ref : Ref) (token : List UInt8)
    (peer : Peer) (expiresAt now : Nat) : Document Ref Peer :=
  update (doc.purgeExpired now) ref (some ⟨token, peer, expiresAt⟩)

def forget (doc : Document Ref Peer) (ref : Ref) (now : Nat) :
    Document Ref Peer :=
  update (doc.purgeExpired now) ref none

/-- Moves the expiry of a session's token. -/
def renew (doc : Document Ref Peer) (ref : Ref) (ttl now : Nat) :
    Document Ref Peer :=
  let doc := doc.purgeExpired now
  update doc ref ((doc ref).map fun e => { e with expiresAt := now + ttl })

/-- The credential to present to `peer`, or why there is none.  An entry of
another peer, or one that has expired, is forgotten on the way. -/
def takeFor [DecidableEq Peer] (doc : Document Ref Peer) (ref : Ref)
    (peer : Peer) (now : Nat) : Document Ref Peer × Except NoToken (List UInt8) :=
  match doc ref with
  | none => (doc, .error .missing)
  | some entry =>
      if entry.peerSpki ≠ peer then (doc.forget ref now, .error .peerMismatch)
      else if entry.isExpired now = true then (doc.forget ref now, .error .missing)
      else (doc, .ok entry.token)

theorem takeFor_fresh [DecidableEq Peer] (ref : Ref)
    {peer : Peer} (hfresh : ∀ ref, ∀ e ∈ doc ref, now < e.expiresAt)
    (hpeer : ∀ ref, ∀ e ∈ doc ref, e.peerSpki = peer) :
    doc.takeFor ref peer now = (doc, .error .missing) ∨
      ∃ e ∈ doc ref, doc.takeFor ref peer now = (doc, .ok e.token) := by
  unfold takeFor
  cases he : doc ref with
  | none => exact .inl rfl
  | some e =>
    have hlt := hfresh ref e he
    refine .inr ⟨e, rfl, ?_⟩
    simp [hpeer ref e he, ResumeEntry.isExpired, not_le.2 hlt]

end Document

/-! ## The device and its host -/

/-- Where a process stands in its attach, with the token it presents, or the
successor it was given. -/
inductive Attaching (Ref : Type)
  | idle
  | took (ref : Ref) (token : List UInt8)
  | requested (ref : Ref) (token : List UInt8)
  | verified (ref : Ref) (token : List UInt8)
  | granted (ref : Ref) (successor : List UInt8)
  | refused (ref : Ref) (token : List UInt8)
  deriving DecidableEq, Repr

def Attaching.underWay : Attaching Ref → Option Ref
  | .idle => none
  | .took _ _ => none
  | .requested ref _ => some ref
  | .verified ref _ => some ref
  | .granted ref _ => some ref
  | .refused ref _ => some ref

def Attaching.presents : Attaching Ref → Option (Ref × List UInt8)
  | .idle => none
  | .took ref token => some (ref, token)
  | .requested ref token => some (ref, token)
  | .verified ref token => some (ref, token)
  | .granted _ _ => none
  | .refused ref token => some (ref, token)

/-- The file and the processes of one device, and the registry of its host.
`issued` has every token that the host has returned for a session, the newest
one first. -/
structure Device (Ref Peer Hash : Type) where
  doc : Document Ref Peer
  procs : Nat → Attaching Ref
  registry : Resume.Registry Ref Peer Hash
  closed : Ref → Bool
  issued : Ref → List (List UInt8)

inductive DeviceOp (Ref Peer : Type)
  | open (proc : Nat) (ref : Ref) (token : List UInt8) (ttl now : Nat)
  | take (proc : Nat) (ref : Ref) (host : Peer) (now : Nat)
  | request (proc : Nat)
  | verify (proc : Nat) (now : Nat)
  | rotate (proc : Nat) (token : List UInt8) (ttl inputStream now : Nat)
  | notFound (proc : Nat)
  | decline (proc : Nat)
  | put (proc : Nat) (host : Peer) (expiresAt now : Nat)
  | forget (proc : Nat) (now : Nat)
  | renew (ref : Ref) (ttl now : Nat)
  | close (ref : Ref)
  | forgetCredential (ref : Ref)
  | forgetClosed (ref : Ref) (now : Nat)

namespace Device

def new : Device Ref Peer Hash where
  doc := fun _ => none
  procs := fun _ => .idle
  registry := fun _ => none
  closed := fun _ => false
  issued := fun _ => []

def move (s : Device Ref Peer Hash) (proc : Nat) (a : Attaching Ref) :
    Device Ref Peer Hash :=
  { s with procs := update s.procs proc a }

variable [DecidableEq Ref] [DecidableEq Peer] [DecidableEq Hash]

/-- One step, or `none` where it cannot happen.  `device` is the fingerprint
that the host sees. -/
def step (hash : List UInt8 → Hash) (device : Peer) (s : Device Ref Peer Hash) :
    DeviceOp Ref Peer → Option (Device Ref Peer Hash)
  | .open proc ref token ttl now =>
      match s.procs proc, s.issued ref with
      | .idle, [] =>
          some { s.move proc (.granted ref token) with
            registry := s.registry.issue hash ref device ttl now token
            issued := update s.issued ref [token] }
      | _, _ => none
  | .take proc ref host now =>
      match s.procs proc with
      | .idle =>
          match s.doc.takeFor ref host now with
          | (_, .ok token) => some (s.move proc (.took ref token))
          | (doc, .error _) => some { s with doc := doc }
      | _ => none
  | .request proc =>
      match s.procs proc with
      | .took ref token => some (s.move proc (.requested ref token))
      | _ => none
  | .verify proc now =>
      match s.procs proc with
      | .requested ref token =>
          match s.registry.verify hash ref token device now with
          | some _ => some (s.move proc (.verified ref token))
          | none => some (s.move proc (.refused ref token))
      | _ => none
  | .rotate proc token ttl inputStream now =>
      match s.procs proc with
      | .verified ref presented =>
          match s.registry.rotate hash ref presented device ttl inputStream now token with
          | (registry, some token) =>
              some { s.move proc (.granted ref token) with
                registry := registry
                issued := update s.issued ref (token :: s.issued ref) }
          | (_, none) => some (s.move proc (.refused ref presented))
      | _ => none
  | .notFound proc =>
      match s.procs proc with
      | .verified ref token =>
          if s.closed ref = true then some (s.move proc (.refused ref token)) else none
      | _ => none
  -- any other error: the file is left alone
  | .decline proc =>
      match s.procs proc with
      | .took _ _ => some (s.move proc .idle)
      | .requested _ _ => some (s.move proc .idle)
      | .verified _ _ => some (s.move proc .idle)
      | _ => none
  | .put proc host expiresAt now =>
      match s.procs proc with
      | .granted ref successor =>
          some { s.move proc .idle with doc := s.doc.put ref successor host expiresAt now }
      | _ => none
  | .forget proc now =>
      match s.procs proc with
      | .refused ref _ => some { s.move proc .idle with doc := s.doc.forget ref now }
      | _ => none
  | .renew ref ttl now => some { s with doc := s.doc.renew ref ttl now }
  | .close ref => some { s with closed := update s.closed ref true }
  | .forgetCredential ref =>
      if s.closed ref = true then some { s with registry := s.registry.forget ref } else none
  -- the process that closed the session, or saw it close
  | .forgetClosed ref now =>
      if s.closed ref = true then some { s with doc := s.doc.forget ref now } else none

end Device

end Qsh.Client
