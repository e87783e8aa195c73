import Qsh.Broker.SessionMeta

/-!
# The host's resume credentials

`broker/resume.rs`: for each session, the hash of one token with the peer it is bound to,
its expiry, and the input axis of its lineage.

Session ids, peers and hashes are arbitrary types, and the hash is a parameter.  A token
comes from the operating system's random source, so it is an argument of `issue` and
`rotate`.  Each operation takes the lock once and reads the clock before that, so the
instants of a run need not be ordered.
-/

namespace Qsh.Broker.Resume

open List Option Function

variable {Sid Peer Hash : Type}

section Registry

variable [DecidableEq Sid] [DecidableEq Peer] [DecidableEq Hash]

/-! ## The registry -/

/-- The standing token of a session, as a hash. -/
structure Entry (Peer Hash : Type) where
  hash : Hash
  peer : Peer
  expiresAt : Nat
  inputStream : Nat
  deriving DecidableEq, Repr

abbrev Registry (Sid Peer Hash : Type) :=
  Sid → Option (Entry Peer Hash)

namespace Registry

variable (r : Registry Sid Peer Hash)

/-- The check that `verify` and `rotate` share: present, hash, peer and
freshness, folded into one answer. -/
def redeems (id : Sid) (presented : Hash) (peer : Peer) (now : Nat) : Option (Entry Peer Hash) :=
  (r id).filter (fun e => e.hash = presented ∧ e.peer = peer ∧ now < e.expiresAt)

def issue (hash : List UInt8 → Hash) (id : Sid)
    (peer : Peer) (ttl now : Nat) (token : List UInt8) : Registry Sid Peer Hash :=
  update r id (some
    { hash := hash token
      peer := peer
      expiresAt := now + ttl
      inputStream := FIRST_INPUT_STREAM })

/-- The input axis, if the token and the peer match and it has not expired. -/
def verify (hash : List UInt8 → Hash) (id : Sid)
    (presented : List UInt8) (peer : Peer) (now : Nat) : Option Nat :=
  (r.redeems id (hash presented) peer now).map Entry.inputStream

/-- Replaces a token that matches by a fresh one. -/
def rotate (hash : List UInt8 → Hash) (id : Sid)
    (presented : List UInt8) (peer : Peer) (ttl inputStream now : Nat)
    (token : List UInt8) : Registry Sid Peer Hash × Option (List UInt8) :=
  match r.redeems id (hash presented) peer now with
  | none => (r, none)
  | some _ =>
      (update r id (some
        { hash := hash token
          peer := peer
          expiresAt := now + ttl
          inputStream := inputStream }),
        some token)

def forget (id : Sid) :
    Registry Sid Peer Hash :=
  update r id none

def purgeExpired (now : Nat) :
    Registry Sid Peer Hash :=
  fun id => (r id).filter (fun e => now < e.expiresAt)

/-- Takes the reaper's deadlines; other entries stay until they expire. -/
def syncExpiry (deadlines : Sid → Option Nat) (now : Nat) : Registry Sid Peer Hash :=
  fun id =>
    match deadlines id with
    | some deadline => (r id).map (fun e => { e with expiresAt := deadline })
    | none => (r id).filter (fun e => now < e.expiresAt)

end Registry

/-! ## Runs -/

inductive Op (Sid Peer : Type)
  | issue (id : Sid) (peer : Peer) (ttl now : Nat) (token : List UInt8)
  | verify (id : Sid) (presented : List UInt8) (peer : Peer) (now : Nat)
  | rotate (id : Sid) (presented : List UInt8) (peer : Peer)
      (ttl inputStream now : Nat) (token : List UInt8)
  | forget (id : Sid)
  | purgeExpired (now : Nat)
  | syncExpiry (deadlines : Sid → Option Nat) (now : Nat)

inductive Reply
  | token (token : List UInt8)
  | inputStream (stream : Nat)
  | denied
  | done
  deriving DecidableEq, Repr

abbrev Event (Sid Peer : Type) := Op Sid Peer × Reply

structure Host (Sid Peer Hash : Type) where
  registry : Registry Sid Peer Hash
  trace : List (Event Sid Peer)

def Host.new : Host Sid Peer Hash :=
  { registry := fun _ => none, trace := [] }

def Registry.apply (r : Registry Sid Peer Hash) (hash : List UInt8 → Hash) :
    Op Sid Peer → Registry Sid Peer Hash × Reply
  | .issue id peer ttl now token => (r.issue hash id peer ttl now token, .token token)
  | .verify id presented peer now =>
      (r, ((r.verify hash id presented peer now).map Reply.inputStream).getD .denied)
  | .rotate id presented peer ttl inputStream now token =>
      let (r', minted) := r.rotate hash id presented peer ttl inputStream now token
      (r', (minted.map Reply.token).getD .denied)
  | .forget id => (r.forget id, .done)
  | .purgeExpired now => (r.purgeExpired now, .done)
  | .syncExpiry deadlines now => (r.syncExpiry deadlines now, .done)

def Host.step (hash : List UInt8 → Hash) (s : Host Sid Peer Hash)
    (op : Op Sid Peer) : Host Sid Peer Hash :=
  { registry := (s.registry.apply hash op).1
    trace := s.trace ++ [(op, (s.registry.apply hash op).2)] }

end Registry

/-! ## Histories -/

/-- A token as it was given out. -/
structure Minted (Sid Peer : Type) where
  id : Sid
  token : List UInt8
  peer : Peer
  expiresAt : Nat
  inputStream : Nat
  deriving DecidableEq, Repr

def minted? : Event Sid Peer → Option (Minted Sid Peer)
  | (.issue id peer ttl now _, .token token) =>
      some ⟨id, token, peer, now + ttl, FIRST_INPUT_STREAM⟩
  | (.rotate id _ peer ttl inputStream now _, .token token) =>
      some ⟨id, token, peer, now + ttl, inputStream⟩
  | _ => none

/-- The event ends the session's current credential: it returned another one,
or the session was forgotten. -/
def Ends (id : Sid) (ev : Event Sid Peer) : Prop :=
  ev.1 = .forget id ∨ ∃ m, minted? ev = some m ∧ m.id = id

def reanchor (id : Sid) (expiresAt : Nat) : Event Sid Peer → Nat
  | (.syncExpiry deadlines _, _) => (deadlines id).getD expiresAt
  | _ => expiresAt

/-- After `tr`, `m` is the token most recently returned for its session, the
session was not forgotten since, and the expiry is `expiresAt`. -/
def Standing (tr : List (Event Sid Peer)) (m : Minted Sid Peer) (expiresAt : Nat) : Prop :=
  ∃ before ev after, tr = before ++ ev :: after ∧ minted? ev = some m ∧
    (∀ e ∈ after, ¬ Ends m.id e) ∧ expiresAt = after.foldl (reanchor m.id) m.expiresAt

def presented? : Event Sid Peer → Option (List UInt8)
  | (.verify _ presented _ _, _) => some presented
  | (.rotate _ presented _ _ _ _ _, _) => some presented
  | _ => none

def rotated? : Event Sid Peer → Option (List UInt8)
  | (.rotate _ presented _ _ _ _ _, .token _) => some presented
  | _ => none

def redeemed? : Event Sid Peer → Option (List UInt8)
  | (.verify _ presented _ _, .inputStream _) => some presented
  | ev => rotated? ev

/-- Of the tokens in a trace, each is redeemed for its peer and at most once. -/
structure SingleUse (tr : List (Event Sid Peer)) : Prop where
  /-- A rotate succeeds only with the session's standing token, from the peer
  it is bound to and before its expiry. -/
  rotate : ∀ before id presented peer ttl stream now fresh token after,
    tr = before ++ (.rotate id presented peer ttl stream now fresh, .token token) :: after →
    ∃ m expiresAt, Standing before m expiresAt ∧ m.id = id ∧ m.token = presented ∧
      m.peer = peer ∧ now < expiresAt
  /-- A verify succeeds only so too, and answers the input stream that was
  recorded when the token was minted. -/
  verify : ∀ before id presented peer now stream after,
    tr = before ++ (.verify id presented peer now, .inputStream stream) :: after →
    ∃ m expiresAt, Standing before m expiresAt ∧ m.id = id ∧ m.token = presented ∧
      m.peer = peer ∧ now < expiresAt ∧ m.inputStream = stream
  /-- No two rotates succeed with the same bytes. -/
  once : ∀ before ev between ev' after presented, tr = before ++ ev :: (between ++ ev' :: after) →
    rotated? ev = some presented → rotated? ev' ≠ some presented
  /-- A token that was rotated away, or whose session was forgotten, redeems
  nothing any more. -/
  dead : ∀ before ev between ev' later ev'' after m,
    tr = before ++ ev :: (between ++ ev' :: (later ++ ev'' :: after)) →
    minted? ev = some m → Ends m.id ev' → redeemed? ev'' ≠ some m.token

/-! ## The invariant -/

namespace Standing

variable {tr : List (Event Sid Peer)} {m : Minted Sid Peer} {expiresAt : Nat}

theorem mint {ev : Event Sid Peer} (h : minted? ev = some m) :
    Standing (tr ++ [ev]) m m.expiresAt :=
  ⟨tr, ev, [], rfl, h, by simp, rfl⟩

theorem snoc (hs : Standing tr m expiresAt) {ev : Event Sid Peer}
    (hev : ¬ Ends m.id ev) : Standing (tr ++ [ev]) m (reanchor m.id expiresAt ev) := by
  obtain ⟨before, mint, after, rfl, hm, hafter, rfl⟩ := hs
  refine ⟨before, mint, after ++ [ev], by simp, hm, ?_, by rw [foldl_append]; rfl⟩
  exact forall_mem_append.2 ⟨hafter, forall_mem_singleton.2 hev⟩

end Standing

def Recorded (hash : List UInt8 → Hash) (tr : List (Event Sid Peer))
    (id : Sid) (e : Entry Peer Hash) : Prop :=
  ∃ m, m.id = id ∧ Standing tr m e.expiresAt ∧ e.hash = hash m.token ∧
    e.peer = m.peer ∧ e.inputStream = m.inputStream

theorem Recorded.snoc {hash : List UInt8 → Hash} {tr : List (Event Sid Peer)}
    {id : Sid} {e : Entry Peer Hash} (hr : Recorded hash tr id e)
    {ev : Event Sid Peer} (hev : ¬ Ends id ev) :
    Recorded hash (tr ++ [ev]) id { e with expiresAt := reanchor id e.expiresAt ev } := by
  obtain ⟨m, rfl, hs, hrest⟩ := hr
  exact ⟨m, rfl, hs.snoc hev, hrest⟩

/-- Every entry stands for the last token that was given out for its session. -/
def HostInv (hash : List UInt8 → Hash) (s : Host Sid Peer Hash) : Prop :=
  ∀ id e, s.registry id = some e → Recorded hash s.trace id e

namespace HostInv

variable {hash : List UInt8 → Hash} {s : Host Sid Peer Hash}

theorem keep (hs : HostInv hash s) {id : Sid} {e : Entry Peer Hash}
    (he : s.registry id = some e) {ev : Event Sid Peer} (hev : ¬ Ends id ev)
    (hre : reanchor id e.expiresAt ev = e.expiresAt) :
    Recorded hash (s.trace ++ [ev]) id e := by
  have h := (hs id e he).snoc hev
  rw [hre] at h
  exact h

theorem mint [DecidableEq Sid] (hs : HostInv hash s) {ev : Event Sid Peer}
    {m : Minted Sid Peer} (hm : minted? ev = some m)
    (hre : ∀ id x, reanchor id x ev = x) (hfor : ∀ id, ev.1 ≠ .forget id) :
    HostInv hash
      { registry := update s.registry m.id (some ⟨hash m.token, m.peer, m.expiresAt, m.inputStream⟩)
        trace := s.trace ++ [ev] } := by
  intro id e he
  dsimp only at he ⊢
  obtain rfl | hid := eq_or_ne id m.id
  · rw [update_self, some.injEq] at he
    subst he
    exact ⟨m, rfl, Standing.mint hm, rfl, rfl, rfl⟩
  rw [update_of_ne hid] at he
  refine hs.keep he ?_ (hre _ _)
  rintro (h | ⟨m', hm', hid'⟩)
  · exact hfor id h
  · rw [hm, some.injEq] at hm'
    subst hm'
    exact hid hid'.symm

end HostInv

def Redeemed (hash : List UInt8 → Hash) (before : List (Event Sid Peer)) :
    Event Sid Peer → Prop
  | (.rotate id presented peer _ _ now _, .token _) =>
      ∃ m expiresAt, Standing before m expiresAt ∧ m.id = id ∧
        hash m.token = hash presented ∧ m.peer = peer ∧ now < expiresAt
  | (.verify id presented peer now, .inputStream stream) =>
      ∃ m expiresAt, Standing before m expiresAt ∧ m.id = id ∧
        hash m.token = hash presented ∧ m.peer = peer ∧ now < expiresAt ∧
        m.inputStream = stream
  | _ => True

def TraceOk (hash : List UInt8 → Hash) (tr : List (Event Sid Peer)) : Prop :=
  ∀ before ev after, tr = before ++ ev :: after → Redeemed hash before ev

theorem TraceOk.snoc {hash : List UInt8 → Hash} {tr : List (Event Sid Peer)}
    (htr : TraceOk hash tr) {ev : Event Sid Peer} (hev : Redeemed hash tr ev) :
    TraceOk hash (tr ++ [ev]) := by
  intro before ev' after heq
  rcases eq_nil_or_concat after with rfl | ⟨after', last, rfl⟩
  · obtain ⟨rfl, hlast⟩ := append_inj' heq rfl
    cases hlast
    exact hev
  have hsplit : tr ++ [ev] = (before ++ ev' :: after') ++ [last] := by
    simpa using heq
  obtain ⟨htr', _⟩ := append_inj' hsplit rfl
  exact htr before ev' after' htr'

section Step

variable [DecidableEq Peer] [DecidableEq Hash]

theorem Registry.redeems_eq_some {r : Registry Sid Peer Hash} {id : Sid}
    {presented : Hash} {peer : Peer} {now : Nat} {e : Entry Peer Hash}
    (h : r.redeems id presented peer now = some e) :
    r id = some e ∧ e.hash = presented ∧ e.peer = peer ∧ now < e.expiresAt := by
  rw [Registry.redeems, filter_eq_some_iff] at h
  exact ⟨h.1, by simpa using h.2⟩

variable [DecidableEq Sid]

theorem Registry.rotate_cases (r : Registry Sid Peer Hash) (hash : List UInt8 → Hash)
    (id : Sid) (presented : List UInt8) (peer : Peer) (ttl stream now : Nat)
    (token : List UInt8) :
    r.apply hash (.rotate id presented peer ttl stream now token) = (r, .denied) ∨
      (∃ e, r id = some e ∧ e.hash = hash presented ∧ e.peer = peer ∧ now < e.expiresAt) ∧
        r.apply hash (.rotate id presented peer ttl stream now token) =
          (update r id (some ⟨hash token, peer, now + ttl, stream⟩), .token token) := by
  cases h : r.redeems id (hash presented) peer now with
  | none =>
    left
    simp [apply, rotate, h]
  | some e =>
    right
    exact ⟨⟨e, redeems_eq_some h⟩, by simp [apply, rotate, h]⟩

variable {hash : List UInt8 → Hash} {s : Host Sid Peer Hash}

theorem HostInv.step (hs : HostInv hash s) (op : Op Sid Peer) :
    HostInv hash (s.step hash op) := by
  unfold Host.step
  cases op with
  | issue id peer ttl now token =>
    exact hs.mint (m := ⟨id, token, peer, now + ttl, FIRST_INPUT_STREAM⟩) rfl
      (fun _ _ => rfl) (by simp)
  | verify id presented peer now =>
    intro id' e he
    exact hs.keep he (by simp [Ends, minted?]) rfl
  | rotate id presented peer ttl stream now token =>
    rcases s.registry.rotate_cases hash id presented peer ttl stream now token with
      h | ⟨_, h⟩
    · rw [h]
      intro id' e he
      exact hs.keep he (by simp [Ends, minted?]) rfl
    · rw [h]
      exact hs.mint (m := ⟨id, token, peer, now + ttl, stream⟩) rfl (fun _ _ => rfl) (by simp)
  | forget id =>
    intro id' e he
    have hne : id' ≠ id := by
      rintro rfl
      simp [Registry.apply, Registry.forget] at he
    have he' : s.registry id' = some e := by
      simpa [Registry.apply, Registry.forget, hne] using he
    exact hs.keep he' (by simp [Ends, minted?, hne.symm]) rfl
  | purgeExpired now =>
    intro id' e he
    have he' : s.registry id' = some e := (filter_eq_some_iff.1 he).1
    exact hs.keep he' (by simp [Ends, minted?]) rfl
  | syncExpiry deadlines now =>
    intro id' e he
    have hev : ¬ Ends id' ((.syncExpiry deadlines now, .done) : Event Sid Peer) := by
      simp [Ends, minted?]
    simp only [Registry.apply, Registry.syncExpiry] at he
    cases hd : deadlines id' with
    | none =>
      rw [hd] at he
      exact hs.keep (filter_eq_some_iff.1 he).1 hev (by simp [reanchor, hd])
    | some deadline =>
      rw [hd, map_eq_some_iff] at he
      obtain ⟨e', he', rfl⟩ := he
      have h := (hs id' e' he').snoc hev
      simp only [reanchor, hd, getD_some] at h
      exact h

theorem HostInv.redeemed (hs : HostInv hash s) (op : Op Sid Peer) :
    Redeemed hash s.trace (op, (s.registry.apply hash op).2) := by
  cases op with
  | verify id presented peer now =>
    cases h : s.registry.redeems id (hash presented) peer now with
    | none => simp [Registry.apply, Registry.verify, h, Redeemed]
    | some e =>
      obtain ⟨he, hhash, hpeer, hnow⟩ := Registry.redeems_eq_some h
      obtain ⟨m, hid, hst, hh, hp, hi⟩ := hs id e he
      simp only [Registry.apply, Registry.verify, h, map_some, getD_some, Redeemed]
      exact ⟨m, e.expiresAt, hst, hid, hh ▸ hhash, hp ▸ hpeer, hnow, hi.symm⟩
  | rotate id presented peer ttl stream now token =>
    rcases s.registry.rotate_cases hash id presented peer ttl stream now token with
      h | ⟨⟨e, he, hhash, hpeer, hnow⟩, h⟩
    · rw [h]
      trivial
    · rw [h]
      obtain ⟨m, hid, hst, hh, hp, _⟩ := hs id e he
      exact ⟨m, e.expiresAt, hst, hid, hh ▸ hhash, hp ▸ hpeer, hnow⟩
  | _ => trivial

theorem run_ok (hash : List UInt8 → Hash) (ops : List (Op Sid Peer)) :
    HostInv hash (ops.foldl (Host.step hash) Host.new) ∧
      TraceOk hash (ops.foldl (Host.step hash) (Host.new : Host Sid Peer Hash)).trace := by
  refine List.foldlRecOn ops _ (motive := fun s => HostInv hash s ∧ TraceOk hash s.trace) ?_
    fun s hs op _ => ⟨hs.1.step op, hs.2.snoc (hs.1.redeemed op)⟩
  refine ⟨nofun, fun before ev after heq => ?_⟩
  simp [Host.new] at heq

end Step

/-! ## Single use -/

section SingleUse

variable {hash : List UInt8 → Hash} {tr : List (Event Sid Peer)}

variable {before after : List (Event Sid Peer)} {ev ev' : Event Sid Peer}
   {presented : List UInt8}

section

variable (hnd : ((tr.filterMap minted?).map (fun m => hash m.token)).Nodup)
include hnd

theorem minted_ne {between : List (Event Sid Peer)}
    {m m' : Minted Sid Peer} (h : tr = before ++ ev :: (between ++ ev' :: after))
    (hm : minted? ev = some m) (hm' : minted? ev' = some m') :
    hash m.token ≠ hash m'.token := by
  rw [h, filterMap_append, filterMap_cons_some hm, filterMap_append,
    filterMap_cons_some hm', map_append, map_cons, map_append,
    map_cons] at hnd
  have hcons := (nodup_append.1 hnd).2.1
  intro heq
  refine (nodup_cons.1 hcons).1 ?_
  rw [heq]
  exact mem_append_right _ mem_cons_self

theorem minted_unique {before' after' : List (Event Sid Peer)} {m m' : Minted Sid Peer}
    (h : tr = before ++ ev :: after) (h' : tr = before' ++ ev' :: after')
    (hm : minted? ev = some m) (hm' : minted? ev' = some m')
    (heq : hash m.token = hash m'.token) : ev = ev' ∧ after = after' := by
  rcases append_eq_append_iff.1 (h ▸ h') with ⟨mid, hb, hrest⟩ | ⟨mid, hb, hrest⟩
  · cases mid with
    | nil => exact List.cons.inj hrest
    | cons x mid =>
      obtain ⟨rfl, rfl⟩ := List.cons.inj hrest
      exact absurd heq (minted_ne hnd h hm hm')
  cases mid with
  | nil =>
    obtain ⟨rfl, rfl⟩ := List.cons.inj hrest
    exact ⟨rfl, rfl⟩
  | cons x mid =>
    obtain ⟨rfl, rfl⟩ := List.cons.inj hrest
    exact absurd heq.symm (minted_ne hnd h' hm' hm)

end

theorem TraceOk.standing (htr : TraceOk hash tr) (h : tr = before ++ ev :: after)
    (hred : redeemed? ev = some presented) :
    ∃ m expiresAt, Standing before m expiresAt ∧ hash m.token = hash presented := by
  have hok := htr before ev after h
  obtain ⟨op, reply⟩ := ev
  cases op <;> cases reply <;> simp only [redeemed?, rotated?, reduceCtorEq, some.injEq] at hred
  all_goals
    subst hred
    obtain ⟨m, x, hs, _, hh, _⟩ := hok
    exact ⟨m, x, hs, hh⟩

theorem TraceOk.dead (htr : TraceOk hash tr)
    (hnd : ((tr.filterMap minted?).map (fun m => hash m.token)).Nodup)
    {between later : List (Event Sid Peer)}
    {ev'' : Event Sid Peer} {m : Minted Sid Peer}
    (h : tr = before ++ ev :: (between ++ ev' :: (later ++ ev'' :: after)))
    (hm : minted? ev = some m) (hend : Ends m.id ev')
    (hhash : hash m.token = hash presented) : redeemed? ev'' ≠ some presented := by
  intro hred
  have hsplit : tr = (before ++ ev :: (between ++ ev' :: later)) ++ ev'' :: after := by
    simpa using h
  obtain ⟨m', x, ⟨before', mint, mid, hpre, hm', hmid, _⟩, hh⟩ := htr.standing hsplit hred
  have hsplit' : tr = before' ++ mint :: (mid ++ ev'' :: after) := by
    rw [hsplit, hpre]
    simp
  obtain ⟨rfl, hafter⟩ := minted_unique hnd h hsplit' hm hm' (hhash.trans hh.symm)
  have hmid' : between ++ ev' :: later = mid := by
    have hassoc : (between ++ ev' :: later) ++ ev'' :: after = mid ++ ev'' :: after := by
      simpa using hafter
    exact append_cancel_right hassoc
  rw [hm, some.injEq] at hm'
  subst hm' hmid'
  exact hmid ev' (mem_append_right _ mem_cons_self) hend

theorem redeemed?_of_rotated?
    (h : rotated? ev = some presented) : redeemed? ev = some presented := by
  obtain ⟨op, reply⟩ := ev
  cases op <;> cases reply <;> simp_all [rotated?, redeemed?]

theorem TraceOk.once (htr : TraceOk hash tr)
    (hnd : ((tr.filterMap minted?).map (fun m => hash m.token)).Nodup)
    {between : List (Event Sid Peer)} (h : tr = before ++ ev :: (between ++ ev' :: after))
    (hrot : rotated? ev = some presented) : redeemed? ev' ≠ some presented := by
  have hok := htr before ev _ h
  obtain ⟨op, reply⟩ := ev
  cases op <;> cases reply <;> simp only [rotated?, reduceCtorEq, some.injEq] at hrot
  subst hrot
  obtain ⟨m, x, ⟨before', mint, mid, rfl, hm, _⟩, hid, hh, _⟩ := hok
  rw [append_assoc, cons_append] at h
  exact htr.dead hnd h hm (.inr ⟨_, rfl, hid.symm⟩) hh

end SingleUse

/-- For every interleaving of the six operations, by any number of peers with
any bytes: when the tokens that were returned have pairwise different hashes
and nothing presented collides with one of them, credentials are
single-generation and single-use. -/
theorem resume_single_use [DecidableEq Sid] [DecidableEq Peer] [DecidableEq Hash]
    (hash : List UInt8 → Hash) (ops : List (Op Sid Peer))
    (tr : List (Event Sid Peer))
    (htr : tr = (ops.foldl (Host.step hash) (Host.new : Host Sid Peer Hash)).trace)
    (hnd : ((tr.filterMap minted?).map (fun m => hash m.token)).Nodup)
    (hcr : ∀ ev ∈ tr, ∀ presented, presented? ev = some presented →
      ∀ m ∈ tr.filterMap minted?, hash m.token = hash presented → m.token = presented) :
    SingleUse tr := by
  have hok : TraceOk hash tr := htr ▸ (run_ok hash ops).2
  have hmem : ∀ {before ev after m x}, tr = before ++ ev :: after →
      Standing before m x → m ∈ tr.filterMap minted? := by
    rintro before ev after m x h ⟨b, mint, a, rfl, hm, _⟩
    rw [h]
    exact mem_filterMap.2 ⟨mint, by simp, hm⟩
  refine ⟨?_, ?_, ?_, ?_⟩
  · intro before id presented peer ttl stream now fresh token after h
    obtain ⟨m, x, hs, hid, hh, hp, hx⟩ := hok _ _ _ h
    have hin := h ▸ mem_append_right before mem_cons_self
    exact ⟨m, x, hs, hid, hcr _ hin presented rfl m (hmem h hs) hh, hp, hx⟩
  · intro before id presented peer now stream after h
    obtain ⟨m, x, hs, hid, hh, hp, hx, hi⟩ := hok _ _ _ h
    have hin := h ▸ mem_append_right before mem_cons_self
    exact ⟨m, x, hs, hid, hcr _ hin presented rfl m (hmem h hs) hh, hp, hx, hi⟩
  · intro before ev between ev' after presented h hrot hrot'
    exact hok.once hnd h hrot (redeemed?_of_rotated? hrot')
  · intro before ev between ev' later ev'' after m h hm hend
    exact hok.dead hnd h hm hend rfl

/-- Two clients race on one token; then the session's expiry is synced, the
winner's token is checked, and the session is forgotten. -/
def race : List (Op Nat Nat) :=
  [.issue 7 1 60 0 [1], .verify 7 [1] 1 5, .verify 7 [1] 1 5,
    .rotate 7 [1] 1 60 2 6 [2], .rotate 7 [1] 1 60 3 6 [3],
    .syncExpiry (fun id => if id = 7 then some 200 else none) 100,
    .verify 7 [2] 1 150, .forget 7, .verify 7 [2] 1 151]

theorem resume_single_use_race :
    (((race.foldl (Host.step (fun t => t)) (Host.new : Host Nat Nat (List UInt8))).trace.filterMap
      minted?).map (fun m => m.token)).Nodup ∧
    SingleUse (race.foldl (Host.step (fun t => t))
      (Host.new : Host Nat Nat (List UInt8))).trace := by
  have hnd : (((race.foldl (Host.step (fun t => t))
      (Host.new : Host Nat Nat (List UInt8))).trace.filterMap
        minted?).map (fun m => m.token)).Nodup := by
    decide
  exact ⟨hnd, resume_single_use (fun t => t) race _ rfl hnd (fun _ _ _ _ _ _ h => h)⟩

end Qsh.Broker.Resume
