import Mathlib.Data.Fintype.Basic
import Qsh.Lib.Update
import Qsh.Broker.Reaper

/-!
# Runs of the reaper

* Credentials.  A session that is attached or within its TTL can be resumed, as
  long as the passes come often enough and none hands over a deadline that its
  session has left behind.
* Attachments.  The reaper closes no attached session, as long as nobody
  attaches between the decision and the actor's turn.
-/

namespace Qsh.Broker

open Qsh.Lib Function Option List

variable {Sid Peer Hash : Type}

namespace BrokerState

/-! ## Credentials and sessions -/

/-- The session is open and a token for it has been issued. -/
def Resumable (s : BrokerState Sid Peer Hash) (id : Sid) (m : Meta) : Prop :=
  m.closedAt = none ∧ (s.newest id).isSome = true

/-- The session is attached, its token was minted since the last pass, or the
next pass is due before its TTL has run out. -/
def InTime (tick : Nat) (s : BrokerState Sid Peer Hash) (id : Sid) (m : Meta) :
    Prop :=
  0 < m.attached ∨ s.fresh id = true ∨ s.lastSync + tick ≤ m.ttlBase + s.resumeTtl

/-- What a pass measured still stands: the session's deadline has not moved on
since, or the measured one lies behind the next pass.  A session that it did not
see has got its token since the last pass. -/
def UpToDate (tick : Nat) (s : BrokerState Sid Peer Hash) (p : ReapPass Sid)
    (id : Sid) (m : Meta) : Prop :=
  (∀ deadline ∈ p.deadlines id, m.deadline p.now s.resumeTtl ≤ deadline ∨ p.now + tick ≤ deadline) ∧
  (p.deadlines id = none → s.fresh id = true)

/-- The deadlines are handed over at least every `tick`, and they are up to date;
an attachment or an exit that moves the deadline of a session comes in time for
the next pass. -/
def Timely (tick : Nat) (s : BrokerState Sid Peer Hash) : BrokerOp Sid Peer → Prop
  | .advance now => now < s.lastSync + tick
  | .attachGuard id => ∀ m ∈ s.registry id, s.Resumable id m → InTime tick s id m
  | .exit id => ∀ m ∈ s.registry id, s.Resumable id m → InTime tick s id m
  | .reapSync i => ∀ p ∈ s.passes[i]?, s.clock < p.now + tick ∧
      ∀ id, ∀ m ∈ s.registry id, s.Resumable id m → UpToDate tick s p id m
  | _ => True

structure Covers (next ttl : Nat) (fresh : Bool) (m : Meta) (expiresAt : Nat) : Prop where
  due : next ≤ expiresAt ∨ m.ttlBase + ttl ≤ expiresAt
  held : 0 < m.attached ∨ fresh = true → next ≤ expiresAt

/-- What every step keeps: the stored credential of a session is its newest
token, and its expiry covers the session. -/
structure CredentialInv (tick : Nat) (hash : List UInt8 → Hash)
    (s : BrokerState Sid Peer Hash) : Prop where
  ttl : tick ≤ s.resumeTtl
  prompt : s.clock < s.lastSync + tick
  synced : s.lastSync ≤ s.clock
  begun : ∀ p ∈ s.passes, p.now ≤ s.clock
  unopened : ∀ id, s.opened id = false →
    s.registry id = none ∧ s.newest id = none ∧ s.resume id = none
  stored : ∀ id, ∀ m ∈ s.registry id, m.closedAt = none → ∀ t p, s.newest id = some (t, p) →
    ∃ e, s.resume id = some e ∧ e.hash = hash t ∧ e.peer = p ∧
      Covers (s.lastSync + tick) s.resumeTtl (s.fresh id) m e.expiresAt
  unseen : ∀ p ∈ s.passes, p.stage ≠ .begun → ∀ id, p.deadlines id = none →
    ∀ m ∈ s.registry id, s.fresh id = true → ∀ e ∈ s.resume id, p.now + s.resumeTtl ≤ e.expiresAt

namespace Covers

variable {next ttl : Nat} {fresh : Bool} {m : Meta} {expiresAt : Nat}

theorem of_le (h : next ≤ expiresAt) : Covers next ttl fresh m expiresAt :=
  ⟨.inl h, fun _ => h⟩

theorem le_of_inTime (h : Covers next ttl fresh m expiresAt)
    (htime : 0 < m.attached ∨ fresh = true ∨ next ≤ m.ttlBase + ttl) : next ≤ expiresAt := by
  rcases htime with hatt | hfresh | hbase
  · exact h.held (.inl hatt)
  · exact h.held (.inr hfresh)
  · rcases h.due with hle | hle
    · exact hle
    · exact hbase.trans hle

theorem lt_of_live (h : Covers next ttl fresh m expiresAt) {clock : Nat} (hprompt : clock < next)
    (hlive : 0 < m.attached ∨ clock < m.ttlBase + ttl) : clock < expiresAt := by
  rcases hlive with hatt | hbase
  · have := h.held (.inl hatt)
    omega
  · have := h.due
    omega

end Covers

namespace CredentialInv

variable {tick : Nat} {hash : List UInt8 → Hash} {s : BrokerState Sid Peer Hash}

theorem init {resumeTtl : Nat} (hpos : 0 < tick) (hle : tick ≤ resumeTtl) :
    CredentialInv tick hash (new resumeTtl : BrokerState Sid Peer Hash) where
  ttl := hle
  prompt := by
    show 0 < 0 + tick
    omega
  synced := le_rfl
  begun := nofun
  unopened := fun _ _ => ⟨rfl, rfl, rfl⟩
  stored := nofun
  unseen := nofun

section

variable (hs : CredentialInv tick hash s)
include hs

theorem opened_of_registry {id : Sid} {m : Meta}
    (hm : s.registry id = some m) : s.opened id = true := by
  by_contra h
  rw [(hs.unopened id (Bool.not_eq_true _ ▸ h)).1] at hm
  nomatch hm

theorem opened_of_resume {id : Sid}
    {e : Resume.Entry Peer Hash} (he : s.resume id = some e) : s.opened id = true := by
  by_contra h
  rw [(hs.unopened id (Bool.not_eq_true _ ▸ h)).2.2] at he
  nomatch he

variable {i : Nat} {q p : ReapPass Sid}

theorem setPass (hnow : q.now ≤ s.clock)
    (hq : q.stage ≠ .begun → ∀ id, q.deadlines id = none → ∀ m ∈ s.registry id,
      s.fresh id = true → ∀ e ∈ s.resume id, q.now + s.resumeTtl ≤ e.expiresAt) :
    CredentialInv tick hash { s with passes := s.passes.set i q } :=
  { hs with
    begun := by
      intro p hp
      rcases mem_or_eq_of_mem_set hp with hp | rfl
      · exact hs.begun p hp
      · exact hnow
    unseen := by
      intro p hp
      rcases mem_or_eq_of_mem_set hp with hp | rfl
      · exact hs.unseen p hp
      · exact hq }

theorem keepPass (hp : p ∈ s.passes) (hstage : p.stage ≠ .begun) (hnow : q.now = p.now)
    (hdead : q.deadlines = p.deadlines) :
    CredentialInv tick hash { s with passes := s.passes.set i q } := by
  refine hs.setPass (hnow ▸ hs.begun p hp) fun _ id hid => ?_
  rw [hnow]
  exact hs.unseen p hp hstage id (hdead ▸ hid)

theorem sync (hp : p ∈ s.passes) (hstage : p.stage ≠ .begun) (hclock : s.clock < p.now + tick)
    (hdate : ∀ id, ∀ m ∈ s.registry id, s.Resumable id m → UpToDate tick s p id m) :
    CredentialInv tick hash { s with
      resume := s.resume.syncExpiry p.deadlines s.clock
      lastSync := p.now
      fresh := fun _ => false } where
  __ := hs
  prompt := hclock
  synced := hs.begun p hp
  unopened := by
    intro k hk
    obtain ⟨h1, h2, h3⟩ := hs.unopened k hk
    refine ⟨h1, h2, ?_⟩
    simp only [Resume.Registry.syncExpiry, h3]
    split <;> rfl
  stored := by
    intro k m hm hclosed t q ht
    obtain ⟨e, he, hhash, hpeer, hcov⟩ := hs.stored k m hm hclosed t q ht
    obtain ⟨hseen, hnew⟩ := hdate k m hm ⟨hclosed, by rw [show s.newest k = _ from ht]; rfl⟩
    have hle := hs.ttl
    simp only [Resume.Registry.syncExpiry, he]
    cases hd : p.deadlines k with
    | some d =>
      refine ⟨{ e with expiresAt := d }, rfl, hhash, hpeer, ?_⟩
      have hnew := hseen d hd
      unfold Meta.deadline at hnew
      -- an attached session is measured from the reading of the pass itself
      split at hnew
      · exact .of_le (show p.now + tick ≤ d by omega)
      rename_i hatt
      refine ⟨?_, ?_⟩
      · show p.now + tick ≤ d ∨ m.ttlBase + s.resumeTtl ≤ d
        omega
      · rintro (h | h)
        · exact absurd h hatt
        · exact absurd h Bool.false_ne_true
    | none =>
      have hminted := hs.unseen p hp hstage k hd m hm (hnew hd) e he
      refine ⟨e, ?_, hhash, hpeer, .of_le (show p.now + tick ≤ e.expiresAt by omega)⟩
      exact filter_eq_some_iff.2 ⟨rfl, decide_eq_true (by omega)⟩
  unseen := fun _ _ _ _ _ _ _ h => absurd h Bool.false_ne_true

theorem sweep (expired : Sid → Bool) :
    CredentialInv tick hash { s with
      registry := fun id => if expired id = true then none else s.registry id } :=
  { hs with
    unopened := by
      intro k hk
      obtain ⟨h1, h2, h3⟩ := hs.unopened k hk
      exact ⟨by simp [h1], h2, h3⟩
    stored := fun k m hm => hs.stored k m (ite_none_left_eq_some.1 hm).2
    unseen := fun p hp hstage k hk m hm =>
      hs.unseen p hp hstage k hk m (ite_none_left_eq_some.1 hm).2 }

end

section Steps

variable [DecidableEq Sid]

section

variable (hs : CredentialInv tick hash s)
include hs

variable {id : Sid}

theorem modify {m m' : Meta}
    (hm : s.registry id = some m) (hclosed : m'.closedAt = none → m.closedAt = none)
    (hcov : ∀ x, s.Resumable id m → Covers (s.lastSync + tick) s.resumeTtl (s.fresh id) m x →
      Covers (s.lastSync + tick) s.resumeTtl (s.fresh id) m' x) :
    CredentialInv tick hash { s with
      registry := update s.registry id (some m') } :=
  { hs with
    unopened := by
      intro k hk
      have hne : k ≠ id := by
        rintro rfl
        cases (hs.opened_of_registry hm).symm.trans hk
      obtain ⟨h1, h2, h3⟩ := hs.unopened k hk
      exact ⟨(update_of_ne hne _ _).trans h1, h2, h3⟩
    stored := by
      intro k n hk hn t q ht
      rcases update_cases hk with ⟨rfl, ⟨⟩⟩ | ⟨-, hk⟩
      · obtain ⟨e, he, hhash, hpeer, hold⟩ := hs.stored k m hm (hclosed hn) t q ht
        have hres : s.Resumable k m :=
          ⟨hclosed hn, by rw [show s.newest k = _ from ht]; rfl⟩
        exact ⟨e, he, hhash, hpeer, hcov _ hres hold⟩
      · exact hs.stored k n hk hn t q ht
    unseen := by
      intro p hp hstage k hk n hn
      rcases update_cases hn with ⟨rfl, -⟩ | ⟨-, hn⟩
      · exact hs.unseen p hp hstage k hk m hm
      · exact hs.unseen p hp hstage k hk n hn }

theorem mint {peer : Peer} {token : List UInt8} {stream : Nat} (hopen : s.opened id = true) :
    CredentialInv tick hash { s.minted id peer token with
      resume := update s.resume id (some
        { hash := hash token
          peer := peer
          expiresAt := s.clock + s.resumeTtl
          inputStream := stream }) } where
  __ := hs
  unopened := by
    intro k hk
    have hne : k ≠ id := by
      rintro rfl
      cases hopen.symm.trans hk
    obtain ⟨h1, h2, h3⟩ := hs.unopened k hk
    exact ⟨h1, (update_of_ne hne _ _).trans h2, (update_of_ne hne _ _).trans h3⟩
  stored := by
    intro k n hk hn t q ht
    have hle := hs.ttl
    have hsync := hs.synced
    rcases update_cases ht with ⟨rfl, ⟨⟩⟩ | ⟨hne, ht⟩
    · refine ⟨_, update_self _ _ _, rfl, rfl, .of_le ?_⟩
      show s.lastSync + tick ≤ s.clock + s.resumeTtl
      omega
    obtain ⟨e, he, hhash, hpeer, hold⟩ := hs.stored k n hk hn t q ht
    refine ⟨e, (update_of_ne hne _ _).trans he, hhash, hpeer, hold.due, ?_⟩
    rintro (h | h)
    · exact hold.held (.inl h)
    · exact hold.held (.inr ((update_of_ne hne _ _).symm.trans h))
  unseen := by
    intro p hp hstage k hk n hn hfresh e he
    have hnow := hs.begun p hp
    rcases update_cases he with ⟨rfl, ⟨⟩⟩ | ⟨hne, he⟩
    · show p.now + s.resumeTtl ≤ s.clock + s.resumeTtl
      omega
    · exact hs.unseen p hp hstage k hk n hn ((update_of_ne hne _ _).symm.trans hfresh) e he

theorem insert (hid : s.opened id = false) :
    CredentialInv tick hash { s with
      registry := update s.registry id (some (.new s.clock))
      opened := update s.opened id true } :=
  { hs with
    unopened := by
      intro k hk
      obtain ⟨-, ⟨⟩⟩ | ⟨hne, hk⟩ := update_cases hk
      obtain ⟨h1, h2, h3⟩ := hs.unopened k hk
      exact ⟨(update_of_ne hne _ _).trans h1, h2, h3⟩
    stored := by
      intro k n hk hn t p ht
      rcases update_cases hk with ⟨rfl, -⟩ | ⟨-, hk⟩
      · nomatch (hs.unopened k hid).2.1.symm.trans ht
      · exact hs.stored k n hk hn t p ht
    unseen := by
      intro p hp hstage k hk n hn hfresh e he
      rcases update_cases hn with ⟨rfl, -⟩ | ⟨-, hn⟩
      · cases (hs.unopened k hid).2.2.symm.trans he
      · exact hs.unseen p hp hstage k hk n hn hfresh e he }

theorem forget (hclosed : (s.registry id).all (fun m => m.closedAt.isSome) = true) :
    CredentialInv tick hash { s with resume := s.resume.forget id } :=
  { hs with
    unopened := by
      intro k hk
      obtain ⟨h1, h2, h3⟩ := hs.unopened k hk
      refine ⟨h1, h2, ?_⟩
      obtain rfl | hki := eq_or_ne k id
      · exact update_self _ _ _
      · exact (update_of_ne hki _ _).trans h3
    stored := by
      intro k m hm hn t p ht
      have hki : k ≠ id := by
        rintro rfl
        rw [show s.registry k = some m from hm] at hclosed
        simp [hn] at hclosed
      obtain ⟨e, he, hhash, hpeer, hold⟩ := hs.stored k m hm hn t p ht
      exact ⟨e, (update_of_ne hki _ _).trans he, hhash, hpeer, hold⟩
    unseen := by
      intro p hp hstage k hk n hn hfresh e he
      obtain ⟨-, ⟨⟩⟩ | ⟨-, he⟩ := update_cases he
      exact hs.unseen p hp hstage k hk n hn hfresh e he }

end

end Steps

section Run

variable [DecidableEq Sid] [DecidableEq Peer] [DecidableEq Hash]

theorem step {s' : BrokerState Sid Peer Hash} {op : BrokerOp Sid Peer}
    (htime : Timely tick s op) (h : s.step hash op = some s') (hs : CredentialInv tick hash s) :
    CredentialInv tick hash s' := by
  cases op with
  | advance now =>
    obtain ⟨hle, rfl⟩ := ite_some_none_eq_some.1 h
    exact
      { hs with
        prompt := htime
        synced := hs.synced.trans hle
        begun := fun p hp => (hs.begun p hp).trans hle }
  | «open» id =>
    obtain ⟨hid, h⟩ := ite_none_left_eq_some.1 h
    cases h
    exact hs.insert (Bool.not_eq_true _ ▸ hid)
  | issue id peer token =>
    obtain ⟨m, hm, rfl⟩ := map_eq_some_iff.1 h
    exact hs.mint (hs.opened_of_registry hm)
  | rotate id presented peer inputStream token =>
    rcases rotate_some h with rfl | ⟨⟨e, he⟩, rfl⟩
    · exact hs
    · exact hs.mint (hs.opened_of_resume he)
  | attachGuard id =>
    obtain ⟨m, m', hm, hf, rfl⟩ := modify_some h
    cases hf
    exact hs.modify hm (fun h => h) fun x hres hcov =>
      .of_le (hcov.le_of_inTime (htime m hm hres))
  | dropGuard id =>
    obtain ⟨m, m', hm, hf, rfl⟩ := modify_some h
    obtain ⟨hpos, rfl⟩ := ite_some_none_eq_some.1 hf
    exact hs.modify hm (fun h => h) fun x _ hcov => .of_le (hcov.held (.inl hpos))
  | exit id =>
    obtain ⟨m, m', hm, hf, rfl⟩ := modify_some h
    obtain ⟨-, rfl⟩ := ite_some_none_eq_some.1 hf
    exact hs.modify hm (fun h => h) fun x hres hcov =>
      .of_le (hcov.le_of_inTime (htime m hm hres))
  | close id =>
    obtain ⟨m, m', hm, hf, rfl⟩ := modify_some h
    cases hf
    exact hs.modify hm (fun h => h) fun x _ hcov => ⟨hcov.due, hcov.held⟩
  | markClosed id =>
    obtain ⟨m, m', hm, hf, rfl⟩ := modify_some h
    obtain ⟨⟨-, hopen⟩, rfl⟩ := ite_some_none_eq_some.1 hf
    exact hs.modify hm (fun _ => hopen) fun x _ hcov => ⟨hcov.due, hcov.held⟩
  | forget id =>
    obtain ⟨hclosed, rfl⟩ := ite_some_none_eq_some.1 h
    exact hs.forget hclosed
  | reapBegin =>
    cases h
    exact { hs with
      begun := forall_mem_append.2 ⟨hs.begun, forall_mem_singleton.2 le_rfl⟩
      unseen := forall_mem_append.2
        ⟨hs.unseen, forall_mem_singleton.2 fun hstage => absurd rfl hstage⟩ }
  | reapMeasure i =>
    obtain ⟨p, hp, -, -, hf⟩ := onPass_some h
    cases hf
    refine hs.setPass (hs.begun p hp) fun _ id hid m hm => ?_
    have hnone : s.registry id = none := map_eq_none_iff.1 hid
    cases hnone.symm.trans hm
  | reapDecide i =>
    obtain ⟨p, hp, -, hstage, hf⟩ := onPass_some h
    cases hf
    exact hs.keepPass hp (by rw [hstage]; decide) rfl rfl
  | reapSweep i =>
    obtain ⟨p, hp, -, hstage, hf⟩ := onPass_some h
    cases hf
    exact (hs.sweep p.expired).keepPass hp (by rw [hstage]; decide) rfl rfl
  | reapSync i =>
    obtain ⟨p, hp, hi, hstage, hf⟩ := onPass_some h
    cases hf
    have hne : p.stage ≠ .begun := by rw [hstage]; decide
    obtain ⟨hclock, hdate⟩ := htime p hi
    exact (hs.sync hp hne hclock hdate).keepPass hp hne rfl rfl
  | reapSend i id =>
    obtain ⟨p, hp, -, hstage, hf⟩ := onPass_some h
    obtain ⟨reason, -, rfl⟩ := map_eq_some_iff.1 hf
    have hset := hs.keepPass (i := i) (q := { p with doomed := update p.doomed id none })
      hp (by rw [hstage]; decide) rfl rfl
    exact { hset with }
  | acceptClose id =>
    simp only [BrokerState.step] at h
    split at h
    · nomatch h
    rename_i reason rest _
    have hc : CredentialInv tick hash { s with closes := update s.closes id rest } :=
      { hs with }
    obtain ⟨m, m', hm, hf, rfl⟩ := modify_some h
    obtain ⟨hopen, rfl⟩ := ite_some_none_eq_some.1 hf
    exact hc.modify hm (fun _ => hopen) fun x _ hcov => ⟨hcov.due, hcov.held⟩

end Run

end CredentialInv

instance [Fintype Sid] (tick : Nat) (s : BrokerState Sid Peer Hash)
    (op : BrokerOp Sid Peer) : Decidable (Timely tick s op) := by
  unfold Timely Resumable InTime UpToDate
  split <;> infer_instance

end BrokerState

section Credentials

variable [DecidableEq Sid] [DecidableEq Peer] [DecidableEq Hash]

open BrokerState

/-- In a run whose steps are timely, a session that is not closed and is
attached or within its TTL can be resumed with the newest token. -/
theorem credential_outlives_session {hash : List UInt8 → Hash} {tick resumeTtl : Nat}
    (hpos : 0 < tick) (hle : tick ≤ resumeTtl)
    {ops : List (BrokerOp Sid Peer)} {s : BrokerState Sid Peer Hash}
    (h : Run (BrokerState.step hash) (Timely tick) (.new resumeTtl) ops s)
    {id : Sid} {m : Meta} {token : List UInt8} {peer : Peer}
    (hm : s.registry id = some m) (hopen : m.closedAt = none)
    (hlive : 0 < m.attached ∨ s.clock < m.ttlBase + s.resumeTtl)
    (hnewest : s.newest id = some (token, peer)) :
    (s.resume.verify hash id token peer s.clock).isSome = true := by
  have hs : CredentialInv tick hash s :=
    h.invariant (fun _ _ _ hC hstep hs => hs.step hC hstep) (.init hpos hle)
  obtain ⟨e, he, hhash, hpeer, hcov⟩ := hs.stored id m hm hopen token peer hnewest
  have hlt := hcov.lt_of_live hs.prompt hlive
  simp [Resume.Registry.verify, Resume.Registry.redeems, he, hhash, hpeer, hlt]

def attachedPastTtl : List (BrokerOp Unit Nat) :=
  [.open (), .issue () 9 [1], .attachGuard (), .advance 30, .reapBegin, .reapMeasure 0,
    .reapDecide 0, .reapSweep 0, .reapSync 0, .advance 60, .reapBegin, .reapMeasure 1,
    .reapDecide 1, .reapSweep 1, .reapSync 1, .advance 90]

theorem credential_outlives_session_attached :
    ∃ s : BrokerState Unit Nat (List UInt8),
      Run (BrokerState.step id) (Timely 31) (.new 75) attachedPastTtl s ∧ s.clock = 90 ∧
      (s.resume.verify id () [1] 9 s.clock).isSome = true := by
  have hrun : Run (BrokerState.step id) (Timely 31)
      (.new 75 : BrokerState Unit Nat (List UInt8)) attachedPastTtl _ :=
    .of_execWhere rfl
  exact ⟨_, hrun, rfl, credential_outlives_session (by decide) (by decide) hrun rfl rfl
    (.inl (by decide)) rfl⟩

/-- A pass every 30 seconds and a TTL of 75.  An attach is granted after 59
seconds.  The pass after 60 measures the session before the attachment begins,
and hands over what it measured afterwards. -/
def measuredTooEarly : List (BrokerOp Unit Nat) :=
  [.open (), .issue () 9 [1], .advance 30, .reapBegin, .reapMeasure 0, .reapDecide 0,
    .reapSweep 0, .reapSync 0, .advance 59, .rotate () [1] 9 2 [2], .advance 60, .reapBegin,
    .reapMeasure 1, .reapDecide 1, .attachGuard (), .reapSweep 1, .reapSync 1, .advance 75]

/-- The session is attached, and its newest token has expired. -/
theorem credential_lapses_under_attachment :
    ∃ (s : BrokerState Unit Nat (List UInt8)) (m : Meta),
      Run (BrokerState.step id) (fun _ _ => True) (.new 75) measuredTooEarly s ∧
      s.registry () = some m ∧ m.closedAt = none ∧ m.attached = 1 ∧
      s.newest () = some ([2], 9) ∧ s.resume.verify id () [2] 9 s.clock = none := by
  exact ⟨_, _, .of_execWhere rfl, rfl, rfl, rfl, rfl, by decide⟩

end Credentials

/-! ## Doomed sessions -/

namespace BrokerState

/-- A pass has decided to close the session, and its actor has not taken the
`Close` yet. -/
def Doomed (s : BrokerState Sid Peer Hash) (id : Sid) : Prop :=
  (∃ p ∈ s.passes, (p.doomed id).isSome = true) ∨ s.closes id ≠ []

/-- The session was opened and nobody is attached to it. -/
def Unattached (s : BrokerState Sid Peer Hash) (id : Sid) : Prop :=
  s.opened id = true ∧ ∀ m ∈ s.registry id, m.attached = 0

/-- Nobody attaches to a session that a pass has decided to reap. -/
def SparesDoomed (s : BrokerState Sid Peer Hash) : BrokerOp Sid Peer → Prop
  | .attachGuard id => ¬s.Doomed id
  | _ => True

instance (s : BrokerState Sid Peer Hash) (op : BrokerOp Sid Peer) :
    Decidable (s.SparesDoomed op) := by
  unfold SparesDoomed Doomed
  split <;> infer_instance

structure DoomedInv (s : BrokerState Sid Peer Hash) : Prop where
  opened : ∀ id, ∀ m ∈ s.registry id, s.opened id = true
  unattached : ∀ id, s.Doomed id → s.Unattached id

theorem doomed_setPass {s : BrokerState Sid Peer Hash} {i : Nat} {q : ReapPass Sid} {id : Sid}
    (h : { s with passes := s.passes.set i q }.Doomed id) :
    (q.doomed id).isSome = true ∨ s.Doomed id := by
  rcases h with ⟨p, hp, hd⟩ | hc
  · rcases mem_or_eq_of_mem_set hp with hp | rfl
    · exact .inr (.inl ⟨p, hp, hd⟩)
    · exact .inl hd
  · exact .inr (.inr hc)

theorem unattached_of_reapReason {m : Meta} {now ttl : Nat} {reason : CloseReason}
    (h : m.reapReason now ttl = some reason) : m.attached = 0 := by
  unfold Meta.reapReason at h
  split at h
  · nomatch h
  · omega

namespace DoomedInv

variable {s : BrokerState Sid Peer Hash}

theorem init (resumeTtl : Nat) :
    DoomedInv (new resumeTtl : BrokerState Sid Peer Hash) where
  opened := nofun
  unattached := by
    rintro id (⟨p, ⟨⟩, -⟩ | hc)
    exact absurd rfl hc

theorem setPass (hs : DoomedInv s) {i : Nat} {q : ReapPass Sid}
    (hq : ∀ id, (q.doomed id).isSome = true → s.Unattached id) :
    DoomedInv { s with passes := s.passes.set i q } where
  opened := hs.opened
  unattached := fun id h => (doomed_setPass h).elim (hq id) (hs.unattached id)

theorem keepPass (hs : DoomedInv s) {i : Nat} {p q : ReapPass Sid} (hp : p ∈ s.passes)
    (hq : q.doomed = p.doomed) : DoomedInv { s with passes := s.passes.set i q } :=
  hs.setPass fun id hd => hs.unattached id (.inl ⟨p, hp, hq ▸ hd⟩)

section Steps

variable [DecidableEq Sid]

variable {id : Sid}

theorem modify (hs : DoomedInv s) {m m' : Meta}
    (hm : s.registry id = some m) (hatt : s.Doomed id → m'.attached ≤ m.attached) :
    DoomedInv { s with registry := update s.registry id (some m') } where
  opened := by
    intro k n hk
    rcases update_cases hk with ⟨rfl, -⟩ | ⟨-, hk⟩
    · exact hs.opened k m hm
    · exact hs.opened k n hk
  unattached := by
    intro k hd
    obtain ⟨hopen, hzero⟩ := hs.unattached k hd
    refine ⟨hopen, fun n hk => ?_⟩
    rcases update_cases hk with ⟨rfl, ⟨⟩⟩ | ⟨-, hk⟩
    · have hle := hatt hd
      have hz := hzero m hm
      omega
    · exact hzero n hk

theorem insert (hs : DoomedInv s) (hid : s.opened id = false) :
    DoomedInv { s with
      registry := update s.registry id (some (.new s.clock))
      opened := update s.opened id true } where
  opened := by
    intro k n hk
    rcases update_cases hk with ⟨rfl, -⟩ | ⟨hki, hk⟩
    · exact update_self _ _ _
    · exact (update_of_ne hki _ _).trans (hs.opened k n hk)
  unattached := by
    intro k hd
    obtain ⟨hopen, hzero⟩ := hs.unattached k hd
    have hki : k ≠ id := by
      rintro rfl
      cases hopen.symm.trans hid
    exact ⟨(update_of_ne hki _ _).trans hopen,
      fun n hk => hzero n ((update_of_ne hki _ _).symm.trans hk)⟩

theorem setCloses (hs : DoomedInv s) {cs : List CloseReason} (hcs : cs ≠ [] → s.Doomed id) :
    DoomedInv { s with closes := update s.closes id cs } where
  opened := hs.opened
  unattached := by
    rintro k (hp | hc)
    · exact hs.unattached k (.inl hp)
    obtain rfl | hki := eq_or_ne k id
    · have hne : cs ≠ [] := fun h => hc ((update_self _ _ _).trans h)
      exact hs.unattached k (hcs hne)
    · have hne : s.closes k ≠ [] := fun h => hc ((update_of_ne hki _ _).trans h)
      exact hs.unattached k (.inr hne)

end Steps

section Run

variable [DecidableEq Sid] [DecidableEq Peer] [DecidableEq Hash]

theorem step {hash : List UInt8 → Hash} {s' : BrokerState Sid Peer Hash}
    {op : BrokerOp Sid Peer} (hspare : s.SparesDoomed op)
    (h : s.step hash op = some s') (hs : DoomedInv s) : DoomedInv s' := by
  cases op with
  | advance | forget =>
    obtain ⟨-, rfl⟩ := ite_some_none_eq_some.1 h
    exact { hs with }
  | «open» id =>
    obtain ⟨hid, h⟩ := ite_none_left_eq_some.1 h
    cases h
    exact hs.insert (Bool.not_eq_true _ ▸ hid)
  | issue id peer token =>
    obtain ⟨m, -, rfl⟩ := map_eq_some_iff.1 h
    exact { hs with }
  | rotate id presented peer inputStream token =>
    rcases rotate_some h with rfl | ⟨-, rfl⟩
    · exact hs
    · exact { hs with }
  | attachGuard id =>
    obtain ⟨m, m', hm, hf, rfl⟩ := modify_some h
    exact hs.modify hm (fun hd => absurd hd hspare)
  | dropGuard id =>
    obtain ⟨m, m', hm, hf, rfl⟩ := modify_some h
    obtain ⟨-, rfl⟩ := ite_some_none_eq_some.1 hf
    exact hs.modify hm (fun _ => Nat.sub_le _ _)
  | exit | markClosed =>
    obtain ⟨m, m', hm, hf, rfl⟩ := modify_some h
    obtain ⟨-, rfl⟩ := ite_some_none_eq_some.1 hf
    exact hs.modify hm (fun _ => le_rfl)
  | close id =>
    obtain ⟨m, m', hm, hf, rfl⟩ := modify_some h
    cases hf
    exact hs.modify hm (fun _ => le_rfl)
  | reapBegin =>
    cases h
    refine ⟨hs.opened, ?_⟩
    rintro id (⟨p, hp, hd⟩ | hc)
    · rcases mem_append.1 hp with hp | hp
      · exact hs.unattached id (.inl ⟨p, hp, hd⟩)
      · rw [mem_singleton.1 hp] at hd
        nomatch hd
    · exact hs.unattached id (.inr hc)
  | reapMeasure i =>
    obtain ⟨p, hp, -, -, hf⟩ := onPass_some h
    cases hf
    exact hs.keepPass hp rfl
  | reapDecide i =>
    obtain ⟨p, hp, -, -, hf⟩ := onPass_some h
    cases hf
    -- the decision itself looks at the attachments
    refine hs.setPass fun id hd => ?_
    obtain ⟨reason, hd⟩ := isSome_iff_exists.1 hd
    obtain ⟨m, hm, hreason⟩ := bind_eq_some_iff.1 hd
    refine ⟨hs.opened id m hm, fun n hn => ?_⟩
    rw [hm] at hn
    cases hn
    exact unattached_of_reapReason hreason
  | reapSweep i =>
    obtain ⟨p, hp, -, -, hf⟩ := onPass_some h
    cases hf
    have hset := hs.keepPass (i := i) (q := { p with stage := .swept }) hp rfl
    exact
      { opened := fun id m hm => hset.opened id m (ite_none_left_eq_some.1 hm).2
        unattached := fun id hd => ⟨(hset.unattached id hd).1,
          fun m hm => (hset.unattached id hd).2 m (ite_none_left_eq_some.1 hm).2⟩ }
  | reapSync i =>
    obtain ⟨p, hp, -, -, hf⟩ := onPass_some h
    cases hf
    have hset := hs.keepPass (i := i) (q := { p with stage := .synced }) hp rfl
    exact { hset with }
  | reapSend i id =>
    obtain ⟨p, hp, -, -, hf⟩ := onPass_some h
    obtain ⟨reason, hreason, rfl⟩ := map_eq_some_iff.1 hf
    have hdoomed : s.Doomed id := .inl ⟨p, hp, by rw [hreason]; rfl⟩
    refine (hs.setCloses fun _ => hdoomed).setPass fun k hk => ?_
    obtain rfl | hki := eq_or_ne k id
    · simp at hk
    · have hk' : (p.doomed k).isSome = true := by
        simpa [update_of_ne hki] using hk
      exact hs.unattached k (.inl ⟨p, hp, hk'⟩)
  | acceptClose id =>
    simp only [BrokerState.step] at h
    split at h
    · nomatch h
    rename_i reason rest hcs
    have hdoomed : s.Doomed id := .inr (by rw [hcs]; exact cons_ne_nil _ _)
    have hc : DoomedInv { s with closes := update s.closes id rest } :=
      hs.setCloses (fun _ => hdoomed)
    obtain ⟨m, m', hm, hf, rfl⟩ := modify_some h
    obtain ⟨-, rfl⟩ := ite_some_none_eq_some.1 hf
    exact hc.modify hm (fun _ => le_rfl)

end Run

end DoomedInv

end BrokerState

section Attachments

variable [DecidableEq Sid] [DecidableEq Peer] [DecidableEq Hash]

open BrokerState

/-- In a run in which no attachment begins on a doomed session, the actor takes
a `Close` of the reaper only while nobody is attached. -/
theorem reaper_spares_attached {hash : List UInt8 → Hash} {resumeTtl : Nat}
    {ops : List (BrokerOp Sid Peer)} {s s' : BrokerState Sid Peer Hash}
    (h : Run (BrokerState.step hash) SparesDoomed (.new resumeTtl) ops s)
    {id : Sid} (haccept : s.step hash (.acceptClose id) = some s')
    {m : Meta} (hm : s.registry id = some m) : m.attached = 0 := by
  have hs : DoomedInv s :=
    h.invariant (fun _ _ _ hC hstep hs => hs.step hC hstep) (.init resumeTtl)
  have hdoomed : s.Doomed id := by
    refine .inr fun hnil => ?_
    simp [BrokerState.step, hnil] at haccept
  exact (hs.unattached id hdoomed).2 m hm

def leftAlone : List (BrokerOp Unit Nat) :=
  [.open (), .issue () 9 [1], .attachGuard (), .advance 60, .dropGuard (), .advance 160,
    .reapBegin, .reapMeasure 0, .reapDecide 0, .reapSweep 0, .reapSync 0, .reapSend 0 ()]

theorem reaper_spares_attached_leftAlone :
    ∃ (s t : BrokerState Unit Nat (List UInt8)) (m : Meta),
      Run (BrokerState.step id) SparesDoomed (.new 100) leftAlone s ∧
      s.step id (.acceptClose ()) = some t ∧ s.registry () = some m ∧ m.attached = 0 := by
  obtain ⟨s, hrun, t, haccept, m, hm⟩ : ∃ s : BrokerState Unit Nat (List UInt8),
        Run (BrokerState.step id) SparesDoomed (.new 100) leftAlone s ∧
        ∃ t, s.step id (.acceptClose ()) = some t ∧ ∃ m, s.registry () = some m :=
    ⟨_, .of_execWhere rfl, _, rfl, _, rfl⟩
  exact ⟨s, t, m, hrun, haccept, hm, reaper_spares_attached hrun haccept hm⟩

/-- An attach is granted five seconds before the end of the TTL, and its data
stream opens after a pass has decided to close the session. -/
def attachedWhileDoomed : List (BrokerOp Unit Nat) :=
  [.open (), .issue () 9 [1], .advance 86395, .rotate () [1] 9 2 [2], .advance 86400,
    .reapBegin, .reapMeasure 0, .reapDecide 0, .attachGuard (), .reapSweep 0, .reapSync 0,
    .reapSend 0 ()]

/-- The actor takes the `Close` with the new attachment in place. -/
theorem reaper_closes_attached :
    ∃ (s t : BrokerState Unit Nat (List UInt8)) (m m' : Meta),
      Run (BrokerState.step id) (fun _ _ => True) (.new 86400) attachedWhileDoomed s ∧
      s.step id (.acceptClose ()) = some t ∧ s.registry () = some m ∧ m.attached = 1 ∧
      t.registry () = some m' ∧ m'.attached = 1 ∧ m'.closing = true := by
  exact ⟨_, _, _, _, .of_execWhere rfl, rfl, rfl, rfl, rfl, rfl, rfl⟩

end Attachments

end Qsh.Broker
