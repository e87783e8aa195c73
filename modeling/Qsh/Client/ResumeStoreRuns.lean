import Mathlib.Data.Fintype.Basic
import Qsh.Lib.Run
import Qsh.Lib.Update
import Qsh.Client.ResumeStore

/-!
# What the resume file holds

`resume_file_keeps_newest` says that `resume.json` holds the newest token of an open
session whenever no attach to it is under way.  `forget` names the session and not the
token that was refused, so this needs that a refused process finds its own token in
the file, or none.

The invariant says who knows which token.  A successor that was granted and not
yet written is known to one process, so nobody else can present it, and the
writes of successors come in the order in which the host minted them.
-/

namespace Qsh.Client

open Qsh.Lib Qsh.Broker Function Option

variable {Ref Peer Hash : Type}

namespace Device

/-! ## Statements -/

/-- The last token that the host issued for the session. -/
def newest (s : Device Ref Peer Hash) (ref : Ref) : Option (List UInt8) :=
  (s.issued ref).head?

def FileFresh (s : Device Ref Peer Hash) (now : Nat) : Prop :=
  ∀ ref, ∀ e ∈ s.doc ref, now < e.expiresAt

def HostFresh (s : Device Ref Peer Hash) (now : Nat) : Prop :=
  ∀ ref, ∀ e ∈ s.registry ref, now < e.expiresAt

/-- Nothing expires, every connection is to the same host, and a minted token
has a hash of its own. -/
def Calm (hash : List UInt8 → Hash) (host : Peer) (s : Device Ref Peer Hash) :
    DeviceOp Ref Peer → Prop
  | .take _ _ peer now => peer = host ∧ s.FileFresh now
  | .verify _ now => s.HostFresh now
  | .rotate _ token _ _ now =>
      s.HostFresh now ∧ ∀ ref, ∀ t ∈ s.issued ref, hash t ≠ hash token
  | .put _ peer _ now => peer = host ∧ s.FileFresh now
  | .forget _ now => s.FileFresh now
  | .renew _ _ now => s.FileFresh now
  | .forgetClosed _ now => s.FileFresh now
  | _ => True

/-- A process that was refused finds in the file what it presented, or nothing,
unless the session is closed. -/
def ForgetsOwn (s : Device Ref Peer Hash) : DeviceOp Ref Peer → Prop
  | .forget proc _ => ∀ x ∈ (s.procs proc).presents,
      s.closed x.1 = true ∨ ∀ e ∈ s.doc x.1, e.token = x.2
  | _ => True

/-- What every step keeps.  A successor that was granted and not yet written is
known to one process only, so nobody can present it; and a token that was
refused is not the newest one. -/
structure FileInv (hash : List UInt8 → Hash) (device host : Peer)
    (s : Device Ref Peer Hash) : Prop where
  hostPeer : ∀ ref, ∀ e ∈ s.doc ref, e.peerSpki = host
  fileIssued : ∀ ref, ∀ e ∈ s.doc ref, e.token ∈ s.issued ref
  procIssued : ∀ p ref t, (s.procs p).presents = some (ref, t) → t ∈ s.issued ref
  distinct : ∀ ref, ∀ t ∈ s.issued ref, ∀ t' ∈ s.issued ref, hash t = hash t' → t = t'
  grantedNewest : ∀ p ref t, s.procs p = .granted ref t → s.newest ref = some t
  grantedFile : ∀ p ref t, s.procs p = .granted ref t → ∀ e ∈ s.doc ref, e.token ≠ t
  grantedSecret : ∀ p ref t, s.procs p = .granted ref t → ∀ q, (s.procs q).presents ≠ some (ref, t)
  grantedOnce : ∀ p ref t, s.procs p = .granted ref t → ∀ q t', s.procs q = .granted ref t' → q = p
  stored : ∀ ref, ∀ e ∈ s.registry ref,
    ∃ t, s.newest ref = some t ∧ e.hash = hash t ∧ e.peer = device
  storedOpen : ∀ ref, s.closed ref = false → ∀ t, s.newest ref = some t →
    ∃ e, s.registry ref = some e
  held : ∀ ref, s.closed ref = false → ∀ t, s.newest ref = some t →
    (∃ e ∈ s.doc ref, e.token = t) ∨ ∃ p, s.procs p = .granted ref t
  refusedOld : ∀ p ref t, s.closed ref = false → s.procs p = .refused ref t → s.newest ref ≠ some t

theorem procs_move {s : Device Ref Peer Hash} {p q : Nat}
    {a b : Attaching Ref} (h : (s.move p a).procs q = b) :
    q = p ∧ a = b ∨ s.procs q = b := by
  rcases update_cases h with hq | ⟨-, hq⟩
  · exact .inl hq
  · exact .inr hq

theorem presents_move {s : Device Ref Peer Hash} {p q : Nat}
    {a : Attaching Ref} {x : Ref × List UInt8}
    (h : ((s.move p a).procs q).presents = some x) :
    a.presents = some x ∨ (s.procs q).presents = some x := by
  rcases update_pred (P := fun b : Attaching Ref => b.presents = some x) h with
    ⟨-, ha⟩ | ⟨-, hq⟩
  · exact .inl ha
  · exact .inr hq

namespace FileInv

variable {hash : List UInt8 → Hash} {device host : Peer} {s : Device Ref Peer Hash}

theorem init : FileInv hash device host (new : Device Ref Peer Hash) where
  hostPeer := nofun
  fileIssued := nofun
  procIssued := nofun
  distinct := nofun
  grantedNewest := nofun
  grantedFile := nofun
  grantedSecret := nofun
  grantedOnce := nofun
  stored := nofun
  storedOpen := nofun
  held := nofun
  refusedOld := nofun

theorem newest_mem {ref : Ref} {t : List UInt8} (h : s.newest ref = some t) :
    t ∈ s.issued ref :=
  List.mem_of_mem_head? h

section

variable (hs : FileInv hash device host s)
include hs

variable {p : Nat} {a : Attaching Ref}

/-- A process moves that neither had nor gets a successor.  What it presents
afterwards is no successor of anybody. -/
theorem move (hp : ∀ ref t, s.procs p ≠ .granted ref t) (ha : ∀ ref t, a ≠ .granted ref t)
    (hpres : ∀ ref t, a.presents = some (ref, t) →
      t ∈ s.issued ref ∧ ∀ q, s.procs q ≠ .granted ref t)
    (hold : ∀ ref t, a = .refused ref t → s.closed ref = false → s.newest ref ≠ some t) :
    FileInv hash device host (s.move p a) := by
  have hback : ∀ q ref t, (s.move p a).procs q = .granted ref t → s.procs q = .granted ref t :=
    fun q ref t h => (procs_move h).elim (fun h => absurd h.2 (ha ref t)) id
  exact
    { hs with
      procIssued := by
        intro q ref t h
        rcases presents_move h with ha | hq
        · exact (hpres ref t ha).1
        · exact hs.procIssued q ref t hq
      grantedNewest := fun q ref t h => hs.grantedNewest q ref t (hback q ref t h)
      grantedFile := fun q ref t h => hs.grantedFile q ref t (hback q ref t h)
      grantedSecret := by
        intro q ref t h k hk
        have hq := hback q ref t h
        rcases presents_move hk with ha | hk
        · exact (hpres ref t ha).2 q hq
        · exact hs.grantedSecret q ref t hq k hk
      grantedOnce := fun q ref t h k t' hk =>
        hs.grantedOnce q ref t (hback q ref t h) k t' (hback k ref t' hk)
      held := by
        intro ref hopen t ht
        refine (hs.held ref hopen t ht).imp id fun ⟨q, hq⟩ => ⟨q, ?_⟩
        have hne : q ≠ p := by
          rintro rfl
          exact hp ref t hq
        exact (update_of_ne hne _ _).trans hq
      refusedOld := by
        intro q ref t hopen h
        rcases procs_move h with ⟨-, hq⟩ | hq
        · exact hold ref t hq hopen
        · exact hs.refusedOld q ref t hopen hq }

/-- The file changes.  Its entries have the tokens of earlier ones, and the
newest token is not lost from it. -/
theorem setDoc {doc : Document Ref Peer} (hback : ∀ ref, ∀ e ∈ doc ref, ∃ e' ∈ s.doc ref,
      e.token = e'.token ∧ e.peerSpki = e'.peerSpki)
    (hkeep : ∀ ref, s.closed ref = false → ∀ e ∈ s.doc ref, s.newest ref = some e.token →
      ∃ e' ∈ doc ref, e'.token = e.token) :
    FileInv hash device host { s with doc := doc } :=
  { hs with
    hostPeer := by
      intro ref e he
      obtain ⟨e', he', -, hpeer⟩ := hback ref e he
      rw [hpeer]
      exact hs.hostPeer ref e' he'
    fileIssued := by
      intro ref e he
      obtain ⟨e', he', htok, -⟩ := hback ref e he
      rw [htok]
      exact hs.fileIssued ref e' he'
    grantedFile := by
      intro p ref t hp e he
      obtain ⟨e', he', htok, -⟩ := hback ref e he
      rw [htok]
      exact hs.grantedFile p ref t hp e' he'
    held := by
      intro ref hopen t ht
      refine (hs.held ref hopen t ht).imp ?_ id
      rintro ⟨e, he, rfl⟩
      exact hkeep ref hopen e he ht }

theorem advance {ref : Ref} {t : List UInt8} (hp : (s.procs p).presents = some (ref, t))
    (ha : a.presents = some (ref, t) ∨ a = .idle)
    (hold : ∀ ref t, a = .refused ref t → s.closed ref = false → s.newest ref ≠ some t) :
    FileInv hash device host (s.move p a) := by
  refine hs.move ?_ ?_ ?_ hold
  · intro r t' hq
    rw [hq] at hp
    nomatch hp
  · rintro r t' rfl
    rcases ha with ha | ha <;> nomatch ha
  intro r t' hr
  rcases ha with ha | rfl
  · rw [ha] at hr
    cases hr
    exact ⟨hs.procIssued p ref t hp, fun q hq => hs.grantedSecret q ref t hq p hp⟩
  · nomatch hr

end

section Writes

variable [DecidableEq Ref]

section

variable (hs : FileInv hash device host s)
include hs

variable {p expiresAt : Nat} {ref : Ref} {token : List UInt8}

theorem grant {stream : Nat}
    (hp : ∀ ref t, s.procs p ≠ .granted ref t) (hnone : ∀ q t, s.procs q ≠ .granted ref t)
    (hnew : ∀ t ∈ s.issued ref, hash t ≠ hash token) :
    FileInv hash device host { s.move p (.granted ref token) with
      registry := update s.registry ref (some ⟨hash token, device, expiresAt, stream⟩)
      issued := update s.issued ref (token :: s.issued ref) } := by
  have hne : token ∉ s.issued ref := fun h => hnew token h rfl
  have hsub : ∀ r, ∀ t ∈ s.issued r, t ∈ update s.issued ref (token :: s.issued ref) r := by
    intro r t ht
    obtain rfl | hr := eq_or_ne r ref
    · simp [ht]
    · rwa [update_of_ne hr]
  have hold : ∀ r ≠ ref, (update s.issued ref (token :: s.issued ref) r).head? = s.newest r := by
    intro r hr
    rw [update_of_ne hr]
    rfl
  have hself : (update s.issued ref (token :: s.issued ref) ref).head? = some token := by
    rw [update_self]
    rfl
  -- the only new successor is the one for `ref`
  have hgranted : ∀ q r t, (s.move p (.granted ref token)).procs q = .granted r t →
      q = p ∧ r = ref ∧ t = token ∨ r ≠ ref ∧ s.procs q = .granted r t := by
    intro q r t h
    rcases procs_move h with ⟨hq, heq⟩ | hq
    · cases heq
      exact .inl ⟨hq, rfl, rfl⟩
    · refine .inr ⟨?_, hq⟩
      rintro rfl
      exact hnone q t hq
  have hpres : ∀ q r t, ((s.move p (.granted ref token)).procs q).presents = some (r, t) →
      (s.procs q).presents = some (r, t) :=
    fun q r t h => (presents_move h).elim nofun id
  exact
    { hostPeer := hs.hostPeer
      fileIssued := fun r e he => hsub r _ (hs.fileIssued r e he)
      procIssued := fun q r t h => hsub r t (hs.procIssued q r t (hpres q r t h))
      distinct := by
        intro r t ht t' ht' heq
        obtain rfl | hr := eq_or_ne r ref
        · simp only [update_self, List.mem_cons] at ht ht'
          rcases ht with rfl | ht <;> rcases ht' with rfl | ht'
          · rfl
          · exact absurd heq.symm (hnew t' ht')
          · exact absurd heq (hnew t ht)
          · exact hs.distinct r t ht t' ht' heq
        · simp only [update_of_ne hr] at ht ht'
          exact hs.distinct r t ht t' ht' heq
      grantedNewest := by
        intro q r t h
        rcases hgranted q r t h with ⟨-, rfl, rfl⟩ | ⟨hr, hq⟩
        · exact hself
        · exact (hold r hr).trans (hs.grantedNewest q r t hq)
      grantedFile := by
        intro q r t h e he
        rcases hgranted q r t h with ⟨-, rfl, rfl⟩ | ⟨hr, hq⟩
        · exact fun heq => hne (heq ▸ hs.fileIssued r e he)
        · exact hs.grantedFile q r t hq e he
      grantedSecret := by
        intro q r t h k hk
        have hk' := hpres k r t hk
        rcases hgranted q r t h with ⟨-, rfl, rfl⟩ | ⟨hr, hq⟩
        · exact hne (hs.procIssued k r t hk')
        · exact hs.grantedSecret q r t hq k hk'
      grantedOnce := by
        intro q r t h k t' hk
        rcases hgranted q r t h with ⟨rfl, rfl, rfl⟩ | ⟨hr, hq⟩
        · exact (hgranted k r t' hk).elim (fun h => h.1) (fun h => absurd rfl h.1)
        · rcases hgranted k r t' hk with ⟨-, hr', -⟩ | ⟨-, hk⟩
          · exact absurd hr' hr
          · exact hs.grantedOnce q r t hq k t' hk
      stored := by
        intro r e he
        rcases update_cases he with ⟨rfl, ⟨⟩⟩ | ⟨hr, he⟩
        · exact ⟨token, hself, rfl, rfl⟩
        · obtain ⟨t, ht, h⟩ := hs.stored r e he
          exact ⟨t, (hold r hr).trans ht, h⟩
      storedOpen := by
        intro r hopen t ht
        obtain rfl | hr := eq_or_ne r ref
        · exact ⟨_, update_self _ _ _⟩
        · obtain ⟨e, he⟩ := hs.storedOpen r hopen t ((hold r hr).symm.trans ht)
          exact ⟨e, (update_of_ne hr _ _).trans he⟩
      held := by
        intro r hopen t ht
        obtain rfl | hr := eq_or_ne r ref
        · obtain rfl : token = t := some.inj (hself.symm.trans ht)
          exact .inr ⟨p, update_self _ _ _⟩
        refine (hs.held r hopen t ((hold r hr).symm.trans ht)).imp id fun ⟨q, hq⟩ => ⟨q, ?_⟩
        have hqp : q ≠ p := by
          rintro rfl
          exact hp r t hq
        exact (update_of_ne hqp _ _).trans hq
      refusedOld := by
        intro q r t hopen h
        rcases procs_move h with ⟨-, heq⟩ | hq
        · nomatch heq
        obtain rfl | hr := eq_or_ne r ref
        · intro ht
          obtain rfl : token = t := some.inj (hself.symm.trans ht)
          exact hne (hs.procIssued q r token (by rw [hq]; rfl))
        · exact fun ht => hs.refusedOld q r t hopen hq ((hold r hr).symm.trans ht) }

theorem put (hp : s.procs p = .granted ref token) :
    FileInv hash device host { s.move p .idle with
      doc := update s.doc ref (some ⟨token, host, expiresAt⟩) } := by
  have hgranted : ∀ q r t, (s.move p .idle).procs q = .granted r t →
      r ≠ ref ∧ s.procs q = .granted r t := by
    intro q r t h
    rcases procs_move h with ⟨-, heq⟩ | hq
    · nomatch heq
    refine ⟨?_, hq⟩
    rintro rfl
    have hqp : q = p := hs.grantedOnce p r token hp q t hq
    subst hqp
    have hidle : (s.move q .idle).procs q = .idle := update_self _ _ _
    exact nomatch hidle.symm.trans h
  have hpres : ∀ q r t, ((s.move p .idle).procs q).presents = some (r, t) →
      (s.procs q).presents = some (r, t) :=
    fun q r t h => (presents_move h).elim nofun id
  have hdoc : ∀ r e, e ∈ update s.doc ref (some ⟨token, host, expiresAt⟩) r →
      r = ref ∧ e = ⟨token, host, expiresAt⟩ ∨ r ≠ ref ∧ e ∈ s.doc r := by
    intro r e he
    rcases update_cases he with ⟨hr, heq⟩ | hold
    · exact .inl ⟨hr, (some.inj heq).symm⟩
    · exact .inr hold
  exact
    { hs with
      hostPeer := by
        intro r e he
        rcases hdoc r e he with ⟨-, rfl⟩ | ⟨-, he⟩
        · rfl
        · exact hs.hostPeer r e he
      fileIssued := by
        intro r e he
        rcases hdoc r e he with ⟨rfl, rfl⟩ | ⟨-, he⟩
        · exact newest_mem (hs.grantedNewest p r token hp)
        · exact hs.fileIssued r e he
      procIssued := fun q r t h => hs.procIssued q r t (hpres q r t h)
      grantedNewest := fun q r t h => hs.grantedNewest q r t (hgranted q r t h).2
      grantedFile := by
        intro q r t h e he
        obtain ⟨hr, hq⟩ := hgranted q r t h
        rcases hdoc r e he with ⟨hr', -⟩ | ⟨-, he⟩
        · exact absurd hr' hr
        · exact hs.grantedFile q r t hq e he
      grantedSecret := fun q r t h k hk =>
        hs.grantedSecret q r t (hgranted q r t h).2 k (hpres k r t hk)
      grantedOnce := fun q r t h k t' hk =>
        hs.grantedOnce q r t (hgranted q r t h).2 k t' (hgranted k r t' hk).2
      held := by
        intro r hopen t ht
        obtain rfl | hr := eq_or_ne r ref
        · obtain rfl : token = t := some.inj ((hs.grantedNewest p r token hp).symm.trans ht)
          exact .inl ⟨_, update_self _ _ _, rfl⟩
        rcases hs.held r hopen t ht with ⟨e, he, htok⟩ | ⟨q, hq⟩
        · exact .inl ⟨e, (update_of_ne hr _ _).trans he, htok⟩
        have hqp : q ≠ p := by
          rintro rfl
          rw [hp] at hq
          cases hq
          exact hr rfl
        exact .inr ⟨q, (update_of_ne hqp _ _).trans hq⟩
      refusedOld := by
        intro q r t hopen h
        rcases procs_move h with ⟨-, ⟨⟩⟩ | hq
        exact hs.refusedOld q r t hopen hq }

theorem dropEntry (hold : s.closed ref = false → ∀ e ∈ s.doc ref, s.newest ref ≠ some e.token) :
    FileInv hash device host { s with doc := update s.doc ref none } := by
  refine hs.setDoc ?_ ?_
  · intro r e he
    obtain ⟨-, ⟨⟩⟩ | ⟨-, he⟩ := update_cases he
    exact ⟨e, he, rfl, rfl⟩
  intro r hopen e he hnew
  obtain rfl | hr := eq_or_ne r ref
  · exact absurd hnew (hold hopen e he)
  · exact ⟨e, (update_of_ne hr _ _).trans he, rfl⟩

theorem forget {t : List UInt8} (hp : s.procs p = .refused ref t)
    (hown : s.closed ref = true ∨ ∀ e ∈ s.doc ref, e.token = t) :
    FileInv hash device host { s.move p .idle with doc := update s.doc ref none } := by
  have hmove : FileInv hash device host (s.move p .idle) :=
    hs.advance (by rw [hp]; rfl) (.inr rfl) nofun
  refine hmove.dropEntry fun hopen e he => ?_
  rcases hown with hclosed | hown
  · cases hclosed.symm.trans hopen
  · rw [hown e he]
    exact hs.refusedOld p ref t hopen hp

theorem renew (ref : Ref) (expiresAt : Nat) :
    FileInv hash device host { s with
      doc := update s.doc ref ((s.doc ref).map fun e => { e with expiresAt := expiresAt }) } := by
  refine hs.setDoc ?_ ?_
  · intro r e he
    rcases update_cases he with ⟨rfl, heq⟩ | ⟨-, he⟩
    · obtain ⟨e', he', rfl⟩ := map_eq_some_iff.1 heq
      exact ⟨e', he', rfl, rfl⟩
    · exact ⟨e, he, rfl, rfl⟩
  intro r hopen e he hnew
  obtain rfl | hr := eq_or_ne r ref
  · refine ⟨{ e with expiresAt := expiresAt }, ?_, rfl⟩
    rw [update_self, mem_def, map_eq_some_iff]
    exact ⟨e, he, rfl⟩
  · exact ⟨e, (update_of_ne hr _ _).trans he, rfl⟩

end

end Writes

section Redeem

variable [DecidableEq Peer] [DecidableEq Hash]

variable {ref : Ref} {now : Nat} {t : List UInt8}

theorem redeems_newest (hs : FileInv hash device host s)
    (hfresh : s.HostFresh now) (hopen : s.closed ref = false)
    (ht : s.newest ref = some t) :
    s.registry.redeems ref (hash t) device now ≠ none := by
  obtain ⟨e, he⟩ := hs.storedOpen ref hopen t ht
  obtain ⟨t', ht', hhash, hpeer⟩ := hs.stored ref e he
  obtain rfl : t = t' := some.inj (ht.symm.trans ht')
  have hlt := hfresh ref e he
  simp [Resume.Registry.redeems, he, hhash, hpeer, hlt]

theorem redeems_presented (hs : FileInv hash device host s) {p : Nat} {e : Resume.Entry Peer Hash}
    (hp : (s.procs p).presents = some (ref, t))
    (h : s.registry.redeems ref (hash t) device now = some e) :
    ∀ q t', s.procs q ≠ .granted ref t' := by
  obtain ⟨he, hhash, -, -⟩ := Resume.Registry.redeems_eq_some h
  obtain ⟨t₀, ht₀, hhash₀, -⟩ := hs.stored ref e he
  have heq : t = t₀ := hs.distinct ref t (hs.procIssued p ref t hp) t₀ (newest_mem ht₀)
    (hhash.symm.trans hhash₀)
  intro q t' hq
  have ht' : t' = t₀ := some.inj ((hs.grantedNewest q ref t' hq).symm.trans ht₀)
  exact hs.grantedSecret q ref t' hq p (by rw [hp, heq, ht'])

end Redeem

section Steps

variable [DecidableEq Ref] [DecidableEq Peer] [DecidableEq Hash]

variable {s' : Device Ref Peer Hash} {p now : Nat}

theorem take {ref : Ref} {peer : Peer}
    (hcalm : s.Calm hash host (.take p ref peer now))
    (h : s.step hash device (.take p ref peer now) = some s') (hs : FileInv hash device host s) :
    FileInv hash device host s' := by
  simp only [Device.step] at h
  split at h
  swap
  · nomatch h
  rename_i hp
  rcases Document.takeFor_fresh ref hcalm.2 (hcalm.1 ▸ hs.hostPeer) with
    ht | ⟨e, he, ht⟩
  · rw [ht] at h
    cases h
    exact hs
  rw [ht] at h
  cases h
  refine hs.move (fun r t hq => nomatch hp.symm.trans hq) nofun ?_
    nofun
  intro r t hr
  cases hr
  exact ⟨hs.fileIssued ref e he, fun q hq => hs.grantedFile q ref e.token hq e he rfl⟩

theorem verify (hcalm : s.HostFresh now)
    (h : s.step hash device (.verify p now) = some s') (hs : FileInv hash device host s) :
    FileInv hash device host s' := by
  simp only [Device.step] at h
  split at h
  swap
  · nomatch h
  rename_i ref token hp
  have hpres : (s.procs p).presents = some (ref, token) := by rw [hp]; rfl
  split at h
  · cases h
    exact hs.advance hpres (.inl rfl) nofun
  rename_i hdenied
  cases h
  refine hs.advance hpres (.inl rfl) ?_
  rintro r t heq hopen hnew
  cases heq
  exact hs.redeems_newest hcalm hopen hnew (map_eq_none_iff.1 hdenied)

theorem rotate {token : List UInt8} {ttl inputStream : Nat}
    (hcalm : s.Calm hash host (.rotate p token ttl inputStream now))
    (h : s.step hash device (.rotate p token ttl inputStream now) = some s')
    (hs : FileInv hash device host s) : FileInv hash device host s' := by
  simp only [Device.step] at h
  split at h
  swap
  · nomatch h
  rename_i ref presented hp
  have hpres : (s.procs p).presents = some (ref, presented) := by rw [hp]; rfl
  unfold Resume.Registry.rotate at h
  cases hr : s.registry.redeems ref (hash presented) device now with
  | none =>
    simp only [hr, some.injEq] at h
    cases h
    refine hs.advance hpres (.inl rfl) ?_
    rintro r t heq hopen hnew
    cases heq
    exact hs.redeems_newest hcalm.1 hopen hnew hr
  | some e =>
    simp only [hr, some.injEq] at h
    cases h
    exact hs.grant (fun r t hq => nomatch hp.symm.trans hq) (hs.redeems_presented hpres hr)
      (hcalm.2 ref)

theorem close {ref : Ref}
    (h : s.step hash device (.close ref) = some s') (hs : FileInv hash device host s) :
    FileInv hash device host s' := by
  simp only [Device.step] at h
  cases h
  have hback : ∀ r, update s.closed ref true r = false → s.closed r = false := by
    intro r hr
    obtain ⟨-, ⟨⟩⟩ | ⟨-, hr⟩ := update_cases hr
    exact hr
  exact
    { hs with
      storedOpen := fun r hopen => hs.storedOpen r (hback r hopen)
      held := fun r hopen => hs.held r (hback r hopen)
      refusedOld := fun p r t hopen => hs.refusedOld p r t (hback r hopen) }

theorem forgetCredential {ref : Ref}
    (h : s.step hash device (.forgetCredential ref) = some s') (hs : FileInv hash device host s) :
    FileInv hash device host s' := by
  simp only [Device.step] at h
  obtain ⟨hclosed, rfl⟩ := ite_some_none_eq_some.1 h
  exact
    { hs with
      stored := by
        intro r e he
        obtain ⟨-, ⟨⟩⟩ | ⟨-, he⟩ := update_cases he
        exact hs.stored r e he
      storedOpen := by
        intro r hopen t ht
        have hr : r ≠ ref := by
          rintro rfl
          cases hclosed.symm.trans hopen
        obtain ⟨e, he⟩ := hs.storedOpen r hopen t ht
        exact ⟨e, (update_of_ne hr _ _).trans he⟩ }

theorem step {op : DeviceOp Ref Peer}
    (hcalm : s.Calm hash host op) (hown : s.ForgetsOwn op)
    (h : s.step hash device op = some s') (hs : FileInv hash device host s) :
    FileInv hash device host s' := by
  cases op with simp only [Device.step] at h
  | «open» p ref token ttl now =>
    split at h <;> cases h
    rename_i hp hissued
    rw [show [token] = token :: s.issued ref by rw [hissued]]
    refine hs.grant (fun r t hq => nomatch hp.symm.trans hq) (fun q t hq => ?_) ?_
    · have hnew := hs.grantedNewest q ref t hq
      rw [newest, hissued] at hnew
      nomatch hnew
    · rw [hissued]
      exact nofun
  | take p ref peer now => exact hs.take hcalm h
  | request p =>
    split at h <;> cases h
    rename_i ref token hp
    exact hs.advance (by rw [hp]; rfl) (.inl rfl) nofun
  | verify p now => exact hs.verify hcalm h
  | rotate p token ttl inputStream now => exact hs.rotate hcalm h
  | notFound p =>
    split at h
    · rename_i ref token hp
      obtain ⟨hclosed, rfl⟩ := ite_some_none_eq_some.1 h
      refine hs.advance (by rw [hp]; rfl) (.inl rfl) ?_
      rintro r t heq hopen
      cases heq
      cases hclosed.symm.trans hopen
    · nomatch h
  | decline p =>
    have hidle : ∀ ref token, (s.procs p).presents = some (ref, token) →
        FileInv hash device host (s.move p .idle) :=
      fun ref token hp => hs.advance hp (.inr rfl) nofun
    split at h <;> cases h
    all_goals
      rename_i ref token hp
      exact hidle ref token (by rw [hp]; rfl)
  | put p peer expiresAt now =>
    split at h <;> cases h
    rename_i ref token hp
    rw [Document.put, Document.purgeExpired_eq_self hcalm.2, hcalm.1]
    exact hs.put hp
  | forget p now =>
    split at h <;> cases h
    rename_i ref token hp
    rw [Document.forget, Document.purgeExpired_eq_self hcalm]
    exact hs.forget hp (hown (ref, token) (by rw [hp]; rfl))
  | renew ref ttl now =>
    cases h
    simp only [Document.renew, Document.purgeExpired_eq_self hcalm]
    exact hs.renew ref (now + ttl)
  | close ref => exact hs.close h
  | forgetCredential ref => exact hs.forgetCredential h
  | forgetClosed ref now =>
    obtain ⟨hclosed, rfl⟩ := ite_some_none_eq_some.1 h
    rw [Document.forget, Document.purgeExpired_eq_self hcalm]
    exact hs.dropEntry fun hopen => nomatch hclosed.symm.trans hopen

end Steps

end FileInv

section Decidable

variable [Fintype Ref] [DecidableEq Ref] [DecidableEq Peer] [DecidableEq Hash]

instance (hash : List UInt8 → Hash) (host : Peer) (s : Device Ref Peer Hash)
    (op : DeviceOp Ref Peer) : Decidable (s.Calm hash host op) := by
  unfold Calm FileFresh HostFresh
  split <;> infer_instance

instance (s : Device Ref Peer Hash) (op : DeviceOp Ref Peer) :
    Decidable (s.ForgetsOwn op) := by
  unfold ForgetsOwn
  split <;> infer_instance

end Decidable

end Device

/-! ## The result -/

section Result

variable [DecidableEq Ref] [DecidableEq Peer] [DecidableEq Hash]

/-- While nothing expires, and if a refused process finds no token in the file
but the one it presented, the file holds the newest token of every open session
that no attach is under way to. -/
theorem resume_file_keeps_newest {hash : List UInt8 → Hash} {device host : Peer}
    {ops : List (DeviceOp Ref Peer)} {s : Device Ref Peer Hash}
    (h : Run (Device.step hash device) (fun s op => s.Calm hash host op ∧ s.ForgetsOwn op)
      .new ops s)
    {ref : Ref} {token : List UInt8} (hopen : s.closed ref = false)
    (hidle : ∀ p, (s.procs p).underWay ≠ some ref) (hnewest : s.newest ref = some token) :
    ∃ e, s.doc ref = some e ∧ e.token = token := by
  have hs : s.FileInv hash device host :=
    h.invariant (fun _ _ _ hC hstep hs => hs.step hC.1 hC.2 hstep) .init
  rcases hs.held ref hopen token hnewest with hfile | ⟨p, hp⟩
  · exact hfile
  · exact absurd (by rw [hp]; rfl) (hidle p)

/-- A session is opened by one process and attached to by two others, who read
the same token.  The loser is refused and forgets before the winner writes. -/
def earlyForget : List (DeviceOp Unit Nat) :=
  [.open 0 () [1] 100 0, .put 0 9 100 0, .take 1 () 9 1, .take 2 () 9 1, .request 1,
    .request 2, .verify 1 2, .verify 2 2, .rotate 2 [2] 100 2 3, .rotate 1 [3] 100 3 3,
    .forget 1 4, .put 2 9 103 4]

theorem resume_file_keeps_newest_race :
    ∃ s : Device Unit Nat (List UInt8),
      Run (Device.step id 7) (fun s op => s.Calm id 9 op ∧ s.ForgetsOwn op) .new earlyForget s ∧
      s.newest () = some [2] ∧ ∃ e, s.doc () = some e ∧ e.token = [2] := by
  obtain ⟨s, hrun, hopen, hidle, hnewest⟩ : ∃ s : Device Unit Nat (List UInt8),
        Run (Device.step id 7) (fun s op => s.Calm id 9 op ∧ s.ForgetsOwn op) .new earlyForget s ∧
        s.closed () = false ∧ (∀ p, (s.procs p).underWay ≠ some ()) ∧
        s.newest () = some [2] := by
    refine ⟨_, .of_execWhere rfl, rfl, ?_, rfl⟩
    rintro (_ | _ | _ | p) <;> simp [Device.move, Device.new, Attaching.underWay]
  exact ⟨s, hrun, hnewest, resume_file_keeps_newest hrun hopen hidle hnewest⟩

/-- The same race, and the loser sends its request after the winner has
written. -/
def lateForget : List (DeviceOp Unit Nat) :=
  [.open 0 () [1] 100 0, .put 0 9 100 0, .take 1 () 9 1, .take 2 () 9 1, .request 2,
    .verify 2 2, .rotate 2 [2] 100 2 3, .put 2 9 103 4, .request 1, .verify 1 5, .forget 1 6]

/-- Nobody is attaching, the session is open with a newest token that the host
redeems, and the file has nothing. -/
theorem late_forget_drops_newest :
    ∃ s : Device Unit Nat (List UInt8),
      Run (Device.step id 7) (fun s op => s.Calm id 9 op) .new lateForget s ∧
      s.closed () = false ∧ (∀ p, (s.procs p).underWay ≠ some ()) ∧
      s.newest () = some [2] ∧ s.registry.verify id () [2] 7 6 = some 2 ∧ s.doc () = none := by
  refine ⟨_, .of_execWhere rfl, rfl, ?_, rfl, by decide, rfl⟩
  rintro (_ | _ | _ | p) <;> simp [Device.move, Device.new, Attaching.underWay]

end Result

end Qsh.Client
