import Qsh.Acl.Policy
import Qsh.Lib.Run
import Qsh.Lib.Update

/-!
# The shared invite store

`SharedInviteStore` (`trust/pairing.rs`) keeps a cache of `invites.toml`.  `redeem`
refreshes the cache as the trust store does, and then, under the write lock of the cache,
looks for a record whose key proves the peer's knowledge, asks `on_matched` to pin the
peer, and marks the record consumed and saves the file under the file lock.
`pairing_open` refreshes only.  Another process mints invites under the file lock.

Keys, the keying material of a connection, the proofs and the check of a peer label are
parameters.  A time is a count of seconds.  Both writers encode the records the same way,
so the text of the file is its list of records.
-/

namespace Qsh.Trust

open Qsh.Lib Qsh.Acl List Function

def INVITE_TTL : Nat := 10 * 60

def INVITE_RETENTION : Nat := 20 * 60

/-- An invite as the file keeps it. -/
structure Invite (Key : Type) where
  macKey : Key
  createdAt : Nat
  consumedAt : Option Nat
  assignedName : Option String
  role : TrustRole
  deriving DecidableEq

namespace Invite

variable {Key : Type}

def youngerThan (r : Invite Key) (now duration : Nat) : Bool :=
  r.createdAt ≤ now && now - r.createdAt < duration

def withinRetention (r : Invite Key) (now : Nat) : Bool := r.youngerThan now INVITE_RETENTION

/-- Neither consumed nor older than `INVITE_TTL`. -/
def redeemable (r : Invite Key) (now : Nat) : Bool :=
  r.consumedAt.isNone && r.youngerThan now INVITE_TTL

end Invite

section Records

variable {Key : Type} [DecidableEq Key]

/-- The merge of one record on disk: a known record takes over its consumption, an
unknown one is added while it is retained. -/
def adopt (now : Nat) : List (Invite Key) → Invite Key → List (Invite Key)
  | [], d => if d.withinRetention now then [d] else []
  | m :: mine, d =>
      if m.macKey = d.macKey then
        (if m.consumedAt.isNone then { m with consumedAt := d.consumedAt } else m) :: mine
      else m :: adopt now mine d

/-- Takes over what the file says was consumed. -/
def mergeConsumption (now : Nat) (mine disk : List (Invite Key)) : List (Invite Key) :=
  disk.foldl (adopt now) mine

def prune (now : Nat) (records : List (Invite Key)) : List (Invite Key) :=
  records.filter fun r => r.withinRetention now

def consume (found : Invite Key → Bool) (now : Nat) : List (Invite Key) → List (Invite Key)
  | [] => []
  | r :: records =>
      if found r then { r with consumedAt := some now } :: records
      else r :: consume found now records

def Spent (key : Key) (records : List (Invite Key)) : Prop :=
  ∀ r ∈ records, r.macKey = key → r.consumedAt.isSome = true

def keysOf (records : List (Invite Key)) : List Key := records.map (·.macKey)

end Records

inductive ProofDomain where
  | client
  | server
  deriving DecidableEq

inductive RefreshPhase (Key : Type) where
  | idle
  | started
  | read (raw : Option (List (Invite Key)))
  | missed (raw : Option (List (Invite Key)))
  | refreshed

/-- A call of `on_matched`, with the records that were retained and its result. -/
structure Invocation (Key Ekm Proof : Type) where
  record : Invite Key
  retained : List (Invite Key)
  ekm : Ekm
  proof : Proof
  now : Nat
  pinned : Bool

/-- The file, the cache and the calls in progress.  `minted` and `calls` record what
has happened so far. -/
structure Invites (Key Ekm Proof : Type) where
  file : Option (List (Invite Key))
  raw : Option (List (Invite Key))
  store : List (Invite Key)
  phase : Nat → RefreshPhase Key
  minted : List Key
  calls : List (Invocation Key Ekm Proof)

/-- What goes wrong in the saving of a consumption: the file lock, the saving before or
after the merge, or the reading back. -/
inductive SaveFault where
  | none
  | lock
  | save (merged : Bool)
  | reread
  deriving DecidableEq

inductive RedeemOutcome (Proof : Type) where
  | accepted (serverProof : Proof)
  | rejected
  | expired
  | alreadyConsumed
  | noMatch
  | invalidAssignedName
  | failed

structure Attempt (Ekm Proof : Type) where
  ekm : Ekm
  proof : Proof
  now : Nat
  pins : Bool
  fault : SaveFault
  wall : Nat

inductive InviteOp (Key Ekm Proof : Type) where
  | start (i : Nat)
  | read (i : Nat) (ok : Bool)
  | check (i : Nat)
  | install (i : Nat)
  | redeem (i : Nat) (attempt : Attempt Ekm Proof)
  | finish (i : Nat)
  | mint (key : Key) (now : Nat) (assignedName : Option String) (role : TrustRole)
      (wall : Nat) (saved : Bool)

section Store

variable {Key Ekm Proof : Type} [DecidableEq Key] [DecidableEq Proof]
  (proofOf : Key → Ekm → ProofDomain → Proof) (labelOk : String → Bool)

def found (ekm : Ekm) (proof : Proof) (now : Nat) (r : Invite Key) : Bool :=
  proofOf r.macKey ekm .client = proof && r.withinRetention now

namespace Invites

/-- One attempt: find the invite, pin, then save it as consumed. -/
def redeem (s : Invites Key Ekm Proof) (a : Attempt Ekm Proof) :
    RedeemOutcome Proof × Invites Key Ekm Proof :=
  match s.store.find? (found proofOf a.ekm a.proof a.now) with
  | none => (.noMatch, s)
  | some record =>
      if record.consumedAt.isSome then (.alreadyConsumed, s)
      else if !record.redeemable a.now then (.expired, s)
      else if record.assignedName.any fun name => !labelOk name then (.invalidAssignedName, s)
      else
        let s : Invites Key Ekm Proof :=
          { s with calls := ⟨record, s.store, a.ekm, a.proof, a.now, a.pins⟩ :: s.calls }
        if !a.pins then (.rejected, s)
        else
          let consumed := consume (found proofOf a.ekm a.proof a.now) a.now s.store
          let merged := mergeConsumption a.wall consumed (s.file.getD [])
          match a.fault with
          | .lock => (.failed, s)
          | .save false => (.failed, { s with store := consumed })
          | .save true => (.failed, { s with store := merged })
          | .reread => (.failed, { s with store := merged, file := some merged })
          | .none =>
              (.accepted (proofOf record.macKey a.ekm .server),
                { s with store := merged, file := some merged, raw := some merged })

/-- One step of a redeem, a refresh or a writer of the file. -/
def step (s : Invites Key Ekm Proof) : InviteOp Key Ekm Proof → Option (Invites Key Ekm Proof)
  | .start i =>
      match s.phase i with
      | .idle => some { s with phase := update s.phase i .started }
      | _ => none
  | .read i ok =>
      match s.phase i with
      | .started =>
          if ok then some { s with phase := update s.phase i (.read s.file) }
          else some { s with phase := update s.phase i .refreshed }
      | _ => none
  | .check i =>
      match s.phase i with
      | .read raw =>
          if s.raw = raw then some { s with phase := update s.phase i .refreshed }
          else some { s with phase := update s.phase i (.missed raw) }
      | _ => none
  | .install i =>
      match s.phase i with
      | .missed raw =>
          let s : Invites Key Ekm Proof :=
            { s with phase := update s.phase i .refreshed }
          if s.raw = raw then some s else some { s with raw := raw, store := raw.getD [] }
      | _ => none
  | .redeem i attempt =>
      match s.phase i with
      | .refreshed =>
          let s : Invites Key Ekm Proof := { s with phase := update s.phase i .idle }
          some (s.redeem proofOf labelOk attempt).2
      | _ => none
  | .finish i =>
      match s.phase i with
      | .refreshed => some { s with phase := update s.phase i .idle }
      | _ => none
  | .mint key now assignedName role wall saved =>
      -- a key is a fresh secret
      if key ∈ s.minted then none
      else
        let s : Invites Key Ekm Proof := { s with minted := key :: s.minted }
        if saved then
          let disk := s.file.getD []
          let invite : Invite Key := ⟨key, now, none, assignedName, role⟩
          some { s with
            file := some (mergeConsumption wall (prune now disk ++ [invite]) disk) }
        else some s

def opened (file : Option (List (Invite Key))) : Invites Key Ekm Proof where
  file
  raw := file
  store := file.getD []
  phase := fun _ => .idle
  minted := keysOf (file.getD [])
  calls := []

end Invites

end Store

/-! ## The records -/

section Records

variable {Key : Type} [DecidableEq Key] {key : Key} {now : Nat}

theorem adopt_keys (now : Nat) (mine : List (Invite Key)) (d : Invite Key) :
    keysOf (adopt now mine d) = keysOf mine ∨
      d.macKey ∉ keysOf mine ∧ keysOf (adopt now mine d) = keysOf mine ++ [d.macKey] := by
  induction mine with unfold adopt
  | nil =>
    split
    · exact .inr ⟨not_mem_nil, rfl⟩
    · exact .inl rfl
  | cons m mine ih =>
    split
    · left
      split <;> rfl
    rename_i hne
    rcases ih with hsame | ⟨hnew, hadded⟩
    · left
      simp only [keysOf, map_cons] at hsame ⊢
      rw [hsame]
    · right
      simp only [keysOf, map_cons, mem_cons, not_or, cons_append] at hnew hadded ⊢
      exact ⟨⟨fun h => hne h.symm, hnew⟩, by rw [hadded]⟩

variable {mine : List (Invite Key)}

omit [DecidableEq Key] in
theorem spent_cons {r : Invite Key} : Spent key (r :: mine) ↔
    (r.macKey = key → r.consumedAt.isSome = true) ∧ Spent key mine :=
  forall_mem_cons

theorem adopt_spent {d : Invite Key} (hmine : Spent key mine)
    (hd : d.macKey = key → d.consumedAt.isSome = true ∨ key ∈ keysOf mine) :
    Spent key (adopt now mine d) := by
  induction mine with
  | nil =>
    unfold adopt
    split
    · exact spent_cons.2 ⟨fun hkey => (hd hkey).resolve_right not_mem_nil, hmine⟩
    · exact hmine
  | cons m mine ih =>
    obtain ⟨hm, hrest⟩ := spent_cons.1 hmine
    unfold adopt
    split
    · refine spent_cons.2 ⟨?_, hrest⟩
      split
      · -- the record keeps its key, and under this key it is consumed already
        rename_i hnone
        intro hkey
        have hsome := hm hkey
        rw [Option.isNone_iff_eq_none.1 hnone] at hsome
        cases hsome
      · exact hm
    · rename_i hne
      refine spent_cons.2 ⟨hm, ih hrest fun hkey => (hd hkey).imp_right fun h => ?_⟩
      exact (mem_cons.1 h).resolve_left fun h => hne (h.symm.trans hkey.symm)

theorem mem_keysOf_adopt (d : Invite Key) (h : key ∈ keysOf mine) :
    key ∈ keysOf (adopt now mine d) := by
  rcases adopt_keys now mine d with hsame | ⟨-, hadded⟩
  · rw [hsame]
    exact h
  · rw [hadded]
    exact mem_append_left _ h

variable {found : Invite Key → Bool} {records : List (Invite Key)}

omit [DecidableEq Key] in
theorem consume_keys : keysOf (consume found now records) = keysOf records := by
  induction records with
  | nil => rfl
  | cons r records ih =>
    unfold consume
    split
    · rfl
    · simp only [keysOf, map_cons] at ih ⊢
      rw [ih]

omit [DecidableEq Key] in
theorem consume_keeps_spent (h : Spent key records) : Spent key (consume found now records) := by
  induction records with
  | nil => exact h
  | cons r records ih =>
    obtain ⟨hr, hrest⟩ := spent_cons.1 h
    unfold consume
    split
    · exact spent_cons.2 ⟨fun _ => rfl, hrest⟩
    · exact spent_cons.2 ⟨hr, ih hrest⟩

omit [DecidableEq Key] in
theorem consume_spent (hnodup : (keysOf records).Nodup) {r : Invite Key}
    (hfind : records.find? found = some r) : Spent r.macKey (consume found now records) := by
  induction records with
  | nil => cases hfind
  | cons m records ih =>
    obtain ⟨hnew, hnodup⟩ := nodup_cons.1 hnodup
    unfold consume
    split
    · rename_i hm
      rw [find?_cons_of_pos hm] at hfind
      cases hfind
      refine spent_cons.2 ⟨fun _ => rfl, fun r hr hkey => ?_⟩
      exact absurd (mem_map.2 ⟨r, hr, hkey⟩) hnew
    · rename_i hm
      rw [find?_cons_of_neg hm] at hfind
      refine spent_cons.2 ⟨fun hkey => ?_, ih hnodup hfind⟩
      exact absurd (mem_map.2 ⟨r, mem_of_find?_eq_some hfind, hkey.symm⟩) hnew

end Records

/-! ## Single use -/

section SingleUse

variable {Key Ekm Proof : Type} [DecidableEq Key] [DecidableEq Proof]
  {proofOf : Key → Ekm → ProofDomain → Proof} {labelOk : String → Bool}

def Invites.pinnedKeys (s : Invites Key Ekm Proof) : List Key :=
  (s.calls.filter (·.pinned)).map (·.record.macKey)

/-- A call of `on_matched` is for a retained record that is not consumed, younger than
the time to live, and whose key gives the proof. -/
structure Invocation.Sound (proofOf : Key → Ekm → ProofDomain → Proof)
    (c : Invocation Key Ekm Proof) : Prop where
  retained : c.record ∈ c.retained
  proof : proofOf c.record.macKey c.ekm .client = c.proof
  unspent : c.record.consumedAt = none
  young : c.record.createdAt ≤ c.now ∧ c.now - c.record.createdAt < INVITE_TTL

namespace Invites

/-- A refresh that changes the cache installs what the file holds, and a consumption
whose peer has been pinned is saved. -/
def Durable (s : Invites Key Ekm Proof) : InviteOp Key Ekm Proof → Bool
  | .install i =>
      match s.phase i with
      | .missed raw => s.raw = raw || raw = s.file
      | _ => true
  | .redeem _ a => !a.pins || a.fault = .none || a.fault = .reread
  | _ => true

/-- A list of records whose keys are apart and minted, and in which every record that
has pinned a peer is consumed. -/
structure Sealed (minted pinned : List Key) (records : List (Invite Key)) : Prop where
  nodup : (keysOf records).Nodup
  minted : ∀ key ∈ keysOf records, key ∈ minted
  spent : ∀ key ∈ pinned, Spent key records

structure Inv (proofOf : Key → Ekm → ProofDomain → Proof) (s : Invites Key Ekm Proof) :
    Prop where
  file : Sealed s.minted s.pinnedKeys (s.file.getD [])
  store : Sealed s.minted s.pinnedKeys s.store
  known : ∀ key ∈ s.pinnedKeys, key ∈ s.minted
  once : s.pinnedKeys.Nodup
  sound : ∀ c ∈ s.calls, c.Sound proofOf

variable {s t : Invites Key Ekm Proof}

omit [DecidableEq Key] in
theorem Sealed.wider {minted pinned : List Key} {records : List (Invite Key)}
    (h : Sealed minted pinned records) (key : Key) : Sealed (key :: minted) pinned records :=
  ⟨h.nodup, fun k hk => mem_cons_of_mem _ (h.minted k hk), h.spent⟩

/-- A merge never takes a consumption back, and of a record it knows it takes nothing
but the consumption. -/
theorem Sealed.merge {minted pinned pinned' : List Key} {mine disk : List (Invite Key)}
    (now : Nat) (hmine : Sealed minted pinned' mine) (hdisk : Sealed minted pinned disk)
    (hknown : ∀ key ∈ pinned', key ∈ pinned ∨ key ∈ keysOf mine) :
    Sealed minted pinned' (mergeConsumption now mine disk) := by
  induction disk generalizing mine with
  | nil => exact hmine
  | cons d disk ih =>
    obtain ⟨hd, hrest⟩ := forall_mem_cons.1 hdisk.minted
    have hspent : ∀ key ∈ pinned', Spent key (adopt now mine d) := fun key hkey =>
      adopt_spent (hmine.spent key hkey) fun hk =>
        (hknown key hkey).imp_left fun h => hdisk.spent key h d mem_cons_self hk
    refine ih ?_ ⟨(nodup_cons.1 hdisk.nodup).2, hrest,
      fun key hkey => (spent_cons.1 (hdisk.spent key hkey)).2⟩
      fun key hkey => (hknown key hkey).imp_right (mem_keysOf_adopt d)
    rcases adopt_keys now mine d with hsame | ⟨hnew, hadded⟩
    · exact ⟨hsame ▸ hmine.nodup, hsame ▸ hmine.minted, hspent⟩
    refine ⟨hadded ▸ nodup_append.2 ⟨hmine.nodup, by simp, ?_⟩, ?_, hspent⟩
    · intro k hk k' hk'
      rw [mem_singleton.1 hk']
      exact fun heq => hnew (heq ▸ hk)
    · rw [hadded]
      exact forall_mem_append.2 ⟨hmine.minted, forall_mem_singleton.2 hd⟩

variable {r : Invite Key}

omit [DecidableEq Key] [DecidableEq Proof] in
theorem Inv.consumed {found : Invite Key → Bool} (now : Nat)
    (h : Inv proofOf s) (hfind : s.store.find? found = some r) :
    Sealed s.minted (r.macKey :: s.pinnedKeys) (consume found now s.store) where
  nodup := by
    rw [consume_keys]
    exact h.store.nodup
  minted := by
    rw [consume_keys]
    exact h.store.minted
  spent := forall_mem_cons.2 ⟨consume_spent h.store.nodup hfind,
    fun key hkey => consume_keeps_spent (h.store.spent key hkey)⟩

omit [DecidableEq Key] [DecidableEq Proof] in
theorem Inv.unpinned (h : Inv proofOf s) (hr : r ∈ s.store)
    (hconsumed : r.consumedAt = none) : r.macKey ∉ s.pinnedKeys := by
  intro hkey
  have hspent := h.store.spent _ hkey r hr rfl
  rw [hconsumed] at hspent
  cases hspent

variable {a : Attempt Ekm Proof}

omit [DecidableEq Key] in
theorem sound_of_found {store : List (Invite Key)}
    (hfind : store.find? (found proofOf a.ekm a.proof a.now) = some r)
    (hredeemable : r.redeemable a.now = true) :
    Invocation.Sound proofOf ⟨r, store, a.ekm, a.proof, a.now, a.pins⟩ := by
  have hfound := find?_some hfind
  simp only [found, Bool.and_eq_true, decide_eq_true_eq] at hfound
  simp only [Invite.redeemable, Invite.youngerThan, Bool.and_eq_true, decide_eq_true_eq,
    Option.isNone_iff_eq_none] at hredeemable
  exact ⟨mem_of_find?_eq_some hfind, hfound.1, hredeemable.1, hredeemable.2⟩

theorem Inv.redeem (h : Inv proofOf s)
    (hfault : a.pins = true → a.fault = .none ∨ a.fault = .reread) :
    Inv proofOf (s.redeem proofOf labelOk a).2 := by
  unfold Invites.redeem
  cases hfind : s.store.find? (found proofOf a.ekm a.proof a.now) with
  | none => exact h
  | some r =>
    dsimp only
    split
    · exact h
    split
    · exact h
    rename_i hconsumed hredeemable
    split
    · exact h
    have hredeemable : r.redeemable a.now = true := by simpa using hredeemable
    have hsound := sound_of_found hfind hredeemable
    have hcalls := forall_mem_cons.2 ⟨hsound, h.sound⟩
    cases hpins : a.pins with rw [hpins] at hcalls
    | false =>
      exact { h with sound := hcalls }
    | true =>
      have hr : r ∈ s.store := hsound.retained
      have hkey : r.macKey ∈ keysOf s.store := mem_map_of_mem hr
      have hstore := h.consumed a.now hfind
      -- the file after the save and the cache hold the same records
      have hmerged := hstore.merge a.wall h.file (by
        intro key hpinned
        rcases mem_cons.1 hpinned with rfl | hpinned
        · right
          rw [consume_keys]
          exact hkey
        · exact .inl hpinned)
      have hknown : ∀ key ∈ r.macKey :: s.pinnedKeys, key ∈ s.minted :=
        forall_mem_cons.2 ⟨h.store.minted _ hkey, h.known⟩
      have honce : (r.macKey :: s.pinnedKeys).Nodup :=
        nodup_cons.2 ⟨h.unpinned hr hsound.unspent, h.once⟩
      rcases hfault hpins with hnone | hreread
      · rw [hnone]
        exact ⟨hmerged, hmerged, hknown, honce, hcalls⟩
      · rw [hreread]
        exact ⟨hmerged, hmerged, hknown, honce, hcalls⟩

omit [DecidableEq Proof] in
theorem Inv.mint {key : Key} {name : Option String} {role : TrustRole} {now wall : Nat}
    (h : Inv proofOf s) (hfresh : key ∉ s.minted) :
    Sealed (key :: s.minted) s.pinnedKeys
      (mergeConsumption wall (prune now (s.file.getD []) ++ [⟨key, now, none, name, role⟩])
        (s.file.getD [])) := by
  have hdisk := h.file.wider key
  have hsub : (keysOf (prune now (s.file.getD []))).Sublist (keysOf (s.file.getD [])) :=
    List.Sublist.map _ filter_sublist
  refine Sealed.merge wall ⟨?_, ?_, ?_⟩ hdisk fun k hk => .inl hk
  · simp only [keysOf, map_append, map_cons, map_nil]
    refine nodup_append.2 ⟨hsub.nodup h.file.nodup, by simp, ?_⟩
    intro k hk k' hk' heq
    rw [mem_singleton.1 hk'] at heq
    exact hfresh (h.file.minted key (heq ▸ hsub.subset hk))
  · intro k hk
    simp only [keysOf, map_append, map_cons, map_nil] at hk
    rcases mem_append.1 hk with hk | hk
    · exact hdisk.minted k (hsub.subset hk)
    · rw [mem_singleton.1 hk]
      exact mem_cons_self
  · intro k hk r hr hrk
    rcases mem_append.1 hr with hr | hr
    · exact h.file.spent k hk r (mem_of_mem_filter hr) hrk
    · rw [mem_singleton.1 hr] at hrk
      have hkey : key = k := hrk
      exact absurd (hkey ▸ h.known k hk) hfresh

theorem Inv.step {op : InviteOp Key Ekm Proof} (h : Inv proofOf s) (hC : s.Durable op = true)
    (hs : s.step proofOf labelOk op = some t) : Inv proofOf t := by
  cases op with simp only [Invites.step] at hs
  | start | finish =>
    split at hs <;> cases hs
    exact { h with }
  | read | check =>
    split at hs
    · split at hs <;> cases hs <;> exact { h with }
    · cases hs
  | install i =>
    split at hs
    · rename_i raw hphase
      simp only [Durable, hphase, Bool.or_eq_true, decide_eq_true_eq] at hC
      split at hs <;> cases hs
      · exact { h with }
      · rename_i hraw
        obtain rfl := hC.resolve_left hraw
        exact { h with store := h.file }
    · cases hs
  | redeem i a =>
    split at hs <;> cases hs
    refine Inv.redeem { h with } ?_
    intro hpins
    simpa [Durable, hpins] using hC
  | mint key now name role wall saved =>
    split at hs
    · cases hs
    rename_i hfresh
    have hknown : ∀ k ∈ s.pinnedKeys, k ∈ key :: s.minted :=
      fun k hk => mem_cons_of_mem _ (h.known k hk)
    split at hs <;> cases hs
    · exact ⟨h.mint hfresh, h.store.wider key, hknown, h.once, h.sound⟩
    · exact ⟨h.file.wider key, h.store.wider key, hknown, h.once, h.sound⟩

omit [DecidableEq Key] [DecidableEq Proof] in
theorem Inv.opened {file : Option (List (Invite Key))} (h : (keysOf (file.getD [])).Nodup) :
    Inv proofOf (Invites.opened file) := by
  have hsealed : Sealed (keysOf (file.getD [])) [] (file.getD []) :=
    ⟨h, fun _ hk => hk, nofun⟩
  exact ⟨hsealed, hsealed, nofun, nodup_nil, nofun⟩

/-- In every run in which a refresh that changes the cache installs what the file holds
and a consumption whose peer has been pinned is saved, no two calls of `on_matched`
return true for one record, and every call is for a retained record whose key gives the
proof, within the time to live. -/
theorem invite_pins_once (proofOf : Key → Ekm → ProofDomain → Proof) (labelOk : String → Bool)
    (file : Option (List (Invite Key))) (hkeys : (keysOf (file.getD [])).Nodup)
    (ops : List (InviteOp Key Ekm Proof)) (t : Invites Key Ekm Proof)
    (hr : Run (Invites.step proofOf labelOk) (fun s op => s.Durable op = true)
      (Invites.opened file) ops t) :
    t.pinnedKeys.Nodup ∧ ∀ c ∈ t.calls, c.Sound proofOf := by
  have hinv := hr.invariant (I := Inv proofOf) (fun _ _ _ hC hs h => h.step hC hs)
    (Inv.opened hkeys)
  exact ⟨hinv.once, hinv.sound⟩

/-! ## An invite that pins twice -/

def sumProof (key ekm : Nat) : ProofDomain → Nat
  | .client => key + ekm
  | .server => key + ekm + 1

def oneInvite : Option (List (Invite Nat)) := some [⟨7, 0, none, none, .full⟩]

def attempt (fault : SaveFault) : Attempt Nat Nat := ⟨5, 12, 60, true, fault, 60⟩

/-- A second call has read the file before the first saves the consumption, and
installs what it has read afterwards. -/
def slowRefresh : List (InviteOp Nat Nat Nat) :=
  [.start 0, .start 1, .read 1 true, .read 0 true, .check 0, .redeem 0 (attempt .none),
    .check 1, .install 1, .redeem 1 (attempt .none)]

/-- Both calls pin a peer with the one invite, and nothing has failed. -/
theorem slow_refresh_pins_twice :
    ∃ t, Run (Invites.step sumProof fun _ => true) (fun _ _ => True) (Invites.opened oneInvite)
        slowRefresh t ∧ t.pinnedKeys = [7, 7] := by
  exact Run.exists_of_exec (by decide +kernel)

/-- The same two calls, the second of which reads the file after the save; another
process has minted an invite in between. -/
def inTurn : List (InviteOp Nat Nat Nat) :=
  [.start 0, .start 1, .read 0 true, .check 0, .redeem 0 (attempt .reread),
    .mint 8 30 none .exec 30 true, .read 1 true, .check 1, .install 1,
    .redeem 1 (attempt .none)]

/-- The first call pins a peer, the second finds the invite consumed. -/
theorem invite_pins_once_inTurn :
    ∃ t, Run (Invites.step sumProof fun _ => true) (fun s op => s.Durable op = true)
        (Invites.opened oneInvite) inTurn t ∧
      (t.pinnedKeys.Nodup ∧ ∀ c ∈ t.calls, c.Sound sumProof) ∧ t.pinnedKeys = [7] := by
  refine Run.exists_exec (fun t => t.pinnedKeys = [7]) (by decide +kernel) fun t hrun ht => ?_
  exact ⟨invite_pins_once sumProof (fun _ => true) oneInvite (by decide) inTurn t hrun, ht⟩

end Invites

end SingleUse

end Qsh.Trust
