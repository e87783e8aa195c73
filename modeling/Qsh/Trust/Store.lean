import Qsh.Acl.Policy
import Qsh.Lib.Run
import Qsh.Lib.Update

/-!
# The shared trust store

`SharedTrustStore` (`trust/mod.rs`) answers every trust question from a cache of
`trust.toml`.  Each question starts with `refresh`: the file is read without a lock, the
text is compared with the cache under the read lock, and, if it differs, compared again
and put in the cache under the write lock.  The answer is then read under a lock of its
own.  A text that cannot be read or parsed leaves the snapshot in place for pin
authentication and suspends roles and grants.

Other processes replace the file between any two steps.  A call in progress carries the
moments it has lived through: what the file held, and the last content before it that was
good, whether the store has loaded it or not.
-/

namespace Qsh.Trust

open Qsh.Lib Qsh.Acl List Function

structure PinRole where
  name : String
  fingerprint : String
  role : Option TrustRole
  grants : Option PinGrants
  deriving DecidableEq

structure TrustStore where
  pins : List PinRole
  deriving DecidableEq

/-- The standing of a pinned device; none while suspended. -/
def standingOfPin (pins : List PinRole) (suspended : Bool) (principal : Principal)
    (authPath : AuthPath) (fingerprint : Option String) : Standing :=
  if suspended || authPath ≠ .pin then ⟨none, none⟩
  else
    match principal, fingerprint with
    | .device name, some fingerprint =>
        match pins.find? fun pin => pin.name = name && pin.fingerprint = fingerprint with
        | some pin => ⟨pin.role, pin.grants⟩
        | none => ⟨none, none⟩
    | _, _ => ⟨none, none⟩

inductive Call where
  | resolveStanding (principal : Principal) (authPath : AuthPath) (fingerprint : Option String)
  | lookupPin (fingerprint : String)
  | snapshot

inductive Answer where
  | standing (standing : Standing)
  | pin (principal : Option Principal)
  | store (store : TrustStore)
  deriving DecidableEq

def Call.answer (call : Call) (suspended : Bool) (store : TrustStore) : Answer :=
  match call with
  | .resolveStanding principal authPath fingerprint =>
      .standing (standingOfPin store.pins suspended principal authPath fingerprint)
  | .lookupPin fingerprint =>
      .pin ((store.pins.find? fun pin => pin.fingerprint = fingerprint).map
        fun pin => .device pin.name)
  | .snapshot => .store store

section Store

variable {Raw : Type}

/-- The last good store, and what was read since. -/
structure Cached (Raw : Type) where
  raw : Raw
  store : TrustStore
  failedRaw : Option Raw
  readFailed : Bool

namespace Cached

variable (cache : Cached Raw)

def rolesSuspended : Bool := cache.failedRaw.isSome || cache.readFailed

variable [DecidableEq Raw] in
def isCurrent : Option Raw → Bool
  | none => cache.readFailed
  | some raw =>
      !cache.readFailed &&
        match cache.failedRaw with
        | some failed => failed = raw
        | none => cache.raw = raw

variable (parse : Raw → Option TrustStore)

variable [DecidableEq Raw] in
/-- Takes what was read, if it is new. -/
def install (content : Option Raw) : Cached Raw :=
  if cache.isCurrent content then cache
  else
    match content with
    | none => { cache with readFailed := true }
    | some raw =>
        if cache.failedRaw.isNone && cache.raw = raw then { cache with readFailed := false }
        else
          match parse raw with
          | some store => { raw, store, failedRaw := none, readFailed := false }
          | none => { cache with readFailed := false, failedRaw := some raw }

/-- The cache holds what its texts parse to. -/
structure Valid : Prop where
  parsed : parse cache.raw = some cache.store
  failed : ∀ raw, cache.failedRaw = some raw → parse raw = none

end Cached

inductive Phase (Raw : Type) where
  | idle
  | started
  | read (content : Option Raw)
  | missed (content : Option Raw)
  | refreshed

/-- A moment: what the file holds, `none` if it cannot be read, and the last good content
it held. -/
structure Moment (Raw : Type) where
  file : Option Raw
  good : TrustStore

structure Answered (Raw : Type) where
  call : Call
  answer : Answer
  moments : List (Moment Raw)

/-- The file and the last good content it held, the cache, and the calls with their
moments. -/
structure Shared (Raw : Type) where
  file : Option Raw
  lastGood : TrustStore
  cache : Cached Raw
  phase : Nat → Phase Raw
  seen : Nat → List (Moment Raw)
  answered : List (Answered Raw)

/-- A step of a call, or the replacement of the file by another process. -/
inductive StoreOp (Raw : Type) where
  | replace (content : Option Raw)
  | start (i : Nat)
  | read (i : Nat)
  | check (i : Nat)
  | install (i : Nat)
  | answer (i : Nat) (call : Call)

namespace Shared

variable (parse : Raw → Option TrustStore)

variable [DecidableEq Raw] in
def act (s : Shared Raw) : StoreOp Raw → Option (Shared Raw)
  | .replace content =>
      some { s with file := content, lastGood := (content.bind parse).getD s.lastGood }
  | .start i =>
      match s.phase i with
      | .idle => some { s with phase := update s.phase i .started }
      | _ => none
  | .read i =>
      match s.phase i with
      | .started => some { s with phase := update s.phase i (.read s.file) }
      | _ => none
  | .check i =>
      match s.phase i with
      | .read content =>
          if s.cache.isCurrent content then
            some { s with phase := update s.phase i .refreshed }
          else some { s with phase := update s.phase i (.missed content) }
      | _ => none
  | .install i =>
      match s.phase i with
      | .missed content =>
          some { s with
            cache := s.cache.install parse content
            phase := update s.phase i .refreshed }
      | _ => none
  | .answer i call =>
      match s.phase i with
      | .refreshed =>
          some { s with
            phase := update s.phase i .idle
            answered := ⟨call, call.answer s.cache.rolesSuspended s.cache.store, s.seen i⟩ ::
              s.answered }
      | _ => none

/-- Every call in progress lives through the state as a moment. -/
def stamp (s : Shared Raw) : Shared Raw :=
  { s with
    seen := fun j =>
      match s.phase j with
      | .idle => []
      | _ => ⟨s.file, s.lastGood⟩ :: s.seen j }

variable [DecidableEq Raw] in
def step (s : Shared Raw) (op : StoreOp Raw) : Option (Shared Raw) :=
  (s.act parse op).map stamp

def opened (raw : Raw) (store : TrustStore) : Shared Raw where
  file := some raw
  lastGood := store
  cache := { raw, store, failedRaw := none, readFailed := false }
  phase := fun _ => .idle
  seen := fun _ => []
  answered := []

end Shared

/-- What follows from a moment: roles and grants from what the file holds, none if it
does not read or parse; pins from what it holds, or else from the last good content. -/
def Moment.answer (parse : Raw → Option TrustStore) (m : Moment Raw) (call : Call) : Answer :=
  match m.file.bind parse with
  | some store => call.answer false store
  | none => call.answer true m.good

/-- The answer is that of a moment within the call. -/
def Answered.Follows (parse : Raw → Option TrustStore) (a : Answered Raw) : Prop :=
  ∃ m ∈ a.moments, a.answer = m.answer parse a.call

variable [DecidableEq Raw] in
/-- A content that does not read or parse replaces the file only when the last good one is
in the cache.  A refresh that changes the cache has read a content that the file has held
since the start of every call in progress, and puts no older store back while the file does
not read or parse. -/
def Timely (parse : Raw → Option TrustStore) (s : Shared Raw) : StoreOp Raw → Prop
  | .replace content => content.bind parse = none → s.cache.store = s.lastGood
  | .install i =>
      match s.phase i with
      | .missed content =>
          s.cache.isCurrent content = true ∨
            (∀ j, s.phase j ≠ .idle → ∃ m ∈ s.seen j, m.file = content) ∧
              (s.file.bind parse = none →
                content.bind parse = none ∨ content.bind parse = some s.lastGood)
      | _ => True
  | _ => True

/-! ## The cache -/

section Cache

variable [DecidableEq Raw] {parse : Raw → Option TrustStore} {cache : Cached Raw}
  {content : Option Raw}

def Cached.view (cache : Cached Raw) : Option TrustStore :=
  if cache.rolesSuspended then none else some cache.store

theorem view_of_current (hvalid : cache.Valid parse) (h : cache.isCurrent content = true) :
    cache.view = content.bind parse := by
  cases content with
  | none =>
    have hread : cache.readFailed = true := h
    simp [Cached.view, Cached.rolesSuspended, hread]
  | some raw =>
    simp only [Cached.isCurrent, Bool.and_eq_true, Bool.not_eq_true'] at h
    obtain ⟨hread, hraw⟩ := h
    cases hfailed : cache.failedRaw with simp only [hfailed, decide_eq_true_eq] at hraw
    | some failed =>
      subst hraw
      simp [Cached.view, Cached.rolesSuspended, hfailed, hvalid.failed _ hfailed]
    | none =>
      simp [Cached.view, Cached.rolesSuspended, hfailed, hread, ← hraw, hvalid.parsed]

theorem install_spec (hvalid : cache.Valid parse) (content : Option Raw) :
    (cache.install parse content).Valid parse ∧
      (cache.install parse content).view = content.bind parse ∧
      ((cache.install parse content).store = cache.store ∨
        content.bind parse = some (cache.install parse content).store) := by
  unfold Cached.install
  split
  · exact ⟨hvalid, view_of_current hvalid ‹_›, .inl rfl⟩
  cases content with
  | none =>
    refine ⟨⟨hvalid.parsed, hvalid.failed⟩, ?_, .inl rfl⟩
    simp [Cached.view, Cached.rolesSuspended]
  | some raw =>
    dsimp only
    split
    · rename_i hsame
      simp only [Bool.and_eq_true, Option.isNone_iff_eq_none, decide_eq_true_eq] at hsame
      refine ⟨⟨hvalid.parsed, hvalid.failed⟩, ?_, .inl rfl⟩
      simp [Cached.view, Cached.rolesSuspended, hsame.1, ← hsame.2, hvalid.parsed]
    cases hparse : parse raw with
    | some store =>
      refine ⟨⟨hparse, nofun⟩, ?_, .inr ?_⟩
      · simp [Cached.view, Cached.rolesSuspended, hparse]
      · simp [hparse]
    | none =>
      refine ⟨⟨hvalid.parsed, ?_⟩, ?_, .inl rfl⟩
      · intro failed h
        cases h
        exact hparse
      · simp [Cached.view, Cached.rolesSuspended, hparse]

end Cache

/-! ## The calls in progress -/

namespace Shared

variable {parse : Raw → Option TrustStore}

/-- What holds of a call in progress.  Its own content is one it has lived through;
after its refresh the cache answers as one of its moments; and the snapshot comes from a
content of one of them, or is the last good one of all that have a broken content. -/
structure InProgress (parse : Raw → Option TrustStore) (cache : Cached Raw) (phase : Phase Raw)
    (seen : List (Moment Raw)) : Prop where
  own : ∀ content, phase = .read content ∨ phase = .missed content → ∃ m ∈ seen, m.file = content
  refreshed : phase = .refreshed → ∃ m ∈ seen, cache.view = m.file.bind parse
  good : (∀ m ∈ seen, m.file.bind parse = none → m.good = cache.store) ∨
    ∃ m ∈ seen, m.file.bind parse = some cache.store

structure Inv (parse : Raw → Option TrustStore) (s : Shared Raw) : Prop where
  valid : s.cache.Valid parse
  broken : s.file.bind parse = none → s.lastGood = s.cache.store
  rest : ∀ j, s.phase j = .idle → s.seen j = []
  calls : ∀ j, s.phase j ≠ .idle → InProgress parse s.cache (s.phase j) (s.seen j)
  now : ∀ j, s.phase j ≠ .idle → ∃ m ∈ s.seen j, m.file = s.file
  answered : ∀ a ∈ s.answered, a.Follows parse

variable {s t : Shared Raw}

theorem stamp_seen {j : Nat} (h : t.phase j ≠ .idle) :
    t.stamp.seen j = ⟨t.file, t.lastGood⟩ :: t.seen j := by
  unfold stamp
  dsimp only
  split
  · exact absurd ‹_› h
  · rfl

variable {phase : Phase Raw} {seen : List (Moment Raw)}

theorem InProgress.later {cache : Cached Raw} (h : InProgress parse cache phase seen)
    {file : Option Raw} {good : TrustStore}
    (hbroken : file.bind parse = none → good = cache.store) :
    InProgress parse cache phase (⟨file, good⟩ :: seen) where
  own := by
    intro content hphase
    obtain ⟨m, hm, hfile⟩ := h.own content hphase
    exact ⟨m, mem_cons_of_mem _ hm, hfile⟩
  refreshed := by
    intro hphase
    obtain ⟨m, hm, hview⟩ := h.refreshed hphase
    exact ⟨m, mem_cons_of_mem _ hm, hview⟩
  good := by
    rcases h.good with hall | ⟨m, hm, hgood⟩
    · exact .inl (forall_mem_cons.2 ⟨hbroken, hall⟩)
    · exact .inr ⟨m, mem_cons_of_mem _ hm, hgood⟩

variable [DecidableEq Raw] in
theorem InProgress.install {cache : Cached Raw}
    (h : InProgress parse cache phase seen) (hvalid : cache.Valid parse) {content : Option Raw}
    (hcontent : ∃ m ∈ seen, m.file = content) :
    InProgress parse (cache.install parse content) phase seen := by
  obtain ⟨-, hview, hstore⟩ := install_spec hvalid content
  obtain ⟨m, hm, rfl⟩ := hcontent
  refine ⟨h.own, fun _ => ⟨m, hm, hview⟩, ?_⟩
  rcases hstore with hsame | hnew
  · rw [hsame]
    exact h.good
  · exact .inr ⟨m, hm, hnew⟩

theorem Inv.stamped (hvalid : t.cache.Valid parse)
    (hbroken : t.file.bind parse = none → t.lastGood = t.cache.store)
    (hcalls : ∀ j, t.phase j ≠ .idle →
      InProgress parse t.cache (t.phase j) (⟨t.file, t.lastGood⟩ :: t.seen j))
    (hanswered : ∀ a ∈ t.answered, a.Follows parse) : Inv parse t.stamp where
  valid := hvalid
  broken := hbroken
  rest := by
    intro j hj
    have hidle : t.phase j = .idle := hj
    unfold stamp
    dsimp only
    rw [hidle]
  calls := by
    intro j hj
    have hbusy : t.phase j ≠ .idle := hj
    rw [stamp_seen hbusy]
    exact hcalls j hbusy
  now := by
    intro j hj
    have hbusy : t.phase j ≠ .idle := hj
    rw [stamp_seen hbusy]
    exact ⟨_, mem_cons_self, rfl⟩
  answered := hanswered

theorem Inv.moves {i : Nat} (h : Inv parse s)
    (hnew : InProgress parse s.cache phase (⟨s.file, s.lastGood⟩ :: s.seen i)) :
    ∀ j, update s.phase i phase j ≠ .idle → InProgress parse s.cache (update s.phase i phase j)
        (⟨s.file, s.lastGood⟩ :: s.seen j) := by
  intro j hj
  obtain rfl | hji := eq_or_ne j i
  · rw [update_self]
    exact hnew
  · rw [update_of_ne hji] at hj ⊢
    exact (h.calls j hj).later h.broken

theorem InProgress.follows {cache : Cached Raw}
    (h : InProgress parse cache .refreshed seen) (call : Call) :
    Answered.Follows parse ⟨call, call.answer cache.rolesSuspended cache.store, seen⟩ := by
  obtain ⟨m, hm, hview⟩ := h.refreshed rfl
  unfold Cached.view at hview
  cases hsuspended : cache.rolesSuspended with
  | false =>
    rw [hsuspended, if_neg Bool.false_ne_true] at hview
    refine ⟨m, hm, ?_⟩
    simp only [Moment.answer, ← hview]
  | true =>
    rw [hsuspended, if_pos rfl] at hview
    rcases h.good with hall | ⟨m', hm', hgood⟩
    · refine ⟨m, hm, ?_⟩
      simp only [Moment.answer, ← hview, hall m hm hview.symm]
    -- the moment for the roles and the one for the pins may differ
    cases call with
    | resolveStanding principal authPath fingerprint =>
      refine ⟨m, hm, ?_⟩
      simp only [Moment.answer, ← hview, Call.answer, standingOfPin, Bool.true_or, if_true]
    | lookupPin | snapshot =>
      refine ⟨m', hm', ?_⟩
      simp only [Moment.answer, hgood, Call.answer]

/-! ## What a step keeps -/

section

variable (h : Inv parse s) {i : Nat}
include h

theorem Inv.replaces {content : Option Raw}
    (hC : content.bind parse = none → s.cache.store = s.lastGood) :
    Inv parse
      (stamp { s with file := content, lastGood := (content.bind parse).getD s.lastGood }) := by
  have hbroken : content.bind parse = none →
      (content.bind parse).getD s.lastGood = s.cache.store := by
    intro hnone
    rw [hnone]
    exact (hC hnone).symm
  exact .stamped h.valid hbroken (fun j hj => (h.calls j hj).later hbroken) h.answered

/-- A step that only moves a call on. -/
theorem Inv.moved (hnew : InProgress parse s.cache phase (⟨s.file, s.lastGood⟩ :: s.seen i)) :
    Inv parse (stamp { s with phase := update s.phase i phase }) :=
  .stamped h.valid h.broken (h.moves hnew) h.answered

theorem Inv.starts (hphase : s.phase i = .idle) :
    Inv parse (stamp { s with phase := update s.phase i .started }) := by
  refine h.moved ⟨by simp, nofun, .inl ?_⟩
  rw [h.rest i hphase]
  exact forall_mem_singleton.2 h.broken

theorem Inv.reads (hphase : s.phase i = .started) :
    Inv parse (stamp { s with phase := update s.phase i (.read s.file) }) := by
  have hcall := (h.calls i (by rw [hphase]; exact nofun)).later h.broken
  refine h.moved ⟨fun content hread => ?_, nofun, hcall.good⟩
  obtain rfl : s.file = content := by simpa using hread
  exact ⟨_, mem_cons_self, rfl⟩

variable [DecidableEq Raw] in
theorem Inv.finds_current {content : Option Raw} (hphase : s.phase i = .read content)
    (hcurrent : s.cache.isCurrent content = true) :
    Inv parse (stamp { s with phase := update s.phase i .refreshed }) := by
  have hcall := (h.calls i (by rw [hphase]; exact nofun)).later h.broken
  obtain ⟨m, hm, hfile⟩ := hcall.own content (.inl hphase)
  refine h.moved ⟨by simp, fun _ => ⟨m, hm, ?_⟩, hcall.good⟩
  rw [hfile]
  exact view_of_current h.valid hcurrent

theorem Inv.misses {content : Option Raw} (hphase : s.phase i = .read content) :
    Inv parse (stamp { s with phase := update s.phase i (.missed content) }) := by
  have hcall := (h.calls i (by rw [hphase]; exact nofun)).later h.broken
  refine h.moved ⟨fun content' hmissed => ?_, nofun, hcall.good⟩
  obtain rfl : content = content' := by simpa using hmissed
  exact hcall.own content (.inl hphase)

variable [DecidableEq Raw] in
/-- Every call in progress keeps what it has, whether the cache changes or not. -/
theorem Inv.installs {content : Option Raw} (hphase : s.phase i = .missed content)
    (hC : s.cache.isCurrent content = true ∨
      (∀ j, s.phase j ≠ .idle → ∃ m ∈ s.seen j, m.file = content) ∧
        (s.file.bind parse = none →
          content.bind parse = none ∨ content.bind parse = some s.lastGood)) :
    Inv parse (stamp { s with
      cache := s.cache.install parse content
      phase := update s.phase i .refreshed }) := by
  obtain ⟨hvalid, hview, hstore⟩ := install_spec h.valid content
  have hsame : s.cache.isCurrent content = true → s.cache.install parse content = s.cache :=
    fun hcurrent => if_pos hcurrent
  have hbroken : s.file.bind parse = none →
      s.lastGood = (s.cache.install parse content).store := by
    intro hfile
    rcases hC with hcurrent | ⟨-, hkeeps⟩
    · rw [hsame hcurrent]
      exact h.broken hfile
    rcases hstore with hold | hnew
    · rw [hold]
      exact h.broken hfile
    rcases hkeeps hfile with hnone | hgood
    · cases hnone.symm.trans hnew
    · exact Option.some.inj (hgood.symm.trans hnew)
  have hcalls : ∀ j, s.phase j ≠ .idle → InProgress parse (s.cache.install parse content)
      (s.phase j) (⟨s.file, s.lastGood⟩ :: s.seen j) := by
    intro j hj
    rcases hC with hcurrent | ⟨hlived, -⟩
    · rw [hsame hcurrent]
      exact (h.calls j hj).later h.broken
    · exact ((h.calls j hj).install h.valid (hlived j hj)).later hbroken
  refine .stamped hvalid hbroken (fun j hj => ?_) h.answered
  dsimp only at hj ⊢
  obtain rfl | hji := eq_or_ne j i
  · rw [update_self]
    have hcall := hcalls j (by rw [hphase]; exact nofun)
    obtain ⟨m, hm, hfile⟩ := hcall.own content (.inr hphase)
    refine ⟨by simp, fun _ => ⟨m, hm, ?_⟩, hcall.good⟩
    rw [hfile]
    exact hview
  · rw [update_of_ne hji] at hj ⊢
    exact hcalls j hj

theorem Inv.answers (hphase : s.phase i = .refreshed) (call : Call) :
    Inv parse (stamp { s with
      phase := update s.phase i .idle
      answered := ⟨call, call.answer s.cache.rolesSuspended s.cache.store, s.seen i⟩ ::
        s.answered }) := by
  have hcall := h.calls i (by rw [hphase]; exact nofun)
  rw [hphase] at hcall
  refine .stamped h.valid h.broken (fun j hj => ?_)
    (forall_mem_cons.2 ⟨hcall.follows call, h.answered⟩)
  dsimp only at hj ⊢
  obtain rfl | hji := eq_or_ne j i
  · exact absurd (update_self ..) hj
  · rw [update_of_ne hji] at hj ⊢
    exact (h.calls j hj).later h.broken

end

variable {raw : Raw} {store : TrustStore}

theorem Inv.opened (h : parse raw = some store) :
    Inv parse (Shared.opened raw store) where
  valid := ⟨h, nofun⟩
  broken := fun _ => rfl
  rest := fun _ _ => rfl
  calls := fun _ h => absurd rfl h
  now := fun _ h => absurd rfl h
  answered := nofun

variable [DecidableEq Raw]

theorem Inv.step {op : StoreOp Raw} (h : Inv parse s) (hC : Timely parse s op)
    (hs : s.step parse op = some t) : Inv parse t := by
  obtain ⟨u, hact, rfl⟩ := Option.map_eq_some_iff.1 hs
  cases op with simp only [act] at hact
  | replace content =>
    cases hact
    exact h.replaces hC
  | start i =>
    split at hact <;> cases hact
    exact h.starts ‹_›
  | read i =>
    split at hact <;> cases hact
    exact h.reads ‹_›
  | check i =>
    split at hact
    · split at hact <;> cases hact
      · exact h.finds_current ‹_› ‹_›
      · exact h.misses ‹_›
    · cases hact
  | install i =>
    split at hact <;> cases hact
    rename_i content hphase
    simp only [Timely, hphase] at hC
    exact h.installs hphase hC
  | answer i call =>
    split at hact <;> cases hact
    exact h.answers ‹_› call

/-- In every run whose replacements and refreshes are timely, every answer follows from
a moment of its own call. -/
theorem answers_are_not_older (parse : Raw → Option TrustStore) (raw : Raw) (store : TrustStore)
    (hopen : parse raw = some store) (ops : List (StoreOp Raw)) (t : Shared Raw)
    (hr : Run (step parse) (Timely parse) (opened raw store) ops t) :
    ∀ a ∈ t.answered, a.Follows parse :=
  (hr.invariant (I := Inv parse) (fun _ _ _ hC hs h => h.step hC hs) (Inv.opened hopen)).answered

/-- A refresh that changes the cache finds the content it read still in the file. -/
def Unreplaced (parse : Raw → Option TrustStore) (s : Shared Raw) : StoreOp Raw → Bool
  | .replace content => (content.bind parse).isSome || s.cache.store = s.lastGood
  | .install i =>
      match s.phase i with
      | .missed content => content = s.file
      | _ => true
  | _ => true

theorem timely_of_unreplaced (hopen : parse raw = some store)
    {ops : List (StoreOp Raw)} (hr : Run (step parse) (fun s op => Unreplaced parse s op = true)
      (opened raw store) ops t) :
    Run (step parse) (Timely parse) (opened raw store) ops t := by
  refine hr.mono_of_invariant (I := Inv parse) (fun _ _ _ hC hs h => h.step hC hs) ?_
    (Inv.opened hopen)
  intro s op h hC
  cases op with
  | replace content =>
    simp only [Unreplaced, Bool.or_eq_true, decide_eq_true_eq] at hC
    intro hnone
    exact hC.resolve_left (by simp [hnone])
  | install i =>
    simp only [Timely, Unreplaced] at hC ⊢
    split
    · rename_i content hphase
      simp only [hphase, decide_eq_true_eq] at hC
      right
      rw [hC]
      exact ⟨h.now, .inl⟩
    · trivial
  | _ => trivial

end Shared

end Store

/-! ## A slow reader -/

namespace Shared

def pinned (role : TrustRole) : TrustStore := ⟨[⟨"laptop", "f", some role, none⟩]⟩

def parseRole : Option TrustRole → Option TrustStore := fun role => role.map pinned

/-- A text that parses to a store with the pin or without. -/
def parsePin : Option (Option TrustRole) → Option TrustStore :=
  fun text => text.map fun role => role.elim ⟨[]⟩ pinned

def laptop : Call := .resolveStanding (.device "laptop") .pin (some "f")

/-- A call reads the wide content and is slow.  The content is narrowed, a second call
starts, reads the narrow content and puts it in the cache.  The slow call then puts the
wide content back. -/
def slowReader : List (StoreOp (Option TrustRole)) :=
  [.start 0, .read 0, .replace (some (some .readOnly)), .start 1, .read 1, .check 1,
    .install 1, .check 0, .install 0, .answer 1 laptop]

/-- The pin is removed, and the file is broken before any call has read it without the
pin. -/
def removedUnread : List (StoreOp (Option (Option TrustRole))) :=
  [.replace (some (some none)), .replace (some none), .start 0, .read 0, .check 0, .install 0,
    .answer 0 (.lookupPin "f")]

/-- The second call started after the narrowing and is answered from the content before it.
And a call that starts after the removal is answered from the content before that. -/
theorem slow_reader_widens_an_answer :
    (∃ t, Run (step parseRole) (fun _ _ => True) (opened (some .full) (pinned .full)) slowReader t ∧
      ∃ a ∈ t.answered, a.answer = .standing ⟨some .full, none⟩ ∧
        (∀ m ∈ a.moments, m.file = some (some .readOnly)) ∧ ¬ a.Follows parseRole) ∧
    ∃ t, Run (step parsePin) (fun _ _ => True) (opened (some (some .full)) (pinned .full))
        removedUnread t ∧
      ∃ a ∈ t.answered, a.answer = .pin (some (.device "laptop")) ∧
        (∀ m ∈ a.moments, m.good = ⟨[]⟩) ∧ ¬ a.Follows parsePin := by
  refine ⟨Run.exists_exec (fun t => ∃ a ∈ t.answered, a.answer = .standing ⟨some .full, none⟩ ∧
      (∀ m ∈ a.moments, m.file = some (some .readOnly)) ∧
      ¬ ∃ m ∈ a.moments, a.answer = m.answer parseRole a.call)
    (by decide +kernel) fun _ _ hanswer => hanswer, ?_⟩
  exact Run.exists_exec (fun t => ∃ a ∈ t.answered, a.answer = .pin (some (.device "laptop")) ∧
      (∀ m ∈ a.moments, m.good = ⟨[]⟩) ∧
      ¬ ∃ m ∈ a.moments, a.answer = m.answer parsePin a.call)
    (by decide +kernel) fun _ _ hanswer => hanswer

/-- The content is narrowed during a call, and later the file is broken. -/
def narrowedBetween : List (StoreOp (Option TrustRole)) :=
  [.start 0, .read 0, .check 0, .replace (some (some .readOnly)), .start 1, .read 1, .check 1,
    .install 1, .answer 0 laptop, .answer 1 laptop, .replace (some none), .start 0, .read 0,
    .check 0, .install 0, .answer 0 laptop, .start 0, .read 0, .check 0, .answer 0 (.lookupPin "f")]

/-- Both calls end with an answer of their own time, here the narrow one.  After the file is
broken there is no role, and the pin is the one of the last good content. -/
theorem answers_are_not_older_narrowed :
    ∃ t, Run (step parseRole) (Timely parseRole) (opened (some .full) (pinned .full))
        narrowedBetween t ∧
      (∀ a ∈ t.answered, a.Follows parseRole) ∧ t.answered.map (·.answer) =
        [.pin (some (.device "laptop")), .standing ⟨none, none⟩,
          .standing ⟨some .readOnly, none⟩, .standing ⟨some .readOnly, none⟩] := by
  obtain ⟨t, hplayed, hanswers⟩ : ∃ t, Run (step parseRole)
      (fun s op => Unreplaced parseRole s op = true) (opened (some .full) (pinned .full))
        narrowedBetween t ∧ t.answered.map (·.answer) =
        [.pin (some (.device "laptop")), .standing ⟨none, none⟩,
          .standing ⟨some .readOnly, none⟩, .standing ⟨some .readOnly, none⟩] :=
    Run.exists_of_exec (by decide +kernel)
  have hopen : parseRole (some .full) = some (pinned .full) := rfl
  have hrun := timely_of_unreplaced hopen hplayed
  exact ⟨t, hrun, answers_are_not_older parseRole (some .full) (pinned .full) hopen
    narrowedBetween t hrun, hanswers⟩

end Shared

end Qsh.Trust
