import Qsh.Lib.Update
import Qsh.Reverse.Registry

/-!
# Rows and connections

`Inv` is what generations give: a name hands out larger and larger ones, a
generation belongs to one connection, and the row of a name is never older than
an accepted registration of it.  It needs that no tombstone is pruned whose name
still has a connection (`TombstonesKept`).

Over it stands `live_rows_are_published`: when no connection is between two of its
steps, a live row has its connection in the connection table.  What has to be kept
away from is a rollback that restores a row whose connection has gone meanwhile
(`Backed`): what to restore is decided under one lock and restored under another.
-/

namespace Qsh.Reverse

open Qsh.Lib Option List Function

variable {ν φ : Type} [DecidableEq ν] [DecidableEq φ]

theorem lookup_filter_fst (p : ν → Bool) (l : List (ν × Nat)) (k : ν) :
    (l.filter fun e => p e.1).lookup k = if p k then l.lookup k else none := by
  induction l with
  | nil => simp
  | cons e rest ih =>
    obtain ⟨a, v⟩ := e
    rw [filter_cons, lookup_cons]
    obtain rfl | hk := eq_or_ne k a
    · by_cases hp : p k <;> simp [hp, ih]
    · have hne : (k == a) = false := by simpa using hk
      split <;> simp [lookup_cons, hne, ih]

namespace RegistryState

variable {r r' : RegistryState ν φ} {name : ν} {fingerprint : φ} {o : RegisterOutcome ν φ}

theorem admitEntry_spec (h : r.admitEntry name fingerprint = some (r', o)) :
    o.entry.name = name ∧ o.entry.fingerprint = fingerprint ∧ o.replacedEntry = r.entries name ∧
      (∀ e, r.entries name = some e → e.fingerprint = fingerprint ∧
        e.generation < o.entry.generation) ∧
      (∀ k, r.lastGeneration.lookup name = some k → k < o.entry.generation) ∧
      r'.entries = update r.entries name (some o.entry) ∧
      r'.lastGeneration =
        (name, o.entry.generation) :: r.lastGeneration.filter fun e => e.1 ≠ name := by
  have hnext : ∀ k, r.lastGeneration.lookup name = some k → k < r.nextGeneration name := by
    intro k hk
    unfold nextGeneration
    rw [hk]
    exact Nat.lt_succ_self k
  simp only [admitEntry] at h
  split at h
  · rename_i existing hrow
    split at h
    · cases h
    rename_i hsame
    cases h
    refine ⟨rfl, rfl, hrow.symm, ?_, ?_, rfl, rfl⟩
    · intro e he
      cases hrow.symm.trans he
      exact ⟨not_not.1 hsame, Nat.lt_of_succ_le (le_max_right _ _)⟩
    · intro k hk
      exact lt_of_lt_of_le (hnext k hk) (le_max_left _ _)
  · rename_i hrow
    cases h
    refine ⟨rfl, rfl, hrow.symm, ?_, hnext, rfl, rfl⟩
    intro e he
    cases hrow.symm.trans he

theorem lookup_admitted (h : r.admitEntry name fingerprint = some (r', o)) {evict : List ν}
    (hevict : r'.MayEvict evict) (n : ν) :
    (r'.pruneTombstones evict).lastGeneration.lookup n =
      if n = name then some o.entry.generation
      else if n ∈ evict then none else r.lastGeneration.lookup n := by
  obtain ⟨-, -, -, -, -, hentries, hlast⟩ := admitEntry_spec h
  have hname : name ∉ evict := by
    intro hmem
    have := hevict.2.1 name hmem
    simp [evictable, hentries] at this
  have hprune := lookup_filter_fst (fun m => Decidable.decide (m ∉ evict)) r'.lastGeneration n
  have hfilter := lookup_filter_fst (fun m => Decidable.decide (m ≠ name)) r.lastGeneration n
  unfold pruneTombstones
  rw [hprune, hlast, lookup_cons, hfilter]
  obtain rfl | hn := eq_or_ne n name
  · simp [hname]
  · have hne : (n == name) = false := by simpa using hn
    rw [hne, if_neg hn]
    by_cases hmem : n ∈ evict <;> simp [hn, hmem]

end RegistryState

namespace Listen

def Pending (s : Listen ν φ) (conn : Nat) (o : RegisterOutcome ν φ) : Prop :=
  s.stage conn = some (.waiting o) ∨ ∃ target, s.stage conn = some (.rolling o target)

variable {s t : Listen ν φ} {c : Nat} {st' : Stage ν φ} {op : ListenOp ν φ}

variable {o : RegisterOutcome ν φ}

omit [DecidableEq ν] [DecidableEq φ] in
theorem Pending.holds {conn : Nat}
    (h : s.Pending conn o) : s.Holds conn o.entry.name o.entry.generation := by
  rcases h with h | ⟨target, h⟩
  all_goals exact ⟨_, o.entry, h, rfl, rfl, rfl⟩

/-- What relates the entries, the table and the connections. -/
structure Inv (s : Listen ν φ) : Prop where
  named : ∀ n e, s.registry.entries n = some e → e.name = n
  tombRow : ∀ n e, s.registry.entries n = some e →
    ∃ k, s.registry.lastGeneration.lookup n = some k ∧ e.generation ≤ k
  tombHeld : ∀ c n g, s.Holds c n g → ∃ k, s.registry.lastGeneration.lookup n = some k ∧ g ≤ k
  unique : ∀ c c' n g, s.Holds c n g → s.Holds c' n g → c = c'
  published : ∀ n g c, s.conns n = some (g, c) →
    ∃ e, s.stage c = some (.driving e) ∧ e.name = n ∧ e.generation = g
  rowGe : ∀ c n g e, s.Accepted c n g → s.registry.entries n = some e → g ≤ e.generation
  replaced : ∀ c o p, s.Pending c o → o.replacedEntry = some p →
    p.name = o.entry.name ∧ p.fingerprint = o.entry.fingerprint ∧ p.generation < o.entry.generation
  replacedGe : ∀ c o p c' g, s.Pending c o → o.replacedEntry = some p →
    s.Accepted c' o.entry.name g → g < o.entry.generation → g ≤ p.generation
  target : ∀ c o p, s.stage c = some (.rolling o (some p)) → o.replacedEntry = some p

variable {n name : ν} {g : Nat}

omit [DecidableEq φ] in
theorem Inv.accepted_holds (h : s.Inv) (ha : s.Accepted c n g) : s.Holds c n g := by
  rcases ha with ⟨o, hst, hn, hg⟩ | hconn
  · exact ⟨_, o.entry, hst, rfl, hn, hg⟩
  · obtain ⟨e, hst, hn, hg⟩ := h.published n g c hconn
    exact ⟨_, e, hst, rfl, hn, hg⟩

omit [DecidableEq φ] in
theorem Inv.weaken (h : s.Inv) (hlast : t.registry.lastGeneration = s.registry.lastGeneration)
    (hholds : ∀ c n g, t.Holds c n g → s.Holds c n g)
    (haccepted : ∀ c n g, t.Accepted c n g → s.Accepted c n g)
    (hpending : ∀ c o, t.Pending c o → s.Pending c o)
    (hpublished : ∀ n g c, t.conns n = some (g, c) →
      ∃ e, t.stage c = some (.driving e) ∧ e.name = n ∧ e.generation = g)
    (htarget : ∀ c o p, t.stage c = some (.rolling o (some p)) → o.replacedEntry = some p)
    (hrow : ∀ n e, t.registry.entries n = some e → e.name = n ∧
      (∃ k, s.registry.lastGeneration.lookup n = some k ∧ e.generation ≤ k) ∧
      ∀ c g, t.Accepted c n g → g ≤ e.generation) : t.Inv where
  named := fun n e he => (hrow n e he).1
  tombRow := fun n e he => hlast ▸ (hrow n e he).2.1
  tombHeld := fun c n g hh => hlast ▸ h.tombHeld c n g (hholds c n g hh)
  unique := fun c c' n g hc hc' => h.unique c c' n g (hholds c n g hc) (hholds c' n g hc')
  published := hpublished
  rowGe := fun c n g e ha he => (hrow n e he).2.2 c g ha
  replaced := fun c o p hp hr => h.replaced c o p (hpending c o hp) hr
  replacedGe := fun c o p c' g hp hr ha hg =>
    h.replacedGe c o p c' g (hpending c o hp) hr (haccepted c' _ g ha) hg
  target := htarget

omit [DecidableEq φ] in
theorem Inv.rows (h : s.Inv) (haccepted : ∀ c n g, t.Accepted c n g → s.Accepted c n g)
    (hrow : ∀ n e, t.registry.entries n = some e →
      ∃ e', s.registry.entries n = some e' ∧ e'.name = e.name ∧ e'.generation = e.generation) :
    ∀ n e, t.registry.entries n = some e → e.name = n ∧
      (∃ k, s.registry.lastGeneration.lookup n = some k ∧ e.generation ≤ k) ∧
      ∀ c g, t.Accepted c n g → g ≤ e.generation := by
  intro n e he
  obtain ⟨e', he', hname, hgen⟩ := hrow n e he
  rw [← hname, ← hgen]
  exact ⟨h.named n e' he', h.tombRow n e' he',
    fun c g ha => h.rowGe c n g e' (haccepted c n g ha) he'⟩

/-! ## Reading a stage after a step -/

/-- Only the stage of one connection changed. -/
abbrev Moved (s t : Listen ν φ) (c : Nat) (st : Stage ν φ) : Prop :=
  ∀ c', t.stage c' = if c' = c then some st else s.stage c'

omit [DecidableEq ν] [DecidableEq φ] in
theorem setStage_moved (s : Listen ν φ) (c : Nat) (st : Stage ν φ) :
    Moved s (s.setStage c st) c st := by
  intro c'
  show update s.stage c (some st) c' = _
  rw [update_apply]

variable {st : Stage ν φ}

omit [DecidableEq ν] [DecidableEq φ] in
theorem Moved.read {c' : Nat} {x : Stage ν φ} (h : Moved s t c st) (hx : t.stage c' = some x) :
    c' = c ∧ st = x ∨ c' ≠ c ∧ s.stage c' = some x := by
  rw [h] at hx
  split at hx
  · exact .inl ⟨‹_›, some.inj hx⟩
  · exact .inr ⟨‹_›, hx⟩

omit [DecidableEq ν] [DecidableEq φ] in
theorem pending_iff : s.Pending c o ↔
    ∃ x, s.stage c = some x ∧ (x = .waiting o ∨ ∃ target, x = .rolling o target) := by
  simp [Pending, and_or_left, exists_or]

omit [DecidableEq ν] [DecidableEq φ] in
theorem holds_of_stage (hst : s.stage c = some st) (hstage : Moved s t c st')
    (hentry : ∀ e, st'.entry? = some e → st.entry? = some e) :
    ∀ c' n g, t.Holds c' n g → s.Holds c' n g := by
  rintro c' n g ⟨x, e, hx, he, hn, hg⟩
  rcases hstage.read hx with ⟨rfl, rfl⟩ | ⟨-, hx⟩
  · exact ⟨st, e, hst, hentry e he, hn, hg⟩
  · exact ⟨x, e, hx, he, hn, hg⟩

omit [DecidableEq ν] [DecidableEq φ] in
theorem pending_of_stage (hstage : Moved s t c st')
    (hst' : ∀ o, (st' = .waiting o ∨ ∃ target, st' = .rolling o target) → s.Pending c o) :
    ∀ c' o, t.Pending c' o → s.Pending c' o := by
  intro c' o hp
  obtain ⟨x, hx, hkind⟩ := pending_iff.1 hp
  rcases hstage.read hx with ⟨rfl, rfl⟩ | ⟨-, hx⟩
  · exact hst' o hkind
  · exact pending_iff.2 ⟨x, hx, hkind⟩

/-! ## The steps -/

variable {fingerprint : φ} {evict : List ν}

theorem step_admits (hs : s.step (.admits c name fingerprint evict) = some t) :
    s.stage c = none ∧ ∃ r o, s.registry.admitEntry name fingerprint = some (r, o) ∧
      r.MayEvict evict ∧
      t = { s with registry := r.pruneTombstones evict }.setStage c (.waiting o) := by
  simp only [step] at hs
  split at hs
  · rename_i r o hst hadm
    split at hs
    · exact ⟨hst, r, o, hadm, ‹_›, (some.inj hs).symm⟩
    · cases hs
  · cases hs

theorem step_refuse (hs : s.step (.refuse c) = some t) :
    ∃ o, s.stage c = some (.waiting o) ∧
      t = s.setStage c (.rolling o (s.conns.rollbackTarget o.entry.name o.replacedEntry)) := by
  simp only [step] at hs
  split at hs
  · exact ⟨_, ‹_›, (some.inj hs).symm⟩
  · cases hs

theorem step_rollback (hs : s.step (.rollback c) = some t) :
    ∃ o target, s.stage c = some (.rolling o target) ∧
      t = { s with registry := s.registry.rollback o.entry.name o.entry.generation target
        }.setStage c .gone := by
  simp only [step] at hs
  split at hs
  · exact ⟨_, _, ‹_›, (some.inj hs).symm⟩
  · cases hs

theorem step_publish (hs : s.step (.publish c) = some t) :
    ∃ o, s.stage c = some (.waiting o) ∧
      ((∃ g c', s.conns o.entry.name = some (g, c') ∧ o.entry.generation ≤ g ∧
          t = s.setStage c .gone) ∨
        ∃ conns, (∀ g c', s.conns o.entry.name = some (g, c') → g < o.entry.generation) ∧
          conns = update s.conns o.entry.name (some (o.entry.generation, c)) ∧
          t = ({ s with conns }.setStage c (.driving o.entry)).setLost o.entry.name
            o.entry.fingerprint none) := by
  simp only [step] at hs
  split at hs
  swap
  · cases hs
  rename_i o hst
  refine ⟨o, hst, ?_⟩
  unfold ConnTable.publish at hs
  split at hs
  · rename_i conns hpub
    split at hpub
    · cases hpub
    rename_i hany
    cases hpub
    refine .inr ⟨_, ?_, rfl, (some.inj hs).symm⟩
    intro g c' hconn
    simp only [hconn, any_some, decide_eq_true_eq] at hany
    omega
  rename_i hpub
  split at hpub
  · rename_i hany
    cases hconn : s.conns o.entry.name with
    | none => exact absurd hany (by simp [hconn])
    | some x =>
      rw [hconn, any_some] at hany
      exact .inl ⟨x.1, x.2, rfl, of_decide_eq_true hany, (some.inj hs).symm⟩
  · cases hpub

theorem step_remove (hs : s.step (.remove c) = some t) :
    ∃ e, s.stage c = some (.driving e) ∧ ((∃ c', s.conns e.name = some (e.generation, c') ∧
          t = { s with conns := update s.conns e.name none }.setStage c (.exited e)) ∨
        (s.conns.occupantGeneration e.name ≠ some e.generation ∧ t = s.setStage c .gone)) := by
  simp only [step] at hs
  split at hs
  swap
  · cases hs
  rename_i e hst
  refine ⟨e, hst, ?_⟩
  unfold ConnTable.removeIf at hs
  cases hconn : s.conns e.name with
  | none =>
    simp only [hconn, any_none, Bool.false_eq_true, if_false] at hs
    refine .inr ⟨?_, (some.inj hs).symm⟩
    simp [ConnTable.occupantGeneration, hconn]
  | some x =>
    obtain ⟨g, c'⟩ := x
    by_cases hg : g = e.generation
    · simp only [hconn, any_some, hg, decide_true, if_true] at hs
      exact .inl ⟨c', by rw [hg], (some.inj hs).symm⟩
    · simp only [hconn, any_some, hg, decide_false, Bool.false_eq_true, if_false] at hs
      refine .inr ⟨?_, (some.inj hs).symm⟩
      simp [ConnTable.occupantGeneration, hconn, hg]

theorem step_markStale (hs : s.step (.markStale c) = some t) :
    ∃ e, s.stage c = some (.exited e) ∧
      ((∃ row, s.registry.entries e.name = some row ∧ row.generation = e.generation ∧
          row.state = .live ∧
          t = ({ s with
            registry := { s.registry with
              entries := update s.registry.entries e.name
                (some { row with state := .stale, staleSince := some s.now }) }
            }.setStage c .gone).setLost e.name e.fingerprint (some s.now)) ∨
        (∀ row, s.registry.entries e.name = some row →
            ¬(row.generation = e.generation ∧ row.state = .live)) ∧ t = s.setStage c .gone) := by
  simp only [step] at hs
  split at hs
  swap
  · cases hs
  rename_i e hst
  refine ⟨e, hst, ?_⟩
  unfold RegistryState.markStale at hs
  cases hrow : s.registry.entries e.name with
  | none =>
    simp only [hrow, any_none, Bool.false_eq_true, if_false] at hs
    exact .inr ⟨by simp, (some.inj hs).symm⟩
  | some row =>
    by_cases hm : row.generation = e.generation ∧ row.state = .live
    · have htrue : (Decidable.decide (row.generation = e.generation) &&
          Decidable.decide (row.state = .live)) = true := by simpa using hm
      simp only [hrow, any_some, htrue, if_pos hm, if_true] at hs
      exact .inl ⟨row, rfl, hm.1, hm.2, (some.inj hs).symm⟩
    have hfalse : (Decidable.decide (row.generation = e.generation) &&
        Decidable.decide (row.state = .live)) = false := by simpa using hm
    simp only [hrow, any_some, hfalse, if_neg hm, Bool.false_eq_true, if_false] at hs
    refine .inr ⟨?_, (some.inj hs).symm⟩
    intro row' hrow'
    cases hrow'
    exact hm

/-- No tombstone is pruned whose name still has a connection. -/
def TombstonesKept (s : Listen ν φ) : ListenOp ν φ → Prop
  | .admits _ _ _ evict => ∀ n ∈ evict, ∀ c g, ¬ s.Holds c n g
  | _ => True

omit [DecidableEq ν] [DecidableEq φ] in
theorem pending_of_admitted (hstage : Moved s t c (.waiting o)) :
    ∀ c' o', t.Pending c' o' → c' = c ∧ o' = o ∨ c' ≠ c ∧ s.Pending c' o' := by
  intro c' o' hp
  obtain ⟨x, hx, hkind⟩ := pending_iff.1 hp
  rcases hstage.read hx with ⟨hc, rfl⟩ | ⟨hc, hx⟩
  · rcases hkind with heq | ⟨target, heq⟩ <;> cases heq
    exact .inl ⟨hc, rfl⟩
  · exact .inr ⟨hc, pending_iff.2 ⟨x, hx, hkind⟩⟩

variable {r : RegistryState ν φ}

theorem Inv.below_admitted (h : s.Inv)
    (hadm : s.registry.admitEntry name fingerprint = some (r, o)) :
    ∀ c' n g, s.Holds c' n g → n = name → g < o.entry.generation := by
  obtain ⟨-, -, -, -, htomb, -⟩ := RegistryState.admitEntry_spec hadm
  intro c' n g hh hn
  obtain ⟨k, hk, hg⟩ := h.tombHeld c' n g hh
  exact lt_of_le_of_lt hg (htomb k (hn ▸ hk))

omit [DecidableEq φ] in
theorem Inv.published_of_stage (h : s.Inv) (hstage : Moved s t c st')
    (hconns : ∀ n x, t.conns n = some x → s.conns n = some x)
    (hnot : ∀ n g, t.conns n ≠ some (g, c)) :
    ∀ n g c', t.conns n = some (g, c') →
      ∃ e, t.stage c' = some (.driving e) ∧ e.name = n ∧ e.generation = g := by
  intro n g c' hconn
  obtain ⟨e, he, hrest⟩ := h.published n g c' (hconns n _ hconn)
  have hc : c' ≠ c := by
    rintro rfl
    exact hnot n g hconn
  exact ⟨e, by rw [hstage, if_neg hc]; exact he, hrest⟩

omit [DecidableEq φ] in
theorem Inv.target_of_stage (h : s.Inv) (hstage : Moved s t c st')
    (hst' : ∀ o p, st' = .rolling o (some p) → o.replacedEntry = some p) :
    ∀ c' o p, t.stage c' = some (.rolling o (some p)) → o.replacedEntry = some p := by
  intro c' o p hx
  rcases hstage.read hx with ⟨-, heq⟩ | ⟨-, hx⟩
  · exact hst' o p heq
  · exact h.target c' o p hx

theorem Inv.admits (h : s.Inv) (hst : s.stage c = none)
    (hadm : s.registry.admitEntry name fingerprint = some (r, o)) (hmay : r.MayEvict evict)
    (hkept : ∀ n ∈ evict, ∀ c g, ¬ s.Holds c n g) :
    Inv ({ s with registry := r.pruneTombstones evict }.setStage c (.waiting o)) := by
  obtain ⟨hname, hfp, hreplaced, hrow, -, hentries, -⟩ := RegistryState.admitEntry_spec hadm
  have hlookup := RegistryState.lookup_admitted hadm hmay
  let t : Listen ν φ := { s with registry := r.pruneTombstones evict }.setStage c (.waiting o)
  have hstage : Moved s t c (.waiting o) := setStage_moved _ c _
  have hentry : ∀ n, t.registry.entries n = if n = name then some o.entry else
      s.registry.entries n := by
    intro n
    show r.entries n = _
    rw [hentries, update_apply]
  have hbelow := h.below_admitted hadm
  have hnew : ∀ n g, s.conns n ≠ some (g, c) := by
    intro n g hconn
    obtain ⟨e, he, -⟩ := h.published n g c hconn
    rw [hst] at he
    cases he
  have hkeep : ∀ n k, (∃ c' g, s.Holds c' n g) ∨ (s.registry.entries n).isSome = true →
      n ≠ name → s.registry.lastGeneration.lookup n = some k →
      t.registry.lastGeneration.lookup n = some k := by
    intro n k huse hn hk
    have hnot : n ∉ evict := by
      intro hmem
      rcases huse with ⟨c', g, hh⟩ | hsome
      · exact hkept n hmem c' g hh
      have hev := hmay.2.1 n hmem
      simp only [RegistryState.evictable, hentries, mem_filter, update_of_ne hn] at hev
      rw [isNone_iff_eq_none] at hev
      rw [hev.2] at hsome
      cases hsome
    show (r.pruneTombstones evict).lastGeneration.lookup n = some k
    rw [hlookup n, if_neg hn, if_neg hnot, hk]
  have hself : t.registry.lastGeneration.lookup name = some o.entry.generation := by
    show (r.pruneTombstones evict).lastGeneration.lookup name = _
    rw [hlookup name, if_pos rfl]
  have hholds : ∀ c' n g, t.Holds c' n g →
      (c' = c ∧ n = name ∧ g = o.entry.generation) ∨ (c' ≠ c ∧ s.Holds c' n g) := by
    rintro c' n g ⟨x, e, hx, he, hn, hg⟩
    rcases hstage.read hx with ⟨hc, rfl⟩ | ⟨hc, hx⟩
    · cases he
      exact .inl ⟨hc, hn ▸ hname, hg.symm⟩
    · exact .inr ⟨hc, x, e, hx, he, hn, hg⟩
  have haccepted : ∀ c' n g, t.Accepted c' n g →
      (c' = c ∧ n = name ∧ g = o.entry.generation) ∨ (c' ≠ c ∧ s.Accepted c' n g) := by
    rintro c' n g (⟨o', hx, hn, hg⟩ | hconn)
    · rcases hstage.read hx with ⟨hc, heq⟩ | ⟨hc, hx⟩
      · cases heq
        exact .inl ⟨hc, hn ▸ hname, hg.symm⟩
      · exact .inr ⟨hc, .inl ⟨o', hx, hn, hg⟩⟩
    · refine .inr ⟨?_, .inr hconn⟩
      rintro rfl
      exact hnew n g hconn
  have hpending := pending_of_admitted hstage
  refine ⟨?_, ?_, ?_, ?_, h.published_of_stage hstage (fun _ _ hx => hx) hnew, ?_, ?_, ?_,
    h.target_of_stage hstage (by simp)⟩
  · intro n e he
    rw [hentry] at he
    split at he
    · cases he
      rw [hname]
      exact Eq.symm ‹_›
    · exact h.named n e he
  · intro n e he
    rw [hentry] at he
    split at he
    · rename_i hn
      cases he
      exact ⟨_, hn ▸ hself, le_rfl⟩
    · rename_i hn
      obtain ⟨k, hk, hle⟩ := h.tombRow n e he
      exact ⟨k, hkeep n k (.inr (by rw [he]; rfl)) hn hk, hle⟩
  · intro c' n g hh
    rcases hholds c' n g hh with ⟨-, rfl, rfl⟩ | ⟨-, hh⟩
    · exact ⟨_, hself, le_rfl⟩
    by_cases hn : n = name
    · exact ⟨_, hn ▸ hself, le_of_lt (hbelow c' n g hh hn)⟩
    · obtain ⟨k, hk, hle⟩ := h.tombHeld c' n g hh
      exact ⟨k, hkeep n k (.inl ⟨c', g, hh⟩) hn hk, hle⟩
  · intro c₁ c₂ n g h₁ h₂
    rcases hholds c₁ n g h₁ with ⟨rfl, hn, hg⟩ | ⟨-, h₁⟩
    · rcases hholds c₂ n g h₂ with ⟨rfl, -, -⟩ | ⟨-, h₂⟩
      · rfl
      · exact absurd hg (ne_of_lt (hbelow c₂ n g h₂ hn))
    · rcases hholds c₂ n g h₂ with ⟨-, hn, hg⟩ | ⟨-, h₂⟩
      · exact absurd hg (ne_of_lt (hbelow c₁ n g h₁ hn))
      · exact h.unique c₁ c₂ n g h₁ h₂
  · intro c' n g e ha he
    rw [hentry] at he
    rcases haccepted c' n g ha with ⟨-, rfl, rfl⟩ | ⟨-, ha⟩
    · rw [if_pos rfl] at he
      cases he
      exact le_rfl
    split at he
    · rename_i hn
      cases he
      exact le_of_lt (hbelow c' n g (h.accepted_holds ha) hn)
    · exact h.rowGe c' n g e ha he
  · intro c' o' p hp hr
    rcases hpending c' o' hp with ⟨-, rfl⟩ | ⟨-, hp⟩
    · rw [hreplaced] at hr
      exact ⟨(h.named name p hr).trans hname.symm, (hrow p hr).1.trans hfp.symm, (hrow p hr).2⟩
    · exact h.replaced c' o' p hp hr
  · intro c' o' p c₁ g hp hr ha hg
    rcases hpending c' o' hp with ⟨-, rfl⟩ | ⟨-, hp⟩
    · rw [hreplaced] at hr
      rcases haccepted c₁ _ g ha with ⟨-, -, hgo⟩ | ⟨-, ha⟩
      · omega
      · exact h.rowGe c₁ name g p (hname ▸ ha) hr
    · rcases haccepted c₁ _ g ha with ⟨-, hn, hgo⟩ | ⟨-, ha⟩
      · have := hbelow c' _ _ hp.holds hn
        omega
      · exact h.replacedGe c' o' p c₁ g hp hr ha hg

omit [DecidableEq φ] in
theorem Inv.not_published (h : s.Inv)
    (hst : s.stage c = some st) (hnot : ∀ e, st ≠ .driving e) (n : ν) (g : Nat) :
    s.conns n ≠ some (g, c) := by
  intro hconn
  obtain ⟨e, he, -⟩ := h.published n g c hconn
  exact hnot e (some.inj (hst.symm.trans he))

omit [DecidableEq ν] [DecidableEq φ] in
theorem accepted_of_stage (hstage : Moved s t c st')
    (hnot : ∀ o, st' ≠ .waiting o)
    (hconns : ∀ n g c', t.conns n = some (g, c') → s.Accepted c' n g) :
    ∀ c' n g, t.Accepted c' n g → s.Accepted c' n g := by
  rintro c' n g (⟨o, hx, hrest⟩ | hconn)
  · rcases hstage.read hx with ⟨-, heq⟩ | ⟨-, hx⟩
    · exact absurd heq (hnot o)
    · exact .inl ⟨o, hx, hrest⟩
  · exact hconns n g c' hconn

omit [DecidableEq ν] [DecidableEq φ] in
theorem rollbackTarget_eq {t : ConnTable ν} {replaced : Option (ReverseEntry ν φ)}
    {p : ReverseEntry ν φ} (h : t.rollbackTarget name replaced = some p) :
    replaced = some p ∧ t.occupantGeneration name = some p.generation := by
  obtain ⟨hr, hd⟩ := filter_eq_some_iff.1 h
  exact ⟨hr, of_decide_eq_true hd⟩

omit [DecidableEq φ] in
theorem entries_rollback (r : RegistryState ν φ) (name : ν) (generation : Nat)
    (target : Option (ReverseEntry ν φ)) (n : ν) :
    (r.rollback name generation target).entries n =
      if n = name ∧ ∃ e, r.entries name = some e ∧ e.generation = generation then target
      else r.entries n := by
  unfold RegistryState.rollback
  cases hrow : r.entries name with
  | none => simp
  | some e =>
    by_cases hg : e.generation = generation
    · simp [hg, update_apply]
    · simp [hg]

omit [DecidableEq φ] in
theorem Inv.moves (h : s.Inv) (hst : s.stage c = some st) (hstage : Moved s t c st')
    (hentry : ∀ e, st'.entry? = some e → st.entry? = some e) (hnot : ∀ o, st' ≠ .waiting o)
    (hrolling : ∀ o target, st' = .rolling o target →
      s.Pending c o ∧ ∀ p, target = some p → o.replacedEntry = some p)
    (hlast : t.registry.lastGeneration = s.registry.lastGeneration)
    (hconns : ∀ n x, t.conns n = some x → s.conns n = some x)
    (hunpublished : ∀ n g, t.conns n ≠ some (g, c)) (hrow : ∀ n e, t.registry.entries n = some e →
      ∃ e', s.registry.entries n = some e' ∧ e'.name = e.name ∧ e'.generation = e.generation) :
    t.Inv := by
  have hacc := accepted_of_stage hstage hnot fun n _ _ hx => .inr (hconns n _ hx)
  refine h.weaken hlast (holds_of_stage hst hstage hentry) hacc (pending_of_stage hstage ?_)
    (h.published_of_stage hstage hconns hunpublished) (h.target_of_stage hstage ?_)
    (h.rows hacc hrow)
  · rintro o (hwaiting | ⟨target, hrolls⟩)
    · exact absurd hwaiting (hnot o)
    · exact (hrolling o target hrolls).1
  · exact fun o p hrolls => (hrolling o (some p) hrolls).2 p rfl

omit [DecidableEq φ] in
theorem Inv.leaves (h : s.Inv) (hst : s.stage c = some st)
    (hunpublished : ∀ n g, s.conns n ≠ some (g, c)) : (s.setStage c .gone).Inv :=
  h.moves hst (setStage_moved s c .gone) (by simp [Stage.entry?]) (by simp) (by simp)
    rfl (fun _ _ hx => hx) hunpublished fun _ e he => ⟨e, he, rfl, rfl⟩

theorem Inv.refuse (h : s.Inv) (hs : s.step (.refuse c) = some t) : t.Inv := by
  obtain ⟨o, hst, rfl⟩ := step_refuse hs
  refine h.moves hst (setStage_moved s c _) (fun _ he => he) (by simp) ?_ rfl
    (fun _ _ hx => hx) (h.not_published hst (by simp)) fun _ e he => ⟨e, he, rfl, rfl⟩
  intro o' target hrolls
  injection hrolls with ho htarget
  subst ho htarget
  exact ⟨.inl hst, fun p hp => (rollbackTarget_eq hp).1⟩

theorem Inv.rollback (h : s.Inv) (hs : s.step (.rollback c) = some t) : t.Inv := by
  obtain ⟨o, target, hst, rfl⟩ := step_rollback hs
  have hstage := setStage_moved { s with
    registry := s.registry.rollback o.entry.name o.entry.generation target } c .gone
  have hacc := accepted_of_stage hstage (by simp) fun _ _ _ hx => .inr hx
  have hpend : s.Pending c o := .inr ⟨target, hst⟩
  refine h.weaken ?_ (holds_of_stage hst hstage (by simp [Stage.entry?])) hacc
    (pending_of_stage hstage (by simp))
    (h.published_of_stage hstage (fun _ _ hx => hx) (h.not_published hst (by simp)))
    (h.target_of_stage hstage (by simp)) ?_
  · unfold RegistryState.rollback
    split <;> rfl
  intro n e he
  have he' : (s.registry.rollback o.entry.name o.entry.generation target).entries n = some e :=
    he
  rw [entries_rollback] at he'
  split at he'
  · -- the replaced row comes back: what is accepted was there before this admission
    rename_i hcur
    obtain ⟨rfl, row, hrow, hgen⟩ := hcur
    have hreplaced := h.target c o e (he' ▸ hst)
    obtain ⟨hname, -, hlt⟩ := h.replaced c o e hpend hreplaced
    obtain ⟨k, hk, hle⟩ := h.tombRow _ row hrow
    refine ⟨hname, ⟨k, hk, le_trans (by omega) (hgen ▸ hle)⟩, ?_⟩
    intro c' g ha
    have ha' := hacc c' _ g ha
    have hge := h.rowGe c' _ g row ha' hrow
    refine h.replacedGe c o e c' g hpend hreplaced ha' (lt_of_le_of_ne (hgen ▸ hge) ?_)
    intro hg
    have hsame := h.unique c' c _ g (h.accepted_holds ha') (hg ▸ hpend.holds)
    subst hsame
    rcases ha with ⟨o', hx, -⟩ | hconn
    · rw [hstage, if_pos rfl] at hx
      cases hx
    · exact h.not_published hst (by simp) _ g hconn
  · exact ⟨h.named n e he', h.tombRow n e he', fun c' g ha =>
      h.rowGe c' n g e (hacc c' n g ha) he'⟩

theorem Inv.publish (h : s.Inv) (hs : s.step (.publish c) = some t) : t.Inv := by
  obtain ⟨o, hst, ⟨g, c₀, -, -, rfl⟩ | ⟨conns, -, hconns, rfl⟩⟩ := step_publish hs
  · exact h.leaves hst (h.not_published hst (by simp))
  let t : Listen ν φ := ({ s with conns }.setStage c (.driving o.entry)).setLost o.entry.name
    o.entry.fingerprint none
  have hstage : Moved s t c (.driving o.entry) :=
    setStage_moved { s with conns } c (.driving o.entry)
  have hconn : ∀ n g c', t.conns n = some (g, c') →
      (o.entry.name = n ∧ o.entry.generation = g ∧ c = c') ∨ s.conns n = some (g, c') := by
    intro n g c' hx
    have hx' : conns n = some (g, c') := hx
    rw [hconns] at hx'
    rcases update_cases hx' with ⟨hn, heq⟩ | ⟨-, hold⟩
    · exact .inl ⟨hn.symm, Prod.mk.inj (some.inj heq)⟩
    · exact .inr hold
  have hacc : ∀ c' n g, t.Accepted c' n g → s.Accepted c' n g := by
    refine accepted_of_stage hstage (by simp) fun n g c' hx => ?_
    rcases hconn n g c' hx with ⟨hn, hg, rfl⟩ | hold
    · exact .inl ⟨o, hst, hn, hg⟩
    · exact .inr hold
  refine h.weaken rfl (holds_of_stage hst hstage fun _ he => he) hacc
    (pending_of_stage hstage (by simp)) ?_ (h.target_of_stage hstage (by simp))
    (h.rows hacc fun n e he => ⟨e, he, rfl, rfl⟩)
  intro n g c' hx
  rcases hconn n g c' hx with ⟨hn, hg, rfl⟩ | hold
  · exact ⟨o.entry, by rw [hstage, if_pos rfl], hn, hg⟩
  obtain ⟨e, he, hrest⟩ := h.published n g c' hold
  have hc : c' ≠ c := by
    rintro rfl
    exact h.not_published hst (by simp) n g hold
  exact ⟨e, by rw [hstage, if_neg hc]; exact he, hrest⟩

theorem Inv.remove (h : s.Inv) (hs : s.step (.remove c) = some t) : t.Inv := by
  obtain ⟨e, hst, ⟨c₀, hocc, rfl⟩ | ⟨hocc, rfl⟩⟩ := step_remove hs
  · let t : Listen ν φ :=
      { s with conns := update s.conns e.name none }.setStage c (.exited e)
    have hstage : Moved s t c (.exited e) := setStage_moved _ c _
    have hconn : ∀ n x, t.conns n = some x → n ≠ e.name ∧ s.conns n = some x := by
      intro n x hx
      obtain ⟨-, ⟨⟩⟩ | ⟨hn, hold⟩ := update_cases hx
      exact ⟨hn, hold⟩
    refine h.moves (t := t) hst hstage (fun _ he => he) (by simp) (by simp) rfl
      (fun n x hx => (hconn n x hx).2) ?_ fun _ e he => ⟨e, he, rfl, rfl⟩
    intro n g hx
    obtain ⟨hn, hold⟩ := hconn n _ hx
    obtain ⟨e', he', hname, -⟩ := h.published n g c hold
    obtain rfl : e = e' := Stage.driving.inj (some.inj (hst.symm.trans he'))
    exact hn hname.symm
  · refine h.leaves hst ?_
    intro n g hx
    obtain ⟨e', he', hname, hgen⟩ := h.published n g c hx
    obtain rfl : e = e' := Stage.driving.inj (some.inj (hst.symm.trans he'))
    refine hocc ?_
    rw [hname, hgen, ConnTable.occupantGeneration, hx]
    rfl

theorem Inv.markStale (h : s.Inv) (hs : s.step (.markStale c) = some t) : t.Inv := by
  obtain ⟨e, hst, ⟨row, hrow, hgen, -, rfl⟩ | ⟨-, rfl⟩⟩ := step_markStale hs
  swap
  · exact h.leaves hst (h.not_published hst (by simp))
  let row' : ReverseEntry ν φ := { row with state := .stale, staleSince := some s.now }
  let t : Listen ν φ := ({ s with
    registry := { s.registry with
      entries := update s.registry.entries e.name (some row') }
    }.setStage c .gone).setLost e.name e.fingerprint (some s.now)
  have hstage : Moved s t c .gone := setStage_moved s c .gone
  refine h.moves (t := t) hst hstage (by simp [Stage.entry?]) (by simp) (by simp) rfl
    (fun _ _ hx => hx) (h.not_published hst (by simp)) ?_
  intro n e' he
  rcases update_cases he with ⟨rfl, heq⟩ | ⟨-, hold⟩
  · cases heq
    exact ⟨row, hrow, rfl, rfl⟩
  · exact ⟨e', hold, rfl, rfl⟩

theorem Inv.step (h : s.Inv) (hC : s.TombstonesKept op) (hs : s.step op = some t) : t.Inv := by
  cases op with
  | admits c name fingerprint evict =>
    obtain ⟨hst, r, o, hadm, hmay, rfl⟩ := step_admits hs
    exact h.admits hst hadm hmay hC
  | refuse c => exact h.refuse hs
  | rollback c => exact h.rollback hs
  | publish c => exact h.publish hs
  | remove c => exact h.remove hs
  | markStale c => exact h.markStale hs
  | sweep =>
    cases hs
    refine h.weaken rfl (fun _ _ _ hh => hh) (fun _ _ _ ha => ha) (fun _ _ hp => hp)
      h.published h.target (h.rows (fun _ _ _ ha => ha) ?_)
    intro n e he
    exact ⟨e, (filter_eq_some_iff.1 he).1, rfl, rfl⟩
  | pass time =>
    cases hs
    exact { h with }

omit [DecidableEq φ] in
theorem Inv.start (retention now : Nat) : (Listen.start retention now : Listen ν φ).Inv where
  named := nofun
  tombRow := nofun
  tombHeld := fun _ _ _ ⟨_, _, h, _⟩ => nomatch h
  unique := fun _ _ _ _ ⟨_, _, h, _⟩ => nomatch h
  published := nofun
  rowGe := nofun
  replaced := fun _ _ _ h => by rcases h with h | ⟨_, h⟩ <;> exact nomatch h
  replacedGe := fun _ _ _ _ _ h => by rcases h with h | ⟨_, h⟩ <;> exact nomatch h
  target := nofun

/-- In a run in which no tombstone is pruned whose name still has a connection, an admission
goes above all connections of the name, no two of them hold the same generation, and none
that is accepted is above the row. -/
theorem generations_fence {retention now : Nat} {ops : List (ListenOp ν φ)}
    (hr : Run step TombstonesKept (start retention now) ops s) :
    (∀ c n b evict t, s.step (.admits c n b evict) = some t → ∃ o,
      t.stage c = some (.waiting o) ∧ ∀ c' g, s.Holds c' n g → g < o.entry.generation) ∧
    (∀ c c' n g, s.Holds c n g → s.Holds c' n g → c = c') ∧
    ∀ c n g e, s.Accepted c n g → s.registry.entries n = some e → g ≤ e.generation := by
  have hi := hr.invariant (fun _ _ _ hC hs hi => hi.step hC hs) (Inv.start retention now)
  refine ⟨fun c n b evict t hs => ?_, hi.unique, hi.rowGe⟩
  obtain ⟨-, r, o, hadm, -, rfl⟩ := step_admits hs
  exact ⟨o, by simp [setStage], fun c' g hh => hi.below_admitted hadm c' n g hh rfl⟩

/-- A condition that can be evaluated. -/
def NothingPruned : ListenOp ν φ → Bool
  | .admits _ _ _ evict => evict.isEmpty
  | _ => true

omit [DecidableEq ν] [DecidableEq φ] in
theorem tombstonesKept_of_nothingPruned (s : Listen ν φ) (op : ListenOp ν φ)
    (h : NothingPruned op = true) : s.TombstonesKept op := by
  cases op with
  | admits c n b evict =>
    obtain rfl : evict = [] := List.isEmpty_iff.1 h
    exact nofun
  | _ => trivial

omit [DecidableEq ν] [DecidableEq φ] in
theorem holds_of_entry {e : ReverseEntry ν φ} (h : (s.stage c).bind Stage.entry? = some e) :
    s.Holds c e.name e.generation := by
  obtain ⟨st, hst, he⟩ := Option.bind_eq_some_iff.1 h
  exact ⟨st, e, hst, he, rfl, rfl⟩

/-- A peer registers again while its first connection is published: each of the two is
alone with its generation. -/
theorem generations_fence_reconnect : ∃ s : Listen Nat Nat,
    Run step TombstonesKept (start 10 0) [.admits 0 0 7 [], .publish 0, .admits 1 0 7 []] s ∧
      (∀ c, s.Holds c 0 0 ↔ c = 0) ∧ ∀ c, s.Holds c 0 1 ↔ c = 1 := by
  obtain ⟨s, hrun, h0, h1⟩ : ∃ s : Listen Nat Nat, Run step (fun _ op => NothingPruned op = true)
      (start 10 0) [.admits 0 0 7 [], .publish 0, .admits 1 0 7 []] s ∧
      (s.stage 0).bind Stage.entry? = some ⟨0, 7, 0, .live, none⟩ ∧
      (s.stage 1).bind Stage.entry? = some ⟨0, 7, 1, .live, none⟩ :=
    Run.exists_of_exec (by decide +kernel)
  have hr := hrun.mono tombstonesKept_of_nothingPruned
  have hunique := (generations_fence hr).2.1
  refine ⟨s, hr, fun c => ⟨fun hc => hunique c 0 0 0 hc (holds_of_entry h0), ?_⟩,
    fun c => ⟨fun hc => hunique c 1 0 1 hc (holds_of_entry h1), ?_⟩⟩
  · rintro rfl
    exact holds_of_entry h0
  · rintro rfl
    exact holds_of_entry h1

/-! ## Live rows -/

/-- Something stands behind a row: its connection is published, may still be
published or rolled back, or is about to mark the row. -/
def Backing (s : Listen ν φ) (n : ν) (g : Nat) : Prop :=
  (∃ c, s.conns n = some (g, c)) ∨
    (∃ c o, s.Pending c o ∧ o.entry.name = n ∧ o.entry.generation = g) ∨
    ∃ c x, s.stage c = some (.exited x) ∧ x.name = n ∧ x.generation = g

/-- Every live entry has a connection behind it. -/
def LiveBacked (s : Listen ν φ) : Prop :=
  ∀ n e, s.registry.entries n = some e → e.state = .live → s.Backing n e.generation

/-- The connection of a live row that a rollback puts back is published, or has
still to mark the row. -/
def Backed (s : Listen ν φ) (op : ListenOp ν φ) : Prop :=
  s.TombstonesKept op ∧ ∀ c o p row, op = .rollback c → s.stage c = some (.rolling o (some p)) →
      s.registry.entries o.entry.name = some row → row.generation = o.entry.generation →
      p.state = .live →
      s.conns.occupantGeneration o.entry.name = some p.generation ∨
        ∃ c' x, s.stage c' = some (.exited x) ∧ x.name = o.entry.name ∧ x.generation = p.generation

omit [DecidableEq ν] [DecidableEq φ] in
theorem Backing.of_stage (h : s.Backing n g) (hst : s.stage c = some st) (hstage : Moved s t c st')
    (hconns : ∀ c', s.conns n = some (g, c') → t.Backing n g)
    (hmoved : ∀ e, st.entry? = some e → e.name = n → e.generation = g →
      (∀ x, st ≠ .driving x) → t.Backing n g) : t.Backing n g := by
  rcases h with ⟨c', hconn⟩ | ⟨c', o, hp, hn, hg⟩ | ⟨c', x, hx, hn, hg⟩
  · exact hconns c' hconn
  · obtain rfl | hc := eq_or_ne c' c
    · rcases hp with hp | ⟨target, hp⟩
      all_goals
        cases hst.symm.trans hp
        exact hmoved o.entry rfl hn hg (by simp)
    · refine .inr (.inl ⟨c', o, ?_, hn, hg⟩)
      unfold Pending
      rwa [hstage, if_neg hc]
  · obtain rfl | hc := eq_or_ne c' c
    · cases hst.symm.trans hx
      exact hmoved x rfl hn hg (by simp)
    · exact .inr (.inr ⟨c', x, by rwa [hstage, if_neg hc], hn, hg⟩)

theorem LiveBacked.admits (h : s.LiveBacked)
    (hs : s.step (.admits c name fingerprint evict) = some t) : t.LiveBacked := by
  intro n e he hlive
  obtain ⟨hst, r, o, hadm, -, rfl⟩ := step_admits hs
  obtain ⟨hname, -, -, -, -, hentries, -⟩ := RegistryState.admitEntry_spec hadm
  have hstage := setStage_moved { s with registry := r.pruneTombstones evict } c (.waiting o)
  have hrow : r.entries n = some e := he
  rw [hentries] at hrow
  rcases update_cases hrow with ⟨rfl, heq⟩ | ⟨-, hold⟩
  · cases heq
    exact .inr (.inl ⟨c, o, .inl (by rw [hstage, if_pos rfl]), hname, rfl⟩)
  have hother : ∀ c' st, s.stage c' = some st → c' ≠ c := by
    rintro c' st hx rfl
    rw [hst] at hx
    cases hx
  rcases h n e hold hlive with hconn | ⟨c', o', hp, hrest⟩ | ⟨c', x, hx, hrest⟩
  · exact .inl hconn
  · refine .inr (.inl ⟨c', o', ?_, hrest⟩)
    unfold Pending
    rw [hstage, if_neg]
    · exact hp
    · rcases hp with hp | ⟨_, hp⟩
      all_goals exact hother c' _ hp
  · exact .inr (.inr ⟨c', x, by rw [hstage, if_neg (hother c' _ hx)]; exact hx, hrest⟩)

theorem LiveBacked.refuse (h : s.LiveBacked) (hs : s.step (.refuse c) = some t) :
    t.LiveBacked := by
  intro n e he hlive
  obtain ⟨o, hst, rfl⟩ := step_refuse hs
  have hstage := setStage_moved s c
    (.rolling o (s.conns.rollbackTarget o.entry.name o.replacedEntry))
  refine (h n e he hlive).of_stage hst hstage (fun c' hconn => .inl ⟨c', hconn⟩) ?_
  intro e' he' hn hg _
  cases he'
  exact .inr (.inl ⟨c, o, .inr ⟨_, by rw [hstage, if_pos rfl]⟩, hn, hg⟩)

theorem LiveBacked.rollback (h : s.LiveBacked) (hC : s.Backed (.rollback c))
    (hs : s.step (.rollback c) = some t) : t.LiveBacked := by
  intro n e he hlive
  obtain ⟨o, target, hst, rfl⟩ := step_rollback hs
  have hstage := setStage_moved { s with
    registry := s.registry.rollback o.entry.name o.entry.generation target } c .gone
  have hrow : (s.registry.rollback o.entry.name o.entry.generation target).entries n = some e :=
    he
  rw [entries_rollback] at hrow
  split at hrow
  · rename_i hcur
    obtain ⟨rfl, row, hcurrent, hgen⟩ := hcur
    subst hrow
    rcases hC.2 c o e row rfl hst hcurrent hgen hlive with hocc | ⟨c', x, hx, hn, hg⟩
    · obtain ⟨y, hy, hg⟩ := map_eq_some_iff.1 hocc
      exact .inl ⟨y.2, by rw [← hg]; exact hy⟩
    have hc : c' ≠ c := by
      rintro rfl
      rw [hst] at hx
      cases hx
    exact .inr (.inr ⟨c', x, by rw [hstage, if_neg hc]; exact hx, hn, hg⟩)
  · rename_i hcur
    refine (h n e hrow hlive).of_stage hst hstage (fun c' hconn => .inl ⟨c', hconn⟩) ?_
    intro e' he' hn hg _
    cases he'
    exact absurd ⟨hn.symm, e, hn ▸ hrow, hg.symm⟩ hcur

theorem LiveBacked.publish (h : s.LiveBacked) (hinv : s.Inv)
    (hs : s.step (.publish c) = some t) : t.LiveBacked := by
  intro n e he hlive
  obtain ⟨o, hst, ⟨g, c₀, hocc, hle, rfl⟩ | ⟨conns, hnewer, hconns, rfl⟩⟩ := step_publish hs
  · refine (h n e he hlive).of_stage hst (setStage_moved s c .gone)
      (fun c' hconn => .inl ⟨c', hconn⟩) ?_
    -- the row is not older than the occupant, so it is the occupant's
    intro e' he' hn hg _
    cases he'
    subst hn
    have hge := hinv.rowGe c₀ _ g e (.inr hocc) he
    have hgen : g = e.generation := le_antisymm hge (hg ▸ hle)
    exact .inl ⟨c₀, hgen ▸ hocc⟩
  have hself : conns o.entry.name = some (o.entry.generation, c) := by
    rw [hconns, update_self]
  refine (h n e he hlive).of_stage hst (setStage_moved { s with conns } c _) ?_ ?_
  · intro c' hconn
    obtain rfl | hn := eq_or_ne n o.entry.name
    · have hlt := hnewer _ _ hconn
      have hge := hinv.rowGe c _ _ e (.inl ⟨o, hst, rfl, rfl⟩) he
      omega
    refine .inl ⟨c', ?_⟩
    show conns n = _
    rw [hconns, update_of_ne hn]
    exact hconn
  · intro e' he' hn hg _
    cases he'
    subst hn
    exact .inl ⟨c, hg ▸ hself⟩

theorem LiveBacked.remove (h : s.LiveBacked) (hs : s.step (.remove c) = some t) :
    t.LiveBacked := by
  intro n e he hlive
  obtain ⟨x, hst, ⟨c₀, hocc, rfl⟩ | ⟨-, rfl⟩⟩ := step_remove hs
  · have hstage := setStage_moved { s with conns := update s.conns x.name none } c (.exited x)
    refine (h n e he hlive).of_stage hst hstage ?_ ?_
    · intro c' hconn
      obtain rfl | hn := eq_or_ne n x.name
      · obtain ⟨hg, -⟩ := Prod.mk.inj (some.inj (hocc.symm.trans hconn))
        exact .inr (.inr ⟨c, x, by rw [hstage, if_pos rfl], rfl, hg⟩)
      refine .inl ⟨c', ?_⟩
      show update s.conns x.name none n = _
      rw [update_of_ne hn]
      exact hconn
    · intro e' _ _ _ hnot
      exact absurd rfl (hnot x)
  · refine (h n e he hlive).of_stage hst (setStage_moved s c .gone)
      (fun c' hconn => .inl ⟨c', hconn⟩) ?_
    intro e' _ _ _ hnot
    exact absurd rfl (hnot x)

theorem LiveBacked.markStale (h : s.LiveBacked) (hs : s.step (.markStale c) = some t) :
    t.LiveBacked := by
  intro n e he hlive
  obtain ⟨x, hst, ⟨row, hrow, hgen, -, rfl⟩ | ⟨hnone, rfl⟩⟩ := step_markStale hs
  · rcases update_cases he with ⟨rfl, heq⟩ | ⟨hn, hold⟩
    · cases heq
      cases hlive
    refine (h n e hold hlive).of_stage hst (setStage_moved s c .gone)
      (fun c' hconn => .inl ⟨c', hconn⟩) ?_
    intro e' he' hn' _ _
    cases he'
    exact absurd hn'.symm hn
  · refine (h n e he hlive).of_stage hst (setStage_moved s c .gone)
      (fun c' hconn => .inl ⟨c', hconn⟩) ?_
    intro e' he' hn hg _
    cases he'
    exact absurd ⟨hg.symm, hlive⟩ (hnone e (hn ▸ he))

theorem LiveBacked.step (h : s.LiveBacked) (hinv : s.Inv)
    (hC : s.Backed op) (hs : s.step op = some t) : t.LiveBacked := by
  cases op with
  | admits c name fingerprint evict => exact h.admits hs
  | refuse c => exact h.refuse hs
  | rollback c => exact h.rollback hC hs
  | publish c => exact h.publish hinv hs
  | remove c => exact h.remove hs
  | markStale c => exact h.markStale hs
  | sweep =>
    cases hs
    exact fun n e he hlive => h n e (filter_eq_some_iff.1 he).1 hlive
  | pass time =>
    cases hs
    exact h

/-- In a run in which rollbacks put back only what is backed, whenever no
connection is between two of its steps every live row has its connection in the
connection table, and that connection is being driven. -/
theorem live_rows_are_published {retention now : Nat} {ops : List (ListenOp ν φ)}
    {s : Listen ν φ} (hr : Run step Backed (start retention now) ops s) (hq : s.Quiet)
    {n : ν} {e : ReverseEntry ν φ} (he : s.registry.entries n = some e)
    (hlive : e.state = .live) :
    ∃ c x, s.conns n = some (e.generation, c) ∧ s.stage c = some (.driving x) ∧
      x.name = n ∧ x.generation = e.generation := by
  have hinv : s.Inv ∧ s.LiveBacked := by
    refine hr.invariant (I := fun s => s.Inv ∧ s.LiveBacked) ?_
      ⟨Inv.start retention now, nofun⟩
    intro s op t hC hs hi
    exact ⟨hi.1.step hC.1 hs, hi.2.step hi.1 hC hs⟩
  rcases hinv.2 n e he hlive with ⟨c, hconn⟩ | ⟨c, o, hp, -⟩ | ⟨c, x, hx, -⟩
  · obtain ⟨x, hx, hrest⟩ := hinv.1.published n _ c hconn
    exact ⟨c, x, hconn, hx, hrest⟩
  · rcases hp with hp | ⟨target, hp⟩
    all_goals rcases hq c _ hp with h | ⟨_, h⟩ <;> cases h
  · rcases hq c _ hx with h | ⟨_, h⟩ <;> cases h

/-! ## Runs of a few connections -/

def opConn : ListenOp ν φ → Option Nat
  | .admits c _ _ _ => some c
  | .refuse c => some c
  | .rollback c => some c
  | .publish c => some c
  | .remove c => some c
  | .markStale c => some c
  | .sweep => none
  | .pass _ => none

def FirstConns (k : Nat) (op : ListenOp ν φ) : Bool := (opConn op).all (· < k)

def settled : Stage ν φ → Bool
  | .driving _ => true
  | .gone => true
  | _ => false

theorem step_stage_of_ne (hs : s.step op = some t)
    (hc : opConn op ≠ some c) : t.stage c = s.stage c := by
  have hmoved : ∀ (u : Listen ν φ) c' st, some c' ≠ some c → (u.setStage c' st).stage c =
      u.stage c := by
    intro u c' st hne
    rw [setStage_moved, if_neg]
    rintro rfl
    exact hne rfl
  cases op with
  | admits c' name fingerprint evict =>
    obtain ⟨-, r, o, -, -, rfl⟩ := step_admits hs
    exact hmoved _ c' _ hc
  | refuse c' =>
    obtain ⟨o, -, rfl⟩ := step_refuse hs
    exact hmoved _ c' _ hc
  | rollback c' =>
    obtain ⟨o, target, -, rfl⟩ := step_rollback hs
    exact hmoved _ c' _ hc
  | publish c' =>
    obtain ⟨o, -, ⟨_, _, -, -, rfl⟩ | ⟨conns, -, -, rfl⟩⟩ := step_publish hs
    · exact hmoved _ c' _ hc
    · exact hmoved { s with conns } c' _ hc
  | remove c' =>
    obtain ⟨e, -, ⟨_, -, rfl⟩ | ⟨-, rfl⟩⟩ := step_remove hs
    all_goals exact hmoved _ c' _ hc
  | markStale c' =>
    obtain ⟨e, -, ⟨row, -, -, -, rfl⟩ | ⟨-, rfl⟩⟩ := step_markStale hs
    · exact hmoved s c' _ hc
    · exact hmoved _ c' _ hc
  | sweep | pass =>
    cases hs
    rfl

theorem quiet_of_first {k retention now : Nat} {ops : List (ListenOp ν φ)}
    (hr : Run step (fun _ op => FirstConns k op = true) (start retention now) ops s)
    (hfirst : (range k).all (fun c => (s.stage c).all settled) = true) : s.Quiet := by
  have hnone : ∀ c, k ≤ c → s.stage c = none := by
    refine hr.invariant (I := fun s => ∀ c, k ≤ c → s.stage c = none) ?_ fun _ _ => rfl
    intro s op t hC hs hi c hc
    rw [step_stage_of_ne hs, hi c hc]
    intro hop
    unfold FirstConns at hC
    rw [hop, all_some, decide_eq_true_eq] at hC
    omega
  intro c st hst
  have hc : c < k := by
    refine Nat.lt_of_not_le fun hle => ?_
    rw [hnone c hle] at hst
    cases hst
  have hsettled := List.all_eq_true.1 hfirst c (mem_range.2 hc)
  rw [hst, all_some] at hsettled
  cases st with
  | driving e => exact .inr ⟨e, rfl⟩
  | gone => exact .inl rfl
  | waiting | rolling | exited => exact absurd hsettled (by simp [settled])

/-- A condition that can be evaluated: nothing is pruned, and what a rollback puts
back is published. -/
def BackedNow (s : Listen ν φ) : ListenOp ν φ → Bool
  | .admits _ _ _ evict => evict.isEmpty
  | .rollback c =>
      match s.stage c with
      | some (.rolling o (some p)) =>
          s.conns.occupantGeneration o.entry.name = some p.generation
      | _ => true
  | _ => true

omit [DecidableEq ν] [DecidableEq φ] in
theorem backed_of_now (h : s.BackedNow op = true) :
    s.Backed op := by
  refine ⟨?_, ?_⟩
  · cases op with
    | admits c n b evict =>
      obtain rfl : evict = [] := List.isEmpty_iff.1 h
      intro n hn
      cases hn
    | _ => trivial
  · rintro c o p row rfl hst - - -
    simp only [BackedNow, hst] at h
    exact .inl (of_decide_eq_true h)

/-- A reconnect is refused, and the row of the published connection is put back. -/
theorem live_rows_are_published_restored :
    ∃ (s : Listen Nat Nat) (e : ReverseEntry Nat Nat), Run step Backed (start 10 0)
        [.admits 0 0 7 [], .publish 0, .admits 1 0 7 [], .refuse 1, .rollback 1] s ∧
      s.Quiet ∧ s.registry.entries 0 = some e ∧ e.state = .live ∧
      ∃ c x, s.conns 0 = some (e.generation, c) ∧ s.stage c = some (.driving x) ∧
        x.name = 0 ∧ x.generation = e.generation := by
  obtain ⟨s, hr, hany, hsettled⟩ : ∃ s : Listen Nat Nat, Run step
      (fun s op => s.BackedNow op = true ∧ FirstConns 2 op = true) (start 10 0)
      [.admits 0 0 7 [], .publish 0, .admits 1 0 7 [], .refuse 1, .rollback 1] s ∧
      (s.registry.entries 0).any (fun e => e.state = .live) = true ∧
      (range 2).all (fun c => (s.stage c).all settled) = true :=
    Run.exists_of_exec (by decide +kernel)
  have hq := quiet_of_first (hr.mono fun _ _ h => h.2) hsettled
  have hb := hr.mono (D := Backed) fun _ _ h => backed_of_now h.1
  obtain ⟨e, he, hlive⟩ := (Option.any_eq_true _ _).1 hany
  have hlive := of_decide_eq_true hlive
  exact ⟨s, e, hb, hq, he, hlive, live_rows_are_published hb hq he hlive⟩

/-- A reconnect of key 7 is refused and decides to put the row of the published
connection back; before it does, that connection ends, and finds that the row is
not its own.  What is put back is live, and no connection is published. -/
theorem restored_row_is_a_phantom :
    ∃ (s : Listen Nat Nat) (e : ReverseEntry Nat Nat), Run step (fun _ _ => True) (start 10 0)
        [.admits 0 0 7 [], .publish 0, .admits 1 0 7 [], .refuse 1, .remove 0, .markStale 0,
          .rollback 1] s ∧
      s.Quiet ∧ s.registry.entries 0 = some e ∧ e.state = .live ∧ s.conns 0 = none := by
  obtain ⟨s, hr, hany, hgone, hsettled⟩ : ∃ s : Listen Nat Nat, Run step
      (fun _ op => FirstConns 2 op = true) (start 10 0)
      [.admits 0 0 7 [], .publish 0, .admits 1 0 7 [], .refuse 1, .remove 0, .markStale 0,
        .rollback 1] s ∧ (s.registry.entries 0).any (fun e => e.state = .live) = true ∧
      s.conns 0 = none ∧ (range 2).all (fun c => (s.stage c).all settled) = true :=
    Run.exists_of_exec (by decide +kernel)
  obtain ⟨e, he, hlive⟩ := (Option.any_eq_true _ _).1 hany
  exact ⟨s, e, hr.mono fun _ _ _ => trivial, quiet_of_first hr hsettled, he,
    of_decide_eq_true hlive, hgone⟩

end Listen

end Qsh.Reverse
