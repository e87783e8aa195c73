import Qsh.Reverse.RegistryRuns

/-!
# Names and keys

A name belongs to the key it was first registered with: while a connection of a
fingerprint is published under it, may still be, or was lost less than the
retention time ago, nobody else is admitted (`name_is_reserved`).

The reservation is the row of the name.  A rollback puts a replaced row back only
while its connection is published, and one level deep; a sweep looks at the row
alone.  So either can give up a name that an older registration of the same key
still has, and `Freed` is that it does not.
-/

namespace Qsh.Reverse

open Qsh.Lib Function Option

variable {ν φ : Type} [DecidableEq ν] [DecidableEq φ]

namespace Listen

/-- The last connection of a fingerprint under a name was marked stale at least
the retention time ago, or there was none. -/
def LostOver (s : Listen ν φ) (n : ν) (a : φ) : Prop :=
  ∀ since, s.lost n a = some since → ∃ t, since = some t ∧ s.retention ≤ s.now - t

/-- A fingerprint has no hold on a name: none of its connections is published,
none may still be, and none was lost a short time ago. -/
structure Free (s : Listen ν φ) (n : ν) (a : φ) : Prop where
  published : ∀ g c e, s.conns n = some (g, c) → s.stage c = some (.driving e) → e.fingerprint ≠ a
  waiting : ∀ c o, s.stage c = some (.waiting o) → o.entry.name = n → o.entry.fingerprint ≠ a
  lost : s.LostOver n a

/-- A rollback that removes a row which replaced another, and a sweep that removes
a row, find the name free. -/
def Freed (s : Listen ν φ) (op : ListenOp ν φ) : Prop :=
  s.TombstonesKept op ∧ (∀ c o p row, op = .rollback c → s.stage c = some (.rolling o none) →
      o.replacedEntry = some p → s.registry.entries o.entry.name = some row →
      row.generation = o.entry.generation → ∀ a, s.Free o.entry.name a) ∧
    (∀ n row, op = .sweep → s.registry.entries n = some row →
      RegistryState.expired row s.now s.retention = true → ∀ a, s.Free n a)

/-- The connection holds this entry. -/
def Held (s : Listen ν φ) (c : Nat) (e : ReverseEntry ν φ) : Prop :=
  ∃ st, s.stage c = some st ∧ st.entry? = some e

variable {s t : Listen ν φ} {c : Nat} {o : RegisterOutcome ν φ}

variable {e row : ReverseEntry ν φ}

omit [DecidableEq ν] [DecidableEq φ] in
theorem Held.holds (h : s.Held c e) :
    s.Holds c e.name e.generation := by
  obtain ⟨st, hst, he⟩ := h
  exact ⟨st, e, hst, he, rfl, rfl⟩

omit [DecidableEq ν] [DecidableEq φ] in
theorem Pending.held (h : s.Pending c o) :
    s.Held c o.entry := by
  rcases h with h | ⟨target, h⟩
  all_goals exact ⟨_, h, rfl⟩

variable {st st' : Stage ν φ}

omit [DecidableEq ν] [DecidableEq φ] in
theorem held_of_stage (hst : s.stage c = some st) (hstage : Moved s t c st')
    (hentry : ∀ e, st'.entry? = some e → st.entry? = some e) :
    ∀ c' e, t.Held c' e → s.Held c' e := by
  rintro c' e ⟨x, hx, he⟩
  rw [hstage] at hx
  split at hx
  · rename_i hc
    cases hx
    exact ⟨st, hc ▸ hst, hentry e he⟩
  · exact ⟨x, hx, he⟩

/-- What keeps a name with its key.  A row of a connection's generation has its
key, also one that can be put back; a row that is to be put back is not that of a
pending registration; who has a hold on a name has its row; and the first
registration of a name is alone with it. -/
structure Reserved (s : Listen ν φ) : Prop where
  ownRow : ∀ c e row, s.Held c e → s.registry.entries e.name = some row →
    row.generation = e.generation → row.fingerprint = e.fingerprint
  ownReplaced : ∀ c e c' o p, s.Held c e → s.Pending c' o → o.replacedEntry = some p →
    o.entry.name = e.name → p.generation = e.generation → p.fingerprint = e.fingerprint
  restored : ∀ c o p c' o', s.stage c = some (.rolling o (some p)) → s.Pending c' o' →
    o'.entry.name = o.entry.name → o'.entry.generation ≠ p.generation
  reserved : ∀ n a, (∀ row, s.registry.entries n = some row → row.fingerprint ≠ a) → s.Free n a
  first : ∀ c o row, s.Pending c o → o.replacedEntry = none →
    s.registry.entries o.entry.name = some row → row.generation = o.entry.generation →
    s.conns o.entry.name = none ∧
      (∀ c' o', s.stage c' = some (.waiting o') → o'.entry.name = o.entry.name → c' = c) ∧
      ∀ a, s.LostOver o.entry.name a

omit [DecidableEq ν] [DecidableEq φ] in
theorem Free.shrink {n : ν} {a : φ} (h : s.Free n a)
    (hpub : ∀ g c e, t.conns n = some (g, c) → t.stage c = some (.driving e) →
      s.conns n = some (g, c) ∧ s.stage c = some (.driving e))
    (hwait : ∀ c o, t.stage c = some (.waiting o) → s.stage c = some (.waiting o))
    (hlost : s.LostOver n a → t.LostOver n a) : t.Free n a where
  published := fun g c e hconn hst =>
    h.published g c e (hpub g c e hconn hst).1 (hpub g c e hconn hst).2
  waiting := fun c o hst hn => h.waiting c o (hwait c o hst) hn
  lost := hlost h.lost

omit [DecidableEq ν] [DecidableEq φ] in
/-- A step after which nobody has more of a hold on a name, and that removes only
rows of names that are free. -/
theorem Reserved.shrink (h : s.Reserved) (hheld : ∀ c e, t.Held c e → s.Held c e)
    (hpending : ∀ c o, t.Pending c o → s.Pending c o)
    (hpub : ∀ n g c e, t.conns n = some (g, c) → t.stage c = some (.driving e) →
      s.conns n = some (g, c) ∧ s.stage c = some (.driving e))
    (hnone : ∀ n, s.conns n = none → t.conns n = none)
    (hwait : ∀ c o, t.stage c = some (.waiting o) → s.stage c = some (.waiting o))
    (hlost : ∀ n a, s.LostOver n a → t.LostOver n a)
    (hrow : ∀ n row, t.registry.entries n = some row → s.registry.entries n = some row)
    (hgone : ∀ n row, s.registry.entries n = some row → t.registry.entries n = none →
      ∀ a, s.Free n a)
    (hrestored : ∀ c o p c' o', t.stage c = some (.rolling o (some p)) → s.Pending c' o' →
      o'.entry.name = o.entry.name → o'.entry.generation ≠ p.generation) : t.Reserved where
  ownRow := fun c e row hc hr hg => h.ownRow c e row (hheld c e hc) (hrow _ row hr) hg
  ownReplaced := fun c e c' o p hc hp hr hn hg =>
    h.ownReplaced c e c' o p (hheld c e hc) (hpending c' o hp) hr hn hg
  restored := fun c o p c' o' hst hp hn => hrestored c o p c' o' hst (hpending c' o' hp) hn
  reserved := by
    intro n a hnot
    refine Free.shrink ?_ (hpub n) hwait (hlost n a)
    cases hs : s.registry.entries n with
    | none => exact h.reserved n a (by simp [hs])
    | some row =>
      cases ht : t.registry.entries n with
      | none => exact hgone n row hs ht a
      | some row' =>
        refine h.reserved n a ?_
        intro x hx
        have hsame := hrow n row' ht
        cases hsame.symm.trans hx
        exact hnot row' ht
  first := by
    intro c o row hp hr hcur hg
    obtain ⟨hconns, halone, hover⟩ := h.first c o row (hpending c o hp) hr (hrow _ row hcur) hg
    exact ⟨hnone _ hconns, fun c' o' hst hn => halone c' o' (hwait c' o' hst) hn,
      fun a => hlost _ a (hover a)⟩

omit [DecidableEq ν] [DecidableEq φ] in
theorem old_stage {c' : Nat} {x : Stage ν φ} (hstage : Moved s t c st')
    (hx : t.stage c' = some x) (hne : x ≠ st') : s.stage c' = some x := by
  rw [hstage] at hx
  split at hx
  · exact absurd (some.inj hx).symm hne
  · exact hx

theorem Reserved.admits (h : s.Reserved) (hinv : s.Inv) {name : ν}
    {fingerprint : φ} {evict : List ν} {r : RegistryState ν φ}
    (hst : s.stage c = none) (hadm : s.registry.admitEntry name fingerprint = some (r, o)) :
    Reserved ({ s with registry := r.pruneTombstones evict }.setStage c (.waiting o)) := by
  obtain ⟨hname, hfp, hreplaced, hrow, -, hentries, -⟩ := RegistryState.admitEntry_spec hadm
  let t : Listen ν φ := { s with registry := r.pruneTombstones evict }.setStage c (.waiting o)
  have hstage : Moved s t c (.waiting o) := setStage_moved _ c _
  have hentry : ∀ n row, t.registry.entries n = some row →
      n = name ∧ o.entry = row ∨ n ≠ name ∧ s.registry.entries n = some row := by
    intro n row hx
    have hx' : r.entries n = some row := hx
    rw [hentries] at hx'
    rcases update_cases hx' with ⟨hn, heq⟩ | hold
    · exact .inl ⟨hn, some.inj heq⟩
    · exact .inr hold
  have hbelow : ∀ c' e, s.Held c' e → e.name = name → e.generation < o.entry.generation :=
    fun c' e hh hn => hinv.below_admitted hadm c' _ _ hh.holds hn
  have hheld : ∀ c' e, t.Held c' e → c' = c ∧ e = o.entry ∨ c' ≠ c ∧ s.Held c' e := by
    rintro c' e ⟨x, hx, he⟩
    rw [hstage] at hx
    split at hx
    · rename_i hc
      cases hx
      exact .inl ⟨hc, (some.inj he).symm⟩
    · exact .inr ⟨‹_›, x, hx, he⟩
  have hpending := pending_of_admitted hstage
  have hwaiting : ∀ c' o', t.stage c' = some (.waiting o') →
      c' = c ∧ o' = o ∨ s.stage c' = some (.waiting o') := by
    intro c' o' hx
    by_cases hne : (Stage.waiting o' : Stage ν φ) = .waiting o
    · injection hne with hne
      rw [hstage] at hx
      split at hx
      · exact .inl ⟨‹_›, hne⟩
      · exact .inr hx
    · exact .inr (old_stage hstage hx hne)
  have hdriving : ∀ c' e, t.stage c' = some (.driving e) → s.stage c' = some (.driving e) :=
    fun c' e hx => old_stage hstage hx (by simp)
  refine ⟨?_, ?_, ?_, ?_, ?_⟩
  · intro c' e row hh hr hg
    rcases hentry _ row hr with ⟨hn, rfl⟩ | ⟨hn, hold⟩
    · rcases hheld c' e hh with ⟨-, rfl⟩ | ⟨-, hh⟩
      · rfl
      · exact absurd hg.symm (ne_of_lt (hbelow c' e hh hn))
    · rcases hheld c' e hh with ⟨-, rfl⟩ | ⟨-, hh⟩
      · exact absurd hname hn
      · exact h.ownRow c' e row hh hold hg
  · intro c' e c₁ o₁ p hh hp hr hn hg
    rcases hpending c₁ o₁ hp with ⟨-, rfl⟩ | ⟨-, hp⟩
    · rw [hreplaced] at hr
      rcases hheld c' e hh with ⟨-, rfl⟩ | ⟨-, hh⟩
      · exact absurd hg (ne_of_lt (hrow p hr).2)
      · exact h.ownRow c' e p hh (by rw [← hn, hname]; exact hr) hg
    rcases hheld c' e hh with ⟨-, rfl⟩ | ⟨-, hh⟩
    · have hp1 := (hinv.replaced c₁ o₁ p hp hr).2.2
      have hp2 := hbelow c₁ _ hp.held (hn.trans hname)
      omega
    · exact h.ownReplaced c' e c₁ o₁ p hh hp hr hn hg
  · intro c₁ o₁ p c' o' hx hp hn
    have hx' := old_stage hstage hx (by simp)
    rcases hpending c' o' hp with ⟨-, rfl⟩ | ⟨-, hp⟩
    · have hp1 := (hinv.replaced c₁ o₁ p (.inr ⟨_, hx'⟩) (hinv.target c₁ o₁ p hx')).2.2
      have hp2 := hbelow c₁ _ ⟨_, hx', rfl⟩ (hn.symm.trans hname)
      exact (ne_of_lt (lt_trans hp1 hp2)).symm
    · exact h.restored c₁ o₁ p c' o' hx' hp hn
  · intro n a hnot
    obtain rfl | hn := eq_or_ne n name
    · have hoa : o.entry.fingerprint ≠ a :=
        hnot o.entry (show r.entries n = _ by rw [hentries, update_self])
      have hfree := h.reserved n a fun row hr => by rw [(hrow row hr).1, ← hfp]; exact hoa
      refine ⟨fun g c' e hconn hx => hfree.published g c' e hconn (hdriving c' e hx), ?_,
        hfree.lost⟩
      intro c' o' hx hn'
      rcases hwaiting c' o' hx with ⟨-, rfl⟩ | hx
      · exact hoa
      · exact hfree.waiting c' o' hx hn'
    have hfree := h.reserved n a fun row hr => hnot row
      (show r.entries n = _ by rw [hentries, update_of_ne hn]; exact hr)
    refine ⟨fun g c' e hconn hx => hfree.published g c' e hconn (hdriving c' e hx), ?_,
      hfree.lost⟩
    intro c' o' hx hn'
    rcases hwaiting c' o' hx with ⟨-, rfl⟩ | hx
    · exact absurd (hn'.symm.trans hname) hn
    · exact hfree.waiting c' o' hx hn'
  · intro c' o' row hp hr hcur hg
    rcases hpending c' o' hp with ⟨rfl, rfl⟩ | ⟨-, hp⟩
    · -- the name had no row, so nobody has a hold on it
      rw [hreplaced] at hr
      have hfree : ∀ a, s.Free name a := fun a => h.reserved name a (by simp [hr])
      rw [hname]
      refine ⟨?_, ?_, fun a => (hfree a).lost⟩
      · cases hconn : s.conns name with
        | none => exact hconn
        | some x =>
          obtain ⟨e, he, -⟩ := hinv.published name x.1 x.2 hconn
          exact absurd rfl ((hfree e.fingerprint).published x.1 x.2 e hconn he)
      · intro c₁ o₁ hx hn
        rcases hwaiting c₁ o₁ hx with ⟨rfl, -⟩ | hx
        · rfl
        · exact absurd rfl ((hfree _).waiting c₁ o₁ hx hn)
    rcases hentry _ row hcur with ⟨hn, rfl⟩ | ⟨hn, hold⟩
    · exact absurd hg.symm (ne_of_lt (hbelow c' _ hp.held hn))
    obtain ⟨hconns, halone, hover⟩ := h.first c' o' row hp hr hold hg
    refine ⟨hconns, ?_, hover⟩
    intro c₁ o₁ hx hn'
    rcases hwaiting c₁ o₁ hx with ⟨-, rfl⟩ | hx
    · exact absurd (hn'.symm.trans hname) hn
    · exact halone c₁ o₁ hx hn'

omit [DecidableEq φ] in
/-- A row takes the place of another one of the same key. -/
theorem Reserved.reseat (h : s.Reserved) {name : ν} {row' : ReverseEntry ν φ}
    (hst : s.stage c = some st) (hstage : Moved s t c .gone)
    (hrow : s.registry.entries name = some row)
    (hentries : t.registry.entries = update s.registry.entries name (some row'))
    (hfp : row'.fingerprint = row.fingerprint) (hconns : t.conns = s.conns)
    (hown : ∀ c' e, s.Held c' e → name = e.name → row'.generation = e.generation →
      row'.fingerprint = e.fingerprint)
    (hother : ∀ c' o', s.Pending c' o' → o'.entry.name = name →
      row'.generation ≠ o'.entry.generation)
    (hlost : ∀ n a, (n = name → a ≠ row.fingerprint) → s.LostOver n a → t.LostOver n a) :
    t.Reserved := by
  have hheld := held_of_stage hst hstage (by simp [Stage.entry?])
  have hpending := pending_of_stage hstage (by simp)
  have hwait : ∀ c' o', t.stage c' = some (.waiting o') → s.stage c' = some (.waiting o') :=
    fun c' o' hx => old_stage hstage hx (by simp)
  refine ⟨?_, ?_, ?_, ?_, ?_⟩
  · intro c' e x hh hr hg
    rw [hentries] at hr
    rcases update_cases hr with ⟨hn, heq⟩ | ⟨-, hold⟩
    · cases heq
      exact hown c' e (hheld c' e hh) hn.symm hg
    · exact h.ownRow c' e x (hheld c' e hh) hold hg
  · intro c' e c₁ o₁ p₁ hh hp hr hn hg
    exact h.ownReplaced c' e c₁ o₁ p₁ (hheld c' e hh) (hpending c₁ o₁ hp) hr hn hg
  · intro c₁ o₁ p₁ c' o' hx hp hn
    exact h.restored c₁ o₁ p₁ c' o' (old_stage hstage hx (by simp)) (hpending c' o' hp) hn
  · intro n a hnot
    have hnew : n = name → a ≠ row.fingerprint := by
      rintro rfl rfl
      exact hnot row' (by rw [hentries, update_self]) hfp
    refine Free.shrink (h.reserved n a ?_) ?_ hwait (hlost n a hnew)
    · intro x hx
      obtain rfl | hn := eq_or_ne n name
      · cases hrow.symm.trans hx
        exact (hnew rfl).symm
      · exact hnot x (by rw [hentries, update_of_ne hn]; exact hx)
    · intro g c' e hconn hx
      exact ⟨hconns ▸ hconn, old_stage hstage hx (by simp)⟩
  · intro c' o' x hp hr hx hg
    rw [hentries] at hx
    rcases update_cases hx with ⟨hn, heq⟩ | ⟨hn, hold⟩
    · cases heq
      exact absurd hg (hother c' o' (hpending c' o' hp) hn)
    · obtain ⟨hnone, halone, hover⟩ := h.first c' o' x (hpending c' o' hp) hr hold hg
      exact ⟨hconns ▸ hnone, fun c₁ o₁ hx hn => halone c₁ o₁ (hwait c₁ o₁ hx) hn,
        fun a => hlost _ a (fun hn' => absurd hn' hn) (hover a)⟩

theorem lostOver_setLost (s : Listen ν φ) (name : ν) (fingerprint : φ) (since : Option Nat) :
    ∀ n a, (n = name → a ≠ fingerprint) → s.LostOver n a →
      (s.setLost name fingerprint since).LostOver n a := by
  intro n a hne hover since' hx
  refine hover since' ?_
  rcases update_pred (P := fun f : φ → Option (Option Nat) => f a = some since') hx
    with ⟨hn, hx⟩ | ⟨-, hx⟩
  · rcases update_cases hx with ⟨ha, -⟩ | ⟨-, hx⟩
    · exact absurd ha (hne hn)
    · rw [hn]
      exact hx
  · exact hx

theorem Reserved.publish (h : s.Reserved) (hinv : s.Inv)
    (hst : s.stage c = some (.waiting o)) {conns : ConnTable ν}
    (hconns : conns = update s.conns o.entry.name (some (o.entry.generation, c))) :
    Reserved (({ s with conns }.setStage c (.driving o.entry)).setLost o.entry.name
      o.entry.fingerprint none) := by
  let t : Listen ν φ := ({ s with conns }.setStage c (.driving o.entry)).setLost o.entry.name
    o.entry.fingerprint none
  have hstage : Moved s t c (.driving o.entry) := setStage_moved { s with conns } c _
  have hheld := held_of_stage (t := t) hst hstage fun _ he => he
  have hpending := pending_of_stage (t := t) hstage (by simp)
  have hwait : ∀ c' o', t.stage c' = some (.waiting o') → s.stage c' = some (.waiting o') :=
    fun c' o' hx => old_stage hstage hx (by simp)
  have hother : ∀ n, n ≠ o.entry.name → t.conns n = s.conns n := by
    intro n hn
    show conns n = _
    rw [hconns, update_of_ne hn]
  have hlost := lostOver_setLost { s with conns, stage := t.stage } o.entry.name
    o.entry.fingerprint none
  refine ⟨fun c' e row hh hr hg => h.ownRow c' e row (hheld c' e hh) hr hg,
    fun c' e c₁ o₁ p hh hp hr hn hg =>
      h.ownReplaced c' e c₁ o₁ p (hheld c' e hh) (hpending c₁ o₁ hp) hr hn hg,
    fun c₁ o₁ p c' o' hx hp hn =>
      h.restored c₁ o₁ p c' o' (old_stage hstage hx (by simp)) (hpending c' o' hp) hn, ?_, ?_⟩
  · intro n a hnot
    have hfree := h.reserved n a hnot
    have hne : n = o.entry.name → a ≠ o.entry.fingerprint :=
      fun hn ha => hfree.waiting c o hst hn.symm ha.symm
    refine ⟨?_, fun c' o' hx hn => hfree.waiting c' o' (hwait c' o' hx) hn,
      hlost n a hne hfree.lost⟩
    intro g c' e hconn hx
    rw [hstage] at hx
    split at hx
    · rename_i hc
      obtain rfl := Stage.driving.inj (some.inj hx)
      by_cases hn : n = o.entry.name
      · exact (hne hn).symm
      · rw [hother n hn, hc] at hconn
        exact absurd hconn (hinv.not_published hst (by simp) n g)
    rename_i hc
    refine hfree.published g c' e ?_ hx
    by_cases hn : n = o.entry.name
    · have hself : conns n = some (g, c') := hconn
      rw [hconns, hn, update_self] at hself
      exact absurd (Prod.mk.inj (some.inj hself)).2.symm hc
    · rw [← hother n hn]
      exact hconn
  · intro c' o' row hp hr hcur hg
    have hp' := hpending c' o' hp
    obtain ⟨hnone, halone, hover⟩ := h.first c' o' row hp' hr hcur hg
    have hn : o'.entry.name ≠ o.entry.name := by
      intro hn
      obtain rfl := halone c o hst hn.symm
      unfold Pending at hp
      rw [hstage, if_pos rfl] at hp
      rcases hp with hp | ⟨target, hp⟩ <;> cases hp
    exact ⟨(hother _ hn).trans hnone, fun c₁ o₁ hx hn => halone c₁ o₁ (hwait c₁ o₁ hx) hn,
      fun a => hlost _ a (fun hn' => absurd hn' hn) (hover a)⟩

omit [DecidableEq ν] [DecidableEq φ] in
theorem Reserved.retire (h : s.Reserved) (hst : s.stage c = some st) (hstage : Moved s t c .gone)
    (hentries : t.registry.entries = s.registry.entries) (hconns : t.conns = s.conns)
    (hlost : ∀ n a, s.LostOver n a → t.LostOver n a) : t.Reserved :=
  h.shrink (held_of_stage hst hstage (by simp [Stage.entry?])) (pending_of_stage hstage (by simp))
    (fun n g c' e hconn hx => ⟨hconns ▸ hconn, old_stage hstage hx (by simp)⟩)
    (fun n hn => hconns ▸ hn) (fun c' o' hx => old_stage hstage hx (by simp)) hlost
    (fun n row hr => hentries ▸ hr)
    (fun n row hr hnone => absurd (hr.symm.trans (hentries ▸ hnone)) (by simp))
    (fun c₁ o₁ p c' o' hx hp hn =>
      h.restored c₁ o₁ p c' o' (old_stage hstage hx (by simp)) hp hn)

theorem Reserved.refuse (h : s.Reserved) (hinv : s.Inv) (hs : s.step (.refuse c) = some t) :
    t.Reserved := by
  obtain ⟨o, hst, rfl⟩ := step_refuse hs
  have hstage := setStage_moved s c
    (.rolling o (s.conns.rollbackTarget o.entry.name o.replacedEntry))
  refine h.shrink (held_of_stage hst hstage fun _ he => he) (pending_of_stage hstage ?_)
    (fun n g c' e hconn hx => ⟨hconn, old_stage hstage hx (by simp)⟩) (fun _ hn => hn)
    (fun c' o' hx => old_stage hstage hx (by simp)) (fun _ _ hl => hl) (fun _ _ hr => hr)
    (fun n row hr hnone => nomatch hr.symm.trans hnone) ?_
  · rintro o' (hw | ⟨target, hr⟩)
    · cases hw
    · injection hr with ho
      exact .inl (ho ▸ hst)
  intro c₁ o₁ p c' o' hx hp hn
  rw [hstage] at hx
  split at hx
  swap
  · exact h.restored c₁ o₁ p c' o' hx hp hn
  -- the row to put back is that of the published connection
  injection hx with hx
  injection hx with ho htarget
  subst ho
  obtain ⟨y, hy, hg⟩ := map_eq_some_iff.1 (rollbackTarget_eq htarget).2
  obtain ⟨e, he, hen, heg⟩ := hinv.published _ y.1 y.2 hy
  intro hgen
  have hc := hinv.unique c' y.2 o.entry.name p.generation (hn ▸ hgen ▸ hp.holds)
    ⟨_, e, he, rfl, hen, heg.trans hg⟩
  subst hc
  rcases hp with hp | ⟨target, hp⟩ <;> cases he.symm.trans hp

omit [DecidableEq φ] in
/-- A row of a name that is free goes. -/
theorem Reserved.unseat (h : s.Reserved) {name : ν} (hst : s.stage c = some st)
    (hstage : Moved s t c .gone) (hconns : t.conns = s.conns)
    (hentries : t.registry.entries = update s.registry.entries name none)
    (hlost : ∀ n a, s.LostOver n a → t.LostOver n a) (hfree : ∀ a, s.Free name a) :
    t.Reserved := by
  refine h.shrink (held_of_stage hst hstage (by simp [Stage.entry?]))
    (pending_of_stage hstage (by simp))
    (fun n g c' e hconn hx => ⟨hconns ▸ hconn, old_stage hstage hx (by simp)⟩)
    (fun n hn => hconns ▸ hn) (fun c' o' hx => old_stage hstage hx (by simp)) hlost ?_ ?_
    (fun c₁ o₁ p c' o' hx hp hn =>
      h.restored c₁ o₁ p c' o' (old_stage hstage hx (by simp)) hp hn)
  · intro n x hx
    rw [hentries] at hx
    obtain ⟨-, ⟨⟩⟩ | ⟨-, hold⟩ := update_cases hx
    exact hold
  · intro n x hx hnone a
    rw [hentries] at hnone
    rcases update_cases hnone with ⟨rfl, -⟩ | ⟨-, hold⟩
    · exact hfree a
    · cases hx.symm.trans hold

omit [DecidableEq φ] in
theorem entries_rollback_of_current (target : Option (ReverseEntry ν φ))
    (hrow : s.registry.entries o.entry.name = some row)
    (hgen : row.generation = o.entry.generation) :
    (s.registry.rollback o.entry.name o.entry.generation target).entries =
      update s.registry.entries o.entry.name target := by
  funext n
  rw [entries_rollback, update_apply]
  by_cases hn : n = o.entry.name
  · rw [if_pos ⟨hn, row, hrow, hgen⟩, if_pos hn]
  · rw [if_neg fun hx => hn hx.1, if_neg hn]

theorem Reserved.rollback (h : s.Reserved) (hinv : s.Inv) (hC : s.Freed (.rollback c))
    (hs : s.step (.rollback c) = some t) : t.Reserved := by
  obtain ⟨o, target, hst, rfl⟩ := step_rollback hs
  have hstage := setStage_moved { s with
    registry := s.registry.rollback o.entry.name o.entry.generation target } c .gone
  have hpend : s.Pending c o := .inr ⟨_, hst⟩
  by_cases hcur : ∃ row, s.registry.entries o.entry.name = some row ∧
      row.generation = o.entry.generation
  swap
  · have hsame : (s.registry.rollback o.entry.name o.entry.generation target).entries =
        s.registry.entries := by
      funext n
      rw [entries_rollback, if_neg fun hx => hcur hx.2]
    exact h.retire hst hstage hsame rfl fun _ _ hl => hl
  obtain ⟨row, hrow, hgen⟩ := hcur
  have hentries := entries_rollback_of_current target hrow hgen
  cases target with
  | some p =>
    have hreplaced := hinv.target c o p hst
    have hfp := (hinv.replaced c o p hpend hreplaced).2.1.trans
      (h.ownRow c _ row hpend.held hrow hgen).symm
    refine h.reseat hst hstage hrow hentries hfp rfl ?_ ?_ fun _ _ _ hl => hl
    · intro c' e hh hn hg
      exact h.ownReplaced c' e c o p hh hpend hreplaced hn hg
    · intro c' o' hp hn hg
      exact h.restored c o p c' o' hst hp hn hg.symm
  | none =>
    refine h.unseat hst hstage rfl hentries (fun _ _ hl => hl) fun a => ?_
    cases hr : o.replacedEntry with
    | some p => exact hC.2.1 c o p row rfl hst hr hrow hgen a
    | none =>
      obtain ⟨hconns, halone, hover⟩ := h.first c o row hpend hr hrow hgen
      refine ⟨fun g c' e hconn => absurd (hconns.symm.trans hconn) (by simp), ?_, hover a⟩
      intro c' o' hx hn
      obtain rfl := halone c' o' hx hn
      cases hst.symm.trans hx

theorem Reserved.remove (h : s.Reserved) (hs : s.step (.remove c) = some t) : t.Reserved := by
  obtain ⟨x, hst, ⟨c₀, hocc, rfl⟩ | ⟨-, rfl⟩⟩ := step_remove hs
  swap
  · exact h.retire hst (setStage_moved s c .gone) rfl rfl fun _ _ hl => hl
  have hstage := setStage_moved { s with conns := update s.conns x.name none } c (.exited x)
  refine h.shrink (held_of_stage hst hstage fun _ he => he)
    (pending_of_stage hstage (by simp)) ?_ ?_
    (fun c' o' hx => old_stage hstage hx (by simp)) (fun _ _ hl => hl) (fun _ _ hr => hr)
    (fun n row hr hnone => nomatch hr.symm.trans hnone)
    (fun c₁ o₁ p c' o' hx hp hn =>
      h.restored c₁ o₁ p c' o' (old_stage hstage hx (by simp)) hp hn)
  · intro n g c' e hconn hx
    obtain ⟨-, ⟨⟩⟩ | ⟨-, hold⟩ := update_cases hconn
    exact ⟨hold, old_stage hstage hx (by simp)⟩
  intro n hn
  show update s.conns x.name none n = none
  rw [update_apply]
  split
  · rfl
  · exact hn

theorem Reserved.markStale (h : s.Reserved) (hinv : s.Inv)
    (hs : s.step (.markStale c) = some t) : t.Reserved := by
  obtain ⟨e, hst, ⟨row, hrow, hgen, -, rfl⟩ | ⟨-, rfl⟩⟩ := step_markStale hs
  swap
  · exact h.retire hst (setStage_moved s c .gone) rfl rfl fun _ _ hl => hl
  have hfp := h.ownRow c e row ⟨_, hst, rfl⟩ hrow hgen
  refine h.reseat hst (setStage_moved s c .gone) hrow rfl rfl rfl ?_ ?_ ?_
  · intro c' e' hh hn hg
    exact h.ownRow c' e' row hh (hn ▸ hrow) hg
  · intro c' o' hp hn hg
    have hsame : o'.entry.generation = e.generation := hg.symm.trans hgen
    have hc := hinv.unique c' c e.name e.generation (hn ▸ hsame ▸ hp.holds)
      ⟨_, e, hst, rfl, rfl, rfl⟩
    subst hc
    rcases hp with hp | ⟨target, hp⟩ <;> cases hst.symm.trans hp
  · intro n a hne hover
    exact lostOver_setLost s e.name e.fingerprint (some s.now) n a (hfp ▸ hne) hover

theorem Reserved.sweep (h : s.Reserved) (hC : s.Freed .sweep) (hs : s.step .sweep = some t) :
    t.Reserved := by
  cases hs
  refine h.shrink (fun _ _ hh => hh) (fun _ _ hp => hp) (fun _ _ _ _ hconn hx => ⟨hconn, hx⟩)
    (fun _ hn => hn) (fun _ _ hx => hx) (fun _ _ hl => hl)
    (fun n row hr => (filter_eq_some_iff.1 hr).1) ?_ h.restored
  intro n row hr hnone a
  refine hC.2.2 n row rfl hr ?_ a
  have hfilter : (s.registry.entries n).filter
      (fun e => !RegistryState.expired e s.now s.retention) = none := hnone
  rw [hr, filter_eq_none_iff] at hfilter
  simpa using hfilter row rfl

theorem Reserved.pass {time : Nat} (h : s.Reserved) (hs : s.step (.pass time) = some t) :
    t.Reserved := by
  cases hs
  refine h.shrink (fun _ _ hh => hh) (fun _ _ hp => hp) (fun _ _ _ _ hconn hx => ⟨hconn, hx⟩)
    (fun _ hn => hn) (fun _ _ hx => hx) ?_ (fun _ _ hr => hr)
    (fun n row hr hnone => nomatch hr.symm.trans hnone) h.restored
  intro n a hover since hx
  obtain ⟨t, ht, hle⟩ := hover since hx
  refine ⟨t, ht, le_trans hle ?_⟩
  show s.now - t ≤ s.now + time - t
  omega

theorem Reserved.step (h : s.Reserved) (hinv : s.Inv) {op : ListenOp ν φ}
    (hC : s.Freed op) (hs : s.step op = some t) : t.Reserved := by
  cases op with
  | admits c name fingerprint evict =>
    obtain ⟨hst, r, o, hadm, -, rfl⟩ := step_admits hs
    exact h.admits hinv hst hadm
  | refuse c => exact h.refuse hinv hs
  | rollback c => exact h.rollback hinv hC hs
  | publish c =>
    obtain ⟨o, hst, ⟨g, c₀, -, -, rfl⟩ | ⟨conns, -, hconns, rfl⟩⟩ := step_publish hs
    · exact h.retire hst (setStage_moved s c .gone) rfl rfl fun _ _ hl => hl
    · exact h.publish hinv hst hconns
  | remove c => exact h.remove hs
  | markStale c => exact h.markStale hinv hs
  | sweep => exact h.sweep hC hs
  | pass time => exact h.pass hs

omit [DecidableEq ν] [DecidableEq φ] in
theorem Reserved.start (retention now : Nat) :
    (Listen.start retention now : Listen ν φ).Reserved where
  ownRow := fun _ _ _ ⟨_, h, _⟩ => nomatch h
  ownReplaced := fun _ _ _ _ _ ⟨_, h, _⟩ => nomatch h
  restored := nofun
  reserved := fun _ _ _ =>
    ⟨nofun, nofun, nofun⟩
  first := fun _ _ _ h => by rcases h with h | ⟨_, h⟩ <;> exact nomatch h

/-- In a run in which rollbacks and sweeps give up only names that are free,
nobody is admitted under a name on which another key has a hold. -/
theorem name_is_reserved {retention now : Nat} {ops : List (ListenOp ν φ)} {s t : Listen ν φ}
    (hr : Run step Freed (start retention now) ops s) {c : Nat} {n : ν} {b : φ}
    {evict : List ν} (hs : s.step (.admits c n b evict) = some t) (a : φ) (hne : a ≠ b) :
    s.Free n a := by
  have hinv : s.Inv ∧ s.Reserved := by
    refine hr.invariant (I := fun s => s.Inv ∧ s.Reserved) ?_
      ⟨Inv.start retention now, Reserved.start retention now⟩
    intro s op t hC hs hi
    exact ⟨hi.1.step hC.1 hs, hi.2.step hi.1 hC hs⟩
  obtain ⟨-, r, o, hadm, -⟩ := step_admits hs
  obtain ⟨-, -, -, hrow, -⟩ := RegistryState.admitEntry_spec hadm
  refine hinv.2.reserved n a ?_
  intro row hrow' ha
  exact hne (ha.symm.trans (hrow row hrow').1)

/-- A condition that can be evaluated: nothing is pruned, rolled back or swept. -/
def GivesNothingUp : ListenOp ν φ → Bool
  | .admits _ _ _ evict => evict.isEmpty
  | .rollback _ => false
  | .sweep => false
  | _ => true

omit [DecidableEq ν] [DecidableEq φ] in
theorem freed_of_givesNothingUp (s : Listen ν φ) (op : ListenOp ν φ)
    (hop : GivesNothingUp op = true) : s.Freed op := by
  refine ⟨tombstonesKept_of_nothingPruned s op ?_, ?_, ?_⟩
  · cases op with
    | admits => exact hop
    | _ => rfl
  · rintro c o p row rfl
    cases hop
  · rintro n row rfl
    cases hop

/-- Key `false` is published and lost, and its time is over. -/
def lostPeer : List (ListenOp Unit Bool) :=
  [.admits 0 () false [], .publish 0, .remove 0, .markStale 0, .pass 10]

set_option maxRecDepth 4000 in
/-- No key has a hold on the name then, and after a sweep another one is admitted. -/
theorem lostPeer_exec : ∃ s : Listen Unit Bool,
    execWhere step (fun _ op => GivesNothingUp op = true) (start 10 0) lostPeer = some s ∧
      (∀ n a, s.Free n a) ∧
      ((s.step .sweep).bind fun t => t.step (.admits 1 () true [])).isSome = true := by
  refine ⟨_, rfl, fun _ a => ⟨nofun, fun c o hc => ?_, fun since h => ?_⟩, by decide +kernel⟩
  · match c, hc with
    | 0, hc => cases hc
    | c + 1, hc => cases hc
  · cases a with
    | false =>
      cases h
      exact ⟨0, rfl, by decide⟩
    | true => cases h

/-- Then the row is swept, and another key is admitted. -/
theorem name_is_reserved_swept :
    ∃ s t : Listen Unit Bool, Run step Freed (start 10 0) (lostPeer ++ [.sweep]) s ∧
      s.step (.admits 1 () true []) = some t ∧ s.Free () false := by
  obtain ⟨s, hexec, hfree, hadm⟩ := lostPeer_exec
  have hfreed : s.Freed .sweep := ⟨trivial, by rintro _ _ _ _ ⟨⟩, fun n _ _ _ _ a => hfree n a⟩
  have hr := ((Run.of_execWhere hexec).mono freed_of_givesNothingUp).snoc hfreed rfl
  obtain ⟨t, ht⟩ := isSome_iff_exists.1 hadm
  exact ⟨_, t, hr, ht, name_is_reserved hr ht false (by decide)⟩

def drivenFor {ν φ : Type} : Stage ν φ → Option φ
  | .driving e => some e.fingerprint
  | _ => none

/-- Key 7 is published under name 0.  Two reconnects of it overlap, and the reply
of each fails, the older one first: its rollback finds a newer row and does
nothing, and that of the newer one finds that what it replaced is not published
and removes the row.  Key 8 is then admitted while key 7 is published. -/
theorem overlapping_reconnects_free_a_name :
    ∃ s t : Listen Nat Nat, Run step (fun _ _ => True) (start 10 0)
        [.admits 0 0 7 [], .publish 0, .admits 1 0 7 [], .admits 2 0 7 [],
          .refuse 1, .rollback 1, .refuse 2, .rollback 2] s ∧
      s.step (.admits 3 0 8 []) = some t ∧ ¬ s.Free 0 7 := by
  obtain ⟨s, hr, hadm, hconn, hfp⟩ : ∃ s : Listen Nat Nat, Run step (fun _ _ => True) (start 10 0)
      [.admits 0 0 7 [], .publish 0, .admits 1 0 7 [], .admits 2 0 7 [],
        .refuse 1, .rollback 1, .refuse 2, .rollback 2] s ∧
      (s.step (.admits 3 0 8 [])).isSome ∧ s.conns 0 = some (0, 0) ∧
      (s.stage 0).bind drivenFor = some 7 :=
    Run.exists_of_exec (by decide +kernel)
  obtain ⟨t, ht⟩ := isSome_iff_exists.1 hadm
  refine ⟨s, t, hr, ht, ?_⟩
  intro hfree
  obtain ⟨stage, hstage, hdriven⟩ := bind_eq_some_iff.1 hfp
  cases stage with
  | driving e => exact hfree.published 0 0 e hconn hstage (some.inj hdriven)
  | _ => cases hdriven

end Listen

end Qsh.Reverse
