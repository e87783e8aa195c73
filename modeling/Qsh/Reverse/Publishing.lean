import Mathlib.Data.List.Perm.Subperm
import Qsh.Reverse.RegistryRuns

/-!
# Generations and the connection table

The generations that the registry hands out, over any admissions, rollbacks, losses and
sweeps, and what becomes of the connections admitted, in whatever order they publish.
A connection is named by what it was admitted as: its name and its generation.
-/

namespace Qsh.Reverse

open Qsh.Lib Option List Function

variable {ν φ : Type} [DecidableEq ν] [DecidableEq φ]

/-! ## The generations -/

/-- The registry, and the generations it handed out. -/
structure Handing (ν φ : Type) where
  registry : RegistryState ν φ
  handed : List (ν × Nat)

inductive HandingOp (ν φ : Type) where
  | admits (name : ν) (fingerprint : φ) (evict : List ν)
  | rollback (name : ν) (generation : Nat) (replaced : Option (ReverseEntry ν φ))
  | markStale (name : ν) (generation now : Nat)
  | sweep (now retention : Nat)

namespace Handing

/-- One step of admission, rollback or removal. -/
def step (s : Handing ν φ) : HandingOp ν φ → Option (Handing ν φ)
  | .admits name fingerprint evict =>
      match s.registry.admitEntry name fingerprint with
      | some (registry, o) =>
          if registry.MayEvict evict then
            some ⟨registry.pruneTombstones evict, s.handed ++ [(name, o.entry.generation)]⟩
          else none
      | none => some s
  | .rollback name generation replaced =>
      some { s with registry := s.registry.rollback name generation replaced }
  | .markStale name generation now =>
      some { s with registry := s.registry.markStale name generation now }
  | .sweep now retention => some { s with registry := s.registry.sweepExpired now retention }

def start : Handing ν φ := ⟨⟨fun _ => none, []⟩, []⟩

def Among (names : List ν) (_ : Handing ν φ) : HandingOp ν φ → Prop
  | .admits name _ _ => name ∈ names
  | _ => True

instance (names : List ν) (s : Handing ν φ) (op : HandingOp ν φ) :
    Decidable (Among names s op) := by
  cases op <;> unfold Among <;> infer_instance

structure Inv (names : List ν) (s : Handing ν φ) : Prop where
  nodup : (s.registry.lastGeneration.map Prod.fst).Nodup
  among : s.registry.lastGeneration.map Prod.fst ⊆ names
  last : ∀ e ∈ s.handed, ∃ k, s.registry.lastGeneration.lookup e.1 = some k ∧ e.2 ≤ k
  increasing : s.handed.Pairwise fun a b => a.1 = b.1 → a.2 < b.2

variable {s t : Handing ν φ} {names : List ν} {op : HandingOp ν φ}

variable {r : RegistryState ν φ} {evict : List ν}

omit [DecidableEq ν] [DecidableEq φ] in
theorem evict_eq_nil (hlen : names.length ≤ MAX_TOMBSTONES)
    (hnodup : (r.lastGeneration.map Prod.fst).Nodup)
    (hamong : r.lastGeneration.map Prod.fst ⊆ names) (h : r.MayEvict evict) :
    evict = [] := by
  have hle := (hnodup.subperm hamong).length_le
  rw [length_map] at hle
  have hzero := h.2.2
  rw [Nat.sub_eq_zero_of_le (hle.trans hlen), Nat.zero_min] at hzero
  exact length_eq_zero_iff.1 hzero

theorem Inv.admits (h : s.Inv names) (hlen : names.length ≤ MAX_TOMBSTONES)
    {name : ν} {fingerprint : φ} {o : RegisterOutcome ν φ}
    (hr : s.registry.admitEntry name fingerprint = some (r, o))
    (hevict : r.MayEvict evict) (hname : name ∈ names) :
    Inv names ⟨r.pruneTombstones evict, s.handed ++ [(name, o.entry.generation)]⟩ := by
  obtain ⟨-, -, -, -, hlast, -, hr'⟩ := RegistryState.admitEntry_spec hr
  have hsub : ((s.registry.lastGeneration.filter fun e => e.1 ≠ name).map Prod.fst).Sublist
      (s.registry.lastGeneration.map Prod.fst) := filter_sublist.map _
  have hnodup : (r.lastGeneration.map Prod.fst).Nodup := by
    rw [hr', map_cons, nodup_cons]
    exact ⟨by simp, h.nodup.sublist hsub⟩
  have hamong : r.lastGeneration.map Prod.fst ⊆ names := by
    rw [hr', map_cons, cons_subset]
    exact ⟨hname, fun n hn => h.among (hsub.subset hn)⟩
  obtain rfl := evict_eq_nil hlen hnodup hamong hevict
  have hlookup := RegistryState.lookup_admitted hr hevict
  have hprune : r.pruneTombstones [] = r := by simp [RegistryState.pruneTombstones]
  rw [hprune] at hlookup ⊢
  have hlt : ∀ e ∈ s.handed, e.1 = name → e.2 < o.entry.generation := by
    rintro e he rfl
    obtain ⟨k, hk, hle⟩ := h.last e he
    exact hle.trans_lt (hlast k hk)
  refine ⟨hnodup, hamong, ?_, ?_⟩
  · intro e he
    rw [hlookup]
    by_cases hn : e.1 = name
    · refine ⟨_, if_pos hn, ?_⟩
      rcases mem_append.1 he with he | he
      · exact (hlt e he hn).le
      · rw [mem_singleton.1 he]
    · simpa [hn, mem_singleton, Prod.ext_iff] using h.last e (by simpa [hn, Prod.ext_iff] using he)
  · simpa [pairwise_append, h.increasing] using hlt

theorem Inv.step (h : s.Inv names) (hlen : names.length ≤ MAX_TOMBSTONES)
    (hC : Among names s op) (hs : s.step op = some t) : t.Inv names := by
  cases op with
  | admits name fingerprint evict =>
    simp only [Handing.step] at hs
    split at hs
    · rename_i r o hr
      split_ifs at hs with hevict
      cases hs
      exact h.admits hlen hr hevict hC
    · cases hs
      exact h
  | rollback name generation replaced =>
    cases hs
    unfold RegistryState.rollback
    split <;> exact { h with }
  | markStale name generation now =>
    cases hs
    unfold RegistryState.markStale
    repeat' split
    all_goals exact { h with }
  | sweep now retention =>
    cases hs
    exact { h with }

end Handing

/-! ## The table -/

/-- The connection table, and which connections were published, handed back to be
closed, and taken out by `remove_if`. -/
structure Publishing (ν : Type) where
  conns : ConnTable ν
  published : List (ν × Nat)
  closed : List (ν × Nat)
  removed : List (ν × Nat)

inductive PublishingOp (ν : Type) where
  | publish (conn : ν × Nat)
  | removeIf (name : ν) (generation : Nat)

namespace Publishing

def occupant (s : Publishing ν) (name : ν) : List (ν × Nat) :=
  ((s.conns name).map fun e => (name, e.2)).toList

/-- A connection that was admitted publishes once. -/
def step (handed : List (ν × Nat)) (s : Publishing ν) : PublishingOp ν → Option (Publishing ν)
  | .publish conn =>
      if conn ∈ handed ∧ conn ∉ s.published then
        match s.conns.publish conn.1 conn.2 conn.2 with
        | some conns =>
            some { s with
              conns
              published := conn :: s.published
              closed := s.occupant conn.1 ++ s.closed }
        | none => some { s with published := conn :: s.published, closed := conn :: s.closed }
      else none
  | .removeIf name generation =>
      match s.conns.removeIf name generation with
      | (conns, true) => some { s with conns, removed := s.occupant name ++ s.removed }
      | (conns, false) => some { s with conns }

def start : Publishing ν := ⟨fun _ => none, [], [], []⟩

/-- No `remove_if` takes the occupant of the name out. -/
def Stays (name : ν) (s : Publishing ν) : PublishingOp ν → Prop
  | .publish _ => True
  | .removeIf n generation => n = name → (s.conns.removeIf n generation).2 = false

structure Inv (s : Publishing ν) : Prop where
  nodup : s.closed.Nodup
  closed : s.closed ⊆ s.published
  occupied : ∀ n g c, s.conns n = some (g, c) → (n, c) ∈ s.published ∧ (n, c) ∉ s.closed
  kept : ∀ c ∈ s.published, c ∉ s.closed → c ∉ s.removed → s.conns c.1 = some (c.2, c.2)

variable {s t : Publishing ν} {op : PublishingOp ν} {handed : List (ν × Nat)}

variable {name : ν}

omit [DecidableEq ν] in
theorem mem_occupant {c : ν × Nat} :
    c ∈ s.occupant name ↔ c.1 = name ∧ ∃ g, s.conns name = some (g, c.2) := by
  simp only [occupant, mem_toList, map_eq_some_iff]
  grind

theorem publish_some {conn : ν × Nat} (hs : s.step handed (.publish conn) = some t) :
    conn ∉ s.published ∧ t.published = conn :: s.published ∧ t.removed = s.removed ∧
      ((∀ e, s.conns conn.1 = some e → e.1 < conn.2) ∧
          t.conns = update s.conns conn.1 (some (conn.2, conn.2)) ∧
          t.closed = s.occupant conn.1 ++ s.closed ∨
        t.conns = s.conns ∧ t.closed = conn :: s.closed) := by
  simp only [step, ConnTable.publish] at hs
  split_ifs at hs with hnew hold
  · cases hs
    exact ⟨hnew.2, rfl, rfl, .inr ⟨rfl, rfl⟩⟩
  cases hs
  refine ⟨hnew.2, rfl, rfl, .inl ⟨?_, rfl, rfl⟩⟩
  intro e he
  simpa [he] using hold

theorem removeIf_some {generation : Nat} (hs : s.step handed (.removeIf name generation) = some t) :
    t.published = s.published ∧ t.closed = s.closed ∧
      ((s.conns.removeIf name generation).2 = true ∧ t.conns = update s.conns name none ∧
          t.removed = s.occupant name ++ s.removed ∨
        t.conns = s.conns ∧ t.removed = s.removed) := by
  simp only [step, ConnTable.removeIf] at hs ⊢
  split_ifs at hs ⊢ <;> cases hs <;> simp

theorem Inv.step (h : s.Inv) (hs : s.step handed op = some t) : t.Inv := by
  obtain ⟨hnodup, hsub, hocc, hkept⟩ := h
  cases op with
  | publish conn =>
    obtain ⟨hnew, hpub, hrem, hcase⟩ := publish_some hs
    have hfresh : conn ∉ s.closed := fun hc => hnew (hsub hc)
    rcases hcase with ⟨-, hconns, hclosed⟩ | ⟨hconns, hclosed⟩
    · have hold : (s.occupant conn.1).Nodup := by
        unfold occupant
        cases s.conns conn.1 <;> simp
      constructor <;> simp only [hpub, hrem, hconns, hclosed, update_apply]
      · refine nodup_append.2 ⟨hold, hnodup, ?_⟩
        grind [mem_occupant]
      all_goals grind [mem_occupant]
    · constructor <;> simp only [hpub, hrem, hconns, hclosed]
      · exact nodup_cons.2 ⟨hfresh, hnodup⟩
      all_goals grind
  | removeIf name generation =>
    obtain ⟨hpub, hclosed, ⟨-, hconns, hrem⟩ | ⟨hconns, hrem⟩⟩ := removeIf_some hs
    · constructor <;> simp only [hpub, hrem, hconns, hclosed, update_apply]
      · exact hnodup
      · exact hsub
      · grind
      · grind [mem_occupant]
    · constructor <;> simpa only [hpub, hrem, hconns, hclosed]

/-- A step that does not take the occupant of a name out leaves it, or a newer one. -/
theorem occupant_newer {g c : Nat} (hC : Stays name s op)
    (hs : s.step handed op = some t) (h : s.conns name = some (g, c)) :
    ∃ g' c', t.conns name = some (g', c') ∧ g ≤ g' := by
  cases op with
  | publish conn =>
    obtain ⟨-, -, -, ⟨hlt, hconns, -⟩ | ⟨hconns, -⟩⟩ := publish_some hs
    · rw [hconns]
      obtain rfl | hn := eq_or_ne name conn.1
      · exact ⟨_, _, update_self .., (hlt _ h).le⟩
      · exact ⟨g, c, (update_of_ne hn _ _).trans h, le_rfl⟩
    · exact ⟨g, c, hconns ▸ h, le_rfl⟩
  | removeIf n generation =>
    obtain ⟨-, -, ⟨hremoved, hconns, -⟩ | ⟨hconns, -⟩⟩ := removeIf_some hs
    · have hn : name ≠ n := by
        rintro rfl
        simp [hC rfl] at hremoved
      exact ⟨g, c, hconns ▸ (update_of_ne hn _ _).trans h, le_rfl⟩
    · exact ⟨g, c, hconns ▸ h, le_rfl⟩

/-- Generations of a name are handed out in increasing order.  `publish` closes a
connection at most once and never the occupant, whose generation only a removal can
lower; a published connection that was neither removed nor closed is the occupant. -/
theorem table_converges {names : List ν} (hlen : names.length ≤ MAX_TOMBSTONES)
    {ops : List (HandingOp ν φ)} {r : Handing ν φ}
    (hr : Run Handing.step (Handing.Among names) Handing.start ops r) :
    (r.handed.Pairwise fun a b => a.1 = b.1 → a.2 < b.2) ∧
      ∀ ops' t, Run (step r.handed) (fun _ _ => True) start ops' t →
        t.closed.Nodup ∧ (∀ n g c, t.conns n = some (g, c) → (n, c) ∉ t.closed) ∧
        (∀ name g c ops'' u, t.conns name = some (g, c) →
          Run (step r.handed) (Stays name) t ops'' u →
          ∃ g' c', u.conns name = some (g', c') ∧ g ≤ g') ∧
        ∀ c ∈ t.published, c ∉ t.closed → c ∉ t.removed → t.conns c.1 = some (c.2, c.2) := by
  have hhanded : r.Inv names :=
    hr.invariant (fun s op t hC hs h => h.step hlen hC hs) (by constructor <;> simp [Handing.start])
  refine ⟨hhanded.increasing, fun ops' t hrun => ?_⟩
  have hinv : t.Inv :=
    hrun.invariant (fun s op t _ hs h => h.step hs) (by constructor <;> simp [start])
  refine ⟨hinv.nodup, fun n g c h => (hinv.occupied n g c h).2, ?_, hinv.kept⟩
  intro name g c ops'' u h hrun'
  refine hrun'.invariant (I := fun u => ∃ g' c', u.conns name = some (g', c') ∧ g ≤ g') ?_
    ⟨g, c, h, le_rfl⟩
  rintro s op t hC hs ⟨g', c', h', hle⟩
  obtain ⟨g'', c'', h'', hle'⟩ := occupant_newer hC hs h'
  exact ⟨g'', c'', h'', hle.trans hle'⟩

/-- Two registrations of one name that publish in the other order. -/
theorem table_converges_reversed :
    ∃ r, Run Handing.step (Handing.Among [()]) (Handing.start : Handing Unit Unit)
        [.admits () () [], .admits () () []] r ∧
      ∃ t, Run (step r.handed) (fun _ _ => True) start [.publish ((), 1), .publish ((), 0)] t ∧
        t.closed = [((), 0)] ∧ t.conns () = some (1, 1) := by
  refine Run.exists_exec (fun r => r.handed = [((), 0), ((), 1)]) (by decide +kernel) ?_
  intro r hr hhanded
  refine Run.exists_exec (fun t => t.closed = [((), 0)] ∧ t.published = [((), 0), ((), 1)] ∧
    t.removed = []) (by rw [hhanded]; decide +kernel) ?_
  rintro t hrun ⟨hclosed, hpub, hrem⟩
  obtain ⟨-, -, -, hkept⟩ := (table_converges (by decide) hr).2 _ t hrun
  exact ⟨hclosed, hkept ((), 1) (by simp [hpub]) (by simp [hclosed]) (by simp [hrem])⟩

end Publishing

end Qsh.Reverse
