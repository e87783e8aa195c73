import Qsh.Session.Detach

/-!
# What a confirmed detach means

`detach_applied_handed` says that everything the handle accepted before a detach
that is answered `Applied` was handed to the child's queue, in the runs that keep
`Undropped`.

The proof carries one notion: an offset is `Covered` when every byte before it was
handed.  All offsets that come near the target of a detach are covered: those of the
axes of the attach, of its pumps, of their acknowledgements, and the mark.
-/

namespace Qsh.Session

open Qsh.Lib Qsh.Broker Qsh.Client List Option InputPath Function

/-! ## Offsets that are covered -/

/-- Every byte of the attach before the offset was handed to the child's queue. -/
def Covered (base : Nat) (typed : List UInt8) (handed : List (Nat × List UInt8)) (n : Nat) :
    Prop :=
  ∀ i, base ≤ i → i < n → ∃ h ∈ handed, h.1 ≤ i ∧
    ∃ byte, typed[i]? = some byte ∧ h.2[i - h.1]? = some byte

namespace Covered

variable {base n m : Nat} {typed : List UInt8} {handed : List (Nat × List UInt8)}

theorem of_le (h : n ≤ base) : Covered base typed handed n :=
  fun i hi hn => absurd hn (by omega)

theorem zero : Covered base typed handed 0 :=
  .of_le (Nat.zero_le base)

theorem mono (h : Covered base typed handed n) (hm : m ≤ n) : Covered base typed handed m :=
  fun i hi hn => h i hi (by omega)

theorem max (hn : Covered base typed handed n) (hm : Covered base typed handed m) :
    Covered base typed handed (max n m) := by
  intro i hi hlt
  rcases le_total n m with hle | hle
  · exact hm i hi (by omega)
  · exact hn i hi (by omega)

section

variable (h : Covered base typed handed n)
include h

theorem hand (more : List (Nat × List UInt8)) :
    Covered base typed (handed ++ more) n := by
  intro i hi hn
  obtain ⟨piece, hmem, hpiece⟩ := h i hi hn
  exact ⟨piece, mem_append_left more hmem, hpiece⟩

theorem type (data : List UInt8) :
    Covered base (typed ++ data) handed n := by
  intro i hi hn
  obtain ⟨piece, hmem, hle, byte, htyped, hbyte⟩ := h i hi hn
  refine ⟨piece, hmem, hle, byte, ?_, hbyte⟩
  rw [getElem?_append_left (List.getElem?_eq_some_iff.1 htyped).1, htyped]

theorem le_length (hbase : base ≤ typed.length) :
    n ≤ typed.length := by
  by_contra hn
  obtain ⟨-, -, -, byte, htyped, -⟩ := h typed.length hbase (by omega)
  rw [getElem?_eq_none le_rfl] at htyped
  exact nomatch htyped

theorem extend (hm : m ≤ typed.length) :
    Covered base typed (handed ++ [(n, slice typed n m)]) m := by
  intro i hi hlt
  rcases Nat.lt_or_ge i n with hin | hin
  · exact h.hand _ i hi hin
  refine ⟨(n, slice typed n m), mem_append_right _ (mem_singleton_self _), hin,
    typed[i], getElem?_eq_getElem (by omega), ?_⟩
  have hstart : n + (i - n) = i := by omega
  rw [getElem?_slice (by omega), hstart, getElem?_eq_getElem (by omega)]

end

end Covered

/-! ## What others do to the axes -/

variable {m m' : Meta} {id v : Nat}

theorem applied_of_prune_insert
    (h : m'.appliedInput = pruneInputAxes (m.appliedInput.insert id v)) (a : Nat) :
    m'.applied a = 0 ∨ a = id ∧ m'.applied a = v ∨ a ≠ id ∧ m'.applied a = m.applied a := by
  unfold Meta.applied
  rw [h]
  cases hget : (pruneInputAxes (m.appliedInput.insert id v)).get? a with
  | none => exact .inl rfl
  | some off =>
    rcases get?_of_prune_insert hget with ⟨heq, hoff⟩ | ⟨hne, hold⟩
    · exact .inr (.inl ⟨heq, hoff⟩)
    · exact .inr (.inr ⟨hne, by rw [hold]⟩)

def FreshIds (m : Meta) : Prop :=
  ∀ a, m.nextInputStream ≤ a → m.appliedInput.get? a = none

theorem FreshIds.insert (h : FreshIds m) (hid : id < m.nextInputStream)
    (hnext : m'.nextInputStream = m.nextInputStream)
    (hmap : m'.appliedInput = m.appliedInput.insert id v) : FreshIds m' := by
  intro a ha
  rw [hmap, OrdMap.get?_insert_ne _ _ (by omega)]
  exact h a (hnext ▸ ha)

theorem FreshIds.prune (h : FreshIds m) (hid : id < m.nextInputStream)
    (hnext : m'.nextInputStream = m.nextInputStream)
    (hmap : m'.appliedInput = pruneInputAxes (m.appliedInput.insert id v)) : FreshIds m' := by
  intro a ha
  rw [hmap]
  by_contra hne
  obtain ⟨off, hoff⟩ := ne_none_iff_exists'.1 hne
  rcases get?_of_prune_insert hoff with ⟨rfl, -⟩ | ⟨-, hold⟩
  · omega
  · exact nomatch (h a (hnext ▸ ha)).symm.trans hold

/-- A change that leaves the axes where they are, or forgets them. -/
structure Keeps (axes : List Nat) (m m' : Meta) : Prop where
  next : m.nextInputStream ≤ m'.nextInputStream
  applied : ∀ a ∈ axes, m'.applied a = m.applied a ∨ m'.applied a = 0
  fresh : FreshIds m → FreshIds m'

theorem Keeps.of_eq {axes : List Nat} (hnext : m.nextInputStream ≤ m'.nextInputStream)
    (hmap : m'.appliedInput = m.appliedInput) :
    Keeps axes m m' where
  next := hnext
  applied a _ := .inl (by rw [Meta.applied, hmap]; rfl)
  fresh h a ha := by
    rw [hmap]
    exact h a (by omega)

theorem Keeps.prune {axes : List Nat} (hid : id ∉ axes) (hlt : id < m.nextInputStream)
    (hnext : m'.nextInputStream = m.nextInputStream)
    (hmap : m'.appliedInput = pruneInputAxes (m.appliedInput.insert id v)) : Keeps axes m m' where
  next := le_of_eq hnext.symm
  applied a ha := by
    rcases applied_of_prune_insert hmap a with hzero | ⟨rfl, -⟩ | ⟨-, hsame⟩
    · exact .inr hzero
    · exact absurd ha hid
    · exact .inl hsame
  fresh h := h.prune hlt hnext hmap

theorem Keeps.insert {axes : List Nat} (hid : id ∉ axes) (hlt : id < m.nextInputStream)
    (hnext : m'.nextInputStream = m.nextInputStream)
    (hmap : m'.appliedInput = m.appliedInput.insert id v) : Keeps axes m m' where
  next := le_of_eq hnext.symm
  applied a ha := by
    have hne : a ≠ id := by
      rintro rfl
      exact hid ha
    exact .inl ((Meta.applied_of_insert hmap a).trans (if_neg hne))
  fresh h := h.insert hlt hnext hmap

theorem outside_keeps {axes : List Nat} {op : InputOp} (hop : AttachRun.Foreign axes m op) :
    Keeps axes m (InputRun.step ⟨m, []⟩ op).session := by
  cases op with
  | write conn data inputSeq send =>
    show Keeps axes m (m.enqueueWrite conn data inputSeq send).1
    rcases enqueueWrite_cases m conn data inputSeq send with
      ⟨err, -, h⟩ | ⟨-, ⟨reply, -, h⟩ | ⟨-, h⟩ | ⟨stream, seq, rfl, -, -, -, h⟩⟩
    · rw [h]
      cases inputSeq with
      | none => exact .of_eq le_rfl rfl
      | some named => exact .prune hop.1 hop.2 rfl rfl
    · rw [h]
      exact .of_eq le_rfl rfl
    · rw [h]
      exact .of_eq le_rfl rfl
    · rw [h]
      exact .insert hop.1 hop.2 rfl rfl
  | seed id from_ => exact .prune hop.1 hop.2 rfl rfl
  | takeLease | releaseConnection | exit | close => exact .of_eq le_rfl rfl
  | reserve => exact .of_eq (Nat.le_succ _) rfl

/-! ## Where an attach begins -/

def AttachPoint.opened : AttachPoint where
  session := .new 0
  axis := FIRST_INPUT_STREAM
  inputFrom := 0
  fresh a ha := by
    have hne : a ≠ FIRST_INPUT_STREAM := fun h => absurd (h ▸ ha) (by decide)
    exact OrdMap.get?_insert_ne _ _ hne
  known := by decide
  counted := by decide

/-- An attach to a session that there is: an axis is reserved, and seeded from the
axis of an earlier attach. -/
def AttachPoint.again (p : AttachPoint) (from_ : Option Nat) : AttachPoint where
  session := (p.session.reserveInputStream.1.seedInputStream p.session.nextInputStream from_).1
  axis := p.session.nextInputStream
  inputFrom := (p.session.reserveInputStream.1.seedInputStream p.session.nextInputStream from_).2
  fresh := by
    have hreserved : FreshIds p.session.reserveInputStream.1 := fun a ha =>
      p.fresh a (Nat.le_of_succ_le ha)
    exact hreserved.prune (Nat.lt_succ_self _) rfl rfl
  known := Nat.lt_succ_self _
  counted := by
    have hmap : (p.session.reserveInputStream.1.seedInputStream p.session.nextInputStream
        from_).1.appliedInput = pruneInputAxes (p.session.reserveInputStream.1.appliedInput.insert
          p.session.nextInputStream (p.session.reserveInputStream.1.seedInputStream
            p.session.nextInputStream from_).2) := rfl
    rcases applied_of_prune_insert hmap p.session.nextInputStream with
      hzero | ⟨-, hseeded⟩ | ⟨hne, -⟩
    · rw [hzero]
      exact Nat.zero_le _
    · omega
    · exact absurd rfl hne

/-! ## The input path of an attach -/

def LegStage.axes : LegStage → List Nat
  | .verified _ lineage => [lineage]
  | .reserved _ lineage axis => [lineage, axis]
  | .rotated _ lineage axis => [lineage, axis]
  | .seeded _ axis _ => [axis]
  | _ => []

/-- What holds of a leg: it is on axes of the attach, its chunks carry what was
typed, and its offsets are covered. -/
structure LegOk (axes : List Nat) (base : Nat) (typed : List UInt8)
    (handed : List (Nat × List UInt8)) (leg : InputLeg) : Prop where
  wire : ∀ c ∈ leg.wire, c.Of typed
  axes : ∀ a ∈ leg.stage.axes, a ∈ axes
  start : ∀ t a f, leg.stage = .seeded t a f → Covered base typed handed f
  applied : Covered base typed handed leg.applied
  acks : ∀ n ∈ leg.acks, Covered base typed handed n

variable {axes : List Nat} {base n : Nat} {typed : List UInt8} {handed : List (Nat × List UInt8)}
  {leg : InputLeg} {stage : LegStage}

namespace LegOk

section

variable (h : LegOk axes base typed handed leg)
include h

theorem reserve (more : List Nat) :
    LegOk (axes ++ more) base typed handed leg :=
  { h with axes := fun a ha => mem_append_left more (h.axes a ha) }

theorem hand (more : List (Nat × List UInt8)) :
    LegOk axes base typed (handed ++ more) leg where
  __ := h
  start t a f hstage := (h.start t a f hstage).hand more
  applied := h.applied.hand more
  acks n hn := (h.acks n hn).hand more

theorem type (data : List UInt8) :
    LegOk axes base (typed ++ data) handed leg where
  wire c hc := (h.wire c hc).append data
  axes := h.axes
  start t a f hstage := (h.start t a f hstage).type data
  applied := h.applied.type data
  acks n hn := (h.acks n hn).type data

end

theorem new (physical : Nat) (hstage : stage.axes = []) :
    LegOk axes base typed handed (.new physical stage) where
  wire := nofun
  axes a ha := by
    have ha : a ∈ stage.axes := ha
    rw [hstage] at ha
    exact nomatch ha
  start t a f h := by
    have h : stage = .seeded t a f := h
    rw [h] at hstage
    exact nomatch hstage
  applied := .zero
  acks := nofun

section

variable (h : LegOk axes base typed handed leg)
include h

theorem move (haxes : ∀ a ∈ stage.axes, a ∈ axes)
    (hseed : ∀ t a f, stage ≠ .seeded t a f) :
    LegOk axes base typed handed { leg with stage } :=
  { h with
    axes := haxes
    start := fun t a f hstage => absurd hstage (hseed t a f) }

theorem send (hn : n ≤ typed.length) :
    LegOk axes base typed handed
      ({ leg with inputSeq := n }.sendInput (slice typed n typed.length)) :=
  { h with
    wire := by
      intro c hc
      rcases mem_append.1 hc with hc | hc
      · exact h.wire c hc
      · exact inputChunks_of _ _ hn c hc }

theorem hangup (physical : Nat) :
    LegOk axes base typed handed (leg.hangup physical) := by
  unfold InputLeg.hangup
  split
  · exact { h with }
  · exact h

end

end LegOk

theorem covered_of_prune (h : ∀ a ∈ axes, Covered base typed handed (m.applied a))
    (hmap : m'.appliedInput = pruneInputAxes (m.appliedInput.insert id v))
    (hv : Covered base typed handed v) : ∀ a ∈ axes, Covered base typed handed (m'.applied a) := by
  intro a ha
  rcases applied_of_prune_insert hmap a with hzero | ⟨-, hnew⟩ | ⟨-, hold⟩
  · rw [hzero]
    exact .zero
  · rw [hnew]
    exact hv
  · rw [hold]
    exact h a ha

/-- What was handed to the host is what was typed, from `base` on. -/
structure Carried {Sid Peer Hash : Type} (o : Owner Sid Peer Hash) (base : Nat)
    (axes : List Nat) (handed : List (Nat × List UInt8)) (s : InputPath Sid Peer Hash) :
    Prop where
  begun : base ≤ s.typed.length
  pending : s.pending.Holds s.typed
  current : ∀ k, s.current = some k → (s.legs k).inputSeq = s.typed.length
  legs : ∀ k, LegOk axes base s.typed handed (s.legs k)
  entry : ∀ e ∈ s.resume o.id, e.inputStream ∈ axes
  known : ∀ a ∈ axes, a < s.session.nextInputStream
  applied : ∀ a ∈ axes, Covered base s.typed handed (s.session.applied a)
  fresh : FreshIds s.session

variable {Sid Peer Hash : Type} {o : Owner Sid Peer Hash} {s : InputPath Sid Peer Hash}

namespace Carried

section

variable (h : Carried o base axes handed s)
include h

variable {k axis : Nat}

theorem setLeg (hleg : LegOk axes base s.typed handed leg)
    (hseq : s.current = some k → leg.inputSeq = s.typed.length) :
    Carried o base axes handed (s.setLeg k leg) :=
  { h with
    current := by
      intro j hj
      rw [legs_setLeg]
      split
      · next heq => exact hseq (heq ▸ hj)
      · exact h.current j hj
    legs := by
      intro j
      rw [legs_setLeg]
      split
      · exact hleg
      · exact h.legs j }

theorem setFlags (hleg : LegOk axes base s.typed handed leg)
    (hseq : leg.inputSeq = (s.legs k).inputSeq) :
    Carried o base axes handed (s.setLeg k leg) :=
  h.setLeg hleg fun hk => hseq.trans (h.current k hk)

theorem move (haxes : ∀ a ∈ stage.axes, a ∈ axes)
    (hseed : ∀ t a f, stage ≠ .seeded t a f) :
    Carried o base axes handed (s.setLeg k { s.legs k with stage }) :=
  h.setFlags ((h.legs k).move haxes hseed) rfl

theorem fail (k : Nat) :
    Carried o base axes handed (s.setLeg k { s.legs k with stage := .failed }) :=
  h.move nofun nofun

theorem keep (hm : Keeps axes s.session m) :
    Carried o base axes handed { s with session := m } :=
  { h with
    known := fun a ha => lt_of_lt_of_le (h.known a ha) hm.next
    applied := by
      intro a ha
      rcases hm.applied a ha with heq | hzero
      · rw [heq]
        exact h.applied a ha
      · rw [hzero]
        exact .zero
    fresh := hm.fresh h.fresh }

theorem reserve :
    Carried o base (axes ++ [s.session.nextInputStream]) handed
      { s with session := s.session.reserveInputStream.1 } where
  __ := h
  legs k := (h.legs k).reserve _
  entry e he := mem_append_left _ (h.entry e he)
  known := forall_mem_append.2 ⟨fun a ha => Nat.lt_succ_of_lt (h.known a ha),
    forall_mem_singleton.2 (Nat.lt_succ_self _)⟩
  applied a ha := by
    rcases mem_append.1 ha with ha | ha
    · exact h.applied a ha
    have hzero : s.session.applied a = 0 := by
      rw [mem_singleton.1 ha, Meta.applied, h.fresh _ le_rfl]
      rfl
    show Covered base s.typed handed (s.session.applied a)
    rw [hzero]
    exact .zero
  fresh a ha := h.fresh a (Nat.le_of_succ_le ha)

theorem seed {lineage : Nat} {minted : List UInt8}
    (hk : (s.legs k).stage = .rotated minted lineage axis) :
    Carried o base axes handed { s.setLeg k { s.legs k with
        stage := .seeded minted axis (s.session.seedInputStream axis (some lineage)).2 } with
      session := (s.session.seedInputStream axis (some lineage)).1
      tip := axis } := by
  have hlineage : lineage ∈ axes := (h.legs k).axes lineage (by rw [hk]; exact mem_cons_self)
  have haxis : axis ∈ axes :=
    (h.legs k).axes axis (by rw [hk]; exact mem_cons_of_mem _ mem_cons_self)
  have hstart : Covered base s.typed handed (s.session.seedInputStream axis (some lineage)).2 :=
    h.applied lineage hlineage
  have hleg : Carried o base axes handed (s.setLeg k { s.legs k with
      stage := .seeded minted axis (s.session.seedInputStream axis (some lineage)).2 }) := by
    refine h.setFlags { h.legs k with axes := ?_, start := ?_ } rfl
    · intro a ha
      rw [mem_singleton.1 ha]
      exact haxis
    · intro t a f hstage
      cases hstage
      exact hstart
  have happlied : ∀ a ∈ axes, Covered base s.typed handed
      ((s.session.seedInputStream axis (some lineage)).1.applied a) :=
    covered_of_prune h.applied rfl hstart
  exact { hleg with applied := happlied, fresh := h.fresh.prune (h.known axis haxis) rfl rfl }

variable {pending : PendingInput}

theorem type {data : List UInt8} (hk : s.current = some k)
    (hpush : s.pending.push data = .ok (pending, n)) :
    Carried o base axes handed { s.setLeg k ((s.legs k).sendInput data) with
      typed := s.typed ++ data
      pending := pending } := by
  have hseq := h.current k hk
  have hsent : (s.legs k).sendInput data =
      { s.legs k with inputSeq := s.typed.length }.sendInput
        (slice (s.typed ++ data) s.typed.length (s.typed ++ data).length) := by
    rw [length_append, slice_append_right, ← hseq]
  have hleg : LegOk axes base (s.typed ++ data) handed ((s.legs k).sendInput data) := by
    rw [hsent]
    exact ((h.legs k).type data).send (by rw [length_append]; omega)
  refine
    { begun := by rw [length_append]; exact le_trans h.begun (by omega)
      pending := h.pending.push hpush
      current := ?_
      legs := ?_
      entry := h.entry
      known := h.known
      applied := fun a ha => (h.applied a ha).type data
      fresh := h.fresh }
  · intro j hj
    cases Option.some.inj (hk.symm.trans hj)
    rw [legs_setLeg, if_pos rfl, length_append, ← hseq]
    rfl
  intro j
  rw [legs_setLeg]
  split
  · exact hleg
  · exact (h.legs j).type data

theorem resume {inputFrom : Nat} {token tail : List UInt8}
    (hk : (s.legs k).stage = .seeded token axis inputFrom)
    (hrebase : s.pending.rebase inputFrom = .ok (pending, tail)) :
    Carried o base axes handed
      { s.setLeg k ({ s.legs k with inputSeq := inputFrom }.sendInput tail) with
        pending := pending
        dialing := none
        current := some k } := by
  have hle : inputFrom ≤ s.typed.length :=
    ((h.legs k).start token axis inputFrom hk).le_length h.begun
  obtain ⟨hholds, rfl⟩ := h.pending.rebase hle hrebase
  refine { h with pending := hholds, current := ?_, legs := ?_ }
  · intro j hj
    cases hj
    rw [legs_setLeg, if_pos rfl]
    show inputFrom + (slice s.typed inputFrom s.typed.length).length = s.typed.length
    rw [length_slice le_rfl]
    omega
  intro j
  rw [legs_setLeg]
  split
  · exact (h.legs k).send hle
  · exact h.legs j

end

end Carried

/-! ## Chunks before the actor -/

/-- The offset that a reply names is covered, and so is a chunk that is dropped. -/
def Answered (cov : Nat → Prop) (seq : Nat) : WriteReply → Prop
  | .queued _ next => cov next
  | .applied offset => cov offset
  | .refused err => err = .notRunning ∨ err = .notWriter → cov seq

theorem enqueueWrite_answered {cov : Nat → Prop} {conn stream seq : Nat}
    {data : List UInt8} {send : SendOutcome} (hadm : m.admission conn = none)
    (happlied : cov (m.applied stream))
    (hqueued : ∀ d n, (m.enqueueWrite conn data (some (stream, seq)) send).2 = .queued d n →
      cov n) :
    Answered cov seq (m.enqueueWrite conn data (some (stream, seq)) send).2 := by
  unfold Meta.enqueueWrite at hqueued ⊢
  simp only [hadm] at hqueued ⊢
  split
  · nofun
  rename_i hlong
  rw [if_neg hlong] at hqueued
  split
  · nofun
  rename_i hgap
  rw [if_neg hgap] at hqueued
  split
  · exact happlied
  rename_i hnew
  rw [if_neg hnew] at hqueued
  cases send with
  | ok => exact hqueued _ _ rfl
  | full | closed => exact nofun

namespace LegOk

section

variable (h : LegOk axes base typed handed leg)
include h

theorem note (hn : Covered base typed handed n) :
    LegOk axes base typed handed { leg with applied := n, acks := leg.acks ++ [n] } :=
  { h with
    applied := hn
    acks := forall_mem_append.2 ⟨h.acks, forall_mem_singleton.2 hn⟩ }

variable {reply : WriteReply}

theorem pumpReply {c : InputChunk} (hreply : Answered (Covered base typed handed) c.seq reply) :
    LegOk axes base typed handed (InputPath.pumpReply leg c reply) := by
  unfold InputPath.pumpReply
  split
  · exact h.note hreply
  · exact h.note hreply
  · exact h.note (h.applied.max (hreply (.inl rfl)))
  · exact h.note (h.applied.max (hreply (.inr rfl)))
  · exact { h with }

theorem copyReply {seq : Nat} (hreply : Answered (Covered base typed handed) seq reply) :
    LegOk axes base typed handed (InputPath.copyReply leg reply) := by
  unfold InputPath.copyReply
  split
  · exact h.note hreply
  · exact h.note hreply
  · exact h

end

end LegOk

namespace Carried

theorem hand (h : Carried o base axes handed s) (more : List (Nat × List UInt8)) :
    Carried o base axes (handed ++ more) s :=
  { h with
    legs := fun k => (h.legs k).hand more
    applied := fun a ha => (h.applied a ha).hand more }

theorem write (h : Carried o base axes handed s) {k axis : Nat} {c : InputChunk}
    (hc : c.Of s.typed) (haxis : axis ∈ axes)
    (hroom : s.session.applied axis < c.seq → s.session.admission k = none)
    (send : SendOutcome) :
    Carried o base axes (handed ++ AttachRun.pieces c.seq
        (queuedBytes (s.write k axis c send).2)) (s.write k axis c send).1 ∧
      Answered (Covered base s.typed (handed ++ AttachRun.pieces c.seq
        (queuedBytes (s.write k axis c send).2))) c.seq (s.write k axis c send).2 := by
  have hreply : (s.write k axis c send).2 =
      (s.session.enqueueWrite k c.data (some (axis, c.seq)) send).2 := rfl
  have hnone : ∀ {reply : WriteReply}, queuedBytes reply = [] →
      handed ++ AttachRun.pieces c.seq (queuedBytes reply) = handed := by
    intro reply hreply
    rw [hreply]
    exact append_nil handed
  rcases enqueueWrite_cases s.session k c.data (some (axis, c.seq)) send with
    ⟨err, hadm, hw⟩ |
      ⟨hadm, ⟨reply, hother, hw⟩ | ⟨hsome, -⟩ | ⟨stream, seq, hsome, hlen, hle, hlt, hw⟩⟩
  · -- dropped: there was nothing new in it
    have hold : c.seq ≤ s.session.applied axis := by
      by_contra hnew
      rw [hroom (by omega)] at hadm
      exact nomatch hadm
    have hmax : max (s.session.applied axis) c.seq = s.session.applied axis := by omega
    have hsession : (s.write k axis c send).1 =
        { s with session := s.session.refuse (some (axis, c.seq)), child := s.child ++ [] } := by
      unfold InputPath.write
      rw [hw]
      rfl
    rw [hreply, hw, hnone rfl, hsession]
    refine ⟨{ h with known := h.known, applied := ?_, fresh := ?_ }, fun _ => ?_⟩
    · refine covered_of_prune h.applied rfl ?_
      rw [hmax]
      exact h.applied axis haxis
    · exact h.fresh.prune (h.known axis haxis) rfl rfl
    · exact (h.applied axis haxis).mono hold
  · -- answered at once
    have hbytes : queuedBytes reply = [] := by
      cases reply with
      | queued d n => exact absurd rfl (hother d n)
      | applied | refused => rfl
    have hsession : (s.write k axis c send).1 =
        { s with child := s.child ++ queuedBytes reply } := by
      unfold InputPath.write
      rw [hw]
    have hanswer : Answered (Covered base s.typed handed) c.seq
        (s.session.enqueueWrite k c.data (some (axis, c.seq)) send).2 := by
      refine enqueueWrite_answered hadm (h.applied axis haxis) fun d n hq => ?_
      rw [hw] at hq
      exact absurd hq (hother d n)
    rw [hw] at hanswer
    rw [hreply, hw, hnone hbytes, hsession]
    exact ⟨{ h with }, hanswer⟩
  · exact nomatch hsome
  · -- queued: the bytes between the offset of the axis and the end of the chunk
    cases hsome
    have hstart : c.seq - c.data.length + (s.session.applied axis - (c.seq - c.data.length)) =
        s.session.applied axis := by omega
    have hdata : c.data.drop (s.session.applied axis - (c.seq - c.data.length)) =
        slice s.typed (s.session.applied axis) c.seq := by
      rw [← hstart, ← drop_slice, ← hc.data, hstart]
    have hlength : (slice s.typed (s.session.applied axis) c.seq).length =
        c.seq - s.session.applied axis := length_slice hc.bound
    have hpieces : AttachRun.pieces c.seq (slice s.typed (s.session.applied axis) c.seq) =
        [(s.session.applied axis, slice s.typed (s.session.applied axis) c.seq)] := by
      rw [AttachRun.pieces, if_neg (ne_nil_of_length_pos (by omega)), hlength]
      congr 2
      omega
    have hsession : (s.write k axis c send).1 =
        { s with
          session := { s.session with
            appliedInput := s.session.appliedInput.insert axis c.seq }
          child := s.child ++ slice s.typed (s.session.applied axis) c.seq } := by
      unfold InputPath.write
      rw [hw, hdata]
      rfl
    have hcovered := (h.applied axis haxis).extend hc.bound
    rw [hreply, hw, hdata, hsession]
    show Carried o base axes (handed ++ AttachRun.pieces c.seq
        (slice s.typed (s.session.applied axis) c.seq)) _ ∧
      Covered base s.typed (handed ++ AttachRun.pieces c.seq
        (slice s.typed (s.session.applied axis) c.seq)) c.seq
    rw [hpieces]
    refine ⟨{ h.hand _ with applied := ?_, fresh := ?_ }, hcovered⟩
    · intro a ha
      have hmap : ({ s.session with
          appliedInput := s.session.appliedInput.insert axis c.seq } : Meta).appliedInput =
            s.session.appliedInput.insert axis c.seq := rfl
      rw [Meta.applied_of_insert hmap]
      split
      · exact hcovered
      · exact (h.applied a ha).hand _
    · exact h.fresh.insert (h.known axis haxis) rfl rfl

end Carried

/-! ## Steps of the input path -/

namespace AttachRun

variable {x : AttachRun Sid Peer Hash} {path : InputPath Sid Peer Hash} {op : InputPathOp}

/-- What one step of the path adds. -/
structure Advances (o : Owner Sid Peer Hash) (x : AttachRun Sid Peer Hash)
    (op : InputPathOp) (path : InputPath Sid Peer Hash) : Prop where
  carried : Carried o x.base (x.axes ++ x.reserves op) (x.handed ++ x.hands op path) path
  typed : path.typed = x.path.typed
  child : path.child = x.path.child ++ (x.hands op path).flatMap (·.2)
  acked : Covered x.base x.path.typed x.handed (x.acked op)

theorem hands_eq_nil (hchild : path.child = x.path.child) : x.hands op path = [] := by
  unfold hands
  split
  · rfl
  · rw [hchild, drop_length]
    rfl

theorem Advances.still (h : Carried o x.base (x.axes ++ x.reserves op) x.handed path)
    (hchild : path.child = x.path.child) (htyped : path.typed = x.path.typed)
    (hacked : Covered x.base x.path.typed x.handed (x.acked op)) : x.Advances o op path := by
  have hhands : x.hands op path = [] := hands_eq_nil hchild
  refine ⟨?_, htyped, ?_, hacked⟩
  · rw [hhands, append_nil]
    exact h
  · rw [hhands, hchild]
    exact (append_nil _).symm

theorem Advances.quiet (h : Carried o x.base x.axes x.handed path) (hreserves : x.reserves op = [])
    (hchild : path.child = x.path.child) (htyped : path.typed = x.path.typed)
    (hacked : Covered x.base x.path.typed x.handed (x.acked op)) : x.Advances o op path := by
  refine .still ?_ hchild htyped hacked
  rw [hreserves, append_nil]
  exact h

theorem Advances.bring (h : Carried o x.base x.axes x.handed x.path) {k axis : Nat}
    {c : InputChunk} {send : SendOutcome}
    (hbrings : x.path.brings op = some ⟨k, axis, c⟩) (hreserves : x.reserves op = [])
    (hacked : x.acked op = 0) (hc : c ∈ (x.path.legs k).wire)
    (haxis : axis ∈ (x.path.legs k).stage.axes)
    (hroom : x.path.session.applied axis < c.seq → x.path.session.admission k = none)
    (hseq : leg.inputSeq = (x.path.legs k).inputSeq)
    (hleg : ∀ handed, LegOk x.axes x.base x.path.typed handed (x.path.legs k) →
      Answered (Covered x.base x.path.typed handed) c.seq (x.path.write k axis c send).2 →
      LegOk x.axes x.base x.path.typed handed leg) :
    x.Advances o op ((x.path.write k axis c send).1.setLeg k leg) := by
  have haxes : axis ∈ x.axes := (h.legs k).axes axis haxis
  obtain ⟨hcarried, hanswer⟩ := h.write ((h.legs k).wire c hc) haxes hroom send
  have hchild : (x.path.write k axis c send).1.child =
      x.path.child ++ queuedBytes (x.path.write k axis c send).2 := rfl
  have hhands : x.hands op ((x.path.write k axis c send).1.setLeg k leg) =
      pieces c.seq (queuedBytes (x.path.write k axis c send).2) := by
    unfold hands
    rw [hbrings]
    show pieces c.seq ((x.path.write k axis c send).1.child.drop x.path.child.length) = _
    rw [hchild, drop_left]
  refine ⟨?_, rfl, ?_, ?_⟩
  · rw [hreserves, append_nil, hhands]
    exact hcarried.setFlags (hleg _ ((h.legs k).hand _) hanswer) hseq
  · rw [hhands]
    show (x.path.write k axis c send).1.child = _
    rw [hchild, pieces]
    split
    · next hnil =>
      rw [hnil]
      rfl
    · rw [flatMap_cons, flatMap_nil, append_nil]
  · rw [hacked]
    exact .zero

section

variable [DecidableEq Sid] [DecidableEq Peer] [DecidableEq Hash] {k : Nat}
variable (h : Carried o x.base x.axes x.handed x.path)
include h

theorem Advances.ack {i : Nat} (hs : x.path.step o (.ack k i) = some path) :
    x.Advances o (.ack k i) path := by
  obtain ⟨-, hs⟩ := ite_none_right_eq_some.1 hs
  obtain ⟨n, hn, rfl⟩ := map_eq_some_iff.1 hs
  refine .quiet { h with pending := h.pending.ack n } rfl rfl rfl ?_
  show Covered x.base x.path.typed x.handed ((x.path.legs k).acks[i]?.getD 0)
  rw [hn]
  exact (h.legs k).acks n (mem_of_getElem? hn)

theorem Advances.redial {physical : Nat} (hs : x.path.step o (.redial k physical) = some path) :
    x.Advances o (.redial k physical) path := by
  obtain ⟨⟨hcurrent, -, -⟩, rfl⟩ := ite_some_none_eq_some.1 hs
  have hleg : Carried o x.base x.axes x.handed
      (x.path.setLeg k (.new physical (.requested x.path.held))) :=
    h.setLeg (.new physical rfl) fun hk => by cases hcurrent.symm.trans hk
  exact .quiet { hleg with } rfl rfl rfl .zero

theorem Advances.verify {now : Nat} (hs : x.path.step o (.verify k now) = some path) :
    x.Advances o (.verify k now) path := by
  obtain ⟨token, -, rfl | ⟨e, he, rfl⟩⟩ := InputPath.step_verify hs
  · exact .quiet (h.fail k) rfl rfl rfl .zero
  refine .quiet (h.move ?_ fun _ _ _ hstage => by cases hstage) rfl rfl rfl .zero
  intro a ha
  rw [mem_singleton.1 ha]
  exact h.entry e he

theorem Advances.reserve (hs : x.path.step o (.reserve k) = some path) :
    x.Advances o (.reserve k) path := by
  simp only [InputPath.step] at hs
  split at hs <;> cases hs
  rename_i token lineage hk
  have hlineage : lineage ∈ x.axes :=
    (h.legs k).axes lineage (by rw [hk]; exact mem_cons_self)
  refine .still (h.reserve.move ?_ fun _ _ _ hstage => by cases hstage) rfl rfl .zero
  exact forall_mem_cons.2 ⟨mem_append_left _ hlineage, fun _ => mem_append_right _⟩

theorem Advances.rotate {ttl now : Nat} {minted : List UInt8}
    (hs : x.path.step o (.rotate k ttl now minted) = some path) :
    x.Advances o (.rotate k ttl now minted) path := by
  obtain ⟨token, lineage, axis, hk, rfl | ⟨-, -, -, rfl⟩⟩ := InputPath.step_rotate hs
  · exact .quiet (h.fail k) rfl rfl rfl .zero
  have haxis : ∀ a ∈ [lineage, axis], a ∈ x.axes := by
    have haxes := (h.legs k).axes
    rwa [hk] at haxes
  have hmoved : Carried o x.base x.axes x.handed (x.path.setLeg k
      { x.path.legs k with stage := .rotated minted lineage axis }) :=
    h.move haxis (by simp)
  refine .quiet { hmoved with entry := ?_ } rfl rfl rfl .zero
  intro e he
  have he' : e ∈ update x.path.resume o.id _ o.id := he
  rw [update_self] at he'
  cases he'
  exact haxis axis (mem_cons_of_mem _ mem_cons_self)

theorem Advances.open {noSteal : Bool} (hs : x.path.step o (.open k noSteal) = some path) :
    x.Advances o (.open k noSteal) path := by
  obtain ⟨token, axis, inputFrom, lease, hk, rfl⟩ := InputPath.step_open hs
  have hleg : Carried o x.base x.axes x.handed (x.path.setLeg k
      { x.path.legs k with running := true, applied := inputFrom }) :=
    h.setFlags { h.legs k with applied := (h.legs k).start token axis inputFrom hk } rfl
  have hlease := hleg.keep (m := { x.path.session with lease }) (.of_eq le_rfl rfl)
  exact .quiet { hlease with } rfl rfl rfl .zero

theorem Advances.deliver {send : SendOutcome}
    (hroom : ∀ b ∈ x.path.brings (.deliver k send), x.path.session.applied b.axis < b.chunk.seq →
      x.path.session.admission b.leg = none)
    (hs : x.path.step o (.deliver k send) = some path) : x.Advances o (.deliver k send) path := by
  obtain rfl | ⟨token, axis, inputFrom, c, hk, hc, hbrings, rfl⟩ := InputPath.step_deliver hs
  · exact .quiet (h.setFlags { h.legs k with } rfl) rfl rfl rfl .zero
  refine .bring h hbrings rfl rfl hc ?_ (hroom _ hbrings) ?_ ?_
  · rw [hk]
    exact mem_singleton_self axis
  · exact (InputPath.PathInv.pumpReply_frame _ c _).2.2
  intro handed hleg hanswer
  have hread : LegOk x.axes x.base x.path.typed handed
      { x.path.legs k with taken := (x.path.legs k).taken + 1 } := { hleg with }
  exact hread.pumpReply hanswer

theorem Advances.copy {i : Nat} {send : SendOutcome}
    (hroom : ∀ b ∈ x.path.brings (.copy k i send), x.path.session.applied b.axis < b.chunk.seq →
      x.path.session.admission b.leg = none)
    (hs : x.path.step o (.copy k i send) = some path) : x.Advances o (.copy k i send) path := by
  obtain ⟨token, axis, inputFrom, c, hk, hc, hbrings, rfl⟩ := InputPath.step_copy hs
  refine .bring h hbrings rfl rfl hc ?_ (hroom _ hbrings) ?_ ?_
  · rw [hk]
    exact mem_singleton_self axis
  · exact (InputPath.PathInv.copyReply_frame _ _).2.2
  · exact fun handed hleg hanswer => hleg.copyReply hanswer

omit [DecidableEq Sid] [DecidableEq Peer] [DecidableEq Hash] in
theorem Advances.hangup (physical : Nat) :
    x.Advances o (.hangup physical) { x.path with
      legs := fun k => (x.path.legs k).hangup physical
      session := { x.path.session with
        lease := (x.path.session.lease.releaseConnection physical).1 } } := by
  have hlease := h.keep (m := { x.path.session with
    lease := (x.path.session.lease.releaseConnection physical).1 }) (.of_eq le_rfl rfl)
  refine .quiet { hlease with current := ?_, legs := ?_ } rfl rfl rfl .zero
  · intro k hk
    exact (InputPath.PathInv.hangup_frame (x.path.legs k) physical).2.2.trans (h.current k hk)
  · exact fun k => (h.legs k).hangup physical

theorem path_advances (htype : types op = false)
    (hroom : ∀ b ∈ x.path.brings op, x.path.session.applied b.axis < b.chunk.seq →
      x.path.session.admission b.leg = none)
    (hs : x.path.step o op = some path) : x.Advances o op path := by
  cases op with
  | type data => cases htype
  | ack k i => exact .ack h hs
  | lose =>
    cases hs
    exact .quiet { h with current := fun _ hk => by cases hk } rfl rfl rfl .zero
  | redial k physical => exact .redial h hs
  | giveUp =>
    cases hs
    exact .quiet { h with } rfl rfl rfl .zero
  | verify k now => exact .verify h hs
  | reserve k => exact .reserve h hs
  | rotate k ttl now minted => exact .rotate h hs
  | decline k =>
    simp only [InputPath.step] at hs
    split at hs <;> cases hs
    all_goals exact .quiet (h.fail k) rfl rfl rfl .zero
  | seed k =>
    simp only [InputPath.step] at hs
    split at hs <;> cases hs
    exact .quiet (h.seed ‹_›) rfl rfl rfl .zero
  | granted k =>
    obtain ⟨-, -, -, -, rfl⟩ := InputPath.step_granted hs
    have hleg : Carried o x.base x.axes x.handed
        (x.path.setLeg k { x.path.legs k with header := true }) :=
      h.setFlags { h.legs k with } rfl
    exact .quiet { hleg with } rfl rfl rfl .zero
  | resume k =>
    obtain ⟨_, _, _, _, _, hk, hrebase, rfl⟩ := InputPath.step_resume hs
    exact .quiet (h.resume hk hrebase) rfl rfl rfl .zero
  | «open» k noSteal => exact .open h hs
  | deliver k send => exact .deliver h hroom hs
  | copy k i send => exact .copy h hroom hs
  | hangup physical =>
    cases hs
    exact .hangup h physical

end

/-! ## The handle and the pump -/

def inputs (commands : List AttachCommand) : List UInt8 :=
  commands.flatMap fun
    | .input data => data
    | .detach => []

def ahead : List AttachCommand → Option Nat
  | [] => none
  | .detach :: _ => some 0
  | .input data :: rest => (ahead rest).map (data.length + ·)

theorem ahead_append_input (commands : List AttachCommand) (data : List UInt8) :
    ahead (commands ++ [.input data]) = ahead commands := by
  induction commands with
  | nil => rfl
  | cons command rest ih =>
    cases command with
    | input first => exact congrArg (Option.map (first.length + ·)) ih
    | detach => rfl

variable {commands : List AttachCommand}

theorem ahead_append_detach (h : ahead commands = none) :
    ahead (commands ++ [.detach]) = some (inputs commands).length := by
  induction commands with
  | nil => rfl
  | cons command rest ih =>
    cases command with
    | input first =>
      have hrest : ahead rest = none := map_eq_none_iff.1 h
      have hlength : (inputs (.input first :: rest)).length =
          first.length + (inputs rest).length := length_append
      rw [hlength]
      exact congrArg (Option.map (first.length + ·)) (ih hrest)
    | detach => exact nomatch h

theorem count_input (data : List UInt8) (rest : List AttachCommand) :
    (AttachCommand.input data :: rest).count .detach = rest.count .detach := by
  have hne : AttachCommand.input data ≠ .detach := nofun
  exact count_cons_of_ne hne

theorem ahead_eq_none :
    ahead commands = none ↔ commands.count .detach = 0 := by
  induction commands with
  | nil => exact ⟨fun _ => rfl, fun _ => rfl⟩
  | cons command rest ih =>
    cases command with
    | input first =>
      rw [ahead, map_eq_none_iff, ih, count_input]
    | detach =>
      rw [count_cons_self]
      exact ⟨nofun, nofun⟩

theorem inputs_append (commands : List AttachCommand) (command : AttachCommand) :
    inputs (commands ++ [command]) = inputs commands ++ inputs [command] :=
  flatMap_append

/-- The invariant: what the handle accepted is what the pump sent and what is
queued; the marker and the target are where the detach was called; and the mark
and the answer `Applied` are about covered offsets. -/
structure RunInv (o : Owner Sid Peer Hash) (x : AttachRun Sid Peer Hash) : Prop where
  carried : Carried o x.base x.axes x.handed x.path
  child : x.path.child = x.handed.flatMap (·.2)
  mark : Covered x.base x.path.typed x.handed x.mark
  accepted : x.accepted = x.path.typed.drop x.base ++ inputs x.commands
  once : x.commands.count .detach ≤ 1
  marker : ∀ m ∈ ahead x.commands, x.asked = some (x.path.typed.length - x.base + m)
  target : ∀ t ∈ x.target, ∃ n, x.asked = some n ∧ t = x.base + n
  answer : x.answer = some .applied →
    ∃ n, x.asked = some n ∧ Covered x.base x.path.typed x.handed (x.base + n)

namespace RunInv

variable {y : AttachRun Sid Peer Hash}

section

variable (h : RunInv o x)
include h

theorem write (data : List UInt8) :
    RunInv o { x with accepted := x.accepted ++ data, commands := x.commands ++ [.input data] } :=
  { h with
    accepted := by
      rw [inputs_append, ← append_assoc, ← h.accepted]
      exact congrArg (x.accepted ++ ·) (append_nil data).symm
    once := by
      rw [count_append]
      exact h.once
    marker := by
      rw [ahead_append_input]
      exact h.marker }

theorem detach (hasked : x.asked = none) (queued : Bool) :
    RunInv o { x with
      asked := some x.accepted.length
      commands := if queued then x.commands ++ [.detach] else x.commands
      answer := if queued then x.answer else some .unconfirmed } := by
  have hmarker : ahead x.commands = none := by
    cases hahead : ahead x.commands with
    | none => rfl
    | some m => exact nomatch hasked.symm.trans (h.marker m hahead)
  have htarget : ∀ t, t ∉ x.target := by
    intro t ht
    obtain ⟨n, hn, -⟩ := h.target t ht
    exact nomatch hasked.symm.trans hn
  have hlength : x.accepted.length = x.path.typed.length - x.base + (inputs x.commands).length := by
    rw [h.accepted, length_append, length_drop]
  cases queued with
  | false =>
    refine { h with marker := ?_, target := ?_, answer := ?_ }
    · show ∀ m ∈ ahead x.commands, _
      rw [hmarker]
      exact nofun
    · exact fun t ht => absurd ht (htarget t)
    · nofun
  | true =>
    refine { h with accepted := ?_, once := ?_, marker := ?_, target := ?_, answer := ?_ }
    · show x.accepted = x.path.typed.drop x.base ++ inputs (x.commands ++ [.detach])
      rw [inputs_append, ← append_assoc, ← h.accepted]
      exact (append_nil _).symm
    · show (x.commands ++ [AttachCommand.detach]).count AttachCommand.detach ≤ 1
      rw [count_append, ahead_eq_none.1 hmarker]
      exact Nat.le_refl 1
    · show ∀ m ∈ ahead (x.commands ++ [.detach]), some x.accepted.length = _
      rw [ahead_append_detach hmarker]
      intro m hm
      cases hm
      rw [hlength]
    · exact fun t ht => absurd ht (htarget t)
    · intro hanswer
      obtain ⟨n, hn, -⟩ := h.answer hanswer
      exact nomatch hasked.symm.trans hn

variable {rest : List AttachCommand}

theorem send {data : List UInt8} {k n : Nat}
    {pending : PendingInput} (hcommands : x.commands = .input data :: rest)
    (hk : x.path.current = some k) (hpush : x.path.pending.push data = .ok (pending, n)) :
    RunInv o { x with
      commands := rest
      path := { x.path.setLeg k ((x.path.legs k).sendInput data) with
        typed := x.path.typed ++ data
        pending := pending } } := by
  have hbegun := h.carried.begun
  refine
    { carried := h.carried.type hk hpush
      child := h.child
      mark := h.mark.type data
      accepted := ?_
      once := ?_
      marker := ?_
      target := h.target
      answer := ?_ }
  · rw [h.accepted, hcommands, drop_append_of_le_length hbegun, append_assoc]
    rfl
  · have honce := h.once
    rw [hcommands, count_input] at honce
    exact honce
  · intro m hm
    have hall : data.length + m ∈ ahead x.commands := by
      rw [hcommands]
      exact Option.mem_map_of_mem (data.length + ·) hm
    show x.asked = some ((x.path.typed ++ data).length - x.base + m)
    rw [h.marker _ hall, length_append]
    congr 1
    omega
  · intro hanswer
    obtain ⟨n, hn, hcovered⟩ := h.answer hanswer
    exact ⟨n, hn, hcovered.type data⟩

theorem reach {k : Nat} (hcommands : x.commands = .detach :: rest) (hk : x.path.current = some k) :
    RunInv o { x with commands := rest, target := some (x.path.legs k).inputSeq } := by
  have hasked : x.asked = some (x.path.typed.length - x.base + 0) :=
    h.marker 0 (by rw [hcommands]; rfl)
  have hbegun := h.carried.begun
  have honce := h.once
  rw [hcommands, count_cons_self] at honce
  have hrest : ahead rest = none := ahead_eq_none.2 (by omega)
  refine { h with accepted := ?_, once := ?_, marker := ?_, target := ?_ }
  · rw [h.accepted, hcommands]
    rfl
  · exact Nat.le_of_succ_le honce
  · rw [hrest]
    exact nofun
  intro t ht
  cases ht
  refine ⟨_, hasked, ?_⟩
  show (x.path.legs k).inputSeq = x.base + (x.path.typed.length - x.base + 0)
  rw [h.carried.current k hk]
  omega

theorem advance {op : InputPathOp} {path : InputPath Sid Peer Hash}
    (ha : x.Advances o op path) : RunInv o (x.advance op path) where
  carried := ha.carried
  child := by
    show path.child = (x.handed ++ x.hands op path).flatMap (·.2)
    rw [ha.child, h.child, flatMap_append]
  mark := by
    show Covered x.base path.typed _ _
    rw [ha.typed]
    exact (h.mark.max ha.acked).hand _
  accepted := by
    show x.accepted = path.typed.drop x.base ++ _
    rw [ha.typed]
    exact h.accepted
  __ := h
  marker := by
    show ∀ m ∈ ahead x.commands, x.asked = some (path.typed.length - x.base + m)
    rw [ha.typed]
    exact h.marker
  answer := by
    intro hanswer
    obtain ⟨n, hn, hcovered⟩ := h.answer hanswer
    refine ⟨n, hn, ?_⟩
    show Covered x.base path.typed _ _
    rw [ha.typed]
    exact hcovered.hand _

end

theorem step [DecidableEq Sid] [DecidableEq Peer] [DecidableEq Hash] {op : AttachOp}
    (hop : x.Undropped op) (hs : x.step o op = some y) (h : RunInv o x) : RunInv o y := by
  cases op with
  | write data =>
    cases hs
    exact h.write data
  | detach queued =>
    obtain ⟨hasked, rfl⟩ := ite_some_none_eq_some.1 hs
    exact h.detach hasked queued
  | take =>
    obtain ⟨-, hs⟩ := ite_none_right_eq_some.1 hs
    split at hs
    · next data rest k hcommands hk =>
      have hroom : x.path.pending.buf.length + data.length ≤ UNACKED_INPUT_MAX := by
        unfold Undropped at hop
        rw [hcommands] at hop
        exact hop
      split at hs
      · next err hpush =>
        rw [PendingInput.push, if_neg (by omega)] at hpush
        cases hpush
      rename_i sent hpush
      obtain ⟨path, hpath, rfl⟩ := map_eq_some_iff.1 hs
      simp only [InputPath.step, hk, hpush] at hpath
      cases hpath
      exact h.send hcommands hk hpush
    · next rest k hcommands hk =>
      cases hs
      exact h.reach hcommands hk
    · cases hs
  | stopPump =>
    cases hs
    exact { h with }
  | confirm =>
    simp only [AttachRun.step] at hs
    split at hs
    · next t ht =>
      obtain ⟨⟨hmark, -⟩, rfl⟩ := ite_some_none_eq_some.1 hs
      obtain ⟨n, hn, rfl⟩ := h.target t ht
      exact { h with
        target := by simp
        answer := fun _ => ⟨n, hn, h.mark.mono hmark⟩ }
    · cases hs
  | expire =>
    obtain ⟨-, rfl⟩ := ite_some_none_eq_some.1 hs
    exact { h with answer := fun hanswer => by cases hanswer }
  | path op =>
    obtain ⟨htype, hs⟩ := ite_none_left_eq_some.1 hs
    obtain ⟨path, hpath, rfl⟩ := map_eq_some_iff.1 hs
    exact h.advance (path_advances h.carried (Bool.eq_false_iff.2 htype) hop hpath)
  | outside op =>
    obtain ⟨hforeign, rfl⟩ := ite_some_none_eq_some.1 hs
    exact { h with carried := h.carried.keep (outside_keeps hforeign) }

theorem start [DecidableEq Sid] (o : Owner Sid Peer Hash) (p : AttachPoint)
    (ttl now : Nat) (token : List UInt8) : RunInv o (AttachRun.start o p ttl now token) where
  carried :=
    { begun := le_of_eq length_replicate.symm
      pending := by
        refine ⟨length_replicate.symm, le_rfl, ?_⟩
        show [] = slice (replicate p.inputFrom 0) p.inputFrom
          (replicate p.inputFrom (0 : UInt8)).length
        rw [length_replicate, slice_self]
      current := by
        intro k hk
        cases hk
        exact length_replicate.symm
      legs := by
        intro k
        show LegOk _ _ _ _ (if k = 0 then _ else _)
        split
        · exact
            { wire := nofun
              axes := fun a ha => ha
              start := by
                intro t a f hstage
                cases hstage
                exact .of_le le_rfl
              applied := .zero
              acks := nofun }
        · exact .new 0 rfl
      entry := by
        intro e he
        have he : e ∈ (if o.id = o.id then _ else _) := he
        rw [if_pos rfl] at he
        cases he
        exact mem_singleton_self _
      known := by
        intro a ha
        rw [mem_singleton.1 ha]
        exact p.known
      applied := by
        intro a ha
        rw [mem_singleton.1 ha]
        exact .of_le p.counted
      fresh := p.fresh }
  child := rfl
  mark := .of_le le_rfl
  accepted := by
    show [] = (replicate p.inputFrom 0).drop p.inputFrom ++ []
    rw [drop_eq_nil_of_le (le_of_eq length_replicate)]
    rfl
  once := Nat.zero_le 1
  marker := nofun
  target := nofun
  answer := nofun

end RunInv

/-- The byte at `i` of what the handle accepted was put on the child's queue, in
its place on the input axis. -/
def HandedOver (x : AttachRun Sid Peer Hash) (i : Nat) : Prop :=
  ∃ piece ∈ x.handed, piece.1 ≤ x.base + i ∧
    ∃ byte, x.accepted[i]? = some byte ∧ piece.2[x.base + i - piece.1]? = some byte

/-- In every run in which no input is dropped: when a detach is answered
`Applied`, every byte that the handle had accepted when it was called was put on
the child's queue. -/
theorem detach_applied_handed [DecidableEq Sid] [DecidableEq Peer] [DecidableEq Hash]
    {o : Owner Sid Peer Hash} {p : AttachPoint} {ttl now : Nat} {token : List UInt8}
    {ops : List AttachOp} {x : AttachRun Sid Peer Hash}
    (hrun : Run (step o) Undropped (start o p ttl now token) ops x)
    (hanswer : x.answer = some .applied) :
    x.path.child = x.handed.flatMap (·.2) ∧
      ∃ n, x.asked = some n ∧ n ≤ x.accepted.length ∧ ∀ i < n, x.HandedOver i := by
  have h : RunInv o x := hrun.invariant (fun _ _ _ hop hs h => h.step hop hs)
    (RunInv.start o p ttl now token)
  obtain ⟨n, hn, hcovered⟩ := h.answer hanswer
  have hlength := hcovered.le_length h.carried.begun
  refine ⟨h.child, n, hn, ?_, ?_⟩
  · rw [h.accepted, length_append, length_drop]
    omega
  intro i hi
  obtain ⟨piece, hmem, hle, byte, htyped, hbyte⟩ :=
    hcovered (x.base + i) (by omega) (by omega)
  refine ⟨piece, hmem, hle, byte, ?_, hbyte⟩
  rw [h.accepted, getElem?_append_left (by rw [length_drop]; omega), getElem?_drop]
  exact htyped

/-- `hi` is typed; the path is lost with the chunk in flight, and sent again on a
new leg.  While that is going on somebody else takes the lease, and the new leg
takes it back. -/
def retransmitted : List AttachOp :=
  [.path (.open 0 false), .write [104, 105], .take, .path .lose,
    .outside (.takeLease "other" 99 99 false), .path (.redial 1 1), .path (.verify 1 5),
    .path (.reserve 1), .path (.rotate 1 100 5 [2]), .path (.seed 1), .path (.granted 1),
    .path (.resume 1), .path (.open 1 false), .path (.hangup 0), .write [33], .detach true, .take,
    .take, .path (.deliver 1 .ok), .path (.deliver 1 .ok), .path (.ack 1 0), .path (.ack 1 1),
    .confirm]

theorem detach_applied_handed_retransmitted :
    ∃ x : AttachRun Nat Nat (List UInt8), Run (step oneOwner) Undropped
        (start oneOwner (AttachPoint.opened.again (some FIRST_INPUT_STREAM)) 100 0 [1])
        retransmitted x ∧
      x.answer = some .applied ∧ x.path.child = [104, 105, 33] ∧ ∀ i < 3, x.HandedOver i := by
  refine Run.exists_exec (fun x => x.answer = some .applied ∧ x.path.child = [104, 105, 33] ∧
    x.asked = some 3) (by decide +kernel) ?_
  rintro x hrun ⟨hanswer, hchild, hasked⟩
  obtain ⟨-, n, hn, -, hhanded⟩ := detach_applied_handed hrun hanswer
  cases hn.symm.trans hasked
  exact ⟨hanswer, hchild, hhanded⟩

/-- Somebody else takes the lease while `hi` is in flight.  The chunk is dropped
and acknowledged, and the detach is answered `Applied`. -/
theorem dropped_input_is_confirmed :
    ∃ x : AttachRun Nat Nat (List UInt8),
      Run (step oneOwner) (fun _ _ => True) (start oneOwner .opened 100 0 [1])
        [.path (.open 0 false), .write [104, 105], .take,
          .outside (.takeLease "other" 99 99 false), .path (.deliver 0 .ok), .path (.ack 0 0),
          .detach true, .take, .confirm] x ∧
      x.answer = some .applied ∧ x.asked = some 2 ∧ x.accepted = [104, 105] ∧ x.path.child = [] ∧
      ∀ i < 2, ¬x.HandedOver i := by
  refine Run.exists_exec
    (fun x => x.answer = some .applied ∧ x.asked = some 2 ∧ x.accepted = [104, 105] ∧
      x.path.child = [] ∧ x.handed = []) (by decide +kernel) fun x hrun hend => ?_
  obtain ⟨hanswer, hasked, haccepted, hchild, hhanded⟩ := hend
  refine ⟨hanswer, hasked, haccepted, hchild, ?_⟩
  rintro i - ⟨piece, hmem, -⟩
  rw [hhanded] at hmem
  exact nomatch hmem

end AttachRun

end Qsh.Session
