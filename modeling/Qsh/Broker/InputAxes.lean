import Qsh.Broker.InputAdmission

/-!
# The axis of the lease holder

Attaches over the life of a session (`handle_session_attach`, `server/tunnels.rs`).  An
attach reserves its input axis, creates it at the offset of the one it continues, and takes
the lease only when its data stream opens.  It may be abandoned on the way.  A
`session.write` on a connection takes the lease as well.

A peer numbers its input on the axis of its own attach and without a gap.  A chunk that is
refused for want of the lease counts as sent; one that meets a full queue is sent again.

The axis map keeps the `MAX_INPUT_AXES` newest ids, and nothing ties the age of the lease to
the age of its axis.  `AxisKept`: no step drops the axis of an open stream of the holder,
and nobody takes the lease with an axis that is gone.
-/

namespace Qsh.Broker

open Qsh.Lib List Option

/-! ## Attaches -/

inductive AttachStage
  | reserved
  | seeded
  | opened
  deriving DecidableEq, Repr

/-- An attach with its input axis and where its next chunk begins. -/
structure Attach where
  conn : Nat
  axis : Nat
  stage : AttachStage
  next : Nat
  deriving DecidableEq, Repr

structure AxesRun where
  session : Meta
  attaches : List Attach

inductive AxesOp
  | reserve (conn : Nat)
  /-- Attach `k` won its rotation and continues axis `from_`. -/
  | seed (k : Nat) (from_ : Option Nat)
  | openStream (k : Nat) (principal : String) (physical : Nat) (noSteal : Bool)
  /-- A `session.write` on a connection takes the lease. -/
  | takeLease (principal : String) (owner physical : Nat) (noSteal : Bool)
  /-- The next chunk on the stream of attach `k`. -/
  | input (k : Nat) (data : List UInt8) (send : SendOutcome)
  | releaseConnection (physical : Nat)
  | exit (now : Nat)
  | close
  deriving DecidableEq, Repr

def Attach.nextAfter (a : Attach) (data : List UInt8) : WriteReply → Nat
  | .queued _ next => next
  | .refused .notRunning => a.next + data.length
  | .refused .notWriter => a.next + data.length
  | _ => a.next

namespace AxesRun

def new (now conn : Nat) : AxesRun where
  session := .new now
  attaches := [{ conn := conn, axis := FIRST_INPUT_STREAM, stage := .seeded, next := 0 }]

def attachAt (s : AxesRun) (k : Nat) (stage : AttachStage) : Option Attach :=
  s.attaches[k]?.filter fun a => a.stage = stage

def write (s : AxesRun) (a : Attach) (data : List UInt8) (send : SendOutcome) :
    Meta × WriteReply :=
  s.session.enqueueWrite a.conn data (some (a.axis, a.next + data.length)) send

/-- One step of the attaches of a session. -/
def step (s : AxesRun) : AxesOp → Option AxesRun
  | .reserve conn =>
      let (session, axis) := s.session.reserveInputStream
      some
        { session := session
          attaches := s.attaches ++
            [{ conn := conn, axis := axis, stage := .reserved, next := 0 }] }
  | .seed k from_ =>
      (s.attachAt k .reserved).map fun a =>
        let (session, start) := s.session.seedInputStream a.axis from_
        { session := session
          attaches := s.attaches.set k { a with stage := .seeded, next := start } }
  | .openStream k principal physical noSteal =>
      (s.attachAt k .seeded).map fun a =>
        match s.session.lease.takeOwned principal a.conn physical noSteal with
        | (lease, .acquired _ _) =>
            { session := { s.session with lease := lease }
              attaches := s.attaches.set k { a with stage := .opened } }
        -- the stream is reset
        | (_, .conflict _) => s
  | .takeLease principal owner physical noSteal =>
      some { s with session.lease :=
        (s.session.lease.takeOwned principal owner physical noSteal).1 }
  | .input k data send =>
      (s.attachAt k .opened).map fun a =>
        { session := (s.write a data send).1
          attaches := s.attaches.set k
            { a with next := a.nextAfter data (s.write a data send).2 } }
  | .releaseConnection physical =>
      some { s with session.lease := (s.session.lease.releaseConnection physical).1 }
  | .exit now => some { s with session := s.session.setStateExited now }
  | .close => some { s with session.closing := true }

def streamsOf (s : AxesRun) (conn : Nat) : List Attach :=
  s.attaches.filter fun a => a.stage = .opened ∧ a.conn = conn

def writers (s : AxesRun) : List Attach :=
  s.attaches.filter fun a => a.stage = .opened ∧ s.session.lease.isHeldBy a.conn

/-- With axis `id` in the map, fewer than `MAX_INPUT_AXES` axes are newer than
the axis of each writer. -/
def KeepsWriters (s : AxesRun) (id : Nat) : Prop :=
  ∀ a ∈ s.writers, s.session.appliedInput.above a.axis +
    (if a.axis < id ∧ s.session.appliedInput.get? id = none then 1 else 0) < MAX_INPUT_AXES

instance (s : AxesRun) (id : Nat) : Decidable (s.KeepsWriters id) :=
  inferInstanceAs (Decidable (∀ a ∈ _, _))

/-- What a step needs.  One that prunes leaves the writers' axes in the map,
and one that takes the lease for a connection finds the axes of its streams
there. -/
def AxisKept (s : AxesRun) : AxesOp → Prop
  | .seed k _ => ∀ a ∈ s.attaches[k]?, s.KeepsWriters a.axis
  | .input k _ _ => ∀ a ∈ s.attaches[k]?,
      s.session.admission a.conn = none ∨ s.KeepsWriters a.axis
  | .openStream k _ _ _ => ∀ a ∈ s.attaches[k]?, ∀ b ∈ a :: s.streamsOf a.conn,
      s.session.appliedInput.get? b.axis ≠ none
  | .takeLease _ owner _ _ => ∀ b ∈ s.streamsOf owner,
      s.session.appliedInput.get? b.axis ≠ none
  | _ => True

instance (s : AxesRun) (op : AxesOp) : Decidable (s.AxisKept op) := by
  cases op <;> unfold AxisKept <;> infer_instance

end AxesRun

variable {axes : OrdMap Nat Nat} {axis : Nat}

variable {off id v conn : Nat}

/-! ## Leases and chunks -/

theorem WriterLease.takeOwned_cases (l : WriterLease) (principal : String)
    (owner physical : Nat) (noSteal : Bool) :
    (∃ h, l.takeOwned principal owner physical noSteal = (l, .conflict h)) ∨ ∃ l' displaced changed,
        l.takeOwned principal owner physical noSteal = (l', .acquired displaced changed) ∧
        ∀ conn, l'.isHeldBy conn = true → conn = owner := by
  have hnew : ∀ conn, WriterLease.isHeldBy
      ⟨some { principal := principal, conn := owner, physical := physical }⟩ conn = true →
        conn = owner := fun conn h => (of_decide_eq_true h).symm
  unfold takeOwned
  cases hl : l.holder with
  | none => exact .inr ⟨_, _, _, rfl, hnew⟩
  | some h =>
    dsimp only
    split_ifs with hsame hconflict
    · refine .inr ⟨_, _, _, rfl, fun conn hheld => ?_⟩
      rw [isHeldBy, hl] at hheld
      exact (of_decide_eq_true hheld).symm.trans hsame
    · exact .inl ⟨h, rfl⟩
    · exact .inr ⟨_, _, _, rfl, hnew⟩

theorem WriterLease.isHeldBy_of_releaseConnection {l : WriterLease} {physical : Nat}
    (h : (l.releaseConnection physical).1.isHeldBy conn = true) : l.isHeldBy conn = true := by
  unfold releaseConnection at h
  split_ifs at h
  · cases h
  · exact h

theorem Meta.enqueueWrite_contiguous {m : Meta} (hadm : m.admission conn = none)
    (axis : Nat) (data : List UInt8) (send : SendOutcome) :
    m.enqueueWrite conn data (some (axis, m.applied axis + data.length)) send =
      if data.length = 0 then (m, .applied (m.applied axis))
      else m.trySend send data (m.applied axis + data.length) (some axis) := by
  simp only [enqueueWrite, hadm]
  rw [if_neg (by omega), Nat.add_sub_cancel, if_neg (lt_irrefl _), Nat.sub_self]
  simp only [Nat.le_zero_eq, drop_zero]

/-! ## The invariant -/

section Attaches

variable {l : List Attach} {k : Nat} {a b x : Attach}

theorem mem_set_axis (h : l[k]? = some a) (hl : (l.map Attach.axis).Nodup)
    (hx : x ∈ l.set k b) : x = b ∨ x ∈ l ∧ x.axis ≠ a.axis := by
  obtain ⟨j, hj⟩ := mem_iff_getElem?.1 hx
  rw [getElem?_set] at hj
  split_ifs at hj with hkj
  · exact .inl (Option.some.inj hj).symm
  refine .inr ⟨mem_of_getElem? hj, fun heq => hkj ?_⟩
  refine (getElem?_inj ?_ hl).1 ?_
  · rw [length_map]
    exact (List.getElem?_eq_some_iff.1 h).1
  · rw [getElem?_map, getElem?_map, h, hj, map_some, map_some, heq]

theorem set_eq_self {α : Type} {l : List α} {a : α} (h : l[k]? = some a) : l.set k a = l := by
  obtain ⟨hlt, rfl⟩ := List.getElem?_eq_some_iff.1 h
  exact set_getElem_self hlt

theorem map_axis_set (h : l[k]? = some a) (hb : b.axis = a.axis) :
    (l.set k b).map Attach.axis = l.map Attach.axis := by
  rw [map_set, hb]
  exact set_eq_self (by rw [getElem?_map, h]; rfl)

end Attaches

namespace AxesRun

variable {s : AxesRun} {k : Nat} {a : Attach}

theorem attachAt_eq_some {stage : AttachStage} (h : s.attachAt k stage = some a) :
    s.attaches[k]? = some a ∧ a.stage = stage := by
  obtain ⟨hk, hstage⟩ := filter_eq_some_iff.1 h
  exact ⟨hk, of_decide_eq_true hstage⟩

theorem mem_writers : a ∈ s.writers ↔
    a ∈ s.attaches ∧ a.stage = .opened ∧ s.session.lease.isHeldBy a.conn = true := by
  rw [writers, mem_filter, decide_eq_true_eq]

theorem mem_streamsOf {conn : Nat} : a ∈ s.streamsOf conn ↔
    a ∈ s.attaches ∧ a.stage = .opened ∧ a.conn = conn := by
  rw [streamsOf, mem_filter, decide_eq_true_eq]

/-- The axes are fresh and distinct, and each stream is at its own offset. -/
structure AxesInv (s : AxesRun) : Prop where
  fresh : ∀ a ∈ s.attaches, a.axis < s.session.nextInputStream
  distinct : (s.attaches.map Attach.axis).Nodup
  /-- An axis that is in the map ends where the next chunk on it begins. -/
  tracked : ∀ a ∈ s.attaches, a.stage ≠ .reserved →
    ∀ off, s.session.appliedInput.get? a.axis = some off → off = a.next
  /-- The axis of a writer is in the map. -/
  present : ∀ a ∈ s.writers, s.session.appliedInput.get? a.axis ≠ none

theorem new_inv (now conn : Nat) : AxesInv (new now conn) where
  fresh a ha := by
    rw [mem_singleton.1 ha]
    exact Nat.lt_succ_self _
  distinct := (nodup_cons.2 ⟨not_mem_nil, nodup_nil⟩)
  tracked a ha _ off hoff := by
    rw [mem_singleton.1 ha] at hoff ⊢
    exact (Option.some.inj hoff).symm
  present a ha := by
    obtain ⟨-, -, hheld⟩ := mem_writers.1 ha
    cases hheld

section

variable (hs : AxesInv s)
include hs

theorem AxesInv.get?_eq_next (ha : a ∈ s.writers) :
    s.session.appliedInput.get? a.axis = some a.next := by
  obtain ⟨hmem, hstage, -⟩ := mem_writers.1 ha
  obtain ⟨off, hoff⟩ := ne_none_iff_exists'.1 (hs.present a ha)
  have hnext := hs.tracked a hmem (by rw [hstage]; nofun) off hoff
  rw [hoff, hnext]

theorem AxesInv.write_eq (ha : a ∈ s.writers) (hadm : s.session.admission a.conn = none)
    (data : List UInt8) (send : SendOutcome) :
    s.write a data send = if data.length = 0 then (s.session, .applied a.next)
      else s.session.trySend send data (a.next + data.length) (some a.axis) := by
  have happlied : s.session.applied a.axis = a.next := by
    rw [Meta.applied, hs.get?_eq_next ha]
    rfl
  have hw := Meta.enqueueWrite_contiguous hadm a.axis data send
  rw [happlied] at hw
  exact hw

theorem AxesInv.reserve (conn : Nat) :
    AxesInv
      { session := s.session.reserveInputStream.1
        attaches := s.attaches ++
          [{ conn := conn, axis := s.session.reserveInputStream.2, stage := .reserved,
             next := 0 }] } where
  fresh := forall_mem_append.2 ⟨fun a ha => Nat.lt_succ_of_lt (hs.fresh a ha),
    forall_mem_singleton.2 (Nat.lt_succ_self _)⟩
  distinct := by
    rw [map_append, nodup_append]
    refine ⟨hs.distinct, nodup_cons.2 ⟨not_mem_nil, nodup_nil⟩,
      fun x hx y hy => ?_⟩
    obtain ⟨a, ha, rfl⟩ := List.mem_map.1 hx
    rw [mem_singleton.1 hy]
    exact ne_of_lt (hs.fresh a ha)
  tracked a ha hstage off hoff := by
    rcases mem_append.1 ha with ha | ha
    · exact hs.tracked a ha hstage off hoff
    · rw [mem_singleton.1 ha] at hstage
      exact absurd rfl hstage
  present a ha := by
    obtain ⟨ha, hstage, hheld⟩ := mem_writers.1 ha
    rcases mem_append.1 ha with ha | ha
    · exact hs.present a (mem_writers.2 ⟨ha, hstage, hheld⟩)
    · rw [mem_singleton.1 ha] at hstage
      cases hstage

section

variable (hk : s.attaches[k]? = some a)
include hk

variable {session : Meta}

theorem AxesInv.move {b : Attach} (haxis : b.axis = a.axis)
    (hnext : session.nextInputStream = s.session.nextInputStream)
    (htracked : b.stage ≠ .reserved →
      ∀ off, session.appliedInput.get? b.axis = some off → off = b.next)
    (hothers : ∀ axis, axis ≠ a.axis → ∀ off, session.appliedInput.get? axis = some off →
      s.session.appliedInput.get? axis = some off)
    (hpresent : ∀ x, (x = b ∨ x ∈ s.attaches) → x.stage = .opened →
      session.lease.isHeldBy x.conn = true → session.appliedInput.get? x.axis ≠ none) :
    AxesInv { session := session, attaches := s.attaches.set k b } where
  fresh x hx := by
    rw [hnext]
    rcases mem_set_axis hk hs.distinct hx with rfl | ⟨hx, -⟩
    · rw [haxis]
      exact hs.fresh a (mem_of_getElem? hk)
    · exact hs.fresh x hx
  distinct := by
    rw [map_axis_set hk haxis]
    exact hs.distinct
  tracked x hx hstage off hoff := by
    rcases mem_set_axis hk hs.distinct hx with rfl | ⟨hx, hne⟩
    · exact htracked hstage off hoff
    · exact hs.tracked x hx hstage off (hothers x.axis hne off hoff)
  present x hx := by
    obtain ⟨hx, hopen, hheld⟩ := mem_writers.1 hx
    rcases mem_set_axis hk hs.distinct hx with rfl | ⟨hx, -⟩
    · exact hpresent _ (.inl rfl) hopen hheld
    · exact hpresent x (.inr hx) hopen hheld

theorem AxesInv.prune (hkeep : s.KeepsWriters a.axis) {b : Attach} (haxis : b.axis = a.axis)
    (hconn : b.conn = a.conn) (hstage : b.stage = .opened → a.stage = .opened)
    (hnext : session.nextInputStream = s.session.nextInputStream)
    (hlease : session.lease = s.session.lease)
    (hmap : session.appliedInput = pruneInputAxes (s.session.appliedInput.insert a.axis b.next)) :
    AxesInv { session := session, attaches := s.attaches.set k b } := by
  refine hs.move hk haxis hnext (fun _ off hoff => ?_) (fun axis hne off hoff => ?_)
    (fun x hx hopen hheld => ?_)
  · rw [hmap] at hoff
    rcases get?_of_prune_insert hoff with ⟨-, rfl⟩ | ⟨hne, -⟩
    · rfl
    · exact absurd haxis hne
  · rw [hmap] at hoff
    rcases get?_of_prune_insert hoff with ⟨heq, -⟩ | ⟨-, hoff⟩
    · exact absurd heq hne
    · exact hoff
  rw [hmap]
  rw [hlease] at hheld
  rcases hx with rfl | hx
  · rw [haxis]
    refine get?_prune_insert (.inl rfl) (hkeep a (mem_writers.2 ?_))
    exact ⟨mem_of_getElem? hk, hstage hopen, hconn ▸ hheld⟩
  · have hx : x ∈ s.writers := mem_writers.2 ⟨hx, hopen, hheld⟩
    exact get?_prune_insert (.inr (hs.present x hx)) (hkeep x hx)

theorem AxesInv.seed (hkeep : s.KeepsWriters a.axis) (from_ : Option Nat) :
    AxesInv
      { session := (s.session.seedInputStream a.axis from_).1
        attaches := s.attaches.set k
          { a with stage := .seeded, next := (s.session.seedInputStream a.axis from_).2 } } :=
  hs.prune hk hkeep rfl rfl nofun rfl rfl rfl

end

theorem AxesInv.withLease {lease : WriterLease}
    (h : ∀ x ∈ s.attaches, x.stage = .opened → lease.isHeldBy x.conn = true →
      s.session.appliedInput.get? x.axis ≠ none) :
    AxesInv { s with session.lease := lease } :=
  { hs with
    present := fun x hx => by
      obtain ⟨hx, hopen, hheld⟩ := mem_writers.1 hx
      exact h x hx hopen hheld }

section

variable (hk : s.attaches[k]? = some a)
include hk

theorem AxesInv.openStream (hstage : a.stage = .seeded) (hfound : ∀ b ∈ a :: s.streamsOf a.conn,
      s.session.appliedInput.get? b.axis ≠ none) {lease : WriterLease}
    (hheld : ∀ conn, lease.isHeldBy conn = true → conn = a.conn) :
    AxesInv
      { session := { s.session with lease := lease }
        attaches := s.attaches.set k { a with stage := .opened } } := by
  refine hs.move hk rfl rfl (fun _ off hoff => ?_) (fun _ _ _ hoff => hoff)
    (fun x hx hopen hx' => ?_)
  · exact hs.tracked a (mem_of_getElem? hk) (by rw [hstage]; nofun) off hoff
  · rcases hx with rfl | hx
    · exact hfound a mem_cons_self
    · exact hfound x (mem_cons_of_mem _ (mem_streamsOf.2 ⟨hx, hopen, hheld x.conn hx'⟩))

theorem AxesInv.refused (hstage : a.stage = .opened) (hkeep : s.KeepsWriters a.axis) (n : Nat) :
    AxesInv
      { session := s.session.refuse (some (a.axis, a.next + n))
        attaches := s.attaches.set k { a with next := a.next + n } } := by
  refine hs.prune hk hkeep rfl rfl (fun _ => hstage) rfl rfl ?_
  have happlied : s.session.applied a.axis ≤ a.next := by
    unfold Meta.applied
    cases hoff : s.session.appliedInput.get? a.axis with
    | none => exact Nat.zero_le _
    | some off =>
      exact le_of_eq (hs.tracked a (mem_of_getElem? hk)
        (by rw [hstage]; nofun) off hoff)
  show pruneInputAxes (s.session.appliedInput.insert a.axis
    (max (s.session.applied a.axis) (a.next + n))) = _
  rw [Nat.max_eq_right (by omega)]

theorem AxesInv.queued (next : Nat) :
    AxesInv
      { session := { s.session with
          appliedInput := s.session.appliedInput.insert a.axis next }
        attaches := s.attaches.set k { a with next := next } } := by
  refine hs.move hk rfl rfl (fun _ off hoff => ?_) (fun axis hne off hoff => ?_)
    (fun x hx hopen hheld => ?_)
  · rw [OrdMap.get?_insert_self] at hoff
    exact (Option.some.inj hoff).symm
  · rw [OrdMap.get?_insert_ne _ _ hne] at hoff
    exact hoff
  rw [OrdMap.get?_insert]
  split_ifs with heq
  · exact some_ne_none next
  · rcases hx with rfl | hx
    · exact absurd rfl heq
    · exact hs.present x (mem_writers.2 ⟨hx, hopen, hheld⟩)

theorem AxesInv.input (hstage : a.stage = .opened)
    (hkeep : s.session.admission a.conn = none ∨ s.KeepsWriters a.axis) (data : List UInt8)
    (send : SendOutcome) :
    AxesInv
      { session := (s.write a data send).1
        attaches := s.attaches.set k
          { a with next := a.nextAfter data (s.write a data send).2 } } := by
  have hsame : AxesInv { session := s.session, attaches := s.attaches.set k a } := by
    rw [set_eq_self hk]
    exact hs
  cases hadm : s.session.admission a.conn with
  | some err =>
    have hw : s.write a data send =
        (s.session.refuse (some (a.axis, a.next + data.length)), .refused err) := by
      simp only [write, Meta.enqueueWrite, hadm]
    have hkeep := hkeep.resolve_left (by rw [hadm]; exact some_ne_none err)
    have hnext : a.nextAfter data (.refused err) = a.next + data.length := by
      rcases Meta.admission_err hadm with rfl | rfl
      · rfl
      · rfl
    rw [hw, hnext]
    exact hs.refused hk hstage hkeep data.length
  | none =>
    have ha : a ∈ s.writers := mem_writers.2
      ⟨mem_of_getElem? hk, hstage, Meta.isHeldBy_of_admission hadm⟩
    rw [hs.write_eq ha hadm]
    split_ifs
    · exact hsame
    cases send with
    | ok => exact hs.queued hk _
    | full | closed => exact hsame

end

end

/-! ## Runs -/

theorem step_inv {s' : AxesRun} {op : AxesOp} (hkept : s.AxisKept op)
    (h : s.step op = some s') (hs : AxesInv s) : AxesInv s' := by
  cases op with
  | reserve conn =>
    cases h
    exact hs.reserve conn
  | seed k from_ =>
    obtain ⟨a, ha, rfl⟩ := map_eq_some_iff.1 h
    obtain ⟨hk, -⟩ := attachAt_eq_some ha
    exact hs.seed hk (hkept a hk) from_
  | openStream k principal physical noSteal =>
    obtain ⟨a, ha, rfl⟩ := map_eq_some_iff.1 h
    obtain ⟨hk, hstage⟩ := attachAt_eq_some ha
    rcases s.session.lease.takeOwned_cases principal a.conn physical noSteal with
      ⟨holder, htake⟩ | ⟨lease, displaced, changed, htake, hheld⟩
    · simp only [htake]
      exact hs
    · simp only [htake]
      exact hs.openStream hk hstage (hkept a hk) hheld
  | takeLease principal owner physical noSteal =>
    cases h
    refine hs.withLease fun x hx hopen hx' => ?_
    rcases s.session.lease.takeOwned_cases principal owner physical noSteal with
      ⟨holder, htake⟩ | ⟨lease, displaced, changed, htake, hheld⟩
    · rw [htake] at hx'
      exact hs.present x (mem_writers.2 ⟨hx, hopen, hx'⟩)
    · rw [htake] at hx'
      exact hkept x (mem_streamsOf.2 ⟨hx, hopen, hheld x.conn hx'⟩)
  | input k data send =>
    obtain ⟨a, ha, rfl⟩ := map_eq_some_iff.1 h
    obtain ⟨hk, hstage⟩ := attachAt_eq_some ha
    exact hs.input hk hstage (hkept a hk) data send
  | releaseConnection physical =>
    cases h
    refine hs.withLease fun x hx hopen hx' => hs.present x (mem_writers.2 ⟨hx, hopen, ?_⟩)
    exact WriterLease.isHeldBy_of_releaseConnection hx'
  | exit | close =>
    cases h
    exact { hs with }

/-- In every run whose steps drop no axis of the lease holder and hand the
lease to no connection whose axis is gone: the axis of each open stream of the
holder is in the map, at the offset where its next chunk begins, so that chunk
is never answered `InputGap`. -/
theorem holder_axis_kept {now conn : Nat} {ops : List AxesOp} {s : AxesRun}
    (h : Run step AxisKept (new now conn) ops s) :
    ∀ a ∈ s.attaches, a.stage = .opened → s.session.lease.isHeldBy a.conn = true →
      s.session.appliedInput.get? a.axis = some a.next ∧
      ∀ data send start applied, (s.write a data send).2 ≠ .refused (.inputGap start applied) := by
  have hs : AxesInv s :=
    h.invariant (fun _ _ _ hkept hstep hs => step_inv hkept hstep hs) (new_inv now conn)
  intro a ha hopen hheld
  have ha := mem_writers.2 ⟨ha, hopen, hheld⟩
  refine ⟨hs.get?_eq_next ha, fun data send start applied hgap => ?_⟩
  cases hadm : s.session.admission a.conn with
  | some err =>
    simp only [write, Meta.enqueueWrite, hadm, WriteReply.refused.injEq] at hgap
    rcases Meta.admission_err hadm with rfl | rfl
    · cases hgap
    · cases hgap
  | none =>
    rw [hs.write_eq ha hadm] at hgap
    split_ifs at hgap
    cases send <;> cases hgap

/-- The opener writes, a second attach steals the lease and is refused after
the opener stole it back. -/
def stealBack : List AxesOp :=
  [.openStream 0 "device:a" 1 false, .input 0 [97] .ok, .reserve 2, .seed 1 (some 1),
    .openStream 1 "device:a" 2 false, .input 0 [98] .ok, .takeLease "device:a" 1 1 true,
    .input 1 [99] .ok]

theorem holder_axis_kept_stealBack :
    ∃ s, Run step AxisKept (new 0 1) stealBack s ∧
      s.session.lease.isHeldBy 1 = true ∧ s.session.appliedInput.get? 1 = some 2 := by
  refine Run.exists_exec (fun s => s.attaches[0]? =
      some { conn := 1, axis := 1, stage := .opened, next := 2 } ∧
    s.session.lease.isHeldBy 1 = true) (by decide +kernel) ?_
  rintro s hr ⟨hattach, hheld⟩
  have hkept := holder_axis_kept hr _ (mem_of_getElem? hattach) rfl hheld
  exact ⟨hheld, hkept.1⟩

/-- The opener writes a byte, and then a client attaches as often as the map
has entries without opening a data stream. -/
def unopened : List AxesOp :=
  [.openStream 0 "device:a" 1 false, .input 0 [97] .ok] ++
    (range MAX_INPUT_AXES).flatMap fun k => [.reserve 2, .seed (k + 1) (some 1)]

/-- The opener still holds the lease, its axis is gone, and its next byte is
answered `InputGap`. -/
theorem unopened_attaches_drop_holder_axis :
    ∃ s a, Run step (fun _ _ => True) (new 0 1) unopened s ∧ a ∈ s.attaches ∧
      a.stage = .opened ∧ s.session.lease.isHeldBy a.conn = true ∧
      s.session.appliedInput.get? a.axis = none ∧
      (s.write a [98] .ok).2 = .refused (.inputGap 1 0) := by
  have hfinal : ((execWhere step (fun _ _ => True) (new 0 1) unopened).bind fun s =>
      s.attaches[0]?.filter fun a => a.stage = .opened ∧ s.session.lease.isHeldBy a.conn = true ∧
        s.session.appliedInput.get? a.axis = none ∧
        (s.write a [98] .ok).2 = .refused (.inputGap 1 0)).isSome = true := by
    decide +kernel
  obtain ⟨a, ha⟩ := isSome_iff_exists.1 hfinal
  obtain ⟨s, hs, ha⟩ := bind_eq_some_iff.1 ha
  obtain ⟨ha, hgone⟩ := filter_eq_some_iff.1 ha
  exact ⟨s, a, .of_execWhere hs, mem_of_getElem? ha, of_decide_eq_true hgone⟩

end AxesRun

end Qsh.Broker
