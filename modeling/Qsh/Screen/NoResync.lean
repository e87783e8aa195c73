import Qsh.Screen.Attach

/-!
# When the client asks for the full screen

The base of a stream update is a state that the client acknowledged or the state of an
earlier stream update, and neither is further back than the host retains.  The client
retains as many, so it has the base of every stream update, with three exceptions.

* A datagram overtakes the stream.  The client drops the stream update as stale, and the
  host still takes its state for the base of the next one.
* The parts of two encodings of one state meet in one assembly.
* A full screen of the state that the client shows arrives again.  The client applies it
  again, and every copy pushes a state out of the history.
-/

namespace Qsh.Screen

open Qsh.Lib List Option

/-! ## The client -/

structure Shown (reported : List Cut) (applied : List ScreenUpdate) (c : ClientScreen) : Prop where
  held : Held reported c.history
  awaiting : c.awaitingFull = false
  newest : ∀ u ∈ applied, 0 < u.newNum ∧ u.newNum ≤ c.num
  kept : ∀ u ∈ applied, c.num < u.newNum + ClientScreen.RETAINED_STATES →
    u.newNum ∈ c.history.map Prod.fst
  near : Near c.num (c.history.map Prod.fst)
  num : c.num = 0 ∨ ∃ u ∈ applied, u.newNum = c.num

/-- A full screen of the state shown comes again only while no other state is
kept. -/
def ClientScreen.NoFlush (c : ClientScreen) (u : ScreenUpdate) : Prop :=
  u.baseNum = 0 → u.newNum = c.num → ∀ p ∈ c.history, p.1 = c.num

instance (c : ClientScreen) (u : ScreenUpdate) : Decidable (c.NoFlush u) :=
  inferInstanceAs (Decidable (_ → _ → _))

section Client

variable {blake3 : List UInt8 → Hash} {reported : List Cut} {logged : List (Nat × Effect)}
  {applied : List ScreenUpdate} {c : ClientScreen} {u : ScreenUpdate} {via : Via}
  {r : ClientScreen × ScreenOutcome}

theorem Shown.append (h : Shown reported applied c) (more : List Cut) :
    Shown (reported ++ more) applied c :=
  { h with held := h.held.append more }

theorem ClientScreen.num_hold (c : ClientScreen) (u : ScreenUpdate) (t : ScreenState) :
    (c.hold u t).num = u.newNum := by
  rw [num, getLast?_hold]
  rfl

theorem ClientScreen.history_hold (c : ClientScreen) (u : ScreenUpdate) (t : ScreenState) :
    (c.hold u t).history.map Prod.fst =
      keepLast RETAINED_STATES (c.history.map Prod.fst ++ [u.newNum]) := by
  rw [hold, map_keepLast, map_append]
  rfl

section

variable (h : Shown reported applied c)
include h

theorem Shown.near_append (hfresh : c.Fresh u) (hpos : 0 < u.newNum) (hflush : c.NoFlush u) :
    c.num ≤ u.newNum ∧ Near u.newNum (c.history.map Prod.fst ++ [u.newNum]) := by
  by_cases hlt : c.num < u.newNum
  · exact ⟨le_of_lt hlt, h.near.append hlt⟩
  -- not newer: a full screen for the state shown
  have hnum : c.num ≠ 0 := by omega
  obtain ⟨hle, hdiff⟩ := hfresh hnum
  have hzero : u.baseNum = 0 := not_not.1 fun hne => hlt (hdiff hne)
  have hsame : u.newNum = c.num := by omega
  refine ⟨hle, Near.again fun m hm => ?_⟩
  obtain ⟨p, hp, rfl⟩ := List.mem_map.1 hm
  rw [hsame]
  exact hflush hzero hsame p hp

theorem Shown.hold (hr : Reported blake3 reported)
    (hbuilt : Built reported logged u) (hfresh : c.Fresh u) (hflush : c.NoFlush u)
    {b t : ScreenState} (hbase : c.base? u = some b) (happly : u.apply blake3 b = .ok t) :
    Shown reported (applied ++ [u]) (c.hold u t) := by
  have hpos : 0 < u.newNum := lt_of_le_of_lt (Nat.zero_le _) hbuilt.newer
  obtain ⟨hle, hnear⟩ := h.near_append hfresh hpos hflush
  have hstep : ClientScreen.ApplyStep blake3 c u .stream (c.hold u t, _) :=
    .applied b t hfresh hbase happly
  have hheld := h.held.apply (hbuilt.exact hr h.held) hstep
  refine {
    held := hheld
    awaiting := rfl
    newest := ?_
    kept := fun v hv hlt => ?_
    near := ?_
    num := .inr ⟨u, mem_append_right _ (mem_singleton_self u), (c.num_hold u t).symm⟩ }
  · rw [c.num_hold]
    exact forall_mem_append.2 ⟨fun v hv => ⟨(h.newest v hv).1, le_trans (h.newest v hv).2 hle⟩,
      forall_mem_singleton.2 ⟨hpos, le_rfl⟩⟩
  · rw [c.num_hold] at hlt
    rw [c.history_hold]
    refine hnear.mem_keepLast ?_ hlt
    rcases mem_append.1 hv with hv | hv
    · exact mem_append_left _ (h.kept v hv (by omega))
    · rw [mem_singleton.1 hv]
      exact mem_append_right _ (mem_singleton_self _)
  · rw [c.num_hold, c.history_hold]
    exact hnear.of_suffix (keepLast_suffix _ _)

theorem Shown.base?_isSome (hbuilt : Built reported logged u)
    (hne : u.baseNum ≠ 0) (hlt : c.num < u.newNum)
    (hbase : u.baseNum ∈ applied.map ScreenUpdate.newNum) : c.base? u ≠ none := by
  obtain ⟨v, hv, hnum⟩ := List.mem_map.1 hbase
  obtain ⟨last, -, -, -, -, ⟨hzero, -⟩ | ⟨-, hretained, -⟩⟩ := hbuilt.target
  · exact absurd hzero hne
  have hkept := h.kept v hv (by
    have : RETAINED_STATES = ClientScreen.RETAINED_STATES := rfl
    omega)
  obtain ⟨p, hp, hkey⟩ := List.mem_map.1 hkept
  rw [ClientScreen.base?, if_neg hne]
  intro hnone
  have hmiss := find?_eq_none.1 (map_eq_none_iff.1 hnone) p hp
  exact hmiss (decide_eq_true (hkey.trans hnum))

/-- An update that the host built, from a base that the client applied: no
resync, and the acknowledgement is for a state that was applied. -/
theorem Shown.apply (hr : Reported blake3 reported)
    (hbuilt : Built reported logged u) (hflush : c.NoFlush u)
    (hbase : u.baseNum ≠ 0 → via = .stream → c.num < u.newNum →
      u.baseNum ∈ applied.map ScreenUpdate.newNum)
    (hstep : ClientScreen.ApplyStep blake3 c u via r) :
    Shown reported (applied ++ r.2.appliedOf (some u)) r.1 ∧ (∀ reason, r.2 ≠ .resync reason) ∧
      (∀ n ∈ r.2.ack, n ∈ (applied ++ r.2.appliedOf (some u)).map ScreenUpdate.newNum) ∧
      (u.newNum ∈ (applied ++ r.2.appliedOf (some u)).map ScreenUpdate.newNum ∨
        u.newNum ∈ r.2.droppedOf (some u)) := by
  cases hstep with
  | ignored hawait hne =>
    rw [h.awaiting] at hawait
    cases hawait
  | stale hold =>
    simp only [ScreenOutcome.appliedOf, append_nil]
    refine ⟨h, by simp, fun n hn => ?_, .inr (mem_singleton_self _)⟩
    rw [ScreenOutcome.ack] at hn
    split_ifs at hn with hnum
    · cases hn
      obtain ⟨v, hv, hvnum⟩ := h.num.resolve_left hnum
      exact List.mem_map.2 ⟨v, hv, hvnum⟩
    · cases hn
  | resync reason hfresh hwhy =>
    exfalso
    rcases hwhy with ⟨hnone, hvia⟩ | ⟨b, e, hb, he⟩
    · by_cases hzero : u.baseNum = 0
      · obtain ⟨-, -, -, -, -, b, hb, -⟩ := hbuilt.base?_full hr hzero c
        rw [hnone] at hb
        cases hb
      have hvia : via = .stream := by
        cases via with
        | stream => rfl
        | datagram => exact absurd (hvia rfl) hzero
      have hlt : c.num < u.newNum := by
        by_cases hnum : c.num = 0
        · have := hbuilt.newer
          omega
        · exact (hfresh hnum).2 hzero
      exact h.base?_isSome hbuilt hzero hlt (hbase hzero hvia hlt) hnone
    · obtain ⟨last, -, -, -, hok⟩ := hbuilt.apply_eq hr h.held hb
      rw [hok] at he
      cases he
  | applied b t hfresh hbase' happly =>
    have hmem : u.newNum ∈ (applied ++ [u]).map ScreenUpdate.newNum :=
      List.mem_map_of_mem (mem_append_right _ (mem_singleton_self u))
    refine ⟨h.hold hr hbuilt hfresh hflush hbase' happly, by simp,
      fun n hn => ?_, .inl hmem⟩
    cases hn
    exact hmem

end

end Client

/-! ## The stream -/

def pending (queue : List StreamPart) : List Nat :=
  (queue.filter fun p => p.IsLast).map fun p => p.update.newNum

theorem pending_cons (p : StreamPart) (rest : List StreamPart) :
    pending (p :: rest) =
      if p.IsLast then p.update.newNum :: pending rest else pending rest := by
  unfold pending
  rw [filter_cons]
  by_cases hlast : p.IsLast
  · rw [if_pos (decide_eq_true hlast), if_pos hlast, map_cons]
  · rw [if_neg (by rwa [decide_eq_true_eq]), if_neg hlast]

/-- An update on the stream starts from a state that is known, or from that of
an update before it. -/
def Based : List Nat → List StreamPart → Prop
  | _, [] => True
  | known, p :: rest =>
      (p.update.baseNum = 0 ∨ p.update.baseNum ∈ known) ∧
        Based (if p.IsLast then p.update.newNum :: known else known) rest

theorem Based.mono {known known' : List Nat} {queue : List StreamPart} (h : Based known queue)
    (hsub : ∀ n ∈ known, n ∈ known') : Based known' queue := by
  induction queue generalizing known known' with
  | nil => trivial
  | cons p rest ih =>
    refine ⟨h.1.imp_right (hsub _), ih h.2 ?_⟩
    intro n hn
    split_ifs at hn ⊢ with hlast
    · rcases mem_cons.1 hn with rfl | hn
      · exact mem_cons_self
      · exact mem_cons_of_mem _ (hsub n hn)
    · exact hsub n hn

theorem Based.append {known : List Nat} {queue more : List StreamPart} (h : Based known queue)
    (hmore : ∀ p ∈ more, p.update.baseNum = 0 ∨ p.update.baseNum ∈ known ∨
      p.update.baseNum ∈ pending queue) : Based known (queue ++ more) := by
  induction queue generalizing known with
  | nil =>
    -- no update before them
    induction more generalizing known with
    | nil => trivial
    | cons p rest ih =>
      have hp : p.update.baseNum = 0 ∨ p.update.baseNum ∈ known :=
        (hmore p mem_cons_self).imp_right fun h =>
          h.resolve_right not_mem_nil
      refine ⟨hp, ih trivial fun q hq => ?_⟩
      refine (hmore q (mem_cons_of_mem _ hq)).imp_right (.imp_left fun hknown => ?_)
      split_ifs
      · exact mem_cons_of_mem _ hknown
      · exact hknown
  | cons p rest ih =>
    refine ⟨h.1, ih h.2 fun q hq => ?_⟩
    refine (hmore q hq).imp_right fun hbase => ?_
    rw [pending_cons] at hbase
    split_ifs at hbase ⊢ with hlast
    · rcases hbase with hknown | hbase
      · exact .inl (mem_cons_of_mem _ hknown)
      rcases mem_cons.1 hbase with heq | hbase
      · exact .inl (heq ▸ mem_cons_self)
      · exact .inr hbase
    · exact hbase

theorem mem_pending_partsOf (queue : List StreamPart) (u : ScreenUpdate) :
    u.newNum ∈ pending (queue ++ partsOf u) := by
  have hpos := chunkCount_pos PART_MAX u.encode
  let p : StreamPart := ⟨u, chunkCount PART_MAX u.encode - 1⟩
  have hlast : p.IsLast := Nat.sub_add_cancel hpos
  refine List.mem_map.2 ⟨p, mem_filter.2 ⟨mem_append_right _ ?_, decide_eq_true hlast⟩,
    rfl⟩
  exact List.mem_map.2 ⟨_, mem_range.2 (by omega), rfl⟩

/-! ## Runs -/

def Wire.numbers {E : Emulator} (w : Wire E) : List Nat :=
  w.applied.map ScreenUpdate.newNum

namespace Attach

variable {E : Emulator}

/-- What arrives flushes no kept base and builds on no dropped update. -/
def Calm (a : Attach E) : AttachOp → Prop :=
  a.AtDelivery (fun p => a.wire.client.NoFlush p.update ∧
      (a.wire.client.num < p.update.newNum → p.update.baseNum ∈ a.wire.dropped →
        p.update.baseNum ∈ a.wire.numbers))
    (fun i => a.wire.OneEncoding i ∧ ∀ u ∈ a.wire.completed i, a.wire.client.NoFlush u)

instance (a : Attach E) (op : AttachOp) : Decidable (a.Calm op) :=
  inferInstanceAs (Decidable (a.AtDelivery _ _ op))

structure Quiet (blake3 : List UInt8 → Hash) (a : Attach E) : Prop where
  whole : Wire.Whole blake3 a.wire
  shown : Shown a.wire.reported a.wire.applied a.wire.client
  outcomes : ∀ o ∈ a.wire.outcomes, ∀ reason, o ≠ .resync reason
  resync : a.sync.resync = false
  forceFull : a.sender.forceFull = false
  storing : a.storing = false ∧ a.storingDatagram = false
  acks : ∀ n, n ∈ a.acks ∨ n ∈ a.ackStream ∨ n ∈ a.ackDatagrams → n ∈ a.wire.numbers
  acked : a.sync.acked = 0 ∨ a.sync.acked ∈ a.wire.numbers
  sent : a.sender.lastSentStream = 0 ∨ a.sender.lastSentStream ∈ a.wire.numbers ++ a.wire.dropped ∨
    a.sender.lastSentStream ∈ pending a.wire.stream
  based : Based (a.wire.numbers ++ a.wire.dropped) a.wire.stream

variable {blake3 : List UInt8 → Hash} {a a' : Attach E}

theorem new_quiet (rows cols : Nat) : Quiet blake3 (new E rows cols) where
  whole := Wire.new_whole rows cols
  shown :=
    { held := fun _ hp => absurd hp not_mem_nil
      awaiting := rfl
      newest := fun _ hu => absurd hu not_mem_nil
      kept := fun _ hu => absurd hu not_mem_nil
      near := Near.nil _
      num := .inl rfl }
  outcomes _ ho := absurd ho not_mem_nil
  resync := rfl
  forceFull := rfl
  storing := ⟨rfl, rfl⟩
  acks n hn := by
    rcases hn with hn | hn | hn
    all_goals cases hn
  acked := .inl rfl
  sent := .inl rfl
  based := trivial

section

variable (h : Quiet blake3 a)
include h

theorem Quiet.number_ne_zero {n : Nat} (hn : n ∈ a.wire.numbers) : n ≠ 0 := by
  obtain ⟨u, hu, rfl⟩ := List.mem_map.1 hn
  have := (h.shown.newest u hu).1
  omega

theorem Quiet.idle (hi : Idle a a') (hwhole : Wire.Whole blake3 a'.wire) :
    Quiet blake3 a' := by
  obtain ⟨more, hreported⟩ := hi.wire.reported
  have hnumbers : a'.wire.numbers = a.wire.numbers := by rw [Wire.numbers, hi.wire.applied]; rfl
  refine ⟨hwhole, ?_, ?_, ?_, ?_, ?_, ?_, ?_, ?_, ?_⟩
  · rw [hreported, hi.wire.applied, hi.wire.client]
    exact Shown.append h.shown more
  · rw [hi.wire.outcomes]
    exact h.outcomes
  · rw [hi.resync]
    exact h.resync
  · rw [hi.forceFull]
    exact h.forceFull
  · rw [hi.storing, hi.storingDatagram]
    exact h.storing
  · rw [hi.acks, hi.ackStream, hi.ackDatagrams, hnumbers]
    exact h.acks
  · rw [hi.acked, hnumbers]
    exact h.acked
  · rw [hi.lastSentStream, hnumbers, hi.wire.dropped, hi.wire.stream]
    exact h.sent
  · rw [hnumbers, hi.wire.dropped, hi.wire.stream]
    exact h.based

theorem Quiet.streamBase :
    a.sender.streamBase a.sync.acked = 0 ∨
      a.sender.streamBase a.sync.acked ∈ a.wire.numbers ++ a.wire.dropped ∨
      a.sender.streamBase a.sync.acked ∈ pending a.wire.stream := by
  have hbase : a.sender.streamBase a.sync.acked = max a.sync.acked a.sender.lastSentStream := by
    rw [ScreenSender.streamBase, h.forceFull]
    rfl
  rw [hbase]
  rcases le_total a.sync.acked a.sender.lastSentStream with hle | hle
  · rw [Nat.max_eq_right hle]
    exact h.sent
  · rw [max_eq_left hle]
    exact h.acked.imp_right fun hmem => .inl (mem_append_left _ hmem)

theorem Quiet.sendStream (hs : a.sendStream blake3 = some a')
    (hwhole : Wire.Whole blake3 a'.wire) : Quiet blake3 a' := by
  obtain ⟨w, hw, rfl⟩ := map_eq_some_iff.1 hs
  rcases Wire.sendStream_cases hw with ⟨hnone, rfl⟩ | ⟨u, hu, -, rfl⟩
  · rw [hnone] at hwhole ⊢
    exact h.idle (idle_onWire (Wire.frame_cut blake3 a.wire)) hwhole
  rw [hu] at hwhole ⊢
  have hbase : u.baseNum = 0 ∨ u.baseNum = a.sender.streamBase a.sync.acked := by
    obtain ⟨-, -, -, -, -, ⟨hbase, -⟩ | ⟨hzero, -⟩⟩ := HostScreen.updateSince_eq_some hu
    · exact .inr hbase
    · exact .inl hzero
  refine { h with
    whole := hwhole
    shown := Shown.append h.shown _
    forceFull := ?_
    sent := .inr (.inr (mem_pending_partsOf _ u))
    based := h.based.append fun p hp => ?_ }
  · show (if u.baseNum = 0 then false else a.sender.forceFull) = false
    rw [h.forceFull, ite_self]
  rw [Wire.mem_partsOf hp]
  rcases hbase with hzero | hbase
  · exact .inl hzero
  · rw [hbase]
    exact h.streamBase

theorem Quiet.sendDatagram {budget : Nat}
    (hs : a.sendDatagram blake3 budget = some a') (hwhole : Wire.Whole blake3 a'.wire) :
    Quiet blake3 a' := by
  unfold Attach.sendDatagram at hs
  split_ifs at hs
  obtain ⟨w, hw, rfl⟩ := map_eq_some_iff.1 hs
  -- the sender changes, but not in what the bases are made of
  have hsender : ∀ u, (a.sender.sentDatagram u).forceFull = false ∧
      (a.sender.sentDatagram u).lastSentStream = a.sender.lastSentStream := by
    intro u
    cases u with
    | none => exact ⟨h.forceFull, rfl⟩
    | some u =>
      refine ⟨?_, rfl⟩
      show (if u.baseNum = 0 then false else a.sender.forceFull) = false
      rw [h.forceFull, ite_self]
  obtain ⟨hforce, hlast⟩ := hsender (a.wire.host.updateSince blake3
    (a.sender.datagramBase a.sync.acked)).2
  have hq := h.idle (idle_onWire (Wire.frame_sendDatagram hw)) hwhole
  refine { hq with forceFull := hforce, sent := ?_ }
  rw [hlast]
  exact hq.sent

theorem Quiet.answer {w : Wire E} (hwhole : Wire.Whole blake3 w)
    {o : ScreenOutcome} (houtcomes : w.outcomes = a.wire.outcomes ++ [o])
    (ho : ∀ reason, o ≠ .resync reason) (hack : ∀ n ∈ o.ack, n ∈ w.numbers)
    (hshown : Shown w.reported w.applied w.client)
    (hnumbers : ∀ n ∈ a.wire.numbers, n ∈ w.numbers)
    (hsent : ∀ n, n ∈ a.wire.numbers ++ a.wire.dropped ∨ n ∈ pending a.wire.stream →
      n ∈ w.numbers ++ w.dropped ∨ n ∈ pending w.stream)
    (hbased : Based (w.numbers ++ w.dropped) w.stream) : Quiet blake3 (a.answer w) := by
  refine { h with
    whole := hwhole
    shown := hshown
    outcomes := ?_
    acks := fun n hn => ?_
    acked := h.acked.imp_right (hnumbers _)
    sent := h.sent.imp_right (hsent _)
    based := hbased }
  · show ∀ x ∈ w.outcomes, _
    rw [houtcomes]
    exact forall_mem_append.2 ⟨h.outcomes, forall_mem_singleton.2 ho⟩
  rcases hn with hn | hn
  · have hn : n ∈ a.acks ++ (w.outcomes.getLast?.bind ScreenOutcome.ack).toList := hn
    rw [houtcomes, getLast?_concat, bind_some] at hn
    rcases mem_append.1 hn with hn | hn
    · exact hnumbers n (h.acks n (.inl hn))
    · exact hack n (mem_toList.1 hn)
  · exact hnumbers n (h.acks n (.inr hn))

theorem Quiet.deliverStream (hcalm : a.Calm .deliverStream)
    (hs : a.step blake3 .deliverStream = some a') (hwhole : Wire.Whole blake3 a'.wire) :
    Quiet blake3 a' := by
  obtain ⟨w, hw, rfl⟩ := map_eq_some_iff.1 hs
  obtain ⟨p, rest, parts, hqueue, hbuilt, -, hcase⟩ := h.whole.wire.deliverStream_cases hw
  have hbased := h.based
  rw [hqueue, Based] at hbased
  rcases hcase with ⟨hmore, rfl⟩ | ⟨r, hlast, hstep, rfl⟩
  · rw [if_neg hmore] at hbased
    refine h.answer hwhole rfl nofun nofun
      { h.shown with } (fun n hn => hn) (fun n hn => ?_) hbased.2
    rw [hqueue, pending_cons, if_neg hmore] at hn
    exact hn
  obtain ⟨hflush, hdropped⟩ := hcalm p (by rw [hqueue]; rfl) hlast
  have hshown : Shown a.wire.reported a.wire.applied { a.wire.client with parts := parts } :=
    { h.shown with }
  obtain ⟨hshown', ho, hack, hknown⟩ := hshown.apply h.whole.wire.reported hbuilt hflush
    (fun hne _ hlt => by
      rcases mem_append.1 (hbased.1.resolve_left hne) with hmem | hmem
      · exact hmem
      · exact hdropped hlt hmem) hstep
  -- the state of the update is known from here on
  have hgrow : ∀ n ∈ p.update.newNum :: (a.wire.numbers ++ a.wire.dropped),
      n ∈ (a.wire.applied ++ r.2.appliedOf (some p.update)).map ScreenUpdate.newNum ++
        (a.wire.dropped ++ r.2.droppedOf (some p.update)) := by
    intro n hn
    rcases mem_cons.1 hn with rfl | hn
    · rcases hknown with hknown | hknown
      · exact mem_append_left _ hknown
      · exact mem_append_right _ (mem_append_right _ hknown)
    rcases mem_append.1 hn with hn | hn
    · rw [map_append, append_assoc]
      exact mem_append_left _ hn
    · exact mem_append_right _ (mem_append_left _ hn)
  rw [if_pos hlast] at hbased
  refine h.answer hwhole rfl ho hack hshown' ?_ ?_ (hbased.2.mono hgrow)
  · intro n hn
    show n ∈ (a.wire.applied ++ _).map _
    rw [map_append]
    exact mem_append_left _ hn
  intro n hn
  rw [hqueue, pending_cons, if_pos hlast] at hn
  rcases hn with hn | hn
  · exact .inl (hgrow n (mem_cons_of_mem _ hn))
  rcases mem_cons.1 hn with rfl | hn
  · exact .inl (hgrow _ mem_cons_self)
  · exact .inr hn

theorem Quiet.deliverDatagram {i : Nat} (hcalm : a.Calm (.deliverDatagram i))
    (hs : a.step blake3 (.deliverDatagram i) = some a') (hwhole : Wire.Whole blake3 a'.wire) :
    Quiet blake3 a' := by
  obtain ⟨hone, hflush⟩ := hcalm
  obtain ⟨w, hw, rfl⟩ := map_eq_some_iff.1 hs
  obtain ⟨d, parts, building, -, -, -, hcase⟩ := Wire.deliverDatagram_cases hw
  rcases hcase with ⟨dropped, -, rfl⟩ | ⟨u, r, hu, hstep, rfl⟩
  · exact h.answer hwhole rfl nofun nofun
      { h.shown with } (fun n hn => hn) (fun n hn => hn) h.based
  have hshown : Shown a.wire.reported a.wire.applied
      { a.wire.client with datagramParts := parts } := { h.shown with }
  obtain ⟨hshown', ho, hack, -⟩ := hshown.apply h.whole.wire.reported
    (h.whole.completed_built hone hu) (hflush u hu) (fun _ hvia => by cases hvia) hstep
  have hgrow : ∀ n ∈ a.wire.numbers,
      n ∈ (a.wire.applied ++ r.2.appliedOf (some u)).map ScreenUpdate.newNum := by
    intro n hn
    rw [map_append]
    exact mem_append_left _ hn
  have hknown : ∀ n ∈ a.wire.numbers ++ a.wire.dropped,
      n ∈ (a.wire.applied ++ r.2.appliedOf (some u)).map ScreenUpdate.newNum ++
        a.wire.dropped := by
    intro n hn
    rcases mem_append.1 hn with hn | hn
    · exact mem_append_left _ (hgrow n hn)
    · exact mem_append_right _ hn
  exact h.answer hwhole rfl ho hack hshown' hgrow (fun n hn => hn.imp_left (hknown n))
    (h.based.mono hknown)

theorem Quiet.onAck {n : Nat} (hn : n ∈ a.wire.numbers) :
    (a.sync.onAck n).resync = false ∧ n ≠ 0 ∧
      ((a.sync.onAck n).acked = 0 ∨ (a.sync.onAck n).acked ∈ a.wire.numbers) := by
  have hne := h.number_ne_zero hn
  have hack : a.sync.onAck n = { a.sync with acked := max a.sync.acked n } := if_neg hne
  rw [hack]
  refine ⟨h.resync, hne, ?_⟩
  rcases le_total a.sync.acked n with hle | hle
  · rw [Nat.max_eq_right hle]
    exact .inr hn
  · rw [max_eq_left hle]
    exact h.acked

end

theorem step_quiet {op : AttachOp} (hcalm : a.Calm op) (hs : a.step blake3 op = some a')
    (h : Quiet blake3 a) : Quiet blake3 a' := by
  have hwhole : Wire.Whole blake3 a'.wire := by
    refine step_whole (fun i hi => ?_) hs h.whole
    subst hi
    exact hcalm.1
  by_cases hidle : op.isIdle = true
  · exact h.idle (idle_step hidle hs) hwhole
  cases op with
  | takeResync =>
    cases hs
    refine { h with resync := rfl, forceFull := ?_, sent := ?_ }
    · rw [ScreenSender.takeResync, h.resync]
      exact h.forceFull
    · rw [ScreenSender.takeResync, h.resync]
      exact h.sent
  | sendStream => exact h.sendStream hs hwhole
  | sendDatagram budget => exact h.sendDatagram hs hwhole
  | deliverStream => exact h.deliverStream hcalm hs hwhole
  | deliverDatagram i => exact h.deliverDatagram hcalm hs hwhole
  | sendAcks =>
    cases hs
    have hfold : ∀ n ∈ foldAcks a.acks, n ∈ a.wire.numbers := fun n hn =>
      h.acks n (.inl (mem_of_mem_foldAcks hn))
    refine { h with acks := fun n hn => ?_ }
    rcases hn with hn | hn | hn
    · cases hn
    · exact (mem_append.1 hn).elim (fun hn => h.acks n (.inr (.inl hn))) (hfold n)
    · exact (mem_append.1 hn).elim (fun hn => h.acks n (.inr (.inr hn))) (hfold n)
  | recvAck =>
    obtain ⟨n, rest, -, hqueue, rfl⟩ := recvAck_eq_some hs
    have hmem : n ∈ a.ackStream := hqueue ▸ mem_cons_self
    obtain ⟨hresync, hne, hacked⟩ := h.onAck (h.acks n (.inr (.inl hmem)))
    refine { h with
      resync := hresync
      storing := ⟨decide_eq_false hne, h.storing.2⟩
      acked := hacked
      acks := fun m hm => h.acks m ?_ }
    rcases hm with hm | hm | hm
    · exact .inl hm
    · exact .inr (.inl (hqueue ▸ mem_cons_of_mem _ hm))
    · exact .inr (.inr hm)
  | recvAckDatagram i =>
    obtain ⟨n, hmem, rfl⟩ := recvAckDatagram_eq_some hs
    obtain ⟨hresync, hne, hacked⟩ := h.onAck (h.acks n (.inr (.inr hmem)))
    exact { h with
      resync := hresync
      storing := ⟨h.storing.1, decide_eq_false hne⟩
      acked := hacked }
  | storeResync via =>
    cases via with
    | stream =>
      rw [step, h.storing.1] at hs
      cases hs
    | datagram =>
      rw [step, h.storing.2] at hs
      cases hs
  | _ => exact absurd rfl hidle

/-- In every run that stays away from the three exceptions, whatever becomes of
the datagrams and whenever the acknowledgements arrive, the client never asks
for the full screen. -/
theorem no_resync {rows cols : Nat} {ops : List AttachOp}
    (hrun : Lib.Run (step blake3) Calm (new E rows cols) ops a) :
    ∀ o ∈ a.wire.outcomes, ∀ reason, o ≠ .resync reason :=
  (hrun.invariant (fun _ _ _ hcalm hs h => step_quiet hcalm hs h) (new_quiet rows cols)).outcomes

/-- State 1 goes on the stream, state 2 in a datagram that arrives twice, and
state 3 on the stream again. -/
theorem no_resync_bothCarriers :
    ∃ a : Attach HostScreen.bellTerminal,
      Lib.Run (step HostScreen.zeroHash) Calm (new HostScreen.bellTerminal 1 1)
        [.sendStream, .deliverStream, .sendAcks, .recvAckDatagram 0, .feed [7] 1,
          .sendDatagram 1200, .deliverDatagram 0, .deliverDatagram 0, .feed [7] 2, .sendStream,
          .deliverStream] a ∧
      a.wire.outcomes =
        [.applied 1 0 [], .applied 2 1 [.bell], .stale 2, .applied 3 2 [.bell, .bell]] ∧
      ∀ o ∈ a.wire.outcomes, ∀ reason, o ≠ .resync reason := by
  exact Run.exists_exec (fun a => a.wire.outcomes =
    [.applied 1 0 [], .applied 2 1 [.bell], .stale 2, .applied 3 2 [.bell, .bell]])
    (by decide +kernel) fun a hrun houtcomes => ⟨houtcomes, no_resync hrun⟩

/-- A datagram overtakes the stream.  State 2 is on the stream when state 3
arrives in a datagram, so the client drops it as stale.  The host diffs the next
stream update, for state 4, from state 2, which the client does not have. -/
theorem overtaken_stream_update_resyncs :
    ∃ a : Attach HostScreen.bellTerminal,
      Lib.Run (step HostScreen.zeroHash) (fun _ _ => True) (new HostScreen.bellTerminal 1 1)
        [.sendStream, .deliverStream, .feed [7] 1, .sendStream, .sendAcks, .recvAckDatagram 0,
          .feed [7] 2, .sendDatagram 1200, .deliverDatagram 0, .deliverStream, .feed [7] 3,
          .sendStream, .deliverStream] a ∧
      a.wire.outcomes =
        [.applied 1 0 [], .applied 3 2 [.bell, .bell], .stale 3, .resync .baseMismatch] := by
  exact Run.exists_of_exec (by decide +kernel)

end Attach

end Qsh.Screen
