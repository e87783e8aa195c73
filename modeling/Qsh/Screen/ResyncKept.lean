import Qsh.Screen.Attach

/-!
# What becomes of a request for the full screen

The client that waits for a full screen ignores every other update, so it has
to get one.  The stream carries the request, and `resync` and `force_full` keep
it.  The sender drops `force_full` when a full update has gone out, on either
carrier.  In datagrams it may be lost, and nothing is left to send it again: with
`acked` at 0 the next `tick` clears the record of what is in flight, and an older
acknowledgement that comes late sets a base that the client has cleared.

`FullOnStream` is that a full update which the client asked for goes on the
stream.
-/

namespace Qsh.Screen

open Qsh.Lib List

namespace Attach

variable {E : Emulator}

/-- A full screen is under way to the client. -/
def FullInFlight (a : Attach E) : Prop :=
  (∃ p ∈ a.wire.stream, p.update.baseNum = 0 ∧ a.wire.client.num ≤ p.update.newNum) ∨
    ∃ d ∈ a.wire.datagrams, d.update.baseNum = 0 ∧ a.wire.client.num ≤ d.update.newNum

/-- The request of a client that waits for the full screen is not forgotten: it
is on its way to the sender, the sender has it, or the sender has sent the full
screen and it is in flight or will be sent again. -/
def Remembered (a : Attach E) : Prop :=
  (0 ∈ a.acks ∨ 0 ∈ a.ackStream ∨ a.storing = true) ∨
    (a.sync.resync = true ∨ a.sender.forceFull = true) ∨
    (a.sync.acked = 0 ∧ (a.FullInFlight ∨ a.sender.inflight ≠ [])) ∨
    a.FullInFlight

instance (a : Attach E) : Decidable a.FullInFlight := by
  unfold FullInFlight
  infer_instance

instance (a : Attach E) : Decidable a.Remembered := by
  unfold Remembered
  infer_instance

/-- The sender does not answer a request for the full screen in datagrams. -/
def FullOnStream (a : Attach E) (op : AttachOp) : Prop :=
  op.isSendDatagram = true → a.sender.forceFull = false

instance (a : Attach E) (op : AttachOp) : Decidable (a.FullOnStream op) :=
  inferInstanceAs (Decidable (_ → _))

def FullOn (queue : List StreamPart) : Prop :=
  ∃ p ∈ queue, p.IsLast ∧ p.update.baseNum = 0

/-- Where the request is, in a run that answers on the stream. -/
def Tracked (a : Attach E) : Prop :=
  0 ∈ a.acks ∨ 0 ∈ a.ackStream ∨ a.storing = true ∨ a.sync.resync = true ∨
    a.sender.forceFull = true ∨ FullOn a.wire.stream

structure Asked (blake3 : List UInt8 → Hash) (a : Attach E) : Prop where
  wire : Wire.WireInv blake3 a.wire
  cleared : a.wire.client.awaitingFull = true → a.wire.client.history = []
  tracked : a.wire.client.awaitingFull = true → a.Tracked

variable {blake3 : List UInt8 → Hash} {a a' : Attach E}

theorem Tracked.next (h : a.Tracked) (hacks : 0 ∈ a.acks → 0 ∈ a'.acks ∨ 0 ∈ a'.ackStream)
    (hstream : 0 ∈ a.ackStream → 0 ∈ a'.ackStream ∨ a'.storing = true)
    (hstoring : a.storing = true → a'.storing = true ∨ a'.sync.resync = true)
    (hresync : a.sync.resync = true → a'.sync.resync = true ∨ a'.sender.forceFull = true)
    (hforce : a.sender.forceFull = true → a'.sender.forceFull = true ∨ FullOn a'.wire.stream)
    (hfull : FullOn a.wire.stream → FullOn a'.wire.stream) : a'.Tracked := by
  rcases h with h | h | h | h | h | h
  · exact (hacks h).imp_right .inl
  · exact .inr ((hstream h).imp_right .inl)
  · exact .inr (.inr ((hstoring h).imp_right .inl))
  · exact .inr (.inr (.inr ((hresync h).imp_right .inl)))
  · exact .inr (.inr (.inr (.inr (hforce h))))
  · exact .inr (.inr (.inr (.inr (.inr (hfull h)))))

theorem new_asked (rows cols : Nat) : Asked blake3 (new E rows cols) where
  wire := Wire.new_inv rows cols
  cleared := nofun
  tracked := nofun

theorem Asked.idle (h : Asked blake3 a) (hi : Idle a a') (hwire : Wire.WireInv blake3 a'.wire) :
    Asked blake3 a' := by
  refine ⟨hwire, ?_, ?_⟩
  · rw [hi.wire.client]
    exact h.cleared
  · unfold Tracked
    rw [hi.wire.client, hi.acks, hi.ackStream, hi.storing, hi.resync, hi.forceFull, hi.wire.stream]
    exact h.tracked

theorem fullOn_partsOf (queue : List StreamPart) {u : ScreenUpdate} (hzero : u.baseNum = 0) :
    FullOn (queue ++ partsOf u) := by
  have hpos := chunkCount_pos PART_MAX u.encode
  refine ⟨⟨u, chunkCount PART_MAX u.encode - 1⟩, mem_append_right _ ?_,
    Nat.sub_add_cancel hpos, hzero⟩
  exact mem_map.2 ⟨_, mem_range.2 (by omega), rfl⟩

theorem Asked.sendStream (h : Asked blake3 a) (hs : a.sendStream blake3 = some a')
    (hwire : Wire.WireInv blake3 a'.wire) : Asked blake3 a' := by
  obtain ⟨w, hw, rfl⟩ := Option.map_eq_some_iff.1 hs
  rcases Wire.sendStream_cases hw with ⟨hnone, rfl⟩ | ⟨u, hu, -, rfl⟩
  · rw [hnone] at hwire ⊢
    exact h.idle (idle_onWire (Wire.frame_cut blake3 a.wire)) hwire
  rw [hu] at hwire ⊢
  refine ⟨hwire, h.cleared, fun hawait => (h.tracked hawait).next .inl .inl .inl .inl
    (fun hforce => .inr ?_) fun ⟨p, hp, hfull⟩ => ⟨p, mem_append_left _ hp, hfull⟩⟩
  -- the base is 0, so the update is the full screen
  have hbase : a.sender.streamBase a.sync.acked = 0 := by
    rw [ScreenSender.streamBase, if_pos hforce]
  refine fullOn_partsOf _ ?_
  obtain ⟨-, -, -, -, -, ⟨hsame, -⟩ | ⟨hzero, -⟩⟩ := HostScreen.updateSince_eq_some hu
  · exact hsame.trans hbase
  · exact hzero

theorem Asked.sendDatagram (h : Asked blake3 a) {budget : Nat}
    (hforce : a.sender.forceFull = false) (hs : a.sendDatagram blake3 budget = some a')
    (hwire : Wire.WireInv blake3 a'.wire) : Asked blake3 a' := by
  unfold Attach.sendDatagram at hs
  split_ifs at hs
  obtain ⟨w, hw, rfl⟩ := Option.map_eq_some_iff.1 hs
  have hidle := h.idle (idle_onWire (Wire.frame_sendDatagram hw)) hwire
  refine ⟨hwire, hidle.cleared, fun hawait => (hidle.tracked hawait).next .inl .inl .inl .inl
    (fun hset => ?_) id⟩
  rw [hforce] at hset
  cases hset

theorem waiting_of_applyStep {c : ClientScreen} {u : ScreenUpdate} {via : Via}
    {r : ClientScreen × ScreenOutcome} (h : ClientScreen.ApplyStep blake3 c u via r)
    (hcleared : c.awaitingFull = true → c.history = []) (hawait : r.1.awaitingFull = true) :
    r.1.history = [] ∧
      (r.2.ack = some 0 ∨ (c.awaitingFull = true ∧ (via = .stream → u.baseNum ≠ 0))) := by
  cases h with
  | ignored hwaits hbase => exact ⟨hcleared hawait, .inr ⟨hawait, fun _ => hbase⟩⟩
  | stale hold =>
    refine ⟨hcleared hawait, .inr ⟨hawait, fun hvia => ?_⟩⟩
    rcases hold with hnot | ⟨hdatagram, -⟩
    · -- nothing is held, so nothing is stale
      refine absurd (fun hne => absurd ?_ hne) hnot
      rw [ClientScreen.num, hcleared hawait]
      rfl
    · rw [hvia] at hdatagram
      cases hdatagram
  | resync reason hfresh hwhy => exact ⟨rfl, .inl rfl⟩
  | applied b t hfresh hbase happly => cases hawait

theorem Asked.answer (h : Asked blake3 a) {w : Wire E} (hwire : Wire.WireInv blake3 w)
    {o : ScreenOutcome} (houtcomes : w.outcomes = a.wire.outcomes ++ [o])
    (hwaits : w.client.awaitingFull = true → w.client.history = [] ∧ (o.ack = some 0 ∨
      a.wire.client.awaitingFull = true ∧ (FullOn a.wire.stream → FullOn w.stream))) :
    Asked blake3 (a.answer w) := by
  refine ⟨hwire, fun hawait => (hwaits hawait).1, fun hawait => ?_⟩
  rcases (hwaits hawait).2 with hack | ⟨hwaited, hfull⟩
  · left
    show 0 ∈ a.acks ++ (w.outcomes.getLast?.bind ScreenOutcome.ack).toList
    rw [houtcomes, getLast?_concat, Option.bind_some, hack]
    exact mem_append_right _ (mem_singleton_self 0)
  · exact (h.tracked hwaited).next (fun hack => .inl (mem_append_left _ hack)) .inl .inl .inl .inl
      hfull

theorem Asked.deliverStream (h : Asked blake3 a) (hs : a.step blake3 .deliverStream = some a')
    (hwire : Wire.WireInv blake3 a'.wire) : Asked blake3 a' := by
  obtain ⟨w, hw, rfl⟩ := Option.map_eq_some_iff.1 hs
  obtain ⟨p, rest, parts, hqueue, -, -, hcase⟩ := h.wire.deliverStream_cases hw
  -- the part that is gone was not the end of a full screen
  have hrest : ¬(p.IsLast ∧ p.update.baseNum = 0) → FullOn a.wire.stream → FullOn rest := by
    rintro hnot ⟨q, hq, hfull⟩
    rw [hqueue] at hq
    rcases mem_cons.1 hq with rfl | hq
    · exact absurd hfull hnot
    · exact ⟨q, hq, hfull⟩
  rcases hcase with ⟨hmore, rfl⟩ | ⟨r, -, hstep, rfl⟩
  · exact h.answer hwire rfl fun hawait =>
      ⟨h.cleared hawait, .inr ⟨hawait, hrest fun hfull => hmore hfull.1⟩⟩
  refine h.answer hwire rfl fun hawait => ?_
  obtain ⟨hnone, hack⟩ := waiting_of_applyStep hstep h.cleared hawait
  exact ⟨hnone, hack.imp_right fun hwaits =>
    ⟨hwaits.1, hrest fun hfull => hwaits.2 rfl hfull.2⟩⟩

theorem Asked.deliverDatagram (h : Asked blake3 a) {i : Nat}
    (hs : a.step blake3 (.deliverDatagram i) = some a') (hwire : Wire.WireInv blake3 a'.wire) :
    Asked blake3 a' := by
  obtain ⟨w, hw, rfl⟩ := Option.map_eq_some_iff.1 hs
  obtain ⟨d, parts, building, -, -, -, hcase⟩ := Wire.deliverDatagram_cases hw
  rcases hcase with ⟨dropped, -, rfl⟩ | ⟨u, r, -, hstep, rfl⟩
  · exact h.answer hwire rfl fun hawait => ⟨h.cleared hawait, .inr ⟨hawait, id⟩⟩
  refine h.answer hwire rfl fun hawait => ?_
  obtain ⟨hnone, hack⟩ := waiting_of_applyStep hstep h.cleared hawait
  exact ⟨hnone, hack.imp_right fun hwaits => ⟨hwaits.1, id⟩⟩

theorem resync_onAck (s : ScreenSync) (n : Nat) : (s.onAck n).resync = s.resync := by
  unfold ScreenSync.onAck
  split_ifs
  · rfl
  · rfl

theorem step_asked {op : AttachOp} (hop : a.FullOnStream op) (hs : a.step blake3 op = some a')
    (h : Asked blake3 a) : Asked blake3 a' := by
  have hwire := step_wireInv hs h.wire
  by_cases hidle : op.isIdle = true
  · exact h.idle (idle_step hidle hs) hwire
  cases op with
  | takeResync =>
    cases hs
    refine ⟨hwire, h.cleared, fun hawait => (h.tracked hawait).next .inl .inl .inl
      (fun hset => .inr ?_) (fun hset => .inl ?_) id⟩
    · rw [ScreenSender.takeResync, if_pos hset]
    unfold ScreenSender.takeResync
    split_ifs
    · rfl
    · exact hset
  | sendStream => exact h.sendStream hs hwire
  | sendDatagram budget => exact h.sendDatagram (hop rfl) hs hwire
  | deliverStream => exact h.deliverStream hs hwire
  | deliverDatagram i => exact h.deliverDatagram hs hwire
  | sendAcks =>
    cases hs
    exact ⟨hwire, h.cleared, fun hawait => (h.tracked hawait).next
      (fun hack => .inr (mem_append_right _ (zero_mem_foldAcks hack)))
      (fun hack => .inl (mem_append_left _ hack)) .inl .inl .inl id⟩
  | recvAck =>
    obtain ⟨n, rest, hnot, hqueue, rfl⟩ := recvAck_eq_some hs
    refine ⟨hwire, h.cleared, fun hawait => (h.tracked hawait).next .inl (fun hack => ?_)
      (fun hset => ?_) (fun hset => .inl ((resync_onAck a.sync n).trans hset)) .inl id⟩
    · rw [hqueue] at hack
      rcases mem_cons.1 hack with rfl | hack
      · exact .inr rfl
      · exact .inl hack
    · rw [hnot] at hset
      cases hset
  | recvAckDatagram i =>
    obtain ⟨n, -, rfl⟩ := recvAckDatagram_eq_some hs
    exact ⟨hwire, h.cleared, fun hawait => (h.tracked hawait).next .inl .inl .inl
      (fun hset => .inl ((resync_onAck a.sync n).trans hset)) .inl id⟩
  | storeResync via =>
    cases via with
    | stream | datagram =>
      rw [step] at hs
      split_ifs at hs
      cases hs
      exact ⟨hwire, h.cleared, fun _ => .inr (.inr (.inr (.inl rfl)))⟩
  | _ => exact absurd rfl hidle

/-- In every run that answers a request for the full screen on the stream, as
long as the client waits its request is not forgotten, whatever becomes of the
datagrams and whenever the acknowledgements arrive. -/
theorem resync_remembered {rows cols : Nat} {ops : List AttachOp}
    (hrun : Lib.Run (step blake3) FullOnStream (new E rows cols) ops a)
    (hawait : a.wire.client.awaitingFull = true) : a.Remembered := by
  have h : Asked blake3 a :=
    hrun.invariant (fun _ _ _ hop hs h => step_asked hop hs h) (new_asked rows cols)
  rcases h.tracked hawait with hack | hack | hstore | hresync | hforce | ⟨p, hp, -, hzero⟩
  · exact .inl (.inl hack)
  · exact .inl (.inr (.inl hack))
  · exact .inl (.inr (.inr hstore))
  · exact .inr (.inl (.inl hresync))
  · exact .inr (.inl (.inr hforce))
  have hnum : a.wire.client.num = 0 := by
    rw [ClientScreen.num, h.cleared hawait]
    rfl
  exact .inr (.inr (.inr (.inl ⟨p, hp, hzero, hnum ▸ Nat.zero_le _⟩)))

/-- A datagram overtakes the stream, and the client asks for the full screen.
The sender answers on the stream. -/
theorem resync_remembered_onStream :
    ∃ a : Attach HostScreen.bellTerminal,
      Lib.Run (step HostScreen.zeroHash) FullOnStream (new HostScreen.bellTerminal 1 1)
        [.sendStream, .deliverStream, .feed [7] 1, .sendStream, .sendAcks, .recvAckDatagram 0,
          .feed [7] 2, .sendDatagram 1200, .deliverDatagram 0, .deliverStream, .feed [7] 3,
          .sendStream, .deliverStream, .sendAcks, .recvAck, .recvAck, .storeResync .stream,
          .takeResync, .sendStream] a ∧
      a.wire.client.awaitingFull = true ∧ a.Remembered := by
  exact Run.exists_exec (fun a => a.wire.client.awaitingFull = true) (by decide +kernel)
    fun a hrun hawait => ⟨hawait, resync_remembered hrun hawait⟩

/-- The sender answers in a datagram, which is lost.  The next tick clears the
record of it.  Then the acknowledgement of state 1 arrives late, and the client
ignores what the host diffs from there. -/
theorem lost_full_datagram_forgotten :
    ∃ a : Attach HostScreen.bellTerminal,
      Lib.Run (step HostScreen.zeroHash) (fun _ _ => True) (new HostScreen.bellTerminal 1 1)
        [.sendStream, .deliverStream, .feed [7] 1, .sendStream, .sendAcks, .recvAckDatagram 0,
          .feed [7] 2, .sendDatagram 1200, .deliverDatagram 0, .deliverStream, .feed [7] 3,
          .sendStream, .deliverStream, .sendAcks, .recvAck, .recvAck, .storeResync .stream,
          .takeResync, .sendDatagram 1200, .loseDatagram 1, .tick false, .recvAckDatagram 0,
          .feed [7] 4, .sendDatagram 1200, .deliverDatagram 1] a ∧
      a.wire.client.awaitingFull = true ∧ a.wire.outcomes.getLast? = some .ignored ∧
      ¬a.Remembered := by
  exact Run.exists_of_exec (by decide +kernel)

end Attach

end Qsh.Screen
