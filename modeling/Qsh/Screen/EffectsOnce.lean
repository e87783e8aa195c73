import Qsh.Screen.Attach

/-!
# Effects that are replayed once

An update from a retained base carries the effects that the host logged under the cuts
after the base, whatever the client has applied of them meanwhile.  The datagram base is
the newest acknowledged state, so until an acknowledgement arrives every datagram update
starts from before it, and a bell that has rung comes again with the next one.

`NoRepeat`: an update does not reach back over such an effect to a state before the
newest one that the client applied.  In runs of such updates, with every assembly of one
encoding, no effect is in two of the updates that the client applies.
-/

namespace Qsh.Screen

open Qsh.Lib List

def ScreenUpdate.Covers (u : ScreenUpdate) (p : Nat × Effect) : Prop :=
  u.baseNum ≠ 0 ∧ u.baseNum < p.1 ∧ p.1 ≤ u.newNum

instance (u : ScreenUpdate) (p : Nat × Effect) : Decidable (u.Covers p) :=
  inferInstanceAs (Decidable (_ ∧ _))

def ScreenOutcome.effects? : ScreenOutcome → Option (List Effect)
  | .applied _ _ effects => some effects
  | _ => none

theorem Built.effects_sublist {reported : List Cut} {logged : List (Nat × Effect)}
    {u : ScreenUpdate} (h : Built reported logged u) :
    (u.effects.filter fun e => !e.isTitle).Sublist
      ((logged.filter fun p => u.Covers p).map Prod.snd) := by
  by_cases hzero : u.baseNum = 0
  · have hnil : (u.effects.filter fun e => !e.isTitle) = [] :=
      filter_eq_nil_iff.2 fun e he => by simp [h.titles hzero e he]
    rw [hnil]
    exact nil_sublist _
  have hcovers : (logged.filter fun p => u.Covers p) =
      logged.filter fun p => u.baseNum < p.1 ∧ p.1 ≤ u.newNum :=
    filter_congr fun p _ => by
      simp only [ScreenUpdate.Covers, hzero, ne_eq, not_false_eq_true, true_and]
  rw [hcovers]
  exact filter_sublist.trans (h.since hzero)

namespace Wire

variable {E : Emulator}

/-- No two updates carry the same bell, clipboard write or hyperlink. -/
def Once (logged : List (Nat × Effect)) (applied : List ScreenUpdate) : Prop :=
  applied.Pairwise fun u v => ∀ p ∈ logged, p.2.isTitle = false → ¬(u.Covers p ∧ v.Covers p)

/-- If the client takes the update, the effects that were logged after its base
are of cuts behind every state that the client applied. -/
def NoRepeat (w : Wire E) (u : ScreenUpdate) : Prop :=
  w.client.num < u.newNum → u.baseNum ≠ 0 →
    ∀ p ∈ w.logged, p.2.isTitle = false → u.baseNum < p.1 → ∀ v ∈ w.applied, v.newNum < p.1

instance (w : Wire E) (u : ScreenUpdate) : Decidable (w.NoRepeat u) :=
  inferInstanceAs (Decidable (_ → _ → _))

/-- What holds in every state of a run of such updates. -/
structure Replayed (blake3 : List UInt8 → Hash) (w : Wire E) : Prop where
  whole : Whole blake3 w
  built : ∀ u ∈ w.applied, Built w.reported w.logged u
  outcomes : w.outcomes.filterMap ScreenOutcome.effects? = w.applied.map ScreenUpdate.effects
  once : Once w.logged w.applied

variable {blake3 : List UInt8 → Hash} {w w' : Wire E}

theorem new_replayed (rows cols : Nat) : Replayed blake3 (new E rows cols) where
  whole := new_whole rows cols
  built _ hu := absurd hu not_mem_nil
  outcomes := rfl
  once := List.Pairwise.nil

section

variable (h : Replayed blake3 w)
include h

theorem Replayed.cut : Replayed blake3 (w.cut blake3) := by
  refine ⟨h.whole.cut, fun u hu => (h.built u hu).mono _ _, h.outcomes, ?_⟩
  refine (List.Pairwise.and_mem.1 h.once).imp ?_
  rintro u v ⟨hu, -, hnot⟩ p hp htitle hcovers
  rcases mem_append.1 hp with hp | hp
  · exact hnot p hp htitle hcovers
  obtain ⟨last, hlast, hnum, -⟩ := (h.built u hu).target
  have hpast := (h.whole.wire.past last hlast).2
  split_ifs at hp
  · cases hp
  obtain ⟨e, -, rfl⟩ := mem_map.1 hp
  have hle := hcovers.1.2.2
  omega

theorem Replayed.silent {o : ScreenOutcome} (ho : o.effects? = none) :
    (w.outcomes ++ [o]).filterMap ScreenOutcome.effects? = w.applied.map ScreenUpdate.effects := by
  rw [filterMap_append, h.outcomes]
  simp only [filterMap_cons, ho, filterMap_nil, append_nil]

theorem Replayed.take {c : ClientScreen} {u : ScreenUpdate} {via : Via}
    {r : ClientScreen × ScreenOutcome} (hstep : ClientScreen.ApplyStep blake3 c u via r)
    (hbuilt : Built w.reported w.logged u) (hnum : c.num = w.client.num) (hnew : w.NoRepeat u) :
    (∀ v ∈ w.applied ++ r.2.appliedOf (some u), Built w.reported w.logged v) ∧
      (w.outcomes ++ [r.2]).filterMap ScreenOutcome.effects? =
        (w.applied ++ r.2.appliedOf (some u)).map ScreenUpdate.effects ∧
      Once w.logged (w.applied ++ r.2.appliedOf (some u)) := by
  have hsame : w.applied ++ [] = w.applied := append_nil _
  cases hstep with
  | ignored | stale =>
    simp only [ScreenOutcome.appliedOf, hsame]
    exact ⟨h.built, h.silent rfl, h.once⟩
  | resync reason hfresh hwhy =>
    simp only [ClientScreen.resync, ScreenOutcome.appliedOf, hsame]
    exact ⟨h.built, h.silent rfl, h.once⟩
  | applied b t hfresh hbase happly =>
    refine ⟨?_, ?_, pairwise_append.2 ⟨h.once, pairwise_singleton _ _, ?_⟩⟩
    · exact forall_mem_append.2 ⟨h.built, forall_mem_singleton.2 hbuilt⟩
    · rw [filterMap_append, h.outcomes, map_append]
      rfl
    -- what both cover is not behind the older one
    intro v hv x hx p hp htitle hcovers
    obtain rfl := mem_singleton.1 hx
    obtain ⟨⟨-, -, hle⟩, hne, hlt, -⟩ := hcovers
    have hfirst : w.client.num < x.newNum := by
      rw [← hnum]
      by_cases hzero : c.num = 0
      · have := hbuilt.newer
        omega
      · exact (hfresh hzero).2 hne
    have := hnew hfirst hne p hp htitle hlt v hv
    omega

theorem Replayed.deliverStream (hnew : ∀ p ∈ w.stream.head?, p.IsLast → w.NoRepeat p.update)
    (hs : w.deliverStream blake3 = some w') : Replayed blake3 w' := by
  have hwhole := h.whole.deliverStream hs
  obtain ⟨p, rest, parts, hqueue, hbuilt, -, hcase⟩ := h.whole.wire.deliverStream_cases hs
  rcases hcase with ⟨-, rfl⟩ | ⟨r, hlast, hstep, rfl⟩
  · exact ⟨hwhole, h.built, h.silent rfl, h.once⟩
  · obtain ⟨hbuilt', houtcomes, honce⟩ :=
      h.take hstep hbuilt rfl (hnew p (by rw [hqueue]; rfl) hlast)
    exact ⟨hwhole, hbuilt', houtcomes, honce⟩

theorem Replayed.deliverDatagram {i : Nat} (hone : w.OneEncoding i)
    (hnew : ∀ u ∈ w.completed i, w.NoRepeat u) (hs : w.deliverDatagram blake3 i = some w') :
    Replayed blake3 w' := by
  have hwhole := h.whole.deliverDatagram hone hs
  obtain ⟨d, parts, building, -, -, -, hcase⟩ := deliverDatagram_cases hs
  rcases hcase with ⟨dropped, -, rfl⟩ | ⟨u, r, hu, hstep, rfl⟩
  · exact ⟨hwhole, h.built, h.silent rfl, h.once⟩
  · obtain ⟨hbuilt', houtcomes, honce⟩ :=
      h.take hstep (h.whole.completed_built hone hu) rfl (hnew u hu)
    exact ⟨hwhole, hbuilt', houtcomes, honce⟩

end

theorem step_replayed {op : WireOp}
    (hstream : op = .deliverStream → ∀ p ∈ w.stream.head?, p.IsLast → w.NoRepeat p.update)
    (hdatagram : ∀ i, op = .deliverDatagram i → w.OneEncoding i ∧ ∀ u ∈ w.completed i, w.NoRepeat u)
    (hs : w.step blake3 op = some w') (h : Replayed blake3 w) : Replayed blake3 w' := by
  have hwhole := step_whole (fun i hi => (hdatagram i hi).1) hs h.whole
  cases op with
  | feed data endSeq =>
    rw [step] at hs
    split_ifs at hs
    cases hs
    exact { h with whole := hwhole }
  | resize | loseDatagram =>
    cases hs
    exact { h with whole := hwhole }
  | cut =>
    cases hs
    exact h.cut
  | sendStream base =>
    rcases sendStream_cases hs with ⟨-, rfl⟩ | ⟨u, -, -, rfl⟩
    · exact h.cut
    · exact { h.cut with whole := hwhole }
  | sendDatagram base budget =>
    rcases sendDatagram_cases hs with ⟨-, rfl⟩ | ⟨u, -, -, rfl⟩
    · exact h.cut
    · exact { h.cut with whole := hwhole }
  | refuseDatagram base budget sent =>
    obtain ⟨v, hv, rfl⟩ := refuseDatagram_cases hs
    rcases sendDatagram_cases hv with ⟨-, rfl⟩ | ⟨u, -, -, rfl⟩
    all_goals exact { h.cut with whole := hwhole }
  | deliverStream => exact h.deliverStream (hstream rfl) hs
  | deliverDatagram i => exact h.deliverDatagram (hdatagram i rfl).1 (hdatagram i rfl).2 hs

end Wire

/-! ## Runs -/

namespace Attach

variable {E : Emulator}

/-- An update that the client completes does not repeat an effect. -/
def Unrepeated (a : Attach E) : AttachOp → Prop :=
  a.AtDelivery (fun p => a.wire.NoRepeat p.update)
    (fun i => a.wire.OneEncoding i ∧ ∀ u ∈ a.wire.completed i, a.wire.NoRepeat u)

instance (a : Attach E) (op : AttachOp) : Decidable (a.Unrepeated op) :=
  inferInstanceAs (Decidable (a.AtDelivery _ _ op))

variable {blake3 : List UInt8 → Hash} {a a' : Attach E}

theorem step_unrepeated {op : AttachOp} (hop : a.Unrepeated op) (hs : a.step blake3 op = some a')
    (h : Wire.Replayed blake3 a.wire) : Wire.Replayed blake3 a'.wire := by
  rcases step_wire hs with hsame | ⟨wop, hstep, hdatagram, hstream⟩
  · rw [hsame]
    exact h
  refine Wire.step_replayed (fun hw => ?_) (fun i hw => ?_) hstep h
  · rw [hstream hw] at hop
    exact hop
  · rw [hdatagram i hw] at hop
    exact hop

/-- In every run in which no update reaches back over an effect, whatever
becomes of the datagrams and whenever the acknowledgements arrive: the effects
of the `Applied` outcomes are those of the updates that the client applied; the
bells, clipboard writes and hyperlinks of each are of the cuts that it covers;
and no two cover the same one. -/
theorem effects_replayed_once {rows cols : Nat} {ops : List AttachOp}
    (hrun : Lib.Run (step blake3) Unrepeated (new E rows cols) ops a) :
    a.wire.outcomes.filterMap ScreenOutcome.effects? = a.wire.applied.map ScreenUpdate.effects ∧
      (∀ u ∈ a.wire.applied, (u.effects.filter fun e => !e.isTitle).Sublist
        ((a.wire.logged.filter fun p => u.Covers p).map Prod.snd)) ∧
      a.wire.applied.Pairwise fun u v => ∀ p ∈ a.wire.logged, p.2.isTitle = false →
        ¬(u.Covers p ∧ v.Covers p) := by
  have h : Wire.Replayed blake3 a.wire :=
    hrun.invariant (I := fun a => Wire.Replayed blake3 a.wire)
      (fun _ _ _ hop hs h => step_unrepeated hop hs h) (Wire.new_replayed rows cols)
  exact ⟨h.outcomes, fun u hu => (h.built u hu).effects_sublist, h.once⟩

/-- The acknowledgement of state 2 arrives before state 3 is sent, so the bell
rings once. -/
theorem effects_replayed_once_acked :
    ∃ a : Attach HostScreen.bellTerminal,
      Lib.Run (step HostScreen.zeroHash) Unrepeated (new HostScreen.bellTerminal 1 1)
        [.sendStream, .deliverStream, .sendAcks, .recvAckDatagram 0, .feed [7] 1,
          .sendDatagram 1200, .deliverDatagram 0, .sendAcks, .recvAckDatagram 1, .feed [0] 2,
          .sendDatagram 1200, .deliverDatagram 1] a ∧
      a.wire.outcomes.filterMap ScreenOutcome.effects? = [[], [.bell], [.title []]] ∧
      a.wire.applied.Pairwise fun u v => ∀ p ∈ a.wire.logged, p.2.isTitle = false →
        ¬(u.Covers p ∧ v.Covers p) := by
  exact Run.exists_exec (fun a => a.wire.outcomes.filterMap ScreenOutcome.effects? =
    [[], [.bell], [.title []]]) (by decide +kernel) fun a hrun heffects =>
      ⟨heffects, (effects_replayed_once hrun).2.2⟩

/-- The host logs one bell.  The acknowledgement of state 2, which rings it, is
still on its way when state 3 is sent from state 1, and it rings again. -/
theorem late_ack_repeats_bell :
    ∃ a : Attach HostScreen.bellTerminal,
      Lib.Run (step HostScreen.zeroHash) (fun _ _ => True) (new HostScreen.bellTerminal 1 1)
        [.sendStream, .deliverStream, .sendAcks, .recvAckDatagram 0, .feed [7] 1,
          .sendDatagram 1200, .deliverDatagram 0, .feed [0] 2, .sendDatagram 1200,
          .deliverDatagram 1] a ∧
      a.wire.logged = [(2, .bell), (3, .title [])] ∧
      a.wire.outcomes.filterMap ScreenOutcome.effects? = [[], [.bell], [.bell, .title []]] := by
  exact Run.exists_of_exec (by decide +kernel)

end Attach

end Qsh.Screen
