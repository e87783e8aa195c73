import Qsh.Screen.Wire

/-!
# What the client shows

Whatever the host sends on the two carriers and whatever becomes of it, the
client shows a screen that the host reported, under its number.

A stream update comes out of the reassembler as it went in.  A datagram update
need not: the parts of two encodings of one state can meet in one assembly.
Then the header is that of the part in the first place, which is the header of
an update that the host built for this state, and what the mixture gives is
compared with the hash of the state.  `Assumed` says what this rests on.
-/

namespace Qsh.Screen

open Qsh.Lib List Option

/-! ## A client that shows what the host reported -/

structure Shows (reported : List Cut) (c : ClientScreen) : Prop where
  held : Held reported c.history
  seq : ∀ p, c.history.getLast? = some p →
    ∃ k ∈ reported, k.info.num = p.1 ∧ k.info.outputSeq = c.outputSeq

/-- Applying the update gives the state that the host cut. -/
def Exact (blake3 : List UInt8 → Hash) (reported : List Cut) (c : ClientScreen)
    (u : ScreenUpdate) : Prop :=
  ∀ b t, c.base? u = some b → u.apply blake3 b = .ok t →
    ∃ k ∈ reported, k.info.num = u.newNum ∧ k.info.outputSeq = u.outputSeq ∧ k.state = t

section Client

variable {blake3 : List UInt8 → Hash} {reported : List Cut} {logged : List (Nat × Effect)}
  {c : ClientScreen} {u : ScreenUpdate} {via : Via} {r : ClientScreen × ScreenOutcome}

theorem Held.append (h : Held reported c.history) (more : List Cut) :
    Held (reported ++ more) c.history := fun p hp => by
  obtain ⟨k, hk, hnum, hstate⟩ := h p hp
  exact ⟨k, mem_append_left _ hk, hnum, hstate⟩

theorem Shows.append (h : Shows reported c) (more : List Cut) : Shows (reported ++ more) c where
  held := h.held.append more
  seq p hp := by
    obtain ⟨k, hk, hnum, hseq⟩ := h.seq p hp
    exact ⟨k, mem_append_left _ hk, hnum, hseq⟩

theorem Held.apply (h : Held reported c.history) (hu : Exact blake3 reported c u)
    (hstep : ClientScreen.ApplyStep blake3 c u via r) : Held reported r.1.history := by
  cases hstep with
  | ignored | stale => exact h
  | resync reason hfresh hwhy => exact fun p hp => absurd hp not_mem_nil
  | applied b t hfresh hbase happly =>
    obtain ⟨k, hk, hnum, -, hstate⟩ := hu b t hbase happly
    exact fun p hp => forall_mem_append.2 ⟨h, forall_mem_singleton.2 ⟨k, hk, hnum, hstate⟩⟩ p
      (mem_of_mem_keepLast hp)

theorem Held.base?_isValid (h : Held reported c.history) (hr : Reported blake3 reported)
    {b : ScreenState} (hb : c.base? u = some b) : b.IsValid := by
  unfold ClientScreen.base? at hb
  split_ifs at hb with hzero
  · cases hblank : ScreenState.blank u.diff.rows u.diff.cols with rw [hblank] at hb
    | error e =>
      cases hb
    | ok b' =>
      cases hb
      exact (ScreenState.blank_isValid hblank).1
  · obtain ⟨p, hp, rfl⟩ := map_eq_some_iff.1 hb
    obtain ⟨k, hk, -, hstate⟩ := h p (mem_of_find?_eq_some hp)
    rw [← hstate]
    exact (hr.states k hk).1

theorem ClientScreen.getLast?_hold (c : ClientScreen) (u : ScreenUpdate) (t : ScreenState) :
    (c.hold u t).history.getLast? = some (u.newNum, t) := by
  rw [hold, keepLast_append_singleton (by decide), getLast?_append, getLast?_singleton]
  rfl

theorem Shows.apply (h : Shows reported c) (hu : Exact blake3 reported c u)
    (hstep : ClientScreen.ApplyStep blake3 c u via r) : Shows reported r.1 := by
  refine ⟨h.held.apply hu hstep, ?_⟩
  cases hstep with
  | ignored | stale => exact h.seq
  | resync reason hfresh hwhy => exact nofun
  | applied b t hfresh hbase happly =>
    obtain ⟨k, hk, hnum, hseq, -⟩ := hu b t hbase happly
    intro p hp
    rw [ClientScreen.getLast?_hold] at hp
    cases hp
    exact ⟨k, hk, hnum, hseq⟩

theorem Built.exact (h : Built reported logged u) (hr : Reported blake3 reported)
    (hheld : Held reported c.history) : Exact blake3 reported c u := fun b t hb ht => by
  obtain ⟨last, hlast, hnum, hseq, happly⟩ := h.apply_eq hr hheld hb
  rw [happly] at ht
  exact ⟨last, hlast, hnum, hseq, Except.ok.inj ht⟩

theorem ClientScreen.ApplyStep.num_le (h : ClientScreen.ApplyStep blake3 c u via r) :
    c.resyncs ≤ r.1.resyncs ∧ (r.1.resyncs = c.resyncs → c.num ≤ r.1.num) := by
  cases h with
  | ignored | stale => exact ⟨le_rfl, fun _ => le_rfl⟩
  | resync reason hfresh hwhy => exact ⟨Nat.le_succ _, fun heq => absurd heq (Nat.succ_ne_self _)⟩
  | applied b t hfresh hbase happly =>
    refine ⟨le_rfl, fun _ => ?_⟩
    have hnum : (c.hold u t).num = u.newNum := by
      rw [ClientScreen.num, ClientScreen.getLast?_hold]
      rfl
    rw [hnum]
    by_cases hzero : c.num = 0
    · omega
    · exact (hfresh hzero).1

end Client

/-! ## Parts of several encodings -/

/-- The part in the first place starts with the header of an update that was
built for the state. -/
def Headed (reported : List Cut) (logged : List (Nat × Effect)) (n _parts i : Nat)
    (data : List UInt8) : Prop :=
  i = 0 → ∃ u, Built reported logged u ∧ u.newNum = n ∧ ∃ tail, data = u.header ++ tail

theorem Headed.mono {reported : List Cut} {logged : List (Nat × Effect)} {n parts i : Nat}
    {data : List UInt8} (h : Headed reported logged n parts i data) (more : List Cut)
    (later : List (Nat × Effect)) : Headed (reported ++ more) (logged ++ later) n parts i data :=
  fun hi => by
    obtain ⟨u, hu, hnum, htail⟩ := h hi
    exact ⟨u, hu.mono more later, hnum, htail⟩

theorem Datagram.headed {reported : List Cut} {logged : List (Nat × Effect)} {d : Datagram}
    (h : Built reported logged d.update) (hhead : d.update.header.length ≤ d.budget) :
    Headed reported logged d.part.newNum d.part.parts d.part.part d.part.data := by
  intro hzero
  have hzero : d.index = 0 := hzero
  have hdata : d.part.data = d.update.encode.take (max d.budget 1) := by
    show chunk (max d.budget 1) d.update.encode d.index = _
    rw [hzero, chunk_zero]
  rw [ScreenUpdate.encode, take_append,
    take_of_length_le (by omega)] at hdata
  exact ⟨d.update, h, rfl, _, hdata⟩

theorem header_of_headed {reported : List Cut} {logged : List (Nat × Effect)} {n parts : Nat}
    {ds : List (List UInt8)} (hpos : 0 < ds.length)
    (hds : ∀ i data, ds[i]? = some data → Headed reported logged n parts i data)
    {u : ScreenUpdate} (hdec : ScreenUpdate.decode ds.flatten = .ok u) :
    ∃ u₀, Built reported logged u₀ ∧ u.newNum = u₀.newNum ∧ u.outputSeq = u₀.outputSeq ∧
      u.stateHash = u₀.stateHash := by
  cases ds with
  | nil => exact absurd hpos (lt_irrefl 0)
  | cons first rest =>
    obtain ⟨u₀, hu₀, -, tail, rfl⟩ := hds 0 first rfl rfl
    rw [flatten_cons, append_assoc] at hdec
    exact ⟨u₀, hu₀, (ScreenUpdate.header_of_decode hdec).2⟩

namespace Wire

variable {E : Emulator}

/-- The screen that the datagram at `i` gives the client, if it completes an
update that passes the check. -/
def completedState (blake3 : List UInt8 → Hash) (w : Wire E) (i : Nat) : Option ScreenState :=
  (w.completed i).bind fun u => (w.client.base? u).bind fun b => (u.apply blake3 b).toOption

/-- The header of the update since `base` lies inside its first datagram. -/
def HeaderFits (blake3 : List UInt8 → Hash) (w : Wire E) (base budget : Nat) : Prop :=
  ∀ u ∈ (w.host.updateSince blake3 base).2, u.header.length ≤ budget

/-- The screen that the datagram at `i` gives does not have the hash of another
one that the host reported. -/
def NoCollision (blake3 : List UInt8 → Hash) (w : Wire E) (i : Nat) : Prop :=
  ∀ t ∈ w.completedState blake3 i, t.IsValid →
    ∀ k ∈ w.reported, t.hash blake3 = k.state.hash blake3 → t = k.state

def Assumed (blake3 : List UInt8 → Hash) (w : Wire E) : WireOp → Prop
  | .sendDatagram base budget => w.HeaderFits blake3 base budget
  | .refuseDatagram base budget _ => w.HeaderFits blake3 base budget
  | .deliverDatagram i => w.NoCollision blake3 i
  | _ => True

instance (blake3 : List UInt8 → Hash) (w : Wire E) (op : WireOp) :
    Decidable (w.Assumed blake3 op) := by
  unfold Assumed HeaderFits NoCollision
  cases op <;> infer_instance

/-- What holds in every state of a run on these terms. -/
structure Faithful (blake3 : List UInt8 → Hash) (w : Wire E) : Prop where
  wire : WireInv blake3 w
  headers : ∀ d ∈ w.datagrams, d.update.header.length ≤ d.budget
  filled : DatagramReassembler.Filled (Headed w.reported w.logged) w.client.datagramParts
  shows : Shows w.reported w.client

variable {blake3 : List UInt8 → Hash} {w w' : Wire E}

theorem new_faithful (rows cols : Nat) : Faithful blake3 (new E rows cols) where
  wire := new_inv rows cols
  headers _ hd := absurd hd not_mem_nil
  filled := .of_empty rfl rfl rfl
  shows := ⟨fun _ hp => absurd hp not_mem_nil, nofun⟩

theorem Faithful.cut (hw : Faithful blake3 w) : Faithful blake3 (w.cut blake3) where
  wire := hw.wire.cut
  headers := hw.headers
  filled := hw.filled.mono fun _ _ _ _ h => h.mono _ _
  shows := hw.shows.append _

variable {base : Nat}

section

variable (hw : Faithful blake3 w)
include hw

theorem Faithful.sendStream (h : w.sendStream blake3 base = some w') : Faithful blake3 w' := by
  have hwire := hw.wire.sendStream h
  rcases sendStream_cases h with ⟨-, rfl⟩ | ⟨u, -, -, rfl⟩
  · exact hw.cut
  · exact { hw.cut with wire := hwire }

theorem Faithful.sendDatagram {budget : Nat} (hhead : w.HeaderFits blake3 base budget)
    (h : w.sendDatagram blake3 base budget = some w') : Faithful blake3 w' := by
  have hwire := hw.wire.sendDatagram h
  rcases sendDatagram_cases h with ⟨-, rfl⟩ | ⟨u, hu, -, rfl⟩
  · exact hw.cut
  refine { hw.cut with wire := hwire, headers := fun d hd => ?_ }
  rcases mem_append.1 hd with hd | hd
  · exact hw.headers d hd
  · obtain ⟨hupdate, hbudget⟩ := mem_partsSized hd
    rw [hupdate, hbudget]
    exact hhead u hu

theorem Faithful.lose {ds : List Datagram}
    (hds : ∀ d ∈ ds, d ∈ w.datagrams) : Faithful blake3 { w with datagrams := ds } :=
  { hw with
    wire := hw.wire.lose hds
    headers := fun d hd => hw.headers d (hds d hd) }

theorem Faithful.deliverStream (h : w.deliverStream blake3 = some w') : Faithful blake3 w' := by
  have hwire := hw.wire.deliverStream h
  obtain ⟨p, rest, parts, -, hbuilt, -, hcase⟩ := hw.wire.deliverStream_cases h
  have hshows : Shows w.reported { w.client with parts := parts } :=
    ⟨hw.shows.held, hw.shows.seq⟩
  rcases hcase with ⟨-, rfl⟩ | ⟨r, -, hstep, rfl⟩
  · exact ⟨hwire, hw.headers, hw.filled, hshows⟩
  refine ⟨hwire, hw.headers, ?_, hshows.apply (hbuilt.exact hw.wire.reported hshows.held) hstep⟩
  show DatagramReassembler.Filled _ r.1.datagramParts
  rw [hstep.parts.2]
  exact hw.filled

theorem Faithful.push {d : Datagram} (hd : d ∈ w.datagrams) :
    DatagramReassembler.Filled (Headed w.reported w.logged) (w.client.datagramParts.push d.part).1 ∧
      ∀ bytes, (w.client.datagramParts.push d.part).2 = .ok (some bytes) →
        ∃ ds : List (List UInt8), ds.length = d.part.parts ∧ bytes = ds.flatten ∧
          ∀ i data, ds[i]? = some data →
            Headed w.reported w.logged d.part.newNum d.part.parts i data :=
  DatagramReassembler.push_spec (fun _ => hw.filled)
    fun _ => d.headed (hw.wire.datagrams d hd) (hw.headers d hd)

theorem Faithful.exact {i : Nat} {u : ScreenUpdate}
    (hu : w.completed i = some u) (hfree : w.NoCollision blake3 i) :
    Exact blake3 w.reported w.client u := by
  intro b t hb ht
  obtain ⟨d, hd, hdone⟩ := bind_eq_some_iff.1 hu
  obtain ⟨bytes, hbytes, hdec⟩ := ClientScreen.decoded_eq_some hdone
  obtain ⟨ds, hlen, rfl, hds⟩ := (hw.push (mem_of_getElem? hd)).2 bytes hbytes
  obtain ⟨u₀, hu₀, hnum, hseq, hhash⟩ :=
    header_of_headed (hlen ▸ chunkCount_pos _ _) hds hdec
  obtain ⟨last, hlast, hnew, hoffset, hlasthash, -⟩ := hu₀.target
  obtain ⟨happly, hcheck⟩ := ScreenUpdate.apply_eq_ok_iff.1 ht
  have hvalid : t.IsValid := by
    have hsafe := ScreenDiff.safe_apply u.diff (hw.shows.held.base?_isValid hw.wire.reported hb)
    rw [happly] at hsafe
    exact hsafe
  have hstate : w.completedState blake3 i = some t := by
    rw [completedState, hu, bind_some, hb, bind_some, ht]
    rfl
  refine ⟨last, hlast, (hnum.trans hnew).symm, (hseq.trans hoffset).symm, ?_⟩
  refine (hfree t hstate hvalid last hlast ?_).symm
  rw [hcheck, hhash, hlasthash, (hw.wire.reported.states last hlast).2]

theorem Faithful.deliverDatagram {i : Nat}
    (hfree : w.NoCollision blake3 i) (h : w.deliverDatagram blake3 i = some w') :
    Faithful blake3 w' := by
  have hwire := hw.wire.deliverDatagram h
  obtain ⟨d, parts, building, hd, rfl, -, hcase⟩ := deliverDatagram_cases h
  have hfilled := (hw.push (mem_of_getElem? hd)).1
  rcases hcase with ⟨dropped, -, rfl⟩ | ⟨u, r, hu, hstep, rfl⟩
  · exact ⟨hwire, hw.headers, hfilled, hw.shows.held, hw.shows.seq⟩
  have hshows : Shows w.reported
      { w.client with datagramParts := (w.client.datagramParts.push d.part).1 } :=
    ⟨hw.shows.held, hw.shows.seq⟩
  refine ⟨hwire, hw.headers, ?_, hshows.apply (hw.exact hu hfree) hstep⟩
  show DatagramReassembler.Filled _ r.1.datagramParts
  rw [hstep.parts.2]
  exact hfilled

end

theorem step_faithful {op : WireOp} (hop : w.Assumed blake3 op)
    (h : w.step blake3 op = some w') (hw : Faithful blake3 w) : Faithful blake3 w' := by
  have hwire := step_inv h hw.wire
  cases op with
  | feed data endSeq =>
    rw [step] at h
    split_ifs at h with hseq
    cases h
    exact { hw with wire := hwire }
  | resize rows cols =>
    cases h
    exact { hw with wire := hwire }
  | cut =>
    cases h
    exact hw.cut
  | sendStream base => exact hw.sendStream h
  | sendDatagram base budget => exact hw.sendDatagram hop h
  | refuseDatagram base budget sent =>
    obtain ⟨v, hv, rfl⟩ := refuseDatagram_cases h
    exact (hw.sendDatagram hop hv).lose fun d hd => mem_of_mem_take hd
  | deliverStream => exact hw.deliverStream h
  | deliverDatagram i => exact hw.deliverDatagram hop h
  | loseDatagram i =>
    cases h
    exact hw.lose fun d hd => mem_of_mem_eraseIdx hd

/-! ## Runs -/

theorem client_sendStream (h : w.sendStream blake3 base = some w') :
    w'.client = w.client := by
  rcases sendStream_cases h with ⟨-, rfl⟩ | ⟨u, -, -, rfl⟩
  · rfl
  · rfl

theorem client_sendDatagram {budget : Nat}
    (h : w.sendDatagram blake3 base budget = some w') : w'.client = w.client := by
  rcases sendDatagram_cases h with ⟨-, rfl⟩ | ⟨u, -, -, rfl⟩
  · rfl
  · rfl

theorem step_num_le {op : WireOp} (h : w.step blake3 op = some w') (hw : WireInv blake3 w) :
    w.client.resyncs ≤ w'.client.resyncs ∧
      (w'.client.resyncs = w.client.resyncs → w.client.num ≤ w'.client.num) := by
  have hsame : ∀ {v : Wire E}, v.client = w.client → w.client.resyncs ≤ v.client.resyncs ∧
        (v.client.resyncs = w.client.resyncs → w.client.num ≤ v.client.num) := fun hv => by
    rw [hv]
    exact ⟨le_rfl, fun _ => le_rfl⟩
  cases op with
  | feed data endSeq =>
    rw [step] at h
    split_ifs at h with hseq
    cases h
    exact hsame rfl
  | resize | cut | loseDatagram =>
    cases h
    exact hsame rfl
  | sendStream base => exact hsame (client_sendStream h)
  | sendDatagram base budget => exact hsame (client_sendDatagram h)
  | refuseDatagram base budget sent =>
    obtain ⟨v, hv, rfl⟩ := refuseDatagram_cases h
    have hclient := client_sendDatagram hv
    exact hsame hclient
  | deliverStream =>
    obtain ⟨p, rest, parts, -, -, -, ⟨-, rfl⟩ | ⟨r, -, hstep, rfl⟩⟩ := hw.deliverStream_cases h
    · exact ⟨le_rfl, fun _ => le_rfl⟩
    · exact hstep.num_le
  | deliverDatagram i =>
    obtain ⟨d, parts, building, -, -, -, ⟨dropped, -, rfl⟩ | ⟨u, r, -, hstep, rfl⟩⟩ :=
      deliverDatagram_cases h
    · exact ⟨le_rfl, fun _ => le_rfl⟩
    · exact hstep.num_le

theorem run_num_le {C : Wire E → WireOp → Prop} {ops : List WireOp}
    (h : Lib.Run (step blake3) C w ops w') (hw : WireInv blake3 w)
    (hsame : w'.client.resyncs = w.client.resyncs) : w.client.num ≤ w'.client.num := by
  have hrun := h.invariant (I := fun v => WireInv blake3 v ∧ w.client.resyncs ≤ v.client.resyncs ∧
      (v.client.resyncs = w.client.resyncs → w.client.num ≤ v.client.num))
    (fun v op v' _ hstep ⟨hv, hle, hnum⟩ => by
      obtain ⟨hle', hnum'⟩ := step_num_le hstep hv
      exact ⟨step_inv hstep hv, by omega, fun heq => le_trans (hnum (by omega)) (hnum' (by omega))⟩)
    ⟨hw, le_rfl, fun _ => le_rfl⟩
  exact hrun.2.2 hsame

/-- The host cut `s`, and no other state, under the number `n`. -/
def CutAs (w : Wire E) (n : Nat) (s : ScreenState) : Prop :=
  (∃ k ∈ w.reported, k.info.num = n) ∧ ∀ k ∈ w.reported, k.info.num = n → k.state = s

/-- In every run, whatever the host sends and whatever becomes of the
datagrams: the client shows the state that the host cut under the number shown,
with an offset that the host reported for it; every state that the client keeps
is the host's; and from there on the number does not go down until the client
asks for the full screen. -/
theorem client_screen_faithful {rows cols : Nat} {ops : List WireOp}
    (hrun : Lib.Run (step blake3) (Assumed blake3) (new E rows cols) ops w) :
    (∀ s, w.client.state = some s → w.CutAs w.client.num s ∧
      ∃ k ∈ w.reported, k.info.num = w.client.num ∧ k.state = s ∧
        k.info.outputSeq = w.client.outputSeq) ∧
    (∀ p ∈ w.client.history, w.CutAs p.1 p.2) ∧
    ∀ {ops' : List WireOp} {w' : Wire E}, Lib.Run (step blake3) (Assumed blake3) w ops' w' →
      w'.client.resyncs = w.client.resyncs → w.client.num ≤ w'.client.num := by
  have hw : Faithful blake3 w :=
    hrun.invariant (fun _ _ _ hop hstep hv => step_faithful hop hstep hv) (new_faithful rows cols)
  have hcut : ∀ p ∈ w.client.history, w.CutAs p.1 p.2 := fun p hp => by
    obtain ⟨k, hk, hnum, hstate⟩ := hw.shows.held p hp
    exact ⟨⟨k, hk, hnum⟩, fun k' hk' hnum' =>
      (hw.wire.reported.same k' hk' k hk (hnum'.trans hnum.symm)).trans hstate⟩
  refine ⟨fun s hs => ?_, hcut, fun hrun' hsame => run_num_le hrun' hw.wire hsame⟩
  obtain ⟨p, hp, rfl⟩ := map_eq_some_iff.1 hs
  have hnum : w.client.num = p.1 := by
    rw [ClientScreen.num, hp]
    rfl
  have hshown := hcut p (mem_of_getLast? hp)
  obtain ⟨k, hk, hknum, hseq⟩ := hw.shows.seq p hp
  rw [hnum]
  exact ⟨hshown, k, hk, hknum, hshown.2 k hk hknum, hseq⟩

/-- State 1 arrives on the stream.  State 2 goes in two datagrams: the first one
arrives late, and the second one twice. -/
theorem client_screen_faithful_twoParts :
    ∃ (w w' : Wire HostScreen.bellTerminal) (s : ScreenState),
      Lib.Run (step HostScreen.zeroHash) (Assumed HostScreen.zeroHash)
        (new HostScreen.bellTerminal 1 1) [.sendStream 0, .deliverStream] w ∧
      Lib.Run (step HostScreen.zeroHash) (Assumed HostScreen.zeroHash) w
        [.feed [7] 1, .sendDatagram 1 16, .deliverDatagram 1, .deliverDatagram 1,
          .deliverDatagram 0] w' ∧
      w.client.num = 1 ∧ w'.client.num = 2 ∧ w.client.state = some s ∧ w.CutAs 1 s ∧
      w.client.num ≤ w'.client.num := by
  have hplayed : ((execWhere (step HostScreen.zeroHash) (Assumed HostScreen.zeroHash)
        (new HostScreen.bellTerminal 1 1) [.sendStream 0, .deliverStream]).bind fun w =>
          (execWhere (step HostScreen.zeroHash) (Assumed HostScreen.zeroHash) w
            [.feed [7] 1, .sendDatagram 1 16, .deliverDatagram 1, .deliverDatagram 1,
              .deliverDatagram 0]).bind fun w' =>
            if w.client.num = 1 ∧ w'.client.num = 2 ∧ w'.client.resyncs = w.client.resyncs then
              w.client.state
            else none).isSome = true := by
    decide +kernel
  obtain ⟨s, hs⟩ := isSome_iff_exists.1 hplayed
  obtain ⟨w, hw, hs⟩ := bind_eq_some_iff.1 hs
  obtain ⟨w', hw', hs⟩ := bind_eq_some_iff.1 hs
  split_ifs at hs with hnums
  obtain ⟨hnum, hnum', hsame⟩ := hnums
  have hrun : Lib.Run (step HostScreen.zeroHash) (Assumed HostScreen.zeroHash) _ _ w :=
    .of_execWhere hw
  have hrun' : Lib.Run (step HostScreen.zeroHash) (Assumed HostScreen.zeroHash) w _ w' :=
    .of_execWhere hw'
  obtain ⟨hshown, -, hup⟩ := client_screen_faithful hrun
  exact ⟨w, w', s, hrun, hrun', hnum, hnum', hs, hnum ▸ (hshown s hs).1, hup hrun' hsame⟩

end Wire

end Qsh.Screen
