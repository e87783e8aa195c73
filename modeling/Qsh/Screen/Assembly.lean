import Qsh.Screen.WireRuns

/-!
# Assemblies of one encoding

The parts of two encodings of one state have the same number, and if they are
as many they meet in one assembly of the client's datagram reassembler.
`OneEncoding` is that this does not happen to a datagram that arrives.

`Whole` is what follows for runs in which it never happens: what is in the
slots are the chunks of the update that began the assembly, so every update
that a datagram completes is one that the host built.
-/

namespace Qsh.Screen

open Qsh.Lib List

def Slice (building : Option Datagram) (n parts i : Nat) (data : List UInt8) : Prop :=
  ∃ b ∈ building, n = b.update.newNum ∧ parts = chunkCount (max b.budget 1) b.update.encode ∧
    data = chunk (max b.budget 1) b.update.encode i

theorem Datagram.slice {d b : Datagram} {building : Option Datagram} (hb : b ∈ building)
    (hupdate : b.update = d.update) (hbudget : b.budget = d.budget) :
    Slice building d.part.newNum d.part.parts d.part.part d.part.data := by
  refine ⟨b, hb, ?_⟩
  rw [hupdate, hbudget]
  exact ⟨rfl, rfl, rfl⟩

theorem flatten_of_slices {b : Datagram} {n parts : Nat} {ds : List (List UInt8)}
    (hlen : ds.length = parts) (hpos : 0 < parts)
    (hds : ∀ i data, ds[i]? = some data → Slice (some b) n parts i data) :
    ds.flatten = b.update.encode := by
  have hcount : parts = chunkCount (max b.budget 1) b.update.encode := by
    obtain ⟨b', hb', -, hparts, -⟩ := hds 0 _ (getElem?_eq_getElem (hlen ▸ hpos))
    cases hb'
    exact hparts
  have hchunks : ds = (range parts).map (chunk (max b.budget 1) b.update.encode) := by
    refine ext_getElem (by rw [hlen, length_map, length_range]) fun i hi hi' => ?_
    obtain ⟨b', hb', -, -, hdata⟩ := hds i _ (getElem?_eq_getElem hi)
    cases hb'
    rw [hdata, getElem_map, getElem_range]
  rw [hchunks, hcount, flatten_chunks (by omega)]

namespace Wire

variable {E : Emulator}

/-- If the datagram at `i` joins an assembly, it is of the encoding that began
it. -/
def OneEncoding (w : Wire E) (i : Nat) : Prop :=
  ∀ d ∈ w.datagrams[i]?, w.client.datagramParts.Joins d.part →
    ∃ b ∈ w.building, b.update = d.update ∧ b.budget = d.budget

instance (w : Wire E) (i : Nat) : Decidable (w.OneEncoding i) := by
  unfold OneEncoding
  infer_instance

/-- What holds in every state of a run without mixtures. -/
structure Whole (blake3 : List UInt8 → Hash) (w : Wire E) : Prop where
  wire : WireInv blake3 w
  building : ∀ b ∈ w.building, Built w.reported w.logged b.update
  filled : DatagramReassembler.Filled (Slice w.building) w.client.datagramParts

variable {blake3 : List UInt8 → Hash} {w w' : Wire E}

theorem new_whole (rows cols : Nat) : Whole blake3 (new E rows cols) where
  wire := new_inv rows cols
  building := nofun
  filled := .of_empty rfl rfl rfl

theorem Whole.cut (hw : Whole blake3 w) : Whole blake3 (w.cut blake3) where
  wire := hw.wire.cut
  building b hb := (hw.building b hb).mono _ _
  filled := hw.filled

theorem Whole.sendDatagram (hw : Whole blake3 w) {base budget : Nat}
    (h : w.sendDatagram blake3 base budget = some w') : Whole blake3 w' := by
  have hwire := hw.wire.sendDatagram h
  rcases sendDatagram_cases h with ⟨-, rfl⟩ | ⟨u, -, -, rfl⟩
  · exact hw.cut
  · exact { hw.cut with wire := hwire }

variable {i : Nat}

section

variable (hw : Whole blake3 w)
include hw

theorem Whole.push (hone : w.OneEncoding i) {d : Datagram}
    (hd : w.datagrams[i]? = some d) {building : Option Datagram}
    (hbuilding : building =
      if w.client.datagramParts.Begins d.part then some d else w.building) :
    (∀ b ∈ building, Built w.reported w.logged b.update) ∧
      DatagramReassembler.Filled (Slice building) (w.client.datagramParts.push d.part).1 ∧
      ∀ bytes, (w.client.datagramParts.push d.part).2 = .ok (some bytes) →
        ∃ b ∈ building, bytes = b.update.encode := by
  have hbuilt : ∀ b ∈ building, Built w.reported w.logged b.update := by
    intro b hb
    rw [hbuilding] at hb
    split_ifs at hb with hbegins
    · cases hb
      exact hw.wire.datagrams _ (mem_of_getElem? hd)
    · exact hw.building b hb
  obtain ⟨hfilled, hdone⟩ := DatagramReassembler.push_spec (P := Slice building)
    (r := w.client.datagramParts) (p := d.part)
    (fun hold => by
      rw [hbuilding, if_neg hold]
      exact hw.filled)
    (fun hplace => by
      by_cases hbegins : w.client.datagramParts.Begins d.part
      · rw [hbuilding, if_pos hbegins]
        exact Datagram.slice rfl rfl rfl
      · obtain ⟨b, hb, hupdate, hbudget⟩ := hone d hd (hplace.resolve_right hbegins)
        rw [hbuilding, if_neg hbegins]
        exact Datagram.slice hb hupdate hbudget)
  refine ⟨hbuilt, hfilled, fun bytes hbytes => ?_⟩
  obtain ⟨ds, hlen, rfl, hds⟩ := hdone bytes hbytes
  have hpos : 0 < d.part.parts := chunkCount_pos _ _
  obtain ⟨b, hb, -⟩ := hds 0 _ (getElem?_eq_getElem (hlen ▸ hpos))
  rw [hb] at hds ⊢
  exact ⟨b, rfl, flatten_of_slices hlen hpos hds⟩

theorem Whole.completed_built (hone : w.OneEncoding i)
    {u : ScreenUpdate} (hu : w.completed i = some u) : Built w.reported w.logged u := by
  obtain ⟨d, hd, hdone⟩ := Option.bind_eq_some_iff.1 hu
  obtain ⟨bytes, hbytes, hdec⟩ := ClientScreen.decoded_eq_some hdone
  obtain ⟨hbuilt, -, hwhole⟩ := hw.push hone hd rfl
  obtain ⟨b, hb, rfl⟩ := hwhole bytes hbytes
  rw [(hbuilt b hb).eq_of_decode hw.wire.reported hdec]
  exact hbuilt b hb

theorem Whole.deliverStream (h : w.deliverStream blake3 = some w') :
    Whole blake3 w' := by
  have hwire := hw.wire.deliverStream h
  obtain ⟨p, rest, parts, -, -, -, ⟨-, rfl⟩ | ⟨r, -, hstep, rfl⟩⟩ := hw.wire.deliverStream_cases h
  · exact ⟨hwire, hw.building, hw.filled⟩
  refine ⟨hwire, hw.building, ?_⟩
  show DatagramReassembler.Filled (Slice w.building) r.1.datagramParts
  rw [hstep.parts.2]
  exact hw.filled

theorem Whole.deliverDatagram (hone : w.OneEncoding i)
    (h : w.deliverDatagram blake3 i = some w') : Whole blake3 w' := by
  have hwire := hw.wire.deliverDatagram h
  obtain ⟨d, parts, building, hd, rfl, hbuilding, hcase⟩ := deliverDatagram_cases h
  obtain ⟨hbuilt, hfilled, -⟩ := hw.push hone hd hbuilding
  rcases hcase with ⟨dropped, -, rfl⟩ | ⟨u, r, -, hstep, rfl⟩
  · exact ⟨hwire, hbuilt, hfilled⟩
  refine ⟨hwire, hbuilt, ?_⟩
  show DatagramReassembler.Filled (Slice building) r.1.datagramParts
  rw [hstep.parts.2]
  exact hfilled

end

theorem step_whole {op : WireOp} (hone : ∀ i, op = .deliverDatagram i → w.OneEncoding i)
    (h : w.step blake3 op = some w') (hw : Whole blake3 w) : Whole blake3 w' := by
  have hwire := step_inv h hw.wire
  cases op with
  | feed data endSeq =>
    rw [step] at h
    split_ifs at h with hseq
    cases h
    exact { hw with wire := hwire }
  | resize | loseDatagram =>
    cases h
    exact { hw with wire := hwire }
  | cut =>
    cases h
    exact hw.cut
  | sendStream base =>
    rcases sendStream_cases h with ⟨-, rfl⟩ | ⟨u, -, -, rfl⟩
    · exact hw.cut
    · exact { hw.cut with wire := hwire }
  | sendDatagram base budget => exact hw.sendDatagram h
  | refuseDatagram base budget sent =>
    obtain ⟨v, hv, rfl⟩ := refuseDatagram_cases h
    exact { hw.sendDatagram hv with wire := hwire }
  | deliverStream => exact hw.deliverStream h
  | deliverDatagram i => exact hw.deliverDatagram (hone i rfl) h

end Wire

/-! ## Mixtures -/

/-- The parts of what the host sends as datagrams: updates, each with the part
size of its moment. -/
def sentParts (sends : List (ScreenUpdate × Nat)) : List Part :=
  sends.flatMap fun s => (partsSized s.1 s.2).map Datagram.part

def placed (n : Nat) (ds : List (List UInt8)) : List Part :=
  ds.mapIdx fun i data => ⟨n, i, ds.length, data⟩

/-- Parts that were sent for one state and one part count, one for each place,
are always the encoding of an update that was sent. -/
def MixClosed (sends : List (ScreenUpdate × Nat)) : Prop :=
  ∀ n ds, ds ≠ [] → ds.length ≤ MAX_DATAGRAM_PARTS →
    (∀ p ∈ placed n ds, p ∈ sentParts sends ∧ p.data.length ≤ PART_MAX) →
    ∃ s ∈ sends, ds.flatten = s.1.encode

namespace DatagramReassembler

def feed (ps : List Part) : DatagramReassembler :=
  ps.foldl (fun r p => (r.push p).1) new

variable {r : DatagramReassembler} {p : Part}

theorem fill_bytes_le (h : r.bytes ≤ MAX_UPDATE_BYTES) :
    (r.fill p).1.bytes ≤ MAX_UPDATE_BYTES := by
  unfold fill
  split_ifs with hthere hcap hlast
  · exact h
  · exact Nat.zero_le _
  · exact Nat.zero_le _
  · exact not_lt.1 hcap

theorem feed_bytes_le (ps : List Part) : (feed ps).bytes ≤ MAX_UPDATE_BYTES := by
  refine List.foldlRecOn ps _ (motive := fun r : DatagramReassembler => r.bytes ≤ _)
    (Nat.zero_le _) ?_
  intro r hr p _
  rcases push_cases r p with ⟨-, out, h, -⟩ | ⟨-, e, h⟩ | ⟨-, -, -, -, h⟩ | ⟨-, h⟩ <;> rw [h]
  · exact hr
  · exact Nat.zero_le _
  · exact fill_bytes_le hr
  · exact fill_bytes_le (Nat.zero_le _)

theorem push_of_begins (h : r.Begins p) :
    r.push p = (r.start p).fill p := by
  rcases push_cases r p with ⟨hnot, -⟩ | ⟨hnot, -⟩ | ⟨hnot, -⟩ | ⟨-, hpush⟩
  · exact absurd h hnot
  · exact absurd h hnot
  · exact absurd h hnot
  · exact hpush

theorem push_of_joins
    (hp : p.part < p.parts ∧ p.parts ≤ MAX_DATAGRAM_PARTS ∧ p.data.length ≤ PART_MAX)
    (hdone : r.done ≤ p.newNum) (hnum : p.newNum = r.newNum) (hcount : p.parts = r.parts) :
    r.push p = r.fill p := by
  unfold push
  rw [if_neg (by omega), if_neg (by omega), if_neg (by omega), if_neg (by omega), if_neg (by omega)]

/-- The part was sent, and a client takes parts of its size. -/
def Sent (sends : List (ScreenUpdate × Nat)) (n k i : Nat) (data : List UInt8) : Prop :=
  ⟨n, i, k, data⟩ ∈ sentParts sends ∧ k ≤ MAX_DATAGRAM_PARTS ∧ data.length ≤ PART_MAX

theorem push_sent {sends : List (ScreenUpdate × Nat)}
    (hr : Filled (Sent sends) r) (hp : p ∈ sentParts sends) :
    Filled (Sent sends) (r.push p).1 ∧ ∀ bytes, (r.push p).2 = .ok (some bytes) →
      ∃ ds : List (List UInt8), ds.length = p.parts ∧ bytes = ds.flatten ∧
        ∀ i data, ds[i]? = some data → Sent sends p.newNum p.parts i data := by
  by_cases hfits : p.parts ≤ MAX_DATAGRAM_PARTS ∧ p.data.length ≤ PART_MAX
  · exact push_spec (fun _ => hr) fun _ => ⟨hp, hfits⟩
  -- such a part is refused
  unfold push
  split_ifs with hnum hlen
  · exact ⟨hr, nofun⟩
  · exact ⟨hr, nofun⟩
  all_goals omega

theorem feed_sent {sends : List (ScreenUpdate × Nat)} {ps : List Part}
    (h : ∀ p ∈ ps, p ∈ sentParts sends) : Filled (Sent sends) (feed ps) :=
  List.foldlRecOn ps _ (motive := Filled (Sent sends)) (.of_empty rfl rfl rfl)
    fun _ hr p hp => (push_sent hr (h p hp)).1

def holding (n : Nat) (ds : List (List UInt8)) (j : Nat) : DatagramReassembler where
  newNum := n
  done := 0
  parts := ds.length
  got := j
  slots := (ds.take j).map some ++ replicate (ds.length - j) none
  bytes := (ds.take j).flatten.length

variable {n : Nat} {ds : List (List UInt8)} {sends : List (ScreenUpdate × Nat)}

theorem fill_holding {j : Nat} (hj : j < ds.length) (hfits : ds.flatten.length ≤ MAX_UPDATE_BYTES) :
    (holding n ds j).fill ⟨n, j, ds.length, ds.get ⟨j, hj⟩⟩ =
      if j + 1 = ds.length then ({ (holding n ds j).reset with done := n }, .ok (some ds.flatten))
      else (holding n ds (j + 1), .ok none) := by
  have hlen : ((ds.take j).map some).length = j := by
    rw [length_map, length_take_of_le hj.le]
  have htake : ds.take (j + 1) = ds.take j ++ [ds.get ⟨j, hj⟩] := take_succ_eq_append_getElem hj
  have hsum : (ds.take (j + 1)).flatten.length ≤ ds.flatten.length := by
    conv_rhs => rw [← take_append_drop (j + 1) ds, flatten_append, length_append]
    omega
  rw [htake, flatten_append, length_append, flatten_singleton] at hsum
  have hslots : (holding n ds j).slots.set j (some (ds.get ⟨j, hj⟩)) =
      (holding n ds (j + 1)).slots := by
    show ((ds.take j).map some ++ replicate (ds.length - j) none).set j _ = _
    rw [set_append_right _ _ hlen.le, hlen, Nat.sub_self,
      show ds.length - j = ds.length - (j + 1) + 1 by omega, replicate_succ, set_cons_zero]
    simp only [holding, htake, map_append, append_assoc]
    rfl
  have hempty : ¬((holding n ds j).slots[j]?.getD none).isSome = true := by
    show ¬((((ds.take j).map some ++ replicate (ds.length - j) none)[j]?).getD none).isSome = true
    rw [getElem?_append_right hlen.le, hlen, Nat.sub_self, getElem?_replicate]
    split_ifs <;> simp
  unfold fill
  have hroom : ¬MAX_UPDATE_BYTES < (holding n ds j).bytes + (ds.get ⟨j, hj⟩).length :=
    not_lt.2 (le_trans hsum hfits)
  rw [if_neg hempty, if_neg hroom, hslots]
  show (if j + 1 = ds.length then _ else _) = _
  split_ifs with hlast
  · simp only [holding, hlast, Nat.sub_self, replicate_zero, append_nil,
      take_length, filterMap_map, Function.id_comp, filterMap_some]
  · simp only [holding, htake, flatten_append, length_append, flatten_singleton]

theorem push_placed (hne : ds ≠ []) (hk : ds.length ≤ MAX_DATAGRAM_PARTS)
    (hdata : ∀ data ∈ ds, data.length ≤ PART_MAX) :
    ∃ ps p, placed n ds = ps ++ [p] ∧ ((feed ps).push p).2 = .ok (some ds.flatten) := by
  have hpos : 0 < ds.length := length_pos_iff.2 hne
  have hfits : ds.flatten.length ≤ MAX_UPDATE_BYTES :=
    (length_flatten_le hdata).trans ((Nat.mul_le_mul_right PART_MAX hk).trans (by decide))
  have hplaced : ∀ j (hj : j < ds.length), (placed n ds).take (j + 1) =
      (placed n ds).take j ++ [⟨n, j, ds.length, ds.get ⟨j, hj⟩⟩] := by
    intro j hj
    rw [take_succ_eq_append_getElem (by rwa [placed, length_mapIdx])]
    simp only [placed, getElem_mapIdx]
    rfl
  have hpush : ∀ j (hj : j < ds.length), (feed ((placed n ds).take j)).push
      ⟨n, j, ds.length, ds.get ⟨j, hj⟩⟩ =
        (holding n ds j).fill ⟨n, j, ds.length, ds.get ⟨j, hj⟩⟩ := by
    intro j
    induction j with intro hj
    | zero =>
      exact push_of_begins ⟨⟨hj, hk, hdata _ (getElem_mem hj)⟩, Nat.zero_le _, .inl rfl⟩
    | succ j ih =>
      have hfeed : feed ((placed n ds).take (j + 1)) = holding n ds (j + 1) := by
        rw [hplaced j (by omega), feed, foldl_append, foldl_cons, foldl_nil]
        show ((feed ((placed n ds).take j)).push _).1 = _
        rw [ih (by omega), fill_holding (by omega) hfits, if_neg (by omega)]
      rw [hfeed]
      exact push_of_joins ⟨hj, hk, hdata _ (getElem_mem hj)⟩ (Nat.zero_le _) rfl rfl
  obtain ⟨k, hlast⟩ := Nat.exists_eq_succ_of_ne_zero hpos.ne'
  refine ⟨(placed n ds).take k, ⟨n, k, ds.length, ds.get ⟨k, by omega⟩⟩, ?_, ?_⟩
  · rw [← hplaced k (by omega), take_of_length_le]
    rw [placed, length_mapIdx]
    omega
  · rw [hpush k (by omega), fill_holding (by omega) hfits, if_pos hlast.symm]

end DatagramReassembler

/-- The parts of a delivery complete to an update that was sent, whatever was
lost, repeated or reordered, exactly if mixing what was sent gives nothing
new. -/
theorem push_sent_iff_mixClosed (sends : List (ScreenUpdate × Nat)) :
    (∀ ps p, (∀ q ∈ ps ++ [p], q ∈ sentParts sends) →
      (DatagramReassembler.feed ps).bytes ≤ MAX_UPDATE_BYTES ∧
        ∀ bytes, ((DatagramReassembler.feed ps).push p).2 = .ok (some bytes) →
          ∃ s ∈ sends, bytes = s.1.encode) ↔ MixClosed sends := by
  constructor
  · intro h n ds hne hk hmix
    obtain ⟨ps, p, hps, hpush⟩ := DatagramReassembler.push_placed (n := n) hne hk (by
      intro data hd
      obtain ⟨i, hi, rfl⟩ := getElem_of_mem hd
      exact (hmix ⟨n, i, ds.length, ds[i]⟩ (mem_mapIdx.2 ⟨i, hi, rfl⟩)).2)
    exact (h ps p fun q hq => (hmix q (hps ▸ hq)).1).2 _ hpush
  intro hclosed ps p hsent
  refine ⟨DatagramReassembler.feed_bytes_le ps, fun bytes hbytes => ?_⟩
  have hp := hsent p (mem_append_right _ mem_cons_self)
  have hfeed := DatagramReassembler.feed_sent fun q hq => hsent q (mem_append_left _ hq)
  obtain ⟨ds, hlen, rfl, hds⟩ := (DatagramReassembler.push_sent hfeed hp).2 bytes hbytes
  obtain ⟨s, -, hs⟩ := mem_flatMap.1 hp
  obtain ⟨d, -, rfl⟩ := mem_map.1 hs
  have hpos : 0 < ds.length := hlen ▸ chunkCount_pos _ _
  have hsent i (hi : i < ds.length) := hlen ▸ hds i _ (getElem?_eq_getElem hi)
  refine hclosed d.part.newNum ds (length_pos_iff.1 hpos) (hsent 0 hpos).2.1 ?_
  intro q hq
  obtain ⟨i, hi, rfl⟩ := mem_mapIdx.1 hq
  exact ⟨(hsent i hi).1, (hsent i hi).2.2⟩

/-- State 3 sent as a change from state 1, with a bell that rang before state 2, and again
from state 2 after an acknowledgement: the first part of one and the second of the
other. -/
theorem parts_of_two_updates_complete :
    ∃ sends ps p bytes, (∀ q ∈ ps ++ [p], q ∈ sentParts sends) ∧
      ((DatagramReassembler.feed ps).push p).2 = .ok (some bytes) ∧
      ∀ s ∈ sends, bytes ≠ s.1.encode :=
  let diff : ScreenDiff := ⟨1, 1, 0, 0, Modes.none, []⟩
  let hash : Hash := ⟨replicate HASH_LEN 0, rfl⟩
  let first : ScreenUpdate := ⟨1, 3, 5, diff, [.bell], hash⟩
  let again : ScreenUpdate := ⟨2, 3, 5, diff, [], hash⟩
  ⟨[(first, 12), (again, 12)], [partAt 3 first.encode 12 0], partAt 3 again.encode 12 1,
    first.encode.take 12 ++ again.encode.drop 12, by decide +kernel⟩

end Qsh.Screen
