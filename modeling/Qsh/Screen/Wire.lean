import Qsh.Screen.HostRuns
import Qsh.Screen.Client

/-!
# Host, carriers and client

One attach of screen sync.  The host sends the update since any base on either carrier.
The stream delivers its parts in order; datagram parts are delivered in any order and any
number of times, and they are lost.

A part in flight is kept with the update it was cut from; the client sees the part alone.
The other ghosts record what the host reported and logged, which datagram began the
assembly, and what the client made of each part.

`WireInv` holds in every state: an update in flight was built from states the host
reported, and the stream carries whole updates.
-/

namespace Qsh.Screen

open Qsh.Lib List Option

/-! ## Parts in flight -/

structure StreamPart where
  update : ScreenUpdate
  index : Nat
  deriving DecidableEq

def StreamPart.part (p : StreamPart) : Part :=
  partAt p.update.newNum p.update.encode PART_MAX p.index

def partsOf (u : ScreenUpdate) : List StreamPart :=
  (range (chunkCount PART_MAX u.encode)).map (StreamPart.mk u)

structure Datagram where
  update : ScreenUpdate
  budget : Nat
  index : Nat
  deriving DecidableEq

def Datagram.part (d : Datagram) : Part :=
  partAt d.update.newNum d.update.encode (max d.budget 1) d.index

def partsSized (u : ScreenUpdate) (budget : Nat) : List Datagram :=
  (range (chunkCount (max budget 1) u.encode)).map (Datagram.mk u budget)

/-! ## The system -/

def ScreenOutcome.appliedOf : ScreenOutcome → Option ScreenUpdate → List ScreenUpdate
  | .applied _ _ _, u => u.toList
  | _, _ => []

def ScreenOutcome.droppedOf : ScreenOutcome → Option ScreenUpdate → List Nat
  | .stale _, u => (u.map ScreenUpdate.newNum).toList
  | _, _ => []

/-- A host, a client and what is under way between them. -/
structure Wire (E : Emulator) where
  host : HostScreen E
  stream : List StreamPart
  datagrams : List Datagram
  client : ClientScreen
  reported : List Cut
  logged : List (Nat × Effect)
  building : Option Datagram
  outcomes : List ScreenOutcome
  applied : List ScreenUpdate
  dropped : List Nat

namespace Wire

variable {E : Emulator}

def new (E : Emulator) (rows cols : Nat) : Wire E where
  host := .new E rows cols
  stream := []
  datagrams := []
  client := .new
  reported := []
  logged := []
  building := none
  outcomes := []
  applied := []
  dropped := []

section Steps

variable (blake3 : List UInt8 → Hash)

def cut (w : Wire E) : Wire E :=
  { w with
    host := (w.host.cut blake3).1
    reported := w.reported ++ (w.host.cut blake3).1.cuts.getLast?.toList
    logged := w.logged ++
      if (w.host.cut blake3).1.nextNum = w.host.nextNum then []
      else w.host.collector.effects.map fun e => (w.host.nextNum, e) }

/-- Puts the parts of an update on the stream. -/
def sendStream (w : Wire E) (base : Nat) : Option (Wire E) :=
  match (w.host.updateSince blake3 base).2 with
  | none => some (w.cut blake3)
  | some u =>
      if u.encode.length ≤ MAX_UPDATE_BYTES then
        some { w.cut blake3 with stream := w.stream ++ partsOf u }
      else none

/-- Puts the parts of an update among the datagrams. -/
def sendDatagram (w : Wire E) (base budget : Nat) : Option (Wire E) :=
  match (w.host.updateSince blake3 base).2 with
  | none => some (w.cut blake3)
  | some u =>
      if u.encode.length ≤ MAX_UPDATE_BYTES ∧ (partsSized u budget).length ≤ MAX_DATAGRAM_PARTS then
        some { w.cut blake3 with datagrams := w.datagrams ++ partsSized u budget }
      else none

def refuseDatagram (w : Wire E) (base budget sent : Nat) : Option (Wire E) :=
  (w.sendDatagram blake3 base budget).map fun w' =>
    { w' with datagrams := w'.datagrams.take (w.datagrams.length + sent) }

def take (w : Wire E) (u : Option ScreenUpdate) (r : ClientScreen × ScreenOutcome) : Wire E :=
  { w with
    client := r.1
    outcomes := w.outcomes ++ [r.2]
    applied := w.applied ++ r.2.appliedOf u }

def deliverStream (w : Wire E) : Option (Wire E) :=
  match w.stream with
  | [] => none
  | p :: rest =>
      let u := ClientScreen.decoded (w.client.parts.push p.part).2
      match w.client.onPart blake3 p.part with
      | (c, .ok o) =>
          some { w.take u (c, o) with stream := rest, dropped := w.dropped ++ o.droppedOf u }
      | (_, .error _) => none

def deliverDatagram (w : Wire E) (i : Nat) : Option (Wire E) :=
  w.datagrams[i]?.map fun d =>
    { w.take (ClientScreen.decoded (w.client.datagramParts.push d.part).2)
        (w.client.onDatagramPart blake3 d.part) with
      building := if w.client.datagramParts.Begins d.part then some d else w.building }

end Steps

end Wire

/-- A step of an attach whose host sends what it likes. -/
inductive WireOp
  | feed (data : List UInt8) (endSeq : Nat)
  | resize (rows cols : Nat)
  | cut
  | sendStream (base : Nat)
  | sendDatagram (base budget : Nat)
  | refuseDatagram (base budget sent : Nat)
  | deliverStream
  | deliverDatagram (i : Nat)
  | loseDatagram (i : Nat)
  deriving DecidableEq, Repr

namespace Wire

variable {E : Emulator}

/-- One step of the host, the client or the network. -/
def step (blake3 : List UInt8 → Hash) (w : Wire E) : WireOp → Option (Wire E)
  | .feed data endSeq =>
      if endSeq < 2 ^ 64 then some { w with host := w.host.feed data endSeq } else none
  | .resize rows cols => some { w with host := w.host.resize rows cols }
  | .cut => some (w.cut blake3)
  | .sendStream base => w.sendStream blake3 base
  | .sendDatagram base budget => w.sendDatagram blake3 base budget
  | .refuseDatagram base budget sent => w.refuseDatagram blake3 base budget sent
  | .deliverStream => w.deliverStream blake3
  | .deliverDatagram i => w.deliverDatagram blake3 i
  | .loseDatagram i => some { w with datagrams := w.datagrams.eraseIdx i }

end Wire

/-! ## Updates in flight -/

def Effect.isTitle : Effect → Bool
  | .title _ => true
  | _ => false

/-- An update was built from states that the host reported, and carries the
effects that it logged under the cuts in between. -/
structure Built (reported : List Cut) (logged : List (Nat × Effect)) (u : ScreenUpdate) : Prop where
  target : ∃ last ∈ reported, u.newNum = last.info.num ∧ u.outputSeq = last.info.outputSeq ∧
    u.stateHash = last.info.hash ∧
    ((u.baseNum = 0 ∧ ∃ b, ScreenState.blank last.state.rows last.state.cols = .ok b ∧
        ScreenDiff.between b last.state = .ok u.diff) ∨
      (u.baseNum ≠ 0 ∧ u.newNum < u.baseNum + RETAINED_STATES ∧
        ∃ b ∈ reported, b.info.num = u.baseNum ∧
          ScreenDiff.between b.state last.state = .ok u.diff))
  newer : u.baseNum < u.newNum
  valid : ∀ e ∈ u.effects, e.IsValid
  titles : u.baseNum = 0 → ∀ e ∈ u.effects, e.isTitle = true
  since : u.baseNum ≠ 0 → u.effects.Sublist
    ((logged.filter fun p => u.baseNum < p.1 ∧ p.1 ≤ u.newNum).map Prod.snd)
  fits : u.encode.length ≤ MAX_UPDATE_BYTES

theorem Built.mono {reported : List Cut} {logged : List (Nat × Effect)} {u : ScreenUpdate}
    (h : Built reported logged u) (more : List Cut) (later : List (Nat × Effect)) :
    Built (reported ++ more) (logged ++ later) u := by
  obtain ⟨last, hlast, hnew, hseq, hhash, hbase⟩ := h.target
  refine { h with
    target := ⟨last, mem_append_left _ hlast, hnew, hseq, hhash, ?_⟩
    since := fun hne => (h.since hne).trans ?_ }
  · rcases hbase with hzero | ⟨hne, hnear, b, hb, hnum, hd⟩
    · exact .inl hzero
    · exact .inr ⟨hne, hnear, b, mem_append_left _ hb, hnum, hd⟩
  · exact ((sublist_append_left logged later).filter _).map _

structure Reported (blake3 : List UInt8 → Hash) (reported : List Cut) : Prop where
  states : ∀ c ∈ reported, c.state.IsValid ∧ c.info.hash = c.state.hash blake3
  same : ∀ c ∈ reported, ∀ d ∈ reported, c.info.num = d.info.num → c.state = d.state

theorem Reported.append {blake3 : List UInt8 → Hash} {reported : List Cut}
    (h : Reported blake3 reported) {last : Cut}
    (hstate : last.state.IsValid ∧ last.info.hash = last.state.hash blake3)
    (hsame : ∀ c ∈ reported, c.info.num = last.info.num → c.state = last.state) :
    Reported blake3 (reported ++ [last]) := by
  have hmem : ∀ c ∈ reported ++ [last], c ∈ reported ∨ c = last := fun c hc =>
    (mem_append.1 hc).imp_right mem_singleton.1
  refine ⟨fun c hc => ?_, fun c hc d hd heq => ?_⟩
  · rcases hmem c hc with hc | rfl
    · exact h.states c hc
    · exact hstate
  rcases hmem c hc with hold | rfl
  · rcases hmem d hd with hd | rfl
    · exact h.same c hold d hd heq
    · exact hsame c hold heq
  · rcases hmem d hd with hd | rfl
    · exact (hsame d hd heq.symm).symm
    · rfl

def Held (reported : List Cut) (history : List (Nat × ScreenState)) : Prop :=
  ∀ p ∈ history, ∃ c ∈ reported, c.info.num = p.1 ∧ c.state = p.2

section Exact

variable {blake3 : List UInt8 → Hash} {reported : List Cut} {logged : List (Nat × Effect)}
  {u u' : ScreenUpdate}

section

variable (h : Built reported logged u)
include h

section

variable (hr : Reported blake3 reported)
include hr

theorem Built.diff_isOk :
    u.diff.IsOk := by
  obtain ⟨last, hlast, -, -, -, ⟨-, b, hb, hd⟩ | ⟨-, -, b, hb, -, hd⟩⟩ := h.target
  · exact ScreenDiff.between_isOk (ScreenState.blank_isValid hb).1 (hr.states last hlast).1 hd
  · exact ScreenDiff.between_isOk (hr.states b hb).1 (hr.states last hlast).1 hd

theorem Built.eq_of_decode (hdec : ScreenUpdate.decode u.encode = .ok u') : u' = u := by
  obtain ⟨⟨hfits, -, -, hcount, -⟩, hbytes, -⟩ := ScreenUpdate.decode_eq_ok_iff.1 hdec
  obtain ⟨hbase, hnew, hseq, hhash⟩ := ScreenUpdate.header_of_decode hdec
  -- the numbers are the same, so the count of the effects is
  have hheader : u'.header = u.header := by
    rw [ScreenUpdate.header, ScreenUpdate.header, hbase, hnew, hseq, hhash]
  rw [ScreenUpdate.encode, ScreenUpdate.encode, hheader] at hbytes
  have hrest := append_cancel_left hbytes
  rw [append_assoc, append_assoc] at hrest
  obtain ⟨hlen, -⟩ := leb128_append_inj hrest
  have hok : u.IsOk := by
    refine ⟨?_, h.newer, h.valid, hlen ▸ hcount, h.diff_isOk hr⟩
    unfold ScreenUpdate.FitsU64 at hfits ⊢
    rw [← hbase, ← hnew, ← hseq]
    exact hfits
  have hself := ScreenUpdate.decode_eq_ok_iff.2 ⟨hok, rfl, h.fits⟩
  rw [hself] at hdec
  exact (Except.ok.inj hdec).symm

theorem Built.base?_full (hzero : u.baseNum = 0) (c : ClientScreen) :
    ∃ last ∈ reported, last.info.num = u.newNum ∧ last.info.outputSeq = u.outputSeq ∧
      u.stateHash = last.info.hash ∧
      ∃ b, c.base? u = some b ∧ b.IsValid ∧ ScreenDiff.between b last.state = .ok u.diff := by
  obtain ⟨last, hlast, hnew, hseq, hhash, ⟨-, b, hb, hd⟩ | ⟨hne, -⟩⟩ := h.target
  · have hbvalid := (ScreenState.blank_isValid hb).1
    obtain ⟨d, hd', hrows, hcols, -⟩ :=
      ScreenDiff.apply_between hbvalid (hr.states last hlast).1
    rw [hd] at hd'
    cases hd'
    refine ⟨last, hlast, hnew.symm, hseq.symm, hhash, b, ?_, hbvalid, hd⟩
    rw [ClientScreen.base?, if_pos hzero, hrows, hcols, hb]
    rfl
  · exact absurd hzero hne

variable {c : ClientScreen} {b : ScreenState}

theorem Built.base?_valid (hheld : Held reported c.history) (hb : c.base? u = some b) :
    ∃ last ∈ reported, last.info.num = u.newNum ∧ last.info.outputSeq = u.outputSeq ∧
      u.stateHash = last.info.hash ∧ b.IsValid ∧
      ScreenDiff.between b last.state = .ok u.diff := by
  obtain ⟨last, hlast, hnew, hseq, hhash, ⟨hzero, -⟩ | ⟨hne, -, b', hb', hnum, hd⟩⟩ := h.target
  · obtain ⟨last, hlast, hnum, hseq, hhash, b', hb', hvalid, hd⟩ := h.base?_full hr hzero c
    rw [hb] at hb'
    cases hb'
    exact ⟨last, hlast, hnum, hseq, hhash, hvalid, hd⟩
  rw [ClientScreen.base?, if_neg hne] at hb
  obtain ⟨p, hp, rfl⟩ := map_eq_some_iff.1 hb
  obtain ⟨k, hk, hknum, hkstate⟩ := hheld p (mem_of_find?_eq_some hp)
  have hkey := find?_some hp
  rw [decide_eq_true_eq] at hkey
  have hsame : p.2 = b'.state := by
    rw [← hkstate]
    exact hr.same k hk b' hb' (by rw [hknum, hkey, hnum])
  rw [hsame]
  exact ⟨last, hlast, hnew.symm, hseq.symm, hhash, (hr.states b' hb').1, hd⟩

theorem Built.apply_eq (hheld : Held reported c.history) (hb : c.base? u = some b) :
    ∃ last ∈ reported, last.info.num = u.newNum ∧ last.info.outputSeq = u.outputSeq ∧
      u.apply blake3 b = .ok last.state := by
  obtain ⟨last, hlast, hnum, hseq, hhash, hbvalid, hd⟩ := h.base?_valid hr hheld hb
  obtain ⟨hvalid, hstate⟩ := hr.states last hlast
  obtain ⟨d, hd', -, -, happly⟩ := ScreenDiff.apply_between hbvalid hvalid
  rw [hd] at hd'
  cases hd'
  exact ⟨last, hlast, hnum, hseq, ScreenUpdate.apply_eq_ok_iff.2 ⟨happly, by rw [hhash, hstate]⟩⟩

end

end

end Exact

/-! ## The stream -/

namespace StreamPart

def IsLast (p : StreamPart) : Prop :=
  p.index + 1 = chunkCount PART_MAX p.update.encode

instance (p : StreamPart) : Decidable p.IsLast :=
  inferInstanceAs (Decidable (_ = _))

def ready (p : StreamPart) : Reassembler :=
  if p.index = 0 then .new else .holding p.update.newNum p.update.encode p.index

def taken (p : StreamPart) : Reassembler :=
  if p.IsLast then .new else .holding p.update.newNum p.update.encode (p.index + 1)

end StreamPart

/-- The parts on the stream continue what the reassembler holds, and go on to
the end of an update. -/
def Arriving : Reassembler → List StreamPart → Prop
  | r, [] => r = .new
  | r, p :: rest =>
      r = p.ready ∧ p.index < chunkCount PART_MAX p.update.encode ∧ Arriving p.taken rest

theorem arriving_range' (u : ScreenUpdate) (k n : Nat)
    (h : k + n + 1 = chunkCount PART_MAX u.encode) :
    Arriving (StreamPart.ready ⟨u, k⟩) ((List.range' k (n + 1)).map (StreamPart.mk u)) := by
  have hk : k < chunkCount PART_MAX u.encode := by omega
  induction n generalizing k with
  | zero => exact ⟨rfl, hk, if_pos h⟩
  | succ n ih =>
    have hlast : ¬StreamPart.IsLast ⟨u, k⟩ := by
      show ¬k + 1 = chunkCount PART_MAX u.encode
      omega
    have hnext : StreamPart.taken ⟨u, k⟩ = StreamPart.ready ⟨u, k + 1⟩ := if_neg hlast
    refine ⟨rfl, hk, ?_⟩
    rw [hnext]
    exact ih (k + 1) (by omega) (by omega)

theorem arriving_partsOf (u : ScreenUpdate) : Arriving .new (partsOf u) := by
  have hpos := chunkCount_pos PART_MAX u.encode
  have := arriving_range' u 0 (chunkCount PART_MAX u.encode - 1) (by omega)
  rw [Nat.sub_add_cancel hpos] at this
  rw [partsOf, range_eq_range']
  exact this

variable {r : Reassembler}

theorem Arriving.append {queue : List StreamPart} (h : Arriving r queue)
    (u : ScreenUpdate) : Arriving r (queue ++ partsOf u) := by
  induction queue generalizing r with
  | nil =>
    have hr : r = .new := h
    rw [hr]
    exact arriving_partsOf u
  | cons p rest ih => exact ⟨h.1, h.2.1, ih h.2.2⟩

theorem Arriving.push {p : StreamPart} {rest : List StreamPart}
    (h : Arriving r (p :: rest)) (hfits : p.update.encode.length ≤ MAX_UPDATE_BYTES) :
    Arriving (r.push p.part).1 rest ∧
      (r.push p.part).2 = .ok (if p.IsLast then some p.update.encode else none) := by
  obtain ⟨hready, hindex, hrest⟩ := h
  have hpush := Reassembler.push_partAt (r := r) hfits hindex (by
    rw [hready, StreamPart.ready]
    split_ifs with hzero
    · exact .inl hzero
    · exact .inr rfl)
  unfold StreamPart.part
  unfold StreamPart.taken at hrest
  rw [hpush]
  by_cases hlast : p.IsLast
  · rw [if_pos hlast] at hrest ⊢
    rw [if_pos (show p.index + 1 = _ from hlast)]
    exact ⟨hrest, rfl⟩
  · rw [if_neg hlast] at hrest ⊢
    rw [if_neg (show ¬p.index + 1 = _ from hlast)]
    exact ⟨hrest, rfl⟩

/-! ## The invariant -/

namespace Wire

variable {E : Emulator} {blake3 : List UInt8 → Hash}

/-- What holds between the host, the client and the parts under way. -/
structure WireInv (blake3 : List UInt8 → Hash) (w : Wire E) : Prop where
  host : HostScreen.HostInv blake3 w.host
  reported : Reported blake3 w.reported
  retained : ∀ c ∈ w.host.cuts, c ∈ w.reported
  past : ∀ c ∈ w.reported, 0 < c.info.num ∧ c.info.num < w.host.nextNum
  /-- The log of the host is part of all that was logged. -/
  kept : w.host.effectLog.Sublist w.logged
  ordered : w.logged.Pairwise fun a b => a.1 ≤ b.1
  logged : ∀ p ∈ w.logged, p.1 < w.host.nextNum
  stream : ∀ p ∈ w.stream, Built w.reported w.logged p.update
  datagrams : ∀ d ∈ w.datagrams, Built w.reported w.logged d.update
  arriving : Arriving w.client.parts w.stream

theorem new_inv (rows cols : Nat) : WireInv blake3 (new E rows cols) where
  host := HostScreen.new_inv rows cols
  reported := ⟨fun _ hc => absurd hc not_mem_nil, fun _ hc => absurd hc not_mem_nil⟩
  retained _ hc := absurd hc not_mem_nil
  past _ hc := absurd hc not_mem_nil
  kept := List.Sublist.refl _
  ordered := List.Pairwise.nil
  logged _ hp := absurd hp not_mem_nil
  stream _ hp := absurd hp not_mem_nil
  datagrams _ hd := absurd hd not_mem_nil
  arriving := rfl

variable {w : Wire E}

theorem WireInv.feed (hw : WireInv blake3 w) (data : List UInt8) {endSeq : Nat}
    (hseq : endSeq < 2 ^ 64) : WireInv blake3 { w with host := w.host.feed data endSeq } :=
  { hw with host := hw.host.feed data hseq }

theorem WireInv.resize (hw : WireInv blake3 w) (rows cols : Nat) :
    WireInv blake3 { w with host := w.host.resize rows cols } := by
  have hsame : (w.host.resize rows cols).cuts = w.host.cuts ∧
      (w.host.resize rows cols).nextNum = w.host.nextNum ∧
      (w.host.resize rows cols).effectLog = w.host.effectLog := by
    unfold HostScreen.resize
    split_ifs
    all_goals exact ⟨rfl, rfl, rfl⟩
  obtain ⟨hcuts, hnext, hlog⟩ := hsame
  exact { hw with
    host := hw.host.resize rows cols
    retained := fun c hc => hw.retained c (hcuts ▸ hc)
    past := fun c hc => by rw [hnext]; exact hw.past c hc
    kept := by rw [hlog]; exact hw.kept
    logged := fun p hp => by rw [hnext]; exact hw.logged p hp }

theorem WireInv.cut_last (hw : WireInv blake3 w) {last : Cut}
    (hlast : (w.host.cut blake3).1.cuts.getLast? = some last) :
    (0 < last.info.num ∧ last.info.num < (w.host.cut blake3).1.nextNum) ∧
      ∀ c ∈ w.reported, c.info.num = last.info.num → c.state = last.state := by
  have hpos := hw.host.cut.num_mem (mem_of_getLast? hlast)
  refine ⟨⟨hpos.1, hpos.2.1⟩, fun c hc heq => ?_⟩
  obtain ⟨last', hlast', -, -, hcase⟩ := HostScreen.cut_spec blake3 w.host
  rw [hlast, some.injEq] at hlast'
  subst hlast'
  rcases hcase with ⟨-, -, latest, hlatest, hnum, hsame⟩ | ⟨-, hnum, -, -⟩
  · rw [hsame]
    exact hw.reported.same c hc latest (hw.retained latest (mem_of_getLast? hlatest))
      (heq.trans hnum)
  · have hlt := (hw.past c hc).2
    omega

theorem nextNum_le_cut (w : Wire E) : w.host.nextNum ≤ (w.host.cut blake3).1.nextNum := by
  obtain ⟨last, -, -, -, hcase⟩ := HostScreen.cut_spec blake3 w.host
  rcases hcase with ⟨hnext, -⟩ | ⟨hnext, -⟩ <;> omega

theorem mem_logged_cut {p : Nat × Effect} (hp : p ∈ (w.cut blake3).logged) :
    p ∈ w.logged ∨ p.1 = w.host.nextNum ∧ w.host.nextNum < (w.host.cut blake3).1.nextNum := by
  rcases mem_append.1 hp with hp | hp
  · exact .inl hp
  split_ifs at hp with hnext
  · cases hp
  · obtain ⟨e, -, rfl⟩ := List.mem_map.1 hp
    exact .inr ⟨rfl, Nat.lt_of_le_of_ne (nextNum_le_cut w) (Ne.symm hnext)⟩

theorem WireInv.cut_ordered (hw : WireInv blake3 w) :
    (w.cut blake3).logged.Pairwise fun a b => a.1 ≤ b.1 := by
  show (w.logged ++ if _ then _ else _).Pairwise _
  rw [pairwise_append]
  refine ⟨hw.ordered, ?_, fun a ha b hb => ?_⟩
  · split_ifs
    · exact List.Pairwise.nil
    · exact pairwise_map.2 (pairwise_of_forall fun _ _ => le_rfl)
  split_ifs at hb
  · cases hb
  · obtain ⟨e, -, rfl⟩ := List.mem_map.1 hb
    exact le_of_lt (hw.logged a ha)

theorem WireInv.cut_kept (hw : WireInv blake3 w) :
    (w.cut blake3).host.effectLog.Sublist (w.cut blake3).logged := by
  obtain ⟨last, -, -, -, hcase⟩ := HostScreen.cut_spec blake3 w.host
  show (w.host.cut blake3).1.effectLog.Sublist (w.logged ++ if _ then _ else _)
  rcases hcase with ⟨hnext, hlog, -⟩ | ⟨hnext, -, -, hlog⟩
  · rw [if_pos hnext, append_nil, hlog]
    exact hw.kept
  · rw [if_neg (by omega)]
    exact hlog.trans (hw.kept.append (List.Sublist.refl _))

theorem WireInv.cut (hw : WireInv blake3 w) : WireInv blake3 (w.cut blake3) := by
  obtain ⟨last, hlast, -, hcuts, -⟩ := HostScreen.cut_spec blake3 w.host
  obtain ⟨hnum, hsame⟩ := hw.cut_last hlast
  have hreported : (w.cut blake3).reported = w.reported ++ [last] := by
    rw [Wire.cut, hlast]
    rfl
  have hle : w.host.nextNum ≤ (w.host.cut blake3).1.nextNum := nextNum_le_cut w
  have hbuilt : ∀ u, Built w.reported w.logged u →
      Built (w.cut blake3).reported (w.cut blake3).logged u := fun u hu => hu.mono _ _
  refine {
    host := hw.host.cut
    reported := ?_
    retained := ?_
    past := ?_
    kept := hw.cut_kept
    ordered := hw.cut_ordered
    logged := ?_
    stream := fun p hp => hbuilt _ (hw.stream p hp)
    datagrams := fun d hd => hbuilt _ (hw.datagrams d hd)
    arriving := hw.arriving }
  · rw [hreported]
    exact hw.reported.append (hw.host.cut.states last (mem_of_getLast? hlast)) hsame
  · intro c hc
    rw [hreported]
    rcases hcuts c hc with rfl | hc
    · exact mem_append_right _ (mem_singleton_self _)
    · exact mem_append_left _ (hw.retained c hc)
  · intro c hc
    rw [hreported] at hc
    rcases mem_append.1 hc with hc | hc
    · obtain ⟨h0, h1⟩ := hw.past c hc
      exact ⟨h0, lt_of_lt_of_le h1 hle⟩
    · rw [mem_singleton.1 hc]
      exact hnum
  · intro p hp
    rcases mem_logged_cut hp with hp | ⟨hp, hlt⟩
    · exact lt_of_lt_of_le (hw.logged p hp) hle
    · rw [hp]
      exact hlt

variable {base budget : Nat} {w' : Wire E}

theorem WireInv.built (hw : WireInv blake3 w) {u : ScreenUpdate}
    (hu : (w.host.updateSince blake3 base).2 = some u)
    (hfits : u.encode.length ≤ MAX_UPDATE_BYTES) :
    Built (w.cut blake3).reported (w.cut blake3).logged u := by
  have hw' := hw.cut
  have hvalid := HostScreen.updateSince_effects_isValid hw.host hu
  obtain ⟨last, hlast, hnew, hseq, hhash, hparts⟩ := HostScreen.updateSince_eq_some hu
  have hmem := mem_of_getLast? hlast
  have hreported : last ∈ (w.cut blake3).reported := hw'.retained last hmem
  have hpos := (hw'.past last hreported).1
  rcases hparts with ⟨hbase, hne, hlt, ⟨b, hb, hnum, hd⟩, heffects⟩ | ⟨hbase, hblank, heffects⟩
  · refine ⟨⟨last, hreported, hnew, hseq, hhash, .inr ⟨by omega, ?_, b, hw'.retained b hb,
      hnum.trans hbase.symm, hd⟩⟩, by omega, hvalid, fun hzero => by omega, fun _ => ?_, hfits⟩
    · have hnear := (hw'.host.num_mem hb).2.2
      have hnext := hw'.host.num_last hlast
      omega
    -- what the host still has of the log, up to the latest cut
    rw [heffects, hbase]
    refine List.Sublist.trans ((hw'.kept.filter _).map _) ?_
    rw [filter_congr (q := fun p => decide (base < p.1 ∧ p.1 ≤ u.newNum))]
    intro p hp
    have hp := hw'.logged p hp
    have hnext := hw'.host.num_last hlast
    simp only [decide_eq_decide]
    omega
  · refine ⟨⟨last, hreported, hnew, hseq, hhash, .inl ⟨hbase, hblank⟩⟩, by omega, hvalid,
      fun _ e he => ?_, fun hne => absurd hbase hne, hfits⟩
    rw [heffects] at he
    obtain ⟨t, -, rfl⟩ := List.mem_map.1 he
    rfl

theorem mem_partsOf {u : ScreenUpdate} {p : StreamPart} (h : p ∈ partsOf u) : p.update = u := by
  obtain ⟨i, -, rfl⟩ := List.mem_map.1 h
  rfl

theorem mem_partsSized {u : ScreenUpdate} {d : Datagram}
    (h : d ∈ partsSized u budget) : d.update = u ∧ d.budget = budget := by
  obtain ⟨i, -, rfl⟩ := List.mem_map.1 h
  exact ⟨rfl, rfl⟩

theorem sendStream_cases (h : w.sendStream blake3 base = some w') :
    ((w.host.updateSince blake3 base).2 = none ∧ w' = w.cut blake3) ∨
    ∃ u, (w.host.updateSince blake3 base).2 = some u ∧ u.encode.length ≤ MAX_UPDATE_BYTES ∧
      w' = { w.cut blake3 with stream := w.stream ++ partsOf u } := by
  unfold sendStream at h
  split at h
  · exact .inl ⟨‹_›, (some.inj h).symm⟩
  · split_ifs at h with hfits
    exact .inr ⟨_, ‹_›, hfits, (some.inj h).symm⟩

theorem sendDatagram_cases (h : w.sendDatagram blake3 base budget = some w') :
    ((w.host.updateSince blake3 base).2 = none ∧ w' = w.cut blake3) ∨
    ∃ u, (w.host.updateSince blake3 base).2 = some u ∧ u.encode.length ≤ MAX_UPDATE_BYTES ∧
      w' = { w.cut blake3 with datagrams := w.datagrams ++ partsSized u budget } := by
  unfold sendDatagram at h
  split at h
  · exact .inl ⟨‹_›, (some.inj h).symm⟩
  · split_ifs at h with hfits
    exact .inr ⟨_, ‹_›, hfits.1, (some.inj h).symm⟩

theorem WireInv.sendStream (hw : WireInv blake3 w)
    (h : w.sendStream blake3 base = some w') : WireInv blake3 w' := by
  rcases sendStream_cases h with ⟨-, rfl⟩ | ⟨u, hu, hfits, rfl⟩
  · exact hw.cut
  refine { hw.cut with stream := fun p hp => ?_, arriving := hw.arriving.append u }
  rcases mem_append.1 hp with hp | hp
  · exact hw.cut.stream p hp
  · rw [mem_partsOf hp]
    exact hw.built hu hfits

theorem WireInv.sendDatagram (hw : WireInv blake3 w)
    (h : w.sendDatagram blake3 base budget = some w') : WireInv blake3 w' := by
  rcases sendDatagram_cases h with ⟨-, rfl⟩ | ⟨u, hu, hfits, rfl⟩
  · exact hw.cut
  refine { hw.cut with datagrams := fun d hd => ?_ }
  rcases mem_append.1 hd with hd | hd
  · exact hw.cut.datagrams d hd
  · rw [(mem_partsSized hd).1]
    exact hw.built hu hfits

theorem WireInv.lose (hw : WireInv blake3 w) {ds : List Datagram}
    (hds : ∀ d ∈ ds, d ∈ w.datagrams) : WireInv blake3 { w with datagrams := ds } :=
  { hw with datagrams := fun d hd => hw.datagrams d (hds d hd) }

theorem refuseDatagram_cases {sent : Nat} (h : w.refuseDatagram blake3 base budget sent = some w') :
    ∃ v, w.sendDatagram blake3 base budget = some v ∧
      w' = { v with datagrams := v.datagrams.take (w.datagrams.length + sent) } := by
  obtain ⟨v, hv, rfl⟩ := map_eq_some_iff.1 h
  exact ⟨v, hv, rfl⟩

/-- The next part on the stream is not the last one of its update, or it
completes the update, which the client applies or not. -/
theorem WireInv.deliverStream_cases (hw : WireInv blake3 w) (h : w.deliverStream blake3 = some w') :
    ∃ p rest parts, w.stream = p :: rest ∧ Built w.reported w.logged p.update ∧
      Arriving parts rest ∧
      ((¬p.IsLast ∧ w' =
          { w with
            stream := rest
            client := { w.client with parts := parts }
            outcomes := w.outcomes ++ [.incomplete] }) ∨
        ∃ r, p.IsLast ∧
          ClientScreen.ApplyStep blake3 { w.client with parts := parts } p.update .stream r ∧
          w' = { w.take (some p.update) r with
            stream := rest
            dropped := w.dropped ++ r.2.droppedOf (some p.update) }) := by
  unfold deliverStream at h
  cases hqueue : w.stream with
  | nil =>
    rw [hqueue] at h
    cases h
  | cons p rest =>
    have hbuilt := hw.stream p (hqueue ▸ mem_cons_self)
    have harrive := hw.arriving
    rw [hqueue] at h harrive
    obtain ⟨hrest, hout⟩ := harrive.push hbuilt.fits
    simp only at h
    split at h <;> cases h
    rename_i c o hpart
    refine ⟨p, rest, _, rfl, hbuilt, hrest, ?_⟩
    rcases ClientScreen.onPart_cases hpart with ⟨hnone, rfl, rfl⟩ | ⟨u, hsome, happly⟩
    · refine .inl ⟨fun hlast => ?_, ?_⟩
      · rw [hout, if_pos hlast] at hnone
        cases hnone
      · simp only [take, ScreenOutcome.appliedOf, ScreenOutcome.droppedOf, append_nil]
    obtain ⟨bytes, hbytes, hdec⟩ := ClientScreen.decoded_eq_some hsome
    rw [hout] at hbytes
    split_ifs at hbytes with hlast
    · cases hbytes
      rw [hbuilt.eq_of_decode hw.reported hdec] at happly hsome
      have hstep := ClientScreen.applyVia_step blake3
        { w.client with parts := (w.client.parts.push p.part).1 } p.update .stream
      rw [happly] at hstep
      rw [hsome]
      exact .inr ⟨(c, o), hlast, hstep, rfl⟩
    · cases hbytes

theorem WireInv.deliverStream (hw : WireInv blake3 w)
    (h : w.deliverStream blake3 = some w') : WireInv blake3 w' := by
  obtain ⟨p, rest, parts, hqueue, -, hrest, hcase⟩ := hw.deliverStream_cases h
  have hstream : ∀ q ∈ rest, Built w.reported w.logged q.update := fun q hq =>
    hw.stream q (hqueue ▸ mem_cons_of_mem _ hq)
  rcases hcase with ⟨-, rfl⟩ | ⟨r, -, hstep, rfl⟩
  · exact { hw with stream := hstream, arriving := hrest }
  refine { hw with stream := hstream, arriving := ?_ }
  show Arriving r.1.parts rest
  rw [hstep.parts.1]
  exact hrest

def completed (w : Wire E) (i : Nat) : Option ScreenUpdate :=
  w.datagrams[i]?.bind fun d => ClientScreen.decoded (w.client.datagramParts.push d.part).2

theorem deliverDatagram_cases {i : Nat} (h : w.deliverDatagram blake3 i = some w') :
    ∃ d parts building, w.datagrams[i]? = some d ∧ parts = (w.client.datagramParts.push d.part).1 ∧
      building = (if w.client.datagramParts.Begins d.part then some d else w.building) ∧
      ((∃ dropped, w.completed i = none ∧ w' =
          { w with
            building := building
            client := { w.client with datagramParts := parts, datagramDropped := dropped }
            outcomes := w.outcomes ++ [.incomplete] }) ∨
        ∃ u r, w.completed i = some u ∧
          ClientScreen.ApplyStep blake3 { w.client with datagramParts := parts } u .datagram r ∧
          w' = { w.take (some u) r with building := building }) := by
  obtain ⟨d, hd, rfl⟩ := map_eq_some_iff.1 h
  refine ⟨d, _, _, hd, rfl, rfl, ?_⟩
  rw [completed, hd, bind_some]
  rcases ClientScreen.onDatagramPart_cases blake3 w.client d.part with
    ⟨dropped, hnone, hpart⟩ | ⟨u, hu, hpart⟩
  · rw [hpart, hnone]
    refine .inl ⟨dropped, rfl, ?_⟩
    simp only [take, ScreenOutcome.appliedOf, append_nil]
  · rw [hpart, hu]
    exact .inr ⟨u, _, rfl, ClientScreen.applyVia_step _ _ _ _, rfl⟩

theorem WireInv.deliverDatagram (hw : WireInv blake3 w) {i : Nat}
    (h : w.deliverDatagram blake3 i = some w') : WireInv blake3 w' := by
  obtain ⟨d, parts, building, -, -, -, ⟨dropped, -, rfl⟩ | ⟨u, r, -, hstep, rfl⟩⟩ :=
    deliverDatagram_cases h
  · exact { hw with }
  refine { hw with arriving := ?_ }
  show Arriving r.1.parts w.stream
  rw [hstep.parts.1]
  exact hw.arriving

theorem step_inv {op : WireOp} (h : w.step blake3 op = some w')
    (hw : WireInv blake3 w) : WireInv blake3 w' := by
  cases op with
  | feed data endSeq =>
    rw [step] at h
    split_ifs at h with hseq
    cases h
    exact hw.feed data hseq
  | resize rows cols =>
    cases h
    exact hw.resize rows cols
  | cut =>
    cases h
    exact hw.cut
  | sendStream base => exact hw.sendStream h
  | sendDatagram base budget => exact hw.sendDatagram h
  | refuseDatagram base budget sent =>
    obtain ⟨v, hv, rfl⟩ := refuseDatagram_cases h
    exact (hw.sendDatagram hv).lose fun d hd => mem_of_mem_take hd
  | deliverStream => exact hw.deliverStream h
  | deliverDatagram i => exact hw.deliverDatagram h
  | loseDatagram i =>
    cases h
    exact hw.lose fun d hd => mem_of_mem_eraseIdx hd

end Wire

end Qsh.Screen
