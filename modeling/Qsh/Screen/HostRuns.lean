import Qsh.Screen.Host

/-!
# Histories of the host's screen

Every update that the host builds obeys the rules of the format, with two
exceptions: the effects since a retained base can be more than an update may
carry, and the encoding can be larger than an update may be.

The collector keeps at most `MAX_EFFECTS` effects for one cut, but the log
keeps `EFFECT_LOG_MAX` of them over several, and an update for a client that
is a few states behind carries them all (`too_many_effects`).
-/

namespace Qsh.Screen

open Qsh.Lib List

inductive HostOp
  | feed (data : List UInt8) (endSeq : Nat)
  | resize (rows cols : Nat)
  | cut
  | updateSince (base : Nat)
  deriving DecidableEq, Repr

namespace HostScreen

variable {E : Emulator} {blake3 : List UInt8 → Hash}

/-- What a call makes of the host's screen.  Output offsets are 64-bit
numbers. -/
def step (blake3 : List UInt8 → Hash) (h : HostScreen E) : HostOp → Option (HostScreen E)
  | .feed data endSeq => if endSeq < 2 ^ 64 then some (h.feed data endSeq) else none
  | .resize rows cols => some (h.resize rows cols)
  | .cut => some (h.cut blake3).1
  | .updateSince base => some (h.updateSince blake3 base).1

variable {h : HostScreen E} {u : ScreenUpdate}

theorem step_inv {h' : HostScreen E} {op : HostOp} (hs : step blake3 h op = some h')
    (hi : HostInv blake3 h) : HostInv blake3 h' := by
  cases op with
  | feed data endSeq =>
    rw [step] at hs
    split_ifs at hs with hseq
    cases hs
    exact hi.feed data hseq
  | resize rows cols => cases hs; exact hi.resize rows cols
  | cut | updateSince => cases hs; exact hi.cut

theorem run_inv {rows cols : Nat} {ops : List HostOp}
    (hr : Lib.Run (step blake3) (fun _ _ => True) (new E rows cols) ops h) : HostInv blake3 h :=
  hr.invariant (fun _ _ _ _ hs hi => step_inv hs hi) (new_inv rows cols)

/-! ## What an update is made from -/

/-- The retained state that an update for a client at `base` starts from, once the screen
is cut: an older one than the latest. -/
def baseCut (h : HostScreen E) (base : Nat) : Option Cut :=
  h.cuts.dropLast.find? fun c => c.info.num = base

def sourceNum (h : HostScreen E) (base : Nat) : Nat :=
  if (h.baseCut base).isSome then base else 0

/-- The screen that the update starts from, for the target `new`. -/
def sourceScreen (h : HostScreen E) (base : Nat) (new : ScreenState) : ScreenState :=
  ((h.baseCut base).map Cut.state).getD (.blankState new.rows new.cols)

/-- The effects that the update carries: those since the base, or the title alone. -/
def carriedEffects (h : HostScreen E) (base : Nat) : List Effect :=
  if (h.baseCut base).isSome then h.effectsSince base else h.lastTitle.toList.map .title

/-- The size of an update to the state `last`, whose diff is `d`. -/
def carriedBytes (h : HostScreen E) (base : Nat) (last : Cut) (d : ScreenDiff) : Nat :=
  (putVarint (h.sourceNum base)).length + (putVarint last.info.num).length +
    (putVarint last.info.outputSeq).length + HASH_LEN +
    (putVarint (h.carriedEffects base).length).length +
    ((h.carriedEffects base).flatMap Effect.put).length + d.encode.length

/-- What the update for `base` carries keeps to the two caps of the decoder. -/
def InCaps (h : HostScreen E) (base : Nat) : Prop :=
  (h.carriedEffects base).length ≤ MAX_EFFECTS ∧
    ∀ last ∈ h.cuts.getLast?, ∀ d,
      ScreenDiff.between (h.sourceScreen base last.state) last.state = .ok d →
        h.carriedBytes base last d ≤ MAX_UPDATE_BYTES

/-- The room that the numbers, the hash and the effect count take. -/
def UPDATE_HEAD_MAX : Nat := 30 + HASH_LEN + 1

/-- A bound that can be read off the two screens and the effects. -/
def Fits (h : HostScreen E) (base : Nat) : Prop :=
  (h.carriedEffects base).length ≤ MAX_EFFECTS ∧
    ∀ last ∈ h.cuts.getLast?, UPDATE_HEAD_MAX +
      ((h.carriedEffects base).flatMap Effect.put).length +
      ScreenDiff.cost (h.sourceScreen base last.state) last.state ≤ MAX_UPDATE_BYTES

instance (h : HostScreen E) (base : Nat) : Decidable (h.Fits base) :=
  inferInstanceAs (Decidable (_ ∧ _))

section

variable (hi : HostInv blake3 h) {base : Nat} {last : Cut} (hlast : h.cuts.getLast? = some last)
include hi

theorem carriedEffects_isValid : ∀ e ∈ h.carriedEffects base, e.IsValid := by
  intro e he
  unfold carriedEffects at he
  split at he
  · obtain ⟨p, hp, rfl⟩ := mem_map.1 he
    exact hi.logged p (mem_filter.1 hp).1
  · obtain ⟨t, ht, rfl⟩ := mem_map.1 he
    exact hi.titled t (Option.mem_toList.1 ht)

include hlast

theorem num_lt_last {c : Cut} (hc : c ∈ h.cuts.dropLast) : c.info.num < last.info.num := by
  obtain ⟨first, -, -, hnums⟩ := hi.numbered
  have hsorted : (h.cuts.map fun c => c.info.num).Pairwise (· < ·) := by
    rw [hnums]
    exact pairwise_lt_range'
  rw [← dropLast_append_getLast? last hlast, map_append, pairwise_append] at hsorted
  exact hsorted.2.2 _ (mem_map_of_mem hc) _ (mem_singleton_self _)

/-- The search of `update_since` finds the state that `baseCut` names. -/
theorem find?_eq_baseCut :
    h.cuts.find? (fun c => c.info.num = base ∧ base ≠ 0 ∧ base < last.info.num) =
      h.baseCut base := by
  have hnot : ¬(last.info.num = base ∧ base ≠ 0 ∧ base < last.info.num) := by omega
  nth_rewrite 1 [← dropLast_append_getLast? last hlast]
  rw [find?_append, find?_singleton, if_neg (by simpa using hnot), Option.or_none]
  rw [baseCut, ← head?_filter, ← head?_filter]
  refine congrArg head? (filter_congr fun c hc => ?_)
  have hlt := num_lt_last hi hlast hc
  have hpos := (hi.num_mem ((dropLast_sublist _).mem hc)).1
  rw [decide_eq_decide]
  omega

theorem sourceNum_lt : h.sourceNum base < last.info.num := by
  unfold sourceNum
  split
  · obtain ⟨b, hb⟩ := Option.isSome_iff_exists.1 ‹_›
    have hnum := find?_some (p := fun c : Cut => decide (c.info.num = base)) hb
    exact of_decide_eq_true hnum ▸ num_lt_last hi hlast (mem_of_find?_eq_some hb)
  · exact (hi.num_mem (mem_of_getLast? hlast)).1

theorem sourceScreen_isValid : (h.sourceScreen base last.state).IsValid := by
  unfold sourceScreen
  cases hb : h.baseCut base with
  | none =>
    have hsize := (hi.states last (mem_of_getLast? hlast)).1.1
    exact (ScreenState.blank_isValid (ScreenState.blank_eq hsize)).1
  | some b =>
    exact (hi.states b ((dropLast_sublist _).mem (mem_of_find?_eq_some hb))).1

theorem buildUpdate_eq (hu : h.buildUpdate base last.info last.state = some u) :
    u.baseNum = h.sourceNum base ∧ u.newNum = last.info.num ∧
      u.outputSeq = last.info.outputSeq ∧ u.stateHash = last.info.hash ∧
      u.effects = h.carriedEffects base ∧
      ScreenDiff.between (h.sourceScreen base last.state) last.state = .ok u.diff := by
  unfold buildUpdate at hu
  rw [find?_eq_baseCut hi hlast] at hu
  unfold sourceNum carriedEffects sourceScreen
  cases hb : h.baseCut base with
  | some b =>
    rw [hb] at hu
    obtain ⟨d, hd, hu⟩ := Option.bind_eq_some_iff.1 hu
    cases hu
    exact ⟨rfl, rfl, rfl, rfl, rfl, eq_ok_of_toOption hd⟩
  | none =>
    rw [hb] at hu
    obtain ⟨blank, hblank, hu⟩ := Option.bind_eq_some_iff.1 hu
    obtain ⟨d, hd, hu⟩ := Option.bind_eq_some_iff.1 hu
    cases hu
    have hsize := (hi.states last (mem_of_getLast? hlast)).1.1
    rw [ScreenState.blank_eq hsize] at hblank
    cases hblank
    exact ⟨rfl, rfl, rfl, rfl, rfl, eq_ok_of_toOption hd⟩

end

theorem buildUpdate_of_updateSince {base : Nat} {last : Cut}
    (hlast : (h.cut blake3).1.cuts.getLast? = some last) (hinfo : last.info = (h.cut blake3).2)
    (hu : (h.updateSince blake3 base).2 = some u) :
    (h.cut blake3).1.buildUpdate base last.info last.state = some u := by
  unfold updateSince at hu
  simp only [hlast, ← hinfo] at hu
  split_ifs at hu
  exact hu

theorem updateSince_effects_isValid (hi : HostInv blake3 h) {base : Nat}
    (hu : (h.updateSince blake3 base).2 = some u) : ∀ e ∈ u.effects, e.IsValid := by
  obtain ⟨last, hlast, hinfo, -, -⟩ := cut_spec blake3 h
  have hbuilt := buildUpdate_eq hi.cut hlast (buildUpdate_of_updateSince hlast hinfo hu)
  rw [hbuilt.2.2.2.2.1]
  exact carriedEffects_isValid hi.cut

/-! ## Updates decode -/

theorem length_putVarint_le {v : Nat} (h : v < 2 ^ 64) : (putVarint v).length ≤ 10 :=
  length_leb128_le (by decide) (by omega)

theorem length_encode_eq {base : Nat} {last : Cut} (hbase : u.baseNum = h.sourceNum base)
    (hnew : u.newNum = last.info.num) (hseq : u.outputSeq = last.info.outputSeq)
    (heffects : u.effects = h.carriedEffects base) :
    u.encode.length = h.carriedBytes base last u.diff := by
  have hhash : u.stateHash.val.length = HASH_LEN := u.stateHash.property
  simp only [ScreenUpdate.encode, ScreenUpdate.header, length_append, carriedBytes, hbase, hnew,
    hseq, heffects, hhash]
  omega

theorem carriedBytes_le {base : Nat} {last : Cut} {d : ScreenDiff} (hi : HostInv blake3 h)
    (hlast : h.cuts.getLast? = some last) (hnum : last.info.num < 2 ^ 64)
    (hd : ScreenDiff.between (h.sourceScreen base last.state) last.state = .ok d)
    (hcount : (h.carriedEffects base).length ≤ MAX_EFFECTS) :
    h.carriedBytes base last d ≤ UPDATE_HEAD_MAX +
      ((h.carriedEffects base).flatMap Effect.put).length +
      ScreenDiff.cost (h.sourceScreen base last.state) last.state := by
  have hmem := mem_of_getLast? hlast
  have hlt : h.sourceNum base < last.info.num := sourceNum_lt hi hlast
  have hbase := length_putVarint_le (lt_trans hlt hnum)
  have hnew := length_putVarint_le hnum
  have hseq := length_putVarint_le (hi.offsets.2 last hmem)
  have heffects : (putVarint (h.carriedEffects base).length).length ≤ 1 :=
    length_leb128_le (by decide) (lt_of_le_of_lt hcount (by decide))
  have hdiff := ScreenDiff.length_encode_between_le (sourceScreen_isValid hi hlast)
    (hi.states last hmem).1 hd
  unfold carriedBytes UPDATE_HEAD_MAX
  omega

/-- After every history of calls, and for every base, the update that the host builds is
decoded by the client exactly if what it carries for that base, read off the state that the
cut leaves, keeps to the two caps of the decoder.  It does when the effects are no more than
an update may carry and the two screens and the effects fit. -/
theorem decode_updateSince {rows cols : Nat} {ops : List HostOp} {h : HostScreen E}
    (hr : Lib.Run (step blake3) (fun _ _ => True) (new E rows cols) ops h)
    (hnext : h.nextNum < 2 ^ 64) {base : Nat} {u : ScreenUpdate}
    (hu : (h.updateSince blake3 base).2 = some u) :
    (ScreenUpdate.decode u.encode = .ok u ↔ (h.cut blake3).1.InCaps base) ∧
    ((h.cut blake3).1.Fits base → ScreenUpdate.decode u.encode = .ok u) := by
  have hi := (run_inv hr).cut
  obtain ⟨last, hlast, hinfo, -, hnumbered⟩ := cut_spec blake3 h
  have hnum : last.info.num < 2 ^ 64 := by
    rcases hnumbered with ⟨-, -, latest, hl, hsame, -⟩ | ⟨-, hnum, -⟩
    · have := ((run_inv hr).num_mem (mem_of_getLast? hl)).2.1
      omega
    · omega
  obtain ⟨hbase, hnew, hseq, -, heffects, hd⟩ :=
    buildUpdate_eq hi hlast (buildUpdate_of_updateSince hlast hinfo hu)
  have hmem := mem_of_getLast? hlast
  have hlt : (h.cut blake3).1.sourceNum base < last.info.num := sourceNum_lt hi hlast
  have hvalid := (hi.states last hmem).1
  have hlen := length_encode_eq hbase hnew hseq heffects
  have hiff : ScreenUpdate.decode u.encode = .ok u ↔ (h.cut blake3).1.InCaps base := by
    refine ⟨fun hdec => ?_, fun ⟨hcount, hcap⟩ => ?_⟩
    · obtain ⟨⟨-, -, -, hcount, -⟩, -, hcap⟩ := ScreenUpdate.decode_eq_ok_iff.1 hdec
      refine ⟨heffects ▸ hcount, fun last' hlast' d hd' => ?_⟩
      cases hlast.symm.trans hlast'
      cases hd.symm.trans hd'
      exact hlen ▸ hcap
    · have hok : u.IsOk := by
        refine ⟨⟨by omega, by omega, ?_⟩, by omega, ?_, heffects ▸ hcount,
          ScreenDiff.between_isOk (sourceScreen_isValid hi hlast) hvalid hd⟩
        · rw [hseq]
          exact hi.offsets.2 last hmem
        · rw [heffects]
          exact carriedEffects_isValid hi
      exact ScreenUpdate.decode_eq_ok_iff.2 ⟨hok, rfl, hlen ▸ hcap last hlast _ hd⟩
  refine ⟨hiff, fun ⟨hcount, hcost⟩ => hiff.2 ⟨hcount, fun last' hlast' d hd' => ?_⟩⟩
  cases hlast.symm.trans hlast'
  exact (carriedBytes_le hi hlast hnum hd' hcount).trans (hcost last hlast)

/-! ## A terminal that rings and sets titles -/

/-- A terminal of one cell that rings the bell for a BEL byte and sets an
empty title for any other. -/
def bellTerminal : Emulator where
  State := Unit
  start _ _ := ()
  process _ data := ((), data.map fun b => if b = 7 then .bell else .title [])
  setSize _ _ _ := ()
  screen _ := lineOf [0]
  screen_isValid _ := by decide

def noise : List UInt8 :=
  (replicate 17 [7, 0]).flatten

def zeroHash (_ : List UInt8) : Hash :=
  ⟨replicate HASH_LEN 0, rfl⟩

/-- One bell after state 1. -/
theorem decode_updateSince_bell :
    ∃ h u, Lib.Run (step zeroHash) (fun _ _ => True) (new bellTerminal 1 1) [.cut, .feed [7] 1] h ∧
      (h.updateSince zeroHash 1).2 = some u ∧ u.effects = [.bell] ∧
      ScreenUpdate.decode u.encode = .ok u := by
  have hcarried : ((execWhere (step zeroHash) (fun _ _ => True) (new bellTerminal 1 1)
        [.cut, .feed [7] 1]).bind fun h =>
          if h.nextNum < 2 ^ 64 ∧ (h.cut zeroHash).1.Fits 1 then (h.updateSince zeroHash 1).2
          else none).map
        (fun u => u.effects) = some [.bell] := by
    decide +kernel
  obtain ⟨u, hu, heffects⟩ := Option.map_eq_some_iff.1 hcarried
  obtain ⟨h, hrun, hu⟩ := Option.bind_eq_some_iff.1 hu
  split_ifs at hu with hfits
  have hr : Lib.Run (step zeroHash) (fun _ _ => True) _ _ h := .of_execWhere hrun
  exact ⟨h, u, hr, hu, heffects, (decode_updateSince hr hfits.1 hu).2 hfits.2⟩

/-- Two cuts after state 1, with 34 effects each: the update for a client that
holds state 1 carries 68, and the decoder turns it down. -/
theorem too_many_effects :
    ∃ h u, Lib.Run (step zeroHash) (fun _ _ => True) (new bellTerminal 1 1)
        [.cut, .feed noise 34, .cut, .feed noise 68] h ∧
      (h.updateSince zeroHash 1).2 = some u ∧ u.effects.length = 68 ∧
      ScreenUpdate.decode u.encode ≠ .ok u := by
  have hcarried : ((execWhere (step zeroHash) (fun _ _ => True) (new bellTerminal 1 1)
        [.cut, .feed noise 34, .cut, .feed noise 68]).bind fun h =>
          (h.updateSince zeroHash 1).2).map (fun u => u.effects.length) = some 68 := by
    decide +kernel
  obtain ⟨u, hu, hcount⟩ := Option.map_eq_some_iff.1 hcarried
  obtain ⟨h, hrun, hu⟩ := Option.bind_eq_some_iff.1 hu
  refine ⟨h, u, .of_execWhere hrun, hu, hcount, fun hdec => ?_⟩
  obtain ⟨⟨-, -, -, hmax, -⟩, -⟩ := ScreenUpdate.decode_eq_ok_iff.1 hdec
  rw [hcount] at hmax
  exact absurd hmax (by decide)

end HostScreen

end Qsh.Screen
