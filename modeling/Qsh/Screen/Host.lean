import Qsh.Lib.Run
import Qsh.Lib.Window
import Qsh.Screen.DiffSize
import Qsh.Screen.Update

/-!
# The host's screen

`HostScreen` (`screen/mod.rs`), with the part of `Collector` that collects
effects.  The host numbers the screens it shows.  `cut` freezes the current
screen as the next numbered state when it changed, and `updateSince` builds the
update that takes a client from a state it holds to the newest one.

The terminal emulator is a parameter.  All that is known of it is that the
screens it shows are valid.

`HostInv`: the retained states are numbered without a gap up to the last number
given out, so a retained base is fewer than `RETAINED_STATES` numbers old.
-/

namespace Qsh.Screen

open Qsh.Lib List

def RETAINED_STATES : Nat := 8

def EFFECT_LOG_MAX : Nat := 256

/-! ## The emulator and the collector -/

/-- A terminal emulator: what the bytes it is fed make of its state, the
effects it reports on the way, and the screen it shows. -/
structure Emulator where
  State : Type
  start : Nat → Nat → State
  process : State → List UInt8 → State × List Effect
  setSize : State → Nat → Nat → State
  screen : State → ScreenState
  screen_isValid : ∀ s, (screen s).IsValid

structure Collector where
  effects : List Effect
  effectsDropped : Nat
  deriving DecidableEq, Repr

def Collector.effect (c : Collector) (e : Effect) : Collector :=
  if ¬e.IsValid then { c with effectsDropped := c.effectsDropped + 1 }
  else if e = .bell ∧ c.effects.getLast? = some .bell then c
  else if c.effects.length ≥ MAX_EFFECTS then { c with effectsDropped := c.effectsDropped + 1 }
  else { c with effects := c.effects ++ [e] }

/-! ## The host's screen -/

structure StateInfo where
  num : Nat
  outputSeq : Nat
  hash : Hash
  deriving DecidableEq

/-- A numbered state. -/
structure Cut where
  info : StateInfo
  state : ScreenState
  deriving DecidableEq

/-- The emulator with its cuts and the log of effects. -/
structure HostScreen (E : Emulator) where
  emu : E.State
  collector : Collector
  cuts : List Cut
  effectLog : List (Nat × Effect)
  lastTitle : Option Text
  nextNum : Nat
  fedSeq : Nat
  dirty : Bool

def titleAfter (before : Option Text) : Effect → Option Text
  | .title t => some t
  | _ => before

def latestTitle (before : Option Text) (effects : List Effect) : Option Text :=
  effects.foldl titleAfter before

namespace HostScreen

variable {E : Emulator}

def new (E : Emulator) (rows cols : Nat) : HostScreen E where
  emu := if SizeIsValid rows cols then E.start rows cols else E.start 24 80
  collector := { effects := [], effectsDropped := 0 }
  cuts := []
  effectLog := []
  lastTitle := none
  nextNum := 1
  fedSeq := 0
  dirty := true

def snapshot (h : HostScreen E) : ScreenState :=
  E.screen h.emu

/-- Output of the session. -/
def feed (h : HostScreen E) (data : List UInt8) (endSeq : Nat) : HostScreen E :=
  let processed := E.process h.emu data
  { h with
    emu := processed.1
    collector := processed.2.foldl Collector.effect h.collector
    fedSeq := endSeq
    dirty := true }

def resize (h : HostScreen E) (rows cols : Nat) : HostScreen E :=
  if ¬SizeIsValid rows cols then h
  else if h.snapshot.rows = rows ∧ h.snapshot.cols = cols then h
  else { h with emu := E.setSize h.emu rows cols, dirty := true }

def unchanged (blake3 : List UInt8 → Hash) (h : HostScreen E) : Option Cut :=
  h.cuts.getLast?.filter fun latest =>
    h.collector.effects = [] ∧ latest.info.hash = h.snapshot.hash blake3

def move (h : HostScreen E) (latest : Cut) : HostScreen E × StateInfo :=
  let info := { latest.info with outputSeq := h.fedSeq }
  ({ h with
      collector := { h.collector with effects := [] }
      cuts := h.cuts.dropLast ++ [{ latest with info := info }]
      dirty := false },
    info)

def push (blake3 : List UInt8 → Hash) (h : HostScreen E) : HostScreen E × StateInfo :=
  let info : StateInfo :=
    { num := h.nextNum, outputSeq := h.fedSeq, hash := h.snapshot.hash blake3 }
  let cuts := keepLast RETAINED_STATES (h.cuts ++ [{ info := info, state := h.snapshot }])
  let log := keepLast EFFECT_LOG_MAX
    (h.effectLog ++ h.collector.effects.map fun e => (h.nextNum, e))
  ({ h with
      collector := { h.collector with effects := [] }
      cuts := cuts
      -- what happened before the oldest retained state is in no update
      effectLog := log.dropWhile fun p => cuts.head?.any fun oldest => p.1 ≤ oldest.info.num
      lastTitle := latestTitle h.lastTitle h.collector.effects
      nextNum := h.nextNum + 1
      dirty := false },
    info)

/-- The latest state, under a new number if it changed. -/
def cut (blake3 : List UInt8 → Hash) (h : HostScreen E) : HostScreen E × StateInfo :=
  match if h.dirty then none else h.cuts.getLast? with
  | some latest => (h, latest.info)
  | none =>
      match h.unchanged blake3 with
      | some latest => h.move latest
      | none => h.push blake3

def effectsSince (h : HostScreen E) (base : Nat) : List Effect :=
  (h.effectLog.filter fun p => base < p.1).map Prod.snd

/-- The update to the latest state, whose screen is `new`, for a client that
holds state `base`. -/
def buildUpdate (h : HostScreen E) (base : Nat) (latest : StateInfo) (new : ScreenState) :
    Option ScreenUpdate :=
  match h.cuts.find? fun c => c.info.num = base ∧ base ≠ 0 ∧ base < latest.num with
  | some b => do
      let d ← (ScreenDiff.between b.state new).toOption
      some
        { baseNum := base
          newNum := latest.num
          outputSeq := latest.outputSeq
          diff := d
          effects := h.effectsSince base
          stateHash := latest.hash }
  | none => do
      let blank ← (ScreenState.blank new.rows new.cols).toOption
      let d ← (ScreenDiff.between blank new).toOption
      some
        { baseNum := 0
          newNum := latest.num
          outputSeq := latest.outputSeq
          diff := d
          effects := h.lastTitle.toList.map Effect.title
          stateHash := latest.hash }

/-- The update from a base that is retained, or from blank. -/
def updateSince (blake3 : List UInt8 → Hash) (h : HostScreen E) (base : Nat) :
    HostScreen E × Option ScreenUpdate :=
  let done := h.cut blake3
  (done.1,
    if base = done.2.num then none
    else do
      let new ← done.1.cuts.getLast?
      done.1.buildUpdate base done.2 new.state)

end HostScreen

/-! ## What a cut does -/

namespace Collector

/-- Effects that the collector holds: valid ones, up to the cap. -/
def IsOk (c : Collector) : Prop :=
  (∀ e ∈ c.effects, e.IsValid) ∧ c.effects.length ≤ MAX_EFFECTS

theorem effect_isOk {c : Collector} (h : c.IsOk) (e : Effect) : (c.effect e).IsOk := by
  unfold effect
  split_ifs with hvalid hbell hfull
  · exact h
  · exact h
  · refine ⟨forall_mem_append.2 ⟨h.1, forall_mem_singleton.2 hvalid⟩, ?_⟩
    rw [length_append, length_singleton]
    omega
  · exact h

end Collector

namespace HostScreen

variable {E : Emulator} {blake3 : List UInt8 → Hash}

/-- The three things a cut can do: return the latest state as it is, move its
output offset, or number a new state. -/
theorem cut_cases (blake3 : List UInt8 → Hash) (h : HostScreen E) :
    (∃ latest, h.dirty = false ∧ h.cuts.getLast? = some latest ∧ h.cut blake3 = (h, latest.info)) ∨
    (∃ latest, h.cuts.getLast? = some latest ∧ h.collector.effects = [] ∧
      latest.info.hash = h.snapshot.hash blake3 ∧ h.cut blake3 = h.move latest) ∨
    h.cut blake3 = h.push blake3 := by
  unfold cut
  split
  · rename_i latest hlatest
    split_ifs at hlatest with hdirty
    exact .inl ⟨latest, Bool.not_eq_true _ ▸ hdirty, hlatest, rfl⟩
  split
  · rename_i latest hsame
    obtain ⟨hlast, hsame⟩ := Option.filter_eq_some_iff.1 hsame
    obtain ⟨heffects, hhash⟩ := of_decide_eq_true hsame
    exact .inr (.inl ⟨latest, hlast, heffects, hhash, rfl⟩)
  · exact .inr (.inr rfl)

/-! ## The invariant of a history of calls -/

/-- What holds of the host's screen after every history of calls. -/
structure HostInv (blake3 : List UInt8 → Hash) (h : HostScreen E) : Prop where
  /-- The retained states are numbered without a gap, up to the last number. -/
  numbered : ∃ first, 0 < first ∧ first + h.cuts.length = h.nextNum ∧
    h.cuts.map (fun c => c.info.num) = List.range' first h.cuts.length
  retained : h.cuts.length ≤ RETAINED_STATES
  states : ∀ c ∈ h.cuts, c.state.IsValid ∧ c.info.hash = c.state.hash blake3
  /-- Output offsets are 64-bit numbers. -/
  offsets : h.fedSeq < 2 ^ 64 ∧ ∀ c ∈ h.cuts, c.info.outputSeq < 2 ^ 64
  collected : h.collector.IsOk
  logged : ∀ p ∈ h.effectLog, p.2.IsValid
  titled : ∀ t ∈ h.lastTitle, PlainText t MAX_TITLE_BYTES

theorem new_inv (rows cols : Nat) : HostInv blake3 (new E rows cols) where
  numbered := ⟨1, Nat.one_pos, rfl, rfl⟩
  retained := Nat.zero_le _
  states _ hc := absurd hc not_mem_nil
  offsets := ⟨Nat.two_pow_pos 64, fun _ hc => absurd hc not_mem_nil⟩
  collected := ⟨fun _ he => absurd he not_mem_nil, Nat.zero_le _⟩
  logged _ hp := absurd hp not_mem_nil
  titled := nofun

variable {h : HostScreen E}

theorem HostInv.feed (hi : HostInv blake3 h) (data : List UInt8)
    {endSeq : Nat} (hseq : endSeq < 2 ^ 64) : HostInv blake3 (h.feed data endSeq) :=
  { hi with
    offsets := ⟨hseq, hi.offsets.2⟩
    collected := List.foldlRecOn _ _ hi.collected fun _ h e _ => Collector.effect_isOk h e }

theorem HostInv.resize (hi : HostInv blake3 h) (rows cols : Nat) :
    HostInv blake3 (h.resize rows cols) := by
  unfold HostScreen.resize
  split_ifs
  · exact hi
  · exact { hi with }
  · exact hi

theorem latestTitle_plain {before : Option Text} {effects : List Effect}
    (hbefore : ∀ t ∈ before, PlainText t MAX_TITLE_BYTES) (heffects : ∀ e ∈ effects, e.IsValid) :
    ∀ t ∈ latestTitle before effects, PlainText t MAX_TITLE_BYTES := by
  refine List.foldlRecOn effects titleAfter (motive := (∀ t ∈ ·, PlainText t MAX_TITLE_BYTES))
    hbefore fun before hbefore e he => ?_
  cases e with
  | title x =>
    intro t ht
    cases ht
    exact heffects _ he
  | bell | clipboard | hyperlink => exact hbefore

section

variable (hi : HostInv blake3 h)
include hi

theorem HostInv.push :
    HostInv blake3 (h.push blake3).1 where
  numbered := by
    obtain ⟨first, hpos, hnext, hnums⟩ := hi.numbered
    have hall : (h.cuts ++ [Cut.mk (HostScreen.push blake3 h).2 h.snapshot]).map
        (fun c => c.info.num) = List.range' first (h.cuts.length + 1) := by
      rw [map_append, hnums, range'_1_concat, hnext]
      rfl
    refine ⟨first + (h.cuts.length + 1 - RETAINED_STATES), by omega, ?_, ?_⟩
    · show _ + (keepLast _ _).length = h.nextNum + 1
      rw [length_keepLast, length_append, length_singleton]
      omega
    show (keepLast _ _).map _ = List.range' _ (keepLast _ _).length
    rw [length_keepLast, map_keepLast]
    refine (congrArg (keepLast RETAINED_STATES) hall).trans ?_
    rw [keepLast_eq_drop, length_range', drop_range', length_append,
      length_singleton, Nat.mul_one]
    congr 1
    omega
  retained := by
    show (keepLast _ _).length ≤ _
    rw [length_keepLast]
    exact min_le_left _ _
  states c hc := forall_mem_append.2 ⟨hi.states,
    forall_mem_singleton.2 ⟨E.screen_isValid h.emu, rfl⟩⟩ c (mem_of_mem_keepLast hc)
  offsets := ⟨hi.offsets.1, fun c hc => forall_mem_append.2 ⟨hi.offsets.2,
    forall_mem_singleton.2 hi.offsets.1⟩ c (mem_of_mem_keepLast hc)⟩
  collected := ⟨fun _ he => absurd he not_mem_nil, Nat.zero_le _⟩
  logged p hp := by
    have hp := mem_of_mem_keepLast ((dropWhile_suffix _).mem hp)
    rcases mem_append.1 hp with hp | hp
    · exact hi.logged p hp
    · obtain ⟨e, he, rfl⟩ := mem_map.1 hp
      exact hi.collected.1 e he
  titled := latestTitle_plain hi.titled hi.collected.1

theorem HostInv.move {latest : Cut}
    (hlast : h.cuts.getLast? = some latest) : HostInv blake3 (h.move latest).1 := by
  have hcuts : h.cuts.dropLast ++ [latest] = h.cuts :=
    dropLast_append_getLast? latest hlast
  have hlen : (h.move latest).1.cuts.length = h.cuts.length := by
    rw [← hcuts]
    simp [HostScreen.move]
  have hnums : (h.move latest).1.cuts.map (fun c => c.info.num) =
      h.cuts.map (fun c => c.info.num) := by
    conv_rhs => rw [← hcuts]
    simp [HostScreen.move]
  refine { hi with
    numbered := by rw [hnums, hlen]; exact hi.numbered
    retained := hlen.symm ▸ hi.retained
    states := forall_mem_append.2 ⟨fun c hc => hi.states c ((dropLast_sublist _).mem hc),
      forall_mem_singleton.2 (hi.states latest (mem_of_getLast? hlast))⟩
    offsets := ⟨hi.offsets.1, forall_mem_append.2
      ⟨fun c hc => hi.offsets.2 c ((dropLast_sublist _).mem hc),
        forall_mem_singleton.2 hi.offsets.1⟩⟩
    collected := ⟨fun _ he => absurd he not_mem_nil, Nat.zero_le _⟩ }

theorem HostInv.cut :
    HostInv blake3 (h.cut blake3).1 := by
  rcases cut_cases blake3 h with ⟨latest, -, -, hcut⟩ | ⟨latest, hlast, -, -, hcut⟩ | hcut
  · rw [hcut]
    exact hi
  · rw [hcut]
    exact hi.move hlast
  · rw [hcut]
    exact hi.push

theorem HostInv.num_mem {c : Cut} (hc : c ∈ h.cuts) :
    0 < c.info.num ∧ c.info.num < h.nextNum ∧ h.nextNum ≤ c.info.num + RETAINED_STATES := by
  obtain ⟨first, hpos, hnext, hnums⟩ := hi.numbered
  have hmem : c.info.num ∈ List.range' first h.cuts.length :=
    hnums ▸ mem_map_of_mem hc
  have hret := hi.retained
  rw [mem_range'_1] at hmem
  omega

theorem HostInv.num_last {c : Cut}
    (hc : h.cuts.getLast? = some c) : c.info.num + 1 = h.nextNum := by
  obtain ⟨first, -, hnext, hnums⟩ := hi.numbered
  have hlast : (h.cuts.map fun c => c.info.num).getLast? = some c.info.num := by
    rw [getLast?_map, hc]
    rfl
  have hpos : 0 < h.cuts.length := length_pos_of_mem (mem_of_getLast? hc)
  rw [hnums, getLast?_range', if_neg (by omega), Option.some.injEq] at hlast
  omega

end

/-! ## The update that is built -/

theorem eq_ok_of_toOption {ε α : Type} {x : Except ε α} {a : α} (h : x.toOption = some a) :
    x = .ok a := by
  cases x with
  | error e => cases h
  | ok b => cases h; rfl

/-- What a cut leaves: the state it reports is the latest one.  It has the
number and the screen of the latest one before, or it is the current screen
under the next number. -/
theorem cut_spec (blake3 : List UInt8 → Hash) (h : HostScreen E) :
    ∃ last, (h.cut blake3).1.cuts.getLast? = some last ∧ last.info = (h.cut blake3).2 ∧
      (∀ c ∈ (h.cut blake3).1.cuts, c = last ∨ c ∈ h.cuts) ∧
      (((h.cut blake3).1.nextNum = h.nextNum ∧ (h.cut blake3).1.effectLog = h.effectLog ∧
          ∃ latest, h.cuts.getLast? = some latest ∧ last.info.num = latest.info.num ∧
            last.state = latest.state) ∨
        ((h.cut blake3).1.nextNum = h.nextNum + 1 ∧ last.info.num = h.nextNum ∧
          last.state = h.snapshot ∧ (h.cut blake3).1.effectLog.Sublist
            (h.effectLog ++ h.collector.effects.map fun e => (h.nextNum, e)))) := by
  rcases cut_cases blake3 h with ⟨latest, -, hlast, hcut⟩ | ⟨latest, hlast, -, -, hcut⟩ | hcut
  · rw [hcut]
    exact ⟨latest, hlast, rfl, fun c hc => .inr hc, .inl ⟨rfl, rfl, latest, hlast, rfl, rfl⟩⟩
  · rw [hcut]
    refine ⟨_, getLast?_concat, rfl, fun c hc => ?_, .inl ⟨rfl, rfl, latest, hlast, rfl, rfl⟩⟩
    exact (mem_append.1 hc).symm.imp mem_singleton.1 (dropLast_sublist _).mem
  rw [hcut]
  refine ⟨Cut.mk (h.push blake3).2 h.snapshot, ?_, rfl, fun c hc => ?_,
    .inr ⟨rfl, rfl, rfl, (dropWhile_sublist _).trans (keepLast_suffix _ _).sublist⟩⟩
  · show (keepLast RETAINED_STATES (h.cuts ++ [_])).getLast? = _
    rw [keepLast_append_singleton (by decide), getLast?_concat]
    rfl
  · exact (mem_append.1 (mem_of_mem_keepLast hc)).symm.imp_left mem_singleton.1

theorem updateSince_eq_some {base : Nat} {u : ScreenUpdate}
    (hu : (h.updateSince blake3 base).2 = some u) :
    ∃ last, (h.cut blake3).1.cuts.getLast? = some last ∧ u.newNum = last.info.num ∧
      u.outputSeq = last.info.outputSeq ∧ u.stateHash = last.info.hash ∧
      ((u.baseNum = base ∧ base ≠ 0 ∧ base < last.info.num ∧
          (∃ b ∈ (h.cut blake3).1.cuts, b.info.num = base ∧
            ScreenDiff.between b.state last.state = .ok u.diff) ∧
          u.effects = (h.cut blake3).1.effectsSince base) ∨
        (u.baseNum = 0 ∧ (∃ b, ScreenState.blank last.state.rows last.state.cols = .ok b ∧
            ScreenDiff.between b last.state = .ok u.diff) ∧
          u.effects = (h.cut blake3).1.lastTitle.toList.map Effect.title)) := by
  obtain ⟨last, hlast, hinfo, -⟩ := cut_spec blake3 h
  unfold updateSince at hu
  simp only [hlast, ← hinfo] at hu
  split_ifs at hu with hsame
  have hu : (h.cut blake3).1.buildUpdate base last.info last.state = some u := hu
  unfold buildUpdate at hu
  split at hu
  · rename_i b hb
    obtain ⟨d, hd, hu⟩ := Option.bind_eq_some_iff.1 hu
    cases hu
    have hfound := find?_some hb
    simp only [decide_eq_true_eq] at hfound
    obtain ⟨hnum, hne, hlt⟩ := hfound
    exact ⟨last, hlast, rfl, rfl, rfl, .inl ⟨rfl, hne, hlt,
      ⟨b, mem_of_find?_eq_some hb, hnum, eq_ok_of_toOption hd⟩, rfl⟩⟩
  · obtain ⟨b, hb, hu⟩ := Option.bind_eq_some_iff.1 hu
    obtain ⟨d, hd, hu⟩ := Option.bind_eq_some_iff.1 hu
    cases hu
    exact ⟨last, hlast, rfl, rfl, rfl, .inr ⟨rfl,
      ⟨b, eq_ok_of_toOption hb, eq_ok_of_toOption hd⟩, rfl⟩⟩

end HostScreen

end Qsh.Screen
