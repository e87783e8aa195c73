import Qsh.Lib.Run

/-!
# Stalled tunnel streams

`StallLedger::decide` (`tunnel/stall.rs`) stops streams that sit in a local write and
hold the receive window of their connection.  Streams come and go between two calls, so
a call gets the tracked streams as they are, each with the time at which it entered the
write it is inside.  Times are nanoseconds since the ledger's epoch; `write_entered`
keeps whole microseconds of them.
-/

namespace Qsh.Tunnel

open Qsh.Lib List Option

structure StallParams where
  stallAge : Nat
  maxStalled : Nat
  dataBlockedMemory : Nat

inductive StallReason
  | stalledLimit
  | dataBlocked
  deriving DecidableEq

structure Eviction where
  id : Nat
  reason : StallReason
  stalledFor : Nat
  deriving DecidableEq

/-- A call of `decide`, and whether the count had risen. -/
structure Call where
  now : Nat
  rose : Bool
  chosen : List Eviction

/-- The ledger, with the ids of the streams marked so far and the calls, newest first. -/
structure StallLedger where
  params : StallParams
  lastDataBlocked : Nat
  dataBlockedRoseAt : Option Nat
  evicted : List Nat
  calls : List Call

structure Tick where
  tracks : List (Nat × Option Nat)
  now : Nat
  dataBlocked : Nat

def writeEnteredAt (entered : Nat) : Nat := entered / 1000 * 1000

namespace StallLedger

def new (params : StallParams) (dataBlocked : Nat) : StallLedger :=
  ⟨params, dataBlocked, none, [], []⟩

variable (s : StallLedger) (k : Tick)

def stalled : List (Nat × Nat) :=
  k.tracks.filterMap fun track =>
    if track.1 ∈ s.evicted then none
    else
      (track.2.map writeEnteredAt).bind fun since =>
        if s.params.stallAge ≤ k.now - since then some (track.1, since) else none

def older (a b : Nat × Nat) : Bool := a.2 < b.2 || a.2 == b.2 && a.1 ≤ b.1

def roseAt : Option Nat :=
  if s.lastDataBlocked < k.dataBlocked then some k.now else s.dataBlockedRoseAt

/-- The streams to evict, the oldest first, and why. -/
def chosen : List (Nat × Nat × StallReason) :=
  let stalled := (s.stalled k).mergeSort older
  if s.params.maxStalled < stalled.length then
    (stalled.take (stalled.length - s.params.maxStalled)).map fun x => (x.1, x.2, .stalledLimit)
  else
    match stalled, s.roseAt k with
    | x :: _, some roseAt =>
        if k.now - roseAt ≤ s.params.dataBlockedMemory then [(x.1, x.2, .dataBlocked)] else []
    | _, _ => []

/-- One round of the ledger. -/
def decide : StallLedger × List Eviction :=
  ({ s with
      lastDataBlocked := k.dataBlocked
      dataBlockedRoseAt := if (s.chosen k).isEmpty then s.roseAt k else none },
    (s.chosen k).map fun x => ⟨x.1, x.2.2, k.now - x.2.1⟩)

/-- The chosen streams are marked.  Streams are tracked by their ids. -/
def tick : Option StallLedger :=
  if (k.tracks.map Prod.fst).Nodup then
    let (t, chosen) := s.decide k
    some { t with
      evicted := chosen.map (·.id) ++ s.evicted
      calls := ⟨k.now, s.lastDataBlocked < k.dataBlocked, chosen⟩ :: s.calls }
  else none

/-- The count rose in a call not long ago, and nothing was chosen since. -/
def Unanswered (now : Nat) : Prop :=
  ∃ since c before, s.calls = since ++ c :: before ∧ c.rose = true ∧ c.now = now ∧
    ∀ d ∈ since ++ [c], d.chosen = []

/-- What a call chooses and what it leaves, as pairs of an id and a recorded time. -/
structure Choice (chosen rest : List (Nat × Nat)) (reason : StallReason) : Prop where
  evictions : (s.decide k).2 = chosen.map fun x => ⟨x.1, reason, k.now - x.2⟩
  stalled : (s.stalled k).Perm (chosen ++ rest)
  bounded : rest.length ≤ s.params.maxStalled
  longest : ∀ x ∈ chosen, ∀ y ∈ rest, x.2 ≤ y.2
  once : (chosen.map Prod.fst ++ s.evicted).Nodup
  /-- The recorded time is less than a microsecond early. -/
  inside : ∀ x ∈ s.stalled k, s.params.stallAge ≤ k.now - x.2 ∧
    ∃ entered, (x.1, some entered) ∈ k.tracks ∧ x.2 ≤ entered ∧ entered < x.2 + 1000
  answers : (s.stalled k).length ≤ s.params.maxStalled → chosen.length ≤ 1 ∧ (chosen ≠ [] →
    s.lastDataBlocked < k.dataBlocked ∨
      ∃ roseAt, k.now - roseAt ≤ s.params.dataBlockedMemory ∧ s.Unanswered roseAt)

structure Inv : Prop where
  once : s.evicted.Nodup
  rise : ∀ now, s.dataBlockedRoseAt = some now → s.Unanswered now

variable {s k} {t : StallLedger}

theorem chosen_spec : ∃ n reason,
    s.chosen k = (((s.stalled k).mergeSort older).take n).map (fun x => (x.1, x.2, reason)) ∧
      (s.stalled k).length ≤ n + s.params.maxStalled ∧
      ((s.stalled k).length ≤ s.params.maxStalled → n ≤ 1 ∧ (n ≠ 0 →
        ∃ roseAt, s.roseAt k = some roseAt ∧ k.now - roseAt ≤ s.params.dataBlockedMemory)) := by
  have hlen := (mergeSort_perm (s.stalled k) older).length_eq
  unfold chosen
  generalize (s.stalled k).mergeSort older = l at hlen
  dsimp only
  split
  · exact ⟨_, _, rfl, by omega, by omega⟩
  split
  · split
    · exact ⟨1, .dataBlocked, by simp, by omega, fun _ => ⟨Nat.le_refl _, fun _ => ⟨_, ‹_›, ‹_›⟩⟩⟩
    · exact ⟨0, .dataBlocked, by simp, by omega, by simp⟩
  · exact ⟨0, .dataBlocked, by simp, by omega, by simp⟩

theorem mem_stalled {x : Nat × Nat} (h : x ∈ s.stalled k) :
    x.1 ∉ s.evicted ∧ s.params.stallAge ≤ k.now - x.2 ∧
      ∃ entered, (x.1, some entered) ∈ k.tracks ∧ x.2 ≤ entered ∧ entered < x.2 + 1000 := by
  obtain ⟨⟨id, entered⟩, htrack, hx⟩ := mem_filterMap.1 h
  cases entered with
  | none => simp at hx
  | some entered =>
    simp only [map_some, bind_some, ite_none_left_eq_some, ite_none_right_eq_some, some.injEq] at hx
    obtain ⟨hnew, hage, rfl⟩ := hx
    refine ⟨hnew, hage, entered, htrack, ?_⟩
    simp only [writeEnteredAt]
    omega

theorem stalled_nodup (h : (k.tracks.map Prod.fst).Nodup) :
    ((s.stalled k).map Prod.fst).Nodup := by
  rw [Nodup, pairwise_map] at h ⊢
  refine h.filterMap _ fun a b hne x hx y hy => ?_
  simp only [ite_none_left_eq_some, bind_eq_some_iff, ite_none_right_eq_some, some.injEq] at hx hy
  obtain ⟨-, _, -, -, rfl⟩ := hx
  obtain ⟨-, _, -, -, rfl⟩ := hy
  exact hne

theorem mergeSort_older (l : List (Nat × Nat)) :
    (l.mergeSort older).Pairwise fun a b => a.2 ≤ b.2 := by
  have hsorted : (l.mergeSort older).Pairwise fun a b => older a b := by
    apply pairwise_mergeSort <;> simp only [older] <;> grind
  exact hsorted.imp (by simp only [older]; grind)

theorem roseAt_some {now : Nat} (h : s.roseAt k = some now) :
    s.lastDataBlocked < k.dataBlocked ∧ k.now = now ∨ s.dataBlockedRoseAt = some now := by
  unfold roseAt at h
  split at h
  · exact .inl ⟨‹_›, some.inj h⟩
  · exact .inr h

theorem Inv.choice (hinv : s.Inv) (hids : (k.tracks.map Prod.fst).Nodup) :
    ∃ chosen rest reason, s.Choice k chosen rest reason := by
  obtain ⟨n, reason, hchosen, hn, hfew⟩ := @chosen_spec s k
  have hperm := mergeSort_perm (s.stalled k) older
  have hold := mergeSort_older (s.stalled k)
  have hlen := hperm.length_eq
  generalize (s.stalled k).mergeSort older = l at hperm hold hlen hchosen
  rw [← take_append_drop n l, pairwise_append] at hold
  refine ⟨l.take n, l.drop n, reason, ?_, ?_, ?_, hold.2.2, ?_, fun x hx => (mem_stalled hx).2, ?_⟩
  · rw [decide, hchosen, List.map_map]
    rfl
  · rw [take_append_drop]
    exact hperm.symm
  · rw [length_drop]
    omega
  · refine nodup_append.2 ⟨?_, hinv.once, ?_⟩
    · have hids' := (hperm.map Prod.fst).nodup_iff.2 (stalled_nodup hids)
      exact hids'.sublist ((take_sublist n l).map _)
    · rintro a ha b hb rfl
      obtain ⟨x, hx, rfl⟩ := List.mem_map.1 ha
      exact (mem_stalled (hperm.subset (mem_of_mem_take hx))).1 hb
  · intro hle
    obtain ⟨hone, hrise⟩ := hfew hle
    refine ⟨by rw [length_take]; omega, fun hne => ?_⟩
    obtain ⟨roseAt, hrose, hwithin⟩ := hrise (by rintro rfl; exact hne take_zero)
    rcases roseAt_some hrose with ⟨hnow, -⟩ | hbefore
    · exact .inl hnow
    · exact .inr ⟨roseAt, hwithin, hinv.rise roseAt hbefore⟩

theorem Inv.tick (hinv : s.Inv) (hs : s.tick k = some t) : t.Inv := by
  simp only [StallLedger.tick, ite_none_right_eq_some, some.injEq] at hs
  obtain ⟨hids, rfl⟩ := hs
  obtain ⟨chosen, rest, reason, hchoice⟩ := hinv.choice hids
  refine ⟨?_, fun now hnow => ?_⟩
  · simpa [hchoice.evictions, Function.comp_def] using hchoice.once
  simp only [decide, ite_none_right_eq_some, List.isEmpty_iff] at hnow
  obtain ⟨hnone, hrose⟩ := hnow
  rcases roseAt_some hrose with ⟨hlt, rfl⟩ | hbefore
  · exact ⟨[], _, s.calls, rfl, by simpa using hlt, rfl, by simp [decide, hnone]⟩
  obtain ⟨since, c, before, hcalls, hrise, hnow, hquiet⟩ := hinv.rise now hbefore
  refine ⟨_ :: since, c, before, by rw [cons_append, ← hcalls], hrise, hnow, ?_⟩
  rw [cons_append, forall_mem_cons]
  exact ⟨by simp [decide, hnone], hquiet⟩

/-- In every run of calls, with arbitrary tracked streams at each of them: a call leaves
at most `max_stalled` stalled streams, it chooses only streams recorded as inside one
write for `stall_age` and none that was chosen before, and it leaves none recorded as
stalled longer.  When there are at most `max_stalled`, it chooses at most one, and only
after a rise of the count that no choice has answered. -/
theorem only_stalled_are_stopped {params : StallParams} {dataBlocked : Nat} {ticks : List Tick}
    (hr : Run StallLedger.tick (fun _ _ => True) (new params dataBlocked) ticks s) (k : Tick)
    (hids : (k.tracks.map Prod.fst).Nodup) :
    ∃ chosen rest reason, s.Choice k chosen rest reason := by
  have hinv : s.Inv := hr.invariant (fun _ _ _ _ hs h => h.tick hs) ⟨nodup_nil, by simp [new]⟩
  exact hinv.choice hids

theorem only_stalled_are_stopped_after_one :
    ∃ s, Run StallLedger.tick (fun _ _ => True) (new ⟨1000, 0, 0⟩ 0)
        [⟨[(0, some 0)], 1000, 0⟩] s ∧ s.evicted = [0] ∧
      ∃ chosen rest reason, s.Choice ⟨[(0, some 0), (1, some 500)], 2000, 1⟩ chosen rest reason :=
  Run.exists_exec (fun s => s.evicted = [0]) (by decide +kernel) fun _ hr hevicted =>
    ⟨hevicted, only_stalled_are_stopped hr _ (by decide)⟩

/-- A stream that entered its write 999 ns after the epoch is stopped at 1000 ns, where
1000 ns are asked for. -/
theorem stopped_within_the_microsecond :
    ((new ⟨1000, 0, 0⟩ 0).decide ⟨[(0, some 999)], 1000, 0⟩).2 = [⟨0, .stalledLimit, 1000⟩] ∧
      ¬1000 ≤ 1000 - 999 := by
  decide +kernel

end StallLedger

end Qsh.Tunnel
