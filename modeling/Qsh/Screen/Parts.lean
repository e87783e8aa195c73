import Qsh.Lib.Chunks
import Qsh.Screen.Update

/-!
# Parts of an update

`qsh-proto/src/screen/parts.rs`: an encoded update is cut into parts, and the
client puts the parts together again.  `Reassembler` is for the stream, where the
parts come in order.  `DatagramReassembler` is for datagrams, which come in any
order, twice or not at all.

A datagram part says which state it belongs to and nothing of the encoding it was cut
from, so parts of two encodings of one state can meet.
-/

namespace Qsh.Screen

open Qsh.Lib List

def PART_MAX : Nat := 16 * 1024

def MAX_PARTS : Nat := MAX_UPDATE_BYTES / PART_MAX

def MAX_DATAGRAM_PARTS : Nat := 64

inductive PartError
  | numbering
  | tooLarge
  | outOfOrder
  deriving DecidableEq, Repr

structure Part where
  newNum : Nat
  part : Nat
  parts : Nat
  data : List UInt8
  deriving DecidableEq, Repr

def partAt (newNum : Nat) (encoded : List UInt8) (n i : Nat) : Part where
  newNum := newNum
  part := i
  parts := chunkCount n encoded
  data := chunk n encoded i

/-! ## In order -/

/-- The update that is being collected from the stream. -/
structure Reassembler where
  newNum : Nat
  parts : Nat
  next : Nat
  buf : List UInt8
  deriving DecidableEq, Repr

namespace Reassembler

def new : Reassembler where
  newNum := 0
  parts := 0
  next := 0
  buf := []

def restart (r : Reassembler) (p : Part) : Reassembler :=
  if p.part = 0 then { new with newNum := p.newNum, parts := p.parts } else r

def append (r : Reassembler) (p : Part) :
    Except PartError (Reassembler × Option (List UInt8)) :=
  if MAX_UPDATE_BYTES < r.buf.length + p.data.length then .error .tooLarge
  else if p.part + 1 = r.parts then .ok (new, some (r.buf ++ p.data))
  else .ok ({ r with buf := r.buf ++ p.data, next := p.part + 1 }, none)

/-- Takes one part: the first of an update, or the next one. -/
def pushInner (r : Reassembler) (p : Part) :
    Except PartError (Reassembler × Option (List UInt8)) :=
  if p.parts = 0 ∨ MAX_PARTS < p.parts ∨ p.parts ≤ p.part then .error .numbering
  else if PART_MAX < p.data.length then .error .tooLarge
  else if p.part ≠ 0 ∧ (r.parts = 0 ∨ p.newNum ≠ r.newNum ∨ p.parts ≠ r.parts ∨ p.part ≠ r.next)
    then .error .outOfOrder
  else (r.restart p).append p

/-- Offer one part: the complete update, or `none` if more parts are needed.
An error leaves the reassembler empty. -/
def push (r : Reassembler) (p : Part) : Reassembler × Except PartError (Option (List UInt8)) :=
  match r.pushInner p with
  | .ok (r', out) => (r', .ok out)
  | .error e => (new, .error e)

def holding (newNum : Nat) (encoded : List UInt8) (k : Nat) : Reassembler where
  newNum := newNum
  parts := chunkCount PART_MAX encoded
  next := k
  buf := encoded.take (k * PART_MAX)

variable {newNum k : Nat} {encoded : List UInt8}

theorem append_partAt (hcap : encoded.length ≤ MAX_UPDATE_BYTES) :
    (holding newNum encoded k).append (partAt newNum encoded PART_MAX k) =
      if k + 1 = chunkCount PART_MAX encoded then .ok (new, some encoded)
      else .ok (holding newNum encoded (k + 1), none) := by
  have hbuf : (holding newNum encoded k).buf ++ (partAt newNum encoded PART_MAX k).data =
      encoded.take ((k + 1) * PART_MAX) := take_append_chunk _ _ _
  have hfits : ¬MAX_UPDATE_BYTES < (holding newNum encoded k).buf.length +
      (partAt newNum encoded PART_MAX k).data.length := by
    rw [← length_append, hbuf, length_take]
    omega
  unfold append
  rw [if_neg hfits, hbuf]
  show (if k + 1 = chunkCount PART_MAX encoded then _ else _) = _
  split_ifs with hlast
  · rw [hlast, take_chunkCount_mul (by decide)]
  · rfl

theorem push_partAt {r : Reassembler}
    (hcap : encoded.length ≤ MAX_UPDATE_BYTES) (hk : k < chunkCount PART_MAX encoded)
    (hr : k = 0 ∨ r = holding newNum encoded k) :
    r.push (partAt newNum encoded PART_MAX k) =
      if k + 1 = chunkCount PART_MAX encoded then (new, .ok (some encoded))
      else (holding newNum encoded (k + 1), .ok none) := by
  have hcount : chunkCount PART_MAX encoded ≤ MAX_PARTS :=
    chunkCount_le (by decide) (by decide) hcap
  have hstart : r.restart (partAt newNum encoded PART_MAX k) = holding newNum encoded k := by
    unfold restart
    split_ifs with hzero
    · have hzero : k = 0 := hzero
      simp [holding, new, partAt, hzero]
    · exact hr.resolve_left hzero
  have hinner : r.pushInner (partAt newNum encoded PART_MAX k) =
      (holding newNum encoded k).append (partAt newNum encoded PART_MAX k) := by
    unfold pushInner
    rw [if_neg, if_neg, if_neg, hstart]
    · rintro ⟨hne, hother⟩
      have hr := hr.resolve_left hne
      rw [hr] at hother
      simp only [partAt, holding] at hother
      omega
    · exact not_lt.2 (length_chunk_le _ _ _)
    · simp only [partAt]
      omega
  rw [push, hinner, append_partAt hcap]
  split_ifs
  · rfl
  · rfl

end Reassembler

/-! ## In any order -/

/-- The update that is being collected from datagrams. -/
structure DatagramReassembler where
  newNum : Nat
  /-- Highest state completed. -/
  done : Nat
  parts : Nat
  got : Nat
  slots : List (Option (List UInt8))
  bytes : Nat
  deriving DecidableEq, Repr

namespace DatagramReassembler

def new : DatagramReassembler where
  newNum := 0
  done := 0
  parts := 0
  got := 0
  slots := []
  bytes := 0

def reset (r : DatagramReassembler) : DatagramReassembler :=
  { r with parts := 0, got := 0, slots := [], bytes := 0 }

def start (r : DatagramReassembler) (p : Part) : DatagramReassembler :=
  { r.reset with newNum := p.newNum, parts := p.parts, slots := replicate p.parts none }

/-- Puts a part into its slot, and gives the update when all are there. -/
def fill (r : DatagramReassembler) (p : Part) :
    DatagramReassembler × Except PartError (Option (List UInt8)) :=
  if (r.slots[p.part]?.getD none).isSome then (r, .ok none)
  else if MAX_UPDATE_BYTES < r.bytes + p.data.length then (r.reset, .error .tooLarge)
  else
    let slots := r.slots.set p.part (some p.data)
    if r.got + 1 = r.parts then
      ({ r.reset with done := p.newNum }, .ok (some (slots.filterMap id).flatten))
    else
      ({ r with bytes := r.bytes + p.data.length, slots := slots, got := r.got + 1 }, .ok none)

/-- Offer one part: the complete update, or `none` if more parts are needed or
the part is of a state older than the one being built. -/
def push (r : DatagramReassembler) (p : Part) :
    DatagramReassembler × Except PartError (Option (List UInt8)) :=
  if p.parts = 0 ∨ MAX_DATAGRAM_PARTS < p.parts ∨ p.parts ≤ p.part then (r, .error .numbering)
  else if PART_MAX < p.data.length then (r, .error .tooLarge)
  else if p.newNum < r.done ∨ (r.parts ≠ 0 ∧ p.newNum < r.newNum) then (r, .ok none)
  else if r.parts = 0 ∨ r.newNum < p.newNum then (r.start p).fill p
  else if p.parts ≠ r.parts then (r.reset, .error .outOfOrder)
  else r.fill p

def Joins (r : DatagramReassembler) (p : Part) : Prop :=
  r.parts ≠ 0 ∧ p.newNum = r.newNum

instance (r : DatagramReassembler) (p : Part) : Decidable (r.Joins p) :=
  inferInstanceAs (Decidable (_ ∧ _))

def Begins (r : DatagramReassembler) (p : Part) : Prop :=
  (p.part < p.parts ∧ p.parts ≤ MAX_DATAGRAM_PARTS ∧ p.data.length ≤ PART_MAX) ∧
    r.done ≤ p.newNum ∧ (r.parts = 0 ∨ r.newNum < p.newNum)

instance (r : DatagramReassembler) (p : Part) : Decidable (r.Begins p) :=
  inferInstanceAs (Decidable (_ ∧ _))

/-- What is known of the parts that are in: `P` holds of the number of the
state, the number of parts, the place of the part and its bytes. -/
structure Filled (P : Nat → Nat → Nat → List UInt8 → Prop) (r : DatagramReassembler) : Prop where
  length : r.slots.length = r.parts
  got : r.slots.countP Option.isSome = r.got
  slot : ∀ i data, r.slots[i]? = some (some data) → P r.newNum r.parts i data

variable {P : Nat → Nat → Nat → List UInt8 → Prop} {r : DatagramReassembler} {p : Part}

theorem Filled.of_empty (hparts : r.parts = 0) (hgot : r.got = 0) (hslots : r.slots = []) :
    Filled P r where
  length := by rw [hslots, hparts]; rfl
  got := by rw [hslots, hgot]; rfl
  slot i data h := by rw [hslots] at h; cases h

theorem Filled.start : Filled P (r.start p) where
  length := length_replicate
  got := countP_eq_zero.2 fun x hx => by
    rw [eq_of_mem_replicate hx]
    nofun
  slot i data h := by
    have := eq_of_mem_replicate (mem_of_getElem? h)
    cases this

theorem push_cases (r : DatagramReassembler) (p : Part) :
    (¬r.Begins p ∧ ∃ out, r.push p = (r, out) ∧ ∀ bytes, out ≠ .ok (some bytes)) ∨
    (¬r.Begins p ∧ ∃ e, r.push p = (r.reset, .error e)) ∨
    (¬r.Begins p ∧ r.Joins p ∧ p.part < r.parts ∧ p.parts = r.parts ∧ r.push p = r.fill p) ∨
    (r.Begins p ∧ r.push p = (r.start p).fill p) := by
  unfold push Begins Joins
  split_ifs with hnum hlen hold hnew hparts
  · exact .inl ⟨by omega, _, rfl, nofun⟩
  · exact .inl ⟨by omega, _, rfl, nofun⟩
  · exact .inl ⟨by omega, _, rfl, nofun⟩
  · exact .inr (.inr (.inr ⟨by omega, rfl⟩))
  · exact .inr (.inl ⟨by omega, _, rfl⟩)
  · exact .inr (.inr (.inl ⟨by omega, ⟨by omega, by omega⟩, by omega, by omega, rfl⟩))

theorem Filled.set (hr : Filled P r) (hp : P r.newNum r.parts p.part p.data)
    (hpart : p.part < r.parts) (hempty : (r.slots[p.part]?.getD none).isSome = false) :
    Filled P
      { r with
        bytes := r.bytes + p.data.length
        slots := r.slots.set p.part (some p.data)
        got := r.got + 1 } where
  length := length_set.trans hr.length
  got := by
    have hlt : p.part < r.slots.length := hr.length ▸ hpart
    rw [getElem?_eq_getElem hlt, Option.getD_some] at hempty
    rw [countP_set hlt, hempty, hr.got]
    rfl
  slot i data h := by
    rw [getElem?_set] at h
    split_ifs at h with heq hlt
    · cases h
      exact heq ▸ hp
    · exact hr.slot i data h

theorem exists_of_all_isSome {α : Type} {l : List (Option α)} (h : ∀ x ∈ l, x.isSome = true) :
    ∃ ds : List α, l = ds.map some := by
  induction l with
  | nil => exact ⟨[], rfl⟩
  | cons x l ih =>
    obtain ⟨a, ha⟩ := Option.isSome_iff_exists.1 (h x mem_cons_self)
    obtain ⟨ds, hds⟩ := ih fun y hy => h y (mem_cons_of_mem _ hy)
    exact ⟨a :: ds, by rw [ha, hds, map_cons]⟩

theorem fill_spec (hr : Filled P r) (hp : P r.newNum r.parts p.part p.data)
    (hpart : p.part < r.parts) :
    Filled P (r.fill p).1 ∧ ∀ bytes, (r.fill p).2 = .ok (some bytes) →
      ∃ ds : List (List UInt8), ds.length = r.parts ∧ bytes = ds.flatten ∧
        ∀ i data, ds[i]? = some data → P r.newNum r.parts i data := by
  unfold fill
  split_ifs with hthere hcap hlast
  · exact ⟨hr, nofun⟩
  · exact ⟨.of_empty rfl rfl rfl, nofun⟩
  · refine ⟨.of_empty rfl rfl rfl, fun bytes h => ?_⟩
    have hset := hr.set hp hpart (Bool.not_eq_true _ ▸ hthere)
    -- as many parts as places, so no place is empty
    obtain ⟨ds, hds⟩ := exists_of_all_isSome
      (countP_eq_length.1 (hset.got.trans (hlast.trans hset.length.symm)))
    have hds : r.slots.set p.part (some p.data) = ds.map some := hds
    simp only [hds, filterMap_map, Function.id_comp, filterMap_some, Except.ok.injEq,
      Option.some.injEq] at h
    refine ⟨ds, ?_, h.symm, fun i data hi => hset.slot i data ?_⟩
    · have := hset.length
      rw [hds, length_map] at this
      exact this
    · rw [hds, getElem?_map, hi]
      rfl
  · exact ⟨hr.set hp hpart (Bool.not_eq_true _ ▸ hthere), nofun⟩

theorem push_spec (hr : ¬r.Begins p → Filled P r)
    (hp : r.Joins p ∨ r.Begins p → P p.newNum p.parts p.part p.data) :
    Filled P (r.push p).1 ∧ ∀ bytes, (r.push p).2 = .ok (some bytes) →
      ∃ ds : List (List UInt8), ds.length = p.parts ∧ bytes = ds.flatten ∧
        ∀ i data, ds[i]? = some data → P p.newNum p.parts i data := by
  rcases push_cases r p with ⟨hold, out, h, hout⟩ | ⟨hold, e, h⟩ | ⟨hold, hjoin, hpart, hparts, h⟩ |
    ⟨hbegin, h⟩
  · rw [h]
    exact ⟨hr hold, fun bytes hbytes => absurd hbytes (hout bytes)⟩
  · rw [h]
    exact ⟨.of_empty rfl rfl rfl, nofun⟩
  · have hp := hp (.inl hjoin)
    rw [hjoin.2, hparts] at hp ⊢
    rw [h]
    exact fill_spec (hr hold) hp hpart
  · rw [h]
    exact fill_spec (r := r.start p) .start (hp (.inr hbegin)) hbegin.1.1

theorem Filled.mono {Q : Nat → Nat → Nat → List UInt8 → Prop} (hr : Filled P r)
    (h : ∀ n k i data, P n k i data → Q n k i data) : Filled Q r where
  __ := hr
  slot i data hi := h _ _ _ _ (hr.slot i data hi)

end DatagramReassembler

end Qsh.Screen
