import Mathlib.Algebra.BigOperators.Group.List.Basic
import Qsh.Session.OutputPath

/-!
# Batches of scrollback

`ScreenHistory::batches` (`qsh-proto/src/wire.rs`) cuts the lines that left the screen into
messages that each fit `SESSION_CHUNK_MAX`.  Every message keeps room for a `skipped` field,
so a line is left out and counted when it does not fit beside one.
-/

namespace Qsh.Session

open List

abbrev Line := List UInt8

structure ScreenHistory where
  lines : List Line
  skipped : Nat

/-- `prost::encoding::encoded_len_varint`: a byte for every seven bits. -/
def encodedLenVarint (v : Nat) : Nat := v.log2 / 7 + 1

theorem encodedLenVarint_le {v : Nat} (h : v < 2 ^ 64) : encodedLenVarint v ≤ 10 := by
  have hlog : v.log2 < 64 := by
    by_cases h0 : v = 0
    · simp [h0]
    · exact (Nat.log2_lt h0).2 h
  unfold encodedLenVarint
  omega

namespace ScreenHistory

def entryLen (line : Line) : Nat := 1 + encodedLenVarint line.length + line.length

/-- A `skipped` count of zero is not encoded. -/
def encodedLen (m : ScreenHistory) : Nat :=
  (m.lines.map entryLen).sum + if m.skipped = 0 then 0 else 1 + encodedLenVarint m.skipped

def validate (m : ScreenHistory) : Bool := m.encodedLen ≤ SESSION_CHUNK_MAX

def SKIPPED_ROOM : Nat := 11

def cap : Nat := SESSION_CHUNK_MAX - SKIPPED_ROOM

/-- The locals of the loop; `cur` are the lines of the message that is being filled. -/
structure Packing where
  out : List ScreenHistory
  cur : List Line
  size : Nat
  oversize : Nat

/-- Adds a line to the batch, or starts the next one. -/
def pack (p : Packing) (line : Line) : Packing :=
  let n := entryLen line
  if cap < n then { p with oversize := p.oversize + 1 }
  else if cap < p.size + n then
    { p with out := p.out ++ [⟨p.cur, 0⟩], cur := [line], size := n }
  else { p with cur := p.cur ++ [line], size := p.size + n }

/-- The history in messages that fit, and the lines left out. -/
def batches (lines : List Line) (skipped : Nat) : List ScreenHistory × Nat :=
  let p := lines.foldl pack ⟨[], [], 0, 0⟩
  let skipped := min (skipped + p.oversize) (2 ^ 64 - 1)
  (if p.cur ≠ [] ∨ 0 < skipped then p.out ++ [⟨p.cur, skipped⟩] else p.out, p.oversize)

def fits (line : Line) : Bool := entryLen line ≤ cap

/-- What has been packed of the lines so far. -/
structure Packed (lines : List Line) (p : Packing) : Prop where
  kept : p.out.flatMap (·.lines) ++ p.cur = lines.filter fits
  full : ∀ m ∈ p.out, m.skipped = 0 ∧ m.lines ≠ [] ∧ (m.lines.map entryLen).sum ≤ cap
  size : p.size = (p.cur.map entryLen).sum
  room : p.size ≤ cap
  oversize : p.oversize = lines.countP (!fits ·)

variable {lines : List Line} {p : Packing}

theorem Packed.pack (h : Packed lines p) (line : Line) :
    Packed (lines ++ [line]) (pack p line) := by
  unfold ScreenHistory.pack
  dsimp only
  split
  · have hfits : fits line = false := by simpa [fits] using ‹cap < _›
    exact { h with
      kept := by simp [hfits, h.kept]
      oversize := by simp [hfits, h.oversize] }
  have hfits : fits line = true := by simpa [fits] using ‹¬cap < _›
  have hcount : p.oversize = (lines ++ [line]).countP (!fits ·) := by simp [hfits, h.oversize]
  split
  swap
  · exact ⟨by simp [hfits, ← h.kept], h.full, by simp [h.size], Nat.not_lt.1 ‹_›, hcount⟩
  -- the message is closed: it has lines, as this one alone fits
  have hcur : p.cur ≠ [] := by
    intro hnil
    have hsize := h.size
    simp only [hnil, map_nil, sum_nil] at hsize
    omega
  refine ⟨by simp [hfits, ← h.kept], fun m hm => ?_, by simp, Nat.not_lt.1 ‹_›, hcount⟩
  rcases mem_append.1 hm with hm | hm
  · exact h.full m hm
  · obtain rfl := mem_singleton.1 hm
    exact ⟨rfl, hcur, h.size ▸ h.room⟩

theorem Packed.foldl {done : List Line} (h : Packed done p) :
    Packed (done ++ lines) (lines.foldl ScreenHistory.pack p) := by
  induction lines generalizing done p with
  | nil => simpa using h
  | cons line lines ih => simpa using ih (h.pack line)

/-- Every message passes the receiver's check; the lines are those that fit beside a
`skipped` count, in their order; and the others are counted. -/
theorem batches_account {skipped : Nat} (h : skipped + lines.countP (!fits ·) < 2 ^ 64) :
    (∀ m ∈ (batches lines skipped).1, m.validate ∧ (m.lines = [] → 0 < m.skipped)) ∧
      (batches lines skipped).1.flatMap (·.lines) = lines.filter fits ∧
      ((batches lines skipped).1.map (·.skipped)).sum = skipped + lines.countP (!fits ·) := by
  have hnil : Packed [] ⟨[], [], 0, 0⟩ := ⟨rfl, by simp, rfl, Nat.zero_le _, rfl⟩
  have hp : Packed lines (lines.foldl pack ⟨[], [], 0, 0⟩) := hnil.foldl
  unfold batches
  generalize lines.foldl pack ⟨[], [], 0, 0⟩ = p at hp
  have hmin : min (skipped + p.oversize) (2 ^ 64 - 1) = skipped + p.oversize := by
    rw [hp.oversize]
    omega
  dsimp only
  rw [hmin, ← hp.oversize]
  have hcap : cap + 11 = SESSION_CHUNK_MAX := rfl
  have hout : ∀ m ∈ p.out, m.validate ∧ (m.lines = [] → 0 < m.skipped) := by
    intro m hm
    obtain ⟨hzero, hlines, hsum⟩ := hp.full m hm
    refine ⟨?_, fun hnil => absurd hnil hlines⟩
    simp only [validate, encodedLen, hzero, if_true, decide_eq_true_eq]
    omega
  have hzero : (p.out.map (·.skipped)).sum = 0 :=
    List.sum_eq_zero (by simpa using fun m hm => (hp.full m hm).1)
  split
  · rename_i hlast
    refine ⟨fun m hm => ?_, by simp [hp.kept], by simp [hzero]⟩
    rcases mem_append.1 hm with hm | hm
    · exact hout m hm
    obtain rfl := mem_singleton.1 hm
    refine ⟨?_, fun hnil => hlast.resolve_left (absurd hnil)⟩
    have hvarint := encodedLenVarint_le (hp.oversize ▸ h)
    have hroom := hp.size ▸ hp.room
    simp only [validate, encodedLen, decide_eq_true_eq]
    split <;> omega
  · rename_i hlast
    obtain ⟨hcur, hnone⟩ := not_or.1 hlast
    have hkept := hp.kept
    rw [not_not.1 hcur, append_nil] at hkept
    exact ⟨hout, hkept, by omega⟩

theorem entryLen_replicate (n : Nat) (b : UInt8) :
    entryLen (replicate n b) = 1 + encodedLenVarint n + n := by
  rw [entryLen, length_replicate]

/-- Two lines that do not fit one message, and between them one that fits none. -/
def threeLines : List Line := [replicate 9000 0, replicate 17000 1, replicate 9000 2]

theorem batches_account_threeLines :
    (batches threeLines 2).1.length = 2 ∧
      (batches threeLines 2).1.flatMap (·.lines) = [replicate 9000 0, replicate 9000 2] ∧
      ((batches threeLines 2).1.map (·.skipped)).sum = 3 := by
  have hkept : threeLines.filter fits = [replicate 9000 0, replicate 9000 2] := by
    simp only [threeLines, filter_cons, fits, entryLen_replicate]
    rfl
  have hcount : threeLines.countP (!fits ·) = 1 := by
    simp only [threeLines, countP_cons, fits, entryLen_replicate]
    rfl
  have haccount := @batches_account threeLines 2 (by rw [hcount]; decide)
  rw [hkept, hcount] at haccount
  refine ⟨?_, haccount.2⟩
  simp only [batches, threeLines, foldl_cons, foldl_nil, pack, entryLen_replicate]
  rfl

/-- A line that fits a message alone, but not beside a `skipped` count, is left out. -/
theorem fitting_line_left_out : ∃ line : Line,
    validate ⟨[line], 0⟩ ∧ (batches [line] 0).1.flatMap (·.lines) = [] := by
  refine ⟨replicate 16381 0, ?_, ?_⟩
  · rw [validate, encodedLen, map_singleton, entryLen_replicate]
    decide
  · simp only [batches, foldl_cons, foldl_nil, pack, entryLen_replicate]
    rfl

end ScreenHistory

end Qsh.Session
