import Qsh.Lib.Slice

/-!
# The client's output cursor

`AttachEvent` and `OutputCursor` (`client/reconnect.rs`).  The cursor filters what the legs
of one attach bring in: a frame that was delivered before is dropped, and one that overlaps
is trimmed.  A frame is the event the client decodes it to.

`Framed`: a list of frames continues the output stream from an offset.  `Delivered` is what
the cursor promises about everything it let through; `Delivered.accept` holds for a frame
that continues from any offset the cursor has reached, whichever leg it came on.
-/

namespace Qsh.Client

open Qsh.Lib List

inductive AttachEvent
  | output (sequence : Nat) (data : List UInt8)
  | gap (requestedAfter availableFrom : Nat)
  | inputAck (ackedInputSeq : Nat)
  | exit (finalSeq : Nat) (exitCode : Int) (signal : Option String)
  deriving DecidableEq, Repr

structure OutputCursor where
  lastSeq : Nat
  deriving DecidableEq, Repr

/-- Filter one event: the cursor afterwards, and the event to hand on, if it
was not delivered before.  `u64` subtraction saturates here as in the source. -/
def OutputCursor.accept (cur : OutputCursor) (event : AttachEvent) :
    OutputCursor × Option AttachEvent :=
  match event with
  | .output sequence data =>
      let start := sequence - data.length
      if sequence ≤ cur.lastSeq then (cur, none)
      else
        let skip := cur.lastSeq - start
        (⟨sequence⟩, some (.output sequence (data.drop skip)))
  | .gap requestedAfter availableFrom =>
      (⟨max cur.lastSeq availableFrom⟩, some (.gap requestedAfter availableFrom))
  | .exit finalSeq exitCode signal =>
      (⟨max cur.lastSeq finalSeq⟩, some (.exit finalSeq exitCode signal))
  | other => (cur, some other)

/-- The offset that a frame takes the client to. -/
def AttachEvent.reaches : AttachEvent → Nat
  | .output sequence _ => sequence
  | .gap _ availableFrom => availableFrom
  | .inputAck _ => 0
  | .exit finalSeq _ _ => finalSeq

/-- The cursor goes as far as the frame reaches, and never back. -/
theorem OutputCursor.reaches_le_accept (cur : OutputCursor) (frame : AttachEvent) :
    frame.reaches ≤ (cur.accept frame).1.lastSeq ∧ cur.lastSeq ≤ (cur.accept frame).1.lastSeq := by
  cases frame with
  | output sequence data =>
    simp only [accept, AttachEvent.reaches]
    split
    · exact ⟨‹_›, Nat.le_refl _⟩
    · exact ⟨Nat.le_refl _, Nat.le_of_not_le ‹_›⟩
  | gap | exit => exact ⟨Nat.le_max_right _ _, Nat.le_max_left _ _⟩
  | inputAck => exact ⟨Nat.zero_le _, Nat.le_refl _⟩

/-! ## Frames that continue a stream -/

/-- `frames` continue the stream `bytes` from offset `p` to offset `p'`. -/
inductive Framed (bytes : List UInt8) : Nat → List AttachEvent → Nat → Prop
  | nil (p : Nat) : Framed bytes p [] p
  | output {p p' : Nat} {data : List UInt8} {rest : List AttachEvent}
      (hend : p + data.length ≤ bytes.length)
      (hd : slice bytes p (p + data.length) = data)
      (hr : Framed bytes (p + data.length) rest p') :
      Framed bytes p (.output (p + data.length) data :: rest) p'
  | gap {p hi p' : Nat} {rest : List AttachEvent} (hhi : p ≤ hi)
      (hend : hi ≤ bytes.length) (hr : Framed bytes hi rest p') :
      Framed bytes p (.gap p hi :: rest) p'
  | exit {p p' : Nat} {exitCode : Int} {signal : Option String}
      {rest : List AttachEvent} (hr : Framed bytes p rest p') :
      Framed bytes p (.exit p exitCode signal :: rest) p'

namespace Framed

variable {bytes bytes' : List UInt8} {p p₁ p' : Nat} {frames frames' : List AttachEvent}

theorem append (hf : Framed bytes p frames p₁) (hf' : Framed bytes p₁ frames' p') :
    Framed bytes p (frames ++ frames') p' := by
  induction hf with
  | nil => exact hf'
  | output hend hd _ ih => exact .output hend hd (ih hf')
  | gap hhi hend _ ih => exact .gap hhi hend (ih hf')
  | exit _ ih => exact .exit (ih hf')

theorem mono (hle : bytes <+: bytes') (hf : Framed bytes p frames p') :
    Framed bytes' p frames p' := by
  induction hf with
  | nil p => exact .nil p
  | output hend hd _ ih =>
    obtain ⟨more, rfl⟩ := hle
    refine .output (by rw [length_append]; omega) ?_ ih
    rw [slice_append_left hend]
    exact hd
  | gap hhi hend _ ih => exact .gap hhi (Nat.le_trans hend hle.length_le) ih
  | exit _ ih => exact .exit ih

end Framed

/-! ## What was let through -/

/-- The output that these events put on the terminal. -/
def shownBytes : List AttachEvent → List UInt8
  | [] => []
  | .output _ data :: rest => data ++ shownBytes rest
  | _ :: rest => shownBytes rest

/-- The offsets of those bytes. -/
def shownOffsets : List AttachEvent → List Nat
  | [] => []
  | .output sequence data :: rest =>
      List.range' (sequence - data.length) data.length ++ shownOffsets rest
  | _ :: rest => shownOffsets rest

/-- What the cursor promises about everything it let through: the bytes are
the session's output at strictly increasing offsets, and an offset in front of
the cursor that was not shown lies in a gap the client was told about. -/
structure Delivered (bytes : List UInt8) (lastSeq : Nat) (shown : List AttachEvent) :
    Prop where
  lastSeq_le : lastSeq ≤ bytes.length
  ordered : (shownOffsets shown).Pairwise (· < ·)
  below : ∀ x ∈ shownOffsets shown, x < lastSeq
  content : (shownOffsets shown).map (fun x => bytes[x]?) = (shownBytes shown).map some
  told : ∀ x < lastSeq, x ∈ shownOffsets shown ∨ ∃ lo hi, .gap lo hi ∈ shown ∧ lo ≤ x ∧ x < hi

theorem shownOffsets_append (xs ys : List AttachEvent) :
    shownOffsets (xs ++ ys) = shownOffsets xs ++ shownOffsets ys := by
  induction xs with
  | nil => rfl
  | cons e xs ih => cases e <;> simp [shownOffsets, ih]

theorem shownBytes_append (xs ys : List AttachEvent) :
    shownBytes (xs ++ ys) = shownBytes xs ++ shownBytes ys := by
  induction xs with
  | nil => rfl
  | cons e xs ih => cases e <;> simp [shownBytes, ih]

namespace Delivered

variable {bytes bytes' : List UInt8} {lastSeq : Nat} {shown : List AttachEvent}

theorem empty (bytes : List UInt8) : Delivered bytes 0 [] where
  lastSeq_le := Nat.zero_le _
  ordered := .nil
  below := by simp [shownOffsets]
  content := rfl
  told := by omega

theorem mono (hle : bytes <+: bytes') (hd : Delivered bytes lastSeq shown) :
    Delivered bytes' lastSeq shown where
  lastSeq_le := Nat.le_trans hd.lastSeq_le hle.length_le
  __ := hd
  content := by
    rw [← hd.content]
    refine map_congr_left fun x hx => ?_
    have hlt := Nat.lt_of_lt_of_le (hd.below x hx) hd.lastSeq_le
    obtain ⟨more, rfl⟩ := hle
    exact getElem?_append_left hlt

section

variable (hd : Delivered bytes lastSeq shown)
include hd

theorem output {sequence : Nat} {data : List UInt8}
    (hseq : sequence = lastSeq + data.length) (hend : sequence ≤ bytes.length)
    (hslice : slice bytes lastSeq sequence = data) :
    Delivered bytes sequence (shown ++ [.output sequence data]) := by
  have hoff : shownOffsets [.output sequence data] = List.range' lastSeq data.length := by
    rw [shownOffsets, shownOffsets, append_nil, hseq, Nat.add_sub_cancel]
  have hbytes : shownBytes [.output sequence data] = data := by
    rw [shownBytes, shownBytes, append_nil]
  refine ⟨hend, ?_, ?_, ?_, ?_⟩
  · rw [shownOffsets_append, hoff, pairwise_append]
    refine ⟨hd.ordered, pairwise_lt_range', ?_⟩
    intro x hx y hy
    have := hd.below x hx
    have := (mem_range'_1.1 hy).1
    omega
  · intro x hx
    rw [shownOffsets_append, hoff, mem_append, mem_range'_1] at hx
    rcases hx with hx | hx
    · have := hd.below x hx
      omega
    · omega
  · rw [shownOffsets_append, shownBytes_append, map_append, map_append, hd.content, hoff, hbytes]
    congr 1
    refine ext_getElem? fun n => ?_
    by_cases hn : n < data.length
    · rw [getElem?_map, getElem?_map, getElem?_range' hn, ← hslice, getElem?_slice (by omega)]
      have hin : lastSeq + n < bytes.length := by omega
      simp [getElem?_eq_getElem hin]
    · rw [getElem?_eq_none (by simpa using hn), getElem?_eq_none (by simpa using hn)]
  · intro x hx
    rw [shownOffsets_append, hoff, mem_append, mem_range'_1]
    by_cases hold : x < lastSeq
    · rcases hd.told x hold with hs | ⟨lo, hi, hg, hr⟩
      · exact .inl (.inl hs)
      · exact .inr ⟨lo, hi, mem_append_left _ hg, hr⟩
    · exact .inl (.inr ⟨by omega, by omega⟩)

theorem gap {lo hi : Nat} (hlo : lo ≤ lastSeq) (hend : hi ≤ bytes.length) :
    Delivered bytes (max lastSeq hi) (shown ++ [.gap lo hi]) := by
  have hoff : shownOffsets (shown ++ [.gap lo hi]) = shownOffsets shown := by
    rw [shownOffsets_append]
    exact append_nil _
  have hbytes : shownBytes (shown ++ [.gap lo hi]) = shownBytes shown := by
    rw [shownBytes_append]
    exact append_nil _
  refine ⟨Nat.max_le.2 ⟨hd.lastSeq_le, hend⟩, ?_, ?_, ?_, ?_⟩
  · rw [hoff]
    exact hd.ordered
  · intro x hx
    rw [hoff] at hx
    have := hd.below x hx
    omega
  · rw [hoff, hbytes]
    exact hd.content
  intro x hx
  rw [hoff]
  by_cases hold : x < lastSeq
  · rcases hd.told x hold with hs | ⟨lo', hi', hg, hr⟩
    · exact .inl hs
    · exact .inr ⟨lo', hi', mem_append_left _ hg, hr⟩
  · exact .inr ⟨lo, hi, mem_append_right _ mem_cons_self, by omega, by omega⟩

theorem exit (finalSeq : Nat) (exitCode : Int) (signal : Option String) :
    Delivered bytes lastSeq (shown ++ [.exit finalSeq exitCode signal]) := by
  refine ⟨hd.lastSeq_le, ?_, ?_, ?_, ?_⟩
  · simpa [shownOffsets_append, shownOffsets] using hd.ordered
  · simpa [shownOffsets_append, shownOffsets] using hd.below
  · simpa [shownOffsets_append, shownOffsets, shownBytes_append, shownBytes] using hd.content
  · simpa [shownOffsets_append, shownOffsets] using hd.told

end

theorem accept {cur : OutputCursor} (hd : Delivered bytes cur.lastSeq shown)
    {p p' : Nat} {frame : AttachEvent} {rest : List AttachEvent}
    (hf : Framed bytes p (frame :: rest) p') (hp : p ≤ cur.lastSeq) :
    Delivered bytes (cur.accept frame).1.lastSeq (shown ++ (cur.accept frame).2.toList) ∧
      ∃ p₁ ≤ (cur.accept frame).1.lastSeq, Framed bytes p₁ rest p' := by
  cases hf with
  | @output _ _ data _ hend hslice hr =>
    unfold OutputCursor.accept
    dsimp only
    by_cases hold : p + data.length ≤ cur.lastSeq
    · rw [if_pos hold, Option.toList_none, append_nil]
      exact ⟨hd, _, hold, hr⟩
    rw [if_neg hold, Nat.add_sub_cancel]
    refine ⟨hd.output ?_ hend ?_, _, Nat.le_refl _, hr⟩
    · show p + data.length = cur.lastSeq + (data.drop (cur.lastSeq - p)).length
      rw [length_drop]
      omega
    · rw [← hslice, drop_slice, hslice]
      rw [show p + (cur.lastSeq - p) = cur.lastSeq by omega]
  | gap hhi hend hr =>
    exact ⟨hd.gap hp hend, _, Nat.le_max_right _ _, hr⟩
  | exit hr =>
    -- the exit sits at the offset its leg has reached, so it moves nothing
    have hmax : max cur.lastSeq p = cur.lastSeq := by omega
    unfold OutputCursor.accept
    dsimp only
    rw [hmax]
    exact ⟨hd.exit _ _ _, p, hp, hr⟩

end Delivered

end Qsh.Client
