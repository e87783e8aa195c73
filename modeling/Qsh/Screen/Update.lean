import Qsh.Screen.DiffCodec

/-!
# Screen updates

`Effect` and `ScreenUpdate` in
`qsh-proto/src/screen/diff.rs`: the message that takes a client from
one numbered screen to a later one, with the effects outside the grid that
happened in between.

`ScreenUpdate.decode_eq_ok_iff` says exactly what the decoder accepts: the encodings,
up to the size cap, of the updates that obey the rules of the format.
-/

namespace Qsh.Screen

open Qsh.Lib List

def MAX_TITLE_BYTES : Nat := 1024

def MAX_CLIPBOARD_BYTES : Nat := 64 * 1024

def MAX_HYPERLINK_PARAMS : Nat := 256

def MAX_HYPERLINK_URI : Nat := 2048

def MAX_EFFECTS : Nat := 64

def MAX_UPDATE_BYTES : Nat := 1024 * 1024

def MAX_SELECTION_BYTES : Nat := 8

/-! ## Effects -/

/-- What output does besides changing cells. -/
inductive Effect
  | title (t : Text)
  | bell
  | clipboard (selection data : Text)
  | hyperlink (params uri : Text)
  deriving DecidableEq, Repr

def PlainText (t : Text) (max : Nat) : Prop :=
  t.len ≤ max ∧ t.any isControl = false

instance (t : Text) (max : Nat) : Decidable (PlainText t max) := by
  unfold PlainText
  infer_instance

def isBase64 (b : UInt8) : Bool :=
  (48 ≤ b && b ≤ 57) || (65 ≤ b && b ≤ 90) || (97 ≤ b && b ≤ 122) || b == 43 || b == 47 || b == 61

def Base64Text (t : Text) : Prop :=
  t.len ≤ MAX_CLIPBOARD_BYTES ∧ t.bytes.all isBase64 = true

instance (t : Text) : Decidable (Base64Text t) := by
  unfold Base64Text
  infer_instance

def SelectionText (t : Text) : Prop :=
  t.len ≤ MAX_SELECTION_BYTES ∧
    t.bytes.all (fun b => [99, 112, 113, 115, 48, 49, 50, 51, 52, 53, 54, 55].contains b) = true

instance (t : Text) : Decidable (SelectionText t) := by
  unfold SelectionText
  infer_instance

namespace Effect

def IsValid : Effect → Prop
  | title t => PlainText t MAX_TITLE_BYTES
  | bell => True
  | clipboard selection data => SelectionText selection ∧ Base64Text data
  | hyperlink params uri => PlainText params MAX_HYPERLINK_PARAMS ∧ PlainText uri MAX_HYPERLINK_URI

instance (e : Effect) : Decidable e.IsValid := by
  cases e <;> unfold IsValid <;> infer_instance

def tag : Effect → UInt8
  | title _ => 1
  | bell => 2
  | clipboard _ _ => 3
  | hyperlink _ _ => 4

def putBody : Effect → List UInt8
  | title t => putString t
  | bell => []
  | clipboard selection data | hyperlink selection data => putString selection ++ putString data

def put (e : Effect) : List UInt8 :=
  e.tag :: e.putBody

theorem one_le_length_put (e : Effect) : 1 ≤ e.put.length := by
  simp [put]

/-- The texts are no longer than the reader's limits. -/
def TextsFit : Effect → Prop
  | title t => t.len ≤ MAX_TITLE_BYTES
  | bell => True
  | clipboard selection data => selection.len ≤ MAX_SELECTION_BYTES ∧ data.len ≤ MAX_CLIPBOARD_BYTES
  | hyperlink params uri => params.len ≤ MAX_HYPERLINK_PARAMS ∧ uri.len ≤ MAX_HYPERLINK_URI

theorem IsValid.textsFit {e : Effect} (h : e.IsValid) : e.TextsFit := by
  cases e with
  | title t => exact h.1
  | bell => trivial
  | clipboard | hyperlink => exact ⟨h.1.1, h.2.1⟩

end Effect

namespace Read

def texts (max max' : Nat) : Read (Text × Text) := do
  let t ← string max
  let t' ← string max'
  pure (t, t')

def effectBody (tag : UInt8) : Read Effect :=
  if tag = 1 then do
    let t ← string MAX_TITLE_BYTES
    pure (.title t)
  else if tag = 2 then pure .bell
  else if tag = 3 then do
    let p ← texts MAX_SELECTION_BYTES MAX_CLIPBOARD_BYTES
    pure (.clipboard p.1 p.2)
  else if tag = 4 then do
    let p ← texts MAX_HYPERLINK_PARAMS MAX_HYPERLINK_URI
    pure (.hyperlink p.1 p.2)
  else throw (.invalid "unknown effect kind")

def effect : Read Effect := do
  let tag ← u8
  let e ← effectBody tag
  ensure e.IsValid (.invalid "effect text breaks its rules")
  pure e

theorem exact_texts {max max' : Nat} (h : max < 2 ^ 64) (h' : max' < 2 ^ 64) :
    Exact (texts max max') (fun p => p.1.len ≤ max ∧ p.2.len ≤ max')
      (fun p => putString p.1 ++ putString p.2) :=
  ((exact_string h).bind (f := Prod.fst) (fun _ _ => (exact_string h').bind (f := Prod.snd)
    (fun _ _ => .ret _) (by grind)) (by grind)).congr (fun p => by simp) fun _ _ => by simp

theorem exact_effectBody (tag : UInt8) :
    Exact (effectBody tag) (fun e => e.tag = tag ∧ e.TextsFit) Effect.putBody where
  read_put e rest h := by
    obtain ⟨rfl, hfit⟩ := h
    cases e with
    | title t => exact run_bind_of_ok ((exact_string (by decide)).read_put t rest hfit)
    | bell => rfl
    | clipboard selection data =>
      exact run_bind_of_ok
        ((exact_texts (by decide) (by decide)).read_put (selection, data) rest hfit)
    | hyperlink params uri =>
      exact run_bind_of_ok ((exact_texts (by decide) (by decide)).read_put (params, uri) rest hfit)
  of_read b e rest h := by
    unfold effectBody at h
    split_ifs at h with h1 h2 h3 h4
    · obtain ⟨t, mid, ht, h⟩ := run_bind_eq_ok h
      cases h
      obtain ⟨hfit, hb⟩ := (exact_string (by decide)).of_read _ _ _ ht
      exact ⟨⟨h1.symm, hfit⟩, hb⟩
    · cases h
      exact ⟨⟨h2.symm, trivial⟩, rfl⟩
    · obtain ⟨p, mid, hp, h⟩ := run_bind_eq_ok h
      cases h
      obtain ⟨hfit, hb⟩ := (exact_texts (by decide) (by decide)).of_read _ _ _ hp
      exact ⟨⟨h3.symm, hfit⟩, hb⟩
    · obtain ⟨p, mid, hp, h⟩ := run_bind_eq_ok h
      cases h
      obtain ⟨hfit, hb⟩ := (exact_texts (by decide) (by decide)).of_read _ _ _ hp
      exact ⟨⟨h4.symm, hfit⟩, hb⟩
    · cases h

theorem exact_effect : Exact effect Effect.IsValid Effect.put := by
  refine (exact_u8.bind (f := Effect.tag) (fun tag _ => (exact_effectBody tag).bind (f := id)
    (fun e _ => .check fun _ => .ret e) (by grind)) (by grind)).congr
    (fun e => ?_) (fun _ _ => by simp [Effect.put])
  exact ⟨fun h => ⟨trivial, ⟨rfl, h.textsFit⟩, h, rfl⟩, fun h => h.2.2.1⟩

end Read

/-! ## Updates -/

/-- The host's screen message: the difference from state `baseNum` to state
`newNum`, the output offset the new state reflects, the effects in between,
and the hash of the new state.  Base 0 is the blank screen. -/
structure ScreenUpdate where
  baseNum : Nat
  newNum : Nat
  outputSeq : Nat
  diff : ScreenDiff
  effects : List Effect
  stateHash : Hash
  deriving DecidableEq

namespace ScreenUpdate

/-- The new state, if its hash is the announced one. -/
def apply (blake3 : List UInt8 → Hash) (u : ScreenUpdate) (base : ScreenState) :
    Except (Fault ApplyError) ScreenState := do
  let state ← u.diff.apply base
  if state.hash blake3 = u.stateHash then pure state else .error (.err .hashMismatch)

def header (u : ScreenUpdate) : List UInt8 :=
  putVarint u.baseNum ++ (putVarint u.newNum ++ (putVarint u.outputSeq ++ u.stateHash.val))

/-- The bytes of an update. -/
def encode (u : ScreenUpdate) : List UInt8 :=
  u.header ++ ((putVarint u.effects.length ++ u.effects.flatMap Effect.put) ++ u.diff.encode)

end ScreenUpdate

namespace Read

def stateHash : Read Hash := fun buf =>
  if h : buf.length < HASH_LEN then .error .truncated
  else .ok (⟨buf.take HASH_LEN, length_take_of_le (not_lt.1 h)⟩, buf.drop HASH_LEN)

def update : Read ScreenUpdate := do
  let baseNum ← varint
  let newNum ← varint
  ensure (¬newNum ≤ baseNum) (.invalid "new_num is not greater than base_num")
  let outputSeq ← varint
  let hash ← stateHash
  let effects ← items 1 (fun n => n ≤ MAX_EFFECTS) "too many effects" (fun _ => effect)
    (fun _ _ => ()) ()
  let d ← diff
  pure
    { baseNum := baseNum
      newNum := newNum
      outputSeq := outputSeq
      diff := d
      effects := effects
      stateHash := hash }

end Read

namespace ScreenUpdate

/-- Reads an update within its size limit. -/
def decode (bytes : List UInt8) : Except DecodeError ScreenUpdate :=
  if bytes.length > MAX_UPDATE_BYTES then .error (.invalid "update is larger than the cap")
  else decodeAll Read.update bytes

def FitsU64 (u : ScreenUpdate) : Prop :=
  u.baseNum < 2 ^ 64 ∧ u.newNum < 2 ^ 64 ∧ u.outputSeq < 2 ^ 64

instance (u : ScreenUpdate) : Decidable u.FitsU64 := by
  unfold FitsU64
  infer_instance

def IsOk (u : ScreenUpdate) : Prop :=
  u.FitsU64 ∧ u.baseNum < u.newNum ∧ (∀ e ∈ u.effects, e.IsValid) ∧
    u.effects.length ≤ MAX_EFFECTS ∧ u.diff.IsOk

end ScreenUpdate

namespace Read

theorem exact_stateHash : Exact stateHash (fun _ => True) (fun h => h.val) where
  read_put h rest _ := by
    have hlen : ¬(h.val ++ rest).length < HASH_LEN := by
      rw [length_append, h.property]
      omega
    show (if h' : (h.val ++ rest).length < HASH_LEN then _ else _) = _
    rw [dif_neg hlen]
    simp only [take_left' h.property, drop_left' h.property]
  of_read b h rest hr := by
    have hr : (if h' : b.length < HASH_LEN then _ else _) = Except.ok (h, rest) := hr
    split_ifs at hr
    cases hr
    exact ⟨trivial, (take_append_drop HASH_LEN b).symm⟩

theorem exact_effects :
    Exact (items 1 (fun n => n ≤ MAX_EFFECTS) "too many effects" (fun _ => effect)
        (fun _ _ => ()) ())
      (fun effects => effects.length ≤ MAX_EFFECTS ∧ ∀ e ∈ effects, e.IsValid)
      (fun effects => putVarint effects.length ++ effects.flatMap Effect.put) := by
  refine (exact_items (fun _ => exact_effect) (by decide)
    (fun _ e _ => e.one_le_length_put) ()).congr (fun effects => ?_) (fun _ _ => rfl)
  rw [chain_const_iff]
  exact ⟨fun h => ⟨lt_of_le_of_lt h.1 (by decide), h⟩, fun h => h.2⟩

theorem exact_update : Exact update ScreenUpdate.IsOk ScreenUpdate.encode := by
  refine (exact_varint.bind (f := ScreenUpdate.baseNum) (fun _ _ =>
    exact_varint.bind (f := ScreenUpdate.newNum) (fun _ _ => .check fun _ =>
    exact_varint.bind (f := ScreenUpdate.outputSeq) (fun _ _ =>
    exact_stateHash.bind (f := ScreenUpdate.stateHash) (fun _ _ =>
    exact_effects.bind (f := ScreenUpdate.effects) (fun _ _ =>
    exact_diff.bind (f := ScreenUpdate.diff) (fun _ _ => .ret _)
    ?_) ?_) ?_) ?_) ?_) ?_).congr (fun u => ⟨?_, ?_⟩)
    (fun _ _ => by simp [ScreenUpdate.encode, ScreenUpdate.header])
  case refine_7 =>
    rintro ⟨⟨hbase, hnew, hseq⟩, hlt, hvalid, hcount, hdiff⟩
    exact ⟨hbase, hnew, not_le.2 hlt, hseq, trivial, ⟨hcount, hvalid⟩, hdiff, rfl⟩
  case refine_8 =>
    rintro ⟨hbase, hnew, hlt, hseq, -, ⟨hcount, hvalid⟩, hdiff, -⟩
    exact ⟨⟨hbase, hnew, hseq⟩, not_le.1 hlt, hvalid, hcount, hdiff⟩
  all_goals grind

end Read

namespace ScreenUpdate

theorem decode_eq_ok_iff {bytes : List UInt8} {u : ScreenUpdate} :
    decode bytes = .ok u ↔ u.IsOk ∧ bytes = u.encode ∧ bytes.length ≤ MAX_UPDATE_BYTES := by
  unfold decode
  split_ifs with hcap
  · constructor
    · nofun
    · rintro ⟨-, -, hle⟩
      omega
  · rw [decodeAll_eq_ok_iff Read.exact_update]
    exact ⟨fun h => ⟨h.1, h.2, not_lt.1 hcap⟩, fun h => ⟨h.1, h.2.1⟩⟩

/-- The front of the bytes fixes the numbers and the hash of what they decode
to, whatever comes behind it. -/
theorem header_of_decode {u u' : ScreenUpdate} {tail : List UInt8}
    (h : decode (u.header ++ tail) = .ok u') :
    u'.baseNum = u.baseNum ∧ u'.newNum = u.newNum ∧ u'.outputSeq = u.outputSeq ∧
      u'.stateHash = u.stateHash := by
  obtain ⟨-, hbytes, -⟩ := decode_eq_ok_iff.1 h
  rw [encode, header, header] at hbytes
  simp only [append_assoc, putVarint] at hbytes
  obtain ⟨hbase, hbytes⟩ := leb128_append_inj hbytes
  obtain ⟨hnew, hbytes⟩ := leb128_append_inj hbytes
  obtain ⟨hseq, hbytes⟩ := leb128_append_inj hbytes
  have hhash := (append_inj hbytes (u.stateHash.property.trans u'.stateHash.property.symm)).1
  exact ⟨hbase.symm, hnew.symm, hseq.symm, Subtype.ext hhash.symm⟩

theorem apply_eq_ok_iff {blake3 : List UInt8 → Hash} {u : ScreenUpdate} {b t : ScreenState} :
    u.apply blake3 b = .ok t ↔ u.diff.apply b = .ok t ∧ t.hash blake3 = u.stateHash := by
  unfold apply
  cases hd : u.diff.apply b with
  | error e =>
    constructor
    · nofun
    · intro h
      cases h.1
  | ok s =>
    rw [bind_of_ok _ rfl]
    constructor
    · intro h
      split_ifs at h with heq
      cases h
      exact ⟨rfl, heq⟩
    · rintro ⟨hs, heq⟩
      cases hs
      exact if_pos heq

/-- The codec of updates is a bijection onto the bytes it accepts: what is
decoded re-encodes to the bytes it came from, and every update that obeys the
rules and fits the cap is decoded back from its encoding. -/
theorem update_codec_bijective :
    (∀ (b : List UInt8) (u : ScreenUpdate), decode b = .ok u → u.encode = b) ∧
    ∀ u : ScreenUpdate, u.FitsU64 → u.baseNum < u.newNum → (∀ e ∈ u.effects, e.IsValid) →
      u.effects.length ≤ MAX_EFFECTS → u.diff.IsOk → u.encode.length ≤ MAX_UPDATE_BYTES →
        decode u.encode = .ok u := by
  refine ⟨fun b u h => (decode_eq_ok_iff.1 h).2.1.symm, ?_⟩
  intro u hfits hlt hvalid hcount hdiff hcap
  exact decode_eq_ok_iff.2 ⟨⟨hfits, hlt, hvalid, hcount, hdiff⟩, rfl, hcap⟩

def sample : ScreenUpdate where
  baseNum := 3
  newNum := 300
  outputSeq := 70000
  diff :=
    { rows := 1
      cols := 2
      cursorRow := 0
      cursorCol := 1
      modes := Modes.none
      changes :=
        [{ row := 0
           wrapped := true
           runs := [{ col := 1, cells := [{ Cell.blank with fg := .rgb 1 2 3, flags := 5 }] }] }] }
  effects := [.title [], .bell]
  stateHash := ⟨[1, 2, 3, 4, 5, 6, 7, 8], rfl⟩

theorem update_codec_bijective_sample :
    sample.encode =
      [3, 172, 2, 240, 162, 4, 1, 2, 3, 4, 5, 6, 7, 8, 2, 1, 0, 2, 1, 2, 0, 1, 0, 0, 0, 1, 0, 1, 1,
        1, 1, 5, 2, 1, 2, 3] ∧
    decode sample.encode = .ok sample ∧
    ∀ u, decode sample.encode = .ok u → u.encode = sample.encode := by
  refine ⟨by decide, ?_, fun u hu => update_codec_bijective.1 sample.encode u hu⟩
  exact update_codec_bijective.2 sample (by decide) (by decide) (by decide) (by decide)
    ⟨by decide, by decide, by decide, by decide, ⟨⟨by decide, by decide,
      ⟨by decide, by decide, by decide, by decide⟩, trivial⟩, trivial⟩⟩ (by decide)

end ScreenUpdate

end Qsh.Screen
