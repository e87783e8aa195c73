import Qsh.Screen.State

/-!
# Typed bytes as keys

The input parsing of `client/predict.rs`: `find`, `parse_escape` and the loop of
`Predictor::parse`.

The loop takes one key at a time off the front of a read (`nextKey`) and says at which
input offset it ends.  A character that the read cuts is not a key; its bytes wait for the
next read.  An escape sequence never waits.
-/

namespace Qsh.Client

open List

open Qsh.Screen (Text)

def PASTE_CHARS : Nat := 4

inductive Ev
  | char (c : Char)
  | backspace
  | left
  | right
  | breaks
  deriving DecidableEq, Repr

def Ev.isChar : Ev → Bool
  | .char _ => true
  | _ => false

def find (needle : List UInt8) : List UInt8 → Option Nat
  | [] => if needle.isPrefixOf [] then some 0 else none
  | b :: hay =>
      if needle.isPrefixOf (b :: hay) then some 0 else (find needle hay).map (· + 1)

def PASTE_END : List UInt8 := [0x1b, 0x5b, 0x32, 0x30, 0x31, 0x7e]

def PASTE_START : List UInt8 := [0x32, 0x30, 0x30]

/-- The key of a control sequence, and whether a paste is on after it. -/
def csiKey (params : List UInt8) (final : UInt8) (inPaste : Bool) : Ev × Bool :=
  if params = [] ∧ final = 0x44 then (.left, inPaste)
  else if params = [] ∧ final = 0x43 then (.right, inPaste)
  else if params = PASTE_START ∧ final = 0x7e then (.breaks, true)
  else (.breaks, inPaste)

/-- The escape sequence at the start of `b`, which begins with ESC: its key,
how many bytes it used, and whether a paste is going on after it. -/
def parseEscape (b : List UInt8) (inPaste : Bool) : Ev × Nat × Bool :=
  match b[1]? with
  | none => (.breaks, 1, inPaste)
  | some c =>
      if c = 0x5b then
        let params := (b.drop 2).takeWhile fun x => 0x30 ≤ x && x ≤ 0x3f
        let paramsEnd := 2 + params.length
        let middle := (b.drop paramsEnd).takeWhile fun x => 0x20 ≤ x && x ≤ 0x2f
        let j := paramsEnd + middle.length
        match b[j]? with
        | none => (.breaks, b.length, inPaste)
        | some final =>
            if 0x40 ≤ final ∧ final ≤ 0x7e then
              let (ev, inPaste) := csiKey params final inPaste
              (ev, j + 1, inPaste)
            else (.breaks, b.length, inPaste)
      else if c = 0x4f then
        match b[2]? with
        | none => (.breaks, 2, inPaste)
        | some d =>
            if d = 0x44 then (.left, 3, inPaste)
            else if d = 0x43 then (.right, 3, inPaste)
            else (.breaks, 3, inPaste)
      else (.breaks, 2, inPaste)

def leadLen (b : UInt8) : Nat :=
  if 0xc2 ≤ b ∧ b ≤ 0xdf then 2
  else if 0xe0 ≤ b ∧ b ≤ 0xef then 3
  else if 0xf0 ≤ b ∧ b ≤ 0xf4 then 4
  else 0

inductive NextKey
  /-- A key that takes `used` bytes, and whether a paste is going on after
  it. -/
  | key (ev : Ev) (used : Nat) (inPaste : Bool)
  /-- A character whose end is in a later read. -/
  | split
  deriving DecidableEq, Repr

/-- A character above ASCII whose first byte announces `len` bytes. -/
def nextChar (len : Nat) (buf : List UInt8) (inPaste : Bool) : NextKey :=
  if len = 0 then .key .breaks 1 inPaste
  else if buf.length < len then .split
  else
    match Text.fromUtf8 (buf.take len) with
    | some t =>
        let c := t.headD (Char.ofNat 0xfffd)
        if c.toNat < 0xa0 then .key .breaks len inPaste else .key (.char c) len inPaste
    | none => .key .breaks 1 inPaste

/-- The body of the loop of `parse`, on the bytes `b :: rest` that are
left. -/
def nextKey (b : UInt8) (rest : List UInt8) (inPaste : Bool) : NextKey :=
  let buf := b :: rest
  if inPaste then
    -- everything up to the closing marker is one break
    match find PASTE_END buf with
    | some k => .key .breaks (k + PASTE_END.length) false
    | none => .key .breaks buf.length true
  else if b = 0x1b then
    let (ev, used, inPaste) := parseEscape buf inPaste
    .key ev used inPaste
  else if b = 0x7f ∨ b = 0x08 then .key .backspace 1 inPaste
  else if b ≤ 0x1f then .key .breaks 1 inPaste
  else if b ≤ 0x7e then .key (.char (Char.ofNat b.toNat)) 1 inPaste
  else nextChar (leadLen b) buf inPaste

/-- What a read gives: the keys with the offsets after them, the bytes that
wait for the next read, and whether a paste is going on. -/
structure Parsed where
  keys : List (Ev × Nat)
  carry : List UInt8
  inPaste : Bool
  deriving DecidableEq, Repr

/-- The loop of `parse` over the bytes that are left, the first of which has
the offset `pos`.  Every key takes a byte, so as much fuel as there are bytes
is enough. -/
def parseFrom : Nat → Nat → List UInt8 → Bool → Parsed
  | 0, _, _, inPaste => ⟨[], [], inPaste⟩
  | _ + 1, _, [], inPaste => ⟨[], [], inPaste⟩
  | fuel + 1, pos, b :: rest, inPaste =>
      match nextKey b rest inPaste with
      | .split => ⟨[], b :: rest, inPaste⟩
      | .key ev used inPaste =>
          let next := parseFrom fuel (pos + used) ((b :: rest).drop used) inPaste
          { next with keys := (ev, pos + used) :: next.keys }

/-- A read with more than `PASTE_CHARS` characters is a paste: none of them is
followed. -/
def breakPaste (keys : List (Ev × Nat)) : List (Ev × Nat) :=
  if PASTE_CHARS < (keys.filter fun k => k.1.isChar).length then
    keys.map fun k => if k.1.isChar then (.breaks, k.2) else k
  else keys

/-- One read, after the bytes that the reads before it left over: the keys,
with `inputEnd` the offset after the read. -/
def parseRead (carry bytes : List UInt8) (inPaste : Bool) (inputEnd : Nat) : Parsed :=
  let buf := carry ++ bytes
  let parsed := parseFrom buf.length (inputEnd - buf.length) buf inPaste
  { parsed with keys := breakPaste parsed.keys }

/-! ## Where the bytes of a key are -/

theorem find_le {needle hay : List UInt8} {k : Nat} (h : find needle hay = some k) :
    k + needle.length ≤ hay.length := by
  induction hay generalizing k with rw [find] at h
  | nil =>
    split at h <;> cases h
    rename_i hpre
    have hle := (List.isPrefixOf_iff_prefix.1 hpre).length_le
    omega
  | cons b hay ih =>
    split at h
    · next hpre =>
      cases h
      have hle := (List.isPrefixOf_iff_prefix.1 hpre).length_le
      omega
    · obtain ⟨j, hj, rfl⟩ := Option.map_eq_some_iff.1 h
      have hle := ih hj
      rw [length_cons]
      omega

theorem csiKey_not_char (params : List UInt8) (final : UInt8) (inPaste : Bool) :
    (csiKey params final inPaste).1.isChar = false := by
  unfold csiKey
  split
  · rfl
  split
  · rfl
  split <;> rfl

variable {b carry : List UInt8} {inPaste q : Bool} {ev : Ev} {used lo hi typed : Nat}

theorem parseEscape_spec (hb : b ≠ []) (h : parseEscape b inPaste = (ev, used, q)) :
    1 ≤ used ∧ used ≤ b.length ∧ ev.isChar = false := by
  have hpos : 1 ≤ b.length := length_pos_iff.2 hb
  rw [parseEscape] at h
  cases h1 : b[1]? with
  | none =>
    rw [h1] at h
    cases h
    exact ⟨Nat.le_refl _, hpos, rfl⟩
  | some c =>
    obtain ⟨hlt1, _⟩ := List.getElem?_eq_some_iff.1 h1
    rw [h1] at h
    dsimp only at h
    split at h
    · split at h
      · cases h
        exact ⟨hpos, Nat.le_refl _, rfl⟩
      rename_i final hj
      obtain ⟨hltj, _⟩ := List.getElem?_eq_some_iff.1 hj
      split at h
      · cases h
        exact ⟨Nat.le_add_left 1 _, hltj, csiKey_not_char _ _ _⟩
      · cases h
        exact ⟨hpos, Nat.le_refl _, rfl⟩
    split at h
    · cases h2 : b[2]? with
      | none =>
        rw [h2] at h
        cases h
        exact ⟨by omega, hlt1, rfl⟩
      | some d =>
        obtain ⟨hlt2, _⟩ := List.getElem?_eq_some_iff.1 h2
        rw [h2] at h
        dsimp only at h
        split at h
        · cases h
          exact ⟨by omega, hlt2, rfl⟩
        split at h
        all_goals
          cases h
          exact ⟨by omega, hlt2, rfl⟩
    · cases h
      exact ⟨by omega, hlt1, rfl⟩

theorem len_head_le {t : Text} (h : Text.fromUtf8 b = some t) (hb : b ≠ [])
    (d : Char) : Text.len [t.headD d] ≤ b.length := by
  have hbytes := Text.bytes_of_fromUtf8 h
  cases t with
  | nil => exact absurd hbytes.symm hb
  | cons c t =>
    rw [← hbytes]
    simp only [Text.len, Text.bytes, headD_cons, flatMap_cons, flatMap_nil,
      append_nil, length_append]
    omega

theorem len_ascii {b : UInt8} (h : b ≤ 0x7e) : Text.len [Char.ofNat b.toNat] = 1 := by
  have hall : ∀ n : Fin 127, Text.len [Char.ofNat n.val] = 1 := by decide +kernel
  have hlt : b.toNat < 127 := Nat.lt_succ_of_le (UInt8.le_iff_toNat_le.1 h)
  exact hall ⟨b.toNat, hlt⟩

theorem nextChar_spec {len : Nat} {buf : List UInt8}
    (hbuf : buf ≠ []) (h : nextChar len buf inPaste = .key ev used q) :
    1 ≤ used ∧ used ≤ buf.length ∧ ∀ c, ev = .char c → Text.len [c] ≤ used := by
  have hpos : 1 ≤ buf.length := length_pos_iff.2 hbuf
  rw [nextChar] at h
  split at h
  · cases h
    exact ⟨Nat.le_refl _, hpos, nofun⟩
  rename_i hlen
  split at h
  · cases h
  rename_i hfits
  have htake : (buf.take len).length = len := by
    rw [length_take]
    omega
  split at h
  · next t ht =>
    dsimp only at h
    split at h
    · cases h
      exact ⟨by omega, by omega, nofun⟩
    cases h
    refine ⟨by omega, by omega, fun c hc => ?_⟩
    cases hc
    have hle := len_head_le ht (ne_nil_of_length_pos (by omega)) (Char.ofNat 0xfffd)
    rwa [htake] at hle
  · cases h
    exact ⟨Nat.le_refl _, hpos, nofun⟩

/-- A key takes at least a byte and stays inside the read, and a character's
own bytes are among those it takes. -/
theorem nextKey_spec {b : UInt8} {rest : List UInt8} (h : nextKey b rest inPaste = .key ev used q) :
    1 ≤ used ∧ used ≤ (b :: rest).length ∧ ∀ c, ev = .char c → Text.len [c] ≤ used := by
  have hne : b :: rest ≠ [] := cons_ne_nil b rest
  have hpos : 1 ≤ (b :: rest).length := length_pos_iff.2 hne
  rw [nextKey] at h
  split at h
  · split at h
    · next k hk =>
      cases h
      have hle := find_le hk
      have hend : PASTE_END.length = 6 := rfl
      exact ⟨by omega, hle, nofun⟩
    · cases h
      exact ⟨hpos, Nat.le_refl _, nofun⟩
  split at h
  · cases hesc : parseEscape (b :: rest) inPaste with
    | mk ev' tail =>
      rw [hesc] at h
      cases h
      obtain ⟨h1, h2, hchar⟩ := parseEscape_spec hne hesc
      refine ⟨h1, h2, fun c hc => ?_⟩
      rw [hc] at hchar
      cases hchar
  split at h
  · cases h
    exact ⟨Nat.le_refl _, hpos, nofun⟩
  split at h
  · cases h
    exact ⟨Nat.le_refl _, hpos, nofun⟩
  split at h
  · next hascii =>
    cases h
    refine ⟨Nat.le_refl _, hpos, fun c hc => ?_⟩
    cases hc
    exact Nat.le_of_eq (len_ascii hascii)
  · exact nextChar_spec hne h

/-- The key that ends at `e` lies between `lo` and `hi`: all of its bytes if it
is a character, its last byte otherwise. -/
def KeyWithin (lo hi : Nat) (key : Ev × Nat) : Prop :=
  lo < key.2 ∧ key.2 ≤ hi ∧ ∀ c, key.1 = .char c → lo + Text.len [c] ≤ key.2

theorem KeyWithin.mono {lo' hi' : Nat} {key : Ev × Nat} (h : KeyWithin lo' hi' key)
    (hlo : lo ≤ lo') (hhi : hi' ≤ hi) : KeyWithin lo hi key := by
  obtain ⟨h1, h2, hchar⟩ := h
  refine ⟨by omega, by omega, fun c hc => ?_⟩
  have hle := hchar c hc
  omega

/-- What is left over is no more than the read, and the keys lie in order in the bytes
before it. -/
theorem parseFrom_spec (fuel pos : Nat) (buf : List UInt8) (inPaste : Bool) :
    (parseFrom fuel pos buf inPaste).carry.length ≤ buf.length ∧
    (∀ key ∈ (parseFrom fuel pos buf inPaste).keys,
      KeyWithin pos (pos + buf.length - (parseFrom fuel pos buf inPaste).carry.length) key) ∧
    ((parseFrom fuel pos buf inPaste).keys.map (·.2)).Pairwise (· < ·) := by
  -- each key is taken off the front, so the induction moves `pos` past it
  induction fuel generalizing pos buf inPaste with
  | zero => exact ⟨Nat.zero_le _, fun _ hkey => absurd hkey not_mem_nil, .nil⟩
  | succ fuel ih =>
    cases buf with
    | nil => exact ⟨Nat.zero_le _, fun _ hkey => absurd hkey not_mem_nil, .nil⟩
    | cons b rest =>
      rw [parseFrom]
      cases hnext : nextKey b rest inPaste with
      | split => exact ⟨Nat.le_refl _, by simp, .nil⟩
      | key ev used q =>
        obtain ⟨h1, h2, hchar⟩ := nextKey_spec hnext
        obtain ⟨hcarry, hkeys, hsorted⟩ := ih (pos + used) ((b :: rest).drop used) q
        rw [length_drop] at hkeys hcarry
        refine ⟨Nat.le_trans hcarry (by omega), fun key hkey => ?_, .cons ?_ hsorted⟩
        · rcases mem_cons.1 hkey with rfl | hkey
          · refine ⟨by omega, by dsimp only; omega, fun c hc => ?_⟩
            have hle := hchar c hc
            omega
          · exact (hkeys key hkey).mono (by omega) (by dsimp only; omega)
        · intro e he
          obtain ⟨key, hkey, rfl⟩ := mem_map.1 he
          exact (hkeys key hkey).1

theorem breakPaste_within {keys : List (Ev × Nat)}
    (h : ∀ key ∈ keys, KeyWithin lo hi key) : ∀ key ∈ breakPaste keys, KeyWithin lo hi key := by
  intro key hkey
  rw [breakPaste] at hkey
  split at hkey
  · obtain ⟨k, hk, rfl⟩ := mem_map.1 hkey
    obtain ⟨h1, h2, _⟩ := h k hk
    split
    · exact ⟨h1, h2, nofun⟩
    · exact h k hk
  · exact h key hkey

theorem breakPaste_snd (keys : List (Ev × Nat)) :
    (breakPaste keys).map (·.2) = keys.map (·.2) := by
  rw [breakPaste]
  split
  · rw [map_map]
    apply map_congr_left
    intro key _
    dsimp only [Function.comp]
    split <;> rfl
  · rfl

theorem parseRead_carry_le (carry bytes : List UInt8) (inPaste : Bool) (inputEnd : Nat) :
    (parseRead carry bytes inPaste inputEnd).carry.length ≤ carry.length + bytes.length := by
  rw [← length_append]
  exact (parseFrom_spec _ _ (carry ++ bytes) inPaste).1

/-- The keys of a read end after everything that was parsed before it, in
order, and before what is left over. -/
theorem parseRead_spec (bytes : List UInt8) (inPaste : Bool) (hcarry : carry.length ≤ typed) :
    (∀ key ∈ (parseRead carry bytes inPaste (typed + bytes.length)).keys,
      KeyWithin (typed - carry.length) (typed + bytes.length -
        (parseRead carry bytes inPaste (typed + bytes.length)).carry.length) key) ∧
    ((parseRead carry bytes inPaste (typed + bytes.length)).keys.map (·.2)).Pairwise (· < ·) := by
  have hlen : (carry ++ bytes).length = carry.length + bytes.length := length_append
  have hstart : typed + bytes.length - (carry ++ bytes).length = typed - carry.length := by omega
  have hend : typed - carry.length + (carry ++ bytes).length = typed + bytes.length := by omega
  obtain ⟨-, hkeys, hsorted⟩ := parseFrom_spec (carry ++ bytes).length (typed - carry.length)
    (carry ++ bytes) inPaste
  rw [hend] at hkeys
  rw [parseRead]
  rw [hstart, breakPaste_snd]
  exact ⟨breakPaste_within hkeys, hsorted⟩

end Qsh.Client
