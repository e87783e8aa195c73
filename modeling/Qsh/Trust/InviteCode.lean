import Mathlib.Data.Fintype.Basic
import Mathlib.Data.Nat.Bitwise
import Qsh.Lib.Update
import Qsh.Lib.Chunks

/-!
# Invite codes

The display form of an invite secret (`qsh-proto/src/pairing.rs`).  `encode_symbols` takes the
bits of the secret five at a time, and `parse_invite_code` writes those of the symbols back.
-/

namespace Qsh.Trust

open Qsh.Lib List Function

/-- `INVITE_SECRET_LEN` bytes.  Their code has 32 symbols (`INVITE_CODE_SYMBOLS`), in groups
of 4 (`GROUP_LEN`). -/
abbrev Secret := Fin 20 → BitVec 8

def Secret.bit (secret : Secret) (bitPos : Nat) : Bool :=
  (secret (.ofNat 20 (bitPos / 8))).getLsbD (7 - bitPos % 8)

/-- The inner loop of `encode_symbols`, with so many bits to go. -/
def readSymbol (secret : Secret) : Nat → Nat → Nat → Nat
  | 0, value, _ => value
  | n + 1, value, bitPos =>
    readSymbol secret n (value <<< 1 ||| (secret.bit bitPos).toNat) (bitPos + 1)

/-- The next `n` groups of five bits. -/
def readSymbols (secret : Secret) : Nat → Nat → List Nat
  | 0, _ => []
  | n + 1, bitPos => readSymbol secret 5 0 bitPos :: readSymbols secret n (bitPos + 5)

def bitsOf (value : Nat) : List Bool := [4, 3, 2, 1, 0].map value.testBit

/-- The loops that fill `out`, from a position on. -/
def writeBits : List Bool → Secret → Nat → Secret
  | [], out, _ => out
  | bit :: bits, out, bitPos =>
    let i : Fin 20 := .ofNat 20 (bitPos / 8)
    let bit : BitVec 8 := .ofNat 8 bit.toNat
    writeBits bits (update out i (out i ||| bit <<< (7 - bitPos % 8))) (bitPos + 1)

def ALPHABET : List Char := "0123456789abcdefghjkmnpqrstvwxyz".toList

def symbol (value : Nat) : Char := ALPHABET.getD value '0'

def encodeSymbols (secret : Secret) : List Char := (readSymbols secret 32 0).map symbol

/-- Groups of four symbols with dashes between them. -/
def encodeInviteCode (secret : Secret) : List Char :=
  (range (chunkCount 4 (encodeSymbols secret))).flatMap fun i =>
    (if 0 < i then ['-'] else []) ++ chunk 4 (encodeSymbols secret) i

inductive InviteCodeParseError
  | invalidCharacter (c : Char)
  | wrongLength (symbols : Nat)
  deriving DecidableEq, Repr

def decodeSymbol (c : Char) : Option Nat :=
  if '0' ≤ c ∧ c ≤ '9' then some (c.toNat - '0'.toNat)
  else if 'a' ≤ c ∧ c ≤ 'h' then some (c.toNat - 'a'.toNat + 10)
  else if c = 'i' ∨ c = 'l' then some 1
  else if c = 'j' then some 18
  else if c = 'k' then some 19
  else if c = 'm' then some 20
  else if c = 'n' then some 21
  else if c = 'o' then some 0
  else if 'p' ≤ c ∧ c ≤ 't' then some (c.toNat - 'p'.toNat + 22)
  else if 'v' ≤ c ∧ c ≤ 'z' then some (c.toNat - 'v'.toNat + 27)
  else none

/-- The loop over the characters; `symbols` are the values so far. -/
def parseSymbols : List Char → List Nat → Except InviteCodeParseError (List Nat)
  | [], symbols =>
    if symbols.length ≠ 32 then .error (.wrongLength symbols.length) else .ok symbols
  | c :: input, symbols =>
    if c = '-' then parseSymbols input symbols
    else match decodeSymbol c.toLower with
      | none => .error (.invalidCharacter c)
      | some value =>
        if 32 < symbols.length + 1 then .error (.wrongLength (symbols.length + 1))
        else parseSymbols input (symbols ++ [value])

/-- Reads a code back, with look-alikes and any dashes. -/
def parseInviteCode (input : List Char) : Except InviteCodeParseError Secret :=
  match parseSymbols input [] with
  | .error e => .error e
  | .ok symbols => .ok (writeBits (symbols.flatMap bitsOf) (fun _ => 0) 0)

def lookAlike (c : Char) : Char := if c = 'i' ∨ c = 'l' then '1' else if c = 'o' then '0' else c

/-- What the spellings of a code have in common. -/
def normalise (text : List Char) : List Char :=
  (text.filter (· ≠ '-')).map fun c => lookAlike c.toLower

/-! ## Bits -/

variable {secret out : Secret} {bitPos pos n : Nat} {values : List Nat}

theorem readSymbol_spec : readSymbol secret 5 0 bitPos < 32 ∧
    bitsOf (readSymbol secret 5 0 bitPos) = (range' bitPos 5).map secret.bit := by
  simp only [readSymbol, range', map_cons, map_nil]
  generalize secret.bit bitPos = b₁, secret.bit (bitPos + 1) = b₂,
    secret.bit (bitPos + 1 + 1) = b₃, secret.bit (bitPos + 1 + 1 + 1) = b₄,
    secret.bit (bitPos + 1 + 1 + 1 + 1) = b₅
  revert b₁ b₂ b₃ b₄ b₅
  decide

theorem readSymbols_spec : (readSymbols secret n bitPos).length = n ∧
    (∀ v ∈ readSymbols secret n bitPos, v < 32) ∧
    (readSymbols secret n bitPos).flatMap bitsOf = (range' bitPos (5 * n)).map secret.bit := by
  induction n generalizing bitPos with
  | zero => exact ⟨rfl, fun _ hv => absurd hv not_mem_nil, rfl⟩
  | succ n ih =>
    obtain ⟨hlen, hlt, hbits⟩ := @ih (bitPos + 5)
    obtain ⟨hlt', hbits'⟩ := @readSymbol_spec secret bitPos
    refine ⟨congrArg (· + 1) hlen, forall_mem_cons.2 ⟨hlt', hlt⟩, ?_⟩
    rw [readSymbols, flatMap_cons, hbits, hbits', ← map_append, range'_append_1, Nat.mul_succ,
      Nat.add_comm 5]

theorem eq_of_bitsOf {values' : List Nat} (h : values.flatMap bitsOf = values'.flatMap bitsOf)
    (hlt : ∀ v ∈ values, v < 32) (hlt' : ∀ v ∈ values', v < 32) : values = values' := by
  have hone : ∀ v < 32, ∀ w < 32, bitsOf v = bitsOf w → v = w := by decide +kernel
  induction values generalizing values' with
  | nil =>
    cases values' with
    | nil => rfl
    | cons => cases h
  | cons v values ih =>
    cases values' with
    | nil => cases h
    | cons w values' =>
      obtain ⟨hv, hlt⟩ := forall_mem_cons.1 hlt
      obtain ⟨hw, hlt'⟩ := forall_mem_cons.1 hlt'
      obtain ⟨hhead, htail⟩ := append_inj h rfl
      rw [hone v hv w hw hhead, ih htail hlt hlt']

theorem bit_update {b : Bool} (hbit : bitPos < 160) (hpos : pos < 160) :
    Secret.bit (update out (.ofNat 20 (bitPos / 8)) (out (.ofNat 20 (bitPos / 8)) |||
      BitVec.ofNat 8 b.toNat <<< (7 - bitPos % 8))) pos = (out.bit pos || pos = bitPos && b) := by
  unfold Secret.bit
  by_cases hsame : pos / 8 = bitPos / 8
  · rw [hsame, update_self, BitVec.getLsbD_or, BitVec.getLsbD_shiftLeft, BitVec.getLsbD_ofNat,
      Nat.testBit_bool_toNat]
    congr 1
    rcases Nat.lt_trichotomy pos bitPos with h | rfl | h
    · have hne : 7 - pos % 8 - (7 - bitPos % 8) ≠ 0 := by omega
      simp [hne, Nat.ne_of_lt h]
    · simp
      omega
    · have hlt : 7 - pos % 8 < 7 - bitPos % 8 := by omega
      simp [hlt, Nat.ne_of_gt h]
  have hi : Fin.ofNat 20 (pos / 8) ≠ .ofNat 20 (bitPos / 8) := by
    intro h
    have hval := congrArg Fin.val h
    simp only [Fin.val_ofNat] at hval
    omega
  have hne : pos ≠ bitPos := fun h => hsame (by rw [h])
  rw [update_of_ne hi]
  simp [hne]

theorem bit_writeBits {bits : List Bool} (h : bitPos + bits.length ≤ 160) (hpos : pos < 160) :
    (writeBits bits out bitPos).bit pos =
      (out.bit pos || bitPos ≤ pos && bits.getD (pos - bitPos) false) := by
  induction bits generalizing out bitPos with
  | nil => simp [writeBits]
  | cons bit bits ih =>
    rw [length_cons] at h
    rw [writeBits, ih (by omega), bit_update (by omega) hpos, Bool.or_assoc]
    congr 1
    rcases Nat.lt_trichotomy pos bitPos with hlt | rfl | hlt
    · simp [Nat.ne_of_lt hlt, Nat.not_le_of_lt hlt, show ¬bitPos + 1 ≤ pos by omega]
    · simp
    · have hnext : pos - bitPos = pos - (bitPos + 1) + 1 := by omega
      simp [hnext, Nat.ne_of_gt hlt, le_of_lt hlt, show bitPos + 1 ≤ pos from hlt]

theorem map_bit_writeBits {bits : List Bool} (h : bits.length = 160) :
    (range' 0 160).map (writeBits bits (fun _ => 0) 0).bit = bits := by
  refine ext_getElem (by rw [length_map, length_range', h]) fun i hi hi' => ?_
  rw [getElem_map, getElem_range', bit_writeBits (by omega) (by omega)]
  simp [Secret.bit, hi']

theorem writeBits_map_bit : writeBits ((range' 0 160).map secret.bit) (fun _ => 0) 0 = secret := by
  have hlen : ((range' 0 160).map secret.bit).length = 160 := rfl
  have hsame := map_inj_left.1 (map_bit_writeBits hlen)
  funext i
  refine BitVec.eq_of_getLsbD_eq fun j hj => ?_
  have hbit := hsame (8 * i + (7 - j)) (mem_range'_1.2 (by omega))
  have hdiv : (8 * (i : Nat) + (7 - j)) / 8 = i := by omega
  have hmod : 7 - (8 * (i : Nat) + (7 - j)) % 8 = j := by omega
  rwa [Secret.bit, Secret.bit, hdiv, hmod, Fin.ofNat_val_eq_self] at hbit

/-! ## Spellings -/

theorem symbol_spec : ∀ v < 32, decodeSymbol (symbol v) = some v ∧ symbol v ≠ '-' ∧
    lookAlike (symbol v).toLower = symbol v := by
  decide +kernel

variable {c : Char} {v : Nat} {input : List Char} {done : List Nat} {s : Secret}

theorem decodeSymbol_lookAlike : decodeSymbol (lookAlike c) = decodeSymbol c := by
  unfold lookAlike
  split_ifs with hone hzero
  · rcases hone with rfl | rfl <;> rfl
  · rw [hzero]
    rfl
  · rfl

theorem decodeSymbol_eq_some : decodeSymbol c = some v ↔ v < 32 ∧ symbol v = lookAlike c := by
  constructor
  · intro h
    have hascii : c.toNat < 128 := by
      by_contra hc
      have hle : ∀ d : Char, d.toNat < 128 → ¬c ≤ d := fun d hd hle =>
        hc (lt_of_le_of_lt (Char.le_def.1 hle) hd)
      have hne : ∀ d : Char, d.toNat < 128 → c ≠ d := fun d hd h => hle d hd (h ▸ Char.le_refl d)
      simp [decodeSymbol, hle, hne] at h
    have hall : ∀ n < 128, ∀ v ∈ decodeSymbol (Char.ofNat n),
        v < 32 ∧ symbol v = lookAlike (Char.ofNat n) := by decide +kernel
    exact Char.ofNat_toNat c ▸ hall _ hascii v (by rwa [Char.ofNat_toNat])
  · rintro ⟨hv, hsym⟩
    rw [← decodeSymbol_lookAlike, ← hsym, (symbol_spec v hv).1]

theorem parseSymbols_eq_ok :
    parseSymbols input done = .ok values ↔ values.length = 32 ∧ ∃ rest, values = done ++ rest ∧
      (∀ v ∈ rest, v < 32) ∧ rest.map symbol = normalise input := by
  induction input generalizing done with
  | nil =>
    simp only [parseSymbols, normalise, filter_nil, map_nil, map_eq_nil_iff]
    grind
  | cons c input ih =>
    rw [parseSymbols]
    split
    · simp [ih, normalise, ‹c = '-'›]
    have hnorm : normalise (c :: input) = lookAlike c.toLower :: normalise input := by
      simp [normalise, ‹¬c = '-'›]
    rw [hnorm]
    constructor
    · intro h
      split at h
      · cases h
      rename_i v hv
      split at h
      · cases h
      obtain ⟨hlen, rest, rfl, hrest, hmap⟩ := ih.1 h
      obtain ⟨hlt, hsym⟩ := decodeSymbol_eq_some.1 hv
      exact ⟨hlen, v :: rest, by simp, forall_mem_cons.2 ⟨hlt, hrest⟩, by simp [hsym, hmap]⟩
    rintro ⟨hlen, rest, rfl, hrest, hmap⟩
    obtain ⟨v, rest, rfl, hsym, hmap⟩ := map_eq_cons_iff.1 hmap
    obtain ⟨hlt, hrest⟩ := forall_mem_cons.1 hrest
    have hshort : ¬32 < done.length + 1 := by
      rw [length_append, length_cons] at hlen
      omega
    simp only [decodeSymbol_eq_some.2 ⟨hlt, hsym⟩, if_neg hshort]
    exact ih.2 ⟨hlen, rest, by simp, hrest, hmap⟩

theorem filter_encodeInviteCode : (encodeInviteCode s).filter (· ≠ '-') = encodeSymbols s := by
  have hchunk : ∀ i, (chunk 4 (encodeSymbols s) i).filter (· ≠ '-') =
      chunk 4 (encodeSymbols s) i := by
    intro i
    refine filter_eq_self.2 fun c hc => ?_
    obtain ⟨v, hv, rfl⟩ := mem_map.1 (mem_of_mem_drop (mem_of_mem_take hc))
    simpa using (symbol_spec v (readSymbols_spec.2.1 v hv)).2.1
  have hsep : ∀ i : Nat, (if 0 < i then ['-'] else []).filter (· ≠ '-') = [] := by
    intro i
    split <;> rfl
  rw [encodeInviteCode, filter_flatMap]
  simp only [filter_append, hchunk, hsep, nil_append]
  rw [flatMap_def, flatten_chunks (by decide)]

theorem parseInviteCode_eq_ok :
    parseInviteCode input = .ok s ↔ normalise input = encodeSymbols s := by
  obtain ⟨hlen, hlt, hbits⟩ := @readSymbols_spec s 0 32
  constructor
  · intro h
    unfold parseInviteCode at h
    split at h
    · cases h
    rename_i values hv
    obtain ⟨hcount, rest, rfl, hrest, hmap⟩ := parseSymbols_eq_ok.1 hv
    have hsize : (values.flatMap bitsOf).length = 160 := by
      rw [length_flatMap, show (fun v => (bitsOf v).length) = fun _ => 5 from rfl, map_const',
        sum_replicate_nat, hcount]
    cases h
    rw [← hmap, encodeSymbols, eq_of_bitsOf (hbits.trans (map_bit_writeBits hsize)) hlt hrest]
  · intro h
    have hv : parseSymbols input [] = .ok (readSymbols s 32 0) :=
      parseSymbols_eq_ok.2 ⟨hlen, _, rfl, hlt, h.symm⟩
    simp only [parseInviteCode, hv, hbits]
    exact congrArg Except.ok writeBits_map_bit

/-- A secret is parsed back from its code, and a text is parsed to it exactly if it is a
spelling of its symbols. -/
theorem invite_code_unambiguous : (∀ s, parseInviteCode (encodeInviteCode s) = .ok s) ∧
    ∀ t s, parseInviteCode t = .ok s ↔ normalise t = (encodeInviteCode s).filter (· ≠ '-') := by
  refine ⟨fun s => parseInviteCode_eq_ok.2 ?_, fun t s => ?_⟩
  · rw [normalise, filter_encodeInviteCode, encodeSymbols, map_map]
    exact map_congr_left fun v hv => (symbol_spec v (readSymbols_spec.2.1 v hv)).2.2
  · rw [parseInviteCode_eq_ok, filter_encodeInviteCode]

end Qsh.Trust
