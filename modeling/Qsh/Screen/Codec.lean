import Mathlib.Tactic.Ring
import Qsh.Lib.Reader
import Qsh.Lib.Leb128
import Qsh.Screen.State

/-!
# The byte-level helpers of the screen codec

`qsh-proto/src/screen/codec.rs`: the reader of numbers,
counts, texts, colours and cells, and the encoders that go with them.  The
canonical bytes of a screen and its hash are here as well, since they are made
of encoded cells.

Each reader function has one theorem `exact_…` that names the values it accepts and
the bytes it accepts them from.

`usize` is 64 bits wide, so a number that was read always fits it.
-/

namespace Qsh.Screen

open Qsh.Lib List

inductive DecodeError
  | truncated
  | trailing
  | invalid (rule : String)
  deriving DecidableEq, Repr

abbrev Read (α : Type) := Reader DecodeError UInt8 α

namespace Read

def u8 : Read UInt8 := fun buf =>
  match buf with
  | [] => .error .truncated
  | b :: rest => .ok (b, rest)

def take (n : Nat) : Read (List UInt8) := fun buf =>
  if buf.length < n then .error .truncated else .ok (buf.take n, buf.drop n)

def varintLoop : Nat → Nat → Read Nat
  | 0, _ => throw (.invalid "varint is longer than 10 bytes")
  | left + 1, value => do
    let i := 9 - left
    let b ← u8
    let low := (b &&& 0x7f).toNat
    ensure (¬(i = 9 ∧ low > 1)) (.invalid "varint overflows 64 bits")
    let value := value ||| low <<< (7 * i)
    if b &&& 0x80 = 0 then
      ensure (¬(i > 0 ∧ b = 0)) (.invalid "varint is not the shortest form")
      pure value
    else
      varintLoop left value

/-- A LEB128 number of at most ten bytes. -/
def varint : Read Nat :=
  varintLoop 10 0

def varintU16 : Read Nat := do
  let v ← varint
  ensure (v < 2 ^ 16) (.invalid "value does not fit in 16 bits")
  pure v

/-- A count that the rest of the input can hold. -/
def count (minBytesEach : Nat) : Read Nat := do
  let n ← varint
  let buf ← get
  ensure (n ≤ buf.length / max minBytesEach 1) .truncated
  pure n

def utf8 (bytes : List UInt8) (rule : String) : Read Text :=
  match Text.fromUtf8 bytes with
  | some t => pure t
  | none => throw (.invalid rule)

def string (max : Nat) : Read Text := do
  let n ← varint
  ensure (n ≤ max) (.invalid "string longer than its limit")
  let bytes ← take n
  utf8 bytes "string is not UTF-8"

def color (kind : UInt8) : Read Color :=
  if kind = 0 then pure .default
  else if kind = 1 then do
    let i ← u8
    pure (.idx i)
  else if kind = 2 then do
    let r ← u8
    let g ← u8
    let b ← u8
    pure (.rgb r g b)
  else throw (.invalid "unknown colour kind")

def cellText : Read Text := do
  let n ← varint
  ensure (¬(n = 0 ∨ n > MAX_CELL_TEXT)) (.invalid "cell text length is out of range")
  let bytes ← take n
  let s ← utf8 bytes "cell text is not UTF-8"
  ensure (s.any isControl = false) (.invalid "cell text has a control character")
  pure s

def textIf (hasText : Prop) [Decidable hasText] : Read Text :=
  if hasText then cellText else pure []

/-- One cell, with the checks of its flags. -/
def cell : Read Cell := do
  let b0 ← u8
  let b1 ← u8
  let flags := b0 &&& ALL
  let hasText := b0 &&& 0x80 ≠ 0
  ensure (b1 &&& 0xf0 = 0) (.invalid "reserved colour bits")
  ensure (¬(flags &&& WIDE ≠ 0 ∧ flags &&& WIDE_CONT ≠ 0))
    (.invalid "cell is both wide and a continuation")
  ensure (¬(hasText ∧ flags &&& WIDE_CONT ≠ 0)) (.invalid "continuation cell has text")
  let fg ← color (b1 &&& 3)
  let bg ← color ((b1 >>> 2) &&& 3)
  let text ← textIf hasText
  pure { text := text, fg := fg, bg := bg, flags := flags }

/-- A count of items and the items: the count is backed by `minBytesEach`
bytes an item and passes the check `fits`, and each item is read at the state
that the items before it left. -/
def items {α σ : Type} (minBytesEach : Nat) (fits : Nat → Prop) [DecidablePred fits]
    (rule : String) (item : σ → Read α) (next : σ → α → σ) (s : σ) : Read (List α) := do
  let n ← count minBytesEach
  ensure (fits n) (.invalid rule)
  readList item next n s

end Read

/-! ## The encoders -/

def putVarint (v : Nat) : List UInt8 :=
  leb128 v

def putString (t : Text) : List UInt8 :=
  putVarint t.len ++ t.bytes

def colorKind : Color → UInt8
  | .default => 0
  | .idx _ => 1
  | .rgb _ _ _ => 2

def putColor : Color → List UInt8
  | .default => []
  | .idx i => [i]
  | .rgb r g b => [r, g, b]

def cellHead (c : Cell) : List UInt8 :=
  [(c.flags &&& ALL) ||| (if c.text ≠ [] then 0x80 else 0),
    colorKind c.fg ||| (colorKind c.bg <<< 2)]

def putText (t : Text) : List UInt8 :=
  if t ≠ [] then putString t else []

def putCell (c : Cell) : List UInt8 :=
  cellHead c ++ (putColor c.fg ++ (putColor c.bg ++ putText c.text))

theorem two_le_length_putCell (c : Cell) : 2 ≤ (putCell c).length := by
  simp [putCell, cellHead]

/-! ## What the readers accept -/

namespace Read

theorem run_u8_cons (b : UInt8) (rest : List UInt8) : u8.run (b :: rest) = .ok (b, rest) := rfl

variable {b rest : List UInt8} {value : Nat}

theorem eq_cons_of_u8 {x : UInt8} (h : u8.run b = .ok (x, rest)) :
    b = x :: rest := by
  cases b with
  | nil => cases h
  | cons y ys => cases h; rfl

theorem exact_u8 : Exact u8 (fun _ => True) (fun b => [b]) where
  read_put _ _ _ := rfl
  of_read _ _ _ h := ⟨trivial, eq_cons_of_u8 h⟩

theorem run_take (n : Nat) (b : List UInt8) :
    (take n).run b = if b.length < n then .error .truncated else .ok (b.take n, b.drop n) := rfl

theorem exact_take (n : Nat) : Exact (take n) (fun b => b.length = n) (fun b => b) where
  read_put b rest hb := by
    rw [run_take, if_neg (by rw [length_append]; omega), take_left' hb, drop_left' hb]
  of_read b a rest h := by
    rw [run_take] at h
    split_ifs at h with hlen
    cases h
    exact ⟨length_take_of_le (by omega), (take_append_drop n b).symm⟩

variable {x low i left w n m : Nat}

theorem or_group (hv : value < 2 ^ (7 * i)) :
    value ||| low <<< (7 * i) = value + low * 2 ^ (7 * i) := by
  rw [Nat.shiftLeft_eq, Nat.or_comm, Nat.mul_comm, ← Nat.two_pow_add_eq_or_of_lt hv]
  omega

theorem add_group_lt (hv : value < 2 ^ (7 * i)) (hlow : low < 128) :
    value + low * 2 ^ (7 * i) < 2 ^ (7 * (i + 1)) := by
  rw [Nat.mul_succ, Nat.pow_add]
  generalize 2 ^ (7 * i) = p at hv
  calc value + low * p < p + low * p := Nat.add_lt_add_right hv _
    _ = p * (low + 1) := by ring
    _ ≤ p * 2 ^ 7 := Nat.mul_le_mul_left p hlow

theorem varintLoop_succ_eq_ok (h : (varintLoop (left + 1) value).run b = .ok (w, rest)) :
    ∃ x xs, b = x :: xs ∧ ¬(9 - left = 9 ∧ x.toNat % 128 > 1) ∧
      ((x.toNat < 128 ∧ ¬(9 - left > 0 ∧ x = 0) ∧ rest = xs ∧
          w = value ||| (x.toNat % 128) <<< (7 * (9 - left))) ∨
        (128 ≤ x.toNat ∧ (varintLoop left (value ||| (x.toNat % 128) <<< (7 * (9 - left)))).run xs =
            .ok (w, rest))) := by
  obtain ⟨x, xs, hx, hrest⟩ := run_bind_eq_ok h
  obtain ⟨hlow, hrest⟩ := run_ensure_bind_eq_ok hrest
  rw [toNat_low_bits] at hlow hrest
  refine ⟨x, xs, eq_cons_of_u8 hx, hlow, ?_⟩
  by_cases htop : x &&& 0x80 = 0
  · rw [if_pos htop] at hrest
    obtain ⟨hshort, hrest⟩ := run_ensure_bind_eq_ok hrest
    cases hrest
    exact .inl ⟨(top_bit_eq_zero_iff x).1 htop, hshort, rfl, rfl⟩
  · rw [if_neg htop] at hrest
    exact .inr ⟨not_lt.1 (fun hlt => htop ((top_bit_eq_zero_iff x).2 hlt)), hrest⟩

theorem varintLoop_last (hx : x < 128)
    (hfit : ¬(9 - left = 9 ∧ x > 1)) (hshort : ¬(9 - left > 0 ∧ x = 0)) :
    (varintLoop (left + 1) value).run (UInt8.ofNat x :: rest) =
      .ok (value ||| x <<< (7 * (9 - left)), rest) := by
  have hnat : (UInt8.ofNat x).toNat = x := (toNat_group hx).1
  have hlow : (UInt8.ofNat x &&& 0x7f).toNat = x := by
    rw [toNat_low_bits, hnat, Nat.mod_eq_of_lt hx]
  have hzero : UInt8.ofNat x = 0 → x = 0 := fun h => by rw [← hnat, h]; rfl
  rw [varintLoop, run_bind_of_ok (run_u8_cons (UInt8.ofNat x) rest),
    run_ensure_bind_of (by rw [hlow]; exact hfit),
    if_pos ((top_bit_eq_zero_iff _).2 (hnat.symm ▸ hx)),
    run_ensure_bind_of (by rintro ⟨hi, h0⟩; exact hshort ⟨hi, hzero h0⟩), hlow]
  rfl

theorem varintLoop_more (hx : x < 128) (hfit : ¬(9 - left = 9 ∧ x > 1)) :
    (varintLoop (left + 1) value).run (UInt8.ofNat (x + 128) :: rest) =
      (varintLoop left (value ||| x <<< (7 * (9 - left)))).run rest := by
  have hnat : (UInt8.ofNat (x + 128)).toNat = x + 128 := (toNat_group hx).2
  have hlow : (UInt8.ofNat (x + 128) &&& 0x7f).toNat = x := by
    rw [toNat_low_bits, hnat]
    omega
  rw [varintLoop, run_bind_of_ok (run_u8_cons (UInt8.ofNat (x + 128)) rest),
    run_ensure_bind_of (by rw [hlow]; exact hfit), if_neg, hlow]
  intro h
  have := (top_bit_eq_zero_iff _).1 h
  omega

theorem varintLoop_putVarint (left : Nat) {v : Nat} (hleft : left < 10)
    (hvalue : value < 2 ^ (7 * (9 - left))) (hv : v < 2 ^ (64 - 7 * (9 - left)))
    (hshort : 0 < 9 - left → v ≠ 0) :
    (varintLoop (left + 1) value).run (putVarint v ++ rest) =
      .ok (value + v * 2 ^ (7 * (9 - left)), rest) := by
  induction left generalizing value v with
  | zero =>
    -- round 9: only one bit of the number can be left
    rw [putVarint, leb128_of_lt (by omega), singleton_append,
      varintLoop_last (by omega) (by omega) (fun h => hshort h.1 h.2), or_group hvalue]
  | succ left ih =>
    have hi : 9 - left = 9 - (left + 1) + 1 := by omega
    by_cases hlast : v < 128
    · rw [putVarint, leb128_of_lt hlast, singleton_append,
        varintLoop_last hlast (by omega) (fun h => hshort h.1 h.2), or_group hvalue]
    have hmod : v % 128 < 128 := Nat.mod_lt v (by decide)
    have hsplit := Nat.div_add_mod v 128
    have hdiv : v / 128 < 2 ^ (64 - 7 * (9 - left)) := by
      rw [show 64 - 7 * (9 - (left + 1)) = 64 - 7 * (9 - left) + 7 by omega, Nat.pow_add] at hv
      omega
    rw [putVarint, leb128_of_ge (by omega), cons_append,
      varintLoop_more hmod (by omega), or_group hvalue]
    have hsum := add_group_lt hvalue hmod
    rw [← hi] at hsum
    refine (ih (by omega) hsum hdiv (fun _ => by omega)).trans ?_
    rw [hi, Nat.mul_succ, Nat.pow_add]
    generalize 2 ^ (7 * (9 - (left + 1))) = p
    congr 2
    calc value + v % 128 * p + v / 128 * (p * 2 ^ 7)
        = value + (128 * (v / 128) + v % 128) * p := by ring
      _ = value + v * p := by rw [hsplit]

theorem of_varintLoop (left : Nat) (hleft : left < 10) (hvalue : value < 2 ^ (7 * (9 - left)))
    (h : (varintLoop (left + 1) value).run b = .ok (w, rest)) :
    ∃ v, b = putVarint v ++ rest ∧ w = value + v * 2 ^ (7 * (9 - left)) ∧
      (0 < 9 - left → v ≠ 0) ∧ v < 2 ^ (64 - 7 * (9 - left)) := by
  induction left using Nat.strong_induction_on generalizing value b with
  | h left ih =>
    obtain ⟨x, xs, rfl, hfit, ⟨hlt, hshort, rfl, rfl⟩ | ⟨hge, hrest⟩⟩ := varintLoop_succ_eq_ok h
    · refine ⟨x.toNat, ?_, ?_, ?_, ?_⟩
      · rw [putVarint, leb128_of_lt hlt, UInt8.ofNat_toNat]
        rfl
      · rw [Nat.mod_eq_of_lt hlt, or_group hvalue]
      · exact fun h9 h0 => hshort ⟨h9, UInt8.toNat_inj.1 h0⟩
      · cases left with
        | zero => exact (show x.toNat < 2 by omega)
        | succ left =>
          calc x.toNat < 2 ^ 7 := hlt
            _ ≤ 2 ^ (64 - 7 * (9 - (left + 1))) := Nat.pow_le_pow_right (by decide) (by omega)
    cases left with
    | zero => cases hrest
    | succ left =>
      have hmod : x.toNat % 128 < 128 := Nat.mod_lt _ (by decide)
      have hx := x.toNat_lt
      have hi : 9 - left = 9 - (left + 1) + 1 := by omega
      rw [or_group hvalue] at hrest
      have hsum := add_group_lt hvalue hmod
      rw [← hi] at hsum
      obtain ⟨v, hxs, hw, hne, hlt⟩ := ih left (by omega) (by omega) hsum hrest
      -- the group that was read is the low one of `v * 128 + x % 128`
      have hdiv : (v * 128 + x.toNat % 128) / 128 = v := by omega
      have hlow : (v * 128 + x.toNat % 128) % 128 = x.toNat % 128 := by omega
      refine ⟨v * 128 + x.toNat % 128, ?_, ?_, fun _ => by omega, ?_⟩
      · rw [putVarint, leb128_of_ge (by omega), hdiv, hlow, hxs, cons_append,
          show x.toNat % 128 + 128 = x.toNat by omega, UInt8.ofNat_toNat]
        rfl
      · rw [hw, hi, Nat.mul_succ, Nat.pow_add]
        ring
      · rw [show 64 - 7 * (9 - (left + 1)) = 64 - 7 * (9 - left) + 7 by omega, Nat.pow_add]
        omega

theorem exact_varint : Exact varint (fun v => v < 2 ^ 64) putVarint where
  read_put v rest hv := by
    rw [varint, varintLoop_putVarint 9 (by decide) (by decide) hv (fun h => absurd h (by decide)),
      Nat.zero_add, Nat.sub_self, Nat.mul_zero, Nat.pow_zero, Nat.mul_one]
  of_read b w rest h := by
    obtain ⟨v, hb, hw, -, hlt⟩ := of_varintLoop 9 (by decide) (by decide) h
    rw [Nat.zero_add, Nat.sub_self, Nat.mul_zero, Nat.pow_zero, Nat.mul_one] at hw
    exact hw ▸ ⟨hlt, hb⟩

theorem exact_varintU16 : Exact varintU16 (fun v => v < 2 ^ 16) putVarint := by
  refine (exact_varint.bind (f := id) (fun v _ => .check fun _ => .ret v)
    (fun _ _ h => h.2)).congr (fun v => ?_) (fun v _ => by rw [append_nil]; rfl)
  exact ⟨fun h => ⟨h.trans (by decide), h, rfl⟩, fun h => h.2.1⟩

theorem run_count (hn : n < 2 ^ 64) (hm : 0 < m)
    (hroom : n * m ≤ rest.length) : (count m).run (putVarint n ++ rest) = .ok (n, rest) := by
  have hle : n ≤ rest.length / max m 1 := by
    rw [max_eq_left hm]
    exact (Nat.le_div_iff_mul_le hm).2 hroom
  rw [count, run_bind_of_ok (exact_varint.read_put n rest hn), run_get_bind, run_ensure_bind_of hle]
  rfl

theorem of_count (h : (count m).run b = .ok (n, rest)) :
    n < 2 ^ 64 ∧ b = putVarint n ++ rest := by
  obtain ⟨w, mid, hw, h⟩ := run_bind_eq_ok h
  rw [run_get_bind] at h
  obtain ⟨-, h⟩ := run_ensure_bind_eq_ok h
  cases h
  exact exact_varint.of_read b _ _ hw

variable {rule : String}

/-- Counted items are exact: each item takes at least the bytes that the count
asks for, so the count never turns an encoded list down. -/
theorem exact_items {α σ : Type} {fits : Nat → Prop} [DecidablePred fits]
    {item : σ → Read α} {next : σ → α → σ} {P : σ → α → Prop}
    {put : α → List UInt8} (hitem : ∀ s, Exact (item s) (P s) put) (hm : 0 < m)
    (hmin : ∀ s a, P s a → m ≤ (put a).length) (s : σ) :
    Exact (items m fits rule item next s)
      (fun as => as.length < 2 ^ 64 ∧ fits as.length ∧ Chain P next s as)
      (fun as => putVarint as.length ++ as.flatMap put) where
  read_put as rest h := by
    obtain ⟨hlen, hfits, hchain⟩ := h
    have hroom : as.length * m ≤ (as.flatMap put ++ rest).length := by
      rw [length_append]
      exact (length_flatMap_ge (hchain.forall hmin)).trans (by omega)
    rw [items, append_assoc, run_bind_of_ok (run_count hlen hm hroom), run_ensure_bind_of hfits]
    exact (exact_readList hitem as.length s).read_put as rest ⟨rfl, hchain⟩
  of_read b as rest h := by
    obtain ⟨n, mid, hn, h⟩ := run_bind_eq_ok h
    obtain ⟨hlen, hb⟩ := of_count hn
    obtain ⟨hfits, h⟩ := run_ensure_bind_eq_ok h
    obtain ⟨⟨hlen', hchain⟩, hmid⟩ := (exact_readList hitem n s).of_read mid as rest h
    rw [← hlen'] at hlen hfits hb
    refine ⟨⟨hlen, hfits, hchain⟩, ?_⟩
    rw [hb, hmid, append_assoc]

theorem exact_utf8 (bytes : List UInt8) (rule : String) :
    Exact (utf8 bytes rule) (fun t => t.bytes = bytes) (fun _ => []) where
  read_put t rest ht := by
    rw [utf8, ← ht, Text.fromUtf8_bytes]
    rfl
  of_read b t rest h := by
    unfold utf8 at h
    split at h <;> cases h
    rename_i t' ht'
    exact ⟨Text.bytes_of_fromUtf8 ht', rfl⟩

theorem exact_string {max : Nat} (hmax : max < 2 ^ 64) :
    Exact (string max) (fun t => t.len ≤ max) putString := by
  refine (exact_varint.bind (f := Text.len) (fun n _ => .check fun _ =>
    (exact_take n).bind (f := Text.bytes) (fun bytes _ => exact_utf8 bytes _) (fun _ _ h => h))
    (fun n t h => h.2.1)).congr (fun t => ?_) (fun t _ => by rw [append_nil]; rfl)
  exact ⟨fun h => ⟨by omega, h, rfl, rfl⟩, fun h => h.2.1⟩

theorem exact_cellText :
    Exact cellText
      (fun t => t ≠ [] ∧ t.len ≤ MAX_CELL_TEXT ∧ t.any isControl = false) putString := by
  refine (exact_varint.bind (f := Text.len) (fun n _ => .check fun _ =>
    (exact_take n).bind (f := Text.bytes) (fun bytes _ => (exact_utf8 bytes _).bind (f := id)
      (fun t _ => .check fun _ => .ret t) (fun _ _ h => h.2)) (fun _ _ h => h.1))
    (fun n t h => h.2.1)).congr (fun t => ?_) (fun t _ => by simp [putString])
  have hne := Text.len_eq_zero_iff t
  have hmax : MAX_CELL_TEXT < 2 ^ 64 := by decide
  constructor
  · rintro ⟨h0, hlen, hctl⟩
    exact ⟨by omega, by rw [hne, not_or]; exact ⟨h0, not_lt.2 hlen⟩, rfl, rfl, hctl, rfl⟩
  · rintro ⟨-, hrange, -, -, hctl, -⟩
    exact ⟨fun h0 => hrange (.inl (hne.2 h0)), by omega, hctl⟩

theorem exact_textIf (hasText : Prop) [Decidable hasText] :
    Exact (textIf hasText)
      (fun t => (t ≠ [] ↔ hasText) ∧ t.len ≤ MAX_CELL_TEXT ∧ t.any isControl = false)
      putText where
  read_put t rest h := by
    obtain ⟨htext, hlen, hctl⟩ := h
    by_cases hp : hasText
    · have hne := htext.2 hp
      rw [textIf, putText, if_pos hp, if_pos hne]
      exact exact_cellText.read_put t rest ⟨hne, hlen, hctl⟩
    · have hnil : t = [] := not_not.1 (mt htext.1 hp)
      rw [textIf, if_neg hp, hnil]
      rfl
  of_read b t rest h := by
    by_cases hp : hasText
    · rw [textIf, if_pos hp] at h
      obtain ⟨⟨hne, hlen, hctl⟩, hb⟩ := exact_cellText.of_read b t rest h
      rw [putText, if_pos hne]
      exact ⟨⟨⟨fun _ => hp, fun _ => hne⟩, hlen, hctl⟩, hb⟩
    · rw [textIf, if_neg hp] at h
      cases h
      exact ⟨⟨⟨fun h => absurd rfl h, fun h => absurd h hp⟩, by decide, rfl⟩, rfl⟩

theorem exact_color (kind : UInt8) :
    Exact (color kind) (fun c => colorKind c = kind) putColor where
  read_put c rest h := by
    subst h
    cases c <;> rfl
  of_read b c rest h := by
    unfold color at h
    split_ifs at h with h0 h1 h2
    · cases h
      exact ⟨h0.symm, rfl⟩
    · obtain ⟨i, mid, hi, h⟩ := run_bind_eq_ok h
      cases h
      exact ⟨h1.symm, eq_cons_of_u8 hi⟩
    · obtain ⟨r, mid, hr, h⟩ := run_bind_eq_ok h
      obtain ⟨g, mid', hg, h⟩ := run_bind_eq_ok h
      obtain ⟨bl, mid'', hbl, h⟩ := run_bind_eq_ok h
      cases h
      refine ⟨h2.symm, ?_⟩
      rw [eq_cons_of_u8 hr, eq_cons_of_u8 hg, eq_cons_of_u8 hbl]
      rfl
    · cases h

/-! ### Cells

The two head bytes of a cell pack its flags, whether it has text, and the
kinds of its colours.  The facts about them are finite, one byte at a time. -/

theorem flags_of_head (flags : UInt8) (hflags : flags &&& ~~~ALL = 0) (t : Bool) :
    ((flags &&& ALL) ||| (if t then 0x80 else 0)) &&& ALL = flags ∧
      (((flags &&& ALL) ||| (if t then 0x80 else 0)) &&& 0x80 ≠ 0 ↔ t = true) := by
  revert flags t
  exact forall_byte (by decide +kernel)

theorem head_of_flags (b : UInt8) :
    ((b &&& ALL) &&& ALL) ||| (if b &&& 0x80 ≠ 0 then 0x80 else 0) = b ∧
      (b &&& ALL) &&& ~~~ALL = 0 := by
  revert b
  exact forall_byte (by decide +kernel)

theorem kinds_of_head (fg bg : Color) :
    (colorKind fg ||| (colorKind bg <<< 2)) &&& 0xf0 = 0 ∧
      (colorKind fg ||| (colorKind bg <<< 2)) &&& 3 = colorKind fg ∧
      ((colorKind fg ||| (colorKind bg <<< 2)) >>> 2) &&& 3 = colorKind bg := by
  cases fg <;> cases bg <;> simp only [colorKind] <;> decide

theorem head_of_kinds (b : UInt8) (hb : b &&& 0xf0 = 0) :
    (b &&& (3 : UInt8)) ||| (((b >>> 2) &&& 3) <<< 2) = b := by
  revert b
  exact forall_byte (by decide +kernel)

theorem exact_cell : Exact cell Cell.IsValid putCell where
  read_put c rest h := by
    obtain ⟨hflags, hwide, hlen, hctl, hcont⟩ := h
    obtain ⟨hkinds, hfg, hbg⟩ := kinds_of_head c.fg c.bg
    obtain ⟨hall, htext⟩ := flags_of_head c.flags hflags (decide (c.text ≠ []))
    simp only [decide_eq_true_eq] at hall htext
    have hcont' : ¬(c.text ≠ [] ∧ c.flags &&& WIDE_CONT ≠ 0) := fun h => hcont h.symm
    rw [cell, putCell, cellHead, append_assoc, append_assoc, append_assoc,
      cons_append, cons_append, nil_append,
      run_bind_of_ok (run_u8_cons _ _), run_bind_of_ok (run_u8_cons _ _),
      run_ensure_bind_of hkinds, run_ensure_bind_of (by rw [hall]; exact hwide),
      run_ensure_bind_of (by rw [hall, htext]; exact hcont'), hfg, hbg, hall,
      run_bind_of_ok ((exact_color _).read_put c.fg _ rfl),
      run_bind_of_ok ((exact_color _).read_put c.bg _ rfl),
      run_bind_of_ok ((exact_textIf _).read_put c.text rest ⟨htext.symm, hlen, hctl⟩)]
    rfl
  of_read b c rest h := by
    obtain ⟨b0, m0, h0, h⟩ := run_bind_eq_ok h
    obtain ⟨b1, m1, h1, h⟩ := run_bind_eq_ok h
    obtain ⟨hkinds, h⟩ := run_ensure_bind_eq_ok h
    obtain ⟨hwide, h⟩ := run_ensure_bind_eq_ok h
    obtain ⟨hcont, h⟩ := run_ensure_bind_eq_ok h
    obtain ⟨fg, m2, hfg, h⟩ := run_bind_eq_ok h
    obtain ⟨bg, m3, hbg, h⟩ := run_bind_eq_ok h
    obtain ⟨text, m4, ht, h⟩ := run_bind_eq_ok h
    cases h
    obtain ⟨hkfg, hm1⟩ := (exact_color _).of_read _ _ _ hfg
    obtain ⟨hkbg, hm2⟩ := (exact_color _).of_read _ _ _ hbg
    obtain ⟨⟨htext, hlen, hctl⟩, hm3⟩ := (exact_textIf _).of_read _ _ _ ht
    obtain ⟨hhead, hflags⟩ := head_of_flags b0
    refine ⟨⟨hflags, hwide, hlen, hctl, fun h => hcont ⟨htext.1 h.2, h.1⟩⟩, ?_⟩
    have hcell : cellHead { text := text, fg := fg, bg := bg, flags := b0 &&& ALL } = [b0, b1] := by
      simp only [cellHead, htext, hhead, hkfg, hkbg, head_of_kinds b1 hkinds]
    rw [putCell, hcell, eq_cons_of_u8 h0, eq_cons_of_u8 h1, hm1, hm2, hm3]
    simp only [append_assoc, cons_append, nil_append]

end Read

/-! ## The canonical bytes of a screen -/

abbrev Hash := { b : List UInt8 // b.length = HASH_LEN }

def toLeBytes (v : Nat) : List UInt8 :=
  [UInt8.ofNat v, UInt8.ofNat (v / 256)]

namespace ScreenState

def rowBytes (r : Row) : List UInt8 :=
  (if r.wrapped then 1 else 0) :: r.cells.flatMap putCell

/-- The bytes that the state hash is taken over: dimensions, cursor, modes,
then the wrap flag and the cells of every row. -/
def canonicalBytes (s : ScreenState) : List UInt8 :=
  [s.rows, s.cols, s.cursorRow, s.cursorCol].flatMap toLeBytes ++
    [s.modes.flags, s.modes.mouseMode, s.modes.mouseEncoding] ++ s.grid.flatMap rowBytes

/-- The hash of the canonical bytes. -/
def hash (blake3 : List UInt8 → Hash) (s : ScreenState) : Hash :=
  blake3 s.canonicalBytes

theorem toLeBytes_inj {v w : Nat} (hv : v ≤ MAX_DIM) (hw : w ≤ MAX_DIM)
    (h : toLeBytes v = toLeBytes w) : v = w := by
  simp only [toLeBytes, List.cons.injEq, and_true, ← UInt8.toNat_inj, UInt8.toNat_ofNat'] at h
  simp only [MAX_DIM] at hv hw
  omega

theorem rowBytes_prefixInj (cols : Nat) : Exact.PrefixInj (RowIsValid cols) rowBytes := by
  rintro ⟨cells, wrapped⟩ ⟨cells', wrapped'⟩ x y ha hb heq
  simp only [rowBytes, cons_append, List.cons.injEq] at heq
  obtain ⟨hwrap, heq⟩ := heq
  obtain ⟨rfl, rfl⟩ := Read.exact_cell.prefixInj.flatMap cols cells cells' x y ha hb heq
  refine ⟨?_, rfl⟩
  cases wrapped <;> cases wrapped' <;> simp_all

/-- The leading dimensions say how many cells follow, and each cell tells where
it ends, so the canonical bytes determine the screen; with no collision of the
digest on the two screens, so does the hash. -/
theorem eq_of_canonicalBytes_eq (a b : ScreenState) (ha : a.IsValid) (hb : b.IsValid) :
    (a.canonicalBytes = b.canonicalBytes → a = b) ∧ ∀ blake3 : List UInt8 → Hash,
        (blake3 a.canonicalBytes = blake3 b.canonicalBytes → a.canonicalBytes = b.canonicalBytes) →
        a.hash blake3 = b.hash blake3 → a = b := by
  have hinj : a.canonicalBytes = b.canonicalBytes → a = b := by
    obtain ⟨rows, cols, cursorRow, cursorCol, ⟨flags, mode, enc⟩, grid⟩ := a
    obtain ⟨rows', cols', cursorRow', cursorCol', ⟨flags', mode', enc'⟩, grid'⟩ := b
    obtain ⟨⟨hr, hc, -⟩, hcr, hcc, -, hgrid⟩ := ha
    obtain ⟨⟨hr', hc', -⟩, hcr', hcc', -, hgrid'⟩ := hb
    dsimp only at hr hc hcr hcc hgrid hr' hc' hcr' hcc' hgrid'
    intro h
    simp only [canonicalBytes, flatMap_cons, flatMap_nil, append_assoc, nil_append] at h
    -- The header has a fixed width: four numbers of two bytes and three flags.
    obtain ⟨h₁, h⟩ := append_inj h rfl
    obtain ⟨h₂, h⟩ := append_inj h rfl
    obtain ⟨h₃, h⟩ := append_inj h rfl
    obtain ⟨h₄, h⟩ := append_inj h rfl
    obtain ⟨h₅, hrows⟩ := append_inj h rfl
    cases toLeBytes_inj hr.2 hr'.2 h₁
    cases toLeBytes_inj hc.2 hc'.2 h₂
    cases toLeBytes_inj (by omega) (by omega) h₃
    cases toLeBytes_inj (by omega) (by omega) h₄
    cases h₅
    have happ := congrArg (· ++ []) hrows
    cases ((rowBytes_prefixInj cols).flatMap rows grid grid' [] [] hgrid hgrid' happ).1
    rfl
  exact ⟨hinj, fun blake3 hno heq => hinj (hno heq)⟩

/-- A row of two cells with different colours and attributes. -/
def twoCells (first second : Text) : ScreenState :=
  { blankState 1 2 with
    grid := [⟨[⟨first, .idx 1, .default, 1⟩, ⟨second, .rgb 1 2 3, .idx 4, 4⟩], true⟩] }

/-- An accent that belongs to the first cell is not one that belongs to the second. -/
theorem canonicalBytes_ne_of_moved_accent :
    (twoCells ['e', '\u0301'] ['x']).canonicalBytes ≠
      (twoCells ['e'] ['\u0301', 'x']).canonicalBytes := by
  intro h
  have heq := (eq_of_canonicalBytes_eq (twoCells ['e', '\u0301'] ['x'])
    (twoCells ['e'] ['\u0301', 'x']) (by decide) (by decide)).1 h
  exact absurd heq (by decide)

end ScreenState

end Qsh.Screen
