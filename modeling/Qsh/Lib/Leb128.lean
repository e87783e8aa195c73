import Mathlib.Algebra.Group.Nat.Defs
import Mathlib.Data.Nat.Log
import Mathlib.Data.List.Basic

/-!
# LEB128

Numbers in groups of seven bits, the low group first, with the top bit of a
byte set when more groups follow.  `leb128` writes the shortest form.

The code is prefix-free (`leb128_append_inj`), so a number can be read back from
the front of a byte string.
-/

namespace Qsh.Lib

/-! ## Bits of one byte -/

theorem toNat_low_bits (b : UInt8) : (b &&& 0x7f).toNat = b.toNat % 128 := by
  rw [UInt8.toNat_and]
  exact Nat.and_two_pow_sub_one_eq_mod b.toNat 7

theorem top_bit_eq_zero_iff (b : UInt8) : b &&& 0x80 = 0 ↔ b.toNat < 128 := by
  have hand : ∀ n < 256, n &&& 128 = n / 128 * 128 := by decide +kernel
  rw [← UInt8.toNat_inj, UInt8.toNat_and]
  show b.toNat &&& 128 = 0 ↔ _
  rw [hand b.toNat b.toNat_lt]
  omega

variable {n v : Nat}

theorem set_top_bit (hn : n < 128) :
    UInt8.ofNat n ||| 0x80 = UInt8.ofNat (n + 128) := by
  have hor : ∀ n < 128, UInt8.ofNat n ||| 0x80 = UInt8.ofNat (n + 128) := by decide +kernel
  exact hor n hn

/-! ## The code -/

def leb128Groups : Nat → Nat → List UInt8
  | 0, _ => []
  | fuel + 1, v =>
      let low := UInt8.ofNat (v &&& 0x7f)
      let v' := v >>> 7
      if v' = 0 then [low] else (low ||| 0x80) :: leb128Groups fuel v'

/-- The shortest form of a number.  A number has no more groups than bits. -/
def leb128 (v : Nat) : List UInt8 :=
  leb128Groups (v.log2 + 1) v

theorem leb128Groups_succ (fuel v : Nat) :
    leb128Groups (fuel + 1) v =
      if v < 128 then [UInt8.ofNat v]
      else UInt8.ofNat (v % 128 + 128) :: leb128Groups fuel (v / 128) := by
  have hlow : v &&& 0x7f = v % 128 := Nat.and_two_pow_sub_one_eq_mod v 7
  have hshift : v >>> 7 = v / 128 := Nat.shiftRight_eq_div_pow v 7
  simp only [leb128Groups, hlow, hshift]
  by_cases hv : v < 128
  · rw [if_pos hv, if_pos (Nat.div_eq_of_lt hv), Nat.mod_eq_of_lt hv]
  · rw [if_neg hv, if_neg (by omega), set_top_bit (Nat.mod_lt v (by decide))]

theorem leb128Groups_fuel {fuel fuel' : Nat} (h : v < 2 ^ fuel) (h' : v < 2 ^ fuel')
    (h0 : 0 < fuel) (h0' : 0 < fuel') : leb128Groups fuel v = leb128Groups fuel' v := by
  induction fuel generalizing v fuel' with
  | zero => omega
  | succ fuel ih =>
    obtain ⟨fuel', rfl⟩ : ∃ f, fuel' = f + 1 := ⟨fuel' - 1, by omega⟩
    rw [leb128Groups_succ, leb128Groups_succ]
    by_cases hv : v < 128
    · rw [if_pos hv, if_pos hv]
    have hbits : ∀ f, v < 2 ^ (f + 1) → v / 128 < 2 ^ f ∧ 0 < f := by
      intro f hf
      refine ⟨by rw [Nat.pow_succ] at hf; omega, ?_⟩
      rcases Nat.eq_zero_or_pos f with rfl | hpos
      · omega
      · exact hpos
    obtain ⟨hlt, hpos⟩ := hbits fuel h
    obtain ⟨hlt', hpos'⟩ := hbits fuel' h'
    rw [if_neg hv, if_neg hv, ih hlt hlt' hpos hpos']

theorem leb128_eq (v : Nat) :
    leb128 v =
      if v < 128 then [UInt8.ofNat v]
      else UInt8.ofNat (v % 128 + 128) :: leb128 (v / 128) := by
  rw [leb128, leb128Groups_succ]
  by_cases hv : v < 128
  · rw [if_pos hv, if_pos hv]
  have hlt : v < 2 ^ (v.log2 + 1) := Nat.lt_log2_self
  have hpos : 0 < v.log2 := by
    rcases Nat.eq_zero_or_pos v.log2 with h0 | hpos
    · rw [h0] at hlt; omega
    · exact hpos
  have hdiv : v / 128 < 2 ^ v.log2 := by rw [Nat.pow_succ] at hlt; omega
  rw [if_neg hv, if_neg hv, leb128, leb128Groups_fuel hdiv Nat.lt_log2_self hpos (Nat.succ_pos _)]

theorem leb128_of_lt (hv : v < 128) : leb128 v = [UInt8.ofNat v] := by
  rw [leb128_eq, if_pos hv]

theorem leb128_of_ge (hv : 128 ≤ v) :
    leb128 v = UInt8.ofNat (v % 128 + 128) :: leb128 (v / 128) := by
  rw [leb128_eq, if_neg (by omega)]

theorem leb128_induction {motive : Nat → Prop} (last : ∀ v < 128, motive v)
    (more : ∀ v, 128 ≤ v → motive (v / 128) → motive v) (v : Nat) : motive v := by
  induction v using Nat.strongRecOn with
  | ind v ih =>
    by_cases hv : v < 128
    · exact last v hv
    · exact more v (by omega) (ih (v / 128) (by omega))

theorem leb128_ne_nil (v : Nat) : leb128 v ≠ [] := by
  rw [leb128_eq]
  split <;> simp

theorem one_le_length_leb128 (v : Nat) : 1 ≤ (leb128 v).length :=
  List.length_pos_iff.2 (leb128_ne_nil v)

theorem length_leb128_le {k : Nat} (hk : 0 < k) (hv : v < 128 ^ k) :
    (leb128 v).length ≤ k := by
  induction k generalizing v with
  | zero => omega
  | succ k ih =>
    by_cases hlt : v < 128
    · rw [leb128_of_lt hlt]
      exact hk
    have hdiv : v / 128 < 128 ^ k := by rw [Nat.pow_succ] at hv; omega
    have hpos : 0 < k := by
      rcases Nat.eq_zero_or_pos k with rfl | hpos
      · omega
      · exact hpos
    rw [leb128_of_ge (by omega), List.length_cons]
    exact Nat.succ_le_succ (ih hpos hdiv)

theorem toNat_group (hn : n < 128) :
    (UInt8.ofNat n).toNat = n ∧ (UInt8.ofNat (n + 128)).toNat = n + 128 := by
  constructor <;> rw [UInt8.toNat_ofNat'] <;> omega

theorem leb128_append_inj {w : Nat} {xs ys : List UInt8}
    (h : leb128 v ++ xs = leb128 w ++ ys) : v = w ∧ xs = ys := by
  induction v using leb128_induction generalizing w with
  | last v hv =>
    rw [leb128_of_lt hv] at h
    by_cases hw : w < 128
    · rw [leb128_of_lt hw] at h
      obtain ⟨hb, hxs⟩ := List.cons.inj h
      have hb := congrArg UInt8.toNat hb
      rw [(toNat_group hv).1, (toNat_group hw).1] at hb
      exact ⟨hb, hxs⟩
    -- one side goes on after the first byte and the other does not
    rw [leb128_of_ge (v := w) (by omega)] at h
    have hb := congrArg UInt8.toNat (List.cons.inj h).1
    rw [(toNat_group hv).1, (toNat_group (Nat.mod_lt w (by decide))).2] at hb
    omega
  | more v hv ih =>
    rw [leb128_of_ge hv] at h
    have hgroup := (toNat_group (Nat.mod_lt v (by decide : 0 < 128))).2
    by_cases hw : w < 128
    · rw [leb128_of_lt hw] at h
      have hb := congrArg UInt8.toNat (List.cons.inj h).1
      rw [hgroup, (toNat_group hw).1] at hb
      omega
    rw [leb128_of_ge (v := w) (by omega)] at h
    obtain ⟨hb, hrest⟩ := List.cons.inj h
    have hb := congrArg UInt8.toNat hb
    rw [hgroup, (toNat_group (Nat.mod_lt w (by decide))).2] at hb
    obtain ⟨hdiv, hxs⟩ := ih hrest
    exact ⟨by omega, hxs⟩

end Qsh.Lib
