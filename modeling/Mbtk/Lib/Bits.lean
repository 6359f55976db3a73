import Mathlib.Tactic

/-! Nibbles of a byte and bytes of a 16-bit word, as arithmetic. -/

namespace Mbtk.Lib

/-- The byte with the given upper and lower nibble. -/
def byteOf (upper lower : ℕ) : UInt8 := UInt8.ofNat (16 * upper + lower)

theorem toNat_byteOf {u l : ℕ} (hu : u < 16) (hl : l < 16) :
    (byteOf u l).toNat = 16 * u + l := by
  rw [byteOf, UInt8.toNat_ofNat']
  omega

theorem toNat_lower (b : UInt8) : (b &&& 0x0F).toNat = b.toNat % 16 := by
  rw [UInt8.toNat_and]
  exact Nat.and_two_pow_sub_one_eq_mod b.toNat 4

theorem toNat_upper (b : UInt8) : ((b &&& 0xF0) >>> 4).toNat = b.toNat / 16 := by
  have hb := b.toNat_lt
  rw [UInt8.toNat_shiftRight, UInt8.toNat_and]
  change (b.toNat &&& 240) >>> 4 = b.toNat / 16
  rw [Nat.shiftRight_and_distrib, Nat.shiftRight_eq_div_pow]
  change b.toNat / 2 ^ 4 &&& (2 ^ 4 - 1) = b.toNat / 16
  rw [Nat.and_two_pow_sub_one_eq_mod]
  omega

theorem toNat_top_bits (b : UInt8) : ((b &&& 0xC0) >>> 6).toNat = b.toNat / 64 := by
  have hb := b.toNat_lt
  rw [UInt8.toNat_shiftRight, UInt8.toNat_and]
  change (b.toNat &&& 192) >>> 6 = b.toNat / 64
  rw [Nat.shiftRight_and_distrib, Nat.shiftRight_eq_div_pow]
  change b.toNat / 2 ^ 6 &&& (2 ^ 2 - 1) = b.toNat / 64
  rw [Nat.and_two_pow_sub_one_eq_mod]
  omega

theorem lower_byteOf {u l : ℕ} (hu : u < 16) (hl : l < 16) :
    (byteOf u l &&& 0x0F).toNat = l := by
  rw [toNat_lower, toNat_byteOf hu hl]
  omega

theorem upper_byteOf {u l : ℕ} (hu : u < 16) (hl : l < 16) :
    ((byteOf u l &&& 0xF0) >>> 4).toNat = u := by
  rw [toNat_upper, toNat_byteOf hu hl]
  omega

/-- Setting the upper nibble of a byte whose upper nibble was cleared. -/
theorem lower_or_upper (b c : UInt8) (u : ℕ) (hu : u < 16) (hc : c.toNat = 16 * u) :
    (b &&& 0x0F) ||| c = byteOf u (b.toNat % 16) := by
  apply UInt8.toNat_inj.mp
  rw [UInt8.toNat_or, toNat_lower, hc, toNat_byteOf hu (Nat.mod_lt _ (by omega)), Nat.or_comm]
  exact (Nat.two_pow_add_eq_or_of_lt (i := 4) (Nat.mod_lt _ (by omega)) u).symm

/-- Setting the lower nibble of a byte that has none. -/
theorem upper_or_lower (b : UInt8) (u l : ℕ) (hu : u < 16) (hl : l < 16) (hb : b.toNat = l) :
    byteOf u 0 ||| b = byteOf u l := by
  apply UInt8.toNat_inj.mp
  rw [UInt8.toNat_or, hb, toNat_byteOf hu (by omega), toNat_byteOf hu hl]
  exact (Nat.two_pow_add_eq_or_of_lt (i := 4) hl u).symm

/-- A lower nibble that was cleared and set anew reads as what it was set to. -/
theorem lower_of_or (b x : UInt8) (hx : x.toNat < 16) : ((b &&& 0xF0) ||| x) &&& 0x0F = x := by
  apply UInt8.toNat_inj.mp
  rw [UInt8.toNat_and, UInt8.toNat_or, UInt8.toNat_and, Nat.and_or_distrib_right, Nat.and_assoc]
  change b.toNat &&& 0 ||| x.toNat &&& (2 ^ 4 - 1) = x.toNat
  rw [Nat.and_two_pow_sub_one_eq_mod, Nat.mod_eq_of_lt hx, Nat.and_zero, Nat.zero_or]

theorem toNat_shl4_toUInt8 {d : UInt16} (h : d.toNat < 16) :
    (d <<< 4).toUInt8.toNat = 16 * d.toNat := by
  rw [UInt16.toNat_toUInt8, UInt16.toNat_shiftLeft]
  change d.toNat <<< 4 % 2 ^ 16 % 2 ^ 8 = 16 * d.toNat
  rw [Nat.shiftLeft_eq]
  omega

theorem toNat_and_0F_toUInt8 {d : UInt16} (h : d.toNat < 16) :
    (d &&& 0x000F).toUInt8.toNat = d.toNat := by
  rw [UInt16.toNat_toUInt8, UInt16.toNat_and]
  change (d.toNat &&& 2 ^ 4 - 1) % 2 ^ 8 = d.toNat
  rw [Nat.and_two_pow_sub_one_eq_mod]
  omega

theorem toNat_big_endian (a b : UInt8) :
    ((a.toUInt16 <<< 8) ||| b.toUInt16).toNat = 256 * a.toNat + b.toNat := by
  have ha := a.toNat_lt
  have hb := b.toNat_lt
  rw [UInt16.toNat_or, UInt16.toNat_shiftLeft, UInt8.toNat_toUInt16, UInt8.toNat_toUInt16]
  change a.toNat <<< 8 % 2 ^ 16 ||| b.toNat = 256 * a.toNat + b.toNat
  rw [Nat.shiftLeft_eq, Nat.mod_eq_of_lt (by omega), Nat.mul_comm]
  exact (Nat.two_pow_add_eq_or_of_lt (i := 8) (by omega) a.toNat).symm

/-- The byte swap of a word: its high byte ends up low. -/
theorem toNat_swap (x : UInt16) :
    (((x &&& 0x00FF) <<< 8) ||| ((x &&& 0xFF00) >>> 8)).toNat =
      256 * (x.toNat % 256) + x.toNat / 256 := by
  have hx := x.toNat_lt
  have hlo : (x &&& 0x00FF).toNat = x.toNat % 256 := by
    rw [UInt16.toNat_and]
    exact Nat.and_two_pow_sub_one_eq_mod x.toNat 8
  have hhi : ((x &&& 0xFF00) >>> 8).toNat = x.toNat / 256 := by
    rw [UInt16.toNat_shiftRight, UInt16.toNat_and]
    change (x.toNat &&& 65280) >>> 8 = x.toNat / 256
    rw [Nat.shiftRight_and_distrib, Nat.shiftRight_eq_div_pow]
    change x.toNat / 2 ^ 8 &&& (2 ^ 8 - 1) = x.toNat / 256
    rw [Nat.and_two_pow_sub_one_eq_mod]
    omega
  rw [UInt16.toNat_or, UInt16.toNat_shiftLeft, hlo, hhi]
  change (x.toNat % 256) <<< 8 % 2 ^ 16 ||| x.toNat / 256 = _
  rw [Nat.shiftLeft_eq, Nat.mod_eq_of_lt (by omega), Nat.mul_comm]
  exact (Nat.two_pow_add_eq_or_of_lt (i := 8) (by omega) (x.toNat % 256)).symm

end Mbtk.Lib
