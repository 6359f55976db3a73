import Mathlib.Data.List.Basic
import Mathlib.Order.Basic

/-! Numbers written as a nibble with up to two extension bytes.  A nibble below 13
is the number itself, 13 announces one byte counted from 13 and 14 announces two
bytes, most significant first, counted from 269. -/

namespace Mbtk.Lib.ExtNat

def nibble (n : ℕ) : ℕ := if n < 13 then n else if n < 269 then 13 else 14

def extension (n : ℕ) : List UInt8 :=
  if n < 13 then []
  else if n < 269 then [UInt8.ofNat (n - 13)]
  else [UInt8.ofNat ((n - 269) / 256), UInt8.ofNat ((n - 269) % 256)]

/-- Nibble `k` followed by the extension bytes stands for the number. -/
inductive Reads : ℕ → List UInt8 → ℕ → Prop
  | short {k : ℕ} : k < 13 → Reads k [] k
  | byte (b : UInt8) : Reads 13 [b] (b.toNat + 13)
  | word (a b : UInt8) : Reads 14 [a, b] (256 * a.toNat + b.toNat + 269)

theorem nibble_le (n : ℕ) : nibble n ≤ 14 := by
  unfold nibble
  split_ifs <;> omega

theorem length_extension (n : ℕ) :
    (extension n).length = if n < 13 then 0 else if n < 269 then 1 else 2 := by
  unfold extension
  split_ifs <;> rfl

theorem length_extension_le (n : ℕ) : (extension n).length ≤ 2 := by
  rw [length_extension]
  split_ifs <;> omega

theorem extension_of_lt {n : ℕ} (h : n < 13) : extension n = [] := by simp [extension, h]

theorem extension_byte {n : ℕ} (h : 13 ≤ n) (h' : n < 269) :
    extension n = [UInt8.ofNat (n - 13)] := by
  simp [extension, Nat.not_lt.mpr h, h']

theorem extension_word {n : ℕ} (h : 269 ≤ n) :
    extension n = [UInt8.ofNat ((n - 269) / 256), UInt8.ofNat ((n - 269) % 256)] := by
  have : 13 ≤ n := by omega
  simp [extension, Nat.not_lt.mpr this, Nat.not_lt.mpr h]

theorem reads_extension {n : ℕ} (h : n < 65536 + 269) : Reads (nibble n) (extension n) n := by
  unfold nibble extension
  split_ifs with h13 h269
  · exact .short h13
  · have hb : (UInt8.ofNat (n - 13)).toNat + 13 = n := by
      rw [UInt8.toNat_ofNat']
      omega
    simpa only [hb] using Reads.byte (UInt8.ofNat (n - 13))
  · have hw : 256 * (UInt8.ofNat ((n - 269) / 256)).toNat +
        (UInt8.ofNat ((n - 269) % 256)).toNat + 269 = n := by
      rw [UInt8.toNat_ofNat', UInt8.toNat_ofNat']
      omega
    simpa only [hw] using
      Reads.word (UInt8.ofNat ((n - 269) / 256)) (UInt8.ofNat ((n - 269) % 256))

theorem Reads.lt {k n : ℕ} {bs : List UInt8} (h : Reads k bs n) : n < 65536 + 269 := by
  cases h with
  | short h => omega
  | byte b => have := b.toNat_lt; omega
  | word a b => have := a.toNat_lt; have := b.toNat_lt; omega

theorem Reads.eq_nibble {k n : ℕ} {bs : List UInt8} (h : Reads k bs n) : k = nibble n := by
  cases h with
  | short h => simp [nibble, h]
  | byte b =>
    have := b.toNat_lt
    unfold nibble
    split_ifs <;> omega
  | word a b =>
    unfold nibble
    split_ifs <;> omega

theorem Reads.eq_extension {k n : ℕ} {bs : List UInt8} (h : Reads k bs n) :
    bs = extension n := by
  cases h with
  | short h => simp [extension, h]
  | byte b =>
    rw [extension_byte (by omega) (by have := b.toNat_lt; omega)]
    simp
  | word a b =>
    have ha := a.toNat_lt
    have hb := b.toNat_lt
    have hhi : (256 * a.toNat + b.toNat + 269 - 269) / 256 = a.toNat := by omega
    have hlo : (256 * a.toNat + b.toNat + 269 - 269) % 256 = b.toNat := by omega
    rw [extension_word (by omega), hhi, hlo]
    simp

/-- A number is determined by its nibble and its extension bytes. -/
theorem Reads.unique {k m n : ℕ} {bs : List UInt8} (h : Reads k bs m) (h' : Reads k bs n) :
    m = n := by
  cases h <;> cases h' <;> rfl

/-- The extension bytes that a nibble announces. -/
def extLength (k : ℕ) : ℕ := if k < 13 then 0 else if k = 13 then 1 else 2

/-- The number that a nibble and the bytes from there on stand for. -/
def extValue (k : ℕ) (bs : List UInt8) : ℕ :=
  if k < 13 then k
  else if k = 13 then (bs.getD 0 0).toNat + 13
  else 256 * (bs.getD 0 0).toNat + (bs.getD 1 0).toNat + 269

theorem extValue_of_lt {k : ℕ} (h : k < 13) (bs : List UInt8) : extValue k bs = k := by
  simp [extValue, h]

theorem extValue_13 (bs : List UInt8) : extValue 13 bs = (bs.getD 0 0).toNat + 13 := rfl

theorem extValue_14 (bs : List UInt8) :
    extValue 14 bs = 256 * (bs.getD 0 0).toNat + (bs.getD 1 0).toNat + 269 := rfl

theorem Reads.length_eq {k n : ℕ} {bs : List UInt8} (h : Reads k bs n) :
    bs.length = extLength k := by
  cases h with
  | short h => simp [extLength, h]
  | byte b => rfl
  | word a b => rfl

theorem Reads.extValue_eq {k n : ℕ} {bs : List UInt8} (h : Reads k bs n) (t : List UInt8) :
    extValue k (bs ++ t) = n := by
  cases h with
  | short h => simp [extValue, h]
  | byte b => rfl
  | word a b => rfl

theorem reads_take {k : ℕ} {bs : List UInt8} (hk : k ≤ 14) (hl : extLength k ≤ bs.length) :
    Reads k (bs.take (extLength k)) (extValue k bs) := by
  unfold extLength at hl ⊢
  unfold extValue
  split_ifs at hl ⊢ with h13 h13'
  · rw [List.take_zero]
    exact .short h13
  · obtain ⟨a, t, rfl⟩ := List.exists_cons_of_length_pos hl
    rw [h13']
    exact .byte a
  · obtain rfl : k = 14 := by omega
    match bs, hl with
    | a :: b :: t, _ => exact .word a b

theorem length_extension_extValue (k : ℕ) (bs : List UInt8) :
    (extension (extValue k bs)).length = extLength k := by
  have := (bs.getD 0 0).toNat_lt
  rw [length_extension]
  unfold extValue extLength
  split_ifs <;> omega

end Mbtk.Lib.ExtNat
