import Mbtk.Coap.Format
import Mbtk.Coap.Memory
import Mbtk.Coap.Options

namespace Mbtk.Coap

open Lib Lib.ExtNat

theorem computeExtraBytes_eq (n : UInt16) :
    computeExtraBytes n = (extension n.toNat).length := by
  rw [length_extension]
  simp only [computeExtraBytes, UInt16.lt_iff_toNat_lt]
  rfl

theorem toNat_endianLoad16 (a b : UInt8) :
    (endianLoad16 a b).toNat = 256 * a.toNat + b.toNat := toNat_big_endian a b

theorem endianStore16_eq (n : UInt16) :
    endianStore16 n = [UInt8.ofNat (n.toNat / 256), UInt8.ofNat (n.toNat % 256)] := by
  have hn := n.toNat_lt
  have hswap : (psNtohs n).toNat = 256 * (n.toNat % 256) + n.toNat / 256 := toNat_swap n
  simp only [endianStore16, List.cons.injEq, and_true]
  constructor
  · apply UInt8.toNat_inj.mp
    rw [UInt16.toNat_toUInt8, hswap, UInt8.toNat_ofNat']
    omega
  · apply UInt8.toNat_inj.mp
    rw [UInt16.toNat_toUInt8, UInt16.toNat_shiftRight, hswap, UInt8.toNat_ofNat']
    change ((256 * (n.toNat % 256) + n.toNat / 256) >>> 8) % 2 ^ 8 = n.toNat % 256 % 2 ^ 8
    have hb : n.toNat / 256 < 256 := by omega
    rw [Nat.shiftRight_eq_div_pow, Nat.mul_add_div (by omega), Nat.div_eq_of_lt hb, Nat.add_zero]

theorem upper_toUInt16 {u l : ℕ} (hu : u < 16) (hl : l < 16) :
    ((byteOf u l &&& 0xF0) >>> 4).toUInt16 = UInt16.ofNat u := by
  apply UInt16.toNat_inj.mp
  rw [UInt8.toNat_toUInt16, upper_byteOf hu hl, UInt16.toNat_ofNat']
  omega

theorem lower_toUInt16 {u l : ℕ} (hu : u < 16) (hl : l < 16) :
    (byteOf u l &&& 0x0F).toUInt16 = UInt16.ofNat l := by
  apply UInt16.toNat_inj.mp
  rw [UInt8.toNat_toUInt16, lower_byteOf hu hl, UInt16.toNat_ofNat']
  omega

theorem ofNat_lt_13 {k : ℕ} (h : k < 65536) : UInt16.ofNat k < 13 ↔ k < 13 := by
  rw [UInt16.lt_iff_toNat_lt, UInt16.toNat_ofNat', Nat.mod_eq_of_lt h]
  rfl

theorem ofNat_ne_13 {k : ℕ} (h : k < 13) : UInt16.ofNat k ≠ 13 := by
  intro h'
  have := (ofNat_lt_13 (show k < 65536 by omega)).mpr h
  rw [h'] at this
  exact absurd this (by decide)

theorem ofNat_ne_14 {k : ℕ} (h : k < 13) : UInt16.ofNat k ≠ 14 := by
  intro h'
  have := (ofNat_lt_13 (show k < 65536 by omega)).mpr h
  rw [h'] at this
  exact absurd this (by decide)

theorem byte_add_13 (b : UInt8) : b.toUInt16 + 13 = UInt16.ofNat (b.toNat + 13) := by
  have := b.toNat_lt
  apply UInt16.toNat_inj.mp
  rw [UInt16.toNat_add, UInt8.toNat_toUInt16, UInt16.toNat_ofNat']
  rfl

theorem word_add_269 (a b : UInt8) :
    endianLoad16 a b + 269 = UInt16.ofNat (256 * a.toNat + b.toNat + 269) := by
  apply UInt16.toNat_inj.mp
  rw [UInt16.toNat_add, toNat_endianLoad16, UInt16.toNat_ofNat']
  rfl

theorem getOptionDelta_header {dn ln Δ : ℕ} {de : List UInt8} (hd : Reads dn de Δ) (hl : ln < 16)
    (t : List UInt8) : getOptionDelta (byteOf dn ln :: (de ++ t)) = UInt16.ofNat Δ := by
  cases hd with
  | short h =>
    simp only [getOptionDelta, List.getD_cons_zero, upper_toUInt16 (show dn < 16 by omega) hl,
      ofNat_lt_13 (show dn < 65536 by omega), h, if_true]
  | byte b =>
    simp only [getOptionDelta, List.getD_cons_zero, upper_toUInt16 (show 13 < 16 by omega) hl,
      ← byte_add_13]
    rfl
  | word a b =>
    simp only [getOptionDelta, List.getD_cons_zero, upper_toUInt16 (show 14 < 16 by omega) hl,
      ← word_add_269]
    rfl

theorem getOptionValueLength_header {dn ln Δ L : ℕ} {de le : List UInt8} (hd : Reads dn de Δ)
    (hl : Reads ln le L) (t : List UInt8) :
    getOptionValueLength (byteOf dn ln :: (de ++ le ++ t)) = UInt16.ofNat L := by
  have hdn : dn < 16 := by cases hd <;> omega
  have hln : ln < 16 := by cases hl <;> omega
  simp only [getOptionValueLength, List.getD_cons_zero, upper_toUInt16 hdn hln,
    lower_toUInt16 hdn hln]
  cases hl with
  | short h => simp [ofNat_lt_13 (show ln < 65536 by omega), h]
  | byte b =>
    rw [← byte_add_13]
    cases hd with
    | short h =>
      simp [ofNat_ne_13 h, ofNat_ne_14 h]
    | byte c => rfl
    | word c d => rfl
  | word a b =>
    rw [← word_add_269]
    cases hd with
    | short h =>
      simp [ofNat_ne_13 h, ofNat_ne_14 h]
    | byte c => rfl
    | word c d => rfl

theorem toNat_shl4 {d : UInt16} (h : d < 13) : (d <<< 4).toUInt8.toNat = 16 * d.toNat := by
  rw [UInt16.lt_iff_toNat_lt] at h
  change d.toNat < 13 at h
  exact toNat_shl4_toUInt8 (by omega)

theorem nibble_of_lt_13 {d : UInt16} (h : d < 13) : nibble d.toNat = d.toNat := by
  rw [UInt16.lt_iff_toNat_lt] at h
  change d.toNat < 13 at h
  simp [nibble, h]

theorem extension_of_lt_13 {d : UInt16} (h : d < 13) : extension d.toNat = [] := by
  rw [UInt16.lt_iff_toNat_lt] at h
  exact extension_of_lt h

theorem nibble_of_lt_269 {d : UInt16} (h : ¬ d < 13) (h' : d < 269) : nibble d.toNat = 13 := by
  rw [UInt16.lt_iff_toNat_lt] at h h'
  change ¬ d.toNat < 13 at h
  change d.toNat < 269 at h'
  simp [nibble, h, h']

theorem extension_of_lt_269 {d : UInt16} (h : ¬ d < 13) (h' : d < 269) :
    extension d.toNat = [(d - 13).toUInt8] := by
  rw [UInt16.lt_iff_toNat_lt] at h h'
  change ¬ d.toNat < 13 at h
  change d.toNat < 269 at h'
  have hsub : (d - 13).toNat = d.toNat - 13 := UInt16.toNat_sub_of_le d 13
    (UInt16.le_iff_toNat_le.mpr (Nat.not_lt.mp h))
  rw [extension_byte (by omega) h', List.cons.injEq]
  refine ⟨UInt8.toNat_inj.mp ?_, rfl⟩
  rw [UInt8.toNat_ofNat', UInt16.toNat_toUInt8, hsub]

theorem nibble_of_ge_269 {d : UInt16} (h : ¬ d < 269) : nibble d.toNat = 14 := by
  rw [UInt16.lt_iff_toNat_lt] at h
  change ¬ d.toNat < 269 at h
  have h13 : ¬ d.toNat < 13 := by omega
  simp [nibble, h, h13]

theorem extension_of_ge_269 {d : UInt16} (h : ¬ d < 269) :
    extension d.toNat = endianStore16 (d - 269) := by
  rw [UInt16.lt_iff_toNat_lt] at h
  change ¬ d.toNat < 269 at h
  have hsub : (d - 269).toNat = d.toNat - 269 := UInt16.toNat_sub_of_le d 269
    (UInt16.le_iff_toNat_le.mpr (Nat.not_lt.mp h))
  rw [extension_word (by omega), endianStore16_eq, hsub]

namespace CoapPDU

theorem setOptionDelta_eq (p : CoapPDU) (a : List UInt8) {y : List UInt8} (z : List UInt8)
    (h : UInt8) {d : UInt16} (hy : y.length = (extension d.toNat).length) :
    (p.withPdu (a ++ h :: (y ++ z))).setOptionDelta a.length d =
      .ok (p.withPdu
        (a ++ byteOf (nibble d.toNat) (h.toNat % 16) :: (extension d.toNat ++ z))) := by
  unfold setOptionDelta
  split_ifs with h13 h269
  · rw [extension_of_lt_13 h13] at hy ⊢
    obtain rfl := List.length_eq_zero_iff.mp hy
    have hd : d.toNat < 13 := by simpa [UInt16.lt_iff_toNat_lt] using h13
    have hhead := lower_or_upper h _ d.toNat (by omega) (toNat_shl4 h13)
    simp only [read_head, write_head, ok_bind, nibble_of_lt_13 h13, List.nil_append, hhead]
  · rw [extension_of_lt_269 h13 h269] at hy ⊢
    obtain ⟨c, rfl⟩ := List.length_eq_one_iff.mp hy
    simp [nibble_of_lt_269 h13 h269, lower_or_upper h 0xD0 13 (by omega) rfl]
  · rw [extension_of_ge_269 h269] at hy ⊢
    simp [nibble_of_ge_269 h269, lower_or_upper h 0xE0 14 (by omega) rfl,
      memcpy_second p a z _ hy.symm]

theorem insertOptionDelta_eq (p : CoapPDU) (a : List UInt8) {y : List UInt8} (z : List UInt8)
    (h : UInt8) {d : UInt16} (hy : y.length = (extension d.toNat).length) :
    (p.withPdu (a ++ h :: (y ++ z))).insertOptionDelta a.length d =
      .ok (p.withPdu (a ++ byteOf (nibble d.toNat) 0 :: (extension d.toNat ++ z)),
        a.length + (extension d.toNat).length) := by
  unfold insertOptionDelta
  split_ifs with h13 h269
  · rw [extension_of_lt_13 h13] at hy ⊢
    obtain rfl := List.length_eq_zero_iff.mp hy
    have hd : d.toNat < 13 := by simpa [UInt16.lt_iff_toNat_lt] using h13
    have hhead := lower_or_upper 0 _ d.toNat (by omega) (toNat_shl4 h13)
    rw [show (0 : UInt8) &&& 0x0F = 0 from rfl] at hhead
    simp only [read_head, write_head, ok_bind, pure_eq_ok, nibble_of_lt_13 h13, List.nil_append,
      UInt8.and_zero, hhead]
    rfl
  · rw [extension_of_lt_269 h13 h269] at hy ⊢
    obtain ⟨c, rfl⟩ := List.length_eq_one_iff.mp hy
    simp [nibble_of_lt_269 h13 h269]
    rfl
  · rw [extension_of_ge_269 h269] at hy ⊢
    simp [nibble_of_ge_269 h269, memcpy_second p a z _ hy.symm]
    exact ⟨rfl, rfl⟩

theorem insertOptionLength_eq (p : CoapPDU) (a e : List UInt8) {y : List UInt8} (z : List UInt8)
    {u : ℕ} (hu : u < 16) {n : UInt16} (hy : y.length = (extension n.toNat).length) :
    (p.withPdu (a ++ byteOf u 0 :: (e ++ (y ++ z)))).insertOptionLength a.length
        (a.length + e.length) n =
      .ok (p.withPdu (a ++ byteOf u (nibble n.toNat) :: (e ++ (extension n.toNat ++ z))),
        a.length + e.length + (extension n.toNat).length, if n < 269 then n else n - 269) := by
  unfold insertOptionLength
  split_ifs with h13 h269 h269
  · rw [extension_of_lt_13 h13] at hy ⊢
    obtain rfl := List.length_eq_zero_iff.mp hy
    have hn : n.toNat < 13 := by simpa [UInt16.lt_iff_toNat_lt] using h13
    have hhead := upper_or_lower (n &&& 0x000F).toUInt8 u n.toNat hu (by omega)
      (toNat_and_0F_toUInt8 (by omega))
    simp only [read_head, write_head, ok_bind, pure_eq_ok, nibble_of_lt_13 h13, List.nil_append,
      hhead]
    rfl
  · rw [UInt16.lt_iff_toNat_lt] at h13 h269
    change n.toNat < 13 at h13
    change ¬ n.toNat < 269 at h269
    omega
  · rw [extension_of_lt_269 h13 h269] at hy ⊢
    obtain ⟨c, rfl⟩ := List.length_eq_one_iff.mp hy
    simp [nibble_of_lt_269 h13 h269, upper_or_lower 0x0D u 13 hu (by omega) rfl]
  · rw [extension_of_ge_269 h269] at hy ⊢
    simp [nibble_of_ge_269 h269, upper_or_lower 0x0E u 14 hu (by omega) rfl,
      memcpy_behind p a e z _ hy.symm]
    rfl

/-- What `insertOption` leaves at the place of a value where the bytes `w` were: from 269 on
it copies 269 bytes less than the value has. -/
def storedValue (v w : List UInt8) : List UInt8 :=
  if v.length < 269 then v else v.take (v.length - 269) ++ w.drop (v.length - 269)

theorem storedValue_of_le {v : List UInt8} (hv : v.length ≤ 268) (w : List UInt8) :
    storedValue v w = v := if_pos (by omega)

theorem length_storedValue {v w : List UInt8} (hw : w.length = v.length) :
    (storedValue v w).length = v.length := by
  unfold storedValue
  split_ifs
  · rfl
  · rw [List.length_append, List.length_take, List.length_drop, hw]
    omega

theorem memcpy_storedValue (p : CoapPDU) (a z : List UInt8) {v w : List UInt8}
    (hv : v.length < 65536) (hw : w.length = v.length) :
    (p.withPdu (a ++ (w ++ z))).memcpy a.length (v.take (if UInt16.ofNat v.length < 269 then
        UInt16.ofNat v.length else UInt16.ofNat v.length - 269).toNat) =
      .ok (p.withPdu (a ++ (storedValue v w ++ z))) := by
  have hlen : (UInt16.ofNat v.length).toNat = v.length := by
    rw [UInt16.toNat_ofNat', Nat.mod_eq_of_lt hv]
  have h269 : UInt16.ofNat v.length < 269 ↔ v.length < 269 := by
    rw [UInt16.lt_iff_toNat_lt, hlen]
    rfl
  unfold storedValue
  by_cases h : v.length < 269
  · rw [if_pos (h269.mpr h), if_pos h, hlen, List.take_length]
    exact memcpy_append p a z hw.symm
  · have hsub : (UInt16.ofNat v.length - 269).toNat = v.length - 269 := by
      rw [UInt16.toNat_sub_of_le, hlen]
      · rfl
      · rw [UInt16.le_iff_toNat_le, hlen]
        exact Nat.not_lt.mp h
    have htake : (v.take (v.length - 269)).length = (w.take (v.length - 269)).length := by
      rw [List.length_take, List.length_take, hw]
    have hcopy := memcpy_append p a (w.drop (v.length - 269) ++ z) htake
    rw [← List.append_assoc (w.take _), List.take_append_drop] at hcopy
    rw [if_neg (h269.not.mpr h), if_neg h, hsub, hcopy, List.append_assoc (v.take _)]

theorem exists_record_parts {x : List UInt8} {δ : ℕ} {v : List UInt8}
    (hx : x.length = (encodeRecord (δ, v)).length) :
    ∃ h y₁ y₂ w, x = h :: (y₁ ++ (y₂ ++ w)) ∧ y₁.length = (extension δ).length ∧
      y₂.length = (extension v.length).length ∧ w.length = v.length := by
  rw [length_encodeRecord] at hx
  cases x with
  | nil => simp only [List.length_nil] at hx; omega
  | cons h x =>
    refine ⟨h, x.take (extension δ).length,
      (x.drop (extension δ).length).take (extension v.length).length,
      (x.drop (extension δ).length).drop (extension v.length).length, ?_⟩
    simp only [List.length_cons] at hx
    simp only [List.take_append_drop, List.length_take, List.length_drop, true_and]
    omega

theorem insertOption_stored (p : CoapPDU) (a : List UInt8) {h : UInt8} {y₁ y₂ w : List UInt8}
    (z : List UInt8) (δ : UInt16) {v : List UInt8} (hv : v.length < 65536)
    (h₁ : y₁.length = (extension δ.toNat).length)
    (h₂ : y₂.length = (extension v.length).length) (hw : w.length = v.length) :
    (p.withPdu (a ++ (h :: (y₁ ++ (y₂ ++ w)) ++ z))).insertOption a.length δ
        (UInt16.ofNat v.length) v =
      .ok (p.withPdu (a ++ (encodeRecord (δ.toNat, storedValue v w) ++ z))) := by
  have hlen : (UInt16.ofNat v.length).toNat = v.length := by
    rw [UInt16.toNat_ofNat', Nat.mod_eq_of_lt hv]
  have hδ := insertOptionDelta_eq p a (y₂ ++ (w ++ z)) h h₁
  have hu : nibble δ.toNat < 16 := by
    have := nibble_le δ.toNat
    omega
  have hl := insertOptionLength_eq p a (extension δ.toNat) (y := y₂) (w ++ z) hu
    (n := UInt16.ofNat v.length) (by rw [hlen]; exact h₂)
  have hcopy := memcpy_storedValue p (a ++ byteOf (nibble δ.toNat) (nibble v.length) ::
    (extension δ.toNat ++ extension v.length)) z hv hw
  simp only [List.cons_append, List.append_assoc, insertOption, hδ, ok_bind, hl]
  simpa [encodeRecord, length_storedValue hw, hlen, Nat.add_assoc] using hcopy

theorem insertOption_eq (p : CoapPDU) (a : List UInt8) {x : List UInt8} (z : List UInt8)
    (δ : UInt16) {v : List UInt8} (hv : v.length ≤ 268)
    (hx : x.length = (encodeRecord (δ.toNat, v)).length) :
    (p.withPdu (a ++ (x ++ z))).insertOption a.length δ (UInt16.ofNat v.length) v =
      .ok (p.withPdu (a ++ (encodeRecord (δ.toNat, v) ++ z))) := by
  obtain ⟨h, y₁, y₂, w, rfl, h₁, h₂, hw⟩ := exists_record_parts hx
  rw [insertOption_stored p a z δ (by omega) h₁ h₂ hw, storedValue_of_le hv]

end CoapPDU

end Mbtk.Coap
