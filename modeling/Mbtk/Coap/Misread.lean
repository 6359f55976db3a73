import Mbtk.Coap.Walk

namespace Mbtk.Coap

open Lib Lib.ExtNat

/-- The number of the nibble `k` before the bytes `t` is 2^16 or more: its extension is `FF` and
any byte, or `FE` and a byte from `F3` on. -/
def Outgrows (k : ℕ) (t : List UInt8) : Prop :=
  k = 14 ∧ (t.getD 0 0 = 0xFF ∨ t.getD 0 0 = 0xFE ∧ 0xF3 ≤ t.getD 1 0)

instance (k : ℕ) (t : List UInt8) : Decidable (Outgrows k t) := by
  unfold Outgrows
  infer_instance

/-- The extension bytes that still count: only `FF` of the first kind of such a number, and none
of the second. -/
def extLeft (k : ℕ) (t : List UInt8) : ℕ :=
  if Outgrows k t then if t.getD 0 0 = 0xFF then 1 else 0 else extLength k

/-- What 16 bits keep of the number. -/
def valueLeft (k : ℕ) (t : List UInt8) : ℕ :=
  if Outgrows k t then extValue k t - 65536 else extValue k t

/-- The bytes that the option with the header `h` before the bytes `t` is then taken to have. -/
def sizeLeft (h : UInt8) (t : List UInt8) : ℕ :=
  1 + extLeft (h.toNat / 16) t +
    extLeft (h.toNat % 16) (t.drop (extLength (h.toNat / 16))) +
    valueLeft (h.toNat % 16) (t.drop (extLength (h.toNat / 16)))

/-- One byte for each of the two extensions that the option header `h` announces, however long
it is. -/
def announced (h : UInt8) : ℕ :=
  (if h.toNat / 16 < 13 then 0 else 1) + if h.toNat % 16 < 13 then 0 else 1

/-- The header `h` with the bytes `v` has the size of an option, before the bytes `rest` of the
datagram and `after` behind it. -/
structure Piece (after : List UInt8) (h : UInt8) (v rest : List UInt8) : Prop where
  distance : h.toNat / 16 ≤ 14
  length : h.toNat % 16 ≤ 14
  announces : announced h ≤ (v ++ rest).length
  size : (h :: v).length = sizeLeft h (v ++ rest ++ after)

/-- The bytes fall into such options and at most one payload. -/
inductive Resumes (after : List UInt8) : List UInt8 → Prop
  | done : Resumes after []
  | payload {pay : List UInt8} : pay ≠ [] → Resumes after (0xFF :: pay)
  | option {h : UInt8} {v rest : List UInt8} :
      Piece after h v rest → Resumes after rest → Resumes after (h :: (v ++ rest))

/-- Behind the option number `k` come proper options up to one whose length or whose number
outgrows 16 bits, and the bytes behind this one still fall into options. -/
inductive Misreads (after : List UInt8) : ℕ → List UInt8 → Prop
  | here {k : ℕ} {h : UInt8} {v rest : List UInt8} :
      Piece after h v rest →
      65535 < k + exactDelta h (v ++ rest ++ after) ∨
        65535 < exactLength h (v ++ rest ++ after) →
      Resumes after rest → Misreads after k (h :: (v ++ rest))
  | later {k dn ln Δ : ℕ} {de le v rest : List UInt8} :
      Reads dn de Δ → Reads ln le v.length → k + Δ ≤ 65535 → v.length ≤ 65535 →
      Misreads after (k + Δ) rest → Misreads after k (byteOf dn ln :: (de ++ le ++ v ++ rest))

section

variable {k : ℕ} {t : List UInt8}

theorem outgrows_iff (hk : k ≤ 14) : Outgrows k t ↔ 65536 ≤ extValue k t := by
  have hFF : t.getD 0 0 = 0xFF ↔ (t.getD 0 0).toNat = 0xFF := UInt8.toNat_inj.symm
  have hFE : t.getD 0 0 = 0xFE ↔ (t.getD 0 0).toNat = 0xFE := UInt8.toNat_inj.symm
  have hF3 : 0xF3 ≤ t.getD 1 0 ↔ 0xF3 ≤ (t.getD 1 0).toNat := UInt8.le_iff_toNat_le
  have h0 := (t.getD 0 0).toNat_lt
  have h1 := (t.getD 1 0).toNat_lt
  rw [Outgrows, hFF, hFE, hF3]
  obtain h13 | rfl | rfl := nibble_cases hk
  · rw [extValue_of_lt h13]
    omega
  · rw [extValue_13]
    omega
  · rw [extValue_14]
    omega

theorem computeExtraBytes_extValue (hk : k ≤ 14) :
    computeExtraBytes (UInt16.ofNat (extValue k t)) = extLeft k t := by
  have hFF : t.getD 0 0 = 0xFF ↔ (t.getD 0 0).toNat = 0xFF := UInt8.toNat_inj.symm
  rw [computeExtraBytes_eq, UInt16.toNat_ofNat', extLeft]
  split_ifs with hbig hff
  · have hle := (outgrows_iff hk).mp hbig
    have h1 := (t.getD 1 0).toNat_lt
    obtain rfl := hbig.1
    rw [hFF] at hff
    rw [extValue_14] at hle ⊢
    rw [length_extension, if_neg (by omega), if_pos (by omega)]
  · have hle := (outgrows_iff hk).mp hbig
    have h0 := (t.getD 0 0).toNat_lt
    have h1 := (t.getD 1 0).toNat_lt
    obtain rfl := hbig.1
    rw [hFF] at hff
    rw [extValue_14] at hle ⊢
    rw [length_extension, if_pos (by omega)]
  · rw [outgrows_iff hk] at hbig
    rw [Nat.mod_eq_of_lt (by omega), length_extension_extValue]

theorem toNat_ofNat_extValue (hk : k ≤ 14) :
    (UInt16.ofNat (extValue k t)).toNat = valueLeft k t := by
  have h0 := (t.getD 0 0).toNat_lt
  have h1 := (t.getD 1 0).toNat_lt
  rw [UInt16.toNat_ofNat', valueLeft]
  split_ifs with hbig
  · have hle := (outgrows_iff hk).mp hbig
    obtain rfl := hbig.1
    rw [extValue_14] at hle ⊢
    omega
  · rw [outgrows_iff hk] at hbig
    exact Nat.mod_eq_of_lt (by omega)

theorem walkSize_eq_sizeLeft {h : UInt8} (hu : h.toNat / 16 ≤ 14) (hl : h.toNat % 16 ≤ 14)
    (t : List UInt8) : walkSize (exactDelta h t) (exactLength h t) = sizeLeft h t := by
  rw [walkSize, exactDelta, exactLength, computeExtraBytes_extValue hu,
    computeExtraBytes_extValue hl, toNat_ofNat_extValue hl, sizeLeft]

theorem computeExtraBytes_of_nibble (hk : k ≤ 14) :
    computeExtraBytes (UInt16.ofNat k) = if k < 13 then 0 else 1 := by
  rw [computeExtraBytes_eq, UInt16.toNat_ofNat', Nat.mod_eq_of_lt (by omega), length_extension]
  split_ifs <;> omega

theorem announced_eq {h : UInt8} (hu : h.toNat / 16 ≤ 14) (hl : h.toNat % 16 ≤ 14) :
    computeExtraBytes (UInt16.ofNat (h.toNat / 16)) +
      computeExtraBytes (UInt16.ofNat (h.toNat % 16)) = announced h := by
  rw [computeExtraBytes_of_nibble hu, computeExtraBytes_of_nibble hl, announced]

end

section

variable {after : List UInt8} {h : UInt8} {t v rest : List UInt8}

theorem Piece.walkSize_eq (hp : Piece after h v rest) :
    walkSize (exactDelta h (v ++ rest ++ after)) (exactLength h (v ++ rest ++ after)) =
      (h :: v).length := by
  rw [walkSize_eq_sizeLeft hp.distance hp.length, hp.size]

theorem Piece.drop_walkSize (hp : Piece after h v rest) :
    (h :: (v ++ rest)).drop (walkSize (exactDelta h (v ++ rest ++ after))
      (exactLength h (v ++ rest ++ after))) = rest := by
  rw [hp.walkSize_eq]
  exact @List.drop_left _ (h :: v) rest

theorem exists_piece (hu : h.toNat / 16 ≤ 14) (hl : h.toNat % 16 ≤ 14)
    (hneed : announced h ≤ t.length)
    (hsize : walkSize (exactDelta h (t ++ after)) (exactLength h (t ++ after)) ≤ (h :: t).length) :
    ∃ v, t = v ++ (h :: t).drop (walkSize (exactDelta h (t ++ after))
        (exactLength h (t ++ after))) ∧
      Piece after h v ((h :: t).drop (walkSize (exactDelta h (t ++ after))
        (exactLength h (t ++ after)))) := by
  obtain ⟨n, hn⟩ : ∃ n, walkSize (exactDelta h (t ++ after)) (exactLength h (t ++ after)) = n + 1 :=
    Nat.exists_eq_add_one.mpr (CoapPDU.walkSize_pos _ _)
  have hsplit : t.take n ++ t.drop n = t := List.take_append_drop n t
  rw [hn, List.drop_succ_cons]
  rw [hn, List.length_cons] at hsize
  refine ⟨t.take n, hsplit.symm, hu, hl, by rwa [hsplit], ?_⟩
  rw [hsplit, ← walkSize_eq_sizeLeft hu hl, hn, List.length_cons, List.length_take]
  omega

theorem Piece.walk {pay : List UInt8} {steps : List (ℕ × ℕ)} (hp : Piece after h v rest)
    (hw : Walk after rest steps pay) :
    Walk after (h :: (v ++ rest))
      ((exactDelta h (v ++ rest ++ after), exactLength h (v ++ rest ++ after)) :: steps) pay := by
  refine .option hp.distance hp.length ?_ ?_ ?_
  · rw [announced_eq hp.distance hp.length]
    exact hp.announces
  · rw [hp.walkSize_eq, List.length_cons, List.length_cons, List.length_append]
    omega
  · rwa [hp.drop_walkSize]

theorem resumes_iff {bs : List UInt8} :
    Resumes after bs ↔ ∃ steps pay, Walk after bs steps pay := by
  constructor
  · intro hr
    induction hr with
    | done => exact ⟨[], [], .done⟩
    | @payload pay hpay => exact ⟨[], pay, .payload hpay⟩
    | option hp _ ih =>
      obtain ⟨steps, pay, hw⟩ := ih
      exact ⟨_, pay, hp.walk hw⟩
  · rintro ⟨steps, pay, hw⟩
    induction hw with
    | done => exact .done
    | payload hpay => exact .payload hpay
    | @option h t pay steps hu hl hneed hsize _ ih =>
      rw [announced_eq hu hl] at hneed
      obtain ⟨v, hv, hp⟩ := exists_piece hu hl hneed hsize
      rw [hv]
      exact .option hp ih

theorem fits_cons {k Δ L : ℕ} {steps : List (ℕ × ℕ)} :
    Fits k ((Δ, L) :: steps) ↔ L ≤ 65535 ∧ Fits (k + Δ) steps := by
  simp only [Fits, List.map_cons, List.sum_cons, List.forall_mem_cons, Nat.add_assoc]
  tauto

theorem Fits.le {k : ℕ} {steps : List (ℕ × ℕ)} (h : Fits k steps) : k ≤ 65535 :=
  (Nat.le_add_right _ _).trans h.1

theorem misreads_iff {k : ℕ} {bs : List UInt8} (hk : k ≤ 65535) :
    Misreads after k bs ↔ ∃ steps pay, Walk after bs steps pay ∧ ¬ Fits k steps := by
  constructor
  · intro hm
    clear hk
    induction hm with
    | @here k h v rest hp hbig hr =>
      obtain ⟨steps, pay, hw⟩ := resumes_iff.mp hr
      refine ⟨_, pay, hp.walk hw, fun hfits => ?_⟩
      obtain ⟨hL, hrest⟩ := fits_cons.mp hfits
      have := hrest.le
      omega
    | later hd hl hnum hv _ ih =>
      obtain ⟨steps, pay, hw, hno⟩ := ih
      refine ⟨_, pay, .proper hd hl (by omega) (by omega) hw, fun hfits => ?_⟩
      exact hno (fits_cons.mp hfits).2
  · rintro ⟨steps, pay, hw, hno⟩
    induction hw generalizing k with
    | done => exact absurd ⟨by simpa using hk, by simp⟩ hno
    | payload hpay => exact absurd ⟨by simpa using hk, by simp⟩ hno
    | @option h t pay steps hu hl hneed hsize hw ih =>
      rw [announced_eq hu hl] at hneed
      by_cases hbig : 65535 < k + exactDelta h (t ++ after) ∨ 65535 < exactLength h (t ++ after)
      · obtain ⟨v, hv, hp⟩ := exists_piece hu hl hneed hsize
        have hrest := resumes_iff.mpr ⟨steps, pay, hw⟩
        generalize (h :: t).drop _ = rest at hv hp hrest
        subst hv
        exact .here hp hbig hrest
      · obtain ⟨dn, ln, de, le, v, hd, hle, hvlen, hbytes⟩ :=
          exists_proper hu hl (by omega) (by omega) hsize
        have hmore := ih (show k + exactDelta h (t ++ after) ≤ 65535 by omega)
          fun hfits => hno (fits_cons.mpr ⟨by omega, hfits⟩)
        rw [← hbytes]
        exact .later hd hle (by omega) (by omega) hmore

end

end Mbtk.Coap
