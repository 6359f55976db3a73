import Mbtk.Coap.OptionLaws
import Mbtk.Coap.Parse

namespace Mbtk.Coap

open Lib Lib.ExtNat

/-- The distance that the option header `h` before the bytes `t` stands for. -/
def exactDelta (h : UInt8) (t : List UInt8) : ℕ := extValue (h.toNat / 16) t

/-- The value length that the option header `h` before the bytes `t` stands for. -/
def exactLength (h : UInt8) (t : List UInt8) : ℕ :=
  extValue (h.toNat % 16) (t.drop (extLength (h.toNat / 16)))

/-- What `validate` takes an option to occupy: it sees distance and length modulo 65536. -/
def walkSize (Δ L : ℕ) : ℕ :=
  1 + computeExtraBytes (UInt16.ofNat Δ) + computeExtraBytes (UInt16.ofNat L) +
    (UInt16.ofNat L).toNat

/-- The walk of `validate` over the option region `bs`, with `after` behind it in memory: the
exact distance and length of each option it meets and the payload it ends at. -/
inductive Walk (after : List UInt8) : List UInt8 → List (ℕ × ℕ) → List UInt8 → Prop
  | done : Walk after [] [] []
  | payload {pay : List UInt8} : pay ≠ [] → Walk after (0xFF :: pay) [] pay
  | option {h : UInt8} {t pay : List UInt8} {steps : List (ℕ × ℕ)} :
      h.toNat / 16 ≤ 14 → h.toNat % 16 ≤ 14 →
      computeExtraBytes (UInt16.ofNat (h.toNat / 16)) +
        computeExtraBytes (UInt16.ofNat (h.toNat % 16)) ≤ t.length →
      walkSize (exactDelta h (t ++ after)) (exactLength h (t ++ after)) ≤ (h :: t).length →
      Walk after ((h :: t).drop
        (walkSize (exactDelta h (t ++ after)) (exactLength h (t ++ after)))) steps pay →
      Walk after (h :: t)
        ((exactDelta h (t ++ after), exactLength h (t ++ after)) :: steps) pay

/-- The steps of a walk say what they stand for: no length and no option number outgrows
the 16 bits it is kept in. -/
def Fits (k : ℕ) (steps : List (ℕ × ℕ)) : Prop :=
  k + (steps.map Prod.fst).sum ≤ 65535 ∧ ∀ s ∈ steps, s.2 ≤ 65535

theorem upperNibble_eq (h : UInt8) :
    ((h &&& 0xF0) >>> 4).toUInt16 = UInt16.ofNat (h.toNat / 16) := by
  have := h.toNat_lt
  apply UInt16.toNat_inj.mp
  rw [UInt8.toNat_toUInt16, toNat_upper, UInt16.toNat_ofNat']
  omega

theorem lowerNibble_eq (h : UInt8) : (h &&& 0x0F).toUInt16 = UInt16.ofNat (h.toNat % 16) := by
  apply UInt16.toNat_inj.mp
  rw [UInt8.toNat_toUInt16, toNat_lower, UInt16.toNat_ofNat']
  omega

/-- The test for the nibble 15. -/
theorem upper_eq_15_iff (h : UInt8) : (h &&& 0xF0) >>> 4 = 0x0F ↔ ¬ h.toNat / 16 ≤ 14 := by
  have := h.toNat_lt
  rw [← UInt8.toNat_inj, toNat_upper]
  change h.toNat / 16 = 15 ↔ _
  omega

theorem lower_eq_15_iff (h : UInt8) : h &&& 0x0F = 0x0F ↔ ¬ h.toNat % 16 ≤ 14 := by
  rw [← UInt8.toNat_inj, toNat_lower]
  change h.toNat % 16 = 15 ↔ _
  omega

theorem byteOf_div_mod (h : UInt8) : byteOf (h.toNat / 16) (h.toNat % 16) = h := by
  rw [byteOf, Nat.div_add_mod, UInt8.ofNat_toNat]

theorem nibble_cases {k : ℕ} (hk : k ≤ 14) : k < 13 ∨ k = 13 ∨ k = 14 := by omega

theorem getOptionDelta_cons {h : UInt8} (hu : h.toNat / 16 ≤ 14) (t : List UInt8) :
    getOptionDelta (h :: t) = UInt16.ofNat (exactDelta h t) := by
  simp only [getOptionDelta, List.getD_cons_zero, List.getD_cons_succ, upperNibble_eq, exactDelta]
  obtain h13 | h13 | h14 := nibble_cases hu
  · rw [if_pos ((ofNat_lt_13 (by omega)).mpr h13), extValue_of_lt h13]
  · rw [h13, extValue_13, ← byte_add_13]
    rfl
  · rw [h14, extValue_14, ← word_add_269]
    rfl

theorem getOptionValueLength_cons {h : UInt8} (hu : h.toNat / 16 ≤ 14) (hl : h.toNat % 16 ≤ 14)
    (t : List UInt8) : getOptionValueLength (h :: t) = UInt16.ofNat (exactLength h t) := by
  have hoff : (if UInt16.ofNat (h.toNat / 16) = 13 then 2
      else if UInt16.ofNat (h.toNat / 16) = 14 then 3 else 1) = extLength (h.toNat / 16) + 1 := by
    obtain h13 | h13 | h14 := nibble_cases hu
    · rw [if_neg (ofNat_ne_13 h13), if_neg (ofNat_ne_14 h13), extLength, if_pos h13]
    · rw [h13]
      rfl
    · rw [h14]
      rfl
  have hdrop (i : ℕ) : (h :: t).getD (extLength (h.toNat / 16) + 1 + i) 0 =
      (t.drop (extLength (h.toNat / 16))).getD i 0 := by
    rw [show extLength (h.toNat / 16) + 1 + i = (extLength (h.toNat / 16) + i) + 1 by omega,
      List.getD_cons_succ, List.getD_eq_getElem?_getD, List.getD_eq_getElem?_getD,
      List.getElem?_drop]
  simp only [getOptionValueLength, List.getD_cons_zero, upperNibble_eq, lowerNibble_eq, hoff,
    exactLength]
  rw [hdrop 1, ← Nat.add_zero (extLength (h.toNat / 16) + 1), hdrop 0]
  obtain h13 | h13 | h14 := nibble_cases hl
  · rw [if_pos ((ofNat_lt_13 (by omega)).mpr h13), extValue_of_lt h13]
  · rw [h13, extValue_13, ← byte_add_13]
    rfl
  · rw [h14, extValue_14, ← word_add_269]
    rfl

namespace CoapPDU

def walked (p : CoapPDU) (numOptions : ℕ) (pay : List UInt8) : CoapPDU :=
  { p with
    payloadPointer := if pay = [] then none else some (p.addr + (p.pduLength - pay.length))
    payloadLength := pay.length
    numOptions }

section Loop

variable {p : CoapPDU} {pre bs after : List UInt8}

theorem read_length {h : UInt8} {t : List UInt8} (hp : p.pdu = pre ++ (h :: t)) :
    p.read pre.length = h := by
  rw [eq_withPdu hp]
  exact read_head p pre t h

theorem validateLoop_nil (fuel k : ℕ) (N : UInt16) :
    p.validateLoop (fuel + 1) pre.length ((0 : ℕ) : ℤ) k N = (p.walked k [], true) := by
  rw [validateLoop, if_neg (by omega)]
  rfl

theorem validateLoop_marker {pay : List UInt8} (hp : p.pdu = pre ++ (0xFF :: pay ++ after))
    (hlen : p.pduLength = pre.length + (pay.length + 1)) (hpay : pay ≠ []) (fuel k : ℕ)
    (N : UInt16) :
    p.validateLoop (fuel + 1) pre.length ((pay.length + 1 : ℕ) : ℤ) k N =
      (p.walked k pay, true) := by
  have hpos := List.length_pos_iff.mpr hpay
  rw [validateLoop, if_pos (by omega), read_length hp]
  dsimp only
  have haddr : pre.length + (pay.length + 1) - pay.length = pre.length + 1 := by omega
  have hcount : (((pay.length + 1 : ℕ) : ℤ) - 1).toNat = pay.length := by omega
  rw [if_pos rfl, if_pos (by omega), walked, if_neg hpay, hlen, haddr, hcount]

theorem validateLoop_cons {h : UInt8} {t : List UInt8} (hp : p.pdu = pre ++ (h :: t ++ after))
    (hlen : p.pduLength = pre.length + (t.length + 1)) (hh : h ≠ 0xFF) (fuel k : ℕ) (N : UInt16) :
    p.validateLoop (fuel + 1) pre.length ((t.length + 1 : ℕ) : ℤ) k N =
      if h.toNat / 16 ≤ 14 ∧ h.toNat % 16 ≤ 14 ∧
          computeExtraBytes (UInt16.ofNat (h.toNat / 16)) +
            computeExtraBytes (UInt16.ofNat (h.toNat % 16)) ≤ t.length ∧
          walkSize (exactDelta h (t ++ after)) (exactLength h (t ++ after)) ≤ t.length + 1 then
        p.validateLoop fuel
          (pre.length + walkSize (exactDelta h (t ++ after)) (exactLength h (t ++ after)))
          ((t.length + 1 -
            walkSize (exactDelta h (t ++ after)) (exactLength h (t ++ after)) : ℕ) : ℤ)
          (k + 1) (N + UInt16.ofNat (exactDelta h (t ++ after)))
      else (p, false) := by
  have hread : p.read pre.length = h := read_length hp
  have hdrop : p.pdu.drop pre.length = h :: (t ++ after) := by
    rw [hp, List.drop_left, List.cons_append]
  have hupper := upper_eq_15_iff h
  have hlower := lower_eq_15_iff h
  rw [validateLoop, if_pos (by omega), hread, hdrop]
  dsimp only
  rw [if_neg hh, upperNibble_eq, lowerNibble_eq]
  by_cases hnib : h.toNat / 16 ≤ 14 ∧ h.toNat % 16 ≤ 14
  · obtain ⟨hu, hl⟩ := hnib
    rw [if_neg (by tauto), getOptionDelta_cons hu, getOptionValueLength_cons hu hl, ← walkSize]
    generalize walkSize (exactDelta h (t ++ after)) (exactLength h (t ++ after)) = W
    by_cases hneed : computeExtraBytes (UInt16.ofNat (h.toNat / 16)) +
        computeExtraBytes (UInt16.ofNat (h.toNat % 16)) ≤ t.length
    · rw [if_neg (by omega), if_neg (by omega)]
      by_cases hW : W ≤ t.length + 1
      · have hrest : ((t.length + 1 : ℕ) : ℤ) - 1 - W + 1 = ((t.length + 1 - W : ℕ) : ℤ) := by omega
        rw [if_neg (by omega), if_pos ⟨hu, hl, hneed, hW⟩, hrest]
      · rw [if_pos (by omega), if_neg (fun hc => hW hc.2.2.2)]
    · have hno : ¬ (h.toNat / 16 ≤ 14 ∧ h.toNat % 16 ≤ 14 ∧
          computeExtraBytes (UInt16.ofNat (h.toNat / 16)) +
            computeExtraBytes (UInt16.ofNat (h.toNat % 16)) ≤ t.length ∧ W ≤ t.length + 1) :=
        fun hc => hneed hc.2.2.1
      by_cases hneed' : computeExtraBytes (UInt16.ofNat (h.toNat / 16)) ≤ t.length
      · rw [if_neg (by omega), if_pos (by omega), if_neg hno]
      · rw [if_pos (by omega), if_neg hno]
  · rw [if_pos (by tauto), if_neg (fun hc => hnib ⟨hc.1, hc.2.1⟩)]

theorem walkSize_pos (Δ L : ℕ) : 0 < walkSize Δ L := by
  unfold walkSize
  omega

theorem split_after_turn {m : ℕ} (hp : p.pdu = pre ++ (bs ++ after)) (hm : m ≤ bs.length)
    (hlen : p.pduLength = pre.length + bs.length) :
    p.pdu = (pre ++ bs.take m) ++ (bs.drop m ++ after) ∧
      p.pduLength = (pre ++ bs.take m).length + (bs.drop m).length ∧
      (pre ++ bs.take m).length = pre.length + m ∧ (bs.drop m).length = bs.length - m := by
  have htake : (bs.take m).length = m := by
    rw [List.length_take]
    omega
  refine ⟨?_, ?_, ?_, List.length_drop⟩
  · rw [hp, List.append_assoc, ← List.append_assoc (bs.take m), List.take_append_drop]
  · rw [List.length_append, htake, List.length_drop]
    omega
  · rw [List.length_append, htake]

theorem validateLoop_of_walk {steps : List (ℕ × ℕ)} {pay : List UInt8}
    (hw : Walk after bs steps pay) {fuel : ℕ} (hp : p.pdu = pre ++ (bs ++ after))
    (hlen : p.pduLength = pre.length + bs.length) (hfuel : bs.length < fuel) (k : ℕ) (N : UInt16) :
    p.validateLoop fuel pre.length (bs.length : ℤ) k N =
      (p.walked (k + steps.length) pay, true) := by
  induction hw generalizing pre fuel k N with
  | done =>
    obtain ⟨fuel, rfl⟩ := Nat.exists_eq_add_one.mpr hfuel
    exact validateLoop_nil fuel k N
  | payload hpay =>
    obtain ⟨fuel, rfl⟩ := Nat.exists_eq_add_one.mpr (by omega : 0 < fuel)
    exact validateLoop_marker hp hlen hpay fuel k N
  | @option h t pay steps hu hl hneed hsize _ ih =>
    obtain ⟨fuel, rfl⟩ := Nat.exists_eq_add_one.mpr (by omega : 0 < fuel)
    have hh : h ≠ 0xFF := by
      rintro rfl
      exact absurd hu (by decide)
    obtain ⟨hp', hlen', hpre, hbs⟩ := split_after_turn hp hsize hlen
    have hpos := walkSize_pos (exactDelta h (t ++ after)) (exactLength h (t ++ after))
    simp only [List.length_cons] at hfuel hbs hlen
    have hrest :=
      @ih _ fuel hp' hlen' (by omega) (k + 1) (N + UInt16.ofNat (exactDelta h (t ++ after)))
    rw [hpre, hbs] at hrest
    rw [List.length_cons, validateLoop_cons hp hlen hh, if_pos ⟨hu, hl, hneed, hsize⟩, hrest,
      List.length_cons, Nat.add_assoc, Nat.add_comm 1]

theorem validateLoop_marker_alone (hp : p.pdu = pre ++ (0xFF :: after)) (fuel k : ℕ) (N : UInt16) :
    (p.validateLoop (fuel + 1) pre.length ((1 : ℕ) : ℤ) k N).2 = false := by
  rw [validateLoop, if_pos (by omega), read_length hp]
  dsimp only
  rw [if_pos rfl, if_neg (by omega)]

theorem exists_walk_of_validateLoop {fuel k : ℕ} {N : UInt16} (hp : p.pdu = pre ++ (bs ++ after))
    (hlen : p.pduLength = pre.length + bs.length)
    (hacc : (p.validateLoop fuel pre.length (bs.length : ℤ) k N).2 = true) :
    ∃ steps pay, Walk after bs steps pay := by
  induction fuel generalizing pre bs k N with
  | zero => simp [validateLoop] at hacc
  | succ fuel ih =>
    cases bs with
    | nil => exact ⟨[], [], .done⟩
    | cons h t =>
      by_cases hh : h = 0xFF
      · subst hh
        by_cases ht : t = []
        · subst ht
          have := validateLoop_marker_alone hp fuel k N
          rw [List.length_singleton] at hacc
          rw [hacc] at this
          exact absurd this (by decide)
        · exact ⟨[], t, .payload ht⟩
      · rw [List.length_cons, validateLoop_cons hp hlen hh] at hacc
        split_ifs at hacc with hc
        obtain ⟨hu, hl, hneed, hsize⟩ := hc
        obtain ⟨hp', hlen', hpre, hbs⟩ := split_after_turn hp hsize hlen
        rw [← hpre, ← List.length_cons, ← hbs] at hacc
        obtain ⟨steps, pay, hw⟩ := ih hp' hlen' hacc
        exact ⟨_, pay, .option hu hl hneed hsize hw⟩

end Loop

end CoapPDU

theorem Walk.unique {after bs pay pay' : List UInt8} {steps steps' : List (ℕ × ℕ)}
    (hw : Walk after bs steps pay) (hw' : Walk after bs steps' pay') :
    steps = steps' ∧ pay = pay' := by
  induction hw generalizing steps' pay' with
  | done =>
    cases hw'
    exact ⟨rfl, rfl⟩
  | payload hpay =>
    cases hw' with
    | payload => exact ⟨rfl, rfl⟩
    | option hu => exact absurd hu (by decide)
  | option hu hl hneed hsize _ ih =>
    cases hw' with
    | payload => exact absurd hu (by decide)
    | option _ _ _ _ hrest =>
      obtain ⟨rfl, rfl⟩ := ih hrest
      exact ⟨rfl, rfl⟩

def optionSteps (k : ℕ) (opts : List Opt) : List (ℕ × ℕ) :=
  (optionRecords k opts).map fun r => (r.1, r.2.length)

@[simp] theorem length_optionSteps (k : ℕ) (opts : List Opt) :
    (optionSteps k opts).length = opts.length := by
  simp [optionSteps, optionRecords]

theorem optionSteps_cons (k : ℕ) (o : Opt) (opts : List Opt) :
    optionSteps k (o :: opts) = (o.key - k, o.value.length) :: optionSteps o.key opts := rfl

theorem fits_optionSteps {k : ℕ} {opts : List Opt} (hk : k ≤ 65535) (hs : SortedFrom Opt.key k opts)
    (hv : ∀ o ∈ opts, o.value.length < 65536) : Fits k (optionSteps k opts) := by
  constructor
  · have hsum := hs.sum_deltas Opt.key Opt.value
    have hlast := lastKey_le Opt.key hk fun o (_ : o ∈ opts) => Nat.le_of_lt_succ o.number.toNat_lt
    have hfst : (optionSteps k opts).map Prod.fst =
        (deltas Opt.key Opt.value k opts).map Prod.fst := by
      rw [optionSteps, List.map_map]
      rfl
    rw [hfst, hsum]
    exact hlast
  · induction opts generalizing k with
    | nil => simp [optionSteps, optionRecords]
    | cons o opts ih =>
      intro s hmem
      rw [optionSteps_cons] at hmem
      obtain rfl | hmem := List.mem_cons.mp hmem
      · exact Nat.le_of_lt_succ (hv o (by simp))
      · exact ih (Nat.le_of_lt_succ o.number.toNat_lt) hs.2 (fun o ho => hv o (by simp [ho])) s hmem

theorem walkSize_eq {Δ L : ℕ} (hΔ : Δ < 65536) (hL : L < 65536) :
    walkSize Δ L = 1 + (extension Δ).length + (extension L).length + L := by
  rw [walkSize, computeExtraBytes_eq, computeExtraBytes_eq, UInt16.toNat_ofNat',
    UInt16.toNat_ofNat', Nat.mod_eq_of_lt hΔ, Nat.mod_eq_of_lt hL]

theorem computeExtraBytes_nibble_le {k : ℕ} (hk : k ≤ 14) :
    computeExtraBytes (UInt16.ofNat k) ≤ extLength k := by
  rw [computeExtraBytes_eq, UInt16.toNat_ofNat', Nat.mod_eq_of_lt (by omega), length_extension]
  unfold extLength
  split_ifs <;> omega

theorem Reads.nibble_le_14 {k n : ℕ} {bs : List UInt8} (h : Reads k bs n) : k ≤ 14 := by
  rw [h.eq_nibble]
  exact nibble_le n

section Proper

variable {after rest de le v : List UInt8} {dn ln Δ : ℕ}

theorem nibbles_byteOf (hd : Reads dn de Δ) (hl : Reads ln le v.length) :
    (byteOf dn ln).toNat / 16 = dn ∧ (byteOf dn ln).toNat % 16 = ln := by
  have hdn := Reads.nibble_le_14 hd
  have hln := Reads.nibble_le_14 hl
  have hnat : (byteOf dn ln).toNat = 16 * dn + ln := toNat_byteOf (by omega) (by omega)
  omega

theorem exact_proper (hd : Reads dn de Δ) (hl : Reads ln le v.length) :
    exactDelta (byteOf dn ln) (de ++ le ++ v ++ rest ++ after) = Δ ∧
      exactLength (byteOf dn ln) (de ++ le ++ v ++ rest ++ after) = v.length := by
  obtain ⟨hu, hlow⟩ := nibbles_byteOf hd hl
  constructor
  · rw [exactDelta, hu]
    simpa using hd.extValue_eq (le ++ v ++ rest ++ after)
  · rw [exactLength, hu, hlow, ← hd.length_eq]
    simpa using hl.extValue_eq (v ++ rest ++ after)

theorem walkSize_proper (hd : Reads dn de Δ) (hl : Reads ln le v.length) (hΔ : Δ < 65536)
    (hvlen : v.length < 65536) :
    walkSize Δ v.length = (byteOf dn ln :: (de ++ le ++ v)).length := by
  rw [walkSize_eq hΔ hvlen, ← hd.eq_extension, ← hl.eq_extension]
  simp only [List.length_cons, List.length_append]
  omega

theorem Walk.proper {pay : List UInt8} {steps : List (ℕ × ℕ)}
    (hd : Reads dn de Δ) (hl : Reads ln le v.length) (hΔ : Δ < 65536) (hvlen : v.length < 65536)
    (hrest : Walk after rest steps pay) :
    Walk after (byteOf dn ln :: (de ++ le ++ v ++ rest)) ((Δ, v.length) :: steps) pay := by
  have hdn := Reads.nibble_le_14 hd
  have hln := Reads.nibble_le_14 hl
  obtain ⟨hu, hlow⟩ := nibbles_byteOf hd hl
  obtain ⟨hdelta, hlength⟩ := @exact_proper after rest _ _ _ _ _ _ hd hl
  have hsize := walkSize_proper hd hl hΔ hvlen
  have hdrop : (byteOf dn ln :: (de ++ le ++ v ++ rest)).drop (walkSize Δ v.length) = rest := by
    rw [hsize]
    exact @List.drop_left _ (byteOf dn ln :: (de ++ le ++ v)) rest
  have hneed := computeExtraBytes_nibble_le hdn
  have hneed' := computeExtraBytes_nibble_le hln
  rw [← hd.length_eq] at hneed
  rw [← hl.length_eq] at hneed'
  rw [← hdelta, ← hlength]
  refine .option (by rwa [hu]) (by rwa [hlow]) ?_ ?_ ?_
  · rw [hu, hlow]
    simp only [List.length_append]
    omega
  · rw [hdelta, hlength, hsize]
    simp only [List.length_cons, List.length_append]
    omega
  · rwa [hdelta, hlength, hdrop]

end Proper

theorem ParsesOptions.walk {k : ℕ} {bs pay : List UInt8} {opts : List Opt}
    (h : ParsesOptions k bs opts pay) (hv : ∀ o ∈ opts, o.value.length < 65536)
    (after : List UInt8) : Walk after bs (optionSteps k opts) pay := by
  induction h with
  | done k => exact .done
  | payload k hpay => exact .payload hpay
  | @option k dn ln Δ number de le v rest pay opts hd hl hnum _ ih =>
    have hΔ : Δ < 65536 := by
      have := number.toNat_lt
      omega
    have hsteps : optionSteps k (⟨number, v⟩ :: opts) = (Δ, v.length) ::
        optionSteps number.toNat opts := by
      rw [optionSteps_cons, Opt.key, hnum, Nat.add_sub_cancel_left]
    rw [hsteps]
    exact .proper hd hl hΔ (hv ⟨number, v⟩ (by simp)) (ih fun o ho => hv o (by simp [ho]))

theorem take_append_take_append_take {α : Type} (t : List α) (i j k : ℕ) :
    t.take i ++ (t.drop i).take j ++ ((t.drop i).drop j).take k ++ t.drop (i + j + k) = t := by
  rw [← List.drop_drop, ← List.drop_drop, List.append_assoc, List.take_append_drop,
    List.append_assoc, List.take_append_drop, List.take_append_drop]

theorem exists_proper {h : UInt8} {t after : List UInt8} (hu : h.toNat / 16 ≤ 14)
    (hl : h.toNat % 16 ≤ 14) (hΔ : exactDelta h (t ++ after) ≤ 65535)
    (hL : exactLength h (t ++ after) ≤ 65535)
    (hsize : walkSize (exactDelta h (t ++ after)) (exactLength h (t ++ after)) ≤ (h :: t).length) :
    ∃ dn ln de le v, Reads dn de (exactDelta h (t ++ after)) ∧ Reads ln le v.length ∧
      v.length = exactLength h (t ++ after) ∧
      byteOf dn ln :: (de ++ le ++ v ++
        (h :: t).drop (walkSize (exactDelta h (t ++ after)) (exactLength h (t ++ after)))) =
      h :: t := by
  obtain ⟨u, hueq⟩ : ∃ u, u = h.toNat / 16 := ⟨_, rfl⟩
  obtain ⟨l, hleq⟩ : ∃ l, l = h.toNat % 16 := ⟨_, rfl⟩
  have hΔdef : exactDelta h (t ++ after) = extValue u (t ++ after) := by rw [exactDelta, hueq]
  have hLdef : exactLength h (t ++ after) = extValue l ((t ++ after).drop (extLength u)) := by
    rw [exactLength, hueq, hleq]
  have hwalk := walkSize_eq (show exactDelta h (t ++ after) < 65536 by omega)
    (show exactLength h (t ++ after) < 65536 by omega)
  have heu : (extension (exactDelta h (t ++ after))).length = extLength u := by
    rw [hΔdef, length_extension_extValue]
  have hel : (extension (exactLength h (t ++ after))).length = extLength l := by
    rw [hLdef, length_extension_extValue]
  rw [heu, hel] at hwalk
  rw [hwalk, List.length_cons] at hsize
  have hd := reads_take (k := u) (by omega)
    (show extLength u ≤ (t ++ after).length by rw [List.length_append]; omega)
  rw [List.take_append_of_le_length (by omega), ← hΔdef] at hd
  have hle := reads_take (k := l) (by omega)
    (show extLength l ≤ ((t ++ after).drop (extLength u)).length by
      rw [List.length_drop, List.length_append]; omega)
  rw [← hLdef, List.drop_append_of_le_length (by omega),
    List.take_append_of_le_length (by rw [List.length_drop]; omega)] at hle
  obtain ⟨v, hv⟩ : ∃ v, v = ((t.drop (extLength u)).drop (extLength l)).take
      (exactLength h (t ++ after)) := ⟨_, rfl⟩
  have hvlen : v.length = exactLength h (t ++ after) := by
    rw [hv, List.length_take, List.length_drop, List.length_drop]
    omega
  rw [← hvlen] at hle
  have hdrop : (h :: t).drop (1 + extLength u + extLength l + exactLength h (t ++ after)) =
      t.drop (extLength u + extLength l + exactLength h (t ++ after)) := by
    rw [show 1 + extLength u + extLength l + exactLength h (t ++ after) =
      (extLength u + extLength l + exactLength h (t ++ after)) + 1 by omega,
      List.drop_succ_cons]
  refine ⟨u, l, t.take (extLength u), (t.drop (extLength u)).take (extLength l), v, hd, hle,
    hvlen, ?_⟩
  rw [hwalk, hdrop, hv, take_append_take_append_take, hueq, hleq, byteOf_div_mod]

theorem Walk.parses {after bs pay : List UInt8} {steps : List (ℕ × ℕ)} {k : ℕ}
    (hw : Walk after bs steps pay) (hfits : Fits k steps) :
    ∃ opts, ParsesOptions k bs opts pay ∧ opts.length = steps.length := by
  induction hw generalizing k with
  | done => exact ⟨[], .done k, rfl⟩
  | payload hpay => exact ⟨[], .payload k hpay, rfl⟩
  | @option h t pay steps hu hl hneed hsize _ ih =>
    obtain ⟨hsum, hlens⟩ := hfits
    rw [List.map_cons, List.sum_cons] at hsum
    dsimp only at hsum
    obtain ⟨dn, ln, de, le, v, hd, hle, -, hbytes⟩ := exists_proper hu hl (by omega)
      (hlens (exactDelta h (t ++ after), exactLength h (t ++ after)) (by simp)) hsize
    have hnum : (UInt16.ofNat (k + exactDelta h (t ++ after))).toNat =
        k + exactDelta h (t ++ after) := by
      rw [UInt16.toNat_ofNat', Nat.mod_eq_of_lt (by omega)]
    obtain ⟨opts, hopts, hlen⟩ := ih (k := (UInt16.ofNat (k + exactDelta h (t ++ after))).toNat)
      ⟨by rw [hnum]; omega, fun s hs => hlens s (by simp [hs])⟩
    have hparse := ParsesOptions.option hd hle hnum hopts
    rw [hbytes] at hparse
    exact ⟨_, hparse, by rw [List.length_cons, List.length_cons, hlen]⟩

end Mbtk.Coap
