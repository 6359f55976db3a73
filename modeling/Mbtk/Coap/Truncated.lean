import Mbtk.Coap.RecvLaws

namespace Mbtk.Coap

open Lib Lib.ExtNat

section Turn

variable {Δ : ℕ} {v : List UInt8}

theorem computeExtraBytes_nibble {n : ℕ} (h : n < 269) :
    computeExtraBytes (UInt16.ofNat (nibble n)) = (extension n).length := by
  have hn := nibble_le n
  rw [computeExtraBytes_eq, UInt16.toNat_ofNat', Nat.mod_eq_of_lt (by omega), length_extension,
    length_extension]
  unfold nibble
  split_ifs <;> omega

theorem header_div (Δ L : ℕ) : (byteOf (nibble Δ) (nibble L)).toNat / 16 = nibble Δ ∧
    (byteOf (nibble Δ) (nibble L)).toNat % 16 = nibble L := by
  have := nibble_le Δ
  have := nibble_le L
  rw [toNat_byteOf (by omega) (by omega)]
  omega

theorem exact_header (hΔ : Δ < 269) (hv : v.length < 269) (t : List UInt8) :
    exactDelta (byteOf (nibble Δ) (nibble v.length)) (extension Δ ++ extension v.length ++ t) = Δ ∧
      exactLength (byteOf (nibble Δ) (nibble v.length)) (extension Δ ++ extension v.length ++ t) =
        v.length := by
  have hd := reads_extension (n := Δ) (by omega)
  have hl := reads_extension (n := v.length) (by omega)
  obtain ⟨hdiv, hmod⟩ := header_div Δ v.length
  rw [exactDelta, exactLength, hdiv, hmod, ← hd.length_eq, List.append_assoc]
  refine ⟨hd.extValue_eq _, ?_⟩
  rw [List.drop_left]
  exact hl.extValue_eq t

theorem walkSize_record (hΔ : Δ < 269) (hv : v.length < 269) :
    walkSize Δ v.length = (encodeRecord (Δ, v)).length := by
  rw [walkSize, length_encodeRecord_eq (by omega) (by omega), UInt16.toNat_ofNat',
    Nat.mod_eq_of_lt (by omega)]
  omega

end Turn

/-- Options close enough and short enough for one extension byte each. -/
def Near (k : ℕ) (opts : List Opt) : Prop :=
  ∀ r ∈ optionRecords k opts, r.1 < 269 ∧ r.2.length < 269

theorem Walk.of_front {after bs pay : List UInt8} {steps : List (ℕ × ℕ)}
    (hw : Walk after bs steps pay) {k : ℕ} {opts : List Opt} {pay₀ : List UInt8}
    (hbs : bs <+: encodeOptions k opts ++ encodePayload pay₀) (hnear : Near k opts) :
    ∃ A, A <+: opts ∧ bs = encodeOptions k A ++ encodePayload pay ∧ steps.length = A.length := by
  induction hw generalizing k opts with
  | done => exact ⟨[], List.nil_prefix, rfl, rfl⟩
  | payload hpay => exact ⟨[], List.nil_prefix, (encodePayload_of_ne_nil hpay).symm, rfl⟩
  | @option h t pay steps hu hl hneed hsize _ ih =>
    obtain ⟨rest, hrest⟩ := hbs
    cases opts with
    | nil =>
      rw [encodeOptions_nil, List.nil_append, encodePayload] at hrest
      split_ifs at hrest
      · simp at hrest
      · obtain ⟨rfl, -⟩ := List.cons.inj hrest
        exact absurd hu (by decide)
    | cons o opts =>
      obtain ⟨hΔ, hv⟩ := hnear (o.key - k, o.value) (by simp [optionRecords])
      dsimp only at hΔ hv
      have hwhole : encodeRecord (o.key - k, o.value) <+: h :: t ++ rest := by
        rw [hrest, encodeOptions_cons, List.append_assoc]
        exact List.prefix_append _ _
      obtain rfl : byteOf (nibble (o.key - k)) (nibble o.value.length) = h :=
        (List.cons_prefix_cons.mp hwhole).1
      obtain ⟨hdiv, hmod⟩ := header_div (o.key - k) o.value.length
      rw [hdiv, hmod, computeExtraBytes_nibble hΔ, computeExtraBytes_nibble hv,
        ← List.length_append] at hneed
      obtain ⟨t', rfl⟩ : extension (o.key - k) ++ extension o.value.length <+: t :=
        List.prefix_of_prefix_length_le
          ((List.prefix_append _ _).trans (List.cons_prefix_cons.mp hwhole).2)
          (List.prefix_append _ _) hneed
      obtain ⟨hdelta, hlength⟩ := exact_header hΔ hv (t' ++ after)
      rw [List.append_assoc _ t' after, hdelta, hlength, walkSize_record hΔ hv] at hsize ih
      obtain ⟨bs', hbs'⟩ := List.prefix_of_prefix_length_le hwhole (List.prefix_append _ rest) hsize
      rw [← hbs', List.drop_left] at ih
      have hrest' : bs' <+: encodeOptions o.key opts ++ encodePayload pay₀ := by
        rw [← hbs', encodeOptions_cons, List.append_assoc, List.append_assoc,
          List.append_cancel_left_eq] at hrest
        exact ⟨rest, hrest⟩
      obtain ⟨A, hA, hbsA, hlen⟩ := ih hrest' fun r hr => hnear r (List.mem_cons_of_mem _ hr)
      refine ⟨o :: A, List.cons_prefix_cons.mpr ⟨rfl, hA⟩, ?_, congrArg (· + 1) hlen⟩
      rw [← hbs', hbsA, encodeOptions_cons, List.append_assoc]

theorem prefix_iff_length_le {k : ℕ} {opts A B : List Opt} {pay pay₀ : List UInt8}
    (hA : A <+: opts) (hB : B <+: opts)
    (hbs : encodeOptions k A ++ encodePayload pay <+: encodeOptions k opts ++ encodePayload pay₀) :
    B <+: A ↔ (encodeOptions k B).length ≤ (encodeOptions k A ++ encodePayload pay).length := by
  constructor
  · rintro ⟨C, rfl⟩
    rw [encodeOptions_append, List.append_assoc, List.length_append]
    exact Nat.le_add_right _ _
  · intro hle
    obtain h | ⟨C, rfl⟩ := List.prefix_or_prefix_of_prefix hB hA
    · exact h
    · cases C with
      | nil => rw [List.append_nil]
      | cons o C =>
        exfalso
        have hpos := length_encodeRecord_pos (o.key - lastKey Opt.key k A, o.value)
        rw [encodeOptions_append, encodeOptions_cons, List.length_append, List.length_append,
          List.length_append] at hle
        by_cases hpay : pay = []
        · rw [hpay, encodePayload_nil, List.length_nil] at hle
          omega
        · obtain ⟨D, rfl⟩ := hB
          rw [encodePayload_of_ne_nil hpay, List.append_assoc A, List.cons_append,
            encodeOptions_append, encodeOptions_cons, List.append_assoc,
            List.prefix_append_right_inj, encodeRecord, List.cons_append, List.cons_append,
            List.cons_prefix_cons] at hbs
          exact byteOf_nibble_ne _ _ hbs.1.symm

section Received

variable {hdr pay₀ d after : List UInt8} {opts : List Opt} {addr : ℕ} {p : CoapPDU}

theorem recv_of_front (hd : d <+: CoapPDU.encodeMessage hdr opts pay₀) (hne : d ≠ [])
    (hhdr : hdr.length = COAP_HDR_SIZE + (hdr.getD 0 0 &&& 0x0F).toNat)
    (hs : SortedFrom Opt.key 0 opts) (hnear : Near 0 opts)
    (hv : ∀ o ∈ opts, o.value.length < 65536)
    (hrecv : coapCreateRecv addr (d ++ after) d.length = .ok (some p)) :
    ∃ A pay, A <+: opts ∧ p.Holds (headerOf d) A pay ∧ p.numOptions = A.length ∧
      ∀ B, B <+: opts → (B <+: A ↔ hdr.length + (encodeOptions 0 B).length ≤ d.length) := by
  obtain ⟨hhead, steps, pay, hw, rfl⟩ := coapCreateRecv_walked hne hrecv
  have hfixed := hhead.fixed
  have hfits := hhead.tokenFits
  rw [COAP_HDR_SIZE] at hfixed
  have hfirst : d.getD 0 0 = hdr.getD 0 0 := by
    rw [COAP_HDR_SIZE] at hhdr
    obtain ⟨t, ht⟩ := hd
    have hlow (b : List UInt8) : (d ++ b).getD 0 0 = d.getD 0 0 := by
      rw [List.getD_eq_getElem?_getD, List.getD_eq_getElem?_getD,
        List.getElem?_append_left (by omega)]
    rw [← hlow t, ht, CoapPDU.encodeMessage, List.getD_eq_getElem?_getD,
      List.getD_eq_getElem?_getD, List.getElem?_append_left (by omega)]
  have htoken : COAP_HDR_SIZE + tokenLength d = hdr.length := by
    rw [hhdr, tokenLength, hfirst, toNat_lower]
  obtain ⟨bs, rfl⟩ : hdr <+: d :=
    List.prefix_of_prefix_length_le (List.prefix_append _ _) hd (by omega)
  have hregion : optionRegion (hdr ++ bs) = bs := by rw [optionRegion, htoken, List.drop_left]
  have hbs : bs <+: encodeOptions 0 opts ++ encodePayload pay₀ :=
    (List.prefix_append_right_inj hdr).mp hd
  rw [hregion] at hw
  obtain ⟨A, hA, hbsA, hlen⟩ := hw.of_front hbs hnear
  obtain ⟨C, hC⟩ := hA
  have hsA : SortedFrom Opt.key 0 A := by
    rw [← hC, sortedFrom_append] at hs
    exact hs.1
  have hvA : ∀ o ∈ A, o.value.length < 65536 := fun o ho =>
    hv o (by rw [← hC]; exact List.mem_append_left C ho)
  have hm : Message (hdr ++ bs) A pay := by
    refine ⟨hhead, ?_⟩
    rw [hregion, hbsA]
    exact parsesOptions_encode pay hsA fun o ho => (hvA o ho).trans (by omega)
  refine ⟨A, pay, ⟨C, hC⟩, ?_, hlen, fun B hB => ?_⟩
  · rw [hlen]
    exact hm.holds hvA addr after
  · rw [hbsA] at hbs
    rw [prefix_iff_length_le ⟨C, hC⟩ hB hbs, ← hbsA, List.length_append]
    exact (Nat.add_le_add_iff_left).symm

theorem getOptions_recv_nil (hrecv : coapCreateRecv addr after 0 = .ok (some p)) :
    p.getOptions = [] := by
  obtain _ | ⟨a, _ | ⟨b, _ | ⟨c, _ | ⟨e, after⟩⟩⟩⟩ := after
  · simp [coapCreateRecv, CoapPDU.ofBuffer, CoapPDU.memcpy] at hrecv
  · simp [coapCreateRecv, CoapPDU.ofBuffer, CoapPDU.memcpy] at hrecv
  · simp [coapCreateRecv, CoapPDU.ofBuffer, CoapPDU.memcpy] at hrecv
  · simp [coapCreateRecv, CoapPDU.ofBuffer, CoapPDU.memcpy] at hrecv
  · have hhead : HeaderOk [0x40, 0, 0, 0] := by constructor <;> decide
    have hvalid := CoapPDU.validate_of_walk
      (p := { received addr [0x40, 0, 0, 0] after with bufferLength := 0 }) rfl rfl rfl hhead
      (.done : Walk after (optionRegion [0x40, 0, 0, 0]) [] [])
    rw [coapCreateRecv, ofBuffer_nil, ok_bind, hvalid] at hrecv
    obtain rfl := Option.some.inj (Except.ok.inj hrecv)
    rfl

end Received

end Mbtk.Coap
