import Mbtk.Coap.DecodeLaws
import Mbtk.Coap.Recv

namespace Mbtk.Coap

open Lib Lib.ExtNat

/-- The numbers and the value lengths of the options that a walk passes, each in its 16
bits. -/
def wireOptions : UInt16 → List (ℕ × ℕ) → List (UInt16 × UInt16)
  | _, [] => []
  | k, (Δ, L) :: steps =>
    (k + UInt16.ofNat Δ, UInt16.ofNat L) :: wireOptions (k + UInt16.ofNat Δ) steps

namespace CoapPDU

section Copy

variable {p : CoapPDU} {n : UInt16} {buffer : Buffer} {dst : List UInt8}

def FitsArray (p : CoapPDU) (n : UInt16) (size : ℕ) : Prop :=
  ∀ o ∈ p.getOptions, o.optionNumber = n → o.optionValueLength.toNat ≤ size

theorem copyOption_ok (p : CoapPDU) (buffer : Buffer) {size : ℕ} {o : CoapOption}
    (h : o.optionNumber = n → o.optionValueLength.toNat ≤ size) (s : UInt16 × List UInt8) :
    ∃ s', p.copyOption n buffer size s o = .ok s' := by
  unfold copyOption
  split_ifs with hn hlen
  · exact ⟨_, rfl⟩
  · exact absurd (h hn) hlen
  · exact ⟨_, rfl⟩

theorem getOptionValueById_ok (buffer : Buffer) (h : p.FitsArray n dst.length) :
    ∃ r, p.getOptionValueById n buffer dst = .ok r := by
  unfold FitsArray at h
  unfold getOptionValueById
  generalize ((0 : UInt16), dst) = s
  generalize p.getOptions = l at h
  induction l generalizing s with
  | nil => exact ⟨s, rfl⟩
  | cons o l ih =>
    obtain ⟨s', hs'⟩ := p.copyOption_ok buffer (h o (by simp)) s
    rw [List.foldlM_cons, hs', ok_bind]
    exact ih s' fun o ho => h o (by simp [ho])

theorem getOptionValueById_overrun (buffer : Buffer) (h : ¬ p.FitsArray n dst.length) :
    p.getOptionValueById n buffer dst = .error (.overrun buffer) := by
  unfold FitsArray at h
  unfold getOptionValueById
  generalize ((0 : UInt16), dst) = s
  generalize p.getOptions = l at h
  induction l generalizing s with
  | nil => exact absurd (fun o ho => absurd ho (by simp)) h
  | cons o l ih =>
    rw [List.foldlM_cons]
    by_cases ho : o.optionNumber = n → o.optionValueLength.toNat ≤ dst.length
    · obtain ⟨s', hs'⟩ := p.copyOption_ok buffer ho s
      rw [hs', ok_bind]
      refine ih s' fun hl => h fun o' ho' => ?_
      obtain rfl | ho' := List.mem_cons.mp ho'
      · exact ho
      · exact hl o' ho'
    · obtain ⟨hn, hlen⟩ := Classical.not_imp.mp ho
      rw [copyOption, if_pos hn, if_neg hlen]
      rfl

end Copy

theorem getOptionsLoop_of_walk {p : CoapPDU} {pre bs after pay : List UInt8}
    {steps : List (ℕ × ℕ)} (hw : Walk after bs steps pay) (hp : p.pdu = pre ++ (bs ++ after))
    (hlen : p.pduLength = pre.length + bs.length) (k : UInt16) :
    (p.getOptionsLoop steps.length pre.length k).map
      (fun o => (o.optionNumber, o.optionValueLength)) = wireOptions k steps := by
  induction hw generalizing pre k with
  | done => rfl
  | payload => rfl
  | @option h t pay steps hu hl hneed hsize _ ih =>
    obtain ⟨hp', hlen', hpre, -⟩ := split_after_turn hp hsize hlen
    have hdrop : p.pdu.drop pre.length = h :: (t ++ after) := by
      rw [hp, List.drop_left, List.cons_append]
    have hrest := ih hp' hlen' (k + UInt16.ofNat (exactDelta h (t ++ after)))
    rw [hpre] at hrest
    rw [List.length_cons, getOptionsLoop, hdrop, getOptionDelta_cons hu,
      getOptionValueLength_cons hu hl, wireOptions, ← walkSize, List.map_cons, hrest]

theorem getTokenLength_of_pdu {p : CoapPDU} {d after : List UInt8} (hp : p.pdu = d ++ after)
    (hhead : HeaderOk d) : p.getTokenLength = tokenLength d := by
  have hfixed := hhead.fixed
  rw [COAP_HDR_SIZE] at hfixed
  rw [getTokenLength, read_of_pdu hp (by omega), toNat_lower, tokenLength]

theorem getOptions_walked {p : CoapPDU} {d after pay : List UInt8} {steps : List (ℕ × ℕ)}
    (hp : p.pdu = d ++ after) (hlen : p.pduLength = d.length) (hhead : HeaderOk d)
    (hw : Walk after (optionRegion d) steps pay) :
    (p.walked steps.length pay).getOptions.map
      (fun o => (o.optionNumber, o.optionValueLength)) = wireOptions 0 steps := by
  have hfits := hhead.tokenFits
  have hpre : (d.take (COAP_HDR_SIZE + tokenLength d)).length = COAP_HDR_SIZE + tokenLength d := by
    rw [List.length_take]
    omega
  have hregion : (optionRegion d).length = d.length - (COAP_HDR_SIZE + tokenLength d) :=
    List.length_drop
  have hp' : p.pdu = d.take (COAP_HDR_SIZE + tokenLength d) ++ (optionRegion d ++ after) := by
    rw [hp, ← List.append_assoc, optionRegion, List.take_append_drop]
  have htoken := getTokenLength_of_pdu hp hhead
  have hloop := getOptionsLoop_of_walk (p := p.walked steps.length pay) hw hp'
    (by rw [hpre, hregion]; change p.pduLength = _; omega) 0
  rw [hpre, ← htoken] at hloop
  exact hloop

theorem fitsArray_walked {p : CoapPDU} {d after pay : List UInt8} {steps : List (ℕ × ℕ)}
    (hp : p.pdu = d ++ after) (hlen : p.pduLength = d.length) (hhead : HeaderOk d)
    (hw : Walk after (optionRegion d) steps pay) (n : UInt16) (size : ℕ) :
    (p.walked steps.length pay).FitsArray n size ↔
      ∀ o ∈ wireOptions 0 steps, o.1 = n → o.2.toNat ≤ size := by
  rw [← getOptions_walked hp hlen hhead hw, FitsArray]
  simp only [List.forall_mem_map]

theorem Holds.getOptionValueById {p : CoapPDU} {hdr pay : List UInt8} {opts : List Opt}
    (h : p.Holds hdr opts pay) (hnum : p.numOptions = opts.length) (n : UInt16) (buffer : Buffer)
    (dst : List UInt8) :
    p.getOptionValueById n buffer dst =
      (opts.filter (·.number = n)).foldlM (fun s o =>
        if o.value.length ≤ dst.length then
          .ok (UInt16.ofNat o.value.length, o.value ++ s.2.drop o.value.length)
        else .error (.overrun buffer)) (0, dst) := by
  let turn (s : UInt16 × List UInt8) (o : UInt16 × Opt) : Exec (UInt16 × List UInt8) :=
    if o.2.number = n then
      if o.1.toNat ≤ dst.length then .ok (o.1, o.2.value ++ s.2.drop o.1.toNat)
      else .error (.overrun buffer)
    else .ok s
  have hturn : p.getOptionValueById n buffer dst =
      (p.getOptions.map fun o =>
        (o.optionValueLength, (⟨o.optionNumber, p.optionValue o⟩ : Opt))).foldlM turn (0, dst) := by
    rw [List.foldlM_map]
    rfl
  rw [hturn, h.getOptions_eq hnum, List.foldlM_map, List.foldlM_filter]
  have hshort := h.short
  generalize ((0 : UInt16), dst) = s
  clear hturn hnum h
  induction opts generalizing s with
  | nil => rfl
  | cons o opts ih =>
    have hlen : (UInt16.ofNat o.value.length).toNat = o.value.length := by
      rw [UInt16.toNat_ofNat', Nat.mod_eq_of_lt (hshort o (by simp))]
    have hhead : turn s (UInt16.ofNat o.value.length, o) =
        if decide (o.number = n) = true then
          if o.value.length ≤ dst.length then
            .ok (UInt16.ofNat o.value.length, o.value ++ s.2.drop o.value.length)
          else .error (.overrun buffer)
        else pure s := by
      simp only [turn, hlen, decide_eq_true_eq]
      rfl
    rw [List.foldlM_cons, List.foldlM_cons, hhead]
    congr 1
    funext s
    exact ih (fun o ho => hshort o (by simp [ho])) s

end CoapPDU

section Received

variable {addr : ℕ} {d after : List UInt8} {p : CoapPDU}

theorem coapCreateRecv_of_walk (hd : d ≠ []) (hhead : HeaderOk d) {steps : List (ℕ × ℕ)}
    {pay : List UInt8} (hw : Walk after (optionRegion d) steps pay) :
    coapCreateRecv addr (d ++ after) d.length =
      .ok (some ((received addr d after).walked steps.length pay)) := by
  rw [coapCreateRecv_eq after hd, CoapPDU.validate_of_walk rfl rfl rfl hhead hw]
  rfl

theorem coapCreateRecv_walked (hd : d ≠ [])
    (h : coapCreateRecv addr (d ++ after) d.length = .ok (some p)) :
    HeaderOk d ∧ ∃ steps pay, Walk after (optionRegion d) steps pay ∧
      p = (received addr d after).walked steps.length pay := by
  have hacc : (received addr d after).validate.2 = true := by
    rw [coapCreateRecv_eq after hd] at h
    by_contra hacc
    rw [if_neg hacc] at h
    simp at h
  obtain ⟨hhead, steps, pay, hw⟩ := CoapPDU.exists_walk_of_validate rfl rfl hacc
  rw [coapCreateRecv_of_walk hd hhead hw] at h
  exact ⟨hhead, steps, pay, hw, by simpa using h.symm⟩

theorem getTokenLength_le (hd : d ≠ [])
    (h : coapCreateRecv addr (d ++ after) d.length = .ok (some p)) : p.getTokenLength ≤ 8 := by
  obtain ⟨hhead, steps, pay, -, rfl⟩ := coapCreateRecv_walked hd h
  have htoken := CoapPDU.getTokenLength_of_pdu
    (p := (received addr d after).walked steps.length pay) rfl hhead
  rw [htoken]
  exact hhead.token

end Received

theorem Message.short {d pay : List UInt8} {opts : List Opt} (h : Message d opts pay)
    (hlen : d.length ≤ 65535) : ∀ o ∈ opts, o.value.length < 65536 := by
  intro o ho
  have hle := h.options.value_length_le o ho
  rw [optionRegion, List.length_drop] at hle
  omega

end Mbtk.Coap
