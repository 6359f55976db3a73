import Mbtk.Coap.RecvLaws

namespace Mbtk.Coap

open Lib Lib.ExtNat

/-- Each record starts where the one before ends, from `start` to `stop`, and its value fills its
end and lies inside the first `size` bytes. -/
def Tiles (size : ℕ) : ℕ → List CoapOption → ℕ → Prop
  | start, [], stop => start = stop
  | start, o :: options, stop =>
    o.optionPointer = start ∧ start < o.optionValuePointer ∧
      o.optionValuePointer + o.optionValueLength.toNat = start + o.totalLength ∧
      o.optionValuePointer + o.optionValueLength.toNat ≤ size ∧
      Tiles size (start + o.totalLength) options stop

namespace CoapPDU

theorem getOptionsLoop_tiles {p : CoapPDU} {pre bs after pay : List UInt8}
    {steps : List (ℕ × ℕ)} (hw : Walk after bs steps pay) (hp : p.pdu = pre ++ (bs ++ after))
    (hlen : p.pduLength = pre.length + bs.length) (k : UInt16) :
    (p.getOptionsLoop steps.length pre.length k).length = steps.length ∧
      ∃ options, bs = options ++ encodePayload pay ∧
        Tiles p.pduLength pre.length (p.getOptionsLoop steps.length pre.length k)
          (pre.length + options.length) := by
  induction hw generalizing pre k with
  | done => exact ⟨rfl, [], rfl, rfl⟩
  | payload hpay => exact ⟨rfl, [], (encodePayload_of_ne_nil hpay).symm, rfl⟩
  | @option h t pay steps hu hl hneed hsize _ ih =>
    obtain ⟨hp', hlen', hpre, -⟩ := split_after_turn hp hsize hlen
    have hdrop : p.pdu.drop pre.length = h :: (t ++ after) := by
      rw [hp, List.drop_left, List.cons_append]
    obtain ⟨hcount, options, hoptions, htiles⟩ :=
      ih hp' hlen' (k + UInt16.ofNat (exactDelta h (t ++ after)))
    rw [hpre] at hcount htiles
    have hW : (UInt16.ofNat (exactLength h (t ++ after))).toNat <
        walkSize (exactDelta h (t ++ after)) (exactLength h (t ++ after)) := by
      unfold walkSize
      omega
    have hturn : p.getOptionsLoop (steps.length + 1) pre.length k =
        { optionDelta := UInt16.ofNat (exactDelta h (t ++ after))
          optionNumber := k + UInt16.ofNat (exactDelta h (t ++ after))
          optionValueLength := UInt16.ofNat (exactLength h (t ++ after))
          totalLength := walkSize (exactDelta h (t ++ after)) (exactLength h (t ++ after))
          optionPointer := pre.length
          optionValuePointer :=
            pre.length + walkSize (exactDelta h (t ++ after)) (exactLength h (t ++ after)) -
              (UInt16.ofNat (exactLength h (t ++ after))).toNat } ::
          p.getOptionsLoop steps.length
            (pre.length + walkSize (exactDelta h (t ++ after)) (exactLength h (t ++ after)))
            (k + UInt16.ofNat (exactDelta h (t ++ after))) := by
      rw [getOptionsLoop, hdrop, getOptionDelta_cons hu, getOptionValueLength_cons hu hl,
        ← walkSize]
    generalize walkSize (exactDelta h (t ++ after)) (exactLength h (t ++ after)) = W at *
    rw [List.length_cons, hturn]
    refine ⟨by rw [List.length_cons, hcount], (h :: t).take W ++ options, ?_, rfl, ?_, ?_, ?_, ?_⟩
    · rw [List.append_assoc, ← hoptions, List.take_append_drop]
    · dsimp only
      omega
    · dsimp only
      omega
    · dsimp only
      omega
    · rw [List.length_append, List.length_take, Nat.min_eq_left hsize, ← Nat.add_assoc]
      exact htiles

theorem validate_accepted {p q : CoapPDU} {d after : List UInt8} (hp : p.pdu = d ++ after)
    (hlen : p.pduLength = d.length) (hacc : p.validate = (q, true)) :
    HeaderOk d ∧ q.pdu = p.pdu ∧ q.pduLength = p.pduLength ∧ q.addr = p.addr ∧
      ∃ steps pay, Walk after (optionRegion d) steps pay ∧ q.numOptions = steps.length ∧
        q.payloadLength = pay.length ∧
        (pay ≠ [] → q.payloadPointer = some (p.addr + (p.pduLength - pay.length))) := by
  obtain ⟨hhead, steps, pay, hw⟩ := exists_walk_of_validate hp hlen (by rw [hacc])
  have hvalid := validate_of_headerOk hp hlen hhead
  rw [hacc] at hvalid
  refine ⟨hhead, ?_⟩
  split_ifs at hvalid with hend
  · rw [optionRegion, hend, List.drop_length] at hw ⊢
    cases hw
    obtain ⟨rfl, -⟩ := Prod.mk.inj hvalid
    exact ⟨rfl, rfl, rfl, [], [], .done, rfl, rfl, fun h => absurd rfl h⟩
  · have hfits := hhead.tokenFits
    have hregion : (optionRegion d).length = d.length - (COAP_HDR_SIZE + tokenLength d) :=
      List.length_drop
    have hpre : (d.take (COAP_HDR_SIZE + tokenLength d)).length =
        COAP_HDR_SIZE + tokenLength d := by
      rw [List.length_take]
      omega
    have hp' : p.pdu = d.take (COAP_HDR_SIZE + tokenLength d) ++ (optionRegion d ++ after) := by
      rw [hp, ← List.append_assoc, optionRegion, List.take_append_drop]
    have hloop := validateLoop_of_walk hw hp' (by omega)
      (show (optionRegion d).length < d.length + 1 by omega) 0 0
    have hrest : (d.length : ℤ) - (COAP_HDR_SIZE + tokenLength d : ℕ) =
        (optionRegion d).length := by
      omega
    rw [hpre, ← hrest, Nat.zero_add] at hloop
    rw [hloop] at hvalid
    obtain ⟨rfl, -⟩ := Prod.mk.inj hvalid
    exact ⟨rfl, rfl, rfl, steps, pay, hw, rfl, rfl, fun hne => if_neg hne⟩

end CoapPDU

/-- Whatever lies behind an accepted datagram, `getOptions` lists as many options as `validate`
counted, and they tile the datagram from its token to its end or to the marker in front of the
payload that `validate` recorded. -/
theorem CoapPDU.getOptions_tiles {p q : CoapPDU} {d after : List UInt8} (hp : p.pdu = d ++ after)
    (hlen : p.pduLength = d.length) (hacc : p.validate = (q, true)) :
    q.getOptions.length = q.numOptions ∧ ∃ stop,
      Tiles d.length (COAP_HDR_SIZE + q.getTokenLength) q.getOptions stop ∧
      (q.payloadLength = 0 ∧ stop = d.length ∨
        d.getD stop 0 = 0xFF ∧ 0 < q.payloadLength ∧ stop + 1 + q.payloadLength = d.length ∧
          q.payloadPointer = some (q.addr + (stop + 1))) := by
  obtain ⟨hhead, hpdu, hqlen, haddr, steps, pay, hw, hnum, hpay, hptr⟩ :=
    validate_accepted hp hlen hacc
  have hfits := hhead.tokenFits
  have hpre : (d.take (COAP_HDR_SIZE + tokenLength d)).length = COAP_HDR_SIZE + tokenLength d := by
    rw [List.length_take]
    omega
  have hregion : (optionRegion d).length = d.length - (COAP_HDR_SIZE + tokenLength d) :=
    List.length_drop
  have hp' : q.pdu = d.take (COAP_HDR_SIZE + tokenLength d) ++ (optionRegion d ++ after) := by
    rw [hpdu, hp, ← List.append_assoc, optionRegion, List.take_append_drop]
  have htoken : q.getTokenLength = tokenLength d := getTokenLength_of_pdu (hpdu.trans hp) hhead
  obtain ⟨hcount, options, hoptions, htiles⟩ := getOptionsLoop_tiles hw hp' (by omega) 0
  rw [hpre, hqlen, hlen] at htiles
  rw [hpre] at hcount
  rw [getOptions, hnum, htoken]
  refine ⟨hcount, _, htiles, ?_⟩
  have hlength := congrArg List.length hoptions
  rw [List.length_append] at hlength
  by_cases hnil : pay = []
  · rw [hnil, encodePayload_nil, List.length_nil] at hlength
    refine .inl ⟨by rw [hpay, hnil, List.length_nil], by omega⟩
  · have hpos := List.length_pos_iff.mpr hnil
    rw [encodePayload_of_ne_nil hnil, List.length_cons] at hlength
    refine .inr ⟨?_, by omega, by omega, ?_⟩
    · obtain ⟨front, hfront⟩ : ∃ front, front = d.take (COAP_HDR_SIZE + tokenLength d) ++ options :=
        ⟨_, rfl⟩
      have hat : COAP_HDR_SIZE + tokenLength d + options.length = front.length := by
        rw [hfront, List.length_append, hpre]
      have hstop : d = front ++ 0xFF :: pay := by
        rw [hfront, List.append_assoc, ← encodePayload_of_ne_nil hnil, ← hoptions, optionRegion,
          List.take_append_drop]
      rw [hat, hstop, List.getD_eq_getElem?_getD, List.getElem?_append_right le_rfl, Nat.sub_self]
      rfl
    · rw [hptr hnil, haddr]
      congr 2
      omega

theorem CoapPDU.getOptions_tiles_wrapped :
    ∃ q, (received 0 [0x40, 0x01, 0x00, 0x01, 0xE0, 0xFF, 0x00] []).validate = (q, true) ∧
      q.getOptions.length = q.numOptions ∧ q.numOptions = 2 := by
  obtain ⟨q, hq⟩ : ∃ q, (received 0 [0x40, 0x01, 0x00, 0x01, 0xE0, 0xFF, 0x00] []).validate =
    (q, true) := ⟨_, rfl⟩
  refine ⟨q, hq, (CoapPDU.getOptions_tiles (d := [0x40, 0x01, 0x00, 0x01, 0xE0, 0xFF, 0x00])
    rfl rfl hq).1, ?_⟩
  rw [← (Prod.mk.inj hq).1]

end Mbtk.Coap
