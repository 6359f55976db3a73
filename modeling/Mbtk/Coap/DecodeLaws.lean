import Mbtk.Coap.Validate
import Mbtk.Coap.WellFormed

namespace Mbtk.Coap

open Lib Lib.ExtNat

namespace CoapPDU

def readOptions (p : CoapPDU) : List Opt :=
  p.getOptions.map fun o => ⟨o.optionNumber, p.optionValue o⟩

/-- What `getOptions` says about the options of a message: their value lengths, their numbers
and the bytes that its pointers lead to. -/
theorem getOptionsLoop_encode {p : CoapPDU} {pre t : List UInt8} {k : ℕ} {opts : List Opt}
    (hp : p.pdu = pre ++ (encodeOptions k opts ++ t)) (hs : SortedFrom Opt.key k opts)
    (hv : ∀ o ∈ opts, o.value.length < 65536) :
    (p.getOptionsLoop opts.length pre.length (UInt16.ofNat k)).map
      (fun o => (o.optionValueLength, (⟨o.optionNumber, p.optionValue o⟩ : Opt))) =
      opts.map fun o => (UInt16.ofNat o.value.length, o) := by
  induction opts generalizing pre k with
  | nil => rfl
  | cons o opts ih =>
    obtain ⟨Δ, hΔ⟩ : ∃ Δ, Δ = o.key - k := ⟨_, rfl⟩
    have hlt : o.key < 65536 := o.number.toNat_lt
    have hk : k ≤ o.key := hs.1
    have hvo := hv o (by simp)
    rw [encodeOptions_cons, ← hΔ] at hp
    have hdrop : p.pdu.drop pre.length =
        encodeRecord (Δ, o.value) ++ (encodeOptions o.key opts ++ t) := by
      rw [hp, List.drop_left, List.append_assoc]
    have hnum : UInt16.ofNat k + UInt16.ofNat Δ = o.number := by
      rw [hΔ, ofNat_add_sub hk, Opt.key, UInt16.ofNat_toNat]
    have hvlen : (UInt16.ofNat o.value.length).toNat = o.value.length := by
      rw [UInt16.toNat_ofNat', Nat.mod_eq_of_lt hvo]
    have htotal : 1 + computeExtraBytes (UInt16.ofNat Δ) +
        computeExtraBytes (UInt16.ofNat o.value.length) + o.value.length =
        (encodeRecord (Δ, o.value)).length := by
      rw [length_encodeRecord_eq (by omega) hvo]
      omega
    have hpos : pre.length + (encodeRecord (Δ, o.value)).length - o.value.length =
        (pre ++ byteOf (nibble Δ) (nibble o.value.length) ::
          (extension Δ ++ extension o.value.length)).length := by
      rw [length_encodeRecord]
      simp only [List.length_append, List.length_cons]
      omega
    have hvalue : (p.pdu.drop (pre.length + (encodeRecord (Δ, o.value)).length -
        o.value.length)).take o.value.length = o.value := by
      have hsplit : p.pdu = (pre ++ byteOf (nibble Δ) (nibble o.value.length) ::
          (extension Δ ++ extension o.value.length)) ++
            (o.value ++ (encodeOptions o.key opts ++ t)) := by
        rw [hp, encodeRecord]
        simp only [List.append_assoc, List.cons_append]
      rw [hpos, hsplit, List.drop_left, List.take_left]
    have hp' : p.pdu = (pre ++ encodeRecord (Δ, o.value)) ++ (encodeOptions o.key opts ++ t) := by
      rw [hp]
      simp only [List.append_assoc]
    have hrest := ih hp' hs.2 fun o ho => hv o (by simp [ho])
    rw [Opt.key, UInt16.ofNat_toNat, List.length_append] at hrest
    rw [List.length_cons, getOptionsLoop, hdrop, getOptionDelta_encodeRecord _ (by omega),
      getOptionValueLength_encodeRecord _ (by omega) (by omega), hnum, hvlen, htotal,
      List.map_cons, hrest]
    simp only [optionValue, hvlen, hvalue, List.map_cons]

theorem Holds.getOptions_eq {p : CoapPDU} {hdr pay : List UInt8} {opts : List Opt}
    (h : p.Holds hdr opts pay) (hnum : p.numOptions = opts.length) :
    p.getOptions.map
        (fun o => (o.optionValueLength, (⟨o.optionNumber, p.optionValue o⟩ : Opt))) =
      opts.map fun o => (UInt16.ofNat o.value.length, o) := by
  have hpdu := h.pdu_eq
  rw [encodeMessage, List.append_assoc, List.append_assoc] at hpdu
  rw [getOptions, hnum, h.getTokenLength]
  exact getOptionsLoop_encode hpdu h.sorted h.short

theorem Holds.readOptions {p : CoapPDU} {hdr pay : List UInt8} {opts : List Opt}
    (h : p.Holds hdr opts pay) (hnum : p.numOptions = opts.length) : p.readOptions = opts := by
  have := congrArg (List.map Prod.snd) (h.getOptions_eq hnum)
  rw [List.map_map, List.map_map] at this
  exact this.trans (List.map_id opts)

/-- The object for a received message tells everything that went into it. -/
structure Tells (p : CoapPDU) (type code : UInt8) (messageID : UInt16) (token : List UInt8)
    (opts : List Opt) (payload : List UInt8) : Prop where
  version : p.getVersion = 1
  type : p.getType = type
  code : p.getCode = code
  messageID : p.getMessageID = messageID
  token : p.getToken = token
  numOptions : p.getNumOptions = opts.length
  options : p.readOptions = opts
  payloadLength : p.getPayloadLength = payload.length
  payload : p.getPayload = payload

end CoapPDU

section Receive

variable {b c : UInt8} {messageID : UInt16} {token payload : List UInt8} {opts : List Opt}

def messageHeader (b c : UInt8) (messageID : UInt16) (token : List UInt8) : List UInt8 :=
  b :: c :: (endianStore16 messageID ++ token)

theorem endianLoad16_endianStore16 (messageID : UInt16) :
    endianLoad16 ((endianStore16 messageID).getD 0 0) ((endianStore16 messageID).getD 1 0) =
      messageID := by
  have := messageID.toNat_lt
  apply UInt16.toNat_inj.mp
  rw [toNat_endianLoad16, endianStore16_eq, List.getD_cons_zero, List.getD_cons_succ,
    List.getD_cons_zero, UInt8.toNat_ofNat', UInt8.toNat_ofNat']
  omega

theorem length_messageHeader (b c : UInt8) (messageID : UInt16) (token : List UInt8) :
    (messageHeader b c messageID token).length = 4 + token.length := by
  simp only [messageHeader, endianStore16, List.length_cons, List.length_append, List.length_nil]
  omega

theorem messageHeader_append (t : List UInt8) :
    messageHeader b c messageID token ++ t =
      b :: c :: (endianStore16 messageID ++ (token ++ t)) := by
  simp [messageHeader]

/-- The message ID of a datagram. -/
def messageIdOf (d : List UInt8) : UInt16 := endianLoad16 (d.getD 2 0) (d.getD 3 0)

def typeOf (d : List UInt8) : UInt8 := d.getD 0 0 &&& 0x30

def codeOf (d : List UInt8) : UInt8 := d.getD 1 0

def tokenOf (d : List UInt8) : List UInt8 := (d.drop COAP_HDR_SIZE).take (tokenLength d)

theorem message_encode {d : List UInt8}
    (hd : d = CoapPDU.encodeMessage (messageHeader b c messageID token) opts payload)
    (hversion : b.toNat / 64 = 1) (htoken : b.toNat % 16 = token.length) (h8 : token.length ≤ 8)
    (hcode : ValidCode c) (hs : SortedFrom Opt.key 0 opts)
    (hv : ∀ o ∈ opts, o.value.length < 65536) :
    Message d opts payload ∧ typeOf d = b &&& 0x30 ∧ codeOf d = c ∧ messageIdOf d = messageID ∧
      tokenOf d = token := by
  have hcons : d = b :: c :: (endianStore16 messageID ++
      (token ++ (encodeOptions 0 opts ++ encodePayload payload))) := by
    rw [hd, CoapPDU.encodeMessage, messageHeader_append]
  have hlen : d.length = 4 + token.length +
      ((encodeOptions 0 opts).length + (encodePayload payload).length) := by
    rw [hd, CoapPDU.length_encodeMessage, length_messageHeader]
  have htl : tokenLength d = token.length := by rw [tokenLength, hcons, List.getD_cons_zero, htoken]
  have hregion : optionRegion d = encodeOptions 0 opts ++ encodePayload payload := by
    rw [optionRegion, htl, hd, CoapPDU.encodeMessage, COAP_HDR_SIZE,
      ← length_messageHeader b c messageID, List.drop_left]
  have hparse : ParsesOptions 0 (optionRegion d) opts payload := by
    rw [hregion]
    exact parsesOptions_encode payload hs fun o ho => (hv o ho).trans (by omega)
  have hhead : HeaderOk d := by
    refine ⟨?_, ?_, by omega, ?_, ?_⟩
    · rw [COAP_HDR_SIZE]
      omega
    · rw [hcons, List.getD_cons_zero, hversion]
    · rw [htl, COAP_HDR_SIZE]
      omega
    · rw [hcons]
      exact hcode
  have hstore : endianStore16 messageID =
      [(endianStore16 messageID).getD 0 0, (endianStore16 messageID).getD 1 0] := rfl
  refine ⟨⟨hhead, hparse⟩, ?_, ?_, ?_, ?_⟩
  · rw [typeOf, hcons, List.getD_cons_zero]
  · rw [codeOf, hcons]
    rfl
  · rw [messageIdOf, hcons, hstore]
    exact endianLoad16_endianStore16 messageID
  · rw [tokenOf, htl, hcons, hstore]
    simp [COAP_HDR_SIZE]

theorem endianStore16_endianLoad16 (a b : UInt8) : endianStore16 (endianLoad16 a b) = [a, b] := by
  have ha := a.toNat_lt
  have hb := b.toNat_lt
  have hdiv : (256 * a.toNat + b.toNat) / 256 = a.toNat := by omega
  have hmod : (256 * a.toNat + b.toNat) % 256 = b.toNat := by omega
  rw [endianStore16_eq, toNat_endianLoad16, hdiv, hmod, UInt8.ofNat_toNat, UInt8.ofNat_toNat]

variable {d : List UInt8}

def headerOf (d : List UInt8) : List UInt8 :=
  messageHeader (d.getD 0 0) (codeOf d) (messageIdOf d) (tokenOf d)

theorem Message.encode (h : Message d opts payload) :
    d = CoapPDU.encodeMessage (headerOf d) opts payload := by
  have hfixed := h.fixed
  rw [COAP_HDR_SIZE] at hfixed
  have hregion := h.options.encode.1
  rw [CoapPDU.encodeMessage, ← hregion, headerOf, messageHeader_append, messageIdOf]
  obtain ⟨b, c, i, j, t, rfl⟩ : ∃ b c i j t, d = b :: c :: i :: j :: t := by
    obtain _ | ⟨b, _ | ⟨c, _ | ⟨i, _ | ⟨j, t⟩⟩⟩⟩ := d <;> simp at hfixed ⊢
  simp only [List.getD_cons_succ, List.getD_cons_zero, endianStore16_endianLoad16, codeOf,
    tokenOf, optionRegion, COAP_HDR_SIZE, List.drop_succ_cons, List.drop_zero, List.cons_append,
    List.nil_append, Nat.add_comm 4, List.take_append_drop]

theorem HeaderOk.length_tokenOf (h : HeaderOk d) : (tokenOf d).length = tokenLength d := by
  have := h.tokenFits
  rw [tokenOf, List.length_take, List.length_drop]
  omega

theorem Message.holds (h : Message d opts payload) (hv : ∀ o ∈ opts, o.value.length < 65536)
    (addr : ℕ) (after : List UInt8) :
    ((received addr d after).walked opts.length payload).Holds (headerOf d) opts payload := by
  refine .of_encode (w := after) ?_ ?_ ?_ h.options.encode.2.1 hv ?_
  · rw [← h.encode]
    rfl
  · rw [← h.encode]
    rfl
  · rw [headerOf, length_messageHeader, messageHeader, List.getD_cons_zero, toNat_lower,
      h.length_tokenOf, tokenLength, COAP_HDR_SIZE]
  · change d.length ≤ (d ++ after).length
    rw [List.length_append]
    omega

theorem Message.getPayload (h : Message d opts payload) (addr : ℕ) (after : List UInt8) :
    ((received addr d after).walked opts.length payload).getPayload = payload := by
  by_cases hp : payload = []
  · rw [CoapPDU.getPayload, CoapPDU.walked, if_pos hp, hp]
  · obtain ⟨pre, hsplit⟩ : ∃ pre, d = pre ++ payload := by
      refine ⟨headerOf d ++ (encodeOptions 0 opts ++ [0xFF]), ?_⟩
      conv_lhs => rw [h.encode]
      rw [CoapPDU.encodeMessage, encodePayload_of_ne_nil hp]
      simp
    have hdrop : (d ++ after).drop (d.length - payload.length) = payload ++ after := by
      rw [hsplit, List.length_append, Nat.add_sub_cancel, List.append_assoc, List.drop_left]
    rw [CoapPDU.getPayload, CoapPDU.walked, if_neg hp]
    dsimp only [received]
    rw [Nat.add_sub_cancel_left, hdrop, List.take_left]

theorem Message.received (h : Message d opts payload)
    (hv : ∀ o ∈ opts, o.value.length < 65536) (addr : ℕ) (after : List UInt8) :
    ∃ q, coapCreateRecv addr (d ++ after) d.length = .ok (some q) ∧
      q.Tells (typeOf d) (codeOf d) (messageIdOf d) (tokenOf d) opts payload ∧
      q.Holds (headerOf d) opts payload := by
  have hwalk := h.options.walk hv after
  have hholds := h.holds hv addr after
  have hpayload := h.getPayload addr after
  have hvalid := CoapPDU.validate_of_walk (p := Coap.received addr d after) rfl rfl rfl h.toHeaderOk
    hwalk
  rw [length_optionSteps] at hvalid
  obtain ⟨q, hq⟩ : ∃ q, q = (Coap.received addr d after).walked opts.length payload := ⟨_, rfl⟩
  rw [← hq] at hvalid hholds hpayload
  have hfixed := h.fixed
  have hfits := h.tokenFits
  rw [COAP_HDR_SIZE] at hfixed hfits
  have hne : d ≠ [] := by
    rintro rfl
    simp at hfixed
  have hpdu : q.pdu = d ++ after := by rw [hq]; rfl
  have hread {k : ℕ} (hk : k < d.length) : q.read k = d.getD k 0 := CoapPDU.read_of_pdu hpdu hk
  refine ⟨q, ?_, ⟨?_, ?_, ?_, ?_, ?_, ?_, ?_, ?_, hpayload⟩, hholds⟩
  · rw [coapCreateRecv_eq after hne, hvalid]
    rfl
  · apply UInt8.toNat_inj.mp
    rw [CoapPDU.getVersion, hread (by omega), toNat_top_bits, h.version]
    rfl
  · rw [CoapPDU.getType, hread (by omega), typeOf]
  · rw [CoapPDU.getCode, hread (by omega), codeOf]
  · rw [CoapPDU.getMessageID, hread (by omega), hread (by omega), messageIdOf]
  · have htoken : q.getTokenLength = tokenLength d := by
      rw [CoapPDU.getTokenLength, hread (by omega), toNat_lower, tokenLength]
    rw [CoapPDU.getToken, htoken, hpdu, tokenOf, COAP_HDR_SIZE,
      List.drop_append_of_le_length hfixed,
      List.take_append_of_le_length (by rw [List.length_drop]; omega)]
  · rw [hq]
    rfl
  · exact hholds.readOptions (by rw [hq]; rfl)
  · rw [hq]
    rfl

theorem coapCreateRecv_encode (hversion : b.toNat / 64 = 1) (htoken : b.toNat % 16 = token.length)
    (h8 : token.length ≤ 8) (hcode : ValidCode c) (hs : SortedFrom Opt.key 0 opts)
    (hv : ∀ o ∈ opts, o.value.length < 65536) (addr : ℕ) (after : List UInt8) :
    ∃ q, coapCreateRecv addr
        (CoapPDU.encodeMessage (messageHeader b c messageID token) opts payload ++ after)
        (CoapPDU.encodeMessage (messageHeader b c messageID token) opts payload).length =
          .ok (some q) ∧
      q.Tells (b &&& 0x30) c messageID token opts payload := by
  obtain ⟨hm, htype, hcode', hid, htok⟩ := message_encode rfl hversion htoken h8 hcode hs hv
  obtain ⟨q, hrecv, htells, -⟩ := hm.received hv addr after
  rw [htype, hcode', hid, htok] at htells
  exact ⟨q, hrecv, htells⟩

end Receive

end Mbtk.Coap
