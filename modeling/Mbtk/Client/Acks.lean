import Mbtk.Client.Effects

namespace Mbtk.Client

open Lib Coap CoapPDU

/-- An ACK for the request with an ID that carries one Block2 option, of the bytes `value`, and
no Uri-Path. -/
structure BlockAck (d : List UInt8) (messageId : UInt16) (value : List UInt8) : Prop where
  length : d.length ≤ 65535
  type : typeOf d = CoapType.acknowledgement.value
  messageId : messageIdOf d = messageId
  message : ∃ opts pay, Message d opts pay ∧
    opts.filter (·.number = COAP_OPTION_BLOCK2) = [⟨COAP_OPTION_BLOCK2, value⟩] ∧
    opts.filter (·.number = COAP_OPTION_URI_PATH) = []

def recvBlock (value : List UInt8) : Option RecvBlock :=
  if value = [] then none
  else decodeBlock2 (UInt16.ofNat value.length) (value ++ List.replicate (10 - value.length) 0)

section

variable {d value : List UInt8} {messageId : UInt16}

theorem block2_of_holds {p : CoapPDU} {hdr pay : List UInt8} {opts : List Opt}
    (h : p.Holds hdr opts pay) (hnum : p.numOptions = opts.length)
    (hblock : opts.filter (·.number = COAP_OPTION_BLOCK2) = [⟨COAP_OPTION_BLOCK2, value⟩])
    (hlen : value.length ≤ 10) : p.coapGetRecvOptionBlock2 = .ok (recvBlock value) := by
  have hfit : value.length ≤ (List.replicate 10 (0 : UInt8)).length := by simpa using hlen
  rw [coapGetRecvOptionBlock2, recvBuff, h.getOptionValueById hnum, hblock, List.foldlM_cons,
    if_pos hfit, ok_bind, List.foldlM_nil, pure_eq_ok, ok_bind]
  dsimp only
  rw [List.drop_replicate, recvBlock]
  by_cases hnil : value = []
  · subst hnil
    rfl
  · have hpos := List.length_pos_iff.mpr hnil
    have hgt : UInt16.ofNat value.length > 0 := by
      rw [gt_iff_lt, UInt16.lt_iff_toNat_lt, UInt16.toNat_ofNat']
      change 0 < _
      omega
    rw [if_pos hgt, if_neg hnil]
    rfl

theorem uriPath_of_holds {p : CoapPDU} {hdr pay : List UInt8} {opts : List Opt}
    (h : p.Holds hdr opts pay) (hnum : p.numOptions = opts.length)
    (hpath : opts.filter (·.number = COAP_OPTION_URI_PATH) = []) (dst : List UInt8) :
    p.coapGetRecvOptionUriPath .uriPath dst = .ok (0, dst) := by
  rw [coapGetRecvOptionUriPath, recvString, h.getOptionValueById hnum, hpath]
  rfl

theorem State.readCb_blockAck (s : State) (h : BlockAck d messageId value)
    (hvalue : value.length ≤ 3) (addr : ℕ) (after : List UInt8) (complete : Bool) :
    s.readCb addr d after complete =
      match getByMsgId s.coaps messageId with
      | none => .ok s
      | some item =>
        match recvBlock value with
        | some block =>
          if block.moreFlag ≠ 0 then s.continueBlock item block complete
          else s.listDel messageId
        | none => s.listDel messageId := by
  obtain ⟨opts, pay, hm, hblock, hpath⟩ := h.message
  obtain ⟨p, hrecv, htells, hholds⟩ := hm.received (hm.short h.length) addr after
  have hne : d ≠ [] := by
    rintro rfl
    exact absurd hm.fixed (by decide)
  have hnum : p.numOptions = opts.length := htells.numOptions
  have htype : p.getType = CoapType.acknowledgement.value := htells.type.trans h.type
  have hid : p.getMessageID = messageId := htells.messageID.trans h.messageId
  have h8 := getTokenLength_le hne hrecv
  rw [State.readCb, if_pos (List.length_pos_iff.mpr hne), hrecv, ok_bind]
  dsimp only
  rw [State.resolve, copyToken, if_pos (by omega), ok_bind, uriPath_of_holds hholds hnum hpath,
    ok_bind, if_neg (by rw [htype]; decide), if_neg (by rw [htype]; decide), if_pos htype,
    State.resolveAck, hid]
  cases getByMsgId s.coaps messageId with
  | none => rfl
  | some item =>
    dsimp only
    have hfield := block2_of_holds hholds hnum hblock (show value.length ≤ 10 by omega)
    cases hrecvBlock : recvBlock value <;> simp only [hfield, ok_bind, hrecvBlock]

theorem State.readCb_more {s : State} {item : Item} {block : RecvBlock} {addr : ℕ}
    {after : List UInt8} {complete : Bool} (h : BlockAck d messageId value)
    (hvalue : value.length ≤ 3) (hfound : getByMsgId s.coaps messageId = some item)
    (hblock : recvBlock value = some block) (hmore : block.moreFlag ≠ 0) :
    s.readCb addr d after complete = s.continueBlock item block complete := by
  rw [State.readCb_blockAck s h hvalue, hfound, hblock]
  exact if_pos hmore

theorem State.readCb_last {s : State} {item : Item} {block : RecvBlock} {addr : ℕ}
    {after : List UInt8} {complete : Bool} (h : BlockAck d messageId value)
    (hvalue : value.length ≤ 3) (hfound : getByMsgId s.coaps messageId = some item)
    (hblock : recvBlock value = some block) (hmore : block.moreFlag = 0) :
    s.readCb addr d after complete = s.listDel messageId := by
  rw [State.readCb_blockAck s h hvalue, hfound, hblock]
  exact if_neg (not_not.mpr hmore)

end

/-- The ACK with code 2.05 for a request, with a Block2 option of the bytes `value`. -/
def blockAck (messageId : UInt16) (value : List UInt8) : List UInt8 :=
  encodeMessage (messageHeader 0x60 0x45 messageId []) [⟨COAP_OPTION_BLOCK2, value⟩] []

theorem blockAck_encode (messageId : UInt16) {value : List UInt8} (h : value.length ≤ 3) :
    BlockAck (blockAck messageId value) messageId value := by
  have hsorted : SortedFrom Opt.key 0 [⟨COAP_OPTION_BLOCK2, value⟩] := ⟨Nat.zero_le _, trivial⟩
  obtain ⟨hm, htype, -, hid, -⟩ := message_encode
    (show blockAck messageId value =
      encodeMessage (messageHeader 0x60 0x45 messageId [])
        [⟨COAP_OPTION_BLOCK2, value⟩] [] from rfl)
    (by decide) (by decide) (by decide) (by decide) hsorted (by simp; omega)
  have hoptions := length_encodeOptions_le
    (show ∀ o ∈ [(⟨COAP_OPTION_BLOCK2, value⟩ : Opt)], o.value.length ≤ 3 by simpa using h) 0
  refine ⟨?_, htype, hid, _, _, hm, by simp, by simp [COAP_OPTION_BLOCK2, COAP_OPTION_URI_PATH]⟩
  rw [List.length_singleton] at hoptions
  rw [blockAck, length_encodeMessage, length_messageHeader, encodePayload_nil, List.length_nil]
  omega

end Mbtk.Client
