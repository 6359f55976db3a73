import Mbtk.Client.Buffers
import Mbtk.Client.SentOptions

namespace Mbtk.Client

open Lib Coap CoapPDU

/-- A datagram is a proper ACK for a received message: one with a code says no more than the
token, and an Empty one is the fixed header alone. -/
structure ProperAck (p : CoapPDU) (datagram : List UInt8) : Prop where
  version : (datagram.getD 0 0).toNat / 64 = 1
  type : typeOf datagram = CoapType.acknowledgement.value
  messageId : messageIdOf datagram = p.getMessageID
  coded : codeOf datagram ≠ COAP_EMPTY → Message datagram [] [] ∧ tokenOf datagram = p.getToken
  empty : codeOf datagram = COAP_EMPTY → datagram.length = COAP_HDR_SIZE

/-- The only thing that a datagram brings about on the network is a proper ACK. -/
def State.Acks (s : State) (addr : ℕ) (d after : List UInt8) (complete : Bool) (p : CoapPDU) :
    Prop :=
  ∃ t datagram, s.readCb addr d after complete = .ok t ∧ t.sent = s.sent ++ [⟨none, datagram⟩] ∧
    ProperAck p datagram

/-- Every Uri-Path option fits the array for it, and a token comes with a method that is
answered by a code. -/
def Ackable (p : CoapPDU) : Prop :=
  p.FitsArray COAP_OPTION_URI_PATH 100 ∧
    (p.getToken = [] ∨ p.getCode = COAP_POST ∨ p.getCode = COAP_PUT)

section Ack

variable {s t : State} {g : SharedPDU} {code : UInt8} {messageId : UInt16} {token : List UInt8}

def ackMessage (code : UInt8) (messageId : UInt16) (token : List UInt8) : List UInt8 :=
  messageHeader (firstByte 1 .acknowledgement token.length) (ackCode code) messageId token

theorem sendAck_eq (hg : g.Idle) (code : UInt8) (messageId : UInt16) (h8 : token.length ≤ 8) :
    ∃ q, q.Idle ∧ sendAck g code messageId token =
      .ok (.created q, ackMessage code messageId token) := by
  obtain ⟨p, hhead, hp⟩ := sendAckHeader_building hg code messageId
  obtain ⟨q, htoken, hq⟩ := coapSetToken_building hp h8
  refine ⟨q, hq.toIdle, ?_⟩
  have hbytes : encodeMessage (ackMessage code messageId token) [] [] =
      ackMessage code messageId token := List.append_nil _
  have hhand : handedOver q = ackMessage code messageId token := by
    have hlen := hq.holds.pduLength_eq
    have hall := hq.holds.bytes_eq
    rw [ackMessage] at hbytes
    rw [hbytes] at hlen hall
    rw [length_messageHeader] at hlen
    rw [handedOver, getPDULength, Nat.mod_eq_of_lt (by omega), ackMessage, ← hall]
    rfl
  rw [sendAck, buildAck, hhead, ok_bind, htoken, ok_bind, hhand]
  rfl

theorem ackCode_eq_empty_iff (code : UInt8) :
    ackCode code = COAP_EMPTY ↔ ¬ (code = COAP_POST ∨ code = COAP_PUT) := by
  unfold ackCode
  split_ifs with h
  · exact iff_of_false (by decide) (not_not.mpr h)
  · exact iff_of_true rfl h

theorem ackMessage_parts (code : UInt8) (messageId : UInt16) (h8 : token.length ≤ 8) :
    ((ackMessage code messageId token).getD 0 0).toNat / 64 = 1 ∧
      typeOf (ackMessage code messageId token) = CoapType.acknowledgement.value ∧
      codeOf (ackMessage code messageId token) = ackCode code ∧
      messageIdOf (ackMessage code messageId token) = messageId ∧
      tokenOf (ackMessage code messageId token) = token ∧
      Message (ackMessage code messageId token) [] [] := by
  obtain ⟨hversion, htoken, htype⟩ := firstByte_fields .acknowledgement h8
  have hcode : ValidCode (ackCode code) := by
    unfold ackCode
    split_ifs <;> decide
  have hbytes : ackMessage code messageId token = encodeMessage
      (messageHeader (firstByte 1 .acknowledgement token.length) (ackCode code) messageId token)
      [] [] := (List.append_nil _).symm
  obtain ⟨hm, htypeOf, hcodeOf, hidOf, htokenOf⟩ := message_encode hbytes hversion htoken h8 hcode
    trivial (by simp)
  exact ⟨hversion, htypeOf.trans htype, hcodeOf, hidOf, htokenOf, hm⟩

/-- An ACK is proper unless it is an Empty one with a token. -/
theorem properAck_iff {p : CoapPDU} (h8 : p.getToken.length ≤ 8) :
    ProperAck p (ackMessage p.getCode p.getMessageID p.getToken) ↔
      p.getToken = [] ∨ p.getCode = COAP_POST ∨ p.getCode = COAP_PUT := by
  obtain ⟨hversion, htype, hcode, hid, htoken, hm⟩ :=
    ackMessage_parts p.getCode p.getMessageID h8
  have hlen : (ackMessage p.getCode p.getMessageID p.getToken).length =
      COAP_HDR_SIZE + p.getToken.length := by
    rw [ackMessage, length_messageHeader, COAP_HDR_SIZE]
  constructor
  · intro h
    by_cases hempty : ackCode p.getCode = COAP_EMPTY
    · have := h.empty (hcode.trans hempty)
      exact .inl (List.length_eq_zero_iff.mp (by omega))
    · exact .inr (by_contra fun hno => hempty ((ackCode_eq_empty_iff _).mpr hno))
  · intro h
    refine ⟨hversion, htype, hid, fun _ => ⟨hm, htoken⟩, fun hempty => ?_⟩
    rw [hcode, ackCode_eq_empty_iff] at hempty
    obtain hnil | hmethod := h
    · rw [hlen, hnil, List.length_nil, Nat.add_zero]
    · exact absurd hmethod hempty

end Ack

section Reply

variable {s t : State} {addr : ℕ} {d after : List UInt8} {complete : Bool} {p : CoapPDU}

theorem State.readCb_confirmable (hs : s.Sound) (hd : d ≠ [])
    (hrecv : coapCreateRecv addr (d ++ after) d.length = .ok (some p))
    (htype : p.getType = CoapType.confirmable.value)
    (hpath : p.FitsArray COAP_OPTION_URI_PATH 100) :
    ∃ q, s.readCb addr d after complete =
      .ok (s.acked (ackMessage p.getCode p.getMessageID p.getToken) q) := by
  have h8 := getTokenLength_le hd hrecv
  have htoken : p.getToken.length ≤ 8 := by
    rw [getToken, List.length_take]
    omega
  have hfits : p.FitsArray COAP_OPTION_URI_PATH (List.replicate 100 (0 : UInt8)).length := by
    simpa using hpath
  obtain ⟨r, hr⟩ := getOptionValueById_ok .uriPath hfits
  obtain ⟨q, -, hsend⟩ := sendAck_eq hs.idle p.getCode p.getMessageID htoken
  refine ⟨q, ?_⟩
  rw [State.readCb_of_received hd hrecv, State.resolve, copyToken_ok h8, ok_bind,
    coapGetRecvOptionUriPath, recvString, hr, ok_bind, if_pos htype, hsend]
  rfl

theorem State.acks_iff (hs : s.Sound) (hd : d ≠ [])
    (hrecv : coapCreateRecv addr (d ++ after) d.length = .ok (some p))
    (htype : p.getType = CoapType.confirmable.value) :
    s.Acks addr d after complete p ↔ Ackable p := by
  have h8 := getTokenLength_le hd hrecv
  have htoken : p.getToken.length ≤ 8 := by
    rw [getToken, List.length_take]
    omega
  by_cases hpath : p.FitsArray COAP_OPTION_URI_PATH 100
  · obtain ⟨q, hread⟩ : ∃ q, s.readCb addr d after complete =
        .ok (s.acked (ackMessage p.getCode p.getMessageID p.getToken) q) :=
      State.readCb_confirmable hs hd hrecv htype hpath
    rw [Ackable, and_iff_right hpath, ← properAck_iff htoken]
    constructor
    · rintro ⟨t, datagram, hstep, hsent, hproper⟩
      obtain rfl := Except.ok.inj (hread.symm.trans hstep)
      obtain rfl : ackMessage p.getCode p.getMessageID p.getToken = datagram := by
        simpa [State.acked] using hsent
      exact hproper
    · exact fun hproper => ⟨_, _, hread, rfl, hproper⟩
  · refine iff_of_false ?_ fun h => hpath h.1
    rintro ⟨t, datagram, hstep, -⟩
    rw [State.readCb_of_received hd hrecv, State.resolve_overrun h8 hpath] at hstep
    exact absurd hstep (by simp)

theorem State.resolveAck_sent (hs : s.Sound) (h : s.resolveAck p complete = .ok t) :
    t.sent = s.sent ∨ ∃ (item : Item) (block : Option OptionBlock) (uri : Option (Bytes 128)),
      item.package.Regular block uri ∧
      t.sent = s.sent ++ [⟨some item.serial, item.package.message⟩] := by
  unfold State.resolveAck at h
  cases hfound : getByMsgId s.coaps p.getMessageID with
  | none =>
    rw [hfound] at h
    exact .inl (congrArg State.sent (Except.ok.inj h).symm)
  | some item =>
    rw [hfound] at h
    obtain ⟨found, -, h⟩ := bind_eq_ok.mp h
    cases found with
    | none =>
      obtain rfl := State.eq_deleted hfound h
      exact .inl rfl
    | some block =>
      dsimp only at h
      split_ifs at h with hmore
      · obtain ⟨first, uri, hreg⟩ := hs.regular item (mem_of_getByMsgId hfound).1
        obtain ⟨q, -, hcont⟩ := State.continueBlock_eq hs.idle hreg block complete
        rw [hcont] at h
        exact .inr ⟨_, _, uri, Item.regular_counted (regular_next hreg s.messageId block) complete,
          congrArg State.sent (Except.ok.inj h).symm⟩
      · obtain rfl := State.eq_deleted hfound h
        exact .inl rfl

theorem State.no_ack (hs : s.Sound) (hd : d ≠ [])
    (hrecv : coapCreateRecv addr (d ++ after) d.length = .ok (some p))
    (htype : p.getType ≠ CoapType.confirmable.value)
    (hstep : s.readCb addr d after complete = .ok t) :
    ∃ new, t.sent = s.sent ++ new ∧
      ∀ sent ∈ new, typeOf sent.datagram ≠ CoapType.acknowledgement.value := by
  rw [State.readCb_of_received hd hrecv] at hstep
  obtain ⟨token, -, hstep⟩ := bind_eq_ok.mp hstep
  obtain ⟨path, -, hstep⟩ := bind_eq_ok.mp hstep
  rw [if_neg htype] at hstep
  split_ifs at hstep with hnon hack
  · obtain rfl := Except.ok.inj hstep
    exact ⟨[], by simp, by simp⟩
  · obtain hsent | ⟨item, block, uri, hreg, hsent⟩ := State.resolveAck_sent hs hstep
    · exact ⟨[], by simp [hsent], by simp⟩
    · refine ⟨_, hsent, fun sent hmem => ?_⟩
      obtain rfl := List.mem_singleton.mp hmem
      rw [hreg.message_parts.2.1]
      decide
  · obtain rfl := Except.ok.inj hstep
    exact ⟨[], by simp, by simp⟩

end Reply

/-- Whatever was built in the shared PDU before, a Confirmable message is answered by one proper
ACK exactly if its Uri-Path fits and a token comes with POST or PUT, and no other message is
answered by an ACK. -/
theorem State.reply_iff {s : State} (hs : State.system.Reachable s) {g : SharedPDU} (hg : g.Used)
    {addr : ℕ} {d after : List UInt8} {p : CoapPDU} (hd : d ≠ [])
    (hrecv : coapCreateRecv addr (d ++ after) d.length = .ok (some p)) (complete : Bool) :
    (p.getType = CoapType.confirmable.value →
      (State.Acks { s with pdu := g } addr d after complete p ↔ Ackable p)) ∧
    (p.getType ≠ CoapType.confirmable.value → ∀ t,
      State.readCb { s with pdu := g } addr d after complete = .ok t →
      ∃ new, t.sent = s.sent ++ new ∧
        ∀ sent ∈ new, typeOf sent.datagram ≠ CoapType.acknowledgement.value) := by
  have hs := State.sound_of_reachable hs
  have hsound : State.Sound { s with pdu := g } := ⟨hg.idle, hs.serials, hs.allocated, hs.regular⟩
  exact ⟨State.acks_iff hsound hd hrecv, fun htype t => State.no_ack hsound hd hrecv htype⟩

/-- A Confirmable message without options, with a token of one byte. -/
def sampleMessage (code : UInt8) : List UInt8 := [0x41, code, 0x00, 0x07, 0xAA]

theorem received_sampleMessage {code : UInt8} (hcode : ValidCode code) :
    ∃ p, coapCreateRecv 0 (sampleMessage code ++ []) (sampleMessage code).length = .ok (some p) ∧
      p.getType = CoapType.confirmable.value ∧ p.getCode = code ∧ p.getToken = [0xAA] ∧
      p.FitsArray COAP_OPTION_URI_PATH 100 := by
  obtain ⟨hm, htype, hcodeOf, -, htoken⟩ := message_encode
    (show sampleMessage code = encodeMessage (messageHeader 0x41 code 7 [0xAA]) [] [] from rfl)
    (by decide) (by decide) (by decide) hcode trivial (by simp)
  obtain ⟨p, hrecv, htells, -⟩ := hm.received (by simp) 0 []
  refine ⟨p, hrecv, htells.type.trans htype, htells.code.trans hcodeOf,
    htells.token.trans htoken, ?_⟩
  have hnil : p.getOptions = [] := List.map_eq_nil_iff.mp htells.options
  simp [FitsArray, hnil]

theorem State.reply_post :
    ∃ p, coapCreateRecv 0 (sampleMessage COAP_POST ++ []) (sampleMessage COAP_POST).length =
        .ok (some p) ∧ State.Acks sampleStart 0 (sampleMessage COAP_POST) [] true p := by
  obtain ⟨p, hrecv, htype, hcode, -, hfits⟩ :=
    received_sampleMessage (show ValidCode COAP_POST by decide)
  exact ⟨p, hrecv, ((State.reply_iff reachable_sampleStart (.null 0 fun _ => rfl)
    (by simp [sampleMessage])
    hrecv true).1 htype).mpr ⟨hfits, .inr (.inl hcode)⟩⟩

/-- `GET` is answered by an Empty message with the token. -/
theorem State.not_reply_get :
    ∃ p, coapCreateRecv 0 (sampleMessage COAP_GET ++ []) (sampleMessage COAP_GET).length =
        .ok (some p) ∧ p.getType = CoapType.confirmable.value ∧
      ¬ State.Acks sampleStart 0 (sampleMessage COAP_GET) [] true p := by
  obtain ⟨p, hrecv, htype, hcode, htoken, -⟩ :=
    received_sampleMessage (show ValidCode COAP_GET by decide)
  refine ⟨p, hrecv, htype, ?_⟩
  rw [State.acks_iff (State.sound_of_reachable reachable_sampleStart) (by simp [sampleMessage])
    hrecv
    htype, Ackable, hcode, htoken]
  exact fun hack => absurd hack.2 (by decide)

end Mbtk.Client
