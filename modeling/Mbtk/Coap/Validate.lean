import Mbtk.Coap.Misread

namespace Mbtk.Coap

open Lib Lib.ExtNat

/-- The code values of the enumeration, with every method class value. -/
def ValidCode (c : UInt8) : Prop :=
  c ≤ 0x1F ∨ (0x41 ≤ c ∧ c ≤ 0x45) ∨ c = 0x5F ∨ (0x80 ≤ c ∧ c ≤ 0x86) ∨
    (0x8C ≤ c ∧ c ≤ 0x8D) ∨ c = 0x8F ∨ (0xA0 ≤ c ∧ c ≤ 0xA5)

instance (c : UInt8) : Decidable (ValidCode c) := by
  unfold ValidCode
  infer_instance

theorem codeAccepted_iff (c : UInt8) : codeAccepted c = true ↔ ValidCode c := by
  have h5F : c = 0x5F ↔ c.toNat = 0x5F := UInt8.toNat_inj.symm
  have h8E : c = 0x8E ↔ c.toNat = 0x8E := UInt8.toNat_inj.symm
  have h8F : c = 0x8F ↔ c.toNat = 0x8F := UInt8.toNat_inj.symm
  simp only [codeAccepted, ValidCode, Bool.not_eq_true', Bool.or_eq_false_iff,
    Bool.and_eq_false_iff, decide_eq_false_iff_not, beq_eq_false_iff_ne, ne_eq, gt_iff_lt,
    UInt8.lt_iff_toNat_lt, UInt8.le_iff_toNat_le, h5F, h8E, h8F]
  have hc := c.toNat_lt
  simp only [UInt8.reduceToNat]
  omega

def tokenLength (d : List UInt8) : ℕ := (d.getD 0 0).toNat % 16

/-- The option region of a datagram. -/
def optionRegion (d : List UInt8) : List UInt8 := d.drop (COAP_HDR_SIZE + tokenLength d)

/-- The fixed header of a datagram is in order and its token lies inside it. -/
structure HeaderOk (d : List UInt8) : Prop where
  fixed : COAP_HDR_SIZE ≤ d.length
  version : (d.getD 0 0).toNat / 64 = 1
  token : tokenLength d ≤ 8
  tokenFits : COAP_HDR_SIZE + tokenLength d ≤ d.length
  code : ValidCode (d.getD 1 0)

/-- `d` is the CoAP message with the options `opts` and the payload `pay`. -/
structure Message (d : List UInt8) (opts : List Opt) (pay : List UInt8) : Prop
    extends HeaderOk d where
  options : ParsesOptions 0 (optionRegion d) opts pay

namespace CoapPDU

section

variable {p : CoapPDU} {d after : List UInt8}

theorem read_of_pdu (hp : p.pdu = d ++ after) {i : ℕ} (hi : i < d.length) :
    p.read i = d.getD i 0 := by
  rw [read, hp, List.getD_eq_getElem?_getD, List.getD_eq_getElem?_getD,
    List.getElem?_append_left hi]

theorem validate_of_headerOk (hp : p.pdu = d ++ after) (hlen : p.pduLength = d.length)
    (h : HeaderOk d) :
    p.validate =
      if COAP_HDR_SIZE + tokenLength d = d.length then
        ({ p with numOptions := 0, payloadLength := 0 }, true)
      else p.validateLoop (d.length + 1) (COAP_HDR_SIZE + tokenLength d)
        (d.length - (COAP_HDR_SIZE + tokenLength d : ℕ) : ℤ) 0 0 := by
  have hfixed := h.fixed
  rw [COAP_HDR_SIZE] at hfixed
  have hversion : p.getVersion = 1 := by
    apply UInt8.toNat_inj.mp
    rw [getVersion, read_of_pdu hp (by omega), toNat_top_bits, h.version]
    rfl
  have htoken : p.getTokenLength = tokenLength d := by
    rw [getTokenLength, read_of_pdu hp (by omega), toNat_lower, tokenLength]
  have hcode : codeAccepted p.getCode = true := by
    rw [getCode, read_of_pdu hp (by omega)]
    exact (codeAccepted_iff _).mpr h.code
  have h8 := h.token
  have hfits := h.tokenFits
  rw [validate, htoken, hlen, hcode, if_neg (by omega), if_neg (by simp [hversion]),
    if_neg (by omega), if_neg (by omega), if_neg (by simp)]

theorem validate_of_not_headerOk (hp : p.pdu = d ++ after) (hlen : p.pduLength = d.length)
    (h : ¬ HeaderOk d) : p.validate = (p, false) := by
  unfold validate
  split_ifs with h₁ h₂ h₃ h₄ h₅
  all_goals try rfl
  all_goals
    refine absurd ?_ h
    have hfixed : 4 ≤ d.length := by omega
    have htoken : p.getTokenLength = tokenLength d := by
      rw [getTokenLength, read_of_pdu hp (by omega), toNat_lower, tokenLength]
    have hversion := congrArg UInt8.toNat (not_not.mp h₂)
    rw [getVersion, read_of_pdu hp (by omega), toNat_top_bits] at hversion
    rw [getCode, read_of_pdu hp (by omega), Bool.not_eq_true', Bool.not_eq_false] at h₅
    exact ⟨hfixed, hversion, by omega, by omega, (codeAccepted_iff _).mp h₅⟩

theorem validate_of_walk (hp : p.pdu = d ++ after) (hlen : p.pduLength = d.length)
    (hptr : p.payloadPointer = none) (h : HeaderOk d) {steps : List (ℕ × ℕ)} {pay : List UInt8}
    (hw : Walk after (optionRegion d) steps pay) :
    p.validate = (p.walked steps.length pay, true) := by
  have hfits := h.tokenFits
  have hregion : (optionRegion d).length = d.length - (COAP_HDR_SIZE + tokenLength d) :=
    List.length_drop
  rw [validate_of_headerOk hp hlen h]
  split_ifs with hend
  · rw [optionRegion, hend, List.drop_length] at hw
    cases hw
    rw [walked, ← hptr]
    rfl
  · have hpre : (d.take (COAP_HDR_SIZE + tokenLength d)).length =
        COAP_HDR_SIZE + tokenLength d := by
      rw [List.length_take]
      omega
    have hp' : p.pdu = d.take (COAP_HDR_SIZE + tokenLength d) ++ (optionRegion d ++ after) := by
      rw [hp, ← List.append_assoc, optionRegion, List.take_append_drop]
    have := validateLoop_of_walk hw hp' (by omega)
      (show (optionRegion d).length < d.length + 1 by omega) 0 0
    rw [hpre, hregion] at this
    rw [← Nat.zero_add steps.length, ← this]
    congr 1
    omega

theorem exists_walk_of_validate (hp : p.pdu = d ++ after) (hlen : p.pduLength = d.length)
    (hacc : p.validate.2 = true) :
    HeaderOk d ∧ ∃ steps pay, Walk after (optionRegion d) steps pay := by
  by_cases h : HeaderOk d
  · refine ⟨h, ?_⟩
    have hfits := h.tokenFits
    have hregion : (optionRegion d).length = d.length - (COAP_HDR_SIZE + tokenLength d) :=
      List.length_drop
    rw [validate_of_headerOk hp hlen h] at hacc
    split_ifs at hacc with hend
    · rw [optionRegion, hend, List.drop_length]
      exact ⟨[], [], .done⟩
    · have hpre : (d.take (COAP_HDR_SIZE + tokenLength d)).length =
          COAP_HDR_SIZE + tokenLength d := by
        rw [List.length_take]
        omega
      have hp' : p.pdu = d.take (COAP_HDR_SIZE + tokenLength d) ++ (optionRegion d ++ after) := by
        rw [hp, ← List.append_assoc, optionRegion, List.take_append_drop]
      have hloop : (p.validateLoop (d.length + 1) (d.take (COAP_HDR_SIZE + tokenLength d)).length
          ((optionRegion d).length : ℤ) 0 0).2 = true := by
        rw [hpre, hregion, ← hacc]
        congr 3
        omega
      exact exists_walk_of_validateLoop hp' (by omega) hloop
  · rw [validate_of_not_headerOk hp hlen h] at hacc
    exact absurd hacc (by simp)

end

end CoapPDU

theorem Message.of_walk {d after pay : List UInt8} {steps : List (ℕ × ℕ)} (h : HeaderOk d)
    (hw : Walk after (optionRegion d) steps pay) (hfits : Fits 0 steps) :
    ∃ opts, Message d opts pay ∧ opts.length = steps.length := by
  obtain ⟨opts, hopts, hlen⟩ := hw.parses hfits
  exact ⟨opts, ⟨h, hopts⟩, hlen⟩

theorem ParsesOptions.value_length_le {k : ℕ} {bs pay : List UInt8} {opts : List Opt}
    (h : ParsesOptions k bs opts pay) : ∀ o ∈ opts, o.value.length ≤ bs.length := by
  induction h with
  | done => simp
  | payload => simp
  | option _ _ _ _ ih =>
    intro o ho
    simp only [List.length_cons, List.length_append]
    obtain rfl | ho := List.mem_cons.mp ho
    · dsimp only
      omega
    · have := ih o ho
      omega

theorem Message.walk {d pay : List UInt8} {opts : List Opt} (h : Message d opts pay)
    (hlen : d.length ≤ 65535) (after : List UInt8) :
    Walk after (optionRegion d) (optionSteps 0 opts) pay ∧ Fits 0 (optionSteps 0 opts) := by
  have hshort : ∀ o ∈ opts, o.value.length < 65536 := by
    intro o ho
    have hle := h.options.value_length_le o ho
    have : (optionRegion d).length ≤ d.length := by
      rw [optionRegion, List.length_drop]
      omega
    omega
  exact ⟨h.options.walk hshort after, fits_optionSteps (by omega) h.options.encode.2.1 hshort⟩

/-- `coapCreateRecv` of the datagram `d`, which lies at `addr` with `after` behind it,
succeeds exactly for CoAP messages, and then its counters are those of the message. -/
def RecvCorrect (addr : ℕ) (d after : List UInt8) : Prop :=
  ∃ res, coapCreateRecv addr (d ++ after) d.length = .ok res ∧
    (res.isSome ↔ ∃ opts pay, Message d opts pay) ∧
    ∀ p ∈ res, ∀ opts pay, Message d opts pay →
      p.getNumOptions = opts.length ∧ p.getPayloadLength = pay.length ∧
        p.getPayloadPointer =
          if pay = [] then none else some (addr + (d.length - pay.length))

/-- The object that `coapCreateRecv` makes for a datagram with a header. -/
def received (addr : ℕ) (d after : List UInt8) : CoapPDU :=
  { addr
    pdu := d ++ after
    pduLength := d.length
    constructedFromBuffer := true
    bufferLength := d.length
    payloadPointer := none
    payloadLength := 0
    numOptions := 0
    maxAddedOptionNumber := 0
    heap := fun _ => none }

theorem coapCreateRecv_eq {addr : ℕ} {d : List UInt8} (after : List UInt8) (hd : d ≠ []) :
    coapCreateRecv addr (d ++ after) d.length =
      .ok (if (received addr d after).validate.2 then some (received addr d after).validate.1
        else none) := by
  have hlen : d.length ≠ 0 := fun h => hd (List.length_eq_zero_iff.mp h)
  rw [coapCreateRecv, CoapPDU.ofBuffer, if_neg hlen, if_neg hlen, ok_bind]
  obtain ⟨q, b, hvalid⟩ : ∃ q b, (received addr d after).validate = (q, b) := ⟨_, _, rfl⟩
  rw [hvalid]
  unfold received at hvalid
  rw [hvalid]
  cases b <;> rfl

theorem ofBuffer_nil (addr : ℕ) (a b c e : UInt8) (after : List UInt8) :
    CoapPDU.ofBuffer addr (a :: b :: c :: e :: after) 0 0 =
      .ok { received addr [0x40, 0, 0, 0] after with bufferLength := 0 } := by
  simp [CoapPDU.ofBuffer, CoapPDU.memcpy, CoapPDU.setVersion, CoapPDU.write, CoapPDU.read]
  exact ⟨rfl, rfl, rfl, rfl, rfl, rfl, rfl, rfl, rfl⟩

theorem not_recvCorrect_nil (addr : ℕ) (after : List UInt8) : ¬ RecvCorrect addr [] after := by
  rintro ⟨res, hres, hiff, -⟩
  have hno : ¬ ∃ opts pay, Message [] opts pay := by
    rintro ⟨opts, pay, h⟩
    exact absurd h.fixed (by decide)
  have hsome : res.isSome = true := by
    match after, hres with
    | a :: b :: c :: e :: after, hres =>
      have hhead : HeaderOk [0x40, 0, 0, 0] := by constructor <;> decide
      have hvalid := CoapPDU.validate_of_walk
        (p := { received addr [0x40, 0, 0, 0] after with bufferLength := 0 })
        rfl rfl rfl hhead (.done : Walk after (optionRegion [0x40, 0, 0, 0]) [] [])
      rw [coapCreateRecv, List.nil_append, List.length_nil, ofBuffer_nil, ok_bind, hvalid] at hres
      rw [← Except.ok.inj hres]
      rfl
    | [], hres => simp [coapCreateRecv, CoapPDU.ofBuffer, CoapPDU.memcpy] at hres
    | [a], hres => simp [coapCreateRecv, CoapPDU.ofBuffer, CoapPDU.memcpy] at hres
    | [a, b], hres => simp [coapCreateRecv, CoapPDU.ofBuffer, CoapPDU.memcpy] at hres
    | [a, b, c], hres => simp [coapCreateRecv, CoapPDU.ofBuffer, CoapPDU.memcpy] at hres
  exact hno (hiff.mp hsome)

theorem Message.not_misreads {d pay : List UInt8} {opts : List Opt} (h : Message d opts pay)
    (hlen : d.length ≤ 65535) (after : List UInt8) : ¬ Misreads after 0 (optionRegion d) := by
  obtain ⟨hw, hfits⟩ := h.walk hlen after
  rw [misreads_iff (Nat.zero_le _)]
  rintro ⟨steps, pay', hw', hno⟩
  obtain ⟨rfl, -⟩ := hw.unique hw'
  exact hno hfits

/-- Exactly the datagrams that have no option which outgrows 16 bits, or behind such an option no
sequence of options, are told apart right. -/
theorem recvCorrect_iff (addr : ℕ) (d after : List UInt8) (hlen : d.length ≤ 65535) :
    RecvCorrect addr d after ↔
      d ≠ [] ∧ ¬ (HeaderOk d ∧ Misreads after 0 (optionRegion d)) := by
  by_cases hd : d = []
  · subst hd
    simpa using not_recvCorrect_nil addr after
  · rw [and_iff_right hd]
    constructor
    · rintro ⟨res, hres, hiff, -⟩ ⟨hhead, hmis⟩
      obtain ⟨steps, pay, hw, hfits⟩ := (misreads_iff (Nat.zero_le _)).mp hmis
      rw [coapCreateRecv_eq after hd, CoapPDU.validate_of_walk rfl rfl rfl hhead hw] at hres
      have hsome : res.isSome = true := by
        rw [← Except.ok.inj hres]
        rfl
      obtain ⟨opts, pay', hm⟩ := hiff.mp hsome
      exact hm.not_misreads hlen after hmis
    · intro hwrap
      refine ⟨_, coapCreateRecv_eq after hd, ⟨fun hsome => ?_, ?_⟩, ?_⟩
      · have hacc : (received addr d after).validate.2 = true := by
          by_contra hacc
          rw [if_neg hacc] at hsome
          exact absurd hsome (by simp)
        obtain ⟨hhead, steps, pay, hw⟩ := CoapPDU.exists_walk_of_validate rfl rfl hacc
        have hfits : Fits 0 steps := not_not.mp fun hfits =>
          hwrap ⟨hhead, (misreads_iff (Nat.zero_le _)).mpr ⟨steps, pay, hw, hfits⟩⟩
        obtain ⟨opts, hm, -⟩ := Message.of_walk hhead hw hfits
        exact ⟨opts, pay, hm⟩
      · rintro ⟨opts, pay, hm⟩
        rw [CoapPDU.validate_of_walk rfl rfl rfl hm.toHeaderOk (hm.walk hlen after).1]
        rfl
      · intro p hp opts pay hm
        rw [CoapPDU.validate_of_walk rfl rfl rfl hm.toHeaderOk (hm.walk hlen after).1] at hp
        obtain rfl : (received addr d after).walked _ pay = p := by simpa using hp
        exact ⟨rfl, rfl, rfl⟩

/-- A request with a token, three options, of which two have extended distances, and a payload. -/
def sampleDatagram : List UInt8 :=
  [0x41, 0x01, 0x12, 0x34, 0x77, 0xB1, 0x61, 0xD1, 0x03, 0x08, 0xE0, 0x00, 0x0A, 0xFF, 0x68, 0x69]

theorem message_sampleDatagram :
    Message sampleDatagram [⟨11, [0x61]⟩, ⟨27, [0x08]⟩, ⟨306, []⟩] [0x68, 0x69] where
  fixed := by decide
  version := by decide
  token := by decide
  tokenFits := by decide
  code := by decide
  options :=
    have hbytes : optionRegion sampleDatagram =
        encodeOptions 0 [⟨11, [0x61]⟩, ⟨27, [0x08]⟩, ⟨306, []⟩] ++ encodePayload [0x68, 0x69] := by
      decide
    hbytes ▸ parsesOptions_encode _ ⟨by decide, by decide, by decide, trivial⟩ (by decide)

theorem recvCorrect_sampleDatagram : RecvCorrect 0 sampleDatagram [0xFE] :=
  (recvCorrect_iff 0 sampleDatagram [0xFE] (by decide)).mpr
    ⟨by decide, fun h => message_sampleDatagram.not_misreads (by decide) [0xFE] h.2⟩

/-- An option distance of 65549 is read as 13 and the second of its two extension bytes as
another option. -/
theorem not_recvCorrect_wrapped :
    ¬ RecvCorrect 0 [0x40, 0x01, 0x00, 0x01, 0xE0, 0xFF, 0x00] [] := by
  have hwalk : Walk [] [0xE0, 0xFF, 0x00] [(65549, 0), (0, 0)] [] :=
    .option (h := 0xE0) (t := [0xFF, 0x00]) (by decide) (by decide) (by decide) (by decide)
      (.option (h := 0x00) (t := []) (by decide) (by decide) (by decide) (by decide) .done)
  have hhead : HeaderOk [0x40, 0x01, 0x00, 0x01, 0xE0, 0xFF, 0x00] := by constructor <;> decide
  rintro ⟨res, hres, hiff, -⟩
  rw [coapCreateRecv_eq [] (by simp), CoapPDU.validate_of_walk rfl rfl rfl hhead hwalk] at hres
  have hsome : res.isSome = true := by
    rw [← Except.ok.inj hres]
    rfl
  obtain ⟨opts, pay, hm⟩ := hiff.mp hsome
  obtain ⟨hw, hfits⟩ := hm.walk (by decide) []
  obtain ⟨hsteps, -⟩ := hw.unique hwalk
  rw [hsteps] at hfits
  exact absurd hfits.1 (by decide)

end Mbtk.Coap
