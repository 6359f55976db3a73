import Mbtk.Client.Package
import Mbtk.Coap.DecodeLaws
import Mbtk.Coap.SetToken

namespace Mbtk.Client

open Lib Coap CoapPDU

/-- The characters of `opt_str`. -/
def CoapOption.str (option : CoapOption) : List UInt8 := option.optStr.1.takeWhile (· ≠ 0)

/-- The number and value pairs that `mbtk_coap_option_add` passes to `addOption`. -/
def optionPairs (option : CoapOption) : List Opt :=
  match option.type with
  | .ifMatch | .uriHost | .etag | .ifNoneMatch | .locationPath | .locationQuery | .proxyUri
  | .proxyScheme | .uriPort | .accept | .size2 | .size1 => []
  | .block2 | .block1 => [⟨option.type.number, blockValue option.optBlock⟩]
  | .maxAge | .observe => [⟨option.type.number, [option.optInt.toUInt8]⟩]
  | .uriQuery => [⟨COAP_OPTION_URI_QUERY, option.str⟩]
  | .uriPath => uriPairs option.str
  | .contentFormat =>
    [⟨COAP_OPTION_CONTENT_FORMAT,
      if option.optContentFormat = 0 then [] else [option.optContentFormat.toUInt8]⟩]

/-- The strings that are read have their NUL inside `opt_str`. -/
def CoapOption.Terminated (option : CoapOption) : Prop :=
  option.type = .uriQuery ∨ option.type = .uriPath → 0 ∈ option.optStr.1

theorem CoapOption.length_str_le (option : CoapOption) : option.str.length ≤ 128 := by
  have h := (List.takeWhile_sublist (· ≠ 0) (l := option.optStr.1)).length_le
  rw [option.optStr.2] at h
  exact h

theorem length_blockValue_le (block : OptionBlock) : (blockValue block).length ≤ 3 := by
  unfold blockValue
  split_ifs <;> simp

theorem optionPairs_short (option : CoapOption) :
    ∀ o ∈ optionPairs option, o.value.length ≤ 268 := by
  have hstr := option.length_str_le
  have hblock := length_blockValue_le option.optBlock
  intro o ho
  cases htype : option.type with
  | uriPath =>
    simp only [optionPairs, htype] at ho
    exact (uriPairs_short option.str o ho).trans (by omega)
  | uriQuery =>
    simp only [optionPairs, htype, List.mem_singleton] at ho
    subst ho
    dsimp only
    omega
  | contentFormat =>
    simp only [optionPairs, htype, List.mem_singleton] at ho
    subst ho
    dsimp only
    split_ifs <;> simp
  | block2 | block1 =>
    simp only [optionPairs, htype, List.mem_singleton] at ho
    subst ho
    dsimp only
    omega
  | maxAge | observe =>
    simp only [optionPairs, htype, List.mem_singleton] at ho
    subst ho
    simp
  | ifMatch | uriHost | etag | ifNoneMatch | uriPort | locationPath | accept | locationQuery
  | size2 | proxyUri | proxyScheme | size1 => simp [optionPairs, htype] at ho

section

variable {p : CoapPDU} {hdr : List UInt8} {opts : List Opt}

theorem cString_of_mem {array : List UInt8} (h : 0 ∈ array) :
    cString array = .ok (array.takeWhile (· ≠ 0)) := by rw [cString, if_pos h]

theorem optionAdd_eq (h : p.Building hdr opts) {option : CoapOption} (hterm : option.Terminated) :
    optionAdd p option = p.addAll (optionPairs option) := by
  cases htype : option.type with
  | uriPath =>
    have hlen := option.length_str_le
    obtain ⟨q, r, hall, hset⟩ := h.setURI (show option.str.length ≤ 268 by omega)
    simp only [optionAdd, optionPairs, htype, cString_of_mem (hterm (.inr htype)), ok_bind]
    rw [← CoapOption.str, hset, hall]
    rfl
  | uriQuery =>
    simp only [optionAdd, optionPairs, htype, cString_of_mem (hterm (.inl htype)), ok_bind]
    rw [← CoapOption.str, addAll_singleton]
    rfl
  | contentFormat =>
    simp only [optionAdd, optionPairs, htype, setContentFormat]
    have hadd := h.addOption COAP_OPTION_CONTENT_FORMAT
      (v := if option.optContentFormat = 0 then [] else [option.optContentFormat.toUInt8])
      (by split_ifs <;> simp)
    obtain ⟨q, hadd, -⟩ := hadd
    rw [addAll_singleton, hadd]
    rfl
  | block2 | block1 =>
    simp only [optionAdd, optionPairs, htype]
    rw [addAll_singleton]
  | maxAge | observe =>
    simp only [optionAdd, optionPairs, htype]
    rw [addAll_singleton]
  | ifMatch | uriHost | etag | ifNoneMatch | uriPort | locationPath | accept | locationQuery
  | size2 | proxyUri | proxyScheme | size1 => simp [optionAdd, optionPairs, htype, addAll]

/-- The pairs of all options, in the order of the list. -/
def packagePairs (options : List CoapOption) : List Opt := options.flatMap optionPairs

theorem optionsAdd_building (h : p.Building hdr opts) {options : List CoapOption}
    (hterm : ∀ option ∈ options, option.Terminated) :
    ∃ q, options.foldlM optionAdd p = .ok q ∧
      q.Building hdr (insertAll (packagePairs options) opts) := by
  induction options generalizing p opts with
  | nil => exact ⟨p, rfl, h⟩
  | cons option options ih =>
    obtain ⟨q, hall, hq⟩ := h.addAll (optionPairs_short option)
    obtain ⟨r, hrest, hr⟩ := ih hq fun o ho => hterm o (by simp [ho])
    refine ⟨r, ?_, ?_⟩
    · rw [List.foldlM_cons, optionAdd_eq h (hterm option (by simp)), hall]
      exact hrest
    · rw [packagePairs, List.flatMap_cons, insertAll, List.foldl_append]
      exact hr

theorem terminated_of_optionsAdd {options : List CoapOption} {q : CoapPDU}
    (h : p.Building hdr opts) (hadd : options.foldlM optionAdd p = .ok q) :
    ∀ option ∈ options, option.Terminated := by
  induction options generalizing p opts with
  | nil => simp
  | cons option options ih =>
    have hterm : option.Terminated := by
      intro htype
      by_contra hmem
      have herr : optionAdd p option = .error .outOfBounds := by
        obtain htype | htype := htype <;> simp [optionAdd, htype, cString, hmem]
      rw [List.foldlM_cons, herr] at hadd
      simp at hadd
    intro o ho
    obtain rfl | ho := List.mem_cons.mp ho
    · exact hterm
    · obtain ⟨r, hall, hr⟩ := h.addAll (optionPairs_short option)
      rw [List.foldlM_cons, optionAdd_eq h hterm, hall] at hadd
      exact ih hr hadd o ho

end

def headByte (version : UInt8) (type : CoapType) : UInt8 :=
  (versionByte 0 version &&& 0xCF) ||| type.value

theorem version_cases {version : UInt8} (h : ¬ version > 3) :
    version = 0 ∨ version = 1 ∨ version = 2 ∨ version = 3 := by
  simp only [← UInt8.toNat_inj, gt_iff_lt, UInt8.lt_iff_toNat_lt] at h ⊢
  simp only [UInt8.reduceToNat] at h ⊢
  omega

theorem headByte_low (version : UInt8) (type : CoapType) :
    headByte version type &&& 0x0F = 0 ∧
      headByte version type &&& 0xF0 = headByte version type := by
  unfold headByte versionByte
  split_ifs with h
  · cases type <;> decide
  · obtain rfl | rfl | rfl | rfl := version_cases h <;> cases type <;> decide

/-- The shared PDU can be reset for the next message. -/
def SharedPDU.Idle : SharedPDU → Prop
  | .null _ heap => ∀ i, (heap i).isSome
  | .created p => p.Idle

theorem createCoapPDU_idle {g : SharedPDU} (h : g.Idle) :
    ∃ p, createCoapPDU g = .ok p ∧ p.Idle := by
  cases g with
  | created p => exact ⟨p, rfl, h⟩
  | null addr heap =>
    exact ⟨_, rfl, rfl, le_rfl, le_rfl, h⟩

def firstByte (version : UInt8) (type : CoapType) (tokenLen : ℕ) : UInt8 :=
  headByte version type ||| UInt8.ofNat tokenLen

section

variable {p : CoapPDU} {version code : UInt8} {type : CoapType} {messageId : UInt16}

theorem messageHeader_nil :
    messageHeader (headByte version type) code messageId [] =
      [headByte version type, code, (endianStore16 messageId).getD 0 0,
        (endianStore16 messageId).getD 1 0] := rfl

theorem coapSendHeader_building {g : SharedPDU} (hg : g.Idle) (version code : UInt8)
    (type : CoapType) (messageId : UInt16) :
    ∃ q, coapSendHeader g version type code messageId = .ok q ∧
      q.Building (messageHeader (headByte version type) code messageId []) [] := by
  obtain ⟨p, hcreate, h⟩ := createCoapPDU_idle hg
  obtain ⟨m, hreset, hm⟩ := h.toDynamic.reset
  refine ⟨_, ?_, h.building hm (headByte_low version type).1⟩
  rw [coapSendHeader, hcreate, ok_bind, hreset, ok_bind, setVersion_cons, ok_bind, setType_cons,
    ok_bind, setCode_cons, ok_bind, setMessageID_cons]
  rfl

theorem sendAckHeader_building {g : SharedPDU} (hg : g.Idle) (code : UInt8)
    (messageId : UInt16) :
    ∃ q, sendAckHeader g code messageId = .ok q ∧
      q.Building (messageHeader (headByte 1 .acknowledgement) (ackCode code) messageId []) [] := by
  obtain ⟨p, hcreate, h⟩ := createCoapPDU_idle hg
  obtain ⟨m, hreset, hm⟩ := h.toDynamic.reset
  refine ⟨_, ?_, h.building hm (headByte_low 1 .acknowledgement).1⟩
  rw [sendAckHeader, hcreate, ok_bind, hreset, ok_bind, setVersion_cons, ok_bind, setType_cons,
    ok_bind, setMessageID_cons, ok_bind, setCode_cons]
  rfl

theorem coapSetToken_building
    (h : p.Building (messageHeader (headByte version type) code messageId []) [])
    {token : List UInt8} (h8 : token.length ≤ 8) :
    ∃ q, coapSetToken p token = .ok q ∧
      q.Building (messageHeader (firstByte version type token.length) code messageId token) [] := by
  by_cases hne : token = []
  · subst hne
    refine ⟨p, rfl, ?_⟩
    rw [List.length_nil, firstByte, show UInt8.ofNat 0 = 0 from rfl, UInt8.or_zero]
    exact h
  · have hpos := List.length_pos_iff.mpr hne
    rw [messageHeader_nil] at h
    obtain ⟨q, hset, hq⟩ := h.setToken hne h8
    refine ⟨q, ?_, ?_⟩
    · rw [coapSetToken, if_pos hpos, hset]
      rfl
    · rw [(headByte_low version type).2] at hq
      exact hq

end

theorem Package.length_sentToken_le {coap : Package} (h : coap.tokenLen ≤ 8) :
    coap.sentToken.length ≤ 8 := by
  have h8 := UInt8.le_iff_toNat_le.mp h
  change coap.tokenLen.toNat ≤ 8 at h8
  rw [sentToken, List.length_take, coap.token.2]
  omega

def Package.header (coap : Package) : List UInt8 :=
  messageHeader (firstByte coap.version coap.type coap.sentToken.length) coap.code coap.messageId
    coap.sentToken

def Package.sentOptions (coap : Package) : List Opt := insertAll (packagePairs coap.options) []

theorem buildPackage_start {g : SharedPDU} (hg : g.Idle) {coap : Package} (h8 : coap.tokenLen ≤ 8) :
    ∃ p, p.Building coap.header [] ∧ buildPackage g coap = (do
      let p ← coap.options.foldlM optionAdd p
      if coap.playload.length > 0 then
        return (← p.setPayload coap.playload).1
      else return p) := by
  obtain ⟨p, hhead, hp⟩ := coapSendHeader_building hg coap.version coap.code coap.type
    coap.messageId
  obtain ⟨q, htoken, hq⟩ := coapSetToken_building hp (coap.length_sentToken_le h8)
  refine ⟨q, hq, ?_⟩
  rw [buildPackage, hhead, ok_bind, htoken, ok_bind]

theorem buildPackage_holds {g : SharedPDU} (hg : g.Idle) {coap : Package} (h8 : coap.tokenLen ≤ 8)
    (hterm : ∀ option ∈ coap.options, option.Terminated) :
    ∃ q, buildPackage g coap = .ok q ∧ q.Holds coap.header coap.sentOptions coap.playload ∧
      q.Idle := by
  obtain ⟨p, hp, hbuild⟩ := buildPackage_start hg h8
  obtain ⟨q, hadd, hq⟩ := optionsAdd_building hp hterm
  rw [hbuild, hadd, ok_bind]
  by_cases hpay : coap.playload = []
  · refine ⟨q, ?_, ?_, hq.toIdle⟩
    · rw [hpay, List.length_nil, if_neg (by omega)]
      rfl
    · rw [hpay]
      exact hq.holds
  · obtain ⟨r, hset, hholds, hidle⟩ := hq.setPayload hpay
    refine ⟨r, ?_, hholds, hidle⟩
    rw [if_pos (List.length_pos_iff.mpr hpay), hset]
    rfl

theorem buildPackage_terminated {g : SharedPDU} (hg : g.Idle) {coap : Package}
    (h8 : coap.tokenLen ≤ 8) {q : CoapPDU} (hbuild : buildPackage g coap = .ok q) :
    ∀ option ∈ coap.options, option.Terminated := by
  obtain ⟨p, hp, heq⟩ := buildPackage_start hg h8
  rw [hbuild] at heq
  cases hadd : coap.options.foldlM optionAdd p with
  | error e =>
    rw [hadd] at heq
    simp at heq
  | ok r => exact terminated_of_optionsAdd hp hadd

theorem buildAck_idle {g : SharedPDU} (hg : g.Idle) (code : UInt8) (messageId : UInt16)
    {token : List UInt8} (h8 : token.length ≤ 8) :
    ∃ q, buildAck g code messageId token = .ok q ∧ q.Idle := by
  obtain ⟨p, hhead, hp⟩ := sendAckHeader_building hg code messageId
  obtain ⟨q, htoken, hq⟩ := coapSetToken_building hp h8
  exact ⟨q, by rw [buildAck, hhead, ok_bind, htoken], hq.toIdle⟩

/-- What the shared PDU can be after any number of messages, with every allocation
successful.  A package may hold anything, as long as building it stays inside its arrays. -/
inductive SharedPDU.Used : SharedPDU → Prop
  | null (addr : ℕ) {heap : ℕ → Option Block} : (∀ i, (heap i).isSome) → Used (.null addr heap)
  | send {g g' : SharedPDU} {coap : Package} {datagram : List UInt8} : Used g →
      coap.tokenLen ≤ 8 → coapSend g coap = .ok (g', datagram) → Used g'
  | ack {g g' : SharedPDU} {code : UInt8} {messageId : UInt16} {token datagram : List UInt8} :
      Used g → token.length ≤ 8 → sendAck g code messageId token = .ok (g', datagram) → Used g'

theorem SharedPDU.Used.idle {g : SharedPDU} (h : g.Used) : g.Idle := by
  induction h with
  | null addr heap => exact heap
  | @send g g' coap datagram _ h8 hsend ih =>
    cases hbuild : buildPackage g coap with
    | error e =>
      rw [coapSend, hbuild] at hsend
      simp at hsend
    | ok q =>
      obtain ⟨r, hr, -, hidle⟩ := buildPackage_holds ih h8 (buildPackage_terminated ih h8 hbuild)
      rw [coapSend, hr] at hsend
      simp only [ok_bind, pure_eq_ok, Except.ok.injEq, Prod.mk.injEq] at hsend
      rw [← hsend.1]
      exact hidle
  | @ack g g' code messageId token datagram _ h8 hsend ih =>
    obtain ⟨r, hr, hidle⟩ := buildAck_idle ih code messageId h8
    rw [sendAck, hr] at hsend
    simp only [ok_bind, pure_eq_ok, Except.ok.injEq, Prod.mk.injEq] at hsend
    rw [← hsend.1]
    exact hidle

/-- The message of a package as bytes. -/
def Package.message (coap : Package) : List UInt8 :=
  encodeMessage coap.header coap.sentOptions coap.playload

theorem coapSend_message {g : SharedPDU} (hg : g.Idle) {coap : Package} (h8 : coap.tokenLen ≤ 8)
    (hterm : ∀ option ∈ coap.options, option.Terminated) (hlen : coap.message.length < 65536) :
    ∃ q, coapSend g coap = .ok (.created q, coap.message) ∧ q.Idle := by
  obtain ⟨q, hbuild, hholds, hidle⟩ := buildPackage_holds hg h8 hterm
  refine ⟨q, ?_, hidle⟩
  have hhand : handedOver q = coap.message := by
    have hq := hholds.pduLength_eq
    rw [handedOver, getPDULength, Nat.mod_eq_of_lt (by rw [hq]; exact hlen)]
    exact hholds.bytes_eq
  rw [coapSend, hbuild, ok_bind, hhand]
  rfl

theorem firstByte_fields (type : CoapType) {tokenLen : ℕ} (h : tokenLen ≤ 8) :
    (firstByte 1 type tokenLen).toNat / 64 = 1 ∧ (firstByte 1 type tokenLen).toNat % 16 = tokenLen ∧
      firstByte 1 type tokenLen &&& 0x30 = type.value := by
  obtain ⟨k, rfl⟩ : ∃ k : Fin 9, tokenLen = k := ⟨⟨tokenLen, by omega⟩, rfl⟩
  clear h
  revert k
  cases type <;> decide

theorem Package.sentOptions_eq (coap : Package) :
    coap.sentOptions = (packagePairs coap.options).insertionSort (fun a b => a.key ≤ b.key) :=
  foldl_insertAfter_eq_insertionSort Opt.key (packagePairs coap.options)

/-- What a package must be for its message to say it: the version and code of a CoAP message,
a token that fits, strings that end inside their arrays and a datagram of less than 65536
bytes. -/
structure Package.Admissible (coap : Package) : Prop where
  version : coap.version = 1
  code : codeAccepted coap.code = true
  tokenLen : coap.tokenLen ≤ 8
  terminated : ∀ option ∈ coap.options, option.Terminated
  size : coap.message.length < 65536

/-- Whatever was built in the shared PDU before and whatever new memory holds, the datagram
of a package is accepted and read back as the package, with its options sorted stably by
number. -/
theorem coapSend_decodes (g : SharedPDU) (hg : g.Used) (coap : Package) (h : coap.Admissible) :
    ∃ g' datagram, coapSend g coap = .ok (g', datagram) ∧
      ∀ addr after, ∃ q, coapCreateRecv addr (datagram ++ after) datagram.length = .ok (some q) ∧
        q.Tells coap.type.value coap.code coap.messageId coap.sentToken
          ((packagePairs coap.options).insertionSort (fun a b => a.key ≤ b.key))
          coap.playload := by
  obtain ⟨q, hsend, -⟩ := coapSend_message hg.idle h.tokenLen h.terminated h.size
  obtain ⟨r, -, hholds, -⟩ := buildPackage_holds hg.idle h.tokenLen h.terminated
  obtain ⟨hversion, htoken, htype⟩ := firstByte_fields coap.type
    (coap.length_sentToken_le h.tokenLen)
  refine ⟨.created q, coap.message, hsend, fun addr after => ?_⟩
  rw [← coap.sentOptions_eq, ← htype, ← h.version]
  rw [← h.version] at hversion htoken
  exact coapCreateRecv_encode hversion htoken (coap.length_sentToken_le h.tokenLen)
    ((codeAccepted_iff _).mp h.code) hholds.sorted hholds.short addr after

def sampleRequest : Package :=
  { listItemInit 7 with
    code := COAP_GET
    options := [{ CoapOption.zero .maxAge with optInt := 1 },
      { CoapOption.zero .observe with optInt := 2 }]
    playload := [0x61] }

theorem coapSend_sampleRequest :
    ∃ g' datagram, coapSend (.null 0 fun _ => some ⟨0, fun _ => 0xAA⟩) sampleRequest =
        .ok (g', datagram) ∧
      ∀ addr after, ∃ q, coapCreateRecv addr (datagram ++ after) datagram.length = .ok (some q) ∧
        q.Tells 0x00 COAP_GET 7 [] [⟨6, [2]⟩, ⟨14, [1]⟩] [0x61] :=
  coapSend_decodes _ (.null 0 fun _ => rfl) sampleRequest
    ⟨rfl, by decide, by decide, by simp [sampleRequest, CoapOption.Terminated, CoapOption.zero],
      by decide⟩

end Mbtk.Client
