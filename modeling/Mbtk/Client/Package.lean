import Mbtk.Coap.Build

namespace Mbtk.Client

open Coap

abbrev Bytes (n : ℕ) : Type := {array : List UInt8 // array.length = n}

def Bytes.zero (n : ℕ) : Bytes n := ⟨List.replicate n 0, List.length_replicate⟩

inductive CoapType
  | confirmable | nonConfirmable | acknowledgement | reset
  deriving DecidableEq

def CoapType.value : CoapType → UInt8
  | confirmable => 0x00
  | nonConfirmable => 0x10
  | acknowledgement => 0x20
  | reset => 0x30

def COAP_EMPTY : UInt8 := 0x00
def COAP_GET : UInt8 := 0x01
def COAP_POST : UInt8 := 0x02
def COAP_PUT : UInt8 := 0x03
def COAP_DELETE : UInt8 := 0x04
def COAP_CHANGED : UInt8 := 0x44

inductive OptionType
  | ifMatch | uriHost | etag | ifNoneMatch | observe | uriPort | locationPath | uriPath
  | contentFormat | maxAge | uriQuery | accept | locationQuery | block2 | block1 | size2
  | proxyUri | proxyScheme | size1
  deriving DecidableEq

def OptionType.number : OptionType → UInt16
  | ifMatch => 1
  | uriHost => 3
  | etag => 4
  | ifNoneMatch => 5
  | observe => 6
  | uriPort => 7
  | locationPath => 8
  | uriPath => 11
  | contentFormat => 12
  | maxAge => 14
  | uriQuery => 15
  | accept => 17
  | locationQuery => 20
  | block2 => 23
  | block1 => 27
  | size2 => 28
  | proxyUri => 35
  | proxyScheme => 39
  | size1 => 60

structure OptionBlock where
  size : UInt32
  number : UInt32
  moreFlag : UInt8
  deriving DecidableEq

/-- `mbtk_coap_option_s`.  The members of its union stand side by side, since the type of
an option never changes and each type uses one member only. -/
structure CoapOption where
  type : OptionType
  optBlock : OptionBlock
  optContentFormat : UInt32
  optStr : Bytes 128
  optInt : UInt32
  deriving DecidableEq

def CoapOption.zero (type : OptionType) : CoapOption where
  type
  optBlock := ⟨0, 0, 0⟩
  optContentFormat := 0
  optStr := .zero 128
  optInt := 0

/-- `mbtk_coap_package_s`, with the options from the newest on and without the link to the
next package.  The length of the payload is that of the list. -/
structure Package where
  sendCount : UInt8
  version : UInt8
  type : CoapType
  code : UInt8
  token : Bytes 8
  tokenLen : UInt8
  messageId : UInt16
  options : List CoapOption
  playload : List UInt8
  deriving DecidableEq

/-- `mbtk_coap_list_item_init`. -/
def listItemInit (messageId : UInt16) : Package where
  sendCount := 0
  version := 1
  type := .confirmable
  code := COAP_EMPTY
  token := .zero 8
  tokenLen := 0
  messageId
  options := []
  playload := []

/-- The `opt_str` that holds `str`.  A string of more than 128 characters runs over it. -/
def setOptStr (str : List UInt8) : Exec (Bytes 128) :=
  if h : str.length ≤ 128 then
    .ok ⟨str ++ List.replicate (128 - str.length) 0, by
      rw [List.length_append, List.length_replicate]
      omega⟩
  else .error (.overrun .optStr)

/-- The switch of `mbtk_coap_set_option`. -/
def CoapOption.assign (option : CoapOption) (str : List UInt8) (int0 int1 int2 : UInt32) :
    Exec CoapOption :=
  match option.type with
  | .ifMatch | .uriHost | .etag | .ifNoneMatch | .locationPath | .uriQuery | .locationQuery
  | .proxyUri | .proxyScheme | .uriPath => do
    return { option with optStr := ← setOptStr str }
  | .observe | .maxAge | .uriPort | .size2 | .size1 => .ok { option with optInt := int0 }
  | .block2 | .block1 => .ok { option with optBlock := ⟨int0, int1, int2.toUInt8⟩ }
  | .contentFormat | .accept => .ok { option with optContentFormat := int0 }

def assignFirst (type : OptionType) (str : List UInt8) (int0 int1 int2 : UInt32) :
    List CoapOption → Exec (List CoapOption)
  | [] => .ok []
  | option :: options =>
    if option.type = type then do
      return (← option.assign str int0 int1 int2) :: options
    else do
      return option :: (← assignFirst type str int0 int1 int2 options)

/-- `mbtk_coap_set_option`: an option of the type is changed in place, else a new one goes
in front. -/
def setOption (coap : Package) (type : OptionType) (str : List UInt8) (int0 int1 int2 : UInt32) :
    Exec Package := do
  if coap.options.any (·.type = type) then
    return { coap with options := ← assignFirst type str int0 int1 int2 coap.options }
  else
    let option ← (CoapOption.zero type).assign str int0 int1 int2
    return { coap with options := option :: coap.options }

def blockFlags (block : OptionBlock) : UInt8 :=
  let number : UInt32 := block.number <<< 4
  let moreFlag : UInt32 := block.moreFlag.toUInt32 <<< 3
  let flags : UInt32 := (number &&& 0xF0) ||| (moreFlag &&& 0x08) ||| (block.size &&& 0x07)
  flags.toUInt8

/-- The bytes that `mbtk_coap_option_add` writes for a Block option. -/
def blockValue (block : OptionBlock) : List UInt8 :=
  if block.number ≤ 0x0F then [blockFlags block]
  else if block.number ≤ 0x0FFF then [(block.number >>> 4).toUInt8, blockFlags block]
  else [(block.number >>> 12).toUInt8, (block.number >>> 4).toUInt8, blockFlags block]

/-- `mbtk_coap_option_add`, which looks at no result of the calls it makes. -/
def optionAdd (p : CoapPDU) (option : CoapOption) : Exec CoapPDU :=
  match option.type with
  | .ifMatch | .uriHost | .etag | .ifNoneMatch | .locationPath | .locationQuery | .proxyUri
  | .proxyScheme | .uriPort | .accept | .size2 | .size1 => .ok p
  | .block2 | .block1 => do
    return (← p.addOption option.type.number (blockValue option.optBlock)).1
  | .maxAge | .observe => do
    return (← p.addOption option.type.number [option.optInt.toUInt8]).1
  | .uriQuery => do
    return (← p.addURIQuery (← cString option.optStr.1)).1
  | .uriPath => do
    return (← p.setURI (← cString option.optStr.1)).1
  | .contentFormat => do
    return (← p.setContentFormat option.optContentFormat).1

/-- `g_CoapPDU`: not created yet, with what its allocation and the ones after it will
return, or an object that all messages share. -/
inductive SharedPDU
  | null (addr : ℕ) (heap : ℕ → Option Block)
  | created (p : CoapPDU)

def createCoapPDU : SharedPDU → Exec CoapPDU
  | .null addr heap => CoapPDU.new addr heap
  | .created p => .ok p

/-- The header of the message that `mbtk_coap_coap_send` builds. -/
def coapSendHeader (g : SharedPDU) (version : UInt8) (type : CoapType) (code : UInt8)
    (messageId : UInt16) : Exec CoapPDU := do
  let p ← createCoapPDU g
  let p ← p.reset
  let p ← p.setVersion version
  let p ← p.setType type.value
  let p ← p.setCode code
  p.setMessageID messageId

def coapSetToken (p : CoapPDU) (token : List UInt8) : Exec CoapPDU :=
  if token.length > 0 then do
    return (← p.setToken token).1
  else return p

/-- The token that a package sends. -/
def Package.sentToken (coap : Package) : List UInt8 := coap.token.1.take coap.tokenLen.toNat

/-- The message that `mbtk_coap_coap_send` builds for a package. -/
def buildPackage (g : SharedPDU) (coap : Package) : Exec CoapPDU := do
  let p ← coapSendHeader g coap.version coap.type coap.code coap.messageId
  let p ← coapSetToken p coap.sentToken
  let p ← coap.options.foldlM optionAdd p
  if coap.playload.length > 0 then
    return (← p.setPayload coap.playload).1
  else return p

def ackCode (code : UInt8) : UInt8 :=
  if code = COAP_POST ∨ code = COAP_PUT then COAP_CHANGED else COAP_EMPTY

/-- The header of the message that `mbtk_coap_send_ack` builds. -/
def sendAckHeader (g : SharedPDU) (code : UInt8) (messageId : UInt16) : Exec CoapPDU := do
  let p ← createCoapPDU g
  let p ← p.reset
  let p ← p.setVersion 1
  let p ← p.setType CoapType.acknowledgement.value
  let p ← p.setMessageID messageId
  p.setCode (ackCode code)

/-- The message that `mbtk_coap_send_ack` builds. -/
def buildAck (g : SharedPDU) (code : UInt8) (messageId : UInt16) (token : List UInt8) :
    Exec CoapPDU := do
  let p ← sendAckHeader g code messageId
  coapSetToken p token

/-- The bytes handed to `mbtk_coap_udp_sendto`, whose length argument has 16 bits. -/
def handedOver (p : CoapPDU) : List UInt8 := p.pdu.take (p.getPDULength % 65536)

/-- The datagram of `mbtk_coap_coap_send`, with the shared object after it. -/
def coapSend (g : SharedPDU) (coap : Package) : Exec (SharedPDU × List UInt8) := do
  let p ← buildPackage g coap
  return (.created p, handedOver p)

/-- `mbtk_coap_send_ack`. -/
def sendAck (g : SharedPDU) (code : UInt8) (messageId : UInt16) (token : List UInt8) :
    Exec (SharedPDU × List UInt8) := do
  let p ← buildAck g code messageId token
  return (.created p, handedOver p)

end Mbtk.Client
