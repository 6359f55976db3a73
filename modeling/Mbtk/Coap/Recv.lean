import Mbtk.Coap.Build
import Mbtk.Coap.Parse

namespace Mbtk.Coap

def COAP_OPTION_OBSERVE : UInt16 := 6
def COAP_OPTION_URI_PORT : UInt16 := 7
def COAP_OPTION_MAX_AGE : UInt16 := 14
def COAP_OPTION_ACCEPT : UInt16 := 17
def COAP_OPTION_BLOCK2 : UInt16 := 23
def COAP_OPTION_BLOCK1 : UInt16 := 27
def COAP_OPTION_SIZE2 : UInt16 := 28
def COAP_OPTION_SIZE1 : UInt16 := 60

/-- The number that the decimal digits in front of `str` stand for, after `value`. -/
def atoiDigits (value : ℕ) : List UInt8 → ℕ
  | [] => value
  | c :: str =>
    if 0x30 ≤ c ∧ c ≤ 0x39 then atoiDigits (10 * value + (c - 0x30).toNat) str else value

def isSpace (c : UInt8) : Bool := c == 0x20 || (0x09 ≤ c && c ≤ 0x0D)

def atoi (str : List UInt8) : ℤ :=
  match str.dropWhile isSpace with
  | 0x2D :: str => -atoiDigits 0 str
  | 0x2B :: str => atoiDigits 0 str
  | str => atoiDigits 0 str

structure RecvBlock where
  number : UInt32
  moreFlag : UInt8
  size : UInt8
  deriving DecidableEq

namespace CoapPDU

variable (p : CoapPDU)

/-- An accessor that copies into the array of its caller, which holds `dst`. -/
def recvString (optionNumber : UInt16) (buffer : Buffer) (dst : List UInt8) :
    Exec (UInt16 × List UInt8) := p.getOptionValueById optionNumber buffer dst

def coapGetRecvOptionUriPath (buffer : Buffer) (dst : List UInt8) : Exec (UInt16 × List UInt8) :=
  p.recvString COAP_OPTION_URI_PATH buffer dst

/-- The length and the bytes that an accessor finds in its array `buff`. -/
def recvBuff (optionNumber : UInt16) : Exec (UInt16 × List UInt8) :=
  p.getOptionValueById optionNumber .buff (List.replicate 10 0)

/-- An accessor that reads a decimal number, with `none` for its result 0. -/
def recvNumber (optionNumber : UInt16) : Exec (Option ℤ) := do
  let (buffLen, buff) ← p.recvBuff optionNumber
  if buffLen > 0 then return some (atoi buff) else return none

/-- An accessor that delivers a `uint16_t`. -/
def recvUInt16 (optionNumber : UInt16) : Exec (Option UInt16) := do
  return (← p.recvNumber optionNumber).map UInt16.ofInt

def coapGetRecvOptionObserve : Exec (Option UInt16) := p.recvUInt16 COAP_OPTION_OBSERVE

def coapGetRecvOptionMaxAge : Exec (Option UInt16) := p.recvUInt16 COAP_OPTION_MAX_AGE

def coapGetRecvOptionUriPort : Exec (Option UInt16) := p.recvUInt16 COAP_OPTION_URI_PORT

def coapGetRecvOptionSize2 : Exec (Option UInt16) := p.recvUInt16 COAP_OPTION_SIZE2

def coapGetRecvOptionSize1 : Exec (Option UInt16) := p.recvUInt16 COAP_OPTION_SIZE1

/-- The Block2 option of the bytes `buff`, of which the first `buffLen` are its value. -/
def decodeBlock2 (buffLen : UInt16) (buff : List UInt8) : Option RecvBlock :=
  let b0 := buff.getD 0 0
  let b1 := buff.getD 1 0
  let b2 := buff.getD 2 0
  if buffLen = 1 then
    some ⟨((b0 &&& 0xF0) >>> 4).toUInt32, (b0 &&& 0x08) >>> 3, b0 &&& 0x07⟩
  else if buffLen = 2 then
    some ⟨((b0.toUInt32 <<< 8) ||| (b1 &&& 0xF0).toUInt32) >>> 4, (b1 &&& 0x08) >>> 3,
      b1 &&& 0x07⟩
  else if buffLen = 3 then
    some ⟨((b0.toUInt32 <<< 16) ||| (b1.toUInt32 <<< 8) ||| (b2 &&& 0xF0).toUInt32) >>> 4,
      (b2 &&& 0x08) >>> 3, b2 &&& 0x07⟩
  else none

def coapGetRecvOptionBlock2 : Exec (Option RecvBlock) := do
  let (buffLen, buff) ← p.recvBuff COAP_OPTION_BLOCK2
  if buffLen > 0 then return decodeBlock2 buffLen buff else return none

/-- The Block1 option, read in another byte order and without shifts. -/
def decodeBlock1 (buffLen : UInt16) (buff : List UInt8) : Option RecvBlock :=
  let b0 := buff.getD 0 0
  let b1 := buff.getD 1 0
  let b2 := buff.getD 2 0
  let size := b0 &&& 0x07
  let moreFlag := b0 &&& 0x08
  if buffLen = 1 then some ⟨(b0 &&& 0xF0).toUInt32, moreFlag, size⟩
  else if buffLen = 2 then
    some ⟨(b1.toUInt32 <<< 8) ||| (b0 &&& 0xF0).toUInt32, moreFlag, size⟩
  else if buffLen = 3 then
    some ⟨(b2.toUInt32 <<< 16) ||| (b1.toUInt32 <<< 8) ||| (b0 &&& 0xF0).toUInt32, moreFlag,
      size⟩
  else none

def coapGetRecvOptionBlock1 : Exec (Option RecvBlock) := do
  let (buffLen, buff) ← p.recvBuff COAP_OPTION_BLOCK1
  if buffLen > 0 then return decodeBlock1 buffLen buff else return none

/-- An accessor that delivers a member of `mbtk_content_format_type`. -/
def recvFormat (optionNumber : UInt16) : Exec (Option UInt32) := do
  return (← p.recvNumber optionNumber).map UInt32.ofInt

def coapGetRecvOptionContentFormat : Exec (Option UInt32) := p.recvFormat COAP_OPTION_CONTENT_FORMAT

def coapGetRecvOptionAccept : Exec (Option UInt32) := p.recvFormat COAP_OPTION_ACCEPT

end CoapPDU

end Mbtk.Coap
