import Mbtk.Coap.Options

namespace Mbtk.Coap

/-- The code values that `validate` lets through.  The enumeration starts at 0, so no
value lies below `COAP_EMPTY`. -/
def codeAccepted (code : UInt8) : Bool :=
  !(code > 0x1F && code < 0x41 ||
    code > 0x45 && code < 0x5F ||
    code > 0x5F && code < 0x80 ||
    code > 0x86 && code < 0x8C ||
    code == 0x8E ||
    code > 0x8F && code < 0xA0 ||
    code > 0xA5)

/-- An entry of the array that `getOptions` returns, with positions in `_pdu` for its
pointers. -/
structure CoapOption where
  optionDelta : UInt16
  optionNumber : UInt16
  optionValueLength : UInt16
  totalLength : ℕ
  optionPointer : ℕ
  optionValuePointer : ℕ
  deriving DecidableEq

namespace CoapPDU

/-- The loop of `validate`.  A turn either ends it or moves `optionPos` on, so as many
turns as the PDU has bytes are enough. -/
def validateLoop (p : CoapPDU) : ℕ → ℕ → ℤ → ℕ → UInt16 → CoapPDU × Bool
  | 0, _, _, _, _ => (p, false)
  | fuel + 1, optionPos, bytesRemaining, numOptions, optionNumber =>
    if bytesRemaining > 0 then
      let optionHeader := p.read optionPos
      if optionHeader = 0xFF then
        if bytesRemaining > 1 then
          ({ p with
              payloadPointer := some (p.addr + (optionPos + 1))
              payloadLength := (bytesRemaining - 1).toNat
              numOptions }, true)
        else ({ p with payloadPointer := none, payloadLength := 0 }, false)
      else
        let upperNibble := (optionHeader &&& 0xF0) >>> 4
        let lowerNibble := optionHeader &&& 0x0F
        if upperNibble = 0x0F ∨ lowerNibble = 0x0F then (p, false)
        else
          let bytesRemaining := bytesRemaining - 1
          let headerBytesNeeded := computeExtraBytes upperNibble.toUInt16
          if headerBytesNeeded > bytesRemaining then (p, false)
          else
            let headerBytesNeeded := headerBytesNeeded + computeExtraBytes lowerNibble.toUInt16
            if headerBytesNeeded > bytesRemaining then (p, false)
            else
              let optionDelta := getOptionDelta (p.pdu.drop optionPos)
              let optionNumber := optionNumber + optionDelta
              let optionValueLength := getOptionValueLength (p.pdu.drop optionPos)
              let totalLength := 1 + computeExtraBytes optionDelta +
                computeExtraBytes optionValueLength + optionValueLength.toNat
              if optionPos + totalLength > p.pduLength then (p, false)
              else
                validateLoop p fuel (optionPos + totalLength)
                  (bytesRemaining - totalLength + 1) (numOptions + 1) optionNumber
    else
      ({ p with payloadPointer := none, payloadLength := 0, numOptions }, true)

def validate (p : CoapPDU) : CoapPDU × Bool :=
  if p.pduLength < 4 then (p, false)
  else if p.getVersion ≠ 1 then (p, false)
  else if p.getTokenLength > 8 then (p, false)
  else if COAP_HDR_SIZE + p.getTokenLength > p.pduLength then (p, false)
  else if !codeAccepted p.getCode then (p, false)
  else
    let optionPos := COAP_HDR_SIZE + p.getTokenLength
    if optionPos = p.pduLength then ({ p with numOptions := 0, payloadLength := 0 }, true)
    else validateLoop p (p.pduLength + 1) optionPos (p.pduLength - optionPos) 0 0

def getOptionsLoop (p : CoapPDU) : ℕ → ℕ → UInt16 → List CoapOption
  | 0, _, _ => []
  | i + 1, optionPos, optionNumber =>
    let optionDelta := getOptionDelta (p.pdu.drop optionPos)
    let optionNumber := optionNumber + optionDelta
    let optionValueLength := getOptionValueLength (p.pdu.drop optionPos)
    let totalLength := 1 + computeExtraBytes optionDelta +
      computeExtraBytes optionValueLength + optionValueLength.toNat
    { optionDelta, optionNumber, optionValueLength, totalLength
      optionPointer := optionPos
      optionValuePointer := optionPos + totalLength - optionValueLength.toNat } ::
      getOptionsLoop p i (optionPos + totalLength) optionNumber

/-- `getOptions`.  Without options it returns NULL, which every caller takes for an empty
array. -/
def getOptions (p : CoapPDU) : List CoapOption :=
  getOptionsLoop p p.numOptions (COAP_HDR_SIZE + p.getTokenLength) 0

def optionValue (p : CoapPDU) (o : CoapOption) : List UInt8 :=
  (p.pdu.drop o.optionValuePointer).take o.optionValueLength.toNat

def getToken (p : CoapPDU) : List UInt8 := (p.pdu.drop 4).take p.getTokenLength

def getPayload (p : CoapPDU) : List UInt8 :=
  match p.payloadPointer with
  | none => []
  | some a => (p.pdu.drop (a - p.addr)).take p.payloadLength

/-- A turn of the loop of `getOptionValueById`, for an array of `size` bytes. -/
def copyOption (p : CoapPDU) (optionNumber : UInt16) (buffer : Buffer) (size : ℕ)
    (s : UInt16 × List UInt8) (o : CoapOption) : Exec (UInt16 × List UInt8) :=
  if o.optionNumber = optionNumber then
    if o.optionValueLength.toNat ≤ size then
      .ok (o.optionValueLength, p.optionValue o ++ s.2.drop o.optionValueLength.toNat)
    else .error (.overrun buffer)
  else .ok s

/-- `getOptionValueById`, for a destination array that holds `dst`.  The value of every
option of that number is copied, so the last one stays. -/
def getOptionValueById (p : CoapPDU) (optionNumber : UInt16) (buffer : Buffer)
    (dst : List UInt8) : Exec (UInt16 × List UInt8) :=
  p.getOptions.foldlM (p.copyOption optionNumber buffer dst.length) (0, dst)

end CoapPDU

/-- `coapCreateRecv` for the first `pduLength` bytes of the memory `pdu` at `addr`, with
the object that becomes `g_CoapRecvPointer`. -/
def coapCreateRecv (addr : ℕ) (pdu : List UInt8) (pduLength : ℕ) : Exec (Option CoapPDU) := do
  let p ← CoapPDU.ofBuffer addr pdu pduLength pduLength
  match p.validate with
  | (p, true) => return some p
  | (_, false) => return none

end Mbtk.Coap
