import Mbtk.Coap.Options

namespace Mbtk.Coap

def COAP_OPTION_URI_PATH : UInt16 := 11
def COAP_OPTION_CONTENT_FORMAT : UInt16 := 12
def COAP_OPTION_URI_QUERY : UInt16 := 15

/-- The characters of the string in an array, up to its NUL.  Without one, `strlen` leaves
the array. -/
def cString (array : List UInt8) : Exec (List UInt8) :=
  if 0 ∈ array then .ok (array.takeWhile (· ≠ 0)) else .error .outOfBounds

def strchr (s : List UInt8) (c : UInt8) : Option ℕ :=
  if c ∈ s then some (s.idxOf c) else none

/-- One turn of the loop of `setURI`: behind a leading separator the segment up to the next
one, or to the `?`, or to the end, with what is left and whether the query begins there. -/
def nextSegment (startP : List UInt8) (splitChar : UInt8) : List UInt8 × List UInt8 × Bool :=
  let startP := if startP.head? = some splitChar then startP.tail else startP
  match strchr startP splitChar, strchr startP 0x3F with
  | some oLen, _ => (startP.take oLen, startP.drop oLen, false)
  | none, some oLen => (startP.take oLen, startP.drop (oLen + 1), true)
  | none, none => (startP, [], false)

namespace CoapPDU

/-- `setToken` for a token that is not NULL, with its result.  `oldPDULength` is a
`uint8_t`. -/
def setToken (p : CoapPDU) (token : List UInt8) : Exec (CoapPDU × ℕ) :=
  let tokenLength := UInt8.ofNat token.length
  if tokenLength = 0 then .ok (p, 1)
  else
    let oldTokenLength := p.getTokenLength
    if tokenLength.toNat = oldTokenLength then do
      let p ← p.memcpy 4 token
      return (p, 0)
    else
      let oldPDULength := p.pduLength % 256
      let newLength := p.pduLength - oldTokenLength + tokenLength.toNat
      if newLength > oldPDULength then
        match p.makeRoom newLength with
        | (p, false) => .ok ({ p with pduLength := oldPDULength }, 1)
        | (p, true) => do
          let shiftOffset : ℤ := p.pduLength - oldPDULength
          let shiftAmount : ℤ := p.pduLength - tokenLength.toNat - COAP_HDR_SIZE
          let p ← p.shiftPDUUp shiftOffset shiftAmount
          let p ← p.memcpy 4 token
          let (p, _) ← p.setTokenLength tokenLength
          return (p, 0)
      else do
        let p ← { p with pduLength := newLength }.memcpy 4 token
        let startLocation : ℤ := COAP_HDR_SIZE + tokenLength.toNat
        let shiftOffset : ℤ := oldPDULength - p.pduLength
        let shiftAmount : ℤ := oldPDULength - oldTokenLength - COAP_HDR_SIZE
        let p ← p.shiftPDUDown startLocation shiftOffset shiftAmount
        if p.constructedFromBuffer then do
          let (p, _) ← p.setTokenLength tokenLength
          return (p, 0)
        else
          match p.realloc p.pduLength with
          | (p, false) => return (p, 1)
          | (p, true) => do
            let (p, _) ← { p with bufferLength := p.pduLength }.setTokenLength tokenLength
            return (p, 0)

def mallocPayload (p : CoapPDU) (len : ℕ) : Exec (CoapPDU × Option ℕ) :=
  if len = 0 then .ok (p, none)
  else if len = p.payloadLength then .ok (p, p.payloadPointer)
  else
    let markerSpace : ℤ := if p.payloadLength ≠ 0 then 0 else 1
    let payloadSpace : ℤ := if p.payloadLength ≠ 0 then len - p.payloadLength else len
    let newLen := (p.pduLength + payloadSpace + markerSpace).toNat
    let oldLength := p.pduLength
    match p.makeRoom newLen with
    | (p, false) => .ok (p, none)
    | (p, true) =>
      match p.payloadPointer with
      | none => do
        let p ← p.write oldLength 0xFF
        let payloadPointer := some (p.addr + (oldLength + 1))
        return ({ p with payloadPointer, payloadLength := len }, payloadPointer)
      | some payloadPointer => .ok ({ p with payloadLength := len }, some payloadPointer)

/-- `setPayload` for a payload that is not NULL.  A payload pointer from before a block
moved no longer points into the PDU. -/
def setPayload (p : CoapPDU) (payload : List UInt8) : Exec (CoapPDU × ℕ) := do
  match ← p.mallocPayload payload.length with
  | (p, none) => return (p, 1)
  | (p, some payloadPointer) =>
    if p.addr ≤ payloadPointer then do
      let p ← p.memcpy (payloadPointer - p.addr) payload
      return (p, 0)
    else .error .outOfBounds

/-- The loop of `setURI`, from the characters `startP` of the string on.  Each turn takes at
least one of them, so their number is enough of turns. -/
def setURILoop : ℕ → List UInt8 → UInt8 → UInt16 → CoapPDU → Exec (CoapPDU × ℕ)
  | 0, _, _, _, p => .ok (p, 0)
  | fuel + 1, startP, splitChar, optionType, p =>
    if startP.length ≤ 1 then .ok (p, 0)
    else
      let (segment, rest, queryStageTriggered) := nextSegment startP splitChar
      do
        let (p, failed) ← p.addOption optionType segment
        if failed ≠ 0 then return (p, 1)
        else if queryStageTriggered then setURILoop fuel rest 0x26 COAP_OPTION_URI_QUERY p
        else setURILoop fuel rest splitChar optionType p

def setURI (p : CoapPDU) (uri : List UInt8) : Exec (CoapPDU × ℕ) :=
  match uri with
  | [] => .ok (p, 1)
  | [c] => do
    let (p, _) ← p.addOption COAP_OPTION_URI_PATH [c]
    return (p, 0)
  | uri => setURILoop uri.length uri 0x2F COAP_OPTION_URI_PATH p

def addURIQuery (p : CoapPDU) (query : List UInt8) : Exec (CoapPDU × ℕ) :=
  p.addOption COAP_OPTION_URI_QUERY query

/-- `setContentFormat`, whose case for two bytes is never taken. -/
def setContentFormat (p : CoapPDU) (format : UInt32) : Exec (CoapPDU × ℕ) := do
  let value := if format = 0 then [] else [format.toUInt8]
  let (p, failed) ← p.addOption COAP_OPTION_CONTENT_FORMAT value
  if failed ≠ 0 then return (p, 1) else return (p, 0)

end CoapPDU

end Mbtk.Coap
