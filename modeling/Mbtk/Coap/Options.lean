import Mbtk.Coap.Pdu

namespace Mbtk.Coap

/-- `computeExtraBytes`: the bytes a minimal encoding of `n` adds to its nibble. -/
def computeExtraBytes (n : UInt16) : ℕ :=
  if n < 13 then 0 else if n < 269 then 1 else 2

/-- `getOptionDelta`.  A pointer into the PDU is the memory from there on. -/
def getOptionDelta (option : List UInt8) : UInt16 :=
  let delta := ((option.getD 0 0 &&& 0xF0) >>> 4).toUInt16
  if delta < 13 then delta
  else if delta = 13 then (option.getD 1 0).toUInt16 + 13
  else if delta = 14 then endianLoad16 (option.getD 1 0) (option.getD 2 0) + 269
  else delta

def getOptionValueLength (option : List UInt8) : UInt16 :=
  let delta := ((option.getD 0 0 &&& 0xF0) >>> 4).toUInt16
  let length := (option.getD 0 0 &&& 0x0F).toUInt16
  if length < 13 then length
  else
    let offset := if delta = 13 then 2 else if delta = 14 then 3 else 1
    if length = 13 then (option.getD offset 0).toUInt16 + 13
    else endianLoad16 (option.getD offset 0) (option.getD (offset + 1) 0) + 269

namespace CoapPDU

def shiftPDUUpLoop : ℕ → ℤ → ℤ → CoapPDU → Exec CoapPDU
  | 0, _, _, p => .ok p
  | shiftAmount + 1, destPointer, srcPointer, p =>
    if 0 ≤ destPointer ∧ 0 ≤ srcPointer then do
      let p ← p.write destPointer.toNat (p.read srcPointer.toNat)
      shiftPDUUpLoop shiftAmount (destPointer - 1) (srcPointer - 1) p
    else .error .outOfBounds

/-- `shiftPDUUp`.  `while(shiftAmount--)` with a negative amount runs off the block. -/
def shiftPDUUp (p : CoapPDU) (shiftOffset shiftAmount : ℤ) : Exec CoapPDU :=
  let destPointer : ℤ := p.pduLength - 1
  let srcPointer := destPointer - shiftOffset
  if shiftAmount < 0 then .error .outOfBounds
  else shiftPDUUpLoop shiftAmount.toNat destPointer srcPointer p

def shiftPDUDownLoop : ℕ → ℤ → ℤ → CoapPDU → Exec CoapPDU
  | 0, _, _, p => .ok p
  | shiftAmount + 1, startLocation, srcPointer, p =>
    if 0 ≤ startLocation ∧ 0 ≤ srcPointer then do
      let p ← p.write startLocation.toNat (p.read srcPointer.toNat)
      shiftPDUDownLoop shiftAmount (startLocation + 1) (srcPointer + 1) p
    else .error .outOfBounds

def shiftPDUDown (p : CoapPDU) (startLocation shiftOffset shiftAmount : ℤ) : Exec CoapPDU :=
  let srcPointer := startLocation + shiftOffset
  if shiftAmount < 0 then .error .outOfBounds
  else shiftPDUDownLoop shiftAmount.toNat startLocation srcPointer p

/-- The walk of `findInsertionPosition`, with the number of the option before it. -/
def findInsertionPositionLoop (p : CoapPDU) (optionNumber : UInt16) :
    ℕ → ℕ → UInt16 → UInt16 → ℕ × UInt16
  | 0, optionPos, _, prevOptionNumber => (optionPos, prevOptionNumber)
  | fuel + 1, optionPos, currentOptionNumber, prevOptionNumber =>
    if optionPos < p.pduLength ∧ p.read optionPos ≠ 0xFF then
      let optionDelta := getOptionDelta (p.pdu.drop optionPos)
      let currentOptionNumber := currentOptionNumber + optionDelta
      let optionValueLength := getOptionValueLength (p.pdu.drop optionPos)
      if currentOptionNumber > optionNumber then (optionPos, prevOptionNumber)
      else
        findInsertionPositionLoop p optionNumber fuel
          (optionPos + computeExtraBytes optionDelta + computeExtraBytes optionValueLength +
            optionValueLength.toNat + 1)
          currentOptionNumber currentOptionNumber
    else (optionPos, prevOptionNumber)

/-- `findInsertionPosition`, with `*prevOptionNumber` second.  Each turn of the walk moves
on by at least one byte, so `_pduLength` turns reach its end. -/
def findInsertionPosition (p : CoapPDU) (optionNumber : UInt16) : ℕ × UInt16 :=
  if optionNumber ≥ p.maxAddedOptionNumber ∨ p.pduLength = COAP_HDR_SIZE + p.getTokenLength then
    (p.pduLength, p.maxAddedOptionNumber)
  else
    findInsertionPositionLoop p optionNumber p.pduLength (COAP_HDR_SIZE + p.getTokenLength) 0 0

def setOptionDelta (p : CoapPDU) (optionPosition : ℕ) (optionDelta : UInt16) : Exec CoapPDU := do
  let headerStart := optionPosition
  let p ← p.write headerStart (p.read headerStart &&& 0x0F)
  if optionDelta < 13 then
    p.write headerStart (p.read headerStart ||| (optionDelta <<< 4).toUInt8)
  else if optionDelta < 269 then do
    let p ← p.write headerStart (p.read headerStart ||| 0xD0)
    let p ← p.write (optionPosition + 1) (p.read (optionPosition + 1) &&& 0x00)
    p.write (optionPosition + 1) (p.read (optionPosition + 1) ||| (optionDelta - 13).toUInt8)
  else do
    let p ← p.write headerStart (p.read headerStart ||| 0xE0)
    p.memcpy (optionPosition + 1) (endianStore16 (optionDelta - 269))

/-- The delta part of `insertOption`, with the position of the last byte written. -/
def insertOptionDelta (p : CoapPDU) (headerStart : ℕ) (optionDelta : UInt16) :
    Exec (CoapPDU × ℕ) := do
  let insertionPosition := headerStart
  let p ← p.write headerStart (p.read headerStart &&& 0x00)
  if optionDelta < 13 then do
    let p ← p.write headerStart (p.read headerStart ||| (optionDelta <<< 4).toUInt8)
    return (p, insertionPosition)
  else if optionDelta < 269 then do
    let p ← p.write headerStart (p.read headerStart ||| 0xD0)
    let insertionPosition := insertionPosition + 1
    let p ← p.write insertionPosition (p.read insertionPosition &&& 0x00)
    let p ← p.write insertionPosition (p.read insertionPosition ||| (optionDelta - 13).toUInt8)
    return (p, insertionPosition)
  else do
    let p ← p.write headerStart (p.read headerStart ||| 0xE0)
    let insertionPosition := insertionPosition + 1
    let p ← p.memcpy insertionPosition (endianStore16 (optionDelta - 269))
    return (p, insertionPosition + 1)

/-- The length part of `insertOption`, with the last position written and what the
function leaves in `optionValueLength`: a length of two extension bytes has 269
subtracted from the variable itself. -/
def insertOptionLength (p : CoapPDU) (headerStart insertionPosition : ℕ)
    (optionValueLength : UInt16) : Exec (CoapPDU × ℕ × UInt16) :=
  if optionValueLength < 13 then do
    let p ← p.write headerStart (p.read headerStart ||| (optionValueLength &&& 0x000F).toUInt8)
    return (p, insertionPosition, optionValueLength)
  else if optionValueLength < 269 then do
    let p ← p.write headerStart (p.read headerStart ||| 0x0D)
    let insertionPosition := insertionPosition + 1
    let p ← p.write insertionPosition (p.read insertionPosition &&& 0x00)
    let p ← p.write insertionPosition
      (p.read insertionPosition ||| (optionValueLength - 13).toUInt8)
    return (p, insertionPosition, optionValueLength)
  else do
    let p ← p.write headerStart (p.read headerStart ||| 0x0E)
    let insertionPosition := insertionPosition + 1
    let optionValueLength := optionValueLength - 269
    let p ← p.memcpy insertionPosition (endianStore16 optionValueLength)
    return (p, insertionPosition + 1, optionValueLength)

def insertOption (p : CoapPDU) (insertionPosition : ℕ) (optionDelta optionValueLength : UInt16)
    (optionValue : List UInt8) : Exec CoapPDU := do
  let headerStart := insertionPosition
  let (p, insertionPosition) ← p.insertOptionDelta headerStart optionDelta
  let (p, insertionPosition, optionValueLength) ←
    p.insertOptionLength headerStart insertionPosition optionValueLength
  p.memcpy (insertionPosition + 1) (optionValue.take optionValueLength.toNat)

/-- The end of `addOption` for an option that goes behind everything in the PDU. -/
def appendOption (p : CoapPDU) (insertedOptionNumber optionDelta : UInt16) (optionLength : ℕ)
    (optionValue : List UInt8) : Exec (CoapPDU × ℕ) := do
  let insertionPosition := p.pduLength
  let p := { p with maxAddedOptionNumber := insertedOptionNumber }
  match p.makeRoom (p.pduLength + optionLength) with
  | (p, false) => return (p, 1)
  | (p, true) => do
    let p ← p.insertOption insertionPosition optionDelta (UInt16.ofNat optionValue.length)
      optionValue
    return ({ p with numOptions := p.numOptions + 1 }, 0)

/-- The end of `addOption` for an option that goes in front of another one, whose delta
is written anew. -/
def spliceOption (p : CoapPDU) (insertionPosition : ℕ)
    (insertedOptionNumber prevOptionNumber optionDelta : UInt16) (optionLength : ℕ)
    (optionValue : List UInt8) : Exec (CoapPDU × ℕ) := do
  let nextOptionDelta := getOptionDelta (p.pdu.drop insertionPosition)
  let nextOptionNumber : ℤ := prevOptionNumber.toNat + nextOptionDelta.toNat
  let nextOptionDeltaBytes := computeExtraBytes nextOptionDelta
  let newNextOptionDelta : ℤ := nextOptionNumber - insertedOptionNumber.toNat
  let newNextOptionDeltaBytes := computeExtraBytes (UInt16.ofInt newNextOptionDelta)
  let optionDeltaAdjustment : ℤ := newNextOptionDeltaBytes - nextOptionDeltaBytes
  let mallocLength : ℤ := optionLength + optionDeltaAdjustment
  match p.makeRoom (p.pduLength + mallocLength).toNat with
  | (p, false) => return (p, 1)
  | (p, true) => do
    let p ← p.shiftPDUUp mallocLength (p.pduLength - (insertionPosition + mallocLength))
    let nextHeaderPos := insertionPosition + mallocLength
    let p ← p.write (nextHeaderPos - optionDeltaAdjustment).toNat (p.read nextHeaderPos.toNat)
    let nextHeaderPos := nextHeaderPos - optionDeltaAdjustment
    let p ← p.setOptionDelta nextHeaderPos.toNat (UInt16.ofInt newNextOptionDelta)
    let p ← p.insertOption insertionPosition optionDelta (UInt16.ofNat optionValue.length)
      optionValue
    return ({ p with numOptions := p.numOptions + 1 }, 0)

/-- `addOption` for the `optionValueLength` bytes `optionValue`, with its result. -/
def addOption (p : CoapPDU) (insertedOptionNumber : UInt16) (optionValue : List UInt8) :
    Exec (CoapPDU × ℕ) :=
  let optionValueLength := UInt16.ofNat optionValue.length
  let (insertionPosition, prevOptionNumber) := p.findInsertionPosition insertedOptionNumber
  let optionDelta := insertedOptionNumber - prevOptionNumber
  let extraDeltaBytes := computeExtraBytes optionDelta
  let extraLengthBytes := computeExtraBytes optionValueLength
  let optionLength :=
    (COAP_OPTION_HDR_BYTE + extraDeltaBytes + extraLengthBytes + optionValueLength.toNat) % 65536
  if insertionPosition = p.pduLength then
    p.appendOption insertedOptionNumber optionDelta optionLength optionValue
  else
    p.spliceOption insertionPosition insertedOptionNumber prevOptionNumber optionDelta
      optionLength optionValue

end CoapPDU

end Mbtk.Coap
