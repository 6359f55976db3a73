import Mathlib.Tactic

/-! The PDU container of the CoAP library: its memory, its constructors and the
fields of the fixed header. -/

namespace Mbtk.Coap

/-- The fixed-size arrays of the client that bytes of foreign length are copied to. -/
inductive Buffer
  | token | uriPath | buff | optStr | line
  deriving DecidableEq

/-- Where a C execution leaves the language: an access outside the block its pointer
belongs to, a read of memory that was freed, or a copy longer than the array it goes to. -/
inductive Fault
  | outOfBounds
  | freed
  | overrun (buffer : Buffer)
  deriving DecidableEq

abbrev Exec := Except Fault

@[simp] theorem ok_bind {α β : Type} (x : α) (f : α → Exec β) : (Except.ok x >>= f) = f x := rfl

@[simp] theorem error_bind {α β : Type} (e : Fault) (f : α → Exec β) :
    (Except.error e >>= f) = .error e := rfl

theorem bind_eq_ok {α β : Type} {x : Exec α} {f : α → Exec β} {y : β} :
    x >>= f = .ok y ↔ ∃ a, x = .ok a ∧ f a = .ok y := by
  cases x with
  | error e => simp
  | ok a => simp

@[simp] theorem pure_eq_ok {α : Type} (x : α) : (pure x : Exec α) = .ok x := rfl

/-- What `realloc` hands out: where the block lies and what its new bytes hold. -/
structure Block where
  addr : ℕ
  fresh : ℕ → UInt8

/-- The fields of the class.  `pdu` is the memory the program owns from the address
`addr` of `_pdu` on, and `payloadPointer` is an address, so it goes stale when a block
moves.  `heap` is not a field of the class: it lists what the coming calls of `realloc`
return. -/
structure CoapPDU where
  addr : ℕ
  pdu : List UInt8
  pduLength : ℕ
  constructedFromBuffer : Bool
  bufferLength : ℕ
  payloadPointer : Option ℕ
  payloadLength : ℕ
  numOptions : ℕ
  maxAddedOptionNumber : UInt16
  heap : ℕ → Option Block

def COAP_HDR_SIZE : ℕ := 4
def COAP_OPTION_HDR_BYTE : ℕ := 1

namespace CoapPDU

/-- `_pdu[i]`.  Past the memory of the program the byte reads as 0. -/
def read (p : CoapPDU) (i : ℕ) : UInt8 := p.pdu.getD i 0

def write (p : CoapPDU) (i : ℕ) (b : UInt8) : Exec CoapPDU :=
  if i < p.pdu.length then .ok { p with pdu := p.pdu.set i b } else .error .outOfBounds

def memcpy (p : CoapPDU) (i : ℕ) (bs : List UInt8) : Exec CoapPDU :=
  if i + bs.length ≤ p.pdu.length then
    .ok { p with pdu := p.pdu.take i ++ bs ++ p.pdu.drop (i + bs.length) }
  else .error .outOfBounds

/-- The next `realloc(_pdu, n)`; the flag tells a new block from NULL. -/
def realloc (p : CoapPDU) (n : ℕ) : CoapPDU × Bool :=
  let q := { p with heap := fun i => p.heap (i + 1) }
  match p.heap 0 with
  | none => (q, false)
  | some b =>
    ({ q with
        addr := b.addr
        pdu := p.pdu.take n ++ (List.range (n - p.pdu.length)).map b.fresh }, true)

/-- The sequence shared by `addOption` and `setToken`: set the length of the PDU to
`newLength`, reallocating a dynamic PDU and checking the space of a buffer, with the old
length restored when there is no room. -/
def makeRoom (p : CoapPDU) (newLength : ℕ) : CoapPDU × Bool :=
  if p.constructedFromBuffer then
    if newLength > p.bufferLength then (p, false)
    else ({ p with pduLength := newLength }, true)
  else
    match p.realloc newLength with
    | (q, false) => (q, false)
    | (q, true) => ({ q with pduLength := newLength, bufferLength := newLength }, true)

/-- `setVersion`, whose result 0 for a version above 3 nobody looks at. -/
def setVersion (p : CoapPDU) (version : UInt8) : Exec CoapPDU :=
  if version > 3 then .ok p
  else do
    let p ← p.write 0 (p.read 0 &&& 0x3F)
    p.write 0 (p.read 0 ||| (version <<< 6))

def getVersion (p : CoapPDU) : UInt8 := (p.read 0 &&& 0xC0) >>> 6

def setType (p : CoapPDU) (mt : UInt8) : Exec CoapPDU := do
  let p ← p.write 0 (p.read 0 &&& 0xCF)
  p.write 0 (p.read 0 ||| mt)

def getType (p : CoapPDU) : UInt8 := p.read 0 &&& 0x30

def setTokenLength (p : CoapPDU) (tokenLength : UInt8) : Exec (CoapPDU × ℕ) :=
  if tokenLength > 8 then .ok (p, 1)
  else do
    let p ← p.write 0 (p.read 0 &&& 0xF0)
    let p ← p.write 0 (p.read 0 ||| tokenLength)
    return (p, 0)

def getTokenLength (p : CoapPDU) : ℕ := (p.read 0 &&& 0x0F).toNat

def setCode (p : CoapPDU) (code : UInt8) : Exec CoapPDU := p.write 1 code

def getCode (p : CoapPDU) : UInt8 := p.read 1

end CoapPDU

def psNtohs (x : UInt16) : UInt16 := ((x &&& 0x00FF) <<< 8) ||| ((x &&& 0xFF00) >>> 8)

/-- `endian_store16`: the swapped value as a little-endian host keeps it. -/
def endianStore16 (num : UInt16) : List UInt8 :=
  let val := psNtohs num
  [val.toUInt8, (val >>> 8).toUInt8]

def endianLoad16 (hi lo : UInt8) : UInt16 := (hi.toUInt16 <<< 8) ||| lo.toUInt16

namespace CoapPDU

def setMessageID (p : CoapPDU) (messageID : UInt16) : Exec CoapPDU :=
  p.memcpy 2 (endianStore16 messageID)

def getMessageID (p : CoapPDU) : UInt16 := endianLoad16 (p.read 2) (p.read 3)

def getPDULength (p : CoapPDU) : ℕ := p.pduLength

def getNumOptions (p : CoapPDU) : ℕ := p.numOptions

def getPayloadPointer (p : CoapPDU) : Option ℕ := p.payloadPointer

def getPayloadLength (p : CoapPDU) : ℕ := p.payloadLength

def new (addr : ℕ) (heap : ℕ → Option Block) : Exec CoapPDU :=
  setVersion
    { addr, heap
      pdu := List.replicate 4 0
      pduLength := 4
      constructedFromBuffer := false
      bufferLength := 4
      payloadPointer := none
      payloadLength := 0
      numOptions := 0
      maxAddedOptionNumber := 0 } 1

/-- `CoapPDU(buffer, bufferLength, pduLength)`, where `buffer` is the memory from the
address `addr` on and may go on past `bufferLength`. -/
def ofBuffer (addr : ℕ) (buffer : List UInt8) (bufferLength pduLength : ℕ) : Exec CoapPDU :=
  let p : CoapPDU :=
    { addr
      pdu := buffer
      pduLength := if pduLength = 0 then 4 else pduLength
      constructedFromBuffer := true
      bufferLength
      payloadPointer := none
      payloadLength := 0
      numOptions := 0
      maxAddedOptionNumber := 0
      heap := fun _ => none }
  if pduLength = 0 then do
    let p ← p.memcpy 0 [0, 0, 0, 0]
    p.setVersion 1
  else .ok p

def reset (p : CoapPDU) : Exec CoapPDU := do
  let p ← p.memcpy 0 (List.replicate p.bufferLength 0)
  return { p with
    pduLength := 4
    numOptions := 0
    maxAddedOptionNumber := 0
    payloadPointer := none
    payloadLength := 0 }

end CoapPDU

end Mbtk.Coap
