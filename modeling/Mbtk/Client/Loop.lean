import Mbtk.Client.Package
import Mbtk.Coap.Recv
import Mbtk.Lib.Transition
import Mbtk.MString.Split

/-! The client: its list of packages, the resolution of received datagrams and the loop over
the command lines. -/

namespace Mbtk.Client

open Coap MString

/-- A package of the list `mbtk_coaps`.  `serial` stands for its address: it counts the
packages that were ever allocated. -/
structure Item where
  serial : ℕ
  package : Package
  deriving DecidableEq

/-- A datagram handed to `mbtk_coap_udp_sendto`, with the package that it is for.  An ACK is
for none. -/
structure Sent where
  origin : Option ℕ
  datagram : List UInt8
  deriving DecidableEq

/-- The state of the program.  `sent` lists what was handed to the network from the oldest
datagram on, and `serials` and `ids` count the packages allocated and the message IDs taken
from the counter.  `keepsFreed` says whether the link of an option still reads as before once
the option was freed. -/
structure State where
  keepsFreed : Bool
  coaps : List Item
  messageId : UInt16
  pdu : SharedPDU
  sent : List Sent
  serials : ℕ
  ids : ℕ

/-- `mbtk_coap_get_by_msg_id`. -/
def getByMsgId (coaps : List Item) (messageId : UInt16) : Option Item :=
  coaps.find? (·.package.messageId = messageId)

/-- `mbtk_coap_free`, whose loop reads the link of each option after the option was freed. -/
def coapFree (keepsFreed : Bool) (coap : Package) : Exec Unit :=
  coap.options.forM fun _ => if keepsFreed then .ok () else .error .freed

/-- `mbtk_coap_list_del`. -/
def listDel (keepsFreed : Bool) (messageId : UInt16) : List Item → Exec (List Item)
  | [] => .ok []
  | coap :: coaps =>
    if coap.package.messageId = messageId then do
      coapFree keepsFreed coap.package
      return coaps
    else do
      return coap :: (← listDel keepsFreed messageId coaps)

def store (coaps : List Item) (item : Item) : List Item :=
  coaps.map fun other => if other.serial = item.serial then item else other

namespace State

/-- `mbtk_coap_list_add`, with the new package, or nothing if the ID is taken. -/
def listAdd (s : State) (messageId : UInt16) : Option (State × Item) :=
  if s.coaps.any (·.package.messageId = messageId) then none
  else
    let item : Item := ⟨s.serials, listItemInit messageId⟩
    some ({ s with coaps := s.coaps ++ [item], serials := s.serials + 1 }, item)

def nextId (s : State) : State := { s with messageId := s.messageId + 1, ids := s.ids + 1 }

/-- `mbtk_coap_list_del(messageId)`. -/
def listDel (s : State) (messageId : UInt16) : Exec State := do
  return { s with coaps := ← Client.listDel s.keepsFreed messageId s.coaps }

/-- `mbtk_coap_coap_send` for a package of the list.  `complete` says whether `sendto` took
all bytes. -/
def send (s : State) (item : Item) (complete : Bool) : Exec State := do
  let (pdu, datagram) ← coapSend s.pdu item.package
  let sent := s.sent ++ [⟨some item.serial, datagram⟩]
  let coaps :=
    if complete then s.coaps
    else store s.coaps
      { item with package.sendCount := item.package.sendCount + 1 }
  if item.package.type ≠ .confirmable then
    listDel { s with pdu, sent, coaps } item.package.messageId
  else return { s with pdu, sent, coaps }

end State

section Lines

def wordGET : List UInt8 := [0x47, 0x45, 0x54]
def wordPOST : List UInt8 := [0x50, 0x4F, 0x53, 0x54]
def wordPUT : List UInt8 := [0x50, 0x55, 0x54]
def wordDELETE : List UInt8 := [0x44, 0x45, 0x4C, 0x45, 0x54, 0x45]

/-- `strncmp` gives 0 on strings without their NUL. -/
def strncmpEq (a b : List UInt8) (n : ℕ) : Bool := a.take n == b.take n

/-- The code of the method, which `main` tells by its first three letters. -/
def methodCode (word : List UInt8) : Option UInt8 :=
  if strncmpEq wordGET word 3 then some COAP_GET
  else if strncmpEq wordPOST word 3 then some COAP_POST
  else if strncmpEq wordPUT word 3 then some COAP_PUT
  else if strncmpEq wordDELETE word 3 then some COAP_DELETE
  else none

/-- `mbtk_coap_set_payload`. -/
def Package.setPayload (coap : Package) (data : List UInt8) : Package :=
  { coap with playload := data }

def Package.request (coap : Package) (argv : List (List UInt8)) : Exec Package := do
  let coap ← setOption coap .uriPath (argv.getD 1 []) 0 0 0
  let coap ← setOption coap .maxAge [] 1 0 0
  let coap ← setOption coap .contentFormat [] 0 0 0
  if argv.length = 3 then return coap.setPayload (argv.getD 2 [])
  else return coap

/-- The words of a line, if `str_split_by_string` finds any. -/
def words (text : List UInt8) : Option (List (List UInt8)) :=
  strSplitByString (text.takeWhile (· ≠ 0)) [0x20]

def State.commandLine (s : State) (text : List UInt8) (complete : Bool) : Exec State :=
  if text.length < 200 then
    match words text with
    | none => .ok s
    | some argv =>
      if argv.length = 2 ∨ argv.length = 3 then
        match s.listAdd s.messageId with
        | none => .ok s
        | some (s, item) =>
          let s := s.nextId
          let coap := { item.package with type := .confirmable }
          match methodCode (argv.getD 0 []) with
          | none => .ok { s with coaps := store s.coaps ⟨item.serial, coap⟩ }
          | some code => do
            let coap ← Package.request { coap with code } argv
            let item : Item := ⟨item.serial, coap⟩
            { s with coaps := store s.coaps item }.send item complete
      else .ok s
  else .error (.overrun .line)

end Lines

section Datagrams

/-- The `memcpy` to `token` in `mbtk_coap_recv_resolve`. -/
def copyToken (p : CoapPDU) : Exec (List UInt8) :=
  if p.getTokenLength ≤ 9 then .ok p.getToken else .error (.overrun .token)

namespace State

/-- The next request of a block-wise transfer: the package takes a new ID and asks for the
block behind the one received. -/
def continueBlock (s : State) (coapSend : Item) (block : RecvBlock) (complete : Bool) :
    Exec State := do
  let coap := { coapSend.package with messageId := s.messageId }
  let s := s.nextId
  let coap ← setOption coap .block2 [] block.size.toUInt32 (block.number + 1) 0
  let item : Item := ⟨coapSend.serial, coap⟩
  { s with coaps := store s.coaps item }.send item complete

/-- The branch of `mbtk_coap_recv_resolve` for an ACK. -/
def resolveAck (s : State) (p : CoapPDU) (complete : Bool) : Exec State :=
  match getByMsgId s.coaps p.getMessageID with
  | none => .ok s
  | some coapSend => do
    match ← p.coapGetRecvOptionBlock2 with
    | some block =>
      if block.moreFlag ≠ 0 then s.continueBlock coapSend block complete
      else s.listDel p.getMessageID
    | none => s.listDel p.getMessageID

/-- `mbtk_coap_recv_resolve` behind the validation of the datagram. -/
def resolve (s : State) (p : CoapPDU) (complete : Bool) : Exec State := do
  let token ← copyToken p
  let _ ← p.coapGetRecvOptionUriPath .uriPath (List.replicate 100 0)
  if p.getType = CoapType.confirmable.value then
    let (pdu, datagram) ← sendAck s.pdu p.getCode p.getMessageID token
    return { s with pdu, sent := s.sent ++ [⟨none, datagram⟩] }
  else if p.getType = CoapType.nonConfirmable.value then return s
  else if p.getType = CoapType.acknowledgement.value then s.resolveAck p complete
  else return s

/-- `coap_read_cb` for a datagram at `addr`, with `after` behind it in memory. -/
def readCb (s : State) (addr : ℕ) (d after : List UInt8) (complete : Bool) : Exec State :=
  if d.length > 0 then do
    match ← coapCreateRecv addr (d ++ after) d.length with
    | none => return s
    | some p => s.resolve p complete
  else .ok s

end State

end Datagrams

/-- What the client reacts to.  Its two threads take turns: each line and each datagram is
dealt with at one go. -/
inductive Event
  | line (text : List UInt8) (complete : Bool)
  | datagram (addr : ℕ) (d after : List UInt8) (complete : Bool)

namespace State

def react (s : State) : Event → Exec State
  | .line text complete => s.commandLine text complete
  | .datagram addr d after complete => s.readCb addr d after complete

/-- The client before its first event. -/
def start (keepsFreed : Bool) (addr : ℕ) (heap : ℕ → Option Block) : State where
  keepsFreed
  coaps := []
  messageId := 1
  pdu := .null addr heap
  sent := []
  serials := 0
  ids := 0

/-- The runs of the client.  Every allocation succeeds, and an execution that leaves the
language has no next state. -/
def system : Lib.System State Event where
  init s := ∃ keepsFreed addr heap, (∀ i, (heap i).isSome) ∧ s = start keepsFreed addr heap
  step s e t := s.react e = .ok t

end State

end Mbtk.Client
