import Mbtk.Lib.Resource
import Mbtk.Lib.Transition

/-! The table of sockets: opening, connecting and closing, with the outcomes of the system calls as
arguments. -/

namespace Mbtk.Sock

open Lib

def MBTK_SOCK_NUM_MAX : ℕ := 30

def EINPROGRESS : ℤ := 115

inductive SockType
  | tcp | udp
  deriving DecidableEq

/-- The address of a callback, with `none` for a null pointer. -/
abbrev Callback := Option ℕ

/-- The fields of `mbtk_sock_s` that are written. -/
structure MbtkSock where
  fd : ℤ
  type : SockType
  isSync : Bool
  isSsl : Bool
  readCb : Callback
  canReadCb : Callback
  deriving DecidableEq

def MbtkSock.zero : MbtkSock := ⟨0, .tcp, false, false, none, none⟩

/-- What `mbtk_sock_open` writes once it has a descriptor. -/
def MbtkSock.configure (isSsl : Bool) (canReadCb readCb : Callback) (sock : MbtkSock) : MbtkSock :=
  let sock := { sock with isSsl }
  if canReadCb.isSome || readCb.isSome then { sock with isSync := false, canReadCb, readCb }
  else { sock with isSync := true }

def MbtkSock.desc (sock : MbtkSock) : Option ℤ := if 0 < sock.fd then some sock.fd else none

abbrev Slot := Fin MBTK_SOCK_NUM_MAX

/-- The table, with the descriptors that `socket` returned and the calls of `close`. -/
structure State where
  mbtkSocks : Slot → MbtkSock
  log : List (ResourceEvent ℤ)

namespace State

variable (s : State)

/-- The search that all three functions start with. -/
def find (p : MbtkSock → Bool) : Option Slot :=
  (List.finRange MBTK_SOCK_NUM_MAX).find? fun index => p (s.mbtkSocks index)

def modify (index : Slot) (f : MbtkSock → MbtkSock) : State :=
  { s with mbtkSocks := Function.update s.mbtkSocks index (f (s.mbtkSocks index)) }

def socket (index : Slot) (fd : ℤ) : State :=
  let s := s.modify index ({ · with fd })
  if fd < 0 then s else { s with log := s.log ++ [.acquire fd] }

def closeSlot (index : Slot) : State :=
  let log := s.log ++ [.release (s.mbtkSocks index).fd]
  { s.modify index fun _ => MbtkSock.zero with log }

end State

/-- What the system calls of `mbtk_sock_open` return. -/
structure OpenOutcome where
  socket : ℤ
  getfl : ℤ
  setfl : ℤ

/-- What the calls of `mbtk_sock_conn` return.  `host` says whether `gethostbyname` finds an entry,
`readable` and `writable` are the sets that `select` leaves, which have room for each descriptor. -/
structure ConnOutcome where
  host : Bool
  connect : ℤ
  errno : ℤ
  nready : ℤ
  readable : Bool
  writable : Bool
  getsockopt : ℤ
  error : ℤ
  setitimer : ℤ

section Functions

variable (s : State)

/-- `mbtk_sock_open`.  Both kinds of sockets end with the two calls of `fcntl`. -/
def mbtkSockOpen (type : SockType) (isSsl : Bool) (canReadCb readCb : Callback) (o : OpenOutcome) :
    ℤ × State :=
  match s.find fun sock => ¬ 0 < sock.fd with
  | none => (-1, s)
  | some index =>
    let s := s.modify index ({ · with type })
    let s := s.socket index o.socket
    if o.socket < 0 then (-1, s)
    else
      let s := s.modify index (·.configure isSsl canReadCb readCb)
      if o.getfl < 0 then (-1, s.closeSlot index)
      else if o.setfl < 0 then (-1, s.closeSlot index)
      else ((s.mbtkSocks index).fd, s)

/-- Whether `mbtk_sock_conn` gets to its label for success. -/
def connects (isSync : Bool) (o : ConnOutcome) : Bool :=
  if !o.host then false
  else if !isSync then
    if o.connect < 0 ∧ o.errno ≠ EINPROGRESS then false
    else if o.nready = 0 then false
    else if o.readable && o.writable then
      if o.getsockopt < 0 then false else o.error = 0
    else o.writable
  else if o.setitimer = -1 then false
  else ¬ o.connect < 0

def mbtkSockConn (fd : ℤ) (o : ConnOutcome) : ℤ × State :=
  match s.find fun sock => sock.fd = fd with
  | none => (-1, s)
  | some index =>
    if fd ≤ 0 then (-1, s)
    else if connects (s.mbtkSocks index).isSync o then (0, s)
    else (-1, s.closeSlot index)

def mbtkSockClose (fd : ℤ) : ℤ × State :=
  match s.find fun sock => sock.fd = fd with
  | none => (-1, s)
  | some index => if fd ≤ 0 then (-1, s) else (0, s.closeSlot index)

end Functions

/-- A call of the module. -/
inductive Call
  | sockOpen (type : SockType) (isSsl : Bool) (canReadCb readCb : Callback) (o : OpenOutcome)
  | sockConn (fd : ℤ) (o : ConnOutcome)
  | sockClose (fd : ℤ)

namespace State

def call (s : State) : Call → ℤ × State
  | .sockOpen type isSsl canReadCb readCb o => mbtkSockOpen s type isSsl canReadCb readCb o
  | .sockConn fd o => mbtkSockConn s fd o
  | .sockClose fd => mbtkSockClose s fd

def start : State where
  mbtkSocks _ := MbtkSock.zero
  log := []

def system : System State Call where
  init s := s = start
  step s c t := (s.call c).2 = t

/-- A descriptor that `socket` returns is positive and not open. -/
def FreshSocket (s : State) : Call → Prop
  | .sockOpen _ _ _ _ o => o.socket < 0 ∨ 0 < o.socket ∧ o.socket ∉ Resource.held s.log
  | .sockConn _ _ | .sockClose _ => True

end State

end Mbtk.Sock
