import Mbtk.Lib.Transition
import Mbtk.Stanet.Session

/-! The network daemon: the calls of its clients, its sessions and the steps of their workers. -/

namespace Mbtk.Stanet

/-- A call of `send_msg` before its `msg_queue_put`, with the state that the caller sets first,
as long as it has not. -/
structure Send where
  session : Fin SESSION_MAX_COUNT
  msg : Msg
  mark : Option SessionState
  deriving DecidableEq

/-- The state of the daemon.  `serial` counts the messages that were made, `bound` lists the
calls of `stanet_session_open` with the session that each chose, as long as that session is not
reset, `openFds` the open descriptors of sockets, and `reports` the callbacks from the oldest on.
A daemon that took a message from an empty queue is `crashed`, and one that wrote behind the end of
`log_buf` is `overrun`. -/
structure State where
  sessions : Fin SESSION_MAX_COUNT → Session
  sending : List Send
  serial : ℕ
  bound : List (ℕ × Fin SESSION_MAX_COUNT)
  openFds : List ℕ
  reports : List Report
  crashed : Bool
  overrun : Bool

/-- `session_get`, on the list that `session_list_create` builds. -/
def sessionGet (sessionId : ℤ) : Option (Fin SESSION_MAX_COUNT) :=
  (List.finRange SESSION_MAX_COUNT).find? fun i => (i : ℤ) = sessionId

/-- What `send_msg` copies to its message.  A copy that leaves one of the two arrays has no
result. -/
def msgData (data : Option (List UInt8)) (len : ℤ) : Option (List UInt8) :=
  match data with
  | none => some []
  | some data =>
    if len > 0 then
      if len ≤ data.length ∧ len ≤ SESSION_MSG_MAX_LEN + 1 then some (data.take len.toNat)
      else none
    else some []

def decimal (n : ℕ) : List UInt8 := (Nat.toDigits 10 n).map fun c => c.toNat.toUInt8

def SessionState.usable : SessionState → Bool
  | .opened | .writing | .reading => true
  | _ => false

namespace State

variable (s : State)

/-- The daemon behind `session_list_create`, with the numbers of its threads. -/
def init (threadIds : Fin SESSION_MAX_COUNT → ℤ) : State where
  sessions i := sessionInit (threadIds i)
  sending := []
  serial := 0
  bound := []
  openFds := []
  reports := []
  crashed := false
  overrun := false

def update (i : Fin SESSION_MAX_COUNT) (session : Session) : State :=
  { s with sessions := Function.update s.sessions i session }

/-- `session_get_usable`. -/
def sessionGetUsable : Option (Fin SESSION_MAX_COUNT) :=
  (List.finRange SESSION_MAX_COUNT).find? fun i => (s.sessions i).state = .unused

section Calls

/-- `send_msg` up to the call of `msg_queue_put`. -/
def sendMsg (i : Fin SESSION_MAX_COUNT) (msgId : MsgId) (data : Option (List UInt8)) (len : ℤ)
    (mark : Option SessionState) : Option State := do
  let data ← msgData data len
  let msg : Msg := ⟨s.serial, msgId, len, data⟩
  return { s with sending := s.sending ++ [⟨i, msg, mark⟩], serial := s.serial + 1 }

/-- `stanet_session_open`.  A call that returns -1 changes nothing, and one whose text fills the
array writes behind it. -/
def stanetSessionOpen (host : Option (List UInt8)) (port : ℤ) : Option State :=
  match host with
  | none => some s
  | some host =>
    if port ≤ 0 ∨ host.length ≤ 0 ∨ host.length > SESSION_HOST_MAX_LEN then some s
    else
      match s.sessionGetUsable with
      | none => some s
      | some i =>
        let str := host ++ 0x3A :: decimal port.toNat
        if str.length < SESSION_HOST_MAX_LEN + 5 then
          { s with bound := (s.serial, i) :: s.bound }.sendMsg i .socketOpen (some str)
            str.length none
        else none

/-- What `stanet_session_write`, `stanet_session_read` and `stanet_session_close` have in common.
The check and the assignment of the state are steps of their own. -/
def request (sessionId : ℤ) (msgId : MsgId) (data : Option (List UInt8)) (len : ℤ)
    (mark : SessionState) : Option State :=
  match sessionGet sessionId with
  | none => some s
  | some i =>
    if (s.sessions i).state.usable then s.sendMsg i msgId data len (some mark) else some s

def stanetSessionWrite (sessionId : ℤ) (buf : Option (List UInt8)) (len : ℤ) : Option State :=
  s.request sessionId .socketWrite buf len .writing

def stanetSessionRead (sessionId len : ℤ) : Option State :=
  s.request sessionId .socketRead none len .reading

def stanetSessionClose (sessionId : ℤ) : Option State :=
  s.request sessionId .socketRead none 0 .closing

/-- The assignment of the state by the caller of `send_msg`. -/
def mark (send : Send) : Option State :=
  match send.mark with
  | none => none
  | some state =>
    if send ∈ s.sending then
      some { s.update send.session { s.sessions send.session with state } with
        sending := { send with mark := none } :: s.sending.erase send }
    else none

def msgQueuePut (send : Send) : Option State :=
  let session := s.sessions send.session
  if send ∈ s.sending ∧ send.mark = none ∧ session.worker.hasMutex = false then
    some { s.update send.session (session.put send.msg) with
      sending := s.sending.erase send }
  else none

end Calls

section Workers

variable (i : Fin SESSION_MAX_COUNT)

def startWait : Option State :=
  let session := s.sessions i
  if session.worker = .starting then some (s.update i session.wait) else none

/-- A wait ends without a signal. -/
def spuriousWake : Option State :=
  let session := s.sessions i
  if session.worker = .waiting then some (s.update i { session with worker := .woken false })
  else none

/-- The worker has the mutex again, calls `msg_queue_pop` and logs the message. -/
def msgQueuePop : Option State :=
  let session := s.sessions i
  match session.worker with
  | .woken _ =>
    match session.msgQ with
    | [] => some { s with crashed := true }
    | msg :: msgQ =>
      some { s.update i (session.take msg msgQ) with
        overrun := ¬ LogFits threadRun (msg.line session.threadId) }
  | _ => none

/-- The worker handles an OPEN message up to the end of `socket_open`.  `socket` never gives a
descriptor that is open. -/
def connectMsg (calls : SysCalls) : Option State :=
  let session := s.sessions i
  match session.worker with
  | .handling msg =>
    if msg.msgId = .socketOpen ∧ ∀ sockfd ∈ calls.socket, sockfd ∉ s.openFds then
      some { s.update i (session.connect msg calls) with
        openFds := s.openFds ++ (session.opened calls).toList }
    else none
  | _ => none

def handleMsg (calls : SysCalls) : Option State := do
  let handled ← (s.sessions i).handle i calls
  return { s.update i handled.session.wait with
    bound := if handled.wasReset then s.bound.filter (·.2 ≠ i) else s.bound
    openFds := s.openFds.filter (some · ≠ handled.closed)
    reports := s.reports ++ [handled.report]
    overrun := ¬ handled.report.callback.LogFits }

end Workers

end State

/-- What happens in the daemon, one lock-protected section or one unprotected access at a time. -/
inductive Event
  | sessionOpen (host : Option (List UInt8)) (port : ℤ)
  | sessionWrite (sessionId : ℤ) (buf : Option (List UInt8)) (len : ℤ)
  | sessionRead (sessionId len : ℤ)
  | sessionClose (sessionId : ℤ)
  | mark (send : Send)
  | put (send : Send)
  | start (i : Fin SESSION_MAX_COUNT)
  | wake (i : Fin SESSION_MAX_COUNT)
  | pop (i : Fin SESSION_MAX_COUNT)
  | connect (i : Fin SESSION_MAX_COUNT) (calls : SysCalls)
  | handle (i : Fin SESSION_MAX_COUNT) (calls : SysCalls)

namespace State

def react (s : State) : Event → Option State
  | .sessionOpen host port => s.stanetSessionOpen host port
  | .sessionWrite sessionId buf len => s.stanetSessionWrite sessionId buf len
  | .sessionRead sessionId len => s.stanetSessionRead sessionId len
  | .sessionClose sessionId => s.stanetSessionClose sessionId
  | .mark send => s.mark send
  | .put send => s.msgQueuePut send
  | .start i => s.startWait i
  | .wake i => s.spuriousWake i
  | .pop i => s.msgQueuePop i
  | .connect i calls => s.connectMsg i calls
  | .handle i calls => s.handleMsg i calls

/-- The runs of the daemon.  Its allocations and the creation of its threads succeed, and an
execution that leaves the language has no next state. -/
def system : Lib.System State Event where
  init s := ∃ threadIds, s = init threadIds
  step s e t := s.crashed = false ∧ s.overrun = false ∧ s.react e = some t

end State

end Mbtk.Stanet
