import Mbtk.Coap.Recv
import Mbtk.Log.Logger

namespace Mbtk.Stanet

def SESSION_MAX_COUNT : ℕ := 5
def SESSION_HOST_MAX_LEN : ℕ := 128
def SESSION_MSG_MAX_LEN : ℕ := 2048

instance : NeZero SESSION_MAX_COUNT := ⟨by decide⟩

/-- `sta_session_err_enum`. -/
inductive SessionErr
  | success | toMore | host | conn | unknown
  deriving DecidableEq

/-- `sta_session_state_enum`. -/
inductive SessionState
  | unused | closed | opening | opened | writing | reading | closing
  deriving DecidableEq

/-- `sta_msg_id_enum`. -/
inductive MsgId
  | socketOpen | socketWrite | socketRead | socketClose
  deriving DecidableEq

def MsgId.number : MsgId → ℕ
  | .socketOpen => 0
  | .socketWrite => 1
  | .socketRead => 2
  | .socketClose => 3

/-- `sta_msg_q_s`, with the bytes that were copied to its array.  `serial` is not in the source:
it tells the call that made the message. -/
structure Msg where
  serial : ℕ
  msgId : MsgId
  dataLen : ℤ
  data : List UInt8
  deriving DecidableEq

/-- The call of `sta_log` for a message that is taken. -/
def Msg.line (msg : Msg) (threadId : ℤ) : List UInt8 :=
  Log.chars "Thread(" ++ Log.chars (toString threadId) ++ Log.chars ") run:msg:" ++
    Log.chars (toString msg.msgId.number) ++ Log.chars ":" ++ Sock.cString msg.data

/-- `vsprintf` stays inside `log_buf`, as does the line end. -/
def LogFits (place : Log.Place) (message : List UInt8) : Prop :=
  (Log.Logger.front Log.LOG_I place (none : Option Unit)).length + message.length + 2 ≤
    Log.LOG_BUF_SIZE + 1

instance (place : Log.Place) (message : List UInt8) : Decidable (LogFits place message) :=
  inferInstanceAs (Decidable (_ ≤ _))

def threadRun : Log.Place := ⟨Log.chars "stanet_daemon.c", 420, Log.chars "thread_run"⟩

def qmiSessionCallback : Log.Place :=
  ⟨Log.chars "stanet_qmi.c", 75, Log.chars "qmi_session_callback"⟩

/-- Where the thread of a session stands.  It holds the mutex of the session only while it
handles a message.  With an OPEN message it is `deciding` when `socket_open` is over and the state
that this left is still to be read. -/
inductive Worker
  | starting
  | waiting
  | woken (signalled : Bool)
  | handling (msg : Msg)
  | deciding (msg : Msg)
  deriving DecidableEq

/-- What `pthread_cond_signal` does to the thread. -/
def Worker.signal : Worker → Worker
  | .waiting => .woken true
  | worker => worker

def Worker.hasMutex : Worker → Bool
  | .handling _ | .deciding _ => true
  | _ => false

/-- `sta_session_s`, with `none` for the descriptor -1.  What is not in the source: the serials of
the messages that were ever put into its queue and that were taken from it, and the number of
those put since its thread last began to wait. -/
structure Session where
  sockfd : Option ℕ
  err : SessionErr
  state : SessionState
  host : List UInt8
  port : ℤ
  threadId : ℤ
  msgQ : List Msg
  worker : Worker
  puts : List ℕ
  handled : List ℕ
  putsInWait : ℕ

/-- `session_init`, where `pthread_create` gives the number of the thread. -/
def sessionInit (threadId : ℤ) : Session where
  sockfd := none
  err := .success
  state := .unused
  host := []
  port := -1
  threadId
  msgQ := []
  worker := .starting
  puts := []
  handled := []
  putsInWait := 0

inductive CallResult
  | wouldBlock
  | error
  | moved (bytes : List UInt8)
  deriving DecidableEq

inductive ConnectResult
  | connected | inProgress | failed
  deriving DecidableEq

/-- `select`: a time-out, or what `FD_ISSET` then finds. -/
inductive SelectResult
  | timeout
  | ready (rset wset : Bool)
  deriving DecidableEq

/-- What the system calls return while a message is handled.  A call that is not made leaves its
entry unused. -/
structure SysCalls where
  socket : Option ℕ
  getFlags : Bool
  setFlags : Bool
  gethostbyname : Bool
  connect : ConnectResult
  select : SelectResult
  getsockopt : Option ℤ
  transfers : List CallResult

/-- The arguments of `qmi_session_callback`, with `none` for the session -1. -/
structure Callback where
  sessionId : Option (Fin SESSION_MAX_COUNT)
  msgId : MsgId
  err : SessionErr
  data : Option (List UInt8)
  len : ℤ
  deriving DecidableEq

/-- A callback with the message that it answers.  What is not in the source: the state in which
the handling ended, before a reset, and the number of bytes that it moved. -/
structure Report where
  msg : Msg
  callback : Callback
  ended : SessionState
  moved : ℕ
  deriving DecidableEq

namespace Session

variable (session : Session)

/-- `session_reset`. -/
def reset : Session :=
  { session with
    err := .success
    state := .unused
    host := []
    port := -1
    sockfd := none
    msgQ := [] }

/-- What `msg_queue_put` does under the mutex of the session. -/
def put (msg : Msg) : Session :=
  { session with
    msgQ := session.msgQ ++ [msg]
    worker := session.worker.signal
    puts := session.puts ++ [msg.serial]
    putsInWait := session.putsInWait + 1 }

def wait : Session := { session with worker := .waiting, putsInWait := 0 }

/-- How the OPEN case of `thread_run` starts: the host and the port of the message, and the state
that `socket_open` sets first.  `inet_aton` never returns a negative number. -/
def beginOpen (msg : Msg) : Session :=
  let i := msg.data.idxOf 0x3A
  let port := Coap.atoi (msg.data.drop (i + 1))
  { session with
    host := msg.data.take i ++ session.host.drop i
    port
    state := if port > 0 then .opening else session.state }

/-- The worker has taken a message from its queue and left the others there. -/
def take (msg : Msg) (msgQ : List Msg) : Session :=
  let session := { session with
    msgQ
    worker := .handling msg
    handled := session.handled ++ [msg.serial] }
  if msg.msgId = .socketOpen then session.beginOpen msg else session

/-- `socket_open` from the call of `select` on. -/
def awaitConnect (calls : SysCalls) : Session :=
  match calls.select with
  | .timeout => { session with state := .closed }
  | .ready true true =>
    match calls.getsockopt with
    | none => { session with err := .conn, state := .closed }
    | some error =>
      if error = 0 then { session with state := .opened }
      else { session with err := .conn, state := .closed }
  | .ready false true => { session with state := .opened }
  | .ready _ false => { session with err := .conn, state := .closed }

def socketOpen (calls : SysCalls) : Session :=
  let session := { session with state := .opening }
  match calls.socket with
  | none => { session with sockfd := none, state := .closed }
  | some sockfd =>
    let session := { session with sockfd := some sockfd }
    if !calls.getFlags then { session with state := .closed }
    else if !calls.setFlags then { session with state := .closed }
    else if !calls.gethostbyname then { session with err := .host, state := .closed }
    else if calls.connect = .failed then { session with err := .conn, state := .closed }
    else session.awaitConnect calls

end Session

/-- The loop of the WRITE case, with the bytes it has written and whether an error ended it.  A
call moves no more bytes than it is asked to; without a result for the next call the loop still
runs. -/
def writeLoop (dataLen : ℤ) : ℕ → List CallResult → Option (ℕ × Bool)
  | count, [] => if count < dataLen then none else some (count, false)
  | count, result :: results =>
    if count < dataLen then
      match result with
      | .wouldBlock => writeLoop dataLen count results
      | .error => some (count, true)
      | .moved bytes =>
        if count + bytes.length ≤ dataLen then writeLoop dataLen (count + bytes.length) results
        else none
    else some (count, false)

def readLoop (dataLen : ℤ) : List UInt8 → List CallResult → Option (List UInt8 × Bool)
  | buf, [] => if buf.length < dataLen then none else some (buf, false)
  | buf, result :: results =>
    if buf.length < dataLen then
      match result with
      | .wouldBlock => readLoop dataLen buf results
      | .error => some (buf, true)
      | .moved bytes =>
        if bytes = [] then some (buf, false)
        else if buf.length + bytes.length ≤ dataLen then readLoop dataLen (buf ++ bytes) results
        else none
    else some (buf, false)

/-- What the handling of a message leaves: the session, the descriptor that `close` took, whether
`session_reset` ran, and the callback. -/
structure Handled where
  session : Session
  closed : Option ℕ
  wasReset : Bool
  report : Report

namespace Session

variable (session : Session) (id : Fin SESSION_MAX_COUNT) (msg : Msg) (calls : SysCalls)

/-- The session when `socket_open` is over, if it is called. -/
def afterOpen : Session := if session.port > 0 then session.socketOpen calls else session

/-- The descriptor that `socket_open` gets. -/
def opened : Option ℕ := if session.port > 0 then calls.socket else none

/-- The OPEN case of `thread_run` from `beginOpen` to the end of `socket_open`. -/
def connect : Session := { session.afterOpen calls with worker := .deciding msg }

/-- The OPEN case of `thread_run` behind `socket_open`. -/
def handleOpen : Handled :=
  if session.state = .opened then
    { session, closed := none, wasReset := false
      report := ⟨msg, ⟨some id, .socketOpen, .success, none, 0⟩, session.state, 0⟩ }
  else
    { session := session.reset, closed := session.sockfd, wasReset := true
      report := ⟨msg, ⟨none, .socketOpen, session.err, none, 0⟩, session.state, 0⟩ }

/-- What the WRITE and the READ case do behind their loops: `count` bytes were moved. -/
def handleTransfer (count : ℕ) (failed : Bool) (data : Option (List UInt8)) : Handled :=
  let session := if failed then { session with err := .unknown } else session
  let err := if count = msg.dataLen then .success else session.err
  { session, closed := none, wasReset := false
    report := ⟨msg, ⟨some id, msg.msgId, err, data, count⟩, session.state, count⟩ }

def handleWrite : Option Handled := do
  let (count, failed) ← writeLoop msg.dataLen 0 calls.transfers
  return session.handleTransfer id msg count failed none

/-- The READ case.  For a negative length it writes outside its buffer. -/
def handleRead : Option Handled :=
  if msg.dataLen < 0 then none
  else do
    let (buf, failed) ← readLoop msg.dataLen [] calls.transfers
    return session.handleTransfer id msg buf.length failed (some buf)

def handleClose : Handled where
  session := session.reset
  closed := session.sockfd
  wasReset := true
  report := ⟨msg, ⟨some id, .socketClose, .success, none, 0⟩, session.state, 0⟩

/-- The switch of `thread_run`, for an OPEN message from the end of `socket_open` on. -/
def handle : Option Handled :=
  match session.worker with
  | .deciding msg => if msg.msgId = .socketOpen then some (session.handleOpen id msg) else none
  | .handling msg =>
    match msg.msgId with
    | .socketOpen => none
    | .socketWrite => session.handleWrite id msg calls
    | .socketRead => session.handleRead id msg calls
    | .socketClose => some (session.handleClose id msg)
  | _ => none

end Session

/-- The call of `sta_log` for the bytes of a callback stays inside `log_buf`. -/
def Callback.LogFits (callback : Callback) : Prop :=
  ∀ data ∈ callback.data,
    Stanet.LogFits qmiSessionCallback (Log.chars "data = " ++ Sock.cString data ++ [0x0A])

instance (callback : Callback) : Decidable callback.LogFits :=
  inferInstanceAs (Decidable (∀ _ ∈ callback.data, _))

end Mbtk.Stanet
