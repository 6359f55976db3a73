import Mbtk.Lib.Transition

/-! The video server: its table of clients, its event loop and the thread that sends frames. -/

namespace Mbtk.VideoServer

def VIDEO_CLIENT_MAX : ℕ := 2
def BUF_SIZE : ℕ := 2048

def cmdVideoGet : List UInt8 :=
  [0x43, 0x4D, 0x44, 0x3A, 0x56, 0x49, 0x44, 0x45, 0x4F, 0x5F, 0x47, 0x45, 0x54]

def cmdVideoCollectReg : List UInt8 :=
  [0x43, 0x4D, 0x44, 0x3A, 0x56, 0x49, 0x44, 0x45, 0x4F, 0x5F, 0x43, 0x4F, 0x4C, 0x4C, 0x45, 0x43,
    0x54, 0x5F, 0x52, 0x45, 0x47]

/-- The table `client_fds`, with `none` for -1. -/
abbrev ClientFds := List (Option ℕ)

namespace ClientFds

def used (clientFds : ClientFds) (i : ℕ) : Bool :=
  match clientFds[i]? with
  | some (some fd) => 0 < fd
  | _ => false

def register (sockfd : ℕ) : ClientFds → ClientFds
  | [] => []
  | none :: rest => some sockfd :: rest
  | some fd :: rest => some fd :: register sockfd rest

/-- What `video_send_data` does with the entry of a client that is gone: the last entry in use
takes its place. -/
def remove (clientFds : ClientFds) (i : ℕ) : ClientFds :=
  match (List.range VIDEO_CLIENT_MAX).reverse.find? fun j => i < j ∧ clientFds.used j with
  | some j => (clientFds.set i (clientFds.getD j none)).set j none
  | none => clientFds.set i none

end ClientFds

/-- How `write` ends in `video_send_data`, where a short count leaves the `errno` of an earlier
call. -/
inductive WriteResult
  | full | badf | failed
  deriving DecidableEq

def written (data : List UInt8) : List UInt8 := data.takeWhile (· ≠ 0)

/-- `video_send_data` from index `i` on, with the table that it leaves and what goes out.  Without
a result for the next `write` it still runs. -/
def videoSendData (data : List UInt8) (clientFds : ClientFds) (i : ℕ) :
    List WriteResult → Option (ClientFds × List (ℕ × List UInt8))
  | [] => if i < VIDEO_CLIENT_MAX ∧ clientFds.used i then none else some (clientFds, [])
  | result :: results =>
    if i < VIDEO_CLIENT_MAX ∧ clientFds.used i then
      match result with
      | .full => do
        let (clientFds', sent) ← videoSendData data clientFds (i + 1) results
        return (clientFds', ((clientFds.getD i none).getD 0, written data) :: sent)
      | .badf => videoSendData data (clientFds.remove i) i results
      | .failed => some (clientFds, [])
    else some (clientFds, [])

/-- An open connection.  `polled` says whether its descriptor is in the set of `epoll`; that the
client has sent a CMD:VIDEO_GET on it is not in the source. -/
structure Conn where
  fd : ℕ
  polled : Bool
  sentGet : Bool
  deriving DecidableEq

inductive Reply
  | success | fail
  deriving DecidableEq

/-- The state of the server, with `none` for -1 in `video_collect_fd`. -/
structure State where
  serverFd : ℕ
  epfd : ℕ
  clientFds : ClientFds
  videoCollectFd : Option ℕ
  conns : List Conn
  replies : List (ℕ × Reply)
  sent : List (ℕ × List UInt8)

/-- What the server reacts to. -/
inductive Event
  | accept (connfd : ℕ)
  | data (sockfd : ℕ) (buf : List UInt8)
  | disconnect (sockfd : ℕ)
  | reset (sockfd : ℕ)
  | frame (data : List UInt8) (results : List WriteResult)
  | collectEnd

namespace State

variable (s : State)

/-- The descriptor is one of a connection that `epoll` reports. -/
def Polled (sockfd : ℕ) : Prop := ∃ conn ∈ s.conns, conn.fd = sockfd ∧ conn.polled

instance (sockfd : ℕ) : Decidable (s.Polled sockfd) := by
  unfold Polled
  infer_instance

def Closed (fd : ℕ) : Prop := fd ≠ s.serverFd ∧ fd ≠ s.epfd ∧ ∀ conn ∈ s.conns, conn.fd ≠ fd

instance (fd : ℕ) : Decidable (s.Closed fd) := by
  unfold Closed
  infer_instance

def reply (sockfd : ℕ) (r : Reply) : State := { s with replies := s.replies ++ [(sockfd, r)] }

def assign (sockfd : ℕ) (f : Conn → Conn) : State :=
  { s with conns := s.conns.map fun conn => if conn.fd = sockfd then f conn else conn }

def videoGet (sockfd : ℕ) : State :=
  let s := s.assign sockfd fun conn => { conn with sentGet := true }
  if none ∈ s.clientFds then
    { s with clientFds := s.clientFds.register sockfd }.reply sockfd .success
  else s.reply sockfd .fail

def videoCollectReg (sockfd : ℕ) : State :=
  if s.videoCollectFd = none then
    let s := { s with videoCollectFd := some sockfd }
    (s.assign sockfd fun conn => { conn with polled := false }).reply sockfd .success
  else s.reply sockfd .fail

/-- The branch for data of a client.  A full buffer is terminated behind its end. -/
def clientData (sockfd : ℕ) (buf : List UInt8) : Option State :=
  if s.Polled sockfd ∧ 0 < buf.length ∧ buf.length < BUF_SIZE then
    if buf.take 13 = cmdVideoGet then some (s.videoGet sockfd)
    else if buf.take 21 = cmdVideoCollectReg then some (s.videoCollectReg sockfd)
    else some s
  else none

/-- The branches for a connection that its client has closed or reset. -/
def closeConn (sockfd : ℕ) : Option State :=
  if s.Polled sockfd then some { s with conns := s.conns.filter (·.fd ≠ sockfd) } else none

/-- The turn of `video_thread_run` for a frame.  A full buffer is terminated behind its end. -/
def sendFrame (data : List UInt8) (results : List WriteResult) : Option State :=
  if s.videoCollectFd.isSome ∧ 0 < data.length ∧ data.length < BUF_SIZE then do
    let (clientFds, sent) ← videoSendData data s.clientFds 0 results
    return { s with clientFds, sent := s.sent ++ sent }
  else none

/-- The turn of `video_thread_run` for the end of the frames. -/
def endCollect : Option State :=
  if s.videoCollectFd.isSome then some { s with videoCollectFd := none } else none

def react : Event → Option State
  | .accept connfd =>
    if s.Closed connfd then some { s with conns := s.conns ++ [⟨connfd, true, false⟩] } else none
  | .data sockfd buf => s.clientData sockfd buf
  | .disconnect sockfd => s.closeConn sockfd
  | .reset sockfd => s.closeConn sockfd
  | .frame data results => s.sendFrame data results
  | .collectEnd => s.endCollect

/-- The server when its loop starts. -/
def start (serverFd epfd : ℕ) : State where
  serverFd
  epfd
  clientFds := List.replicate VIDEO_CLIENT_MAX none
  videoCollectFd := none
  conns := []
  replies := []
  sent := []

/-- The runs of the server.  An execution that leaves the language has no next state. -/
def system : Lib.System State Event where
  init s := ∃ serverFd epfd, s = start serverFd epfd
  step s e t := s.react e = some t

end State

end Mbtk.VideoServer
