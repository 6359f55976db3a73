import Mbtk.TcpServer.Echo

namespace Mbtk.TcpServer

open Lib

/-- The bits of `revents`: `POLLRDNORM`, `POLLERR`, and any of the others. -/
structure Revents where
  rdnorm : Bool
  err : Bool
  other : Bool
  deriving DecidableEq

/-- The bits that the loop over the clients asks for. -/
def Revents.ready (revents : Revents) : Bool := revents.rdnorm || revents.err

def Revents.nonzero (revents : Revents) : Bool := revents.ready || revents.other

/-- `struct pollfd`, with whether `events` is `POLLRDNORM`.  A descriptor below 0 is `none`. -/
structure PollFd where
  fd : Option ℕ
  events : Bool
  revents : Revents
  deriving DecidableEq

/-- The variables of `main_4`. -/
structure PollServer where
  listenfd : ℕ
  client : List PollFd
  maxi : ℕ
  deriving DecidableEq

/-- What a turn of the loop gets: the conditions that `Poll` finds, the descriptor that `Accept`
would return, or `none` where it ends the program, and the answers of `read` and of `Writen`. -/
structure PollTurn where
  conditions : ℕ → Revents
  connfd : Option ℕ
  read : ℕ → ReadAnswer
  writes : ℕ → Bool

namespace PollServer

/-- The variables in front of the loop.  Only the descriptors of the array are set. -/
def start (memory : List PollFd) (listenfd : ℕ) : PollServer where
  listenfd := listenfd
  client := match memory with
    | [] => []
    | first :: rest =>
      { first with fd := some listenfd, events := true } ::
        rest.map fun entry => { entry with fd := none }
  maxi := 0

def report (conditions : ℕ → Revents) (entry : PollFd) : PollFd :=
  { entry with revents :=
      match entry.fd with
      | none => ⟨false, false, false⟩
      | some fd =>
        { conditions fd with rdnorm := entry.events && (conditions fd).rdnorm } }

/-- `Poll(client, maxi + 1, INFTIM)`, with the number of the entries that it reports. -/
def poll (conditions : ℕ → Revents) (s : PollServer) : ℤ × PollServer :=
  let client := s.client.mapIdx fun i entry =>
    if i ≤ s.maxi then report conditions entry else entry
  ((client.take (s.maxi + 1)).countP fun entry => entry.revents.nonzero,
    { s with client := client })

def save (i connfd : ℕ) (s : PollServer) : PollServer where
  listenfd := s.listenfd
  client := s.client.modify i fun entry => { entry with fd := some connfd, events := true }
  maxi := if s.maxi < i then i else s.maxi

def accept (connfd : Option ℕ) (s : PollServer) : List Event × Except Fault PollServer :=
  match connfd with
  | none => ([], .error .acceptError)
  | some connfd =>
    let i := 1 + (s.client.drop 1).findIdx fun entry => entry.fd.isNone
    ([.opened connfd],
      if i = s.client.length then .error .tooManyClients
      else .ok (s.save i connfd))

/-- A client that is closed. -/
def drop (i : ℕ) (s : PollServer) : PollServer :=
  { s with client := s.client.modify i fun entry => { entry with fd := none } }

def serve (turn : PollTurn) (i sockfd : ℕ) (s : PollServer) :
    Except Fault (PollServer × Event) :=
  match turn.read sockfd with
  | .failed reset => if reset then .ok (s.drop i, .closed sockfd) else .error .readError
  | .piece [] => .ok (s.drop i, .closed sockfd)
  | .piece data => (reply sockfd data (turn.writes sockfd)).map fun event => (s, event)

/-- The descriptor of an entry, with what is reported of it. -/
def slot (s : PollServer) (i : ℕ) : Option (ℕ × Revents) :=
  s.client[i]?.bind fun entry => entry.fd.map fun fd => (fd, entry.revents)

def clientLoop (turn : PollTurn) (nready : ℤ) (s : PollServer) :
    List Event × Except Fault PollServer :=
  serveLoop slot (fun _ entry => entry.2.ready) (fun i entry => serve turn i entry.1)
    s.maxi 1 nready s

/-- A turn of the loop, with what is done in it even if it ends the program. -/
def turn (t : PollTurn) (s : PollServer) : List Event × Except Fault PollServer :=
  let (nready, s) := s.poll t.conditions
  if (s.client[0]?.any fun entry => entry.revents.rdnorm) then
    match s.accept t.connfd with
    | (events, .error e) => (events, .error e)
    | (events, .ok s) =>
      if nready - 1 ≤ 0 then (events, .ok s)
      else
        let r := s.clientLoop t (nready - 1)
        (events ++ r.1, r.2)
  else s.clientLoop t nready

end PollServer

end Mbtk.TcpServer
