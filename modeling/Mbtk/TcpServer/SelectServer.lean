import Mbtk.TcpServer.Echo

namespace Mbtk.TcpServer

open Lib

/-- The variables of `main_3`.  An entry of `client` below 0 is `none`. -/
structure SelectServer where
  listenfd : ℕ
  client : List (Option ℕ)
  allset : Finset ℕ
  maxfd : ℕ
  maxi : ℤ

/-- What a turn of the loop gets: the set that `Select` leaves, the descriptor that `Accept` would
return, or `none` where it ends the program, and the answers of `read` and of `Writen`. -/
structure SelectTurn where
  rset : Finset ℕ
  connfd : Option ℕ
  read : ℕ → ReadAnswer
  writes : ℕ → Bool

namespace SelectServer

/-- The variables in front of the loop. -/
def start (fdSetSize listenfd : ℕ) : SelectServer where
  listenfd := listenfd
  client := List.replicate fdSetSize none
  allset := {listenfd}
  maxfd := listenfd
  maxi := -1

def save (i connfd : ℕ) (s : SelectServer) : SelectServer where
  listenfd := s.listenfd
  client := s.client.set i (some connfd)
  allset := insert connfd s.allset
  maxfd := if s.maxfd < connfd then connfd else s.maxfd
  maxi := if s.maxi < i then i else s.maxi

def accept (fdSetSize : ℕ) (connfd : Option ℕ) (s : SelectServer) :
    List Event × Except Fault SelectServer :=
  match connfd with
  | none => ([], .error .acceptError)
  | some connfd =>
    let i := s.client.findIdx Option.isNone
    ([.opened connfd],
      if i = s.client.length then .error .tooManyClients
      -- `FD_SET` has bits for the numbers below `FD_SETSIZE`.
      else if fdSetSize ≤ connfd then .error .fdOutOfRange
      else .ok (s.save i connfd))

/-- A client that is closed. -/
def drop (i sockfd : ℕ) (s : SelectServer) : SelectServer :=
  { s with client := s.client.set i none, allset := s.allset.erase sockfd }

def serve (turn : SelectTurn) (i sockfd : ℕ) (s : SelectServer) :
    Except Fault (SelectServer × Event) :=
  match turn.read sockfd with
  | .failed _ => .error .readError
  | .piece [] => .ok (s.drop i sockfd, .closed sockfd)
  | .piece data => (reply sockfd data (turn.writes sockfd)).map fun event => (s, event)

def slot (s : SelectServer) (i : ℕ) : Option ℕ := (s.client[i]?).join

def clientLoop (turn : SelectTurn) (nready : ℤ) (s : SelectServer) :
    List Event × Except Fault SelectServer :=
  serveLoop slot (fun _ sockfd => sockfd ∈ turn.rset) (serve turn) (s.maxi + 1).toNat 0 nready s

/-- A turn of the loop, with what is done in it even if it ends the program. -/
def turn (fdSetSize : ℕ) (t : SelectTurn) (s : SelectServer) :
    List Event × Except Fault SelectServer :=
  let nready : ℤ := t.rset.card
  if s.listenfd ∈ t.rset then
    match s.accept fdSetSize t.connfd with
    | (events, .error e) => (events, .error e)
    | (events, .ok s) =>
      if nready - 1 ≤ 0 then (events, .ok s)
      else
        let r := s.clientLoop t (nready - 1)
        (events ++ r.1, r.2)
  else s.clientLoop t nready

end SelectServer

end Mbtk.TcpServer
