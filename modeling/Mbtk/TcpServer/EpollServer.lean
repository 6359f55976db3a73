import Mathlib.Data.Finset.Basic
import Mbtk.Lib.Transition
import Mbtk.Sock.ReadLine
import Mbtk.TcpServer.Echo

/-! The server of `main_5`, which waits with `epoll` for edges, among the clients that connect to
it, send, and end at any time. -/

namespace Mbtk.TcpServer

open Lib Sock

/-- A connection in the kernel: what has come and is not read, whether its end or a reset has come,
and the descriptor that `epoll_ctl` has added for it. -/
structure Socket where
  connected : Bool
  data : List UInt8
  ended : Bool
  reset : Bool
  item : Option ℕ
  deriving DecidableEq

def Socket.fresh : Socket := ⟨false, [], false, false, none⟩

/-- What `EPOLLIN` stands for. -/
def Socket.readable (b : Socket) : Bool := !b.data.isEmpty || b.ended || b.reset

/-- `read` of `MAXLINE` bytes, or `none` where it would block. -/
def Socket.read (b : Socket) : Option (ReadAnswer × Socket) :=
  if b.data ≠ [] then
    some (.piece (b.data.take MAXLINE), { b with data := b.data.drop MAXLINE })
  else if b.ended then some (.piece [], b)
  else if b.reset then some (.failed true, { b with reset := false })
  else none

/-- What happens: the clients' part, what `epoll_wait` reports, and what the server does. -/
inductive EpollEvent (κ : Type)
  | connected (c : κ)
  | sent (c : κ) (data : List UInt8)
  | ended (c : κ)
  | reset (c : κ)
  | waited (fds : List ℕ)
  | accepted (fd : ℕ) (c : κ)
  | answered (fd : ℕ) (c : κ) (data answer : List UInt8)
  | closed (fd : ℕ) (c : κ)
  deriving DecidableEq

/-- Why the server does not go on. -/
inductive Stop
  | acceptError
  | blocked
  | badDescriptor
  | readError
  | overflow
  | writeError
  deriving DecidableEq

/-- The server with its sockets, its descriptors, the connections that are not accepted, the ready
list of `epoll`, and the descriptors of `events` that the loop has still before it. -/
structure EpollServer (κ : Type) where
  listenfd : ℕ
  backlog : List κ
  socket : κ → Socket
  conn : ℕ → Option κ
  ready : Finset ℕ
  events : List ℕ

namespace EpollServer

def maxevents : ℕ := 20

variable {κ : Type} [DecidableEq κ]

def start (listenfd : ℕ) : EpollServer κ where
  listenfd := listenfd
  backlog := []
  socket := fun _ => .fresh
  conn := fun _ => none
  ready := ∅
  events := []

/-- Whether `epoll_wait` finds `EPOLLIN` on a descriptor. -/
def readable (s : EpollServer κ) (fd : ℕ) : Bool :=
  if fd = s.listenfd then !s.backlog.isEmpty
  else (s.conn fd).any fun c => (s.socket c).readable

def connect (c : κ) (s : EpollServer κ) : EpollServer κ :=
  { s with
    backlog := s.backlog ++ [c]
    socket := Function.update s.socket c { s.socket c with connected := true }
    ready := insert s.listenfd s.ready }

/-- Something comes from a client: an edge of its descriptor, if it has one. -/
def arrive (c : κ) (b : Socket) (s : EpollServer κ) : EpollServer κ :=
  { s with
    socket := Function.update s.socket c b
    ready := b.item.elim s.ready fun fd => insert fd s.ready }

/-- A connection gets its descriptor, and `epoll_ctl` finds what has come already. -/
def enroll (connfd : ℕ) (c : κ) (backlog : List κ) (s : EpollServer κ) : EpollServer κ :=
  { s with
    backlog := backlog
    socket := Function.update s.socket c { s.socket c with item := some connfd }
    conn := Function.update s.conn connfd (some c)
    ready := if (s.socket c).readable then insert connfd s.ready else s.ready }

/-- The branch for the listening descriptor.  Without a number for the new descriptor, `Accept` ends
the program. -/
def accept (connfd : Option ℕ) (s : EpollServer κ) : Except Stop (EpollServer κ × EpollEvent κ) :=
  match connfd with
  | none => .error .acceptError
  | some connfd =>
    match s.backlog with
    | [] => .error .blocked
    | c :: backlog => .ok (s.enroll connfd c backlog, .accepted connfd c)

def store (c : κ) (b : Socket) (s : EpollServer κ) : EpollServer κ :=
  { s with socket := Function.update s.socket c b }

def close (sockfd : ℕ) (c : κ) (b : Socket) (s : EpollServer κ) : EpollServer κ :=
  { s with
    socket := Function.update s.socket c { b with item := none }
    conn := Function.update s.conn sockfd none
    ready := s.ready.erase sockfd }

def serve (writes : Bool) (sockfd : ℕ) (s : EpollServer κ) :
    Except Stop (EpollServer κ × EpollEvent κ) :=
  match s.conn sockfd with
  | none => .error .badDescriptor
  | some c =>
    match (s.socket c).read with
    | none => .error .blocked
    | some (.failed reset, b) =>
      if reset then .ok (s.close sockfd c b, .closed sockfd c) else .error .readError
    | some (.piece [], b) => .ok (s.close sockfd c b, .closed sockfd c)
    | some (.piece data, b) =>
      -- `buf[n] = '\0'` in an array of `MAXLINE`
      if MAXLINE ≤ data.length then .error .overflow
      else if writes then
        .ok (s.store c b, .answered sockfd c data [0x4F, 0x4B])
      else .error .writeError

/-- One turn of the loop over `events`. -/
def handle (connfd : Option ℕ) (writes : Bool) (fd : ℕ) (s : EpollServer κ) :
    Except Stop (EpollServer κ × EpollEvent κ) :=
  if fd = s.listenfd then s.accept connfd else s.serve writes fd

end EpollServer

open EpollServer in
/-- `epoll_wait` reports descriptors of the ready list that have something, in any order, and takes
them, and any that have nothing, from the list. -/
inductive EpollStep {κ : Type} [DecidableEq κ] (s : EpollServer κ) :
    EpollEvent κ → EpollServer κ → Prop
  | connected (c : κ) : (s.socket c).connected = false → EpollStep s (.connected c) (s.connect c)
  | sent (c : κ) (data : List UInt8) : (s.socket c).connected = true → (s.socket c).ended = false →
      (s.socket c).reset = false → data ≠ [] →
      EpollStep s (.sent c data) (s.arrive c { s.socket c with data := (s.socket c).data ++ data })
  | ended (c : κ) : (s.socket c).connected = true → (s.socket c).ended = false →
      (s.socket c).reset = false →
      EpollStep s (.ended c) (s.arrive c { s.socket c with ended := true })
  | reset (c : κ) : (s.socket c).connected = true → (s.socket c).reset = false →
      EpollStep s (.reset c) (s.arrive c { s.socket c with reset := true })
  | waited (fds : List ℕ) (dropped : Finset ℕ) : s.events = [] → fds.Nodup →
      fds.length ≤ maxevents → (∀ fd ∈ fds, fd ∈ s.ready ∧ s.readable fd = true) →
      (∀ fd ∈ dropped, s.readable fd = false) →
      EpollStep s (.waited fds)
        { s with ready := s.ready \ (fds.toFinset ∪ dropped), events := fds }
  | handled {fd : ℕ} {connfd : Option ℕ} {rest : List ℕ} {writes : Bool} {t : EpollServer κ}
      {e : EpollEvent κ} : s.events = fd :: rest →
      (∀ number ∈ connfd, number ≠ s.listenfd ∧ s.conn number = none) →
      handle connfd writes fd { s with events := rest } = .ok (t, e) → EpollStep s e t

def epollServer (κ : Type) [DecidableEq κ] (listenfd : ℕ) :
    System (EpollServer κ) (EpollEvent κ) where
  init s := s = .start listenfd
  step := EpollStep

end Mbtk.TcpServer
