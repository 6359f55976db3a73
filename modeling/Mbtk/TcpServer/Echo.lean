import Mathlib.Data.Finset.Basic
import Mbtk.Lib.ServeLoop
import Mbtk.Sock.ReadLine

/-! The service that the echo servers of `tcp_ser.c` give: every piece that a client sends comes
back to it with a newline. -/

namespace Mbtk.TcpServer

open Lib Sock

/-- What a server does with a descriptor. -/
inductive Event
  | opened (fd : ℕ)
  | echoed (fd : ℕ) (data reply : List UInt8)
  | closed (fd : ℕ)
  deriving DecidableEq

def Event.fd : Event → ℕ
  | .opened fd => fd
  | .echoed fd _ _ => fd
  | .closed fd => fd

inductive EchoStep : Finset ℕ → Event → Finset ℕ → Prop
  | opened {fds : Finset ℕ} {fd : ℕ} : fd ∉ fds → EchoStep fds (.opened fd) (insert fd fds)
  | echoed {fds : Finset ℕ} {fd : ℕ} {data : List UInt8} : fd ∈ fds → data ≠ [] →
      EchoStep fds (.echoed fd data (data ++ [0x0A])) fds
  | closed {fds : Finset ℕ} {fd : ℕ} : fd ∈ fds → EchoStep fds (.closed fd) (fds.erase fd)

def Event.apply (fds : Finset ℕ) : Event → Finset ℕ
  | .opened fd => insert fd fds
  | .echoed _ _ _ => fds
  | .closed fd => fds.erase fd

/-- The service, from the time without connections on. -/
def echo : System (Finset ℕ) Event where
  init fds := fds = ∅
  step := EchoStep

/-- How a process ends before its loop does. -/
inductive Fault
  | acceptError
  | tooManyClients
  | fdOutOfRange
  | readError
  | writeError
  | overflow
  deriving DecidableEq

/-- How `read` answers: with a piece that is empty at the end, or with -1 and whether `errno` is
`ECONNRESET`. -/
inductive ReadAnswer
  | piece (data : List UInt8)
  | failed (reset : Bool)
  deriving DecidableEq

/-- The piece with a newline and a NUL behind it in `buf`, and `Writen`. -/
def reply (sockfd : ℕ) (data : List UInt8) (writes : Bool) : Except Fault Event :=
  if MAXLINE < data.length + 2 then .error .overflow
  else if writes then .ok (.echoed sockfd data (data ++ [0x0A]))
  else .error .writeError

variable {fds fds' : Finset ℕ} {es : List Event}

theorem EchoStep.eq_apply {e : Event} (h : EchoStep fds e fds') : fds' = e.apply fds := by
  cases h <;> rfl

theorem eq_foldl_of_run (h : echo.Run fds es fds') : fds' = es.foldl Event.apply fds := by
  induction h with
  | nil => rfl
  | cons hstep _ ih => rw [ih, EchoStep.eq_apply hstep, List.foldl_cons]

/-- A client is served as its descriptor answers. -/
def Serves (read : ℕ → ReadAnswer) (fd : ℕ) (e : Event) : Prop :=
  (e = .closed fd ∧ ∀ data, read fd = .piece data → data = []) ∨
    ∃ data answer, e = .echoed fd data answer ∧ read fd = .piece data

theorem Serves.fd_eq {read : ℕ → ReadAnswer} {fd : ℕ} {e : Event} (h : Serves read fd e) :
    e.fd = fd := by
  obtain ⟨rfl, -⟩ | ⟨data, answer, rfl, -⟩ := h <;> rfl

theorem of_serves {α : Type} {f : α → ℕ} {read : ℕ → ReadAnswer} {todo : List α}
    (h : List.Forall₂ (fun entry e => Serves read (f entry) e) todo es) :
    es.map Event.fd = todo.map f ∧ ∀ e ∈ es, Serves read e.fd e := by
  induction h with
  | nil => exact ⟨rfl, fun e he => absurd he List.not_mem_nil⟩
  | cons hserves _ ih =>
    refine ⟨?_, List.forall_mem_cons.mpr ⟨hserves.fd_eq.symm ▸ hserves, ih.2⟩⟩
    rw [List.map_cons, List.map_cons, ih.1, hserves.fd_eq]

/-- What a turn does: one event for every descriptor that is reported, and for the new one. -/
structure Turn (ready : Finset ℕ) (connfd : Option ℕ) (read : ℕ → ReadAnswer)
    (es : List Event) : Prop where
  nodup : (es.map Event.fd).Nodup
  mem_iff : ∀ fd, fd ∈ es.map Event.fd ↔ fd ∈ ready ∨ connfd = some fd
  opened : ∀ fd, .opened fd ∈ es ↔ connfd = some fd
  echoed : ∀ fd data answer, .echoed fd data answer ∈ es → read fd = .piece data
  closed : ∀ fd, .closed fd ∈ es → ∀ data, read fd = .piece data → data = []

variable {ready : Finset ℕ} {read : ℕ → ReadAnswer}

theorem turn_of_serves (hserves : ∀ e ∈ es, Serves read e.fd e) (hnodup : (es.map Event.fd).Nodup)
    (hmem : ∀ fd, fd ∈ es.map Event.fd ↔ fd ∈ ready) : Turn ready none read es where
  nodup := hnodup
  mem_iff := fun fd => by simp [hmem]
  opened := by
    refine fun fd => iff_of_false (fun he => ?_) (by simp)
    obtain ⟨heq, -⟩ | ⟨data, answer, heq, -⟩ := hserves _ he <;> cases heq
  echoed := by
    intro fd data answer he
    obtain ⟨heq, -⟩ | ⟨data', answer', heq, hread⟩ := hserves _ he
    · cases heq
    · cases heq
      exact hread
  closed := by
    intro fd he
    obtain ⟨-, hread⟩ | ⟨data, answer, heq, -⟩ := hserves _ he
    · exact hread
    · cases heq

theorem Turn.cons {connfd : ℕ} (h : Turn ready none read es) (hnew : connfd ∉ ready) :
    Turn ready (some connfd) read (.opened connfd :: es) where
  nodup := by
    refine List.nodup_cons.mpr ⟨fun hmem => hnew ?_, h.nodup⟩
    simpa using (h.mem_iff connfd).mp hmem
  mem_iff := by
    intro fd
    rw [List.map_cons, List.mem_cons, h.mem_iff]
    simp [Event.fd, or_comm, eq_comm]
  opened := by
    intro fd
    rw [List.mem_cons, h.opened]
    simp [eq_comm]
  echoed := by
    intro fd data answer he
    obtain heq | he := List.mem_cons.mp he
    · cases heq
    · exact h.echoed fd data answer he
  closed := by
    intro fd he
    obtain heq | he := List.mem_cons.mp he
    · cases heq
    · exact h.closed fd he

end Mbtk.TcpServer
