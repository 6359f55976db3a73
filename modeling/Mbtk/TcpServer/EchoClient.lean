import Mbtk.Sock.Lines
import Mbtk.TcpServer.Echo

namespace Mbtk.TcpServer

open Lib Sock

/-- The characters that `fgets` stores when it has room for `k` more, and what it leaves. -/
def fgetsLoop : ℕ → List UInt8 → List UInt8 × List UInt8
  | 0, stdin => ([], stdin)
  | _ + 1, [] => ([], [])
  | k + 1, c :: stdin =>
    if c = 0x0A then ([c], stdin)
    else (c :: (fgetsLoop k stdin).1, (fgetsLoop k stdin).2)

def fgets (n : ℕ) (stdin : List UInt8) : Option (List UInt8 × List UInt8) :=
  if stdin = [] then none else some (fgetsLoop (n - 1) stdin)

/-- The loop that goes back from the last character, or `none` where it leaves the array. -/
def stripBack : List UInt8 → Option (List UInt8)
  | [] => none
  | c :: l => if c = 0x0D ∨ c = 0x0A then stripBack l else some (c :: l)

inductive Command
  | outOfBounds
  | exit
  | send (sendline : List UInt8)
  deriving DecidableEq

def command (line : List UInt8) : Command :=
  match stripBack (cString line).reverse with
  | none => .outOfBounds
  | some l => if l.reverse = [0x65, 0x78, 0x69, 0x74] then .exit else .send l.reverse

example : command [0x68, 0x69, 0x0D, 0x0A] = .send [0x68, 0x69] := by decide

inductive Phase
  | typing
  | waiting
  | exited
  deriving DecidableEq

/-- The client with its standard input, the bytes under way in both directions, what the client
reads from its socket, and whether one of the two has left an array. -/
structure Dialogue where
  phase : Phase
  stdin : List UInt8
  toServer : List UInt8
  toClient : List UInt8
  reading : Reading Unit
  overrun : Bool

inductive Said
  | typed (line sendline : List UInt8)
  | exited (line : List UInt8)
  | strayed (line : List UInt8)
  | served (data answer : List UInt8)
  | overran (data : List UInt8)
  | arrived (interruptions : ℕ) (data : List UInt8)
  | printed (recvline : List UInt8)
  | terminated
  | failed
  deriving DecidableEq

namespace Dialogue

def start (stdin : List UInt8) : Dialogue where
  phase := .typing
  stdin := stdin
  toServer := []
  toClient := []
  reading := ⟨.zeroed, fun _ => ⟨[], false⟩⟩
  overrun := false

/-- A piece for the next calls of `read`, which signals may interrupt. -/
def arrive (interruptions : ℕ) (data : List UInt8) (r : Reading Unit) : Reading Unit where
  buf := r.buf
  conns := fun _ =>
    ⟨(r.conns ()).arrivals ++ List.replicate interruptions .interrupted ++ [.piece data],
      (r.conns ()).ended⟩

/-- What the client does with the result of `Readline`. -/
def heard (line : Line) : Said :=
  if line.ret < 0 then .failed
  else if line.ret = 0 then .terminated
  else .printed (cString line.stored)

/-- A step of the client, of the child process, or of the connection. -/
inductive Step : Dialogue → Said → Dialogue → Prop
  | typed {s : Dialogue} {line sendline stdin : List UInt8} : s.phase = .typing →
      fgets MAXLINE s.stdin = some (line, stdin) → command line = .send sendline →
      Step s (.typed line sendline)
        { s with phase := .waiting, stdin := stdin, toServer := s.toServer ++ sendline }
  | exited {s : Dialogue} {line stdin : List UInt8} : s.phase = .typing →
      fgets MAXLINE s.stdin = some (line, stdin) → command line = .exit →
      Step s (.exited line) { s with phase := .exited, stdin := stdin }
  -- `sendline[-1]`
  | strayed {s : Dialogue} {line stdin : List UInt8} : s.phase = .typing →
      fgets MAXLINE s.stdin = some (line, stdin) → command line = .outOfBounds →
      Step s (.strayed line) { s with stdin := stdin, overrun := true }
  | ended {s : Dialogue} : s.phase = .typing → fgets MAXLINE s.stdin = none →
      Step s (.exited []) { s with phase := .exited }
  | served {s : Dialogue} {data rest answer : List UInt8} : s.phase ≠ .exited →
      s.toServer = data ++ rest → data ≠ [] → reply 0 data true = .ok (.echoed 0 data answer) →
      Step s (.served data answer) { s with toServer := rest, toClient := s.toClient ++ answer }
  -- `buf[MAXLINE]` of the child process
  | overran {s : Dialogue} {data rest : List UInt8} : s.phase ≠ .exited →
      s.toServer = data ++ rest → data.length ≤ MAXLINE → reply 0 data true = .error .overflow →
      Step s (.overran data) { s with overrun := true }
  | arrived {s : Dialogue} {interruptions : ℕ} {data rest : List UInt8} : s.phase ≠ .exited →
      s.toClient = data ++ rest → data ≠ [] →
      Step s (.arrived interruptions data)
        { s with toClient := rest, reading := arrive interruptions data s.reading }
  | heard {s : Dialogue} {line : Line} {r : Reading Unit} : s.phase = .waiting →
      (sockReadline (myRead ()) MAXLINE).run s.reading = some (line, r) →
      Step s (heard line)
        { s with phase := if 0 < line.ret then .typing else .exited, reading := r }

end Dialogue

/-- The dialogue, up to the first step that leaves an array. -/
def dialogue (stdin : List UInt8) : System Dialogue Said where
  init s := s = .start stdin
  step s e t := s.overrun = false ∧ Dialogue.Step s e t

end Mbtk.TcpServer
