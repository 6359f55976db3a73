import Mbtk.Http.Url
import Mbtk.Sock.Lines
import Mbtk.Sock.Writen

namespace Mbtk.Http

open Lib Sock

def HTTP_REQ_HEAD_MAX_LEN : ℕ := 2048

/-- The loop of `http_rsp_parse`, with what it prints. -/
def rspParseLoop {σ : Type} (next : StateT σ Option (Event UInt8)) :
    ℕ → StateT σ Option (List (List UInt8))
  | 0 => fun _ => none
  | n + 1 => do
    let line ← sockReadline next (2048 - 1)
    if 0 < line.ret then
      let printed ← rspParseLoop next n
      return cString line.stored :: printed
    else return []

variable {κ : Type} [DecidableEq κ]

/-- `http_rsp_parse`.  A line that is printed takes something off the stream, which bounds the
turns of the loop. -/
def httpRspParse (fd : κ) : StateT (Reading κ) Option (List (List UInt8)) := fun r =>
  (rspParseLoop (myRead fd) ((r.tape fd).events.length + 1)).run r

def requestText (host uri : List UInt8) : List UInt8 :=
  [0x47, 0x45, 0x54, 0x20] ++ cString uri ++
    [0x20, 0x48, 0x54, 0x54, 0x50, 0x2F, 0x31, 0x2E, 0x31, 0x0D, 0x0A] ++
    [0x48, 0x6F, 0x73, 0x74, 0x3A, 0x20] ++ cString host ++ [0x0D, 0x0A, 0x0D, 0x0A]

example : requestText [0x61] [0x2F] =
    "GET / HTTP/1.1\r\nHost: a\r\n\r\n".toList.map fun c => c.toNat.toUInt8 := by decide

def request (host uri : List UInt8) : List UInt8 :=
  (requestText host uri).take (HTTP_REQ_HEAD_MAX_LEN - 1)

inductive Print
  | parts (host uri : List UInt8) (port : ℤ)
  | text (l : List UInt8)
  deriving DecidableEq

structure Net (κ : Type) where
  reading : Reading κ
  sinks : κ → Sink

/-- A call of `http_get`: the URL, what `port` holds before, and what `sock_open` returns. -/
structure Call (κ : Type) where
  url : List UInt8
  port : ℤ
  sockFd : Option κ

/-- `http_url_parse` with the arrays of `http_get`. -/
def Call.parse (call : Call κ) : Option Parsed :=
  httpUrlParse call.url (List.replicate (HTTP_HOST_MAX_LEN + 1) 0)
    (List.replicate (HTTP_URI_MAX_LEN + 1) 0) call.port

/-- The line that `http_get` prints first. -/
def Parsed.print (parsed : Parsed) : Print :=
  .parts (cString parsed.host) (cString parsed.uri) parsed.port

structure Got where
  ret : ℤ
  prints : List Print
  deriving DecidableEq

/-- `http_get` behind `sock_open`. -/
def exchange (fd : κ) (header : List UInt8) : StateT (Net κ) Option Got := fun net => do
  let (ret, sink) ← (sockWriten header).run (net.sinks fd)
  let sinks := Function.update net.sinks fd sink
  if ret ≠ header.length then return (⟨-1, []⟩, ⟨net.reading, sinks⟩)
  else
    let (printed, reading) ← (httpRspParse fd).run net.reading
    return (⟨0, printed.map .text⟩, ⟨reading, sinks⟩)

def httpGet (call : Call κ) : StateT (Net κ) Option Got := fun net => do
  let parsed ← call.parse
  if parsed.ok then
    match call.sockFd with
    | none => return (⟨-1, [parsed.print]⟩, net)
    | some fd => do
      let (got, net) ← (exchange fd (request parsed.host parsed.uri)).run net
      return (⟨got.ret, parsed.print :: got.prints⟩, net)
  else return (⟨-1, []⟩, net)

/-- The calls of a process, one after the other. -/
def httpGets : List (Call κ) → StateT (Net κ) Option (List Got)
  | [] => pure []
  | call :: calls => do
    let got ← httpGet call
    let gots ← httpGets calls
    return got :: gots

end Mbtk.Http
