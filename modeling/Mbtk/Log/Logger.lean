import Mbtk.Lib.Transition
import Mbtk.Sock.ReadLine

/-! The logger of `m_log.c`: its levels, its file, and what it writes. -/

namespace Mbtk.Log

open Lib Sock

def LOG_F : ℤ := 1
def LOG_A : ℤ := 2
def LOG_E : ℤ := 3
def LOG_W : ℤ := 4
def LOG_I : ℤ := 5
def LOG_D : ℤ := 6

def LOG_BUF_SIZE : ℕ := 2048

/-- The size of `log_file_path`. -/
def PATH_SIZE : ℕ := 100

def chars (s : String) : List UInt8 := s.toList.map fun c => .ofNat c.toNat

def escape (s : String) : List UInt8 := 0x1B :: chars s

def NONE : List UInt8 := escape "[0m"
def RED : List UInt8 := escape "[0;31m"
def GREEN : List UInt8 := escape "[0;32m"
def YELLOW : List UInt8 := escape "[1;33m"
def BLUE : List UInt8 := escape "[0;34m"

def presentBit8 (x : ℕ) : UInt8 := .ofNat (1 <<< x)

def bitOn8 (m : UInt8) (b : ℕ) : Bool := m &&& presentBit8 b ≠ 0

def setBit8 (m : UInt8) (b : ℕ) : UInt8 := m ||| presentBit8 b

/-- The static variables, with the streams of `fopen` by their pointers. -/
structure Logger (φ : Type) where
  logFlag : UInt8
  logInited : Bool
  logFile : Option φ
  logFilePath : List UInt8
  logLevel : ℤ
  deriving DecidableEq

/-- What is done to the streams.  A text goes to a stream, or to the terminal. -/
inductive Effect (φ : Type)
  | fopen (path : List UInt8) (file : φ)
  | fclose (file : φ)
  | freopen (path : List UInt8) (file : φ) (result : Option φ)
  | heading (file : Option φ) (text : List UInt8)
  | record (file : Option φ) (text : List UInt8)
  | blank (text : List UInt8)
  deriving DecidableEq

def Effect.written {φ : Type} : Effect φ → Option (Option φ × List UInt8)
  | .record file text => some (file, text)
  | _ => none

/-- The stream and the text of all that is written. -/
def Effect.output {φ : Type} : Effect φ → Option (Option φ × List UInt8)
  | .heading file text => some (file, text)
  | .record file text => some (file, text)
  | .blank text => some (none, text)
  | _ => none

/-- What `log_private` is told about its caller. -/
structure Place where
  file : List UInt8
  line : ℤ
  func : List UInt8

namespace Logger

variable {φ : Type}

def start : Logger φ where
  logFlag := 0
  logInited := false
  logFile := none
  logFilePath := List.replicate PATH_SIZE 0
  logLevel := 0

def closeFile (s : Logger φ) : Logger φ × List (Effect φ) :=
  match s.logFile with
  | some file =>
    if 0 < (cString s.logFilePath).length then
      ({ s with logFile := none, logFilePath := List.replicate PATH_SIZE 0 }, [.fclose file])
    else (s, [])
  | none => (s, [])

/-- The call of `fopen`, and the copy of the path.  A path that does not leave room for a NUL has no
result. -/
def openFile (path : List UInt8) (fopen : Option φ) (s : Logger φ) :
    Option (Logger φ × List (Effect φ)) :=
  match fopen with
  | none => some ({ s with logFile := none }, [])
  | some file =>
    if path.length < PATH_SIZE then
      some ({ s with
        logFile := some file
        logFilePath := path ++ s.logFilePath.drop path.length }, [.fopen path file])
    else none

/-- `log_section`, where `time` is what `log_time_get` leaves in its buffer. -/
def logSection (time : List UInt8) (s : Logger φ) : List (Effect φ) :=
  if time = [] then []
  else
    let buf := (chars "\n====================== " ++ time ++
      chars " ======================\n\n").take 499
    match s.logFile with
    | some file => [.heading (some file) buf]
    | none => [.heading none (YELLOW ++ buf ++ NONE)]

def logInit (level : ℤ) (onlyThisLevel : Bool) (logPath : Option (List UInt8)) (fopen : Option φ)
    (time : List UInt8) (s : Logger φ) : Option (Logger φ × List (Effect φ)) :=
  let level := if LOG_D < level then LOG_D else level
  if level < LOG_F then some ({ s with logFlag := 0 }, [])
  else do
    let (s, closed) := closeFile { s with logFlag := 0 }
    let (s, opened) ←
      match logPath with
      | some path => s.openFile path fopen
      | none => some (s, [])
    let logFlag :=
      if onlyThisLevel then setBit8 s.logFlag level.toNat
      else (List.range' 1 level.toNat).foldl setBit8 s.logFlag
    let s := { s with logFlag, logInited := true }
    return (s, closed ++ opened ++ s.logSection time)

def color (level : ℤ) : List UInt8 :=
  if level = LOG_F ∨ level = LOG_A ∨ level = LOG_E then RED
  else if level = LOG_W then BLUE
  else if level = LOG_I then GREEN
  else NONE

/-- What `log_private` puts into `log_buf` in front of the message. -/
def front (level : ℤ) (place : Place) (logFile : Option φ) : List UInt8 :=
  (chars "[" ++ place.file ++ chars "," ++ chars (toString place.line) ++ chars "," ++ place.func ++
    chars "()]:" ++ logFile.elim (color level) fun _ => []).take (LOG_BUF_SIZE - 1)

def logPrint (str time : List UInt8) (s : Logger φ) : List (Effect φ) :=
  if time = [] then []
  else
    let buf := (chars "[" ++ chars (toString s.logLevel) ++ chars "][" ++ time ++
      chars "]-").take 99
    match s.logFile with
    | some file => [.record (some file) (buf ++ str)]
    | none => [.record none (buf ++ str ++ NONE)]

/-- The levels that are there without a call of `log_init`. -/
def ready (sectionTime : List UInt8) (s : Logger φ) : Option (Logger φ × List (Effect φ)) :=
  if s.logInited then some (s, []) else s.logInit LOG_I false none none sectionTime

/-- `log_private` with the message that its arguments make up, which ends at its first NUL.  Neither
a shift by a level that is no number of a bit nor a message that does not fit into `log_buf` has a
result. -/
def logPrivate (level : ℤ) (place : Place) (message sectionTime time : List UInt8) (s : Logger φ) :
    Option (Logger φ × List (Effect φ)) := do
  let (s, started) ← s.ready sectionTime
  if level < 0 ∨ 31 ≤ level then none
  else if bitOn8 s.logFlag level.toNat then
    let s := { s with logLevel := level }
    let logBuf := front level place s.logFile
    if LOG_BUF_SIZE + 1 < logBuf.length + message.length + 2 then none
    else return (s, started ++ s.logPrint (logBuf ++ cString message ++ [0x0A]) time)
  else return (s, started)

def logClear (freopen : Option φ) (s : Logger φ) : Logger φ × List (Effect φ) :=
  match s.logFile with
  | some file =>
    ({ s with logFile := freopen }, [.freopen (cString s.logFilePath) file freopen])
  | none => (s, [.blank (List.replicate 10 0x0A)])

end Logger

/-- A call, with what the system calls in it bring. -/
inductive Call (φ : Type)
  | init (level : ℤ) (onlyThisLevel : Bool) (logPath : Option (List UInt8)) (fopen : Option φ)
      (time : List UInt8)
  | message (level : ℤ) (place : Place) (message sectionTime time : List UInt8)
  | clear (freopen : Option φ)

namespace Logger

variable {φ : Type}

def call (s : Logger φ) : Call φ → Option (Logger φ × List (Effect φ))
  | .init level onlyThisLevel logPath fopen time =>
    s.logInit level onlyThisLevel logPath fopen time
  | .message level place message sectionTime time =>
    s.logPrivate level place message sectionTime time
  | .clear freopen => some (s.logClear freopen)

/-- A path is a string that is not empty where `fopen` opens it, and `freopen` returns the stream
that it gets, or NULL. -/
def Sane (s : Logger φ) : Call φ → Prop
  | .init _ _ logPath fopen _ =>
    ∀ path ∈ logPath, 0 ∉ path ∧ (path = [] → fopen = none)
  | .message .. => True
  | .clear freopen => ∀ file ∈ freopen, s.logFile = some file

def system : System (Logger φ) (Call φ × List (Effect φ)) where
  init s := s = start
  step s e t := s.Sane e.1 ∧ s.call e.1 = some (t, e.2)

end Logger

end Mbtk.Log
