import Mbtk.Lib.Numerals

/-! `sock_inet_pton` of `m_sock.c`: the addresses of a text. -/

namespace Mbtk.Sock

def INADDRSZ : ℕ := 4
def INT16SZ : ℕ := 2
def IN6ADDRSZ : ℕ := 16

def strchr (s : List UInt8) (c : UInt8) : Option ℕ := s.findIdx? (· = c)

def digits : List UInt8 := [0x30, 0x31, 0x32, 0x33, 0x34, 0x35, 0x36, 0x37, 0x38, 0x39]

def xdigitsL : List UInt8 := digits ++ [0x61, 0x62, 0x63, 0x64, 0x65, 0x66]

def xdigitsU : List UInt8 := digits ++ [0x41, 0x42, 0x43, 0x44, 0x45, 0x46]

/-- The variables of `inet_pton4`: the bytes in front of `tp` are `tmp`, and `last` is `*tp`. -/
structure Pton4 where
  sawDigit : Bool
  octets : ℕ
  tmp : List UInt8
  last : UInt8
  deriving DecidableEq

/-- The loop of `inet_pton4`, and what it copies to `dst`. -/
def pton4Loop : List UInt8 → Pton4 → Option (List UInt8)
  | [], s => if s.octets < 4 then none else some (s.tmp ++ [s.last])
  | ch :: src, s =>
    match strchr digits ch with
    | some d =>
      let new := s.last.toNat * 10 + d
      if 255 < new then none
      else if s.sawDigit then pton4Loop src { s with last := .ofNat new }
      else if 4 < s.octets + 1 then none
      else pton4Loop src
        { s with last := .ofNat new, octets := s.octets + 1, sawDigit := true }
    | none =>
      if ch = 0x2E ∧ s.sawDigit then
        if s.octets = 4 then none
        else pton4Loop src
          { s with tmp := s.tmp ++ [s.last], last := 0, sawDigit := false }
      else none

def inetPton4 (src : List UInt8) : Option (List UInt8) := pton4Loop src ⟨false, 0, [], 0⟩

/-- The variables of `inet_pton6`.  The bytes in front of `tp` are `tmp`, and the others are 0. -/
structure Pton6 where
  tmp : List UInt8
  colonp : Option ℕ
  curtok : List UInt8
  sawXdigit : Bool
  val : ℕ
  deriving DecidableEq

def xdigit (ch : UInt8) : Option ℕ :=
  match strchr xdigitsL ch with
  | some d => some d
  | none => strchr xdigitsU ch

def bytes16 (val : ℕ) : List UInt8 := [.ofNat (val >>> 8), .ofNat val]

/-- The loop of `inet_pton6`. -/
def pton6Loop : List UInt8 → Pton6 → Option Pton6
  | [], s => some s
  | ch :: src, s =>
    match xdigit ch with
    | some d =>
      let val := s.val <<< 4 ||| d
      if 0xFFFF < val then none
      else pton6Loop src { s with val := val, sawXdigit := true }
    | none =>
      if ch = 0x3A then
        if !s.sawXdigit then
          match s.colonp with
          | some _ => none
          | none => pton6Loop src { s with curtok := src, colonp := some s.tmp.length }
        else if IN6ADDRSZ < s.tmp.length + INT16SZ then none
        else pton6Loop src
          { s with tmp := s.tmp ++ bytes16 s.val, curtok := src, sawXdigit := false, val := 0 }
      else if ch = 0x2E ∧ s.tmp.length + INADDRSZ ≤ IN6ADDRSZ then
        (inetPton4 s.curtok).map fun dst => { s with tmp := s.tmp ++ dst, sawXdigit := false }
      else none

def pton6Finish (s : Pton6) : Option Pton6 :=
  if s.sawXdigit then
    if IN6ADDRSZ < s.tmp.length + INT16SZ then none
    else some { s with tmp := s.tmp ++ bytes16 s.val }
  else some s

def shiftLoop (colonp n : ℕ) : ℕ → ℕ → List UInt8 → List UInt8
  | 0, _, tmp => tmp
  | k + 1, i, tmp =>
    let moved := tmp.set (IN6ADDRSZ - i) (tmp.getD (colonp + n - i) 0)
    shiftLoop colonp n k (i + 1) (moved.set (colonp + n - i) 0)

/-- The end of `inet_pton6`. -/
def pton6End (s : Pton6) : Option (List UInt8) :=
  let tmp := s.tmp ++ List.replicate (IN6ADDRSZ - s.tmp.length) 0
  match s.colonp with
  | some colonp =>
    let n := s.tmp.length - colonp
    some (shiftLoop colonp n n 1 tmp)
  | none => if s.tmp.length = IN6ADDRSZ then some tmp else none

/-- `inet_pton6` behind the treatment of a leading `::`. -/
def pton6From (src : List UInt8) : Option (List UInt8) := do
  let s ← pton6Loop src ⟨[], none, src, false, 0⟩
  let s ← pton6Finish s
  pton6End s

def inetPton6 (src : List UInt8) : Option (List UInt8) :=
  match src with
  | 0x3A :: 0x3A :: rest => pton6From (0x3A :: rest)
  | 0x3A :: _ => none
  | _ => pton6From src

/-- The address families of Linux. -/
def AF_INET : ℤ := 2
def AF_INET6 : ℤ := 10

/-- `sock_inet_pton`: its result, and `dst` where it is written. -/
def sockInetPton (af : ℤ) (src : List UInt8) : ℤ × Option (List UInt8) :=
  let found (dst : Option (List UInt8)) : ℤ × Option (List UInt8) :=
    match dst with
    | some dst => (1, some dst)
    | none => (0, none)
  if af = AF_INET then found (inetPton4 src)
  else if af = AF_INET6 then found (inetPton6 src)
  else (-1, none)

end Mbtk.Sock
