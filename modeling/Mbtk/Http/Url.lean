import Mbtk.MString.Scan
import Mbtk.Stanet.HostPort

/-! The host, the port and the path of a URL. -/

namespace Mbtk.Http

open Lib MString Coap

def HTTP_HOST_MAX_LEN : ℕ := 100
def HTTP_URI_MAX_LEN : ℕ := 1024
def HTTP_URL_MAX_LEN : ℕ := HTTP_HOST_MAX_LEN + HTTP_URI_MAX_LEN + 20

def http : List UInt8 := [0x68, 0x74, 0x74, 0x70, 0x3A, 0x2F, 0x2F]

def https : List UInt8 := [0x68, 0x74, 0x74, 0x70, 0x73, 0x3A, 0x2F, 0x2F]

/-- The loop that deletes the port from the host array, with the port if there was one. -/
def deletePort : List UInt8 → Option (List UInt8 × Option ℤ)
  | [] => none
  | c :: host =>
    if c = 0 then some (c :: host, none)
    else if c = 0x3A then some (0 :: host, some (atoi host))
    else (deletePort host).map fun (host, port) => (c :: host, port)

/-- The two arrays and the port behind a call of `http_url_parse`. -/
structure Parsed where
  ok : Bool
  host : List UInt8
  uri : List UInt8
  port : ℤ

/-- The scheme of a URL: the port that it stands for, and the URL behind it. -/
def parseScheme (url : List UInt8) (port : ℤ) : ℤ × List UInt8 :=
  if strIndexof http url = some 0 then (80, url.drop http.length)
  else if strIndexof https url = some 0 then (443, url.drop https.length)
  else (port, url)

def httpUrlParse (url host uri : List UInt8) (port : ℤ) : Option Parsed :=
  if HTTP_URL_MAX_LEN < url.length then some ⟨false, host, uri, port⟩
  else
    let (port, ptr) := parseScheme url port
    match strIndexof [0x2F] ptr with
    | none => some ⟨false, host, uri, port⟩
    | some pos =>
      if HTTP_HOST_MAX_LEN < pos then some ⟨false, host, uri, port⟩
      else do
        let host ← copyInto host 0 (ptr.take pos)
        let (host, found) ← deletePort host
        let port := found.getD port
        let uriLen := ptr.length - pos
        if HTTP_URI_MAX_LEN < uriLen then some ⟨false, host, uri, port⟩
        else do
          let uri ← copyInto uri 0 (ptr.drop pos)
          return ⟨true, host, uri, port⟩

def decimalValue (digits : List UInt8) : ℕ :=
  digits.foldl (fun value c => 10 * value + (c - 0x30).toNat) 0

inductive Scheme where
  | http
  | https

structure Port where
  digits : List UInt8
  isDigit : ∀ c ∈ digits, 0x30 ≤ c ∧ c ≤ 0x39
  pos : 1 ≤ decimalValue digits
  le : decimalValue digits ≤ 65535

structure Url where
  scheme : Option Scheme
  host : List UInt8
  port : Option Port
  path : List UInt8
  host_ne : host ≠ []
  host_slash : 0x2F ∉ host
  host_colon : 0x3A ∉ host
  host_nul : 0 ∉ host
  path_slash : [0x2F] <+: path
  path_nul : 0 ∉ path
  length_le : host.length + (port.elim [] Port.digits).length ≤ HTTP_HOST_MAX_LEN
  path_le : path.length ≤ HTTP_URI_MAX_LEN

def Scheme.text : Scheme → List UInt8
  | .http => Http.http
  | .https => Http.https

def Port.text (port : Port) : List UInt8 := 0x3A :: port.digits

namespace Url

def authority (u : Url) : List UInt8 := u.host ++ u.port.elim [] Port.text

def text (u : Url) : List UInt8 := u.scheme.elim [] Scheme.text ++ (u.authority ++ u.path)

def defaultPort (u : Url) : ℤ :=
  match u.scheme with
  | some .https => 443
  | _ => 80

def portNumber (u : Url) : ℤ := u.port.elim u.defaultPort fun port => decimalValue port.digits

/-- With zeroed arrays and any value of `*port` before, the host, the path and the port come out. -/
def Parses (u : Url) : Prop :=
  ∀ port : ℤ, ∃ host uri,
    httpUrlParse u.text (List.replicate (HTTP_HOST_MAX_LEN + 1) 0)
      (List.replicate (HTTP_URI_MAX_LEN + 1) 0) port = some ⟨true, host, uri, u.portNumber⟩ ∧
    u.host ++ [0] <+: host ∧ u.path ++ [0] <+: uri

end Url

section Parts

variable {u : Url} {port : Port} {s r : List UInt8}

theorem atoiDigits_append (hr : ∀ value, atoiDigits value r = value) {digits : List UInt8}
    (h : ∀ c ∈ digits, 0x30 ≤ c ∧ c ≤ 0x39) (value : ℕ) :
    atoiDigits value (digits ++ r) =
      digits.foldl (fun value c => 10 * value + (c - 0x30).toNat) value := by
  induction digits generalizing value with
  | nil => rw [List.nil_append, hr, List.foldl_nil]
  | cons c digits ih =>
    obtain ⟨hc, hdigits⟩ := List.forall_mem_cons.mp h
    rw [List.cons_append, atoiDigits, if_pos hc, ih hdigits, List.foldl_cons]

theorem Port.digits_ne (port : Port) : port.digits ≠ [] := by
  intro hnil
  have hpos := port.pos
  rw [hnil] at hpos
  exact absurd hpos (by decide)

theorem Port.atoi_digits (port : Port) (r : List UInt8) :
    atoi (port.digits ++ 0 :: r) = decimalValue port.digits := by
  obtain ⟨c, digits, hcons⟩ := List.exists_cons_of_ne_nil port.digits_ne
  have hc := port.isDigit c (by simp [hcons])
  have hvalue := atoiDigits_append (Stanet.atoiDigits_nul r) port.isDigit 0
  rw [hcons] at hvalue ⊢
  rw [List.cons_append] at hvalue ⊢
  rw [Stanet.atoi_digit hc, hvalue]
  rfl

theorem Port.notMem_digits (port : Port) {c : UInt8} (h : ¬ (0x30 ≤ c ∧ c ≤ 0x39)) :
    c ∉ port.digits := fun hc => h (port.isDigit c hc)

theorem deletePort_append (hnul : 0 ∉ s) (hcolon : 0x3A ∉ s) :
    deletePort (s ++ r) = (deletePort r).map fun (host, port) => (s ++ host, port) := by
  induction s with
  | nil =>
    simp only [List.nil_append]
    exact (Option.map_id' ..).symm
  | cons c s ih =>
    rw [List.mem_cons, not_or] at hnul hcolon
    rw [List.cons_append, deletePort, if_neg (Ne.symm hnul.1), if_neg (Ne.symm hcolon.1),
      ih hnul.2 hcolon.2, Option.map_map]
    rfl

theorem deletePort_zeros {k : ℕ} (hk : 0 < k) :
    deletePort (List.replicate k 0) = some (List.replicate k 0, none) := by
  obtain ⟨k, rfl⟩ := Nat.exists_eq_add_one.mpr hk
  rw [List.replicate_succ, deletePort, if_pos rfl]

theorem deletePort_text (port : Port) {k : ℕ} (hk : 0 < k) :
    deletePort (port.text ++ List.replicate k 0) =
      some (0 :: (port.digits ++ List.replicate k 0), some (decimalValue port.digits : ℤ)) := by
  obtain ⟨k, rfl⟩ := Nat.exists_eq_add_one.mpr hk
  rw [Port.text, List.cons_append, deletePort, if_neg (by decide), if_pos rfl, List.replicate_succ,
    port.atoi_digits]

namespace Url

theorem slash_notMem_authority (u : Url) : 0x2F ∉ u.authority := by
  rw [authority, List.mem_append, not_or]
  refine ⟨u.host_slash, ?_⟩
  cases u.port with
  | none => simp
  | some port =>
    exact List.not_mem_cons_of_ne_of_not_mem (by decide) (port.notMem_digits (by decide))

theorem getLast?_authority_ne (u : Url) : u.authority.getLast? ≠ some 0x3A := by
  intro hlast
  unfold authority at hlast
  cases hport : u.port with
  | none =>
    rw [hport, Option.elim_none, List.append_nil] at hlast
    exact u.host_colon (List.mem_of_getLast? hlast)
  | some port =>
    rw [hport, Option.elim_some, Port.text, List.getLast?_append, List.getLast?_cons_of_ne_nil
      port.digits_ne, List.getLast?_eq_some_getLast port.digits_ne, Option.some_or] at hlast
    have hmem := List.getLast_mem port.digits_ne
    rw [Option.some.inj hlast] at hmem
    exact port.notMem_digits (by decide) hmem

theorem exists_path (u : Url) : ∃ rest, u.path = 0x2F :: rest := by
  obtain ⟨rest, hrest⟩ := u.path_slash
  exact ⟨rest, hrest.symm⟩

theorem not_scheme_prefix (u : Url) {w : List UInt8} (hw : 0x2F ∉ w) :
    ¬ w ++ [0x3A, 0x2F, 0x2F] <+: u.authority ++ u.path := by
  rintro ⟨r, hr⟩
  obtain ⟨rest, hrest⟩ := u.exists_path
  have hsplit : w ++ [0x3A] ++ 0x2F :: (0x2F :: r) = u.authority ++ 0x2F :: rest := by
    rw [← hrest, ← hr]
    simp
  have hw' : 0x2F ∉ w ++ [0x3A] := by simpa using hw
  have hidx := strIndexof_singleton hw' (0x2F :: r)
  rw [hsplit, strIndexof_singleton u.slash_notMem_authority] at hidx
  have hauthority := (List.append_inj hsplit (Option.some.inj hidx).symm).1
  exact u.getLast?_authority_ne (by rw [← hauthority, List.getLast?_concat])

/-- The port behind the scheme: that of the scheme, or the one before. -/
def schemePort (u : Url) (port : ℤ) : ℤ := u.scheme.elim port fun _ => u.defaultPort

theorem parseScheme_text (u : Url) (port : ℤ) :
    parseScheme u.text port = (u.schemePort port, u.authority ++ u.path) := by
  unfold parseScheme schemePort defaultPort text
  simp only [strIndexof_eq_zero_iff]
  cases u.scheme with
  | none =>
    have hhttp : ¬ http <+: u.authority ++ u.path :=
      u.not_scheme_prefix (w := [0x68, 0x74, 0x74, 0x70]) (by decide)
    have hhttps : ¬ https <+: u.authority ++ u.path :=
      u.not_scheme_prefix (w := [0x68, 0x74, 0x74, 0x70, 0x73]) (by decide)
    rw [Option.elim_none, Option.elim_none, List.nil_append, if_neg hhttp, if_neg hhttps]
  | some scheme =>
    rw [Option.elim_some, Option.elim_some]
    cases scheme with
    | http => rw [Scheme.text, if_pos (List.prefix_append _ _), List.drop_left]
    | https =>
      have hhttp : ¬ http <+: https ++ (u.authority ++ u.path) := by simp [http, https]
      rw [Scheme.text, if_neg hhttp, if_pos (List.prefix_append _ _), List.drop_left]

theorem length_authority (u : Url) :
    u.authority.length = u.host.length + u.port.elim 0 fun port => port.digits.length + 1 := by
  rw [authority, List.length_append]
  cases u.port <;> rfl

theorem length_text_le (u : Url) : u.text.length ≤ HTTP_URL_MAX_LEN := by
  have hlen := u.length_le
  have hpath := u.path_le
  have hscheme : (u.scheme.elim [] Scheme.text).length ≤ 8 := by
    cases u.scheme with
    | none => exact Nat.zero_le _
    | some scheme => cases scheme <;> decide
  have hauthority : u.authority.length ≤
      u.host.length + (u.port.elim [] Port.digits).length + 1 := by
    rw [length_authority]
    cases u.port with
    | none => exact Nat.le_succ _
    | some port => exact Nat.le_of_eq (Nat.add_assoc ..).symm
  rw [text, List.length_append, List.length_append]
  unfold HTTP_HOST_MAX_LEN at hlen
  unfold HTTP_URI_MAX_LEN at hpath
  unfold HTTP_URL_MAX_LEN HTTP_HOST_MAX_LEN HTTP_URI_MAX_LEN
  omega

theorem deletePort_authority (u : Url) {k : ℕ} (hk : 0 < k) :
    ∃ rest, deletePort (u.authority ++ List.replicate k 0) =
      some (u.host ++ [0] ++ rest, u.port.map fun port => (decimalValue port.digits : ℤ)) := by
  rw [authority, List.append_assoc, deletePort_append u.host_nul u.host_colon]
  cases u.port with
  | none =>
    obtain ⟨k, rfl⟩ := Nat.exists_eq_add_one.mpr hk
    refine ⟨List.replicate k 0, ?_⟩
    rw [Option.elim_none, List.nil_append, deletePort_zeros hk, List.replicate_succ,
      List.append_assoc]
    rfl
  | some port =>
    refine ⟨port.digits ++ List.replicate k 0, ?_⟩
    rw [Option.elim_some, deletePort_text port hk, List.append_assoc]
    rfl

/-- The parts come out, with the port of the scheme unless there is an explicit one. -/
theorem exists_httpUrlParse (u : Url) (hlen : u.authority.length ≤ HTTP_HOST_MAX_LEN) (port : ℤ) :
    ∃ host uri, httpUrlParse u.text (List.replicate (HTTP_HOST_MAX_LEN + 1) 0)
        (List.replicate (HTTP_URI_MAX_LEN + 1) 0) port =
      some ⟨true, host, uri, u.port.elim (u.schemePort port) fun port => decimalValue port.digits⟩ ∧
      u.host ++ [0] <+: host ∧ u.path ++ [0] <+: uri := by
  obtain ⟨rest, hrest⟩ := u.exists_path
  have hpath := u.path_le
  have hslash : strIndexof [0x2F] (u.authority ++ u.path) = some u.authority.length := by
    rw [hrest]
    exact strIndexof_singleton u.slash_notMem_authority rest
  have hhost : copyInto (List.replicate (HTTP_HOST_MAX_LEN + 1) 0) 0 u.authority =
      some (u.authority ++ List.replicate (HTTP_HOST_MAX_LEN + 1 - u.authority.length) 0) := by
    rw [copyInto_zero (by rw [List.length_replicate]; omega), List.drop_replicate]
  have huri : copyInto (List.replicate (HTTP_URI_MAX_LEN + 1) 0) 0 u.path =
      some (u.path ++ List.replicate (HTTP_URI_MAX_LEN + 1 - u.path.length) 0) := by
    rw [copyInto_zero (by rw [List.length_replicate]; omega), List.drop_replicate]
  obtain ⟨rest', hdelete⟩ :=
    u.deletePort_authority (k := HTTP_HOST_MAX_LEN + 1 - u.authority.length) (by omega)
  have hend : 0 < HTTP_URI_MAX_LEN + 1 - u.path.length := by omega
  obtain ⟨k, hk⟩ := Nat.exists_eq_add_one.mpr hend
  refine ⟨u.host ++ [0] ++ rest',
    u.path ++ List.replicate (HTTP_URI_MAX_LEN + 1 - u.path.length) 0, ?_,
    List.prefix_append _ _, ?_⟩
  · rw [httpUrlParse, if_neg (not_lt.mpr u.length_text_le), parseScheme_text]
    dsimp only
    rw [hslash]
    dsimp only
    rw [if_neg (not_lt.mpr hlen), List.take_left, hhost, List.drop_left, List.length_append,
      Nat.add_sub_cancel_left]
    simp only [Option.bind_eq_bind, Option.bind_some, hdelete]
    rw [if_neg (not_lt.mpr hpath), huri]
    cases u.port <;> rfl
  · rw [hk, List.replicate_succ]
    exact (List.prefix_append_right_inj _).mpr (by simp)

theorem httpUrlParse_of_lt (u : Url) (hlen : HTTP_HOST_MAX_LEN < u.authority.length)
    (host uri : List UInt8) (port : ℤ) :
    httpUrlParse u.text host uri port = some ⟨false, host, uri, u.schemePort port⟩ := by
  obtain ⟨rest, hrest⟩ := u.exists_path
  have hslash : strIndexof [0x2F] (u.authority ++ u.path) = some u.authority.length := by
    rw [hrest]
    exact strIndexof_singleton u.slash_notMem_authority rest
  rw [httpUrlParse, if_neg (not_lt.mpr u.length_text_le), parseScheme_text]
  dsimp only
  rw [hslash]
  dsimp only
  rw [if_pos hlen]

/-- The parser is right exactly for a URL with a scheme or with a port, as long as the host, the
colon and the port have 100 characters at most. -/
theorem parses_iff (u : Url) :
    u.Parses ↔ (u.scheme.isSome ∨ u.port.isSome) ∧ u.authority.length ≤ HTTP_HOST_MAX_LEN := by
  by_cases hlen : u.authority.length ≤ HTTP_HOST_MAX_LEN
  · rw [and_iff_left hlen]
    constructor
    · intro hparses
      obtain ⟨host, uri, hrun, -⟩ := hparses (u.portNumber + 1)
      obtain ⟨host', uri', hrun', -⟩ := u.exists_httpUrlParse hlen (u.portNumber + 1)
      rw [hrun'] at hrun
      have hport := congrArg Parsed.port (Option.some.inj hrun)
      by_contra hno
      rw [not_or, Option.not_isSome_iff_eq_none, Option.not_isSome_iff_eq_none] at hno
      rw [hno.2, Option.elim_none, schemePort, hno.1] at hport
      exact absurd hport (by rw [Option.elim_none]; dsimp only; omega)
    · intro hgiven port
      obtain ⟨host, uri, hrun, hhost, huri⟩ := u.exists_httpUrlParse hlen port
      refine ⟨host, uri, ?_, hhost, huri⟩
      have hport : (u.port.elim (u.schemePort port) fun port => (decimalValue port.digits : ℤ)) =
          u.portNumber := by
        rw [portNumber, schemePort]
        cases hp : u.port with
        | some _ => rfl
        | none =>
          obtain ⟨scheme, hscheme⟩ :=
            Option.isSome_iff_exists.mp (hgiven.resolve_right (by simp [hp]))
          rw [hscheme]
          rfl
      rw [hrun, hport]
  · refine iff_of_false (fun hparses => ?_) fun hand => hlen hand.2
    obtain ⟨host, uri, hrun, -⟩ := hparses 0
    rw [u.httpUrlParse_of_lt (not_le.mp hlen)] at hrun
    exact absurd (congrArg Parsed.ok (Option.some.inj hrun)) Bool.false_ne_true

def bare : Url where
  scheme := none
  host := [0x61]
  port := none
  path := [0x2F]
  host_ne := by decide
  host_slash := by decide
  host_colon := by decide
  host_nul := by decide
  path_slash := by decide
  path_nul := by decide
  length_le := by decide
  path_le := by decide

/-- The port of `"a/"` stays what it was. -/
theorem not_parses_bare : ¬ bare.Parses := by
  intro hparses
  obtain ⟨host, uri, hrun, -⟩ := hparses 0
  obtain ⟨host', uri', hrun', -⟩ := bare.exists_httpUrlParse (by decide) 0
  rw [hrun'] at hrun
  exact absurd (congrArg Parsed.port (Option.some.inj hrun)) (show (0 : ℤ) ≠ 80 by decide)

end Url

end Parts

end Mbtk.Http
