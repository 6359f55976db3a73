import Mbtk.Lib.CopyInto
import Mbtk.Stanet.Steps

namespace Mbtk.Stanet

open Lib Coap

section Arrays

def hostText (host : List UInt8) (port : ℤ) : List UInt8 := host ++ 0x3A :: decimal port.toNat

/-- `stanet_session_open` from `snprintf` on, with the array `str` that its stack holds: the
array afterwards and the length that `snprintf` returns. -/
def formatHost (str host : List UInt8) (port : ℤ) : Option (List UInt8 × ℕ) := do
  let text := hostText host port
  let str ← copyInto str 0 (text.take (SESSION_HOST_MAX_LEN + 4) ++ [0])
  let str ← copyInto str text.length [0]
  return (str, text.length)

/-- The array in the message that `send_msg` makes of `len` bytes at `data`. -/
def copyData (data : List UInt8) (len : ℕ) : Option (List UInt8) :=
  if len ≤ data.length then
    copyInto (List.replicate (SESSION_MSG_MAX_LEN + 1) 0) 0 (data.take len)
  else none

/-- The OPEN case of `thread_run` before `socket_open`: the host array and the port. -/
def readHost (host data : List UInt8) : Option (List UInt8 × ℤ) :=
  let i := data.idxOf 0x3A
  if i < data.length then do
    let host ← copyInto host 0 (data.take i)
    return (host, atoi (data.drop (i + 1)))
  else none

def openHost (str host : List UInt8) (port : ℤ) : Option (List UInt8 × ℤ) := do
  let (str, len) ← formatHost str host port
  let data ← copyData str len
  readHost (List.replicate SESSION_HOST_MAX_LEN 0) data

/-- No write leaves its array, and the session has the host with a NUL behind it and the port. -/
def HostArrives (str host : List UInt8) (port : ℤ) : Prop :=
  ∃ array, openHost str host port = some (array, port) ∧
    array.length = SESSION_HOST_MAX_LEN ∧ host ++ [0] <+: array

end Arrays

section Decimal

theorem isSpace_digit {b : UInt8} (h : 0x30 ≤ b ∧ b ≤ 0x39) : isSpace b = false := by
  obtain ⟨h0, h9⟩ := h
  rw [UInt8.le_iff_toNat_le] at h0 h9
  have hne : b ≠ 0x20 := by
    rintro rfl
    exact absurd h0 (by decide)
  have hlt : ¬ b ≤ 0x0D := by
    rw [UInt8.le_iff_toNat_le]
    change 48 ≤ b.toNat at h0
    change ¬ b.toNat ≤ 13
    omega
  simp [isSpace, hne, hlt]

theorem toUInt8_digit {c : Char} (h : c.isDigit) :
    (0x30 ≤ c.toNat.toUInt8 ∧ c.toNat.toUInt8 ≤ 0x39) ∧
      (c.toNat.toUInt8 - 0x30).toNat = c.toNat - '0'.toNat := by
  obtain ⟨h0, h9⟩ := Char.isDigit_iff_toNat.mp h
  change 48 ≤ c.toNat at h0
  change c.toNat ≤ 57 at h9
  have htoNat : c.toNat.toUInt8.toNat = c.toNat := by
    rw [Nat.toUInt8, UInt8.toNat_ofNat']
    omega
  have hle : 0x30 ≤ c.toNat.toUInt8 := UInt8.le_iff_toNat_le.mpr (by rw [htoNat]; exact h0)
  refine ⟨⟨hle, UInt8.le_iff_toNat_le.mpr (by rw [htoNat]; exact h9)⟩, ?_⟩
  rw [UInt8.toNat_sub_of_le _ _ hle, htoNat]
  rfl

theorem atoiDigits_decimal {r : List UInt8} (hr : ∀ value, atoiDigits value r = value)
    (cs : List Char) (h : ∀ c ∈ cs, c.isDigit) (value : ℕ) :
    atoiDigits value (cs.map (fun c => c.toNat.toUInt8) ++ r) = Nat.ofDigitChars 10 cs value := by
  induction cs generalizing value with
  | nil => rw [Nat.ofDigitChars_nil, List.map_nil, List.nil_append, hr]
  | cons c cs ih =>
    obtain ⟨hdigit, hvalue⟩ := toUInt8_digit (h c (by simp))
    rw [List.map_cons, List.cons_append, atoiDigits, if_pos hdigit, hvalue,
      ih (fun c hc => h c (by simp [hc])), Nat.ofDigitChars_cons]

theorem atoi_digit {c : UInt8} (hc : 0x30 ≤ c ∧ c ≤ 0x39) (r : List UInt8) :
    atoi (c :: r) = atoiDigits 0 (c :: r) := by
  have hspace : ¬ isSpace c = true := by simp [isSpace_digit hc]
  rw [atoi, List.dropWhile_cons_of_neg hspace]
  split
  case h_1 str heq =>
    rw [(List.cons.inj heq).1] at hc
    exact absurd hc (by decide)
  case h_2 str heq =>
    rw [(List.cons.inj heq).1] at hc
    exact absurd hc (by decide)
  case h_3 => rfl

theorem atoi_decimal {r : List UInt8} (hr : ∀ value, atoiDigits value r = value) (n : ℕ) :
    atoi (decimal n ++ r) = n := by
  have hdigits : ∀ c ∈ Nat.toDigits 10 n, c.isDigit := fun c hc =>
    Nat.isDigit_of_mem_toDigits (by decide) (by decide) hc
  have hvalue := atoiDigits_decimal hr _ hdigits 0
  rw [Nat.ofDigitChars_ten_toDigits, ← decimal] at hvalue
  obtain ⟨c, cs, hcs⟩ := List.exists_cons_of_ne_nil (Nat.toDigits_ne_nil (n := n) (b := 10))
  obtain ⟨hc, -⟩ := toUInt8_digit (hdigits c (by simp [hcs]))
  have hcons : decimal n ++ r = c.toNat.toUInt8 :: (cs.map (fun c => c.toNat.toUInt8) ++ r) := by
    rw [decimal, hcs]
    rfl
  rw [hcons] at hvalue ⊢
  rw [atoi_digit hc, hvalue]

theorem atoiDigits_nul (r : List UInt8) (value : ℕ) : atoiDigits value (0 :: r) = value := by
  rw [atoiDigits, if_neg (by decide)]

theorem length_decimal_le_iff {n k : ℕ} (hk : 0 < k) : (decimal n).length ≤ k ↔ n < 10 ^ k := by
  rw [decimal, List.length_map]
  exact Nat.length_toDigits_le_iff (by decide) hk

end Decimal

section Host

variable {str host : List UInt8} {port : ℤ}

theorem formatHost_of_lt (hstr : str.length = SESSION_HOST_MAX_LEN + 5)
    (hlen : (hostText host port).length < SESSION_HOST_MAX_LEN + 5) :
    ∃ r, formatHost str host port =
      some (hostText host port ++ 0 :: r, (hostText host port).length) := by
  have htake : (hostText host port).take (SESSION_HOST_MAX_LEN + 4) = hostText host port :=
    List.take_of_length_le (by omega)
  have hfirst := copyInto_zero (show (hostText host port ++ [0]).length ≤ str.length by
    rw [List.length_append, List.length_singleton]
    omega)
  rw [List.append_assoc, List.singleton_append] at hfirst
  refine ⟨str.drop (hostText host port ++ [0]).length, ?_⟩
  unfold formatHost
  dsimp only
  rw [htake]
  change (copyInto str 0 (hostText host port ++ [0])).bind _ = _
  rw [hfirst]
  change (copyInto _ _ _).bind _ = _
  rw [copyInto_single]
  rfl

theorem formatHost_of_le (hstr : str.length = SESSION_HOST_MAX_LEN + 5)
    (hlen : SESSION_HOST_MAX_LEN + 5 ≤ (hostText host port).length) :
    formatHost str host port = none := by
  unfold formatHost
  refine Option.bind_eq_none_iff.mpr fun array harray => Option.bind_eq_none_iff.mpr fun b hb => ?_
  have hnone : copyInto array (hostText host port).length [0] = none := by
    rw [copyInto_eq_none, length_copyInto harray, List.length_singleton]
    omega
  rw [hnone] at hb
  cases hb

theorem copyData_append {text r : List UInt8} (hlen : text.length ≤ SESSION_MSG_MAX_LEN + 1) :
    copyData (text ++ r) text.length =
      some (text ++ List.replicate (SESSION_MSG_MAX_LEN + 1 - text.length) 0) := by
  rw [copyData, if_pos (by rw [List.length_append]; omega), List.take_left,
    copyInto_zero (by rwa [List.length_replicate]), List.drop_replicate]

theorem readHost_text (hlen : host.length ≤ SESSION_HOST_MAX_LEN) (hcolon : 0x3A ∉ host)
    (hport : 0 < port) {k : ℕ} (hk : 0 < k) :
    readHost (List.replicate SESSION_HOST_MAX_LEN 0) (hostText host port ++ List.replicate k 0) =
      some (host ++ List.replicate (SESSION_HOST_MAX_LEN - host.length) 0, port) := by
  obtain ⟨k, rfl⟩ := Nat.exists_eq_add_of_lt hk
  have hsplit : hostText host port ++ List.replicate (0 + k + 1) 0 =
      host ++ 0x3A :: (decimal port.toNat ++ 0 :: List.replicate k 0) := by
    rw [hostText, Nat.zero_add, List.replicate_succ, List.append_assoc, List.cons_append]
  have hidx : (host ++ 0x3A :: (decimal port.toNat ++ 0 :: List.replicate k 0)).idxOf 0x3A =
      host.length := by
    rw [List.idxOf_append_of_notMem hcolon, List.idxOf_cons_self, Nat.add_zero]
  have hcopy := copyInto_zero (show host.length ≤ (List.replicate SESSION_HOST_MAX_LEN
    (0 : UInt8)).length by rwa [List.length_replicate])
  have hdrop : (host ++ 0x3A :: (decimal port.toNat ++ 0 :: List.replicate k 0)).drop
      (host.length + 1) = decimal port.toNat ++ 0 :: List.replicate k 0 := by
    rw [← List.drop_drop, List.drop_left, List.drop_one, List.tail_cons]
  rw [List.drop_replicate] at hcopy
  rw [hsplit, readHost, hidx, if_pos (by simp), List.take_left, hdrop,
    atoi_decimal (atoiDigits_nul _)]
  change (copyInto _ 0 host).bind _ = _
  rw [hcopy, Int.toNat_of_nonneg hport.le]
  rfl

theorem openHost_of_lt (hstr : str.length = SESSION_HOST_MAX_LEN + 5)
    (h128 : host.length ≤ SESSION_HOST_MAX_LEN) (hcolon : 0x3A ∉ host) (hport : 0 < port)
    (hlen : (hostText host port).length < SESSION_HOST_MAX_LEN + 5) :
    openHost str host port =
      some (host ++ List.replicate (SESSION_HOST_MAX_LEN - host.length) 0, port) := by
  obtain ⟨r, hformat⟩ := formatHost_of_lt hstr hlen
  have hmax : SESSION_HOST_MAX_LEN + 5 ≤ SESSION_MSG_MAX_LEN := by decide
  rw [openHost, hformat]
  change (copyData _ _).bind _ = _
  rw [copyData_append (by omega)]
  exact readHost_text h128 hcolon hport (by omega)

/-- The host and the port arrive unless the host leaves no byte for its NUL or fills the message
string together with a port of five digits. -/
theorem hostArrives_iff (str host : List UInt8) (port : ℤ)
    (hstr : str.length = SESSION_HOST_MAX_LEN + 5) (h128 : host.length ≤ SESSION_HOST_MAX_LEN)
    (hcolon : 0x3A ∉ host) (hpos : 0 < port) (hport : port ≤ 65535) :
    HostArrives str host port ↔ host.length < SESSION_HOST_MAX_LEN ∧
      ¬ (host.length = SESSION_HOST_MAX_LEN - 1 ∧ 10000 ≤ port) := by
  have htext : (hostText host port).length = host.length + 1 + (decimal port.toNat).length := by
    rw [hostText, List.length_append, List.length_cons]
    omega
  have hfour : (decimal port.toNat).length ≤ 4 ↔ port.toNat < 10 ^ 4 :=
    length_decimal_le_iff (by omega)
  have hfive : (decimal port.toNat).length ≤ 5 := (length_decimal_le_iff (by omega)).mpr (by omega)
  have hmax : SESSION_HOST_MAX_LEN = 128 := rfl
  by_cases hlen : (hostText host port).length < SESSION_HOST_MAX_LEN + 5
  · rw [HostArrives, openHost_of_lt hstr h128 hcolon hpos hlen]
    constructor
    · rintro ⟨array, harray, -, hpre⟩
      obtain ⟨rfl, -⟩ := Prod.mk.inj (Option.some.inj harray)
      have hnul := hpre.length_le
      simp only [List.length_append, List.length_replicate, List.length_singleton] at hnul
      exact ⟨by omega, by omega⟩
    · rintro ⟨hlt, -⟩
      refine ⟨_, rfl, ?_, ?_⟩
      · rw [List.length_append, List.length_replicate]
        omega
      · obtain ⟨k, hk⟩ : ∃ k, SESSION_HOST_MAX_LEN - host.length = k + 1 :=
          Nat.exists_eq_add_of_le' (by omega)
        exact ⟨List.replicate k 0, by rw [hk, List.replicate_succ, ← List.append_cons]⟩
  · refine iff_of_false ?_ (by omega)
    rintro ⟨array, harray, -⟩
    rw [openHost, formatHost_of_le hstr (by omega)] at harray
    cases harray

theorem hostArrives_letter : HostArrives (List.replicate 133 0) [0x68] 80 :=
  (hostArrives_iff _ _ _ (List.length_replicate) (by decide) (by decide) (by decide)
    (by decide)).mpr ⟨by decide, fun h => absurd h.1 (by decide)⟩

/-- A host of 128 letters fills the array of the session. -/
theorem not_hostArrives_full :
    ¬ HostArrives (List.replicate 133 0) (List.replicate 128 0x68) 80 := by
  rintro ⟨array, -, hlen, hpre⟩
  have hnul := hpre.length_le
  rw [hlen, List.length_append, List.length_replicate] at hnul
  exact absurd hnul (by decide)

section Daemon

variable {s : State} {i : Fin SESSION_MAX_COUNT} {session : Session} {msg : Msg}

theorem beginOpen_text (hhost : session.host = []) (hdata : msg.data = hostText host port)
    (hcolon : 0x3A ∉ host) (hpos : 0 < port) :
    (session.beginOpen msg).host = host ∧ (session.beginOpen msg).port = port := by
  have hidx : msg.data.idxOf 0x3A = host.length := by
    rw [hdata, hostText, List.idxOf_append_of_notMem hcolon, List.idxOf_cons_self, Nat.add_zero]
  have hdrop : msg.data.drop (host.length + 1) = decimal port.toNat := by
    rw [hdata, hostText, ← List.drop_drop, List.drop_left, List.drop_one, List.tail_cons]
  have hport : atoi (decimal port.toNat) = port := by
    have := atoi_decimal (r := []) (fun _ => rfl) port.toNat
    rwa [List.append_nil, Int.toNat_of_nonneg hpos.le] at this
  constructor
  · change msg.data.take (msg.data.idxOf 0x3A) ++ session.host.drop _ = host
    rw [hidx, hdata, hostText, List.take_left, hhost, List.drop_nil, List.append_nil]
  · change atoi (msg.data.drop (msg.data.idxOf 0x3A + 1)) = port
    rw [hidx, hdrop, hport]

/-- The messages of the daemon hold what its arrays hold: a call that writes behind its string
has no next state, any other gives the session the host and the port. -/
theorem stanetSessionOpen_openHost (hi : s.sessionGetUsable = some i)
    (hstr : str.length = SESSION_HOST_MAX_LEN + 5) (hne : host ≠ [])
    (h128 : host.length ≤ SESSION_HOST_MAX_LEN) (hcolon : 0x3A ∉ host) (hpos : 0 < port) :
    s.stanetSessionOpen (some host) port = none ∧ openHost str host port = none ∨
      ∃ t msg, s.stanetSessionOpen (some host) port = some t ∧
        t.sending = s.sending ++ [⟨i, msg, none⟩] ∧ ∀ session : Session, session.host = [] →
          openHost str host port = some ((session.beginOpen msg).host ++
            List.replicate (SESSION_HOST_MAX_LEN - host.length) 0,
            (session.beginOpen msg).port) := by
  have hlen0 := List.length_pos_iff.mpr hne
  have hmax : SESSION_HOST_MAX_LEN + 5 ≤ SESSION_MSG_MAX_LEN := by decide
  unfold State.stanetSessionOpen
  dsimp only
  rw [if_neg (by omega), hi]
  dsimp only
  rw [← hostText]
  by_cases hlen : (hostText host port).length < SESSION_HOST_MAX_LEN + 5
  · refine .inr ?_
    have hdata : msgData (some (hostText host port)) (hostText host port).length =
        some (hostText host port) := by
      have hpos : 0 < (hostText host port).length := by
        rw [hostText, List.length_append]
        omega
      rw [msgData, if_pos (by omega), if_pos ⟨le_rfl, by omega⟩, Int.toNat_natCast,
        List.take_length]
    rw [if_pos hlen, State.sendMsg, hdata]
    let msg : Msg := ⟨s.serial, .socketOpen, (hostText host port).length, hostText host port⟩
    refine ⟨_, msg, rfl, rfl, fun session hhost => ?_⟩
    obtain ⟨hhost', hport'⟩ := beginOpen_text hhost (show msg.data = _ from rfl) hcolon hpos
    rw [hhost', hport']
    exact openHost_of_lt hstr h128 hcolon hpos hlen
  · refine .inl ⟨if_neg hlen, ?_⟩
    rw [openHost, formatHost_of_le hstr (by omega)]
    rfl

end Daemon

end Host

end Mbtk.Stanet
