import Mbtk.Client.SetOption

namespace Mbtk.Client

open Lib Coap CoapPDU

section Accessors

inductive IntegerOption
  | observe | maxAge | uriPort | size2 | size1 | contentFormat | accept
  deriving DecidableEq

def IntegerOption.type : IntegerOption → OptionType
  | observe => .observe
  | maxAge => .maxAge
  | uriPort => .uriPort
  | size2 => .size2
  | size1 => .size1
  | contentFormat => .contentFormat
  | accept => .accept

/-- The accessor of an integer option, with the number it delivers when it returns 1. -/
def IntegerOption.recv (t : IntegerOption) (p : CoapPDU) : Exec (Option ℕ) :=
  match t with
  | observe => do return (← p.coapGetRecvOptionObserve).map UInt16.toNat
  | maxAge => do return (← p.coapGetRecvOptionMaxAge).map UInt16.toNat
  | uriPort => do return (← p.coapGetRecvOptionUriPort).map UInt16.toNat
  | size2 => do return (← p.coapGetRecvOptionSize2).map UInt16.toNat
  | size1 => do return (← p.coapGetRecvOptionSize1).map UInt16.toNat
  | contentFormat => do return (← p.coapGetRecvOptionContentFormat).map UInt32.toNat
  | accept => do return (← p.coapGetRecvOptionAccept).map UInt32.toNat

end Accessors

section Laws

variable {p : CoapPDU} {n : UInt16}

/-- What `atoi` makes of a one-byte value in the array of an accessor. -/
def byteText (b : UInt8) : ℤ := atoi (b :: List.replicate 9 0)

theorem atoiDigits_zero (value : ℕ) (str : List UInt8) : atoiDigits value (0 :: str) = value := by
  rw [atoiDigits, if_neg (by decide)]

theorem byteText_cases (b : UInt8) :
    byteText b = 0 ∨ b.toNat ≤ 57 ∧ ∃ d : ℕ, byteText b = d ∧ d + 48 = b.toNat := by
  unfold byteText atoi
  cases hspace : isSpace b with
  | true =>
    rw [List.dropWhile_cons_of_pos hspace]
    exact .inl rfl
  | false =>
    rw [List.dropWhile_cons_of_neg (by simp [hspace])]
    split
    · next str heq =>
      obtain ⟨-, rfl⟩ := List.cons.inj heq
      exact .inl rfl
    · next str heq =>
      obtain ⟨-, rfl⟩ := List.cons.inj heq
      exact .inl rfl
    · rw [atoiDigits]
      split_ifs with hdigit
      · have hb : 48 ≤ b.toNat ∧ b.toNat ≤ 57 := by
          simpa [UInt8.le_iff_toNat_le] using hdigit
        have hsub : (b - 0x30).toNat = b.toNat - 48 :=
          UInt8.toNat_sub_of_le b 0x30 (UInt8.le_iff_toNat_le.mpr hb.1)
        refine .inr ⟨hb.2, b.toNat - 48, ?_, by omega⟩
        rw [List.replicate_succ, atoiDigits_zero, hsub, Nat.mul_zero, Nat.zero_add]
      · exact .inl rfl

theorem recvNumber_nil
    (h : ∀ buffer dst, p.getOptionValueById n buffer dst = copyValues buffer dst []) :
    p.recvNumber n = .ok none := by
  rw [recvNumber, recvBuff, h]
  rfl

theorem recvNumber_empty (h : ∀ buffer dst, p.getOptionValueById n buffer dst =
    copyValues buffer dst [⟨n, []⟩]) : p.recvNumber n = .ok none := by
  rw [recvNumber, recvBuff, h]
  rfl

theorem recvNumber_byte {b : UInt8} (h : ∀ buffer dst, p.getOptionValueById n buffer dst =
    copyValues buffer dst [⟨n, [b]⟩]) : p.recvNumber n = .ok (some (byteText b)) := by
  rw [recvNumber, recvBuff, h]
  rfl

theorem byteText_eq_iff {b : UInt8} {v : ℕ} (hb : b.toNat = v % 256) :
    ∃ d : ℕ, byteText b = d ∧ d < 10 ∧ (d = v ↔ v = 0) := by
  obtain h | ⟨h57, d, h, hd⟩ := byteText_cases b
  · exact ⟨0, h, by omega, eq_comm⟩
  · exact ⟨d, h, by omega, by omega⟩

variable {coap : Package} {g g' : SharedPDU} {datagram after : List UInt8} {addr : ℕ}
  {str : List UInt8} {int1 int2 : UInt32} {v : ℕ} {t : IntegerOption}

/-- How an integer option goes into a message: most types do not, the others by their lowest
byte. -/
def IntegerOption.pairs (t : IntegerOption) (v : ℕ) : List Opt :=
  match t with
  | observe | maxAge => [⟨t.type.number, [UInt8.ofNat v]⟩]
  | contentFormat => [⟨t.type.number, if v = 0 then [] else [UInt8.ofNat v]⟩]
  | uriPort | size2 | size1 | accept => []

theorem integerOption_pairs (hset : coap.LastSet t.type str (UInt32.ofNat v) int1 int2)
    (hv : v ≤ 65535) :
    (packagePairs coap.options).filter (·.number = t.type.number) = t.pairs v := by
  obtain ⟨option, hmem, htype, before, hbefore, hassign⟩ := hset.exists_option
  rw [filter_packagePairs hset.configured.nodup hmem (by rw [htype]) (by cases t <;> decide)]
  have hbyte : (UInt32.ofNat v).toUInt8 = UInt8.ofNat v := by
    apply UInt8.toNat_inj.mp
    rw [UInt32.toNat_toUInt8, UInt32.toNat_ofNat', UInt8.toNat_ofNat']
    omega
  have hzero : UInt32.ofNat v = 0 ↔ v = 0 := by
    rw [← UInt32.toNat_inj, UInt32.toNat_ofNat']
    change v % 4294967296 = 0 ↔ v = 0
    omega
  cases t with
  | observe | maxAge =>
    simp only [CoapOption.assign, hbefore, IntegerOption.type] at hassign
    obtain rfl := Except.ok.inj hassign
    simp [optionPairs, IntegerOption.type, IntegerOption.pairs, hbyte]
  | contentFormat =>
    simp only [CoapOption.assign, hbefore, IntegerOption.type] at hassign
    obtain rfl := Except.ok.inj hassign
    simp [optionPairs, IntegerOption.type, IntegerOption.pairs, hbyte, hzero, OptionType.number,
      COAP_OPTION_CONTENT_FORMAT]
  | uriPort | size2 | size1 | accept =>
    simp [optionPairs, htype, IntegerOption.type, IntegerOption.pairs]

def IntegerOption.cast (t : IntegerOption) (text : ℤ) : ℕ :=
  match t with
  | .observe | .maxAge | .uriPort | .size2 | .size1 => (UInt16.ofInt text).toNat
  | .contentFormat | .accept => (UInt32.ofInt text).toNat

theorem IntegerOption.recv_of_ok {text : Option ℤ} (h : p.recvNumber t.type.number = .ok text) :
    t.recv p = .ok (text.map t.cast) := by
  have h16 {k : UInt16} (hk : p.recvNumber k = .ok text) :
      (do return (← p.recvUInt16 k).map UInt16.toNat : Exec (Option ℕ)) =
        .ok (text.map fun z => (UInt16.ofInt z).toNat) := by
    simp [recvUInt16, hk, Function.comp_def]
  have h32 {k : UInt16} (hk : p.recvNumber k = .ok text) :
      (do return (← p.recvFormat k).map UInt32.toNat : Exec (Option ℕ)) =
        .ok (text.map fun z => (UInt32.ofInt z).toNat) := by
    simp [recvFormat, hk, Function.comp_def]
  cases t with
  | observe | maxAge | uriPort | size2 | size1 => exact h16 h
  | contentFormat | accept => exact h32 h

theorem IntegerOption.cast_of_lt {d : ℕ} (hd : d < 10) : t.cast (d : ℤ) = d := by
  have h16 : (UInt16.ofInt (d : ℤ)).toNat = d := by
    rw [ofInt_natCast, UInt16.toNat_ofNat']
    omega
  have h32 : (UInt32.ofInt (d : ℤ)).toNat = d := by
    rw [UInt32.ofInt, UInt32.toNat_ofNat']
    omega
  cases t with
  | observe | maxAge | uriPort | size2 | size1 => exact h16
  | contentFormat | accept => exact h32

theorem IntegerOption.recv_byte_iff {b : UInt8} (hb : b.toNat = v % 256)
    (h : ∀ buffer dst, p.getOptionValueById t.type.number buffer dst =
      copyValues buffer dst [⟨t.type.number, [b]⟩]) : t.recv p = .ok (some v) ↔ v = 0 := by
  obtain ⟨d, hd, hlt, hiff⟩ := byteText_eq_iff hb
  rw [recv_of_ok (recvNumber_byte h), hd, Option.map_some, cast_of_lt hlt, Except.ok.injEq,
    Option.some.injEq, hiff]

theorem IntegerOption.not_recv_of_none (h : p.recvNumber t.type.number = .ok none) :
    ¬ t.recv p = .ok (some v) := by
  rw [recv_of_ok h]
  simp

/-- What the receiver's accessor delivers: Observe and Max-Age arrive as the text of one byte,
nothing else arrives. -/
theorem integerOption_delivered_iff (hg : g.Used) (h8 : coap.tokenLen ≤ 8) (hv : v ≤ 65535)
    (hset : coap.LastSet t.type str (UInt32.ofNat v) int1 int2)
    (hsend : coapSend g coap = .ok (g', datagram))
    (hrecv : coapCreateRecv addr (datagram ++ after) datagram.length = .ok (some p)) :
    t.recv p = .ok (some v) ↔ (t = .observe ∨ t = .maxAge) ∧ v = 0 ∧
      coap.reach t.type.number ≤ coap.message.length % 65536 := by
  obtain ⟨opts, hget, hfront, hall⟩ := getOptionValueById_sent hg.idle h8 hsend hrecv t.type.number
  rw [integerOption_pairs hset hv] at hfront hall
  have hbyte : (UInt8.ofNat v).toNat = v % 256 := UInt8.toNat_ofNat'
  cases t with
  | observe | maxAge =>
    rw [IntegerOption.pairs, or_iff_right (by simp)] at hall
    obtain rfl | rfl := eq_nil_or_eq_of_front hfront
    · have hreach := hall.not.mp (by simp)
      exact iff_of_false (IntegerOption.not_recv_of_none (recvNumber_nil hget))
        fun h => hreach h.2.2
    · rw [IntegerOption.recv_byte_iff hbyte hget]
      simp [hall.mp rfl]
  | contentFormat =>
    refine iff_of_false ?_ (by simp)
    obtain rfl | rfl := eq_nil_or_eq_of_front hfront
    · exact IntegerOption.not_recv_of_none (recvNumber_nil hget)
    · split_ifs at hget with h0
      · exact IntegerOption.not_recv_of_none (recvNumber_empty hget)
      · exact fun h => h0 ((IntegerOption.recv_byte_iff hbyte hget).mp h)
  | uriPort | size2 | size1 | accept =>
    refine iff_of_false ?_ (by simp)
    rw [List.prefix_nil.mp hfront] at hget
    exact IntegerOption.not_recv_of_none (recvNumber_nil hget)

/-- A GET request on which only Observe was set. -/
def observeRequest (v : UInt32) : Package :=
  { listItemInit 7 with
    code := COAP_GET
    options := [{ CoapOption.zero .observe with optInt := v }] }

theorem lastSet_observeRequest (v : UInt32) :
    (observeRequest v).LastSet .observe [] v 0 0 := by
  have hset : setOption { listItemInit 7 with code := COAP_GET } .observe [] v 0 0 =
      .ok (observeRequest v) := rfl
  exact .set (.start rfl) hset

theorem observe_zero_delivered :
    ∃ g' p, coapSend (.null 0 fun _ => some ⟨0, fun _ => 0⟩) (observeRequest 0) =
        .ok (g', [0x40, 0x01, 0x00, 0x07, 0x61, 0x00]) ∧
      coapCreateRecv 0 ([0x40, 0x01, 0x00, 0x07, 0x61, 0x00] ++ []) 6 = .ok (some p) ∧
      IntegerOption.observe.recv p = .ok (some 0) := by
  obtain ⟨g', hsend⟩ : ∃ g', coapSend (.null 0 fun _ => some ⟨0, fun _ => 0⟩) (observeRequest 0) =
      .ok (g', [0x40, 0x01, 0x00, 0x07, 0x61, 0x00]) := ⟨_, rfl⟩
  obtain ⟨p, hrecv⟩ : ∃ p, coapCreateRecv 0 ([0x40, 0x01, 0x00, 0x07, 0x61, 0x00] ++ []) 6 =
      .ok (some p) := ⟨_, rfl⟩
  exact ⟨g', p, hsend, hrecv, (integerOption_delivered_iff (t := .observe) (v := 0)
    (.null 0 fun _ => rfl) (by decide) (by decide) (lastSet_observeRequest 0) hsend hrecv).mpr
      ⟨.inl rfl, rfl, by decide⟩⟩

/-- The byte 1 is not the digit 1, so Observe 1 arrives as 0. -/
theorem not_observe_one_delivered :
    ∃ g' p, (observeRequest 1).LastSet .observe [] 1 0 0 ∧
      coapSend (.null 0 fun _ => some ⟨0, fun _ => 0⟩) (observeRequest 1) =
        .ok (g', [0x40, 0x01, 0x00, 0x07, 0x61, 0x01]) ∧
      coapCreateRecv 0 ([0x40, 0x01, 0x00, 0x07, 0x61, 0x01] ++ []) 6 = .ok (some p) ∧
      ¬ IntegerOption.observe.recv p = .ok (some 1) :=
  ⟨_, _, lastSet_observeRequest 1, rfl, rfl, by
    intro h
    exact absurd (Option.some.inj (Except.ok.inj h)) (by decide)⟩

end Laws

end Mbtk.Client
