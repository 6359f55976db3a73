import Mathlib.Tactic

/-! `mbtk_coap_udp_sendto`: the attempts to hand a datagram to the socket, and when the bytes that
the socket took are the buffer once. -/

namespace Mbtk.Coap.UdpSend

def MBTK_COAP_TYPE_MAX : ℕ := 3

/-- The fields of `mbtk_coap_generic_type` that are read here. -/
structure CoapItem where
  handle : ℤ
  sockfd : ℤ
  deriving DecidableEq

def CoapItem.Open (item : CoapItem) : Prop := 0 < item.handle ∧ 0 < item.sockfd

instance (item : CoapItem) : Decidable item.Open := by
  unfold CoapItem.Open
  infer_instance

/-- How `sock_sendto` answers when it is asked for `n` bytes: with the number that it took, or with
`none` for -1. -/
abbrev SendResult (n : ℕ) := Option (Set.Icc 1 n)

def SendResult.res {n : ℕ} : SendResult n → ℤ
  | none => -1
  | some count => (count : ℕ)

/-- The answers of the socket, by the number of the call and the number of bytes asked for. -/
abbrev Sock := ℕ → (n : ℕ) → SendResult n

/-- `total_size`, the calls of `sock_sendto` so far, and the bytes that the socket took. -/
structure Send where
  totalSize : ℤ
  calls : ℕ
  accepted : List UInt8

/-- `sock_sendto` for these bytes. -/
def Send.take (s : Send) (bytes : List UInt8) (res : ℤ) : Send :=
  ⟨s.totalSize, s.calls + 1, s.accepted ++ bytes.take res.toNat⟩

variable (sock : Sock) (buffer : List UInt8)

def continueSend (total : ℕ) (s : Send) : Send :=
  match sock s.calls (buffer.length - total) with
  | none => { s with calls := s.calls + 1 }
  | some count =>
    let s := s.take (buffer.drop total) (count : ℕ)
    let s := { s with totalSize := total + (count : ℕ) }
    if total + (count : ℕ) = buffer.length then s else continueSend (total + count) s
  termination_by buffer.length - total
  decreasing_by
    have := count.2.1
    have := count.2.2
    omega

/-- What lies between `retry_send` and the test for another attempt. -/
def attempt (s : Send) : Send :=
  let res := (sock s.calls buffer.length).res
  let s := s.take buffer res
  let s := { s with totalSize := s.totalSize + res }
  if 0 < res ∧ res < s.totalSize then continueSend sock buffer s.totalSize.toNat s else s

def retrySend (s : Send) : ℕ → Send
  | 0 => s
  | retrycout + 1 =>
    let s := attempt sock buffer s
    if s.totalSize ≠ buffer.length ∧ 0 < retrycout then
      retrySend { s with totalSize := 0 } retrycout
    else s

/-- The call returns `totalSize`. -/
def mbtkCoapUdpSendto (coapItems : Fin MBTK_COAP_TYPE_MAX → CoapItem) (coapType : ℕ) : Send :=
  if h : coapType < MBTK_COAP_TYPE_MAX then
    if (coapItems ⟨coapType, h⟩).Open then retrySend sock buffer ⟨0, 0, []⟩ 4 else ⟨-1, 0, []⟩
  else ⟨-1, 0, []⟩

section Attempts

variable {sock buffer}

/-- The bytes that the call `i` takes if it is asked for the whole buffer. -/
def taken (sock : Sock) (buffer : List UInt8) (i : ℕ) : List UInt8 :=
  buffer.take (sock i buffer.length).res.toNat

/-- The call `i` takes the whole buffer if it is asked for it. -/
def Full (sock : Sock) (buffer : List UInt8) (i : ℕ) : Prop :=
  (sock i buffer.length).res = buffer.length

theorem attempt_eq (calls : ℕ) (accepted : List UInt8) :
    attempt sock buffer ⟨0, calls, accepted⟩ =
      ⟨(sock calls buffer.length).res, calls + 1, accepted ++ taken sock buffer calls⟩ := by
  rw [attempt]
  simp only [Send.take, zero_add, lt_self_iff_false, and_false, if_false]
  rfl

theorem exists_retrySend (sock : Sock) (buffer : List UInt8) (n calls : ℕ)
    (accepted : List UInt8) :
    ∃ m ≤ n, (∀ j < m, ¬ Full sock buffer (calls + j)) ∧ (Full sock buffer (calls + m) ∨ m = n) ∧
      retrySend sock buffer ⟨0, calls, accepted⟩ (n + 1) =
        ⟨(sock (calls + m) buffer.length).res, calls + (m + 1),
          accepted ++ (List.range' calls (m + 1)).flatMap (taken sock buffer)⟩ := by
  induction n generalizing calls accepted with
  | zero =>
    refine ⟨0, le_rfl, fun j hj => absurd hj j.not_lt_zero, .inr rfl, ?_⟩
    rw [retrySend, attempt_eq]
    simp
  | succ n ih =>
    by_cases hfull : Full sock buffer calls
    · refine ⟨0, n.succ.zero_le, fun j hj => absurd hj j.not_lt_zero, .inl hfull, ?_⟩
      rw [retrySend, attempt_eq]
      dsimp only
      rw [if_neg fun h => h.1 hfull]
      simp
    · obtain ⟨m, hm, hbefore, hlast, hrun⟩ := ih (calls + 1)
        (accepted ++ taken sock buffer calls)
      have hplace : calls + 1 + m = calls + (m + 1) := by omega
      have hrange : List.range' calls (m + 1 + 1) = calls :: List.range' (calls + 1) (m + 1) :=
        List.range'_succ
      rw [hplace] at hlast hrun
      refine ⟨m + 1, Nat.succ_le_succ hm, fun j hj => ?_, hlast.imp_right (congrArg _), ?_⟩
      · cases j with
        | zero => exact hfull
        | succ j =>
          have := hbefore j (Nat.lt_of_succ_lt_succ hj)
          rwa [Nat.add_assoc, Nat.add_comm 1] at this
      · rw [retrySend, attempt_eq]
        dsimp only
        rw [if_pos ⟨hfull, n.succ_pos⟩, hrun, hrange, List.flatMap_cons, List.append_assoc,
          Nat.add_assoc calls 1, Nat.add_comm 1 (m + 1)]

theorem taken_of_full {i : ℕ} (h : Full sock buffer i) : taken sock buffer i = buffer := by
  rw [taken, h, Int.toNat_natCast, List.take_length]

theorem taken_eq_nil_iff {i : ℕ} :
    taken sock buffer i = [] ↔ (sock i buffer.length).res = -1 := by
  rw [taken]
  rcases sock i buffer.length with _ | ⟨count, hcount⟩
  · simp [SendResult.res]
  · have hpos := hcount.1
    have hle := hcount.2
    have hne : (-1 : ℤ) ≠ (count : ℕ) := by omega
    simp only [SendResult.res, Int.toNat_natCast, List.take_eq_nil_iff, hne.symm, iff_false]
    rintro (h | rfl)
    · omega
    · simp at hle
      omega

end Attempts

/-- Before the first of the four attempts that takes the whole buffer, none takes a part of it. -/
def NoPartBeforeFull : Prop :=
  ∀ i < 4, Full sock buffer i → (∀ j < i, ¬ Full sock buffer j) →
    ∀ j < i, (sock j buffer.length).res = -1

variable {sock buffer}

theorem retrySend_once_iff :
    ((retrySend sock buffer ⟨0, 0, []⟩ 4).totalSize = buffer.length →
      (retrySend sock buffer ⟨0, 0, []⟩ 4).accepted = buffer) ↔ NoPartBeforeFull sock buffer := by
  obtain ⟨m, hm, hbefore, hlast, hrun⟩ := exists_retrySend sock buffer 3 0 []
  simp only [Nat.zero_add, List.nil_append] at hbefore hlast hrun
  rw [hrun]
  have hsplit : (List.range' 0 (m + 1)).flatMap (taken sock buffer) =
      (List.range' 0 m).flatMap (taken sock buffer) ++ taken sock buffer m := by
    rw [List.range'_concat, List.flatMap_append]
    simp
  constructor
  · intro h i hi hfull hnone j hj
    obtain rfl : m = i := by
      rcases Nat.lt_trichotomy m i with hlt | rfl | hlt
      · rcases hlast with hlast | rfl
        · exact absurd hlast (hnone m hlt)
        · omega
      · rfl
      · exact absurd hfull (hbefore i hlt)
    have haccepted := h hfull
    dsimp only at haccepted
    rw [hsplit, taken_of_full hfull, List.append_left_eq_self, List.flatMap_eq_nil_iff] at haccepted
    exact taken_eq_nil_iff.mp (haccepted j (by simpa using hj))
  · intro h hfull
    have hnone := h m (by omega) hfull hbefore
    dsimp only
    rw [hsplit, taken_of_full hfull, List.append_left_eq_self, List.flatMap_eq_nil_iff]
    exact fun j hj => taken_eq_nil_iff.mpr (hnone j (by simpa using hj))

theorem calls_retrySend_le : (retrySend sock buffer ⟨0, 0, []⟩ 4).calls ≤ 4 := by
  obtain ⟨m, hm, -, -, hrun⟩ := exists_retrySend sock buffer 3 0 []
  rw [hrun]
  dsimp only
  omega

section Datagram

variable (coapItems : Fin MBTK_COAP_TYPE_MAX → CoapItem) (coapType : ℕ)

/-- The socket of this type is there to be sent on. -/
def Ready : Prop := ∃ h : coapType < MBTK_COAP_TYPE_MAX, (coapItems ⟨coapType, h⟩).Open

variable {coapItems coapType}

theorem mbtkCoapUdpSendto_of_ready (h : Ready coapItems coapType) :
    mbtkCoapUdpSendto sock buffer coapItems coapType = retrySend sock buffer ⟨0, 0, []⟩ 4 := by
  obtain ⟨hlt, hopen⟩ := h
  rw [mbtkCoapUdpSendto, dif_pos hlt, if_pos hopen]

theorem mbtkCoapUdpSendto_of_not_ready (h : ¬ Ready coapItems coapType) :
    mbtkCoapUdpSendto sock buffer coapItems coapType = ⟨-1, 0, []⟩ := by
  unfold mbtkCoapUdpSendto
  split_ifs with hlt hopen
  · exact absurd ⟨hlt, hopen⟩ h
  · rfl
  · rfl

/-- The call ends, and where it returns the length the socket took the buffer once. -/
def SentOnce (buffer : List UInt8) (s : Send) : Prop :=
  s.calls ≤ 4 ∧ (s.totalSize = buffer.length → s.accepted = buffer)

theorem sentOnce_iff (sock : Sock) (buffer : List UInt8)
    (coapItems : Fin MBTK_COAP_TYPE_MAX → CoapItem) (coapType : ℕ) :
    SentOnce buffer (mbtkCoapUdpSendto sock buffer coapItems coapType) ↔
      (Ready coapItems coapType → NoPartBeforeFull sock buffer) := by
  by_cases hready : Ready coapItems coapType
  · rw [mbtkCoapUdpSendto_of_ready hready, imp_iff_right hready, ← retrySend_once_iff]
    exact and_iff_right calls_retrySend_le
  · rw [mbtkCoapUdpSendto_of_not_ready hready]
    have hlength : (-1 : ℤ) ≠ buffer.length := by omega
    exact iff_of_true ⟨Nat.zero_le 4, fun h => absurd h hlength⟩ fun h => absurd h hready

/-- The first call takes one byte, the next ones all that they are asked for. -/
def sampleSock : Sock := fun i n =>
  if h : 1 ≤ n then some ⟨if i = 0 then 1 else n, by split <;> simp [h]⟩ else none

/-- The first byte goes out twice. -/
theorem not_sentOnce_sample :
    ¬ SentOnce [0x41, 0x42] (mbtkCoapUdpSendto sampleSock [0x41, 0x42] (fun _ => ⟨1, 3⟩) 0) := by
  have hready : Ready (fun _ => ⟨1, 3⟩) 0 := ⟨by decide, by decide⟩
  rw [mbtkCoapUdpSendto_of_ready hready]
  simp only [retrySend, attempt_eq]
  rintro ⟨-, h⟩
  exact absurd (h (by decide)) (by decide)

end Datagram

end Mbtk.Coap.UdpSend
