import Mbtk.Coap.BuildLaws

namespace Mbtk.Coap

open Lib Lib.ExtNat

namespace CoapPDU

def versionByte (b version : UInt8) : UInt8 :=
  if version > 3 then b else (b &&& (0x3F : UInt8)) ||| (version <<< 6)

section

variable (p : CoapPDU) (b c i j x : UInt8) (m : List UInt8)

theorem setVersion_cons :
    (p.withPdu (b :: m)).setVersion x = .ok (p.withPdu (versionByte b x :: m)) := by
  unfold setVersion versionByte
  split_ifs
  · rfl
  · simp [write, read, withPdu]

theorem setType_cons :
    (p.withPdu (b :: m)).setType x = .ok (p.withPdu (((b &&& 0xCF) ||| x) :: m)) := by
  simp [setType, write, read, withPdu]

theorem setCode_cons :
    (p.withPdu (b :: c :: m)).setCode x = .ok (p.withPdu (b :: x :: m)) := by
  simp [setCode, write, withPdu]

theorem setMessageID_cons (messageID : UInt16) :
    (p.withPdu (b :: c :: i :: j :: m)).setMessageID messageID =
      .ok (p.withPdu (b :: c :: (endianStore16 messageID ++ m))) := by
  have := memcpy_append p [b, c] m (show (endianStore16 messageID).length = [i, j].length from rfl)
  simpa [setMessageID] using this

theorem setTokenLength_cons (hx : ¬ x > 8) :
    (p.withPdu (b :: m)).setTokenLength x = .ok (p.withPdu (((b &&& 0xF0) ||| x) :: m), 0) := by
  rw [setTokenLength, if_neg hx]
  simp [write, read, withPdu]

end

/-- The empty PDU that `reset` leaves, without its memory. -/
def cleared (p : CoapPDU) : CoapPDU :=
  { p with
    pduLength := 4
    numOptions := 0
    maxAddedOptionNumber := 0
    payloadPointer := none
    payloadLength := 0 }

/-- A dynamic PDU with memory for its header, whose coming allocations may fail. -/
structure Dynamic (p : CoapPDU) : Prop where
  dynamic : p.constructedFromBuffer = false
  header : COAP_HDR_SIZE ≤ p.bufferLength
  buffer : p.bufferLength ≤ p.pdu.length

theorem Idle.toDynamic {p : CoapPDU} (h : p.Idle) : p.Dynamic := ⟨h.dynamic, h.header, h.buffer⟩

theorem Dynamic.reset {p : CoapPDU} (h : p.Dynamic) :
    ∃ m, p.reset = .ok (p.cleared.withPdu (0 :: 0 :: 0 :: 0 :: m)) ∧
      m.length + 4 = p.pdu.length := by
  obtain ⟨k, hk⟩ := Nat.exists_eq_add_of_le' h.header
  have hbuf := h.buffer
  rw [COAP_HDR_SIZE] at hk
  refine ⟨List.replicate k 0 ++ p.pdu.drop p.bufferLength, ?_, ?_⟩
  · have hmem : (List.replicate p.bufferLength (0 : UInt8)).length ≤ p.pdu.length := by
      rwa [List.length_replicate]
    rw [CoapPDU.reset, memcpy, if_pos (by rwa [Nat.zero_add]), ok_bind]
    have hzero : List.replicate (k + 4) (0 : UInt8) = 0 :: 0 :: 0 :: 0 :: List.replicate k 0 :=
      rfl
    simp [cleared, withPdu, hk, hzero]
  · rw [List.length_append, List.length_replicate, List.length_drop]
    omega

theorem Dynamic.buffer_cons {p : CoapPDU} (h : p.Dynamic) {m : List UInt8}
    (hm : m.length + 4 = p.pdu.length) (b c i j : UInt8) :
    p.bufferLength ≤ (b :: c :: i :: j :: m).length := by
  have := h.buffer
  simp only [List.length_cons]
  omega

theorem Dynamic.holds {p : CoapPDU} (h : p.Dynamic) {b c i j : UInt8} {m : List UInt8}
    (hm : m.length + 4 = p.pdu.length) (hb : b &&& 0x0F = 0) :
    (p.cleared.withPdu (b :: c :: i :: j :: m)).Holds [b, c, i, j] [] [] := by
  refine .of_encode (w := m) rfl rfl ?_ (sortedFrom_nil _ _) (by simp) (h.buffer_cons hm b c i j)
  rw [List.getD_cons_zero, hb]
  rfl

theorem Idle.building {p : CoapPDU} (h : p.Idle) {b c i j : UInt8} {m : List UInt8}
    (hm : m.length + 4 = p.pdu.length) (hb : b &&& 0x0F = 0) :
    (p.cleared.withPdu (b :: c :: i :: j :: m)).Building [b, c, i, j] [] where
  dynamic := h.dynamic
  header := h.header
  buffer := h.toDynamic.buffer_cons hm b c i j
  heap := h.heap
  holds := h.toDynamic.holds hm hb
  maxAdded := rfl
  numOptions := rfl
  payloadPointer := rfl
  payloadLength := rfl

theorem Building.setPayload {p : CoapPDU} {hdr : List UInt8} {opts : List Opt}
    (h : p.Building hdr opts) {pay : List UInt8} (hpay : pay ≠ []) :
    ∃ q, p.setPayload pay = .ok (q, 0) ∧ q.Holds hdr opts pay ∧ q.Idle := by
  have hpos := List.length_pos_iff.mpr hpay
  have hpdu := h.holds.pdu_eq
  have hlen := h.holds.pduLength_eq
  obtain ⟨msg, hmsg⟩ : ∃ msg, msg = encodeMessage hdr opts [] := ⟨_, rfl⟩
  have hmsg' : encodeMessage hdr opts pay = msg ++ 0xFF :: pay := by
    rw [hmsg, encodeMessage, encodeMessage, encodePayload_of_ne_nil hpay]
    simp
  rw [← hmsg] at hpdu hlen
  have hsize : ((p.pduLength : ℤ) + pay.length + 1).toNat =
      msg.length + (1 + pay.length) := by omega
  obtain ⟨w, hmake, hN, hcap⟩ := makeRoom_of_hasRoom
    (h.toIdle.hasRoom (msg.length + (1 + pay.length))) h.buffer
    (show msg <+: p.pdu from ⟨_, hpdu.symm⟩) (by omega)
  obtain ⟨x, y, z, rfl, hy⟩ : ∃ x y z, w = x :: (y ++ z) ∧ y.length = pay.length := by
    cases w with
    | nil =>
      rw [List.append_nil] at hN
      omega
    | cons x w =>
      simp only [List.length_append, List.length_cons] at hN
      refine ⟨x, _, _, by rw [List.take_append_drop pay.length w], ?_⟩
      rw [List.length_take]
      omega
  let q (m : List UInt8) : CoapPDU :=
    { p.sized (msg.length + (1 + pay.length)) m with
      payloadPointer := some (p.nextAddr + (msg.length + 1)), payloadLength := pay.length }
  have hmarker := write_head (p.sized (msg.length + (1 + pay.length)) []) msg (y ++ z) x 0xFF
  simp only [withPdu_sized] at hmarker
  have hmalloc : p.mallocPayload pay.length =
      .ok (q (msg ++ 0xFF :: (y ++ z)), some (p.nextAddr + (msg.length + 1))) := by
    unfold mallocPayload
    dsimp only
    rw [h.payloadLength, if_neg (by omega), if_neg (by omega), if_neg (by simp),
      if_neg (by simp), hsize, hmake]
    dsimp only
    rw [payloadPointer_sized, h.payloadPointer]
    dsimp only
    rw [hlen, hmarker]
    rfl
  have hcopy : (q (msg ++ 0xFF :: (y ++ z))).memcpy (msg.length + 1) pay =
      .ok (q (msg ++ 0xFF :: (pay ++ z))) := by
    have := memcpy_append (q []) (msg ++ [0xFF]) z hy.symm
    rwa [List.length_append, List.length_singleton, List.append_assoc, List.append_assoc] at this
  have hcap' : p.capacity (msg.length + (1 + pay.length)) ≤
      (msg ++ 0xFF :: (pay ++ z)).length := by
    refine hcap.trans (le_of_eq ?_)
    simp only [List.length_append, List.length_cons]
    omega
  refine ⟨q (msg ++ 0xFF :: (pay ++ z)), ?_, ?_, ⟨h.dynamic, ?_, hcap', fun k => ?_⟩⟩
  · unfold CoapPDU.setPayload
    rw [hmalloc, ok_bind]
    dsimp only
    rw [show (q (msg ++ 0xFF :: (y ++ z))).addr = p.nextAddr from rfl, if_pos (by omega),
      Nat.add_sub_cancel_left, hcopy]
    rfl
  · refine .of_encode (w := z) ?_ ?_ h.holds.header h.holds.sorted h.holds.short hcap'
    · rw [hmsg', List.append_assoc]
      rfl
    · rw [hmsg', List.length_append, List.length_cons, Nat.add_comm pay.length]
      rfl
  · have := h.holds.header
    change COAP_HDR_SIZE ≤ p.capacity _
    rw [capacity, h.dynamic, if_neg (by simp), hmsg, length_encodeMessage]
    omega
  · change (p.nextHeap k).isSome
    rw [nextHeap, h.dynamic]
    exact h.heap (k + 1)

end CoapPDU

end Mbtk.Coap
