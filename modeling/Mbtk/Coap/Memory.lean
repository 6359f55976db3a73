import Mbtk.Coap.Pdu

namespace Mbtk.Coap

namespace CoapPDU

def withPdu (p : CoapPDU) (pdu : List UInt8) : CoapPDU := { p with pdu }

section WithPdu

variable (p : CoapPDU) (m m' : List UInt8)

@[simp] theorem withPdu_self : p.withPdu p.pdu = p := rfl
@[simp] theorem pdu_withPdu : (p.withPdu m).pdu = m := rfl
@[simp] theorem withPdu_withPdu : (p.withPdu m).withPdu m' = p.withPdu m' := rfl
@[simp] theorem addr_withPdu : (p.withPdu m).addr = p.addr := rfl
@[simp] theorem pduLength_withPdu : (p.withPdu m).pduLength = p.pduLength := rfl
@[simp] theorem constructedFromBuffer_withPdu :
    (p.withPdu m).constructedFromBuffer = p.constructedFromBuffer := rfl
@[simp] theorem bufferLength_withPdu : (p.withPdu m).bufferLength = p.bufferLength := rfl
@[simp] theorem payloadPointer_withPdu : (p.withPdu m).payloadPointer = p.payloadPointer := rfl
@[simp] theorem payloadLength_withPdu : (p.withPdu m).payloadLength = p.payloadLength := rfl
@[simp] theorem numOptions_withPdu : (p.withPdu m).numOptions = p.numOptions := rfl
@[simp] theorem maxAddedOptionNumber_withPdu :
    (p.withPdu m).maxAddedOptionNumber = p.maxAddedOptionNumber := rfl
@[simp] theorem heap_withPdu : (p.withPdu m).heap = p.heap := rfl

theorem eq_withPdu {p : CoapPDU} {m : List UInt8} (h : p.pdu = m) : p = p.withPdu m := by
  rw [← h, withPdu_self]

end WithPdu

theorem read_append (p : CoapPDU) (a m : List UInt8) (k : ℕ) :
    (p.withPdu (a ++ m)).read (a.length + k) = m.getD k 0 := by
  rw [read, pdu_withPdu, List.getD_eq_getElem?_getD, List.getElem?_append_right (by omega),
    Nat.add_sub_cancel_left, List.getD_eq_getElem?_getD]

theorem write_append (p : CoapPDU) (a : List UInt8) {m : List UInt8} {k : ℕ} (hk : k < m.length)
    (b : UInt8) :
    (p.withPdu (a ++ m)).write (a.length + k) b = .ok (p.withPdu (a ++ m.set k b)) := by
  have hlen : a.length + k < (a ++ m).length := by
    rw [List.length_append]
    omega
  rw [write, pdu_withPdu, if_pos hlen, List.set_append_right _ _ (by omega),
    Nat.add_sub_cancel_left]
  rfl

theorem memcpy_append (p : CoapPDU) (a z : List UInt8) {x bs : List UInt8}
    (hb : bs.length = x.length) :
    (p.withPdu (a ++ (x ++ z))).memcpy a.length bs = .ok (p.withPdu (a ++ (bs ++ z))) := by
  have hlen : a.length + bs.length ≤ (a ++ (x ++ z)).length := by
    rw [List.length_append, List.length_append]
    omega
  rw [memcpy, pdu_withPdu, if_pos hlen, List.take_left, ← List.drop_drop, List.drop_left, hb,
    List.drop_left, List.append_assoc]
  rfl

@[simp] theorem read_head (p : CoapPDU) (a m : List UInt8) (h : UInt8) :
    (p.withPdu (a ++ h :: m)).read a.length = h := read_append p a (h :: m) 0

@[simp] theorem write_head (p : CoapPDU) (a m : List UInt8) (h b : UInt8) :
    (p.withPdu (a ++ h :: m)).write a.length b = .ok (p.withPdu (a ++ b :: m)) :=
  write_append (m := h :: m) p a (Nat.succ_pos m.length) b

@[simp] theorem read_second (p : CoapPDU) (a m : List UInt8) (h c : UInt8) :
    (p.withPdu (a ++ h :: c :: m)).read (a.length + 1) = c := read_append p a (h :: c :: m) 1

@[simp] theorem write_second (p : CoapPDU) (a m : List UInt8) (h c b : UInt8) :
    (p.withPdu (a ++ h :: c :: m)).write (a.length + 1) b =
      .ok (p.withPdu (a ++ h :: b :: m)) :=
  write_append (m := h :: c :: m) p a (Nat.succ_lt_succ (Nat.succ_pos m.length)) b

theorem memcpy_second (p : CoapPDU) (a z : List UInt8) (h : UInt8) {x bs : List UInt8}
    (hb : bs.length = x.length) :
    (p.withPdu (a ++ h :: (x ++ z))).memcpy (a.length + 1) bs =
      .ok (p.withPdu (a ++ h :: (bs ++ z))) := by
  simpa using memcpy_append p (a ++ [h]) z hb

section Behind

variable (p : CoapPDU) (a e z : List UInt8) (h c : UInt8)

@[simp] theorem read_behind :
    (p.withPdu (a ++ h :: (e ++ c :: z))).read (a.length + e.length + 1) = c := by
  simpa [Nat.add_assoc] using read_head p (a ++ h :: e) z c

@[simp] theorem write_behind (b : UInt8) :
    (p.withPdu (a ++ h :: (e ++ c :: z))).write (a.length + e.length + 1) b =
      .ok (p.withPdu (a ++ h :: (e ++ b :: z))) := by
  simpa [Nat.add_assoc] using write_head p (a ++ h :: e) z c b

theorem memcpy_behind {x bs : List UInt8} (hb : bs.length = x.length) :
    (p.withPdu (a ++ h :: (e ++ (x ++ z)))).memcpy (a.length + e.length + 1) bs =
      .ok (p.withPdu (a ++ h :: (e ++ (bs ++ z)))) := by
  simpa [Nat.add_assoc] using memcpy_append p (a ++ h :: e) z hb

end Behind

section Room

variable (p : CoapPDU) (n : ℕ)

/-- There is room for a PDU of `n` bytes. -/
def HasRoom : Prop :=
  if p.constructedFromBuffer then n ≤ p.bufferLength else (p.heap 0).isSome

instance : Decidable (p.HasRoom n) := by
  unfold HasRoom
  infer_instance

/-- Where `_pdu` lies once room was made. -/
def nextAddr : ℕ :=
  if p.constructedFromBuffer then p.addr else ((p.heap 0).map Block.addr).getD p.addr

def nextHeap : ℕ → Option Block :=
  if p.constructedFromBuffer then p.heap else fun i => p.heap (i + 1)

/-- `_bufferLength` once there is room for `n` bytes. -/
def capacity : ℕ := if p.constructedFromBuffer then p.bufferLength else n

def sized (n : ℕ) (pdu : List UInt8) : CoapPDU :=
  { p with
    addr := p.nextAddr
    heap := p.nextHeap
    bufferLength := p.capacity n
    pduLength := n
    pdu }

section Sized

variable (m m' : List UInt8)

@[simp] theorem pdu_sized : (p.sized n m).pdu = m := rfl
@[simp] theorem withPdu_sized : (p.sized n m).withPdu m' = p.sized n m' := rfl
@[simp] theorem addr_sized : (p.sized n m).addr = p.nextAddr := rfl
@[simp] theorem heap_sized : (p.sized n m).heap = p.nextHeap := rfl
@[simp] theorem pduLength_sized : (p.sized n m).pduLength = n := rfl
@[simp] theorem bufferLength_sized : (p.sized n m).bufferLength = p.capacity n := rfl
@[simp] theorem constructedFromBuffer_sized :
    (p.sized n m).constructedFromBuffer = p.constructedFromBuffer := rfl
@[simp] theorem payloadPointer_sized : (p.sized n m).payloadPointer = p.payloadPointer := rfl
@[simp] theorem payloadLength_sized : (p.sized n m).payloadLength = p.payloadLength := rfl
@[simp] theorem numOptions_sized : (p.sized n m).numOptions = p.numOptions := rfl
@[simp] theorem maxAddedOptionNumber_sized :
    (p.sized n m).maxAddedOptionNumber = p.maxAddedOptionNumber := rfl

end Sized

variable {p n}

theorem makeRoom_of_hasRoom (h : p.HasRoom n) (hbuf : p.bufferLength ≤ p.pdu.length)
    {bytes : List UInt8} (hb : bytes <+: p.pdu) (hn : bytes.length ≤ n) :
    ∃ w, p.makeRoom n = (p.sized n (bytes ++ w), true) ∧ n ≤ (bytes ++ w).length ∧
      p.capacity n ≤ (bytes ++ w).length := by
  obtain ⟨w, hw⟩ := hb
  unfold HasRoom at h
  unfold makeRoom sized nextAddr nextHeap capacity
  cases hc : p.constructedFromBuffer with
  | true =>
    rw [hc, if_pos rfl] at h
    have hlen : n ≤ p.pdu.length := h.trans hbuf
    refine ⟨w, ?_, by rwa [hw], by simpa [hw] using hbuf⟩
    simp [Nat.not_lt.mpr h, hw]
  | false =>
    rw [hc, if_neg (by simp)] at h
    obtain ⟨b, hb⟩ := Option.isSome_iff_exists.mp h
    have hlen : n ≤ (bytes ++ (w.take (n - bytes.length) ++
        (List.range (n - p.pdu.length)).map b.fresh)).length := by
      have := congrArg List.length hw
      simp only [List.length_append] at this
      simp only [List.length_append, List.length_take, List.length_map, List.length_range]
      omega
    refine ⟨w.take (n - bytes.length) ++ (List.range (n - p.pdu.length)).map b.fresh, ?_, hlen,
      by simpa using hlen⟩
    have htake : p.pdu.take n = bytes ++ w.take (n - bytes.length) := by
      rw [← hw, List.take_append, List.take_of_length_le hn]
    simp [realloc, hb, htake, hc]

theorem makeRoom_of_not_hasRoom (h : ¬ p.HasRoom n) : (p.makeRoom n).2 = false := by
  unfold HasRoom at h
  unfold makeRoom
  split_ifs at h ⊢ with hc hn
  · rfl
  · omega
  · have hnone : p.heap 0 = none := by simpa using h
    simp [realloc, hnone]

end Room

end CoapPDU

end Mbtk.Coap
