import Mbtk.Coap.Memory
import Mbtk.Coap.Options

namespace Mbtk.Coap.CoapPDU

/-- The PDUs differ in the bytes of their memory only. -/
def Rewrites (p q : CoapPDU) : Prop := ∃ m, m.length = p.pdu.length ∧ q = p.withPdu m

variable {p q r : CoapPDU} {δ len : UInt16} {v : List UInt8} {pos k : ℕ}

theorem Rewrites.refl (p : CoapPDU) : p.Rewrites p := ⟨p.pdu, rfl, rfl⟩

theorem Rewrites.trans (h : p.Rewrites q) (h' : q.Rewrites r) : p.Rewrites r := by
  obtain ⟨m, hm, rfl⟩ := h
  obtain ⟨m', hm', rfl⟩ := h'
  exact ⟨m', hm'.trans hm, rfl⟩

theorem rewrites_write {i : ℕ} {b : UInt8} (h : p.write i b = .ok q) : p.Rewrites q := by
  unfold write at h
  split_ifs at h
  obtain rfl := Except.ok.inj h
  exact ⟨p.pdu.set i b, List.length_set, rfl⟩

theorem rewrites_memcpy {i : ℕ} {bs : List UInt8} (h : p.memcpy i bs = .ok q) :
    p.Rewrites q := by
  unfold memcpy at h
  split_ifs at h with hlen
  obtain rfl := Except.ok.inj h
  refine ⟨p.pdu.take i ++ bs ++ p.pdu.drop (i + bs.length), ?_, rfl⟩
  rw [List.length_append, List.length_append, List.length_take, List.length_drop]
  omega

theorem rewrites_shiftPDUUpLoop {n : ℕ} {destPointer srcPointer : ℤ}
    (h : shiftPDUUpLoop n destPointer srcPointer p = .ok q) : p.Rewrites q := by
  induction n generalizing p destPointer srcPointer with
  | zero =>
    cases h
    exact .refl _
  | succ n ih =>
    unfold shiftPDUUpLoop at h
    split_ifs at h
    obtain ⟨p', hwrite, h⟩ := bind_eq_ok.mp h
    exact (rewrites_write hwrite).trans (ih h)

theorem rewrites_shiftPDUUp {shiftOffset shiftAmount : ℤ}
    (h : p.shiftPDUUp shiftOffset shiftAmount = .ok q) : p.Rewrites q := by
  unfold shiftPDUUp at h
  dsimp only at h
  split_ifs at h
  exact rewrites_shiftPDUUpLoop h

theorem rewrites_setOptionDelta (h : p.setOptionDelta pos δ = .ok q) : p.Rewrites q := by
  obtain ⟨p₁, h₁, h⟩ := bind_eq_ok.mp h
  refine (rewrites_write h₁).trans ?_
  split_ifs at h
  · exact rewrites_write h
  · obtain ⟨p₂, h₂, h⟩ := bind_eq_ok.mp h
    obtain ⟨p₃, h₃, h⟩ := bind_eq_ok.mp h
    exact ((rewrites_write h₂).trans (rewrites_write h₃)).trans (rewrites_write h)
  · obtain ⟨p₂, h₂, h⟩ := bind_eq_ok.mp h
    exact (rewrites_write h₂).trans (rewrites_memcpy h)

theorem rewrites_insertOptionDelta (h : p.insertOptionDelta pos δ = .ok (q, k)) :
    p.Rewrites q := by
  obtain ⟨p₁, h₁, h⟩ := bind_eq_ok.mp h
  refine (rewrites_write h₁).trans ?_
  split_ifs at h
  · obtain ⟨p₂, h₂, h⟩ := bind_eq_ok.mp h
    obtain ⟨rfl, rfl⟩ := Prod.mk.inj (Except.ok.inj h)
    exact rewrites_write h₂
  · obtain ⟨p₂, h₂, h⟩ := bind_eq_ok.mp h
    obtain ⟨p₃, h₃, h⟩ := bind_eq_ok.mp h
    obtain ⟨p₄, h₄, h⟩ := bind_eq_ok.mp h
    obtain ⟨rfl, rfl⟩ := Prod.mk.inj (Except.ok.inj h)
    exact ((rewrites_write h₂).trans (rewrites_write h₃)).trans (rewrites_write h₄)
  · obtain ⟨p₂, h₂, h⟩ := bind_eq_ok.mp h
    obtain ⟨p₃, h₃, h⟩ := bind_eq_ok.mp h
    obtain ⟨rfl, rfl⟩ := Prod.mk.inj (Except.ok.inj h)
    exact (rewrites_write h₂).trans (rewrites_memcpy h₃)

theorem rewrites_insertOptionLength {len' : UInt16} {k' : ℕ}
    (h : p.insertOptionLength pos k len = .ok (q, k', len')) : p.Rewrites q := by
  unfold insertOptionLength at h
  split_ifs at h
  · obtain ⟨p₁, h₁, h⟩ := bind_eq_ok.mp h
    obtain ⟨rfl, -⟩ := Prod.mk.inj (Except.ok.inj h)
    exact rewrites_write h₁
  · obtain ⟨p₁, h₁, h⟩ := bind_eq_ok.mp h
    obtain ⟨p₂, h₂, h⟩ := bind_eq_ok.mp h
    obtain ⟨p₃, h₃, h⟩ := bind_eq_ok.mp h
    obtain ⟨rfl, -⟩ := Prod.mk.inj (Except.ok.inj h)
    exact ((rewrites_write h₁).trans (rewrites_write h₂)).trans (rewrites_write h₃)
  · obtain ⟨p₁, h₁, h⟩ := bind_eq_ok.mp h
    obtain ⟨p₂, h₂, h⟩ := bind_eq_ok.mp h
    obtain ⟨rfl, -⟩ := Prod.mk.inj (Except.ok.inj h)
    exact (rewrites_write h₁).trans (rewrites_memcpy h₂)

theorem rewrites_insertOption (h : p.insertOption pos δ len v = .ok q) : p.Rewrites q := by
  obtain ⟨⟨p₁, pos₁⟩, h₁, h⟩ := bind_eq_ok.mp h
  obtain ⟨⟨p₂, pos₂, len₂⟩, h₂, h⟩ := bind_eq_ok.mp h
  exact ((rewrites_insertOptionDelta h₁).trans (rewrites_insertOptionLength h₂)).trans
    (rewrites_memcpy h)

theorem makeRoom_false (h : p.makeRoom k = (q, false)) : q = { p with heap := q.heap } := by
  unfold makeRoom realloc at h
  split_ifs at h
  · obtain ⟨rfl, -⟩ := Prod.mk.inj h
    rfl
  · cases h
  · cases hb : p.heap 0 with
    | none =>
      rw [hb] at h
      obtain ⟨rfl, -⟩ := Prod.mk.inj h
      rfl
    | some b =>
      rw [hb] at h
      cases h

/-- The memory goes on to the end of the PDU and of its buffer. -/
structure Sound (p : CoapPDU) : Prop where
  inside : p.pduLength ≤ p.pdu.length
  buffer : p.bufferLength ≤ p.pdu.length

theorem Sound.makeRoom (hp : p.Sound) (h : p.makeRoom k = (q, true)) : q.Sound := by
  unfold CoapPDU.makeRoom realloc at h
  split_ifs at h with hbuffer hfull
  · cases h
  · obtain ⟨rfl, -⟩ := Prod.mk.inj h
    exact ⟨(Nat.not_lt.mp hfull).trans hp.buffer, hp.buffer⟩
  · cases hb : p.heap 0 with
    | none =>
      rw [hb] at h
      cases h
    | some b =>
      rw [hb] at h
      obtain ⟨rfl, -⟩ := Prod.mk.inj h
      have hlen : (p.pdu.take k ++ (List.range (k - p.pdu.length)).map b.fresh).length = k := by
        rw [List.length_append, List.length_take, List.length_map, List.length_range]
        omega
      exact ⟨hlen.ge, hlen.ge⟩

theorem Sound.rewrites (hp : p.Sound) (h : p.Rewrites q) : q.Sound := by
  obtain ⟨m, hm, rfl⟩ := h
  exact ⟨hp.inside.trans hm.ge, hp.buffer.trans hm.ge⟩

/-- What `addOption` does: it fails for lack of room, after it may have set the highest number,
or it makes room and writes to its memory. -/
theorem addOption_cases {n : UInt16} {result : ℕ} (h : p.addOption n v = .ok (q, result)) :
    (result = 1 ∧ q = { p with
      heap := q.heap
      maxAddedOptionNumber :=
        if (p.findInsertionPosition n).1 = p.pduLength then n else p.maxAddedOptionNumber }) ∨
    (result = 0 ∧ ∃ max k p₁ p₂, { p with maxAddedOptionNumber := max }.makeRoom k = (p₁, true) ∧
      p₁.Rewrites p₂ ∧ q = { p₂ with numOptions := p₂.numOptions + 1 }) := by
  unfold addOption at h
  obtain ⟨⟨pos, prev⟩, hpos⟩ : ∃ x, x = p.findInsertionPosition n := ⟨_, rfl⟩
  rw [← hpos] at h ⊢
  dsimp only at h ⊢
  split_ifs at h ⊢ with hend
  · unfold appendOption at h
    dsimp only at h
    split at h
    case h_1 p₁ hroom =>
      obtain ⟨rfl, rfl⟩ := Prod.mk.inj (Except.ok.inj h)
      exact .inl ⟨rfl, makeRoom_false hroom⟩
    case h_2 p₁ hroom =>
      obtain ⟨p₂, hinsert, h⟩ := bind_eq_ok.mp h
      obtain ⟨rfl, rfl⟩ := Prod.mk.inj (Except.ok.inj h)
      exact .inr ⟨rfl, n, _, p₁, p₂, hroom, rewrites_insertOption hinsert, rfl⟩
  · unfold spliceOption at h
    dsimp only at h
    split at h
    case h_1 p₁ hroom =>
      obtain ⟨rfl, rfl⟩ := Prod.mk.inj (Except.ok.inj h)
      exact .inl ⟨rfl, makeRoom_false hroom⟩
    case h_2 p₁ hroom =>
      obtain ⟨p₂, hshift, h⟩ := bind_eq_ok.mp h
      obtain ⟨p₃, hwrite, h⟩ := bind_eq_ok.mp h
      obtain ⟨p₄, hdelta, h⟩ := bind_eq_ok.mp h
      obtain ⟨p₅, hinsert, h⟩ := bind_eq_ok.mp h
      obtain ⟨rfl, rfl⟩ := Prod.mk.inj (Except.ok.inj h)
      refine .inr ⟨rfl, p.maxAddedOptionNumber, _, p₁, p₅, hroom, ?_, rfl⟩
      exact (((rewrites_shiftPDUUp hshift).trans (rewrites_write hwrite)).trans
        (rewrites_setOptionDelta hdelta)).trans (rewrites_insertOption hinsert)

theorem Sound.addOption {n : UInt16} {result : ℕ} (hp : p.Sound)
    (h : p.addOption n v = .ok (q, result)) : q.Sound := by
  obtain ⟨-, heq⟩ | ⟨-, max, k, p₁, p₂, hroom, hrewrites, rfl⟩ := addOption_cases h
  · rw [heq]
    exact ⟨hp.inside, hp.buffer⟩
  · have h₁ := Sound.makeRoom (p := { p with maxAddedOptionNumber := max })
      ⟨hp.inside, hp.buffer⟩ hroom
    have h₂ := h₁.rewrites hrewrites
    exact ⟨h₂.inside, h₂.buffer⟩

end Mbtk.Coap.CoapPDU
