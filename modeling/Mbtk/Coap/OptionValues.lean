import Mbtk.Coap.DecodeLaws
import Mbtk.Coap.Frame
import Mbtk.Coap.HeaderLaws

namespace Mbtk.Coap

open Lib Lib.ExtNat

namespace CoapPDU

/-- `getOptions` lists one option, of this number and this value, and the length of the PDU is
that of its header and of the encoded option. -/
structure HoldsOption (p : CoapPDU) (n : UInt16) (v : List UInt8) : Prop where
  options : p.getOptions.map
    (fun o => (o.optionNumber, o.optionValueLength.toNat, p.optionValue o)) = [(n, v.length, v)]
  pduLength : p.getPDULength =
    4 + 1 + (extension n.toNat).length + (extension v.length).length + v.length

def resetAdd (p : CoapPDU) (n : UInt16) (v : List UInt8) : Exec (CoapPDU × ℕ) := do
  let p ← p.reset
  p.addOption n v

/-- Whatever new memory holds, the option is in the PDU when `coapAddOption` returns 0. -/
def StoresOption (n : UInt16) (v : List UInt8) : Prop :=
  ∀ p : CoapPDU, p.Dynamic →
    ∃ q result, p.resetAdd n v = .ok (q, result) ∧ (result = 0 → q.HoldsOption n v)

section

variable {p q : CoapPDU} {n : UInt16} {v w : List UInt8}

def emptyHeader : List UInt8 := [0, 0, 0, 0]

theorem Holds.holdsOption_iff (h : q.Holds emptyHeader [⟨n, w⟩] []) (hnum : q.numOptions = 1)
    (hlen : w.length = v.length) : q.HoldsOption n v ↔ w = v := by
  have hw := h.short ⟨n, w⟩ (by simp)
  have hval : (UInt16.ofNat w.length).toNat = w.length := by
    rw [UInt16.toNat_ofNat', Nat.mod_eq_of_lt hw]
  have hoptions : q.getOptions.map
      (fun o => (o.optionNumber, o.optionValueLength.toNat, q.optionValue o)) =
        [(n, w.length, w)] := by
    have := congrArg (List.map fun x : UInt16 × Opt => (x.2.number, x.1.toNat, x.2.value))
      (h.getOptions_eq hnum)
    simpa [List.map_map, Function.comp_def, hval] using this
  have htotal : q.getPDULength =
      4 + 1 + (extension n.toNat).length + (extension w.length).length + w.length := by
    rw [getPDULength, h.pduLength_eq, length_encodeMessage, encodeOptions_cons,
      encodeOptions_nil, List.append_nil, length_encodeRecord, encodePayload_nil]
    simp only [emptyHeader, Opt.key, List.length_cons, List.length_nil, Nat.sub_zero]
    omega
  constructor
  · rintro ⟨hopt, -⟩
    rw [hoptions] at hopt
    simpa [hlen] using hopt
  · rintro rfl
    exact ⟨hoptions, htotal⟩

theorem encodeMessage_single (n : UInt16) (v : List UInt8) :
    encodeMessage emptyHeader [] [] ++ encodeRecord (n.toNat, v) =
      encodeMessage emptyHeader [⟨n, v⟩] [] := by
  simp [encodeMessage, Opt.key]

theorem storesOption_of_le (n : UInt16) (hv : v.length ≤ 268) : StoresOption n v := by
  intro p hp
  obtain ⟨m, hreset, hm⟩ := hp.reset
  have hholds := hp.holds hm (b := 0) (c := 0) (i := 0) (j := 0) rfl
  have hadd := hholds.addOption_end hv
    (hholds.findInsertionPosition_end (n := n) (.inr ⟨rfl, rfl⟩))
  rw [show (n - (p.cleared.withPdu (0 :: 0 :: 0 :: 0 :: m)).maxAddedOptionNumber) = n from
    UInt16.sub_zero n, ← emptyHeader, encodeMessage_single] at hadd
  rw [resetAdd, hreset, ok_bind]
  split_ifs at hadd with hroom
  · obtain ⟨q, hadd, hgrew⟩ := hadd
    have hone : q.Holds emptyHeader [⟨n, v⟩] [] :=
      hgrew.holds rfl ⟨Nat.zero_le _, trivial⟩ (by simpa using (show v.length < 65536 by omega))
    refine ⟨q, 0, hadd, fun _ => (hone.holdsOption_iff ?_ rfl).mpr rfl⟩
    rw [hgrew.numOptions]
    rfl
  · obtain ⟨q, hadd⟩ := hadd
    exact ⟨q, 1, hadd, fun h => absurd h (by decide)⟩

def grown (b : UInt8) : CoapPDU where
  addr := 0
  pdu := [0x40, 0, 0, 0]
  pduLength := 4
  constructedFromBuffer := false
  bufferLength := 4
  payloadPointer := none
  payloadLength := 0
  numOptions := 0
  maxAddedOptionNumber := 0
  heap := fun _ => some ⟨0, fun _ => b⟩

theorem new_grown (b : UInt8) : new 0 (fun _ => some ⟨0, fun _ => b⟩) = .ok (grown b) := by
  simp [new, setVersion, write, read, grown, List.replicate]
  rfl

theorem dynamic_grown (b : UInt8) : (grown b).Dynamic := ⟨rfl, le_rfl, le_rfl⟩

def widened (b : UInt8) (n : UInt16) (L : ℕ) : CoapPDU :=
  { grown b with
    pdu := emptyHeader ++ List.replicate L b
    pduLength := 4 + L
    bufferLength := 4 + L
    maxAddedOptionNumber := n }

/-- The space that `addOption` computes, in 16 bits. -/
def optionSpace (n : UInt16) (v : List UInt8) : ℕ :=
  (1 + (extension n.toNat).length + (extension v.length).length + v.length) % 65536

theorem length_take_mod (v : List UInt8) :
    (v.take (v.length % 65536)).length = v.length % 65536 := by
  rw [List.length_take]
  omega

theorem addOption_behind (h : p.maxAddedOptionNumber ≤ n) :
    p.addOption n v = p.appendOption n (n - p.maxAddedOptionNumber)
      (optionSpace (n - p.maxAddedOptionNumber) (v.take (v.length % 65536))) v := by
  have hlen : (UInt16.ofNat v.length).toNat = v.length % 65536 := UInt16.toNat_ofNat'
  have hpos : p.findInsertionPosition n = (p.pduLength, p.maxAddedOptionNumber) :=
    if_pos (.inl h)
  rw [addOption, hpos]
  dsimp only
  rw [if_pos rfl, computeExtraBytes_eq, computeExtraBytes_eq, hlen, optionSpace, length_take_mod]
  rfl

theorem insertOption_replicate {a : List UInt8} {b : UInt8} {k : ℕ} {δ : UInt16}
    (hp : p.pdu = a ++ List.replicate k b) (hv : v.length < 65536)
    (hk : k = (encodeRecord (δ.toNat, v)).length) :
    p.insertOption a.length δ (UInt16.ofNat v.length) v = .ok (p.withPdu
      (a ++ encodeRecord (δ.toNat, storedValue v (List.replicate v.length b)))) := by
  obtain ⟨c, y₁, y₂, w, hx, h₁, h₂, hw⟩ := exists_record_parts (x := List.replicate k b)
    (List.length_replicate.trans hk)
  have hwb : w = List.replicate v.length b := by
    refine List.eq_replicate_iff.mpr ⟨hw, fun c hc => ?_⟩
    have : c ∈ List.replicate k b := by
      rw [hx]
      simp [hc]
    exact List.eq_of_mem_replicate this
  have hstored := insertOption_stored p a (h := c) [] δ hv h₁ h₂ hw
  rwa [← hx, List.append_nil, List.append_nil, ← hp, withPdu_self, hwb] at hstored

theorem resetAdd_grown (b : UInt8) (n : UInt16) (hv : v.length ≤ 65535) :
    (grown b).resetAdd n v = (do
      let p ← (widened b n (optionSpace n v)).insertOption 4 n (UInt16.ofNat v.length) v
      return ({ p with numOptions := p.numOptions + 1 }, 0)) := by
  obtain ⟨p, hp⟩ : ∃ p, p = (grown b).cleared.withPdu emptyHeader := ⟨_, rfl⟩
  have hreset : (grown b).reset = .ok p := by
    rw [hp]
    rfl
  have hlength : p.pduLength = 4 := by
    rw [hp]
    rfl
  have hmax : p.maxAddedOptionNumber = 0 := by
    rw [hp]
    rfl
  have hroom : { p with pduLength := 4, maxAddedOptionNumber := n }.makeRoom (4 + optionSpace n v) =
      (widened b n (optionSpace n v), true) := by
    have htake : emptyHeader.take (4 + optionSpace n v) = emptyHeader :=
      List.take_of_length_le (Nat.le_add_right 4 _)
    have hdrop : 4 + optionSpace n v - emptyHeader.length = optionSpace n v :=
      Nat.add_sub_cancel_left 4 _
    simp [hp, makeRoom, realloc, cleared, withPdu, grown, widened, htake, hdrop]
  have hle : p.maxAddedOptionNumber ≤ n := hmax ▸ UInt16.le_iff_toNat_le.mpr (Nat.zero_le _)
  rw [resetAdd, hreset, ok_bind, addOption_behind hle, hmax, UInt16.sub_zero,
    Nat.mod_eq_of_lt (by omega), List.take_length, appendOption]
  dsimp only
  rw [hlength, hroom]

theorem stored_of_holdsOption (b : UInt8) (n : UInt16) (hv : v.length ≤ 65535)
    {r : ℕ} (hadd : (grown b).resetAdd n v = .ok (q, r)) (hq : r = 0 → q.HoldsOption n v) :
    storedValue v (List.replicate v.length b) = v := by
  obtain ⟨w, hw⟩ : ∃ w, w = List.replicate v.length b := ⟨_, rfl⟩
  have hwlen : w.length = v.length := by rw [hw, List.length_replicate]
  rw [resetAdd_grown b n hv] at hadd
  obtain ⟨p, hins, hp⟩ := bind_eq_ok.mp hadd
  obtain ⟨hpq, rfl⟩ := Prod.mk.inj (Except.ok.inj hp)
  have hholds := hq rfl
  have hlen : q.pduLength = 4 + optionSpace n v := by
    obtain ⟨m, -, rfl⟩ := rewrites_insertOption hins
    rw [← hpq]
    rfl
  have hfit : optionSpace n v = (encodeRecord (n.toNat, v)).length := by
    have := hholds.pduLength
    rw [getPDULength, hlen] at this
    rw [length_encodeRecord]
    dsimp only
    omega
  have hstored := insertOption_replicate (p := widened b n (optionSpace n v)) rfl
    (show v.length < 65536 by omega) hfit
  obtain rfl := Except.ok.inj (hins.symm.trans hstored)
  rw [← hw] at hpq ⊢
  have hone : q.Holds emptyHeader [⟨n, storedValue v w⟩] [] := by
    rw [← hpq]
    have hmem : emptyHeader ++ encodeRecord (n.toNat, storedValue v w) =
        encodeMessage emptyHeader [⟨n, storedValue v w⟩] [] := by
      simp [encodeMessage, Opt.key]
    have hsize : (encodeMessage emptyHeader [⟨n, storedValue v w⟩] []).length =
        4 + optionSpace n v := by
      rw [← hmem, hfit, List.length_append, length_encodeRecord, length_encodeRecord,
        length_storedValue hwlen]
      rfl
    refine .of_encode (w := []) ?_ hsize.symm rfl ⟨Nat.zero_le _, trivial⟩ ?_ ?_
    · rw [List.append_nil, ← hmem]
      rfl
    · simpa [length_storedValue hwlen] using (show v.length < 65536 by omega)
    · change 4 + optionSpace n v ≤ (emptyHeader ++ encodeRecord (n.toNat, storedValue v w)).length
      rw [hmem, hsize]
  refine (hone.holdsOption_iff ?_ (length_storedValue hwlen)).mp hholds
  rw [← hpq]
  rfl

theorem not_storesOption_of_gt (n : UInt16) (hv : v.length ≤ 65535) (h : 268 < v.length) :
    ¬ StoresOption n v := by
  intro hstores
  obtain ⟨c, t, hct⟩ : ∃ c t, v.drop (v.length - 269) = c :: t := by
    refine List.exists_cons_of_length_pos ?_
    rw [List.length_drop]
    omega
  obtain ⟨q, r, hadd, hq⟩ := hstores (grown (c + 1)) (dynamic_grown (c + 1))
  have hstored := stored_of_holdsOption (c + 1) n hv hadd hq
  have hlost : (List.replicate v.length (c + 1)).drop (v.length - 269) = c :: t := by
    rw [storedValue, if_neg (by omega)] at hstored
    rw [← hct]
    conv_rhs at hstored => rw [← List.take_append_drop (v.length - 269) v]
    exact List.append_cancel_left hstored
  have hc : c ∈ List.replicate v.length (c + 1) :=
    List.mem_of_mem_drop (hlost ▸ List.mem_cons_self)
  exact absurd (List.eq_of_mem_replicate hc) (by simp)

end

/-- Exactly the values of at most 268 bytes are stored whatever new memory holds. -/
theorem storesOption_iff (n : UInt16) (v : List UInt8) (hv : v.length ≤ 65535) :
    StoresOption n v ↔ v.length ≤ 268 :=
  ⟨fun h => Nat.not_lt.mp fun hlt => not_storesOption_of_gt n hv hlt h, storesOption_of_le n⟩

theorem storesOption_uriPath : StoresOption 11 [0x61] :=
  (storesOption_iff 11 [0x61] (by decide)).mpr (by decide)

/-- Nothing of a value of 269 bytes is copied. -/
theorem not_storesOption_269 : ¬ StoresOption 11 (List.replicate 269 0x61) :=
  not_storesOption_of_gt 11 (List.length_replicate.trans_le (by decide))
    (List.length_replicate.symm ▸ by decide)

end CoapPDU

end Mbtk.Coap
