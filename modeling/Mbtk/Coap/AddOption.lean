import Mbtk.Coap.Validate
import Mbtk.Coap.WellFormed

namespace Mbtk.Coap

open Lib Lib.ExtNat

/-- The options with `n`, `v` behind the last one whose number is at most `n`. -/
abbrev insertOpt (n : UInt16) (v : List UInt8) (opts : List Opt) : List Opt :=
  insertAfter Opt.key ⟨n, v⟩ opts

theorem insertOpt_append {A B : List Opt} {n : UInt16} {v : List UInt8}
    (hA : ∀ o ∈ A, o.number ≤ n) (hB : ∀ o ∈ B.head?, n < o.number) :
    insertOpt n v (A ++ B) = A ++ ⟨n, v⟩ :: B :=
  insertAfter_append Opt.key (fun o ho => UInt16.le_iff_toNat_le.mp (hA o ho))
    fun o ho => UInt16.lt_iff_toNat_lt.mp (hB o ho)

theorem insertOpt_end {opts : List Opt} {n : UInt16} {v : List UInt8}
    (h : ∀ o ∈ opts, o.number ≤ n) : insertOpt n v opts = opts ++ [⟨n, v⟩] := by
  simpa using insertOpt_append (B := []) h (by simp)

theorem sortedFrom_insertOpt {opts : List Opt} (n : UInt16) (v : List UInt8)
    (h : SortedFrom Opt.key 0 opts) : SortedFrom Opt.key 0 (insertOpt n v opts) :=
  h.insertAfter _ (Nat.zero_le _)

theorem short_insertOpt {opts : List Opt} {n : UInt16} {v : List UInt8}
    (h : ∀ o ∈ opts, o.value.length < 65536) (hv : v.length ≤ 268) :
    ∀ o ∈ insertOpt n v opts, o.value.length < 65536 := by
  intro o ho
  obtain rfl | ho := (mem_insertAfter Opt.key).mp ho
  · dsimp only
    omega
  · exact h o ho

theorem exists_split {opts : List Opt} (h : SortedFrom Opt.key 0 opts) (n : UInt16) :
    ∃ A B, opts = A ++ B ∧ (∀ o ∈ A, o.number ≤ n) ∧ ∀ o ∈ B, n < o.number := by
  obtain ⟨A, B, hAB, hA, hB⟩ := ((sortedFrom_iff Opt.key).mp h).1.split Opt.key n.toNat
  exact ⟨A, B, hAB, fun o ho => UInt16.le_iff_toNat_le.mpr (hA o ho),
    fun o ho => UInt16.lt_iff_toNat_lt.mpr (hB o ho)⟩

theorem number_le_lastNumber {opts : List Opt} (h : SortedFrom Opt.key 0 opts) :
    ∀ o ∈ opts, o.number ≤ lastNumber opts := by
  intro o ho
  rw [UInt16.le_iff_toNat_le, toNat_lastNumber]
  exact (h.mem_le_lastKey Opt.key).2 o ho

theorem lastNumber_le {opts : List Opt} {n : UInt16} (h : ∀ o ∈ opts, o.number ≤ n) :
    lastNumber opts ≤ n := by
  rw [UInt16.le_iff_toNat_le, toNat_lastNumber]
  exact lastKey_le Opt.key (Nat.zero_le _) fun o ho => UInt16.le_iff_toNat_le.mp (h o ho)

namespace CoapPDU

section

variable {p q : CoapPDU} {hdr : List UInt8} {opts : List Opt} {pay v : List UInt8} {n : UInt16}

theorem encodeMessage_append_record (hlast : lastNumber opts ≤ n) :
    encodeMessage hdr opts [] ++ encodeRecord ((n - lastNumber opts).toNat, v) =
      encodeMessage hdr (opts ++ [⟨n, v⟩]) [] := by
  rw [UInt16.toNat_sub_of_le _ _ hlast, toNat_lastNumber]
  simp only [encodeMessage, encodeOptions_append, encodeOptions_cons, encodeOptions_nil,
    encodePayload_nil, List.append_nil, List.append_assoc]

theorem number_of_append_record {δ : ℕ} (hδ : δ < 65536) (hs : SortedFrom Opt.key 0 opts)
    (hv : ∀ o ∈ opts, o.value.length < 65536) (hv' : v.length ≤ 268)
    (heq : encodeMessage hdr opts [] ++ encodeRecord (δ, v) =
      encodeMessage hdr (insertOpt n v opts) []) :
    lastKey Opt.key 0 opts + δ = n.toNat := by
  have hs' := sortedFrom_insertOpt n v hs
  have hshort : ∀ o ∈ opts, o.value.length < 65536 + 269 := fun o ho => (hv o ho).trans (by omega)
  have hshort' : ∀ o ∈ insertOpt n v opts, o.value.length < 65536 + 269 :=
    fun o ho => (short_insertOpt hv hv' o ho).trans (by omega)
  have hrec : optionRecords 0 opts ++ [(δ, v)] = optionRecords 0 (insertOpt n v opts) := by
    refine (encodeRecord_selfDelimiting.flatMap_inj (s := []) (t := []) ?_
      (recordOk_of_mem hshort') (encodePayload_stops []) (encodePayload_stops []) ?_).1
    · intro r hr
      obtain hr | hr := List.mem_append.mp hr
      · exact recordOk_of_mem hshort r hr
      · obtain rfl := List.mem_singleton.mp hr
        exact ⟨by dsimp only; omega, by dsimp only; omega⟩
    · simpa [encodeMessage, encodeOptions] using heq
  have hlast : lastKey Opt.key 0 opts + δ = lastKey Opt.key 0 (insertOpt n v opts) := by
    rw [← hs'.sum_deltas Opt.key Opt.value, ← hs.sum_deltas Opt.key Opt.value]
    have := congrArg (fun l => (l.map Prod.fst).sum) hrec
    simp only [optionRecords, List.map_append, List.sum_append, List.map_cons, List.map_nil,
      List.sum_cons, List.sum_nil] at this
    omega
  have hlt := lastKey_lt (k := 0) (by omega) (insertOpt n v opts)
  let o : Opt := ⟨UInt16.ofNat (lastKey Opt.key 0 opts + δ), v⟩
  have hkey : o.key = lastKey Opt.key 0 opts + δ := by
    simp only [o, Opt.key, UInt16.toNat_ofNat']
    omega
  have hopts : opts ++ [o] = insertOpt n v opts := by
    refine deltas_injective Opt.key Opt.value (fun _ _ => Opt.ext_key) (k := 0) ?_ hs' ?_
    · rw [sortedFrom_append]
      exact ⟨hs, by omega, trivial⟩
    · have hδ' : o.key - lastKey Opt.key 0 opts = δ := by omega
      rw [← optionRecords, ← optionRecords, ← hrec, optionRecords, deltas_append, deltas_cons, hδ']
      rfl
  have hperm : (o ::ₘ (opts : Multiset Opt)) = ⟨n, v⟩ ::ₘ (opts : Multiset Opt) := by
    have h₁ : (opts ++ [o]).Perm (o :: opts) := List.perm_append_singleton o opts
    have h₂ : (insertOpt n v opts).Perm (⟨n, v⟩ :: opts) := perm_insertAfter Opt.key _ opts
    exact Multiset.coe_eq_coe.mpr (h₁.symm.trans (hopts ▸ h₂))
  have ho := (Multiset.cons_inj_left _).mp hperm
  rw [← hkey, ho]

/-- The insertion position that the fields of the PDU lead to is the right one. -/
def FindsPlace (p : CoapPDU) (opts : List Opt) (pay : List UInt8) (n : UInt16) : Prop :=
  if pay = [] then
    p.maxAddedOptionNumber ≤ n ∨ opts = [] → p.maxAddedOptionNumber = lastNumber opts
  else n < p.maxAddedOptionNumber ∧ ∃ o ∈ opts, n < o.number

theorem Holds.addOption_last (h : p.Holds hdr opts []) (hv : v.length ≤ 268)
    (hpos : p.findInsertionPosition n = (p.pduLength, lastNumber opts))
    (hle : ∀ o ∈ opts, o.number ≤ n)
    (hroom : p.HasRoom (encodeMessage hdr (insertOpt n v opts) []).length) :
    ∃ q, p.addOption n v = .ok (q, 0) ∧ p.Grew q (encodeMessage hdr (insertOpt n v opts) []) n := by
  have hadd := h.addOption_end hv hpos
  rw [insertOpt_end hle] at hroom ⊢
  rw [encodeMessage_append_record (lastNumber_le hle), if_pos hroom] at hadd
  exact hadd

theorem Holds.addOption_of_findsPlace (h : p.Holds hdr opts pay) (hv : v.length ≤ 268)
    (hroom : p.HasRoom (encodeMessage hdr (insertOpt n v opts) pay).length)
    (hplace : p.FindsPlace opts pay n) :
    ∃ q max, p.addOption n v = .ok (q, 0) ∧
      p.Grew q (encodeMessage hdr (insertOpt n v opts) pay) max := by
  obtain ⟨A, B, rfl, hA, hB⟩ := exists_split h.sorted n
  unfold FindsPlace at hplace
  cases B with
  | nil =>
    rw [List.append_nil] at h hplace hroom ⊢
    split_ifs at hplace with hpay
    · subst hpay
      by_cases hmax : p.maxAddedOptionNumber ≤ n ∨ A = []
      · have hpos := h.findInsertionPosition_end (n := n)
          (hmax.imp id fun hA => ⟨hA, rfl⟩)
        rw [hplace hmax] at hpos
        obtain ⟨q, hadd, hgrew⟩ := h.addOption_last hv hpos hA hroom
        exact ⟨q, n, hadd, hgrew⟩
      · rw [not_or, UInt16.not_le] at hmax
        have hpos := (show p.Holds hdr (A ++ []) [] by
          rwa [List.append_nil]).findInsertionPosition_walk hmax.1 (.inl (by simpa using hmax.2)) hA
          (by simp)
        have hlen : (hdr ++ encodeOptions 0 A).length = p.pduLength := by
          rw [h.pduLength_eq]
          simp [encodeMessage]
        rw [hlen] at hpos
        obtain ⟨q, hadd, hgrew⟩ := h.addOption_last hv hpos hA hroom
        exact ⟨q, n, hadd, hgrew⟩
    · obtain ⟨o, ho, hn⟩ := hplace.2
      exact absurd hn (UInt16.not_lt.mpr (hA o ho))
  | cons b B =>
    have hb : n < b.number := hB b (by simp)
    have hmax : n < p.maxAddedOptionNumber := by
      split_ifs at hplace with hpay
      · refine UInt16.not_le.mp fun hle => ?_
        have hlast := number_le_lastNumber h.sorted b (by simp)
        rw [← hplace (.inl hle)] at hlast
        exact absurd (UInt16.lt_of_lt_of_le hb hlast) (UInt16.not_lt.mpr hle)
      · exact hplace.1
    rw [insertOpt_append hA (by simpa using hb)] at hroom ⊢
    obtain ⟨q, hadd, hgrew⟩ := h.addOption_inner hv hmax hA hb hroom
    exact ⟨q, _, hadd, hgrew⟩

theorem encodeMessage_append_payload (hpay : pay ≠ []) (x : List UInt8) :
    encodeMessage hdr opts pay ++ x = encodeMessage hdr opts (pay ++ x) := by
  rw [encodeMessage, encodeMessage, encodePayload_of_ne_nil hpay,
    encodePayload_of_ne_nil (by simp [hpay])]
  simp

theorem Holds.findsPlace_of_addOption (h : p.Holds hdr opts pay) (hv : v.length ≤ 268)
    (hadd : p.addOption n v = .ok (q, 0))
    (hq : q.bytes = encodeMessage hdr (insertOpt n v opts) pay) : p.FindsPlace opts pay n := by
  have hend (hmax : p.maxAddedOptionNumber ≤ n ∨ (opts = [] ∧ pay = [])) :
      encodeMessage hdr opts pay ++ encodeRecord ((n - p.maxAddedOptionNumber).toNat, v) =
        encodeMessage hdr (insertOpt n v opts) pay := by
    have hout := h.addOption_end hv (h.findInsertionPosition_end hmax)
    rw [hadd] at hout
    split_ifs at hout
    · obtain ⟨q', hq', hgrew⟩ := hout
      obtain rfl : q = q' := by simpa using hq'
      rw [← hq, hgrew.bytes_eq]
    · obtain ⟨q', hq'⟩ := hout
      simp at hq'
  unfold FindsPlace
  split_ifs with hpay
  · subst hpay
    intro hmax
    have hnum := number_of_append_record (n - p.maxAddedOptionNumber).toNat_lt h.sorted h.short hv
      (hend (hmax.imp id fun ho => ⟨ho, rfl⟩))
    have hsum : lastNumber opts + (n - p.maxAddedOptionNumber) = n := by
      apply UInt16.toNat_inj.mp
      have := n.toNat_lt
      rw [UInt16.toNat_add, toNat_lastNumber, hnum, Nat.mod_eq_of_lt this]
    have := congrArg (· + p.maxAddedOptionNumber - n) hsum
    simpa [UInt16.add_assoc, UInt16.add_comm n] using this.symm
  · have hmax : n < p.maxAddedOptionNumber := by
      refine UInt16.not_le.mp fun hle => ?_
      have hbytes := hend (.inl hle)
      rw [encodeMessage_append_payload hpay] at hbytes
      have hopts := (encodeMessage_inj h.sorted (sortedFrom_insertOpt n v h.sorted) h.short
        (short_insertOpt h.short hv) hbytes).1
      have := congrArg List.length hopts
      rw [length_insertAfter] at this
      omega
    refine ⟨hmax, ?_⟩
    by_contra hno
    have hle : ∀ o ∈ opts, o.number ≤ n :=
      fun o ho => UInt16.not_lt.mp fun hlt => hno ⟨o, ho, hlt⟩
    obtain ⟨q', hq'⟩ | ⟨q', d, t, hq', hgrew⟩ := h.addOption_marker hv hpay hmax hle
    · rw [hadd] at hq'
      simp at hq'
    · rw [hadd] at hq'
      obtain rfl : q = q' := by simpa using hq'
      rw [hgrew.bytes_eq, insertOpt_end hle, encodeMessage, encodeOptions_append,
        encodePayload_of_ne_nil hpay, UInt16.toNat_sub_of_le _ _ (lastNumber_le hle),
        toNat_lastNumber] at hq
      simp only [encodeOptions_cons, encodeOptions_nil, List.append_nil, List.append_assoc,
        List.append_cancel_left_eq, List.cons.injEq] at hq
      have hd := nibble_le d
      have hmarker : byteOf (nibble d) 15 = byteOf 15 15 := hq.1
      have := (byteOf_inj (by omega) (by omega) (by omega) (by omega) hmarker).1
      omega

/-- The counters of the PDU say what its message says.  Without a payload there is no
payload pointer. -/
structure Agrees (p : CoapPDU) (opts : List Opt) (pay : List UInt8) : Prop where
  numOptions : p.numOptions = opts.length
  payloadLength : p.payloadLength = pay.length
  payloadPointer : p.payloadPointer =
    if pay = [] then none else some (p.addr + (p.pduLength - pay.length))

/-- `addOption` returns 0 and the PDU then holds the message with the option inserted. -/
def AddsOption (p : CoapPDU) (hdr : List UInt8) (opts : List Opt) (pay : List UInt8) (n : UInt16)
    (v : List UInt8) : Prop :=
  ∃ q, p.addOption n v = .ok (q, 0) ∧ q.Holds hdr (insertOpt n v opts) pay ∧
    q.Agrees (insertOpt n v opts) pay

/-- The fields before the call: the counters are right, a payload pointer points to where
the payload comes to lie, and the insertion position is found. -/
structure ReadyFor (p : CoapPDU) (hdr : List UInt8) (opts : List Opt) (pay : List UInt8)
    (n : UInt16) (v : List UInt8) : Prop where
  numOptions : p.numOptions = opts.length
  payloadLength : p.payloadLength = pay.length
  payloadPointer : p.payloadPointer = if pay = [] then none
    else some (p.nextAddr + (hdr.length + (encodeOptions 0 (insertOpt n v opts)).length + 1))
  place : p.FindsPlace opts pay n

theorem Grew.agrees_iff {max : UInt16}
    (h : p.Grew q (encodeMessage hdr (insertOpt n v opts) pay) max) :
    q.Agrees (insertOpt n v opts) pay ↔ p.numOptions = opts.length ∧
      p.payloadLength = pay.length ∧ p.payloadPointer = if pay = [] then none
        else some
          (p.nextAddr + (hdr.length + (encodeOptions 0 (insertOpt n v opts)).length + 1)) := by
  have hpos : pay ≠ [] → q.pduLength - pay.length =
      hdr.length + (encodeOptions 0 (insertOpt n v opts)).length + 1 := by
    intro hpay
    obtain ⟨w, rfl, -⟩ := h
    change (encodeMessage hdr (insertOpt n v opts) pay).length - pay.length = _
    rw [length_encodeMessage, encodePayload_of_ne_nil hpay, List.length_cons]
    omega
  constructor
  · rintro ⟨h₁, h₂, h₃⟩
    rw [h.numOptions, length_insertAfter] at h₁
    rw [h.payloadLength] at h₂
    rw [h.payloadPointer, h.addr] at h₃
    refine ⟨by omega, h₂, ?_⟩
    rw [h₃]
    split_ifs with hpay
    · rfl
    · rw [hpos hpay]
  · rintro ⟨h₁, h₂, h₃⟩
    refine ⟨?_, by rw [h.payloadLength, h₂], ?_⟩
    · rw [h.numOptions, length_insertAfter, h₁]
    · rw [h.payloadPointer, h.addr, h₃]
      split_ifs with hpay
      · rfl
      · rw [hpos hpay]

/-- Exactly when adding an option with room for it keeps the PDU a faithful picture of its
message. -/
theorem addsOption_iff_readyFor (p : CoapPDU) (hdr : List UInt8) (opts : List Opt)
    (pay : List UInt8) (n : UInt16) (v : List UInt8) (h : p.Holds hdr opts pay)
    (hv : v.length ≤ 268)
    (hroom : p.HasRoom (encodeMessage hdr (insertOpt n v opts) pay).length) :
    p.AddsOption hdr opts pay n v ↔ p.ReadyFor hdr opts pay n v := by
  have hsorted := sortedFrom_insertOpt n v h.sorted
  have hshort := short_insertOpt (n := n) h.short hv
  constructor
  · rintro ⟨q, hadd, hholds, hagrees⟩
    have hplace := h.findsPlace_of_addOption hv hadd hholds.bytes_eq
    obtain ⟨q', max, hadd', hgrew⟩ := h.addOption_of_findsPlace hv hroom hplace
    rw [hadd] at hadd'
    obtain rfl : q = q' := by simpa using hadd'
    obtain ⟨h₁, h₂, h₃⟩ := hgrew.agrees_iff.mp hagrees
    exact ⟨h₁, h₂, h₃, hplace⟩
  · rintro ⟨h₁, h₂, h₃, hplace⟩
    obtain ⟨q, max, hadd, hgrew⟩ := h.addOption_of_findsPlace hv hroom hplace
    exact ⟨q, hadd, hgrew.holds h.header hsorted hshort, hgrew.agrees_iff.mpr ⟨h₁, h₂, h₃⟩⟩

theorem addsOption_behindPath :
    { received 0 [0x40, 0x01, 0x00, 0x01, 0xB1, 0x61] (List.replicate 10 0) with
      bufferLength := 16
      numOptions := 1
      maxAddedOptionNumber := 11 }.AddsOption [0x40, 0x01, 0x00, 0x01] [⟨11, [0x61]⟩] [] 12
        [0x2A] :=
  (addsOption_iff_readyFor _ _ _ _ _ _
    (Holds.of_encode (w := List.replicate 10 0) rfl rfl (by decide) (by simp) (by simp)
      (by decide))
    (by decide) (by decide)).mpr
    ⟨rfl, rfl, rfl, by
      rw [FindsPlace, if_pos rfl]
      exact fun _ => rfl⟩

/-- `validate` leaves the highest option number at 0, so Content-Format goes behind Uri-Path
with the whole number as its distance. -/
theorem not_addsOption_after_validate :
    ∃ q, (do
        let p ← ofBuffer 0 ([0x40, 0x01, 0x00, 0x01, 0xB1, 0x61] ++ List.replicate 10 0) 16 6
        return p.validate : Exec (CoapPDU × Bool)) = .ok (q, true) ∧
      q.Holds [0x40, 0x01, 0x00, 0x01] [⟨11, [0x61]⟩] [] ∧
      q.HasRoom
        (encodeMessage [0x40, 0x01, 0x00, 0x01] (insertOpt 12 [0x2A] [⟨11, [0x61]⟩]) []).length ∧
      ¬ q.AddsOption [0x40, 0x01, 0x00, 0x01] [⟨11, [0x61]⟩] [] 12 [0x2A] := by
  have hwalk : Walk (List.replicate 10 0) [0xB1, 0x61] [(11, 1)] [] :=
    .option (h := 0xB1) (t := [0x61]) (by decide) (by decide) (by decide) (by decide) .done
  have hhead : HeaderOk [0x40, 0x01, 0x00, 0x01, 0xB1, 0x61] := by constructor <;> decide
  obtain ⟨p, hp⟩ : ∃ p : CoapPDU, p =
      { received 0 [0x40, 0x01, 0x00, 0x01, 0xB1, 0x61] (List.replicate 10 0) with
        bufferLength := 16 } := ⟨_, rfl⟩
  have hholds : (p.walked 1 []).Holds [0x40, 0x01, 0x00, 0x01] [⟨11, [0x61]⟩] [] := by
    subst hp
    exact .of_encode (w := List.replicate 10 0) rfl rfl (by decide) (by simp) (by simp)
      (by decide)
  have hvalid := validate_of_walk (p := p) (d := [0x40, 0x01, 0x00, 0x01, 0xB1, 0x61])
    (by rw [hp]; rfl) (by rw [hp]; rfl) (by rw [hp]; rfl) hhead hwalk
  refine ⟨p.walked 1 [], ?_, hholds, ?_, ?_⟩
  · have hbuf : ofBuffer 0 ([0x40, 0x01, 0x00, 0x01, 0xB1, 0x61] ++ List.replicate 10 0) 16 6 =
        .ok p := by
      rw [hp]
      rfl
    rw [hbuf, ok_bind, hvalid]
    rfl
  · subst hp
    decide
  · rintro ⟨q, hadd, hq, -⟩
    have hplace := hholds.findsPlace_of_addOption (by decide) hadd hq.bytes_eq
    rw [FindsPlace, if_pos rfl] at hplace
    subst hp
    exact absurd (hplace (.inl (by decide))) (by decide)

end

end CoapPDU

end Mbtk.Coap
