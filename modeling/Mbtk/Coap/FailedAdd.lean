import Mbtk.Coap.Frame
import Mbtk.Coap.WellFormed

namespace Mbtk.Coap.CoapPDU

open Lib Lib.ExtNat

/-- The states that calls of `addOption` reach from a constructor. -/
inductive Reached : CoapPDU → Prop
  | new {addr : ℕ} {heap : ℕ → Option Block} {p : CoapPDU} : new addr heap = .ok p → Reached p
  | ofBuffer {addr bufferLength pduLength : ℕ} {buffer : List UInt8} {p : CoapPDU} :
      bufferLength ≤ buffer.length → pduLength ≤ buffer.length →
      ofBuffer addr buffer bufferLength pduLength = .ok p → Reached p
  | addOption {p q : CoapPDU} {n : UInt16} {v : List UInt8} {result : ℕ} : Reached p →
      v.length < 65536 → p.addOption n v = .ok (q, result) → Reached q

def addOptions (p : CoapPDU) : List Opt → Exec (CoapPDU × List ℕ)
  | [] => .ok (p, [])
  | o :: calls => do
    let (p, result) ← p.addOption o.number o.value
    let (p, results) ← p.addOptions calls
    return (p, result :: results)

/-- What a caller sees of a sequence of calls: their results and the message. -/
structure View where
  results : List ℕ
  bytes : List UInt8
  pduLength : ℕ
  numOptions : ℕ
  deriving DecidableEq

def view (r : CoapPDU × List ℕ) : View := ⟨r.2, r.1.bytes, r.1.getPDULength, r.1.getNumOptions⟩

/-- What a caller sees of coming calls, with `heap` for what their allocations return. -/
def future (p : CoapPDU) (heap : ℕ → Option Block) (calls : List Opt) : Exec View :=
  ({ p with heap }.addOptions calls).map view

/-- Nobody sees that `p` has become `q`. -/
def LeavesNoTrace (p q : CoapPDU) : Prop := ∀ heap calls, q.future heap calls = p.future heap calls

/-- A buffer without a free byte. -/
def Full (p : CoapPDU) : Prop := p.constructedFromBuffer = true ∧ p.bufferLength ≤ p.pduLength

section

variable {p q : CoapPDU} {n : UInt16} {v : List UInt8}

theorem rewrites_setVersion {version : UInt8} (h : p.setVersion version = .ok q) :
    p.Rewrites q := by
  unfold setVersion at h
  split_ifs at h
  · cases h
    exact .refl _
  · obtain ⟨p₁, h₁, h⟩ := bind_eq_ok.mp h
    exact (rewrites_write h₁).trans (rewrites_write h)

theorem Reached.sound (h : p.Reached) : p.Sound := by
  induction h with
  | new h => exact Sound.rewrites ⟨le_rfl, le_rfl⟩ (rewrites_setVersion h)
  | @ofBuffer addr bufferLength pduLength buffer p hbuffer hlen h =>
    unfold CoapPDU.ofBuffer at h
    dsimp only at h
    split_ifs at h with hzero
    · obtain ⟨p₁, hcopy, h⟩ := bind_eq_ok.mp h
      have hfour : 4 ≤ buffer.length := by
        unfold memcpy at hcopy
        split_ifs at hcopy with hfour
        exact hfour
      exact (Sound.rewrites ⟨hfour, hbuffer⟩ (rewrites_memcpy hcopy)).rewrites
        (rewrites_setVersion h)
    · cases h
      exact ⟨hlen, hbuffer⟩
  | addOption _ _ h ih => exact ih.addOption h

theorem bytes_append {m w : List UInt8} (hp : p.pdu = m ++ w) (hlen : p.pduLength = m.length) :
    p.bytes = m := by
  rw [bytes, hp, hlen, List.take_left]

theorem Sound.addOption_nil (hp : p.Sound) (h : p.maxAddedOptionNumber ≤ n) :
    if p.HasRoom (p.pduLength + (encodeRecord ((n - p.maxAddedOptionNumber).toNat, [])).length) then
      ∃ q, p.addOption n [] = .ok (q, 0) ∧
        q.bytes = p.bytes ++ encodeRecord ((n - p.maxAddedOptionNumber).toNat, [])
    else ∃ q, p.addOption n [] = .ok (q, 1) := by
  have hpos : p.findInsertionPosition n = (p.pduLength, p.maxAddedOptionNumber) := by
    unfold findInsertionPosition
    exact if_pos (.inl h)
  rw [addOption_of_end (by simp) hpos]
  split_ifs with hroom
  · have hlen : p.pduLength = p.bytes.length := by
      rw [bytes, List.length_take, Nat.min_eq_left hp.inside]
    obtain ⟨w, happend, -⟩ := appendOption_eq (List.take_append_drop p.pduLength p.pdu).symm
      hlen hp.buffer (v := []) (by simp) hroom
    refine ⟨_, happend, bytes_append (w := w) ?_ ?_⟩
    · exact (List.append_assoc ..).symm
    · rw [List.length_append, ← hlen]
      rfl
  · exact appendOption_of_not_hasRoom hroom

theorem map_view_single {result : ℕ} (h : p.addOption n v = .ok (q, result)) :
    (p.addOptions [⟨n, v⟩]).map view = .ok ⟨[result], q.bytes, q.pduLength, q.numOptions⟩ := by
  rw [addOptions, h]
  rfl

theorem encodeRecord_zero : encodeRecord (0, []) = [0] := by decide

theorem encodeRecord_eq_zero {δ : ℕ} (h : encodeRecord (δ, []) = [0]) : δ = 0 := by
  have hne : nibble δ = 0 := by
    have hle := nibble_le δ
    have hnil : nibble 0 = 0 := by decide
    have hhead : byteOf (nibble δ) (nibble 0) = byteOf 0 0 :=
      (List.cons.inj (h.trans encodeRecord_zero.symm)).1
    exact (byteOf_inj (by omega) (by omega) (by decide) (by decide) hhead).1
  unfold nibble at hne
  split_ifs at hne
  exact hne

theorem view_ne {r s : CoapPDU} (hr : r.Sound) (hs : s.Sound)
    (hlt : r.maxAddedOptionNumber < s.maxAddedOptionNumber) (hbytes : r.bytes = s.bytes)
    (hroom : s.HasRoom (s.pduLength + 1)) :
    (r.addOptions [⟨s.maxAddedOptionNumber, []⟩]).map view ≠
      (s.addOptions [⟨s.maxAddedOptionNumber, []⟩]).map view := by
  have hs₁ := hs.addOption_nil (n := s.maxAddedOptionNumber) (UInt16.le_refl _)
  rw [UInt16.sub_self, UInt16.toNat_zero, encodeRecord_zero, List.length_singleton,
    if_pos hroom] at hs₁
  obtain ⟨s', hs', hsbytes⟩ := hs₁
  have hr₁ := hr.addOption_nil (n := s.maxAddedOptionNumber) (UInt16.le_of_lt hlt)
  rw [map_view_single hs']
  split_ifs at hr₁ with hspace
  · obtain ⟨r', hr', hrbytes⟩ := hr₁
    rw [map_view_single hr']
    intro heq
    have hsame : r'.bytes = s'.bytes := congrArg View.bytes (Except.ok.inj heq)
    rw [hrbytes, hsbytes, hbytes] at hsame
    have hzero := encodeRecord_eq_zero (List.append_cancel_left hsame)
    rw [UInt16.toNat_sub_of_le _ _ (UInt16.le_of_lt hlt)] at hzero
    have := UInt16.lt_iff_toNat_lt.mp hlt
    omega
  · obtain ⟨r', hr'⟩ := hr₁
    rw [map_view_single hr']
    intro heq
    have hresults : [1] = [0] := congrArg View.results (Except.ok.inj heq)
    cases hresults

end

/-- A failed call leaves no trace if it is for a place in front of the end or for the highest
number, and in a PDU that still has space only then. -/
theorem leavesNoTrace_of_failed (p q : CoapPDU) (n : UInt16) (v : List UInt8) (hp : p.Reached)
    (hfail : p.addOption n v = .ok (q, 1)) :
    ((p.findInsertionPosition n).1 ≠ p.pduLength ∨ n = p.maxAddedOptionNumber →
      p.LeavesNoTrace q) ∧
    (p.LeavesNoTrace q → ¬ p.Full →
      (p.findInsertionPosition n).1 ≠ p.pduLength ∨ n = p.maxAddedOptionNumber) := by
  obtain ⟨-, hq⟩ | ⟨hzero, -⟩ := addOption_cases hfail
  · constructor
    · intro hplace heap calls
      have hsame : { q with heap } = { p with heap } := by
        rw [hq]
        split_ifs with hend
        · rw [hplace.resolve_left (not_not.mpr hend)]
        · rfl
      rw [future, future, hsame]
    · intro htrace hspace
      rw [or_iff_not_imp_left, not_not]
      intro hend
      rw [if_pos hend] at hq
      by_contra hne
      have hroom (r : CoapPDU) (hbuffer : r.constructedFromBuffer = p.constructedFromBuffer)
          (hcapacity : r.bufferLength = p.bufferLength) (hlen : r.pduLength = p.pduLength)
          (hheap : (r.heap 0).isSome) : r.HasRoom (r.pduLength + 1) := by
        unfold HasRoom
        rw [hbuffer, hcapacity, hlen]
        split_ifs with hbuf
        · exact Nat.not_le.mp fun hfull => hspace ⟨hbuf, hfull⟩
        · exact hheap
      obtain ⟨heap, hheap⟩ : ∃ heap : ℕ → Option Block, (heap 0).isSome :=
        ⟨fun _ => some ⟨0, fun _ => 0⟩, rfl⟩
      have hsound := hp.sound
      have hp' : { p with heap }.Sound := ⟨hsound.inside, hsound.buffer⟩
      have hq' : { q with heap }.Sound := by
        rw [hq]
        exact ⟨hsound.inside, hsound.buffer⟩
      have hmax : q.maxAddedOptionNumber = n := by rw [hq]
      have hbytes : { q with heap }.bytes = { p with heap }.bytes := by
        rw [hq]
        rfl
      rcases UInt16.lt_or_lt_of_ne (hmax ▸ hne : q.maxAddedOptionNumber ≠ p.maxAddedOptionNumber)
        with hlt | hlt
      · exact view_ne hq' hp' hlt hbytes (hroom _ rfl rfl rfl hheap) (htrace heap _)
      · refine view_ne hp' hq' hlt hbytes.symm (hroom _ ?_ ?_ ?_ hheap) (htrace heap _).symm
        · rw [hq]
        · rw [hq]
        · rw [hq]
  · cases hzero

/-- A buffer of 16 bytes with the empty option 1 in it. -/
def sixteen : Exec (CoapPDU × ℕ) := do
  let p ← ofBuffer 0 (List.replicate 16 0) 16 0
  p.addOption 1 []

theorem exists_sixteen : ∃ p : CoapPDU, p.Reached ∧ sixteen = .ok (p, 0) := by
  obtain ⟨p₀, h₀⟩ : ∃ p₀, ofBuffer 0 (List.replicate 16 0) 16 0 = .ok p₀ := ⟨_, rfl⟩
  obtain ⟨p, hp⟩ : ∃ p, p₀.addOption 1 [] = .ok (p, 0) := by
    cases h₀
    exact ⟨_, rfl⟩
  refine ⟨p, .addOption (.ofBuffer (by decide) (by decide) h₀) (by decide) hp, ?_⟩
  rw [sixteen, h₀, ok_bind, hp]

theorem leavesNoTrace_sixteen : ∃ p q : CoapPDU, sixteen = .ok (p, 0) ∧
    p.addOption 1 (List.replicate 20 0) = .ok (q, 1) ∧ p.LeavesNoTrace q := by
  obtain ⟨p, hreached, hp⟩ := exists_sixteen
  obtain ⟨q, hadd, hmax⟩ : ∃ q, p.addOption 1 (List.replicate 20 0) = .ok (q, 1) ∧
      1 = p.maxAddedOptionNumber := by
    cases hp
    exact ⟨_, rfl, rfl⟩
  exact ⟨p, q, hp, hadd, (leavesNoTrace_of_failed p q 1 _ hreached hadd).1 (.inr hmax)⟩

/-- A value of 20 bytes for option 100: an empty option 100 afterwards is written as one more
option 1. -/
theorem leaves_trace_sixteen : ∃ p q : CoapPDU, sixteen = .ok (p, 0) ∧ p.Reached ∧
    p.addOption 100 (List.replicate 20 0) = .ok (q, 1) ∧ ¬ p.LeavesNoTrace q := by
  obtain ⟨p, hreached, hp⟩ := exists_sixteen
  refine ⟨p, { p with maxAddedOptionNumber := 100 }, hp, hreached, ?_, fun htrace => ?_⟩
  · cases hp
    rfl
  · have hbytes := congrArg (fun r => r.toOption.map View.bytes)
      (htrace (fun _ => none) [⟨100, []⟩])
    cases hp
    exact absurd hbytes (by decide)

end Mbtk.Coap.CoapPDU
