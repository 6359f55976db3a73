import Mbtk.Coap.AddOption
import Mbtk.Coap.Build

namespace Mbtk.Coap

open Lib Lib.ExtNat

def uriPairsLoop : ℕ → List UInt8 → UInt8 → UInt16 → List Opt
  | 0, _, _, _ => []
  | fuel + 1, startP, splitChar, optionType =>
    if startP.length ≤ 1 then []
    else
      let (segment, rest, queryStageTriggered) := nextSegment startP splitChar
      ⟨optionType, segment⟩ ::
        if queryStageTriggered then uriPairsLoop fuel rest 0x26 COAP_OPTION_URI_QUERY
        else uriPairsLoop fuel rest splitChar optionType

def uriPairs (uri : List UInt8) : List Opt :=
  match uri with
  | [] => []
  | [c] => [⟨COAP_OPTION_URI_PATH, [c]⟩]
  | uri => uriPairsLoop uri.length uri 0x2F COAP_OPTION_URI_PATH

/-- The options with each of the pairs put in its place, one after the other. -/
def insertAll (pairs opts : List Opt) : List Opt :=
  pairs.foldl (fun opts o => insertAfter Opt.key o opts) opts

theorem nextSegment_le (startP : List UInt8) (splitChar : UInt8) :
    (nextSegment startP splitChar).1.length ≤ startP.length ∧
      (nextSegment startP splitChar).2.1.length ≤ startP.length := by
  have htail : (if startP.head? = some splitChar then startP.tail else startP).length ≤
      startP.length := by
    split_ifs
    · rw [List.length_tail]
      omega
    · exact le_rfl
  unfold nextSegment
  dsimp only
  generalize (if startP.head? = some splitChar then startP.tail else startP) = s at htail
  cases strchr s splitChar with
  | some i =>
    simp only [List.length_take, List.length_drop]
    omega
  | none => cases strchr s 0x3F with
    | some i =>
      simp only [List.length_take, List.length_drop]
      omega
    | none => exact ⟨htail, Nat.zero_le _⟩

section Turn

variable {c : UInt8} {s t startP : List UInt8}

theorem strchr_append (h : c ∉ s) : strchr (s ++ c :: t) c = some s.length := by
  rw [strchr, if_pos (by simp), List.idxOf_append_of_notMem h, List.idxOf_cons_self, Nat.add_zero]

theorem nextSegment_cut
    (hstrip : (if startP.head? = some c then startP.tail else startP) = s ++ c :: t) (h : c ∉ s) :
    nextSegment startP c = (s, c :: t, false) := by
  unfold nextSegment
  rw [hstrip]
  dsimp only
  rw [strchr_append h]
  dsimp only
  rw [List.take_left, List.drop_left]

theorem nextSegment_query
    (hstrip : (if startP.head? = some c then startP.tail else startP) = s ++ 0x3F :: t)
    (hc : c ∉ s ++ 0x3F :: t) (h : 0x3F ∉ s) : nextSegment startP c = (s, t, true) := by
  have hnone : strchr (s ++ 0x3F :: t) c = none := if_neg hc
  unfold nextSegment
  rw [hstrip]
  dsimp only
  rw [hnone, strchr_append h]
  dsimp only
  rw [List.take_left, ← List.drop_drop, List.drop_left, List.drop_one, List.tail_cons]

theorem nextSegment_end
    (hstrip : (if startP.head? = some c then startP.tail else startP) = s) (hc : c ∉ s)
    (h : 0x3F ∉ s) : nextSegment startP c = (s, [], false) := by
  have hnone : strchr s c = none := if_neg hc
  have hnone' : strchr s 0x3F = none := if_neg h
  unfold nextSegment
  rw [hstrip]
  dsimp only
  rw [hnone, hnone']

end Turn

theorem uriPairsLoop_short (fuel : ℕ) (startP : List UInt8) (splitChar : UInt8)
    (optionType : UInt16) :
    ∀ o ∈ uriPairsLoop fuel startP splitChar optionType, o.value.length ≤ startP.length := by
  induction fuel generalizing startP splitChar optionType with
  | zero => simp [uriPairsLoop]
  | succ fuel ih =>
    obtain ⟨hseg, hrest⟩ := nextSegment_le startP splitChar
    intro o ho
    unfold uriPairsLoop at ho
    split_ifs at ho with hshort
    · simp at ho
    · generalize nextSegment startP splitChar = r at hseg hrest ho
      obtain ⟨segment, rest, query⟩ := r
      dsimp only at hseg hrest ho
      obtain rfl | ho := List.mem_cons.mp ho
      · exact hseg
      · split_ifs at ho with hquery
        · exact (ih rest _ _ o ho).trans hrest
        · exact (ih rest _ _ o ho).trans hrest

theorem uriPairs_short (uri : List UInt8) : ∀ o ∈ uriPairs uri, o.value.length ≤ uri.length := by
  match uri with
  | [] => simp [uriPairs]
  | [c] => simp [uriPairs]
  | c :: c' :: uri => exact uriPairsLoop_short _ _ _ _

namespace CoapPDU

/-- A dynamic PDU whose memory can be reset and whose coming allocations succeed. -/
structure Idle (p : CoapPDU) : Prop where
  dynamic : p.constructedFromBuffer = false
  header : COAP_HDR_SIZE ≤ p.bufferLength
  buffer : p.bufferLength ≤ p.pdu.length
  heap : ∀ i, (p.heap i).isSome

/-- A dynamic PDU that so far holds the header and token `hdr` and the options `opts`, and
whose coming allocations succeed. -/
structure Building (p : CoapPDU) (hdr : List UInt8) (opts : List Opt) : Prop extends Idle p where
  holds : p.Holds hdr opts []
  maxAdded : p.maxAddedOptionNumber = lastNumber opts
  numOptions : p.numOptions = opts.length
  payloadPointer : p.payloadPointer = none
  payloadLength : p.payloadLength = 0

section

variable {p : CoapPDU} {hdr : List UInt8} {opts : List Opt}

theorem Idle.hasRoom (h : p.Idle) (n : ℕ) : p.HasRoom n := by
  rw [HasRoom, h.dynamic]
  exact h.heap 0

theorem lastNumber_insertOpt_end {n : UInt16} {v : List UInt8} (h : ∀ o ∈ opts, o.number ≤ n) :
    lastNumber (insertOpt n v opts) = n := by
  rw [insertOpt_end h, lastNumber, lastKey_append]
  exact UInt16.ofNat_toNat

theorem Holds.addOption_lastNumber (h : p.Holds hdr opts [])
    (hmax : p.maxAddedOptionNumber = lastNumber opts) {n : UInt16} {v : List UInt8}
    (hv : v.length ≤ 268)
    (hroom : p.HasRoom (encodeMessage hdr (insertOpt n v opts) []).length) :
    ∃ q, p.addOption n v = .ok (q, 0) ∧
      p.Grew q (encodeMessage hdr (insertOpt n v opts) []) (lastNumber (insertOpt n v opts)) := by
  by_cases hle : lastNumber opts ≤ n
  · have hall : ∀ o ∈ opts, o.number ≤ n :=
      fun o ho => UInt16.le_trans (number_le_lastNumber h.sorted o ho) hle
    have hpos := h.findInsertionPosition_end (n := n) (.inl (by rwa [hmax]))
    rw [hmax] at hpos
    rw [lastNumber_insertOpt_end hall]
    exact h.addOption_last hv hpos hall hroom
  · have hlt := UInt16.not_le.mp hle
    obtain ⟨A, B, rfl, hA, hB⟩ := exists_split h.sorted n
    cases B with
    | nil =>
      rw [List.append_nil] at hlt
      exact absurd hlt (UInt16.not_lt.mpr (lastNumber_le hA))
    | cons b B =>
      have hb : n < b.number := hB b (by simp)
      have hins := insertOpt_append (v := v) hA (B := b :: B) (by simpa using hb)
      have hlast : lastNumber (A ++ ⟨n, v⟩ :: b :: B) = lastNumber (A ++ b :: B) := by
        rw [lastNumber, lastNumber, lastKey_append, lastKey_append]
        rfl
      rw [hins] at hroom ⊢
      rw [hlast, ← hmax]
      exact h.addOption_inner hv (by rwa [hmax]) hA hb hroom

theorem Building.addOption (h : p.Building hdr opts) (n : UInt16) {v : List UInt8}
    (hv : v.length ≤ 268) :
    ∃ q, p.addOption n v = .ok (q, 0) ∧ q.Building hdr (insertOpt n v opts) := by
  obtain ⟨q, hadd, hg⟩ := h.holds.addOption_lastNumber h.maxAdded hv (h.toIdle.hasRoom _)
  have hholds := hg.holds h.holds.header (sortedFrom_insertOpt n v h.holds.sorted)
    (short_insertOpt h.holds.short hv)
  refine ⟨q, hadd, ⟨?_, ?_, hholds.buffer, fun i => ?_⟩, hholds, ?_, ?_, ?_, ?_⟩
  · rw [hg.constructedFromBuffer, h.dynamic]
  · have := h.holds.header
    rw [hg.bufferLength, capacity, h.dynamic, if_neg (by simp), length_encodeMessage]
    omega
  · rw [hg.heap, nextHeap, h.dynamic]
    exact h.heap (i + 1)
  · rw [hg.maxAddedOptionNumber]
  · rw [hg.numOptions, h.numOptions, length_insertAfter]
  · rw [hg.payloadPointer, h.payloadPointer]
  · rw [hg.payloadLength, h.payloadLength]

def addAll (p : CoapPDU) (pairs : List Opt) : Exec CoapPDU :=
  pairs.foldlM (fun p o => do return (← p.addOption o.number o.value).1) p

theorem addAll_cons {o : Opt} {pairs : List Opt} {q : CoapPDU} {r : ℕ}
    (hadd : p.addOption o.number o.value = .ok (q, r)) :
    p.addAll (o :: pairs) = q.addAll pairs := by
  rw [addAll, List.foldlM_cons, hadd]
  rfl

theorem addAll_singleton (p : CoapPDU) (o : Opt) :
    p.addAll [o] = do return (← p.addOption o.number o.value).1 := by
  simp [addAll]

/-- The pairs are added one after the other, up to the first that fails. -/
def addUntil (p : CoapPDU) : List Opt → Exec (CoapPDU × ℕ)
  | [] => .ok (p, 0)
  | o :: pairs => do
    let (p, failed) ← p.addOption o.number o.value
    if failed ≠ 0 then return (p, 1) else p.addUntil pairs

theorem setURILoop_eq_addUntil (p : CoapPDU) (fuel : ℕ) (startP : List UInt8) (splitChar : UInt8)
    (optionType : UInt16) :
    p.setURILoop fuel startP splitChar optionType =
      p.addUntil (uriPairsLoop fuel startP splitChar optionType) := by
  induction fuel generalizing p startP splitChar optionType with
  | zero => rfl
  | succ fuel ih =>
    unfold setURILoop uriPairsLoop
    split_ifs with hshort
    · rfl
    · obtain ⟨segment, rest, query⟩ := nextSegment startP splitChar
      dsimp only
      rw [addUntil]
      congr 1
      funext ⟨q, failed⟩
      cases query with
      | true => simp only [if_true, ih]
      | false => simp only [Bool.false_eq_true, if_false, ih]

theorem uriPairs_of_two_le {uri : List UInt8} (h : 2 ≤ uri.length) :
    uriPairs uri = uriPairsLoop uri.length uri 0x2F COAP_OPTION_URI_PATH := by
  obtain _ | ⟨c, _ | ⟨c', uri⟩⟩ := uri
  · simp at h
  · simp at h
  · rfl

theorem setURI_eq_addUntil (p : CoapPDU) {uri : List UInt8} (h : 2 ≤ uri.length) :
    p.setURI uri = p.addUntil (uriPairs uri) := by
  rw [uriPairs_of_two_le h, ← setURILoop_eq_addUntil]
  obtain _ | ⟨c, _ | ⟨c', uri⟩⟩ := uri
  · simp at h
  · simp at h
  · rfl

theorem addAll_of_addUntil {pairs : List Opt} {q : CoapPDU} (h : p.addUntil pairs = .ok (q, 0)) :
    p.addAll pairs = .ok q := by
  induction pairs generalizing p with
  | nil =>
    obtain ⟨rfl, -⟩ := Prod.mk.inj (Except.ok.inj h)
    rfl
  | cons o pairs ih =>
    obtain ⟨⟨r, failed⟩, hadd, hrest⟩ := bind_eq_ok.mp h
    dsimp only at hrest
    split_ifs at hrest with hfailed
    · cases hrest
    · rw [addAll_cons hadd]
      exact ih hrest

theorem Building.addUntil (h : p.Building hdr opts) {pairs : List Opt}
    (hv : ∀ o ∈ pairs, o.value.length ≤ 268) :
    ∃ q, p.addUntil pairs = .ok (q, 0) ∧ q.Building hdr (insertAll pairs opts) := by
  induction pairs generalizing p opts with
  | nil => exact ⟨p, rfl, h⟩
  | cons o pairs ih =>
    obtain ⟨q, hadd, hq⟩ := h.addOption o.number (hv o (by simp))
    obtain ⟨r, huntil, hr⟩ := ih hq fun o ho => hv o (by simp [ho])
    refine ⟨r, ?_, hr⟩
    rw [CoapPDU.addUntil, hadd]
    exact huntil

theorem Building.addAll (h : p.Building hdr opts) {pairs : List Opt}
    (hv : ∀ o ∈ pairs, o.value.length ≤ 268) :
    ∃ q, p.addAll pairs = .ok q ∧ q.Building hdr (insertAll pairs opts) := by
  obtain ⟨q, huntil, hq⟩ := h.addUntil hv
  exact ⟨q, addAll_of_addUntil huntil, hq⟩

theorem Building.setURI (h : p.Building hdr opts) {uri : List UInt8} (hlen : uri.length ≤ 268) :
    ∃ q r, p.addAll (uriPairs uri) = .ok q ∧ p.setURI uri = .ok (q, r) := by
  obtain _ | ⟨c, _ | ⟨c', uri⟩⟩ := uri
  · exact ⟨p, 1, rfl, rfl⟩
  · obtain ⟨q, hadd, -⟩ := h.addOption COAP_OPTION_URI_PATH (v := [c]) (by simp)
    refine ⟨q, 0, ?_, ?_⟩
    · rw [uriPairs, addAll_cons hadd]
      rfl
    · rw [CoapPDU.setURI, hadd]
      rfl
  · obtain ⟨q, huntil, -⟩ := h.addUntil fun o ho => (uriPairs_short _ o ho).trans hlen
    refine ⟨q, 0, addAll_of_addUntil huntil, ?_⟩
    rwa [setURI_eq_addUntil p (by simp)]

end

end CoapPDU

end Mbtk.Coap
