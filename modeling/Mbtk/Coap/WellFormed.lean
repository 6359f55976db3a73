import Mbtk.Coap.InsertLaws

namespace Mbtk.Coap

open Lib Lib.ExtNat

namespace CoapPDU

/-- The bytes of the message in the PDU. -/
def bytes (p : CoapPDU) : List UInt8 := p.pdu.take p.pduLength

/-- The PDU holds the message made of the fixed header and token `hdr`, the options `opts`
and the payload `pay`. -/
structure Holds (p : CoapPDU) (hdr : List UInt8) (opts : List Opt) (pay : List UInt8) : Prop where
  parses : ∃ body, p.bytes = hdr ++ body ∧ ParsesOptions 0 body opts pay
  header : hdr.length = COAP_HDR_SIZE + (hdr.getD 0 0 &&& 0x0F).toNat
  short : ∀ o ∈ opts, o.value.length < 65536
  inside : p.pduLength ≤ p.pdu.length
  buffer : p.bufferLength ≤ p.pdu.length

/-- The bytes of a message. -/
def encodeMessage (hdr : List UInt8) (opts : List Opt) (pay : List UInt8) : List UInt8 :=
  hdr ++ (encodeOptions 0 opts ++ encodePayload pay)

section Holds

variable {p : CoapPDU} {hdr : List UInt8} {opts : List Opt} {pay : List UInt8}

theorem Holds.bytes_eq (h : p.Holds hdr opts pay) : p.bytes = encodeMessage hdr opts pay := by
  obtain ⟨body, hbytes, hbody⟩ := h.parses
  rw [hbytes, hbody.encode.1, encodeMessage]

theorem Holds.sorted (h : p.Holds hdr opts pay) : SortedFrom Opt.key 0 opts := by
  obtain ⟨body, -, hbody⟩ := h.parses
  exact hbody.encode.2.1

theorem Holds.pduLength_eq (h : p.Holds hdr opts pay) :
    p.pduLength = (encodeMessage hdr opts pay).length := by
  rw [← h.bytes_eq, bytes, List.length_take, Nat.min_eq_left h.inside]

theorem Holds.pdu_eq (h : p.Holds hdr opts pay) :
    p.pdu = encodeMessage hdr opts pay ++ p.pdu.drop p.pduLength := by
  rw [← h.bytes_eq, bytes, List.take_append_drop]

theorem Holds.of_encode {w : List UInt8} (hpdu : p.pdu = encodeMessage hdr opts pay ++ w)
    (hlen : p.pduLength = (encodeMessage hdr opts pay).length)
    (hhdr : hdr.length = COAP_HDR_SIZE + (hdr.getD 0 0 &&& 0x0F).toNat)
    (hs : SortedFrom Opt.key 0 opts) (hv : ∀ o ∈ opts, o.value.length < 65536)
    (hbuf : p.bufferLength ≤ p.pdu.length) : p.Holds hdr opts pay where
  parses := ⟨encodeOptions 0 opts ++ encodePayload pay, by
    rw [bytes, hpdu, hlen, List.take_left, encodeMessage],
    parsesOptions_encode pay hs fun o ho => (hv o ho).trans (by omega)⟩
  header := hhdr
  short := hv
  inside := by
    rw [hpdu, hlen, List.length_append]
    omega
  buffer := hbuf

theorem Holds.getTokenLength (h : p.Holds hdr opts pay) :
    COAP_HDR_SIZE + p.getTokenLength = hdr.length := by
  have hne : hdr ≠ [] := by
    intro h'
    have := h.header
    rw [h', List.length_nil, COAP_HDR_SIZE] at this
    omega
  obtain ⟨b, t, rfl⟩ := List.exists_cons_of_ne_nil hne
  have hread : p.read 0 = b := by
    rw [read, h.pdu_eq, encodeMessage]
    rfl
  rw [CoapPDU.getTokenLength, hread, h.header]
  rfl

theorem encodeMessage_inj {opts' : List Opt} {pay' : List UInt8} (hs : SortedFrom Opt.key 0 opts)
    (hs' : SortedFrom Opt.key 0 opts') (hv : ∀ o ∈ opts, o.value.length < 65536)
    (hv' : ∀ o ∈ opts', o.value.length < 65536)
    (heq : encodeMessage hdr opts pay = encodeMessage hdr opts' pay') :
    opts = opts' ∧ pay = pay' :=
  encode_inj hs hs' (fun o ho => (hv o ho).trans (by omega))
    (fun o ho => (hv' o ho).trans (by omega)) (List.append_cancel_left heq)

theorem length_encodeMessage :
    (encodeMessage hdr opts pay).length =
      hdr.length + ((encodeOptions 0 opts).length + (encodePayload pay).length) := by
  rw [encodeMessage, List.length_append, List.length_append]

theorem length_encodeOptions_pos {k : ℕ} (h : opts ≠ []) : 0 < (encodeOptions k opts).length := by
  have := length_le_encodeOptions k opts
  have := List.length_pos_iff.mpr h
  omega

theorem length_encodePayload_pos (h : pay ≠ []) : 0 < (encodePayload pay).length := by
  rw [encodePayload_of_ne_nil h]
  exact Nat.succ_pos _

theorem Holds.findInsertionPosition_end (h : p.Holds hdr opts pay) {n : UInt16}
    (hn : p.maxAddedOptionNumber ≤ n ∨ (opts = [] ∧ pay = [])) :
    p.findInsertionPosition n = (p.pduLength, p.maxAddedOptionNumber) := by
  unfold findInsertionPosition
  rw [h.getTokenLength, h.pduLength_eq, length_encodeMessage, if_pos]
  obtain hn | ⟨rfl, rfl⟩ := hn
  · exact .inl hn
  · exact .inr (by simp)

theorem Holds.findInsertionPosition_walk {A B : List Opt} (h : p.Holds hdr (A ++ B) pay)
    {n : UInt16} (hmax : n < p.maxAddedOptionNumber) (hne : A ++ B ≠ [] ∨ pay ≠ [])
    (hA : ∀ o ∈ A, o.number ≤ n) (hB : ∀ o ∈ B.head?, n < o.number) :
    p.findInsertionPosition n = ((hdr ++ encodeOptions 0 A).length, lastNumber A) := by
  have hlen := h.pduLength_eq
  rw [length_encodeMessage, encodeOptions_append, List.length_append] at hlen
  have hcond : ¬ (n ≥ p.maxAddedOptionNumber ∨
      p.pduLength = COAP_HDR_SIZE + p.getTokenLength) := by
    rintro (hge | heq)
    · exact absurd hmax (UInt16.not_lt.mpr hge)
    · rw [h.getTokenLength, h.pduLength_eq, length_encodeMessage] at heq
      obtain hne | hne := hne
      · have := length_encodeOptions_pos (k := 0) hne
        omega
      · have := length_encodePayload_pos hne
        omega
  have hpdu := h.pdu_eq
  rw [encodeMessage, encodeOptions_append, List.append_assoc, List.append_assoc,
    List.append_assoc] at hpdu
  have hA' := length_le_encodeOptions 0 A
  have hfuel : p.pduLength = (p.pduLength - A.length) + A.length := by omega
  have hs := (sortedFrom_append Opt.key 0 A B).mp h.sorted
  unfold findInsertionPosition
  rw [if_neg hcond, h.getTokenLength]
  rw [hfuel]
  have hwalk := findInsertionPositionLoop_options (p.pduLength - A.length) hpdu
    (by rw [List.length_append]; omega) hs.1 (fun o ho => h.short o (by simp [ho])) hA
  change p.findInsertionPositionLoop n _ hdr.length (UInt16.ofNat 0) (UInt16.ofNat 0) = _
  rw [hwalk]
  change _ = (_, UInt16.ofNat (lastKey Opt.key 0 A))
  cases B with
  | nil =>
    rw [encodeOptions_nil, List.length_nil] at hlen
    by_cases hp : pay = []
    · rw [hp, encodePayload_nil, List.length_nil] at hlen
      exact findInsertionPositionLoop_end (by rw [List.length_append]; omega) _ _ _ _
    · rw [encodeOptions_nil, List.nil_append, encodePayload_of_ne_nil hp] at hpdu
      refine findInsertionPositionLoop_marker ?_ _ _ _ _
      rw [eq_withPdu hpdu, ← List.append_assoc]
      exact read_head _ _ _ _
  | cons b B =>
    rw [encodeOptions_cons, List.length_append] at hlen
    have hpos := length_encodeRecord_pos (b.key - lastKey Opt.key 0 A, b.value)
    have hpdu' : p.pdu = (hdr ++ encodeOptions 0 A) ++
        (encodeRecord (b.key - lastKey Opt.key 0 A, b.value) ++
          (encodeOptions b.key B ++ (encodePayload pay ++ p.pdu.drop p.pduLength))) := by
      simpa only [encodeOptions_cons, List.append_assoc] using hpdu
    have hfuel' : p.pduLength - A.length = (p.pduLength - A.length - 1) + 1 := by omega
    rw [hfuel', findInsertionPositionLoop_record hpdu' (by rw [List.length_append]; omega)
      hs.2.1 (h.short b (by simp)), if_pos (hB b rfl)]

end Holds

/-- `q` is `p` with an option more, the message `bytes` and the highest number `max`. -/
def Grew (p q : CoapPDU) (bytes : List UInt8) (max : UInt16) : Prop :=
  ∃ w, q = { p.sized bytes.length (bytes ++ w) with
      numOptions := p.numOptions + 1, maxAddedOptionNumber := max } ∧
    p.capacity bytes.length ≤ (bytes ++ w).length

section Grew

variable {p q : CoapPDU} {bytes : List UInt8} {max : UInt16}

theorem Grew.bytes_eq (h : p.Grew q bytes max) : q.bytes = bytes := by
  obtain ⟨w, rfl, -⟩ := h
  exact List.take_left

theorem Grew.holds {hdr pay : List UInt8} {opts : List Opt}
    (h : p.Grew q (encodeMessage hdr opts pay) max)
    (hhdr : hdr.length = COAP_HDR_SIZE + (hdr.getD 0 0 &&& 0x0F).toNat)
    (hs : SortedFrom Opt.key 0 opts) (hv : ∀ o ∈ opts, o.value.length < 65536) :
    q.Holds hdr opts pay := by
  obtain ⟨w, rfl, hcap⟩ := h
  exact .of_encode (w := w) rfl rfl hhdr hs hv hcap

theorem Grew.numOptions (h : p.Grew q bytes max) : q.numOptions = p.numOptions + 1 := by
  obtain ⟨w, rfl, -⟩ := h
  rfl

theorem Grew.maxAddedOptionNumber (h : p.Grew q bytes max) : q.maxAddedOptionNumber = max := by
  obtain ⟨w, rfl, -⟩ := h
  rfl

theorem Grew.payloadLength (h : p.Grew q bytes max) : q.payloadLength = p.payloadLength := by
  obtain ⟨w, rfl, -⟩ := h
  rfl

theorem Grew.payloadPointer (h : p.Grew q bytes max) : q.payloadPointer = p.payloadPointer := by
  obtain ⟨w, rfl, -⟩ := h
  rfl

theorem Grew.addr (h : p.Grew q bytes max) : q.addr = p.nextAddr := by
  obtain ⟨w, rfl, -⟩ := h
  rfl

theorem Grew.heap (h : p.Grew q bytes max) : q.heap = p.nextHeap := by
  obtain ⟨w, rfl, -⟩ := h
  rfl

theorem Grew.bufferLength (h : p.Grew q bytes max) : q.bufferLength = p.capacity bytes.length := by
  obtain ⟨w, rfl, -⟩ := h
  rfl

theorem Grew.constructedFromBuffer (h : p.Grew q bytes max) :
    q.constructedFromBuffer = p.constructedFromBuffer := by
  obtain ⟨w, rfl, -⟩ := h
  rfl

end Grew

theorem appendOption_of_not_hasRoom {p : CoapPDU} {n δ : UInt16} {k : ℕ} {v : List UInt8}
    (h : ¬ p.HasRoom (p.pduLength + k)) : ∃ q, p.appendOption n δ k v = .ok (q, 1) := by
  have hroom := makeRoom_of_not_hasRoom (p := { p with maxAddedOptionNumber := n }) h
  unfold appendOption
  dsimp only
  generalize makeRoom _ (p.pduLength + k) = r at hroom ⊢
  obtain ⟨q, b⟩ := r
  dsimp only at hroom
  subst hroom
  exact ⟨q, rfl⟩

theorem getOptionDelta_marker (t : List UInt8) : getOptionDelta (0xFF :: t) = 15 := by
  have hnib : (((0xFF : UInt8) &&& 0xF0) >>> 4).toUInt16 = 15 := by decide
  simp only [getOptionDelta, List.getD_cons_zero, hnib]
  rw [if_neg (by decide), if_neg (by decide), if_neg (by decide)]

theorem spliceOption_of_not_hasRoom {p : CoapPDU} {n prev δ nn : UInt16} {pos k s : ℕ}
    {v : List UInt8}
    (hnn : nn = UInt16.ofInt
      (prev.toNat + (getOptionDelta (p.pdu.drop pos)).toNat - n.toNat))
    (hs : k + computeExtraBytes nn = s + computeExtraBytes (getOptionDelta (p.pdu.drop pos)))
    (h : ¬ p.HasRoom (p.pduLength + s)) : ∃ q, p.spliceOption pos n prev δ k v = .ok (q, 1) := by
  have hroom := makeRoom_of_not_hasRoom h
  have hadj : ((p.pduLength : ℤ) + (k + ((computeExtraBytes nn : ℤ) -
      computeExtraBytes (getOptionDelta (p.pdu.drop pos))))).toNat = p.pduLength + s := by omega
  unfold spliceOption
  dsimp only
  rw [← hnn, hadj]
  generalize p.makeRoom (p.pduLength + s) = r at hroom ⊢
  obtain ⟨q, b⟩ := r
  dsimp only at hroom
  subst hroom
  exact ⟨q, rfl⟩

section Add

variable {p : CoapPDU} {hdr : List UInt8} {opts : List Opt} {pay v : List UInt8} {n : UInt16}

theorem Holds.addOption_end (h : p.Holds hdr opts pay) (hv : v.length ≤ 268) {prev : UInt16}
    (hpos : p.findInsertionPosition n = (p.pduLength, prev)) :
    if p.HasRoom (encodeMessage hdr opts pay ++ encodeRecord ((n - prev).toNat, v)).length then
      ∃ q, p.addOption n v = .ok (q, 0) ∧
        p.Grew q (encodeMessage hdr opts pay ++ encodeRecord ((n - prev).toNat, v)) n
    else ∃ q, p.addOption n v = .ok (q, 1) := by
  have hlen : (encodeMessage hdr opts pay ++ encodeRecord ((n - prev).toNat, v)).length =
      p.pduLength + (encodeRecord ((n - prev).toNat, v)).length := by
    rw [List.length_append, h.pduLength_eq]
  rw [addOption_of_end hv hpos]
  split_ifs with hroom
  · rw [hlen] at hroom
    obtain ⟨w, hadd, hcap⟩ := appendOption_eq h.pdu_eq h.pduLength_eq h.buffer hv hroom (n := n)
    rw [← hlen, ← List.append_assoc] at hadd hcap
    exact ⟨_, hadd, w, rfl, hcap⟩
  · rw [hlen] at hroom
    exact appendOption_of_not_hasRoom hroom

theorem Holds.addOption_inner {A B : List Opt} {b : Opt} (h : p.Holds hdr (A ++ b :: B) pay)
    (hv : v.length ≤ 268) (hmax : n < p.maxAddedOptionNumber) (hA : ∀ o ∈ A, o.number ≤ n)
    (hb : n < b.number)
    (hroom : p.HasRoom (encodeMessage hdr (A ++ ⟨n, v⟩ :: b :: B) pay).length) :
    ∃ q, p.addOption n v = .ok (q, 0) ∧
      p.Grew q (encodeMessage hdr (A ++ ⟨n, v⟩ :: b :: B) pay) p.maxAddedOptionNumber := by
  have hpos := h.findInsertionPosition_walk hmax (.inl (by simp)) hA
    (by simpa using hb)
  have hkn : lastKey Opt.key 0 A ≤ n.toNat :=
    lastKey_le Opt.key (Nat.zero_le _) fun o ho => UInt16.le_iff_toNat_le.mp (hA o ho)
  have hnb : n.toNat < b.key := UInt16.lt_iff_toNat_lt.mp hb
  have hblt : b.key < 65536 := b.number.toNat_lt
  have hδ : (n - lastNumber A).toNat = n.toNat - lastKey Opt.key 0 A := by
    rw [UInt16.toNat_sub_of_le _ _ (UInt16.le_iff_toNat_le.mpr (by rwa [toNat_lastNumber])),
      toNat_lastNumber]
  have hne : (hdr ++ encodeOptions 0 A).length ≠ p.pduLength := by
    have := length_encodeOptions_pos (k := lastKey Opt.key 0 A) (show b :: B ≠ [] by simp)
    rw [h.pduLength_eq, length_encodeMessage, encodeOptions_append, List.length_append,
      List.length_append]
    omega
  rw [addOption_of_inner hv hpos hne]
  have hΔ : (lastNumber A).toNat + (b.key - lastKey Opt.key 0 A) = b.key := by
    rw [toNat_lastNumber]
    omega
  have hmsg : encodeMessage hdr (A ++ b :: B) pay = (hdr ++ encodeOptions 0 A) ++
      (encodeRecord (b.key - lastKey Opt.key 0 A, b.value) ++
        (encodeOptions b.key B ++ encodePayload pay)) := by
    simp only [encodeMessage, encodeOptions_append, encodeOptions_cons, List.append_assoc]
  have hmsg' : encodeMessage hdr (A ++ ⟨n, v⟩ :: b :: B) pay = (hdr ++ encodeOptions 0 A) ++
      (encodeRecord ((n - lastNumber A).toNat, v) ++ (encodeRecord (b.key - n.toNat, b.value) ++
        (encodeOptions b.key B ++ encodePayload pay))) := by
    rw [encodeMessage, encodeOptions_append, encodeOptions_cons, encodeOptions_cons, hδ]
    simp only [List.append_assoc]
  have hpdu := h.pdu_eq
  have hlen := h.pduLength_eq
  rw [hmsg] at hpdu hlen
  rw [hmsg'] at hroom ⊢
  obtain ⟨w, hadd, hcap⟩ := spliceOption_record hpdu hlen h.buffer hv
    (show lastNumber A ≤ n from UInt16.le_iff_toNat_le.mpr (by rwa [toNat_lastNumber]))
    (by rwa [hΔ]) (by omega)
    (by rwa [hΔ])
  rw [hΔ] at hadd hcap
  exact ⟨_, hadd, w, rfl, hcap⟩

/-- Without an option beyond `n`, the payload marker is taken for the header of an option:
its lower nibble stays and its upper one becomes that of a number. -/
theorem Holds.addOption_marker (h : p.Holds hdr opts pay) (hv : v.length ≤ 268) (hpay : pay ≠ [])
    (hmax : n < p.maxAddedOptionNumber) (hA : ∀ o ∈ opts, o.number ≤ n) :
    (∃ q, p.addOption n v = .ok (q, 1)) ∨
      ∃ q d t, p.addOption n v = .ok (q, 0) ∧
        p.Grew q (hdr ++ (encodeOptions 0 opts ++ (encodeRecord ((n - lastNumber opts).toNat, v) ++
          byteOf (nibble d) 15 :: t))) p.maxAddedOptionNumber := by
  have hpos :=
    (show p.Holds hdr (opts ++ []) pay by rwa [List.append_nil]).findInsertionPosition_walk
    hmax (.inr hpay) hA (by simp)
  have hne : (hdr ++ encodeOptions 0 opts).length ≠ p.pduLength := by
    have := length_encodePayload_pos hpay
    rw [h.pduLength_eq, length_encodeMessage, List.length_append]
    omega
  rw [addOption_of_inner hv hpos hne]
  obtain ⟨c, tail, rfl⟩ := List.exists_cons_of_ne_nil hpay
  have hmsg : encodeMessage hdr opts (c :: tail) =
      (hdr ++ encodeOptions 0 opts) ++ (0xFF :: ([c] ++ tail)) := by
    simp [encodeMessage, encodePayload]
  have hpdu := h.pdu_eq
  have hlen := h.pduLength_eq
  rw [hmsg] at hpdu hlen
  obtain ⟨nn, hnn⟩ : ∃ nn, nn = UInt16.ofInt ((lastNumber opts).toNat + (getOptionDelta
      (0xFF :: ([c] ++ tail) ++ p.pdu.drop p.pduLength)).toNat - n.toNat) := ⟨_, rfl⟩
  obtain ⟨s, hs⟩ : ∃ s, (encodeRecord ((n - lastNumber opts).toNat, v)).length +
      (extension nn.toNat).length = s + [c].length := by
    refine ⟨_, (Nat.sub_add_cancel ?_).symm⟩
    have := length_encodeRecord_pos ((n - lastNumber opts).toNat, v)
    rw [List.length_singleton]
    omega
  have he : [c].length = computeExtraBytes
      (getOptionDelta (0xFF :: ([c] ++ tail) ++ p.pdu.drop p.pduLength)) := by
    rw [List.cons_append, getOptionDelta_marker]
    rfl
  have htotal : (hdr ++ (encodeOptions 0 opts ++
      (encodeRecord ((n - lastNumber opts).toNat, v) ++
        byteOf (nibble nn.toNat) 15 :: (extension nn.toNat ++ tail)))).length =
      p.pduLength + s := by
    rw [hlen]
    simp only [List.length_append, List.length_cons] at hs ⊢
    omega
  by_cases hroom : p.HasRoom (p.pduLength + s)
  · obtain ⟨w, hadd, hcap⟩ := spliceOption_eq hpdu
      (by rw [hlen]; simp only [List.length_append, List.length_cons]; omega) h.buffer he hnn hv hs
      hroom
    refine .inr ⟨_, nn.toNat, extension nn.toNat ++ tail, hadd, w, ?_, ?_⟩
    · rw [htotal]
      simp only [List.append_assoc, List.cons_append]
      rfl
    · rw [htotal]
      refine hcap.trans (le_of_eq ?_)
      simp only [List.length_append, List.length_cons]
      omega
  · have hnn' : nn = UInt16.ofInt ((lastNumber opts).toNat + (getOptionDelta
        (p.pdu.drop (hdr ++ encodeOptions 0 opts).length)).toNat - n.toNat) := by
      rw [hpdu, List.append_assoc, List.drop_left, hnn]
    refine .inl (spliceOption_of_not_hasRoom hnn' ?_ hroom)
    rw [hpdu, List.append_assoc, List.drop_left, ← he, computeExtraBytes_eq nn, hs]

end Add

end CoapPDU

end Mbtk.Coap
