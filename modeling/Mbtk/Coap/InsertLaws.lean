import Mbtk.Coap.OptionLaws

namespace Mbtk.Coap

open Lib Lib.ExtNat

namespace CoapPDU

/-- The overlapping copy, from the end down: `m` lands behind the `s` bytes after it and
the gap keeps what it held. -/
theorem shiftPDUUpLoop_eq (p : CoapPDU) (a m w z : List UInt8) :
    shiftPDUUpLoop m.length ((a.length + m.length + w.length : ℤ) - 1)
        ((a.length + m.length : ℤ) - 1) (p.withPdu (a ++ (m ++ (w ++ z)))) =
      .ok (p.withPdu (a ++ ((m ++ w).take w.length ++ (m ++ z)))) := by
  induction m using List.reverseRecOn generalizing w z with
  | nil => simp [shiftPDUUpLoop]
  | append_singleton m b ih =>
    have hread : (p.withPdu (a ++ (m ++ [b] ++ (w ++ z)))).read (a.length + m.length) = b := by
      simpa using read_head p (a ++ m) (w ++ z) b
    have hne : b :: w ≠ [] := by simp
    have hwrite : (p.withPdu (a ++ (m ++ [b] ++ (w ++ z)))).write
        (a.length + m.length + w.length) b =
        .ok (p.withPdu (a ++ (m ++ ((b :: w).dropLast ++ b :: z)))) := by
      have := write_head p (a ++ m ++ (b :: w).dropLast) z ((b :: w).getLast hne) b
      have hlast : (b :: w).dropLast ++ (b :: w).getLast hne :: z = b :: (w ++ z) := by
        rw [List.append_cons, List.dropLast_append_getLast, List.cons_append]
      simp only [List.append_assoc, hlast, List.length_append, List.length_dropLast,
        List.length_cons, Nat.add_sub_cancel] at this
      simpa [Nat.add_assoc] using this
    have hdest : (a.length + (m ++ [b]).length + w.length : ℤ) - 1 =
        ((a.length + m.length + w.length : ℕ) : ℤ) := by
      simp only [List.length_append, List.length_cons, List.length_nil]
      omega
    have hsrc : (a.length + (m ++ [b]).length : ℤ) - 1 = ((a.length + m.length : ℕ) : ℤ) := by
      simp only [List.length_append, List.length_cons, List.length_nil]
      omega
    have hlen : ((b :: w).dropLast).length = w.length := by simp
    have hih := ih (b :: w).dropLast (b :: z)
    rw [hlen] at hih
    rw [hdest, hsrc, List.length_append, List.length_singleton, shiftPDUUpLoop,
      if_pos ⟨by omega, by omega⟩, Int.toNat_natCast, Int.toNat_natCast, hread, hwrite, ok_bind]
    push_cast
    rw [hih]
    congr 4
    · rw [List.append_assoc, List.singleton_append, List.take_append, List.take_append,
        List.dropLast_eq_take, List.take_take, List.length_cons, Nat.add_sub_cancel,
        Nat.min_eq_left (by omega)]
    · simp

theorem shiftPDUUp_eq (p : CoapPDU) (a m w z : List UInt8)
    (hlen : p.pduLength = a.length + m.length + w.length) :
    (p.withPdu (a ++ (m ++ (w ++ z)))).shiftPDUUp w.length m.length =
      .ok (p.withPdu (a ++ ((m ++ w).take w.length ++ (m ++ z)))) := by
  have hdest : (p.pduLength : ℤ) - 1 = (a.length + m.length + w.length : ℤ) - 1 := by
    rw [hlen]
    push_cast
    rfl
  have hsrc : (a.length + m.length + w.length : ℤ) - 1 - w.length =
      (a.length + m.length : ℤ) - 1 := by omega
  rw [shiftPDUUp, pduLength_withPdu, hdest, hsrc, if_neg (by omega), Int.toNat_natCast]
  exact shiftPDUUpLoop_eq p a m w z

end CoapPDU

section Record

variable {Δ : ℕ} {v : List UInt8} (t : List UInt8)

theorem getOptionDelta_encodeRecord (hΔ : Δ < 65536 + 269) :
    getOptionDelta (encodeRecord (Δ, v) ++ t) = UInt16.ofNat Δ := by
  have hl : nibble v.length < 16 := by
    have := nibble_le v.length
    omega
  simpa [encodeRecord] using
    getOptionDelta_header (reads_extension hΔ) hl (extension v.length ++ v ++ t)

theorem getOptionValueLength_encodeRecord (hΔ : Δ < 65536 + 269) (hv : v.length < 65536 + 269) :
    getOptionValueLength (encodeRecord (Δ, v) ++ t) = UInt16.ofNat v.length := by
  simpa [encodeRecord] using
    getOptionValueLength_header (reads_extension hΔ) (reads_extension hv) (v ++ t)

theorem length_encodeRecord_eq (hΔ : Δ < 65536) (hv : v.length < 65536) :
    (encodeRecord (Δ, v)).length = computeExtraBytes (UInt16.ofNat Δ) +
      computeExtraBytes (UInt16.ofNat v.length) + v.length + 1 := by
  rw [length_encodeRecord, computeExtraBytes_eq, computeExtraBytes_eq, UInt16.toNat_ofNat',
    UInt16.toNat_ofNat', Nat.mod_eq_of_lt hΔ, Nat.mod_eq_of_lt hv]
  dsimp only
  omega

theorem head_encodeRecord_ne : (encodeRecord (Δ, v) ++ t).getD 0 0 ≠ 0xFF :=
  byteOf_nibble_ne Δ v.length

end Record

/-- The number reached behind `opts`, as the 16-bit variable that holds it. -/
def lastNumber (opts : List Opt) : UInt16 := UInt16.ofNat (lastKey Opt.key 0 opts)

theorem lastKey_lt {k : ℕ} (hk : k < 65536) (opts : List Opt) : lastKey Opt.key k opts < 65536 := by
  have := lastKey_le Opt.key (n := 65535) (l := opts) (Nat.le_of_lt_succ hk)
    fun o _ => Nat.le_of_lt_succ o.number.toNat_lt
  omega

theorem toNat_lastNumber (opts : List Opt) :
    (lastNumber opts).toNat = lastKey Opt.key 0 opts := by
  rw [lastNumber, UInt16.toNat_ofNat', Nat.mod_eq_of_lt (lastKey_lt (by omega) opts)]

theorem ofNat_add_sub {k n : ℕ} (h : k ≤ n) :
    UInt16.ofNat k + UInt16.ofNat (n - k) = UInt16.ofNat n := by
  rw [← UInt16.ofNat_add, Nat.add_sub_cancel' h]

namespace CoapPDU

theorem findInsertionPositionLoop_record {p : CoapPDU} {pre t : List UInt8} {k : ℕ} {o : Opt}
    (hp : p.pdu = pre ++ (encodeRecord (o.key - k, o.value) ++ t))
    (hlen : pre.length < p.pduLength) (hk : k ≤ o.key) (hv : o.value.length < 65536)
    (n : UInt16) (fuel : ℕ) (prev : UInt16) :
    p.findInsertionPositionLoop n (fuel + 1) pre.length (UInt16.ofNat k) prev =
      if n < o.number then (pre.length, prev)
      else p.findInsertionPositionLoop n fuel
        (pre ++ encodeRecord (o.key - k, o.value)).length o.number o.number := by
  have hΔ : o.key - k < 65536 := by
    have := o.number.toNat_lt
    simp only [Opt.key]
    omega
  have hhead : p.read pre.length ≠ 0xFF := by
    rw [eq_withPdu hp]
    have := read_append p pre (encodeRecord (o.key - k, o.value) ++ t) 0
    rw [Nat.add_zero] at this
    rw [this]
    exact head_encodeRecord_ne t
  have hdrop : p.pdu.drop pre.length = encodeRecord (o.key - k, o.value) ++ t := by
    rw [hp, List.drop_left]
  have hnum : UInt16.ofNat k + UInt16.ofNat (o.key - k) = o.number := by
    rw [ofNat_add_sub hk, Opt.key, UInt16.ofNat_toNat]
  have hadv : pre.length + computeExtraBytes (UInt16.ofNat (o.key - k)) +
      computeExtraBytes (UInt16.ofNat o.value.length) + (UInt16.ofNat o.value.length).toNat + 1 =
      (pre ++ encodeRecord (o.key - k, o.value)).length := by
    rw [List.length_append, length_encodeRecord_eq hΔ hv, UInt16.toNat_ofNat',
      Nat.mod_eq_of_lt hv]
    omega
  rw [findInsertionPositionLoop, if_pos ⟨hlen, hhead⟩, hdrop,
    getOptionDelta_encodeRecord t (by omega),
    getOptionValueLength_encodeRecord t (by omega) (by omega)]
  dsimp only
  rw [hnum, hadv]

theorem findInsertionPositionLoop_options {p : CoapPDU} {pre t : List UInt8} {k : ℕ}
    {A : List Opt} {n : UInt16} (fuel : ℕ) (hp : p.pdu = pre ++ (encodeOptions k A ++ t))
    (hlen : (pre ++ encodeOptions k A).length ≤ p.pduLength) (hs : SortedFrom Opt.key k A)
    (hv : ∀ o ∈ A, o.value.length < 65536) (hA : ∀ o ∈ A, o.number ≤ n) :
    p.findInsertionPositionLoop n (fuel + A.length) pre.length (UInt16.ofNat k)
        (UInt16.ofNat k) =
      p.findInsertionPositionLoop n fuel (pre ++ encodeOptions k A).length
        (UInt16.ofNat (lastKey Opt.key k A)) (UInt16.ofNat (lastKey Opt.key k A)) := by
  induction A generalizing pre k fuel with
  | nil => simp
  | cons o A ih =>
    rw [encodeOptions_cons] at hp hlen ⊢
    simp only [List.length_append] at hlen
    have hpos := length_encodeRecord_pos (o.key - k, o.value)
    have hn : ¬ n < o.number := UInt16.not_lt.mpr (hA o (by simp))
    have hp' : p.pdu = (pre ++ encodeRecord (o.key - k, o.value)) ++
        (encodeOptions o.key A ++ t) := by simpa using hp
    have hstep := findInsertionPositionLoop_record (t := encodeOptions o.key A ++ t)
      (by simpa using hp) (by omega) hs.1 (hv o (by simp)) n (fuel + A.length) (UInt16.ofNat k)
    have hrest := ih fuel hp' (by simp only [List.length_append]; omega) hs.2
      (fun o ho => hv o (by simp [ho])) (fun o ho => hA o (by simp [ho]))
    rw [Opt.key, UInt16.ofNat_toNat] at hrest
    rw [List.length_cons, ← Nat.add_assoc, hstep, if_neg hn, hrest, lastKey_cons, List.append_assoc]

theorem findInsertionPositionLoop_end {p : CoapPDU} {pos : ℕ} (h : pos = p.pduLength)
    (n : UInt16) (fuel : ℕ) (k prev : UInt16) :
    p.findInsertionPositionLoop n fuel pos k prev = (pos, prev) := by
  cases fuel with
  | zero => rfl
  | succ fuel =>
    rw [findInsertionPositionLoop, if_neg]
    omega

theorem findInsertionPositionLoop_marker {p : CoapPDU} {pos : ℕ} (h : p.read pos = 0xFF)
    (n : UInt16) (fuel : ℕ) (k prev : UInt16) :
    p.findInsertionPositionLoop n fuel pos k prev = (pos, prev) := by
  cases fuel with
  | zero => rfl
  | succ fuel =>
    rw [findInsertionPositionLoop, if_neg]
    exact fun h' => h'.2 h

end CoapPDU

theorem length_le_encodeOptions (k : ℕ) (opts : List Opt) :
    opts.length ≤ (encodeOptions k opts).length := by
  induction opts generalizing k with
  | nil => simp
  | cons o opts ih =>
    have := length_encodeRecord_pos (o.key - k, o.value)
    have := ih o.key
    simp only [encodeOptions_cons, List.length_append, List.length_cons]
    omega

theorem exists_eq_append_cons {l : List UInt8} {r k : ℕ} (h : l.length = r + (k + 1)) :
    ∃ R c y, l = R ++ c :: y ∧ R.length = r ∧ y.length = k := by
  have hd : (l.drop r).length = k + 1 := by
    rw [List.length_drop]
    omega
  obtain ⟨c, y, hcy⟩ := List.exists_cons_of_length_eq_add_one hd
  refine ⟨l.take r, c, y, ?_, ?_, ?_⟩
  · rw [← hcy, List.take_append_drop]
  · rw [List.length_take]
    omega
  · rw [hcy, List.length_cons] at hd
    omega

namespace CoapPDU

/-- An option in front of the bytes `m`, which start with the header of what follows: the
header moves behind the option and its delta is written anew. -/
theorem spliceOption_eq {p : CoapPDU} {a e tail w₀ : List UInt8} {h : UInt8} {n prev δ : UInt16}
    {v : List UInt8} {s : ℕ} {nn : UInt16} (hp : p.pdu = a ++ (h :: (e ++ tail)) ++ w₀)
    (hlen : p.pduLength = a.length + (1 + e.length + tail.length))
    (hbuf : p.bufferLength ≤ p.pdu.length)
    (he : e.length = computeExtraBytes (getOptionDelta (h :: (e ++ tail) ++ w₀)))
    (hnn : nn = UInt16.ofInt
      (prev.toNat + (getOptionDelta (h :: (e ++ tail) ++ w₀)).toNat - n.toNat))
    (hv : v.length ≤ 268)
    (hs : (encodeRecord (δ.toNat, v)).length + (extension nn.toNat).length = s + e.length)
    (hroom : p.HasRoom (p.pduLength + s)) :
    ∃ w, p.spliceOption a.length n prev δ (encodeRecord (δ.toNat, v)).length v =
        .ok ({ p.sized (p.pduLength + s) (a ++ (encodeRecord (δ.toNat, v) ++
          byteOf (nibble nn.toNat) (h.toNat % 16) :: (extension nn.toNat ++ (tail ++ w)))) with
            numOptions := p.numOptions + 1 }, 0) ∧
      p.capacity (p.pduLength + s) ≤
        (a ++ (encodeRecord (δ.toNat, v) ++ byteOf (nibble nn.toNat) (h.toNat % 16) ::
        (extension nn.toNat ++ (tail ++ w)))).length := by
  obtain ⟨w₁, hmake, hN, hB⟩ := makeRoom_of_hasRoom hroom hbuf
    (show a ++ h :: (e ++ tail) <+: p.pdu from ⟨w₀, hp.symm⟩)
    (by simp only [List.length_append, List.length_cons]; omega)
  obtain ⟨x, w, rfl, hx⟩ : ∃ x w, w₁ = x ++ w ∧ x.length = s := by
    refine ⟨w₁.take s, w₁.drop s, (List.take_append_drop s w₁).symm, ?_⟩
    simp only [List.length_append, List.length_cons] at hN
    rw [List.length_take]
    omega
  obtain ⟨R, c, y, hRcy, hR, hy⟩ : ∃ R c y,
      (h :: (e ++ tail) ++ x).take s ++ h :: e = R ++ c :: y ∧
        R.length = (encodeRecord (δ.toNat, v)).length ∧
        y.length = (extension nn.toNat).length := by
    refine exists_eq_append_cons ?_
    simp only [List.length_append, List.length_cons, List.length_take]
    omega
  have hdrop : p.pdu.drop a.length = h :: (e ++ tail) ++ w₀ := by
    rw [hp, List.append_assoc, List.drop_left]
  have hadj : ((encodeRecord (δ.toNat, v)).length : ℤ) + ((computeExtraBytes nn : ℤ) -
      computeExtraBytes (getOptionDelta (h :: (e ++ tail) ++ w₀))) = x.length := by
    rw [computeExtraBytes_eq nn, ← he]
    omega
  have hamount : ((p.pduLength + s : ℕ) : ℤ) - (a.length + x.length) =
      ((h :: (e ++ tail)).length : ℕ) := by
    simp only [List.length_cons, List.length_append]
    omega
  have hshift := shiftPDUUp_eq (p.sized (p.pduLength + s) []) a (h :: (e ++ tail)) x w (by
    simp only [pduLength_sized, List.length_cons, List.length_append]
    omega)
  have hmem : a ++ ((h :: (e ++ tail) ++ x).take x.length ++ (h :: (e ++ tail) ++ w)) =
      (a ++ R) ++ c :: (y ++ (tail ++ w)) := by
    have : (h :: (e ++ tail) ++ x).take x.length ++ (h :: (e ++ tail) ++ w) =
        ((h :: (e ++ tail) ++ x).take s ++ h :: e) ++ (tail ++ w) := by
      rw [hx]
      simp only [List.append_assoc, List.cons_append]
    rw [this, hRcy]
    simp only [List.append_assoc, List.cons_append]
  have hread : ((p.sized (p.pduLength + s) []).withPdu
      ((a ++ R) ++ c :: (y ++ (tail ++ w)))).read (a.length + x.length) = h := by
    rw [← hmem]
    have := read_head (p.sized (p.pduLength + s) []) (a ++ (h :: (e ++ tail) ++ x).take x.length)
      (e ++ tail ++ w) h
    rw [List.length_append, List.length_take, List.length_append,
      Nat.min_eq_left (by omega)] at this
    simpa using this
  have hheader : ((a.length : ℤ) + x.length - ((computeExtraBytes nn : ℤ) -
      computeExtraBytes (getOptionDelta (h :: (e ++ tail) ++ w₀)))).toNat = (a ++ R).length := by
    rw [List.length_append, hR]
    omega
  have hnext : ((a.length : ℤ) + x.length).toNat = a.length + x.length := by omega
  have hmalloc : ((p.pduLength : ℤ) + x.length).toNat = p.pduLength + s := by omega
  have hdelta := setOptionDelta_eq (p.sized (p.pduLength + s) []) (a ++ R) (tail ++ w) h hy
  have hinsert := insertOption_eq (p.sized (p.pduLength + s) []) a
    (byteOf (nibble nn.toNat) (h.toNat % 16) :: (extension nn.toNat ++ (tail ++ w))) δ hv hR
  have hwrite := write_head (p.sized (p.pduLength + s) []) (a ++ R) (y ++ (tail ++ w)) c h
  simp only [withPdu_sized] at hshift hread hwrite hdelta hinsert
  refine ⟨w, ?_, ?_⟩
  · unfold spliceOption
    rw [hdrop]
    dsimp only
    rw [← hnn, hadj, hmalloc, hmake]
    dsimp only
    rw [pduLength_sized, hamount, List.append_assoc a, hshift]
    simp only [ok_bind]
    rw [hheader, hnext, hmem, hread, hwrite]
    simp only [ok_bind]
    rw [hdelta]
    simp only [ok_bind]
    rw [List.append_assoc a R, hinsert]
    rfl
  · refine hB.trans (le_of_eq ?_)
    simp only [List.length_append, List.length_cons]
    omega

theorem length_extension_add_le (m k : ℕ) :
    (extension (m + k)).length ≤ 1 + (extension m).length + (extension k).length := by
  rw [length_extension, length_extension, length_extension]
  split_ifs <;> omega

theorem ofInt_natCast (n : ℕ) : UInt16.ofInt n = UInt16.ofNat n := by
  apply UInt16.toNat_inj.mp
  rw [UInt16.ofInt, UInt16.toNat_ofNat', UInt16.toNat_ofNat']
  omega

theorem spliceOption_record {p : CoapPDU} {a t w₀ u v : List UInt8} {n prev : UInt16} {Δ : ℕ}
    (hp : p.pdu = a ++ (encodeRecord (Δ, u) ++ t) ++ w₀)
    (hlen : p.pduLength = (a ++ (encodeRecord (Δ, u) ++ t)).length)
    (hbuf : p.bufferLength ≤ p.pdu.length) (hv : v.length ≤ 268) (hprev : prev ≤ n)
    (hn : n.toNat < prev.toNat + Δ) (hΔ : Δ < 65536)
    (hroom : p.HasRoom (a ++ (encodeRecord ((n - prev).toNat, v) ++
      (encodeRecord (prev.toNat + Δ - n.toNat, u) ++ t))).length) :
    ∃ w, p.spliceOption a.length n prev (n - prev)
        (encodeRecord ((n - prev).toNat, v)).length v =
        .ok ({ p.sized (a ++ (encodeRecord ((n - prev).toNat, v) ++
          (encodeRecord (prev.toNat + Δ - n.toNat, u) ++ t))).length
            (a ++ (encodeRecord ((n - prev).toNat, v) ++
              (encodeRecord (prev.toNat + Δ - n.toNat, u) ++ t)) ++ w) with
            numOptions := p.numOptions + 1 }, 0) ∧
      p.capacity (a ++ (encodeRecord ((n - prev).toNat, v) ++
          (encodeRecord (prev.toNat + Δ - n.toNat, u) ++ t))).length ≤
        (a ++ (encodeRecord ((n - prev).toNat, v) ++
          (encodeRecord (prev.toNat + Δ - n.toNat, u) ++ t)) ++ w).length := by
  obtain ⟨Δ', hΔ'⟩ : ∃ Δ', Δ' = prev.toNat + Δ - n.toNat := ⟨_, rfl⟩
  rw [← hΔ'] at hroom ⊢
  have hle := UInt16.le_iff_toNat_le.mp hprev
  have hlt := n.toNat_lt
  have hδ : (n - prev).toNat = n.toNat - prev.toNat := UInt16.toNat_sub_of_le _ _ hprev
  have hread : getOptionDelta (encodeRecord (Δ, u) ++ t ++ w₀) = UInt16.ofNat Δ := by
    rw [List.append_assoc]
    exact getOptionDelta_encodeRecord _ (by omega)
  have hΔn : (UInt16.ofNat Δ).toNat = Δ := by
    rw [UInt16.toNat_ofNat', Nat.mod_eq_of_lt (by omega)]
  have hΔn' : (UInt16.ofNat Δ').toNat = Δ' := by
    rw [UInt16.toNat_ofNat', Nat.mod_eq_of_lt (by omega)]
  have hnn : (prev.toNat + (UInt16.ofNat Δ).toNat - n.toNat : ℤ) = (Δ' : ℕ) := by
    rw [hΔn]
    omega
  have hgrow := length_extension_add_le Δ' (n - prev).toNat
  rw [show Δ' + (n - prev).toNat = Δ by omega] at hgrow
  obtain ⟨s, hs⟩ : ∃ s, (encodeRecord ((n - prev).toNat, v)).length + (extension Δ').length =
      s + (extension Δ).length := by
    refine ⟨_, (Nat.sub_add_cancel ?_).symm⟩
    rw [length_encodeRecord]
    dsimp only
    omega
  have hcons (d : ℕ) : encodeRecord (d, u) ++ t = byteOf (nibble d) (nibble u.length) ::
      (extension d ++ (extension u.length ++ u ++ t)) := by
    simp only [encodeRecord, List.cons_append, List.append_assoc]
  have hlow : (byteOf (nibble Δ) (nibble u.length)).toNat % 16 = nibble u.length := by
    have := nibble_le Δ
    have := nibble_le u.length
    rw [toNat_byteOf (by omega) (by omega)]
    omega
  have htotal : (a ++ (encodeRecord ((n - prev).toNat, v) ++
      (encodeRecord (Δ', u) ++ t))).length = p.pduLength + s := by
    rw [hlen]
    simp only [List.length_append, length_encodeRecord] at hs ⊢
    omega
  rw [htotal] at hroom ⊢
  rw [hcons] at hp hread hlen
  have hnew : UInt16.ofNat Δ' = UInt16.ofInt (prev.toNat + (getOptionDelta
      (byteOf (nibble Δ) (nibble u.length) :: (extension Δ ++ (extension u.length ++ u ++ t)) ++
        w₀)).toNat - n.toNat) := by
    rw [hread, hnn, ofInt_natCast]
  have hsize : (encodeRecord ((n - prev).toNat, v)).length +
      (extension (UInt16.ofNat Δ').toNat).length = s + (extension Δ).length := by rw [hΔn', hs]
  have := spliceOption_eq hp
    (by rw [hlen]; simp only [List.length_append, List.length_cons]; omega) hbuf
    (by rw [hread, computeExtraBytes_eq, hΔn]) hnew hv hsize hroom
  rw [hΔn', hlow] at this
  rw [hcons Δ']
  simpa using this

theorem appendOption_eq {p : CoapPDU} {bytes w₀ : List UInt8} {n δ : UInt16} {v : List UInt8}
    (hp : p.pdu = bytes ++ w₀) (hlen : p.pduLength = bytes.length)
    (hbuf : p.bufferLength ≤ p.pdu.length) (hv : v.length ≤ 268)
    (hroom : p.HasRoom (p.pduLength + (encodeRecord (δ.toNat, v)).length)) :
    ∃ w, p.appendOption n δ (encodeRecord (δ.toNat, v)).length v =
        .ok ({ p.sized (p.pduLength + (encodeRecord (δ.toNat, v)).length)
          (bytes ++ (encodeRecord (δ.toNat, v) ++ w)) with
            numOptions := p.numOptions + 1, maxAddedOptionNumber := n }, 0) ∧
      p.capacity (p.pduLength + (encodeRecord (δ.toNat, v)).length) ≤
        (bytes ++ (encodeRecord (δ.toNat, v) ++ w)).length := by
  let p' := { p with maxAddedOptionNumber := n }
  obtain ⟨w₁, hmake, hN, hB⟩ := makeRoom_of_hasRoom (p := p') hroom hbuf
    (show bytes <+: p.pdu from ⟨w₀, hp.symm⟩) (by omega)
  obtain ⟨x, w, rfl, hx⟩ : ∃ x w, w₁ = x ++ w ∧ x.length = (encodeRecord (δ.toNat, v)).length := by
    refine ⟨_, _, (List.take_append_drop (encodeRecord (δ.toNat, v)).length w₁).symm, ?_⟩
    simp only [List.length_append] at hN
    rw [List.length_take]
    omega
  have hinsert := insertOption_eq (p'.sized (p.pduLength + (encodeRecord (δ.toNat, v)).length) [])
    bytes w δ hv hx
  rw [withPdu_sized, ← hlen] at hinsert
  refine ⟨w, ?_, ?_⟩
  · unfold appendOption
    dsimp only
    rw [hmake]
    dsimp only
    rw [hinsert]
    rfl
  · refine hB.trans (le_of_eq ?_)
    simp only [List.length_append]
    omega

theorem optionLength_eq (δ : UInt16) {v : List UInt8} (hv : v.length ≤ 268) :
    (COAP_OPTION_HDR_BYTE + computeExtraBytes δ + computeExtraBytes (UInt16.ofNat v.length) +
      (UInt16.ofNat v.length).toNat) % 65536 = (encodeRecord (δ.toNat, v)).length := by
  have hnv : (UInt16.ofNat v.length).toNat = v.length := by
    rw [UInt16.toNat_ofNat']
    omega
  have hlen := length_encodeRecord_eq δ.toNat_lt (show v.length < 65536 by omega)
  rw [UInt16.ofNat_toNat] at hlen
  have hδ := length_extension_le δ.toNat
  have hl := length_extension_le v.length
  rw [← computeExtraBytes_eq] at hδ
  rw [← hnv, ← computeExtraBytes_eq] at hl
  rw [hnv, hlen, COAP_OPTION_HDR_BYTE, Nat.mod_eq_of_lt (by omega)]
  omega

theorem addOption_of_end {p : CoapPDU} {n prev : UInt16} {v : List UInt8} (hv : v.length ≤ 268)
    (hpos : p.findInsertionPosition n = (p.pduLength, prev)) :
    p.addOption n v =
      p.appendOption n (n - prev) (encodeRecord ((n - prev).toNat, v)).length v := by
  unfold addOption
  rw [hpos]
  dsimp only
  rw [optionLength_eq _ hv, if_pos rfl]

theorem addOption_of_inner {p : CoapPDU} {n prev : UInt16} {v : List UInt8} {pos : ℕ}
    (hv : v.length ≤ 268) (hpos : p.findInsertionPosition n = (pos, prev))
    (hne : pos ≠ p.pduLength) :
    p.addOption n v =
      p.spliceOption pos n prev (n - prev) (encodeRecord ((n - prev).toNat, v)).length v := by
  unfold addOption
  rw [hpos]
  dsimp only
  rw [optionLength_eq _ hv, if_neg hne]

end CoapPDU

end Mbtk.Coap
