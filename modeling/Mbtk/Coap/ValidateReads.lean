import Mbtk.Coap.Validate
import Mbtk.Lib.Trace

namespace Mbtk.Coap

open Lib Lib.ExtNat

namespace CoapPDU

def readAt (p : CoapPDU) (i : ℕ) : Trace UInt8 := ⟨p.read i, [i]⟩

def readOptionDelta (p : CoapPDU) (option : ℕ) : Trace UInt16 := do
  let delta := (((← p.readAt option) &&& 0xF0) >>> 4).toUInt16
  if delta < 13 then return delta
  else if delta = 13 then return (← p.readAt (option + 1)).toUInt16 + 13
  else if delta = 14 then
    return endianLoad16 (← p.readAt (option + 1)) (← p.readAt (option + 2)) + 269
  else return delta

def readOptionValueLength (p : CoapPDU) (option : ℕ) : Trace UInt16 := do
  let delta := (((← p.readAt option) &&& 0xF0) >>> 4).toUInt16
  let length := ((← p.readAt option) &&& 0x0F).toUInt16
  if length < 13 then return length
  else
    let offset := if delta = 13 then 2 else if delta = 14 then 3 else 1
    if length = 13 then return (← p.readAt (option + offset)).toUInt16 + 13
    else
      return endianLoad16 (← p.readAt (option + offset)) (← p.readAt (option + offset + 1)) + 269

def validateLoopReads (p : CoapPDU) : ℕ → ℕ → ℤ → ℕ → UInt16 → Trace (CoapPDU × Bool)
  | 0, _, _, _, _ => return (p, false)
  | fuel + 1, optionPos, bytesRemaining, numOptions, optionNumber =>
    if bytesRemaining > 0 then do
      let optionHeader ← p.readAt optionPos
      if optionHeader = 0xFF then
        if bytesRemaining > 1 then
          return ({ p with
              payloadPointer := some (p.addr + (optionPos + 1))
              payloadLength := (bytesRemaining - 1).toNat
              numOptions }, true)
        else return ({ p with payloadPointer := none, payloadLength := 0 }, false)
      else
        let upperNibble := (optionHeader &&& 0xF0) >>> 4
        let lowerNibble := optionHeader &&& 0x0F
        if upperNibble = 0x0F ∨ lowerNibble = 0x0F then return (p, false)
        else
          let bytesRemaining := bytesRemaining - 1
          let headerBytesNeeded := computeExtraBytes upperNibble.toUInt16
          if headerBytesNeeded > bytesRemaining then return (p, false)
          else
            let headerBytesNeeded := headerBytesNeeded + computeExtraBytes lowerNibble.toUInt16
            if headerBytesNeeded > bytesRemaining then return (p, false)
            else
              let optionDelta ← p.readOptionDelta optionPos
              let optionNumber := optionNumber + optionDelta
              let optionValueLength ← p.readOptionValueLength optionPos
              let totalLength := 1 + computeExtraBytes optionDelta +
                computeExtraBytes optionValueLength + optionValueLength.toNat
              if optionPos + totalLength > p.pduLength then return (p, false)
              else
                validateLoopReads p fuel (optionPos + totalLength)
                  (bytesRemaining - totalLength + 1) (numOptions + 1) optionNumber
    else return ({ p with payloadPointer := none, payloadLength := 0, numOptions }, true)

def readTokenLength (p : CoapPDU) : Trace ℕ := do return ((← p.readAt 0) &&& 0x0F).toNat

def validateReads (p : CoapPDU) : Trace (CoapPDU × Bool) := do
  if p.pduLength < 4 then return (p, false)
  else
    let version := ((← p.readAt 0) &&& 0xC0) >>> 6
    if version ≠ 1 then return (p, false)
    else
      let tokenLength ← p.readTokenLength
      if tokenLength > 8 then return (p, false)
      else if COAP_HDR_SIZE + tokenLength > p.pduLength then return (p, false)
      else
        let code ← p.readAt 1
        if !codeAccepted code then return (p, false)
        else
          let optionPos := COAP_HDR_SIZE + (← p.readTokenLength)
          if optionPos = p.pduLength then
            return ({ p with numOptions := 0, payloadLength := 0 }, true)
          else validateLoopReads p (p.pduLength + 1) optionPos (p.pduLength - optionPos) 0 0

section Value

variable (p : CoapPDU)

@[simp] theorem value_readAt (i : ℕ) : (p.readAt i).value = p.read i := rfl

theorem getD_drop_pdu (option i : ℕ) : (p.pdu.drop option).getD i 0 = p.read (option + i) := by
  rw [read, List.getD_eq_getElem?_getD, List.getD_eq_getElem?_getD, List.getElem?_drop]

@[simp] theorem value_readOptionDelta (option : ℕ) :
    (p.readOptionDelta option).value = getOptionDelta (p.pdu.drop option) := by
  simp only [readOptionDelta, getOptionDelta, Trace.value_bind, Trace.value_ite, Trace.value_pure]
  simp only [value_readAt, getD_drop_pdu, Nat.add_zero]
  rfl

@[simp] theorem value_readOptionValueLength (option : ℕ) :
    (p.readOptionValueLength option).value = getOptionValueLength (p.pdu.drop option) := by
  simp only [readOptionValueLength, getOptionValueLength, Trace.value_bind, Trace.value_ite,
    Trace.value_pure]
  simp only [value_readAt, getD_drop_pdu, Nat.add_zero, Nat.add_assoc]
  rfl

theorem value_validateLoopReads (fuel optionPos : ℕ) (bytesRemaining : ℤ) (numOptions : ℕ)
    (optionNumber : UInt16) :
    (p.validateLoopReads fuel optionPos bytesRemaining numOptions optionNumber).value =
      p.validateLoop fuel optionPos bytesRemaining numOptions optionNumber := by
  induction fuel generalizing optionPos bytesRemaining numOptions optionNumber with
  | zero => rfl
  | succ fuel ih =>
    simp only [validateLoopReads, validateLoop, Trace.value_bind, Trace.value_ite, Trace.value_pure]
    simp only [value_readAt, value_readOptionDelta, value_readOptionValueLength, ih]

theorem value_validateReads : p.validateReads.value = p.validate := by
  simp only [validateReads, validate, readTokenLength, getVersion, getTokenLength, getCode,
    Trace.value_bind, Trace.value_ite, Trace.value_pure]
  simp only [value_readAt, value_validateLoopReads]
  rfl

end Value

end CoapPDU

/-- Options whose extensions lie inside the bytes are followed by a header with fewer bytes behind
it than its two extensions have, though one for each that it announces. -/
inductive Overreads : List UInt8 → Prop
  | here {h : UInt8} {t : List UInt8} : h.toNat / 16 ≤ 14 → h.toNat % 16 ≤ 14 →
      announced h ≤ t.length →
      t.length < extLength (h.toNat / 16) + extLength (h.toNat % 16) → Overreads (h :: t)
  | later {h : UInt8} {v rest : List UInt8} : Piece [] h v rest →
      extLength (h.toNat / 16) + extLength (h.toNat % 16) ≤ (v ++ rest).length →
      Overreads rest → Overreads (h :: (v ++ rest))

section Reads

theorem extValue_append {k : ℕ} {bs : List UInt8} (hk : k ≤ 14) (hl : extLength k ≤ bs.length)
    (t : List UInt8) : extValue k (bs ++ t) = extValue k bs := by
  have h := (reads_take hk hl).extValue_eq (bs.drop (extLength k) ++ t)
  rwa [← List.append_assoc, List.take_append_drop] at h

theorem exact_append {h : UInt8} {t : List UInt8} (hu : h.toNat / 16 ≤ 14) (hl : h.toNat % 16 ≤ 14)
    (hext : extLength (h.toNat / 16) + extLength (h.toNat % 16) ≤ t.length) (after : List UInt8) :
    exactDelta h (t ++ after) = exactDelta h t ∧ exactLength h (t ++ after) = exactLength h t := by
  refine ⟨extValue_append hu (by omega) after, ?_⟩
  rw [exactLength, List.drop_append_of_le_length (by omega), extValue_append hl, exactLength]
  rw [List.length_drop]
  omega

theorem not_overreads_marker {t : List UInt8} : ¬ Overreads (0xFF :: t) := by
  rintro (⟨hu, -⟩ | ⟨hpiece, -⟩)
  · exact absurd hu (by decide)
  · exact absurd hpiece.distance (by decide)

/-- The bytes are told by their first header and by what the walk finds behind its option. -/
theorem not_overreads_cons_iff {h : UInt8} {t : List UInt8} :
    ¬ Overreads (h :: t) ↔ (h.toNat / 16 ≤ 14 → h.toNat % 16 ≤ 14 → announced h ≤ t.length →
      extLength (h.toNat / 16) + extLength (h.toNat % 16) ≤ t.length ∧
        (walkSize (exactDelta h t) (exactLength h t) ≤ t.length + 1 →
          ¬ Overreads ((h :: t).drop (walkSize (exactDelta h t) (exactLength h t))))) := by
  constructor
  · intro hno hu hl hneed
    have hext : extLength (h.toNat / 16) + extLength (h.toNat % 16) ≤ t.length := by
      by_contra hext
      exact hno (.here hu hl hneed (by omega))
    refine ⟨hext, fun hsize hrest => hno ?_⟩
    have hcut := @exists_piece [] h t hu hl hneed (by rwa [List.append_nil])
    rw [List.append_nil] at hcut
    obtain ⟨v, hv, hpiece⟩ := hcut
    generalize (h :: t).drop _ = rest at hv hpiece hrest
    subst hv
    exact .later hpiece hext hrest
  · rintro hb (⟨hu, hl, hneed, hext⟩ | ⟨hpiece, -, hrest⟩)
    · have := (hb hu hl hneed).1
      omega
    · have hwalk := hpiece.walkSize_eq
      have hdrop := hpiece.drop_walkSize
      rw [List.append_nil] at hwalk hdrop
      refine (hb hpiece.distance hpiece.length hpiece.announces).2 ?_ (by rwa [hdrop])
      rw [hwalk, List.length_cons, List.length_append]
      omega

namespace CoapPDU

variable {p : CoapPDU} {n : ℕ}

theorem below_readAt {i : ℕ} : Trace.Below n (p.readAt i) ↔ i < n := by simp [Trace.Below, readAt]

theorem below_readOptionDelta {option : ℕ} (hu : (p.read option).toNat / 16 ≤ 14) :
    Trace.Below n (p.readOptionDelta option) ↔
      option + extLength ((p.read option).toNat / 16) < n := by
  rw [readOptionDelta, Trace.below_bind, below_readAt, value_readAt]
  dsimp only
  rw [upperNibble_eq]
  obtain h13 | h13 | h14 := nibble_cases hu
  · rw [if_pos ((ofNat_lt_13 (by omega)).mpr h13), extLength, if_pos h13]
    simp
  · rw [h13, if_neg (by decide), if_pos (show UInt16.ofNat 13 = 13 from rfl), Trace.below_bind,
      below_readAt, extLength]
    simp
    omega
  · rw [h14, if_neg (by decide), if_neg (by decide), if_pos (show UInt16.ofNat 14 = 14 from rfl),
      Trace.below_bind, below_readAt, Trace.below_bind, below_readAt, extLength]
    simp
    omega

theorem below_readOptionValueLength {option : ℕ} (hu : (p.read option).toNat / 16 ≤ 14)
    (hl : (p.read option).toNat % 16 ≤ 14)
    (h : option + extLength ((p.read option).toNat / 16) < n) :
    Trace.Below n (p.readOptionValueLength option) ↔
      option + (extLength ((p.read option).toNat / 16) +
        extLength ((p.read option).toNat % 16)) < n := by
  have hoff : (if UInt16.ofNat ((p.read option).toNat / 16) = 13 then 2
      else if UInt16.ofNat ((p.read option).toNat / 16) = 14 then 3 else 1) =
      extLength ((p.read option).toNat / 16) + 1 := by
    obtain h13 | h13 | h14 := nibble_cases hu
    · rw [if_neg (ofNat_ne_13 h13), if_neg (ofNat_ne_14 h13), extLength, if_pos h13]
    · rw [h13]
      rfl
    · rw [h14]
      rfl
  rw [readOptionValueLength, Trace.below_bind, below_readAt, Trace.below_bind, below_readAt,
    value_readAt]
  dsimp only
  rw [upperNibble_eq, lowerNibble_eq, hoff]
  obtain h13 | h13 | h14 := nibble_cases hl
  · rw [if_pos ((ofNat_lt_13 (by omega)).mpr h13)]
    simp [extLength, h13]
    rw [extLength] at h
    omega
  · rw [h13, if_neg (by decide), if_pos (show UInt16.ofNat 13 = 13 from rfl), Trace.below_bind,
      below_readAt]
    simp [extLength]
    omega
  · rw [h14, if_neg (by decide), if_neg (by decide), Trace.below_bind, below_readAt,
      Trace.below_bind, below_readAt]
    simp [extLength]
    omega

variable {pre bs after : List UInt8}

theorem below_validateLoopReads_cons {h : UInt8} {t : List UInt8}
    (hp : p.pdu = pre ++ (h :: t ++ after)) (hlen : p.pduLength = pre.length + (t.length + 1))
    (hh : h ≠ 0xFF) (fuel k : ℕ) (N : UInt16) :
    Trace.Below p.pduLength
        (p.validateLoopReads (fuel + 1) pre.length ((t.length + 1 : ℕ) : ℤ) k N) ↔
      (h.toNat / 16 ≤ 14 → h.toNat % 16 ≤ 14 →
        computeExtraBytes (UInt16.ofNat (h.toNat / 16)) +
          computeExtraBytes (UInt16.ofNat (h.toNat % 16)) ≤ t.length →
        extLength (h.toNat / 16) + extLength (h.toNat % 16) ≤ t.length ∧
          (walkSize (exactDelta h t) (exactLength h t) ≤ t.length + 1 →
            Trace.Below p.pduLength (p.validateLoopReads fuel
              (pre.length + walkSize (exactDelta h t) (exactLength h t))
              ((t.length + 1 - walkSize (exactDelta h t) (exactLength h t) : ℕ) : ℤ)
              (k + 1) (N + UInt16.ofNat (exactDelta h t))))) := by
  have hread : p.read pre.length = h := read_length hp
  have hdrop : p.pdu.drop pre.length = h :: (t ++ after) := by
    rw [hp, List.drop_left, List.cons_append]
  have hupper := upper_eq_15_iff h
  have hlower := lower_eq_15_iff h
  rw [validateLoopReads, if_pos (by omega), Trace.below_bind, below_readAt, value_readAt, hread,
    and_iff_right (by omega), if_neg hh]
  dsimp only
  rw [upperNibble_eq, lowerNibble_eq]
  by_cases hnib : h.toNat / 16 ≤ 14 ∧ h.toNat % 16 ≤ 14
  · obtain ⟨hu, hl⟩ := hnib
    rw [if_neg (by tauto)]
    by_cases hneed : computeExtraBytes (UInt16.ofNat (h.toNat / 16)) +
        computeExtraBytes (UInt16.ofNat (h.toNat % 16)) ≤ t.length
    · rw [if_neg (by omega), if_neg (by omega), Trace.below_bind, Trace.below_bind,
        value_readOptionDelta, value_readOptionValueLength, hdrop, getOptionDelta_cons hu,
        getOptionValueLength_cons hu hl, ← walkSize]
      have hdelta : Trace.Below p.pduLength (p.readOptionDelta pre.length) ↔
          extLength (h.toNat / 16) ≤ t.length := by
        rw [below_readOptionDelta (by rw [hread]; exact hu), hread]
        omega
      rw [hdelta]
      by_cases hext : extLength (h.toNat / 16) + extLength (h.toNat % 16) ≤ t.length
      · have hvalue : Trace.Below p.pduLength (p.readOptionValueLength pre.length) := by
          rw [below_readOptionValueLength (by rw [hread]; exact hu) (by rw [hread]; exact hl)
            (by rw [hread]; omega), hread]
          omega
        obtain ⟨hΔ, hL⟩ := exact_append hu hl hext after
        rw [hΔ, hL, and_iff_right (by omega), and_iff_right hvalue]
        generalize walkSize (exactDelta h t) (exactLength h t) = W
        by_cases hW : W ≤ t.length + 1
        · have hrest : ((t.length + 1 : ℕ) : ℤ) - 1 - W + 1 = ((t.length + 1 - W : ℕ) : ℤ) := by
            omega
          rw [if_neg (by omega), hrest]
          exact ⟨fun hb _ _ _ => ⟨hext, fun _ => hb⟩, fun hb => (hb hu hl hneed).2 hW⟩
        · rw [if_pos (by omega)]
          exact iff_of_true (Trace.below_pure _) fun _ _ _ => ⟨hext, fun hle => absurd hle hW⟩
      · refine iff_of_false ?_ fun hb => hext (hb hu hl hneed).1
        rintro ⟨hd, hv, -⟩
        rw [below_readOptionValueLength (by rw [hread]; exact hu) (by rw [hread]; exact hl)
          (by rw [hread]; omega), hread] at hv
        omega
    · refine iff_of_true ?_ fun _ _ hn => absurd hn hneed
      by_cases hneed' : computeExtraBytes (UInt16.ofNat (h.toNat / 16)) ≤ t.length
      · rw [if_neg (by omega), if_pos (by omega)]
        exact Trace.below_pure _
      · rw [if_pos (by omega)]
        exact Trace.below_pure _
  · rw [if_pos (by tauto)]
    exact iff_of_true (Trace.below_pure _) fun hu hl => absurd ⟨hu, hl⟩ hnib

theorem below_validateLoopReads_marker {t : List UInt8} (hp : p.pdu = pre ++ (0xFF :: t ++ after))
    (hlen : p.pduLength = pre.length + (t.length + 1)) (fuel k : ℕ) (N : UInt16) :
    Trace.Below p.pduLength
      (p.validateLoopReads (fuel + 1) pre.length ((t.length + 1 : ℕ) : ℤ) k N) := by
  rw [validateLoopReads, if_pos (by omega), Trace.below_bind, below_readAt, value_readAt,
    read_length hp, if_pos rfl, Trace.below_ite]
  refine ⟨by omega, ?_⟩
  split_ifs <;> exact Trace.below_pure _

theorem below_validateLoopReads {fuel k : ℕ} {N : UInt16} (hp : p.pdu = pre ++ (bs ++ after))
    (hlen : p.pduLength = pre.length + bs.length) (hfuel : bs.length < fuel) :
    Trace.Below p.pduLength (p.validateLoopReads fuel pre.length (bs.length : ℤ) k N) ↔
      ¬ Overreads bs := by
  induction fuel generalizing pre bs k N with
  | zero => omega
  | succ fuel ih =>
    cases bs with
    | nil => exact iff_of_true (Trace.below_pure _) nofun
    | cons h t =>
      by_cases hh : h = 0xFF
      · subst hh
        exact iff_of_true (below_validateLoopReads_marker hp hlen fuel k N) not_overreads_marker
      · rw [List.length_cons, below_validateLoopReads_cons hp hlen hh, not_overreads_cons_iff]
        refine forall_congr' fun hu => forall_congr' fun hl => ?_
        rw [announced_eq hu hl]
        refine forall_congr' fun _ => and_congr_right fun _ => forall_congr' fun hsize => ?_
        -- the rest of the bytes begins behind what the walk takes for an option
        obtain ⟨hp', hlen', hpre, hbs⟩ := split_after_turn hp hsize hlen
        have hpos := walkSize_pos (exactDelta h t) (exactLength h t)
        have hrest := @ih _ _ (k + 1) (N + UInt16.ofNat (exactDelta h t)) hp' hlen'
          (by rw [List.length_cons] at hfuel hbs; omega)
        rwa [hpre, hbs] at hrest

section Header

variable {d : List UInt8}

theorem below_readTokenLength : Trace.Below n p.readTokenLength ↔ 0 < n := by
  rw [readTokenLength, Trace.below_bind, below_readAt]
  exact and_iff_left (Trace.below_pure _)

theorem below_validateReads_of_headerOk (hp : p.pdu = d ++ after) (hlen : p.pduLength = d.length)
    (h : HeaderOk d) : Trace.Below p.pduLength p.validateReads ↔ ¬ Overreads (optionRegion d) := by
  have hfixed := h.fixed
  rw [COAP_HDR_SIZE] at hfixed
  have hversion : (p.read 0 &&& 0xC0) >>> 6 = 1 := by
    apply UInt8.toNat_inj.mp
    rw [read_of_pdu hp (by omega), toNat_top_bits, h.version]
    rfl
  have htoken : p.readTokenLength.value = tokenLength d := by
    change (p.read 0 &&& 0x0F).toNat = _
    rw [read_of_pdu hp (by omega), toNat_lower, tokenLength]
  have hcode : codeAccepted (p.read 1) = true := by
    rw [read_of_pdu hp (by omega)]
    exact (codeAccepted_iff _).mpr h.code
  have h8 := h.token
  have hfits := h.tokenFits
  have hregion : (optionRegion d).length = d.length - (COAP_HDR_SIZE + tokenLength d) :=
    List.length_drop
  have hpre : (d.take (COAP_HDR_SIZE + tokenLength d)).length = COAP_HDR_SIZE + tokenLength d := by
    rw [List.length_take]
    omega
  have hp' : p.pdu = d.take (COAP_HDR_SIZE + tokenLength d) ++ (optionRegion d ++ after) := by
    rw [hp, ← List.append_assoc, optionRegion, List.take_append_drop]
  rw [validateReads, if_neg (by omega), Trace.below_bind, below_readAt, and_iff_right (by omega),
    value_readAt, hversion, if_neg (by decide), Trace.below_bind, below_readTokenLength,
    and_iff_right (by omega), htoken, if_neg (by omega), if_neg (by omega), Trace.below_bind,
    below_readAt, and_iff_right (by omega), value_readAt, hcode, if_neg (by decide),
    Trace.below_bind, below_readTokenLength, and_iff_right (by omega), htoken]
  dsimp only
  by_cases hend : COAP_HDR_SIZE + tokenLength d = p.pduLength
  · have hnil : optionRegion d = [] := List.length_eq_zero_iff.mp (by omega)
    rw [if_pos hend, hnil]
    exact iff_of_true (Trace.below_pure _) fun h => by cases h
  · have hloop := below_validateLoopReads hp' (by omega)
      (show (optionRegion d).length < p.pduLength + 1 by omega)
      (k := 0) (N := 0)
    have hrest : (p.pduLength : ℤ) - (COAP_HDR_SIZE + tokenLength d : ℕ) =
        (optionRegion d).length := by
      omega
    rw [if_neg hend, hrest, ← hloop, hpre]

theorem below_validateReads_of_not_headerOk (hp : p.pdu = d ++ after)
    (hlen : p.pduLength = d.length) (h : ¬ HeaderOk d) :
    Trace.Below p.pduLength p.validateReads := by
  unfold validateReads
  by_cases h4 : p.pduLength < 4
  · rw [if_pos h4]
    exact Trace.below_pure _
  · have htoken : p.readTokenLength.value = tokenLength d := by
      change (p.read 0 &&& 0x0F).toNat = _
      rw [read_of_pdu hp (by omega), toNat_lower, tokenLength]
    rw [if_neg h4, Trace.below_bind, below_readAt, and_iff_right (by omega), value_readAt]
    dsimp only
    by_cases hversion : (p.read 0 &&& 0xC0) >>> 6 = 1
    · rw [if_neg (not_not.mpr hversion), Trace.below_bind, below_readTokenLength,
        and_iff_right (by omega), htoken]
      by_cases h8 : tokenLength d > 8
      · rw [if_pos h8]
        exact Trace.below_pure _
      · rw [if_neg h8]
        by_cases hfits : COAP_HDR_SIZE + tokenLength d > p.pduLength
        · rw [if_pos hfits]
          exact Trace.below_pure _
        · rw [if_neg hfits, Trace.below_bind, below_readAt, and_iff_right (by omega), value_readAt]
          by_cases hcode : codeAccepted (p.read 1) = true
          · rw [read_of_pdu hp (by omega)] at hversion hcode
            have hversion' := congrArg UInt8.toNat hversion
            rw [toNat_top_bits] at hversion'
            exact absurd ⟨by rw [COAP_HDR_SIZE]; omega, hversion', by omega, by omega,
              (codeAccepted_iff _).mp hcode⟩ h
          · rw [if_pos (by simpa using hcode)]
            exact Trace.below_pure _
    · rw [if_pos hversion]
      exact Trace.below_pure _

end Header

end CoapPDU

end Reads

/-- `validate` stays inside the datagram `d`, whatever lies behind it, exactly if the options in
front of missing extension bytes do not lead it there. -/
theorem CoapPDU.validateReads_below_iff {p : CoapPDU} {d after : List UInt8}
    (hp : p.pdu = d ++ after) (hlen : p.pduLength = d.length) :
    p.validateReads.value = p.validate ∧
      (p.validateReads.Below p.pduLength ↔ ¬ (HeaderOk d ∧ Overreads (optionRegion d))) := by
  refine ⟨p.value_validateReads, ?_⟩
  by_cases h : HeaderOk d
  · rw [below_validateReads_of_headerOk hp hlen h, and_iff_right h]
  · exact iff_of_true (below_validateReads_of_not_headerOk hp hlen h) fun hno => h hno.1

theorem ParsesOptions.not_overreads {k : ℕ} {bs pay : List UInt8} {opts : List Opt}
    (h : ParsesOptions k bs opts pay) (hv : ∀ o ∈ opts, o.value.length ≤ 65535) :
    ¬ Overreads bs := by
  induction h with
  | done => exact fun ho => by cases ho
  | payload =>
    rintro (⟨hu, -⟩ | ⟨hpiece, -⟩)
    · exact absurd hu (by decide)
    · exact absurd hpiece.distance (by decide)
  | @option k dn ln Δ number de le v rest pay opts hd hl hnum _ ih =>
    have hΔ : Δ < 65536 := by
      have := number.toNat_lt
      omega
    have hvlen : v.length ≤ 65535 := hv ⟨number, v⟩ (by simp)
    obtain ⟨hu, hlow⟩ := nibbles_byteOf hd hl
    obtain ⟨hdelta, hlength⟩ := @exact_proper [] rest _ _ _ _ _ _ hd hl
    rw [List.append_nil] at hdelta hlength
    have hext : extLength dn + extLength ln ≤ (de ++ le ++ v ++ rest).length := by
      rw [← hd.length_eq, ← hl.length_eq]
      simp only [List.length_append]
      omega
    generalize ht : de ++ le ++ v ++ rest = t at hdelta hlength hext
    intro ho
    cases ho with
    | here _ _ _ hmissing =>
      rw [hu, hlow] at hmissing
      omega
    | @later _ v' rest' hpiece _ hrest =>
      have hsize := hpiece.walkSize_eq
      rw [List.append_nil, hdelta, hlength, walkSize_proper hd hl hΔ (by omega), List.length_cons,
        List.length_cons, Nat.add_right_cancel_iff] at hsize
      obtain ⟨-, rfl⟩ := List.append_inj ht hsize
      exact ih (fun o ho => hv o (by simp [ho])) hrest

theorem CoapPDU.validateReads_below_sampleDatagram :
    (received 0 sampleDatagram [0xFE]).validateReads.Below 16 := by
  have h := CoapPDU.validateReads_below_iff (p := received 0 sampleDatagram [0xFE])
    (d := sampleDatagram) rfl rfl
  exact h.2.mpr fun hno => message_sampleDatagram.options.not_overreads (by decide) hno.2

/-- The extension of a distance has two bytes, of which one is there. -/
theorem CoapPDU.not_validateReads_below_cut :
    ¬ (received 0 [0x40, 0x01, 0x00, 0x01, 0xE0, 0x00] []).validateReads.Below 6 := by
  intro h
  have := h 6 (by decide)
  omega

end Mbtk.Coap
