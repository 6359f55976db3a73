import Mbtk.Coap.Frame
import Mbtk.Coap.HeaderLaws

namespace Mbtk.Coap

open Lib Lib.ExtNat

namespace CoapPDU

section Shift

variable (p : CoapPDU)

theorem shiftPDUDownLoop_eq (a m w z : List UInt8) :
    shiftPDUDownLoop m.length a.length (a.length + w.length)
        (p.withPdu (a ++ (w ++ (m ++ z)))) =
      .ok (p.withPdu (a ++ (m ++ ((w ++ m).drop m.length ++ z)))) := by
  induction m generalizing a w with
  | nil => simp [shiftPDUDownLoop]
  | cons b m ih =>
    have hread : (p.withPdu (a ++ (w ++ (b :: m ++ z)))).read (a.length + w.length) = b := by
      simpa using read_head p (a ++ w) (m ++ z) b
    obtain ⟨x, w', hw'⟩ : ∃ x w', w ++ [b] = x :: w' :=
      List.exists_cons_of_ne_nil (by simp)
    have hlen : w'.length = w.length := by
      have := congrArg List.length hw'
      simpa using this.symm
    have hpdu : a ++ (w ++ (b :: m ++ z)) = a ++ x :: (w' ++ (m ++ z)) := by
      rw [← List.cons_append, ← hw']
      simp
    have hdrop : (w ++ b :: m).drop (b :: m).length = (w' ++ m).drop m.length := by
      rw [List.append_cons, hw', List.cons_append, List.length_cons, List.drop_succ_cons]
    have hih := ih (a ++ [b]) w'
    rw [List.length_cons, shiftPDUDownLoop, if_pos ⟨by omega, by omega⟩,
      show (a.length : ℤ) + w.length = ((a.length + w.length : ℕ) : ℤ) from (Nat.cast_add ..).symm,
      Int.toNat_natCast, Int.toNat_natCast, hread, hpdu, write_head, ok_bind, ← List.length_cons,
      hdrop]
    simp only [List.append_assoc, List.singleton_append, List.length_append, List.length_cons,
      List.length_nil, hlen] at hih
    push_cast at hih ⊢
    rw [show (a.length : ℤ) + w.length + 1 = a.length + 1 + w.length by omega, hih]
    rfl

theorem shiftPDUDown_eq (a m w z : List UInt8) :
    (p.withPdu (a ++ (w ++ (m ++ z)))).shiftPDUDown a.length w.length m.length =
      .ok (p.withPdu (a ++ (m ++ ((w ++ m).drop m.length ++ z)))) := by
  rw [shiftPDUDown, if_neg (by omega), Int.toNat_natCast]
  exact shiftPDUDownLoop_eq p a m w z

/-- A source that starts too low runs off the front of the block. -/
theorem shiftPDUUpLoop_off (n : ℕ) (destPointer srcPointer : ℤ) (hsrc : -1 ≤ srcPointer)
    (h : srcPointer + 1 < n) :
    shiftPDUUpLoop n destPointer srcPointer p = .error .outOfBounds := by
  induction n generalizing p destPointer srcPointer with
  | zero => omega
  | succ n ih =>
    unfold shiftPDUUpLoop write
    split_ifs with hpointers hin
    · exact ih _ (destPointer - 1) (srcPointer - 1) (by omega) (by omega)
    · rfl
    · rfl

end Shift

def withToken (hdr token : List UInt8) : List UInt8 :=
  ((hdr.getD 0 0 &&& 0xF0) ||| UInt8.ofNat token.length) :: ((hdr.drop 1).take 3 ++ token)

/-- The message in `q` is the one in `p` with another token. -/
structure TokenReplaced (p q : CoapPDU) (hdr : List UInt8) (opts : List Opt)
    (pay token : List UInt8) : Prop where
  getToken : q.getToken = token
  pduLength : q.pduLength + p.getTokenLength = p.pduLength + token.length
  bytes : q.bytes = withToken hdr token ++ p.bytes.drop hdr.length
  holds : q.Holds (withToken hdr token) opts pay

/-- `setToken` returns 0 and has replaced the token by one of at most 8 bytes, or returns 1 and
leaves the message. -/
def ReplacesToken (p : CoapPDU) (hdr : List UInt8) (opts : List Opt) (pay token : List UInt8) :
    Prop :=
  ∃ q result, p.setToken token = .ok (q, result) ∧
    (result = 0 ∧ token.length ≤ 8 ∧ p.TokenReplaced q hdr opts pay token ∨
      result = 1 ∧ q.bytes = p.bytes ∧ q.pduLength = p.pduLength)

section Token

variable {p q : CoapPDU} {hdr : List UInt8} {opts : List Opt} {pay token : List UInt8}

theorem toNat_ofNat_length (h : token.length < 256) :
    (UInt8.ofNat token.length).toNat = token.length := by
  rw [UInt8.toNat_ofNat']
  omega

theorem header_withToken (h8 : token.length ≤ 8) (h4 : 4 ≤ hdr.length) :
    (withToken hdr token).length =
      COAP_HDR_SIZE + ((withToken hdr token).getD 0 0 &&& 0x0F).toNat := by
  have hlow : ((hdr.getD 0 0 &&& 0xF0) ||| UInt8.ofNat token.length) &&& 0x0F =
      UInt8.ofNat token.length :=
    lower_of_or _ _ (by rw [toNat_ofNat_length (by omega)]; omega)
  have hlen := toNat_ofNat_length (show token.length < 256 by omega)
  rw [withToken, List.getD_cons_zero, hlow, hlen, COAP_HDR_SIZE]
  simp only [List.length_cons, List.length_append, List.length_take, List.length_drop]
  omega

/-- The parts of the memory of a PDU: fixed header, token, what follows it and the free rest. -/
structure Parts (p : CoapPDU) (b c i j : UInt8) (old body z : List UInt8) : Prop where
  pdu : p.pdu = [b, c, i, j] ++ (old ++ (body ++ z))
  pduLength : p.pduLength = 4 + old.length + body.length
  tokenLength : p.getTokenLength = old.length
  buffer : p.bufferLength ≤ p.pdu.length

theorem Holds.exists_parts (h : p.Holds hdr opts pay) : ∃ b c i j old body z,
    hdr = b :: c :: i :: j :: old ∧ p.Parts b c i j old body z ∧ p.bytes = hdr ++ body ∧
      ParsesOptions 0 body opts pay := by
  obtain ⟨body, hbytes, hparses⟩ := h.parses
  have hlen := h.getTokenLength
  rw [COAP_HDR_SIZE] at hlen
  obtain _ | ⟨b, _ | ⟨c, _ | ⟨i, _ | ⟨j, old⟩⟩⟩⟩ := hdr
  all_goals simp only [List.length_cons, List.length_nil] at hlen
  · omega
  · omega
  · omega
  · omega
  · refine ⟨b, c, i, j, old, body, p.pdu.drop p.pduLength, rfl, ⟨?_, ?_, by omega, h.buffer⟩,
      hbytes, hparses⟩
    · have hsplit := List.take_append_drop p.pduLength p.pdu
      rw [← bytes, hbytes] at hsplit
      exact hsplit.symm.trans (by simp)
    · have hbytesLen := congrArg List.length hbytes
      rw [bytes, List.length_take, Nat.min_eq_left h.inside] at hbytesLen
      rw [hbytesLen]
      simp only [List.length_append, List.length_cons]
      omega

theorem Holds.tokenReplaced {w : List UInt8} (h : p.Holds hdr opts pay) (h8 : token.length ≤ 8)
    (hq : q.pdu = withToken hdr token ++ (p.bytes.drop hdr.length ++ w))
    (hlen : q.pduLength + p.getTokenLength = p.pduLength + token.length)
    (hbuf : q.bufferLength ≤ q.pdu.length) : p.TokenReplaced q hdr opts pay token := by
  obtain ⟨b, c, i, j, old, body, z, rfl, hparts, hbytes, hparses⟩ := h.exists_parts
  have hbody : p.bytes.drop (b :: c :: i :: j :: old).length = body := by
    rw [hbytes, List.drop_left]
  have hlen' : q.pduLength = (withToken (b :: c :: i :: j :: old) token ++ body).length := by
    rw [hparts.tokenLength, hparts.pduLength] at hlen
    rw [List.length_append, withToken]
    simp
    omega
  rw [hbody] at hq
  have hqbytes : q.bytes = withToken (b :: c :: i :: j :: old) token ++ body := by
    rw [CoapPDU.bytes, hq, hlen', ← List.append_assoc, List.take_left]
  have hread : q.read 0 = (b &&& 0xF0) ||| UInt8.ofNat token.length := by
    rw [read, hq]
    rfl
  have htoken : q.getTokenLength = token.length := by
    rw [CoapPDU.getTokenLength, hread,
      lower_of_or _ _ (by rw [toNat_ofNat_length (by omega)]; omega),
      toNat_ofNat_length (by omega)]
  refine ⟨?_, hlen, by rw [hqbytes, hbody], ⟨⟨body, hqbytes, hparses⟩,
    header_withToken h8 (by simp), h.short, ?_, hbuf⟩⟩
  · rw [getToken, htoken, hq, withToken]
    simp
  · rw [hlen', hq, List.length_append, List.length_append, List.length_append]
    omega

section Paths

variable {b c i j : UInt8} {old body z : List UInt8}

theorem tokenLength_ne_zero (hpos : 1 ≤ token.length) (hlen : token.length < 256) :
    UInt8.ofNat token.length ≠ 0 := by
  intro hzero
  have := congrArg UInt8.toNat hzero
  rw [toNat_ofNat_length hlen] at this
  change token.length = 0 at this
  omega

theorem setTokenLength_of_le (h8 : token.length ≤ 8) (m : List UInt8) :
    (p.withPdu (b :: m)).setTokenLength (UInt8.ofNat token.length) =
      .ok (p.withPdu (((b &&& 0xF0) ||| UInt8.ofNat token.length) :: m), 0) := by
  refine setTokenLength_cons p b _ m ?_
  rw [gt_iff_lt, UInt8.lt_iff_toNat_lt, toNat_ofNat_length (by omega)]
  exact Nat.not_lt.mpr h8

theorem setTokenLength_of_gt (h8 : 8 < token.length) (hlen : token.length < 256) :
    p.setTokenLength (UInt8.ofNat token.length) = .ok (p, 1) := by
  refine if_pos ?_
  rw [gt_iff_lt, UInt8.lt_iff_toNat_lt, toNat_ofNat_length hlen]
  exact h8

theorem Parts.setToken_same (h : p.Parts b c i j old body z) (hpos : 1 ≤ token.length)
    (hlen : token.length < 256) (hsame : token.length = old.length) :
    p.setToken token = .ok (p.withPdu ([b, c, i, j] ++ (token ++ (body ++ z))), 0) := by
  have hcopy := memcpy_append p [b, c, i, j] (body ++ z) hsame
  rw [← h.pdu, withPdu_self] at hcopy
  unfold setToken
  dsimp only
  rw [if_neg (tokenLength_ne_zero hpos hlen), toNat_ofNat_length hlen, h.tokenLength,
    if_pos hsame, show (4 : ℕ) = [b, c, i, j].length from rfl, hcopy]
  rfl

/-- The path of a longer PDU, as it is taken: the old length is cut to 8 bits. -/
def growToken (p : CoapPDU) (token : List UInt8) : Exec (CoapPDU × ℕ) :=
  let oldPDULength := p.pduLength % 256
  match p.makeRoom (p.pduLength - p.getTokenLength + token.length) with
  | (p, false) => .ok ({ p with pduLength := oldPDULength }, 1)
  | (p, true) => do
    let p ← p.shiftPDUUp (p.pduLength - oldPDULength) (p.pduLength - token.length - COAP_HDR_SIZE)
    let p ← p.memcpy 4 token
    let (p, _) ← p.setTokenLength (UInt8.ofNat token.length)
    return (p, 0)

theorem Parts.setToken_grow (h : p.Parts b c i j old body z) (hpos : 1 ≤ token.length)
    (hlen : token.length < 256) (hne : token.length ≠ old.length)
    (hgrow : p.pduLength % 256 < p.pduLength - old.length + token.length) :
    p.setToken token = p.growToken token := by
  rw [← h.tokenLength] at hne hgrow
  unfold setToken
  dsimp only
  rw [if_neg (tokenLength_ne_zero hpos hlen), toNat_ofNat_length hlen, if_neg hne, if_pos hgrow]
  rfl

theorem Parts.growToken_no_room (h : p.Parts b c i j old body z)
    (hroom : ¬ p.HasRoom (p.pduLength - old.length + token.length)) :
    p.growToken token =
      .ok ({ (p.makeRoom (p.pduLength - old.length + token.length)).1 with
        pduLength := p.pduLength % 256 }, 1) := by
  have hfalse := makeRoom_of_not_hasRoom hroom
  unfold growToken
  rw [h.tokenLength]
  generalize p.makeRoom (p.pduLength - old.length + token.length) = made at hfalse
  obtain ⟨q, flag⟩ := made
  obtain rfl : flag = false := hfalse
  rfl

theorem Parts.growToken_room (h : p.Parts b c i j old body z) (hlen : token.length < 256)
    (hlonger : old.length < token.length) (hshort : p.pduLength < 256)
    (hroom : p.HasRoom (p.pduLength - old.length + token.length)) :
    ∃ w, p.growToken token = .ok (p.sized (p.pduLength - old.length + token.length)
        ((if token.length ≤ 8 then (b &&& 0xF0) ||| UInt8.ofNat token.length else b) ::
          c :: i :: j :: (token ++ (body ++ w))), 0) ∧
      p.capacity (p.pduLength - old.length + token.length) ≤
        4 + token.length + (body ++ w).length := by
  have hplen := h.pduLength
  generalize hN : p.pduLength - old.length + token.length = N at hroom
  have hbytes : [b, c, i, j] ++ (old ++ body) <+: p.pdu := by
    rw [h.pdu, ← List.append_assoc old, ← List.append_assoc [b, c, i, j]]
    exact List.prefix_append _ _
  obtain ⟨w, hmake, hin, hcap⟩ := makeRoom_of_hasRoom hroom h.buffer hbytes (by
    simp only [List.length_append, List.length_cons, List.length_nil]
    omega)
  simp only [List.length_append, List.length_cons, List.length_nil] at hin hcap
  obtain ⟨x, z', rfl, hx⟩ : ∃ x z', w = x ++ z' ∧ x.length = token.length - old.length := by
    refine ⟨_, _, (List.take_append_drop (token.length - old.length) w).symm, ?_⟩
    rw [List.length_take]
    omega
  have hshift := shiftPDUUp_eq (p.sized N []) ([b, c, i, j] ++ old) body x z' (by
    simp only [pduLength_sized, List.length_append, List.length_cons, List.length_nil]
    omega)
  have hcopy := memcpy_append (p.sized N []) [b, c, i, j] (body ++ z')
    (show token.length = (old ++ (body ++ x).take x.length).length by
      rw [List.length_append, List.length_take, List.length_append]
      omega)
  rw [withPdu_sized, withPdu_sized] at hshift hcopy
  have hoffset : (N : ℤ) - (p.pduLength % 256 : ℕ) = x.length := by omega
  have hamount : (N : ℤ) - token.length - COAP_HDR_SIZE = body.length := by
    rw [COAP_HDR_SIZE]
    omega
  refine ⟨z', ?_, ?_⟩
  · unfold growToken
    rw [h.tokenLength, hN, hmake]
    dsimp only
    rw [pduLength_sized, hoffset, hamount,
      show [b, c, i, j] ++ (old ++ body) ++ (x ++ z') =
        [b, c, i, j] ++ old ++ (body ++ (x ++ z')) by simp only [List.append_assoc],
      hshift, ok_bind,
      show [b, c, i, j] ++ old ++ ((body ++ x).take x.length ++ (body ++ z')) =
        [b, c, i, j] ++ (old ++ (body ++ x).take x.length ++ (body ++ z')) by
          simp only [List.append_assoc],
      show (4 : ℕ) = [b, c, i, j].length from rfl, hcopy, ok_bind]
    by_cases h8 : token.length ≤ 8
    · have hset := setTokenLength_of_le (p := p.sized N []) (b := b) h8
        (c :: i :: j :: (token ++ (body ++ z')))
      rw [withPdu_sized, withPdu_sized] at hset
      rw [if_pos h8, List.cons_append, List.cons_append, List.cons_append, List.cons_append,
        List.nil_append, hset]
      rfl
    · rw [if_neg h8, setTokenLength_of_gt (Nat.not_le.mp h8) hlen]
      rfl
  · rw [List.length_append] at hcap
    rw [List.length_append]
    omega

theorem Parts.growToken_long (h : p.Parts b c i j old body z) (hold : old.length ≤ 8)
    (hlong : 256 ≤ p.pduLength)
    (hroom : p.HasRoom (p.pduLength - old.length + token.length)) :
    p.growToken token = .error .outOfBounds := by
  have hplen := h.pduLength
  obtain ⟨w, hmake, -⟩ := makeRoom_of_hasRoom hroom h.buffer List.nil_prefix (Nat.zero_le _)
  unfold growToken
  rw [h.tokenLength, hmake]
  dsimp only
  rw [shiftPDUUp, pduLength_sized, COAP_HDR_SIZE, if_neg (by omega),
    shiftPDUUpLoop_off _ _ _ _ (by omega)
    (by omega)]
  rfl

def shrinkToken (p : CoapPDU) (token : List UInt8) : Exec (CoapPDU × ℕ) :=
  if p.constructedFromBuffer then do
    let (p, _) ← p.setTokenLength (UInt8.ofNat token.length)
    return (p, 0)
  else
    match p.realloc p.pduLength with
    | (p, false) => return (p, 1)
    | (p, true) => do
      let (p, _) ← { p with bufferLength := p.pduLength }.setTokenLength
        (UInt8.ofNat token.length)
      return (p, 0)

theorem Parts.setToken_shrink (h : p.Parts b c i j old body z) (hpos : 1 ≤ token.length)
    (hshorter : token.length < old.length) (hold : old.length ≤ 8) (hshort : p.pduLength < 256) :
    ∃ w, (token ++ (body ++ w)).length = (old ++ (body ++ z)).length ∧
      p.setToken token = shrinkToken { p with
        pduLength := p.pduLength - old.length + token.length
        pdu := b :: c :: i :: j :: (token ++ (body ++ w)) } token := by
  have hplen := h.pduLength
  generalize hN : p.pduLength - old.length + token.length = N
  have hcopy := memcpy_append { p with pduLength := N } [b, c, i, j]
    (old.drop token.length ++ (body ++ z))
    (show token.length = (old.take token.length).length by rw [List.length_take]; omega)
  have hshift := shiftPDUDown_eq { p with pduLength := N } ([b, c, i, j] ++ token) body
    (old.drop token.length) z
  have hsplit : p.pdu = [b, c, i, j] ++
      (old.take token.length ++ (old.drop token.length ++ (body ++ z))) := by
    rw [h.pdu, ← List.append_assoc (old.take token.length), List.take_append_drop]
  refine ⟨(old.drop token.length ++ body).drop body.length ++ z, ?_, ?_⟩
  · simp only [List.length_append, List.length_drop]
    omega
  · have hstart : (COAP_HDR_SIZE : ℤ) + token.length = ([b, c, i, j] ++ token).length := by
      rw [COAP_HDR_SIZE, List.length_append]
      push_cast
      rfl
    have hoffset : (p.pduLength : ℤ) - N = (old.drop token.length).length := by
      rw [List.length_drop]
      omega
    have hamount : (p.pduLength : ℤ) - old.length - COAP_HDR_SIZE = body.length := by
      rw [COAP_HDR_SIZE]
      omega
    rw [withPdu, ← hsplit] at hcopy
    rw [withPdu, withPdu, List.append_assoc] at hshift
    unfold setToken
    dsimp only
    rw [if_neg (tokenLength_ne_zero hpos (by omega)), toNat_ofNat_length (by omega),
      h.tokenLength, if_neg (by omega), Nat.mod_eq_of_lt hshort, hN, if_neg (by omega)]
    rw [show (4 : ℕ) = [b, c, i, j].length from rfl, hcopy, ok_bind]
    dsimp only [withPdu]
    rw [hstart, hoffset, hamount, hshift, ok_bind]
    rfl

theorem shrinkToken_buffer (h8 : token.length ≤ 8) (hc : p.constructedFromBuffer = true)
    (m : List UInt8) : (p.withPdu (b :: m)).shrinkToken token =
      .ok (p.withPdu (((b &&& 0xF0) ||| UInt8.ofNat token.length) :: m), 0) := by
  rw [shrinkToken, constructedFromBuffer_withPdu, if_pos hc, setTokenLength_of_le h8]
  rfl

theorem shrinkToken_realloc (h8 : token.length ≤ 8) (hc : p.constructedFromBuffer = false)
    {block : Block} (hheap : p.heap 0 = some block) {m w : List UInt8}
    (hlen : p.pduLength = (b :: m).length) :
    ∃ q, (p.withPdu (b :: m ++ w)).shrinkToken token = .ok (q, 0) ∧
      q.pdu = ((b &&& 0xF0) ||| UInt8.ofNat token.length) :: m ∧ q.pduLength = p.pduLength ∧
      q.bufferLength = p.pduLength := by
  have hrealloc : (p.withPdu (b :: m ++ w)).realloc p.pduLength =
      ({ p with
        heap := fun i => p.heap (i + 1)
        addr := block.addr
        pdu := b :: m }, true) := by
    have hfresh : p.pduLength - (b :: m ++ w).length = 0 := by
      rw [List.length_append]
      omega
    rw [realloc, heap_withPdu, hheap]
    dsimp only [withPdu]
    rw [hfresh, hlen, List.take_left]
    simp
  let r : CoapPDU := { p with
    heap := fun i => p.heap (i + 1)
    addr := block.addr
    bufferLength := p.pduLength }
  have hset := setTokenLength_of_le (p := r) (b := b) h8 m
  refine ⟨r.withPdu (((b &&& 0xF0) ||| UInt8.ofNat token.length) :: m), ?_, rfl, rfl, rfl⟩
  rw [shrinkToken, constructedFromBuffer_withPdu, hc, if_neg (by simp), pduLength_withPdu, hrealloc]
  change ((r.withPdu (b :: m)).setTokenLength (UInt8.ofNat token.length) >>=
    fun x => pure (x.1, 0)) = _
  rw [hset]
  rfl

theorem shrinkToken_none (hc : p.constructedFromBuffer = false) (hheap : p.heap 0 = none)
    (token : List UInt8) :
    ∃ q, p.shrinkToken token = .ok (q, 1) ∧ q.pduLength = p.pduLength := by
  refine ⟨{ p with heap := fun i => p.heap (i + 1) }, ?_, rfl⟩
  have hrealloc : p.realloc p.pduLength = ({ p with heap := fun i => p.heap (i + 1) }, false) := by
    rw [realloc, hheap]
  rw [shrinkToken, hrealloc, hc, if_neg (by simp)]
  rfl

end Paths

theorem upper_or_lower_self (b : UInt8) : (b &&& 0xF0) ||| (b &&& 0x0F) = b := by
  apply UInt8.toNat_inj.mp
  rw [UInt8.toNat_or, UInt8.toNat_and, UInt8.toNat_and, ← Nat.and_or_distrib_left]
  change b.toNat &&& (2 ^ 8 - 1) = b.toNat
  rw [Nat.and_two_pow_sub_one_eq_mod, Nat.mod_eq_of_lt b.toNat_lt]

theorem withToken_same {b c i j : UInt8} {old : List UInt8}
    (h : p.Holds (b :: c :: i :: j :: old) opts pay) (hsame : token.length = old.length) :
    withToken (b :: c :: i :: j :: old) token = b :: c :: i :: j :: token := by
  have hlow : (b &&& 0x0F).toNat = old.length := by
    have := h.header
    rw [COAP_HDR_SIZE, List.getD_cons_zero] at this
    simp only [List.length_cons] at this
    omega
  have hbyte : UInt8.ofNat token.length = b &&& 0x0F := by
    rw [hsame, ← hlow, UInt8.ofNat_toNat]
  rw [withToken, hbyte, List.getD_cons_zero, upper_or_lower_self]
  rfl

end Token

theorem Building.setToken {p : CoapPDU} {b c i j : UInt8} (h : p.Building [b, c, i, j] [])
    {token : List UInt8} (hne : token ≠ []) (h8 : token.length ≤ 8) :
    ∃ q, p.setToken token = .ok (q, 0) ∧
      q.Building ((((b &&& 0xF0) ||| UInt8.ofNat token.length) :: c :: i :: j :: token)) [] := by
  have hpos := List.length_pos_iff.mpr hne
  obtain ⟨b', c', i', j', old, body, z, hhdr, hparts, -⟩ := h.holds.exists_parts
  obtain ⟨rfl, rfl, rfl, rfl, rfl⟩ : b = b' ∧ c = c' ∧ i = i' ∧ j = j' ∧ [] = old := by
    simpa using hhdr
  have hplen : p.pduLength = 4 := h.holds.pduLength_eq
  obtain rfl : body = [] := by
    have := hparts.pduLength
    rw [hplen, List.length_nil] at this
    exact List.eq_nil_of_length_eq_zero (by omega)
  have hgrow := hparts.setToken_grow hpos (by omega) (by rw [List.length_nil]; omega)
    (by rw [hplen, List.length_nil]; omega)
  obtain ⟨w, hroom, hcap⟩ := hparts.growToken_room (show token.length < 256 by omega) hpos
    (by omega) (h.toIdle.hasRoom _)
  rw [List.length_nil, hplen, if_pos h8, List.nil_append] at hroom
  rw [List.length_nil, hplen, List.nil_append] at hcap
  have hheap (k : ℕ) : (p.nextHeap k).isSome := by
    rw [nextHeap, h.dynamic]
    exact h.heap (k + 1)
  have hcap' : p.capacity (4 - 0 + token.length) ≤
      ((((b &&& 0xF0) ||| UInt8.ofNat token.length) :: c :: i :: j :: (token ++ w))).length := by
    refine hcap.trans (le_of_eq ?_)
    simp only [List.length_cons, List.length_append]
    omega
  refine ⟨_, hgrow.trans hroom, ⟨h.dynamic, ?_, hcap', hheap⟩,
    .of_encode (w := w) ?_ ?_ ?_ (sortedFrom_nil _ _) (by simp) hcap', h.maxAdded, h.numOptions,
    h.payloadPointer, h.payloadLength⟩
  · rw [bufferLength_sized, capacity, h.dynamic, COAP_HDR_SIZE, if_neg (by simp)]
    omega
  · simp [encodeMessage]
  · rw [pduLength_sized, length_encodeMessage, encodeOptions_nil, encodePayload_nil]
    simp only [List.length_cons, List.length_nil]
    omega
  · have htoken : ((b &&& 0xF0) ||| UInt8.ofNat token.length) :: c :: i :: j :: token =
        withToken [b, c, i, j] token := rfl
    rw [htoken]
    exact header_withToken h8 (show 4 ≤ [b, c, i, j].length by simp)

section Replaces

variable {p : CoapPDU} {b c i j : UInt8} {old body z pay token : List UInt8} {opts : List Opt}

theorem replacesToken_of_done {q : CoapPDU} {hdr : List UInt8}
    (hset : p.setToken token = .ok (q, 0)) : p.ReplacesToken hdr opts pay token ↔
      token.length ≤ 8 ∧ p.TokenReplaced q hdr opts pay token := by
  constructor
  · rintro ⟨q', result, hset', ⟨-, h⟩ | ⟨rfl, -⟩⟩
    · obtain ⟨rfl, -⟩ := Prod.mk.inj (Except.ok.inj (hset.symm.trans hset'))
      exact h
    · obtain ⟨-, hzero⟩ := Prod.mk.inj (Except.ok.inj (hset.symm.trans hset'))
      exact absurd hzero zero_ne_one
  · exact fun h => ⟨q, 0, hset, .inl ⟨rfl, h⟩⟩

theorem replacesToken_of_refused {q : CoapPDU} {hdr : List UInt8}
    (hset : p.setToken token = .ok (q, 1)) : p.ReplacesToken hdr opts pay token ↔
      q.bytes = p.bytes ∧ q.pduLength = p.pduLength := by
  constructor
  · rintro ⟨q', result, hset', ⟨rfl, -⟩ | ⟨-, h⟩⟩
    · obtain ⟨-, hone⟩ := Prod.mk.inj (Except.ok.inj (hset.symm.trans hset'))
      exact absurd hone one_ne_zero
    · obtain ⟨rfl, -⟩ := Prod.mk.inj (Except.ok.inj (hset.symm.trans hset'))
      exact h
  · exact fun h => ⟨q, 1, hset, .inr ⟨rfl, h⟩⟩

theorem Parts.drop_bytes (_ : p.Parts b c i j old body z)
    (hbytes : p.bytes = b :: c :: i :: j :: old ++ body) :
    p.bytes.drop (b :: c :: i :: j :: old).length = body := by
  rw [hbytes, List.drop_left]

theorem Parts.replacesToken_same (hparts : p.Parts b c i j old body z)
    (h : p.Holds (b :: c :: i :: j :: old) opts pay)
    (hbytes : p.bytes = b :: c :: i :: j :: old ++ body) (hold : old.length ≤ 8)
    (hpos : 1 ≤ token.length) (hlen : token.length < 256) (hsame : token.length = old.length) :
    p.ReplacesToken (b :: c :: i :: j :: old) opts pay token := by
  have hbody := hparts.drop_bytes hbytes
  have htoken := hparts.tokenLength
  refine (replacesToken_of_done (hparts.setToken_same hpos hlen hsame)).mpr ⟨by omega, ?_⟩
  refine h.tokenReplaced (w := z) (by omega) ?_ ?_ ?_
  · rw [withToken_same h hsame, hbody]
    rfl
  · rw [htoken, hsame]
    rfl
  · have hsize := hparts.buffer
    rw [hparts.pdu] at hsize
    simp only [List.length_append] at hsize
    simp only [bufferLength_withPdu, pdu_withPdu, List.length_append]
    omega

theorem Parts.replacesToken_longer (hparts : p.Parts b c i j old body z)
    (h : p.Holds (b :: c :: i :: j :: old) opts pay)
    (hbytes : p.bytes = b :: c :: i :: j :: old ++ body) (hold : old.length ≤ 8)
    (hpos : 1 ≤ token.length) (hlen : token.length < 256) (hne : token.length ≠ old.length)
    (hlonger : 256 ≤ p.pduLength ∨ old.length < token.length) :
    p.ReplacesToken (b :: c :: i :: j :: old) opts pay token ↔ p.pduLength < 256 ∧
      (token.length ≤ 8 ∨ ¬ p.HasRoom (p.pduLength - old.length + token.length)) := by
  have hbody := hparts.drop_bytes hbytes
  have htoken := hparts.tokenLength
  have hplen := hparts.pduLength
  have hset := hparts.setToken_grow hpos hlen hne (by omega)
  by_cases hroom : p.HasRoom (p.pduLength - old.length + token.length)
  · by_cases hlong : 256 ≤ p.pduLength
    · rw [ReplacesToken, hset, hparts.growToken_long hold hlong hroom]
      exact iff_of_false (by simp) fun hcond => by omega
    · obtain ⟨w, hgrow, hcap⟩ := hparts.growToken_room hlen (by omega) (by omega) hroom
      rw [replacesToken_of_done (hset.trans hgrow)]
      refine ⟨fun hdone => ⟨by omega, .inl hdone.1⟩, fun hcond => ?_⟩
      have h8 := hcond.2.resolve_right (not_not.mpr hroom)
      rw [if_pos h8]
      refine ⟨h8, h.tokenReplaced (w := w) h8 ?_ ?_ ?_⟩
      · rw [hbody]
        rfl
      · rw [pduLength_sized, htoken]
        omega
      · rw [bufferLength_sized, pdu_sized]
        simp only [List.length_cons, List.length_append] at hcap ⊢
        omega
  · obtain ⟨q, hq⟩ : ∃ q, p.makeRoom (p.pduLength - old.length + token.length) = (q, false) :=
      ⟨_, Prod.ext rfl (makeRoom_of_not_hasRoom hroom)⟩
    have hframe := makeRoom_false hq
    have hno := hparts.growToken_no_room hroom
    rw [hq] at hno
    rw [replacesToken_of_refused (hset.trans hno)]
    constructor
    · rintro ⟨-, hsame⟩
      change p.pduLength % 256 = p.pduLength at hsame
      exact ⟨by omega, .inr hroom⟩
    · rintro ⟨hshort, -⟩
      have hmod := Nat.mod_eq_of_lt hshort
      refine ⟨?_, hmod⟩
      rw [hframe, hmod]
      rfl

theorem Parts.replacesToken_shorter (hparts : p.Parts b c i j old body z)
    (h : p.Holds (b :: c :: i :: j :: old) opts pay)
    (hbytes : p.bytes = b :: c :: i :: j :: old ++ body) (hold : old.length ≤ 8)
    (hpos : 1 ≤ token.length) (hshort : p.pduLength < 256) (hshorter : token.length < old.length) :
    p.ReplacesToken (b :: c :: i :: j :: old) opts pay token ↔
      (p.constructedFromBuffer = false → (p.heap 0).isSome) := by
  have hbody := hparts.drop_bytes hbytes
  have htoken := hparts.tokenLength
  have hplen := hparts.pduLength
  obtain ⟨w, hsize, hset⟩ := hparts.setToken_shrink hpos hshorter hold hshort
  have h8 : token.length ≤ 8 := by omega
  have hmemory := hparts.buffer
  rw [hparts.pdu] at hmemory
  simp only [List.length_append, List.length_cons, List.length_nil] at hmemory hsize
  generalize hN : p.pduLength - old.length + token.length = N at hset
  obtain ⟨r, hr⟩ : ∃ r : CoapPDU, r = { p with pduLength := N } := ⟨_, rfl⟩
  have hform : { p with pduLength := N, pdu := b :: c :: i :: j :: (token ++ (body ++ w)) } =
      r.withPdu (b :: c :: i :: j :: (token ++ (body ++ w))) := by
    rw [hr]
    rfl
  have hrlen : r.pduLength = N := by rw [hr]
  have hrc : r.constructedFromBuffer = p.constructedFromBuffer := by rw [hr]
  have hrheap : r.heap = p.heap := by rw [hr]
  rw [hform] at hset
  cases hc : p.constructedFromBuffer with
  | true =>
    rw [shrinkToken_buffer h8 (hrc.trans hc)] at hset
    rw [replacesToken_of_done hset]
    refine iff_of_true ⟨h8, h.tokenReplaced (w := w) h8 ?_ ?_ ?_⟩
      fun hfalse => absurd hfalse (by simp)
    · rw [hbody]
      rfl
    · rw [pduLength_withPdu, hrlen, htoken]
      omega
    · rw [bufferLength_withPdu, pdu_withPdu, show r.bufferLength = p.bufferLength by rw [hr]]
      simp only [List.length_cons, List.length_append]
      omega
  | false =>
    cases hheap : p.heap 0 with
    | none =>
      obtain ⟨q, hq, hqlen⟩ := shrinkToken_none
        (p := r.withPdu (b :: c :: i :: j :: (token ++ (body ++ w)))) (hrc.trans hc)
        (by rw [heap_withPdu, hrheap, hheap]) token
      rw [replacesToken_of_refused (hset.trans hq)]
      refine iff_of_false ?_ fun hcond => absurd (hcond rfl) (by simp)
      rintro ⟨-, hsame⟩
      rw [hqlen, pduLength_withPdu, hrlen] at hsame
      omega
    | some block =>
      obtain ⟨q, hq, hqpdu, hqlen, hqbuffer⟩ := shrinkToken_realloc (b := b) (p := r) (w := w)
        h8 (hrc.trans hc) (by rw [hrheap, hheap]) (m := c :: i :: j :: (token ++ body)) (by
          rw [hrlen]
          simp only [List.length_cons, List.length_append]
          omega)
      rw [show b :: c :: i :: j :: (token ++ (body ++ w)) =
        b :: (c :: i :: j :: (token ++ body)) ++ w by simp, hq] at hset
      rw [replacesToken_of_done hset]
      refine iff_of_true ⟨h8, h.tokenReplaced (w := []) h8 ?_ ?_ ?_⟩ fun _ => rfl
      · rw [hbody, hqpdu, withToken]
        simp
      · rw [hqlen, hrlen, htoken]
        omega
      · rw [hqbuffer, hqpdu, hrlen]
        simp only [List.length_cons, List.length_append]
        omega

end Replaces

/-- `setToken` exchanges the token alone if it keeps its length, and in a PDU of less than 256
bytes where the new one has at most 8 bytes and no shrinking fails, or has more and no room. -/
theorem replacesToken_iff (p : CoapPDU) (hdr : List UInt8) (opts : List Opt)
    (pay token : List UInt8) (h : p.Holds hdr opts pay) (hold : p.getTokenLength ≤ 8)
    (hpos : 1 ≤ token.length) (hlen : token.length < 256) :
    p.ReplacesToken hdr opts pay token ↔ token.length = p.getTokenLength ∨ p.pduLength < 256 ∧
      if token.length ≤ 8 then token.length < p.getTokenLength → p.constructedFromBuffer = false →
        (p.heap 0).isSome
      else ¬ p.HasRoom (p.pduLength - p.getTokenLength + token.length) := by
  obtain ⟨b, c, i, j, old, body, z, rfl, hparts, hbytes, -⟩ := h.exists_parts
  have htoken := hparts.tokenLength
  have hplen := hparts.pduLength
  rw [htoken] at hold ⊢
  obtain hsame | hlonger | hshorter : token.length = old.length ∨
      (256 ≤ p.pduLength ∨ old.length < token.length) ∧ token.length ≠ old.length ∨
        p.pduLength < 256 ∧ token.length < old.length := by omega
  · exact iff_of_true (hparts.replacesToken_same h hbytes hold hpos hlen hsame) (.inl hsame)
  · rw [or_iff_right hlonger.2,
      hparts.replacesToken_longer h hbytes hold hpos hlen hlonger.2 hlonger.1]
    refine and_congr_right fun hshort => ?_
    split_ifs with h8
    · exact iff_of_true (.inl h8) fun hlt => by omega
    · exact or_iff_right h8
  · rw [or_iff_right (by omega), and_iff_right hshorter.1, if_pos (by omega),
      hparts.replacesToken_shorter h hbytes hold hpos hshorter.1 hshorter.2,
      forall_prop_of_true hshorter.2]

theorem replacesToken_sample :
    { received 0 [0x41, 0x01, 0x00, 0x01, 0x07, 0xB1, 0x61, 0xFF, 0x62] (List.replicate 7 0) with
      bufferLength := 16 }.ReplacesToken [0x41, 0x01, 0x00, 0x01, 0x07] [⟨11, [0x61]⟩] [0x62]
        [0x01, 0x02] :=
  (replacesToken_iff _ _ _ _ _
    (Holds.of_encode (w := List.replicate 7 0) rfl rfl (by decide) (by simp) (by simp)
      (by decide))
    (by decide) (by decide) (by decide)).mpr (.inr ⟨by decide, fun hlt => absurd hlt (by decide)⟩)

/-- A message with a payload of `n` bytes, in a buffer that has space for 16 more. -/
def withPayload (n : ℕ) : CoapPDU :=
  { received 0 ([0x40, 0x01, 0x00, 0x01] ++ 0xFF :: List.replicate n 0x01)
      (List.replicate 16 0) with
    bufferLength := n + 21 }

theorem withPayload_holds {n : ℕ} (hn : n ≠ 0) :
    (withPayload n).Holds [0x40, 0x01, 0x00, 0x01] [] (List.replicate n 0x01) := by
  have hmessage : encodeMessage [0x40, 0x01, 0x00, 0x01] [] (List.replicate n 0x01) =
      [0x40, 0x01, 0x00, 0x01] ++ 0xFF :: List.replicate n 0x01 := by
    rw [encodeMessage, encodePayload_of_ne_nil (by simpa using hn)]
    rfl
  refine .of_encode (w := List.replicate 16 0) (by rw [hmessage]; rfl) (by rw [hmessage]; rfl)
    (by decide) (sortedFrom_nil _ _) (by simp) ?_
  simp [withPayload, received]

theorem setToken_withPayload {n : ℕ} (hn : 251 ≤ n) :
    (withPayload n).setToken [0x01] = .error .outOfBounds := by
  have hlen : (withPayload n).pduLength = n + 5 := by simp [withPayload, received]
  obtain ⟨b, c, i, j, old, body, z, hhdr, hparts, -⟩ :=
    (withPayload_holds (show n ≠ 0 by omega)).exists_parts
  obtain ⟨-, -, -, -, rfl⟩ : 0x40 = b ∧ 0x01 = c ∧ 0x00 = i ∧ 0x01 = j ∧ [] = old := by
    simpa [eq_comm] using hhdr
  have hroom : (withPayload n).HasRoom ((withPayload n).pduLength - 0 + 1) := by
    have hbuffer : (withPayload n).constructedFromBuffer = true := rfl
    have hcapacity : (withPayload n).bufferLength = n + 21 := rfl
    rw [hlen, HasRoom, if_pos hbuffer, hcapacity]
    omega
  have hgrow := hparts.setToken_grow (show 1 ≤ ([0x01] : List UInt8).length by simp)
    (by simp) (by simp)
    (by rw [hlen, List.length_nil]; omega)
  rw [hgrow]
  exact hparts.growToken_long (by simp) (by omega) hroom

/-- In front of a payload of 300 bytes the message is moved up from a place before its start. -/
theorem not_replacesToken_long :
    (withPayload 300).Holds [0x40, 0x01, 0x00, 0x01] [] (List.replicate 300 0x01) ∧
      (withPayload 300).getTokenLength = 0 ∧
      ¬ (withPayload 300).ReplacesToken [0x40, 0x01, 0x00, 0x01] [] (List.replicate 300 0x01)
        [0x01] := by
  refine ⟨withPayload_holds (by decide), rfl, ?_⟩
  rintro ⟨q, result, hq, -⟩
  rw [setToken_withPayload (by decide)] at hq
  cases hq

end CoapPDU

end Mbtk.Coap
