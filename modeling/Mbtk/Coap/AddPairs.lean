import Mbtk.Coap.BuildLaws
import Mbtk.Coap.OptionValues

namespace Mbtk.Coap.CoapPDU

open Lib Lib.ExtNat

section Length

variable {hdr : List UInt8} {opts : List Opt}

/-- An option more never makes the options shorter, although the next one loses a part of its
distance. -/
theorem length_encodeOptions_insertAfter {k : ℕ} {x : Opt} (hk : k ≤ x.key) :
    (encodeOptions k opts).length ≤ (encodeOptions k (insertAfter Opt.key x opts)).length := by
  induction opts generalizing k with
  | nil => exact Nat.zero_le _
  | cons o opts ih =>
    unfold insertAfter
    split_ifs with hle
    · simp only [encodeOptions_cons, List.length_append]
      exact Nat.add_le_add_left (ih hle) _
    · have hsplit : o.key - k = (x.key - k) + (o.key - x.key) := by omega
      have hext := length_extension_add_le (x.key - k) (o.key - x.key)
      simp only [encodeOptions_cons, List.length_append, length_encodeRecord]
      rw [hsplit]
      omega

theorem length_insertOpt_ge (n : UInt16) (v : List UInt8) :
    (encodeMessage hdr opts []).length ≤ (encodeMessage hdr (insertOpt n v opts) []).length := by
  rw [length_encodeMessage, length_encodeMessage]
  exact Nat.add_le_add_left
    (Nat.add_le_add_right (length_encodeOptions_insertAfter (Nat.zero_le _)) _) _

theorem length_insertAll_ge (pairs : List Opt) :
    (encodeMessage hdr opts []).length ≤ (encodeMessage hdr (insertAll pairs opts) []).length := by
  induction pairs generalizing opts with
  | nil => exact le_rfl
  | cons o pairs ih => exact (length_insertOpt_ge o.number o.value).trans ih

theorem length_insertAll (pairs opts : List Opt) :
    (insertAll pairs opts).length = pairs.length + opts.length := by
  induction pairs generalizing opts with
  | nil => exact (Nat.zero_add _).symm
  | cons o pairs ih =>
    change (insertAll pairs (insertAfter Opt.key o opts)).length = _
    rw [ih, length_insertAfter, List.length_cons]
    omega

end Length

/-- A PDU that so far holds `hdr` and `opts`, with space for a message of `size` bytes: in its
buffer, or because its allocations succeed. -/
structure Growable (p : CoapPDU) (hdr : List UInt8) (opts : List Opt) (size : ℕ) : Prop where
  holds : p.Holds hdr opts []
  maxAdded : p.maxAddedOptionNumber = lastNumber opts
  numOptions : p.numOptions = opts.length
  space : if p.constructedFromBuffer then size ≤ p.bufferLength else ∀ i, (p.heap i).isSome

section Growable

variable {p : CoapPDU} {hdr : List UInt8} {opts : List Opt} {size : ℕ}

theorem Growable.hasRoom (h : p.Growable hdr opts size) {k : ℕ} (hk : k ≤ size) : p.HasRoom k := by
  have hspace := h.space
  unfold HasRoom
  split_ifs at hspace ⊢ with hbuf
  · exact hk.trans hspace
  · exact hspace 0

theorem Growable.addOption (h : p.Growable hdr opts size) {n : UInt16} {v : List UInt8}
    (hv : v.length ≤ 268) (hsize : (encodeMessage hdr (insertOpt n v opts) []).length ≤ size) :
    ∃ q, p.addOption n v = .ok (q, 0) ∧ q.Growable hdr (insertOpt n v opts) size := by
  obtain ⟨q, hadd, hg⟩ := h.holds.addOption_lastNumber h.maxAdded hv (h.hasRoom hsize)
  have hspace := h.space
  refine ⟨q, hadd, hg.holds h.holds.header (sortedFrom_insertOpt n v h.holds.sorted)
    (short_insertOpt h.holds.short hv), hg.maxAddedOptionNumber, ?_, ?_⟩
  · rw [hg.numOptions, h.numOptions, length_insertAfter]
  · rw [hg.constructedFromBuffer, hg.bufferLength, hg.heap, capacity, nextHeap]
    split_ifs at hspace ⊢ with hbuf
    · exact hspace
    · exact fun i => hspace (i + 1)

theorem Growable.addUntil (h : p.Growable hdr opts size) {pairs : List Opt}
    (hv : ∀ o ∈ pairs, o.value.length ≤ 268)
    (hsize : (encodeMessage hdr (insertAll pairs opts) []).length ≤ size) :
    ∃ q, p.addUntil pairs = .ok (q, 0) ∧ q.Growable hdr (insertAll pairs opts) size := by
  induction pairs generalizing p opts with
  | nil => exact ⟨p, rfl, h⟩
  | cons o pairs ih =>
    obtain ⟨q, hadd, hq⟩ := h.addOption (n := o.number) (hv o (by simp))
      ((length_insertAll_ge pairs).trans hsize)
    obtain ⟨r, huntil, hr⟩ := ih hq (fun o ho => hv o (by simp [ho])) hsize
    refine ⟨r, ?_, hr⟩
    rw [CoapPDU.addUntil, hadd]
    exact huntil

end Growable

/-- A dynamic PDU that fills its memory and for which every allocation hands out bytes `b`. -/
structure Filled (p : CoapPDU) (b : UInt8) : Prop where
  dynamic : p.constructedFromBuffer = false
  inside : p.pduLength = p.pdu.length
  heap : p.heap = fun _ => some ⟨0, fun _ => b⟩

theorem filled_grown (b : UInt8) : (grown b).Filled b := ⟨rfl, rfl, rfl⟩

/-- What an option says for the value `v` when new memory holds bytes `b`: `addOption` takes the
length in 16 bits. -/
def storedIn (b : UInt8) (v : List UInt8) : List UInt8 :=
  storedValue (v.take (v.length % 65536)) (List.replicate (v.length % 65536) b)

section Filled

variable {p q : CoapPDU} {b : UInt8} {n δ len len' : UInt16} {v : List UInt8} {pos pos' start : ℕ}

theorem length_storedIn (b : UInt8) (v : List UInt8) :
    (storedIn b v).length = v.length % 65536 := by
  rw [storedIn, length_storedValue]
  · exact length_take_mod v
  · rw [List.length_replicate, length_take_mod]

theorem length_le_of_storedIn (h : ∀ b, storedIn b v = v) : v.length ≤ 268 := by
  have hmod : v.length % 65536 = v.length := by
    rw [← length_storedIn 0 v, h 0]
  by_contra hlong
  obtain ⟨c, t, hct⟩ : ∃ c t, v.drop (v.length - 269) = c :: t := by
    refine List.exists_cons_of_length_pos ?_
    rw [List.length_drop]
    omega
  have hstored := h (c + 1)
  rw [storedIn, hmod, List.take_length, storedValue, if_neg (by omega)] at hstored
  conv_rhs at hstored => rw [← List.take_append_drop (v.length - 269) v]
  have hlost := List.append_cancel_left hstored
  rw [hct] at hlost
  have hc : c ∈ List.replicate v.length (c + 1) :=
    List.mem_of_mem_drop (hlost ▸ List.mem_cons_self)
  exact absurd (List.eq_of_mem_replicate hc) (by simp)

theorem le_insertOptionDelta (h : p.insertOptionDelta start δ = .ok (q, pos)) : start ≤ pos := by
  obtain ⟨p₁, -, h⟩ := bind_eq_ok.mp h
  split_ifs at h
  · obtain ⟨p₂, -, h⟩ := bind_eq_ok.mp h
    exact (Prod.mk.inj (Except.ok.inj h)).2.le
  · obtain ⟨p₂, -, h⟩ := bind_eq_ok.mp h
    obtain ⟨p₃, -, h⟩ := bind_eq_ok.mp h
    obtain ⟨p₄, -, h⟩ := bind_eq_ok.mp h
    exact (Nat.le_succ _).trans (Prod.mk.inj (Except.ok.inj h)).2.le
  · obtain ⟨p₂, -, h⟩ := bind_eq_ok.mp h
    obtain ⟨p₃, -, h⟩ := bind_eq_ok.mp h
    exact (Nat.le_add_right _ 2).trans (Prod.mk.inj (Except.ok.inj h)).2.le

theorem of_insertOptionLength (h : p.insertOptionLength start pos len = .ok (q, pos', len')) :
    pos ≤ pos' ∧ len' = if len < 269 then len else len - 269 := by
  unfold insertOptionLength at h
  split_ifs at h with h13 h269
  · obtain ⟨p₁, -, h⟩ := bind_eq_ok.mp h
    obtain ⟨-, hpos, hlen⟩ := by simpa using Except.ok.inj h
    rw [if_pos (UInt16.lt_trans h13 (by decide))]
    exact ⟨hpos.le, hlen.symm⟩
  · obtain ⟨p₁, -, h⟩ := bind_eq_ok.mp h
    obtain ⟨p₂, -, h⟩ := bind_eq_ok.mp h
    obtain ⟨p₃, -, h⟩ := bind_eq_ok.mp h
    obtain ⟨-, hpos, hlen⟩ := by simpa using Except.ok.inj h
    rw [if_pos h269]
    exact ⟨by omega, hlen.symm⟩
  · obtain ⟨p₁, -, h⟩ := bind_eq_ok.mp h
    obtain ⟨p₂, -, h⟩ := bind_eq_ok.mp h
    obtain ⟨-, hpos, hlen⟩ := by simpa using Except.ok.inj h
    rw [if_neg h269]
    exact ⟨by omega, hlen.symm⟩

theorem insertOption_take (p : CoapPDU) (start : ℕ) (δ : UInt16) (v : List UInt8) :
    p.insertOption start δ (UInt16.ofNat v.length) v =
      p.insertOption start δ (UInt16.ofNat v.length) (v.take (v.length % 65536)) := by
  unfold insertOption
  dsimp only
  generalize p.insertOptionDelta start δ = r
  cases r with
  | error e => rfl
  | ok r =>
    simp only [ok_bind]
    generalize hlen : r.1.insertOptionLength start r.2 (UInt16.ofNat v.length) = s
    cases s with
    | error e => rfl
    | ok s =>
      have hle : s.2.2.toNat ≤ v.length % 65536 := by
        rw [(of_insertOptionLength hlen).2]
        split_ifs with h269
        · rw [UInt16.toNat_ofNat']
        · rw [UInt16.toNat_sub_of_le _ _ (UInt16.not_lt.mp h269), UInt16.toNat_ofNat']
          exact Nat.sub_le _ _
      simp only [ok_bind, List.take_take, Nat.min_eq_left hle]

theorem lt_of_insertOption (h : p.insertOption start δ len v = .ok q) (h269 : ¬ len < 269) :
    start + (v.take (len - 269).toNat).length < p.pdu.length := by
  obtain ⟨⟨p₁, pos₁⟩, h₁, h⟩ := bind_eq_ok.mp h
  obtain ⟨⟨p₂, pos₂, len₂⟩, h₂, h⟩ := bind_eq_ok.mp h
  obtain ⟨hpos, hlen⟩ := of_insertOptionLength h₂
  have hstart := le_insertOptionDelta h₁
  obtain ⟨m₁, hm₁, rfl⟩ := rewrites_insertOptionDelta h₁
  obtain ⟨m₂, hm₂, rfl⟩ := rewrites_insertOptionLength h₂
  rw [if_neg h269] at hlen
  subst hlen
  unfold memcpy at h
  dsimp only at h
  split_ifs at h with hin
  simp only [pdu_withPdu] at hin hm₂
  omega

theorem Filled.makeRoom (h : p.Filled b) (k : ℕ) :
    ∃ q, p.makeRoom (p.pduLength + k) = (q, true) ∧ q.Filled b ∧
      q.pdu = p.pdu ++ List.replicate k b ∧ q.maxAddedOptionNumber = p.maxAddedOptionNumber := by
  have hpdu : p.pdu.take (p.pduLength + k) ++
      (List.range (p.pduLength + k - p.pdu.length)).map (fun _ => b) =
        p.pdu ++ List.replicate k b := by
    rw [h.inside, List.take_of_length_le (Nat.le_add_right _ _), Nat.add_sub_cancel_left,
      List.map_const', List.length_range]
  refine ⟨{ p with
      addr := 0
      pdu := p.pdu ++ List.replicate k b
      pduLength := p.pduLength + k
      bufferLength := p.pduLength + k }, ?_, ⟨h.dynamic, ?_, h.heap⟩, rfl, rfl⟩
  · simp only [CoapPDU.makeRoom, h.dynamic, Bool.false_eq_true, if_false, realloc, h.heap, hpdu]
  · rw [List.length_append, List.length_replicate, ← h.inside]

/-- The copy of a value stays in the room that was made for it only when the 16 bits of that
room did not overflow. -/
theorem space_of_insertOption {a : List UInt8} (hp : p.pdu.length = a.length + optionSpace δ v)
    (hv : v.length < 65536)
    (h : p.insertOption a.length δ (UInt16.ofNat v.length) v = .ok q) :
    optionSpace δ v = (encodeRecord (δ.toNat, v)).length := by
  have hlen : (UInt16.ofNat v.length).toNat = v.length := by
    rw [UInt16.toNat_ofNat', Nat.mod_eq_of_lt hv]
  have hext := length_extension_le δ.toNat
  have hext' := length_extension_le v.length
  rw [length_encodeRecord, optionSpace]
  refine Nat.mod_eq_of_lt ?_
  by_contra hwrap
  have h269 : ¬ UInt16.ofNat v.length < 269 := by
    rw [UInt16.lt_iff_toNat_lt, hlen]
    change ¬ v.length < 269
    omega
  have hlong := lt_of_insertOption h h269
  rw [hp, List.length_take, UInt16.toNat_sub_of_le _ _ (UInt16.not_lt.mp h269), hlen,
    optionSpace] at hlong
  change a.length + min (v.length - 269) v.length < _ at hlong
  omega

theorem Filled.addOption {result : ℕ} (h : p.Filled b) (hn : p.maxAddedOptionNumber ≤ n)
    (hadd : p.addOption n v = .ok (q, result)) :
    result = 0 ∧ q.Filled b ∧ q.maxAddedOptionNumber = n ∧
      q.pdu = p.pdu ++ encodeRecord ((n - p.maxAddedOptionNumber).toNat, storedIn b v) := by
  obtain ⟨δ, hδ⟩ : ∃ δ, δ = n - p.maxAddedOptionNumber := ⟨_, rfl⟩
  obtain ⟨u, hu⟩ : ∃ u, u = v.take (v.length % 65536) := ⟨_, rfl⟩
  have hulen : u.length = v.length % 65536 := by rw [hu, length_take_mod]
  have hlt : u.length < 65536 := by omega
  have hofNat : UInt16.ofNat v.length = UInt16.ofNat u.length := by
    apply UInt16.toNat_inj.mp
    rw [UInt16.toNat_ofNat', UInt16.toNat_ofNat', hulen, Nat.mod_mod]
  obtain ⟨r, hroom, hr, hpdu, hmax⟩ := Filled.makeRoom (p := { p with maxAddedOptionNumber := n })
    ⟨h.dynamic, h.inside, h.heap⟩ (optionSpace δ u)
  dsimp only at hroom hpdu hmax
  rw [addOption_behind hn, ← hδ, ← hu, appendOption] at hadd
  dsimp only at hadd
  rw [hroom] at hadd
  dsimp only at hadd
  rw [insertOption_take, ← hu, hofNat, h.inside] at hadd
  obtain ⟨s, hins, hs⟩ := bind_eq_ok.mp hadd
  obtain ⟨rfl, rfl⟩ := Prod.mk.inj (Except.ok.inj hs)
  have hspace := space_of_insertOption (by rw [hpdu, List.length_append, List.length_replicate])
    hlt hins
  obtain rfl := Except.ok.inj (hins.symm.trans (insertOption_replicate hpdu hlt hspace))
  rw [← hδ, storedIn, ← hu, ← hulen]
  refine ⟨rfl, ⟨hr.dynamic, ?_, hr.heap⟩, hmax, rfl⟩
  have := hr.inside
  rw [hpdu, List.length_append, List.length_replicate, hspace, length_encodeRecord] at this
  simp only [pdu_withPdu, pduLength_withPdu, List.length_append, length_encodeRecord,
    length_storedValue (List.length_replicate (n := u.length) (a := b))]
  omega

theorem sortedFrom_map_storedIn {k : ℕ} {pairs : List Opt} (hs : SortedFrom Opt.key k pairs) :
    SortedFrom Opt.key k (pairs.map fun o => ⟨o.number, storedIn b o.value⟩) := by
  induction pairs generalizing k with
  | nil => trivial
  | cons o pairs ih => exact ⟨hs.1, ih hs.2⟩

theorem Filled.addUntil {result : ℕ} {pairs : List Opt} (h : p.Filled b)
    (hs : SortedFrom Opt.key p.maxAddedOptionNumber.toNat pairs)
    (hadd : p.addUntil pairs = .ok (q, result)) :
    q.bytes = p.pdu ++ encodeOptions p.maxAddedOptionNumber.toNat
      (pairs.map fun o => ⟨o.number, storedIn b o.value⟩) := by
  induction pairs generalizing p with
  | nil =>
    obtain ⟨rfl, -⟩ := Prod.mk.inj (Except.ok.inj hadd)
    rw [List.map_nil, encodeOptions_nil, List.append_nil, bytes, h.inside, List.take_length]
  | cons o pairs ih =>
    obtain ⟨⟨r, failed⟩, hfirst, hrest⟩ := bind_eq_ok.mp hadd
    have hle : p.maxAddedOptionNumber ≤ o.number := UInt16.le_iff_toNat_le.mpr hs.1
    obtain ⟨rfl, hr, hmax, hpdu⟩ := h.addOption hle hfirst
    have hs' : SortedFrom Opt.key r.maxAddedOptionNumber.toNat pairs := hmax ▸ hs.2
    rw [ih hr hs' hrest, hpdu, hmax, UInt16.toNat_sub_of_le _ _ hle, List.append_assoc,
      List.map_cons, encodeOptions_cons]

theorem stored_of_addUntil {result : ℕ} {pairs opts : List Opt} (hs : SortedFrom Opt.key 0 pairs)
    (hadd : (grown b).addUntil pairs = .ok (q, result)) (hq : q.Holds (grown b).pdu opts []) :
    pairs.map (fun o => ⟨o.number, storedIn b o.value⟩) = opts := by
  have hbytes := (filled_grown b).addUntil hs hadd
  rw [hq.bytes_eq, encodeMessage] at hbytes
  have hshort : ∀ o ∈ pairs.map fun o => (⟨o.number, storedIn b o.value⟩ : Opt),
      o.value.length < 65536 + 269 := by
    intro o ho
    obtain ⟨o, -, rfl⟩ := List.mem_map.mp ho
    rw [length_storedIn]
    omega
  refine (encode_inj (p := []) (q := []) (sortedFrom_map_storedIn hs) hq.sorted hshort
    (fun o ho => (hq.short o ho).trans (by omega)) ?_).1
  rw [encodePayload_nil, List.append_nil, List.append_nil]
  rw [encodePayload_nil, List.append_nil] at hbytes
  exact (List.append_cancel_left hbytes).symm

end Filled

end Mbtk.Coap.CoapPDU
