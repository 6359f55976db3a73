import Mbtk.Lib.Bits
import Mbtk.Lib.DeltaCode
import Mbtk.Lib.ExtNat

namespace Mbtk.Coap

open Lib Lib.ExtNat

structure Opt where
  number : UInt16
  value : List UInt8
  deriving DecidableEq

abbrev Opt.key (o : Opt) : ℕ := o.number.toNat

theorem Opt.ext_key {o o' : Opt} (hk : o.key = o'.key) (hv : o.value = o'.value) : o = o' := by
  cases o
  cases o'
  simp only [Opt.key, UInt16.toNat_inj] at hk
  simp only at hv
  rw [hk, hv]

/-- The bytes of an option whose number lies `r.1` above the one before. -/
def encodeRecord (r : ℕ × List UInt8) : List UInt8 :=
  byteOf (nibble r.1) (nibble r.2.length) :: (extension r.1 ++ extension r.2.length ++ r.2)

def optionRecords (k : ℕ) (opts : List Opt) : List (ℕ × List UInt8) :=
  deltas Opt.key Opt.value k opts

def encodeOptions (k : ℕ) (opts : List Opt) : List UInt8 :=
  (optionRecords k opts).flatMap encodeRecord

def encodePayload (payload : List UInt8) : List UInt8 :=
  if payload = [] then [] else 0xFF :: payload

def RecordOk (r : ℕ × List UInt8) : Prop := r.1 < 65536 + 269 ∧ r.2.length < 65536 + 269

@[simp] theorem encodeOptions_nil (k : ℕ) : encodeOptions k [] = [] := rfl

@[simp] theorem encodeOptions_cons (k : ℕ) (o : Opt) (opts : List Opt) :
    encodeOptions k (o :: opts) = encodeRecord (o.key - k, o.value) ++ encodeOptions o.key opts :=
  rfl

theorem encodeOptions_append (k : ℕ) (A B : List Opt) :
    encodeOptions k (A ++ B) = encodeOptions k A ++ encodeOptions (lastKey Opt.key k A) B := by
  simp [encodeOptions, optionRecords, deltas_append]

@[simp] theorem encodePayload_nil : encodePayload [] = [] := rfl

theorem encodePayload_of_ne_nil {pay : List UInt8} (h : pay ≠ []) :
    encodePayload pay = 0xFF :: pay := by simp [encodePayload, h]

theorem length_encodeRecord (r : ℕ × List UInt8) :
    (encodeRecord r).length =
      1 + (extension r.1).length + (extension r.2.length).length + r.2.length := by
  simp only [encodeRecord, List.length_cons, List.length_append]
  omega

theorem length_encodeRecord_pos (r : ℕ × List UInt8) : 0 < (encodeRecord r).length := by
  rw [length_encodeRecord]
  omega

theorem byteOf_nibble_ne (m n : ℕ) : byteOf (nibble m) (nibble n) ≠ 0xFF := by
  intro h
  have hm := nibble_le m
  have hn := nibble_le n
  have := congrArg UInt8.toNat h
  rw [toNat_byteOf (by omega) (by omega)] at this
  change 16 * nibble m + nibble n = 255 at this
  omega

theorem byteOf_inj {u l u' l' : ℕ} (hu : u < 16) (hl : l < 16) (hu' : u' < 16) (hl' : l' < 16)
    (h : byteOf u l = byteOf u' l') : u = u' ∧ l = l' := by
  have := congrArg UInt8.toNat h
  rw [toNat_byteOf hu hl, toNat_byteOf hu' hl'] at this
  omega

theorem length_extension_of_nibble {m n : ℕ} (h : nibble m = nibble n) :
    (extension m).length = (extension n).length := by
  rw [length_extension, length_extension]
  unfold nibble at h
  split_ifs at h ⊢ <;> omega

theorem nibble_extension_inj {m n : ℕ} (hm : m < 65536 + 269) (hn : n < 65536 + 269)
    (hnib : nibble m = nibble n) (hext : extension m = extension n) : m = n := by
  have h := reads_extension hm
  rw [hnib, hext] at h
  exact h.unique (reads_extension hn)

theorem encodeRecord_selfDelimiting : SelfDelimiting encodeRecord RecordOk := by
  rintro ⟨m, v⟩ ⟨n, w⟩ s t ⟨hm, hv⟩ ⟨hn, hw⟩ h
  simp only [encodeRecord, List.cons_append, List.cons.injEq, List.append_assoc] at h
  obtain ⟨hhead, hrest⟩ := h
  obtain ⟨hu, hl⟩ := byteOf_inj (by have := nibble_le m; omega)
    (by have := nibble_le v.length; omega) (by have := nibble_le n; omega)
    (by have := nibble_le w.length; omega) hhead
  obtain ⟨hext, hrest⟩ := List.append_inj hrest (length_extension_of_nibble hu)
  obtain ⟨hext', hrest⟩ := List.append_inj hrest (length_extension_of_nibble hl)
  have hmn : m = n := nibble_extension_inj hm hn hu hext
  obtain ⟨hvw, hst⟩ := List.append_inj hrest (nibble_extension_inj hv hw hl hext')
  exact ⟨Prod.ext hmn hvw, hst⟩

theorem encodePayload_stops (pay : List UInt8) :
    Stops encodeRecord RecordOk (encodePayload pay) := by
  rintro ⟨n, v⟩ t _ h
  unfold encodePayload at h
  split at h
  · simp [encodeRecord] at h
  · simp only [encodeRecord, List.cons_append, List.cons.injEq] at h
    exact byteOf_nibble_ne _ _ h.1

theorem encodePayload_injective : Function.Injective encodePayload := by
  intro p q h
  unfold encodePayload at h
  split_ifs at h with hp hq hq
  · rw [hp, hq]
  · exact (List.cons.inj h).2

theorem recordOk_of_mem {k : ℕ} {opts : List Opt} (hv : ∀ o ∈ opts, o.value.length < 65536 + 269) :
    ∀ r ∈ optionRecords k opts, RecordOk r := by
  induction opts generalizing k with
  | nil => simp [optionRecords]
  | cons o opts ih =>
    intro r hr
    obtain rfl | hr := List.mem_cons.mp hr
    · have := o.number.toNat_lt
      exact ⟨by simp only [Opt.key]; omega, hv o (by simp)⟩
    · exact ih (fun o ho => hv o (by simp [ho])) r hr

theorem encode_inj {k : ℕ} {A B : List Opt} {p q : List UInt8} (hA : SortedFrom Opt.key k A)
    (hB : SortedFrom Opt.key k B) (hvA : ∀ o ∈ A, o.value.length < 65536 + 269)
    (hvB : ∀ o ∈ B, o.value.length < 65536 + 269)
    (h : encodeOptions k A ++ encodePayload p = encodeOptions k B ++ encodePayload q) :
    A = B ∧ p = q := by
  obtain ⟨hr, hp⟩ := encodeRecord_selfDelimiting.flatMap_inj (recordOk_of_mem hvA)
    (recordOk_of_mem hvB) (encodePayload_stops p) (encodePayload_stops q) h
  exact ⟨deltas_injective Opt.key Opt.value (fun _ _ => Opt.ext_key) hA hB hr,
    encodePayload_injective hp⟩

/-- The grammar of the option region behind the exact option number `k`: options whose
nibbles are at most 14 and whose exact number fits 16 bits, up to the end of the data or
a marker with at least one byte of payload. -/
inductive ParsesOptions : ℕ → List UInt8 → List Opt → List UInt8 → Prop
  | done (k : ℕ) : ParsesOptions k [] [] []
  | payload (k : ℕ) {pay : List UInt8} : pay ≠ [] → ParsesOptions k (0xFF :: pay) [] pay
  | option {k dn ln Δ : ℕ} {number : UInt16} {de le v rest pay : List UInt8} {opts : List Opt} :
      Reads dn de Δ → Reads ln le v.length → number.toNat = k + Δ →
      ParsesOptions number.toNat rest opts pay →
      ParsesOptions k (byteOf dn ln :: (de ++ le ++ v ++ rest)) (⟨number, v⟩ :: opts) pay

theorem ParsesOptions.encode {k : ℕ} {bs pay : List UInt8} {opts : List Opt}
    (h : ParsesOptions k bs opts pay) :
    bs = encodeOptions k opts ++ encodePayload pay ∧ SortedFrom Opt.key k opts ∧
      ∀ o ∈ opts, o.value.length < 65536 + 269 := by
  induction h with
  | done k => simp
  | payload k hp => simp [encodePayload_of_ne_nil hp]
  | @option k dn ln Δ number de le v rest pay opts hd hl hnum _ ih =>
    obtain ⟨hrest, hs, hv⟩ := ih
    have hΔ : number.toNat - k = Δ := by omega
    refine ⟨?_, ⟨by simp only [Opt.key]; omega, hs⟩, ?_⟩
    · rw [encodeOptions_cons, encodeRecord, Opt.key, hΔ, hd.eq_nibble, hl.eq_nibble,
        hd.eq_extension, hl.eq_extension, hrest]
      simp
    · intro o ho
      obtain rfl | ho := List.mem_cons.mp ho
      · exact hl.lt
      · exact hv o ho

theorem parsesOptions_encode {k : ℕ} {opts : List Opt} (pay : List UInt8)
    (hs : SortedFrom Opt.key k opts) (hv : ∀ o ∈ opts, o.value.length < 65536 + 269) :
    ParsesOptions k (encodeOptions k opts ++ encodePayload pay) opts pay := by
  induction opts generalizing k with
  | nil =>
    by_cases hp : pay = []
    · subst hp
      exact .done k
    · rw [encodeOptions_nil, encodePayload_of_ne_nil hp]
      exact .payload k hp
  | cons o opts ih =>
    have hk : k ≤ o.number.toNat := hs.1
    have hlt := o.number.toNat_lt
    have hrest := ih hs.2 fun o ho => hv o (by simp [ho])
    have hdelta := reads_extension (n := o.number.toNat - k) (by omega)
    have hlen := reads_extension (n := o.value.length) (hv o (by simp))
    have := ParsesOptions.option (k := k) hdelta hlen (by omega) hrest
    simpa [encodeRecord, Opt.key] using this

theorem ParsesOptions.unique {k : ℕ} {bs p q : List UInt8} {A B : List Opt}
    (hA : ParsesOptions k bs A p) (hB : ParsesOptions k bs B q) : A = B ∧ p = q := by
  obtain ⟨hbA, hsA, hvA⟩ := hA.encode
  obtain ⟨hbB, hsB, hvB⟩ := hB.encode
  exact encode_inj hsA hsB hvA hvB (hbA.symm.trans hbB)

end Mbtk.Coap
