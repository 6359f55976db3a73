import Mathlib.Data.List.TakeWhile
import Mbtk.Lib.Cuts
import Mbtk.Sock.InetPton

namespace Mbtk.Sock

open Lib

section Octets

/-- A text of one byte, with any zeros in front. -/
def IsOctet (text : List UInt8) (b : UInt8) : Prop :=
  text ≠ [] ∧ numeral 10 (strchr digits) 0 text = some b.toNat

/-- Bytes with a dot between each two. -/
inductive Octets : List UInt8 → List UInt8 → Prop
  | last {t : List UInt8} {b : UInt8} : IsOctet t b → Octets t [b]
  | dot {t rest bytes : List UInt8} {b : UInt8} : IsOctet t b → Octets rest bytes →
      Octets (t ++ 0x2E :: rest) (b :: bytes)

variable {text pre src rest bytes dst : List UInt8} {b ch : UInt8} {d v : ℕ} {s : Pton4}

theorem not_mem_of_numeral {base u : ℕ} {digit : UInt8 → Option ℕ} {c : UInt8}
    (h : numeral base digit u text = some v) (hc : digit c = none) : c ∉ text := by
  intro hmem
  obtain ⟨d, hd⟩ := digit_of_numeral h c hmem
  cases hc.symm.trans hd

theorem strchr_digits_dot : strchr digits 0x2E = none := by decide

theorem IsOctet.not_dot (h : IsOctet text b) : 0x2E ∉ text :=
  not_mem_of_numeral h.2 strchr_digits_dot

theorem Octets.exists_first (h : Octets text bytes) : ∃ t b, IsOctet t b ∧
    ((text = t ∧ bytes = [b]) ∨
      ∃ rest bytes', text = t ++ 0x2E :: rest ∧ bytes = b :: bytes' ∧ Octets rest bytes') := by
  cases h with
  | @last t b ht => exact ⟨_, b, ht, .inl ⟨rfl, rfl⟩⟩
  | @dot t rest bytes b ht hrest => exact ⟨t, b, ht, .inr ⟨rest, _, rfl, rfl, hrest⟩⟩

theorem Octets.exists_of_digits (h : Octets (pre ++ src) bytes)
    (hpre : numeral 10 (strchr digits) 0 pre = some v) : ∃ t b, IsOctet (pre ++ t) b := by
  obtain ⟨t, b, ht, ⟨heq, -⟩ | ⟨rest, bytes', heq, -⟩⟩ := h.exists_first
  · exact ⟨src, b, heq ▸ ht⟩
  · obtain ⟨c, rfl, -⟩ := prefix_of_notMem (not_mem_of_numeral hpre strchr_digits_dot) heq
    exact ⟨c, b, ht⟩

theorem octets_digits_iff (hpre : numeral 10 (strchr digits) 0 pre = some v) :
    Octets pre bytes ↔ pre ≠ [] ∧ ∃ b : UInt8, b.toNat = v ∧ bytes = [b] := by
  constructor
  · intro h
    obtain ⟨t, b, ht, ⟨rfl, rfl⟩ | ⟨rest, bytes', rfl, -⟩⟩ := h.exists_first
    · exact ⟨ht.1, b, Option.some.inj (ht.2.symm.trans hpre), rfl⟩
    · exact absurd (List.mem_append_right t List.mem_cons_self)
        (not_mem_of_numeral hpre strchr_digits_dot)
  · rintro ⟨hne, b, rfl, rfl⟩
    exact .last ⟨hne, hpre⟩

theorem octets_digits_dot_iff (hpre : numeral 10 (strchr digits) 0 pre = some v) :
    Octets (pre ++ 0x2E :: src) bytes ↔
      pre ≠ [] ∧ ∃ (b : UInt8) (bytes' : List UInt8), b.toNat = v ∧ bytes = b :: bytes' ∧
        Octets src bytes' := by
  have hdot := not_mem_of_numeral hpre strchr_digits_dot
  constructor
  · intro h
    obtain ⟨t, b, ht, ⟨heq, rfl⟩ | ⟨rest, bytes', heq, rfl, hrest⟩⟩ := h.exists_first
    · exact absurd (heq ▸ List.mem_append_right pre List.mem_cons_self) ht.not_dot
    · obtain ⟨rfl, rfl⟩ := (append_cons_inj_of_notMem hdot ht.not_dot).mp heq
      exact ⟨ht.1, b, bytes', Option.some.inj (ht.2.symm.trans hpre), rfl, hrest⟩
  · rintro ⟨hne, b, bytes', rfl, rfl, hrest⟩
    exact .dot ⟨hne, hpre⟩ hrest

theorem Octets.chars (h : Octets text bytes) :
    ∀ c ∈ text, c = 0x2E ∨ ∃ d, strchr digits c = some d := by
  induction h with
  | last ht => exact fun c hc => .inr (digit_of_numeral ht.2 c hc)
  | dot ht _ ih =>
    exact List.forall_mem_append.mpr ⟨fun c hc => .inr (digit_of_numeral ht.2 c hc),
      List.forall_mem_cons.mpr ⟨.inl rfl, ih⟩⟩

structure Pton4.Reads (s : Pton4) (pre : List UInt8) : Prop where
  sawDigit : s.sawDigit = true ↔ pre ≠ []
  last : numeral 10 (strchr digits) 0 pre = some s.last.toNat
  octets : s.octets = s.tmp.length + if pre = [] then 0 else 1
  length_tmp : s.tmp.length < 4

theorem Octets.length_pos (h : Octets text bytes) : 0 < bytes.length := by
  cases h <;> simp

theorem not_octets_of_lt (hpre : numeral 10 (strchr digits) 0 pre = some v) (hv : 255 < v) :
    ¬ Octets (pre ++ src) bytes := by
  intro h
  obtain ⟨t, b, -, ht⟩ := h.exists_of_digits hpre
  rw [numeral_append, hpre] at ht
  have hle := le_of_numeral (by decide) ht
  have hlt := b.toNat_lt
  omega

theorem toNat_ofNat_of_not_lt {n : ℕ} (h : ¬ 255 < n) : (UInt8.ofNat n).toNat = n :=
  UInt8.toNat_ofNat_of_lt' (Nat.lt_of_le_of_lt (Nat.not_lt.mp h) (by decide))

theorem Pton4.Reads.digit {saw : Bool} {last : UInt8} {octets : ℕ} (h : s.Reads pre)
    (hd : strchr digits ch = some d) (hsaw : saw = true)
    (hlast : last.toNat = s.last.toNat * 10 + d) (hoctets : octets = s.tmp.length + 1) :
    Pton4.Reads ⟨saw, octets, s.tmp, last⟩ (pre ++ [ch]) where
  sawDigit := by simp [hsaw]
  last := by rw [numeral_concat h.last hd, hlast]
  octets := by simpa using hoctets
  length_tmp := h.length_tmp

theorem Pton4.Reads.nil (h : s.Reads pre) : pton4Loop [] s = some dst ↔
    ∃ bytes, Octets pre bytes ∧ s.tmp.length + bytes.length = 4 ∧ dst = s.tmp ++ bytes := by
  obtain ⟨hsaw, hlast, hoctets, hlen⟩ := h
  rw [pton4Loop]
  simp only [octets_digits_iff hlast]
  split_ifs with hfour
  · refine iff_of_false nofun ?_
    rintro ⟨bytes, ⟨hne, b, -, rfl⟩, hsum, -⟩
    rw [if_neg hne] at hoctets
    rw [List.length_singleton] at hsum
    omega
  · rw [Option.some.injEq]
    constructor
    · rintro rfl
      split_ifs at hoctets with hpre
      · omega
      · exact ⟨[s.last], ⟨hpre, s.last, rfl, rfl⟩, by rw [List.length_singleton]; omega, rfl⟩
    · rintro ⟨bytes, ⟨-, b, hb, rfl⟩, -, rfl⟩
      rw [UInt8.toNat_inj.mp hb]

theorem Pton4.Reads.dot (h : s.Reads pre) (hne : pre ≠ []) :
    (∃ bytes, Octets src bytes ∧ (s.tmp ++ [s.last]).length + bytes.length = 4 ∧
        dst = s.tmp ++ [s.last] ++ bytes) ↔
      ∃ bytes, Octets (pre ++ 0x2E :: src) bytes ∧ s.tmp.length + bytes.length = 4 ∧
        dst = s.tmp ++ bytes := by
  simp only [octets_digits_dot_iff h.last, List.length_append, List.length_singleton,
    List.append_assoc, List.singleton_append]
  constructor
  · rintro ⟨bytes, hbytes, hsum, rfl⟩
    exact ⟨_, ⟨hne, s.last, bytes, rfl, rfl, hbytes⟩, by rw [List.length_cons]; omega, rfl⟩
  · rintro ⟨bytes, ⟨-, b, bytes', hb, rfl, hbytes⟩, hsum, rfl⟩
    rw [List.length_cons] at hsum
    exact ⟨bytes', hbytes, by omega, by rw [UInt8.toNat_inj.mp hb]⟩

theorem pton4Loop_iff (h : s.Reads pre) : pton4Loop src s = some dst ↔
    ∃ bytes, Octets (pre ++ src) bytes ∧ s.tmp.length + bytes.length = 4 ∧
      dst = s.tmp ++ bytes := by
  induction src generalizing s pre with
  | nil =>
    rw [List.append_nil]
    exact h.nil
  | cons ch src ih =>
    rw [pton4Loop]
    cases hdigit : strchr digits ch with
    | some d =>
      have hconcat := numeral_concat h.last hdigit
      dsimp only
      rw [List.append_cons]
      split_ifs with hnew hsaw hmany
      · exact iff_of_false nofun fun ⟨bytes, hbytes, _⟩ => not_octets_of_lt hconcat hnew hbytes
      · refine ih (h.digit hdigit hsaw (toNat_ofNat_of_not_lt hnew) ?_)
        rw [h.octets, if_neg (h.sawDigit.mp hsaw)]
      · have hoctets := h.octets
        have hlen := h.length_tmp
        rw [if_pos (not_not.mp fun hne => hsaw (h.sawDigit.mpr hne))] at hoctets
        omega
      · refine ih (h.digit hdigit rfl (toNat_ofNat_of_not_lt hnew) ?_)
        rw [h.octets, if_pos (not_not.mp fun hne => hsaw (h.sawDigit.mpr hne))]
    | none =>
      dsimp only
      split_ifs with hdot hfour
      · obtain ⟨rfl, hsaw⟩ := hdot
        have hoctets := h.octets
        rw [if_neg (h.sawDigit.mp hsaw)] at hoctets
        refine iff_of_false nofun ?_
        rintro ⟨bytes, hbytes, hsum, -⟩
        obtain ⟨-, b, bytes', -, rfl, hrest⟩ := (octets_digits_dot_iff h.last).mp hbytes
        have hpos := hrest.length_pos
        rw [List.length_cons] at hsum
        omega
      · obtain ⟨rfl, hsaw⟩ := hdot
        have hne := h.sawDigit.mp hsaw
        have hlen := h.length_tmp
        have hoctets := h.octets
        rw [if_neg hne] at hoctets
        have hreads : Pton4.Reads ⟨false, s.octets, s.tmp ++ [s.last], 0⟩ [] :=
          ⟨by simp, rfl, by simpa using hoctets, by simp; omega⟩
        exact (ih hreads).trans (h.dot hne)
      · refine iff_of_false nofun ?_
        rintro ⟨bytes, hbytes, -⟩
        obtain rfl | ⟨d, hd⟩ := hbytes.chars ch (by simp)
        · exact hdot ⟨rfl, h.sawDigit.mpr ((octets_digits_dot_iff h.last).mp hbytes).1⟩
        · cases hdigit.symm.trans hd

theorem inetPton4_iff : inetPton4 src = some dst ↔ Octets src dst ∧ dst.length = INADDRSZ := by
  have hreads : Pton4.Reads ⟨false, 0, [], 0⟩ [] := ⟨by simp, rfl, rfl, by decide⟩
  rw [inetPton4, pton4Loop_iff hreads]
  simp [INADDRSZ]

end Octets

section Tokens

/-- A text of two bytes, with any zeros in front. -/
def IsGroup (text bytes : List UInt8) : Prop :=
  text ≠ [] ∧ ∃ val ≤ 0xFFFF, numeral 16 xdigit 0 text = some val ∧ bytes = bytes16 val

inductive Last : List UInt8 → List UInt8 → Prop
  | none : Last [] []
  | group {t bytes : List UInt8} : IsGroup t bytes → Last t bytes
  | quad {t bytes : List UInt8} : Octets t bytes → bytes.length = INADDRSZ → Last t bytes

/-- A text from the beginning of a group on, between the bytes and `colonp` in front of it and
those at its end. -/
inductive Tokens : List UInt8 → Option ℕ → List UInt8 → List UInt8 → Option ℕ → Prop
  | last {tmp t bytes : List UInt8} {colonp : Option ℕ} : Last t bytes →
      tmp.length + bytes.length ≤ IN6ADDRSZ → Tokens tmp colonp t (tmp ++ bytes) colonp
  | group {tmp t bytes rest tmp' : List UInt8} {colonp colonp' : Option ℕ} : IsGroup t bytes →
      tmp.length + INT16SZ ≤ IN6ADDRSZ → Tokens (tmp ++ bytes) colonp rest tmp' colonp' →
      Tokens tmp colonp (t ++ 0x3A :: rest) tmp' colonp'
  | colon {tmp rest tmp' : List UInt8} {colonp' : Option ℕ} :
      Tokens tmp (some tmp.length) rest tmp' colonp' →
      Tokens tmp none (0x3A :: rest) tmp' colonp'

variable {text pre src rest tmp tmp' bytes dst : List UInt8} {colonp colonp' : Option ℕ}
  {ch : UInt8} {d v : ℕ} {s : Pton6}

theorem xdigit_colon : xdigit 0x3A = none := by decide

theorem xdigit_dot : xdigit 0x2E = none := by decide

theorem xdigit_of_digit (h : strchr digits ch = some d) : xdigit ch = some d := by
  have hl : strchr xdigitsL ch = some d := by
    rw [strchr, xdigitsL, List.findIdx?_append]
    exact Option.or_eq_some_iff.mpr (.inl h)
  rw [xdigit, hl]

theorem lt_of_strchr {l : List UInt8} (h : strchr l ch = some d) : d < l.length :=
  (List.findIdx?_eq_some_iff_findIdx_eq.mp h).1

theorem xdigit_lt (h : xdigit ch = some d) : d < 16 := by
  unfold xdigit at h
  split at h
  case h_1 _ hl => exact Option.some.inj h ▸ lt_of_strchr hl
  case h_2 => exact lt_of_strchr h

@[simp] theorem length_bytes16 (val : ℕ) : (bytes16 val).length = 2 := rfl

theorem IsOctet.xdigits {b : UInt8} (h : IsOctet text b) :
    ∃ w ≤ 0xFFFF, numeral 16 xdigit 0 text = some w := by
  obtain ⟨w, hw, hle⟩ : ∃ w, numeral 16 xdigit 0 text = some w ∧ w ≤ b.toNat ^ 2 :=
    numeral_le_sq (fun _ _ => xdigit_of_digit) (by decide) (Nat.zero_le _) h.2
  have hb : b.toNat ^ 2 ≤ 255 ^ 2 := Nat.pow_le_pow_left (Nat.le_of_lt_succ b.toNat_lt) 2
  exact ⟨w, hle.trans (hb.trans (by decide)), hw⟩

theorem Tokens.exists_digits (h : Tokens tmp colonp text tmp' colonp') : ∃ t rest w,
    text = t ++ rest ∧ w ≤ 0xFFFF ∧ numeral 16 xdigit 0 t = some w ∧
      ∀ ch rest', rest = ch :: rest' → xdigit ch = none := by
  cases h with
  | last hlast _ =>
    cases hlast with
    | none => exact ⟨[], [], 0, rfl, by decide, rfl, nofun⟩
    | group hgroup =>
      obtain ⟨-, w, hw, hnum, -⟩ := hgroup
      exact ⟨_, [], w, (List.append_nil _).symm, hw, hnum, nofun⟩
    | quad hquad _ =>
      obtain ⟨t, b, ht, ⟨rfl, -⟩ | ⟨rest, -, rfl, -⟩⟩ := hquad.exists_first
      · obtain ⟨w, hw, hnum⟩ := ht.xdigits
        exact ⟨_, [], w, (List.append_nil _).symm, hw, hnum, nofun⟩
      · obtain ⟨w, hw, hnum⟩ := ht.xdigits
        refine ⟨t, _, w, rfl, hw, hnum, ?_⟩
        rintro ch rest' ⟨⟩
        exact xdigit_dot
  | group hgroup =>
    obtain ⟨-, w, hw, hnum, -⟩ := hgroup
    refine ⟨_, _, w, rfl, hw, hnum, ?_⟩
    rintro ch rest' ⟨⟩
    exact xdigit_colon
  | colon =>
    refine ⟨[], _, 0, rfl, by decide, rfl, ?_⟩
    rintro ch rest' ⟨⟩
    exact xdigit_colon

theorem not_tokens_of_lt (hpre : numeral 16 xdigit 0 pre = some v) (hv : 0xFFFF < v) :
    ¬ Tokens tmp colonp (pre ++ src) tmp' colonp' := by
  intro h
  obtain ⟨t, rest, w, heq, hw, hnum, hrest⟩ := h.exists_digits
  obtain ⟨c, rfl, -⟩ | ⟨c, rfl, rfl⟩ := List.append_eq_append_iff.mp heq
  · rw [numeral_append, hpre] at hnum
    have hle := le_of_numeral (by decide) hnum
    omega
  · cases c with
    | nil =>
      rw [List.append_nil, hnum] at hpre
      have hwv := Option.some.inj hpre
      omega
    | cons ch c => exact not_mem_of_numeral hpre (hrest ch _ rfl) (by simp)

theorem tokens_digits_iff (hpre : numeral 16 xdigit 0 pre = some v) (hv : v ≤ 0xFFFF) :
    Tokens tmp colonp pre tmp' colonp' ↔ colonp' = colonp ∧
      if pre = [] then tmp' = tmp ∧ tmp.length ≤ IN6ADDRSZ
      else tmp' = tmp ++ bytes16 v ∧ tmp.length + INT16SZ ≤ IN6ADDRSZ := by
  have hcolon := not_mem_of_numeral hpre xdigit_colon
  have hdot := not_mem_of_numeral hpre xdigit_dot
  constructor
  · intro h
    cases h with
    | last hlast hlen =>
      refine ⟨rfl, ?_⟩
      cases hlast with
      | none => exact ⟨List.append_nil tmp, hlen⟩
      | group hgroup =>
        obtain ⟨hne, w, -, hnum, rfl⟩ := hgroup
        rw [if_neg hne, Option.some.inj (hpre.symm.trans hnum)]
        exact ⟨rfl, hlen⟩
      | quad hquad hfour =>
        obtain ⟨t, b, ht, ⟨rfl, rfl⟩ | ⟨rest, -, rfl, -⟩⟩ := hquad.exists_first
        · cases hfour
        · exact absurd (List.mem_append_right t List.mem_cons_self) hdot
    | group => exact absurd (List.mem_append_right _ List.mem_cons_self) hcolon
    | colon => exact absurd List.mem_cons_self hcolon
  · rintro ⟨rfl, h⟩
    split_ifs at h with hnil
    · obtain ⟨rfl, hlen⟩ := h
      rw [hnil]
      simpa using Tokens.last Last.none hlen
    · obtain ⟨rfl, hlen⟩ := h
      exact .last (.group ⟨hnil, v, hv, hpre, rfl⟩) hlen

theorem Tokens.exists_first (h : Tokens tmp colonp text tmp' colonp') :
    (colonp' = colonp ∧ ∃ bytes, Last text bytes ∧ tmp.length + bytes.length ≤ IN6ADDRSZ ∧
        tmp' = tmp ++ bytes) ∨
      (∃ t bytes rest, text = t ++ 0x3A :: rest ∧ IsGroup t bytes ∧
        tmp.length + INT16SZ ≤ IN6ADDRSZ ∧ Tokens (tmp ++ bytes) colonp rest tmp' colonp') ∨
      ∃ rest, text = 0x3A :: rest ∧ colonp = none ∧
        Tokens tmp (some tmp.length) rest tmp' colonp' := by
  cases h with
  | last hlast hlen => exact .inl ⟨rfl, _, hlast, hlen, rfl⟩
  | group hgroup hlen hrest => exact .inr (.inl ⟨_, _, _, rfl, hgroup, hlen, hrest⟩)
  | colon hrest => exact .inr (.inr ⟨_, rfl, rfl, hrest⟩)

theorem IsGroup.not_colon (h : IsGroup text bytes) : 0x3A ∉ text := by
  obtain ⟨-, v, -, hnum, -⟩ := h
  exact not_mem_of_numeral hnum xdigit_colon

theorem Last.chars (h : Last text bytes) :
    ∀ c ∈ text, c = 0x2E ∨ ∃ d, xdigit c = some d := by
  cases h with
  | none => exact fun c hc => absurd hc List.not_mem_nil
  | group hgroup =>
    obtain ⟨-, v, -, hnum, -⟩ := hgroup
    exact fun c hc => .inr (digit_of_numeral hnum c hc)
  | quad hquad _ =>
    intro c hc
    obtain hdot | ⟨d, hd⟩ := hquad.chars c hc
    · exact .inl hdot
    · exact .inr ⟨d, xdigit_of_digit hd⟩

theorem Last.not_colon (h : Last text bytes) : 0x3A ∉ text := by
  intro hmem
  obtain heq | ⟨d, hd⟩ := h.chars _ hmem
  · cases heq
  · cases xdigit_colon.symm.trans hd

theorem tokens_colon_iff : Tokens tmp colonp (0x3A :: rest) tmp' colonp' ↔
    colonp = none ∧ Tokens tmp (some tmp.length) rest tmp' colonp' := by
  constructor
  · intro h
    obtain ⟨-, bytes, hlast, -⟩ | ⟨t, bytes, rest', heq, hgroup, -⟩ | ⟨rest', heq, hnone, hrest⟩ :=
      h.exists_first
    · exact absurd List.mem_cons_self hlast.not_colon
    · obtain ⟨rfl, -⟩ := (append_cons_inj_of_notMem List.not_mem_nil hgroup.not_colon).mp heq
      exact absurd rfl hgroup.1
    · cases heq
      exact ⟨hnone, hrest⟩
  · rintro ⟨rfl, h⟩
    exact .colon h

theorem tokens_digits_colon_iff (hpre : numeral 16 xdigit 0 pre = some v) (hv : v ≤ 0xFFFF)
    (hne : pre ≠ []) : Tokens tmp colonp (pre ++ 0x3A :: rest) tmp' colonp' ↔
      tmp.length + INT16SZ ≤ IN6ADDRSZ ∧ Tokens (tmp ++ bytes16 v) colonp rest tmp' colonp' := by
  have hcolon := not_mem_of_numeral hpre xdigit_colon
  constructor
  · intro h
    obtain ⟨-, bytes, hlast, -⟩ | ⟨t, bytes, rest', heq, hgroup, hlen, hrest⟩ |
      ⟨rest', heq, -, -⟩ := h.exists_first
    · exact absurd (List.mem_append_right pre List.mem_cons_self) hlast.not_colon
    · obtain ⟨rfl, rfl⟩ := (append_cons_inj_of_notMem hcolon hgroup.not_colon).mp heq
      obtain ⟨-, w, -, hnum, rfl⟩ := hgroup
      rw [Option.some.inj (hpre.symm.trans hnum)]
      exact ⟨hlen, hrest⟩
    · exact absurd ((append_cons_inj_of_notMem hcolon List.not_mem_nil).mp heq).1 hne
  · rintro ⟨hlen, hrest⟩
    exact .group ⟨hne, v, hv, hpre, rfl⟩ hlen hrest

theorem tokens_digits_dot_iff (hpre : numeral 16 xdigit 0 pre = some v) :
    Tokens tmp colonp (pre ++ 0x2E :: rest) tmp' colonp' ↔ colonp' = colonp ∧
      ∃ bytes, (Octets (pre ++ 0x2E :: rest) bytes ∧ bytes.length = INADDRSZ) ∧
        tmp.length + INADDRSZ ≤ IN6ADDRSZ ∧ tmp' = tmp ++ bytes := by
  have hcolon : 0x3A ∉ pre ++ [0x2E] :=
    List.not_mem_append (not_mem_of_numeral hpre xdigit_colon) (by decide)
  constructor
  · intro h
    obtain ⟨rfl, bytes, hlast, hlen, rfl⟩ | ⟨t, bytes, rest', heq, hgroup, -⟩ |
      ⟨rest', heq, -⟩ := h.exists_first
    · refine ⟨rfl, bytes, ?_⟩
      generalize htext : pre ++ 0x2E :: rest = text at hlast
      cases hlast with
      | none => simp at htext
      | group hgroup =>
        obtain ⟨-, w, -, hnum, -⟩ := hgroup
        exact absurd (htext ▸ List.mem_append_right pre List.mem_cons_self)
          (not_mem_of_numeral hnum xdigit_dot)
      | quad hquad hfour => exact ⟨⟨hquad, hfour⟩, hfour ▸ hlen, rfl⟩
    · rw [List.append_cons] at heq
      obtain ⟨c, rfl, -⟩ := prefix_of_notMem hcolon heq
      obtain ⟨-, w, -, hnum, -⟩ := hgroup
      exact absurd (by simp) (not_mem_of_numeral hnum xdigit_dot)
    · rw [List.append_cons, ← List.nil_append (0x3A :: rest')] at heq
      obtain ⟨c, hc, -⟩ := prefix_of_notMem hcolon heq
      simp at hc
  · rintro ⟨rfl, bytes, ⟨hquad, hfour⟩, hlen, rfl⟩
    exact .last (.quad hquad hfour) (hfour.symm ▸ hlen)

theorem Tokens.chars (h : Tokens tmp colonp text tmp' colonp') :
    ∀ c ∈ text, c = 0x2E ∨ c = 0x3A ∨ ∃ d, xdigit c = some d := by
  induction h with
  | last hlast _ => exact fun c hc => (hlast.chars c hc).imp_right .inr
  | group hgroup _ _ ih =>
    obtain ⟨-, v, -, hnum, -⟩ := hgroup
    exact List.forall_mem_append.mpr ⟨fun c hc => .inr (.inr (digit_of_numeral hnum c hc)),
      List.forall_mem_cons.mpr ⟨.inr (.inl rfl), ih⟩⟩
  | colon _ ih => exact List.forall_mem_cons.mpr ⟨.inr (.inl rfl), ih⟩

/-- The variables behind the digits `pre` of a group and in front of `src`. -/
structure Pton6.Reads (s : Pton6) (pre src : List UInt8) : Prop where
  sawXdigit : s.sawXdigit = true ↔ pre ≠ []
  val : numeral 16 xdigit 0 pre = some s.val
  val_le : s.val ≤ 0xFFFF
  curtok : s.curtok = pre ++ src
  length_tmp : s.tmp.length ≤ IN6ADDRSZ

def pton6Tokens (src : List UInt8) (s : Pton6) : Option (List UInt8 × Option ℕ) :=
  ((pton6Loop src s).bind pton6Finish).map fun s => (s.tmp, s.colonp)

theorem shiftLeft_or (h : d < 16) : v <<< 4 ||| d = v * 16 + d := by
  rw [Nat.shiftLeft_eq, mul_comm, ← Nat.two_pow_add_eq_or_of_lt (i := 4) h, mul_comm]

theorem Pton6.Reads.digit (h : s.Reads pre (ch :: src)) (hd : xdigit ch = some d)
    (hval : s.val <<< 4 ||| d ≤ 0xFFFF) :
    Pton6.Reads { s with val := s.val <<< 4 ||| d, sawXdigit := true } (pre ++ [ch]) src where
  sawXdigit := by simp
  val := by rw [shiftLeft_or (xdigit_lt hd), numeral_concat h.val hd]
  val_le := hval
  curtok := by rw [← List.append_cons]; exact h.curtok
  length_tmp := h.length_tmp

theorem Pton6.Reads.eq_nil (h : s.Reads pre src) (hsaw : ¬ s.sawXdigit = true) : pre = [] :=
  not_not.mp fun hne => hsaw (h.sawXdigit.mpr hne)

theorem pton6Tokens_nil (h : s.Reads pre []) : pton6Tokens [] s = some (tmp', colonp') ↔
    Tokens s.tmp s.colonp pre tmp' colonp' := by
  rw [tokens_digits_iff h.val h.val_le, pton6Tokens, pton6Loop, Option.bind_some, pton6Finish]
  by_cases hsaw : s.sawXdigit = true
  · rw [if_pos hsaw, if_neg (h.sawXdigit.mp hsaw)]
    split_ifs with hlen
    · exact iff_of_false nofun fun hle => Nat.not_lt.mpr hle.2.2 hlen
    · simp only [Option.map_some, Option.some.injEq, Prod.mk.injEq, Nat.not_lt.mp hlen, and_true]
      exact ⟨fun heq => ⟨heq.2.symm, heq.1.symm⟩, fun heq => ⟨heq.2.symm, heq.1.symm⟩⟩
  · rw [if_neg hsaw, if_pos (h.eq_nil hsaw)]
    simp only [Option.map_some, Option.some.injEq, Prod.mk.injEq, h.length_tmp, and_true]
    exact ⟨fun heq => ⟨heq.2.symm, heq.1.symm⟩, fun heq => ⟨heq.2.symm, heq.1.symm⟩⟩

theorem pton6Tokens_iff (h : s.Reads pre src) : pton6Tokens src s = some (tmp', colonp') ↔
    Tokens s.tmp s.colonp (pre ++ src) tmp' colonp' := by
  induction src generalizing s pre with
  | nil =>
    rw [List.append_nil]
    exact pton6Tokens_nil h
  | cons ch src ih =>
    unfold pton6Tokens
    rw [pton6Loop]
    cases hdigit : xdigit ch with
    | some d =>
      have hconcat := numeral_concat h.val hdigit
      rw [← shiftLeft_or (xdigit_lt hdigit)] at hconcat
      dsimp only
      rw [List.append_cons]
      split_ifs with hval
      · exact iff_of_false nofun (not_tokens_of_lt hconcat hval)
      · exact ih (h.digit hdigit (Nat.not_lt.mp hval))
    | none =>
      dsimp only
      split_ifs with hcolon hsaw hlen hdot
      · rw [Bool.not_eq_true'] at hsaw
        obtain rfl := h.eq_nil (by simp [hsaw])
        rw [hcolon, List.nil_append, tokens_colon_iff]
        cases hcolonp : s.colonp with
        | some colonp => exact iff_of_false nofun (fun hfalse => nomatch hfalse.1)
        | none =>
          have hreads : Pton6.Reads { s with curtok := src, colonp := some s.tmp.length } [] src :=
            ⟨by simp [hsaw], h.val, h.val_le, rfl, h.length_tmp⟩
          rw [eq_self, true_and]
          exact ih hreads
      · rw [Bool.not_eq_true', Bool.not_eq_false] at hsaw
        rw [hcolon, tokens_digits_colon_iff h.val h.val_le (h.sawXdigit.mp hsaw)]
        exact iff_of_false nofun fun hle => Nat.not_lt.mpr hle.1 hlen
      · rw [Bool.not_eq_true', Bool.not_eq_false] at hsaw
        rw [hcolon, tokens_digits_colon_iff h.val h.val_le (h.sawXdigit.mp hsaw),
          iff_true_intro (Nat.not_lt.mp hlen), true_and]
        have hreads : Pton6.Reads { s with
            tmp := s.tmp ++ bytes16 s.val, curtok := src, sawXdigit := false, val := 0 } [] src :=
          ⟨by simp, rfl, Nat.zero_le _, rfl, by
            rw [List.length_append]
            exact Nat.not_lt.mp hlen⟩
        exact ih hreads
      · obtain ⟨rfl, hlen⟩ := hdot
        rw [tokens_digits_dot_iff h.val, h.curtok]
        simp only [← inetPton4_iff, hlen, true_and]
        cases inetPton4 (pre ++ 0x2E :: src) with
        | none => exact iff_of_false nofun (fun ⟨_, _, hfalse, _⟩ => nomatch hfalse)
        | some dst =>
          simp only [Option.map_some, Option.bind_some, pton6Finish, Bool.false_eq_true, if_false,
            Option.some.injEq, Prod.mk.injEq, exists_eq_left']
          exact ⟨fun heq => ⟨heq.2.symm, heq.1.symm⟩, fun heq => ⟨heq.2.symm, heq.1.symm⟩⟩
      · refine iff_of_false nofun fun htokens => ?_
        obtain rfl | hch | ⟨d, hd⟩ := htokens.chars ch (by simp)
        · obtain ⟨-, bytes, -, hle, -⟩ := (tokens_digits_dot_iff h.val).mp htokens
          exact hdot ⟨rfl, hle⟩
        · exact hcolon hch
        · cases hdigit.symm.trans hd

end Tokens

end Mbtk.Sock
