import Mbtk.MString.Scan

namespace Mbtk.MString

open Lib

namespace CInt

/-- What a string function returns: NULL, the literal `""`, or its destination. -/
inductive Returned where
  | null
  | empty
  | dest
  deriving DecidableEq

def memcpyAt (dest : List UInt8) (position : ℤ) (xs : List UInt8) : Option (List UInt8) :=
  if 0 ≤ position then copyInto dest position.toNat xs else none

/-- The `length` that `str_replace` computes, in `size_t` first. -/
def replaceLength (s target replacement : List UInt8) : Option ℤ :=
  (strContainsCount s target).map fun count : ℕ =>
    toInt (s.length + (replacement.length - target.length) * count)

/-- The loop of `str_replace`: the destination and the two positions behind it. -/
def strReplaceLoop (s target replacement : List UInt8) :
    ℕ → ℤ → ℤ → List UInt8 → Option (List UInt8 × ℤ × ℤ)
  | 0, _, _, _ => none
  | n + 1, positionOld, positionNew, dest =>
    match findFrom s target positionOld with
    | none => some (dest, positionOld, positionNew)
    | some temp => do
      let dest ← memcpyAt dest positionNew ((s.drop positionOld.toNat).take temp)
      let positionNew ← add positionNew temp
      let dest ← memcpyAt dest positionNew replacement
      strReplaceLoop s target replacement n (toInt (positionOld + (temp + target.length)))
        (toInt (positionNew + replacement.length)) dest

/-- The copy behind the loop.  A length below 0 is, as a `size_t`, above what there is to read. -/
def replaceRest (s dest : List UInt8) (positionOld positionNew length : ℤ) :
    Option (List UInt8) := do
  let rest ← add length (-positionNew)
  if 0 ≤ rest ∧ 0 ≤ positionOld ∧ positionOld + rest ≤ s.length + 1 then
    memcpyAt dest positionNew (((s ++ [0]).drop positionOld.toNat).take rest.toNat)
  else none

/-- `str_replace`, with the destination afterwards.  It does not look at `len`. -/
def strReplace (s target replacement dest : List UInt8) (_len : ℕ) :
    Option (Returned × List UInt8) :=
  if s = [] ∨ target = [] then some (.empty, dest)
  else do
    let length ← replaceLength s target replacement
    let (dest, positionOld, positionNew) ← strReplaceLoop s target replacement (2 ^ 31) 0 0 dest
    let dest ← replaceRest s dest positionOld positionNew length
    let dest ← memcpyAt dest length [0]
    return (.dest, dest)

/-- The computed length is that of the result, and the result is written, with a NUL behind it. -/
structure Replaces (s target replacement dest : List UInt8) (len : ℕ) (result : List UInt8) :
    Prop where
  length : replaceLength s target replacement = some (result.length : ℤ)
  string : strReplace s target replacement dest len =
    some (.dest, result ++ [0] ++ dest.drop (result.length + 1))

section Replace

variable {s target replacement dest w xs : List UInt8} {pieces : List (List UInt8)} {len p n : ℕ}

theorem replaceLength_eq (h : Cuts target s pieces) (htarget : target ≠ [])
    (hends : EndsInInt s pieces) (replacement : List UInt8) :
    replaceLength s target replacement = some (toInt (replacement.intercalate pieces).length) := by
  have hle := hends.length_le h htarget
  have hpos := List.length_pos_iff.mpr h.ne_nil
  have hlen := h.length_intercalate replacement
  obtain ⟨count, hcount⟩ := Nat.exists_eq_add_one.mpr hpos
  rw [hcount, Nat.add_sub_cancel] at hlen
  rw [replaceLength, strContainsCount_eq h htarget hends (by omega), Option.map_some, hcount,
    Nat.add_sub_cancel]
  refine congrArg (fun x => some (toInt x)) ?_
  zify at hlen
  linear_combination -hlen

theorem memcpyAt_written (h : w.length + xs.length ≤ dest.length) :
    memcpyAt (w ++ dest.drop w.length) w.length xs =
      some (w ++ xs ++ dest.drop (w ++ xs).length) := by
  rw [memcpyAt, if_pos (Int.natCast_nonneg _), Int.toNat_natCast,
    copyInto_append (by rw [List.length_drop]; omega), List.drop_drop, List.length_append]

theorem strReplaceLoop_succ {i : ℕ} (hfind : findFrom s target p = some i)
    (hnext : toInt (p + (i + target.length)) = (p + (i + target.length) : ℕ))
    (hi : ((s.drop p).take i).length = i)
    (hdest : (w ++ (s.drop p).take i ++ replacement).length ≤ dest.length)
    (hresult : (w ++ (s.drop p).take i ++ replacement).length < 2 ^ 31) :
    strReplaceLoop s target replacement (n + 1) p w.length (w ++ dest.drop w.length) =
      strReplaceLoop s target replacement n (p + (i + target.length) : ℕ)
        (w ++ (s.drop p).take i ++ replacement).length
        (w ++ (s.drop p).take i ++ replacement ++
          dest.drop (w ++ (s.drop p).take i ++ replacement).length) := by
  simp only [List.length_append, hi] at hdest hresult
  have hadd : add w.length i = some ((w ++ (s.drop p).take i).length : ℤ) := by
    rw [add_of_lt (by omega) (by omega), List.length_append, hi, Nat.cast_add]
  have hnew : toInt ((w ++ (s.drop p).take i).length + replacement.length) =
      (w ++ (s.drop p).take i ++ replacement).length := by
    rw [List.length_append, List.length_append, List.length_append, hi,
      toInt_of_lt (by omega) (by omega)]
    push_cast
    rfl
  rw [strReplaceLoop, hfind]
  dsimp only
  rw [Int.toNat_natCast, memcpyAt_written (by rw [hi]; omega)]
  simp only [Option.bind_eq_bind, Option.bind_some, hadd]
  rw [memcpyAt_written (by rw [List.length_append, hi]; omega), Option.bind_some, hnext, hnew]

theorem exists_strReplaceLoop (h : Cuts target (s.drop p) pieces) (htarget : target ≠ [])
    (hp : p ≤ s.length) (hs : s.length < 2 ^ 31) (hn : pieces.length ≤ n)
    (hdest : (w ++ replacement.intercalate pieces).length ≤ dest.length)
    (hresult : (w ++ replacement.intercalate pieces).length < 2 ^ 31) :
    ∃ (old : ℕ) (w' : List UInt8),
      strReplaceLoop s target replacement n p w.length (w ++ dest.drop w.length) =
        some (w' ++ dest.drop w'.length, (old : ℤ), (w'.length : ℤ)) ∧ old ≤ s.length ∧
      w' ++ s.drop old = w ++ replacement.intercalate pieces := by
  induction pieces generalizing p n w with
  | nil => exact absurd rfl h.ne_nil
  | cons piece pieces ih =>
    obtain ⟨n, rfl⟩ := Nat.exists_eq_add_one.mpr (Nat.zero_lt_of_lt hn)
    cases h with
    | last hno =>
      refine ⟨p, w, ?_, hp, by rw [List.intercalate_singleton]⟩
      rw [strReplaceLoop, findFrom_eq_none hno]
    | @cut _ i _ hi h =>
      have hends : EndsInInt s ((s.drop p).take i :: pieces) := endsInInt_of_lt hs
      obtain ⟨hlt, hnext, hp', -, hcuts⟩ := hends.next hp htarget hi h
      have hle := hi.add_length_le htarget
      have hpiece : ((s.drop p).take i).length = i := List.length_take_of_le (by omega)
      have hassoc : w ++ replacement.intercalate ((s.drop p).take i :: pieces) =
          w ++ (s.drop p).take i ++ replacement ++ replacement.intercalate pieces := by
        rw [List.intercalate_cons_of_ne_nil h.ne_nil]
        simp only [List.append_assoc]
      rw [hassoc] at hdest hresult ⊢
      obtain ⟨old, w', hloop, hold⟩ := ih hcuts hp' (Nat.le_of_succ_le_succ hn) hdest hresult
      rw [List.length_append] at hdest hresult
      refine ⟨old, w', ?_, hold⟩
      rw [← hloop]
      exact strReplaceLoop_succ (findFrom_of_firstAt hi htarget (by omega)) hnext hpiece (by omega)
        (by omega)

theorem replaceRest_eq {old : ℕ} (hold : old ≤ s.length)
    (hdest : (w ++ s.drop old).length ≤ dest.length) (hresult : (w ++ s.drop old).length < 2 ^ 31) :
    replaceRest s (w ++ dest.drop w.length) old w.length (w ++ s.drop old).length =
      some (w ++ s.drop old ++ dest.drop (w ++ s.drop old).length) := by
  have hlen : (w ++ s.drop old).length = w.length + (s.length - old) := by
    rw [List.length_append, List.length_drop]
  have hadd : add (w ++ s.drop old).length (-w.length) = some ((s.length - old : ℕ) : ℤ) := by
    rw [add_of_lt (by omega) (by omega)]
    exact congrArg some (by omega)
  have htake : ((s ++ [0]).drop old).take (s.length - old) = s.drop old := by
    rw [List.drop_append_of_le_length hold]
    exact List.take_left' (List.length_drop ..)
  rw [replaceRest, hadd]
  refine (if_pos ⟨by omega, by omega, by omega⟩).trans ?_
  rw [Int.toNat_natCast, Int.toNat_natCast, htake]
  exact memcpyAt_written (by rw [List.length_drop]; omega)

theorem strReplace_eq (h : Cuts target s pieces) (hs : s ≠ []) (htarget : target ≠ [])
    (hlen : s.length < 2 ^ 31) (hdest : (replacement.intercalate pieces).length < dest.length)
    (hresult : (replacement.intercalate pieces).length < 2 ^ 31) :
    strReplace s target replacement dest len = some (.dest, replacement.intercalate pieces ++ [0] ++
      dest.drop ((replacement.intercalate pieces).length + 1)) := by
  have hle := h.length_le htarget
  have hlength := replaceLength_eq h htarget (endsInInt_of_lt hlen) replacement
  rw [toInt_of_lt (by omega) (by omega)] at hlength
  obtain ⟨old, w, hloop, hold, hw⟩ := exists_strReplaceLoop (w := []) (p := 0) (n := 2 ^ 31) h
    htarget (Nat.zero_le _) hlen (by omega) hdest.le hresult
  rw [List.nil_append] at hw
  rw [← hw] at hdest hresult hlength ⊢
  have hrest := replaceRest_eq hold hdest.le hresult
  have hnul := memcpyAt_written (show (w ++ s.drop old).length + [0].length ≤ _ from hdest)
  have hbehind : (w ++ s.drop old ++ [0]).length = (w ++ s.drop old).length + 1 :=
    List.length_append
  rw [hbehind] at hnul
  replace hloop : strReplaceLoop s target replacement (2 ^ 31) 0 0 dest =
    some (w ++ dest.drop w.length, (old : ℤ), (w.length : ℤ)) := hloop
  rw [strReplace, if_neg (by simp [hs, htarget]), hlength]
  simp only [Option.bind_eq_bind, Option.bind_some, hloop, hrest, hnul]
  rfl

theorem strReplace_ne (h : Cuts target s pieces) (hs : s ≠ []) (htarget : target ≠ [])
    (hlen : s.length < 2 ^ 31) (hzero : 0 ∉ s) (hzero' : 0 ∉ replacement)
    (hresult : 2 ^ 31 ≤ (replacement.intercalate pieces).length) :
    strReplace s target replacement dest len ≠ some (.dest, replacement.intercalate pieces ++ [0] ++
      dest.drop ((replacement.intercalate pieces).length + 1)) := by
  intro heq
  have hno : (0 : UInt8) ∉ replacement.intercalate pieces := by
    intro hmem
    obtain hmem | ⟨piece, hpiece, hmem⟩ := mem_or_exists_of_mem_intercalate hmem
    · exact hzero' hmem
    · exact hzero (h.subset piece hpiece hmem)
  rw [strReplace, if_neg (by simp [hs, htarget]),
    replaceLength_eq h htarget (endsInInt_of_lt hlen)] at heq
  obtain ⟨length, hlength, heq⟩ := Option.bind_eq_some_iff.mp heq
  obtain rfl := Option.some.inj hlength
  obtain ⟨⟨dest', old, new⟩, -, heq⟩ := Option.bind_eq_some_iff.mp heq
  obtain ⟨dest'', -, heq⟩ := Option.bind_eq_some_iff.mp heq
  obtain ⟨array, hnul, heq⟩ := Option.bind_eq_some_iff.mp heq
  obtain rfl := (Prod.mk.inj (Option.some.inj heq)).2
  have hlt := toInt_lt (replacement.intercalate pieces).length
  unfold memcpyAt at hnul
  split_ifs at hnul with hpos
  have hplace := getElem?_of_copyInto_single hnul
  rw [List.append_assoc, List.getElem?_append_left (by omega)] at hplace
  exact hno (List.mem_of_getElem? hplace)

end Replace

theorem strReplace_eq_iff {s target replacement : List UInt8} {pieces : List (List UInt8)}
    (dest : List UInt8) (len : ℕ) (hs : s ≠ []) (htarget : target ≠ []) (hlen : s.length < 2 ^ 31)
    (hzero : 0 ∉ s) (hzero' : 0 ∉ replacement) (h : Cuts target s pieces)
    (hdest : (replacement.intercalate pieces).length < dest.length) :
    strReplace s target replacement dest len = some (.dest, replacement.intercalate pieces ++ [0] ++
      dest.drop ((replacement.intercalate pieces).length + 1)) ↔
      (replacement.intercalate pieces).length < 2 ^ 31 := by
  refine ⟨fun heq => ?_, strReplace_eq h hs htarget hlen hdest⟩
  by_contra hresult
  exact strReplace_ne h hs htarget hlen hzero hzero' (not_lt.mp hresult) heq

/-- Both the length and the string are right exactly if the result is shorter than 2 gigabytes. -/
theorem replaces_iff {s target : List UInt8} {pieces : List (List UInt8)}
    (replacement dest : List UInt8) (len : ℕ) (hs : s ≠ []) (htarget : target ≠ [])
    (hlen : s.length < 2 ^ 31) (h : Cuts target s pieces)
    (hdest : (replacement.intercalate pieces).length < dest.length) :
    Replaces s target replacement dest len (replacement.intercalate pieces) ↔
      (replacement.intercalate pieces).length < 2 ^ 31 := by
  constructor
  · intro hreplaces
    have hlength := hreplaces.length
    rw [replaceLength_eq h htarget (endsInInt_of_lt hlen)] at hlength
    have hlt := toInt_lt (replacement.intercalate pieces).length
    rw [Option.some.inj hlength] at hlt
    exact_mod_cast hlt
  · intro hresult
    refine ⟨?_, strReplace_eq h hs htarget hlen hdest hresult⟩
    rw [replaceLength_eq h htarget (endsInInt_of_lt hlen), toInt_of_lt (by omega) (by omega)]

theorem replaces_aba : Replaces [0x61, 0x62, 0x61] [0x61] [0x63, 0x64] (List.replicate 6 0x78) 6
    [0x63, 0x64, 0x62, 0x63, 0x64] := by
  have hcuts : Cuts [(0x61 : UInt8)] [0x61, 0x62, 0x61] [[], [0x62], []] :=
    .cut (i := 0) ⟨by decide, by decide⟩ <| .cut (i := 1) ⟨by decide, by decide⟩ <|
      .last (by decide)
  exact Iff.mpr (replaces_iff [0x63, 0x64] (List.replicate 6 0x78) 6 (by decide) (by decide)
    (by decide) hcuts (by decide)) (by decide)

theorem cuts_aa : Cuts [(0x61 : UInt8)] [0x61, 0x61] [[], [], []] :=
  .cut (i := 0) ⟨by decide, by decide⟩ <| .cut (i := 0) ⟨by decide, by decide⟩ <| .last (by decide)

theorem length_intercalate_aa (replacement : List UInt8) :
    (replacement.intercalate [[], [], []]).length = 2 * replacement.length := by
  rw [List.intercalate_cons_cons, List.intercalate_cons_cons, List.intercalate_singleton,
    List.append_nil, List.nil_append, List.length_append]
  omega

theorem not_replaces_aa {replacement : List UInt8} (hlen : replacement.length = 2 ^ 30)
    (dest : List UInt8) (len : ℕ) :
    ¬ Replaces [0x61, 0x61] [0x61] replacement dest len (replacement.intercalate [[], [], []]) := by
  intro hreplaces
  have hlength := hreplaces.length
  rw [replaceLength_eq cuts_aa (by decide) (endsInInt_of_lt (by decide))] at hlength
  have hlt := toInt_lt (replacement.intercalate [[], [], []]).length
  rw [Option.some.inj hlength] at hlt
  rw [length_intercalate_aa, hlen] at hlt
  exact absurd hlt (by decide)

/-- A gigabyte for each of two letters. -/
theorem not_replaces_gigabytes :
    ∃ pieces, Cuts [0x61] [0x61, 0x61] pieces ∧
      ((List.replicate (2 ^ 30) 0x62).intercalate pieces).length <
        (List.replicate (2 ^ 31 + 1) (0 : UInt8)).length ∧
      ¬ Replaces [0x61, 0x61] [0x61] (List.replicate (2 ^ 30) 0x62)
        (List.replicate (2 ^ 31 + 1) 0) (2 ^ 31 + 1)
        ((List.replicate (2 ^ 30) 0x62).intercalate pieces) := by
  refine ⟨_, cuts_aa, ?_, not_replaces_aa List.length_replicate _ _⟩
  rw [length_intercalate_aa, List.length_replicate, List.length_replicate]
  decide

end CInt

end Mbtk.MString
