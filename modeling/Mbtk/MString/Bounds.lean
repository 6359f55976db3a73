import Mbtk.MString.Case

namespace Mbtk.MString

open Lib

namespace CInt

/-- `str_substring`, with the destination afterwards. -/
def strSubstring (str : List UInt8) (beginIndex endIndex : UInt64) (subStr : List UInt8)
    (len : UInt64) : Option (Returned × List UInt8) :=
  if endIndex ≤ beginIndex ∨ str.length ≤ beginIndex.toNat ∨ len < endIndex - beginIndex + 1 then
    some (.null, subStr)
  else do
    let endIndex := if str.length < endIndex.toNat then str.length else endIndex.toNat
    let result ← copyInto subStr 0 ((str.drop beginIndex.toNat).take (endIndex - beginIndex.toNat))
    let result ← copyInto result (endIndex - beginIndex.toNat) [0]
    return (.dest, result)

/-- The substring, where there is one. -/
def substring (str : List UInt8) (beginIndex endIndex : UInt64) : Option (List UInt8) :=
  if beginIndex < endIndex ∧ beginIndex.toNat < str.length then
    some ((str.take endIndex.toNat).drop beginIndex.toNat)
  else none

/-- The function writes within the destination only.  It returns NULL and writes nothing if the
result, with a NUL, does not fit. -/
def Respects (dest : List UInt8) (result : Option (List UInt8))
    (run : Option (Returned × List UInt8)) : Prop :=
  ∃ returned dest', run = some (returned, dest') ∧
    ∀ xs ∈ result, dest.length < xs.length + 1 → returned = .null ∧ dest' = dest

section Convert

variable {f : UInt8 → UInt8} {src dest after : List UInt8}

theorem respects_convert_iff : Respects dest (some (src.map f))
    (convert f src dest after dest.length) ↔
      0 ∈ dest ++ after ∧ (src.length < dest.length ∨ 0 ∉ dest) := by
  by_cases hdest : 0 ∈ dest
  · rw [convert_of_mem hdest, or_iff_left (not_not_intro hdest),
      and_iff_right (List.mem_append_left _ hdest)]
    cases hloop : convertLoop f src 0 dest with
    | none =>
      have hlen := convertLoop_eq_none_iff.mp hloop
      refine iff_of_false ?_ (by omega)
      rintro ⟨returned, dest', hrun, -⟩
      simp at hrun
    | some dest' =>
      have hlen := convertLoop_eq_none_iff.not.mp (by rw [hloop]; simp)
      refine iff_of_true ⟨.dest, dest', rfl, fun xs hxs hfit => ?_⟩ (not_le.mp hlen)
      rw [← Option.some.inj hxs, List.length_map] at hfit
      omega
  · rw [or_iff_right_of_imp fun _ => hdest, and_iff_left hdest]
    by_cases hafter : 0 ∈ after
    · rw [convert_of_notMem hdest hafter]
      exact iff_of_true ⟨.null, dest, rfl, fun _ _ _ => ⟨rfl, rfl⟩⟩ (List.mem_append_right _ hafter)
    · have hno : 0 ∉ dest ++ after := by simp [hdest, hafter]
      rw [convert_of_strlen_none hno]
      refine iff_of_false ?_ hno
      rintro ⟨returned, dest', hrun, -⟩
      simp at hrun

end Convert

section Substring

variable {str subStr : List UInt8} {beginIndex endIndex len : UInt64}

theorem strSubstring_eq_null (h : endIndex ≤ beginIndex ∨ str.length ≤ beginIndex.toNat ∨
    len < endIndex - beginIndex + 1) :
    strSubstring str beginIndex endIndex subStr len = some (.null, subStr) := if_pos h

theorem strSubstring_eq {result : List UInt8} (hlen : ¬ len < endIndex - beginIndex + 1)
    (hresult : substring str beginIndex endIndex = some result) :
    strSubstring str beginIndex endIndex subStr len =
      (copyInto subStr 0 result).bind fun dest =>
        (copyInto dest result.length [0]).map fun dest => (.dest, dest) := by
  unfold substring at hresult
  split_ifs at hresult with hvalid
  have hend : (if str.length < endIndex.toNat then str.length else endIndex.toNat) =
      min endIndex.toNat str.length := by
    split_ifs <;> omega
  have htake : (str.drop beginIndex.toNat).take
      (min endIndex.toNat str.length - beginIndex.toNat) = result := by
    rw [← Option.some.inj hresult, List.drop_take]
    rcases le_total endIndex.toNat str.length with hle | hle
    · rw [min_eq_left hle]
    · rw [min_eq_right hle, List.take_of_length_le (by rw [List.length_drop]),
        List.take_of_length_le (by rw [List.length_drop]; omega)]
  have hlength : min endIndex.toNat str.length - beginIndex.toNat = result.length := by
    rw [← Option.some.inj hresult, List.length_drop, List.length_take]
  have hchecks : ¬ (endIndex ≤ beginIndex ∨ str.length ≤ beginIndex.toNat ∨
      len < endIndex - beginIndex + 1) := by
    rw [not_or, not_or, UInt64.not_le, not_le]
    exact ⟨hvalid.1, hvalid.2, hlen⟩
  rw [strSubstring, if_neg hchecks]
  dsimp only
  rw [hend, htake, hlength]
  simp only [Option.map_eq_bind]
  rfl

theorem toNat_length (h : beginIndex < endIndex) :
    (endIndex - beginIndex + 1).toNat =
      if beginIndex.toNat = 0 ∧ endIndex.toNat = 2 ^ 64 - 1 then 0
      else endIndex.toNat - beginIndex.toNat + 1 := by
  have hlt := UInt64.lt_iff_toNat_lt.mp h
  have hend := endIndex.toNat_lt
  rw [UInt64.toNat_add, UInt64.toNat_sub_of_le _ _ (UInt64.le_of_lt h), UInt64.toNat_one]
  split_ifs <;> omega

theorem respects_null {dest : List UInt8} {result : Option (List UInt8)} :
    Respects dest result (some (.null, dest)) := ⟨.null, dest, rfl, fun _ _ _ => ⟨rfl, rfl⟩⟩

theorem respects_copy_iff {dest result : List UInt8} :
    Respects dest (some result) ((copyInto dest 0 result).bind fun dest =>
        (copyInto dest result.length [0]).map fun dest => (.dest, dest)) ↔
      result.length < dest.length := by
  constructor
  · rintro ⟨returned, dest', hrun, -⟩
    obtain ⟨dest'', hcopy, hrun⟩ := Option.bind_eq_some_iff.mp hrun
    by_contra hlen
    have hnone : copyInto dest'' result.length [0] = none := by
      rw [copyInto_eq_none, length_copyInto hcopy, List.length_singleton]
      omega
    rw [hnone] at hrun
    simp at hrun
  · intro hlen
    have hone : [(0 : UInt8)].length ≤ (dest.drop result.length).length := by
      rw [List.length_drop, List.length_singleton]
      omega
    refine ⟨.dest, result ++ [0] ++ (dest.drop result.length).drop 1, ?_, fun xs hxs hfit => ?_⟩
    · rw [copyInto_zero hlen.le, Option.bind_some, copyInto_append hone]
      rfl
    · rw [← Option.some.inj hxs] at hfit
      omega

theorem respects_strSubstring_iff (h : subStr.length = len.toNat) :
    Respects subStr (substring str beginIndex endIndex)
      (strSubstring str beginIndex endIndex subStr len) ↔
      ¬ (beginIndex = 0 ∧ endIndex = -1 ∧ str ≠ [] ∧ subStr.length ≤ str.length) := by
  have hwhole : ¬ (beginIndex = 0 ∧ endIndex = -1 ∧ str ≠ [] ∧ subStr.length ≤ str.length) ↔
      (beginIndex.toNat = 0 → endIndex.toNat = 2 ^ 64 - 1 → 0 < str.length →
        str.length < subStr.length) := by
    rw [List.length_pos_iff, ← UInt64.toNat_inj, ← UInt64.toNat_inj]
    simp only [not_and, not_le]
    rfl
  rw [hwhole]
  by_cases hvalid : beginIndex < endIndex ∧ beginIndex.toNat < str.length
  · have hresult : substring str beginIndex endIndex =
        some ((str.take endIndex.toNat).drop beginIndex.toNat) := if_pos hvalid
    have hlength := toNat_length hvalid.1
    have hlt := UInt64.lt_iff_toNat_lt.mp hvalid.1
    have hend := endIndex.toNat_lt
    have hmax := len.toNat_lt
    by_cases hlen : len < endIndex - beginIndex + 1
    · rw [strSubstring_eq_null (.inr (.inr hlen))]
      have hcheck := UInt64.lt_iff_toNat_lt.mp hlen
      refine iff_of_true respects_null fun hbegin hend _ => ?_
      rw [hlength, if_pos ⟨hbegin, hend⟩] at hcheck
      exact absurd hcheck (Nat.not_lt_zero _)
    · have hcheck := UInt64.lt_iff_toNat_lt.not.mp hlen
      rw [strSubstring_eq hlen hresult, hresult, respects_copy_iff, List.length_drop,
        List.length_take]
      rw [hlength] at hcheck
      split_ifs at hcheck <;> omega
  · have hnull : endIndex ≤ beginIndex ∨ str.length ≤ beginIndex.toNat ∨
        len < endIndex - beginIndex + 1 := by
      rw [not_and_or, UInt64.not_lt, not_lt] at hvalid
      exact hvalid.imp_right .inl
    rw [strSubstring_eq_null hnull]
    have hle : endIndex.toNat ≤ beginIndex.toNat ∨ str.length ≤ beginIndex.toNat := by
      rw [not_and_or, UInt64.not_lt, not_lt] at hvalid
      exact hvalid.imp_left UInt64.le_iff_toNat_le.mp
    exact iff_of_true respects_null (by omega)

end Substring

section Replace

variable {s target replacement dest xs : List UInt8} {pieces : List (List UInt8)} {x p n total : ℕ}

/-- Each of the pieces goes to a position of `int` and, with what is left of its length, ends in
one. -/
def InInt (replacement : List UInt8) : ℕ → List (List UInt8) → Prop
  | _, [] => True
  | x, piece :: pieces =>
    x % 2 ^ 32 + piece.length % 2 ^ 32 < 2 ^ 31 ∧
      InInt replacement (x + piece.length + replacement.length) pieces

theorem toInt_congr {y z : ℤ} (h : y % 2 ^ 32 = z % 2 ^ 32) : toInt y = toInt z := by
  rw [toInt, ← Int.emod_bmod]
  exact (congrArg (Int.bmod · (2 ^ 32)) h).trans (Int.emod_bmod ..)

theorem toInt_natCast (x : ℕ) :
    toInt x =
      if x % 2 ^ 32 < 2 ^ 31 then ((x % 2 ^ 32 : ℕ) : ℤ) else (x % 2 ^ 32 : ℕ) - 2 ^ 32 := by
  rw [toInt, Int.bmod_def]
  split_ifs <;> omega

theorem toInt_natCast_of_lt (h : x % 2 ^ 32 < 2 ^ 31) : toInt x = (x % 2 ^ 32 : ℕ) := by
  rw [toInt_natCast, if_pos h]

theorem toInt_nonneg_iff : 0 ≤ toInt x ↔ x % 2 ^ 32 < 2 ^ 31 := by
  rw [toInt_natCast]
  split_ifs <;> omega

theorem exists_memcpyAt {x : ℕ} (dest xs : List UInt8) (hlen : x + xs.length ≤ dest.length) :
    ∃ dest', memcpyAt dest x xs = some dest' ∧ dest'.length = dest.length := by
  have hcopy : copyInto dest x xs = some _ := if_pos hlen
  exact ⟨_, by rw [memcpyAt, if_pos (Int.natCast_nonneg x), Int.toNat_natCast, hcopy],
    length_copyInto hcopy⟩

theorem memcpyAt_eq_none (h : ¬ x % 2 ^ 32 < 2 ^ 31) : memcpyAt dest (toInt x) xs = none :=
  if_neg (toInt_nonneg_iff.not.mpr h)

theorem exists_strReplaceLoop_succ {i : ℕ} (hfind : findFrom s target p = some i)
    (hnext : toInt (p + (i + target.length)) = (p + (i + target.length) : ℕ))
    (hi : ((s.drop p).take i).length = i) (hint : x % 2 ^ 32 + i < 2 ^ 31)
    (hdest : x + i + replacement.length ≤ dest.length) :
    ∃ dest', dest'.length = dest.length ∧
      strReplaceLoop s target replacement (n + 1) p (toInt x) dest =
        strReplaceLoop s target replacement n (p + (i + target.length) : ℕ)
          (toInt (x + i + replacement.length : ℕ)) dest' := by
  obtain ⟨d, hd, hdlen⟩ := exists_memcpyAt (x := x % 2 ^ 32) dest ((s.drop p).take i)
    (by omega)
  obtain ⟨d', hd', hdlen'⟩ := exists_memcpyAt (x := x % 2 ^ 32 + i) d replacement
    (by omega)
  have hadd : add ((x % 2 ^ 32 : ℕ) : ℤ) i = some ((x % 2 ^ 32 + i : ℕ) : ℤ) := by
    rw [add_of_lt (by omega) (by omega), Nat.cast_add]
  have hnew : toInt ((x % 2 ^ 32 + i : ℕ) + replacement.length) =
      toInt (x + i + replacement.length : ℕ) := by
    apply toInt_congr
    push_cast
    rw [add_assoc, add_assoc, Int.emod_add_emod]
  refine ⟨d', hdlen'.trans hdlen, ?_⟩
  rw [strReplaceLoop, hfind, toInt_natCast_of_lt (by omega)]
  dsimp only
  rw [Int.toNat_natCast, hd]
  simp only [Option.bind_eq_bind, Option.bind_some, hadd]
  rw [hd', Option.bind_some, hnext, hnew]

theorem strReplaceLoop_eq_none {i : ℕ} (hfind : findFrom s target p = some i)
    (hint : ¬ x % 2 ^ 32 + i < 2 ^ 31) :
    strReplaceLoop s target replacement (n + 1) p (toInt x) dest = none := by
  rw [strReplaceLoop, hfind]
  dsimp only
  by_cases hx : x % 2 ^ 32 < 2 ^ 31
  · have hadd : add (toInt x) i = none := by
      rw [toInt_natCast_of_lt hx]
      exact if_neg (by omega)
    cases memcpyAt dest (toInt x) ((s.drop (p : ℤ).toNat).take i) with
    | none => rfl
    | some d =>
      simp only [Option.bind_eq_bind, Option.bind_some, hadd]
      rfl
  · rw [memcpyAt_eq_none hx]
    rfl

/-- What `str_replace` does behind its loop. -/
def replaceEnd (s : List UInt8) (total : ℕ) (x : List UInt8 × ℤ × ℤ) : Option (List UInt8) := do
  let dest ← replaceRest s x.1 x.2.1 x.2.2 (toInt total)
  memcpyAt dest (toInt total) [0]

theorem exists_replaceEnd (hp : p ≤ s.length) (htotal : total = x + (s.length - p))
    (hdest : total < dest.length)
    (hint : x % 2 ^ 32 + (s.length - p) % 2 ^ 32 < 2 ^ 31) :
    ∃ out, replaceEnd s total (dest, p, toInt x) = some out := by
  have hmod : total % 2 ^ 32 = x % 2 ^ 32 + (s.length - p) % 2 ^ 32 := by omega
  have hadd : add (toInt total) (-toInt x) = some (((s.length - p) % 2 ^ 32 : ℕ) : ℤ) := by
    rw [toInt_natCast_of_lt (by omega), toInt_natCast_of_lt (by omega), hmod,
      add_of_lt (by omega) (by omega)]
    exact congrArg some (by omega)
  have htake : (((s ++ [0]).drop p).take ((s.length - p) % 2 ^ 32)).length =
      (s.length - p) % 2 ^ 32 := by
    rw [List.length_take, List.length_drop, List.length_append, List.length_singleton]
    omega
  obtain ⟨d, hd, hdlen⟩ := exists_memcpyAt (x := x % 2 ^ 32) dest
    (((s ++ [0]).drop p).take ((s.length - p) % 2 ^ 32)) (by omega)
  obtain ⟨d', hd', -⟩ := exists_memcpyAt (x := total % 2 ^ 32) d [0]
    (by rw [List.length_singleton]; omega)
  have hrest : replaceRest s dest p (toInt x) (toInt total) = some d := by
    rw [replaceRest, hadd]
    refine (if_pos ⟨by omega, by omega, by omega⟩).trans ?_
    rwa [Int.toNat_natCast, Int.toNat_natCast, toInt_natCast_of_lt (by omega)]
  refine ⟨d', ?_⟩
  rw [replaceEnd, hrest, toInt_natCast_of_lt (by omega)]
  exact hd'

theorem lt_of_replaceEnd {out : List UInt8} (htotal : total = x + (s.length - p))
    (h : replaceEnd s total (dest, p, toInt x) = some out) :
    x % 2 ^ 32 + (s.length - p) % 2 ^ 32 < 2 ^ 31 := by
  rw [replaceEnd] at h
  obtain ⟨d, hrest, hnul⟩ := Option.bind_eq_some_iff.mp h
  rw [replaceRest] at hrest
  dsimp only at hrest
  obtain ⟨rest, hadd, hrest⟩ := Option.bind_eq_some_iff.mp hrest
  split_ifs at hrest with hcond
  unfold memcpyAt at hrest hnul
  split_ifs at hrest with hx
  split_ifs at hnul with ht
  have hx' : x % 2 ^ 32 < 2 ^ 31 := toInt_nonneg_iff.mp hx
  have ht' : total % 2 ^ 32 < 2 ^ 31 := toInt_nonneg_iff.mp ht
  have hsum : rest = toInt total + -toInt x := (eq_of_add hadd).1
  rw [toInt_natCast_of_lt hx', toInt_natCast_of_lt ht'] at hsum
  clear hadd hrest hnul hx ht
  omega

theorem exists_run_iff (h : Cuts target (s.drop p) pieces) (htarget : target ≠ [])
    (hp : p ≤ s.length) (hends : EndsInInt s pieces) (hn : pieces.length ≤ n)
    (htotal : total = x + (replacement.intercalate pieces).length) (hdest : total < dest.length) :
    (∃ out, (strReplaceLoop s target replacement n p (toInt x) dest).bind (replaceEnd s total) =
      some out) ↔ InInt replacement x pieces := by
  induction pieces generalizing p n x dest with
  | nil => exact absurd rfl h.ne_nil
  | cons piece pieces ih =>
    obtain ⟨n, rfl⟩ := Nat.exists_eq_add_one.mpr (Nat.zero_lt_of_lt hn)
    cases h with
    | last hno =>
      rw [List.intercalate_singleton, List.length_drop] at htotal
      rw [strReplaceLoop, findFrom_eq_none hno, Option.bind_some, InInt, InInt, and_true,
        List.length_drop]
      refine ⟨?_, exists_replaceEnd hp htotal hdest⟩
      rintro ⟨out, hout⟩
      exact lt_of_replaceEnd htotal hout
    | @cut _ i _ hi h =>
      obtain ⟨hlt, hnext, hp', hends', hcuts⟩ := hends.next hp htarget hi h
      have hi31 : i < 2 ^ 31 := (Nat.le_add_right _ _).trans_lt ((Nat.le_add_left _ _).trans_lt hlt)
      have hfind := findFrom_of_firstAt hi htarget hi31
      have hle := hi.add_length_le htarget
      have hpiece : ((s.drop p).take i).length = i := List.length_take_of_le (by omega)
      rw [List.intercalate_cons_of_ne_nil h.ne_nil, List.length_append, List.length_append,
        hpiece] at htotal
      rw [InInt, hpiece, Nat.mod_eq_of_lt (show i < 2 ^ 32 by omega)]
      by_cases hint : x % 2 ^ 32 + i < 2 ^ 31
      · have hroom : x + i + replacement.length ≤ dest.length := by omega
        obtain ⟨dest', hdest', hturn⟩ :=
          exists_strReplaceLoop_succ (n := n) hfind hnext hpiece hint hroom
        rw [hturn, and_iff_right hint]
        exact ih hcuts hp' hends' (Nat.le_of_succ_le_succ hn) (by omega) (by omega)
      · rw [strReplaceLoop_eq_none hfind hint]
        refine iff_of_false ?_ fun hin => hint hin.1
        rintro ⟨out, hout⟩
        simp at hout

theorem strReplace_eq_map (h : Cuts target s pieces) (hs : s ≠ []) (htarget : target ≠ [])
    (hends : EndsInInt s pieces) (len : ℕ) :
    strReplace s target replacement dest len =
      ((strReplaceLoop s target replacement (2 ^ 31) 0 0 dest).bind
        (replaceEnd s (replacement.intercalate pieces).length)).map fun dest => (.dest, dest) := by
  rw [strReplace, if_neg (by simp [hs, htarget]), replaceLength_eq h htarget hends,
    Option.map_bind]
  simp only [Option.bind_eq_bind, Option.bind_some]
  refine congrArg _ (funext fun x => ?_)
  obtain ⟨dest', old, new⟩ := x
  rw [Function.comp_apply, replaceEnd, Option.bind_eq_bind, Option.map_bind]
  refine congrArg _ (funext fun d => ?_)
  rw [Function.comp_apply, Option.map_eq_bind]
  rfl

theorem eq_dest_of_strReplace {len : ℕ} {out : Returned × List UInt8} (hs : s ≠ [])
    (htarget : target ≠ []) (h : strReplace s target replacement dest len = some out) :
    out.1 = .dest := by
  rw [strReplace, if_neg (by simp [hs, htarget])] at h
  obtain ⟨length, -, h⟩ := Option.bind_eq_some_iff.mp h
  obtain ⟨x, -, h⟩ := Option.bind_eq_some_iff.mp h
  obtain ⟨dest', -, h⟩ := Option.bind_eq_some_iff.mp h
  obtain ⟨dest'', -, h⟩ := Option.bind_eq_some_iff.mp h
  rw [← Option.some.inj h]

theorem lt_of_respects_strReplace {result : List UInt8} {len : ℕ} (hs : s ≠ [])
    (htarget : target ≠ [])
    (h : Respects dest (some result) (strReplace s target replacement dest len)) :
    result.length < dest.length := by
  obtain ⟨returned, dest', hrun, hnull⟩ := h
  by_contra hfit
  have hdest : returned = .dest := eq_dest_of_strReplace hs htarget hrun
  have hnull' := (hnull result rfl (by omega)).1
  rw [hdest] at hnull'
  exact absurd hnull' (by decide)

theorem respects_strReplace_iff (h : Cuts target s pieces) (hs : s ≠ []) (htarget : target ≠ [])
    (hends : EndsInInt s pieces) (len : ℕ) :
    Respects dest (some (replacement.intercalate pieces))
      (strReplace s target replacement dest len) ↔
      (replacement.intercalate pieces).length < dest.length ∧ InInt replacement 0 pieces := by
  have hcount := hends.length_le h htarget
  have hrun (hdest : (replacement.intercalate pieces).length < dest.length) :=
    exists_run_iff (p := 0) (x := 0) (n := 2 ^ 31) h htarget (Nat.zero_le _) hends hcount
      (Nat.zero_add _).symm hdest
  constructor
  · intro hrespects
    have hfit := lt_of_respects_strReplace hs htarget hrespects
    obtain ⟨returned, dest', hout, -⟩ := hrespects
    rw [strReplace_eq_map h hs htarget hends] at hout
    obtain ⟨out, hloop, -⟩ := Option.map_eq_some_iff.mp hout
    exact ⟨hfit, (hrun hfit).mp ⟨out, hloop⟩⟩
  · rintro ⟨hfit, hint⟩
    obtain ⟨out, hloop⟩ := (hrun hfit).mpr hint
    refine ⟨.dest, out, ?_, fun xs hxs hno => ?_⟩
    · rw [strReplace_eq_map h hs htarget hends]
      exact Option.map_eq_some_iff.mpr ⟨out, hloop, rfl⟩
    · rw [← Option.some.inj hxs] at hno
      omega

theorem respects_strReplace_empty_iff (h : s = [] ∨ target = []) (len : ℕ) :
    Respects dest (some []) (strReplace s target replacement dest len) ↔ 0 < dest.length := by
  rw [strReplace, if_pos h]
  constructor
  · rintro ⟨returned, dest', hrun, hnull⟩
    by_contra hfit
    have hnull' := (hnull [] rfl (by rw [List.length_nil]; omega)).1
    rw [← (Prod.mk.inj (Option.some.inj hrun)).1] at hnull'
    exact absurd hnull' (by decide)
  · intro hfit
    refine ⟨.empty, dest, rfl, fun xs hxs hno => ?_⟩
    rw [← Option.some.inj hxs, List.length_nil] at hno
    omega

end Replace

/-- When each of the four functions respects its destination: the first two check the old content of
it, `str_substring` a length that is 0 for the whole range of `size_t`, and `str_replace` nothing.
Where an occurrence ends beyond the range of an `int`, the last lines say only what is necessary. -/
theorem respects_iff (dest : List UInt8) :
    (∀ src after : List UInt8,
      Respects dest (some (src.map tolower)) (strTolower src dest after dest.length) ↔
        0 ∈ dest ++ after ∧ (src.length < dest.length ∨ 0 ∉ dest)) ∧
    (∀ src after : List UInt8,
      Respects dest (some (src.map toupper)) (strToupper src dest after dest.length) ↔
        0 ∈ dest ++ after ∧ (src.length < dest.length ∨ 0 ∉ dest)) ∧
    (∀ (str : List UInt8) (beginIndex endIndex len : UInt64), dest.length = len.toNat →
      (Respects dest (substring str beginIndex endIndex)
        (strSubstring str beginIndex endIndex dest len) ↔
        ¬ (beginIndex = 0 ∧ endIndex = -1 ∧ str ≠ [] ∧ dest.length ≤ str.length))) ∧
    (∀ s target replacement : List UInt8, s = [] ∨ target = [] →
      (Respects dest (some []) (strReplace s target replacement dest dest.length) ↔
        0 < dest.length)) ∧
    ∀ (s target replacement : List UInt8) (pieces : List (List UInt8)), s ≠ [] →
      target ≠ [] → Cuts target s pieces →
        (Respects dest (some (replacement.intercalate pieces))
          (strReplace s target replacement dest dest.length) →
          (replacement.intercalate pieces).length < dest.length) ∧
        (EndsInInt s pieces → (Respects dest (some (replacement.intercalate pieces))
          (strReplace s target replacement dest dest.length) ↔
          (replacement.intercalate pieces).length < dest.length ∧
            InInt replacement 0 pieces)) :=
  ⟨fun _ _ => respects_convert_iff, fun _ _ => respects_convert_iff,
    fun _ _ _ _ h => respects_strSubstring_iff h,
    fun _ _ _ h => respects_strReplace_empty_iff h _,
    fun _ _ _ _ hs htarget h => ⟨lt_of_respects_strReplace hs htarget,
      fun hends => respects_strReplace_iff h hs htarget hends _⟩⟩

theorem cuts_a : Cuts [(0x61 : UInt8)] [0x61] [[], []] :=
  .cut (i := 0) ⟨by decide, by decide⟩ <| .last (by decide)

theorem cuts_front (n : ℕ) : Cuts [0x61, 0x61] ([0x61, 0x61] ++ List.replicate n 0x62)
    [[], List.replicate n (0x62 : UInt8)] := by
  refine .cut (i := 0) (firstAt_zero_iff.mpr (List.prefix_append _ _)) (.last fun hinfix => ?_)
  exact absurd (List.eq_of_mem_replicate (List.IsInfix.subset hinfix List.mem_cons_self))
    (by decide)

/-- One letter that becomes two, in a destination of three bytes, and two letters that are taken
out of a string whose length is no `int`. -/
theorem respects_a :
    Respects [1, 1, 1] (some [0x62, 0x62])
      (strReplace [0x61] [0x61] [0x62, 0x62] [1, 1, 1] [1, 1, 1].length) ∧
    Respects (List.replicate (2 ^ 31 - 2 + 1) 1)
      (some (([] : List UInt8).intercalate [[], List.replicate (2 ^ 31 - 2) 0x62]))
      (strReplace ([0x61, 0x61] ++ List.replicate (2 ^ 31 - 2) 0x62) [0x61, 0x61] []
        (List.replicate (2 ^ 31 - 2 + 1) 1)
        (List.replicate (2 ^ 31 - 2 + 1) (1 : UInt8)).length) := by
  constructor
  · exact (((respects_iff _).2.2.2.2 _ _ _ _ (by decide) (by decide) cuts_a).2
      (endsInInt_of_lt (by decide))).mpr ⟨by decide, by decide, by decide, trivial⟩
  · generalize hn : 2 ^ 31 - 2 = n
    refine (((respects_iff _).2.2.2.2 _ _ _ _ (by simp) (by decide)
      (cuts_front n)).2 ?_).mpr ⟨?_, ?_⟩
    · intro last hlast
      obtain rfl : List.replicate n 0x62 = last := Option.some.inj hlast
      rw [List.length_append, List.length_replicate, List.length_cons, List.length_singleton]
      omega
    · simp
    · refine ⟨by decide, ?_, trivial⟩
      rw [List.length_replicate, List.length_nil]
      omega

/-- `"ab"` in lower and in upper case, the substring of it for the whole range of `size_t`, and
`"a"` with two letters for one: none of them respects a destination of one byte. -/
theorem not_respects_byte :
    ¬ Respects [0] (some [0x61, 0x62]) (strTolower [0x61, 0x62] [0] [] 1) ∧
    ¬ Respects [0] (some [0x41, 0x42]) (strToupper [0x61, 0x62] [0] [] 1) ∧
    ¬ Respects [0] (some [0x61, 0x62]) (strSubstring [0x61, 0x62] 0 (-1) [0] 1) ∧
    ¬ Respects [0] (some [0x62, 0x62]) (strReplace [0x61] [0x61] [0x62, 0x62] [0] 1) := by
  refine ⟨fun h => ?_, fun h => ?_, fun h => ?_, fun h => ?_⟩
  · have hfit := respects_convert_iff.mp h
    exact absurd hfit (by decide)
  · have hfit := respects_convert_iff.mp h
    exact absurd hfit (by decide)
  · have hfit := (respects_strSubstring_iff rfl).mp h
    exact absurd hfit (by decide)
  · exact absurd (lt_of_respects_strReplace (by decide) (by decide) h) (by decide)

end CInt

end Mbtk.MString
