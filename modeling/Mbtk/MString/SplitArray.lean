import Mbtk.MString.Scan

namespace Mbtk.MString

open Lib

namespace CInt

/-- A place of the array: as `malloc` leaves it, NULL, or a pointer to a string. -/
inductive Slot where
  | garbage
  | null
  | ptr (str : List UInt8)
  deriving DecidableEq

/-- The array with these strings and a NULL behind them. -/
def slots (pieces : List (List UInt8)) : List Slot := pieces.map .ptr ++ [.null]

/-- The strings that `str_split_by_string` makes from a position on.  Its loop makes the turns of
`str_contains_count`. -/
def strSplitLoop (s regex : List UInt8) : ℕ → ℤ → Option (List (List UInt8))
  | 0, _ => none
  | n + 1, position =>
    match findFrom s regex position with
    | none =>
      if 0 ≤ position ∧ position ≤ s.length then some [s.drop position.toNat] else none
    | some temp => do
      let _ ← add temp 1
      let pieces ← strSplitLoop s regex n (toInt (position + (temp + regex.length)))
      return (s.drop position.toNat).take temp :: pieces

/-- `str_split_by_string`: NULL, or the array with the index that the pointer returned has in it.
The stores go from the first place of the array on. -/
def strSplitByString (s regex : List UInt8) : Option (Option (List Slot × ℤ)) :=
  if s = [] ∨ regex = [] then some none
  else do
    let count ← strContainsCount s regex
    if count = 0 then return none
    else
      let places ← add count 2
      let pieces ← strSplitLoop s regex (2 ^ 31) 0
      let result ← copyInto (List.replicate places.toNat .garbage) 0 (slots pieces)
      return some (result, pieces.length - count - 1)

/-- The separators are taken out and the pieces between them fill the array, or the function
returns NULL and there is nothing to split. -/
structure SplitsExactly (s regex : List UInt8) : Prop where
  null : strSplitByString s regex = some none ↔ s = [] ∨ regex = [] ∨ ¬ regex <:+: s
  array : regex ≠ [] → regex <:+: s → ∃ count pieces, strContainsCount s regex = some count ∧
    pieces.length = count + 1 ∧
    strSplitByString s regex = some (some (slots pieces, 0)) ∧
    (∀ piece ∈ pieces, ¬ regex <:+: piece) ∧ regex.intercalate pieces = s

section Exact

variable {s regex : List UInt8} {pieces : List (List UInt8)} {p n : ℕ}

theorem strSplitLoop_eq (h : Cuts regex (s.drop p) pieces) (hregex : regex ≠ [])
    (hp : p ≤ s.length) (hends : EndsInInt s pieces) (hn : pieces.length ≤ n) :
    strSplitLoop s regex n p = some pieces := by
  induction pieces generalizing p n with
  | nil => exact absurd rfl h.ne_nil
  | cons piece pieces ih =>
    obtain ⟨n, rfl⟩ := Nat.exists_eq_add_one.mpr (Nat.zero_lt_of_lt hn)
    rw [strSplitLoop]
    cases h with
    | last hno => simp [findFrom_eq_none hno, hp]
    | @cut _ i _ hi h =>
      obtain ⟨hlt, hnext, hp', hends', hcuts⟩ := hends.next hp hregex hi h
      have hpos := List.length_pos_iff.mpr hregex
      rw [findFrom_of_firstAt hi hregex (by omega)]
      dsimp only
      rw [hnext, ih hcuts hp' hends' (Nat.le_of_succ_le_succ hn), add_of_lt (by omega) (by omega)]
      rfl

theorem strSplitByString_eq_none (h : Cuts regex s pieces) (hs : s ≠ []) (hregex : regex ≠ [])
    (hends : EndsInInt s pieces) (hone : pieces.length = 1) :
    strSplitByString s regex = some none := by
  have hcount := strContainsCount_eq h hregex hends (by omega)
  rw [hone] at hcount
  rw [strSplitByString, if_neg (by simp [hs, hregex]), hcount]
  rfl

theorem strSplitByString_eq_array (h : Cuts regex s pieces) (hs : s ≠ []) (hregex : regex ≠ [])
    (hends : EndsInInt s pieces) (htwo : 1 < pieces.length) (hlen : pieces.length < 2 ^ 31 - 1) :
    strSplitByString s regex = some (some (slots pieces, 0)) := by
  have hcount := strContainsCount_eq h hregex hends (by omega)
  have hloop : strSplitLoop s regex (2 ^ 31) 0 = some pieces :=
    strSplitLoop_eq (p := 0) h hregex (Nat.zero_le _) hends (by omega)
  have hstores : (slots pieces).length =
      (List.replicate (((pieces.length - 1 : ℕ) : ℤ) + 2).toNat Slot.garbage).length := by
    rw [slots, List.length_append, List.length_map, List.length_singleton, List.length_replicate]
    omega
  have hcopy := copyInto_append_right (w := []) (i := 0) rfl hstores
  rw [strSplitByString, if_neg (by simp [hs, hregex]), hcount]
  refine (if_neg (show ¬ pieces.length - 1 = 0 by omega)).trans ?_
  rw [add_of_lt (by omega) (by omega)]
  change (strSplitLoop s regex (2 ^ 31) 0).bind _ = _
  rw [hloop]
  change (copyInto _ 0 _).bind _ = _
  rw [← List.nil_append (List.replicate _ _), hcopy]
  have hindex : (pieces.length : ℤ) - (pieces.length - 1 : ℕ) - 1 = 0 := by omega
  exact congrArg (fun index => some (some (pieces.map Slot.ptr ++ [.null], index))) hindex

theorem splitsExactly_of_fits (hregex : regex ≠ []) (h : Cuts regex s pieces)
    (hlen : pieces.length < 2 ^ 31 - 1) (hends : EndsInInt s pieces) : SplitsExactly s regex := by
  by_cases hinfix : regex <:+: s
  · have hs : s ≠ [] := by
      rintro rfl
      exact hregex (List.infix_nil.mp hinfix)
    have hone : pieces.length ≠ 1 := fun hone => h.length_eq_one_iff.mp hone hinfix
    have hpos := List.length_pos_iff.mpr h.ne_nil
    have harray := strSplitByString_eq_array h hs hregex hends (by omega) hlen
    refine ⟨?_, fun _ _ => ⟨pieces.length - 1, pieces, ?_, by omega, harray,
      h.not_infix hregex, h.intercalate⟩⟩
    · rw [harray]
      exact iff_of_false (by simp) (by simp [hs, hregex, hinfix])
    · exact strContainsCount_eq h hregex hends (by omega)
  · refine ⟨iff_of_true ?_ (.inr (.inr hinfix)), fun _ hyes => absurd hyes hinfix⟩
    by_cases hs : s = []
    · exact if_pos (.inl hs)
    · exact strSplitByString_eq_none h hs hregex hends (h.length_eq_one_iff.mpr hinfix)

theorem nonneg_of_strSplitLoop {position : ℤ} (h : strSplitLoop s regex n position = some pieces) :
    0 ≤ position := by
  by_contra hneg
  have hfind : findFrom s regex position = none := if_neg fun hcond => hneg hcond.1
  cases n with
  | zero => cases h
  | succ n =>
    rw [strSplitLoop, hfind] at h
    exact absurd ((if_neg fun hcond => hneg hcond.1).symm.trans h) (by simp)

theorem ne_nil_of_strSplitLoop {position : ℤ} (h : strSplitLoop s regex n position = some pieces) :
    pieces ≠ [] := by
  rintro rfl
  cases n with
  | zero => cases h
  | succ n =>
    rw [strSplitLoop] at h
    cases hfind : findFrom s regex position with
    | none => simp [hfind] at h
    | some temp =>
      rw [hfind] at h
      obtain ⟨-, -, h⟩ := Option.bind_eq_some_iff.mp h
      obtain ⟨rest, -, h⟩ := Option.bind_eq_some_iff.mp h
      exact absurd (Option.some.inj h) (by simp)

theorem exists_turn {temp : ℕ} (hregex : regex ≠ [])
    (h : strSplitLoop s regex (n + 1) p = some pieces) (hfind : findFrom s regex p = some temp) :
    ∃ i q rest, FirstAt regex (s.drop p) i ∧ temp ≤ i ∧ p + i + regex.length ≤ s.length ∧
      q ≤ p + temp + regex.length ∧ q < 2 ^ 31 ∧ pieces = (s.drop p).take temp :: rest ∧
      strSplitLoop s regex n q = some rest := by
  obtain ⟨hlt, i, hi, htemp⟩ := exists_firstAt_of_findFrom hfind
  have hle := hi.add_length_le hregex
  rw [List.length_drop] at hle
  have htempi := toInt_le (Int.natCast_nonneg i)
  rw [strSplitLoop, hfind] at h
  obtain ⟨-, -, h⟩ := Option.bind_eq_some_iff.mp h
  obtain ⟨rest, hrest, h⟩ := Option.bind_eq_some_iff.mp h
  obtain ⟨q, hq⟩ := Int.eq_ofNat_of_zero_le (nonneg_of_strSplitLoop hrest)
  have hqle := toInt_le (show 0 ≤ (p : ℤ) + (temp + regex.length) by omega)
  have hqlt := toInt_lt (p + (temp + regex.length))
  rw [hq] at hrest hqle hqlt
  exact ⟨i, q, rest, hi, by omega, by omega, by omega, by omega, (Option.some.inj h).symm, hrest⟩

/-- The joined pieces are at least as long as the rest of the string.  Each turn in which the
position wraps around makes them longer. -/
theorem length_le_of_strSplitLoop (hp : p ≤ s.length) (hregex : regex ≠ [])
    (h : strSplitLoop s regex n p = some pieces) :
    s.length ≤ p + (regex.intercalate pieces).length := by
  induction n generalizing p pieces with
  | zero => cases h
  | succ n ih =>
    cases hfind : findFrom s regex p with
    | none =>
      rw [strSplitLoop, hfind] at h
      dsimp only at h
      rw [if_pos (by omega)] at h
      obtain rfl := Option.some.inj h
      rw [List.intercalate_singleton, Int.toNat_natCast, List.length_drop]
      omega
    | some temp =>
      obtain ⟨i, q, rest, -, htemp, hle, hq, -, rfl, hrest⟩ := exists_turn hregex h hfind
      have hjoin := ih (show q ≤ s.length by omega) hrest
      rw [List.intercalate_cons_of_ne_nil (ne_nil_of_strSplitLoop hrest), List.length_append,
        List.length_append, List.length_take_of_le (by rw [List.length_drop]; omega)]
      omega

theorem cuts_of_strSplitLoop (hp : p ≤ s.length) (hlt : p < 2 ^ 31) (hregex : regex ≠ [])
    (h : strSplitLoop s regex n p = some pieces) (hno : ∀ piece ∈ pieces, ¬ regex <:+: piece)
    (hjoin : regex.intercalate pieces = s.drop p) :
    Cuts regex (s.drop p) pieces ∧ EndsInInt s pieces := by
  induction n generalizing p pieces with
  | zero => cases h
  | succ n ih =>
    cases hfind : findFrom s regex p with
    | none =>
      rw [strSplitLoop, hfind] at h
      dsimp only at h
      rw [if_pos (by omega)] at h
      obtain rfl := Option.some.inj h
      rw [Int.toNat_natCast] at hno ⊢
      refine ⟨.last (hno _ (by simp)), fun last hlast => ?_⟩
      rw [← Option.some.inj hlast, List.getLast_singleton, List.length_drop]
      omega
    | some temp =>
      obtain ⟨i, q, rest, hi, htemp, hle, hq, hq31, rfl, hrest⟩ := exists_turn hregex h hfind
      have hne := ne_nil_of_strSplitLoop hrest
      rw [List.intercalate_cons_of_ne_nil hne, List.append_assoc] at hjoin
      -- the piece is cut off at an occurrence, and there is none before the first
      have hoccurs : (s.drop p).drop temp = regex ++ regex.intercalate rest := by
        have htake : ((s.drop p).take temp).length = temp := by
          rw [List.length_take, List.length_drop]
          omega
        rw [← hjoin, List.drop_left' htake]
      obtain rfl : i = temp := le_antisymm (hi.le ⟨_, hoccurs.symm⟩) htemp
      -- and the position does not wrap around, since the joined pieces have the right length
      have hlen := length_le_of_strSplitLoop (show q ≤ s.length by omega) hregex hrest
      have hjoined := congrArg List.length hoccurs
      simp only [List.length_drop, List.length_append] at hjoined
      obtain rfl : q = p + (i + regex.length) := by omega
      have hdrop : regex.intercalate rest = s.drop (p + (i + regex.length)) := by
        have hbehind := congrArg (List.drop regex.length) hoccurs
        rw [List.drop_left, List.drop_drop, List.drop_drop] at hbehind
        exact hbehind.symm
      obtain ⟨hcuts, hends⟩ := ih (by omega) hq31 hrest
        (fun piece hpiece => hno piece (List.mem_cons_of_mem _ hpiece)) hdrop
      refine ⟨.cut hi (by rwa [List.drop_drop]), ?_⟩
      rwa [EndsInInt, List.getLast?_cons_of_ne_nil hne]

theorem slots_injective : Function.Injective slots := by
  intro pieces pieces' h
  have hmap := List.append_cancel_right h
  exact List.map_injective_iff.mpr (fun _ _ hptr => Slot.ptr.inj hptr) hmap

theorem exists_of_strSplitByString (hs : s ≠ []) (hregex : regex ≠ [])
    (h : strSplitByString s regex = some (some (slots pieces, 0))) :
    pieces.length + 1 < 2 ^ 31 ∧ strSplitLoop s regex (2 ^ 31) 0 = some pieces := by
  rw [strSplitByString, if_neg (by simp [hs, hregex])] at h
  obtain ⟨count, hcount, h⟩ := Option.bind_eq_some_iff.mp h
  by_cases hzero : count = 0
  · exact absurd ((if_pos hzero).symm.trans h) (by simp)
  replace h := (if_neg hzero).symm.trans h
  obtain ⟨places, hplaces, h⟩ := Option.bind_eq_some_iff.mp h
  obtain ⟨stored, hstored, h⟩ := Option.bind_eq_some_iff.mp h
  obtain ⟨array, harray, h⟩ := Option.bind_eq_some_iff.mp h
  obtain ⟨rfl, hindex⟩ := Prod.mk.inj (Option.some.inj (Option.some.inj h))
  obtain ⟨rfl, hlt⟩ := eq_of_add hplaces
  have hfull : (slots stored).length =
      (List.replicate ((count : ℤ) + 2).toNat Slot.garbage).length := by
    rw [slots, List.length_append, List.length_map, List.length_singleton, List.length_replicate]
    omega
  have hcopy := copyInto_append_right (w := []) (i := 0) rfl hfull
  rw [List.nil_append, List.nil_append, harray] at hcopy
  obtain rfl : pieces = stored := slots_injective (Option.some.inj hcopy)
  exact ⟨by omega, hstored⟩

theorem fits_of_splitsExactly (hregex : regex ≠ []) (h : Cuts regex s pieces)
    (hsplit : SplitsExactly s regex) : pieces.length < 2 ^ 31 - 1 ∧ EndsInInt s pieces := by
  by_cases hinfix : regex <:+: s
  · have hs : s ≠ [] := by
      rintro rfl
      exact hregex (List.infix_nil.mp hinfix)
    obtain ⟨count, pieces', -, -, harray, hno, hjoin⟩ := hsplit.array hregex hinfix
    obtain ⟨hlen, hloop⟩ := exists_of_strSplitByString hs hregex harray
    obtain ⟨hcuts, hends⟩ := cuts_of_strSplitLoop (p := 0) (Nat.zero_le _) (by decide) hregex
      hloop hno hjoin
    obtain rfl := h.unique hcuts
    exact ⟨by omega, hends⟩
  · obtain rfl := h.unique (.last hinfix)
    refine ⟨by rw [List.length_singleton]; decide, fun last hlast => ?_⟩
    rw [← Option.some.inj hlast, List.getLast_singleton]
    omega

end Exact

theorem not_cuts_nil {s : List UInt8} {pieces : List (List UInt8)} : ¬ Cuts [] s pieces := by
  intro h
  induction h with
  | last hno => exact hno List.nil_infix
  | cut _ _ ih => exact ih

/-- The array is exact, and NULL the answer to strings without a separator, exactly if the last
separator ends in the range of an `int` and the number of places is an `int`. -/
theorem splitsExactly_iff (s regex : List UInt8) :
    SplitsExactly s regex ↔ ∀ pieces, Cuts regex s pieces →
      pieces.length < 2 ^ 31 - 1 ∧ EndsInInt s pieces := by
  by_cases hregex : regex = []
  · subst hregex
    refine iff_of_true ⟨iff_of_true (if_pos (.inr rfl)) (.inr (.inl rfl)),
      fun hne => absurd rfl hne⟩ fun pieces h => absurd h not_cuts_nil
  · constructor
    · exact fun hsplit pieces h => fits_of_splitsExactly hregex h hsplit
    · intro hfits
      obtain ⟨pieces, h⟩ := exists_cuts hregex s
      exact splitsExactly_of_fits hregex h (hfits pieces h).1 (hfits pieces h).2

theorem not_splitsExactly_of_le {c : UInt8} {word : List UInt8} (hc : c ∉ word)
    (hlen : 2 ^ 31 ≤ word.length) : ¬ SplitsExactly (word ++ [c]) [c] := by
  intro hsplit
  have hi : FirstAt [c] (word ++ [c]) word.length :=
    firstAt_of_strIndexof (strIndexof_singleton hc [])
  have hdrop : (word ++ [c]).drop (word.length + [c].length) = [] :=
    List.drop_of_length_le (by rw [List.length_append])
  have hcuts : Cuts [c] (word ++ [c]) [(word ++ [c]).take word.length, []] :=
    .cut hi (by rw [hdrop]; exact .last (by simp))
  have hends := (fits_of_splitsExactly (by simp) hcuts hsplit).2 [] rfl
  rw [List.length_append, List.length_singleton, List.length_nil] at hends
  omega

/-- Two gigabytes of a letter in front of the separator. -/
theorem not_splitsExactly_long : ¬ SplitsExactly (List.replicate (2 ^ 31) 0x61 ++ [0x20]) [0x20] :=
  not_splitsExactly_of_le (fun hmem => absurd (List.eq_of_mem_replicate hmem) (by decide))
    (by rw [List.length_replicate])

end CInt

section Lists

variable {s regex : List UInt8}

theorem cuts_strSplitLoop {fuel : ℕ} {rest : List UInt8} (hregex : regex ≠ [])
    (hfuel : rest.length < fuel) : Cuts regex rest (strSplitLoop regex fuel rest) := by
  induction fuel generalizing rest with
  | zero => exact absurd hfuel (Nat.not_lt_zero _)
  | succ fuel ih =>
    rw [strSplitLoop]
    split_ifs with hnil
    · exact .last (by rw [hnil, List.infix_nil]; exact hregex)
    · cases hidx : strIndexof regex rest with
      | none => exact .last (strIndexof_eq_none_iff.mp hidx)
      | some temp =>
        have hi := firstAt_of_strIndexof hidx
        have hle := hi.add_length_le hregex
        have hpos := List.length_pos_iff.mpr hregex
        exact .cut hi (ih (by rw [List.length_drop]; omega))

theorem cInt_strSplitByString (hlen : s.length < 2 ^ 31 - 2) :
    CInt.strSplitByString s regex =
      some ((strSplitByString s regex).map fun pieces => (CInt.slots pieces, 0)) := by
  by_cases hnil : s = [] ∨ regex = []
  · rw [CInt.strSplitByString, if_pos hnil, strSplitByString, if_pos hnil]
    rfl
  · obtain ⟨hs, hregex⟩ := not_or.mp hnil
    have hcuts := cuts_strSplitLoop hregex (show s.length < s.length + 1 by omega)
    have hle := hcuts.length_le hregex
    have hends : CInt.EndsInInt s (strSplitLoop regex (s.length + 1) s) := by
      intro last _
      omega
    have hcount := length_strSplitLoop regex (s.length + 1) s
    rw [strSplitByString, if_neg hnil, strContainsCount, if_neg hnil]
    dsimp only
    split_ifs with hzero
    · exact CInt.strSplitByString_eq_none hcuts hs hregex hends (by omega)
    · rw [CInt.strSplitByString_eq_array hcuts hs hregex hends (by omega) (by omega), hcount,
        Nat.sub_self, List.drop_zero]
      rfl

end Lists

end Mbtk.MString
