import Mathlib.Data.List.TakeWhile
import Mbtk.AtGenerator.Numbers

namespace Mbtk.AtGenerator

open Lib.CInit

/-- A numeral has digits only. -/
def numeral (s : Text) : Option ℤ :=
  if s ≠ [] ∧ s.all Char.isDigit then some ((Nat.ofDigitChars 10 s 0 : ℕ) : ℤ) else none

section Grammar

inductive IsName : Text → Prop
  | plain {c : Char} {rest : Text} :
      c.isUpper → (∀ d ∈ rest, d.isUpper ∨ d.isDigit) → IsName (c :: rest)
  | plus {c : Char} {rest : Text} :
      c.isUpper → (∀ d ∈ rest, d.isUpper ∨ d.isDigit) → IsName ('+' :: c :: rest)

variable (number : Text → Option ℤ)

inductive IsRange : Text → Prop
  | single {s : Text} {n : ℤ} : '-' ∉ s → number s = some n → IsRange s
  | pair {s t : Text} {n m : ℤ} :
      '-' ∉ s → '-' ∉ t → number s = some n → number t = some m → n ≤ m → IsRange (s ++ '-' :: t)

inductive IsParam : Text → Prop
  | string {s : Text} {n : ℤ} :
      ' ' ∉ s → number s = some n → IsParam ('(' :: ('s' :: s ++ [')']))
  | numeric {pieces : List Text} :
      pieces ≠ [] → (∀ piece ∈ pieces, ' ' ∉ piece ∧ IsRange number piece) →
        IsParam ('(' :: ([' '].intercalate pieces ++ [')']))

inductive IsRow : Row → Prop
  | mk {name type : Text} {params : List Text} {n : ℤ} :
      IsName name → number type = some n → 1 ≤ n → n ≤ 15 → (params ≠ [] ↔ n.toNat &&& 2 ≠ 0) →
        (∀ param ∈ params, IsParam number param) → IsRow (name :: type :: params)

/-- A row at which the check raises an exception. -/
inductive Raises : Row → Prop
  | name {type : Text} {params : List Text} : Raises ([] :: type :: params)
  | type {name type : Text} {params : List Text} :
      IsName name → number type = none → Raises (name :: type :: params)

/-- The rows follow the grammar, and their names differ. -/
def WellFormed (rows : List Row) : Prop :=
  (∀ line ∈ rows, IsRow number line) ∧ (rows.map atName).Nodup

end Grammar

section Numbers

variable {s : Text} {n : ℤ}

theorem pyInt_of_digits (hne : s ≠ []) (h : ∀ c ∈ s, c.isDigit) :
    pyInt s = some ((Nat.ofDigitChars 10 s 0 : ℕ) : ℤ) := by
  obtain ⟨c, rest, rfl⟩ := List.exists_cons_of_ne_nil hne
  have hc := h c List.mem_cons_self
  have hspace : isSpace c = false := by
    by_contra hspace
    rw [Bool.not_eq_false] at hspace
    exact absurd hc (by simp [not_isDigit_of_isSpace hspace])
  have hsign := not_sign_of_isDigit hc
  rw [Bool.or_eq_false_iff, decide_eq_false_iff_not, decide_eq_false_iff_not] at hsign
  have hdrop : (c :: rest).dropWhile isSpace = c :: rest :=
    List.dropWhile_cons_of_neg (by simp [hspace])
  have htake : (c :: rest).takeWhile Char.isDigit = c :: rest :=
    List.takeWhile_eq_self_iff.mpr h
  have hrest : (c :: rest).dropWhile Char.isDigit = [] := List.dropWhile_eq_nil_iff.mpr h
  unfold pyInt
  simp [hdrop, htake, hrest, hsign.1, hsign.2]

theorem numeral_eq_some_iff : numeral s = some n ↔ pyInt s = some n ∧ s.all Char.isDigit := by
  unfold numeral
  constructor
  · intro h
    split_ifs at h with hs
    exact ⟨(pyInt_of_digits hs.1 (List.all_eq_true.mp hs.2)).trans h, hs.2⟩
  · rintro ⟨h, hdigits⟩
    have hne : s ≠ [] := by
      rintro rfl
      cases h
    rw [if_pos ⟨hne, hdigits⟩, ← pyInt_of_digits hne (List.all_eq_true.mp hdigits), h]

theorem mem_pyInt (h : pyInt s = some n) {c : Char} (hc : c ∈ s) :
    isSpace c ∨ c = '-' ∨ c = '+' ∨ c.isDigit := by
  obtain ⟨before, sign, between, digits, behind, hparts, -⟩ := pyInt_parts h
  rw [hparts.text] at hc
  simp only [List.mem_append] at hc
  rcases hc with hc | hc | hc | hc | hc
  · exact .inl (hparts.before c hc)
  · rcases hparts.sign with hsign | hsign | hsign
    · simp [hsign] at hc
    · exact .inr (.inl (by simpa [hsign] using hc))
    · exact .inr (.inr (.inl (by simpa [hsign] using hc)))
  · exact .inl (hparts.between c hc)
  · exact .inr (.inr (.inr (hparts.digits c hc)))
  · exact .inl (hparts.behind c hc)

theorem pyInt_head (h : pyInt s = some n) : s ≠ [] ∧ s.head? ≠ some 's' := by
  constructor
  · rintro rfl
    cases h
  · intro hhead
    exact absurd (mem_pyInt h (List.mem_of_head? hhead)) (by decide)

theorem mem_isName (h : IsName s) {c : Char} (hc : c ∈ s) : c = '+' ∨ c.isUpper ∨ c.isDigit := by
  cases h with
  | plain hupper hrest =>
    exact .inr (List.forall_mem_cons.mpr ⟨.inl hupper, hrest⟩ c hc)
  | plus hupper hrest =>
    refine (List.mem_cons.mp hc).imp_right fun hc => ?_
    exact List.forall_mem_cons.mpr ⟨.inl hupper, hrest⟩ c hc

theorem IsRow.isName {number : Text → Option ℤ} {line : Row} (h : IsRow number line) :
    IsName (line.getD 0 []) := by
  cases h with
  | mk hname => exact hname

end Numbers

section Check

variable {s t piece arg : Text}

theorem splitOn_pair (hs : '-' ∉ s) (ht : '-' ∉ t) : (s ++ '-' :: t).splitOn '-' = [s, t] := by
  rw [List.splitOn_append_cons_self_of_not_mem hs, List.splitOn_eq_singleton ht]

theorem isInt_iff : isInt s = true ↔ ∃ n, pyInt s = some n := Option.isSome_iff_exists

theorem checkRange_of_not_mem (h : '-' ∉ piece) :
    checkRange piece = true ↔ ' ' ∉ piece ∧ ∃ n, pyInt piece = some n := by
  unfold checkRange
  rw [List.splitOn_eq_singleton h]
  simp [isInt_iff]

theorem checkRange_pair (hs : '-' ∉ s) (ht : '-' ∉ t) :
    checkRange (s ++ '-' :: t) = true ↔ ' ' ∉ s ++ '-' :: t ∧
      ∃ n m, pyInt s = some n ∧ pyInt t = some m ∧ n ≤ m := by
  unfold checkRange
  rw [splitOn_pair hs ht]
  simp only [isInt, List.length_cons, List.length_nil]
  cases hn : pyInt s with
  | none => simp [hn]
  | some n =>
    cases hm : pyInt t with
    | none => simp [hm]
    | some m => simp [hn, hm]

theorem isRange_of_not_mem {number : Text → Option ℤ} (h : '-' ∉ piece) :
    IsRange number piece ↔ ∃ n, number piece = some n := by
  constructor
  · rintro (⟨-, hn⟩ | ⟨-, -, -, -, -⟩)
    · exact ⟨_, hn⟩
    · simp at h
  · rintro ⟨n, hn⟩
    exact .single h hn

theorem isRange_pair {number : Text → Option ℤ} (hs : '-' ∉ s) (ht : '-' ∉ t) :
    IsRange number (s ++ '-' :: t) ↔ ∃ n m, number s = some n ∧ number t = some m ∧ n ≤ m := by
  constructor
  · intro h
    generalize hpiece : s ++ '-' :: t = piece at h
    cases h with
    | single hmem => simp [← hpiece] at hmem
    | pair hs' ht' hn hm hle =>
      have hsplit := splitOn_pair hs ht
      rw [hpiece, splitOn_pair hs' ht'] at hsplit
      simp only [List.cons.injEq, and_true] at hsplit
      obtain ⟨rfl, rfl⟩ := hsplit
      exact ⟨_, _, hn, hm, hle⟩
  · rintro ⟨n, m, hn, hm, hle⟩
    exact .pair hs ht hn hm hle

theorem checkRange_iff : checkRange piece = true ↔ ' ' ∉ piece ∧ IsRange pyInt piece := by
  by_cases h : '-' ∈ piece
  · obtain ⟨s, t, rfl, hs⟩ := List.eq_append_cons_of_mem h
    by_cases ht : '-' ∈ t
    · refine iff_of_false ?_ ?_
      · obtain ⟨t, u, rfl, hfirst⟩ := List.eq_append_cons_of_mem ht
        unfold checkRange
        rw [List.splitOn_append_cons_self_of_not_mem hs,
          List.splitOn_append_cons_self_of_not_mem hfirst]
        have := List.length_pos_iff.mpr (List.splitOn_ne_nil '-' u)
        simp only [List.length_cons, Bool.and_eq_true, Bool.or_eq_true, decide_eq_true_eq]
        omega
      · rintro ⟨-, h⟩
        generalize hpiece : s ++ '-' :: t = piece at h
        have hcount := List.count_pos_iff.mpr ht
        have hcount' := congrArg (List.count '-') hpiece
        rw [List.count_append, List.count_cons_self] at hcount'
        cases h with
        | single hmem => simp [← hpiece] at hmem
        | pair hs' ht' =>
          rw [List.count_append, List.count_cons_self, List.count_eq_zero.mpr hs',
            List.count_eq_zero.mpr ht'] at hcount'
          omega
    · rw [checkRange_pair hs ht, isRange_pair hs ht]
  · rw [checkRange_of_not_mem h, isRange_of_not_mem h]

theorem exists_inner (hlen : arg.length > 2) (hopen : arg.head? = some '(')
    (hclose : arg.getLast? = some ')') : ∃ c rest, arg = '(' :: (c :: rest ++ [')']) := by
  obtain ⟨front, rfl⟩ := List.getLast?_eq_some_iff.mp hclose
  rcases front with _ | ⟨a, _ | ⟨c, rest⟩⟩
  · simp at hlen
  · simp at hlen
  · obtain rfl : a = '(' := Option.some.inj hopen
    exact ⟨c, rest, rfl⟩

theorem slice_inner (inner : Text) : slice ('(' :: (inner ++ [')'])) 1 = inner := by
  simp [slice]

theorem getLast?_inner (inner : Text) : ('(' :: (inner ++ [')'])).getLast? = some ')' := by
  rw [← List.cons_append, List.getLast?_concat]

theorem isRange_head (h : IsRange pyInt piece) : piece ≠ [] ∧ piece.head? ≠ some 's' := by
  cases h with
  | single hmem hn => exact pyInt_head hn
  | pair hs ht hn =>
    obtain ⟨hne, hhead⟩ := pyInt_head hn
    obtain ⟨c, rest, rfl⟩ := List.exists_cons_of_ne_nil hne
    exact ⟨List.cons_ne_nil _ _, hhead⟩

theorem intercalate_head {pieces : List Text} (hne : pieces ≠ [])
    (h : ∀ piece ∈ pieces, ' ' ∉ piece ∧ IsRange pyInt piece) :
    ∃ c rest, [' '].intercalate pieces = c :: rest ∧ c ≠ 's' := by
  obtain ⟨piece, pieces, rfl⟩ := List.exists_cons_of_ne_nil hne
  obtain ⟨hpiece, hhead⟩ := isRange_head (h piece List.mem_cons_self).2
  obtain ⟨c, rest, rfl⟩ := List.exists_cons_of_ne_nil hpiece
  have hc : c ≠ 's' := fun hc => hhead (by rw [hc]; rfl)
  cases pieces with
  | nil => exact ⟨c, rest, by simp, hc⟩
  | cons other pieces =>
    exact ⟨c, rest ++ ' ' :: [' '].intercalate (other :: pieces),
      by simp [List.intercalate_cons_cons], hc⟩

theorem checkArg_string (rest : Text) : checkArg ('(' :: ('s' :: rest ++ [')'])) = true ↔
    ' ' ∉ rest ∧ ∃ n, pyInt rest = some n := by
  have hslice : slice ('(' :: ('s' :: rest ++ [')'])) 2 = rest := by simp [slice]
  unfold checkArg
  rw [hslice, getLast?_inner]
  simp [isInt_iff]

theorem checkArg_numeric {c : Char} (hc : c ≠ 's') (rest : Text) :
    checkArg ('(' :: (c :: rest ++ [')'])) = true ↔
      ∀ piece ∈ (c :: rest).splitOn ' ', ' ' ∉ piece ∧ IsRange pyInt piece := by
  unfold checkArg
  rw [slice_inner, getLast?_inner]
  simp [hc, checkRange_iff]

theorem checkArg_iff : checkArg arg = true ↔ IsParam pyInt arg := by
  constructor
  · intro h
    have hshape := h
    unfold checkArg at hshape
    simp only [Bool.and_eq_true, decide_eq_true_eq] at hshape
    obtain ⟨⟨⟨hlen, hopen⟩, hclose⟩, -⟩ := hshape
    obtain ⟨c, rest, rfl⟩ := exists_inner hlen hopen hclose
    by_cases hc : c = 's'
    · subst hc
      obtain ⟨hspace, n, hn⟩ := (checkArg_string rest).mp h
      exact .string hspace hn
    · have hpieces := (checkArg_numeric hc rest).mp h
      have hparam := IsParam.numeric (List.splitOn_ne_nil ' ' _) hpieces
      rwa [List.intercalate_splitOn] at hparam
  · intro h
    cases h with
    | string hspace hn => exact (checkArg_string _).mpr ⟨hspace, _, hn⟩
    | numeric hne hpieces =>
      obtain ⟨c, rest, hinner, hc⟩ := intercalate_head hne hpieces
      rw [hinner, checkArg_numeric hc, ← hinner,
        List.splitOn_intercalate ' ' (fun piece hpiece => (hpieces piece hpiece).1) hne]
      exact hpieces

section Rows

variable {name type : Text} {params : List Text} {line : Row} {rows : List Row}

theorem not_any_iff {rest : Text} : (¬ rest.any fun ch => !ch.isUpper && !ch.isDigit) ↔
    ∀ d ∈ rest, d.isUpper ∨ d.isDigit := by
  simp only [List.any_eq_true, Bool.and_eq_true, Bool.not_eq_true', not_exists, not_and,
    Bool.not_eq_false]
  exact forall₂_congr fun d _ => by cases d.isUpper <;> simp

theorem isName_cons {first : Char} {rest : Text} : IsName (first :: rest) ↔
    ¬ (first ≠ '+' ∧ !first.isUpper) ∧
      ¬ (first = '+' ∧ ((first :: rest).length ≤ 1 ∨ !((first :: rest).getD 1 ' ').isUpper)) ∧
        ¬ rest.any fun ch => !ch.isUpper && !ch.isDigit := by
  rw [not_any_iff]
  by_cases hfirst : first = '+'
  · subst hfirst
    cases rest with
    | nil =>
      refine iff_of_false (fun h => ?_) (by simp)
      cases h with
      | plain hupper => cases hupper
    | cons c rest =>
      constructor
      · intro h
        cases h with
        | plain hupper => cases hupper
        | plus hupper hrest => simpa [hupper] using hrest
      · rintro ⟨-, hsecond, hrest⟩
        rw [List.forall_mem_cons] at hrest
        exact .plus (by simpa using hsecond) hrest.2
  · constructor
    · intro h
      cases h with
      | plain hupper hrest => simpa [hupper, hfirst] using hrest
      | plus => exact absurd rfl hfirst
    · rintro ⟨hupper, -, hrest⟩
      exact .plain (by simpa [hfirst] using hupper) hrest

theorem checkRow_nil : checkRow ([] :: type :: params) = none := rfl

theorem checkRow_of_not_isName (hne : name ≠ []) (h : ¬ IsName name) :
    checkRow (name :: type :: params) = some false := by
  obtain ⟨first, rest, rfl⟩ := List.exists_cons_of_ne_nil hne
  rw [isName_cons] at h
  unfold checkRow
  simp only [List.getD_cons_zero, List.head?_cons, List.tail_cons]
  rw [if_neg (by simp)]
  by_cases hlead : first ≠ '+' ∧ !first.isUpper
  · rw [if_pos hlead]
  by_cases hplus : first = '+' ∧
      ((first :: rest).length ≤ 1 ∨ !((first :: rest).getD 1 ' ').isUpper)
  · rw [if_neg hlead, if_pos hplus]
  by_cases hrest : rest.any fun ch => !ch.isUpper && !ch.isDigit
  · rw [if_neg hlead, if_neg hplus, if_pos hrest]
  · exact absurd ⟨hlead, hplus, hrest⟩ h

theorem checkRow_of_isName (h : IsName name) : checkRow (name :: type :: params) =
    (pyInt type).map fun n => decide (1 ≤ n ∧ n ≤ 15 ∧ (params ≠ [] ↔ n.toNat &&& 2 ≠ 0)) &&
      params.all checkArg := by
  obtain ⟨first, rest, rfl⟩ : ∃ first rest, name = first :: rest := by
    cases h with
    | plain => exact ⟨_, _, rfl⟩
    | plus => exact ⟨_, _, rfl⟩
  obtain ⟨hlead, hplus, hrest⟩ := isName_cons.mp h
  unfold checkRow
  simp only [List.getD_cons_zero, List.head?_cons, List.tail_cons]
  rw [if_neg (by simp), if_neg hlead, if_neg hplus, if_neg hrest]
  simp only [List.getD_cons_succ, List.getD_cons_zero, List.drop_succ_cons, List.drop_zero]
  cases pyInt type with
  | none => rfl
  | some n =>
    simp only [Option.map_some]
    by_cases hrange : n < 1 ∨ n > 15
    · have hno : ¬ (1 ≤ n ∧ n ≤ 15 ∧ (params ≠ [] ↔ n.toNat &&& 2 ≠ 0)) := by omega
      rw [if_pos hrange, decide_eq_false hno, Bool.false_and]
    · rw [if_neg hrange]
      have hlow : 1 ≤ n := by omega
      have hhigh : n ≤ 15 := by omega
      by_cases hset : n.toNat &&& 2 ≠ 0
      · rw [if_pos hset]
        cases params <;> simp [hlow, hhigh, hset]
      · rw [if_neg hset]
        rw [not_not] at hset
        cases params <;> simp [hlow, hhigh, hset]

theorem exists_cells (h : checkRow line ≠ some false) : ∃ name type params,
    line = name :: type :: params ∧ (name = [] ∨ IsName name) := by
  rcases line with _ | ⟨name, _ | ⟨type, params⟩⟩
  · exact absurd rfl h
  · exact absurd rfl h
  · refine ⟨name, type, params, rfl, or_iff_not_imp_left.mpr fun hne => ?_⟩
    by_contra hname
    exact h (checkRow_of_not_isName hne hname)

theorem checkRow_eq_true_iff : checkRow line = some true ↔ IsRow pyInt line := by
  constructor
  · intro h
    obtain ⟨name, type, params, rfl, rfl | hname⟩ := exists_cells (by rw [h]; simp)
    · rw [checkRow_nil] at h
      cases h
    · rw [checkRow_of_isName hname] at h
      obtain ⟨n, hn, h⟩ := Option.map_eq_some_iff.mp h
      rw [Bool.and_eq_true, decide_eq_true_eq, List.all_eq_true] at h
      obtain ⟨⟨hlow, hhigh, hset⟩, hparams⟩ := h
      exact .mk hname hn hlow hhigh hset fun param hparam =>
        checkArg_iff.mp (hparams param hparam)
  · intro h
    cases h with
    | mk hname hn hlow hhigh hset hparams =>
      rw [checkRow_of_isName hname, hn, Option.map_some, decide_eq_true ⟨hlow, hhigh, hset⟩,
        Bool.true_and, List.all_eq_true.mpr fun param hparam =>
          checkArg_iff.mpr (hparams param hparam)]

theorem checkRow_eq_none_iff : checkRow line = none ↔ Raises pyInt line := by
  constructor
  · intro h
    obtain ⟨name, type, params, rfl, rfl | hname⟩ := exists_cells (by rw [h]; simp)
    · exact .name
    · rw [checkRow_of_isName hname] at h
      exact .type hname (Option.map_eq_none_iff.mp h)
  · intro h
    cases h with
    | name => rfl
    | type hname htype => rw [checkRow_of_isName hname, htype, Option.map_none]

theorem checkRows_cons (line : Row) (lines : List Row) : checkRows (line :: lines) =
    (checkRow line).bind fun ok => if ok then checkRows lines else some false := rfl

theorem checkRows_eq_true_iff : checkRows rows = some true ↔ ∀ line ∈ rows, IsRow pyInt line := by
  induction rows with
  | nil => exact iff_of_true rfl fun line hline => by cases hline
  | cons line lines ih =>
    rw [checkRows_cons, List.forall_mem_cons, ← checkRow_eq_true_iff, ← ih]
    cases checkRow line with
    | none => simp
    | some ok => cases ok <;> simp

theorem checkRows_eq_none_iff : checkRows rows = none ↔ ∃ before line behind,
    rows = before ++ line :: behind ∧ (∀ other ∈ before, IsRow pyInt other) ∧
      Raises pyInt line := by
  induction rows with
  | nil => exact iff_of_false (by simp [checkRows]) (by simp)
  | cons line lines ih =>
    rw [checkRows_cons]
    constructor
    · intro h
      cases hrow : checkRow line with
      | none => exact ⟨[], line, lines, rfl, by simp, checkRow_eq_none_iff.mp hrow⟩
      | some ok =>
        rw [hrow] at h
        cases ok with
        | false => cases h
        | true =>
          obtain ⟨before, other, behind, rfl, hbefore, hraises⟩ := ih.mp h
          exact ⟨line :: before, other, behind, rfl,
            List.forall_mem_cons.mpr ⟨checkRow_eq_true_iff.mp hrow, hbefore⟩, hraises⟩
    · rintro ⟨before, other, behind, heq, hbefore, hraises⟩
      cases before with
      | nil =>
        obtain ⟨rfl, rfl⟩ := List.cons.inj heq
        rw [checkRow_eq_none_iff.mpr hraises, Option.bind_none]
      | cons first before =>
        obtain ⟨rfl, rfl⟩ := List.cons.inj heq
        obtain ⟨hline, hbefore⟩ := List.forall_mem_cons.mp hbefore
        rw [checkRow_eq_true_iff.mpr hline, Option.bind_some, if_pos rfl]
        exact ih.mpr ⟨before, other, behind, rfl, hbefore, hraises⟩

theorem atDefineCheck_eq (rows : List Row) : atDefineCheck rows =
    (checkRows rows).map fun ok => ok && (rows.map atName).dedup.length = rows.length := by
  change (checkRows rows).bind _ = _
  cases checkRows rows with
  | none => rfl
  | some ok => cases ok <;> rfl

theorem dedup_length_iff : (rows.map atName).dedup.length = rows.length ↔
    (rows.map atName).Nodup := by
  constructor
  · intro h
    have hlen : (rows.map atName).dedup.length = (rows.map atName).length := by
      rw [List.length_map, h]
    rw [← (List.dedup_sublist _).eq_of_length hlen]
    exact List.nodup_dedup _
  · intro h
    rw [h.dedup, List.length_map]

theorem atDefineCheck_eq_true_iff : atDefineCheck rows = some true ↔ WellFormed pyInt rows := by
  rw [atDefineCheck_eq, WellFormed, ← checkRows_eq_true_iff, ← dedup_length_iff]
  cases checkRows rows with
  | none => simp
  | some ok => cases ok <;> simp

theorem atDefineCheck_eq_none_iff : atDefineCheck rows = none ↔ ∃ before line behind,
    rows = before ++ line :: behind ∧ (∀ other ∈ before, IsRow pyInt other) ∧
      Raises pyInt line := by
  rw [atDefineCheck_eq, Option.map_eq_none_iff, checkRows_eq_none_iff]

end Rows

end Check

end Mbtk.AtGenerator
