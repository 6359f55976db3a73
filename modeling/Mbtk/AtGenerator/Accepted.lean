import Mbtk.AtGenerator.Grammar

namespace Mbtk.AtGenerator

open Lib.CInit

variable {arg piece : Text} {line : Row} {table : List Row}

/-- A range as the check takes it, with its numbers. -/
inductive GoodRange (piece : Text) : Prop
  | single (number : Text) (n : ℤ) : piece.splitOn '-' = [number] → pyInt number = some n →
      GoodRange piece
  | pair (low high : Text) (n m : ℤ) : piece.splitOn '-' = [low, high] → pyInt low = some n →
      pyInt high = some m → GoodRange piece

inductive GoodArg (arg : Text) : Prop
  | string (n : ℤ) : arg[1]? = some 's' → isString arg = true →
      ((argRange arg).headD []).tail = slice arg 2 → pyInt (slice arg 2) = some n → GoodArg arg
  | numeric : arg[1]? ≠ some 's' → isString arg = false →
      (∀ piece ∈ argRange arg, GoodRange piece) → GoodArg arg

structure GoodRow (line : Row) : Prop where
  length : 2 ≤ line.length
  name : ∀ c ∈ line.getD 0 [], isWordChar c ∨ c = '+'
  first : ∃ c rest, atName line = c :: rest ∧ c.isUpper
  atName : ∀ c ∈ atName line, c.isUpper ∨ c.isDigit
  type : ∃ n, pyInt (line.getD 1 []) = some n
  args : ∀ arg ∈ line.drop 2, GoodArg arg

theorem isWordChar_of_upper {c : Char} (h : c.isUpper ∨ c.isDigit) : isWordChar c := by
  unfold isWordChar Char.isAlphanum Char.isAlpha
  rcases h with h | h <;> simp [h]

theorem IsRange.good (h : IsRange pyInt piece) : GoodRange piece := by
  cases h with
  | single hmem hn => exact .single _ _ (List.splitOn_eq_singleton hmem) hn
  | pair hs ht hn hm => exact .pair _ _ _ _ (splitOn_pair hs ht) hn hm

theorem IsParam.good (h : IsParam pyInt arg) : GoodArg arg := by
  cases h with
  | @string s n hspace hn =>
    have hslice : slice ('(' :: ('s' :: s ++ [')'])) 2 = s := by simp [slice]
    have hrange : argRange ('(' :: ('s' :: s ++ [')'])) = ['s' :: s] := by
      rw [argRange, slice_inner]
      exact List.splitOn_eq_singleton (by simp [hspace])
    refine .string n rfl ?_ ?_ (by rw [hslice, hn])
    · rw [isString, hrange]
      rfl
    · rw [hrange, hslice]
      rfl
  | @numeric pieces hne hpieces =>
    have hrange : argRange ('(' :: ([' '].intercalate pieces ++ [')'])) = pieces := by
      rw [argRange, slice_inner]
      exact List.splitOn_intercalate ' ' (fun piece hpiece => (hpieces piece hpiece).1) hne
    obtain ⟨first, behind, rfl⟩ := List.exists_cons_of_ne_nil hne
    obtain ⟨-, hhead⟩ := isRange_head (hpieces first List.mem_cons_self).2
    obtain ⟨c, rest, hinner, hc⟩ := intercalate_head hne hpieces
    refine .numeric ?_ ?_ fun piece hpiece => ?_
    · rw [hinner]
      simpa using hc
    · rw [isString, hrange, List.headD_cons, decide_eq_false hhead, Bool.and_false]
    · rw [hrange] at hpiece
      exact (hpieces piece hpiece).2.good

theorem IsName.atName {name : Text} (h : IsName name) (cells : List Text) :
    ∃ c rest, atName (name :: cells) = c :: rest ∧ c.isUpper ∧
      ∀ d ∈ rest, d.isUpper ∨ d.isDigit := by
  cases h with
  | @plain c rest hupper hrest => exact ⟨c, rest, if_pos hupper, hupper, hrest⟩
  | @plus c rest hupper hrest => exact ⟨c, rest, rfl, hupper, hrest⟩

theorem IsRow.good (h : IsRow pyInt line) : GoodRow line := by
  cases h with
  | @mk name type params n hname htype hlow hhigh hset hparams =>
    obtain ⟨c, rest, hatName, hupper, hrest⟩ := hname.atName (type :: params)
    refine ⟨by simp, ?_, ⟨c, rest, hatName, hupper⟩, ?_, ⟨n, htype⟩,
      fun param hparam => (hparams param hparam).good⟩
    · intro d hd
      rcases mem_isName hname hd with hplus | hword
      · exact .inr hplus
      · exact .inl (isWordChar_of_upper hword)
    · rw [hatName]
      exact List.forall_mem_cons.mpr ⟨.inl hupper, hrest⟩

theorem good_of_check (h : atDefineCheck table = some true) :
    (∀ line ∈ table, GoodRow line) ∧ (table.map atName).Nodup := by
  obtain ⟨hrows, hnodup⟩ := atDefineCheck_eq_true_iff.mp h
  exact ⟨fun line hline => (hrows line hline).good, hnodup⟩

end Mbtk.AtGenerator
