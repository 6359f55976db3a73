import Mbtk.AtGenerator.Grammar
import Mbtk.AtGenerator.Lines

namespace Mbtk.AtGenerator

open Lib.CInit

section Digits

def rowNumbers (line : Row) : List Text := line.getD 1 [] :: (line.drop 2).flatMap numbers

variable {piece param : Text} {line : Row} {rows : List Row}

theorem isRange_numeral_iff : IsRange numeral piece ↔
    IsRange pyInt piece ∧ ∀ s ∈ piece.splitOn '-', s.all Char.isDigit := by
  constructor
  · intro h
    cases h with
    | single hs hn =>
      rw [numeral_eq_some_iff] at hn
      rw [List.splitOn_eq_singleton hs]
      exact ⟨.single hs hn.1, List.forall_mem_singleton.mpr hn.2⟩
    | pair hs ht hn hm hle =>
      rw [numeral_eq_some_iff] at hn hm
      rw [splitOn_pair hs ht]
      exact ⟨.pair hs ht hn.1 hm.1 hle,
        List.forall_mem_cons.mpr ⟨hn.2, List.forall_mem_singleton.mpr hm.2⟩⟩
  · rintro ⟨h, hdigits⟩
    cases h with
    | single hs hn =>
      rw [List.splitOn_eq_singleton hs] at hdigits
      exact .single hs (numeral_eq_some_iff.mpr ⟨hn, hdigits _ List.mem_cons_self⟩)
    | pair hs ht hn hm hle =>
      rw [splitOn_pair hs ht] at hdigits
      exact .pair hs ht (numeral_eq_some_iff.mpr ⟨hn, hdigits _ (by simp)⟩)
        (numeral_eq_some_iff.mpr ⟨hm, hdigits _ (by simp)⟩) hle

theorem numbers_string (s : Text) : numbers ('(' :: ('s' :: s ++ [')'])) = [s] := by
  have hsecond : ('(' :: ('s' :: s ++ [')']))[1]? = some 's' := rfl
  rw [numbers, if_pos hsecond]
  simp [slice]

theorem numbers_numeric {pieces : List Text} (hne : pieces ≠ [])
    (h : ∀ piece ∈ pieces, ' ' ∉ piece ∧ IsRange pyInt piece) :
    numbers ('(' :: ([' '].intercalate pieces ++ [')'])) =
      pieces.flatMap fun piece => piece.splitOn '-' := by
  obtain ⟨c, rest, hinner, hc⟩ := intercalate_head hne h
  have hsplit : ([' '].intercalate pieces).splitOn ' ' = pieces :=
    List.splitOn_intercalate ' ' (fun piece hpiece => (h piece hpiece).1) hne
  have hfirst : ('(' :: ([' '].intercalate pieces ++ [')']))[1]? ≠ some 's' := by
    rw [hinner]
    simpa using hc
  rw [numbers, if_neg hfirst, argRange, slice_inner, hsplit]

theorem isParam_numeral_iff : IsParam numeral param ↔
    IsParam pyInt param ∧ ∀ s ∈ numbers param, s.all Char.isDigit := by
  constructor
  · intro h
    cases h with
    | string hs hn =>
      rw [numeral_eq_some_iff] at hn
      rw [numbers_string]
      exact ⟨.string hs hn.1, List.forall_mem_singleton.mpr hn.2⟩
    | numeric hne hpieces =>
      have hloose := fun piece hpiece =>
        And.intro (hpieces piece hpiece).1 (isRange_numeral_iff.mp (hpieces piece hpiece).2).1
      rw [numbers_numeric hne hloose]
      refine ⟨.numeric hne hloose, fun s hs => ?_⟩
      obtain ⟨piece, hpiece, hs⟩ := List.mem_flatMap.mp hs
      exact (isRange_numeral_iff.mp (hpieces piece hpiece).2).2 s hs
  · rintro ⟨h, hdigits⟩
    cases h with
    | string hs hn =>
      rw [numbers_string] at hdigits
      exact .string hs (numeral_eq_some_iff.mpr ⟨hn, hdigits _ List.mem_cons_self⟩)
    | numeric hne hpieces =>
      rw [numbers_numeric hne hpieces] at hdigits
      refine .numeric hne fun piece hpiece => ⟨(hpieces piece hpiece).1, ?_⟩
      exact isRange_numeral_iff.mpr ⟨(hpieces piece hpiece).2,
        fun s hs => hdigits s (List.mem_flatMap.mpr ⟨piece, hpiece, hs⟩)⟩

theorem isRow_numeral_iff : IsRow numeral line ↔
    IsRow pyInt line ∧ ∀ s ∈ rowNumbers line, s.all Char.isDigit := by
  constructor
  · intro h
    cases h with
    | mk hname hn hlow hhigh hset hparams =>
      rw [numeral_eq_some_iff] at hn
      refine ⟨.mk hname hn.1 hlow hhigh hset fun param hparam =>
        (isParam_numeral_iff.mp (hparams param hparam)).1, fun s hs => ?_⟩
      rcases List.mem_cons.mp hs with rfl | hs
      · exact hn.2
      · obtain ⟨param, hparam, hs⟩ := List.mem_flatMap.mp hs
        exact (isParam_numeral_iff.mp (hparams param hparam)).2 s hs
  · rintro ⟨h, hdigits⟩
    cases h with
    | mk hname hn hlow hhigh hset hparams =>
      refine .mk hname (numeral_eq_some_iff.mpr ⟨hn, hdigits _ List.mem_cons_self⟩) hlow hhigh
        hset fun param hparam => isParam_numeral_iff.mpr ⟨hparams param hparam, fun s hs => ?_⟩
      exact hdigits s (List.mem_cons_of_mem _ (List.mem_flatMap.mpr ⟨param, hparam, hs⟩))

theorem wellFormed_numeral_iff : WellFormed numeral rows ↔
    WellFormed pyInt rows ∧ ∀ line ∈ rows, ∀ s ∈ rowNumbers line, s.all Char.isDigit := by
  unfold WellFormed
  constructor
  · rintro ⟨h, hnames⟩
    exact ⟨⟨fun line hline => (isRow_numeral_iff.mp (h line hline)).1, hnames⟩,
      fun line hline => (isRow_numeral_iff.mp (h line hline)).2⟩
  · rintro ⟨⟨h, hnames⟩, hdigits⟩
    exact ⟨fun line hline => isRow_numeral_iff.mpr ⟨h line hline, hdigits line hline⟩, hnames⟩

end Digits

section Read

def taken (line : Text) : Bool := line.head? ≠ some '#' && line.head? ≠ some '\n'

def configRows (text : Text) : List Row :=
  ((pyLines text).filter taken).map fun line => line.dropLast.splitOn ','

/-- A line without its newline. -/
def chomp (line : Text) : Text := if line.getLast? = some '\n' then line.dropLast else line

/-- The lines that are neither comments nor empty, split at their commas. -/
def tableRows (text : Text) : List Row :=
  (((pyLines text).map chomp).filter fun line => line ≠ [] ∧ line.head? ≠ some '#').map
    (·.splitOn ',')

variable {text line : Text}

theorem chomp_terminated (line : Text) : chomp (line ++ ['\n']) = line := by
  rw [chomp, List.getLast?_concat, if_pos rfl, List.dropLast_concat]

theorem getLast?_ne_newline (h : '\n' ∉ line) : line.getLast? ≠ some '\n' :=
  fun hlast => h (List.mem_of_getLast? hlast)

theorem chomp_last (h : '\n' ∉ line) : chomp line = line := if_neg (getLast?_ne_newline h)

theorem chomp_taken (h : IsLine line) :
    decide (chomp line ≠ [] ∧ (chomp line).head? ≠ some '#') = taken line := by
  unfold taken
  cases h with
  | @terminated line hline =>
    rw [chomp_terminated]
    cases line with
    | nil => rfl
    | cons c line =>
      have hc : c ≠ '\n' := fun hc => hline (hc ▸ List.mem_cons_self)
      simp [hc]
  | last hline hne =>
    rw [chomp_last hline]
    obtain ⟨c, line, rfl⟩ := List.exists_cons_of_ne_nil hne
    have hc : c ≠ '\n' := fun hc => hline (hc ▸ List.mem_cons_self)
    simp [hc]

theorem tableRows_eq (text : Text) :
    tableRows text = ((pyLines text).filter taken).map fun line => (chomp line).splitOn ',' := by
  unfold tableRows
  rw [List.filter_map, List.map_map]
  refine congrArg (List.map _) (List.filter_congr fun line hline => ?_)
  exact chomp_taken (isLine_of_mem hline)

/-- A line that is read has no newline at its end. -/
def Unterminated (text : Text) : Prop :=
  ∃ line ∈ pyLines text, taken line ∧ line.getLast? ≠ some '\n'

theorem dropLast_ne_chomp (h : IsLine line) (hlast : line.getLast? ≠ some '\n') :
    line.dropLast.splitOn ',' ≠ (chomp line).splitOn ',' := by
  intro hsplit
  have heq : line.dropLast = chomp line := by
    have := congrArg (List.intercalate [',']) hsplit
    rwa [List.intercalate_splitOn, List.intercalate_splitOn] at this
  have hne : line ≠ [] := by
    cases h with
    | terminated => simp
    | last _ hne => exact hne
  rw [chomp, if_neg hlast] at heq
  have := congrArg List.length heq
  have hpos := List.length_pos_iff.mpr hne
  rw [List.length_dropLast] at this
  omega

theorem configRows_eq_iff : configRows text = tableRows text ↔ ¬ Unterminated text := by
  rw [tableRows_eq, configRows, List.map_inj_left]
  constructor
  · rintro h ⟨line, hline, htaken, hlast⟩
    exact dropLast_ne_chomp (isLine_of_mem hline) hlast
      (h line (List.mem_filter.mpr ⟨hline, htaken⟩))
  · intro h line hline
    obtain ⟨hline, htaken⟩ := List.mem_filter.mp hline
    have hlast : line.getLast? = some '\n' := by
      by_contra hlast
      exact h ⟨line, hline, htaken, hlast⟩
    rw [chomp, if_pos hlast]

/-- The configuration is read and checked without an exception, the check takes it if and only if
it is well-formed, and its rows are those of its lines then. -/
def Recognises (text : Text) : Prop :=
  ∃ ok, atDefineCheck (configRows text) = some ok ∧
    (ok = true ↔ WellFormed numeral (tableRows text)) ∧
      (ok = true → configRows text = tableRows text)

/-- A row without a name, or with a type that `int` does not take, follows rows that are taken. -/
def RaisesFirst (text : Text) : Prop :=
  ∃ before line behind, configRows text = before ++ line :: behind ∧
    (∀ other ∈ before, IsRow pyInt other) ∧ Raises pyInt line

/-- The last character of the last line is dropped, and the lines are well-formed with it or taken
without it. -/
def CutShort (text : Text) : Prop :=
  Unterminated text ∧
    (WellFormed numeral (tableRows text) ∨ WellFormed pyInt (configRows text))

/-- Only a sign or white space at a number is not in the grammar. -/
def LooselyWritten (text : Text) : Prop :=
  ¬ Unterminated text ∧ WellFormed pyInt (tableRows text) ∧
    ∃ line ∈ tableRows text, ∃ s ∈ rowNumbers line, ¬ s.all Char.isDigit

theorem recognises_iff (text : Text) : Recognises text ↔
    ¬ RaisesFirst text ∧ ¬ CutShort text ∧ ¬ LooselyWritten text := by
  constructor
  · rintro ⟨ok, hcheck, hok, hrows⟩
    refine ⟨fun h => ?_, fun ⟨hcut, h⟩ => ?_, fun ⟨hend, h, line, hline, s, hs, hdigits⟩ => ?_⟩
    · rw [atDefineCheck_eq_none_iff.mpr h] at hcheck
      cases hcheck
    · have hfalse : ¬ ok = true := fun htrue => configRows_eq_iff.mp (hrows htrue) hcut
      rcases h with h | h
      · exact hfalse (hok.mpr h)
      · rw [atDefineCheck_eq_true_iff.mpr h] at hcheck
        exact hfalse (Option.some.inj hcheck).symm
    · rw [configRows_eq_iff.mpr hend, atDefineCheck_eq_true_iff.mpr h] at hcheck
      have htrue := (Option.some.inj hcheck).symm
      exact hdigits ((wellFormed_numeral_iff.mp (hok.mp htrue)).2 line hline s hs)
  · rintro ⟨hraises, hcut, hloose⟩
    obtain ⟨ok, hcheck⟩ := Option.ne_none_iff_exists'.mp fun hnone =>
      hraises (atDefineCheck_eq_none_iff.mp hnone)
    have htrue : ok = true ↔ WellFormed pyInt (configRows text) := by
      rw [← atDefineCheck_eq_true_iff, hcheck, Option.some.injEq]
    refine ⟨ok, hcheck, ?_, ?_⟩
    · rw [htrue]
      by_cases hend : Unterminated text
      · exact iff_of_false (fun h => hcut ⟨hend, .inr h⟩) fun h => hcut ⟨hend, .inl h⟩
      · rw [configRows_eq_iff.mpr hend, wellFormed_numeral_iff]
        refine ⟨fun h => ⟨h, fun line hline s hs => ?_⟩, And.left⟩
        by_contra hdigits
        exact hloose ⟨hend, h, line, hline, s, hs, hdigits⟩
    · intro hok
      exact configRows_eq_iff.mpr fun hend => hcut ⟨hend, .inr (htrue.mp hok)⟩

/-- The only digit is dropped. -/
theorem not_recognises_sample : ¬ Recognises "+CSQ,1".toList := by
  rintro ⟨ok, hcheck, -⟩
  have hnone : atDefineCheck (configRows "+CSQ,1".toList) = none := by decide
  rw [hnone] at hcheck
  cases hcheck

end Read

end Mbtk.AtGenerator
