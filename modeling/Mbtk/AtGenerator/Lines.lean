import Mbtk.Lib.CInit

namespace Mbtk.AtGenerator

open Lib.CInit

def pyLines : Text → List Text
  | [] => []
  | c :: text =>
    if c = '\n' then ['\n'] :: pyLines text
    else
      match pyLines text with
      | [] => [[c]]
      | line :: lines => (c :: line) :: lines

variable {text rest line : Text} {c d : Char}

theorem pyLines_newline : pyLines ('\n' :: text) = ['\n'] :: pyLines text := rfl

theorem pyLines_cons (hc : c ≠ '\n') : pyLines (c :: text) =
    (c :: (pyLines text).headD []) :: (pyLines text).tail := by
  rw [pyLines, if_neg hc]
  cases pyLines text <;> rfl

theorem pyLines_eq_nil_iff : pyLines text = [] ↔ text = [] := by
  cases text with
  | nil => exact iff_of_true rfl rfl
  | cons c text =>
    refine iff_of_false (fun h => ?_) (List.cons_ne_nil c text)
    by_cases hc : c = '\n'
    · rw [hc, pyLines_newline] at h
      cases h
    · rw [pyLines_cons hc] at h
      cases h

theorem pyLines_eq_singleton (hne : text ≠ []) (h : '\n' ∉ text) : pyLines text = [text] := by
  induction text with
  | nil => exact absurd rfl hne
  | cons c text ih =>
    rw [List.mem_cons, not_or] at h
    rw [pyLines_cons (Ne.symm h.1)]
    cases text with
    | nil => rfl
    | cons d text =>
      rw [ih (List.cons_ne_nil d text) h.2]
      rfl

theorem pyLines_append (text rest : Text) :
    pyLines (text ++ '\n' :: rest) = pyLines (text ++ ['\n']) ++ pyLines rest := by
  induction text with
  | nil => rfl
  | cons c text ih =>
    by_cases hc : c = '\n'
    · subst hc
      rw [List.cons_append, pyLines_newline, ih]
      rfl
    · have hne : pyLines (text ++ ['\n']) ≠ [] := fun h => by
        simpa using pyLines_eq_nil_iff.mp h
      obtain ⟨line, lines, hlines⟩ := List.exists_cons_of_ne_nil hne
      rw [List.cons_append, List.cons_append, pyLines_cons hc, pyLines_cons hc, ih, hlines]
      rfl

theorem pyLines_terminated (h : '\n' ∉ line) : pyLines (line ++ ['\n']) = [line ++ ['\n']] := by
  induction line with
  | nil => rfl
  | cons c line ih =>
    rw [List.mem_cons, not_or] at h
    rw [List.cons_append, pyLines_cons (Ne.symm h.1), ih h.2]
    rfl

/-- A line of a file holds at most one newline, at its end. -/
inductive IsLine : Text → Prop
  | terminated {line : Text} : '\n' ∉ line → IsLine (line ++ ['\n'])
  | last {line : Text} : '\n' ∉ line → line ≠ [] → IsLine line

theorem isLine_of_mem (h : line ∈ pyLines text) : IsLine line := by
  induction text generalizing line with
  | nil => cases h
  | cons c text ih =>
    by_cases hc : c = '\n'
    · subst hc
      rcases List.mem_cons.mp h with rfl | h
      · have hempty : IsLine ([] ++ ['\n']) := .terminated List.not_mem_nil
        exact hempty
      · exact ih h
    · rw [pyLines_cons hc] at h
      cases hlines : pyLines text with
      | nil =>
        rw [hlines] at h
        rw [List.mem_singleton.mp h]
        exact .last (by simpa using Ne.symm hc) (List.cons_ne_nil _ _)
      | cons first lines =>
        rw [hlines] at h
        rcases List.mem_cons.mp h with rfl | h
        · have hfirst := ih (hlines ▸ List.mem_cons_self)
          cases hfirst with
          | @terminated line hline =>
            have hlonger : '\n' ∉ c :: line := by simp [hline, Ne.symm hc]
            have hterminated := IsLine.terminated hlonger
            exact hterminated
          | last hline hne => exact .last (by simp [hline, Ne.symm hc]) (List.cons_ne_nil _ _)
        · exact ih (hlines ▸ List.mem_cons_of_mem _ h)

theorem getLast?_of_mem (h : line ∈ pyLines (text ++ ['\n'])) : line.getLast? = some '\n' := by
  induction text generalizing line with
  | nil =>
    rw [List.mem_singleton.mp h]
    rfl
  | cons c text ih =>
    by_cases hc : c = '\n'
    · rw [hc, List.cons_append, pyLines_newline] at h
      rcases List.mem_cons.mp h with rfl | h
      · rfl
      · exact ih h
    · have hne : pyLines (text ++ ['\n']) ≠ [] := fun hnil => by
        simpa using pyLines_eq_nil_iff.mp hnil
      obtain ⟨first, lines, hlines⟩ := List.exists_cons_of_ne_nil hne
      rw [List.cons_append, pyLines_cons hc, hlines] at h
      rw [hlines] at ih
      rcases List.mem_cons.mp h with rfl | h
      · have hfirst := ih List.mem_cons_self
        cases first with
        | nil => cases hfirst
        | cons d first => exact hfirst
      · exact ih (List.mem_cons_of_mem _ h)

theorem exists_last (text : Text) : ∃ front last, text = front ++ last ∧ '\n' ∉ last ∧
    (front = [] ∨ ∃ before, front = before ++ ['\n']) := by
  by_cases h : '\n' ∈ text
  · obtain ⟨behind, before, hsplit, hbehind⟩ :=
      List.eq_append_cons_of_mem (List.mem_reverse.mpr h)
    refine ⟨before.reverse ++ ['\n'], behind.reverse, ?_, by simpa using hbehind,
      .inr ⟨_, rfl⟩⟩
    rw [← List.reverse_reverse text, hsplit]
    simp
  · exact ⟨[], text, rfl, h, .inl rfl⟩

theorem pyLines_front_append {front : Text} (h : front = [] ∨ ∃ before, front = before ++ ['\n'])
    (last : Text) : pyLines (front ++ last) = pyLines front ++ pyLines last := by
  rcases h with rfl | ⟨before, rfl⟩
  · rfl
  · rw [List.append_assoc, List.singleton_append, pyLines_append]

theorem mem_pyLines_newline (hline : '\n' ∉ line) (hne : line ≠ []) :
    line ++ ['\n'] ∈ pyLines (text ++ ['\n']) ↔
      line ++ ['\n'] ∈ pyLines text ∨ line ∈ pyLines text := by
  obtain ⟨front, last, rfl, hlast, hfront⟩ := exists_last text
  have hmem (s : Text) : s ∈ pyLines last ↔ s = last ∧ last ≠ [] := by
    by_cases hempty : last = []
    · simp [hempty, pyLines]
    · simp [pyLines_eq_singleton hempty hlast, hempty]
  have hopen : line ∉ pyLines front := by
    intro h
    rcases hfront with rfl | ⟨before, rfl⟩
    · cases h
    · exact hline (List.mem_of_getLast? (getLast?_of_mem h))
  have hclosed : line ++ ['\n'] ≠ last := by
    rintro rfl
    simp at hlast
  rw [List.append_assoc, pyLines_front_append hfront, pyLines_front_append hfront,
    pyLines_terminated hlast, List.mem_append, List.mem_append, List.mem_append, hmem, hmem,
    List.mem_singleton, List.append_left_inj]
  constructor
  · rintro (h | rfl)
    · exact .inl (.inl h)
    · exact .inr (.inr ⟨rfl, hne⟩)
  · rintro ((h | h) | (h | h))
    · exact .inl h
    · exact absurd h.1 hclosed
    · exact absurd h hopen
    · exact .inr h.1

end Mbtk.AtGenerator
