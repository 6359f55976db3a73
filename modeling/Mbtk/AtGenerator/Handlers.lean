import Mbtk.AtGenerator.Grammar
import Mbtk.AtGenerator.Lines

namespace Mbtk.AtGenerator

open Lib.CInit

section Write

/-- The signature of the handler of a row, without the newline of `func_name`. -/
def signature (line : Row) : Text :=
  "mbtk_at_state mbtk_at_handle_".toList ++ (atName line ++
    "(mbtk_at_req_t *req,mbtk_at_rsp_t *rsp)".toList)

def atArgFormat (args : List Text) : Text := args.flatten

def atTypeFormat (type : ℕ) : Text :=
  ((if type &&& 0x01 ≠ 0 then "/EXE".toList else []) ++
    ((if type &&& 0x02 ≠ 0 then "/SET".toList else []) ++
      ((if type &&& 0x04 ≠ 0 then "/READ".toList else []) ++
        if type &&& 0x08 ≠ 0 then "/TEST".toList else []))).tail

def caseText (kind : Text) : Text :=
  "\n        case MBTKAT_TYPE_".toList ++ (kind ++
    ":\n        \x7b\n\n            break;\n        \x7d".toList)

def atProcessBodyCaseCreate (type : ℕ) : Text :=
  (if type &&& 0x01 ≠ 0 then caseText "EXE".toList else []) ++
    ((if type &&& 0x02 ≠ 0 then caseText "SET".toList else []) ++
      ((if type &&& 0x04 ≠ 0 then caseText "READ".toList else []) ++
        if type &&& 0x08 ≠ 0 then caseText "TEST".toList else []))

def rowType (line : Row) : ℕ := ((pyInt (line.getD 1 [])).getD 0).toNat

def commentText (line : Row) : Text :=
  "/*\n* AT".toList ++ (line.getD 0 [] ++ (" : ".toList ++ (atArgFormat (line.drop 2) ++
    ("\n* Support function:".toList ++ (atTypeFormat (rowType line) ++ "\n*/".toList)))))

def bodyText (type : ℕ) : Text :=
  "\x7b\n    mbtk_at_state result = MBTKAT_OK;\n    switch(req->type)\n    \x7b".toList ++
    (atProcessBodyCaseCreate type ++
      ("\n        default:\n        \x7b\n            LOGE(\"Unknow AT type.\");\n".toList ++
        ("            result = MBTKAT_ERROR;\n        \x7d\n    \x7d\n".toList ++
          "    return result;\n\x7d\n".toList)))

def handlerText (line : Row) : Text :=
  '\n' :: (commentText line ++
    '\n' :: (signature line ++ '\n' :: bodyText (rowType line)))

/-- The signature is a line of the file. -/
def Complete (content : Text) (line : Row) : Prop := signature line ++ ['\n'] ∈ pyLines content

instance (content : Text) (line : Row) : Decidable (Complete content line) :=
  inferInstanceAs (Decidable (_ ∈ _))

/-- `file_at_process_write`, for the content of the file that it opens. -/
def fileAtProcessWrite (content : Text) : List Row → Text
  | [] => content
  | line :: lines =>
    if Complete content line then fileAtProcessWrite content lines
    else fileAtProcessWrite (content ++ handlerText line) lines

end Write

section Quiet

def quiet : Text → Bool
  | [] => true
  | c :: text => (c ≠ '\n' || text.head? ≠ some 'm') && quiet text

structure Quiet (text : Text) : Prop where
  inner : quiet text = true
  first : text.head? ≠ some 'm'

variable {s t text : Text}

theorem Quiet.append (hs : Quiet s) (ht : Quiet t) : Quiet (s ++ t) := by
  constructor
  · have hinner := hs.inner
    clear hs
    induction s with
    | nil => exact ht.inner
    | cons c s ih =>
      rw [quiet, Bool.and_eq_true] at hinner
      rw [List.cons_append, quiet, Bool.and_eq_true]
      refine ⟨?_, ih hinner.2⟩
      cases s with
      | nil => simp [ht.first]
      | cons d s => exact hinner.1
  · cases s with
    | nil => exact ht.first
    | cons c s => exact hs.first

theorem quiet_of_not_mem (h : 'm' ∉ text) : Quiet text := by
  constructor
  · induction text with
    | nil => rfl
    | cons c text ih =>
      rw [List.mem_cons, not_or] at h
      rw [quiet, ih h.2, Bool.and_true, Bool.or_eq_true]
      right
      rw [decide_eq_true_iff]
      exact fun hhead => h.2 (List.mem_of_head? hhead)
  · exact fun hhead => h (List.mem_of_head? hhead)

theorem head?_of_mem_pyLines {line : Text} (h : line ∈ pyLines text) :
    line.head? = text.head? ∨ line ∈ (pyLines text).tail := by
  cases text with
  | nil => cases h
  | cons c text =>
    by_cases hc : c = '\n'
    · rw [hc, pyLines_newline] at h ⊢
      rcases List.mem_cons.mp h with rfl | h
      · exact .inl rfl
      · exact .inr h
    · rw [pyLines_cons hc] at h ⊢
      rcases List.mem_cons.mp h with rfl | h
      · exact .inl rfl
      · exact .inr h

theorem head?_ne_of_quiet (h : quiet text = true) :
    ∀ line ∈ (pyLines text).tail, line.head? ≠ some 'm' := by
  induction text with
  | nil => exact fun line hline => by cases hline
  | cons c text ih =>
    rw [quiet, Bool.and_eq_true] at h
    intro line hline
    by_cases hc : c = '\n'
    · have hhead : text.head? ≠ some 'm' := by simpa [hc] using h.1
      rw [hc, pyLines_newline, List.tail_cons] at hline
      rcases head?_of_mem_pyLines hline with heq | hline
      · rwa [heq]
      · exact ih h.2 line hline
    · rw [pyLines_cons hc, List.tail_cons] at hline
      exact ih h.2 line hline

theorem Quiet.head?_ne (h : Quiet text) {line : Text} (hline : line ∈ pyLines text) :
    line.head? ≠ some 'm' := by
  rcases head?_of_mem_pyLines hline with heq | hline
  · rw [heq]
    exact h.first
  · exact head?_ne_of_quiet h.inner line hline

end Quiet

section Templates

variable {s : Text} {n : ℤ} {line : Row}

theorem not_mem_of_pyInt (h : pyInt s = some n) : 'm' ∉ s := fun hm =>
  absurd (mem_pyInt h hm) (by decide)

theorem not_mem_of_isRange {piece : Text} (h : IsRange pyInt piece) : 'm' ∉ piece := by
  cases h with
  | single hs hn => exact not_mem_of_pyInt hn
  | pair hs ht hn hm =>
    simp [not_mem_of_pyInt hn, not_mem_of_pyInt hm]

theorem not_mem_of_isParam {param : Text} (h : IsParam pyInt param) : 'm' ∉ param := by
  cases h with
  | string hs hn => simp [not_mem_of_pyInt hn]
  | @numeric pieces hne hpieces =>
    have hinner : 'm' ∉ [' '].intercalate pieces := by
      clear hne
      induction pieces with
      | nil => simp
      | cons piece pieces ih =>
        obtain ⟨hpiece, hpieces⟩ := List.forall_mem_cons.mp hpieces
        have hm := not_mem_of_isRange hpiece.2
        cases pieces with
        | nil => simpa using hm
        | cons other pieces => simpa [List.intercalate_cons_cons, hm] using ih hpieces
    simp [hinner]

theorem not_mem_atTypeFormat (type : ℕ) : 'm' ∉ atTypeFormat type := by
  intro h
  replace h := List.mem_of_mem_tail h
  simp only [List.mem_append] at h
  rcases h with h | h | h | h
  · split_ifs at h <;> simp at h
  · split_ifs at h <;> simp at h
  · split_ifs at h <;> simp at h
  · split_ifs at h <;> simp at h

theorem quiet_comment (h : IsRow pyInt line) : Quiet (commentText line) := by
  have hname : 'm' ∉ line.getD 0 [] := fun hm => absurd (mem_isName h.isName hm) (by decide)
  have hargs : 'm' ∉ atArgFormat (line.drop 2) := by
    cases h with
    | mk _ _ _ _ _ hparams =>
      intro hm
      obtain ⟨param, hparam, hm⟩ := List.mem_flatten.mp hm
      exact not_mem_of_isParam (hparams param hparam) hm
  refine .append ⟨rfl, by decide⟩ (.append (quiet_of_not_mem hname) (.append ⟨rfl, by decide⟩ ?_))
  refine .append (quiet_of_not_mem hargs) (.append ⟨rfl, by decide⟩ ?_)
  exact .append (quiet_of_not_mem (not_mem_atTypeFormat _)) ⟨rfl, by decide⟩

theorem quiet_caseText {kind : Text} (h : Quiet kind) : Quiet (caseText kind) :=
  .append ⟨rfl, by decide⟩ (h.append ⟨rfl, by decide⟩)

theorem quiet_ite {p : Prop} [Decidable p] (h : Quiet s) : Quiet (if p then s else []) := by
  split
  · exact h
  · exact ⟨rfl, by decide⟩

theorem quiet_body (type : ℕ) : Quiet (bodyText type) := by
  have hcases : Quiet (atProcessBodyCaseCreate type) := by
    refine .append (quiet_ite (quiet_caseText ⟨rfl, by decide⟩)) ?_
    refine .append (quiet_ite (quiet_caseText ⟨rfl, by decide⟩)) ?_
    refine .append (quiet_ite (quiet_caseText ⟨rfl, by decide⟩)) ?_
    exact quiet_ite (quiet_caseText ⟨rfl, by decide⟩)
  refine .append ⟨rfl, by decide⟩ (hcases.append (.append ⟨rfl, by decide⟩ ?_))
  exact .append ⟨rfl, by decide⟩ ⟨rfl, by decide⟩

theorem newline_not_mem_signature (h : IsRow pyInt line) : '\n' ∉ signature line := by
  have hname : '\n' ∉ atName line := by
    intro hmem
    have hmem : '\n' ∈ line.getD 0 [] := by
      unfold atName at hmem
      dsimp only at hmem
      split at hmem
      · exact hmem
      · exact List.mem_of_mem_tail hmem
    exact absurd (mem_isName h.isName hmem) (by decide)
  unfold signature
  simp only [List.mem_append, not_or]
  exact ⟨by decide, hname, by decide⟩

theorem signature_inj {line other : Row} :
    signature line = signature other ↔ atName line = atName other :=
  (List.append_right_inj _).trans (List.append_left_inj _)

theorem head?_append_of_eq_some {t : Text} {c : Char} (h : s.head? = some c) :
    (s ++ t).head? = some c := by
  rw [List.head?_append, h, Option.some_or]

theorem mem_handlerText (h : IsRow pyInt line) (other : Row) :
    signature other ++ ['\n'] ∈ pyLines (commentText line ++
      '\n' :: (signature line ++ '\n' :: bodyText (rowType line))) ↔
        signature other = signature line := by
  have hliteral : "mbtk_at_state mbtk_at_handle_".toList.head? = some 'm' := by decide
  have hsignature : (signature other).head? = some 'm' := head?_append_of_eq_some hliteral
  have hhead : (signature other ++ ['\n']).head? = some 'm' := head?_append_of_eq_some hsignature
  have hcomment : Quiet (commentText line ++ ['\n']) :=
    (quiet_comment h).append ⟨rfl, by decide⟩
  rw [pyLines_append (commentText line), pyLines_append (signature line),
    pyLines_terminated (newline_not_mem_signature h)]
  simp only [List.mem_append, List.mem_singleton, List.append_left_inj]
  constructor
  · rintro (hmem | heq | hmem)
    · exact absurd hhead (hcomment.head?_ne hmem)
    · exact heq
    · exact absurd hhead ((quiet_body _).head?_ne hmem)
  · exact fun heq => .inr (.inl heq)

theorem complete_append {content : Text} {line other : Row} (h : IsRow pyInt line)
    (hother : IsRow pyInt other) : Complete (content ++ handlerText line) other ↔
      (Complete content other ∨ signature other ∈ pyLines content) ∨
        atName other = atName line := by
  have hne : signature other ≠ [] := List.append_ne_nil_of_left_ne_nil (by decide) _
  unfold Complete handlerText
  rw [pyLines_append, List.mem_append, mem_handlerText h, signature_inj,
    mem_pyLines_newline (newline_not_mem_signature hother) hne]

end Templates

section Runs

variable {content : Text} {line other : Row} {lines table : List Row}

theorem getLast?_append_of_eq_some {s t : Text} {c : Char} (h : t.getLast? = some c) :
    (s ++ t).getLast? = some c := by
  rw [List.getLast?_append, h, Option.some_or]

theorem getLast?_bodyText (type : ℕ) : (bodyText type).getLast? = some '\n' := by
  have hend : "    return result;\n\x7d\n".toList.getLast? = some '\n' := by decide
  refine getLast?_append_of_eq_some (getLast?_append_of_eq_some ?_)
  exact getLast?_append_of_eq_some (getLast?_append_of_eq_some hend)

theorem getLast?_handlerText (content : Text) (line : Row) :
    (content ++ handlerText line).getLast? = some '\n' := by
  have hbody := getLast?_bodyText (rowType line)
  refine getLast?_append_of_eq_some ?_
  change ([_] ++ (commentText line ++ ([_] ++ (signature line ++ ([_] ++ _))))).getLast? = _
  refine getLast?_append_of_eq_some (getLast?_append_of_eq_some (getLast?_append_of_eq_some ?_))
  exact getLast?_append_of_eq_some (getLast?_append_of_eq_some hbody)

theorem signature_not_mem (hend : content.getLast? = some '\n') (h : IsRow pyInt line) :
    signature line ∉ pyLines content := by
  obtain ⟨before, rfl⟩ := List.getLast?_eq_some_iff.mp hend
  exact fun hmem =>
    newline_not_mem_signature h (List.mem_of_getLast? (getLast?_of_mem hmem))

theorem complete_append_of_end (hend : content.getLast? = some '\n') (h : IsRow pyInt line)
    (hother : IsRow pyInt other) : Complete (content ++ handlerText line) other ↔
      Complete content other ∨ atName other = atName line := by
  rw [complete_append h hother, or_iff_left (signature_not_mem hend hother)]

theorem wellFormed_cons {number : Text → Option ℤ} : WellFormed number (line :: lines) ↔
    IsRow number line ∧ (∀ other ∈ lines, atName other ≠ atName line) ∧
      WellFormed number lines := by
  unfold WellFormed
  rw [List.forall_mem_cons, List.map_cons, List.nodup_cons, List.mem_map, not_exists]
  constructor
  · rintro ⟨⟨hline, hlines⟩, hname, hnodup⟩
    exact ⟨hline, fun other hother heq => hname other ⟨hother, heq⟩, hlines, hnodup⟩
  · rintro ⟨hline, hname, hlines, hnodup⟩
    exact ⟨⟨hline, hlines⟩, fun other hother => hname other hother.1 hother.2, hnodup⟩

def appended (content : Text) (table : List Row) : Text :=
  (table.filter fun line => ¬ Complete content line).flatMap handlerText

theorem write_of_end (h : WellFormed pyInt table) (hend : content.getLast? = some '\n') :
    fileAtProcessWrite content table = content ++ appended content table := by
  induction table generalizing content with
  | nil => exact (List.append_nil content).symm
  | cons line lines ih =>
    obtain ⟨hline, hnames, hlines⟩ := wellFormed_cons.mp h
    rw [fileAtProcessWrite, appended]
    split_ifs with hcomplete
    · rw [List.filter_cons_of_neg (by simpa using hcomplete)]
      exact ih hlines hend
    · rw [List.filter_cons_of_pos (by simpa using hcomplete), List.flatMap_cons,
        ih hlines (getLast?_handlerText content line), List.append_assoc, appended]
      have hfilter : (lines.filter fun other => ¬ Complete (content ++ handlerText line) other) =
          lines.filter fun other => ¬ Complete content other := by
        refine List.filter_congr fun other hother => decide_eq_decide.mpr (not_congr ?_)
        rw [complete_append_of_end hend hline (hlines.1 other hother),
          or_iff_left (hnames other hother)]
      rw [hfilter]

theorem length_flatMap_filter_le {p q : Row → Bool} (h : ∀ line ∈ lines, p line → q line) :
    ((lines.filter p).flatMap handlerText).length ≤
      ((lines.filter q).flatMap handlerText).length := by
  induction lines with
  | nil => exact Nat.le_refl _
  | cons line lines ih =>
    obtain ⟨hline, hlines⟩ := List.forall_mem_cons.mp h
    have hle := ih hlines
    by_cases hp : p line
    · rw [List.filter_cons_of_pos hp, List.filter_cons_of_pos (hline hp)]
      simpa using hle
    · rw [List.filter_cons_of_neg hp]
      by_cases hq : q line
      · rw [List.filter_cons_of_pos hq, List.flatMap_cons, List.length_append]
        omega
      · rwa [List.filter_cons_of_neg hq]

theorem flatMap_filter_eq_iff {p q : Row → Bool} (h : ∀ line ∈ lines, p line → q line) :
    (lines.filter p).flatMap handlerText = (lines.filter q).flatMap handlerText ↔
      ∀ line ∈ lines, q line → p line := by
  constructor
  · intro heq
    induction lines with
    | nil => exact fun line hline => by cases hline
    | cons line lines ih =>
      obtain ⟨hline, hlines⟩ := List.forall_mem_cons.mp h
      rw [List.forall_mem_cons]
      by_cases hp : p line
      · rw [List.filter_cons_of_pos hp, List.filter_cons_of_pos (hline hp), List.flatMap_cons,
          List.flatMap_cons, List.append_right_inj] at heq
        exact ⟨fun _ => hp, ih hlines heq⟩
      · rw [List.filter_cons_of_neg hp] at heq
        by_cases hq : q line
        · have hle := length_flatMap_filter_le hlines
          have hlength := congrArg List.length heq
          rw [List.filter_cons_of_pos hq, List.flatMap_cons, List.length_append] at hlength
          have hpos : 0 < (handlerText line).length := Nat.succ_pos _
          omega
        · rw [List.filter_cons_of_neg hq] at heq
          exact ⟨fun hq' => absurd hq' hq, ih hlines heq⟩
  · intro hsame
    have hfilter : lines.filter p = lines.filter q := List.filter_congr fun line hline => by
      rw [Bool.eq_iff_iff]
      exact ⟨h line hline, hsame line hline⟩
    rw [hfilter]

/-- The file ends inside the signature line of a row, and a handler is appended before that row has
its turn. -/
def CompletedByAppend (content : Text) (table : List Row) : Prop :=
  ∃ before line behind, table = before ++ line :: behind ∧ signature line ∈ pyLines content ∧
    ¬ Complete content line ∧ ∃ other ∈ before, ¬ Complete content other

theorem completedByAppend_cons_of_complete (h : Complete content line) :
    CompletedByAppend content (line :: lines) ↔ CompletedByAppend content lines := by
  constructor
  · rintro ⟨before, last, behind, heq, hsignature, hlast, other, hother, hmissing⟩
    cases before with
    | nil => cases hother
    | cons first before =>
      obtain ⟨rfl, rfl⟩ := List.cons.inj heq
      rcases List.mem_cons.mp hother with rfl | hother
      · exact absurd h hmissing
      · exact ⟨before, last, behind, rfl, hsignature, hlast, other, hother, hmissing⟩
  · rintro ⟨before, last, behind, rfl, hsignature, hlast, other, hother, hmissing⟩
    exact ⟨line :: before, last, behind, rfl, hsignature, hlast, other,
      List.mem_cons_of_mem _ hother, hmissing⟩

theorem completedByAppend_cons (h : ¬ Complete content line) :
    CompletedByAppend content (line :: lines) ↔
      ∃ other ∈ lines, signature other ∈ pyLines content ∧ ¬ Complete content other := by
  constructor
  · rintro ⟨before, last, behind, heq, hsignature, hlast, other, hother, -⟩
    cases before with
    | nil => cases hother
    | cons first before =>
      obtain ⟨rfl, rfl⟩ := List.cons.inj heq
      exact ⟨last, by simp, hsignature, hlast⟩
  · rintro ⟨last, hmem, hsignature, hlast⟩
    obtain ⟨before, behind, rfl⟩ := List.append_of_mem hmem
    exact ⟨line :: before, last, behind, rfl, hsignature, hlast, line, List.mem_cons_self, h⟩

/-- Handlers are appended for the rows whose signature is not in the file, except that a handler
may complete the signature that the file ends with. -/
theorem write_eq_iff (h : WellFormed pyInt table) : fileAtProcessWrite content table =
    content ++ appended content table ↔ ¬ CompletedByAppend content table := by
  induction table generalizing content with
  | nil =>
    refine iff_of_true (List.append_nil content).symm ?_
    rintro ⟨before, line, behind, heq, -⟩
    simp at heq
  | cons line lines ih =>
    obtain ⟨hline, hnames, hlines⟩ := wellFormed_cons.mp h
    rw [fileAtProcessWrite, appended]
    split_ifs with hcomplete
    · rw [List.filter_cons_of_neg (by simpa using hcomplete),
        completedByAppend_cons_of_complete hcomplete]
      exact ih hlines
    · rw [List.filter_cons_of_pos (by simpa using hcomplete), List.flatMap_cons,
        write_of_end hlines (getLast?_handlerText content line), List.append_assoc,
        List.append_right_inj, List.append_right_inj, appended,
        completedByAppend_cons hcomplete]
      have hstep {other : Row} (hother : other ∈ lines) :
          Complete (content ++ handlerText line) other ↔
            Complete content other ∨ signature other ∈ pyLines content := by
        rw [complete_append hline (hlines.1 other hother), or_iff_left (hnames other hother)]
      rw [flatMap_filter_eq_iff fun other hother => by
        rw [decide_eq_true_iff, decide_eq_true_iff, hstep hother, not_or]
        exact And.left]
      simp only [decide_eq_true_eq, not_exists, not_and, not_not]
      refine forall₂_congr fun other hother => ?_
      rw [hstep hother]
      tauto

theorem complete_write (h : Complete content line) (hline : IsRow pyInt line)
    (hlines : ∀ other ∈ lines, IsRow pyInt other) :
    Complete (fileAtProcessWrite content lines) line := by
  induction lines generalizing content with
  | nil => exact h
  | cons first lines ih =>
    obtain ⟨hfirst, hlines⟩ := List.forall_mem_cons.mp hlines
    rw [fileAtProcessWrite]
    split_ifs
    · exact ih h hlines
    · exact ih ((complete_append hfirst hline).mpr (.inl (.inl h))) hlines

theorem complete_of_mem (h : ∀ line ∈ lines, IsRow pyInt line) (hline : line ∈ lines) :
    Complete (fileAtProcessWrite content lines) line := by
  induction lines generalizing content with
  | nil => cases hline
  | cons first lines ih =>
    obtain ⟨hfirst, hlines⟩ := List.forall_mem_cons.mp h
    rw [fileAtProcessWrite]
    rcases List.mem_cons.mp hline with rfl | hline
    · split_ifs with hcomplete
      · exact complete_write hcomplete hfirst hlines
      · exact complete_write ((complete_append hfirst hfirst).mpr (.inr rfl)) hfirst hlines
    · split_ifs
      · exact ih hlines hline
      · exact ih hlines hline

theorem write_of_complete (h : ∀ line ∈ lines, Complete content line) :
    fileAtProcessWrite content lines = content := by
  induction lines with
  | nil => rfl
  | cons line lines ih =>
    obtain ⟨hline, hlines⟩ := List.forall_mem_cons.mp h
    rw [fileAtProcessWrite, if_pos hline]
    exact ih hlines

theorem write_write (h : ∀ line ∈ table, IsRow pyInt line) :
    fileAtProcessWrite (fileAtProcessWrite content table) table =
      fileAtProcessWrite content table :=
  write_of_complete fun _ hline => complete_of_mem h hline

/-- The old content stays in front, a handler follows for exactly the rows whose signature was not
a line of it, and a second run changes nothing. -/
def Regenerates (content : Text) (table : List Row) : Prop :=
  fileAtProcessWrite content table = content ++ appended content table ∧
    fileAtProcessWrite (fileAtProcessWrite content table) table = fileAtProcessWrite content table

theorem regenerates_iff (h : atDefineCheck table = some true) (content : Text) :
    Regenerates content table ↔ ¬ CompletedByAppend content table := by
  have hformed := atDefineCheck_eq_true_iff.mp h
  rw [← write_eq_iff hformed]
  exact and_iff_left (write_write hformed.1)

def sampleTable : List Row := [["A".toList, "1".toList], ["CSQ".toList, "1".toList]]

def sampleContent : Text :=
  "/* handlers */\n".toList ++ signature ["CSQ".toList, "1".toList] ++ "\n\n".toList

theorem regenerates_sampleContent : Regenerates sampleContent sampleTable := by
  refine (regenerates_iff (by decide) sampleContent).mpr ?_
  rintro ⟨before, line, behind, htable, hsignature, hmissing, -⟩
  have hline : line ∈ sampleTable := htable ▸ by simp
  have hcomplete : ∀ line ∈ sampleTable, signature line ∈ pyLines sampleContent →
      Complete sampleContent line := by decide
  exact hmissing (hcomplete line hline hsignature)

/-- The file ends with the signature of the second row, without a newline. -/
theorem not_regenerates_unterminated : atDefineCheck sampleTable = some true ∧
    ¬ Regenerates (signature ["CSQ".toList, "1".toList]) sampleTable := by
  have hcheck : atDefineCheck sampleTable = some true := by decide
  refine ⟨hcheck, fun h => ?_⟩
  refine (write_eq_iff (atDefineCheck_eq_true_iff.mp hcheck)).mp h.1 ?_
  refine ⟨[["A".toList, "1".toList]], ["CSQ".toList, "1".toList], [], rfl, ?_, by decide,
    ["A".toList, "1".toList], List.mem_cons_self, by decide⟩
  decide

end Runs

end Mbtk.AtGenerator
