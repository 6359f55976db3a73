import Mbtk.AtGenerator.Arrays

namespace Mbtk.AtGenerator

open Lib.CInit

set_option maxRecDepth 4000

variable {decls : List Decl} {type name acc : Text} {items : List Init} {outer : List Frame}
  {parent : Frame} {line : Row} {table : List Row}

section Infos

/-- The tokens in front of a name that is given to a field of `param_info`. -/
def fieldTokens (field : Text) : List Token :=
  [.punct '.', .word "param_info".toList, .punct '.', .word field, .punct '=']

theorem reads_stringInfo : Reads (inList decls type name items .fresh outer)
    "    \x7b  2,  1, .param_info.str_array_ptr = mbtkat_param_string_".toList
    (some ⟨.word "mbtkat_param_string_".toList, .body decls type name
      ⟨[.int 2, .int 1], .pending (fieldTokens "str_array_ptr".toList)⟩
      (⟨items, .fresh⟩ :: outer)⟩) :=
  fun _ => (rfl)

theorem reads_numericInfo : Reads (inList decls type name items .fresh outer)
    "    \x7b  1,  ".toList
    (some (inList decls type name [.int 1] .fresh (⟨items, .fresh⟩ :: outer))) :=
  fun _ => (rfl)

theorem reads_numericField : Reads (inList decls type name items .fresh outer)
    " .param_info.num_array_ptr = mbtkat_param_numeric_".toList
    (some ⟨.word "mbtkat_param_numeric_".toList, .body decls type name
      ⟨items, .pending (fieldTokens "num_array_ptr".toList)⟩ outer⟩) :=
  fun _ => (rfl)

theorem reads_fieldClose {field : Text} : Reads
    ⟨.word acc, .body decls type name ⟨items, .pending (fieldTokens field)⟩ (parent :: outer)⟩
    " \x7d".toList
    (some (inList decls type name
      (parent.items ++ [.list (items ++ [.field ["param_info".toList, field] acc])])
      .closed outer)) :=
  fun _ => (rfl)

theorem reads_infoText {array arg : Text} {k : ℕ} (harray : ∀ c ∈ array, isWordChar c)
    (isLast : Bool) :
    Reads (inList decls type name items .fresh outer) (infoText array k arg isLast)
      (some (inList decls type name (items ++ [infoItem array k arg]) (behind isLast) outer)) := by
  unfold infoText infoItem
  split_ifs with hstring
  · refine reads_stringInfo.append ((reads_word harray _).append ?_)
    refine (reads_underscore _).append ((reads_index k _).append ?_)
    exact reads_fieldClose.append (reads_comma isLast)
  · refine reads_numericInfo.append ?_
    change Reads _ (decimal _ ++ ',' ::
      (" .param_info.num_array_ptr = mbtkat_param_numeric_".toList ++ _)) _
    refine reads_decimal (reads_numericField.append ((reads_word harray _).append ?_))
    refine (reads_underscore _).append ((reads_index k _).append ?_)
    exact reads_fieldClose.append (reads_comma isLast)

def endSlot {α : Type} : List α → Slot
  | [] => .fresh
  | _ => .closed

theorem endSlot_or {α : Type} (l : List α) : endSlot l = .fresh ∨ endSlot l = .closed := by
  cases l
  · exact .inl rfl
  · exact .inr rfl

theorem reads_infosText {array : Text} {args : List Text} {k : ℕ}
    (harray : ∀ c ∈ array, isWordChar c) :
    Reads (inList decls type name items .fresh outer) (infosText array k args)
      (some (inList decls type name (items ++ infoItems array k args) (endSlot args) outer)) := by
  induction args generalizing items k with
  | nil =>
    rw [infoItems, List.append_nil]
    exact fun _ => (rfl)
  | cons arg args ih =>
    rw [infosText, infoItems]
    refine (reads_infoText harray (args = [])).append ?_
    cases args with
    | nil => exact fun _ => (rfl)
    | cons next args =>
      have hrest := @ih (items ++ [infoItem array k arg]) (k + 1)
      rw [List.append_assoc] at hrest
      exact hrest

end Infos

section Rows

theorem reads_infoHead : Reads (atHead decls) "const MBTKAT_PARAM_INFO_T mbtkat_param_info_".toList
    (some ⟨.word "mbtkat_param_info_".toList,
      .head decls [.word "const".toList, .word PARAM_INFO_T]⟩) :=
  fun _ => (rfl)

theorem reads_rowText (h : GoodRow line) :
    Reads (atHead decls) (rowText line)
      ((rowDecls line).map fun new => atHead (decls ++ new)) := by
  have hname : ∀ c ∈ atName line, isWordChar c := fun c hc => isWordChar_of_upper (h.atName c hc)
  have hinfo (decls : List Decl) : Reads (atHead decls)
      ("const MBTKAT_PARAM_INFO_T mbtkat_param_info_".toList ++ (atName line ++
        ("[] =\n\x7b\n".toList ++ (infosText (atName line) 1 (line.drop 2) ++ "\x7d;\n".toList))))
      (some (atHead (decls ++ [infoDecl line]))) := by
    refine reads_infoHead.append ((reads_word hname _).append (reads_open.append ?_))
    exact (reads_infosText hname).append (reads_end _ (endSlot_or _))
  refine (reads_nameText h).append ?_
  refine ((reads_paramsText hname h.args).bind fun new => hinfo _).of_eq ?_
  unfold rowDecls
  cases paramDecls (atName line) 1 (line.drop 2) <;> simp

theorem reads_rowsText (h : ∀ line ∈ table, GoodRow line) :
    Reads (atHead decls) (table.flatMap rowText)
      ((table.mapM rowDecls).map fun rows => atHead (decls ++ rows.flatten)) := by
  induction table generalizing decls with
  | nil =>
    have hnil : Reads (atHead decls) [] (some (atHead decls)) := fun _ => (rfl)
    exact hnil.of_eq (by simp)
  | cons line table ih =>
    rw [List.flatMap_cons, List.mapM_cons]
    refine ((reads_rowText (h line List.mem_cons_self)).bind fun new =>
      ih fun other hother => h other (List.mem_cons_of_mem _ hother)).of_eq ?_
    cases rowDecls line with
    | none => rfl
    | some new => cases table.mapM rowDecls <;> simp

end Rows

section Entries

theorem reads_entryHead : Reads (inList decls type name items .fresh outer)
    "    \x7bMBTK_AT_CMD_".toList
    (some ⟨.word "MBTK_AT_CMD_".toList,
      .body decls type name ⟨[], .fresh⟩ (⟨items, .fresh⟩ :: outer)⟩) :=
  fun _ => (rfl)

theorem reads_nameComma : Reads ⟨.word acc, .body decls type name ⟨items, .fresh⟩ outer⟩ ", ".toList
    (some (inList decls type name (items ++ [.name acc]) .fresh outer)) :=
  fun _ => (rfl)

theorem reads_nameArray : Reads (inList decls type name items .fresh outer)
    " mbtkat_cmd_name_".toList
    (some ⟨.word "mbtkat_cmd_name_".toList, .body decls type name ⟨items, .fresh⟩ outer⟩) :=
  fun _ => (rfl)

theorem reads_infoArray : Reads (inList decls type name items .fresh outer)
    " mbtkat_param_info_".toList
    (some ⟨.word "mbtkat_param_info_".toList, .body decls type name ⟨items, .fresh⟩ outer⟩) :=
  fun _ => (rfl)

theorem reads_handler : Reads ⟨.word acc, .body decls type name ⟨items, .fresh⟩ outer⟩
    ", mbtk_at_handle_".toList
    (some ⟨.word "mbtk_at_handle_".toList,
      .body decls type name ⟨items ++ [.name acc], .fresh⟩ outer⟩) :=
  fun _ => (rfl)

theorem reads_nameClose : Reads
    ⟨.word acc, .body decls type name ⟨items, .fresh⟩ (parent :: outer)⟩ "\x7d".toList
    (some (inList decls type name (parent.items ++ [.list (items ++ [.name acc])])
      .closed outer)) :=
  fun _ => (rfl)

theorem reads_entryText (h : GoodRow line) (isLast : Bool) :
    Reads (inList decls type name items .fresh outer) (entryText line isLast)
      ((entryItem line).map fun item =>
        inList decls type name (items ++ [item]) (behind isLast) outer) := by
  have hname : ∀ c ∈ atName line, isWordChar c := fun c hc => isWordChar_of_upper (h.atName c hc)
  obtain ⟨n, hn⟩ := h.type
  refine reads_entryHead.append ((reads_word hname _).append (reads_nameComma.append ?_))
  change Reads _ (line.getD 1 [] ++ ',' :: (" mbtkat_cmd_name_".toList ++ _)) _
  refine Reads.of_eq (reads_int_comma hn fun n => ?_) (show ((cInt (line.getD 1 [])).bind fun n =>
    some (inList decls type name (items ++ [entryInit line n]) (behind isLast) outer)) = _ from ?_)
  · refine reads_nameArray.append ((reads_word hname _).append (reads_nameComma.append ?_))
    change Reads _ (decimal _ ++ ',' :: (" mbtkat_param_info_".toList ++ _)) _
    refine reads_decimal (reads_infoArray.append ((reads_word hname _).append ?_))
    refine reads_handler.append ((reads_word hname _).append ?_)
    exact reads_nameClose.append (reads_comma isLast)
  · unfold entryItem
    cases cInt (line.getD 1 []) <;> rfl

theorem reads_entriesText (h : ∀ line ∈ table, GoodRow line) :
    Reads (inList decls type name items .fresh []) (entriesText table)
      ((table.mapM entryItem).map fun new =>
        inList decls type name (items ++ new) (endSlot table) []) := by
  induction table generalizing items with
  | nil =>
    have hnil : Reads (inList decls type name items .fresh []) []
        (some (inList decls type name items .fresh [])) := fun _ => (rfl)
    exact hnil.of_eq (by simp [endSlot])
  | cons line table ih =>
    have hrest (items : List Init) := @ih items fun other hother =>
      h other (List.mem_cons_of_mem _ hother)
    rw [entriesText, List.mapM_cons]
    refine Reads.of_eq ((reads_entryText (h line List.mem_cons_self) (table = [])).bind
      fun item => ?_) (show ((entryItem line).bind fun item => (table.mapM entryItem).map fun new =>
        inList decls type name (items ++ [item] ++ new) .closed []) = _ from ?_)
    · cases table with
      | nil =>
        have hnil : Reads (inList decls type name (items ++ [item]) .closed []) []
            (some (inList decls type name (items ++ [item]) .closed [])) := fun _ => (rfl)
        exact hnil.of_eq (by simp)
      | cons next table => exact hrest (items ++ [item])
    · cases entryItem line with
      | none => rfl
      | some item => cases table.mapM entryItem <;> simp [endSlot]

end Entries

section File

theorem reads_head : Reads (atHead decls) fileInfoCHead (some (atHead decls)) := by
  have hcomment : Reads (atHead decls)
      "/* Python Automatically generate file. Don't edit. */\n".toList (some (atHead decls)) :=
    fun _ => (rfl)
  have hdef : Reads (atHead decls) "#include \"mbtk_at_def.h\"\n".toList (some (atHead decls)) :=
    fun _ => (rfl)
  have hat : Reads (atHead decls) "#include \"mbtk_at.h\"\n".toList (some (atHead decls)) :=
    fun _ => (rfl)
  have hinfo : Reads (atHead decls) "#include \"mbtk_at_info.h\"\n".toList (some (atHead decls)) :=
    fun _ => (rfl)
  exact ((hcomment.append hdef).append hat).append hinfo

theorem reads_tablesHead : Reads (atHead decls) "\n\n// Define mbtkat_info_tables\n".toList
    (some (atHead decls)) :=
  fun _ => (rfl)

theorem reads_tablesOpen : Reads (atHead decls)
    "const MBTKAT_INFO_T mbtkat_info_tables[] =\n\x7b".toList
    (some (inList decls INFO_T tablesIdent [] .fresh [])) :=
  fun _ => (rfl)

theorem read_fileInfoCWrite (h : ∀ line ∈ table, GoodRow line) :
    read (fileInfoCWrite table) = fileDecls table := by
  refine Reads.read (reads_head.append (.of_eq ((reads_rowsText h).bind fun rows =>
    reads_tablesHead.append (reads_tablesOpen.append ((reads_entriesText h).bind fun entries =>
      reads_end _ (endSlot_or table)))) ?_))
  unfold fileDecls
  cases table.mapM rowDecls with
  | none => rfl
  | some rows => cases table.mapM entryItem <;> rfl

end File

end Mbtk.AtGenerator
