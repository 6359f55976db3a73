import Mbtk.AtGenerator.RoundTrip

namespace Mbtk.AtGenerator

open Lib.CInit

section Header

def fileInfoHHead : Text :=
  "/* Python Automatically generate file. Don't edit. */\n".toList ++
  "#ifndef _MBTK_AT_INFO_H\n".toList ++
  "#define _MBTK_AT_INFO_H\n".toList ++
  "#include \"mbtk_at.h\"\n\n".toList

def fileInfoHTail : Text := "\n#endif /* _MBTK_AT_INFO_H */\n".toList

def enumText (line : Row) : Text :=
  "    MBTK_AT_CMD_".toList ++ (atName line ++ ",\n".toList)

def handleText (line : Row) : Text :=
  "mbtk_at_state mbtk_at_handle_".toList ++ (atName line ++
    "(mbtk_at_req_t *req,mbtk_at_rsp_t *rsp);\n".toList)

/-- The text that `file_info_h_write` writes for a table that was checked. -/
def fileInfoHWrite (table : List Row) : Text :=
  fileInfoHHead ++ ("/* Define AT command index */\n".toList ++ ("typedef enum \x7b\n".toList ++
    (table.flatMap enumText ++
      ("    MBTK_AT_CMD_NUM_MAX\n\x7d mbtk_at_cmd_ids_enum;\n\n".toList ++
        ("/* Define AT cmd functions */\n".toList ++
          (table.flatMap handleText ++ fileInfoHTail))))))

end Header

section Pieces

/-- A piece of a file: an identifier that is defined or declared there, one that is referred to, or
other text. -/
inductive Piece
  | text (s : Text)
  | defines (ident : Text)
  | refers (ident : Text)

def Piece.chars : Piece → Text
  | .text s | .defines s | .refers s => s

def Piece.defined : Piece → Option Text
  | .defines ident => some ident
  | .text _ | .refers _ => none

def Piece.referred : Piece → Option Text
  | .refers ident => some ident
  | .text _ | .defines _ => none

def written (pieces : List Piece) : Text := pieces.flatMap Piece.chars

def defined (pieces : List Piece) : List Text := pieces.filterMap Piece.defined

def referred (pieces : List Piece) : List Text := pieces.filterMap Piece.referred

def cmdIdent (name : Text) : Text := "MBTK_AT_CMD_".toList ++ name
def handleIdent (name : Text) : Text := "mbtk_at_handle_".toList ++ name

section Header

def enumPiece (line : Row) : List Piece :=
  [.text "    ".toList, .defines (cmdIdent (atName line)), .text ",\n".toList]

def enumPieces (table : List Row) : List Piece :=
  table.flatMap enumPiece ++ [.text "    ".toList, .defines (cmdIdent "NUM_MAX".toList)]

def handlePiece (line : Row) : List Piece :=
  [.text "mbtk_at_state ".toList, .defines (handleIdent (atName line)),
    .text "(mbtk_at_req_t *req,mbtk_at_rsp_t *rsp);\n".toList]

def headerPieces (table : List Row) : List Piece :=
  .text (fileInfoHHead ++ ("/* Define AT command index */\n".toList ++
    "typedef enum \x7b\n".toList)) :: (enumPieces table ++
      (.text ("\n\x7d mbtk_at_cmd_ids_enum;\n\n".toList ++
        "/* Define AT cmd functions */\n".toList) ::
          (table.flatMap handlePiece ++ [.text fileInfoHTail])))

end Header

section Source

def namePieces (line : Row) : List Piece :=
  [.text ("\n// Define for AT".toList ++ (line.getD 0 [] ++ ("\n".toList ++
      "const MBTKAT_PARAM_STRING_T    ".toList))),
    .defines (nameIdent (atName line)),
    .text ("[] =\n\x7b\n    \x7b ".toList ++ (decimal (line.getD 0 []).length ++
      (", (const uint8 *)\"".toList ++ (line.getD 0 [] ++ "\" \x7d\n\x7d;\n".toList))))]

def paramPieces (name : Text) (k : ℕ) (arg : Text) : List Piece :=
  if isString arg then
    [.text "const MBTKAT_PARAM_STRING_T   ".toList, .defines (stringIdent name k),
      .text ("[] =\n\x7b\n    \x7b    ".toList ++ (((argRange arg).headD []).tail ++
        ",   NULL \x7d\n\x7d;\n".toList))]
  else
    [.text "const MBTKAT_PARAM_NUMERIC_T   ".toList, .defines (numericIdent name k),
      .text ("[] =\n\x7b\n".toList ++
        (rangesText ((argRange arg).getLastD []) (argRange arg) ++ "\x7d;\n".toList))]

def paramsPieces (name : Text) (k : ℕ) : List Text → List Piece
  | [] => []
  | arg :: args => paramPieces name k arg ++ paramsPieces name (k + 1) args

def infoPieces (name : Text) (k : ℕ) (arg : Text) (isLast : Bool) : List Piece :=
  if isString arg then
    [.text "    \x7b  2,  1, .param_info.str_array_ptr = ".toList, .refers (stringIdent name k),
      .text (" \x7d".toList ++ comma isLast)]
  else
    [.text ("    \x7b  1,  ".toList ++ (decimal (argRange arg).length ++
        ", .param_info.num_array_ptr = ".toList)),
      .refers (numericIdent name k), .text (" \x7d".toList ++ comma isLast)]

def infosPieces (name : Text) (k : ℕ) : List Text → List Piece
  | [] => []
  | arg :: args => infoPieces name k arg (args = []) ++ infosPieces name (k + 1) args

def rowPieces (line : Row) : List Piece :=
  namePieces line ++ (paramsPieces (atName line) 1 (line.drop 2) ++
    (.text "const MBTKAT_PARAM_INFO_T ".toList :: .defines (infoIdent (atName line)) ::
      .text "[] =\n\x7b\n".toList ::
        (infosPieces (atName line) 1 (line.drop 2) ++ [.text "\x7d;\n".toList])))

/-- The row of `mbtkat_info_tables` for a command. -/
def entryPieces (line : Row) (isLast : Bool) : List Piece :=
  [.text "    \x7b".toList, .refers (cmdIdent (atName line)),
    .text (", ".toList ++ (line.getD 1 [] ++ ", ".toList)), .refers (nameIdent (atName line)),
    .text (", ".toList ++ (decimal (line.length - 2) ++ ", ".toList)),
    .refers (infoIdent (atName line)), .text ", ".toList, .refers (handleIdent (atName line)),
    .text ("\x7d".toList ++ comma isLast)]

/-- The rows of `mbtkat_info_tables`. -/
def entriesPieces : List Row → List (List Piece)
  | [] => []
  | line :: lines => entryPieces line (lines = []) :: entriesPieces lines

def sourcePieces (table : List Row) : List Piece :=
  .text fileInfoCHead :: (table.flatMap rowPieces ++
    (.text ("\n\n// Define mbtkat_info_tables\n".toList ++ "const MBTKAT_INFO_T ".toList) ::
      .defines tablesIdent :: .text "[] =\n\x7b".toList ::
        ((entriesPieces table).flatten ++ [.text "\x7d;\n".toList])))

end Source

end Pieces

section Written

variable {s t u v ident l p q n : Text} {pieces others : List Piece}

@[simp] theorem written_nil : written [] = [] := rfl

@[simp] theorem written_text : written (.text s :: pieces) = s ++ written pieces := rfl

@[simp] theorem written_defines : written (.defines ident :: pieces) = ident ++ written pieces :=
  rfl

@[simp] theorem written_refers : written (.refers ident :: pieces) = ident ++ written pieces := rfl

@[simp] theorem written_append : written (pieces ++ others) = written pieces ++ written others :=
  List.flatMap_append

theorem written_last : written [.text s] = s := List.append_nil s

theorem append_congr₂ {a b x y : Text} (h : x = y) : a ++ (b ++ x) = a ++ (b ++ y) := by rw [h]

section Identifiers

-- The literal in front of an identifier and the one that it begins with are one in the text.
variable (h : l ++ p = q)

include h

theorem written_define :
    written (.text l :: .defines (p ++ n) :: pieces) = q ++ (n ++ written pieces) := by
  subst h
  simp

theorem written_refer :
    written (.text l :: .refers (p ++ n) :: pieces) = q ++ (n ++ written pieces) := by
  subst h
  simp

theorem written_refer_behind : written (.text (s ++ (t ++ l)) :: .refers (p ++ n) :: pieces) =
    s ++ (t ++ (q ++ (n ++ written pieces))) := by
  subst h
  simp

theorem written_define_behind :
    written (.text (s ++ (t ++ (u ++ l))) :: .defines (p ++ n) :: pieces) =
      s ++ (t ++ (u ++ (q ++ (n ++ written pieces)))) := by
  subst h
  simp

theorem written_define_index : written (.text l :: .defines (p ++ n ++ t ++ u) :: pieces) =
    q ++ (n ++ (t ++ (u ++ written pieces))) := by
  subst h
  simp

theorem written_refer_index : written (.text l :: .refers (p ++ n ++ t ++ u) :: pieces) =
    q ++ (n ++ (t ++ (u ++ written pieces))) := by
  subst h
  simp

theorem written_refer_index_behind :
    written (.text (s ++ (v ++ l)) :: .refers (p ++ n ++ t ++ u) :: pieces) =
      s ++ (v ++ (q ++ (n ++ (t ++ (u ++ written pieces))))) := by
  subst h
  simp

end Identifiers

theorem written_flatMap {f : Row → List Piece} {g : Row → Text}
    (h : ∀ line, written (f line) = g line) (table : List Row) :
    written (table.flatMap f) = table.flatMap g :=
  List.flatMap_assoc.trans (List.flatMap_congr fun line _ => h line)

theorem written_enumPiece (line : Row) : written (enumPiece line) = enumText line := by
  have hliteral : "    ".toList ++ "MBTK_AT_CMD_".toList = "    MBTK_AT_CMD_".toList :=
    String.toList_append.symm
  exact (written_define hliteral).trans (append_congr₂ written_last)

theorem written_handlePiece (line : Row) : written (handlePiece line) = handleText line := by
  have hliteral : "mbtk_at_state ".toList ++ "mbtk_at_handle_".toList =
      "mbtk_at_state mbtk_at_handle_".toList :=
    String.toList_append.symm
  exact (written_define hliteral).trans (append_congr₂ written_last)

theorem append_last {a b d x y : Text} (h : l ++ p ++ n ++ s = q) (hxy : x = y) :
    (t ++ (a ++ b)) ++ ((u ++ (l ++ ((p ++ n) ++ []))) ++ ((s ++ d) ++ x)) =
      t ++ (a ++ (b ++ (u ++ (q ++ (d ++ y))))) := by
  subst h hxy
  simp

theorem written_headerPieces (table : List Row) :
    written (headerPieces table) = fileInfoHWrite table := by
  have hliteral : "    ".toList ++ "MBTK_AT_CMD_".toList ++ "NUM_MAX".toList ++
      "\n\x7d mbtk_at_cmd_ids_enum;\n\n".toList =
        "    MBTK_AT_CMD_NUM_MAX\n\x7d mbtk_at_cmd_ids_enum;\n\n".toList := by decide
  have hhandles : written (table.flatMap handlePiece ++ [.text fileInfoHTail]) =
      table.flatMap handleText ++ fileInfoHTail := by
    rw [written_append, written_flatMap written_handlePiece, written_last]
  rw [headerPieces, enumPieces, written_text, written_append, written_append,
    written_flatMap written_enumPiece]
  exact append_last hliteral hhandles

theorem written_namePieces (line : Row) : written (namePieces line) = nameText line := by
  have hliteral : "const MBTKAT_PARAM_STRING_T    ".toList ++ "mbtkat_cmd_name_".toList =
      "const MBTKAT_PARAM_STRING_T    mbtkat_cmd_name_".toList :=
    String.toList_append.symm
  exact (written_define_behind hliteral).trans
    (append_congr₂ (append_congr₂ (congrArg _ written_last)))

theorem written_paramPieces (name : Text) (k : ℕ) (arg : Text) :
    written (paramPieces name k arg) = paramText name k arg := by
  have hstring : "const MBTKAT_PARAM_STRING_T   ".toList ++ "mbtkat_param_string_".toList =
      "const MBTKAT_PARAM_STRING_T   mbtkat_param_string_".toList :=
    String.toList_append.symm
  have hnumeric : "const MBTKAT_PARAM_NUMERIC_T   ".toList ++ "mbtkat_param_numeric_".toList =
      "const MBTKAT_PARAM_NUMERIC_T   mbtkat_param_numeric_".toList :=
    String.toList_append.symm
  unfold paramPieces paramText
  split_ifs
  · exact (written_define_index hstring).trans (append_congr₂ (append_congr₂ written_last))
  · exact (written_define_index hnumeric).trans (append_congr₂ (append_congr₂ written_last))

theorem written_infoPieces (name : Text) (k : ℕ) (arg : Text) (isLast : Bool) :
    written (infoPieces name k arg isLast) = infoText name k arg isLast := by
  have hstring : "    \x7b  2,  1, .param_info.str_array_ptr = ".toList ++
      "mbtkat_param_string_".toList =
        "    \x7b  2,  1, .param_info.str_array_ptr = mbtkat_param_string_".toList :=
    String.toList_append.symm
  have hnumeric : ", .param_info.num_array_ptr = ".toList ++ "mbtkat_param_numeric_".toList =
      ", .param_info.num_array_ptr = mbtkat_param_numeric_".toList :=
    String.toList_append.symm
  unfold infoPieces infoText
  split_ifs
  · exact (written_refer_index hstring).trans (append_congr₂ (append_congr₂ written_last))
  · exact (written_refer_index_behind hnumeric).trans
      (append_congr₂ (append_congr₂ (append_congr₂ written_last)))

theorem written_entryPieces (line : Row) (isLast : Bool) :
    written (entryPieces line isLast) = entryText line isLast := by
  have hcmd : "    \x7b".toList ++ "MBTK_AT_CMD_".toList = "    \x7bMBTK_AT_CMD_".toList :=
    String.toList_append.symm
  have hname : ", ".toList ++ "mbtkat_cmd_name_".toList = ", mbtkat_cmd_name_".toList :=
    String.toList_append.symm
  have hinfo : ", ".toList ++ "mbtkat_param_info_".toList = ", mbtkat_param_info_".toList :=
    String.toList_append.symm
  have hhandle : ", ".toList ++ "mbtk_at_handle_".toList = ", mbtk_at_handle_".toList :=
    String.toList_append.symm
  refine (written_refer hcmd).trans (append_congr₂ ?_)
  refine (written_refer_behind hname).trans (append_congr₂ (append_congr₂ ?_))
  refine (written_refer_behind hinfo).trans (append_congr₂ (append_congr₂ ?_))
  exact (written_refer hhandle).trans (append_congr₂ written_last)

theorem written_paramsPieces (name : Text) (k : ℕ) (args : List Text) :
    written (paramsPieces name k args) = paramsText name k args := by
  induction args generalizing k with
  | nil => rfl
  | cons arg args ih =>
    rw [paramsPieces, paramsText, written_append, written_paramPieces, ih]

theorem written_infosPieces (name : Text) (k : ℕ) (args : List Text) :
    written (infosPieces name k args) = infosText name k args := by
  induction args generalizing k with
  | nil => rfl
  | cons arg args ih =>
    rw [infosPieces, infosText, written_append, written_infoPieces, ih]

theorem written_entriesPieces (table : List Row) :
    written (entriesPieces table).flatten = entriesText table := by
  induction table with
  | nil => rfl
  | cons line lines ih =>
    rw [entriesPieces, entriesText, List.flatten_cons, written_append, written_entryPieces, ih]

theorem written_rowPieces (line : Row) : written (rowPieces line) = rowText line := by
  have hliteral : "const MBTKAT_PARAM_INFO_T ".toList ++ "mbtkat_param_info_".toList =
      "const MBTKAT_PARAM_INFO_T mbtkat_param_info_".toList :=
    String.toList_append.symm
  have hinfos : written (infosPieces (atName line) 1 (line.drop 2) ++ [.text "\x7d;\n".toList]) =
      infosText (atName line) 1 (line.drop 2) ++ "\x7d;\n".toList := by
    rw [written_append, written_infosPieces, written_last]
  rw [rowPieces, written_append, written_append, written_namePieces, written_paramsPieces]
  refine append_congr₂ ((written_define hliteral).trans (append_congr₂ ?_))
  exact congrArg _ hinfos

theorem append_tables {a : Text} (h : l ++ p ++ s = q) (x : Text) :
    (a ++ l) ++ (p ++ (s ++ x)) = a ++ (q ++ x) := by
  subst h
  simp

theorem written_sourcePieces (table : List Row) :
    written (sourcePieces table) = fileInfoCWrite table := by
  have hliteral : "const MBTKAT_INFO_T ".toList ++ tablesIdent ++ "[] =\n\x7b".toList =
      "const MBTKAT_INFO_T mbtkat_info_tables[] =\n\x7b".toList := by decide
  rw [sourcePieces, written_text, written_append, written_flatMap written_rowPieces, written_text,
    written_defines, written_text, written_append, written_entriesPieces, written_last]
  exact append_congr₂ (append_tables hliteral _)

end Written

end Mbtk.AtGenerator
