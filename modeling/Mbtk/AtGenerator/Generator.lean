import Mbtk.Lib.CInit

/-! The generator of the AT tables: what it takes for a table, and the C text that it writes. -/

namespace Mbtk.AtGenerator

open Lib.CInit

/-- A row of a table: the name of the command, its type and its parameters. -/
abbrev Row := List Text

section Check

/-- `int` of a string, with `none` for its exception. -/
def pyInt (s : Text) : Option ℤ :=
  let s := s.dropWhile isSpace
  let sign := s.head?
  let s := (if sign = some '-' ∨ sign = some '+' then s.tail else s).dropWhile isSpace
  let digits := s.takeWhile Char.isDigit
  if digits = [] ∨ (s.dropWhile Char.isDigit).all isSpace = false then none
  else
    let value : ℤ := Nat.ofDigitChars 10 digits 0
    some (if sign = some '-' then -value else value)

def isInt (s : Text) : Bool := (pyInt s).isSome

def slice (s : Text) (i : ℕ) : Text := (s.drop i).dropLast

/-- What `at_define_check` asks of a range of a numeric parameter. -/
def checkRange (range : Text) : Bool :=
  let rangeItems := range.splitOn '-'
  ' ' ∉ range && (rangeItems.length = 1 || rangeItems.length = 2) &&
    (rangeItems.all fun rangeItem => ' ' ∉ rangeItem && isInt rangeItem) &&
    !(rangeItems.length = 2 &&
      (pyInt (rangeItems.getD 0 [])).getD 0 > (pyInt (rangeItems.getD 1 [])).getD 0)

/-- What `at_define_check` asks of a parameter. -/
def checkArg (arg : Text) : Bool :=
  arg.length > 2 && arg.head? = some '(' && arg.getLast? = some ')' &&
    if arg[1]? = some 's' then ' ' ∉ arg && isInt (slice arg 2)
    else ((slice arg 1).splitOn ' ').all checkRange

/-- What `at_define_check` asks of a row, with `none` where it raises an exception. -/
def checkRow (line : Row) : Option Bool :=
  if line.length < 2 then some false
  else
    let name := line.getD 0 []
    match name.head? with
    | none => none
    | some first =>
      if first ≠ '+' ∧ !first.isUpper then some false
      else if first = '+' ∧ (name.length ≤ 1 ∨ !(name.getD 1 ' ').isUpper) then some false
      else if name.tail.any fun ch => !ch.isUpper && !ch.isDigit then some false
      else
        match pyInt (line.getD 1 []) with
        | none => none
        | some type =>
          if type < 1 ∨ type > 15 then some false
          else if type.toNat &&& 2 ≠ 0 then
            if line.length ≤ 2 then some false else some ((line.drop 2).all checkArg)
          else some (line.length = 2)

def checkRows : List Row → Option Bool
  | [] => some true
  | line :: lines => do if ← checkRow line then checkRows lines else return false

def atName (line : Row) : Text :=
  let name := line.getD 0 []
  if (name.headD ' ').isUpper then name else name.tail

def atDefineCheck (table : List Row) : Option Bool := do
  if ← checkRows table then return (table.map atName).dedup.length = table.length
  else return false

end Check

section Write

def decimal (n : ℕ) : Text := Nat.toDigits 10 n

def fileInfoCHead : Text :=
  "/* Python Automatically generate file. Don't edit. */\n".toList ++
  "#include \"mbtk_at_def.h\"\n".toList ++
  "#include \"mbtk_at.h\"\n".toList ++
  "#include \"mbtk_at_info.h\"\n".toList

def nameText (line : Row) : Text :=
  "\n// Define for AT".toList ++ (line.getD 0 [] ++ ("\n".toList ++
  ("const MBTKAT_PARAM_STRING_T    mbtkat_cmd_name_".toList ++ (atName line ++
  ("[] =\n\x7b\n    \x7b ".toList ++ (decimal (line.getD 0 []).length ++
  (", (const uint8 *)\"".toList ++ (line.getD 0 [] ++ "\" \x7d\n\x7d;\n".toList))))))))

def argRange (arg : Text) : List Text := (slice arg 1).splitOn ' '

def isString (arg : Text) : Bool :=
  (argRange arg).length = 1 && ((argRange arg).headD []).head? = some 's'

def comma (isLast : Bool) : Text := if isLast then "\n".toList else ",\n".toList

def pairText (low high : Text) (isLast : Bool) : Text :=
  "    \x7b    ".toList ++ (low ++ (",    ".toList ++ (high ++ (" \x7d".toList ++ comma isLast))))

/-- The entry for a range.  One with more than two numbers writes nothing. -/
def rangeText (arg : Text) (isLast : Bool) : Text :=
  match arg.splitOn '-' with
  | [number] => pairText number number isLast
  | [low, high] => pairText low high isLast
  | _ => []

/-- The operator `is` on two pieces at different places: equal strings of one character are the
same object, longer ones are not. -/
def sameObject (arg last : Text) : Bool := arg.length = 1 && arg = last

/-- The entries for the ranges of a parameter, whose last piece is `last`. -/
def rangesText (last : Text) : List Text → Text
  | [] => []
  | arg :: args => rangeText arg (args = [] || sameObject arg last) ++ rangesText last args

def paramText (name : Text) (k : ℕ) (arg : Text) : Text :=
  if isString arg then
    "const MBTKAT_PARAM_STRING_T   mbtkat_param_string_".toList ++ (name ++ ("_".toList ++
    (decimal k ++ ("[] =\n\x7b\n    \x7b    ".toList ++ (((argRange arg).headD []).tail ++
    ",   NULL \x7d\n\x7d;\n".toList)))))
  else
    "const MBTKAT_PARAM_NUMERIC_T   mbtkat_param_numeric_".toList ++ (name ++ ("_".toList ++
    (decimal k ++ ("[] =\n\x7b\n".toList ++
    (rangesText ((argRange arg).getLastD []) (argRange arg) ++ "\x7d;\n".toList)))))

def paramsText (name : Text) (k : ℕ) : List Text → Text
  | [] => []
  | arg :: args => paramText name k arg ++ paramsText name (k + 1) args

/-- The entry for the parameter with number `k` in the array of the parameters. -/
def infoText (name : Text) (k : ℕ) (arg : Text) (isLast : Bool) : Text :=
  if isString arg then
    "    \x7b  2,  1, .param_info.str_array_ptr = mbtkat_param_string_".toList ++ (name ++
    ("_".toList ++ (decimal k ++ (" \x7d".toList ++ comma isLast))))
  else
    "    \x7b  1,  ".toList ++ (decimal (argRange arg).length ++
    (", .param_info.num_array_ptr = mbtkat_param_numeric_".toList ++ (name ++ ("_".toList ++
    (decimal k ++ (" \x7d".toList ++ comma isLast))))))

def infosText (name : Text) (k : ℕ) : List Text → Text
  | [] => []
  | arg :: args => infoText name k arg (args = []) ++ infosText name (k + 1) args

def rowText (line : Row) : Text :=
  nameText line ++ (paramsText (atName line) 1 (line.drop 2) ++
  ("const MBTKAT_PARAM_INFO_T mbtkat_param_info_".toList ++ (atName line ++
  ("[] =\n\x7b\n".toList ++ (infosText (atName line) 1 (line.drop 2) ++ "\x7d;\n".toList)))))

/-- The entry for a row in `mbtkat_info_tables`. -/
def entryText (line : Row) (isLast : Bool) : Text :=
  "    \x7bMBTK_AT_CMD_".toList ++ (atName line ++ (", ".toList ++ (line.getD 1 [] ++
  (", mbtkat_cmd_name_".toList ++ (atName line ++ (", ".toList ++ (decimal (line.length - 2) ++
  (", mbtkat_param_info_".toList ++ (atName line ++ (", mbtk_at_handle_".toList ++ (atName line ++
  ("\x7d".toList ++ comma isLast))))))))))))

def entriesText : List Row → Text
  | [] => []
  | line :: lines => entryText line (lines = []) ++ entriesText lines

/-- The text that `file_info_c_write` writes for a table that was checked. -/
def fileInfoCWrite (table : List Row) : Text :=
  fileInfoCHead ++ (table.flatMap rowText ++ ("\n\n// Define mbtkat_info_tables\n".toList ++
  ("const MBTKAT_INFO_T mbtkat_info_tables[] =\n\x7b".toList ++
  (entriesText table ++ "\x7d;\n".toList))))

end Write

end Mbtk.AtGenerator
