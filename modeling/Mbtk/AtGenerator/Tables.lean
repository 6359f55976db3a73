import Mbtk.AtGenerator.Generator

/-! What a table says, and what the arrays of the generated file say. -/

namespace Mbtk.AtGenerator

open Lib.CInit

/-- A parameter: the ranges of a numeric one, or the maximal length of a string. -/
inductive Param
  | numeric (ranges : List (ℤ × ℤ))
  | string (maxLen : ℤ)
  deriving DecidableEq

structure Entry where
  name : Text
  nameLen : ℤ
  type : ℤ
  paramCount : ℤ
  params : List Param
  deriving DecidableEq

section Meaning

-- How a number of a table is read.
variable (int : Text → Option ℤ)

def rangeOf (range : Text) : Option (ℤ × ℤ) :=
  match range.splitOn '-' with
  | [number] => (int number).map fun n => (n, n)
  | [low, high] => do return (← int low, ← int high)
  | _ => none

def paramOf (arg : Text) : Option Param :=
  if arg[1]? = some 's' then (int (slice arg 2)).map .string
  else ((argRange arg).mapM (rangeOf int)).map .numeric

def entryOf (line : Row) : Option Entry := do
  let type ← int (line.getD 1 [])
  let params ← (line.drop 2).mapM (paramOf int)
  return ⟨line.getD 0 [], (line.getD 0 []).length, type, (line.length - 2 : ℕ), params⟩

def tableOf (table : List Row) : Option (List Entry) := table.mapM (entryOf int)

variable {range number low high : Text}

theorem rangeOf_single (h : range.splitOn '-' = [number]) :
    rangeOf int range = (int number).map fun n => (n, n) := by
  unfold rangeOf
  rw [h]

theorem rangeOf_pair (h : range.splitOn '-' = [low, high]) :
    rangeOf int range = (int low).bind fun a => (int high).map fun b => (a, b) := by
  unfold rangeOf
  rw [h]
  change ((int low).bind fun a => (int high).bind fun b => some (a, b)) = _
  cases int low <;> cases int high <;> rfl

end Meaning

section Decode

def lookup (decls : List Decl) (type name : Text) : Option (List Init) :=
  (decls.find? (·.name = name)).bind fun decl => if decl.type = type then some decl.items else none

def decodeRange : Init → Option (ℤ × ℤ)
  | .list [.int low, .int high] => some (low, high)
  | _ => none

def decodeString : List Init → Option Param
  | [.list [.int maxLen, .name null]] =>
    if null = "NULL".toList then some (.string maxLen) else none
  | _ => none

/-- The array behind an entry with the kind 1, of a numeric parameter with `count` ranges. -/
def decodeNumeric (count : ℤ) (items : List Init) : Option Param := do
  let ranges ← items.mapM decodeRange
  if ranges.length = count then some (.numeric ranges) else none

def decodeParam (decls : List Decl) : Init → Option Param
  | .list [.int kind, .int count, .field path name] =>
    if kind = 2 ∧ count = 1 ∧ path = ["param_info".toList, "str_array_ptr".toList] then
      (lookup decls "MBTKAT_PARAM_STRING_T".toList name).bind decodeString
    else if kind = 1 ∧ path = ["param_info".toList, "num_array_ptr".toList] then
      (lookup decls "MBTKAT_PARAM_NUMERIC_T".toList name).bind (decodeNumeric count)
    else none
  | _ => none

def decodeName : List Init → Option (Text × ℤ)
  | [.list [.int len, .string name]] => some (name, len)
  | _ => none

def decodeEntry (decls : List Decl) : Init → Option Entry
  | .list [.name _, .int type, .name nameArray, .int paramCount, .name infoArray, .name _] => do
    let (name, nameLen) ← (lookup decls "MBTKAT_PARAM_STRING_T".toList nameArray).bind decodeName
    let infos ← lookup decls "MBTKAT_PARAM_INFO_T".toList infoArray
    let params ← infos.mapM (decodeParam decls)
    return ⟨name, nameLen, type, paramCount, params⟩
  | _ => none

def decode (decls : List Decl) : Option (List Entry) := do
  let infos ← lookup decls "MBTKAT_INFO_T".toList "mbtkat_info_tables".toList
  if (decls.map Decl.name).Nodup then infos.mapM (decodeEntry decls) else none

def readTable (text : Text) : Option (List Entry) := (read text).bind decode

end Decode

section Condition

/-- A number with a leading 0 is less than 8. -/
def Plain (s : Text) : Prop :=
  (s.filter Char.isDigit).head? = some '0' → Nat.ofDigitChars 10 (s.filter Char.isDigit) 0 < 8

instance (s : Text) : Decidable (Plain s) := inferInstanceAs (Decidable (_ → _))

def numbers (arg : Text) : List Text :=
  if arg[1]? = some 's' then [slice arg 2] else (argRange arg).flatMap (·.splitOn '-')

/-- No piece of one character before the last one equals it. -/
def Unrepeated (arg : Text) : Prop :=
  arg[1]? ≠ some 's' → ∀ piece ∈ (argRange arg).dropLast,
    ¬ sameObject piece ((argRange arg).getLastD [])

instance (arg : Text) : Decidable (Unrepeated arg) := inferInstanceAs (Decidable (_ → _))

/-- The text for the table reads back. -/
def Readable (table : List Row) : Prop :=
  ∀ line ∈ table, Plain (line.getD 1 []) ∧
    ∀ arg ∈ line.drop 2, Unrepeated arg ∧ ∀ s ∈ numbers arg, Plain s

instance (table : List Row) : Decidable (Readable table) :=
  inferInstanceAs (Decidable (∀ line ∈ table, _))

end Condition

end Mbtk.AtGenerator
