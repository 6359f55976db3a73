import Mbtk.AtGenerator.Accepted

namespace Mbtk.AtGenerator

open Lib.CInit

section Arrays

def STRING_T : Text := "MBTKAT_PARAM_STRING_T".toList
def NUMERIC_T : Text := "MBTKAT_PARAM_NUMERIC_T".toList
def PARAM_INFO_T : Text := "MBTKAT_PARAM_INFO_T".toList
def INFO_T : Text := "MBTKAT_INFO_T".toList

def nameIdent (name : Text) : Text := "mbtkat_cmd_name_".toList ++ name
def stringIdent (name : Text) (k : ℕ) : Text :=
  "mbtkat_param_string_".toList ++ name ++ "_".toList ++ decimal k
def numericIdent (name : Text) (k : ℕ) : Text :=
  "mbtkat_param_numeric_".toList ++ name ++ "_".toList ++ decimal k
def infoIdent (name : Text) : Text := "mbtkat_param_info_".toList ++ name
def tablesIdent : Text := "mbtkat_info_tables".toList

def nameDecl (line : Row) : Decl :=
  ⟨STRING_T, nameIdent (atName line),
    [.list [.int (line.getD 0 []).length, .string (line.getD 0 [])]]⟩

def pairItem (r : ℤ × ℤ) : Init := .list [.int r.1, .int r.2]

/-- The entries for the ranges of a parameter, unless a separator is missing. -/
def rangeItems (last : Text) : List Text → Option (List Init)
  | [] => some []
  | arg :: args =>
    if args ≠ [] ∧ sameObject arg last then none
    else do
      let r ← rangeOf cInt arg
      let items ← rangeItems last args
      return pairItem r :: items

def paramDecl (name : Text) (k : ℕ) (arg : Text) : Option Decl :=
  if isString arg then
    (cInt ((argRange arg).headD []).tail).map fun n =>
      ⟨STRING_T, stringIdent name k, [.list [.int n, .name "NULL".toList]]⟩
  else
    (rangeItems ((argRange arg).getLastD []) (argRange arg)).map fun items =>
      ⟨NUMERIC_T, numericIdent name k, items⟩

def paramDecls (name : Text) (k : ℕ) : List Text → Option (List Decl)
  | [] => some []
  | arg :: args => do
    let decl ← paramDecl name k arg
    let decls ← paramDecls name (k + 1) args
    return decl :: decls

def infoItem (name : Text) (k : ℕ) (arg : Text) : Init :=
  if isString arg then
    .list [.int 2, .int 1,
      .field ["param_info".toList, "str_array_ptr".toList] (stringIdent name k)]
  else
    .list [.int 1, .int (argRange arg).length,
      .field ["param_info".toList, "num_array_ptr".toList] (numericIdent name k)]

def infoItems (name : Text) (k : ℕ) : List Text → List Init
  | [] => []
  | arg :: args => infoItem name k arg :: infoItems name (k + 1) args

def infoDecl (line : Row) : Decl :=
  ⟨PARAM_INFO_T, infoIdent (atName line), infoItems (atName line) 1 (line.drop 2)⟩

def rowDecls (line : Row) : Option (List Decl) :=
  (paramDecls (atName line) 1 (line.drop 2)).map fun decls =>
    nameDecl line :: (decls ++ [infoDecl line])

def entryInit (line : Row) (type : ℤ) : Init :=
  .list [.name ("MBTK_AT_CMD_".toList ++ atName line), .int type, .name (nameIdent (atName line)),
    .int (line.length - 2 : ℕ), .name (infoIdent (atName line)),
    .name ("mbtk_at_handle_".toList ++ atName line)]

/-- The entry for a row in `mbtkat_info_tables`. -/
def entryItem (line : Row) : Option Init := (cInt (line.getD 1 [])).map (entryInit line)

def fileDecls (table : List Row) : Option (List Decl) := do
  let rows ← table.mapM rowDecls
  let entries ← table.mapM entryItem
  return rows.flatten ++ [⟨INFO_T, tablesIdent, entries⟩]

end Arrays

set_option maxRecDepth 4000

section Literals

variable {decls : List Decl} {type name acc rest : Text} {items : List Init} {outer : List Frame}
  {tokens : List Token} {frame : Frame}

def atHead (decls : List Decl) : Reader := ⟨.start, .head decls []⟩

def inList (decls : List Decl) (type name : Text) (items : List Init) (slot : Slot)
    (outer : List Frame) : Reader :=
  ⟨.start, .body decls type name ⟨items, slot⟩ outer⟩

theorem reads_int {s text : Text} {n : ℤ} {c : Char} {r : Option Reader} (h : pyInt s = some n)
    (hc : isNumberChar c = false)
    (h' : Reads (inList decls type name items (.pending (intTokens s)) outer) (c :: text) r) :
    Reads (inList decls type name items .fresh outer) (s ++ c :: text) r := by
  intro rest
  rw [List.append_assoc]
  exact (read_int h hc).trans (h' rest)

theorem reads_int_comma {s text : Text} {n : ℤ} {g : ℤ → Option Reader} (h : pyInt s = some n)
    (h' : ∀ n, Reads (inList decls type name (items ++ [.int n]) .fresh outer) text (g n)) :
    Reads (inList decls type name items .fresh outer) (s ++ ',' :: text) ((cInt s).bind g) := by
  refine reads_int h rfl (.cons (step_comma.trans ?_) h')
  rw [scalar_intTokens h, Option.map_map]
  rfl

theorem reads_int_close {s : Text} {n : ℤ} {parent : Frame} (h : pyInt s = some n) :
    Reads (inList decls type name items .fresh (parent :: outer)) (s ++ " \x7d".toList)
      ((cInt s).map fun n =>
        inList decls type name (parent.items ++ [.list (items ++ [.int n])]) .closed outer) := by
  change Reads _ (s ++ ' ' :: ['\x7d']) _
  refine reads_int h rfl fun rest => ?_
  change List.foldlM Reader.step _ ('\x7d' :: rest) = _
  rw [List.foldlM_cons]
  change (Reader.step ⟨.start, .body decls type name ⟨items, .pending (intTokens s)⟩
    (parent :: outer)⟩ '\x7d').bind _ = _
  rw [step_close, scalar_intTokens h, Option.map_map]
  rfl

theorem reads_decimal {k : ℕ} {text : Text} {r : Option Reader}
    (h' : Reads (inList decls type name (items ++ [.int k]) .fresh outer) text r) :
    Reads (inList decls type name items .fresh outer) (decimal k ++ ',' :: text) r := by
  intro rest
  rw [List.append_assoc]
  refine (read_digits Nat.toDigits_ne_nil
    (fun c hc => Nat.isDigit_of_mem_toDigits (by decide) (by decide) hc) rfl).trans ?_
  change List.foldlM Reader.step
    (inList decls type name items (.pending [.number (decimal k)]) outer)
    (',' :: (text ++ rest)) = _
  have hscalar : scalar [.number (decimal k)] = some (.int k) := by
    rw [scalar, cInt_decimal]
    rfl
  rw [List.foldlM_cons, inList, step_comma, hscalar]
  exact h' rest

theorem reads_open :
    Reads ⟨.word acc, .head decls [.word "const".toList, .word type]⟩ "[] =\n\x7b\n".toList
      (some (inList decls type acc [] .fresh [])) :=
  fun _ => (rfl)

theorem reads_end (slot : Slot) (hslot : slot = .fresh ∨ slot = .closed) :
    Reads (inList decls type name items slot []) "\x7d;\n".toList
      (some (atHead (decls ++ [⟨type, name, items⟩]))) := by
  rcases hslot with rfl | rfl
  · exact fun _ => (rfl)
  · exact fun _ => (rfl)

def behind (isLast : Bool) : Slot := if isLast then .closed else .fresh

theorem reads_comma (isLast : Bool) :
    Reads (inList decls type name items .closed outer) (comma isLast)
      (some (inList decls type name items (behind isLast) outer)) := by
  cases isLast
  · exact fun _ => (rfl)
  · exact fun _ => (rfl)

section Name

theorem reads_comment : Reads (atHead decls) "\n// Define for AT".toList
    (some ⟨.line, .head decls []⟩) :=
  fun _ => (rfl)

theorem reads_nameHead : Reads (atHead decls)
    "const MBTKAT_PARAM_STRING_T    mbtkat_cmd_name_".toList
    (some ⟨.word "mbtkat_cmd_name_".toList, .head decls [.word "const".toList, .word STRING_T]⟩) :=
  fun _ => (rfl)

theorem reads_nameOpen :
    Reads ⟨.word acc, .head decls [.word "const".toList, .word type]⟩ "[] =\n\x7b\n    \x7b ".toList
      (some (inList decls type acc [] .fresh [⟨[], .fresh⟩])) :=
  fun _ => (rfl)

def castTokens : List Token :=
  [.punct '(', .word "const".toList, .word "uint8".toList, .punct '*', .punct ')']

theorem reads_cast : Reads (inList decls type name items .fresh outer) " (const uint8 *)\"".toList
    (some ⟨.string [], .body decls type name ⟨items, .pending castTokens⟩ outer⟩) :=
  fun _ => (rfl)

theorem reads_nameEnd {item : Init} : Reads
    ⟨.string acc, .body decls type name ⟨[item], .pending castTokens⟩ [⟨[], .fresh⟩]⟩
    "\" \x7d\n\x7d;\n".toList
    (some (atHead (decls ++ [⟨type, name, [.list [item, .string acc]]⟩]))) :=
  fun _ => (rfl)

theorem reads_nameText {line : Row} (h : GoodRow line) :
    Reads (atHead decls) (nameText line) (some (atHead (decls ++ [nameDecl line]))) := by
  have hname : ∀ c ∈ atName line, isWordChar c := fun c hc => isWordChar_of_upper (h.atName c hc)
  have hnewline : Reads ⟨.line, .head decls []⟩ "\n".toList (some (atHead decls)) :=
    fun _ => (rfl)
  refine reads_comment.append (.append (fun _ => read_line h.name) ?_)
  refine hnewline.append (reads_nameHead.append ?_)
  refine (reads_word hname _).append (reads_nameOpen.append ?_)
  change Reads _ (decimal _ ++ ',' :: (" (const uint8 *)\"".toList ++ _)) _
  refine reads_decimal (reads_cast.append ?_)
  exact .append (fun _ => read_string h.name) reads_nameEnd

end Name

section Params

theorem reads_underscore (p : Parse) :
    Reads ⟨.word acc, p⟩ "_".toList (some ⟨.word (acc ++ "_".toList), p⟩) :=
  reads_word (List.all_eq_true.mp rfl) p

theorem reads_index (k : ℕ) (p : Parse) :
    Reads ⟨.word acc, p⟩ (decimal k) (some ⟨.word (acc ++ decimal k), p⟩) :=
  reads_word (fun _ hc => isWordChar_of_upper
    (.inr (Nat.isDigit_of_mem_toDigits (by decide) (by decide) hc))) p

theorem reads_stringHead : Reads (atHead decls)
    "const MBTKAT_PARAM_STRING_T   mbtkat_param_string_".toList
    (some ⟨.word "mbtkat_param_string_".toList,
      .head decls [.word "const".toList, .word STRING_T]⟩) :=
  fun _ => (rfl)

theorem reads_stringOpen :
    Reads ⟨.word acc, .head decls [.word "const".toList, .word type]⟩
      "[] =\n\x7b\n    \x7b    ".toList (some (inList decls type acc [] .fresh [⟨[], .fresh⟩])) :=
  fun _ => (rfl)

theorem reads_stringEnd {item : Init} :
    Reads (inList decls type name [item] .fresh [⟨[], .fresh⟩]) "   NULL \x7d\n\x7d;\n".toList
      (some (atHead (decls ++ [⟨type, name, [.list [item, .name "NULL".toList]]⟩]))) :=
  fun _ => (rfl)

theorem reads_numericHead : Reads (atHead decls)
    "const MBTKAT_PARAM_NUMERIC_T   mbtkat_param_numeric_".toList
    (some ⟨.word "mbtkat_param_numeric_".toList,
      .head decls [.word "const".toList, .word NUMERIC_T]⟩) :=
  fun _ => (rfl)

theorem reads_pairOpen : Reads (inList decls type name items .fresh outer) "    \x7b    ".toList
    (some (inList decls type name [] .fresh (⟨items, .fresh⟩ :: outer))) :=
  fun _ => (rfl)

theorem reads_pairOpen_closed :
    Reads (inList decls type name items .closed outer) "    \x7b    ".toList none :=
  fun _ => (rfl)

theorem reads_pairText {low high : Text} {n m : ℤ} (hlow : pyInt low = some n)
    (hhigh : pyInt high = some m) (isLast : Bool) :
    Reads (inList decls type name items .fresh outer) (pairText low high isLast)
      ((cInt low).bind fun a => (cInt high).map fun b =>
        inList decls type name (items ++ [pairItem (a, b)]) (behind isLast) outer) := by
  refine reads_pairOpen.append ?_
  change Reads _ (low ++ ',' :: ("    ".toList ++ _)) _
  refine reads_int_comma hlow fun a => ?_
  refine .append (fun _ => read_spaces (List.all_eq_true.mp rfl)) ?_
  rw [← List.append_assoc]
  refine ((reads_int_close hhigh).bind fun b => reads_comma isLast).of_eq ?_
  cases cInt high <;> rfl

theorem reads_rangeText {piece : Text} (h : GoodRange piece) (isLast : Bool) :
    Reads (inList decls type name items .fresh outer) (rangeText piece isLast)
      ((rangeOf cInt piece).map fun r =>
        inList decls type name (items ++ [pairItem r]) (behind isLast) outer) := by
  unfold rangeText
  cases h with
  | single number n hsplit hn =>
    rw [hsplit, rangeOf_single cInt hsplit]
    refine (reads_pairText hn hn isLast).of_eq ?_
    cases cInt number <;> rfl
  | pair low high n m hsplit hn hm =>
    rw [hsplit, rangeOf_pair cInt hsplit]
    refine (reads_pairText hn hm isLast).of_eq ?_
    cases cInt low <;> cases cInt high <;> rfl

theorem reads_rangeText_closed {piece : Text} (h : GoodRange piece) (isLast : Bool) :
    Reads (inList decls type name items .closed outer) (rangeText piece isLast) none := by
  unfold rangeText
  cases h with
  | single number n hsplit =>
    rw [hsplit]
    exact reads_pairOpen_closed.none _
  | pair low high n m hsplit =>
    rw [hsplit]
    exact reads_pairOpen_closed.none _

theorem reads_rangesText {last : Text} {pieces : List Text} (hne : pieces ≠ [])
    (h : ∀ piece ∈ pieces, GoodRange piece) :
    Reads (inList decls type name items .fresh outer) (rangesText last pieces)
      ((rangeItems last pieces).map fun new =>
        inList decls type name (items ++ new) .closed outer) := by
  induction pieces generalizing items with
  | nil => exact absurd rfl hne
  | cons piece pieces ih =>
    have hpiece := h piece List.mem_cons_self
    have hpieces : ∀ other ∈ pieces, GoodRange other := fun other hother =>
      h other (List.mem_cons_of_mem _ hother)
    rw [rangesText, rangeItems]
    cases pieces with
    | nil =>
      refine ((reads_rangeText hpiece true).bind (g := fun r =>
        some (inList decls type name (items ++ [pairItem r]) .closed outer))
        fun _ _ => rfl).of_eq ?_
      rw [if_neg fun h => h.1 rfl, rangeItems]
      cases rangeOf cInt piece <;> rfl
    | cons next pieces =>
      by_cases hsame : sameObject piece last
      · rw [if_pos ⟨List.cons_ne_nil _ _, hsame⟩]
        have hclosed : Reads (inList decls type name items .fresh outer)
            (rangeText piece (next :: pieces = [] || sameObject piece last) ++
              rangesText last (next :: pieces)) ((rangeOf cInt piece).bind fun _ => none) := by
          refine (reads_rangeText hpiece _).bind fun r => ?_
          rw [hsame, Bool.or_true, rangesText]
          exact (reads_rangeText_closed (hpieces next List.mem_cons_self) _).none _
        exact hclosed.of_eq (by cases rangeOf cInt piece <;> rfl)
      · rw [if_neg fun h => hsame h.2]
        have hlast : (decide (next :: pieces = []) || sameObject piece last) = false := by
          simpa using hsame
        rw [hlast]
        refine ((reads_rangeText hpiece false).bind fun r =>
          ih (List.cons_ne_nil _ _) hpieces).of_eq ?_
        cases rangeOf cInt piece with
        | none => rfl
        | some r =>
          cases rangeItems last (next :: pieces) with
          | none => simp
          | some new => simp

theorem argRange_ne_nil (arg : Text) : argRange arg ≠ [] := List.splitOn_ne_nil _ _

theorem reads_paramText {arg : Text} {k : ℕ} {name : Text} (hname : ∀ c ∈ name, isWordChar c)
    (h : GoodArg arg) :
    Reads (atHead decls) (paramText name k arg)
      ((paramDecl name k arg).map fun decl => atHead (decls ++ [decl])) := by
  unfold paramText paramDecl
  cases h with
  | string n _ hstring htail hn =>
    rw [if_pos hstring, if_pos hstring, htail]
    refine reads_stringHead.append ((reads_word hname _).append ?_)
    refine (reads_underscore _).append ((reads_index k _).append (reads_stringOpen.append ?_))
    change Reads _ (slice arg 2 ++ ',' :: "   NULL \x7d\n\x7d;\n".toList) _
    refine (reads_int_comma hn fun n => reads_stringEnd).of_eq ?_
    cases cInt (slice arg 2) <;> rfl
  | numeric _ hstring hranges =>
    rw [hstring, if_neg Bool.false_ne_true, if_neg Bool.false_ne_true]
    refine reads_numericHead.append ((reads_word hname _).append ?_)
    refine (reads_underscore _).append ((reads_index k _).append (reads_open.append ?_))
    refine ((reads_rangesText (argRange_ne_nil arg) hranges).bind fun items =>
      reads_end .closed (.inr rfl)).of_eq ?_
    cases rangeItems _ (argRange arg) <;> rfl

theorem reads_paramsText {args : List Text} {k : ℕ} {name : Text}
    (hname : ∀ c ∈ name, isWordChar c) (h : ∀ arg ∈ args, GoodArg arg) :
    Reads (atHead decls) (paramsText name k args)
      ((paramDecls name k args).map fun new => atHead (decls ++ new)) := by
  induction args generalizing decls k with
  | nil =>
    intro rest
    rw [paramDecls, Option.map_some, List.append_nil]
    rfl
  | cons arg args ih =>
    rw [paramsText, paramDecls]
    refine ((reads_paramText hname (h arg List.mem_cons_self)).bind fun decl =>
      ih fun other hother => h other (List.mem_cons_of_mem _ hother)).of_eq ?_
    cases paramDecl name k arg with
    | none => rfl
    | some decl =>
      cases paramDecls name (k + 1) args with
      | none => simp
      | some new => simp

end Params

end Literals

end Mbtk.AtGenerator
