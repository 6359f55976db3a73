import Mathlib.Tactic

/-! Reading C: tokens, integer constants, and constant arrays with their initializers. -/

namespace Mbtk.Lib.CInit

abbrev Text := List Char

inductive Token
  | word (text : Text)
  | number (text : Text)
  | string (text : Text)
  | punct (c : Char)

section Tokens

def isSpace (c : Char) : Bool :=
  c = ' ' || c = '\n' || c = '\t' || c = '\r' || c = '\x0b' || c = '\x0c'

def isWordChar (c : Char) : Bool := c.isAlphanum || c = '_'

def isNumberChar (c : Char) : Bool := isWordChar c || c = '.'

/-- The characters that are tokens of their own. -/
def isPunct (c : Char) : Bool :=
  c ∈ [',', '\x7b', '\x7d', ';', '(', ')', '[', ']', '=', '.', '*', '+', '-']

def quote : Char := Char.ofNat 0x22
def backslash : Char := Char.ofNat 0x5C

/-- What the characters before belong to. -/
inductive Lex
  | start
  | word (acc : Text)
  | number (acc : Text)
  | string (acc : Text)
  | slash
  | line
  | block
  | blockStar

/-- A character behind a complete token, with the tokens that it completes. -/
def lexStart (c : Char) : Option (Lex × List Token) :=
  if isSpace c then some (.start, [])
  else if c.isDigit then some (.number [c], [])
  else if isWordChar c then some (.word [c], [])
  else if c = quote then some (.string [], [])
  else if c = '/' then some (.slash, [])
  else if c = '#' then some (.line, [])
  else if isPunct c then some (.start, [.punct c])
  else none

/-- One character.  Directives are skipped like comments, and no escapes are known. -/
def Lex.step : Lex → Char → Option (Lex × List Token)
  | .start, c => lexStart c
  | .word acc, c =>
    if isWordChar c then some (.word (acc ++ [c]), [])
    else (lexStart c).map fun r => (r.1, .word acc :: r.2)
  | .number acc, c =>
    if isNumberChar c then some (.number (acc ++ [c]), [])
    else (lexStart c).map fun r => (r.1, .number acc :: r.2)
  | .string acc, c =>
    if c = quote then some (.start, [.string acc])
    else if c = backslash ∨ c = '\n' then none
    else some (.string (acc ++ [c]), [])
  | .slash, c => if c = '/' then some (.line, []) else if c = '*' then some (.block, []) else none
  | .line, c =>
    if c = '\n' then some (.start, []) else if c = backslash then none else some (.line, [])
  | .block, c => some (if c = '*' then .blockStar else .block, [])
  | .blockStar, c =>
    some (if c = '/' then .start else if c = '*' then .blockStar else .block, [])

end Tokens

section Declarations

/-- The value of an integer constant: octal behind a leading 0. -/
def cNat : Text → Option ℕ
  | '0' :: text =>
    if text.all fun c => '0' ≤ c ∧ c ≤ '7' then some (Nat.ofDigitChars 8 text 0) else none
  | text => if text.all Char.isDigit then some (Nat.ofDigitChars 10 text 0) else none

/-- An initializer.  A designated one is a name behind the fields that lead to it. -/
inductive Init
  | int (n : ℤ)
  | string (text : Text)
  | name (text : Text)
  | field (path : List Text) (text : Text)
  | list (items : List Init)

/-- An initializer without braces. -/
def scalar : List Token → Option Init
  | [.number text] => (cNat text).map fun n => .int n
  | [.punct sign, .number text] =>
    if sign = '-' then (cNat text).map fun n => .int (-n)
    else if sign = '+' then (cNat text).map fun n => .int n
    else none
  | [.word text] => some (.name text)
  | [.punct '(', .word const, .word _, .punct '*', .punct ')', .string text] =>
    if const = "const".toList then some (.string text) else none
  | [.punct '.', .word field, .punct '.', .word field', .punct '=', .word text] =>
    some (.field [field, field'] text)
  | _ => none

/-- Where an initializer list stands: before an initializer, within one that has no braces, or
behind one that has. -/
inductive Slot
  | fresh
  | pending (tokens : List Token)
  | closed

structure Frame where
  items : List Init
  slot : Slot

/-- The initializers of a list that ends or goes on here. -/
def Frame.close (frame : Frame) : Option (List Init) :=
  match frame.slot with
  | .pending tokens => (scalar tokens).map fun item => frame.items ++ [item]
  -- A comma may stand behind the last initializer, and a list may be empty as in GNU C.
  | _ => some frame.items

/-- `const type name[] = {items};`. -/
structure Decl where
  type : Text
  name : Text
  items : List Init

/-- The declarations so far, with what is read of the next one. -/
inductive Parse
  | head (decls : List Decl) (tokens : List Token)
  | body (decls : List Decl) (type name : Text) (frame : Frame) (outer : List Frame)
  | ended (decls : List Decl)

/-- A token within the braces of a declaration. -/
def stepBody (decls : List Decl) (type name : Text) (frame : Frame) (outer : List Frame) :
    Token → Option Parse
  | .punct '\x7b' =>
    match frame.slot with
    | .fresh => some (.body decls type name ⟨[], .fresh⟩ (frame :: outer))
    | _ => none
  | .punct ',' =>
    match frame.slot with
    | .fresh => none
    | _ => frame.close.map fun items => .body decls type name ⟨items, .fresh⟩ outer
  | .punct '\x7d' =>
    frame.close.map fun items =>
      match outer with
      | [] => .ended (decls ++ [⟨type, name, items⟩])
      | parent :: outer => .body decls type name ⟨parent.items ++ [.list items], .closed⟩ outer
  | token =>
    match frame.slot with
    | .fresh => some (.body decls type name ⟨frame.items, .pending [token]⟩ outer)
    | .pending tokens =>
      some (.body decls type name ⟨frame.items, .pending (tokens ++ [token])⟩ outer)
    | .closed => none

def Parse.step : Parse → Token → Option Parse
  | .head decls tokens, token =>
    match tokens ++ [token] with
    | [.word const, .word type, .word name, .punct '[', .punct ']', .punct '=', .punct '\x7b'] =>
      if const = "const".toList then some (.body decls type name ⟨[], .fresh⟩ []) else none
    | tokens => if tokens.length < 7 then some (.head decls tokens) else none
  | .body decls type name frame outer, token => stepBody decls type name frame outer token
  | .ended decls, .punct ';' => some (.head decls [])
  | .ended _, _ => none

/-- The reader of a text. -/
structure Reader where
  lex : Lex
  parse : Parse

def Reader.step (r : Reader) (c : Char) : Option Reader := do
  let (lex, tokens) ← r.lex.step c
  let parse ← tokens.foldlM Parse.step r.parse
  return ⟨lex, parse⟩

/-- A text can end only behind a declaration. -/
def Reader.finish : Reader → Option (List Decl)
  | ⟨.start, .head decls []⟩ => some decls
  | _ => none

def read (text : Text) : Option (List Decl) :=
  (text.foldlM Reader.step ⟨.start, .head [] []⟩).bind Reader.finish

end Declarations

section Constants

theorem ofDigitChars_concat (b : ℕ) (l : Text) (c : Char) :
    Nat.ofDigitChars b (l ++ [c]) 0 = b * Nat.ofDigitChars b l 0 + (c.toNat - '0'.toNat) := by
  rw [Nat.ofDigitChars_append, Nat.ofDigitChars_cons, Nat.ofDigitChars_nil]

theorem le_seven_iff {c : Char} (h : c.isDigit) :
    ('0' ≤ c ∧ c ≤ '7') ↔ c.toNat - '0'.toNat < 8 := by
  have hle : c ≤ '7' ↔ c.toNat ≤ 55 := by
    rw [Char.le_def, UInt32.le_iff_toNat_le]
    rfl
  have hge : '0' ≤ c ↔ 48 ≤ c.toNat := by
    rw [Char.le_def, UInt32.le_iff_toNat_le]
    rfl
  have hdigit : 48 ≤ c.toNat := hge.mp (of_decide_eq_true (Bool.and_eq_true_iff.mp h).1)
  rw [hle, hge]
  change _ ↔ c.toNat - 48 < 8
  omega

/-- A decimal number below 8 has octal digits only, and reads the same in octal. -/
theorem octal_of_lt {l : Text} (hl : l.all Char.isDigit) (h : Nat.ofDigitChars 10 l 0 < 8) :
    (l.all fun c => '0' ≤ c ∧ c ≤ '7') ∧ Nat.ofDigitChars 8 l 0 = Nat.ofDigitChars 10 l 0 := by
  induction l using List.reverseRecOn with
  | nil => exact ⟨rfl, rfl⟩
  | append_singleton l c ih =>
    rw [List.all_append, Bool.and_eq_true, List.all_cons, List.all_nil, Bool.and_true] at hl
    rw [ofDigitChars_concat] at h
    obtain ⟨hall, heq⟩ := ih hl.1 (by omega)
    have hc := (le_seven_iff hl.2).mpr (by omega)
    refine ⟨?_, ?_⟩
    · rw [List.all_append, hall, List.all_cons, decide_eq_true hc]
      rfl
    · rw [ofDigitChars_concat, ofDigitChars_concat, heq]
      omega

/-- From 8 on, octal digits stand for less than the same digits in decimal. -/
theorem octal_lt {l : Text} (hl : l.all Char.isDigit)
    (hoctal : l.all fun c => '0' ≤ c ∧ c ≤ '7') :
    Nat.ofDigitChars 8 l 0 ≤ Nat.ofDigitChars 10 l 0 ∧
      (8 ≤ Nat.ofDigitChars 10 l 0 → Nat.ofDigitChars 8 l 0 < Nat.ofDigitChars 10 l 0) := by
  induction l using List.reverseRecOn with
  | nil => exact ⟨Nat.le_refl _, fun h => by cases h⟩
  | append_singleton l c ih =>
    rw [List.all_append, Bool.and_eq_true, List.all_cons, List.all_nil, Bool.and_true] at hl hoctal
    obtain ⟨hle, -⟩ := ih hl.1 hoctal.1
    have hc := (le_seven_iff hl.2).mp (by simpa using hoctal.2)
    rw [ofDigitChars_concat, ofDigitChars_concat]
    omega

/-- Digits mean in C what they mean in decimal unless a leading 0 makes 8 or more of them. -/
theorem cNat_eq_iff {l : Text} (hl : l.all Char.isDigit) :
    cNat l = some (Nat.ofDigitChars 10 l 0) ↔
      (l.head? = some '0' → Nat.ofDigitChars 10 l 0 < 8) := by
  unfold cNat
  split
  case h_1 text =>
    have htext : text.all Char.isDigit := by
      rw [List.all_cons, Bool.and_eq_true] at hl
      exact hl.2
    have hzero (b : ℕ) : Nat.ofDigitChars b ('0' :: text) 0 = Nat.ofDigitChars b text 0 := by
      rw [Nat.ofDigitChars_cons]
      rfl
    rw [hzero, List.head?_cons]
    constructor
    · intro h _
      split_ifs at h with hoctal
      have hlt := (octal_lt htext hoctal).2
      by_contra hge
      exact absurd (Option.some.inj h) (hlt (by omega)).ne
    · intro h
      obtain ⟨hoctal, heq⟩ := octal_of_lt htext (h rfl)
      rw [if_pos hoctal, heq]
  case h_2 hne =>
    rw [if_pos hl]
    refine iff_of_true rfl fun hhead => ?_
    obtain ⟨text, rfl⟩ : ∃ text, l = '0' :: text := by
      cases l with
      | nil => cases hhead
      | cons c text =>
        cases hhead
        exact ⟨text, rfl⟩
    exact absurd rfl (hne text)

theorem head_toDigits {n : ℕ} (h : (Nat.toDigits 10 n).head? = some '0') : n = 0 := by
  induction n using Nat.strongRecOn with
  | ind n ih =>
    rw [Nat.toDigits_eq_if (by decide)] at h
    split_ifs at h with hlt
    · interval_cases n <;> first | rfl | exact absurd h (by decide)
    · rw [List.head?_append_of_ne_nil _ Nat.toDigits_ne_nil] at h
      have := ih (n / 10) (by omega) h
      omega

/-- A number that is written without a leading 0 reads back. -/
theorem cNat_toDigits (n : ℕ) : cNat (Nat.toDigits 10 n) = some n := by
  have hdigits : (Nat.toDigits 10 n).all Char.isDigit :=
    List.all_eq_true.mpr fun c hc => Nat.isDigit_of_mem_toDigits (by decide) (by decide) hc
  have h := (cNat_eq_iff hdigits).mpr fun hhead => by
    rw [Nat.ofDigitChars_ten_toDigits, head_toDigits hhead]
    decide
  rwa [Nat.ofDigitChars_ten_toDigits] at h

end Constants

section Reading

variable {p : Parse} {c : Char} {text rest acc : Text}

/-- Characters that the reader collects one by one. -/
theorem read_run (state : Text → Reader)
    (h : ∀ c ∈ text, ∀ acc, (state acc).step c = some (state (acc ++ [c]))) (acc : Text) :
    (text ++ rest).foldlM Reader.step (state acc) =
      rest.foldlM Reader.step (state (acc ++ text)) := by
  induction text generalizing acc with
  | nil => rw [List.nil_append, List.append_nil]
  | cons c text ih =>
    rw [List.cons_append, List.foldlM_cons, h c List.mem_cons_self acc]
    refine (ih (fun c hc => h c (List.mem_cons_of_mem _ hc)) (acc ++ [c])).trans ?_
    rw [List.append_assoc, List.singleton_append]

/-- Spaces between tokens. -/
theorem read_spaces (h : ∀ c ∈ text, isSpace c) :
    (text ++ rest).foldlM Reader.step ⟨.start, p⟩ = rest.foldlM Reader.step ⟨.start, p⟩ := by
  refine read_run (fun _ => ⟨.start, p⟩) (fun c hc _ => ?_) []
  simp [Reader.step, Lex.step, lexStart, h c hc]

/-- The characters within a word. -/
theorem read_word (h : ∀ c ∈ text, isWordChar c) :
    (text ++ rest).foldlM Reader.step ⟨.word acc, p⟩ =
      rest.foldlM Reader.step ⟨.word (acc ++ text), p⟩ := by
  refine read_run (fun acc => ⟨.word acc, p⟩) (fun c hc acc => ?_) acc
  simp [Reader.step, Lex.step, h c hc]

theorem ne_of_plain {d : Char} (h : isWordChar c ∨ c = '+') (hd : isWordChar d = false)
    (hplus : d ≠ '+') : c ≠ d := by
  rintro rfl
  rcases h with hc | hc
  · exact absurd (hc.symm.trans hd) (by decide)
  · exact hplus hc

theorem read_string (h : ∀ c ∈ text, isWordChar c ∨ c = '+') :
    (text ++ rest).foldlM Reader.step ⟨.string acc, p⟩ =
      rest.foldlM Reader.step ⟨.string (acc ++ text), p⟩ := by
  refine read_run (fun acc => ⟨.string acc, p⟩) (fun c hc acc => ?_) acc
  have hquote : c ≠ quote := ne_of_plain (h c hc) (by decide) (by decide)
  have hbackslash : c ≠ backslash := ne_of_plain (h c hc) (by decide) (by decide)
  have hnewline : c ≠ '\n' := ne_of_plain (h c hc) (by decide) (by decide)
  simp [Reader.step, Lex.step, hquote, hbackslash, hnewline]

theorem read_line (h : ∀ c ∈ text, isWordChar c ∨ c = '+') :
    (text ++ rest).foldlM Reader.step ⟨.line, p⟩ = rest.foldlM Reader.step ⟨.line, p⟩ := by
  refine read_run (fun _ => ⟨.line, p⟩) (fun c hc _ => ?_) []
  have hbackslash : c ≠ backslash := ne_of_plain (h c hc) (by decide) (by decide)
  have hnewline : c ≠ '\n' := ne_of_plain (h c hc) (by decide) (by decide)
  simp [Reader.step, Lex.step, hbackslash, hnewline]

theorem isNumberChar_of_isDigit (h : c.isDigit) : isNumberChar c := by
  simp [isNumberChar, isWordChar, Char.isAlphanum, h]

theorem lexStart_digit (h : c.isDigit) : lexStart c = some (.number [c], []) := by
  have hspace (d : Char) (hd : d.isDigit = false) : c ≠ d := by
    rintro rfl
    exact absurd (h.symm.trans hd) (by decide)
  unfold lexStart isSpace
  simp [h, hspace ' ' (by decide), hspace '\n' (by decide), hspace '\t' (by decide),
    hspace '\r' (by decide), hspace '\x0b' (by decide), hspace '\x0c' (by decide)]

theorem read_number (h : ∀ c ∈ text, isNumberChar c) :
    (text ++ rest).foldlM Reader.step ⟨.number acc, p⟩ =
      rest.foldlM Reader.step ⟨.number (acc ++ text), p⟩ := by
  refine read_run (fun acc => ⟨.number acc, p⟩) (fun c hc acc => ?_) acc
  simp [Reader.step, Lex.step, h c hc]

/-- A character that ends a number. -/
theorem step_number (h : isNumberChar c = false) :
    Reader.step ⟨.number acc, p⟩ c =
      (p.step (.number acc)).bind fun p => Reader.step ⟨.start, p⟩ c := by
  unfold Reader.step Lex.step
  simp only [h, Bool.false_eq_true, if_false]
  cases lexStart c with
  | none => cases p.step (.number acc) <;> rfl
  | some r => cases hp : p.step (.number acc) <;> simp [List.foldlM_cons, hp]

/-- Digits up to a character that ends them. -/
theorem read_digits (hne : text ≠ []) (h : ∀ c ∈ text, c.isDigit) (hc : isNumberChar c = false) :
    (text ++ c :: rest).foldlM Reader.step ⟨.start, p⟩ =
      (p.step (.number text)).bind fun p => (c :: rest).foldlM Reader.step ⟨.start, p⟩ := by
  cases text with
  | nil => exact absurd rfl hne
  | cons d text =>
    have hstep : Reader.step ⟨.start, p⟩ d = some ⟨.number [d], p⟩ := by
      simp [Reader.step, Lex.step, lexStart_digit (h d List.mem_cons_self)]
    rw [List.cons_append, List.foldlM_cons, hstep]
    refine (read_number fun c hc =>
      isNumberChar_of_isDigit (h c (List.mem_cons_of_mem _ hc))).trans ?_
    rw [List.foldlM_cons, step_number hc, List.singleton_append]
    cases p.step (.number (d :: text)) <;> rfl

theorem step_punct (h : lexStart c = some (.start, [.punct c])) :
    Reader.step ⟨.start, p⟩ c = (p.step (.punct c)).map fun p => ⟨.start, p⟩ := by
  unfold Reader.step Lex.step
  simp only [h]
  cases hp : p.step (.punct c) <;> simp [hp]

variable {decls : List Decl} {type name : Text} {items : List Init} {outer : List Frame}
  {tokens : List Token} {parent : Frame}

theorem close_pending :
    Frame.close ⟨items, .pending tokens⟩ = (scalar tokens).map fun item => items ++ [item] := rfl

theorem step_comma :
    Reader.step ⟨.start, .body decls type name ⟨items, .pending tokens⟩ outer⟩ ',' =
      (scalar tokens).map fun item =>
        ⟨.start, .body decls type name ⟨items ++ [item], .fresh⟩ outer⟩ := by
  have hbody : (Parse.body decls type name ⟨items, .pending tokens⟩ outer).step (.punct ',') =
      (Frame.close ⟨items, .pending tokens⟩).map fun items =>
        .body decls type name ⟨items, .fresh⟩ outer := rfl
  rw [step_punct rfl, hbody, close_pending, Option.map_map, Option.map_map]
  rfl

theorem step_close :
    Reader.step ⟨.start, .body decls type name ⟨items, .pending tokens⟩ (parent :: outer)⟩ '\x7d' =
      (scalar tokens).map fun item => ⟨.start, .body decls type name
        ⟨parent.items ++ [.list (items ++ [item])], .closed⟩ outer⟩ := by
  have hbody : (Parse.body decls type name ⟨items, .pending tokens⟩ (parent :: outer)).step
        (.punct '\x7d') =
      (Frame.close ⟨items, .pending tokens⟩).map fun items =>
        .body decls type name ⟨parent.items ++ [.list items], .closed⟩ outer := rfl
  rw [step_punct rfl, hbody, close_pending, Option.map_map, Option.map_map]
  rfl

/-- What the reader makes of a text in one state, in front of any other text. -/
def Reads (r : Reader) (text : Text) (r' : Option Reader) : Prop :=
  ∀ rest, (text ++ rest).foldlM Reader.step r = r'.bind fun r' => rest.foldlM Reader.step r'

theorem Reads.append {r r' : Reader} {text text' : Text} {r'' : Option Reader}
    (h : Reads r text (some r')) (h' : Reads r' text' r'') : Reads r (text ++ text') r'' := by
  intro rest
  rw [List.append_assoc, h]
  exact h' rest

theorem Reads.bind {α : Type} {r : Reader} {text text' : Text} {x : Option α} {f : α → Reader}
    {g : α → Option Reader} (h : Reads r text (x.map f)) (h' : ∀ a, Reads (f a) text' (g a)) :
    Reads r (text ++ text') (x.bind g) := by
  intro rest
  rw [List.append_assoc, h]
  cases x with
  | none => rfl
  | some a => exact h' a rest

theorem Reads.cons {α : Type} {r : Reader} {c : Char} {text : Text} {x : Option α}
    {f : α → Reader} {g : α → Option Reader} (h : r.step c = x.map f)
    (h' : ∀ a, Reads (f a) text (g a)) : Reads r (c :: text) (x.bind g) := by
  intro rest
  rw [List.cons_append, List.foldlM_cons, h]
  cases x with
  | none => rfl
  | some a => exact h' a rest

theorem Reads.of_eq {r : Reader} {text : Text} {r' r'' : Option Reader} (h : Reads r text r')
    (heq : r' = r'') : Reads r text r'' :=
  heq ▸ h

/-- A text that is read as a whole. -/
theorem Reads.read {text : Text} {x : Option (List Decl)}
    (h : Reads ⟨.start, .head [] []⟩ text (x.map fun decls => ⟨.start, .head decls []⟩)) :
    read text = x := by
  have hall := h []
  rw [List.append_nil] at hall
  rw [CInit.read, hall]
  cases x <;> rfl

theorem Reads.none {r : Reader} {text : Text} (h : Reads r text .none) (text' : Text) :
    Reads r (text ++ text') .none := by
  intro rest
  rw [List.append_assoc, h]
  rfl

theorem reads_word {text : Text} (h : ∀ c ∈ text, isWordChar c) (p : Parse) :
    Reads ⟨.word acc, p⟩ text (some ⟨.word (acc ++ text), p⟩) :=
  fun _ => read_word h

end Reading

end Mbtk.Lib.CInit
