import Mbtk.AtGenerator.Tables

namespace Mbtk.AtGenerator

open Lib.CInit

variable {s rest : Text} {n : ℤ} {c : Char}

structure IntParts (s before sign between digits behind : Text) : Prop where
  text : s = before ++ (sign ++ (between ++ (digits ++ behind)))
  before : ∀ c ∈ before, isSpace c
  between : ∀ c ∈ between, isSpace c
  behind : ∀ c ∈ behind, isSpace c
  sign : sign = [] ∨ sign = ['-'] ∨ sign = ['+']
  nonempty : digits ≠ []
  digits : ∀ c ∈ digits, c.isDigit

def signOf (s : Text) : Text := s.filter fun c => c = '-' || c = '+'
def digitsOf (s : Text) : Text := s.filter Char.isDigit

def signed (sign : Text) (n : ℕ) : ℤ := if sign = ['-'] then -n else n

theorem takeWhile_dropWhile_space (s : Text) :
    ∃ ws, (∀ c ∈ ws, isSpace c) ∧ s = ws ++ s.dropWhile isSpace :=
  ⟨s.takeWhile isSpace, List.all_eq_true.mp List.all_takeWhile,
    List.takeWhile_append_dropWhile.symm⟩

theorem pyInt_parts (h : pyInt s = some n) : ∃ before sign between digits behind,
    IntParts s before sign between digits behind ∧
      n = signed sign (Nat.ofDigitChars 10 digits 0) := by
  obtain ⟨before, hbefore, hs⟩ := takeWhile_dropWhile_space s
  obtain ⟨s₁, hs₁⟩ : ∃ s₁, s₁ = s.dropWhile isSpace := ⟨_, rfl⟩
  obtain ⟨sign, s₂, hsplit, hsign, hhead, hs₂⟩ : ∃ sign s₂, s₁ = sign ++ s₂ ∧
      (sign = [] ∨ sign = ['-'] ∨ sign = ['+']) ∧ (sign = ['-'] ↔ s₁.head? = some '-') ∧
      (if s₁.head? = some '-' ∨ s₁.head? = some '+' then s₁.tail else s₁) = s₂ := by
    cases s₁ with
    | nil => exact ⟨[], [], rfl, .inl rfl, by simp, rfl⟩
    | cons c s₁ =>
      by_cases hminus : c = '-'
      · subst hminus
        exact ⟨['-'], s₁, rfl, .inr (.inl rfl), by simp, rfl⟩
      · by_cases hplus : c = '+'
        · subst hplus
          exact ⟨['+'], s₁, rfl, .inr (.inr rfl), by simp, rfl⟩
        · exact ⟨[], c :: s₁, rfl, .inl rfl, by simp [hminus], by simp [hminus, hplus]⟩
  obtain ⟨between, hbetween, hs₂'⟩ := takeWhile_dropWhile_space s₂
  obtain ⟨s₃, hs₃⟩ : ∃ s₃, s₃ = s₂.dropWhile isSpace := ⟨_, rfl⟩
  unfold pyInt at h
  simp only [← hs₁, hs₂, ← hs₃] at h
  split at h
  case isTrue => cases h
  case isFalse hbad =>
    rw [not_or, Bool.not_eq_false] at hbad
    refine ⟨before, sign, between, s₃.takeWhile Char.isDigit, s₃.dropWhile Char.isDigit, ⟨?_,
      hbefore, hbetween, List.all_eq_true.mp hbad.2, hsign, hbad.1,
      List.all_eq_true.mp List.all_takeWhile⟩, ?_⟩
    · rw [List.takeWhile_append_dropWhile, hs₃, ← hs₂', ← hsplit, hs₁, ← hs]
    · rw [← Option.some.inj h, signed]
      simp only [hhead]

theorem not_isDigit_of_isSpace (h : isSpace c) : c.isDigit = false := by
  simp only [isSpace, Bool.or_eq_true, decide_eq_true_eq] at h
  rcases h with ((((rfl | rfl) | rfl) | rfl) | rfl) | rfl <;> decide

theorem not_sign_of_isSpace (h : isSpace c) : (c = '-' || c = '+') = false := by
  simp only [isSpace, Bool.or_eq_true, decide_eq_true_eq] at h
  rcases h with ((((rfl | rfl) | rfl) | rfl) | rfl) | rfl <;> decide

theorem not_sign_of_isDigit (h : c.isDigit) : (c = '-' || c = '+') = false := by
  rw [Bool.or_eq_false_iff, decide_eq_false_iff_not, decide_eq_false_iff_not]
  constructor
  · rintro rfl
    cases h
  · rintro rfl
    cases h

theorem filter_eq_nil_of {p : Char → Bool} {text : Text} (h : ∀ c ∈ text, p c = false) :
    text.filter p = [] :=
  List.filter_eq_nil_iff.mpr fun c hc => by simp [h c hc]

section Parts

variable {before sign between digits behind : Text}

theorem IntParts.digitsOf (h : IntParts s before sign between digits behind) :
    digitsOf s = digits := by
  unfold AtGenerator.digitsOf
  rw [h.text]
  simp only [List.filter_append]
  rw [filter_eq_nil_of fun c hc => not_isDigit_of_isSpace (h.before c hc),
    filter_eq_nil_of fun c hc => not_isDigit_of_isSpace (h.between c hc),
    filter_eq_nil_of fun c hc => not_isDigit_of_isSpace (h.behind c hc),
    List.filter_eq_self.mpr h.digits]
  rcases h.sign with rfl | rfl | rfl <;> simp [Char.isDigit]

theorem IntParts.signOf (h : IntParts s before sign between digits behind) :
    signOf s = sign := by
  unfold AtGenerator.signOf
  rw [h.text]
  simp only [List.filter_append]
  rw [filter_eq_nil_of fun c hc => not_sign_of_isSpace (h.before c hc),
    filter_eq_nil_of fun c hc => not_sign_of_isSpace (h.between c hc),
    filter_eq_nil_of fun c hc => not_sign_of_isSpace (h.behind c hc),
    filter_eq_nil_of fun c hc => not_sign_of_isDigit (h.digits c hc)]
  rcases h.sign with rfl | rfl | rfl <;> simp

end Parts

def intTokens (s : Text) : List Token := (signOf s).map .punct ++ [.number (digitsOf s)]
def cInt (s : Text) : Option ℤ := (cNat (digitsOf s)).map (signed (signOf s))

theorem scalar_intTokens (h : pyInt s = some n) : scalar (intTokens s) = (cInt s).map .int := by
  obtain ⟨before, sign, between, digits, behind, hparts, -⟩ := pyInt_parts h
  unfold intTokens cInt
  rw [hparts.signOf, hparts.digitsOf]
  rcases hparts.sign with rfl | rfl | rfl <;> cases hcNat : cNat digits <;>
    simp [scalar, signed, hcNat]

theorem cInt_eq_iff (h : pyInt s = some n) : cInt s = some n ↔ Plain s := by
  obtain ⟨before, sign, between, digits, behind, hparts, rfl⟩ := pyInt_parts h
  have hfilter : s.filter Char.isDigit = digits := hparts.digitsOf
  unfold Plain cInt
  rw [hfilter, hparts.signOf, hparts.digitsOf,
    ← cNat_eq_iff (List.all_eq_true.mpr hparts.digits)]
  cases cNat digits with
  | none => simp
  | some m =>
    have hinj : signed sign m = signed sign (Nat.ofDigitChars 10 digits 0) ↔
        m = Nat.ofDigitChars 10 digits 0 := by
      unfold signed
      split_ifs <;> omega
    simp [hinj]

theorem cInt_decimal (k : ℕ) : cNat (decimal k) = some k := cNat_toDigits k

section Read

variable {decls : List Decl} {type name : Text} {items : List Init} {outer : List Frame}

theorem read_int (h : pyInt s = some n) (hc : isNumberChar c = false) :
    (s ++ c :: rest).foldlM Reader.step ⟨.start, .body decls type name ⟨items, .fresh⟩ outer⟩ =
      (c :: rest).foldlM Reader.step
        ⟨.start, .body decls type name ⟨items, .pending (intTokens s)⟩ outer⟩ := by
  obtain ⟨before, sign, between, digits, behind, hparts, -⟩ := pyInt_parts h
  have hend : ∃ c' rest', behind ++ c :: rest = c' :: rest' ∧ isNumberChar c' = false := by
    cases hbehind : behind with
    | nil => exact ⟨c, rest, rfl, hc⟩
    | cons c' behind =>
      refine ⟨c', behind ++ c :: rest, rfl, ?_⟩
      have hspace := hparts.behind c' (hbehind ▸ List.mem_cons_self)
      simp only [isSpace, Bool.or_eq_true, decide_eq_true_eq] at hspace
      rcases hspace with ((((rfl | rfl) | rfl) | rfl) | rfl) | rfl <;> decide
  obtain ⟨c', rest', hrest, hc'⟩ := hend
  have hdigits (slot : Slot) (tokens : List Token)
      (hslot : (Parse.body decls type name ⟨items, slot⟩ outer).step (.number digits) =
        some (.body decls type name ⟨items, .pending tokens⟩ outer)) :
      (between ++ (digits ++ (behind ++ c :: rest))).foldlM Reader.step
        ⟨.start, .body decls type name ⟨items, slot⟩ outer⟩ =
      (c :: rest).foldlM Reader.step
        ⟨.start, .body decls type name ⟨items, .pending tokens⟩ outer⟩ := by
    rw [read_spaces hparts.between, hrest, read_digits hparts.nonempty hparts.digits hc', hslot,
      ← hrest]
    exact read_spaces hparts.behind
  unfold intTokens
  rw [hparts.signOf, hparts.digitsOf, hparts.text]
  simp only [List.append_assoc]
  rw [read_spaces hparts.before]
  rcases hparts.sign with rfl | rfl | rfl
  · exact hdigits .fresh _ rfl
  · exact hdigits (.pending [.punct '-']) _ rfl
  · exact hdigits (.pending [.punct '+']) _ rfl

end Read

end Mbtk.AtGenerator
