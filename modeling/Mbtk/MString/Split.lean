import Mathlib.Tactic

namespace Mbtk.MString

/-- `str_indexof`, with `none` for -1. -/
def strIndexof (subStr : List UInt8) : List UInt8 → Option ℕ
  | [] => if subStr = [] then some 0 else none
  | c :: str =>
    if subStr.isPrefixOf (c :: str) then some 0 else (strIndexof subStr str).map (· + 1)

/-- The loop of `str_contains_count`, with the rest of the string from `position` on. -/
def strContainsCountLoop (subStr : List UInt8) : ℕ → List UInt8 → ℕ
  | 0, _ => 0
  | fuel + 1, rest =>
    if rest = [] then 0
    else match strIndexof subStr rest with
      | none => 0
      | some temp => strContainsCountLoop subStr fuel (rest.drop (temp + subStr.length)) + 1

def strContainsCount (str subStr : List UInt8) : ℕ :=
  if str = [] ∨ subStr = [] then 0 else strContainsCountLoop subStr (str.length + 1) str

/-- The pieces that `str_split_by_string` stores one after another, the last of them behind
its loop. -/
def strSplitLoop (regex : List UInt8) : ℕ → List UInt8 → List (List UInt8)
  | 0, rest => [rest]
  | fuel + 1, rest =>
    if rest = [] then [rest]
    else match strIndexof regex rest with
      | none => [rest]
      | some temp => rest.take temp :: strSplitLoop regex fuel (rest.drop (temp + regex.length))

/-- `str_split_by_string`, with `none` for NULL.  The array that it returns starts
`count + 1` places before the NULL behind the last piece. -/
def strSplitByString (str regex : List UInt8) : Option (List (List UInt8)) :=
  if str = [] ∨ regex = [] then none
  else
    let count := strContainsCount str regex
    if count = 0 then none
    else
      let result := strSplitLoop regex (str.length + 1) str
      some (result.drop (result.length - (count + 1)))

variable {str subStr regex : List UInt8}

theorem length_strSplitLoop (regex : List UInt8) (fuel : ℕ) (rest : List UInt8) :
    (strSplitLoop regex fuel rest).length = strContainsCountLoop regex fuel rest + 1 := by
  induction fuel generalizing rest with
  | zero => rfl
  | succ fuel ih =>
    unfold strSplitLoop strContainsCountLoop
    by_cases h : rest = []
    · rw [if_pos h, if_pos h]
      rfl
    · rw [if_neg h, if_neg h]
      cases strIndexof regex rest with
      | none => rfl
      | some temp =>
        dsimp only
        rw [List.length_cons, ih]

theorem length_le_of_mem_strSplitLoop {fuel : ℕ} {rest piece : List UInt8}
    (h : piece ∈ strSplitLoop regex fuel rest) : piece.length ≤ rest.length := by
  induction fuel generalizing rest with
  | zero =>
    rw [List.mem_singleton.mp h]
  | succ fuel ih =>
    unfold strSplitLoop at h
    split_ifs at h with hnil
    · rw [List.mem_singleton.mp h]
    · cases hidx : strIndexof regex rest with
      | none =>
        rw [hidx] at h
        rw [List.mem_singleton.mp h]
      | some temp =>
        rw [hidx] at h
        obtain rfl | h := List.mem_cons.mp h
        · exact List.length_take_le' temp rest
        · exact (ih h).trans (by rw [List.length_drop]; omega)

theorem subset_of_mem_strSplitLoop {fuel : ℕ} {rest piece : List UInt8}
    (h : piece ∈ strSplitLoop regex fuel rest) : piece ⊆ rest := by
  induction fuel generalizing rest with
  | zero =>
    rw [List.mem_singleton.mp h]
    exact List.Subset.refl _
  | succ fuel ih =>
    unfold strSplitLoop at h
    split_ifs at h with hnil
    · rw [List.mem_singleton.mp h]
      exact List.Subset.refl _
    · cases hidx : strIndexof regex rest with
      | none =>
        rw [hidx] at h
        rw [List.mem_singleton.mp h]
        exact List.Subset.refl _
      | some temp =>
        rw [hidx] at h
        obtain rfl | h := List.mem_cons.mp h
        · exact List.take_subset temp rest
        · exact List.Subset.trans (ih h) (List.drop_subset _ rest)

theorem strSplitByString_eq {argv : List (List UInt8)}
    (h : strSplitByString str regex = some argv) :
    argv = strSplitLoop regex (str.length + 1) str ∧
      argv.length = strContainsCount str regex + 1 := by
  unfold strSplitByString at h
  dsimp only at h
  split_ifs at h with hnil
  have hlen : (strSplitLoop regex (str.length + 1) str).length =
      strContainsCount str regex + 1 := by
    rw [length_strSplitLoop, strContainsCount, if_neg hnil]
  have hargv := Option.some.inj h
  rw [hlen, Nat.sub_self, List.drop_zero] at hargv
  exact ⟨hargv.symm, by rw [← hargv, hlen]⟩

theorem length_le_of_strSplitByString {argv : List (List UInt8)} {piece : List UInt8}
    (h : strSplitByString str regex = some argv) (hp : piece ∈ argv) :
    piece.length ≤ str.length := by
  rw [(strSplitByString_eq h).1] at hp
  exact length_le_of_mem_strSplitLoop hp

theorem subset_of_strSplitByString {argv : List (List UInt8)} {piece : List UInt8}
    (h : strSplitByString str regex = some argv) (hp : piece ∈ argv) : piece ⊆ str := by
  rw [(strSplitByString_eq h).1] at hp
  exact subset_of_mem_strSplitLoop hp

section Join

variable {c : UInt8} {words : List (List UInt8)}

theorem strIndexof_singleton_of_notMem {str : List UInt8} (h : c ∉ str) :
    strIndexof [c] str = none := by
  induction str with
  | nil => rfl
  | cons a str ih =>
    have ha : c ≠ a := List.ne_of_not_mem_cons h
    have hstr : c ∉ str := List.not_mem_of_not_mem_cons h
    have hpre : ¬ [c].isPrefixOf (a :: str) = true := by simpa [List.isPrefixOf] using ha
    rw [strIndexof, if_neg hpre, ih hstr, Option.map_none]

theorem strIndexof_singleton {word : List UInt8} (h : c ∉ word) (rest : List UInt8) :
    strIndexof [c] (word ++ c :: rest) = some word.length := by
  induction word with
  | nil => simp [strIndexof, List.isPrefixOf]
  | cons a word ih =>
    have ha : c ≠ a := List.ne_of_not_mem_cons h
    have hword : c ∉ word := List.not_mem_of_not_mem_cons h
    have hpre : ¬ [c].isPrefixOf (a :: (word ++ c :: rest)) = true := by
      simpa [List.isPrefixOf] using ha
    rw [List.cons_append, strIndexof, if_neg hpre, ih hword, Option.map_some, List.length_cons]

theorem strSplitLoop_intercalate {fuel : ℕ} (hfuel : words.length ≤ fuel + 1) (hne : words ≠ [])
    (h : ∀ word ∈ words, c ∉ word) : strSplitLoop [c] fuel ([c].intercalate words) = words := by
  induction words generalizing fuel with
  | nil => exact absurd rfl hne
  | cons word words ih =>
    obtain ⟨hword, hwords⟩ := List.forall_mem_cons.mp h
    obtain _ | ⟨word', words⟩ := words
    · rw [List.intercalate_singleton]
      cases fuel with
      | zero => rfl
      | succ fuel =>
        rw [strSplitLoop, strIndexof_singleton_of_notMem hword]
        split_ifs <;> rfl
    · obtain _ | fuel := fuel
      · simp at hfuel
      · have hjoin : [c].intercalate (word :: word' :: words) =
            word ++ c :: [c].intercalate (word' :: words) := by
          rw [List.intercalate_cons_cons, List.append_assoc, List.singleton_append]
        rw [hjoin, strSplitLoop, if_neg (by simp), strIndexof_singleton hword]
        dsimp only
        rw [List.length_singleton, List.take_left, List.drop_append,
          List.drop_of_length_le (by omega),
          Nat.add_sub_cancel_left, List.nil_append, List.drop_one, List.tail_cons,
          ih (by simpa using hfuel) (by simp) hwords]

theorem length_le_length_intercalate (c : UInt8) (words : List (List UInt8)) :
    words.length ≤ ([c].intercalate words).length + 1 := by
  induction words with
  | nil => exact Nat.zero_le _
  | cons word words ih =>
    obtain _ | ⟨word', words⟩ := words
    · simp
    · rw [List.intercalate_cons_cons, List.length_append, List.length_append, List.length_cons,
        List.length_singleton]
      omega

theorem strSplitByString_intercalate (h2 : 2 ≤ words.length) (h : ∀ word ∈ words, c ∉ word) :
    strSplitByString ([c].intercalate words) [c] = some words := by
  have hne : words ≠ [] := by
    rintro rfl
    simp at h2
  have hlen := length_le_length_intercalate c words
  have hloop : strSplitLoop [c] (([c].intercalate words).length + 1) ([c].intercalate words) =
      words :=
    strSplitLoop_intercalate (by omega) hne h
  have hcount :=
    length_strSplitLoop [c] (([c].intercalate words).length + 1) ([c].intercalate words)
  rw [hloop] at hcount
  have hnil : ¬ ([c].intercalate words = [] ∨ [c] = []) := by
    rintro (h | h)
    · rw [h, List.length_nil] at hlen
      omega
    · simp at h
  unfold strSplitByString
  rw [if_neg hnil, strContainsCount, if_neg hnil, hloop]
  dsimp only
  rw [if_neg (by omega), ← hcount, Nat.sub_self, List.drop_zero]

end Join

end Mbtk.MString
