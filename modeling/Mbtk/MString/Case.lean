import Mbtk.MString.Replace

namespace Mbtk.MString

open Lib

namespace CInt

/-- `strlen` from an address on, with all that stands in memory there. -/
def strlen (memory : List UInt8) : Option ℕ :=
  if 0 ∈ memory then some (memory.idxOf 0) else none

/-- `tolower` of the C locale. -/
def tolower (c : UInt8) : UInt8 := if 0x41 ≤ c ∧ c ≤ 0x5A then c + 0x20 else c

/-- `toupper` of the C locale. -/
def toupper (c : UInt8) : UInt8 := if 0x61 ≤ c ∧ c ≤ 0x7A then c - 0x20 else c

/-- The loop of `str_tolower` and `str_toupper`, and the NUL behind it. -/
def convertLoop (f : UInt8 → UInt8) : List UInt8 → ℕ → List UInt8 → Option (List UInt8)
  | [], temp, dest => copyInto dest temp [0]
  | c :: src, temp, dest => do
    let dest ← copyInto dest temp [f c]
    convertLoop f src (temp + 1) dest

/-- `str_tolower` and `str_toupper`, with the destination afterwards.  Behind the destination stands
`after`. -/
def convert (f : UInt8 → UInt8) (src dest after : List UInt8) (len : ℕ) :
    Option (Returned × List UInt8) := do
  let old ← strlen (dest ++ after)
  if len < old + 1 then return (.null, dest)
  let dest ← convertLoop f src 0 dest
  return (.dest, dest)

def strTolower (src dest after : List UInt8) (len : ℕ) : Option (Returned × List UInt8) :=
  convert tolower src dest after len

def strToupper (src dest after : List UInt8) (len : ℕ) : Option (Returned × List UInt8) :=
  convert toupper src dest after len

/-- `str_startwith`, with `none` for NULL. -/
def strStartwith : Option (List UInt8) → Option (List UInt8) → Bool
  | some str, some pre =>
    if str.length < pre.length then false else MString.strIndexof pre str == some 0
  | _, _ => false

def Returned.string : Returned → List UInt8 → Option (List UInt8)
  | .null, _ => none
  | .empty, _ => some []
  | .dest, memory => some (memory.takeWhile (· ≠ 0))

/-- A block of `malloc`, and what stands behind it. -/
structure Block where
  bytes : List UInt8
  after : List UInt8

/-- `str_startwith_ignorecase`, with the two blocks that it gets. -/
def strStartwithIgnorecase (str pre : List UInt8) (strLower preLower : Block) : Option Bool :=
  if str.length < pre.length then some false
  else do
    let (s, strLower) ← strTolower str strLower.bytes strLower.after (str.length + 1)
    let (p, preLower) ← strTolower pre preLower.bytes preLower.after (pre.length + 1)
    return strStartwith (s.string strLower) (p.string preLower)

section Convert

variable {f : UInt8 → UInt8} {src dest after w : List UInt8} {len : ℕ}

theorem strlen_eq_none : strlen dest = none ↔ 0 ∉ dest := by
  unfold strlen
  split_ifs with h <;> simp [h]

theorem strlen_lt_length_iff {n : ℕ} (h : strlen (dest ++ after) = some n) :
    n < dest.length ↔ 0 ∈ dest := by
  unfold strlen at h
  split_ifs at h with hmem
  rw [← Option.some.inj h]
  by_cases hdest : 0 ∈ dest
  · rw [List.idxOf_append_of_mem hdest]
    exact iff_of_true (List.idxOf_lt_length_of_mem hdest) hdest
  · rw [List.idxOf_append_of_notMem hdest]
    exact iff_of_false (by omega) hdest

theorem convertLoop_append (h : (w ++ src).length < dest.length) :
    convertLoop f src w.length (w ++ dest.drop w.length) =
      some (w ++ src.map f ++ [0] ++ dest.drop ((w ++ src).length + 1)) := by
  induction src generalizing w with
  | nil =>
    rw [List.append_nil] at h ⊢
    have hone : [(0 : UInt8)].length ≤ (dest.drop w.length).length := by
      rw [List.length_drop, List.length_singleton]
      omega
    rw [convertLoop, copyInto_append hone, List.drop_drop, List.map_nil, List.append_nil,
      List.length_singleton]
  | cons c src ih =>
    have hlen : (w ++ c :: src).length = (w ++ [f c] ++ src).length := by simp
    have hone : [f c].length ≤ (dest.drop w.length).length := by
      rw [List.length_append, List.length_cons] at h
      rw [List.length_drop, List.length_singleton]
      omega
    rw [hlen] at h ⊢
    have hnext := ih h
    rw [List.length_append, List.length_singleton] at hnext
    rw [convertLoop, copyInto_append hone, List.drop_drop, List.length_singleton]
    simp only [Option.bind_eq_bind, Option.bind_some]
    rw [hnext, List.map_cons]
    simp

theorem length_of_convertLoop {temp : ℕ} {dest' : List UInt8}
    (h : convertLoop f src temp dest = some dest') : temp + src.length < dest.length := by
  induction src generalizing temp dest with
  | nil =>
    by_contra hlen
    rw [List.length_nil] at hlen
    have hnone : copyInto dest temp [0] = none :=
      copyInto_eq_none.mpr (by rw [List.length_singleton]; omega)
    rw [convertLoop, hnone] at h
    simp at h
  | cons c src ih =>
    rw [convertLoop] at h
    obtain ⟨dest'', hcopy, h⟩ := Option.bind_eq_some_iff.mp h
    have hlt := ih h
    rw [length_copyInto hcopy] at hlt
    rw [List.length_cons]
    omega

theorem convertLoop_eq_none_iff : convertLoop f src 0 dest = none ↔ dest.length ≤ src.length := by
  constructor
  · intro hnone
    by_contra hlen
    have hroom : ([] ++ src).length < dest.length := by simpa using hlen
    have h := convertLoop_append (f := f) hroom
    rw [List.length_nil, List.nil_append, List.drop_zero, hnone] at h
    exact absurd h (by simp)
  · intro hlen
    cases h : convertLoop f src 0 dest with
    | none => rfl
    | some dest' => exact absurd (length_of_convertLoop h) (by omega)

theorem convert_of_notMem (h : 0 ∉ dest) (hafter : 0 ∈ after) :
    convert f src dest after dest.length = some (.null, dest) := by
  obtain ⟨n, hn⟩ : ∃ n, strlen (dest ++ after) = some n :=
    ⟨_, if_pos (List.mem_append_right _ hafter)⟩
  have hlt := (strlen_lt_length_iff hn).not.mpr h
  rw [convert, hn]
  simp only [Option.bind_eq_bind, Option.bind_some]
  exact if_pos (by omega)

theorem convert_of_mem (h : 0 ∈ dest) :
    convert f src dest after dest.length = (convertLoop f src 0 dest).map fun d => (.dest, d) := by
  obtain ⟨n, hn⟩ : ∃ n, strlen (dest ++ after) = some n :=
    ⟨_, if_pos (List.mem_append_left _ h)⟩
  have hlt := (strlen_lt_length_iff hn).mpr h
  rw [convert, hn]
  simp only [Option.bind_eq_bind, Option.bind_some]
  rw [if_neg (by omega), Option.map_eq_bind]
  rfl

theorem convert_of_strlen_none (h : 0 ∉ dest ++ after) : convert f src dest after len = none := by
  rw [convert, strlen_eq_none.mpr h]
  rfl

end Convert

section Prefix

variable {str pre : List UInt8} {strLower preLower : Block}

/-- The answer is whether the one string begins with the other one, in lower case. -/
def Answers (str pre : List UInt8) (answer : Option Bool) : Prop :=
  answer = some (decide (pre.map tolower <+: str.map tolower))

/-- A block of the length that `str_startwith_ignorecase` asks for. -/
def Block.Holds (block : Block) (s : List UInt8) : Prop := block.bytes.length = s.length + 1

/-- From both blocks on there is a NUL.  If a block itself has none, the right answer is no. -/
def Harmless (str pre : List UInt8) (strLower preLower : Block) : Prop :=
  0 ∈ strLower.bytes ++ strLower.after ∧ 0 ∈ preLower.bytes ++ preLower.after ∧
    ((0 ∈ strLower.bytes ∧ 0 ∈ preLower.bytes) ∨ ¬ pre.map tolower <+: str.map tolower)

/-- A block without a NUL. -/
def garbage (s : List UInt8) : Block := ⟨List.replicate (s.length + 1) 1, []⟩

theorem tolower_eq_zero_iff (c : UInt8) : tolower c = 0 ↔ c = 0 := by
  unfold tolower
  split_ifs with h
  · have hle := UInt8.le_iff_toNat_le.mp h.1
    have hge := UInt8.le_iff_toNat_le.mp h.2
    refine iff_of_false (fun hzero => ?_) (fun hzero => ?_)
    · have hnat := congrArg UInt8.toNat hzero
      rw [UInt8.toNat_add] at hnat
      simp at hle hge hnat
      omega
    · rw [hzero] at hle
      simp at hle
  · exact Iff.rfl

theorem notMem_map_tolower (h : 0 ∉ str) : 0 ∉ str.map tolower := by
  intro hmem
  obtain ⟨c, hc, hzero⟩ := List.mem_map.mp hmem
  rw [(tolower_eq_zero_iff c).mp hzero] at hc
  exact h hc

theorem strTolower_of_mem (hzero : 0 ∉ str) (hlen : strLower.Holds str)
    (h : 0 ∈ strLower.bytes) :
    ∃ dest, strTolower str strLower.bytes strLower.after (str.length + 1) = some (.dest, dest) ∧
      Returned.dest.string dest = some (str.map tolower) := by
  have hfit : ([] ++ str).length < strLower.bytes.length := by
    rw [List.nil_append, hlen]
    exact Nat.lt_succ_self _
  have hloop := convertLoop_append (f := tolower) hfit
  have hend : strLower.bytes.drop (str.length + 1) = [] :=
    List.drop_eq_nil_of_le (le_of_eq hlen)
  rw [List.length_nil, List.nil_append, List.nil_append, List.nil_append, List.drop_zero, hend,
    List.append_nil] at hloop
  refine ⟨str.map tolower ++ [0], ?_, ?_⟩
  · rw [strTolower, ← hlen, convert_of_mem h, hloop]
    rfl
  · have hno : ∀ c ∈ str.map tolower, decide (c ≠ 0) = true := by
      intro c hc
      simpa using ne_of_mem_of_not_mem hc (notMem_map_tolower hzero)
    rw [Returned.string, List.takeWhile_append_of_pos hno]
    simp

theorem strTolower_of_notMem (hlen : strLower.Holds str) (h : 0 ∉ strLower.bytes)
    (hafter : 0 ∈ strLower.after) :
    strTolower str strLower.bytes strLower.after (str.length + 1) =
      some (.null, strLower.bytes) := by
  rw [strTolower, ← hlen]
  exact convert_of_notMem h hafter

theorem strTolower_of_strlen_none (h : 0 ∉ strLower.bytes ++ strLower.after) (len : ℕ) :
    strTolower str strLower.bytes strLower.after len = none := convert_of_strlen_none h

theorem exists_strTolower (hzero : 0 ∉ str) (hlen : strLower.Holds str)
    (h : 0 ∈ strLower.bytes ++ strLower.after) :
    ∃ r dest, strTolower str strLower.bytes strLower.after (str.length + 1) = some (r, dest) ∧
      r.string dest = if 0 ∈ strLower.bytes then some (str.map tolower) else none := by
  split_ifs with hmem
  · obtain ⟨dest, hrun, hstring⟩ := strTolower_of_mem hzero hlen hmem
    exact ⟨.dest, dest, hrun, hstring⟩
  · have hafter := (List.mem_append.mp h).resolve_left hmem
    exact ⟨.null, strLower.bytes, strTolower_of_notMem hlen hmem hafter, rfl⟩

theorem strStartwith_eq (h : pre.length ≤ str.length) :
    strStartwith (some str) (some pre) = decide (pre <+: str) := by
  rw [strStartwith, if_neg (not_lt.mpr h), Bool.eq_iff_iff, beq_iff_eq,
    strIndexof_eq_zero_iff, decide_eq_true_iff]

theorem strStartwithIgnorecase_of_lt (h : str.length < pre.length) :
    strStartwithIgnorecase str pre strLower preLower = some false := if_pos h

theorem answers_of_lt (h : str.length < pre.length) :
    Answers str pre (strStartwithIgnorecase str pre strLower preLower) := by
  rw [strStartwithIgnorecase_of_lt h, Answers, Option.some_inj, eq_comm, decide_eq_false_iff_not]
  intro hpre
  have hle := hpre.length_le
  rw [List.length_map, List.length_map] at hle
  omega

theorem strStartwithIgnorecase_eq_none (h : pre.length ≤ str.length)
    (hno : 0 ∉ strLower.bytes ++ strLower.after ∨ 0 ∉ preLower.bytes ++ preLower.after) :
    strStartwithIgnorecase str pre strLower preLower = none := by
  rw [strStartwithIgnorecase, if_neg (not_lt.mpr h)]
  obtain hno | hno := hno
  · rw [strTolower_of_strlen_none hno]
    rfl
  · rw [strTolower_of_strlen_none hno]
    cases strTolower str strLower.bytes strLower.after (str.length + 1) <;> rfl

theorem strStartwithIgnorecase_eq (hzero : 0 ∉ str) (hzero' : 0 ∉ pre) (h : pre.length ≤ str.length)
    (hstr : strLower.Holds str) (hpre : preLower.Holds pre)
    (hmem : 0 ∈ strLower.bytes ++ strLower.after) (hmem' : 0 ∈ preLower.bytes ++ preLower.after) :
    strStartwithIgnorecase str pre strLower preLower =
      some (strStartwith (if 0 ∈ strLower.bytes then some (str.map tolower) else none)
        (if 0 ∈ preLower.bytes then some (pre.map tolower) else none)) := by
  obtain ⟨s, dest, hs, hstring⟩ := exists_strTolower hzero hstr hmem
  obtain ⟨p, dest', hp, hstring'⟩ := exists_strTolower hzero' hpre hmem'
  rw [strStartwithIgnorecase, if_neg (not_lt.mpr h), hs, hp, ← hstring, ← hstring']
  rfl

theorem strStartwith_null (s p : Option (List UInt8)) (h : s = none ∨ p = none) :
    strStartwith s p = false := by
  obtain rfl | rfl := h
  · rfl
  · cases s <;> rfl

theorem answers_iff_of_le (hzero : 0 ∉ str) (hzero' : 0 ∉ pre) (h : pre.length ≤ str.length)
    (hstr : strLower.Holds str) (hpre : preLower.Holds pre) :
    Answers str pre (strStartwithIgnorecase str pre strLower preLower) ↔
      Harmless str pre strLower preLower := by
  by_cases hmem : 0 ∈ strLower.bytes ++ strLower.after ∧ 0 ∈ preLower.bytes ++ preLower.after
  · rw [strStartwithIgnorecase_eq hzero hzero' h hstr hpre hmem.1 hmem.2, Harmless,
      iff_true_intro hmem.1, iff_true_intro hmem.2, true_and, true_and]
    by_cases hand : 0 ∈ strLower.bytes ∧ 0 ∈ preLower.bytes
    · have hle : (pre.map tolower).length ≤ (str.map tolower).length := by simpa using h
      rw [if_pos hand.1, if_pos hand.2, strStartwith_eq hle]
      exact iff_of_true rfl (.inl hand)
    · have hfalse : strStartwith (if 0 ∈ strLower.bytes then some (str.map tolower) else none)
          (if 0 ∈ preLower.bytes then some (pre.map tolower) else none) = false := by
        obtain hs | hp := not_and_or.mp hand
        · rw [if_neg hs]
          exact strStartwith_null _ _ (.inl rfl)
        · rw [if_neg hp]
          exact strStartwith_null _ _ (.inr rfl)
      rw [hfalse, or_iff_right hand, Answers, Option.some_inj, eq_comm, decide_eq_false_iff_not]
  · have hnone := strStartwithIgnorecase_eq_none h (not_and_or.mp hmem)
    rw [hnone]
    exact iff_of_false (by simp [Answers]) fun hharm => hmem ⟨hharm.1, hharm.2.1⟩

/-- No garbage changes the answer exactly if the second string is the longer one.  With given blocks
the answer is right exactly if they are harmless. -/
theorem answers_iff (str pre : List UInt8) (hzero : 0 ∉ str) (hzero' : 0 ∉ pre) :
    ((∀ strLower preLower : Block, strLower.Holds str → preLower.Holds pre →
        Answers str pre (strStartwithIgnorecase str pre strLower preLower)) ↔
      str.length < pre.length) ∧
    ∀ strLower preLower : Block, strLower.Holds str → preLower.Holds pre →
      (Answers str pre (strStartwithIgnorecase str pre strLower preLower) ↔
        str.length < pre.length ∨ Harmless str pre strLower preLower) := by
  refine ⟨⟨fun hall => ?_, fun hlt _ _ _ _ => answers_of_lt hlt⟩, fun b b' hb hb' => ?_⟩
  · by_contra hle
    have hstr : (garbage str).Holds str := List.length_replicate
    have hpre : (garbage pre).Holds pre := List.length_replicate
    have hharm := (answers_iff_of_le hzero hzero' (not_lt.mp hle) hstr hpre).mp (hall _ _ hstr hpre)
    simpa [garbage, List.mem_replicate] using hharm.1
  · by_cases hlt : str.length < pre.length
    · exact iff_of_true (answers_of_lt hlt) (.inl hlt)
    · rw [answers_iff_of_le hzero hzero' (not_lt.mp hlt) hb hb', or_iff_right hlt]

theorem answers_ab_a : Answers [0x41, 0x62] [0x61]
    (strStartwithIgnorecase [0x41, 0x62] [0x61] ⟨[0x78, 0, 0x78], []⟩ ⟨[0x78, 0], []⟩) :=
  ((answers_iff [0x41, 0x62] [0x61] (by decide) (by decide)).2 ⟨[0x78, 0, 0x78], []⟩ ⟨[0x78, 0], []⟩
    rfl rfl).mpr
    (.inr ⟨by decide, by decide, .inl ⟨by decide, by decide⟩⟩)

/-- `"Ab"` begins with `"a"`.  With the letter `x` in every place of the first block, and a NUL
behind it, the answer is no. -/
theorem not_answers_garbage :
    ¬ ∀ strLower preLower : Block, strLower.Holds [0x41, 0x62] → preLower.Holds [0x61] →
      Answers [0x41, 0x62] [0x61]
        (strStartwithIgnorecase [0x41, 0x62] [0x61] strLower preLower) := by
  intro hall
  have h := hall ⟨[0x78, 0x78, 0x78], [0]⟩ ⟨[0, 0], []⟩ rfl rfl
  exact absurd h (by unfold Answers; decide)

end Prefix

end CInt

end Mbtk.MString
