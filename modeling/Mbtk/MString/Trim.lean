import Mathlib.Data.List.DropRight
import Mbtk.MString.Case

namespace Mbtk.MString

open Lib

namespace CInt

/-- The characters that `str_trim` removes. -/
def isBlank (c : UInt8) : Bool := c == 0x20 || c == 0x09 || c == 0x0A || c == 0x0D

/-- The loop from the end of the copy.  `tmp` points to the character before position `n`; in front
of the block there is nothing to read. -/
def trimTail : ℕ → List UInt8 → Option (List UInt8)
  | 0, _ => none
  | n + 1, block => do
    let c ← block[n]?
    if isBlank c then trimTail n (block.set n 0) else some block

/-- The loop from the start, over what is left of the copy from `tmp` on. -/
def trimHead : List UInt8 → ℕ → Option ℕ
  | [], _ => none
  | c :: block, tmp => if isBlank c then trimHead block (tmp + 1) else some tmp

def memcpyFrom (block : List UInt8) (i : ℤ) (n : ℕ) : Option (List UInt8) :=
  if 0 ≤ i ∧ i.toNat + n ≤ block.length then some ((block.drop i.toNat).take n) else none

def strTrim (str result : List UInt8) (len : ℕ) : Option (Returned × List UInt8) :=
  if len < str.length + 1 then some (.null, result)
  else if str = [] then some (.empty, result)
  else do
    let resultTmp := str ++ [0]
    let resultTmp ← trimTail str.length resultTmp
    let tmp ← trimHead resultTmp 0
    let i := toInt tmp
    let n ← strlen (resultTmp.drop tmp)
    let result ← copyInto result 0 (List.replicate (n + 1) 0)
    let xs ← memcpyFrom resultTmp i n
    let result ← copyInto result 0 xs
    return (.dest, result)

/-- The string without the blanks around it. -/
def trimmed (str : List UInt8) : List UInt8 := (str.dropWhile isBlank).rdropWhile isBlank

/-- Into every buffer with room for the string `str_trim` stores what is left of it and a NUL. -/
def Trims (str : List UInt8) : Prop :=
  ∀ result : List UInt8, str.length + 1 ≤ result.length →
    ∃ returned result', strTrim str result result.length = some (returned, result') ∧
      trimmed str ++ [0] <+: result'

variable {str block : List UInt8} {n : ℕ}

theorem trimTail_append (str block : List UInt8) :
    trimTail str.length (str ++ block) =
      if str.all isBlank then none
      else some (str.rdropWhile isBlank ++
        List.replicate (str.rtakeWhile isBlank).length 0 ++ block) := by
  induction str using List.reverseRecOn generalizing block with
  | nil => simp [trimTail]
  | append_singleton str c ih =>
    have hget : (str ++ [c] ++ block)[str.length]? = some c := by simp
    have hset : (str ++ [c] ++ block).set str.length 0 = str ++ 0 :: block := by simp
    rw [List.length_append, List.length_singleton, trimTail, hget]
    simp only [Option.bind_eq_bind, Option.bind_some]
    by_cases hc : isBlank c
    · have hall : (str ++ [c]).all isBlank = str.all isBlank := by
        rw [List.all_append, List.all_cons, hc, List.all_nil, Bool.and_true, Bool.and_true]
      rw [if_pos hc, hset, ih, List.rdropWhile_concat_pos _ _ _ hc,
        List.rtakeWhile_concat_pos _ _ _ hc]
      simp only [hall, List.length_append, List.length_singleton, List.replicate_succ',
        List.append_assoc, List.singleton_append]
    · have hall : ¬ (str ++ [c]).all isBlank := fun h =>
        hc (List.all_eq_true.mp h c (by simp))
      rw [if_neg hc, if_neg hall, List.rdropWhile_concat_neg _ _ _ hc,
        List.rtakeWhile_concat_neg _ _ _ hc]
      simp

theorem trimHead_append {a : List UInt8} (ha : ∀ c ∈ a, isBlank c) {c : UInt8}
    (hc : isBlank c = false) (block : List UInt8) (tmp : ℕ) :
    trimHead (a ++ c :: block) tmp = some (tmp + a.length) := by
  induction a generalizing tmp with
  | nil => simp [trimHead, hc]
  | cons d a ih =>
    obtain ⟨hd, ha⟩ := List.forall_mem_cons.mp ha
    rw [List.cons_append, trimHead, if_pos hd, ih ha, List.length_cons, add_assoc, add_comm 1]

theorem rdropWhile_append {p : UInt8 → Bool} {a b : List UInt8} (h : ∃ c ∈ b, p c = false) :
    (a ++ b).rdropWhile p = a ++ b.rdropWhile p := by
  have hne : (b.reverse.dropWhile p).isEmpty ≠ true := by
    obtain ⟨c, hc, hpc⟩ := h
    rw [List.isEmpty_iff.ne, Ne, List.dropWhile_eq_nil_iff, not_forall]
    exact ⟨c, by simp [hc, hpc]⟩
  rw [List.rdropWhile, List.reverse_append, List.dropWhile_append, if_neg hne, List.reverse_append,
    List.reverse_reverse, List.rdropWhile]

theorem exists_trimmed (h : ∃ c ∈ str, isBlank c = false) :
    ∃ c rest, trimmed str = c :: rest ∧ isBlank c = false ∧
      str.rdropWhile isBlank = str.takeWhile isBlank ++ trimmed str := by
  have hmem : ∃ c ∈ str.dropWhile isBlank, isBlank c = false := by
    obtain ⟨c, hc, hblank⟩ := h
    rw [← List.takeWhile_append_dropWhile (p := isBlank) (l := str), List.mem_append] at hc
    refine ⟨c, hc.resolve_left fun hmem => ?_, hblank⟩
    exact absurd (List.mem_takeWhile_imp hmem) (by simp [hblank])
  have hsplit : str.rdropWhile isBlank = str.takeWhile isBlank ++ trimmed str := by
    rw [trimmed, ← rdropWhile_append hmem, List.takeWhile_append_dropWhile]
  have hne : trimmed str ≠ [] := by
    rw [trimmed, Ne, List.rdropWhile_eq_nil_iff]
    obtain ⟨c, hc, hblank⟩ := hmem
    exact fun hall => absurd (hall c hc) (by simp [hblank])
  obtain ⟨c, rest, hcons⟩ := List.exists_cons_of_ne_nil hne
  refine ⟨c, rest, hcons, ?_, hsplit⟩
  -- the first character that is left is the one that stopped `dropWhile`
  have hpre : c :: rest <+: str.dropWhile isBlank := hcons ▸ List.rdropWhile_prefix ..
  obtain ⟨rest', hrest'⟩ := hpre
  have hhead := List.head_dropWhile_not isBlank (l := str) (by rw [← hrest']; simp)
  simpa [← hrest'] using hhead

theorem trimmed_subset (str : List UInt8) : trimmed str ⊆ str :=
  List.Subset.trans (List.IsPrefix.subset <| List.rdropWhile_prefix ..)
    (List.dropWhile_suffix _).subset

def trimmedCopy (str : List UInt8) : List UInt8 :=
  str.takeWhile isBlank ++ (trimmed str ++
    List.replicate ((str.rtakeWhile isBlank).length + 1) 0)

theorem length_trimmedCopy (h : ∃ c ∈ str, isBlank c = false) :
    (trimmedCopy str).length = str.length + 1 := by
  obtain ⟨c, rest, -, -, hsplit⟩ := exists_trimmed h
  have hlen := congrArg List.length (List.rdropWhile_append_rtakeWhile (p := isBlank) (l := str))
  rw [hsplit] at hlen
  simp only [trimmedCopy, List.length_append, List.length_replicate] at hlen ⊢
  omega

theorem strlen_append_replicate {xs : List UInt8} (h : 0 ∉ xs) (n : ℕ) :
    strlen (xs ++ List.replicate (n + 1) 0) = some xs.length := by
  have hmem : 0 ∈ xs ++ List.replicate (n + 1) 0 := by simp
  rw [strlen, if_pos hmem, List.idxOf_append_of_notMem h, List.replicate_succ, List.idxOf_cons_self,
    add_zero]

theorem strTrim_eq {result : List UInt8} (h : ∃ c ∈ str, isBlank c = false) (hzero : 0 ∉ str)
    (hlen : str.length + 1 ≤ result.length) :
    strTrim str result result.length =
      (memcpyFrom (trimmedCopy str) (toInt (str.takeWhile isBlank).length)
        (trimmed str).length).bind fun xs =>
          (copyInto (List.replicate ((trimmed str).length + 1) 0 ++
            result.drop ((trimmed str).length + 1)) 0 xs).map fun result => (.dest, result) := by
  have hne : str ≠ [] := by
    obtain ⟨c, hc, -⟩ := h
    exact List.ne_nil_of_mem hc
  have hall : ¬ ∀ c ∈ str, isBlank c := by
    obtain ⟨c, hc, hblank⟩ := h
    exact fun hall => absurd (hall c hc) (by simp [hblank])
  obtain ⟨c, rest, hcons, hc, hsplit⟩ := exists_trimmed h
  have htail : trimTail str.length (str ++ [0]) = some (trimmedCopy str) := by
    rw [trimTail_append, if_neg (List.all_eq_true.not.mpr hall), hsplit, trimmedCopy,
      List.replicate_succ']
    simp only [List.append_assoc]
  have hhead : trimHead (trimmedCopy str) 0 = some (str.takeWhile isBlank).length := by
    rw [trimmedCopy, hcons, List.cons_append,
      trimHead_append (fun _ => List.mem_takeWhile_imp) hc, Nat.zero_add]
  have hstrlen : strlen ((trimmedCopy str).drop (str.takeWhile isBlank).length) =
      some (trimmed str).length := by
    rw [trimmedCopy, List.drop_left,
      strlen_append_replicate fun hmem => hzero (trimmed_subset str hmem)]
  have hfit := length_trimmedCopy h
  rw [trimmedCopy, List.length_append, List.length_append, List.length_replicate] at hfit
  have hmemset : copyInto result 0 (List.replicate ((trimmed str).length + 1) 0) =
      some (List.replicate ((trimmed str).length + 1) 0 ++
        result.drop ((trimmed str).length + 1)) := by
    rw [copyInto_zero (by rw [List.length_replicate]; omega), List.length_replicate]
  rw [strTrim, if_neg (by omega), if_neg hne]
  dsimp only
  rw [htail, Option.bind_eq_bind, Option.bind_some, hhead, Option.bind_eq_bind, Option.bind_some,
    hstrlen, Option.bind_some, hmemset, Option.bind_some]
  refine congrArg _ (funext fun xs => ?_)
  rw [Option.map_eq_bind]
  rfl

theorem trims_of_lt (h : ∃ c ∈ str, isBlank c = false) (hzero : 0 ∉ str)
    (hlt : (str.takeWhile isBlank).length < 2 ^ 31) : Trims str := by
  intro result hlen
  have hfit := length_trimmedCopy h
  have hcopy : memcpyFrom (trimmedCopy str) (toInt (str.takeWhile isBlank).length)
      (trimmed str).length = some (trimmed str) := by
    rw [trimmedCopy, List.length_append, List.length_append] at hfit
    have hbound : (str.takeWhile isBlank).length + (trimmed str).length ≤
        (trimmedCopy str).length := by
      rw [trimmedCopy, List.length_append, List.length_append]
      omega
    rw [toInt_of_lt (Int.natCast_nonneg _) (by exact_mod_cast hlt), memcpyFrom, Int.toNat_natCast,
      if_pos ⟨Int.natCast_nonneg _, hbound⟩, trimmedCopy, List.drop_left, List.take_left]
  refine ⟨.dest, trimmed str ++ [0] ++ result.drop ((trimmed str).length + 1), ?_,
    List.prefix_append _ _⟩
  have hroom : (trimmed str).length ≤ (List.replicate ((trimmed str).length + 1) 0 ++
      result.drop ((trimmed str).length + 1)).length := by
    rw [List.length_append, List.length_replicate]
    omega
  have hle : (trimmed str).length ≤
      (List.replicate ((trimmed str).length + 1) (0 : UInt8)).length := by
    rw [List.length_replicate]
    exact Nat.le_succ _
  rw [strTrim_eq h hzero hlen, hcopy, Option.bind_some, copyInto_zero hroom,
    List.drop_append_of_le_length hle, List.drop_replicate, Nat.add_sub_cancel_left,
    List.replicate_one, List.append_assoc]
  rfl

theorem lt_of_trims (h : ∃ c ∈ str, isBlank c = false) (hzero : 0 ∉ str) (htrims : Trims str) :
    (str.takeWhile isBlank).length < 2 ^ 31 := by
  obtain ⟨returned, result', hrun, hpre⟩ :=
    htrims (List.replicate (str.length + 1) 0) (le_of_eq List.length_replicate.symm)
  rw [strTrim_eq h hzero (le_of_eq List.length_replicate.symm)] at hrun
  obtain ⟨xs, hxs, hrun⟩ := Option.bind_eq_some_iff.mp hrun
  obtain ⟨result, hcopy, hrun⟩ := Option.map_eq_some_iff.mp hrun
  obtain rfl := (Prod.mk.inj hrun).2
  obtain ⟨c, rest, hcons, hc, -⟩ := exists_trimmed h
  unfold memcpyFrom at hxs
  split_ifs at hxs with hi
  by_contra hlt
  have hwrapped := toInt_lt (str.takeWhile isBlank).length
  have hi' : (toInt (str.takeWhile isBlank).length).toNat < (str.takeWhile isBlank).length := by
    omega
  have hblank : isBlank (str.takeWhile isBlank)[(toInt (str.takeWhile isBlank).length).toNat] :=
    List.mem_takeWhile_imp (List.getElem_mem hi')
  have hfirst : xs[0]? =
      some (str.takeWhile isBlank)[(toInt (str.takeWhile isBlank).length).toNat] := by
    rw [← Option.some.inj hxs, List.getElem?_take_of_lt (by rw [hcons]; simp), List.getElem?_drop,
      Nat.add_zero, trimmedCopy, List.getElem?_append_left hi', List.getElem?_eq_getElem hi']
  have hstored : result[0]? = xs[0]? := by
    unfold copyInto at hcopy
    split_ifs at hcopy
    rw [← Option.some.inj hcopy, List.take_zero, List.nil_append,
      List.getElem?_append_left (List.getElem?_eq_some_iff.mp hfirst).1]
  have hc' : result[0]? = some c := by
    obtain ⟨t, ht⟩ := hpre
    rw [← ht, hcons]
    rfl
  rw [hstored, hfirst] at hc'
  rw [Option.some.inj hc', hc] at hblank
  exact absurd hblank (by decide)

theorem not_trims_of_forall (h : ∀ c ∈ str, isBlank c) : ¬ Trims str := by
  intro htrims
  obtain ⟨returned, result', hrun, hpre⟩ :=
    htrims (List.replicate (str.length + 1) 1) (le_of_eq List.length_replicate.symm)
  rw [strTrim, List.length_replicate, if_neg (lt_irrefl _)] at hrun
  have htrimmed : trimmed str = [] := by
    rw [trimmed, List.dropWhile_eq_nil_iff.mpr h, List.rdropWhile_nil]
  split_ifs at hrun with hnil
  · obtain rfl := (Prod.mk.inj (Option.some.inj hrun)).2
    rw [htrimmed, hnil] at hpre
    simp at hpre
  · have htail : trimTail str.length (str ++ [0]) = none := by
      rw [trimTail_append, if_pos (List.all_eq_true.mpr h)]
    simp [htail] at hrun

/-- `str_trim` is right exactly for the strings with another character than blanks in them, and not
2 gigabytes of blanks in front of it. -/
theorem trims_iff (str : List UInt8) (hzero : 0 ∉ str) :
    Trims str ↔ (∃ c ∈ str, isBlank c = false) ∧ (str.takeWhile isBlank).length < 2 ^ 31 := by
  constructor
  · intro htrims
    have h : ∃ c ∈ str, isBlank c = false := by
      by_contra hno
      push Not at hno
      exact not_trims_of_forall (fun c hc => by simpa using hno c hc) htrims
    exact ⟨h, lt_of_trims h hzero htrims⟩
  · rintro ⟨h, hlt⟩
    exact trims_of_lt h hzero hlt

theorem trims_a : Trims [0x20, 0x61, 0x09] := (trims_iff _ (by decide)).mpr ⟨by decide, by decide⟩

/-- From `" "` the first loop goes on in front of the copy, and for `""` nothing is stored. -/
theorem not_trims_blank : ¬ Trims [0x20] ∧ ¬ Trims [] :=
  ⟨not_trims_of_forall (List.forall_mem_singleton.mpr rfl),
    not_trims_of_forall (List.forall_mem_nil _)⟩

end CInt

end Mbtk.MString
