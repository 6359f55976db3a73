import Mbtk.Lib.CopyInto
import Mbtk.Lib.Cuts
import Mbtk.MString.Split

/-! The functions that go through a string with positions of type `int`. -/

namespace Mbtk.MString

open Lib

section Indexof

variable {s sub : List UInt8} {i : ℕ}

theorem strIndexof_eq_none_iff : strIndexof sub s = none ↔ ¬ sub <:+: s := by
  induction s with
  | nil =>
    rw [strIndexof, List.infix_nil]
    split_ifs with h <;> simp [h]
  | cons c s ih =>
    rw [strIndexof, List.infix_cons_iff, not_or, ← ih, ← List.isPrefixOf_iff_prefix]
    split_ifs with h <;> simp [h]

theorem firstAt_of_strIndexof (h : strIndexof sub s = some i) : FirstAt sub s i := by
  induction s generalizing i with
  | nil =>
    rw [strIndexof] at h
    split_ifs at h with hnil
    obtain rfl := Option.some.inj h
    exact ⟨by rw [hnil]; exact List.nil_prefix, by simp⟩
  | cons c s ih =>
    rw [strIndexof] at h
    split_ifs at h with hpre
    · obtain rfl := Option.some.inj h
      exact ⟨List.isPrefixOf_iff_prefix.mp hpre, by simp⟩
    · obtain ⟨k, hk, rfl⟩ := Option.map_eq_some_iff.mp h
      refine ⟨(ih hk).1, fun j hj => ?_⟩
      cases j with
      | zero => exact fun hzero => hpre (List.isPrefixOf_iff_prefix.mpr hzero)
      | succ j => exact (ih hk).2 j (by omega)

theorem strIndexof_eq_some_iff : strIndexof sub s = some i ↔ FirstAt sub s i := by
  refine ⟨firstAt_of_strIndexof, fun h => ?_⟩
  cases hidx : strIndexof sub s with
  | none => exact absurd h.isInfix (strIndexof_eq_none_iff.mp hidx)
  | some j => rw [h.unique (firstAt_of_strIndexof hidx)]

theorem strIndexof_eq_zero_iff : strIndexof sub s = some 0 ↔ sub <+: s := by
  rw [strIndexof_eq_some_iff, firstAt_zero_iff]

end Indexof

namespace CInt

def toInt (x : ℤ) : ℤ := x.bmod (2 ^ 32)

def add (x y : ℤ) : Option ℤ := if -2 ^ 31 ≤ x + y ∧ x + y < 2 ^ 31 then some (x + y) else none

def strIndexof (str subStr : List UInt8) : ℤ :=
  match MString.strIndexof subStr str with
  | none => -1
  | some i => toInt i

/-- The condition of the loops, `position < strlen(s) && (temp = str_indexof(…)) > -1`, with the
value of `temp`.  As a `size_t` a position below 0 is above every length. -/
def findFrom (s sub : List UInt8) (position : ℤ) : Option ℕ :=
  if 0 ≤ position ∧ position < s.length ∧ -1 < strIndexof (s.drop position.toNat) sub then
    some (strIndexof (s.drop position.toNat) sub).toNat
  else none

/-- The loop of `str_contains_count`.  It has no result if it goes on until `result` leaves its
type. -/
def strContainsCountLoop (s sub : List UInt8) : ℕ → ℤ → Option ℕ
  | 0, _ => none
  | n + 1, position =>
    match findFrom s sub position with
    | none => some 0
    | some temp =>
      (strContainsCountLoop s sub n (toInt (position + (temp + sub.length)))).map (· + 1)

def strContainsCount (s sub : List UInt8) : Option ℕ :=
  if s = [] ∨ sub = [] then some 0 else strContainsCountLoop s sub (2 ^ 31) 0

variable {s sub : List UInt8} {x y position : ℤ} {i p n : ℕ} {pieces : List (List UInt8)}

theorem toInt_lt (x : ℤ) : toInt x < 2 ^ 31 := by
  have h := Int.bmod_lt (x := x) (m := 2 ^ 32) (by decide)
  unfold toInt
  omega

theorem toInt_le (hx : 0 ≤ x) : toInt x ≤ x := by
  rw [toInt, Int.bmod_def]
  split_ifs <;> omega

theorem toInt_of_lt (hx : 0 ≤ x) (hlt : x < 2 ^ 31) : toInt x = x := by
  rw [toInt, Int.bmod_def]
  split_ifs <;> omega

theorem add_of_lt (hx : 0 ≤ x + y) (hlt : x + y < 2 ^ 31) : add x y = some (x + y) :=
  if_pos ⟨by omega, hlt⟩

theorem eq_of_add {z : ℤ} (h : add x y = some z) : z = x + y ∧ x + y < 2 ^ 31 := by
  unfold add at h
  split_ifs at h with hlt
  exact ⟨(Option.some.inj h).symm, hlt.2⟩

theorem strIndexof_of_firstAt (h : FirstAt sub s i) : strIndexof s sub = toInt i := by
  rw [strIndexof, strIndexof_eq_some_iff.mpr h]

theorem findFrom_of_firstAt (h : FirstAt sub (s.drop p) i) (hsub : sub ≠ []) (hi : i < 2 ^ 31) :
    findFrom s sub p = some i := by
  have hle := h.add_length_le hsub
  have hpos := List.length_pos_iff.mpr hsub
  rw [List.length_drop] at hle
  have hidx : strIndexof (s.drop (p : ℤ).toNat) sub = i := by
    rw [Int.toNat_natCast, strIndexof_of_firstAt h, toInt_of_lt (by omega) (by omega)]
  rw [findFrom, hidx, if_pos ⟨by omega, by omega, by omega⟩, Int.toNat_natCast]

theorem findFrom_eq_none (h : ¬ sub <:+: s.drop p) : findFrom s sub p = none := by
  refine if_neg fun hcond => ?_
  have hidx := hcond.2.2
  rw [Int.toNat_natCast, strIndexof, strIndexof_eq_none_iff.mpr h] at hidx
  exact absurd hidx (by decide)

theorem exists_firstAt_of_findFrom {temp : ℕ} (h : findFrom s sub p = some temp) :
    p < s.length ∧ ∃ i, FirstAt sub (s.drop p) i ∧ (temp : ℤ) = toInt i := by
  unfold findFrom at h
  split_ifs at h with hcond
  obtain ⟨-, hlt, hidx⟩ := hcond
  have htemp := Option.some.inj h
  rw [Int.toNat_natCast] at hidx htemp
  refine ⟨by omega, ?_⟩
  cases hfound : MString.strIndexof sub (s.drop p) with
  | none =>
    rw [strIndexof, hfound] at hidx
    exact absurd hidx (by decide)
  | some i =>
    have hi := strIndexof_eq_some_iff.mp hfound
    refine ⟨i, hi, ?_⟩
    rw [strIndexof_of_firstAt hi] at hidx htemp
    omega

/-- The last occurrence ends within the range of an `int`. -/
def EndsInInt (s : List UInt8) (pieces : List (List UInt8)) : Prop :=
  ∀ last ∈ pieces.getLast?, s.length < 2 ^ 31 + last.length

theorem endsInInt_of_lt (h : s.length < 2 ^ 31) : EndsInInt s pieces := by
  intro last _
  omega

theorem EndsInInt.length_le (hends : EndsInInt s pieces) (h : Cuts sub s pieces) (hsub : sub ≠ []) :
    pieces.length ≤ 2 ^ 31 := by
  have hlast := List.getLast?_eq_some_getLast h.ne_nil
  have hend := hends _ hlast
  have hle := h.length_add_le hsub _ hlast
  omega

theorem EndsInInt.next (hends : EndsInInt s ((s.drop p).take i :: pieces)) (hp : p ≤ s.length)
    (hsub : sub ≠ []) (hi : FirstAt sub (s.drop p) i)
    (h : Cuts sub ((s.drop p).drop (i + sub.length)) pieces) :
    p + (i + sub.length) < 2 ^ 31 ∧ toInt (p + (i + sub.length)) = (p + (i + sub.length) : ℕ) ∧
      p + (i + sub.length) ≤ s.length ∧ EndsInInt s pieces ∧
      Cuts sub (s.drop (p + (i + sub.length))) pieces := by
  have hle := hi.add_length_le hsub
  rw [List.length_drop] at hle
  have hends' : EndsInInt s pieces := by
    rwa [EndsInInt, List.getLast?_cons_of_ne_nil h.ne_nil] at hends
  obtain ⟨last, hlast⟩ : ∃ last, pieces.getLast? = some last :=
    ⟨_, List.getLast?_eq_some_getLast h.ne_nil⟩
  have hlen := h.length_getLast_le last hlast
  have hend := hends' last hlast
  rw [List.length_drop, List.length_drop] at hlen
  refine ⟨by omega, ?_, by omega, hends', by rwa [List.drop_drop] at h⟩
  rw [toInt_of_lt (by omega) (by omega)]
  push_cast
  rfl

theorem strContainsCountLoop_eq (h : Cuts sub (s.drop p) pieces) (hsub : sub ≠ [])
    (hp : p ≤ s.length) (hends : EndsInInt s pieces) (hn : pieces.length ≤ n) :
    strContainsCountLoop s sub n p = some (pieces.length - 1) := by
  induction pieces generalizing p n with
  | nil => exact absurd rfl h.ne_nil
  | cons piece pieces ih =>
    obtain ⟨n, rfl⟩ := Nat.exists_eq_add_one.mpr (Nat.zero_lt_of_lt hn)
    rw [strContainsCountLoop]
    cases h with
    | last hno => simp [findFrom_eq_none hno]
    | @cut _ i _ hi h =>
      obtain ⟨hlt, hnext, hp', hends', hcuts⟩ := hends.next hp hsub hi h
      have hpos := List.length_pos_iff.mpr h.ne_nil
      rw [findFrom_of_firstAt hi hsub (by omega)]
      dsimp only
      rw [hnext, ih hcuts hp' hends' (Nat.le_of_succ_le_succ hn), Option.map_some,
        List.length_cons, Nat.sub_add_cancel hpos, Nat.add_sub_cancel]

theorem strContainsCount_eq (h : Cuts sub s pieces) (hsub : sub ≠ []) (hends : EndsInInt s pieces)
    (hn : pieces.length ≤ 2 ^ 31) : strContainsCount s sub = some (pieces.length - 1) := by
  unfold strContainsCount
  split_ifs with hnil
  · have hs : s = [] := hnil.resolve_right hsub
    rw [h.length_eq_one_iff.mpr (by rw [hs, List.infix_nil]; exact hsub)]
  · have hloop := strContainsCountLoop_eq (p := 0) h hsub (Nat.zero_le _) hends hn
    rwa [Nat.cast_zero] at hloop

end CInt

end Mbtk.MString
