import Mathlib.Tactic

/-! Copies into an array, within its bounds. -/

namespace Mbtk.Lib

variable {α : Type*} {a b w r xs : List α} {i : ℕ} {x : α}

/-- The array with `xs` from position `i` on, if they fit. -/
def copyInto (a : List α) (i : ℕ) (xs : List α) : Option (List α) :=
  if i + xs.length ≤ a.length then some (a.take i ++ xs ++ a.drop (i + xs.length)) else none

theorem copyInto_eq_none : copyInto a i xs = none ↔ a.length < i + xs.length := by
  unfold copyInto
  split_ifs with h
  · exact iff_of_false (by simp) (by omega)
  · exact iff_of_true rfl (by omega)

theorem length_copyInto (h : copyInto a i xs = some b) : b.length = a.length := by
  unfold copyInto at h
  split_ifs at h with hle
  rw [← Option.some.inj h]
  simp only [List.length_append, List.length_take, List.length_drop]
  omega

/-- Behind what was written before. -/
theorem copyInto_append (h : xs.length ≤ r.length) :
    copyInto (w ++ r) w.length xs = some (w ++ xs ++ r.drop xs.length) := by
  unfold copyInto
  rw [if_pos (by rw [List.length_append]; omega), List.take_left, List.drop_append,
    List.drop_eq_nil_of_le (Nat.le_add_right _ _), Nat.add_sub_cancel_left, List.nil_append]

theorem copyInto_zero (h : xs.length ≤ r.length) :
    copyInto r 0 xs = some (xs ++ r.drop xs.length) := copyInto_append (w := []) h

theorem copyInto_append_right (h : i = w.length) (hr : xs.length = r.length) :
    copyInto (w ++ r) i xs = some (w ++ xs) := by
  rw [h, copyInto_append hr.le, hr, List.drop_length, List.append_nil]

/-- Two copies one behind the other. -/
theorem copyInto_bind (a : List α) (i : ℕ) (xs ys : List α) :
    (copyInto a i xs).bind (copyInto · (i + xs.length) ys) = copyInto a i (xs ++ ys) := by
  by_cases hxs : i + xs.length ≤ a.length
  · have hw : (a.take i ++ xs).length = i + xs.length := by
      rw [List.length_append, List.length_take_of_le (by omega)]
    by_cases hys : i + (xs ++ ys).length ≤ a.length
    · rw [List.length_append] at hys
      have hroom : ys.length ≤ (a.drop (i + xs.length)).length := by
        rw [List.length_drop]
        omega
      have hsecond := copyInto_append (w := a.take i ++ xs) hroom
      rw [hw] at hsecond
      rw [copyInto, if_pos hxs, Option.bind_some, hsecond, copyInto,
        if_pos (by rw [List.length_append]; omega), List.drop_drop, List.length_append,
        ← Nat.add_assoc]
      simp only [List.append_assoc]
    · rw [copyInto_eq_none.mpr (not_le.mp hys), copyInto, if_pos hxs, Option.bind_some,
        copyInto_eq_none]
      simp only [List.length_append, List.length_take, List.length_drop] at hys ⊢
      omega
  · rw [copyInto_eq_none.mpr (not_le.mp hxs), Option.bind_none, eq_comm, copyInto_eq_none,
      List.length_append]
    omega

/-- One place in the middle. -/
theorem copyInto_single (w r : List α) (x y : α) :
    copyInto (w ++ y :: r) w.length [x] = some (w ++ x :: r) := by
  rw [copyInto_append (by simp)]
  simp

theorem getElem?_of_copyInto_single (h : copyInto a i [x] = some b) : b[i]? = some x := by
  unfold copyInto at h
  split_ifs at h with hle
  rw [List.length_singleton] at hle
  have htake : (a.take i).length = i := List.length_take_of_le (by omega)
  rw [← Option.some.inj h, List.append_assoc, List.getElem?_append_right (by omega), htake,
    Nat.sub_self]
  rfl

end Mbtk.Lib
