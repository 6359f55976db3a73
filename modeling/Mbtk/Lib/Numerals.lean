import Mathlib.Tactic

/-! Texts of digits and their values. -/

namespace Mbtk.Lib

variable {α : Type} {base base' u u' v w : ℕ} {digit digit' : α → Option ℕ} {l m : List α}

/-- The value of the digits of a text behind those that make up `v`. -/
def numeral (base : ℕ) (digit : α → Option ℕ) : ℕ → List α → Option ℕ
  | v, [] => some v
  | v, c :: l => (digit c).bind fun d => numeral base digit (v * base + d) l

theorem numeral_append :
    numeral base digit u (l ++ m) = (numeral base digit u l).bind (numeral base digit · m) := by
  induction l generalizing u with
  | nil => rfl
  | cons c l ih =>
    rw [List.cons_append, numeral, numeral, Option.bind_assoc]
    exact Option.bind_congr fun d _ => ih

theorem numeral_concat {c : α} {d : ℕ} (h : numeral base digit u l = some v)
    (hc : digit c = some d) : numeral base digit u (l ++ [c]) = some (v * base + d) := by
  rw [numeral_append, h, Option.bind_some, numeral, hc]
  rfl

theorem le_of_numeral (hbase : 0 < base) (h : numeral base digit u l = some v) : u ≤ v := by
  induction l generalizing u with
  | nil => exact (Option.some.inj h).le
  | cons c l ih =>
    obtain ⟨d, -, h⟩ := Option.bind_eq_some_iff.mp h
    exact (Nat.le_mul_of_pos_right u hbase).trans ((Nat.le_add_right _ _).trans (ih h))

theorem digit_of_numeral (h : numeral base digit u l = some v) :
    ∀ c ∈ l, ∃ d, digit c = some d := by
  induction l generalizing u with
  | nil => exact fun c hc => absurd hc List.not_mem_nil
  | cons c l ih =>
    obtain ⟨d, hd, h⟩ := Option.bind_eq_some_iff.mp h
    exact List.forall_mem_cons.mpr ⟨⟨d, hd⟩, ih h⟩

/-- In a base up to the square of the first, the value is at most the square. -/
theorem numeral_le_sq (hdigit : ∀ c d, digit c = some d → digit' c = some d)
    (hbase : base' ≤ base ^ 2) (hu : u' ≤ u ^ 2) (h : numeral base digit u l = some v) :
    ∃ w, numeral base' digit' u' l = some w ∧ w ≤ v ^ 2 := by
  induction l generalizing u u' with
  | nil =>
    obtain rfl := Option.some.inj h
    exact ⟨u', rfl, hu⟩
  | cons c l ih =>
    obtain ⟨d, hd, h⟩ := Option.bind_eq_some_iff.mp h
    rw [numeral, hdigit c d hd]
    refine ih ?_ h
    calc u' * base' + d ≤ u ^ 2 * base ^ 2 + d ^ 2 :=
          Nat.add_le_add (Nat.mul_le_mul hu hbase) (Nat.le_self_pow two_ne_zero d)
      _ ≤ (u * base + d) ^ 2 := by
        rw [← mul_pow, add_sq]
        omega

end Mbtk.Lib
