import Mathlib.Tactic

/-! Cutting a list at the occurrences of another one, as a scan from the left meets them. -/

namespace Mbtk.Lib

variable {α : Type*} {r s : List α} {i j : ℕ} {pieces : List (List α)}

/-- The first place where `r` occurs in `s`. -/
def FirstAt (r s : List α) (i : ℕ) : Prop := r <+: s.drop i ∧ ∀ j < i, ¬ r <+: s.drop j

/-- The pieces of `s` between the occurrences of `r`.  The scan goes on behind each of them. -/
inductive Cuts (r : List α) : List α → List (List α) → Prop
  | last {s : List α} : ¬ r <:+: s → Cuts r s [s]
  | cut {s : List α} {i : ℕ} {pieces : List (List α)} : FirstAt r s i →
      Cuts r (s.drop (i + r.length)) pieces → Cuts r s (s.take i :: pieces)

/-- A list without `a` in front of the first `a` of another one. -/
theorem prefix_of_notMem {a : α} {l m rest more : List α} (hm : a ∉ m)
    (h : m ++ rest = l ++ a :: more) : ∃ c, l = m ++ c ∧ rest = c ++ a :: more := by
  obtain h | ⟨c, rfl, hc⟩ := List.append_eq_append_iff.mp h
  · exact h
  · cases c with
    | nil => exact ⟨[], by simp, hc.symm⟩
    | cons b c =>
      obtain ⟨rfl, -⟩ := List.cons_eq_cons.mp hc
      exact absurd (List.mem_append_right _ List.mem_cons_self) hm

/-- The first `a` is where it is. -/
theorem append_cons_inj_of_notMem {a : α} {l m rest more : List α} (hm : a ∉ m) (hl : a ∉ l) :
    m ++ a :: rest = l ++ a :: more ↔ m = l ∧ rest = more := by
  refine ⟨fun h => ?_, fun ⟨hml, hrest⟩ => by rw [hml, hrest]⟩
  obtain ⟨c, rfl, hc⟩ := prefix_of_notMem hm h
  cases c with
  | nil => exact ⟨(List.append_nil m).symm, List.cons_injective hc⟩
  | cons b c =>
    obtain ⟨rfl, -⟩ := List.cons_eq_cons.mp hc
    exact absurd (List.mem_append_right _ List.mem_cons_self) hl

theorem infix_iff_exists_drop : r <:+: s ↔ ∃ i, r <+: s.drop i := by
  constructor
  · rintro ⟨a, b, rfl⟩
    exact ⟨a.length, b, by rw [List.append_assoc, List.drop_left]⟩
  · rintro ⟨i, hi⟩
    exact hi.isInfix.trans (List.drop_suffix i s).isInfix

theorem FirstAt.isInfix (h : FirstAt r s i) : r <:+: s := infix_iff_exists_drop.mpr ⟨i, h.1⟩

theorem FirstAt.unique (hi : FirstAt r s i) (hj : FirstAt r s j) : i = j :=
  le_antisymm (not_lt.mp fun h => hi.2 j h hj.1) (not_lt.mp fun h => hj.2 i h hi.1)

theorem FirstAt.le (h : FirstAt r s i) (hj : r <+: s.drop j) : i ≤ j :=
  not_lt.mp fun hlt => h.2 j hlt hj

theorem firstAt_zero_iff : FirstAt r s 0 ↔ r <+: s := by
  simp [FirstAt]

theorem exists_firstAt (h : r <:+: s) : ∃ i, FirstAt r s i := by
  classical
  have hex := infix_iff_exists_drop.mp h
  exact ⟨Nat.find hex, Nat.find_spec hex, fun _ => Nat.find_min hex⟩

/-- The list around its first occurrence. -/
theorem FirstAt.split (h : FirstAt r s i) : s.take i ++ r ++ s.drop (i + r.length) = s := by
  rw [← List.drop_drop, List.append_assoc, List.prefix_iff_eq_append.mp h.1, List.take_append_drop]

theorem FirstAt.add_length_le (h : FirstAt r s i) (hr : r ≠ []) : i + r.length ≤ s.length := by
  have hlen := h.1.length_le
  have hpos := List.length_pos_iff.mpr hr
  rw [List.length_drop] at hlen
  omega

theorem FirstAt.not_infix_take (h : FirstAt r s i) (hr : r ≠ []) : ¬ r <:+: s.take i := by
  intro hinfix
  obtain ⟨j, hj⟩ := infix_iff_exists_drop.mp hinfix
  have hpos := List.length_pos_iff.mpr hr
  have hlen := hj.length_le
  rw [List.length_drop, List.length_take] at hlen
  refine h.2 j (by omega) (hj.trans ?_)
  rw [List.drop_take]
  exact List.take_prefix _ _

theorem Cuts.ne_nil (h : Cuts r s pieces) : pieces ≠ [] := by cases h <;> simp

/-- Joining the pieces undoes the cuts. -/
theorem Cuts.intercalate (h : Cuts r s pieces) : r.intercalate pieces = s := by
  induction h with
  | last => exact List.intercalate_singleton
  | @cut s i pieces hi h ih =>
    rw [List.intercalate_cons_of_ne_nil h.ne_nil, ih, hi.split]

theorem Cuts.not_infix (h : Cuts r s pieces) (hr : r ≠ []) : ∀ piece ∈ pieces, ¬ r <:+: piece := by
  induction h with
  | last h => simpa using h
  | cut hi _ ih => exact List.forall_mem_cons.mpr ⟨hi.not_infix_take hr, ih⟩

theorem Cuts.unique {pieces' : List (List α)} (h : Cuts r s pieces) (h' : Cuts r s pieces') :
    pieces = pieces' := by
  induction h generalizing pieces' with
  | last hno =>
    cases h' with
    | last => rfl
    | cut hi => exact absurd hi.isInfix hno
  | cut hi _ ih =>
    cases h' with
    | last hno => exact absurd hi.isInfix hno
    | cut hj h' =>
      obtain rfl := hi.unique hj
      rw [ih h']

theorem exists_cuts (hr : r ≠ []) (s : List α) : ∃ pieces, Cuts r s pieces := by
  by_cases h : r <:+: s
  · obtain ⟨i, hi⟩ := exists_firstAt h
    have hpos := List.length_pos_iff.mpr hr
    have hle := hi.add_length_le hr
    obtain ⟨pieces, hpieces⟩ := exists_cuts hr (s.drop (i + r.length))
    exact ⟨_, .cut hi hpieces⟩
  · exact ⟨_, .last h⟩
termination_by s.length
decreasing_by
  rw [List.length_drop]
  omega

/-- The last piece lies behind the occurrences. -/
theorem Cuts.length_getLast_le (h : Cuts r s pieces) :
    ∀ last ∈ pieces.getLast?, last.length ≤ s.length := by
  induction h with
  | last => simp
  | @cut s i pieces hi h ih =>
    intro last hlast
    rw [List.getLast?_cons_of_ne_nil h.ne_nil] at hlast
    have hle := ih last hlast
    rw [List.length_drop] at hle
    omega

theorem Cuts.length_le (h : Cuts r s pieces) (hr : r ≠ []) : pieces.length ≤ s.length + 1 := by
  induction h with
  | last => simp
  | @cut s i pieces hi h ih =>
    have hle := hi.add_length_le hr
    have hpos := List.length_pos_iff.mpr hr
    rw [List.length_drop] at ih
    rw [List.length_cons]
    omega

/-- Every other piece has an occurrence behind it. -/
theorem Cuts.length_add_le (h : Cuts r s pieces) (hr : r ≠ []) :
    ∀ last ∈ pieces.getLast?, pieces.length + last.length ≤ s.length + 1 := by
  induction h with
  | last => simp [Nat.add_comm]
  | @cut s i pieces hi h ih =>
    intro last hlast
    rw [List.getLast?_cons_of_ne_nil h.ne_nil] at hlast
    have hle := ih last hlast
    have hend := hi.add_length_le hr
    have hpos := List.length_pos_iff.mpr hr
    rw [List.length_drop] at hle
    rw [List.length_cons]
    omega

/-- The length with other lists between the pieces. -/
theorem Cuts.length_intercalate (h : Cuts r s pieces) (w : List α) :
    (w.intercalate pieces).length + (pieces.length - 1) * r.length =
      s.length + (pieces.length - 1) * w.length := by
  induction h with
  | last => simp
  | @cut s i pieces hi h ih =>
    have hsplit := congrArg List.length hi.split
    obtain ⟨k, hk⟩ := Nat.exists_eq_add_one.mpr (List.length_pos_iff.mpr h.ne_nil)
    rw [hk, Nat.add_sub_cancel] at ih
    rw [List.intercalate_cons_of_ne_nil h.ne_nil, List.length_cons, hk, Nat.add_sub_cancel]
    simp only [List.length_append] at hsplit ⊢
    rw [Nat.succ_mul, Nat.succ_mul]
    omega

theorem Cuts.subset (h : Cuts r s pieces) : ∀ piece ∈ pieces, piece ⊆ s := by
  induction h with
  | last => simp
  | cut _ _ ih =>
    exact List.forall_mem_cons.mpr ⟨List.take_subset _ _,
      fun piece hpiece => List.Subset.trans (ih piece hpiece) (List.drop_subset _ _)⟩

theorem mem_or_exists_of_mem_intercalate {w : List α} {x : α} (h : x ∈ w.intercalate pieces) :
    x ∈ w ∨ ∃ piece ∈ pieces, x ∈ piece := by
  induction pieces with
  | nil => simp at h
  | cons piece pieces ih =>
    obtain rfl | hne := eq_or_ne pieces []
    · rw [List.intercalate_singleton] at h
      exact .inr ⟨piece, List.mem_cons_self, h⟩
    · rw [List.intercalate_cons_of_ne_nil hne, List.mem_append, List.mem_append] at h
      obtain (hpiece | hw) | hrest := h
      · exact .inr ⟨piece, List.mem_cons_self, hpiece⟩
      · exact .inl hw
      · obtain hw | ⟨piece', hmem, hx⟩ := ih hrest
        · exact .inl hw
        · exact .inr ⟨piece', List.mem_cons_of_mem _ hmem, hx⟩

/-- One piece is all there is exactly if there is no occurrence. -/
theorem Cuts.length_eq_one_iff (h : Cuts r s pieces) : pieces.length = 1 ↔ ¬ r <:+: s := by
  cases h with
  | last h => exact iff_of_true rfl h
  | cut hi h =>
    have hpos := List.length_pos_iff.mpr h.ne_nil
    exact iff_of_false (by rw [List.length_cons]; omega) (not_not_intro hi.isInfix)

end Mbtk.Lib
