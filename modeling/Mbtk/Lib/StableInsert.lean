import Mathlib.Data.List.Sort
import Mathlib.Tactic

/-! Insertion by key into a list, each new element behind the equal keys already
there.  Inserting the elements of a list one after the other is the stable sort
of that list. -/

universe u v

namespace Mbtk.Lib

variable {α : Type u} {κ : Type v} [LinearOrder κ] (key : α → κ)

/-- Put `x` behind every leading element whose key is at most the key of `x`. -/
def insertAfter (x : α) : List α → List α
  | [] => [x]
  | y :: l => if key y ≤ key x then y :: insertAfter x l else x :: y :: l

/-- The keys of the list do not decrease. -/
def KeySorted (l : List α) : Prop := l.Pairwise (fun a b => key a ≤ key b)

@[simp] theorem insertAfter_nil (x : α) : insertAfter key x [] = [x] := rfl

theorem insertAfter_append {x : α} {A B : List α} (hA : ∀ a ∈ A, key a ≤ key x)
    (hB : ∀ b ∈ B.head?, key x < key b) :
    insertAfter key x (A ++ B) = A ++ x :: B := by
  induction A with
  | nil =>
    cases B with
    | nil => rfl
    | cons b B => simp [insertAfter, not_le.mpr (hB b rfl)]
  | cons a A ih =>
    have ha : key a ≤ key x := hA a (by simp)
    simp [insertAfter, ha, ih fun b hb => hA b (by simp [hb])]

theorem perm_insertAfter (x : α) (l : List α) : (insertAfter key x l).Perm (x :: l) := by
  induction l with
  | nil => rfl
  | cons y l ih =>
    unfold insertAfter
    split
    · exact (ih.cons y).trans (.swap x y l)
    · rfl

@[simp] theorem length_insertAfter (x : α) (l : List α) :
    (insertAfter key x l).length = l.length + 1 := (perm_insertAfter key x l).length_eq

@[simp] theorem mem_insertAfter {x y : α} {l : List α} :
    y ∈ insertAfter key x l ↔ y = x ∨ y ∈ l := by
  rw [(perm_insertAfter key x l).mem_iff, List.mem_cons]

theorem KeySorted.insertAfter {x : α} {l : List α} (h : KeySorted key l) :
    KeySorted key (insertAfter key x l) := by
  induction l with
  | nil => simp [KeySorted]
  | cons y l ih =>
    obtain ⟨hy, hl⟩ := List.pairwise_cons.mp h
    unfold Lib.insertAfter
    split_ifs with hyx
    · refine List.pairwise_cons.mpr ⟨fun b hb => ?_, ih hl⟩
      obtain rfl | hb := (mem_insertAfter key).mp hb
      · exact hyx
      · exact hy b hb
    · have hxy : key x ≤ key y := le_of_lt (not_le.mp hyx)
      refine List.pairwise_cons.mpr ⟨fun b hb => ?_, h⟩
      obtain rfl | hb := List.mem_cons.mp hb
      · exact hxy
      · exact hxy.trans (hy b hb)

/-- A sorted list splits at a key: everything up to it, then everything beyond. -/
theorem KeySorted.split {l : List α} (h : KeySorted key l) (k : κ) :
    ∃ A B, l = A ++ B ∧ (∀ a ∈ A, key a ≤ k) ∧ ∀ b ∈ B, k < key b := by
  induction l with
  | nil => exact ⟨[], [], rfl, by simp, by simp⟩
  | cons y l ih =>
    obtain ⟨hy, hl⟩ := List.pairwise_cons.mp h
    by_cases hyk : key y ≤ k
    · obtain ⟨A, B, rfl, hA, hB⟩ := ih hl
      refine ⟨y :: A, B, rfl, fun a ha => ?_, hB⟩
      obtain rfl | ha := List.mem_cons.mp ha
      · exact hyk
      · exact hA a ha
    · have hky : k < key y := not_le.mp hyk
      refine ⟨[], y :: l, rfl, by simp, fun b hb => ?_⟩
      obtain rfl | hb := List.mem_cons.mp hb
      · exact hky
      · exact hky.trans_le (hy b hb)

/-- Insertion in front of equal keys and insertion behind them commute. -/
theorem insertAfter_orderedInsert (x y : α) (l : List α) :
    insertAfter key y (l.orderedInsert (fun a b => key a ≤ key b) x) =
      (insertAfter key y l).orderedInsert (fun a b => key a ≤ key b) x := by
  induction l with
  | nil => by_cases h : key x ≤ key y <;> simp [insertAfter, h]
  | cons z l ih =>
    by_cases hxz : key x ≤ key z <;> by_cases hzy : key z ≤ key y
    · simp [insertAfter, hxz, hzy, hxz.trans hzy]
    · by_cases hxy : key x ≤ key y <;> simp [insertAfter, hxz, hzy, hxy]
    · simp [insertAfter, hxz, hzy, ih]
    · have hxy : ¬ key x ≤ key y :=
        not_le.mpr ((not_le.mp hzy).trans (not_le.mp hxz))
      simp [insertAfter, hxz, hzy, hxy]

theorem foldl_insertAfter_orderedInsert (x : α) (l acc : List α) :
    l.foldl (fun s y => insertAfter key y s) (acc.orderedInsert (fun a b => key a ≤ key b) x) =
      (l.foldl (fun s y => insertAfter key y s) acc).orderedInsert
        (fun a b => key a ≤ key b) x := by
  induction l generalizing acc with
  | nil => rfl
  | cons y l ih => rw [List.foldl_cons, List.foldl_cons, insertAfter_orderedInsert, ih]

/-- Inserting one element after the other sorts stably. -/
theorem foldl_insertAfter_eq_insertionSort (l : List α) :
    l.foldl (fun s y => insertAfter key y s) [] =
      l.insertionSort (fun a b => key a ≤ key b) := by
  induction l with
  | nil => rfl
  | cons x l ih =>
    rw [List.foldl_cons, List.insertionSort_cons, ← ih, ← foldl_insertAfter_orderedInsert]
    rfl

section Filter

variable {p : α → Bool}

/-- Inserting what a filter drops does not show behind the filter. -/
theorem filter_orderedInsert_of_neg {x : α} (hx : ¬ p x = true) (l : List α) :
    (l.orderedInsert (fun a b => key a ≤ key b) x).filter p = l.filter p := by
  induction l with
  | nil => simp [hx]
  | cons y l ih =>
    by_cases hxy : key x ≤ key y
    · simp [hxy, hx]
    · rw [List.orderedInsert, if_neg hxy, List.filter_cons, List.filter_cons, ih]

/-- Inserting in front of everything that a filter keeps shows in front behind the filter. -/
theorem filter_orderedInsert_of_pos {x : α} (hx : p x = true) {l : List α}
    (hl : ∀ y ∈ l, p y = true → key x ≤ key y) :
    (l.orderedInsert (fun a b => key a ≤ key b) x).filter p = x :: l.filter p := by
  induction l with
  | nil => simp [hx]
  | cons y l ih =>
    by_cases hxy : key x ≤ key y
    · simp [hxy, hx]
    · have hy : ¬ p y = true := fun h => hxy (hl y (by simp) h)
      rw [List.orderedInsert, if_neg hxy, List.filter_cons_of_neg hy,
        List.filter_cons_of_neg hy, ih fun z hz => hl z (by simp [hz])]

/-- A stable sort keeps the order of what a filter takes from one key. -/
theorem filter_insertionSort {k : κ} {l : List α} (h : ∀ x ∈ l, p x = true → key x = k) :
    (l.insertionSort (fun a b => key a ≤ key b)).filter p = l.filter p := by
  induction l with
  | nil => rfl
  | cons x l ih =>
    have ih := ih fun y hy => h y (by simp [hy])
    rw [List.insertionSort_cons]
    by_cases hx : p x = true
    · rw [filter_orderedInsert_of_pos key hx, List.filter_cons_of_pos hx, ih]
      intro y hy hpy
      rw [h x (by simp) hx, h y (by simp [(List.mem_insertionSort _).mp hy]) hpy]
    · rw [filter_orderedInsert_of_neg key hx, List.filter_cons_of_neg hx, ih]

end Filter

end Mbtk.Lib
