import Mbtk.Lib.StableInsert

/-! Lists with non-decreasing keys, written as the distances between consecutive
keys, and the uniqueness of what a self-delimiting code of such records says. -/

universe u v w

namespace Mbtk.Lib

section Delta

variable {α : Type u} {ν : Type v} (key : α → ℕ) (val : α → ν)

/-- Each value with the distance of its key from the key before it. -/
def deltas : ℕ → List α → List (ℕ × ν)
  | _, [] => []
  | k, x :: l => (key x - k, val x) :: deltas (key x) l

def lastKey : ℕ → List α → ℕ
  | k, [] => k
  | _, x :: l => lastKey (key x) l

/-- Non-decreasing keys that start no lower than `k`. -/
def SortedFrom : ℕ → List α → Prop
  | _, [] => True
  | k, x :: l => k ≤ key x ∧ SortedFrom (key x) l

@[simp] theorem deltas_nil (k : ℕ) : deltas key val k [] = [] := rfl

@[simp] theorem deltas_cons (k : ℕ) (x : α) (l : List α) :
    deltas key val k (x :: l) = (key x - k, val x) :: deltas key val (key x) l := rfl

@[simp] theorem lastKey_nil (k : ℕ) : lastKey key k [] = k := rfl

@[simp] theorem lastKey_cons (k : ℕ) (x : α) (l : List α) :
    lastKey key k (x :: l) = lastKey key (key x) l := rfl

@[simp] theorem sortedFrom_nil (k : ℕ) : SortedFrom key k [] := trivial

@[simp] theorem sortedFrom_cons (k : ℕ) (x : α) (l : List α) :
    SortedFrom key k (x :: l) ↔ k ≤ key x ∧ SortedFrom key (key x) l := .rfl

theorem deltas_append (k : ℕ) (A B : List α) :
    deltas key val k (A ++ B) = deltas key val k A ++ deltas key val (lastKey key k A) B := by
  induction A generalizing k with
  | nil => rfl
  | cons x A ih => simp [ih]

@[simp] theorem lastKey_append (k : ℕ) (A B : List α) :
    lastKey key k (A ++ B) = lastKey key (lastKey key k A) B := by
  induction A generalizing k with
  | nil => rfl
  | cons x A ih => simp [ih]

theorem sortedFrom_append (k : ℕ) (A B : List α) :
    SortedFrom key k (A ++ B) ↔ SortedFrom key k A ∧ SortedFrom key (lastKey key k A) B := by
  induction A generalizing k with
  | nil => simp
  | cons x A ih => simp [ih, and_assoc]

@[simp] theorem length_deltas (k : ℕ) (l : List α) : (deltas key val k l).length = l.length := by
  induction l generalizing k with
  | nil => rfl
  | cons x l ih => simp [ih]

theorem SortedFrom.le_of_mem {k : ℕ} {l : List α} (h : SortedFrom key k l) :
    ∀ x ∈ l, k ≤ key x := by
  induction l generalizing k with
  | nil => simp
  | cons y l ih =>
    intro x hx
    obtain rfl | hx := List.mem_cons.mp hx
    · exact h.1
    · exact h.1.trans (ih h.2 x hx)

theorem sortedFrom_iff {k : ℕ} {l : List α} :
    SortedFrom key k l ↔ KeySorted key l ∧ ∀ x ∈ l, k ≤ key x := by
  induction l generalizing k with
  | nil => simp [KeySorted]
  | cons y l ih =>
    constructor
    · intro h
      exact ⟨List.pairwise_cons.mpr ⟨h.2.le_of_mem, (ih.mp h.2).1⟩, h.le_of_mem⟩
    · rintro ⟨hs, hk⟩
      obtain ⟨hy, hl⟩ := List.pairwise_cons.mp hs
      exact ⟨hk y (by simp), ih.mpr ⟨hl, hy⟩⟩

theorem SortedFrom.mono {k j : ℕ} {l : List α} (h : SortedFrom key k l) (hj : j ≤ k) :
    SortedFrom key j l :=
  (sortedFrom_iff key).mpr
    ⟨((sortedFrom_iff key).mp h).1, fun x hx => hj.trans (h.le_of_mem key x hx)⟩

theorem SortedFrom.mem_le_lastKey {k : ℕ} {l : List α} (h : SortedFrom key k l) :
    k ≤ lastKey key k l ∧ ∀ x ∈ l, key x ≤ lastKey key k l := by
  induction l generalizing k with
  | nil => simp
  | cons y l ih =>
    obtain ⟨hy, hl⟩ := ih h.2
    refine ⟨h.1.trans hy, fun x hx => ?_⟩
    obtain rfl | hx := List.mem_cons.mp hx
    · exact hy
    · exact hl x hx

theorem lastKey_le {k n : ℕ} {l : List α} (hk : k ≤ n) (h : ∀ x ∈ l, key x ≤ n) :
    lastKey key k l ≤ n := by
  induction l generalizing k with
  | nil => exact hk
  | cons y l ih => exact ih (h y (by simp)) fun x hx => h x (by simp [hx])

/-- The distances add up to the last key. -/
theorem SortedFrom.sum_deltas {k : ℕ} {l : List α} (h : SortedFrom key k l) :
    k + ((deltas key val k l).map Prod.fst).sum = lastKey key k l := by
  induction l generalizing k with
  | nil => rfl
  | cons x l ih =>
    have := ih h.2
    have := h.1
    simp only [deltas_cons, List.map_cons, List.sum_cons, lastKey_cons]
    omega

theorem SortedFrom.insertAfter {k : ℕ} {x : α} {l : List α} (h : SortedFrom key k l)
    (hk : k ≤ key x) : SortedFrom key k (insertAfter key x l) := by
  rw [sortedFrom_iff] at h ⊢
  refine ⟨h.1.insertAfter, fun y hy => ?_⟩
  obtain rfl | hy := (mem_insertAfter key).mp hy
  · exact hk
  · exact h.2 y hy

/-- Key and value together identify an element, so the distances identify the list. -/
theorem deltas_injective (hinj : ∀ x y, key x = key y → val x = val y → x = y) {k : ℕ}
    {l m : List α} (hl : SortedFrom key k l) (hm : SortedFrom key k m)
    (h : deltas key val k l = deltas key val k m) : l = m := by
  induction l generalizing k m with
  | nil => cases m with
    | nil => rfl
    | cons y m => simp at h
  | cons x l ih => cases m with
    | nil => simp at h
    | cons y m =>
      simp only [deltas_cons, List.cons.injEq, Prod.mk.injEq] at h
      obtain ⟨⟨hk, hv⟩, hrest⟩ := h
      have hkey : key x = key y := by
        have := hl.1
        have := hm.1
        omega
      obtain rfl := hinj x y hkey hv
      rw [ih hl.2 hm.2 hrest]

end Delta

section SelfDelimiting

variable {ρ : Type u} {β : Type v} (enc : ρ → List β) (Ok : ρ → Prop)

/-- Where one code word ends is fixed by the word itself. -/
def SelfDelimiting : Prop :=
  ∀ a b s t, Ok a → Ok b → enc a ++ s = enc b ++ t → a = b ∧ s = t

/-- No code word starts here. -/
def Stops (s : List β) : Prop := ∀ a t, Ok a → enc a ++ t ≠ s

variable {enc Ok}

/-- A run of self-delimiting code words up to a stop has one reading. -/
theorem SelfDelimiting.flatMap_inj (h : SelfDelimiting enc Ok) {as bs : List ρ}
    {s t : List β} (has : ∀ a ∈ as, Ok a) (hbs : ∀ b ∈ bs, Ok b) (hs : Stops enc Ok s)
    (ht : Stops enc Ok t) (heq : as.flatMap enc ++ s = bs.flatMap enc ++ t) :
    as = bs ∧ s = t := by
  induction as generalizing bs with
  | nil => cases bs with
    | nil => exact ⟨rfl, heq⟩
    | cons b bs =>
      refine absurd heq.symm ?_
      simpa using hs b (bs.flatMap enc ++ t) (hbs b (by simp))
  | cons a as ih => cases bs with
    | nil =>
      refine absurd heq ?_
      simpa using ht a (as.flatMap enc ++ s) (has a (by simp))
    | cons b bs =>
      simp only [List.flatMap_cons, List.append_assoc] at heq
      obtain ⟨rfl, hrest⟩ := h a b _ _ (has a (by simp)) (hbs b (by simp)) heq
      obtain ⟨htail, hst⟩ := ih (fun x hx => has x (by simp [hx]))
        (fun x hx => hbs x (by simp [hx])) hrest
      exact ⟨congrArg (a :: ·) htail, hst⟩

end SelfDelimiting

end Mbtk.Lib
