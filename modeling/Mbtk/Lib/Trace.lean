import Mathlib.Tactic

/-! Computations that keep the list of the indices they read. -/

universe u

namespace Mbtk.Lib

/-- A value, with the indices that were read for it in their order. -/
structure Trace (α : Type u) where
  value : α
  reads : List ℕ

namespace Trace

variable {α β : Type u} {n : ℕ}

instance : Monad Trace where
  pure a := ⟨a, []⟩
  bind x f := ⟨(f x.value).value, x.reads ++ (f x.value).reads⟩

@[simp] theorem value_pure (a : α) : (pure a : Trace α).value = a := rfl

@[simp] theorem value_bind (x : Trace α) (f : α → Trace β) :
    (x >>= f).value = (f x.value).value := rfl

@[simp] theorem value_ite (c : Prop) [Decidable c] (x y : Trace α) :
    (if c then x else y).value = if c then x.value else y.value := by split <;> rfl

/-- Every index that is read lies below `n`. -/
def Below (n : ℕ) (x : Trace α) : Prop := ∀ i ∈ x.reads, i < n

@[simp] theorem below_pure (a : α) : Below n (pure a : Trace α) := by
  intro i hi
  simp [pure] at hi

theorem below_bind {x : Trace α} {f : α → Trace β} :
    Below n (x >>= f) ↔ Below n x ∧ Below n (f x.value) := List.forall_mem_append

theorem below_ite {c : Prop} [Decidable c] {x y : Trace α} :
    Below n (if c then x else y) ↔ if c then Below n x else Below n y := by split <;> rfl

end Trace

end Mbtk.Lib
