import Mathlib.Tactic

/-! Logs of the resources that are acquired and released, and tables that hold them. -/

namespace Mbtk.Lib

inductive ResourceEvent (α : Type*)
  | acquire (a : α)
  | release (a : α)
  deriving DecidableEq

namespace Resource

theorem update_eq_some_iff {α ι : Type*} [DecidableEq ι] {table : ι → Option α} {i j : ι} {a : α} :
    Function.update table i none j = some a ↔ j ≠ i ∧ table j = some a := by
  rw [Function.update_apply]
  split_ifs with hji <;> simp [hji]

variable {α ι : Type*} [DecidableEq α] {log pre : List (ResourceEvent α)} {a : α}

def hold (held : Finset α) : ResourceEvent α → Finset α
  | .acquire a => insert a held
  | .release a => held.erase a

/-- What is acquired and not yet released. -/
def held (log : List (ResourceEvent α)) : Finset α := log.foldl hold ∅

@[simp]
theorem held_acquire : held (log ++ [.acquire a]) = insert a (held log) := by
  rw [held, List.foldl_append]
  rfl

@[simp]
theorem held_release : held (log ++ [.release a]) = (held log).erase a := by
  rw [held, List.foldl_append]
  rfl

/-- Nothing is acquired while it is held, or released while it is not. -/
inductive Proper : List (ResourceEvent α) → Prop
  | nil : Proper []
  | acquire {log : List (ResourceEvent α)} {a : α} :
      Proper log → a ∉ held log → Proper (log ++ [.acquire a])
  | release {log : List (ResourceEvent α)} {a : α} :
      Proper log → a ∈ held log → Proper (log ++ [.release a])

theorem Proper.of_isPrefix (h : Proper log) (hpre : pre <+: log) : Proper pre := by
  induction h with
  | nil =>
    rw [List.prefix_nil.mp hpre]
    exact .nil
  | acquire h hfresh ih =>
    rcases List.prefix_concat_iff.mp hpre with rfl | hpre
    · exact .acquire h hfresh
    · exact ih hpre
  | release h hheld ih =>
    rcases List.prefix_concat_iff.mp hpre with rfl | hpre
    · exact .release h hheld
    · exact ih hpre

theorem Proper.count_acquire (h : Proper log) (a : α) :
    log.count (.acquire a) = log.count (.release a) + if a ∈ held log then 1 else 0 := by
  induction h with
  | nil => rfl
  | @acquire log b h hfresh ih =>
    rw [List.count_append, List.count_append, ih, held_acquire]
    by_cases hab : b = a
    · subst hab
      simp [hfresh]
    · have : a ∈ insert b (held log) ↔ a ∈ held log := by simp [Ne.symm hab]
      simp [this, hab]
  | @release log b h hheld ih =>
    rw [List.count_append, List.count_append, ih, held_release]
    by_cases hab : b = a
    · subst hab
      simp [hheld]
    · have : a ∈ (held log).erase b ↔ a ∈ held log := by simp [Ne.symm hab]
      simp [this, hab]

theorem Proper.count_release_le (h : Proper log) (hpre : pre <+: log) (a : α) :
    pre.count (.release a) ≤ pre.count (.acquire a) := by
  rw [(h.of_isPrefix hpre).count_acquire]
  exact Nat.le_add_right _ _

/-- The entries of a table are all different, and are what the log says to be held. -/
structure Tracks (table : ι → Option α) (log : List (ResourceEvent α)) : Prop where
  proper : Proper log
  distinct : ∀ i j a, table i = some a → table j = some a → i = j
  mem_held_iff : ∀ a, a ∈ held log ↔ ∃ i, table i = some a

namespace Tracks

variable {table : ι → Option α} {i : ι}

theorem empty : Tracks (fun _ : ι => (none : Option α)) [] where
  proper := .nil
  distinct := by simp
  mem_held_iff := by simp [held]

variable [DecidableEq ι]

theorem acquire (h : Tracks table log) (hfree : table i = none) (hfresh : a ∉ held log) :
    Tracks (Function.update table i (some a)) (log ++ [.acquire a]) where
  proper := .acquire h.proper hfresh
  distinct j k b hj hk := by
    have hne (l : ι) (hl : table l = some b) : b ≠ a := by
      rintro rfl
      exact hfresh ((h.mem_held_iff b).mpr ⟨l, hl⟩)
    by_cases hji : j = i <;> by_cases hki : k = i
    · rw [hji, hki]
    · rw [hji, Function.update_self, Option.some.injEq] at hj
      rw [Function.update_of_ne hki] at hk
      exact absurd hj.symm (hne k hk)
    · rw [hki, Function.update_self, Option.some.injEq] at hk
      rw [Function.update_of_ne hji] at hj
      exact absurd hk.symm (hne j hj)
    · rw [Function.update_of_ne hji] at hj
      rw [Function.update_of_ne hki] at hk
      exact h.distinct j k b hj hk
  mem_held_iff b := by
    rw [held_acquire, Finset.mem_insert, h.mem_held_iff]
    constructor
    · rintro (rfl | ⟨j, hj⟩)
      · exact ⟨i, Function.update_self ..⟩
      · have hji : j ≠ i := by
          rintro rfl
          exact absurd (hj.symm.trans hfree) (Option.some_ne_none b)
        exact ⟨j, by rwa [Function.update_of_ne hji]⟩
    · rintro ⟨j, hj⟩
      by_cases hji : j = i
      · rw [hji, Function.update_self, Option.some.injEq] at hj
        exact .inl hj.symm
      · rw [Function.update_of_ne hji] at hj
        exact .inr ⟨j, hj⟩

theorem release (h : Tracks table log) (hi : table i = some a) :
    Tracks (Function.update table i none) (log ++ [.release a]) where
  proper := .release h.proper ((h.mem_held_iff a).mpr ⟨i, hi⟩)
  distinct j k b hj hk := by
    obtain ⟨-, hj⟩ := update_eq_some_iff.mp hj
    obtain ⟨-, hk⟩ := update_eq_some_iff.mp hk
    exact h.distinct j k b hj hk
  mem_held_iff b := by
    simp only [held_release, Finset.mem_erase, h.mem_held_iff, update_eq_some_iff]
    constructor
    · rintro ⟨hne, j, hj⟩
      refine ⟨j, ?_, hj⟩
      rintro rfl
      exact hne (Option.some.inj (hj.symm.trans hi))
    · rintro ⟨j, hji, hj⟩
      refine ⟨?_, j, hj⟩
      rintro rfl
      exact hji (h.distinct j i b hj hi)

end Tracks

end Resource

end Mbtk.Lib
