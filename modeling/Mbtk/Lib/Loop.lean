import Mathlib.Tactic

/-! Counting loops whose body may fail, and the rules for their invariants. -/

namespace Mbtk.Lib

variable {σ : Type*} {f : ℕ → σ → Option σ} {n : ℕ} {s t : σ} {I : ℕ → σ → Prop}

/-- The loop over `0, …, n - 1`. -/
def forLoop (f : ℕ → σ → Option σ) (s : σ) : ℕ → Option σ
  | 0 => some s
  | n + 1 => (forLoop f s n).bind (f n)

/-- A body that does not fail where the invariant holds. -/
theorem exists_forLoop (hinit : I 0 s)
    (hstep : ∀ i < n, ∀ s, I i s → ∃ t, f i s = some t ∧ I (i + 1) t) :
    ∃ t, forLoop f s n = some t ∧ I n t := by
  induction n with
  | zero => exact ⟨s, rfl, hinit⟩
  | succ n ih =>
    obtain ⟨t, hrun, ht⟩ := ih fun i hi => hstep i (Nat.lt_succ_of_lt hi)
    obtain ⟨u, hbody, hu⟩ := hstep n (Nat.lt_succ_self n) t ht
    exact ⟨u, by rw [forLoop, hrun, Option.bind_some, hbody], hu⟩

/-- A loop that did not fail went through its invariant. -/
theorem of_forLoop (hrun : forLoop f s n = some t) (hinit : I 0 s)
    (hstep : ∀ i < n, ∀ s t, I i s → f i s = some t → I (i + 1) t) : I n t := by
  induction n generalizing t with
  | zero =>
    rw [← Option.some.inj hrun]
    exact hinit
  | succ n ih =>
    obtain ⟨u, hrun, hbody⟩ := Option.bind_eq_some_iff.mp hrun
    have hu := ih hrun fun i hi => hstep i (Nat.lt_succ_of_lt hi)
    exact hstep n (Nat.lt_succ_self n) u t hu hbody

/-- Each turn of it did. -/
theorem exists_turn (hrun : forLoop f s n = some t) (hinit : I 0 s)
    (hstep : ∀ i < n, ∀ s t, I i s → f i s = some t → I (i + 1) t) {i : ℕ} (hi : i < n) :
    ∃ s' t', I i s' ∧ f i s' = some t' := by
  induction n generalizing t with
  | zero => exact absurd hi (Nat.not_lt_zero i)
  | succ n ih =>
    obtain ⟨u, hrun, hbody⟩ := Option.bind_eq_some_iff.mp hrun
    have hstep' : ∀ i < n, ∀ s t, I i s → f i s = some t → I (i + 1) t :=
      fun i hi => hstep i (Nat.lt_succ_of_lt hi)
    obtain hlt | rfl := Nat.lt_succ_iff_lt_or_eq.mp hi
    · exact ih hrun hstep' hlt
    · exact ⟨u, t, of_forLoop hrun hinit hstep', hbody⟩

section Collect

variable {α : Type*} {g : ℕ → Option α} {xs : List α}

/-- What a loop over `0, …, n - 1` collects. -/
theorem mapM_range_eq_some_iff :
    (List.range n).mapM g = some xs ↔ xs.length = n ∧ ∀ i < n, g i = xs[i]? := by
  induction n generalizing xs with
  | zero =>
    rw [List.range_zero, List.mapM_nil, List.length_eq_zero_iff]
    exact ⟨fun h => ⟨(Option.some.inj h).symm, fun i hi => absurd hi (Nat.not_lt_zero i)⟩,
      fun h => congrArg some h.1.symm⟩
  | succ n ih =>
    simp only [List.range_succ, List.mapM_append, List.mapM_cons, List.mapM_nil,
      Option.bind_eq_bind, Option.bind_eq_some_iff, Option.pure_def, Option.some.injEq]
    constructor
    · rintro ⟨ys, hys, zs, ⟨y, hy, _, rfl, rfl⟩, rfl⟩
      obtain ⟨rfl, hread⟩ := ih.mp hys
      refine ⟨List.length_append, fun i hi => ?_⟩
      obtain hlt | rfl := Nat.lt_succ_iff_lt_or_eq.mp hi
      · rw [hread i hlt, List.getElem?_append_left hlt]
      · rw [hy, List.getElem?_concat_length]
    · rintro ⟨hlength, hread⟩
      have hlast : n < xs.length := by omega
      refine ⟨xs.take n, ih.mpr ⟨List.length_take_of_le hlast.le, fun i hi => ?_⟩, [xs[n]],
        ⟨xs[n], ?_, [], rfl, rfl⟩, ?_⟩
      · rw [hread i (Nat.lt_succ_of_lt hi), List.getElem?_take_of_lt hi]
      · rw [hread n (Nat.lt_succ_self n), List.getElem?_eq_getElem hlast]
      · rw [List.take_append_getElem, List.take_of_length_le hlength.le]

end Collect

end Mbtk.Lib
