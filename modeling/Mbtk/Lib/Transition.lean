import Mathlib.Tactic

/-! Labelled transition systems: their runs, and the rules for invariants of runs. -/

namespace Mbtk.Lib

/-- A transition system with states `σ` and labels `ε`. -/
structure System (σ ε : Type) where
  init : σ → Prop
  step : σ → ε → σ → Prop

namespace System

variable {σ ε : Type} {M : System σ ε}

/-- The states that runs reach. -/
inductive Reachable (M : System σ ε) : σ → Prop
  | init {s : σ} : M.init s → Reachable M s
  | step {s t : σ} {e : ε} : Reachable M s → M.step s e t → Reachable M t

/-- The system with only the steps that meet a condition on the state and the label. -/
def restrict (M : System σ ε) (guard : σ → ε → Prop) : System σ ε where
  init := M.init
  step s e t := guard s e ∧ M.step s e t

/-- A finite run, with the labels of its steps. -/
inductive Run (M : System σ ε) : σ → List ε → σ → Prop
  | nil (s : σ) : Run M s [] s
  | cons {s t u : σ} {e : ε} {es : List ε} : M.step s e t → Run M t es u → Run M s (e :: es) u

theorem Reachable.invariant {P : σ → Prop} (hinit : ∀ s, M.init s → P s)
    (hstep : ∀ s e t, P s → M.step s e t → P t) {s : σ} (h : M.Reachable s) : P s := by
  induction h with
  | init h => exact hinit _ h
  | step _ h ih => exact hstep _ _ _ ih h

/-- The rule for an invariant that rests on an earlier one. -/
theorem Reachable.invariant_of {P Q : σ → Prop} (hP : ∀ s, M.Reachable s → P s)
    (hinit : ∀ s, M.init s → Q s) (hstep : ∀ s e t, P s → Q s → M.step s e t → P t → Q t)
    {s : σ} (h : M.Reachable s) : Q s := by
  induction h with
  | init h => exact hinit _ h
  | step hs h ih => exact hstep _ _ _ (hP _ hs) ih h (hP _ (.step hs h))

theorem Reachable.of_restrict {guard : σ → ε → Prop} {s : σ}
    (h : (M.restrict guard).Reachable s) : M.Reachable s := by
  induction h with
  | init h => exact .init h
  | step _ h ih => exact .step ih h.2

theorem Reachable.run {s t : σ} {es : List ε} (h : M.Reachable s) (hrun : M.Run s es t) :
    M.Reachable t := by
  induction hrun with
  | nil => exact h
  | cons hstep _ ih => exact ih (.step h hstep)

theorem Run.append {s t u : σ} {es es' : List ε} (h : M.Run s es t) (h' : M.Run t es' u) :
    M.Run s (es ++ es') u := by
  induction h with
  | nil => exact h'
  | cons hstep _ ih => exact .cons hstep (ih h')

/-- The state in which a run is cut. -/
theorem Run.of_append {s u : σ} {es es' : List ε} (h : M.Run s (es ++ es') u) :
    ∃ t, M.Run s es t ∧ M.Run t es' u := by
  induction es generalizing s with
  | nil => exact ⟨s, .nil s, h⟩
  | cons e es ih =>
    obtain _ | ⟨hstep, h⟩ := h
    obtain ⟨t, hleft, hright⟩ := ih h
    exact ⟨t, .cons hstep hleft, hright⟩

theorem Run.of_restrict {guard : σ → ε → Prop} {s t : σ} {es : List ε}
    (h : (M.restrict guard).Run s es t) : M.Run s es t := by
  induction h with
  | nil => exact .nil _
  | cons hstep _ ih => exact .cons hstep.2 ih

/-- The rule for what a run keeps between its labels and its states. -/
theorem Run.history {P : List ε → σ → Prop}
    (hstep : ∀ past s e t, P past s → M.step s e t → P (past ++ [e]) t) {past : List ε} {s t : σ}
    {es : List ε} (hs : P past s) (h : M.Run s es t) : P (past ++ es) t := by
  induction h generalizing past with
  | nil => rwa [List.append_nil]
  | cons hfirst _ ih =>
    rw [List.append_cons]
    exact ih (hstep _ _ _ _ hs hfirst)

/-- The run that a step function goes through. -/
theorem Run.of_foldlM {f : σ → ε → Option σ} (hf : ∀ s e t, f s e = some t → M.step s e t)
    {s t : σ} {es : List ε} (h : es.foldlM f s = some t) : M.Run s es t := by
  induction es generalizing s with
  | nil =>
    cases h
    exact .nil _
  | cons e es ih =>
    rw [List.foldlM_cons] at h
    obtain ⟨u, hu, h⟩ := Option.bind_eq_some_iff.mp h
    exact .cons (hf s e u hu) (ih h)

theorem Reachable.of_foldlM {f : σ → ε → Option σ} (hf : ∀ s e t, f s e = some t → M.step s e t)
    {s : σ} (hs : M.Reachable s) {es : List ε} {p : σ → Bool} (h : (es.foldlM f s).any p = true) :
    ∃ t, M.Reachable t ∧ p t = true := by
  obtain ⟨t, hrun, ht⟩ := (Option.any_eq_true _ _).mp h
  exact ⟨t, hs.run (.of_foldlM hf hrun), ht⟩

theorem Reachable.of_guarded_foldlM {guard : σ → ε → Prop} [∀ s e, Decidable (guard s e)]
    {f : σ → ε → Option σ} (hf : ∀ s e t, f s e = some t → M.step s e t) {s : σ}
    (hs : (M.restrict guard).Reachable s) {es : List ε} {p : σ → Bool}
    (h : (es.foldlM (fun s e => if guard s e then f s e else none) s).any p = true) :
    ∃ t, (M.restrict guard).Reachable t ∧ p t = true := by
  refine hs.of_foldlM (fun s e t h => ?_) h
  split_ifs at h with hguard
  exact ⟨hguard, hf s e t h⟩

/-- A family of states that one step leads through is reached as far as it goes. -/
theorem Reachable.iterate {P : ℕ → σ → Prop} {k : ℕ} (hbase : ∃ s, M.Reachable s ∧ P 0 s)
    (hstep : ∀ i s, i < k → M.Reachable s → P i s → ∃ e t, M.step s e t ∧ P (i + 1) t) :
    ∃ s, M.Reachable s ∧ P k s := by
  induction k with
  | zero => exact hbase
  | succ k ih =>
    obtain ⟨s, hs, hP⟩ := ih fun i s hi => hstep i s (Nat.lt_succ_of_lt hi)
    obtain ⟨e, t, he, ht⟩ := hstep k s (Nat.lt_succ_self k) hs hP
    exact ⟨t, .step hs he, ht⟩

end System

end Mbtk.Lib
