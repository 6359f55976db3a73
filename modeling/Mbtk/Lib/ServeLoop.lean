import Mbtk.Lib.Transition

/-! Loops over a table of slots that serve the marked entries and stop once they have served as
many as were announced. -/

namespace Mbtk.Lib

variable {σ α ε β : Type}

/-- The loop over `k` slots from `i` on, with what it has done when it ends or fails. -/
def serveLoop (slot : σ → ℕ → Option α) (marked : ℕ → α → Bool)
    (serve : ℕ → α → σ → Except ε (σ × β)) : ℕ → ℕ → ℤ → σ → List β × Except ε σ
  | 0, _, _, s => ([], .ok s)
  | k + 1, i, nready, s =>
    match slot s i with
    | none => serveLoop slot marked serve k (i + 1) nready s
    | some a =>
      if marked i a then
        match serve i a s with
        | .error e => ([], .error e)
        | .ok (s, b) =>
          if nready - 1 ≤ 0 then ([b], .ok s)
          else
            let r := serveLoop slot marked serve k (i + 1) (nready - 1) s
            (b :: r.1, r.2)
      else serveLoop slot marked serve k (i + 1) nready s

/-- Serving a list of entries to its end, or to the first that fails. -/
def serveAll (serve : ℕ → α → σ → Except ε (σ × β)) :
    List (ℕ × α) → σ → List β × Except ε σ
  | [], s => ([], .ok s)
  | (i, a) :: todo, s =>
    match serve i a s with
    | .error e => ([], .error e)
    | .ok (s, b) =>
      let r := serveAll serve todo s
      (b :: r.1, r.2)

/-- The marked entries among `k` slots from `i` on. -/
def markedFrom (slot : σ → ℕ → Option α) (marked : ℕ → α → Bool) (s : σ) (k i : ℕ) :
    List (ℕ × α) :=
  (List.range' i k).filterMap fun j => ((slot s j).filter (marked j)).map fun a => (j, a)

section Laws

variable {slot : σ → ℕ → Option α} {marked : ℕ → α → Bool}
  {serve : ℕ → α → σ → Except ε (σ × β)} {s t : σ} {k i j : ℕ} {a : α} {b : β}
  {todo : List (ℕ × α)} {bs : List β}

theorem mem_markedFrom {entry : ℕ × α} :
    entry ∈ markedFrom slot marked s k i ↔
      (i ≤ entry.1 ∧ entry.1 < i + k) ∧ slot s entry.1 = some entry.2 ∧ marked entry.1 entry.2 := by
  simp only [markedFrom, List.mem_filterMap, List.mem_range'_1, Option.map_eq_some_iff,
    Option.filter_eq_some_iff]
  constructor
  · rintro ⟨j, hj, a, ⟨hslot, hmarked⟩, rfl⟩
    exact ⟨hj, hslot, hmarked⟩
  · rintro ⟨hj, hslot, hmarked⟩
    exact ⟨entry.1, hj, entry.2, ⟨hslot, hmarked⟩, rfl⟩

theorem markedFrom_succ :
    markedFrom slot marked s (k + 1) i =
      (((slot s i).filter (marked i)).map fun a => (i, a)).toList ++
        markedFrom slot marked s k (i + 1) := by
  rw [markedFrom, List.range'_succ, List.filterMap_cons]
  cases (slot s i).filter (marked i) <;> rfl

theorem markedFrom_concat :
    markedFrom slot marked s (k + 1) i =
      markedFrom slot marked s k i ++
        (((slot s (i + k)).filter (marked (i + k))).map fun a => (i + k, a)).toList := by
  rw [markedFrom, List.range'_1_concat, List.filterMap_append, List.filterMap_cons]
  cases (slot s (i + k)).filter (marked (i + k)) <;> rfl

theorem length_markedFrom :
    (markedFrom slot marked s k i).length =
      (List.range' i k).countP fun j => (slot s j).any (marked j) := by
  induction k generalizing i with
  | zero => rfl
  | succ k ih =>
    rw [markedFrom_succ, List.length_append, ih, List.range'_succ, List.countP_cons, Nat.add_comm]
    congr 1
    cases slot s i with
    | none => rfl
    | some a => cases h : marked i a <;> simp [h]

theorem markedFrom_congr (h : ∀ j, i ≤ j → slot t j = slot s j) :
    markedFrom slot marked t k i = markedFrom slot marked s k i := by
  refine List.filterMap_congr fun j hj => ?_
  rw [h j (List.mem_range'_1.mp hj).1]

/-- No slot is listed twice. -/
theorem nodup_markedFrom : ((markedFrom slot marked s k i).map Prod.fst).Nodup := by
  have hsub : (markedFrom slot marked s k i).map Prod.fst =
      (List.range' i k).filter fun j => ((slot s j).filter (marked j)).isSome := by
    rw [markedFrom, List.map_filterMap, ← List.filterMap_eq_filter]
    refine List.filterMap_congr fun j _ => ?_
    cases h : (slot s j).filter (marked j) <;> simp [h, Option.guard]
  rw [hsub]
  exact List.Nodup.filter _ List.nodup_range'

/-- A loop whose turns leave the other slots serves the first marked entries, as many as were
announced. -/
theorem serveLoop_eq (hframe : ∀ i a s t b, serve i a s = .ok (t, b) → ∀ j ≠ i, slot t j = slot s j)
    {nready : ℤ} (hpos : 0 < nready) :
    serveLoop slot marked serve k i nready s =
      serveAll serve ((markedFrom slot marked s k i).take nready.toNat) s := by
  induction k generalizing i nready s with
  | zero => simp [serveLoop, markedFrom, serveAll]
  | succ k ih =>
    rw [serveLoop, markedFrom_succ]
    cases hslot : slot s i with
    | none =>
      simp only [Option.filter_none, Option.map_none, Option.toList_none, List.nil_append]
      exact ih hpos
    | some a =>
      obtain ⟨n, hn⟩ := Nat.exists_eq_add_one.mpr (Int.pos_iff_toNat_pos.mp hpos)
      by_cases hmarked : marked i a
      · simp only [Option.filter_some, hmarked, if_true, Option.map_some, Option.toList_some,
          List.cons_append, List.nil_append, hn, List.take_succ_cons, serveAll]
        cases hserve : serve i a s with
        | error e => rfl
        | ok found =>
          obtain ⟨t, b⟩ := found
          have hrest : markedFrom slot marked t k (i + 1) = markedFrom slot marked s k (i + 1) :=
            markedFrom_congr fun j hj => hframe i a s t b hserve j (by omega)
          dsimp only
          split_ifs with hlast
          · obtain rfl : n = 0 := by omega
            rfl
          · rw [ih (by omega), hrest, show (nready - 1).toNat = n by omega]
      · simp only [Option.filter_some, hmarked, Bool.false_eq_true, if_false, Option.map_none,
          Option.toList_none, List.nil_append]
        exact ih hpos

theorem serveAll_cons_ok {u : σ} (h : serve i a s = .ok (u, b)) :
    serveAll serve ((i, a) :: todo) s =
      (b :: (serveAll serve todo u).1, (serveAll serve todo u).2) := by
  rw [serveAll, h]

theorem serveAll_cons_error {e : ε} (h : serve i a s = .error e) :
    serveAll serve ((i, a) :: todo) s = ([], .error e) := by
  rw [serveAll, h]

/-- Where every turn is a step of a system, what is done for a list is a run of it, and the run is
there for all of the list unless a turn fails. -/
theorem run_of_serveAll {τ : Type} {M : System τ β} {P : List (ℕ × α) → σ → τ → Prop}
    {Q : α → β → Prop}
    (hstep : ∀ i a todo s u t b, P ((i, a) :: todo) s u → serve i a s = .ok (t, b) →
      ∃ u', M.step u b u' ∧ P todo t u' ∧ Q a b)
    {u : τ} (h : P todo s u) :
    ∃ u', M.Run u (serveAll serve todo s).1 u' ∧ ∀ t, (serveAll serve todo s).2 = .ok t →
      P [] t u' ∧ List.Forall₂ (fun entry b => Q entry.2 b) todo (serveAll serve todo s).1 := by
  induction todo generalizing s u with
  | nil =>
    refine ⟨u, .nil u, ?_⟩
    rintro t ⟨⟩
    exact ⟨h, .nil⟩
  | cons entry todo ih =>
    obtain ⟨i, a⟩ := entry
    cases hserve : serve i a s with
    | error e =>
      rw [serveAll_cons_error hserve]
      exact ⟨u, .nil u, nofun⟩
    | ok found =>
      obtain ⟨s', b⟩ := found
      rw [serveAll_cons_ok hserve]
      obtain ⟨u', hu', hP, hQ⟩ := hstep i a todo s u s' b h hserve
      obtain ⟨u'', hrun, hend⟩ := ih hP
      refine ⟨u'', .cons hu' hrun, fun t ht => ?_⟩
      obtain ⟨hP', hall⟩ := hend t ht
      exact ⟨hP', .cons hQ hall⟩

/-- Where a turn succeeds or fails whatever the state is, a list is served to its end if each of its
entries can be. -/
theorem exists_serveAll_iff {G : α → Prop}
    (hserve : ∀ i a s, (∃ t b, serve i a s = .ok (t, b)) ↔ G a) :
    (∃ t, (serveAll serve todo s).2 = .ok t) ↔ ∀ entry ∈ todo, G entry.2 := by
  induction todo generalizing s with
  | nil => exact iff_of_true ⟨s, rfl⟩ (by simp)
  | cons entry todo ih =>
    obtain ⟨i, a⟩ := entry
    rw [List.forall_mem_cons, ← hserve i a s]
    cases hentry : serve i a s with
    | error e =>
      rw [serveAll_cons_error hentry]
      exact iff_of_false nofun nofun
    | ok found =>
      obtain ⟨u, b⟩ := found
      rw [serveAll_cons_ok hentry, ih]
      exact (and_iff_right ⟨u, b, rfl⟩).symm

theorem exists_error_of_serveAll {e : ε} (h : (serveAll serve todo s).2 = .error e) :
    ∃ entry ∈ todo, ∃ s, serve entry.1 entry.2 s = .error e := by
  induction todo generalizing s with
  | nil => cases h
  | cons entry todo ih =>
    obtain ⟨i, a⟩ := entry
    cases hserve : serve i a s with
    | error e' =>
      rw [serveAll_cons_error hserve] at h
      cases h
      exact ⟨(i, a), List.mem_cons_self, s, hserve⟩
    | ok found =>
      obtain ⟨u, b⟩ := found
      rw [serveAll_cons_ok hserve] at h
      obtain ⟨entry, hentry, t, ht⟩ := ih h
      exact ⟨entry, List.mem_cons_of_mem _ hentry, t, ht⟩

end Laws

end Mbtk.Lib
