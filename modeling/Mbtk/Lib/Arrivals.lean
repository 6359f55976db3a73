import Mathlib.Tactic

/-! Streams that arrive in pieces, and computations on the states that read them. -/

namespace Mbtk.Lib

section Simulates

variable {σ τ α β : Type} {view : σ → τ} {x : StateT σ Option α} {x' : StateT τ Option α}
  {f : α → StateT σ Option β} {f' : α → StateT τ Option β}

/-- Under a view of its states, a computation is another one. -/
def Simulates (view : σ → τ) (x : StateT σ Option α) (x' : StateT τ Option α) : Prop :=
  ∀ s, (x.run s).map (Prod.map id view) = x'.run (view s)

theorem Simulates.pure (a : α) :
    Simulates view (Pure.pure a : StateT σ Option α) (Pure.pure a) := fun _ => rfl

theorem Simulates.bind (h : Simulates view x x') (hf : ∀ a, Simulates view (f a) (f' a)) :
    Simulates view (x >>= f) (x' >>= f') := by
  intro s
  rw [StateT.run_bind, StateT.run_bind, ← h s]
  cases x.run s with
  | none => rfl
  | some r => exact hf r.1 r.2

theorem Simulates.run_eq_some_iff {s : σ} {a : α} {t : τ} (h : Simulates view x x') :
    (∃ s', x.run s = some (a, s') ∧ view s' = t) ↔ x'.run (view s) = some (a, t) := by
  rw [← h s, Option.map_eq_some_iff]
  constructor
  · rintro ⟨s', hrun, rfl⟩
    exact ⟨(a, s'), hrun, rfl⟩
  · rintro ⟨⟨b, s'⟩, hrun, heq⟩
    obtain ⟨hb, ht⟩ := Prod.mk.inj heq
    rw [← hb]
    exact ⟨s', hrun, ht⟩

/-- What a computation does to the state is of one kind. -/
def Keeps (R : σ → σ → Prop) (x : StateT σ Option α) : Prop :=
  ∀ s a t, x.run s = some (a, t) → R s t

theorem Keeps.bind {R : σ → σ → Prop} (htrans : ∀ s t u, R s t → R t u → R s u) (h : Keeps R x)
    (hf : ∀ a, Keeps R (f a)) : Keeps R (x >>= f) := by
  intro s b u hrun
  rw [StateT.run_bind] at hrun
  obtain ⟨⟨a, t⟩, hx, hrun⟩ := Option.bind_eq_some_iff.mp hrun
  exact htrans s t u (h s a t hx) (hf a t b u hrun)

end Simulates

/-- What a call that reads a stream finds.  The piece at the end of a stream is empty. -/
inductive Arrival (α : Type)
  | interrupted
  | failed
  | piece (l : List α)
  deriving DecidableEq

/-- The arrivals to come.  Behind the last one a stream has ended, or there is nothing yet. -/
structure Source (α : Type) where
  arrivals : List (Arrival α)
  ended : Bool
  deriving DecidableEq

/-- What a reader of single items finds. -/
inductive Event (α : Type)
  | item (a : α)
  | ended
  | failed
  deriving DecidableEq

/-- A stream without its pieces. -/
structure Tape (α : Type) where
  events : List (Event α)
  ended : Bool

variable {α : Type}

def Arrival.events : Arrival α → List (Event α)
  | .interrupted => []
  | .failed => [.failed]
  | .piece [] => [.ended]
  | .piece (a :: l) => .item a :: l.map .item

/-- The stream of a source. -/
def Source.tape (s : Source α) : Tape α := ⟨s.arrivals.flatMap Arrival.events, s.ended⟩

/-- A stream behind other items. -/
def Tape.prepend (l : List α) (t : Tape α) : Tape α := ⟨l.map .item ++ t.events, t.ended⟩

/-- The next event. -/
def Tape.next : StateT (Tape α) Option (Event α) := fun t =>
  match t.events with
  | e :: events => some (e, ⟨events, t.ended⟩)
  | [] => if t.ended then some (.ended, t) else none

/-- A call that reads at most `n` items of the piece that it finds. -/
def Source.read (n : ℕ) : StateT (Source α) Option (Arrival α) := fun s =>
  match s.arrivals with
  | .piece l :: arrivals =>
    if l.length ≤ n then some (.piece l, ⟨arrivals, s.ended⟩)
    else some (.piece (l.take n), ⟨.piece (l.drop n) :: arrivals, s.ended⟩)
  | e :: arrivals => some (e, ⟨arrivals, s.ended⟩)
  | [] => if s.ended then some (.piece [], s) else none

section Laws

variable {n : ℕ} {s s' : Source α} {t : Tape α} {l m : List α}

theorem events_piece (h : l ≠ []) : Arrival.events (.piece l) = l.map .item := by
  cases l with
  | nil => exact absurd rfl h
  | cons a l => rfl

@[simp] theorem prepend_nil (t : Tape α) : t.prepend [] = t := rfl

theorem prepend_append (l m : List α) (t : Tape α) :
    t.prepend (l ++ m) = (t.prepend m).prepend l := by
  simp only [Tape.prepend, List.map_append, List.append_assoc]

theorem next_prepend (a : α) (l : List α) (t : Tape α) :
    Tape.next.run (t.prepend (a :: l)) = some (.item a, t.prepend l) := rfl

theorem tape_piece (h : l ≠ []) (arrivals : List (Arrival α)) (ended : Bool) :
    Source.tape ⟨.piece l :: arrivals, ended⟩ = (Source.tape ⟨arrivals, ended⟩).prepend l := by
  simp only [Source.tape, Tape.prepend, List.flatMap_cons, events_piece h]

/-- A source that holds nothing more. -/
theorem next_of_read_none (h : (Source.read n).run s = none) : Tape.next.run s.tape = none := by
  obtain ⟨arrivals, ended⟩ := s
  cases arrivals with
  | nil =>
    cases ended with
    | false => rfl
    | true => cases h
  | cons e arrivals =>
    cases e with
    | piece l =>
      simp only [StateT.run, Source.read] at h
      split_ifs at h
    | interrupted => cases h
    | failed => cases h

/-- A piece that is not empty comes in front of what is left of the source. -/
theorem tape_of_read_piece (hn : 0 < n) (h : (Source.read n).run s = some (.piece l, s')) :
    l.length ≤ n ∧ if l = [] then Tape.next.run s.tape = some (.ended, s'.tape)
      else s.tape = s'.tape.prepend l := by
  obtain ⟨arrivals, ended⟩ := s
  cases arrivals with
  | nil =>
    cases ended with
    | false => cases h
    | true =>
      cases h
      exact ⟨Nat.zero_le n, rfl⟩
  | cons e arrivals =>
    cases e with
    | interrupted => cases h
    | failed => cases h
    | piece m =>
      simp only [StateT.run, Source.read] at h
      split_ifs at h with hm
      · cases h
        refine ⟨hm, ?_⟩
        split_ifs with hl
        · rw [hl]
          rfl
        · exact tape_piece hl arrivals ended
      · cases h
        have hlong : 0 < (m.take n).length ∧ 0 < (m.drop n).length := by
          rw [List.length_take, List.length_drop]
          omega
        have hne : m ≠ [] := by
          rintro rfl
          simp at hlong
        refine ⟨List.length_take_le n m, ?_⟩
        rw [if_neg (List.length_pos_iff.mp hlong.1), tape_piece hne,
          tape_piece (List.length_pos_iff.mp hlong.2), ← prepend_append, List.take_append_drop]

end Laws

end Mbtk.Lib
