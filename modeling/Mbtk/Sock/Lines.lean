import Mbtk.Sock.ReadLine

namespace Mbtk.Sock

open Lib

/-- The next line of a stream, and what is left of the stream behind it. -/
inductive NextLine (maxlen : ℕ) : Line → Tape UInt8 → Tape UInt8 → Prop
  | newline {l : List UInt8} {t : Tape UInt8} : 0x0A ∉ l → l.length + 1 < maxlen →
      NextLine maxlen ⟨l.length + 1, l ++ [0x0A], true⟩ (t.prepend (l ++ [0x0A])) t
  | full {l : List UInt8} {t : Tape UInt8} : 0x0A ∉ l → l.length = maxlen - 1 →
      NextLine maxlen ⟨l.length + 1, l, true⟩ (t.prepend l) t
  | ended {l : List UInt8} {t t' : Tape UInt8} : 0x0A ∉ l → l.length + 1 < maxlen →
      Tape.next.run t = some (.ended, t') → NextLine maxlen ⟨l.length, l, true⟩ (t.prepend l) t'
  | failed {l : List UInt8} {t t' : Tape UInt8} : 0x0A ∉ l → l.length + 1 < maxlen →
      Tape.next.run t = some (.failed, t') → NextLine maxlen ⟨-1, l, false⟩ (t.prepend l) t'

/-- The lines of successive calls. -/
inductive NextLines : List ℕ → List Line → Tape UInt8 → Tape UInt8 → Prop
  | nil {t : Tape UInt8} : NextLines [] [] t t
  | cons {maxlen : ℕ} {maxlens : List ℕ} {line : Line} {lines : List Line} {t t' t'' : Tape UInt8} :
      NextLine maxlen line t t' → NextLines maxlens lines t' t'' →
      NextLines (maxlen :: maxlens) (line :: lines) t t''

section Simulation

variable {σ τ : Type} {view : σ → τ} {next : StateT σ Option (Event UInt8)}
  {next' : StateT τ Option (Event UInt8)}

theorem simulates_readlineLoop (h : Simulates view next next') (k : ℕ) (stored : List UInt8) :
    Simulates view (readlineLoop next k stored) (readlineLoop next' k stored) := by
  induction k generalizing stored with
  | zero => exact .pure _
  | succ k ih =>
    refine .bind h fun e => ?_
    cases e with
    | item c =>
      dsimp only
      split_ifs
      · exact .pure _
      · exact ih _
    | ended => exact .pure _
    | failed => exact .pure _

theorem simulates_sockReadline (h : Simulates view next next') (maxlen : ℕ) :
    Simulates view (sockReadline next maxlen) (sockReadline next' maxlen) :=
  simulates_readlineLoop h _ _

theorem keeps_readlineLoop {R : σ → σ → Prop} (hrefl : ∀ s, R s s)
    (htrans : ∀ s t u, R s t → R t u → R s u) (h : Keeps R next) (k : ℕ) (stored : List UInt8) :
    Keeps R (readlineLoop next k stored) := by
  have hpure (line : Line) : Keeps R (pure line : StateT σ Option Line) := by
    rintro s a t ⟨⟩
    exact hrefl s
  induction k generalizing stored with
  | zero => exact hpure _
  | succ k ih =>
    refine .bind htrans h fun e => ?_
    cases e with
    | item c =>
      dsimp only
      split_ifs
      · exact hpure _
      · exact ih _
    | ended => exact hpure _
    | failed => exact hpure _

end Simulation

section Lines

variable {maxlen k : ℕ} {line : Line} {stored : List UInt8} {t t' : Tape UInt8}

theorem nextLine_of_readlineLoop (hstored : 0x0A ∉ stored) (hk : stored.length + k = maxlen - 1)
    (h : (readlineLoop Tape.next k stored).run t = some (line, t')) :
    NextLine maxlen line (t.prepend stored) t' := by
  induction k generalizing stored t with
  | zero =>
    cases h
    exact .full hstored hk
  | succ k ih =>
    have hlt : stored.length + 1 < maxlen := by omega
    rw [readlineLoop, StateT.run_bind] at h
    obtain ⟨⟨e, u⟩, hnext, hrest⟩ := Option.bind_eq_some_iff.mp h
    cases e with
    | item c =>
      obtain rfl : t = u.prepend [c] := by
        obtain ⟨events, ended⟩ := t
        cases events with
        | nil => cases ended <;> cases hnext
        | cons e events =>
          cases hnext
          rfl
      rw [← prepend_append]
      dsimp only at hrest
      split_ifs at hrest with hc
      · cases hrest
        rw [hc]
        exact .newline hstored hlt
      · refine ih ?_ ?_ hrest
        · simpa [hstored] using Ne.symm hc
        · rw [List.length_append, List.length_singleton]
          omega
    | ended =>
      cases hrest
      exact .ended hstored hlt hnext
    | failed =>
      cases hrest
      exact .failed hstored hlt hnext

theorem readlineLoop_prepend {l : List UInt8} (hl : 0x0A ∉ l) (hk : l.length ≤ k) :
    (readlineLoop Tape.next k stored).run (t.prepend l) =
      (readlineLoop Tape.next (k - l.length) (stored ++ l)).run t := by
  induction l generalizing k stored with
  | nil => rw [List.append_nil, prepend_nil, List.length_nil, Nat.sub_zero]
  | cons c l ih =>
    obtain ⟨k, rfl⟩ := Nat.exists_eq_add_one.mpr (Nat.zero_lt_of_lt hk)
    rw [List.mem_cons, not_or] at hl
    rw [readlineLoop, StateT.run_bind, next_prepend, Option.bind_eq_bind, Option.bind_some]
    dsimp only
    rw [if_neg (Ne.symm hl.1), ih hl.2 (Nat.le_of_succ_le_succ hk), List.append_assoc,
      List.length_cons, Nat.add_sub_add_right]
    rfl

theorem readlineLoop_of_nextLine (h : NextLine maxlen line t t') :
    (sockReadline Tape.next maxlen).run t = some (line, t') := by
  unfold sockReadline
  cases h with
  | @newline l t hl hlt =>
    obtain ⟨k, hk⟩ := Nat.exists_eq_add_of_lt hlt
    rw [prepend_append, readlineLoop_prepend hl (by omega),
      show maxlen - 1 - l.length = k + 1 by omega]
    rfl
  | @full l t hl hlen =>
    rw [readlineLoop_prepend hl hlen.le, hlen, Nat.sub_self]
    simp [readlineLoop, hlen]
  | @ended l t t' hl hlt hnext =>
    obtain ⟨k, hk⟩ := Nat.exists_eq_add_of_lt hlt
    rw [readlineLoop_prepend hl (by omega), show maxlen - 1 - l.length = k + 1 by omega,
      readlineLoop, StateT.run_bind, hnext]
    rfl
  | @failed l t t' hl hlt hnext =>
    obtain ⟨k, hk⟩ := Nat.exists_eq_add_of_lt hlt
    rw [readlineLoop_prepend hl (by omega), show maxlen - 1 - l.length = k + 1 by omega,
      readlineLoop, StateT.run_bind, hnext]
    rfl

theorem sockReadline_eq_some_iff :
    (sockReadline Tape.next maxlen).run t = some (line, t') ↔ NextLine maxlen line t t' :=
  ⟨fun h => nextLine_of_readlineLoop List.not_mem_nil (Nat.zero_add _) h,
    readlineLoop_of_nextLine⟩

end Lines

section Runs

variable {κ : Type} [DecidableEq κ] {fd : κ} {r : Reading κ} {maxlen : ℕ} {line : Line}
  {maxlens : List ℕ} {lines : List Line} {t : Tape UInt8}

/-- Calls of `sock_readline` for one descriptor. -/
def readLines (fd : κ) : List ℕ → StateT (Reading κ) Option (List Line)
  | [] => pure []
  | maxlen :: maxlens => do
    let line ← sockReadline (myRead fd) maxlen
    let lines ← readLines fd maxlens
    return line :: lines

theorem sockReadline_myRead_iff :
    (∃ r', (sockReadline (myRead fd) maxlen).run r = some (line, r') ∧ r'.tape fd = t) ↔
      NextLine maxlen line (r.tape fd) t :=
  (simulates_sockReadline (simulates_myRead fd) maxlen).run_eq_some_iff.trans
    sockReadline_eq_some_iff

theorem keeps_sockReadline (fd : κ) (maxlen : ℕ) :
    Keeps (SameElsewhere fd) (sockReadline (myRead fd) maxlen) :=
  keeps_readlineLoop (.refl fd) (fun _ _ _ => .trans) (keeps_myRead fd) _ _

theorem keeps_readLines (fd : κ) (maxlens : List ℕ) :
    Keeps (SameElsewhere fd) (readLines fd maxlens) := by
  induction maxlens with
  | nil =>
    rintro r a r' ⟨⟩
    exact .refl fd r
  | cons maxlen maxlens ih =>
    refine .bind (fun _ _ _ => .trans) (keeps_sockReadline fd maxlen) fun line => ?_
    refine .bind (fun _ _ _ => .trans) ih fun lines => ?_
    rintro r a r' ⟨⟩
    exact .refl fd r

/-- However the stream of a descriptor is cut into pieces, and whatever interruptions come, the
calls give its lines one after the other, and the other descriptors keep what comes on them. -/
theorem readLines_eq_some_iff :
    (∃ r', (readLines fd maxlens).run r = some (lines, r') ∧ r'.tape fd = t ∧
        SameElsewhere fd r r') ↔
      NextLines maxlens lines (r.tape fd) t := by
  induction maxlens generalizing r lines with
  | nil =>
    constructor
    · rintro ⟨r', ⟨⟩, rfl, -⟩
      exact .nil
    · rintro ⟨⟩
      exact ⟨r, rfl, rfl, .refl fd r⟩
  | cons maxlen maxlens ih =>
    constructor
    · rintro ⟨r'', hrun, rfl, -⟩
      rw [readLines, StateT.run_bind] at hrun
      obtain ⟨⟨line, r'⟩, hfirst, hrun⟩ := Option.bind_eq_some_iff.mp hrun
      rw [StateT.run_bind] at hrun
      obtain ⟨⟨rest, r''⟩, hrest, ⟨⟩⟩ := Option.bind_eq_some_iff.mp hrun
      exact .cons (sockReadline_myRead_iff.mp ⟨r', hfirst, rfl⟩) (ih.mp
        ⟨r'', hrest, rfl, keeps_readLines fd maxlens r' rest r'' hrest⟩)
    · rintro ⟨⟩
      rename_i line lines t' hnext hnexts
      obtain ⟨r', hrun, rfl⟩ := sockReadline_myRead_iff.mpr hnext
      obtain ⟨r'', hrest, rfl, hsame⟩ := ih.mpr hnexts
      refine ⟨r'', ?_, rfl, (keeps_sockReadline fd maxlen r line r' hrun).trans hsame⟩
      rw [readLines, StateT.run_bind, hrun, Option.bind_eq_bind, Option.bind_some, StateT.run_bind,
        hrest]
      rfl

end Runs

end Mbtk.Sock
