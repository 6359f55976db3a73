import Mathlib.Data.List.TakeWhile
import Mbtk.Lib.Arrivals
import Mbtk.Lib.CopyInto

/-! `sock_readline` of `m_sock.c`: its buffer, the characters of `my_read`, and the lines. -/

namespace Mbtk.Sock

open Lib

def MAXLINE : ℕ := 2048

/-- The string in an array. -/
def cString (l : List UInt8) : List UInt8 := l.takeWhile (· ≠ 0)

theorem cString_eq {l : List UInt8} (h : 0 ∉ l) : cString l = l :=
  List.takeWhile_eq_self_iff.mpr fun c hc => by
    simpa using ne_of_mem_of_not_mem hc h

/-- `read_cnt`, `read_ptr` as a position in `read_buf`, and `read_buf`. -/
structure ReadBuf where
  readCnt : ℤ
  readPtr : ℕ
  readBuf : List UInt8
  length_readBuf : readBuf.length = MAXLINE
  inBounds : readPtr + readCnt.toNat ≤ MAXLINE

namespace ReadBuf

def zeroed : ReadBuf where
  readCnt := 0
  readPtr := 0
  readBuf := List.replicate MAXLINE 0
  length_readBuf := List.length_replicate
  inBounds := Nat.zero_le _

def ahead (b : ReadBuf) : List UInt8 := (b.readBuf.drop b.readPtr).take b.readCnt.toNat

/-- `read_cnt` behind a call of `read` that brought nothing. -/
def emptied (b : ReadBuf) (readCnt : ℤ) (h : readCnt ≤ 0) : ReadBuf where
  readCnt := readCnt
  readPtr := b.readPtr
  readBuf := b.readBuf
  length_readBuf := b.length_readBuf
  inBounds := by
    have := b.inBounds
    omega

def filled (b : ReadBuf) (l : List UInt8) (h : l.length ≤ MAXLINE) : ReadBuf where
  readCnt := l.length
  readPtr := 0
  readBuf := l ++ b.readBuf.drop l.length
  length_readBuf := by
    rw [List.length_append, List.length_drop, b.length_readBuf]
    omega
  inBounds := by
    rw [Int.toNat_natCast]
    omega

def takeChar (b : ReadBuf) (h : 0 < b.readCnt) : UInt8 × ReadBuf :=
  have hptr : b.readPtr < b.readBuf.length := by
    have := b.inBounds
    have := b.length_readBuf
    omega
  (b.readBuf[b.readPtr], {
    readCnt := b.readCnt - 1
    readPtr := b.readPtr + 1
    readBuf := b.readBuf
    length_readBuf := b.length_readBuf
    inBounds := by
      have := b.inBounds
      omega })

variable {b : ReadBuf} {l : List UInt8}

theorem ahead_of_nonpos (h : b.readCnt ≤ 0) : b.ahead = [] := by
  rw [ahead, Int.toNat_of_nonpos h, List.take_zero]

theorem ahead_emptied {n : ℤ} (h : n ≤ 0) : (b.emptied n h).ahead = [] := ahead_of_nonpos h

theorem ahead_filled (h : l.length ≤ MAXLINE) : (b.filled l h).ahead = l := by
  simp [ahead, filled]

theorem ahead_takeChar (h : 0 < b.readCnt) :
    b.ahead = (b.takeChar h).1 :: (b.takeChar h).2.ahead := by
  have hptr : b.readPtr < b.readBuf.length := by
    have := b.inBounds
    have := b.length_readBuf
    omega
  have hcnt : b.readCnt.toNat = (b.readCnt - 1).toNat + 1 := by omega
  rw [ahead, List.drop_eq_getElem_cons hptr, hcnt, List.take_succ_cons]
  rfl

end ReadBuf

/-- The static variables, and what comes on each descriptor. -/
structure Reading (κ : Type) where
  buf : ReadBuf
  conns : κ → Source UInt8

section Functions

variable {κ σ : Type} [DecidableEq κ]

/-- `read` from `again` on, up to a call that is not interrupted: the piece, or `none` for -1. -/
def readAgain (ended : Bool) :
    List (Arrival UInt8) → Option (Option (List UInt8) × Source UInt8)
  | .interrupted :: arrivals => readAgain ended arrivals
  | arrivals => do
    let (arrival, s) ← (Source.read MAXLINE).run ⟨arrivals, ended⟩
    match arrival with
    | .piece l => return (some l, s)
    | _ => return (none, s)

def myRead (fd : κ) : StateT (Reading κ) Option (Event UInt8) := fun r =>
  if h : 0 < r.buf.readCnt then
    some (.item (r.buf.takeChar h).1, ⟨(r.buf.takeChar h).2, r.conns⟩)
  else do
    let (answer, s) ← readAgain (r.conns fd).ended (r.conns fd).arrivals
    let conns := Function.update r.conns fd s
    match answer with
    | none => return (.failed, ⟨r.buf.emptied (-1) (by decide), conns⟩)
    | some l =>
      -- `read` brings no more than the array holds.
      if hl : l.length ≤ MAXLINE then
        let buf := r.buf.filled l hl
        if h : 0 < buf.readCnt then
          return (.item (buf.takeChar h).1, ⟨(buf.takeChar h).2, conns⟩)
        else return (.ended, ⟨r.buf.emptied 0 le_rfl, conns⟩)
      else none

/-- What `sock_readline` returns, the characters at `vptr`, and whether a NUL is behind them. -/
structure Line where
  ret : ℤ
  stored : List UInt8
  terminated : Bool
  deriving DecidableEq

/-- The loop of `sock_readline`.  The counter `n` is one more than the characters stored. -/
def readlineLoop (next : StateT σ Option (Event UInt8)) : ℕ → List UInt8 → StateT σ Option Line
  | 0, stored => pure ⟨stored.length + 1, stored, true⟩
  | k + 1, stored => do
    match ← next with
    | .item c =>
      if c = 0x0A then pure ⟨stored.length + 1, stored ++ [c], true⟩
      else readlineLoop next k (stored ++ [c])
    | .ended => pure ⟨stored.length, stored, true⟩
    | .failed => pure ⟨-1, stored, false⟩

/-- `sock_readline`, with `my_read` or another reader of characters. -/
def sockReadline (next : StateT σ Option (Event UInt8)) (maxlen : ℕ) : StateT σ Option Line :=
  readlineLoop next (maxlen - 1) []

/-- `sock_readlinebuf`: `read_cnt`, and what lies at `*vptrptr` if it is set. -/
def sockReadlinebuf (r : Reading κ) : ℤ × List UInt8 := (r.buf.readCnt, r.buf.ahead)

end Functions

section Buffer

variable {κ : Type} [DecidableEq κ] {fd : κ} {r r' r'' : Reading κ}

/-- What is still to be read from a descriptor. -/
def Reading.tape (fd : κ) (r : Reading κ) : Tape UInt8 := (r.conns fd).tape.prepend r.buf.ahead

theorem readAgain_eq (ended : Bool) (arrivals : List (Arrival UInt8)) :
    match readAgain ended arrivals with
    | none => Tape.next.run (Source.tape ⟨arrivals, ended⟩) = none
    | some (none, s) => Tape.next.run (Source.tape ⟨arrivals, ended⟩) = some (.failed, s.tape)
    | some (some l, s) => l.length ≤ MAXLINE ∧
        if l = [] then Tape.next.run (Source.tape ⟨arrivals, ended⟩) = some (.ended, s.tape)
        else Source.tape ⟨arrivals, ended⟩ = s.tape.prepend l := by
  induction arrivals with
  | nil =>
    cases ended with
    | false => rfl
    | true => exact ⟨Nat.zero_le _, rfl⟩
  | cons arrival arrivals ih =>
    cases arrival with
    | interrupted => exact ih
    | failed => rfl
    | piece l =>
      rw [readAgain]
      · cases h : (Source.read MAXLINE).run ⟨.piece l :: arrivals, ended⟩ with
        | none => exact next_of_read_none h
        | some found =>
          obtain ⟨arrival, s⟩ := found
          cases arrival with
          | piece m => exact tape_of_read_piece (by decide) h
          | interrupted =>
            simp only [StateT.run, Source.read] at h
            split_ifs at h <;> cases h
          | failed =>
            simp only [StateT.run, Source.read] at h
            split_ifs at h <;> cases h
      · simp

theorem simulates_myRead (fd : κ) : Simulates (Reading.tape fd) (myRead fd) Tape.next := by
  intro r
  unfold Reading.tape myRead
  simp only [StateT.run]
  split_ifs with h
  · rw [ReadBuf.ahead_takeChar h]
    exact (next_prepend _ _ _).symm
  · have hfound := readAgain_eq (r.conns fd).ended (r.conns fd).arrivals
    rw [ReadBuf.ahead_of_nonpos (not_lt.mp h), prepend_nil]
    cases hread : readAgain (r.conns fd).ended (r.conns fd).arrivals with
    | none =>
      rw [hread] at hfound
      exact hfound.symm
    | some found =>
      obtain ⟨answer, s⟩ := found
      rw [hread] at hfound
      cases answer with
      | none =>
        refine Eq.trans ?_ hfound.symm
        simp [ReadBuf.ahead_emptied]
      | some l =>
        obtain ⟨hl, hfound⟩ := hfound
        simp only [Option.bind_eq_bind, Option.bind_some, dif_pos hl]
        split_ifs with hpos
        · have hne : l ≠ [] := List.length_pos_iff.mp (by simpa [ReadBuf.filled] using hpos)
          rw [if_neg hne] at hfound
          rw [hfound]
          have hahead := ReadBuf.ahead_takeChar hpos
          rw [ReadBuf.ahead_filled hl] at hahead
          simp only [Option.pure_def, Option.map_some, Prod.map_apply, Function.update_self]
          conv_rhs => rw [hahead]
          rfl
        · have hnil : l = [] :=
            List.length_eq_zero_iff.mp (by simpa [ReadBuf.filled] using hpos)
          rw [if_pos hnil] at hfound
          refine Eq.trans ?_ hfound.symm
          simp [ReadBuf.ahead_emptied]

/-- What comes on the other descriptors stays. -/
def SameElsewhere (fd : κ) (r r' : Reading κ) : Prop := ∀ other ≠ fd, r'.conns other = r.conns other

omit [DecidableEq κ] in
theorem SameElsewhere.refl (fd : κ) (r : Reading κ) : SameElsewhere fd r r := fun _ _ => rfl

omit [DecidableEq κ] in
theorem SameElsewhere.trans (h : SameElsewhere fd r r') (h' : SameElsewhere fd r' r'') :
    SameElsewhere fd r r'' := fun other hne => (h' other hne).trans (h other hne)

theorem sameElsewhere_update (buf : ReadBuf) (s : Source UInt8) :
    SameElsewhere fd r ⟨buf, Function.update r.conns fd s⟩ :=
  fun _ hne => Function.update_of_ne hne _ _

theorem keeps_myRead (fd : κ) : Keeps (SameElsewhere fd) (myRead fd) := by
  intro r e r' hrun
  simp only [StateT.run, myRead] at hrun
  split_ifs at hrun with h
  · cases hrun
    exact .refl fd _
  · obtain ⟨⟨answer, s⟩, -, hrun⟩ := Option.bind_eq_some_iff.mp hrun
    cases answer with
    | none =>
      cases hrun
      exact sameElsewhere_update _ s
    | some l =>
      dsimp only at hrun
      split_ifs at hrun <;> cases hrun <;> exact sameElsewhere_update _ s

end Buffer

end Mbtk.Sock
