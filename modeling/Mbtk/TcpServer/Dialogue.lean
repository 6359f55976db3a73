import Mbtk.Lib.Cuts
import Mbtk.TcpServer.EchoClient

namespace Mbtk.TcpServer

open Lib Sock

/-- The line that is sent for a line that is typed. -/
def sent (line : List UInt8) : Option (List UInt8) :=
  match command line with
  | .send sendline => some sendline
  | _ => none

def Said.line : Said → Option (List UInt8)
  | .typed line _ => some line
  | .exited line => some line
  | .strayed line => some line
  | _ => none

def Said.sendline : Said → Option (List UInt8)
  | .typed _ sendline => some sendline
  | _ => none

def Said.data : Said → Option (List UInt8)
  | .served data _ => some data
  | _ => none

def Said.recvline : Said → Option (List UInt8)
  | .printed recvline => some recvline
  | _ => none

/-- The lines of standard input. -/
def lines (es : List Said) : List (List UInt8) := es.filterMap Said.line

def sendlines (es : List Said) : List (List UInt8) := es.filterMap Said.sendline

/-- The pieces that the child process reads. -/
def pieces (es : List Said) : List (List UInt8) := es.filterMap Said.data

/-- The lines that the client prints. -/
def recvlines (es : List Said) : List (List UInt8) := es.filterMap Said.recvline

def answer (data : List UInt8) : List UInt8 := data ++ [0x0A]

def Plain (l : List UInt8) : Prop := 0x0A ∉ l ∧ 0 ∉ l

section Command

variable {k : ℕ} {l m line stdin rest sendline : List UInt8}

theorem plain_append_iff : Plain (l ++ m) ↔ Plain l ∧ Plain m := by
  simp only [Plain, List.mem_append, not_or]
  tauto

theorem append_fgetsLoop (k : ℕ) (stdin : List UInt8) :
    (fgetsLoop k stdin).1 ++ (fgetsLoop k stdin).2 = stdin := by
  induction k generalizing stdin with
  | zero => rfl
  | succ k ih =>
    cases stdin with
    | nil => rfl
    | cons c stdin =>
      rw [fgetsLoop]
      split_ifs
      · rfl
      · exact congrArg (c :: ·) (ih stdin)

theorem fgetsLoop_prefix (k : ℕ) (stdin : List UInt8) :
    ∃ l, 0x0A ∉ l ∧ (fgetsLoop k stdin).1 <+: l ++ [0x0A] := by
  induction k generalizing stdin with
  | zero => exact ⟨[], List.not_mem_nil, List.nil_prefix⟩
  | succ k ih =>
    cases stdin with
    | nil => exact ⟨[], List.not_mem_nil, List.nil_prefix⟩
    | cons c stdin =>
      rw [fgetsLoop]
      split_ifs with hc
      · exact ⟨[], List.not_mem_nil, hc ▸ List.prefix_rfl⟩
      · obtain ⟨l, hl, hpre⟩ := ih stdin
        exact ⟨c :: l, by simpa [hl] using Ne.symm hc, List.cons_prefix_cons.mpr ⟨rfl, hpre⟩⟩

theorem fgets_eq_some (h : fgets MAXLINE stdin = some (line, rest)) :
    line ++ rest = stdin ∧ ∃ l, 0x0A ∉ l ∧ line <+: l ++ [0x0A] := by
  unfold fgets at h
  split_ifs at h
  have hline : (line, rest) = fgetsLoop (MAXLINE - 1) stdin := (Option.some.inj h).symm
  have hpre := fgetsLoop_prefix (MAXLINE - 1) stdin
  have happ := append_fgetsLoop (MAXLINE - 1) stdin
  rw [← hline] at hpre happ
  exact ⟨happ, hpre⟩

theorem stripBack_eq_some (h : stripBack l = some m) :
    m <:+ l ∧ ∃ c m', m = c :: m' ∧ c ≠ 0x0A := by
  induction l with
  | nil => cases h
  | cons c l ih =>
    rw [stripBack] at h
    split_ifs at h with hc
    · obtain ⟨hsuf, hm⟩ := ih h
      exact ⟨hsuf.trans (List.suffix_cons c l), hm⟩
    · cases h
      exact ⟨List.suffix_rfl, c, l, rfl, fun heq => hc (.inr heq)⟩

/-- A line with nothing in front of its end. -/
def Blank (line : List UInt8) : Prop := ∀ c ∈ cString line, c = 0x0D ∨ c = 0x0A

theorem stripBack_eq_none_iff : stripBack l = none ↔ ∀ c ∈ l, c = 0x0D ∨ c = 0x0A := by
  induction l with
  | nil => simp [stripBack]
  | cons c l ih =>
    rw [stripBack, List.forall_mem_cons]
    split_ifs with hc
    · rw [ih, and_iff_right hc]
    · exact iff_of_false nofun fun hand => hc hand.1

theorem command_eq_outOfBounds_iff : command line = .outOfBounds ↔ Blank line := by
  have hstrip : stripBack (cString line).reverse = none ↔ Blank line := by
    simp only [stripBack_eq_none_iff, List.mem_reverse, Blank]
  rw [← hstrip, command]
  cases stripBack (cString line).reverse with
  | none => simp
  | some m =>
    dsimp only
    split_ifs <;> simp

theorem plain_of_command (hline : fgets MAXLINE stdin = some (line, rest))
    (h : command line = .send sendline) : sendline ≠ [] ∧ Plain sendline := by
  unfold command at h
  cases hstrip : stripBack (cString line).reverse with
  | none =>
    rw [hstrip] at h
    cases h
  | some m =>
    rw [hstrip] at h
    dsimp only at h
    split_ifs at h
    cases h
    obtain ⟨hsuf, c, m, rfl, hc⟩ := stripBack_eq_some hstrip
    have hpre : (c :: m).reverse <+: cString line := List.reverse_suffix.mp (by simpa using hsuf)
    refine ⟨by simp, fun hmem => ?_, fun hmem => ?_⟩
    · obtain ⟨-, l, hl, hend⟩ := fgets_eq_some hline
      have htyped : cString line <+: line := List.takeWhile_prefix _
      obtain heq | hpre := List.prefix_concat_iff.mp ((hpre.trans htyped).trans hend)
      · rw [List.reverse_cons] at heq
        exact hc (List.singleton_inj.mp (List.append_inj_right' heq rfl))
      · exact hl (hpre.subset hmem)
    · simpa using List.mem_takeWhile_imp (hpre.subset hmem)

end Command

section Stream

variable {line : Line} {l m data more later : List UInt8} {t : Tape UInt8} {r : Reading Unit}

/-- A stream that has not ended. -/
def flowing (l : List UInt8) : Tape UInt8 := ⟨l.map .item, false⟩

theorem flowing_append (m l : List UInt8) : flowing (m ++ l) = (flowing l).prepend m := by
  simp only [flowing, Tape.prepend, List.map_append]

theorem prepend_eq_flowing (h : t.prepend m = flowing l) : ∃ l', l = m ++ l' ∧ t = flowing l' := by
  obtain ⟨events, ended⟩ := t
  obtain ⟨hevents, rfl⟩ := Tape.mk.inj h
  obtain ⟨m', l', rfl, hm, rfl⟩ := List.map_eq_append_iff.mp hevents.symm
  rw [List.map_injective_iff.mpr (fun _ _ => Event.item.inj) hm]
  exact ⟨l', rfl, rfl⟩

theorem nextLine_flowing (h : NextLine MAXLINE line (flowing l) t) :
    ∃ m l', 0x0A ∉ m ∧ l = m ++ l' ∧ (m.length = MAXLINE - 1 ∨ ∃ l'',
      l' = 0x0A :: l'' ∧ line = ⟨m.length + 1, answer m, true⟩ ∧ t = flowing l'') := by
  generalize htape : flowing l = tape at h
  cases h with
  | @newline m t hm hlen =>
    obtain ⟨l', rfl, rfl⟩ := prepend_eq_flowing htape.symm
    exact ⟨m, 0x0A :: l', hm, List.append_assoc _ _ _, .inr ⟨l', rfl, rfl, rfl⟩⟩
  | @full m t hm hlen =>
    obtain ⟨l', rfl, rfl⟩ := prepend_eq_flowing htape.symm
    exact ⟨m, l', hm, rfl, .inl hlen⟩
  | @ended m t t' hm hlen hnext =>
    obtain ⟨l', rfl, rfl⟩ := prepend_eq_flowing htape.symm
    cases l' <;> cases hnext
  | @failed m t t' hm hlen hnext =>
    obtain ⟨l', rfl, rfl⟩ := prepend_eq_flowing htape.symm
    cases l' <;> cases hnext

theorem not_nextLine_nil : ¬ NextLine MAXLINE line (flowing []) t := by
  intro h
  obtain ⟨m, l', -, hnil, hend⟩ := nextLine_flowing h
  obtain ⟨rfl, rfl⟩ := List.append_eq_nil_iff.mp hnil.symm
  obtain hlen | ⟨l'', hcons, -⟩ := hend
  · exact absurd hlen (by decide)
  · cases hcons

theorem nextLine_answer (h : NextLine MAXLINE line (flowing l) t) (hdata : 0x0A ∉ data)
    (hlen : data.length + 2 ≤ MAXLINE) (hl : l ++ later = answer data ++ more) :
    line = ⟨data.length + 1, answer data, true⟩ ∧ ∃ l', t = flowing l' ∧ l' ++ later = more := by
  obtain ⟨m, l', hm, rfl, hend⟩ := nextLine_flowing h
  rw [List.append_assoc, answer, List.append_assoc, List.singleton_append] at hl
  obtain ⟨c, rfl, hrest⟩ := prefix_of_notMem hm hl
  obtain hfull | ⟨l'', rfl, rfl, rfl⟩ := hend
  · rw [List.length_append] at hlen
    omega
  · cases c with
    | nil =>
      rw [List.append_nil]
      exact ⟨rfl, l'', rfl, List.cons_injective hrest⟩
    | cons b c =>
      obtain ⟨rfl, -⟩ := List.cons_eq_cons.mp hrest
      exact absurd (List.mem_append_right _ List.mem_cons_self) hdata

theorem nextLine_of_answer (hdata : 0x0A ∉ data) (hlen : data.length + 2 ≤ MAXLINE) :
    NextLine MAXLINE ⟨data.length + 1, answer data, true⟩ (flowing (answer data ++ l))
      (flowing l) := by
  rw [flowing_append]
  exact .newline hdata (by omega)

theorem tape_arrive (interruptions : ℕ) (hr : r.tape () = flowing l) (hdata : data ≠ []) :
    (Dialogue.arrive interruptions data r).tape () = flowing (l ++ data) := by
  obtain ⟨hevents, hended⟩ := Tape.mk.inj hr
  simp only [Reading.tape, Source.tape, Tape.prepend, Dialogue.arrive] at hevents hended ⊢
  rw [hended, List.flatMap_append, List.flatMap_append, ← List.append_assoc, ← List.append_assoc,
    hevents]
  simp [flowing, ← events_piece hdata, Arrival.events, List.flatMap_replicate]

end Stream

section Follows

variable {stdin : List UInt8} {past es : List Said} {e : Said} {s t : Dialogue}

@[simp] theorem lines_concat : lines (past ++ [e]) = lines past ++ e.line.toList := by
  cases h : e.line <;> simp [lines, h]

@[simp] theorem sendlines_concat : sendlines (past ++ [e]) = sendlines past ++
  e.sendline.toList := by
  cases h : e.sendline <;> simp [sendlines, h]

@[simp] theorem pieces_concat : pieces (past ++ [e]) = pieces past ++ e.data.toList := by
  cases h : e.data <;> simp [pieces, h]

@[simp] theorem recvlines_concat : recvlines (past ++ [e]) = recvlines past ++
  e.recvline.toList := by
  cases h : e.recvline <;> simp [recvlines, h]

attribute [simp] Said.line Said.sendline Said.data Said.recvline

structure IsPiece (data : List UInt8) : Prop where
  ne_nil : data ≠ []
  plain : Plain data
  length_add_two_le : data.length + 2 ≤ MAXLINE

/-- The pieces `left` that are answered are not yet read by the client. -/
structure Answered (s : Dialogue) (heard left : List (List UInt8)) (es : List Said) : Prop where
  pieces_eq : pieces es = heard ++ left
  recvlines_eq : recvlines es = heard.map answer
  underway : ∃ l, s.reading.tape () = flowing l ∧ l ++ s.toClient = (left.map answer).flatten

structure Follows (stdin : List UInt8) (es : List Said) (s : Dialogue) : Prop where
  input : (lines es).flatten ++ s.stdin = stdin
  sendlines_eq : sendlines es = (lines es).filterMap sent
  flatten_sendlines : (sendlines es).flatten = (pieces es).flatten ++ s.toServer
  toServer : Plain s.toServer
  isPiece : ∀ data ∈ pieces es, IsPiece data
  answered : ∃ heard left, Answered s heard left es
  turns : (sendlines es).length = (recvlines es).length + if s.phase = .waiting then 1 else 0
  lead : (sendlines es).length ≤ (pieces es).length + if s.toServer = [] then 0 else 1
  healthy : .terminated ∉ es ∧ .failed ∉ es

theorem follows_start (stdin : List UInt8) : Follows stdin [] (.start stdin) where
  input := rfl
  sendlines_eq := rfl
  flatten_sendlines := rfl
  toServer := ⟨List.not_mem_nil, List.not_mem_nil⟩
  isPiece := fun _ h => absurd h List.not_mem_nil
  answered := ⟨[], [], rfl, rfl, [], rfl, rfl⟩
  turns := rfl
  lead := Nat.zero_le _
  healthy := ⟨List.not_mem_nil, List.not_mem_nil⟩

theorem Follows.length_recvlines_le (h : Follows stdin past s) :
    (recvlines past).length ≤ (pieces past).length := by
  obtain ⟨heard, left, hpieces, hrecv, -⟩ := h.answered
  rw [hpieces, hrecv, List.length_map, List.length_append]
  exact Nat.le_add_right _ _

theorem not_mem_concat {e' : Said} (h : e' ∉ past) (hne : e' ≠ e) : e' ∉ past ++ [e] :=
  List.not_mem_append h (mt List.mem_singleton.mp hne)

theorem Follows.typed {line sendline rest : List UInt8} (h : Follows stdin past s)
    (hphase : s.phase = .typing) (hline : fgets MAXLINE s.stdin = some (line, rest))
    (hcommand : command line = .send sendline) :
    Follows stdin (past ++ [.typed line sendline])
      { s with phase := .waiting, stdin := rest, toServer := s.toServer ++ sendline } := by
  obtain ⟨hne, hplain⟩ := plain_of_command hline hcommand
  obtain ⟨happ, -⟩ := fgets_eq_some hline
  have hsent : sent line = some sendline := by rw [sent, hcommand]
  constructor
  case input => simpa [happ] using h.input
  case sendlines_eq => simp [h.sendlines_eq, hsent]
  case flatten_sendlines => simp [h.flatten_sendlines]
  case toServer => exact plain_append_iff.mpr ⟨h.toServer, hplain⟩
  case isPiece => simpa using h.isPiece
  case answered =>
    obtain ⟨heard, left, hpieces, hrecv, hunder⟩ := h.answered
    refine ⟨heard, left, ?_, ?_, hunder⟩
    · simpa using hpieces
    · simpa using hrecv
  case turns => simpa [hphase] using h.turns
  case lead =>
    have hturns := h.turns
    rw [hphase, if_neg (by decide)] at hturns
    rw [sendlines_concat, pieces_concat, if_neg (by simp [hne])]
    simpa [hturns] using h.length_recvlines_le
  case healthy => exact ⟨not_mem_concat h.healthy.1 nofun, not_mem_concat h.healthy.2 nofun⟩

theorem Follows.exited {line rest : List UInt8} (h : Follows stdin past s)
    (hphase : s.phase = .typing) (hline : line ++ rest = s.stdin) (hsent : sent line = none) :
    Follows stdin (past ++ [.exited line]) { s with phase := .exited, stdin := rest } where
  input := by simpa [hline] using h.input
  sendlines_eq := by simp [h.sendlines_eq, hsent]
  flatten_sendlines := by simpa using h.flatten_sendlines
  toServer := h.toServer
  isPiece := by simpa using h.isPiece
  answered := by
    obtain ⟨heard, left, hpieces, hrecv, hunder⟩ := h.answered
    refine ⟨heard, left, ?_, ?_, hunder⟩
    · simpa using hpieces
    · simpa using hrecv
  turns := by simpa [hphase] using h.turns
  lead := by simpa using h.lead
  healthy := ⟨not_mem_concat h.healthy.1 nofun, not_mem_concat h.healthy.2 nofun⟩

theorem Follows.strayed {line rest : List UInt8} (h : Follows stdin past s)
    (hline : line ++ rest = s.stdin) (hsent : sent line = none) :
    Follows stdin (past ++ [.strayed line]) { s with stdin := rest, overrun := true } where
  input := by simpa [hline] using h.input
  sendlines_eq := by simp [h.sendlines_eq, hsent]
  flatten_sendlines := by simpa using h.flatten_sendlines
  toServer := h.toServer
  isPiece := by simpa using h.isPiece
  answered := by
    obtain ⟨heard, left, hpieces, hrecv, hunder⟩ := h.answered
    refine ⟨heard, left, ?_, ?_, hunder⟩
    · simpa using hpieces
    · simpa using hrecv
  turns := by simpa using h.turns
  lead := by simpa using h.lead
  healthy := ⟨not_mem_concat h.healthy.1 nofun, not_mem_concat h.healthy.2 nofun⟩

theorem Follows.overran (h : Follows stdin past s) (data : List UInt8) :
    Follows stdin (past ++ [.overran data]) { s with overrun := true } where
  input := by simpa using h.input
  sendlines_eq := by simp [h.sendlines_eq]
  flatten_sendlines := by simpa using h.flatten_sendlines
  toServer := h.toServer
  isPiece := by simpa using h.isPiece
  answered := by
    obtain ⟨heard, left, hpieces, hrecv, hunder⟩ := h.answered
    refine ⟨heard, left, ?_, ?_, hunder⟩
    · simpa using hpieces
    · simpa using hrecv
  turns := by simpa using h.turns
  lead := by simpa using h.lead
  healthy := ⟨not_mem_concat h.healthy.1 nofun, not_mem_concat h.healthy.2 nofun⟩

theorem reply_eq_error {fd : ℕ} {data : List UInt8} (h : reply fd data true = .error .overflow) :
    MAXLINE < data.length + 2 := by
  by_contra hlen
  rw [reply, if_neg hlen, if_pos rfl] at h
  cases h

theorem reply_eq_ok {fd : ℕ} {data l : List UInt8} {writes : Bool}
    (h : reply fd data writes = .ok (.echoed fd data l)) :
    data.length + 2 ≤ MAXLINE ∧ l = answer data := by
  unfold reply at h
  split_ifs at h with hlen
  cases h
  exact ⟨Nat.le_of_not_lt hlen, rfl⟩

theorem Follows.served {data rest : List UInt8} (h : Follows stdin past s)
    (hdata : s.toServer = data ++ rest) (hne : data ≠ []) (hlen : data.length + 2 ≤ MAXLINE) :
    Follows stdin (past ++ [.served data (answer data)])
      { s with toServer := rest, toClient := s.toClient ++ answer data } := by
  obtain ⟨hplain, hrest⟩ := plain_append_iff.mp (hdata ▸ h.toServer)
  constructor
  case input => simpa using h.input
  case sendlines_eq => simpa using h.sendlines_eq
  case flatten_sendlines => simpa [hdata] using h.flatten_sendlines
  case toServer => exact hrest
  case isPiece =>
    simp only [pieces_concat, Said.data, Option.toList_some, List.forall_mem_append,
      List.forall_mem_singleton]
    exact ⟨h.isPiece, hne, hplain, hlen⟩
  case answered =>
    obtain ⟨heard, left, hpieces, hrecv, l, htape, hunder⟩ := h.answered
    refine ⟨heard, left ++ [data], ?_, ?_, l, htape, ?_⟩
    · simp [hpieces]
    · simpa using hrecv
    · simp [← hunder]
  case turns => simpa using h.turns
  case lead =>
    have hlead := h.lead
    rw [if_neg (by simp [hdata, hne])] at hlead
    rw [sendlines_concat, pieces_concat]
    simp only [Said.sendline, Said.data, Option.toList_none, Option.toList_some, List.append_nil,
      List.length_append, List.length_singleton]
    omega
  case healthy => exact ⟨not_mem_concat h.healthy.1 nofun, not_mem_concat h.healthy.2 nofun⟩

theorem Follows.arrived {interruptions : ℕ} {data rest : List UInt8} (h : Follows stdin past s)
    (hdata : s.toClient = data ++ rest) (hne : data ≠ []) :
    Follows stdin (past ++ [.arrived interruptions data])
      { s with
        toClient := rest
        reading := Dialogue.arrive interruptions data s.reading } where
  input := by simpa using h.input
  sendlines_eq := by simpa using h.sendlines_eq
  flatten_sendlines := by simpa using h.flatten_sendlines
  toServer := h.toServer
  isPiece := by simpa using h.isPiece
  answered := by
    obtain ⟨heard, left, hpieces, hrecv, l, htape, hunder⟩ := h.answered
    refine ⟨heard, left, ?_, ?_, l ++ data, tape_arrive _ htape hne, ?_⟩
    · simpa using hpieces
    · simpa using hrecv
    · rw [List.append_assoc, ← hdata, hunder]
  turns := by simpa using h.turns
  lead := by simpa using h.lead
  healthy := ⟨not_mem_concat h.healthy.1 nofun, not_mem_concat h.healthy.2 nofun⟩

theorem plain_answer {data : List UInt8} (h : Plain data) : cString (answer data) = answer data :=
  cString_eq (List.not_mem_append h.2 (by decide))

theorem Follows.heard {line : Line} {r : Reading Unit} (h : Follows stdin past s)
    (hphase : s.phase = .waiting)
    (hrun : (sockReadline (myRead ()) MAXLINE).run s.reading = some (line, r)) :
    Follows stdin (past ++ [Dialogue.heard line])
      { s with phase := if 0 < line.ret then .typing else .exited, reading := r } := by
  obtain ⟨heard, left, hpieces, hrecv, l, htape, hunder⟩ := h.answered
  have hnext : NextLine MAXLINE line (flowing l) (r.tape ()) :=
    htape ▸ sockReadline_myRead_iff.mp ⟨r, hrun, rfl⟩
  cases left with
  | nil =>
    obtain ⟨rfl, -⟩ := List.append_eq_nil_iff.mp hunder
    exact absurd hnext not_nextLine_nil
  | cons data left =>
    obtain ⟨hne, hplain, hlen⟩ := h.isPiece data (by simp [hpieces])
    obtain ⟨rfl, l', htape', hunder'⟩ := nextLine_answer hnext hplain.1 hlen hunder
    have hheard : Dialogue.heard ⟨data.length + 1, answer data, true⟩ = .printed (answer data) := by
      rw [Dialogue.heard, if_neg (by dsimp only; omega), if_neg (by dsimp only; omega),
        plain_answer hplain]
    rw [hheard, if_pos (by dsimp only; omega)]
    constructor
    case input => simpa using h.input
    case sendlines_eq => simpa using h.sendlines_eq
    case flatten_sendlines => simpa using h.flatten_sendlines
    case toServer => exact h.toServer
    case isPiece => simpa using h.isPiece
    case answered =>
      refine ⟨heard ++ [data], left, ?_, ?_, l', htape', hunder'⟩
      · simpa using hpieces
      · simp [hrecv]
    case turns => simpa [hphase] using h.turns
    case lead => simpa using h.lead
    case healthy => exact ⟨not_mem_concat h.healthy.1 nofun, not_mem_concat h.healthy.2 nofun⟩

theorem Follows.step (h : Follows stdin past s) (hstep : Dialogue.Step s e t) :
    Follows stdin (past ++ [e]) t := by
  cases hstep with
  | typed hphase hline hcommand => exact h.typed hphase hline hcommand
  | exited hphase hline hcommand =>
    exact h.exited hphase (fgets_eq_some hline).1 (by rw [sent, hcommand])
  | strayed _ hline hcommand => exact h.strayed (fgets_eq_some hline).1 (by rw [sent, hcommand])
  | overran => exact h.overran _
  | ended hphase _ => exact h.exited hphase rfl rfl
  | served _ hdata hne hreply =>
    obtain ⟨hlen, rfl⟩ := reply_eq_ok hreply
    exact h.served hdata hne hlen
  | arrived _ hdata hne => exact h.arrived hdata hne
  | heard hphase hrun => exact h.heard hphase hrun

theorem follows_of_run (h : (dialogue stdin).Run (.start stdin) es s) : Follows stdin es s :=
  h.history (P := Follows stdin)
    (fun _ _ _ _ hs (hstep : _ ∧ Dialogue.Step _ _ _) => hs.step hstep.2) (follows_start stdin)

/-- The steps that leave an array. -/
def Strays (es : List Said) : Prop :=
  (∀ line, .strayed line ∈ es → Blank line) ∧
    ∀ data, .overran data ∈ es → MAXLINE < data.length + 2

theorem strays_of_step (hstep : Dialogue.Step s e t) : Strays [e] := by
  cases hstep with
  | strayed _ _ hcommand => simp [Strays, command_eq_outOfBounds_iff.mp hcommand]
  | overran _ _ _ hreply => simp [Strays, reply_eq_error hreply]
  | heard =>
    unfold Dialogue.heard
    split_ifs <;> simp [Strays]
  | _ => simp [Strays]

theorem strays_of_run (h : (dialogue stdin).Run s es t) : Strays es := by
  induction h with
  | nil => exact ⟨fun _ hmem => absurd hmem List.not_mem_nil,
      fun _ hmem => absurd hmem List.not_mem_nil⟩
  | cons hstep _ ih =>
    obtain ⟨hline, hdata⟩ := strays_of_step hstep.2
    exact ⟨fun line hmem => (List.mem_cons.mp hmem).elim
        (fun heq => hline line (List.mem_singleton.mpr heq)) (ih.1 line),
      fun data hmem => (List.mem_cons.mp hmem).elim
        (fun heq => hdata data (List.mem_singleton.mpr heq)) (ih.2 data)⟩

/-- What the client prints are the first pieces that the child process read, each with a newline
behind it, and the other answers are under way.  The pieces are the lines that were typed, without
their ends, as one stream.  The run ends where the child process has no room for the end of a piece,
or the client looks for the end of a blank line in front of its array. -/
theorem recvlines_of_run (h : (dialogue stdin).Run (.start stdin) es s) :
    (lines es).flatten ++ s.stdin = stdin ∧
      ∃ (heard left : List (List UInt8)) (unread : List UInt8),
        pieces es = heard ++ left ∧ recvlines es = heard.map answer ∧
        ((lines es).filterMap sent).flatten = (pieces es).flatten ++ s.toServer ∧
        ((lines es).filterMap sent).length =
          heard.length + (if s.phase = .waiting then 1 else 0) ∧
        s.reading.tape () = flowing unread ∧
        unread ++ s.toClient = (left.map answer).flatten ∧
        .terminated ∉ es ∧ .failed ∉ es ∧ Strays es := by
  have hfollows := follows_of_run h
  obtain ⟨heard, left, hpieces, hrecv, unread, htape, hunder⟩ := hfollows.answered
  have hturns := hfollows.turns
  rw [hrecv, List.length_map] at hturns
  rw [← hfollows.sendlines_eq]
  exact ⟨hfollows.input, heard, left, unread, hpieces, hrecv, hfollows.flatten_sendlines, hturns,
    htape, hunder, hfollows.healthy.1, hfollows.healthy.2, strays_of_run h⟩

theorem Follows.exists_step (h : Follows stdin es s) (hwait : s.phase = .waiting) :
    ∃ e t, Dialogue.Step s e t := by
  have hrunning : s.phase ≠ .exited := by
    rw [hwait]
    decide
  cases hserver : s.toServer with
  | cons c rest =>
    exact ⟨_, _, .served hrunning (hserver.trans List.singleton_append.symm)
      (List.cons_ne_nil c []) rfl⟩
  | nil =>
    cases hclient : s.toClient with
    | cons c rest =>
      exact ⟨_, _, @Dialogue.Step.arrived s 0 [c] rest hrunning
        (hclient.trans List.singleton_append.symm) (List.cons_ne_nil c [])⟩
    | nil =>
      obtain ⟨heard, left, hpieces, hrecv, l, htape, hunder⟩ := h.answered
      have hturns := h.turns
      have hlead := h.lead
      rw [hwait, if_pos rfl, hrecv, List.length_map] at hturns
      rw [hserver, if_pos rfl, hpieces, List.length_append] at hlead
      obtain ⟨data, left, rfl⟩ : ∃ data left', left = data :: left' :=
        List.exists_cons_of_length_pos (by omega)
      have hdata := h.isPiece data (by simp [hpieces])
      rw [hclient, List.append_nil] at hunder
      have hnext := nextLine_of_answer (l := (left.map answer).flatten) hdata.plain.1
        hdata.length_add_two_le
      rw [← List.flatten_cons, ← List.map_cons, ← hunder, ← htape] at hnext
      obtain ⟨r, hrun, -⟩ := sockReadline_myRead_iff.mpr hnext
      exact ⟨_, _, .heard hwait hrun⟩

/-- How much there is to do for the child process and the connection. -/
def weight (s : Dialogue) : ℕ := 3 * s.toServer.length + s.toClient.length

/-- Nothing is done by the client, and no array is left. -/
def Quiet (es : List Said) : Prop :=
  (∀ recvline, .printed recvline ∉ es) ∧ .terminated ∉ es ∧ .failed ∉ es ∧
    ∀ data, .overran data ∉ es

theorem weight_of_quiet (h : (dialogue stdin).Run s es t) (hwait : s.phase = .waiting)
    (hinside : s.overrun = false) (hquiet : Quiet es) :
    weight t + es.length ≤ weight s ∧ t.phase = .waiting ∧ t.overrun = false := by
  induction h with
  | nil => exact ⟨le_rfl, hwait, hinside⟩
  | @cons s t u e es hstep _ ih =>
    obtain ⟨hprinted, hterminated, hfailed, hoverran⟩ := hquiet
    simp only [List.mem_cons, not_or] at hprinted hterminated hfailed hoverran
    have hrest : Quiet es :=
      ⟨fun l => (hprinted l).2, hterminated.2, hfailed.2, fun l => (hoverran l).2⟩
    cases hstep.2 with
    | typed hphase | exited hphase | strayed hphase | ended hphase => simp [hwait] at hphase
    | overran => exact absurd rfl (hoverran _).1
    | served _ hdata hne hreply =>
      obtain ⟨hlen, rfl⟩ := reply_eq_ok hreply
      obtain ⟨hweight, hphase⟩ := ih hwait hinside hrest
      have hpos := List.length_pos_iff.mpr hne
      refine ⟨?_, hphase⟩
      simp only [weight, answer, hdata, List.length_append, List.length_cons,
        List.length_nil] at hweight ⊢
      omega
    | arrived _ hdata hne =>
      obtain ⟨hweight, hphase⟩ := ih hwait hinside hrest
      have hpos := List.length_pos_iff.mpr hne
      refine ⟨?_, hphase⟩
      simp only [weight, hdata, List.length_append, List.length_cons] at hweight ⊢
      omega
    | heard =>
      unfold Dialogue.heard at hprinted hterminated hfailed
      split_ifs at hprinted hterminated hfailed with hneg hzero
      · exact absurd rfl hfailed.1
      · exact absurd rfl hterminated.1
      · exact absurd rfl (hprinted _).1

/-- A line that is sent is answered, if the child process has room for it: the steps until then are
bounded, and there is one more as long as the client waits. -/
theorem printed_of_waiting (hpast : (dialogue stdin).Run (.start stdin) past s)
    (hwait : s.phase = .waiting) (hinside : s.overrun = false) (h : (dialogue stdin).Run s es t)
    (hend : weight s < es.length ∨ ∀ e u, ¬ (dialogue stdin).step t e u) :
    (∃ recvline, .printed recvline ∈ es) ∨
      ∃ data, .overran data ∈ es ∧ MAXLINE < data.length + 2 := by
  have hfollows := follows_of_run (hpast.append h)
  by_contra hneither
  obtain ⟨hprinted, hoverran⟩ := not_or.mp hneither
  have hquiet : Quiet es := by
    refine ⟨not_exists.mp hprinted, ?_, ?_, ?_⟩
    · exact fun hmem => hfollows.healthy.1 (List.mem_append_right _ hmem)
    · exact fun hmem => hfollows.healthy.2 (List.mem_append_right _ hmem)
    · exact fun data hmem => hoverran ⟨data, hmem, (strays_of_run h).2 data hmem⟩
  obtain ⟨hweight, hphase, hinside'⟩ := weight_of_quiet h hwait hinside hquiet
  obtain hlong | hstuck := hend
  · omega
  · obtain ⟨e, u, hstep⟩ := hfollows.exists_step hphase
    exact hstuck e u ⟨hinside', hstep⟩

/-- The child process reads all that was sent. -/
def Whole (s : Dialogue) (e : Said) : Prop :=
  (∀ data l, e = .served data l → data = s.toServer) ∧ ∀ data, e = .overran data → data = s.toServer

/-- The bytes that are not yet read by the child process, as a line if there are any. -/
def unserved (l : List UInt8) : List (List UInt8) := if l = [] then [] else [l]

theorem Follows.toServer_of_typing (h : Follows stdin past s) (hphase : s.phase = .typing)
    (heq : sendlines past = pieces past ++ unserved s.toServer) : s.toServer = [] := by
  by_contra hne
  have hturns := h.turns
  have hle := h.length_recvlines_le
  rw [hphase, if_neg (by decide), heq, unserved, if_neg hne, List.length_append] at hturns
  simp only [List.length_singleton] at hturns
  omega

theorem sendlines_of_whole (h : Follows stdin past s)
    (heq : sendlines past = pieces past ++ unserved s.toServer) (hwhole : Whole s e)
    (hstep : Dialogue.Step s e t) : sendlines (past ++ [e]) = pieces (past ++ [e]) ++
    unserved t.toServer := by
  cases hstep with
  | typed hphase hline hcommand =>
    have hnil := h.toServer_of_typing hphase heq
    obtain ⟨hne, -⟩ := plain_of_command hline hcommand
    simp [heq, unserved, hnil, hne]
  | exited | strayed | overran | ended | arrived => simpa using heq
  | served _ hdata hne _ =>
    obtain rfl := hwhole.1 _ _ rfl
    obtain rfl := List.self_eq_append_right.mp hdata
    simpa [unserved, hne] using heq
  | heard =>
    unfold Dialogue.heard
    split_ifs <;> simpa using heq

theorem follows_of_whole_run (h : ((dialogue stdin).restrict Whole).Run (.start stdin) es s) :
    Follows stdin es s ∧ sendlines es = pieces es ++ unserved s.toServer :=
  h.history (P := fun past s => Follows stdin past s ∧
      sendlines past = pieces past ++ unserved s.toServer)
    (fun _ _ _ _ hs (hstep : Whole _ _ ∧ _ ∧ Dialogue.Step _ _ _) =>
      ⟨hs.1.step hstep.2.2, sendlines_of_whole hs.1 hs.2 hstep.1 hstep.2.2⟩)
    ⟨follows_start stdin, rfl⟩

theorem overran_of_whole_run (h : ((dialogue stdin).restrict Whole).Run (.start stdin) es s)
    {data : List UInt8} (hmem : .overran data ∈ es) :
    data ∈ sendlines es ∧ MAXLINE < data.length + 2 := by
  have hlen := (strays_of_run h.of_restrict).2 data hmem
  refine ⟨?_, hlen⟩
  obtain ⟨before, after, rfl⟩ := List.append_of_mem hmem
  obtain ⟨u, hbefore, hafter⟩ := h.of_append
  obtain _ | ⟨⟨hwhole, -⟩, -⟩ := hafter
  obtain ⟨-, heq⟩ := follows_of_whole_run hbefore
  have hne : data ≠ [] := by
    rintro rfl
    exact absurd hlen (by decide)
  obtain rfl := hwhole.2 data rfl
  rw [sendlines, List.filterMap_append, ← sendlines, heq, unserved, if_neg hne]
  simp

/-- Where the child process reads all that was sent, the answers are the lines, and only for a line
that fills the array of the client there is no room. -/
theorem recvlines_of_whole_run
    (h : ((dialogue stdin).restrict Whole).Run (.start stdin) es s) :
    recvlines es =
        (((lines es).filterMap sent).take (recvlines es).length).map answer ∧
      ∀ data, .overran data ∈ es →
        data ∈ (lines es).filterMap sent ∧ MAXLINE < data.length + 2 := by
  obtain ⟨hfollows, heq⟩ := follows_of_whole_run h
  obtain ⟨heard, left, hpieces, hrecv, -⟩ := hfollows.answered
  rw [← hfollows.sendlines_eq]
  refine ⟨?_, fun data hmem => overran_of_whole_run h hmem⟩
  rw [heq, hpieces, hrecv, List.length_map, List.append_assoc, List.take_left]

end Follows

section Examples

def waitingHi : Dialogue where
  phase := .waiting
  stdin := []
  toServer := [0x68, 0x69]
  toClient := []
  reading := ⟨.zeroed, fun _ => ⟨[], false⟩⟩
  overrun := false

theorem typed_hi :
    ((dialogue [0x68, 0x69, 0x0A]).restrict Whole).step (.start [0x68, 0x69, 0x0A])
      (.typed [0x68, 0x69, 0x0A] [0x68, 0x69]) waitingHi :=
  ⟨⟨nofun, nofun⟩, rfl, .typed rfl rfl rfl⟩

theorem exists_run_hi : ∃ t : Dialogue, ((dialogue [0x68, 0x69, 0x0A]).restrict Whole).Run waitingHi
    [.served [0x68, 0x69] [0x68, 0x69, 0x0A], .arrived 1 [0x68, 0x69, 0x0A],
      .printed [0x68, 0x69, 0x0A], .exited []] t ∧ t.phase = .exited := by
  have htape := tape_arrive (r := waitingHi.reading) (l := []) 1 rfl
    (show [0x68, 0x69, 0x0A] ≠ [] by decide)
  have hnext := nextLine_of_answer (l := [])
    (show (0x0A : UInt8) ∉ [0x68, 0x69] by decide) (by decide)
  rw [List.append_nil, ← List.nil_append (answer _), answer, List.cons_append] at hnext
  obtain ⟨r, hrun, -⟩ := sockReadline_myRead_iff.mpr (htape.symm ▸ hnext)
  have hheard := @Dialogue.Step.heard ⟨.waiting, [], [], [], _, false⟩ _ r rfl hrun
  have hserved : Whole waitingHi (.served [0x68, 0x69] [0x68, 0x69, 0x0A]) := by
    refine ⟨?_, nofun⟩
    rintro data l ⟨⟩
    rfl
  exact ⟨_, .cons ⟨hserved, rfl, .served (by decide) rfl (by decide) rfl⟩ <|
    .cons ⟨⟨nofun, nofun⟩, rfl, .arrived (by decide) rfl (by decide)⟩ <|
    .cons ⟨⟨nofun, nofun⟩, rfl, hheard⟩ <| .cons ⟨⟨nofun, nofun⟩, rfl, .ended rfl rfl⟩ <| .nil _,
    rfl⟩

theorem recvlines_of_run_hi : ∃ (es : List Said) (s : Dialogue),
    .printed [0x68, 0x69, 0x0A] ∈ es ∧ (lines es).flatten ++ s.stdin = [0x68, 0x69, 0x0A] ∧
      ∃ (heard left : List (List UInt8)) (unread : List UInt8),
        pieces es = heard ++ left ∧ recvlines es = heard.map answer ∧
        ((lines es).filterMap sent).flatten = (pieces es).flatten ++ s.toServer ∧
        ((lines es).filterMap sent).length =
          heard.length + (if s.phase = .waiting then 1 else 0) ∧
        s.reading.tape () = flowing unread ∧
        unread ++ s.toClient = (left.map answer).flatten ∧
        .terminated ∉ es ∧ .failed ∉ es ∧ Strays es := by
  obtain ⟨t, hrun, -⟩ := exists_run_hi
  exact ⟨_, t, by simp, recvlines_of_run (System.Run.cons typed_hi hrun).of_restrict⟩

theorem printed_of_waiting_hi : ∃ (es : List Said) (t : Dialogue),
    (dialogue [0x68, 0x69, 0x0A]).Run waitingHi es t ∧ t.phase = .exited ∧
      ((∃ recvline, .printed recvline ∈ es) ∨
        ∃ data, .overran data ∈ es ∧ MAXLINE < data.length + 2) := by
  obtain ⟨t, hrun, hexited⟩ := exists_run_hi
  refine ⟨_, t, hrun.of_restrict, hexited, printed_of_waiting
    (System.Run.cons typed_hi (.nil _)).of_restrict rfl rfl hrun.of_restrict (.inr ?_)⟩
  rintro e u ⟨-, hstep⟩
  cases hstep <;> simp_all

theorem recvlines_of_whole_run_hi : ∃ (es : List Said),
    .printed [0x68, 0x69, 0x0A] ∈ es ∧
      recvlines es = (((lines es).filterMap sent).take (recvlines es).length).map answer ∧
      ∀ data, .overran data ∈ es →
        data ∈ (lines es).filterMap sent ∧ MAXLINE < data.length + 2 := by
  obtain ⟨t, hrun, -⟩ := exists_run_hi
  exact ⟨_, by simp, recvlines_of_whole_run (.cons typed_hi hrun)⟩

end Examples

end Mbtk.TcpServer
