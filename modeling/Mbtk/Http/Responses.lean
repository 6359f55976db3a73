import Mathlib.Data.List.TakeWhile
import Mbtk.Http.Get

namespace Mbtk.Http

open Lib Sock

/-- The lines that `http_rsp_parse` prints of a stream, and what is left of the stream. -/
inductive Response : Tape UInt8 → List (List UInt8) → Tape UInt8 → Prop
  | stop {line : Line} {t t' : Tape UInt8} :
      NextLine (2048 - 1) line t t' → line.ret ≤ 0 → Response t [] t'
  | print {line : Line} {lines : List (List UInt8)} {t t' t'' : Tape UInt8} :
      NextLine (2048 - 1) line t t' → 0 < line.ret → Response t' lines t'' →
      Response t (line.stored :: lines) t''

section Parse

variable {κ σ τ : Type} {view : σ → τ} {next : StateT σ Option (Event UInt8)}
  {next' : StateT τ Option (Event UInt8)} {line : Line} {lines : List (List UInt8)} {n : ℕ}
  {t t' : Tape UInt8}

theorem simulates_rspParseLoop (h : Simulates view next next') (n : ℕ) :
    Simulates view (rspParseLoop next n) (rspParseLoop next' n) := by
  induction n with
  | zero => exact fun _ => rfl
  | succ n ih =>
    refine .bind (simulates_sockReadline h _) fun line => ?_
    split_ifs
    · exact .bind ih fun _ => .pure _
    · exact .pure _

theorem events_next {e : Event UInt8} (h : Tape.next.run t = some (e, t')) :
    t'.events.length ≤ t.events.length := by
  obtain ⟨events, ended⟩ := t
  cases events with
  | nil =>
    cases ended with
    | false => cases h
    | true =>
      cases h
      exact le_rfl
  | cons e events =>
    cases h
    exact Nat.le_succ _

theorem events_prepend (l : List UInt8) (t : Tape UInt8) :
    (t.prepend l).events.length = l.length + t.events.length := by
  rw [Tape.prepend, List.length_append, List.length_map]

theorem events_lt_of_nextLine (h : NextLine (2048 - 1) line t t') (hret : 0 < line.ret) :
    t'.events.length < t.events.length := by
  cases h with
  | newline =>
    rw [events_prepend, List.length_append, List.length_singleton]
    omega
  | full _ hlen =>
    rw [events_prepend, hlen]
    omega
  | ended _ _ hnext =>
    have hle := events_next hnext
    rw [events_prepend]
    dsimp only at hret
    omega
  | failed =>
    dsimp only at hret
    omega

theorem rspParseLoop_of_response (h : Response t lines t') (hn : t.events.length < n) :
    (rspParseLoop Tape.next n).run t = some (lines.map cString, t') := by
  induction h generalizing n with
  | stop hline hret =>
    obtain ⟨n, rfl⟩ := Nat.exists_eq_add_one.mpr (Nat.zero_lt_of_lt hn)
    rw [rspParseLoop, StateT.run_bind, sockReadline_eq_some_iff.mpr hline, Option.bind_eq_bind,
      Option.bind_some]
    dsimp only
    rw [if_neg (not_lt.mpr hret)]
    rfl
  | print hline hret _ ih =>
    obtain ⟨n, rfl⟩ := Nat.exists_eq_add_one.mpr (Nat.zero_lt_of_lt hn)
    have hlt := events_lt_of_nextLine hline hret
    rw [rspParseLoop, StateT.run_bind, sockReadline_eq_some_iff.mpr hline, Option.bind_eq_bind,
      Option.bind_some]
    dsimp only
    rw [if_pos hret, StateT.run_bind, ih (by omega)]
    rfl

theorem response_of_rspParseLoop {printed : List (List UInt8)}
    (h : (rspParseLoop Tape.next n).run t = some (printed, t')) :
    ∃ lines, Response t lines t' ∧ printed = lines.map cString := by
  induction n generalizing t printed with
  | zero => cases h
  | succ n ih =>
    rw [rspParseLoop, StateT.run_bind] at h
    obtain ⟨⟨line, u⟩, hline, hrest⟩ := Option.bind_eq_some_iff.mp h
    have hline := sockReadline_eq_some_iff.mp hline
    dsimp only at hrest
    split_ifs at hrest with hret
    · rw [StateT.run_bind] at hrest
      obtain ⟨⟨more, u'⟩, hmore, heq⟩ := Option.bind_eq_some_iff.mp hrest
      cases heq
      obtain ⟨lines, hlines, rfl⟩ := ih hmore
      exact ⟨line.stored :: lines, .print hline hret hlines, rfl⟩
    · cases hrest
      exact ⟨[], .stop hline (not_lt.mp hret), rfl⟩

variable [DecidableEq κ] {fd : κ} {r : Reading κ} {printed : List (List UInt8)}

theorem httpRspParse_iff :
    (∃ r', (httpRspParse fd).run r = some (printed, r') ∧ r'.tape fd = t) ↔
      ∃ lines, Response (r.tape fd) lines t ∧ printed = lines.map cString := by
  refine (simulates_rspParseLoop (simulates_myRead fd)
    ((r.tape fd).events.length + 1)).run_eq_some_iff.trans ⟨response_of_rspParseLoop, ?_⟩
  rintro ⟨lines, hlines, rfl⟩
  exact rspParseLoop_of_response hlines (Nat.lt_succ_self _)

end Parse

section Closed

/-- A text by its lines.  A line that does not end within `limit` characters is broken there. -/
inductive IsLines (limit : ℕ) : List UInt8 → List (List UInt8) → Prop
  | nil : IsLines limit [] []
  | newline {l text : List UInt8} {lines : List (List UInt8)} : 0x0A ∉ l → l.length < limit →
      IsLines limit text lines → IsLines limit (l ++ [0x0A] ++ text) ((l ++ [0x0A]) :: lines)
  | broken {l text : List UInt8} {lines : List (List UInt8)} : 0x0A ∉ l → l.length = limit →
      IsLines limit text lines → IsLines limit (l ++ text) (l :: lines)
  | last {l : List UInt8} : 0x0A ∉ l → l ≠ [] → l.length < limit → IsLines limit l [l]

variable {limit : ℕ} {l text : List UInt8} {lines : List (List UInt8)}

theorem IsLines.flatten (h : IsLines limit text lines) : lines.flatten = text := by
  induction h with
  | nil => rfl
  | newline _ _ _ ih => rw [List.flatten_cons, ih]
  | broken _ _ _ ih => rw [List.flatten_cons, ih]
  | last => exact List.append_nil _

theorem exists_line (text : List UInt8) :
    ∃ l rest, text = l ++ rest ∧ 0x0A ∉ l ∧ (rest = [] ∨ ∃ rest', rest = [0x0A] ++ rest') := by
  by_cases hmem : 0x0A ∈ text
  · obtain ⟨l, rest, rfl, hl⟩ := List.eq_append_cons_of_mem hmem
    exact ⟨l, _, rfl, hl, .inr ⟨rest, rfl⟩⟩
  · exact ⟨text, [], (List.append_nil text).symm, hmem, .inl rfl⟩

theorem exists_isLines (hlimit : 0 < limit) (text : List UInt8) :
    ∃ lines, IsLines limit text lines := by
  induction hlen : text.length using Nat.strong_induction_on generalizing text with
  | _ n ih =>
    obtain ⟨l, rest, rfl, hl, hrest⟩ := exists_line text
    rw [List.length_append] at hlen
    by_cases hlong : limit ≤ l.length
    · have hdrop : (l.drop limit ++ rest).length < n := by
        rw [List.length_append, List.length_drop]
        omega
      obtain ⟨lines, hlines⟩ := ih _ hdrop _ rfl
      have hbroken := IsLines.broken (fun hmem => hl (List.mem_of_mem_take hmem))
        (List.length_take_of_le hlong) hlines
      rw [← List.append_assoc, List.take_append_drop] at hbroken
      exact ⟨_, hbroken⟩
    · obtain rfl | ⟨rest, rfl⟩ := hrest
      · rw [List.append_nil]
        by_cases hnil : l = []
        · exact ⟨[], hnil ▸ .nil⟩
        · exact ⟨[l], .last hl hnil (not_le.mp hlong)⟩
      · rw [List.length_append, List.length_singleton] at hlen
        obtain ⟨lines, hlines⟩ := ih rest.length (by omega) rest rfl
        rw [← List.append_assoc]
        exact ⟨_, .newline hl (not_le.mp hlong) hlines⟩

/-- A stream that holds a text and then ends. -/
def closed (text : List UInt8) : Tape UInt8 := Tape.prepend text ⟨[], true⟩

theorem response_of_isLines (h : IsLines (2048 - 2) text lines) :
    Response (closed text) lines (closed []) := by
  have hend : Response (closed []) [] (closed []) :=
    .stop (.ended (l := []) List.not_mem_nil (by decide) rfl) le_rfl
  induction h with
  | nil => exact hend
  | newline hl hlen _ ih =>
    rw [closed, prepend_append]
    exact .print (.newline hl (by omega)) (by dsimp only; omega) ih
  | broken hl hlen _ ih =>
    rw [closed, prepend_append]
    exact .print (.full hl (by omega)) (by dsimp only; omega) ih
  | last hl hne hlen =>
    have hpos := List.length_pos_iff.mpr hne
    exact .print (.ended hl (by omega) rfl) (by dsimp only; omega) hend

/-- Of a response that ends, in whatever pieces it comes, every line is printed up to a NUL in it:
without a NUL the whole response. -/
theorem httpRspParse_closed {κ : Type} [DecidableEq κ] {fd : κ} {r : Reading κ}
    (h : r.tape fd = closed text) :
    ∃ lines printed r', IsLines (2048 - 2) text lines ∧ printed = lines.map cString ∧
      (httpRspParse fd).run r = some (printed, r') ∧ r'.tape fd = closed [] ∧
      (0 ∉ text → printed.flatten = text) := by
  obtain ⟨lines, hlines⟩ := exists_isLines (show 0 < 2048 - 2 by decide) text
  obtain ⟨r', hrun, hr'⟩ :=
    httpRspParse_iff.mpr ⟨lines, h ▸ response_of_isLines hlines, rfl⟩
  refine ⟨lines, _, r', hlines, rfl, hrun, hr', fun hnul => ?_⟩
  rw [← hlines.flatten] at hnul ⊢
  refine congrArg List.flatten
    ((List.map_congr_left fun line hline => ?_).trans (List.map_id lines))
  exact cString_eq fun hmem => hnul (List.mem_flatten.mpr ⟨line, hline, hmem⟩)

theorem httpRspParse_pieces :
    ∃ lines printed r', IsLines (2048 - 2) [0x61, 0x0A, 0x62] lines ∧
      printed = lines.map cString ∧
      (httpRspParse ()).run ⟨.zeroed, fun _ =>
        ⟨[.piece [0x61], .interrupted, .piece [0x0A], .piece [0x62]], true⟩⟩ =
          some (printed, r') ∧
      r'.tape () = closed [] ∧ ((0 : UInt8) ∉ [0x61, 0x0A, 0x62] →
        printed.flatten = [0x61, 0x0A, 0x62]) :=
  httpRspParse_closed rfl

end Closed

section Calls

variable {κ : Type} [DecidableEq κ] {fd : κ} {net net' : Net κ} {call : Call κ}
  {calls : List (Call κ)} {got : Got} {gots : List Got} {header : List UInt8}

/-- What `http_get` does behind `sock_open`, by what `write` answers and what comes. -/
inductive Exchanges (header : List UInt8) (sink : Sink) (t : Tape UInt8) : Got → Prop
  | unsent {sink' : Sink} {ret : ℤ} : (sockWriten header).run sink = some (ret, sink') →
      ret ≠ header.length → Exchanges header sink t ⟨-1, []⟩
  | printed {sink' : Sink} {lines : List (List UInt8)} {t' : Tape UInt8} :
      (sockWriten header).run sink = some ((header.length : ℤ), sink') → Response t lines t' →
      Exchanges header sink t ⟨0, (lines.map cString).map .text⟩

theorem exchange_iff :
    (∃ net', (exchange fd header).run net = some (got, net')) ↔
      Exchanges header (net.sinks fd) (net.reading.tape fd) got := by
  constructor
  · rintro ⟨net', hrun⟩
    obtain ⟨⟨ret, sink⟩, hwrite, hrest⟩ := Option.bind_eq_some_iff.mp hrun
    dsimp only at hrest
    split_ifs at hrest with hret
    · cases hrest
      exact .unsent hwrite hret
    · obtain ⟨⟨printed, r'⟩, hparse, heq⟩ := Option.bind_eq_some_iff.mp hrest
      cases heq
      obtain ⟨lines, hlines, rfl⟩ := httpRspParse_iff.mp ⟨r', hparse, rfl⟩
      rw [not_not.mp hret] at hwrite
      exact .printed hwrite hlines
  · intro hexchange
    cases hexchange with
    | @unsent sink ret hwrite hret =>
      refine ⟨⟨net.reading, Function.update net.sinks fd sink⟩, ?_⟩
      simp only [StateT.run, exchange] at hwrite ⊢
      rw [hwrite]
      dsimp only [Option.bind_eq_bind, Option.bind_some]
      rw [if_pos hret]
      rfl
    | @printed sink lines t hwrite hlines =>
      obtain ⟨r', hparse, -⟩ := httpRspParse_iff.mpr ⟨lines, hlines, rfl⟩
      refine ⟨⟨r', Function.update net.sinks fd sink⟩, ?_⟩
      simp only [StateT.run, exchange] at hwrite hparse ⊢
      rw [hwrite]
      dsimp only [Option.bind_eq_bind, Option.bind_some]
      rw [if_neg (not_not.mpr rfl), hparse]
      rfl

/-- What a call does by itself: by its URL, the descriptor that it gets, and what is there on that
connection. -/
inductive Gets (net : Net κ) (call : Call κ) : Got → Prop
  | refused {parsed : Parsed} : call.parse = some parsed → parsed.ok = false →
      Gets net call ⟨-1, []⟩
  | unopened {parsed : Parsed} : call.parse = some parsed → parsed.ok = true →
      call.sockFd = none → Gets net call ⟨-1, [parsed.print]⟩
  | exchanged {parsed : Parsed} {fd : κ} {got : Got} : call.parse = some parsed →
      parsed.ok = true → call.sockFd = some fd →
      Exchanges (requestText parsed.host parsed.uri) (net.sinks fd) (net.reading.conns fd).tape
        got → Gets net call ⟨got.ret, parsed.print :: got.prints⟩

theorem length_deletePort {host host' : List UInt8} {port : Option ℤ}
    (h : deletePort host = some (host', port)) : host'.length = host.length := by
  induction host generalizing host' with
  | nil => cases h
  | cons c host ih =>
    rw [deletePort] at h
    split_ifs at h with hnul hcolon
    · cases h
      rfl
    · cases h
      rfl
    · obtain ⟨⟨rest, port'⟩, hrest, heq⟩ := Option.map_eq_some_iff.mp h
      cases heq
      rw [List.length_cons, List.length_cons, ih hrest]

theorem length_httpUrlParse {url host uri : List UInt8} {port : ℤ} {parsed : Parsed}
    (h : httpUrlParse url host uri port = some parsed) :
    parsed.host.length = host.length ∧ parsed.uri.length = uri.length := by
  unfold httpUrlParse at h
  split_ifs at h with hurl
  · cases h
    exact ⟨rfl, rfl⟩
  · dsimp only at h
    split at h
    · cases h
      exact ⟨rfl, rfl⟩
    · split_ifs at h with hpos huri
      · cases h
        exact ⟨rfl, rfl⟩
      · obtain ⟨copied, hcopied, h⟩ := Option.bind_eq_some_iff.mp h
        obtain ⟨⟨deleted, found⟩, hdeleted, h⟩ := Option.bind_eq_some_iff.mp h
        cases h
        exact ⟨(length_deletePort hdeleted).trans (length_copyInto hcopied), rfl⟩
      · obtain ⟨copied, hcopied, h⟩ := Option.bind_eq_some_iff.mp h
        obtain ⟨⟨deleted, found⟩, hdeleted, h⟩ := Option.bind_eq_some_iff.mp h
        obtain ⟨copiedUri, hcopiedUri, h⟩ := Option.bind_eq_some_iff.mp h
        cases h
        exact ⟨(length_deletePort hdeleted).trans (length_copyInto hcopied),
          length_copyInto hcopiedUri⟩

theorem length_cString_le (l : List UInt8) : (cString l).length ≤ l.length :=
  (List.takeWhile_sublist _).length_le

omit [DecidableEq κ] in
theorem request_eq {parsed : Parsed} (h : call.parse = some parsed) :
    request parsed.host parsed.uri = requestText parsed.host parsed.uri := by
  obtain ⟨hhost, huri⟩ := length_httpUrlParse h
  have hhostLe := length_cString_le parsed.host
  have huriLe := length_cString_le parsed.uri
  rw [List.length_replicate] at hhost huri
  refine List.take_of_length_le ?_
  simp only [requestText, List.length_append, List.length_cons, List.length_nil]
  unfold HTTP_HOST_MAX_LEN at hhost
  unfold HTTP_URI_MAX_LEN at huri
  unfold HTTP_REQ_HEAD_MAX_LEN
  omega

omit [DecidableEq κ] in
theorem tape_of_empty (h : net.reading.buf.readCnt ≤ 0) :
    net.reading.tape fd = (net.reading.conns fd).tape := by
  rw [Reading.tape, ReadBuf.ahead_of_nonpos h, prepend_nil]

theorem httpGet_iff (h : net.reading.buf.readCnt ≤ 0) :
    (∃ net', (httpGet call).run net = some (got, net')) ↔ Gets net call got := by
  constructor
  · rintro ⟨net', hrun⟩
    obtain ⟨parsed, hparse, hrest⟩ := Option.bind_eq_some_iff.mp hrun
    split_ifs at hrest with hok
    · cases hfd : call.sockFd with
      | none =>
        rw [hfd] at hrest
        cases hrest
        exact .unopened hparse hok hfd
      | some fd =>
        rw [hfd] at hrest
        obtain ⟨⟨got', net''⟩, hexchange, heq⟩ := Option.bind_eq_some_iff.mp hrest
        cases heq
        refine .exchanged hparse hok hfd ?_
        rw [← request_eq hparse, ← tape_of_empty h]
        exact exchange_iff.mp ⟨_, hexchange⟩
    · cases hrest
      exact .refused hparse (Bool.eq_false_iff.mpr hok)
  · intro hgets
    cases hgets with
    | refused hparse hok =>
      refine ⟨net, ?_⟩
      simp [StateT.run, httpGet, hparse, hok]
    | unopened hparse hok hfd =>
      refine ⟨net, ?_⟩
      simp [StateT.run, httpGet, hparse, hok, hfd]
    | exchanged hparse hok hfd hexchange =>
      rw [← request_eq hparse, ← tape_of_empty h] at hexchange
      obtain ⟨net', hrun⟩ := exchange_iff.mpr hexchange
      refine ⟨net', ?_⟩
      simp only [StateT.run] at hrun
      simp [StateT.run, httpGet, hparse, hok, hfd, hrun]

theorem readCnt_of_myRead {r r' : Reading κ} {e : Event UInt8}
    (h : (myRead fd).run r = some (e, r')) (he : ∀ c, e ≠ .item c) : r'.buf.readCnt ≤ 0 := by
  simp only [StateT.run, myRead] at h
  split_ifs at h with hcnt
  · cases h
    exact absurd rfl (he _)
  · obtain ⟨⟨answer, s⟩, -, h⟩ := Option.bind_eq_some_iff.mp h
    cases answer with
    | none =>
      cases h
      exact (by decide : (-1 : ℤ) ≤ 0)
    | some l =>
      dsimp only at h
      split_ifs at h
      · cases h
        exact absurd rfl (he _)
      · cases h
        exact le_rfl

theorem readCnt_of_readlineLoop {r r' : Reading κ} {line : Line} {k : ℕ} {stored : List UInt8}
    (h : (readlineLoop (myRead fd) k stored).run r = some (line, r')) (hret : line.ret ≤ 0) :
    r'.buf.readCnt ≤ 0 := by
  induction k generalizing r stored with
  | zero =>
    cases h
    dsimp only at hret
    omega
  | succ k ih =>
    rw [readlineLoop, StateT.run_bind] at h
    obtain ⟨⟨e, r''⟩, hread, hrest⟩ := Option.bind_eq_some_iff.mp h
    cases e with
    | item c =>
      dsimp only at hrest
      split_ifs at hrest
      · cases hrest
        dsimp only at hret
        omega
      · exact ih hrest
    | ended =>
      cases hrest
      exact readCnt_of_myRead hread (by simp)
    | failed =>
      cases hrest
      exact readCnt_of_myRead hread (by simp)

theorem readCnt_of_rspParseLoop {r r' : Reading κ} {n : ℕ} {printed : List (List UInt8)}
    (h : (rspParseLoop (myRead fd) n).run r = some (printed, r')) : r'.buf.readCnt ≤ 0 := by
  induction n generalizing r printed with
  | zero => cases h
  | succ n ih =>
    rw [rspParseLoop, StateT.run_bind] at h
    obtain ⟨⟨line, r''⟩, hline, hrest⟩ := Option.bind_eq_some_iff.mp h
    dsimp only at hrest
    split_ifs at hrest with hret
    · rw [StateT.run_bind] at hrest
      obtain ⟨⟨more, r₃⟩, hmore, heq⟩ := Option.bind_eq_some_iff.mp hrest
      cases heq
      exact ih hmore
    · cases hrest
      exact readCnt_of_readlineLoop hline (not_lt.mp hret)

theorem keeps_rspParseLoop (fd : κ) (n : ℕ) :
    Keeps (SameElsewhere fd) (rspParseLoop (myRead fd) n) := by
  have hpure (printed : List (List UInt8)) :
      Keeps (SameElsewhere fd) (pure printed : StateT (Reading κ) Option _) := by
    rintro r a r' ⟨⟩
    exact .refl fd r
  induction n with
  | zero => exact fun _ _ _ h => nomatch h
  | succ n ih =>
    refine .bind (fun _ _ _ => .trans) (keeps_sockReadline fd _) fun line => ?_
    split_ifs
    · exact .bind (fun _ _ _ => .trans) ih fun _ => hpure _
    · exact hpure _

/-- What a call leaves behind: an empty buffer, and the other connections as they were. -/
structure Untouched (call : Call κ) (net net' : Net κ) : Prop where
  empty : net'.reading.buf.readCnt ≤ 0
  conns : ∀ fd ∉ call.sockFd, net'.reading.conns fd = net.reading.conns fd
  sinks : ∀ fd ∉ call.sockFd, net'.sinks fd = net.sinks fd

theorem untouched_of_exchange (hempty : net.reading.buf.readCnt ≤ 0) (hfd : call.sockFd = some fd)
    (h : (exchange fd header).run net = some (got, net')) : Untouched call net net' := by
  have hne {other : κ} (hother : other ∉ call.sockFd) : other ≠ fd := fun heq =>
    hother (by rw [hfd, heq]; rfl)
  obtain ⟨⟨ret, sink⟩, -, hrest⟩ := Option.bind_eq_some_iff.mp h
  dsimp only at hrest
  split_ifs at hrest
  · cases hrest
    exact ⟨hempty, fun _ _ => rfl, fun _ hother => Function.update_of_ne (hne hother) _ _⟩
  · obtain ⟨⟨printed, r'⟩, hparse, heq⟩ := Option.bind_eq_some_iff.mp hrest
    cases heq
    exact ⟨readCnt_of_rspParseLoop hparse,
      fun other hother => keeps_rspParseLoop fd _ _ _ _ hparse other (hne hother),
      fun _ hother => Function.update_of_ne (hne hother) _ _⟩

theorem untouched_of_httpGet (hempty : net.reading.buf.readCnt ≤ 0)
    (h : (httpGet call).run net = some (got, net')) : Untouched call net net' := by
  obtain ⟨parsed, -, hrest⟩ := Option.bind_eq_some_iff.mp h
  split_ifs at hrest
  · cases hfd : call.sockFd with
    | none =>
      rw [hfd] at hrest
      cases hrest
      exact ⟨hempty, fun _ _ => rfl, fun _ _ => rfl⟩
    | some fd =>
      rw [hfd] at hrest
      obtain ⟨⟨got', net''⟩, hexchange, heq⟩ := Option.bind_eq_some_iff.mp hrest
      cases heq
      exact untouched_of_exchange hempty hfd hexchange
  · cases hrest
    exact ⟨hempty, fun _ _ => rfl, fun _ _ => rfl⟩

omit [DecidableEq κ] in
theorem Gets.congr (hgets : Gets net call got)
    (hconns : ∀ fd ∈ call.sockFd, net'.reading.conns fd = net.reading.conns fd)
    (hsinks : ∀ fd ∈ call.sockFd, net'.sinks fd = net.sinks fd) : Gets net' call got := by
  cases hgets with
  | refused hparse hok => exact .refused hparse hok
  | unopened hparse hok hfd => exact .unopened hparse hok hfd
  | exchanged hparse hok hfd hexchange =>
    rw [← hconns _ hfd, ← hsinks _ hfd] at hexchange
    exact .exchanged hparse hok hfd hexchange

/-- Calls on different connections do not meet in the buffer that they share: each of them returns
and prints what it does by itself. -/
theorem httpGets_iff (hempty : net.reading.buf.readCnt ≤ 0)
    (hfds : (calls.filterMap Call.sockFd).Nodup) :
    (∃ net', (httpGets calls).run net = some (gots, net')) ↔
      List.Forall₂ (Gets net) calls gots := by
  induction calls generalizing net gots with
  | nil =>
    rw [List.forall₂_nil_left_iff]
    constructor
    · rintro ⟨net', ⟨⟩⟩
      rfl
    · rintro rfl
      exact ⟨net, rfl⟩
  | cons first calls ih =>
    have hne : ∀ call ∈ calls, ∀ fd ∈ call.sockFd, fd ∉ first.sockFd := by
      intro call hcall fd hfd hfirst
      rw [List.filterMap_cons_some hfirst, List.nodup_cons] at hfds
      exact hfds.1 (List.mem_filterMap.mpr ⟨call, hcall, hfd⟩)
    have hfds' : (calls.filterMap Call.sockFd).Nodup := by
      cases hfd : first.sockFd with
      | none => rwa [List.filterMap_cons_none hfd] at hfds
      | some fd =>
        rw [List.filterMap_cons_some hfd] at hfds
        exact hfds.of_cons
    have hrest {net' : Net κ} {gots : List Got} (h : Untouched first net net') :
        List.Forall₂ (Gets net') calls gots ↔ List.Forall₂ (Gets net) calls gots := by
      have hconns (call) (hcall : call ∈ calls) (fd) (hfd : fd ∈ call.sockFd) :=
        h.conns fd (hne call hcall fd hfd)
      have hsinks (call) (hcall : call ∈ calls) (fd) (hfd : fd ∈ call.sockFd) :=
        h.sinks fd (hne call hcall fd hfd)
      simp only [List.forall₂_iff_get]
      refine and_congr_right fun _ => forall₃_congr fun i hi hi' => ?_
      have hmem := List.get_mem calls ⟨i, hi⟩
      exact ⟨fun hgets => hgets.congr (fun fd hfd => (hconns _ hmem fd hfd).symm)
          fun fd hfd => (hsinks _ hmem fd hfd).symm,
        fun hgets => hgets.congr (hconns _ hmem) (hsinks _ hmem)⟩
    constructor
    · rintro ⟨net'', hrun⟩
      rw [httpGets, StateT.run_bind] at hrun
      obtain ⟨⟨got, net'⟩, hfirst, hrun⟩ := Option.bind_eq_some_iff.mp hrun
      rw [StateT.run_bind] at hrun
      obtain ⟨⟨more, net₃⟩, hmore, heq⟩ := Option.bind_eq_some_iff.mp hrun
      cases heq
      have huntouched := untouched_of_httpGet hempty hfirst
      exact .cons ((httpGet_iff hempty).mp ⟨net', hfirst⟩)
        ((hrest huntouched).mp ((ih huntouched.empty hfds').mp ⟨_, hmore⟩))
    · intro hall
      cases hall with
      | cons hgets hall =>
        obtain ⟨net', hfirst⟩ := (httpGet_iff hempty).mpr hgets
        have huntouched := untouched_of_httpGet hempty hfirst
        obtain ⟨net'', hmore⟩ := (ih huntouched.empty hfds').mpr ((hrest huntouched).mpr hall)
        refine ⟨net'', ?_⟩
        rw [httpGets, StateT.run_bind, hfirst, Option.bind_eq_bind, Option.bind_some,
          StateT.run_bind, hmore]
        rfl

/-- On descriptor 3 two lines and a failure, on 4 the end behind a line that is not complete. -/
def twoConns : Net ℕ where
  reading := ⟨.zeroed, fun fd =>
    if fd = 3 then ⟨[.piece [0x78, 0x0A, 0x79], .failed], false⟩ else ⟨[.piece [0x7A]], true⟩⟩
  sinks := fun _ => ⟨[.took 20, .interrupted, .took 2000], []⟩

theorem httpGets_twoConns :
    (∃ net', (httpGets [⟨[0x61, 0x2F], 80, some 3⟩, ⟨[0x62, 0x2F], 80, some 4⟩]).run twoConns =
      some ([⟨0, [.parts [0x61] [0x2F] 80, .text [0x78, 0x0A]]⟩,
        ⟨0, [.parts [0x62] [0x2F] 80, .text [0x7A]]⟩], net')) ↔
    List.Forall₂ (Gets twoConns) [⟨[0x61, 0x2F], 80, some 3⟩, ⟨[0x62, 0x2F], 80, some 4⟩]
      [⟨0, [.parts [0x61] [0x2F] 80, .text [0x78, 0x0A]]⟩,
        ⟨0, [.parts [0x62] [0x2F] 80, .text [0x7A]]⟩] :=
  httpGets_iff le_rfl (by decide)

end Calls

end Mbtk.Http
