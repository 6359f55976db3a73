import Mbtk.Client.Distinct
import Mbtk.Client.SentOptions

namespace Mbtk.Client

open Lib Coap CoapPDU MString

def IsWord (word : List UInt8) : Prop := word ≠ [] ∧ 0x20 ∉ word ∧ 0 ∉ word

/-- A method, a URI and maybe a payload, with single spaces between them. -/
structure CommandLine (text method uri : List UInt8) (playload : Option (List UInt8)) : Prop where
  isMethod : method ∈ methods
  isUri : IsWord uri
  shortUri : uri.length ≤ 127
  isPlayload : ∀ word ∈ playload, IsWord word
  joined : text = [0x20].intercalate (method :: uri :: playload.toList)

/-- The line puts one Confirmable request on the network, under an ID that no pending package
has. -/
def State.Requests (s : State) (text : List UInt8) (complete : Bool) : Prop :=
  ∃ t sent, s.react (.line text complete) = .ok t ∧ t.sent = s.sent ++ [sent] ∧
    typeOf sent.datagram = CoapType.confirmable.value ∧
    ∀ item ∈ s.coaps, item.package.messageId ≠ messageIdOf sent.datagram

/-- There is room for the line, and no pending package has the ID that the counter stands at. -/
def State.CanTake (s : State) (text : List UInt8) : Prop :=
  text.length < 200 ∧ ∀ item ∈ s.coaps, item.package.messageId ≠ s.messageId

section

variable {s t : State} {text method uri : List UInt8} {playload : Option (List UInt8)}
  {complete : Bool}

theorem isWord_of_mem_methods (h : method ∈ methods) : IsWord method := by
  simp only [methods, List.mem_cons, List.not_mem_nil, or_false] at h
  unfold IsWord
  obtain rfl | rfl | rfl | rfl := h <;> decide

theorem CommandLine.isWord (h : CommandLine text method uri playload) :
    ∀ word ∈ method :: uri :: playload.toList, IsWord word := by
  intro word hword
  obtain rfl | hword := List.mem_cons.mp hword
  · exact isWord_of_mem_methods h.isMethod
  · obtain rfl | hword := List.mem_cons.mp hword
    · exact h.isUri
    · exact h.isPlayload word (Option.mem_toList.mp hword)

theorem zero_notMem_intercalate {ws : List (List UInt8)} (h : ∀ word ∈ ws, 0 ∉ word) :
    (0 : UInt8) ∉ [(0x20 : UInt8)].intercalate ws := by
  induction ws with
  | nil => simp
  | cons word ws ih =>
    obtain ⟨hword, hws⟩ := List.forall_mem_cons.mp h
    obtain _ | ⟨word', ws⟩ := ws
    · simpa using hword
    · rw [List.intercalate_cons_cons, List.mem_append, List.mem_append]
      have := ih hws
      simp [hword, this]

theorem CommandLine.words (h : CommandLine text method uri playload) :
    words text = some (method :: uri :: playload.toList) := by
  have hzero : 0 ∉ text := by
    rw [h.joined]
    exact zero_notMem_intercalate fun word hword => (h.isWord word hword).2.2
  have htake : text.takeWhile (· ≠ 0) = text := by
    refine List.takeWhile_eq_self_iff.mpr fun c hc => ?_
    have : c ≠ 0 := fun heq => hzero (heq ▸ hc)
    simpa using this
  rw [Client.words, htake, h.joined]
  exact strSplitByString_intercalate (by simp) fun word hword => (h.isWord word hword).2.1

theorem CommandLine.takes_iff (h : CommandLine text method uri playload) :
    s.Takes text (method :: uri :: playload.toList) ↔
      ∀ item ∈ s.coaps, item.package.messageId ≠ s.messageId := by
  refine ⟨fun ht => ht.2.2, fun hfresh => ⟨h.words, ?_, hfresh⟩⟩
  cases playload with
  | none => exact .inl rfl
  | some word => exact .inr rfl

theorem State.commandLine_iff (hs : s.Sound) (h : CommandLine text method uri playload)
    (hlen : text.length < 200) :
    s.Requests text complete ↔ ∀ item ∈ s.coaps, item.package.messageId ≠ s.messageId := by
  obtain ⟨code, hcode⟩ := methodCode_of_mem h.isMethod
  constructor
  · rintro ⟨t, sent, hstep, hsent, -⟩
    by_contra htaken
    have hno (argv : List (List UInt8)) : ¬ s.Takes text argv := fun ht => htaken ht.2.2
    obtain rfl : s = t := Except.ok.inj ((State.commandLine_of_not_takes hlen hno).symm.trans hstep)
    simp at hsent
  · intro hfresh
    have htakes := h.takes_iff.mpr hfresh
    obtain ⟨t, hstep⟩ : ∃ t, s.commandLine text complete = .ok t := by
      obtain ⟨item, q, hstep, -⟩ := State.commandLine_ok hs hlen htakes hcode h.shortUri complete
      exact ⟨_, hstep⟩
    have hwords := h.words
    cases State.commandLine_effect hs hstep with
    | none hno => exact absurd htakes (hno _)
    | @refused argv htakes' hnone =>
      obtain rfl : argv = method :: uri :: playload.toList := by
        simpa [htakes'.1] using hwords
      exact absurd (hcode.symm.trans hnone) (by simp)
    | @requested argv code' u item q htakes' hcode' hserial hid hcode'' hreg =>
      refine ⟨_, _, hstep, rfl, hreg.message_parts.2.1, fun other ho => ?_⟩
      rw [messageIdOf_message, hid]
      exact hfresh other ho

theorem State.requests_iff (hs : s.Sound) (h : CommandLine text method uri playload) :
    s.Requests text complete ↔ s.CanTake text := by
  by_cases hlen : text.length < 200
  · rw [State.commandLine_iff hs h hlen, State.CanTake, and_iff_right hlen]
  · refine iff_of_false ?_ fun hcan => hlen hcan.1
    rintro ⟨t, sent, hstep, -⟩
    rw [State.react, State.commandLine, if_neg hlen] at hstep
    exact absurd hstep (by simp)

end

/-- In every reachable state, a command line results in one request exactly if it fits its array
and the ID that the counter stands at is free. -/
theorem State.commandTaken_iff {s : State} (hs : State.system.Reachable s)
    {text method uri : List UInt8}
    {playload : Option (List UInt8)} (h : CommandLine text method uri playload) (complete : Bool) :
    s.Requests text complete ↔ s.CanTake text :=
  State.requests_iff (State.sound_of_reachable hs) h

theorem commandLine_sampleLine : CommandLine sampleLine wordGET [0x61] none where
  isMethod := List.mem_cons_self
  isUri := by
    unfold IsWord
    decide
  shortUri := by decide
  isPlayload := by simp
  joined := by decide

theorem State.commandTaken_sampleLine : ∃ s : State, s.Waits 0 ∧ s.Requests sampleLine true := by
  obtain ⟨s, hs, hwaits⟩ := State.exists_waits State.FreshId fun _ => trivial
  exact ⟨s, hwaits, (State.commandTaken_iff hs.of_restrict commandLine_sampleLine true).mpr
    ⟨by decide, hwaits.free (by omega)⟩⟩

/-- With two packages pending, the counter comes to stand at the ID of one of them, and no line
is taken any more. -/
theorem State.not_commandTaken_wrapped :
    ∃ s, State.system.Reachable s ∧ s.coaps.length = 2 ∧
      ∃ text method uri playload, CommandLine text method uri playload ∧
        ∀ complete, ¬ s.Requests text complete := by
  obtain ⟨s, hs, first, second, hcoaps, -, -, hid, -, hnext⟩ :=
    Lib.System.Reachable.iterate (k := 65534)
      ((State.exists_waits State.FreshId fun _ => trivial).imp fun _ h => ⟨h.1.of_restrict, h.2⟩)
      fun k s hk hs h => h.step (by omega) (State.sound_of_reachable hs)
  refine ⟨s, hs, by simp [hcoaps], sampleLine, wordGET, [0x61], none, commandLine_sampleLine,
    fun complete => ?_⟩
  rw [State.requests_iff (State.sound_of_reachable hs) commandLine_sampleLine]
  intro hcan
  have hwrap : UInt16.ofNat (3 + 65534) = 1 := rfl
  rw [hwrap] at hnext
  exact hcan.2 first (by simp [hcoaps]) (hid.trans hnext.symm)

end Mbtk.Client
