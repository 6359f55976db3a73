import Mbtk.Client.Acks

namespace Mbtk.Client

open Lib Coap CoapPDU

/-- A datagram for the package went out under the ID that it has now. -/
def State.WasSent (s : State) (item : Item) : Prop :=
  ∃ sent ∈ s.sent, sent.origin = some item.serial ∧
    messageIdOf sent.datagram = item.package.messageId

/-- Every package of the list was sent under the ID that it has now. -/
def State.AllSent (s : State) : Prop := ∀ item ∈ s.coaps, s.WasSent item

def methods : List (List UInt8) := [wordGET, wordPOST, wordPUT, wordDELETE]

/-- The line has the wrong number of words, or its first word is none of the methods. -/
def Rejects (text : List UInt8) : Prop :=
  ∀ argv, words text = some argv → argv.length = 2 ∨ argv.length = 3 → argv.getD 0 [] ∉ methods

/-- A line that gets as far as a package of its own starts with a method. -/
def State.KnownMethod (s : State) : Event → Prop
  | .line text _ => ∀ argv, s.Takes text argv → argv.getD 0 [] ∈ methods
  | .datagram .. => True

section AllSent

variable {s t : State} {item : Item}

theorem messageIdOf_message (coap : Package) : messageIdOf coap.message = coap.messageId := by
  rw [messageIdOf, Package.message, encodeMessage, Package.header, messageHeader_append]
  exact endianLoad16_endianStore16 coap.messageId

theorem State.WasSent.mono (h : s.WasSent item) (hsent : s.sent ⊆ t.sent) : t.WasSent item := by
  obtain ⟨sent, hs, horigin, hid⟩ := h
  exact ⟨sent, hsent hs, horigin, hid⟩

theorem methodCode_of_mem {word : List UInt8} (h : word ∈ methods) :
    ∃ code, methodCode word = some code := by
  simp only [methods, List.mem_cons, List.not_mem_nil, or_false] at h
  obtain rfl | rfl | rfl | rfl := h
  · exact ⟨COAP_GET, rfl⟩
  · exact ⟨COAP_POST, rfl⟩
  · exact ⟨COAP_PUT, rfl⟩
  · exact ⟨COAP_DELETE, rfl⟩

theorem State.allSent_requested (h : s.AllSent) (q : CoapPDU) :
    (s.requested item q).AllSent := by
  intro other ho
  obtain ho | ho := List.mem_append.mp ho
  · exact (h other ho).mono (List.subset_append_left _ _)
  · obtain rfl := List.mem_singleton.mp ho
    exact ⟨_, List.mem_append_right _ (List.mem_singleton_self _), rfl, messageIdOf_message _⟩

theorem State.DatagramEffect.allSent (h : s.AllSent) {addr : ℕ} {d after : List UInt8}
    (heffect : s.DatagramEffect addr d after t) : t.AllSent := by
  cases heffect with
  | none => exact h
  | acked => exact fun item hi => (h item hi).mono (List.subset_append_left _ _)
  | continued =>
    intro other ho
    obtain rfl | ho := mem_store ho
    · exact ⟨_, List.mem_append_right _ (List.mem_singleton_self _), rfl, messageIdOf_message _⟩
    · exact (h other ho).mono (List.subset_append_left _ _)
  | deleted => exact fun item hi => h item (List.mem_of_mem_eraseP hi)

theorem State.LineEffect.kept_iff (h : s.AllSent) {text : List UInt8}
    {complete : Bool} (heffect : s.LineEffect text t) :
    (t.AllSent ∧ (Rejects text → t.coaps = s.coaps ∧ t.messageId = s.messageId)) ↔
      s.KnownMethod (.line text complete) := by
  have hknown {argv : List (List UInt8)} (htakes : s.Takes text argv) :
      s.KnownMethod (.line text complete) ↔ argv.getD 0 [] ∈ methods := by
    refine ⟨fun hk => hk argv htakes, fun hmem argv' htakes' => ?_⟩
    obtain rfl : argv = argv' := by simpa [htakes.1] using htakes'.1
    exact hmem
  have hrejects {argv : List (List UInt8)} (htakes : s.Takes text argv) :
      Rejects text ↔ argv.getD 0 [] ∉ methods := by
    refine ⟨fun hr => hr argv htakes.1 htakes.2.1, fun hno argv' hwords _ => ?_⟩
    obtain rfl : argv = argv' := by simpa [htakes.1] using hwords
    exact hno
  cases heffect with
  | none hno => exact ⟨fun _ argv ht => absurd ht (hno argv), fun _ => ⟨h, fun _ => ⟨rfl, rfl⟩⟩⟩
  | @refused argv htakes hcode =>
    have hno : argv.getD 0 [] ∉ methods := by
      intro hmem
      obtain ⟨code, hmethod⟩ := methodCode_of_mem hmem
      rw [hcode] at hmethod
      exact absurd hmethod (by simp)
    rw [hknown htakes]
    refine ⟨fun hkept => ?_, fun hmem => absurd hmem hno⟩
    have hcoaps : s.coaps ++ [⟨s.serials, listItemInit s.messageId⟩] = s.coaps :=
      (hkept.2 ((hrejects htakes).mpr hno)).1
    simp at hcoaps
  | @requested argv code uri item q htakes hcode =>
    rw [hknown htakes, hrejects htakes]
    refine ⟨fun hkept => ?_, fun hmem => ⟨State.allSent_requested h q, fun hno => absurd hmem hno⟩⟩
    by_contra hno
    have hcoaps : s.coaps ++ [item] = s.coaps := (hkept.2 hno).1
    simp at hcoaps

theorem State.allSent_of_reachable
    (hs : (State.system.restrict State.KnownMethod).Reachable s) : s.AllSent := by
  refine hs.invariant_of (P := State.Sound)
    (fun s hs => State.sound_of_reachable hs.of_restrict) ?_ ?_
  · rintro s ⟨keepsFreed, addr, heap, -, rfl⟩
    simp [State.AllSent, State.start]
  · rintro s e t hsound hall ⟨hguard, hstep⟩ -
    cases e with
    | line text complete =>
      exact ((State.commandLine_effect hsound hstep).kept_iff hall).mpr hguard |>.1
    | datagram addr d after complete =>
      exact (State.readCb_effect hsound hstep).allSent hall

end AllSent

/-- In the runs in which every line that makes a package starts with a method, every package of
the list was sent under its ID.  There a line has an outcome that leaves it so, and a rejected
line one that changes neither the list nor the counter, exactly if there is room for the line and
it starts with a method itself or makes no package. -/
theorem State.linesKept_iff {s : State}
    (hs : (State.system.restrict State.KnownMethod).Reachable s) :
    s.AllSent ∧ ∀ text complete,
      (∃ t, s.react (.line text complete) = .ok t ∧ t.AllSent ∧
        (Rejects text → t.coaps = s.coaps ∧ t.messageId = s.messageId)) ↔
      s.HasRoom text ∧ s.KnownMethod (.line text complete) := by
  have hsound := State.sound_of_reachable hs.of_restrict
  have hall := State.allSent_of_reachable hs
  refine ⟨hall, fun text complete => ?_⟩
  rw [← State.commandLine_ok_iff hsound complete]
  constructor
  · rintro ⟨t, hstep, hkept⟩
    exact ⟨⟨t, hstep⟩, ((State.commandLine_effect hsound hstep).kept_iff hall).mp hkept⟩
  · rintro ⟨⟨t, hstep⟩, hknown⟩
    exact ⟨t, hstep, ((State.commandLine_effect hsound hstep).kept_iff hall).mpr hknown⟩

section Samples

theorem takes_sampleLine (s : State) (h : ∀ item ∈ s.coaps, item.package.messageId ≠ s.messageId) :
    s.Takes sampleLine [[0x47, 0x45, 0x54], [0x61]] := ⟨words_sampleLine, .inl rfl, h⟩

/-- Two packages are pending: the first under the ID 1, the second under its ID of `k`
continuations. -/
def State.Waits (k : ℕ) (s : State) : Prop :=
  ∃ first second, s.coaps = [first, second] ∧ first.serial = 0 ∧ second.serial = 1 ∧
    first.package.messageId = 1 ∧ second.package.messageId = UInt16.ofNat (2 + k) ∧
    s.messageId = UInt16.ofNat (3 + k)

theorem State.exists_waits (guard : State → Event → Prop)
    (hguard : ∀ s, guard s (.line sampleLine true)) :
    ∃ s, (State.system.restrict guard).Reachable s ∧ State.Waits 0 s := by
  have hcode : methodCode wordGET = some COAP_GET := rfl
  have htakes := takes_sampleLine sampleStart (by simp [sampleStart, State.start])
  obtain ⟨first, q, hline, hserial, hid, -⟩ := State.commandLine_ok
    (State.sound_of_reachable reachable_sampleStart) (by decide) htakes hcode (by decide) true
  have hreach := Lib.System.Reachable.step (M := State.system.restrict guard)
    (e := .line sampleLine true) (.init init_sampleStart) ⟨hguard _, hline⟩
  obtain ⟨s, hs⟩ : ∃ s, s = sampleStart.requested first q := ⟨_, rfl⟩
  have hcoaps : s.coaps = [first] := by rw [hs]; rfl
  have hnext : s.messageId = 2 ∧ s.serials = 1 := by rw [hs]; exact ⟨rfl, rfl⟩
  change first.package.messageId = 1 at hid
  rw [← hs] at hreach
  have htakes := takes_sampleLine s (by rw [hcoaps, hnext.1]; simp [hid])
  obtain ⟨second, q', hline', hserial', hid', -⟩ := State.commandLine_ok
    (State.sound_of_reachable hreach.of_restrict) (by decide) htakes hcode (by decide) true
  refine ⟨_, hreach.step (e := .line sampleLine true) ⟨hguard _, hline'⟩, first, second, ?_,
    hserial, ?_, hid, ?_, ?_⟩
  · rw [State.requested, State.added, hcoaps]
    rfl
  · rw [hserial', hnext.2]
  · rw [hid', hnext.1]
    rfl
  · change s.messageId + 1 = _
    rw [hnext.1]
    rfl

theorem State.linesKept_line (s : State) :
    s.HasRoom sampleLine ∧ s.KnownMethod (.line sampleLine true) := by
  have hargv {argv : List (List UInt8)} (h : s.Takes sampleLine argv) :
      argv = [[0x47, 0x45, 0x54], [0x61]] := by
    simpa [words_sampleLine, eq_comm] using h.1
  refine ⟨⟨by decide, fun argv code h _ => ?_⟩, fun argv h => ?_⟩
  · rw [hargv h]
    decide
  · rw [hargv h]
    decide

def wordyLine : List UInt8 := sampleLine ++ [0x20, 0x62, 0x20, 0x63]

theorem State.linesKept_sample :
    ∃ s t u : State, s.Waits 0 ∧ s.react (.line sampleLine true) = .ok t ∧ t.AllSent ∧
      Rejects wordyLine ∧ t.react (.line wordyLine true) = .ok u ∧ u.AllSent ∧
      u.coaps = t.coaps ∧ u.messageId = t.messageId := by
  have hwords : words wordyLine = some [[0x47, 0x45, 0x54], [0x61], [0x62], [0x63]] := by decide
  have hrejects : Rejects wordyLine := by
    intro argv hargv hlen
    obtain rfl : [[0x47, 0x45, 0x54], [0x61], [0x62], [0x63]] = argv := by
      simpa [hwords] using hargv
    exact absurd hlen (by decide)
  obtain ⟨s, hs, hwaits⟩ := State.exists_waits State.KnownMethod fun s => s.linesKept_line.2
  obtain ⟨t, hstep, hsent, -⟩ :=
    ((State.linesKept_iff hs).2 sampleLine true).mpr s.linesKept_line
  have hno (argv : List (List UInt8)) : ¬ t.Takes wordyLine argv := by
    rintro ⟨hargv, hlen, -⟩
    obtain rfl : [[0x47, 0x45, 0x54], [0x61], [0x62], [0x63]] = argv := by
      simpa [hwords] using hargv
    exact absurd hlen (by decide)
  obtain ⟨u, hstep', hsent', hkept⟩ :=
    ((State.linesKept_iff (hs.step ⟨s.linesKept_line.2, hstep⟩)).2 wordyLine true).mpr
      ⟨⟨by decide, fun argv _ h _ => absurd h (hno argv)⟩, fun argv h => absurd h (hno argv)⟩
  exact ⟨s, t, u, hwaits, hstep, hsent, hrejects, hstep', hsent', hkept hrejects⟩

def unknownLine : List UInt8 := [0x46, 0x4F, 0x4F, 0x20, 0x78]

/-- An unknown method leaves a package behind that was never sent, and uses up an ID. -/
theorem State.not_linesKept_unknownLine :
    State.system.Reachable sampleStart ∧ Rejects unknownLine ∧
      ∃ t, sampleStart.react (.line unknownLine true) = .ok t ∧ ¬ t.AllSent ∧
        t.coaps ≠ sampleStart.coaps ∧ t.messageId ≠ sampleStart.messageId := by
  have hwords : words unknownLine = some [[0x46, 0x4F, 0x4F], [0x78]] := by decide
  have htakes : sampleStart.Takes unknownLine [[0x46, 0x4F, 0x4F], [0x78]] :=
    ⟨hwords, .inl rfl, by simp [sampleStart, State.start]⟩
  refine ⟨reachable_sampleStart, ?_, sampleStart.refused, ?_, ?_, ?_, by decide⟩
  · intro argv hargv _
    obtain rfl : [[0x46, 0x4F, 0x4F], [0x78]] = argv := by simpa [hwords] using hargv
    decide
  · change sampleStart.commandLine unknownLine true = _
    exact State.commandLine_refused (by simp [sampleStart, State.start]) (by decide) htakes
      (by decide)
  · intro hall
    obtain ⟨sent, hsent, -⟩ := hall ⟨0, listItemInit 1⟩ (List.mem_singleton_self _)
    exact absurd hsent
      (by simp [State.refused, State.added, State.nextId, sampleStart, State.start])
  · simp [State.refused, State.added, sampleStart, State.start]

end Samples

end Mbtk.Client
