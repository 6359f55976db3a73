import Mbtk.Client.Effects

namespace Mbtk.Client

open Lib Coap CoapPDU MString

/-- No copy of an execution outgrows the array it goes to. -/
def NoOverrun {α : Type} (x : Exec α) : Prop := ∀ buffer, x ≠ .error (.overrun buffer)

/-- No accessor for a numeric or a Block option overruns its array. -/
structure AccessorsFit (p : CoapPDU) : Prop where
  observe : NoOverrun p.coapGetRecvOptionObserve
  maxAge : NoOverrun p.coapGetRecvOptionMaxAge
  uriPort : NoOverrun p.coapGetRecvOptionUriPort
  size2 : NoOverrun p.coapGetRecvOptionSize2
  size1 : NoOverrun p.coapGetRecvOptionSize1
  block2 : NoOverrun p.coapGetRecvOptionBlock2
  block1 : NoOverrun p.coapGetRecvOptionBlock1
  contentFormat : NoOverrun p.coapGetRecvOptionContentFormat
  accept : NoOverrun p.coapGetRecvOptionAccept

/-- The delivery of a datagram and every accessor used on it stay inside their arrays. -/
def State.DatagramFits (s : State) (addr : ℕ) (d after : List UInt8) (complete : Bool) : Prop :=
  NoOverrun (s.readCb addr d after complete) ∧
    ∀ p, d ≠ [] → coapCreateRecv addr (d ++ after) d.length = .ok (some p) → AccessorsFit p

/-- If a line gets as far as copying its URI, the URI stays inside `opt_str` and leaves room
for its NUL. -/
def State.LineFits (s : State) (text : List UInt8) : Prop :=
  ∀ argv code, s.Takes text argv → methodCode (argv.getD 0 []) = some code →
    ∃ coap, setOption { listItemInit s.messageId with code } .uriPath (argv.getD 1 []) 0 0 0 =
        .ok coap ∧
      ∀ option ∈ coap.options, option.type = .uriPath → 0 ∈ option.optStr.1

def buffOptions : List UInt16 :=
  [COAP_OPTION_OBSERVE, COAP_OPTION_MAX_AGE, COAP_OPTION_URI_PORT, COAP_OPTION_SIZE2,
    COAP_OPTION_SIZE1, COAP_OPTION_BLOCK2, COAP_OPTION_BLOCK1, COAP_OPTION_CONTENT_FORMAT,
    COAP_OPTION_ACCEPT]

/-- If the walk over the options of a datagram comes to an end, no Uri-Path on its way is
longer than 100 bytes and no option for `buff` longer than 10. -/
def OptionsFit (d after : List UInt8) : Prop :=
  HeaderOk d → ∀ steps pay, Walk after (optionRegion d) steps pay → ∀ o ∈ wireOptions 0 steps,
    (o.1 = COAP_OPTION_URI_PATH → o.2.toNat ≤ 100) ∧ (o.1 ∈ buffOptions → o.2.toNat ≤ 10)

section NoOverrun

variable {α β : Type} {x : Exec α} {p : CoapPDU} {n : UInt16}

theorem noOverrun_ok (a : α) : NoOverrun (.ok a : Exec α) := fun _ => by simp

theorem noOverrun_bind {f : α → Exec β} (h : ∀ a, NoOverrun (f a)) :
    NoOverrun (x >>= f) ↔ NoOverrun x := by
  cases x with
  | error e => simp [NoOverrun]
  | ok a => exact ⟨fun _ => noOverrun_ok a, fun _ => h a⟩

theorem noOverrun_getOptionValueById {buffer : Buffer} {dst : List UInt8} :
    NoOverrun (p.getOptionValueById n buffer dst) ↔ p.FitsArray n dst.length := by
  by_cases h : p.FitsArray n dst.length
  · obtain ⟨r, hr⟩ := getOptionValueById_ok buffer h
    rw [hr]
    exact ⟨fun _ => h, fun _ => noOverrun_ok r⟩
  · rw [NoOverrun, getOptionValueById_overrun buffer h]
    exact ⟨fun hno => absurd rfl (hno buffer), fun hfits => absurd hfits h⟩

theorem noOverrun_recvBuff : NoOverrun (p.recvBuff n) ↔ p.FitsArray n 10 := by
  rw [recvBuff, noOverrun_getOptionValueById, List.length_replicate]

theorem noOverrun_recvNumber : NoOverrun (p.recvNumber n) ↔ p.FitsArray n 10 := by
  refine (noOverrun_bind fun a => ?_).trans noOverrun_recvBuff
  dsimp only
  split_ifs <;> exact noOverrun_ok _

theorem noOverrun_recvUInt16 : NoOverrun (p.recvUInt16 n) ↔ p.FitsArray n 10 :=
  (noOverrun_bind fun _ => noOverrun_ok _).trans noOverrun_recvNumber

theorem noOverrun_recvFormat : NoOverrun (p.recvFormat n) ↔ p.FitsArray n 10 :=
  (noOverrun_bind fun _ => noOverrun_ok _).trans noOverrun_recvNumber

theorem noOverrun_block2 :
    NoOverrun p.coapGetRecvOptionBlock2 ↔ p.FitsArray COAP_OPTION_BLOCK2 10 := by
  refine (noOverrun_bind fun a => ?_).trans noOverrun_recvBuff
  dsimp only
  split_ifs <;> exact noOverrun_ok _

theorem noOverrun_block1 :
    NoOverrun p.coapGetRecvOptionBlock1 ↔ p.FitsArray COAP_OPTION_BLOCK1 10 := by
  refine (noOverrun_bind fun a => ?_).trans noOverrun_recvBuff
  dsimp only
  split_ifs <;> exact noOverrun_ok _

theorem accessorsFit_iff : AccessorsFit p ↔ ∀ n ∈ buffOptions, p.FitsArray n 10 := by
  simp only [buffOptions, List.forall_mem_cons, List.not_mem_nil, false_implies, implies_true,
    and_true]
  rw [← noOverrun_block2, ← noOverrun_block1, ← noOverrun_recvUInt16 (n := COAP_OPTION_OBSERVE),
    ← noOverrun_recvUInt16 (n := COAP_OPTION_MAX_AGE),
    ← noOverrun_recvUInt16 (n := COAP_OPTION_URI_PORT),
    ← noOverrun_recvUInt16 (n := COAP_OPTION_SIZE2),
    ← noOverrun_recvUInt16 (n := COAP_OPTION_SIZE1),
    ← noOverrun_recvFormat (n := COAP_OPTION_CONTENT_FORMAT),
    ← noOverrun_recvFormat (n := COAP_OPTION_ACCEPT)]
  constructor
  · intro h
    exact ⟨h.observe, h.maxAge, h.uriPort, h.size2, h.size1, h.block2, h.block1,
      h.contentFormat, h.accept⟩
  · rintro ⟨h₁, h₂, h₃, h₄, h₅, h₆, h₇, h₈, h₉⟩
    exact ⟨h₁, h₂, h₃, h₄, h₅, h₆, h₇, h₈, h₉⟩

end NoOverrun

section Datagram

variable {s : State} {addr : ℕ} {d after : List UInt8} {complete : Bool} {p : CoapPDU}

theorem copyToken_ok (h8 : p.getTokenLength ≤ 8) : copyToken p = .ok p.getToken := by
  rw [copyToken, if_pos (by omega)]

theorem State.noOverrun_listDel (s : State) (messageId : UInt16) :
    NoOverrun (s.listDel messageId) := by
  cases hfound : getByMsgId s.coaps messageId with
  | none =>
    rw [State.listDel, listDel_eq, hfound]
    exact noOverrun_ok _
  | some item =>
    rw [s.listDel_found hfound, coapFree_eq]
    split_ifs
    · exact noOverrun_ok _
    · exact fun buffer => by simp [Except.map]

theorem State.noOverrun_resolveAck (hs : s.Sound) (hblock : p.FitsArray COAP_OPTION_BLOCK2 10) :
    NoOverrun (s.resolveAck p complete) := by
  unfold State.resolveAck
  cases hfound : getByMsgId s.coaps p.getMessageID with
  | none => exact noOverrun_ok s
  | some item =>
    have hfits : p.FitsArray COAP_OPTION_BLOCK2 (List.replicate 10 (0 : UInt8)).length := by
      simpa using hblock
    obtain ⟨r, hr⟩ := getOptionValueById_ok .buff hfits
    dsimp only
    rw [coapGetRecvOptionBlock2, recvBuff, hr, ok_bind]
    dsimp only
    split_ifs
    · cases hdec : decodeBlock2 r.1 r.2 with
      | none => exact s.noOverrun_listDel _
      | some block =>
        rw [pure_eq_ok, ok_bind]
        dsimp only
        split_ifs
        · obtain ⟨first, uri, hreg⟩ := hs.regular item (mem_of_getByMsgId hfound).1
          obtain ⟨q, -, hcont⟩ := State.continueBlock_eq hs.idle hreg block complete
          rw [hcont]
          exact noOverrun_ok _
        · exact s.noOverrun_listDel _
    · exact s.noOverrun_listDel _

theorem State.noOverrun_resolve (hs : s.Sound) (h8 : p.getTokenLength ≤ 8)
    (hpath : p.FitsArray COAP_OPTION_URI_PATH 100) (hblock : p.FitsArray COAP_OPTION_BLOCK2 10) :
    NoOverrun (s.resolve p complete) := by
  have hfits : p.FitsArray COAP_OPTION_URI_PATH (List.replicate 100 (0 : UInt8)).length := by
    simpa using hpath
  obtain ⟨r, hr⟩ := getOptionValueById_ok .uriPath hfits
  rw [State.resolve, copyToken_ok h8, ok_bind, coapGetRecvOptionUriPath, recvString, hr, ok_bind]
  split_ifs
  · have htoken : p.getToken.length ≤ 8 := by
      rw [getToken, List.length_take]
      omega
    obtain ⟨q, hbuild, -⟩ := buildAck_idle hs.idle p.getCode p.getMessageID htoken
    rw [sendAck, hbuild]
    exact noOverrun_ok _
  · exact noOverrun_ok s
  · exact State.noOverrun_resolveAck hs hblock
  · exact noOverrun_ok s

theorem State.resolve_overrun (h8 : p.getTokenLength ≤ 8)
    (hpath : ¬ p.FitsArray COAP_OPTION_URI_PATH 100) :
    s.resolve p complete = .error (.overrun .uriPath) := by
  have hfits : ¬ p.FitsArray COAP_OPTION_URI_PATH (List.replicate 100 (0 : UInt8)).length := by
    simpa using hpath
  have hover := getOptionValueById_overrun .uriPath hfits
  rw [State.resolve, copyToken_ok h8, ok_bind, coapGetRecvOptionUriPath, recvString, hover]
  rfl

theorem State.datagramFits_of_received (hs : s.Sound) (hd : d ≠ [])
    (hrecv : coapCreateRecv addr (d ++ after) d.length = .ok (some p)) :
    s.DatagramFits addr d after complete ↔
      p.FitsArray COAP_OPTION_URI_PATH 100 ∧ ∀ n ∈ buffOptions, p.FitsArray n 10 := by
  have h8 := getTokenLength_le hd hrecv
  rw [State.DatagramFits, State.readCb_of_received hd hrecv, ← accessorsFit_iff]
  constructor
  · rintro ⟨hno, hacc⟩
    refine ⟨?_, hacc p hd hrecv⟩
    by_contra hpath
    exact hno .uriPath (State.resolve_overrun h8 hpath)
  · rintro ⟨hpath, hacc⟩
    refine ⟨State.noOverrun_resolve hs h8 hpath (noOverrun_block2.mp hacc.block2),
      fun p' _ hp' => ?_⟩
    rw [hrecv] at hp'
    obtain rfl : p = p' := by simpa using hp'
    exact hacc

theorem State.datagramFits_iff (hs : s.Sound) :
    s.DatagramFits addr d after complete ↔ OptionsFit d after := by
  by_cases hd : d = []
  · subst hd
    have hhead : ¬ HeaderOk [] := fun h => absurd h.fixed (by decide)
    refine ⟨fun _ h => absurd h hhead, fun _ => ⟨?_, fun p h => absurd rfl h⟩⟩
    exact noOverrun_ok s
  · by_cases hwalk : HeaderOk d ∧ ∃ steps pay, Walk after (optionRegion d) steps pay
    · obtain ⟨hhead, steps, pay, hw⟩ := hwalk
      rw [State.datagramFits_of_received hs hd (coapCreateRecv_of_walk hd hhead hw)]
      have hpdu : (received addr d after).pdu = d ++ after := rfl
      have hfits (n : UInt16) (size : ℕ) := fitsArray_walked hpdu rfl hhead hw n size
      simp only [hfits]
      constructor
      · rintro ⟨hpath, hbuff⟩ _ steps' pay' hw' o ho
        obtain ⟨rfl, rfl⟩ := hw.unique hw'
        exact ⟨hpath o ho, fun hn => hbuff o.1 hn o ho rfl⟩
      · intro h
        exact ⟨fun o ho => (h hhead steps pay hw o ho).1,
          fun n hn o ho hon => (h hhead steps pay hw o ho).2 (by rwa [hon])⟩
    · have hrecv (p : CoapPDU) : coapCreateRecv addr (d ++ after) d.length ≠ .ok (some p) := by
        intro h
        obtain ⟨hhead, steps, pay, hw, -⟩ := coapCreateRecv_walked hd h
        exact hwalk ⟨hhead, steps, pay, hw⟩
      have hno : coapCreateRecv addr (d ++ after) d.length = .ok none := by
        have := hrecv (received addr d after).validate.1
        rw [coapCreateRecv_eq after hd] at this ⊢
        split_ifs at this ⊢
        · exact absurd rfl this
        · rfl
      refine ⟨fun _ hhead steps pay hw => absurd ⟨hhead, steps, pay, hw⟩ hwalk,
        fun _ => ⟨?_, fun p _ h => absurd h (hrecv p)⟩⟩
      rw [State.readCb, if_pos (List.length_pos_iff.mpr hd), hno]
      exact noOverrun_ok s

end Datagram

section Line

variable {s : State} {text : List UInt8}

theorem setOption_uriPath_iff {coap : Package} (h : coap.options = []) {str : List UInt8}
    (hstr : 0 ∉ str) :
    (∃ coap', setOption coap .uriPath str 0 0 0 = .ok coap' ∧
      ∀ option ∈ coap'.options, option.type = .uriPath → 0 ∈ option.optStr.1) ↔
      str.length ≤ 127 := by
  rw [setOption_new (by simp [h])]
  change (∃ coap', (setOptStr str >>= fun optStr =>
    .ok { CoapOption.zero .uriPath with optStr }) >>= _ = Except.ok coap' ∧ _) ↔ _
  unfold setOptStr
  split_ifs with hlen
  · simp only [ok_bind, pure_eq_ok, Except.ok.injEq, exists_eq_left', h, List.mem_singleton,
      forall_eq, CoapOption.zero, List.mem_append, List.mem_replicate, hstr, false_or, ne_eq,
      and_true, true_implies]
    omega
  · simp only [error_bind, reduceCtorEq, false_and, exists_false, false_iff]
    omega

theorem State.lineFits_iff : s.LineFits text ↔ s.UriFits text := by
  refine forall_congr' fun argv => forall_congr' fun code => ?_
  refine forall_congr' fun htakes => forall_congr' fun hcode => ?_
  exact setOption_uriPath_iff rfl (zero_notMem_words htakes.1 1)

end Line

/-- The datagrams with no Uri-Path of more than 100 bytes and no numeric option of more than 10
are exactly those that stay inside the arrays of the receiver, and the lines with a URI of at
most 127 characters are exactly those that stay inside `opt_str`. -/
theorem State.buffersFit_iff {s : State} (hs : State.system.Reachable s) :
    (∀ addr d after complete, d.length ≤ 65535 →
      (s.DatagramFits addr d after complete ↔ OptionsFit d after)) ∧
    ∀ text, text.length ≤ 199 → (s.LineFits text ↔ s.UriFits text) :=
  ⟨fun _ _ _ _ _ => State.datagramFits_iff (State.sound_of_reachable hs),
    fun _ _ => State.lineFits_iff⟩

theorem State.buffersFit_sampleStart :
    sampleStart.DatagramFits 0 sampleDatagram [0xFE] true ∧ sampleStart.LineFits sampleLine := by
  obtain ⟨hdatagram, hline⟩ := State.buffersFit_iff reachable_sampleStart
  refine ⟨(hdatagram 0 sampleDatagram [0xFE] true (by decide)).mpr ?_,
    (hline sampleLine (by decide)).mpr ?_⟩
  · rintro - steps pay hw
    obtain ⟨hw', -⟩ := message_sampleDatagram.walk (by decide) [0xFE]
    obtain ⟨rfl, -⟩ := hw.unique hw'
    have hwire : wireOptions 0 (optionSteps 0 [⟨11, [0x61]⟩, ⟨27, [0x08]⟩, ⟨306, []⟩]) =
        [(11, 1), (27, 1), (306, 0)] := by decide
    rw [hwire]
    simp only [List.forall_mem_cons]
    exact ⟨by decide, by decide, by decide, by simp⟩
  · intro argv code htakes _
    have hwords := htakes.1
    rw [words_sampleLine, Option.some_inj] at hwords
    subst hwords
    simp

/-- An ACK with a Uri-Path of 101 bytes. -/
def longPath : List UInt8 := [0x60, 0x45, 0x00, 0x01, 0xBD, 0x58] ++ List.replicate 101 0x61

/-- `GET` with a URI of 128 characters. -/
def longLine : List UInt8 := [0x47, 0x45, 0x54, 0x20] ++ List.replicate 128 0x61

/-- The path outgrows `uri_path`, and the URI fills `opt_str` up to its last byte. -/
theorem State.not_buffersFit_long :
    State.system.Reachable sampleStart ∧
      (longPath.length ≤ 65535 ∧ ¬ sampleStart.DatagramFits 0 longPath [] true) ∧
      longLine.length ≤ 199 ∧ ¬ sampleStart.LineFits longLine := by
  refine ⟨reachable_sampleStart, ⟨by decide, ?_⟩, by decide, ?_⟩
  · rw [State.datagramFits_iff (State.sound_of_reachable reachable_sampleStart)]
    have hhead : HeaderOk longPath := by constructor <;> decide
    have hwalk : Walk [] (optionRegion longPath) [(11, 101)] [] :=
      .option (h := 0xBD) (t := 0x58 :: List.replicate 101 0x61) (by decide) (by decide)
        (by decide) (by decide) .done
    intro hfit
    have := (hfit hhead _ _ hwalk (11, 101) (by simp [wireOptions])).1 rfl
    exact absurd this (by decide)
  · rw [State.lineFits_iff]
    intro hfit
    have hwords : words longLine = some [[0x47, 0x45, 0x54], List.replicate 128 0x61] := by
      decide +kernel
    have htakes : sampleStart.Takes longLine [[0x47, 0x45, 0x54], List.replicate 128 0x61] :=
      ⟨hwords, .inl rfl, by simp [sampleStart, State.start]⟩
    have := hfit _ COAP_GET htakes (by decide)
    simp at this

end Mbtk.Client
