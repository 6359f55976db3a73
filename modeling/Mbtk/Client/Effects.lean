import Mathlib.Data.List.TakeWhile
import Mbtk.Client.Requests
import Mbtk.Coap.RecvLaws

namespace Mbtk.Client

open Lib Coap CoapPDU MString

/-- What every reachable state keeps: the shared PDU can be reset, the packages in the list
are different ones and look as the client makes them. -/
structure State.Sound (s : State) : Prop where
  idle : s.pdu.Idle
  serials : (s.coaps.map Item.serial).Nodup
  allocated : ∀ item ∈ s.coaps, item.serial < s.serials
  regular : ∀ item ∈ s.coaps, ∃ block uri, item.package.Regular block uri

section Store

variable {coaps : List Item} {item other : Item}

@[simp] theorem map_serial_store (coaps : List Item) (item : Item) :
    (store coaps item).map Item.serial = coaps.map Item.serial := by
  rw [store, List.map_map]
  refine List.map_congr_left fun other _ => ?_
  by_cases h : other.serial = item.serial <;> simp [h]

theorem mem_store (h : other ∈ store coaps item) : other = item ∨ other ∈ coaps := by
  obtain ⟨i, hi, rfl⟩ := List.mem_map.mp h
  split_ifs
  · exact .inl rfl
  · exact .inr hi

theorem store_store (coaps : List Item) (h : item.serial = other.serial) :
    store (store coaps item) other = store coaps other := by
  rw [store, store, store, List.map_map]
  refine List.map_congr_left fun i _ => ?_
  dsimp only [Function.comp_apply]
  by_cases hi : i.serial = item.serial
  · rw [if_pos hi, if_pos h, if_pos (hi.trans h)]
  · rw [if_neg hi]

theorem store_last (h : ∀ other ∈ coaps, other.serial < item.serial)
    (hserial : other.serial = item.serial) : store (coaps ++ [other]) item = coaps ++ [item] := by
  rw [store, List.map_append, List.map_singleton, if_pos hserial]
  congr 1
  refine (List.map_congr_left fun i hi => ?_).trans (List.map_id coaps)
  rw [if_neg (h i hi).ne, id]

end Store

section Send

variable {s : State} {item : Item} {block : Option OptionBlock} {uri : Option (Bytes 128)}

def Item.counted (item : Item) (complete : Bool) : Item :=
  if complete then item
  else { item with package.sendCount := item.package.sendCount + 1 }

@[simp] theorem Item.serial_counted (item : Item) (complete : Bool) :
    (item.counted complete).serial = item.serial := by cases complete <;> rfl

@[simp] theorem Item.messageId_counted (item : Item) (complete : Bool) :
    (item.counted complete).package.messageId = item.package.messageId := by cases complete <;> rfl

@[simp] theorem Item.code_counted (item : Item) (complete : Bool) :
    (item.counted complete).package.code = item.package.code := by cases complete <;> rfl

@[simp] theorem Item.playload_counted (item : Item) (complete : Bool) :
    (item.counted complete).package.playload = item.package.playload := by cases complete <;> rfl

@[simp] theorem Item.message_counted (item : Item) (complete : Bool) :
    (item.counted complete).package.message = item.package.message := by cases complete <;> rfl

theorem Item.regular_counted (h : item.package.Regular block uri) (complete : Bool) :
    (item.counted complete).package.Regular block uri := by
  cases complete with
  | true => exact h
  | false => exact ⟨h.version, h.type, h.code, h.tokenLen, h.options, h.terminated, h.playload⟩

theorem State.send_eq (hidle : s.pdu.Idle) (h : item.package.Regular block uri) (complete : Bool) :
    ∃ q, q.Idle ∧ { s with coaps := store s.coaps item }.send item complete =
      .ok { s with
        coaps := store s.coaps (item.counted complete)
        pdu := .created q
        sent := s.sent ++ [⟨some item.serial, (item.counted complete).package.message⟩] } := by
  have hadm := h.admissible
  obtain ⟨q, hsend, hq⟩ := coapSend_message hidle hadm.tokenLen hadm.terminated hadm.size
  refine ⟨q, hq, ?_⟩
  rw [State.send, hsend, ok_bind, Item.message_counted]
  dsimp only
  rw [if_neg (not_not.mpr h.type)]
  cases complete with
  | true => rfl
  | false =>
    rw [← store_store s.coaps (show item.serial = (item.counted false).serial from rfl)]
    rfl

theorem State.send_terminated {t : State} {complete : Bool} (hidle : s.pdu.Idle)
    (h8 : item.package.tokenLen ≤ 8) (h : s.send item complete = .ok t) :
    ∀ option ∈ item.package.options, option.Terminated := by
  cases hbuild : buildPackage s.pdu item.package with
  | error e =>
    rw [State.send, coapSend, hbuild] at h
    simp at h
  | ok q => exact buildPackage_terminated hidle h8 hbuild

end Send

section Line

variable {s t : State} {text : List UInt8} {complete : Bool}

/-- A line with the words `argv` gets as far as a package of its own. -/
def State.Takes (s : State) (text : List UInt8) (argv : List (List UInt8)) : Prop :=
  words text = some argv ∧ (argv.length = 2 ∨ argv.length = 3) ∧
    ∀ item ∈ s.coaps, item.package.messageId ≠ s.messageId

/-- If a line gets as far as copying its URI, that has at most 127 characters. -/
def State.UriFits (s : State) (text : List UInt8) : Prop :=
  ∀ argv code, s.Takes text argv → methodCode (argv.getD 0 []) = some code →
    (argv.getD 1 []).length ≤ 127

/-- The arrays of `main` and of the package hold the line and its URI. -/
def State.HasRoom (s : State) (text : List UInt8) : Prop := text.length < 200 ∧ s.UriFits text

def State.added (s : State) (item : Item) : State :=
  { s.nextId with coaps := s.coaps ++ [item], serials := s.serials + 1 }

def State.refused (s : State) : State := s.added ⟨s.serials, listItemInit s.messageId⟩

def State.requested (s : State) (item : Item) (q : CoapPDU) : State :=
  { s.added item with
    pdu := .created q
    sent := s.sent ++ [⟨some item.serial, item.package.message⟩] }

inductive State.LineEffect (s : State) (text : List UInt8) : State → Prop
  | none : (∀ argv, ¬ s.Takes text argv) → LineEffect s text s
  | refused {argv : List (List UInt8)} : s.Takes text argv →
      methodCode (argv.getD 0 []) = none → LineEffect s text s.refused
  | requested {argv : List (List UInt8)} {code : UInt8} {uri : Bytes 128} {item : Item}
      {q : CoapPDU} : s.Takes text argv → methodCode (argv.getD 0 []) = some code →
      item.serial = s.serials → item.package.messageId = s.messageId →
      item.package.code = code → item.package.Regular none (some uri) → q.Idle →
      LineEffect s text (s.requested item q)

theorem State.listAdd_eq_none_iff :
    s.listAdd s.messageId = none ↔ ∃ item ∈ s.coaps, item.package.messageId = s.messageId := by
  simp [State.listAdd]

theorem State.listAdd_eq (h : ∀ item ∈ s.coaps, item.package.messageId ≠ s.messageId) :
    s.listAdd s.messageId = some
      ({ s with
          coaps := s.coaps ++ [⟨s.serials, listItemInit s.messageId⟩]
          serials := s.serials + 1 }, ⟨s.serials, listItemInit s.messageId⟩) := by
  have hany : ¬ s.coaps.any (·.package.messageId = s.messageId) = true := by simpa using h
  rw [State.listAdd, if_neg hany]

theorem methodCode_accepted {word : List UInt8} {code : UInt8} (h : methodCode word = some code) :
    codeAccepted code = true := by
  unfold methodCode at h
  split_ifs at h <;> (rw [← Option.some.inj h]; decide)

theorem length_words {argv : List (List UInt8)} {word : List UInt8} (h : words text = some argv)
    (hw : word ∈ argv) : word.length ≤ text.length :=
  (length_le_of_strSplitByString h hw).trans (List.takeWhile_sublist _).length_le

theorem getD_words {argv : List (List UInt8)} (h : words text = some argv) (i : ℕ) :
    (argv.getD i []).length ≤ text.length := by
  rw [List.getD_eq_getElem?_getD]
  cases hi : argv[i]? with
  | none => exact Nat.zero_le _
  | some word => exact length_words h (List.mem_of_getElem? hi)

theorem zero_notMem_words {argv : List (List UInt8)} (h : words text = some argv) (i : ℕ) :
    0 ∉ argv.getD i [] := by
  rw [List.getD_eq_getElem?_getD]
  cases hi : argv[i]? with
  | none => simp
  | some word =>
    intro hzero
    have hmem := subset_of_strSplitByString h (List.mem_of_getElem? hi) hzero
    simpa using List.mem_takeWhile_imp hmem

theorem regular_listItemInit (messageId : UInt16) :
    (listItemInit messageId).Regular none none where
  version := rfl
  type := rfl
  code := by
    change codeAccepted COAP_EMPTY = true
    decide
  tokenLen := rfl
  options := rfl
  terminated := by simp
  playload := by simp [listItemInit]

def requestPackage (messageId : UInt16) (code : UInt8) (uri : Bytes 128)
    (argv : List (List UInt8)) : Package :=
  { listItemInit messageId with
    code
    options := requestOptions uri
    playload := if argv.length = 3 then argv.getD 2 [] else [] }

theorem regular_requestPackage {messageId : UInt16} {code : UInt8} {uri : Bytes 128}
    {argv : List (List UInt8)} (hcode : codeAccepted code = true) (huri : 0 ∈ uri.1)
    (hlen : (argv.getD 2 []).length < 200) :
    (requestPackage messageId code uri argv).Regular none (some uri) where
  version := rfl
  type := rfl
  code := hcode
  tokenLen := rfl
  options := rfl
  terminated := by simpa using huri
  playload := by
    unfold requestPackage
    dsimp only
    split_ifs
    · exact hlen
    · simp

theorem State.commandLine_of_not_takes (hlen : text.length < 200)
    (h : ∀ argv, ¬ s.Takes text argv) : s.commandLine text complete = .ok s := by
  rw [State.commandLine, if_pos hlen]
  cases hwords : words text with
  | none => rfl
  | some argv =>
    dsimp only
    by_cases hargv : argv.length = 2 ∨ argv.length = 3
    · have htaken : ∃ item ∈ s.coaps, item.package.messageId = s.messageId := by
        by_contra hno
        exact h argv ⟨hwords, hargv, fun item hi hid => hno ⟨item, hi, hid⟩⟩
      rw [if_pos hargv, State.listAdd_eq_none_iff.mpr htaken]
    · rw [if_neg hargv]

theorem State.store_added (hs : ∀ item ∈ s.coaps, item.serial < s.serials) (coap : Package) :
    { s.nextId with
        coaps := store (s.coaps ++ [⟨s.serials, listItemInit s.messageId⟩]) ⟨s.serials, coap⟩
        serials := s.serials + 1 } = s.added ⟨s.serials, coap⟩ := by
  have hstore : store (s.coaps ++ [⟨s.serials, listItemInit s.messageId⟩]) ⟨s.serials, coap⟩ =
      s.coaps ++ [⟨s.serials, coap⟩] := store_last hs rfl
  rw [hstore]
  rfl

theorem State.commandLine_refused {argv : List (List UInt8)}
    (hs : ∀ item ∈ s.coaps, item.serial < s.serials) (hlen : text.length < 200)
    (h : s.Takes text argv) (hcode : methodCode (argv.getD 0 []) = none) :
    s.commandLine text complete = .ok s.refused := by
  obtain ⟨hwords, hargv, hfresh⟩ := h
  rw [State.commandLine, if_pos hlen, hwords]
  dsimp only
  rw [if_pos hargv, State.listAdd_eq hfresh]
  dsimp only
  rw [hcode]
  exact congrArg Except.ok (State.store_added hs (listItemInit s.messageId))

theorem State.commandLine_requested {argv : List (List UInt8)} {code : UInt8}
    (hs : ∀ item ∈ s.coaps, item.serial < s.serials) (hlen : text.length < 200)
    (h : s.Takes text argv) (hcode : methodCode (argv.getD 0 []) = some code) :
    s.commandLine text complete = (do
      let uri ← setOptStr (argv.getD 1 [])
      let item : Item := ⟨s.serials, requestPackage s.messageId code uri argv⟩
      (s.added item).send item complete) := by
  obtain ⟨hwords, hargv, hfresh⟩ := h
  rw [State.commandLine, if_pos hlen, hwords]
  dsimp only
  rw [if_pos hargv, State.listAdd_eq hfresh]
  dsimp only
  rw [hcode]
  dsimp only
  rw [request_eq rfl]
  cases setOptStr (argv.getD 1 []) with
  | error e => rfl
  | ok uri =>
    simp only [ok_bind]
    rw [← State.store_added hs]
    rfl

theorem State.added_send (hs : s.Sound) {item : Item} {block : Option OptionBlock}
    {uri : Option (Bytes 128)} (hserial : item.serial = s.serials)
    (hreg : item.package.Regular block uri) (complete : Bool) :
    ∃ q, q.Idle ∧ (s.added item).send item complete =
      .ok (s.requested (item.counted complete) q) := by
  have hlast (other : Item) (ho : other.serial = item.serial) :
      store (s.coaps ++ [item]) other = s.coaps ++ [other] :=
    store_last (by rw [ho, hserial]; exact hs.allocated) ho.symm
  have hself : { s.added item with coaps := store (s.added item).coaps item } = s.added item := by
    rw [State.added, hlast item rfl]
  have hcounted : store (s.added item).coaps (item.counted complete) =
      s.coaps ++ [item.counted complete] := hlast _ (item.serial_counted complete)
  obtain ⟨q, hq, hsend⟩ := State.send_eq (s := s.added item) hs.idle hreg complete
  refine ⟨q, hq, ?_⟩
  rw [hself, hcounted] at hsend
  rw [hsend, State.requested, Item.serial_counted]
  rfl

theorem State.commandLine_ok (hs : s.Sound) (hlen : text.length < 200)
    {argv : List (List UInt8)} {code : UInt8} (h : s.Takes text argv)
    (hcode : methodCode (argv.getD 0 []) = some code) (huri : (argv.getD 1 []).length ≤ 127)
    (complete : Bool) :
    ∃ item q, s.commandLine text complete = .ok (s.requested item q) ∧
      item.serial = s.serials ∧ item.package.messageId = s.messageId ∧
      ∃ uri, item.package.Regular none (some uri) := by
  obtain ⟨uri, hset, h0⟩ : ∃ uri, setOptStr (argv.getD 1 []) = .ok uri ∧ 0 ∈ uri.1 := by
    unfold setOptStr
    rw [dif_pos (by omega)]
    refine ⟨_, rfl, List.mem_append_right _ (List.mem_replicate.mpr ⟨by omega, rfl⟩)⟩
  let item : Item := ⟨s.serials, requestPackage s.messageId code uri argv⟩
  have hreg : item.package.Regular none (some uri) :=
    regular_requestPackage (methodCode_accepted hcode) h0 ((getD_words h.1 2).trans_lt hlen)
  obtain ⟨q, -, hsend⟩ := State.added_send hs (show item.serial = s.serials from rfl) hreg complete
  refine ⟨item.counted complete, q, ?_, item.serial_counted complete,
    item.messageId_counted complete, uri, Item.regular_counted hreg complete⟩
  rw [State.commandLine_requested hs.allocated hlen h hcode, hset, ok_bind]
  exact hsend

theorem State.uri_of_commandLine (hs : s.Sound) (hlen : text.length < 200)
    {argv : List (List UInt8)} {code : UInt8} (htakes : s.Takes text argv)
    (hcode : methodCode (argv.getD 0 []) = some code) (h : s.commandLine text complete = .ok t) :
    ∃ uri, setOptStr (argv.getD 1 []) = .ok uri ∧ 0 ∈ uri.1 := by
  rw [State.commandLine_requested hs.allocated hlen htakes hcode] at h
  cases huri : setOptStr (argv.getD 1 []) with
  | error e =>
    rw [huri] at h
    exact absurd h (by simp)
  | ok uri =>
    rw [huri, ok_bind] at h
    have hterm := State.send_terminated
      (s := s.added ⟨s.serials, requestPackage s.messageId code uri argv⟩) hs.idle
      UInt8.zero_le h
    exact ⟨uri, rfl, @terminated_uri none (some uri) hterm uri rfl⟩

theorem length_le_of_setOptStr {str : List UInt8} {uri : Bytes 128} (hstr : 0 ∉ str)
    (h : setOptStr str = .ok uri) (huri : 0 ∈ uri.1) : str.length ≤ 127 := by
  unfold setOptStr at h
  split_ifs at h with hlen
  rw [← Except.ok.inj h] at huri
  obtain hmem | hmem := List.mem_append.mp huri
  · exact absurd hmem hstr
  · have := (List.mem_replicate.mp hmem).1
    omega

theorem State.commandLine_effect (hs : s.Sound) (h : s.commandLine text complete = .ok t) :
    s.LineEffect text t := by
  by_cases hlen : text.length < 200
  · by_cases htakes : ∃ argv, s.Takes text argv
    · obtain ⟨argv, htakes⟩ := htakes
      cases hcode : methodCode (argv.getD 0 []) with
      | none =>
        rw [State.commandLine_refused hs.allocated hlen htakes hcode] at h
        obtain rfl := Except.ok.inj h
        exact .refused htakes hcode
      | some code =>
        obtain ⟨uri, huri, huri0⟩ := State.uri_of_commandLine hs hlen htakes hcode h
        rw [State.commandLine_requested hs.allocated hlen htakes hcode, huri, ok_bind] at h
        obtain ⟨item, hitem⟩ : ∃ item : Item,
            item = ⟨s.serials, requestPackage s.messageId code uri argv⟩ := ⟨_, rfl⟩
        dsimp only at h
        rw [← hitem] at h
        have hreg : item.package.Regular none (some uri) := by
          rw [hitem]
          exact regular_requestPackage (methodCode_accepted hcode) huri0
            ((getD_words htakes.1 2).trans_lt hlen)
        have hserial : item.serial = s.serials := by rw [hitem]
        obtain ⟨q, hq, hsend⟩ := State.added_send hs hserial hreg complete
        rw [hsend] at h
        obtain rfl := Except.ok.inj h
        exact .requested htakes hcode (by rw [Item.serial_counted, hserial])
          (by rw [Item.messageId_counted, hitem]; rfl)
          (by rw [Item.code_counted, hitem]; rfl) (Item.regular_counted hreg complete) hq
    · have hno : ∀ argv, ¬ s.Takes text argv := fun argv ht => htakes ⟨argv, ht⟩
      rw [State.commandLine_of_not_takes hlen hno] at h
      obtain rfl := Except.ok.inj h
      exact .none hno
  · rw [State.commandLine, if_neg hlen] at h
    exact absurd h (by simp)

theorem State.commandLine_ok_iff (hs : s.Sound) (complete : Bool) :
    (∃ t, s.commandLine text complete = .ok t) ↔ s.HasRoom text := by
  constructor
  · rintro ⟨t, h⟩
    have hlen : text.length < 200 := by
      by_contra hlen
      rw [State.commandLine, if_neg hlen] at h
      cases h
    refine ⟨hlen, fun argv code htakes hcode => ?_⟩
    obtain ⟨uri, huri, huri0⟩ := State.uri_of_commandLine hs hlen htakes hcode h
    exact length_le_of_setOptStr (zero_notMem_words htakes.1 1) huri huri0
  · rintro ⟨hlen, huri⟩
    by_cases htakes : ∃ argv, s.Takes text argv
    · obtain ⟨argv, htakes⟩ := htakes
      cases hcode : methodCode (argv.getD 0 []) with
      | none => exact ⟨_, State.commandLine_refused hs.allocated hlen htakes hcode⟩
      | some code =>
        obtain ⟨item, q, hline, -⟩ :=
          State.commandLine_ok hs hlen htakes hcode (huri argv code htakes hcode) complete
        exact ⟨_, hline⟩
    · exact ⟨s, State.commandLine_of_not_takes hlen fun argv ht => htakes ⟨argv, ht⟩⟩

end Line

section Datagram

variable {s t : State} {addr : ℕ} {d after : List UInt8} {complete : Bool} {p : CoapPDU}
  {item : Item}

/-- The datagram is accepted, as an ACK for a package of the list. -/
structure State.Acknowledges (s : State) (addr : ℕ) (d after : List UInt8) (p : CoapPDU)
    (item : Item) : Prop where
  received : coapCreateRecv addr (d ++ after) d.length = .ok (some p)
  type : p.getType = CoapType.acknowledgement.value
  found : getByMsgId s.coaps p.getMessageID = some item

/-- The datagram is an ACK after which the package asks for the block behind `block`. -/
def State.Continues (s : State) (addr : ℕ) (d after : List UInt8) (item : Item)
    (block : RecvBlock) : Prop :=
  ∃ p, s.Acknowledges addr d after p item ∧ p.coapGetRecvOptionBlock2 = .ok (some block) ∧
    block.moreFlag ≠ 0

def Item.next (item : Item) (messageId : UInt16) (block : RecvBlock) (uri : Option (Bytes 128)) :
    Item :=
  ⟨item.serial, { item.package with
    messageId
    options := packageOptions (some ⟨block.size.toUInt32, block.number + 1, 0⟩) uri }⟩

def State.continued (s : State) (item : Item) (q : CoapPDU) : State :=
  { s.nextId with
    coaps := store s.coaps item
    pdu := .created q
    sent := s.sent ++ [⟨some item.serial, item.package.message⟩] }

def State.acked (s : State) (datagram : List UInt8) (q : CoapPDU) : State :=
  { s with pdu := .created q, sent := s.sent ++ [⟨none, datagram⟩] }

def State.deleted (s : State) (messageId : UInt16) : State :=
  { s with coaps := s.coaps.eraseP (·.package.messageId = messageId) }

inductive State.DatagramEffect (s : State) (addr : ℕ) (d after : List UInt8) : State → Prop
  | none : DatagramEffect s addr d after s
  | acked {q : CoapPDU} {datagram : List UInt8} : q.Idle →
      DatagramEffect s addr d after (s.acked datagram q)
  | continued {item : Item} {block : RecvBlock} {first : Option OptionBlock}
      {uri : Option (Bytes 128)} {complete : Bool} {q : CoapPDU} :
      s.Continues addr d after item block → item.package.Regular first uri → q.Idle →
      DatagramEffect s addr d after
        (s.continued ((item.next s.messageId block uri).counted complete) q)
  | deleted {p : CoapPDU} {item : Item} : s.Acknowledges addr d after p item →
      DatagramEffect s addr d after (s.deleted p.getMessageID)

theorem mem_of_getByMsgId {coaps : List Item} {messageId : UInt16}
    (h : getByMsgId coaps messageId = some item) :
    item ∈ coaps ∧ item.package.messageId = messageId :=
  ⟨List.mem_of_find?_eq_some h, by simpa using List.find?_some h⟩

theorem coapFree_eq (keepsFreed : Bool) (coap : Package) :
    coapFree keepsFreed coap =
      if coap.options = [] ∨ keepsFreed then .ok () else .error .freed := by
  unfold coapFree
  cases keepsFreed with
  | true =>
    rw [if_pos (Or.inr rfl)]
    induction coap.options with
    | nil => rfl
    | cons option options ih => simpa using ih
  | false =>
    cases coap.options with
    | nil => rfl
    | cons option options => simp

theorem listDel_eq (keepsFreed : Bool) (messageId : UInt16) (coaps : List Item) :
    listDel keepsFreed messageId coaps =
      match getByMsgId coaps messageId with
      | none => .ok coaps
      | some item => (coapFree keepsFreed item.package).map fun _ =>
          coaps.eraseP (·.package.messageId = messageId) := by
  induction coaps with
  | nil => rfl
  | cons coap coaps ih =>
    rw [listDel, getByMsgId]
    by_cases hid : coap.package.messageId = messageId
    · rw [if_pos hid, List.find?_cons_of_pos (by simpa using hid),
        List.eraseP_cons_of_pos (by simpa using hid)]
      rfl
    · rw [if_neg hid, List.find?_cons_of_neg (by simpa using hid),
        List.eraseP_cons_of_neg (by simpa using hid), ← getByMsgId, ih]
      cases getByMsgId coaps messageId with
      | none => rfl
      | some item =>
        dsimp only
        cases coapFree keepsFreed item.package <;> rfl

theorem State.listDel_found (s : State) {messageId : UInt16}
    (h : getByMsgId s.coaps messageId = some item) :
    s.listDel messageId =
      (coapFree s.keepsFreed item.package).map fun _ => s.deleted messageId := by
  rw [State.listDel, listDel_eq, h]
  dsimp only
  cases coapFree s.keepsFreed item.package <;> rfl

theorem State.eq_deleted {messageId : UInt16} (hfound : getByMsgId s.coaps messageId = some item)
    (h : s.listDel messageId = .ok t) : t = s.deleted messageId := by
  rw [s.listDel_found hfound] at h
  cases hfree : coapFree s.keepsFreed item.package with
  | error e =>
    rw [hfree] at h
    cases h
  | ok u =>
    rw [hfree] at h
    exact (Except.ok.inj h).symm

theorem regular_next {first : Option OptionBlock} {uri : Option (Bytes 128)}
    (h : item.package.Regular first uri) (messageId : UInt16) (block : RecvBlock) :
    (item.next messageId block uri).package.Regular
      (some ⟨block.size.toUInt32, block.number + 1, 0⟩) uri :=
  ⟨h.version, h.type, h.code, h.tokenLen, rfl, h.terminated, h.playload⟩

theorem State.continueBlock_eq {first : Option OptionBlock} {uri : Option (Bytes 128)}
    (hidle : s.pdu.Idle) (h : item.package.Regular first uri) (block : RecvBlock)
    (complete : Bool) :
    ∃ q, q.Idle ∧ s.continueBlock item block complete =
      .ok (s.continued ((item.next s.messageId block uri).counted complete) q) := by
  obtain ⟨q, hq, hsend⟩ := State.send_eq (s := s.nextId) hidle
    (regular_next h s.messageId block) complete
  refine ⟨q, hq, ?_⟩
  rw [State.continueBlock]
  dsimp only
  rw [setOption_block2
    (show { item.package with messageId := s.messageId }.options = _ from h.options),
    ok_bind]
  refine hsend.trans ?_
  rw [State.continued, Item.serial_counted]
  rfl

theorem State.resolveAck_effect (hs : s.Sound)
    (hrecv : coapCreateRecv addr (d ++ after) d.length = .ok (some p))
    (htype : p.getType = CoapType.acknowledgement.value)
    (h : s.resolveAck p complete = .ok t) : s.DatagramEffect addr d after t := by
  unfold State.resolveAck at h
  cases hfound : getByMsgId s.coaps p.getMessageID with
  | none =>
    rw [hfound] at h
    obtain rfl := Except.ok.inj h
    exact .none
  | some item =>
    rw [hfound] at h
    have hack : s.Acknowledges addr d after p item := ⟨hrecv, htype, hfound⟩
    obtain ⟨found, hblock, h⟩ := bind_eq_ok.mp h
    cases found with
    | none =>
      obtain rfl := State.eq_deleted hfound h
      exact .deleted hack
    | some block =>
      dsimp only at h
      split_ifs at h with hmore
      · obtain ⟨first, uri, hreg⟩ := hs.regular item (mem_of_getByMsgId hfound).1
        obtain ⟨q, hq, hcont⟩ := State.continueBlock_eq hs.idle hreg block complete
        rw [hcont] at h
        obtain rfl := Except.ok.inj h
        exact .continued ⟨p, hack, hblock, hmore⟩ hreg hq
      · obtain rfl := State.eq_deleted hfound h
        exact .deleted hack

theorem State.readCb_of_received (hd : d ≠ [])
    (hrecv : coapCreateRecv addr (d ++ after) d.length = .ok (some p)) :
    s.readCb addr d after complete = s.resolve p complete := by
  rw [State.readCb, if_pos (List.length_pos_iff.mpr hd), hrecv]
  rfl

theorem State.readCb_effect (hs : s.Sound) (h : s.readCb addr d after complete = .ok t) :
    s.DatagramEffect addr d after t := by
  unfold State.readCb at h
  split_ifs at h with hlen
  · obtain ⟨received, hrecv, h⟩ := bind_eq_ok.mp h
    cases received with
    | none =>
      obtain rfl := Except.ok.inj h
      exact .none
    | some p =>
      obtain ⟨token, htoken, h⟩ := bind_eq_ok.mp h
      obtain ⟨path, -, h⟩ := bind_eq_ok.mp h
      split_ifs at h with hcon hnon hack
      · have h8 : token.length ≤ 8 := by
          have := getTokenLength_le (List.length_pos_iff.mp hlen) hrecv
          unfold copyToken at htoken
          split_ifs at htoken
          rw [← Except.ok.inj htoken, getToken, List.length_take]
          omega
        obtain ⟨q, hbuild, hq⟩ := buildAck_idle hs.idle p.getCode p.getMessageID h8
        rw [sendAck, hbuild] at h
        obtain rfl := Except.ok.inj h
        exact .acked hq
      · obtain rfl := Except.ok.inj h
        exact .none
      · exact State.resolveAck_effect hs hrecv hack h
      · obtain rfl := Except.ok.inj h
        exact .none
  · obtain rfl := Except.ok.inj h
    exact .none

theorem State.Continues.readCb {block : RecvBlock} (hs : s.Sound) (hd : d ≠ [])
    (hcont : s.Continues addr d after item block) (h : s.readCb addr d after complete = .ok t) :
    ∃ first uri q, item.package.Regular first uri ∧ q.Idle ∧
      t = s.continued ((item.next s.messageId block uri).counted complete) q := by
  obtain ⟨p, ⟨hrecv, htype, hfound⟩, hblock, hmore⟩ := hcont
  obtain ⟨first, uri, hreg⟩ := hs.regular item (mem_of_getByMsgId hfound).1
  obtain ⟨q, hq, hnext⟩ := State.continueBlock_eq hs.idle hreg block complete
  refine ⟨first, uri, q, hreg, hq, ?_⟩
  rw [State.readCb_of_received hd hrecv] at h
  obtain ⟨token, -, h⟩ := bind_eq_ok.mp h
  obtain ⟨path, -, h⟩ := bind_eq_ok.mp h
  rw [if_neg (by rw [htype]; decide), if_neg (by rw [htype]; decide), if_pos htype,
    State.resolveAck, hfound] at h
  dsimp only at h
  rw [hblock, ok_bind] at h
  dsimp only at h
  rw [if_pos hmore, hnext] at h
  exact (Except.ok.inj h).symm

end Datagram

section Sound

variable {s t : State}

theorem State.sound_start {keepsFreed : Bool} {addr : ℕ} {heap : ℕ → Option Block}
    (h : ∀ i, (heap i).isSome) : (State.start keepsFreed addr heap).Sound where
  idle := h
  serials := List.nodup_nil
  allocated := by simp [State.start]
  regular := by simp [State.start]

theorem State.Sound.added (hs : s.Sound) {item : Item} (hserial : item.serial = s.serials)
    (hreg : ∃ block uri, item.package.Regular block uri) : (s.added item).Sound where
  idle := hs.idle
  serials := by
    rw [State.added, List.map_append, List.map_singleton, List.nodup_append]
    refine ⟨hs.serials, List.nodup_singleton _, fun a ha b hb => ?_⟩
    obtain ⟨other, ho, rfl⟩ := List.mem_map.mp ha
    have := hs.allocated other ho
    rw [List.mem_singleton.mp hb]
    omega
  allocated := by
    intro other ho
    obtain ho | ho := List.mem_append.mp ho
    · exact (hs.allocated other ho).trans (Nat.lt_succ_self _)
    · rw [List.mem_singleton.mp ho, hserial]
      exact Nat.lt_succ_self _
  regular := by
    intro other ho
    obtain ho | ho := List.mem_append.mp ho
    · exact hs.regular other ho
    · rwa [List.mem_singleton.mp ho]

theorem State.LineEffect.sound (hs : s.Sound) {text : List UInt8} (h : s.LineEffect text t) :
    t.Sound := by
  cases h with
  | none => exact hs
  | refused => exact hs.added rfl ⟨Option.none, Option.none, regular_listItemInit s.messageId⟩
  | requested _ _ hserial _ _ hreg hq =>
    have hadded := hs.added hserial ⟨_, _, hreg⟩
    exact ⟨hq, hadded.serials, hadded.allocated, hadded.regular⟩

theorem State.DatagramEffect.sound (hs : s.Sound) {addr : ℕ} {d after : List UInt8}
    (h : s.DatagramEffect addr d after t) : t.Sound := by
  cases h with
  | none => exact hs
  | acked hq => exact ⟨hq, hs.serials, hs.allocated, hs.regular⟩
  | @continued item block first uri complete q hcont hreg hq =>
    obtain ⟨p, hack, -⟩ := hcont
    have hmem := (mem_of_getByMsgId hack.found).1
    refine ⟨hq, ?_, ?_, ?_⟩
    · rw [State.continued, map_serial_store]
      exact hs.serials
    · intro other ho
      obtain rfl | ho := mem_store ho
      · rw [Item.serial_counted]
        exact hs.allocated item hmem
      · exact hs.allocated other ho
    · intro other ho
      obtain rfl | ho := mem_store ho
      · exact ⟨_, uri, Item.regular_counted (regular_next hreg _ block) complete⟩
      · exact hs.regular other ho
  | @deleted p item hack =>
    have hsub : (s.deleted p.getMessageID).coaps.Sublist s.coaps := List.eraseP_sublist
    refine ⟨hs.idle, ?_, fun other ho => ?_, fun other ho => ?_⟩
    · exact hs.serials.sublist (hsub.map Item.serial)
    · exact hs.allocated other (hsub.subset ho)
    · exact hs.regular other (hsub.subset ho)

theorem State.sound_of_reachable (h : State.system.Reachable s) : s.Sound := by
  refine h.invariant ?_ ?_
  · rintro s ⟨keepsFreed, addr, heap, hheap, rfl⟩
    exact State.sound_start hheap
  · intro s e t hs hstep
    cases e with
    | line text complete => exact (State.commandLine_effect hs hstep).sound hs
    | datagram addr d after complete => exact (State.readCb_effect hs hstep).sound hs

end Sound

/-- The client before its first event, with memory that holds zeros and keeps them. -/
def sampleStart : State := State.start true 0 fun _ => some ⟨0, fun _ => 0⟩

theorem init_sampleStart : State.system.init sampleStart := ⟨true, 0, _, fun _ => rfl, rfl⟩

theorem reachable_sampleStart : State.system.Reachable sampleStart := .init init_sampleStart

def sampleLine : List UInt8 := [0x47, 0x45, 0x54, 0x20, 0x61]

theorem words_sampleLine : words sampleLine = some [[0x47, 0x45, 0x54], [0x61]] := by decide

end Mbtk.Client
