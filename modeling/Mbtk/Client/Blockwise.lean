import Mbtk.Client.Distinct
import Mbtk.Client.SentOptions

namespace Mbtk.Client

open Lib Coap CoapPDU

/-- The datagrams for a package, from the oldest on. -/
def datagramsFor (sent : List Sent) (serial : ℕ) : List (List UInt8) :=
  (sent.filter (·.origin = some serial)).map (·.datagram)

/-- A request asks for a block: block 0 if it has no Block2 option. -/
def AsksBlock (d : List UInt8) (n : ℕ) : Prop :=
  ∃ opts pay, Message d opts pay ∧
    (opts.filter (·.number = COAP_OPTION_BLOCK2) = [] ∧ n = 0 ∨
      ∃ value, opts.filter (·.number = COAP_OPTION_BLOCK2) = [⟨COAP_OPTION_BLOCK2, value⟩] ∧
        n = blockNumber value)

/-- A line can come at any time.  A datagram is an ACK for some earlier request, with the block
that this request asked for. -/
def State.Answers (s : State) : Event → Prop
  | .line .. => True
  | .datagram _ d _ _ => ∃ sent ∈ s.sent, ∃ value, BlockAck d (messageIdOf sent.datagram) value ∧
      1 ≤ value.length ∧ value.length ≤ 3 ∧ AsksBlock sent.datagram (blockNumber value) ∧
      (blockMore value → blockNumber value + 1 < 2 ^ 20)

/-- The client gets an ACK for an ID, with the bytes `value` in its Block2 option. -/
def Event.Acks (messageId : UInt16) (value : List UInt8) : Event → Prop
  | .line .. => False
  | .datagram _ d _ _ => BlockAck d messageId value

/-- A datagram asks for the block behind that of `value`, and is the request `first` apart from
its Block2 option. -/
structure FollowsUp (first follow value : List UInt8) : Prop where
  type : typeOf follow = typeOf first
  code : codeOf follow = codeOf first
  token : tokenOf follow = tokenOf first
  message : ∃ opts opts' pay asked, Message first opts pay ∧ Message follow opts' pay ∧
    opts.filter (·.number = COAP_OPTION_BLOCK2) = [] ∧
    opts'.filter (·.number = COAP_OPTION_BLOCK2) = [⟨COAP_OPTION_BLOCK2, asked⟩] ∧
    opts'.filter (·.number ≠ COAP_OPTION_BLOCK2) = opts ∧
    blockNumber asked = blockNumber value + 1 ∧ ¬ blockMore asked ∧
    blockSize asked = blockSize value

/-- The arrays have room for a line, and the package that an ACK without more blocks to come takes
from the list has no options, or their links outlast them. -/
def State.Works (s : State) : Event → Prop
  | .line text _ => s.HasRoom text
  | .datagram _ d _ _ => s.keepsFreed = true ∨ ∀ item ∈ s.coaps, ∀ value,
      BlockAck d item.package.messageId value → ¬ blockMore value → item.package.options = []

/-- What a step does to the transfers. -/
structure State.Transfers (s : State) (e : Event) (t : State) : Prop where
  sent : ∃ new, t.sent = s.sent ++ new ∧ new.length ≤ 1 ∧ ∀ sent ∈ new,
    (∀ old ∈ s.sent, messageIdOf old.datagram ≠ messageIdOf sent.datagram) ∧
    (∀ item ∈ s.coaps, item.package.messageId ≠ messageIdOf sent.datagram) ∧
    ∃ serial, sent.origin = some serial ∧ (datagramsFor s.sent serial = [] ∨
      ∃ first ∈ (datagramsFor s.sent serial).head?, ∃ messageId value, e.Acks messageId value ∧
        blockMore value ∧ FollowsUp first sent.datagram value)
  continues : ∀ item ∈ s.coaps, ∀ value, e.Acks item.package.messageId value → blockMore value →
    ∃ follow, datagramsFor t.sent item.serial = datagramsFor s.sent item.serial ++ [follow]
  leaves : ∀ item ∈ s.coaps, (∀ other ∈ t.coaps, other.serial ≠ item.serial) ↔
    ∃ value, e.Acks item.package.messageId value ∧ ¬ blockMore value
  others : ∀ item ∈ s.coaps, (∀ value, ¬ e.Acks item.package.messageId value) →
    item ∈ t.coaps ∧ datagramsFor t.sent item.serial = datagramsFor s.sent item.serial

section Messages

variable {d value value' : List UInt8} {messageId messageId' : UInt16} {coap : Package}
  {block : Option OptionBlock} {uri : Option (Bytes 128)}

theorem Message.unique {opts opts' : List Opt} {pay pay' : List UInt8} (h : Message d opts pay)
    (h' : Message d opts' pay') : opts = opts' ∧ pay = pay' := h.options.unique h'.options

theorem AsksBlock.unique {m n : ℕ} (hm : AsksBlock d m) (hn : AsksBlock d n) : m = n := by
  obtain ⟨opts, pay, hmsg, hm⟩ := hm
  obtain ⟨opts', pay', hmsg', hn⟩ := hn
  obtain ⟨rfl, rfl⟩ := Message.unique hmsg hmsg'
  obtain ⟨hnone, rfl⟩ | ⟨v, hv, rfl⟩ := hm <;> obtain ⟨hnone', rfl⟩ | ⟨v', hv', rfl⟩ := hn
  · rfl
  · simp [hnone] at hv'
  · simp [hnone'] at hv
  · obtain rfl : v = v' := by simpa [hv] using hv'
    rfl

theorem BlockAck.unique (h : BlockAck d messageId value) (h' : BlockAck d messageId' value') :
    messageId = messageId' ∧ value = value' := by
  obtain ⟨opts, pay, hmsg, hblock, -⟩ := h.message
  obtain ⟨opts', pay', hmsg', hblock', -⟩ := h'.message
  obtain ⟨rfl, rfl⟩ := Message.unique hmsg hmsg'
  exact ⟨h.messageId.symm.trans h'.messageId, by simpa [hblock] using hblock'⟩

theorem Package.Regular.asksBlock_zero (h : coap.Regular none uri) : AsksBlock coap.message 0 := by
  refine ⟨_, _, h.message_parts.1, .inl ⟨?_, rfl⟩⟩
  rw [h.sentOptions_none]
  exact (filter_requestPairs uri).1

theorem Package.Regular.asksBlock {b : OptionBlock} (h : coap.Regular (some b) uri)
    (hmore : b.moreFlag = 0) (hnum : b.number.toNat < 2 ^ 20) :
    AsksBlock coap.message b.number.toNat :=
  ⟨_, _, h.message_parts.1,
    .inr ⟨_, h.filter_sentOptions.1, (blockFields_blockValue hmore hnum).1.symm⟩⟩

end Messages

section History

variable {sent : List Sent} {serial : ℕ} {d : List UInt8}

@[simp] theorem datagramsFor_nil (serial : ℕ) : datagramsFor [] serial = [] := rfl

theorem datagramsFor_snoc_self (sent : List Sent) (serial : ℕ) (d : List UInt8) :
    datagramsFor (sent ++ [⟨some serial, d⟩]) serial = datagramsFor sent serial ++ [d] := by
  simp [datagramsFor]

theorem datagramsFor_snoc_of_ne {serial' : ℕ} (h : serial' ≠ serial) :
    datagramsFor (sent ++ [⟨some serial', d⟩]) serial = datagramsFor sent serial := by
  simp [datagramsFor, h]

theorem datagramsFor_eq_nil (h : ∀ x ∈ sent, ∀ i, x.origin = some i → i < serial) :
    datagramsFor sent serial = [] := by
  rw [datagramsFor, List.filter_eq_nil_iff.mpr, List.map_nil]
  intro x hx horigin
  exact absurd (h x hx serial (of_decide_eq_true horigin)) (lt_irrefl _)

theorem mem_store_iff {coaps : List Item} {item other : Item} (h : other ∈ store coaps item) :
    other = item ∨ other ∈ coaps ∧ other.serial ≠ item.serial := by
  obtain ⟨i, hi, rfl⟩ := List.mem_map.mp h
  split_ifs with hserial
  · exact .inl rfl
  · exact .inr ⟨hi, hserial⟩

theorem mem_store_of_ne {coaps : List Item} {item other : Item} (h : other ∈ coaps)
    (hne : other.serial ≠ item.serial) : other ∈ store coaps item :=
  List.mem_map.mpr ⟨other, h, by rw [if_neg hne]⟩

end History

/-- The datagrams `sent` for a package begin with a request for the code, the URI and the
payload. -/
def StartsWith (sent : List (List UInt8)) (code : UInt8) (uri : Option (Bytes 128))
    (playload : List UInt8) : Prop :=
  ∀ first ∈ sent.head?, typeOf first = CoapType.confirmable.value ∧ codeOf first = code ∧
    tokenOf first = [] ∧ Message first (requestPairs uri) playload

/-- What holds between the packages, the counter and the datagrams sent, as long as no ID was
taken twice. -/
structure State.InOrder (s : State) : Prop where
  counter : s.messageId = UInt16.ofNat (s.ids + 1)
  sentIds : ∀ sent ∈ s.sent, ∃ k < s.ids, messageIdOf sent.datagram = UInt16.ofNat (k + 1)
  pendingIds : ∀ item ∈ s.coaps, ∃ k < s.ids, item.package.messageId = UInt16.ofNat (k + 1)
  nodup : (s.sent.map fun sent => messageIdOf sent.datagram).Nodup
  distinct : s.DistinctIds
  origins : ∀ sent ∈ s.sent, ∃ serial < s.serials, sent.origin = some serial
  asks : ∀ serial k d, (datagramsFor s.sent serial)[k]? = some d → AsksBlock d k
  last : ∀ item ∈ s.coaps, ∀ sent ∈ s.sent, messageIdOf sent.datagram = item.package.messageId →
    ∃ before, datagramsFor s.sent item.serial = before ++ [sent.datagram]
  originals : ∀ item ∈ s.coaps, ∃ block uri, item.package.Regular block uri ∧
    StartsWith (datagramsFor s.sent item.serial) item.package.code uri item.package.playload

section InOrder

variable {s : State} {item : Item} {block : Option OptionBlock} {uri : Option (Bytes 128)}

theorem State.InOrder.fresh (h : s.InOrder) (hids : s.ids < 65535) {k : ℕ} (hk : k < s.ids) :
    UInt16.ofNat (k + 1) ≠ s.messageId := by
  rw [h.counter, ne_eq, ← UInt16.toNat_inj, UInt16.toNat_ofNat', UInt16.toNat_ofNat']
  omega

theorem State.InOrder.sent_ne (h : s.InOrder) (hids : s.ids < 65535) {sent : Sent}
    (hsent : sent ∈ s.sent) : messageIdOf sent.datagram ≠ s.messageId := by
  obtain ⟨k, hk, hid⟩ := h.sentIds sent hsent
  rw [hid]
  exact h.fresh hids hk

theorem State.InOrder.pending_ne (h : s.InOrder) (hids : s.ids < 65535) (hi : item ∈ s.coaps) :
    item.package.messageId ≠ s.messageId := by
  obtain ⟨k, hk, hid⟩ := h.pendingIds item hi
  rw [hid]
  exact h.fresh hids hk

theorem State.InOrder.datagramsFor_serials (h : s.InOrder) :
    datagramsFor s.sent s.serials = [] := by
  refine datagramsFor_eq_nil fun sent hsent i horigin => ?_
  obtain ⟨serial, hlt, horigin'⟩ := h.origins sent hsent
  obtain rfl : serial = i := by simpa [horigin'] using horigin
  exact hlt

theorem State.inOrder_start {keepsFreed : Bool} {addr : ℕ} {heap : ℕ → Option Block} :
    (State.start keepsFreed addr heap).InOrder where
  counter := rfl
  sentIds := by simp [State.start]
  pendingIds := by simp [State.start]
  nodup := List.nodup_nil
  distinct := List.nodup_nil
  origins := by simp [State.start]
  asks := by simp [State.start]
  last := by simp [State.start]
  originals := by simp [State.start]

theorem exists_lt_succ {n : ℕ} {id : UInt16} (h : ∃ k < n, id = UInt16.ofNat (k + 1)) :
    ∃ k < n + 1, id = UInt16.ofNat (k + 1) := by
  obtain ⟨k, hk, hid⟩ := h
  exact ⟨k, Nat.lt_succ_of_lt hk, hid⟩

theorem State.InOrder.counter_succ (h : s.InOrder) :
    s.messageId + 1 = UInt16.ofNat (s.ids + 1 + 1) := by
  rw [h.counter, ← UInt16.toNat_inj, UInt16.toNat_add, UInt16.toNat_ofNat', UInt16.toNat_ofNat']
  change (_ + 1) % _ = _
  omega

theorem State.InOrder.added (h : s.InOrder) (hids : s.ids < 65535)
    (hserial : item.serial = s.serials) (hid : item.package.messageId = s.messageId)
    (hreg : item.package.Regular block uri) : (s.added item).InOrder where
  counter := h.counter_succ
  sentIds sent hsent := exists_lt_succ (h.sentIds sent hsent)
  pendingIds other ho := by
    obtain ho | ho := List.mem_append.mp ho
    · exact exists_lt_succ (h.pendingIds other ho)
    · obtain rfl := List.mem_singleton.mp ho
      exact ⟨s.ids, Nat.lt_succ_self _, hid.trans h.counter⟩
  nodup := h.nodup
  distinct := h.distinct.added (fun other ho => h.pending_ne hids ho) hid
  origins sent hsent := by
    obtain ⟨serial, hlt, horigin⟩ := h.origins sent hsent
    exact ⟨serial, Nat.lt_succ_of_lt hlt, horigin⟩
  asks := h.asks
  last other ho sent hsent heq := by
    obtain ho | ho := List.mem_append.mp ho
    · exact h.last other ho sent hsent heq
    · obtain rfl := List.mem_singleton.mp ho
      exact absurd (heq.trans hid) (h.sent_ne hids hsent)
  originals other ho := by
    obtain ho | ho := List.mem_append.mp ho
    · exact h.originals other ho
    · obtain rfl := List.mem_singleton.mp ho
      refine ⟨block, uri, hreg, fun first hfirst => ?_⟩
      change first ∈ (datagramsFor s.sent other.serial).head? at hfirst
      rw [hserial, h.datagramsFor_serials] at hfirst
      simp at hfirst

theorem asks_snoc {sent : List Sent} {serial : ℕ} {d : List UInt8}
    (h : ∀ i k d, (datagramsFor sent i)[k]? = some d → AsksBlock d k)
    (hd : AsksBlock d (datagramsFor sent serial).length) (i k : ℕ) (d' : List UInt8)
    (hk : (datagramsFor (sent ++ [⟨some serial, d⟩]) i)[k]? = some d') : AsksBlock d' k := by
  by_cases hi : serial = i
  · subst hi
    rw [datagramsFor_snoc_self] at hk
    by_cases hlt : k < (datagramsFor sent serial).length
    · rw [List.getElem?_append_left hlt] at hk
      exact h serial k d' hk
    · rw [List.getElem?_append_right (by omega)] at hk
      obtain ⟨hzero, rfl⟩ : k - (datagramsFor sent serial).length = 0 ∧ d = d' := by
        simpa [List.getElem?_singleton] using hk
      obtain rfl : k = (datagramsFor sent serial).length := by omega
      exact hd
  · rw [datagramsFor_snoc_of_ne hi] at hk
    exact h i k d' hk

theorem State.InOrder.sends {m : List UInt8} (h : s.InOrder) (pdu : SharedPDU)
    (uri : Option (Bytes 128))
    (hserials : (s.coaps.map Item.serial).Nodup) (hlt : item.serial < s.serials)
    (hmem : item ∈ s.coaps) (hid : messageIdOf m = item.package.messageId)
    (hfresh : ∀ sent ∈ s.sent, messageIdOf sent.datagram ≠ item.package.messageId)
    (hasks : AsksBlock m (datagramsFor s.sent item.serial).length)
    (hfirst : datagramsFor s.sent item.serial = [] → item.package.Regular none uri ∧
      typeOf m = CoapType.confirmable.value ∧ codeOf m = item.package.code ∧
      tokenOf m = [] ∧ Message m (requestPairs uri) item.package.playload) :
    State.InOrder { s with pdu, sent := s.sent ++ [⟨some item.serial, m⟩] } where
  counter := h.counter
  sentIds sent hsent := by
    obtain hsent | hsent := List.mem_append.mp hsent
    · exact h.sentIds sent hsent
    · obtain rfl := List.mem_singleton.mp hsent
      obtain ⟨k, hk, heq⟩ := h.pendingIds item hmem
      exact ⟨k, hk, hid.trans heq⟩
  pendingIds := h.pendingIds
  nodup := by
    rw [List.map_append, List.map_singleton, List.nodup_append]
    refine ⟨h.nodup, List.nodup_singleton _, fun a ha b hb => ?_⟩
    obtain ⟨sent, hsent, rfl⟩ := List.mem_map.mp ha
    rw [List.mem_singleton.mp hb, hid]
    exact hfresh sent hsent
  distinct := h.distinct
  origins sent hsent := by
    obtain hsent | hsent := List.mem_append.mp hsent
    · exact h.origins sent hsent
    · obtain rfl := List.mem_singleton.mp hsent
      exact ⟨item.serial, hlt, rfl⟩
  asks := asks_snoc h.asks hasks
  last other ho sent hsent heq := by
    obtain hsent | hsent := List.mem_append.mp hsent
    · have hne : item.serial ≠ other.serial := by
        intro hserial
        obtain rfl := List.inj_on_of_nodup_map hserials hmem ho hserial
        exact hfresh sent hsent heq
      obtain ⟨before, hbefore⟩ := h.last other ho sent hsent heq
      exact ⟨before, by rw [datagramsFor_snoc_of_ne hne, hbefore]⟩
    · obtain rfl := List.mem_singleton.mp hsent
      have hother : item.package.messageId = other.package.messageId := hid.symm.trans heq
      obtain rfl := List.inj_on_of_nodup_map h.distinct hmem ho hother
      exact ⟨_, datagramsFor_snoc_self _ _ _⟩
  originals other ho := by
    by_cases hserial : item.serial = other.serial
    · obtain rfl := List.inj_on_of_nodup_map hserials hmem ho hserial
      rw [datagramsFor_snoc_self]
      by_cases hnil : datagramsFor s.sent item.serial = []
      · obtain ⟨hreg, hparts⟩ := hfirst hnil
        refine ⟨none, uri, hreg, fun first hf => ?_⟩
        obtain rfl : m = first := by simpa [hnil] using hf
        exact hparts
      · obtain ⟨block, uri', hreg, hstarts⟩ := h.originals item ho
        refine ⟨block, uri', hreg, fun first hf => hstarts first ?_⟩
        rwa [List.head?_append_of_ne_nil _ hnil] at hf
    · rw [datagramsFor_snoc_of_ne hserial]
      exact h.originals other ho

end InOrder

/-- The package `new` is `item` under the next ID, asking for the block behind that of
`value`. -/
structure State.Renews (s : State) (item new : Item) (value : List UInt8) : Prop where
  mem : item ∈ s.coaps
  serial : new.serial = item.serial
  messageId : new.package.messageId = s.messageId
  code : new.package.code = item.package.code
  playload : new.package.playload = item.package.playload
  block : ∃ block uri, new.package.Regular (some block) uri ∧
    block.number.toNat = blockNumber value + 1 ∧ block.moreFlag = 0 ∧
    block.size.toNat = blockSize value ∧
    StartsWith (datagramsFor s.sent item.serial) item.package.code uri item.package.playload

inductive State.AckEffect (s : State) (messageId : UInt16) (value : List UInt8) : State → Prop
  | unmatched : (∀ item ∈ s.coaps, item.package.messageId ≠ messageId) →
      AckEffect s messageId value s
  | deleted {item : Item} : item ∈ s.coaps → item.package.messageId = messageId →
      ¬ blockMore value → AckEffect s messageId value (s.deleted messageId)
  | continued {item new : Item} {q : CoapPDU} : item.package.messageId = messageId →
      blockMore value → s.Renews item new value →
      AckEffect s messageId value (s.continued new q)

section Steps

variable {s t : State} {item new : Item} {value : List UInt8} {messageId : UInt16}

theorem recvBlock_reads (h1 : 1 ≤ value.length) (h3 : value.length ≤ 3) :
    ∃ block, recvBlock value = some block ∧ block.Reads value := by
  have hne : value ≠ [] := List.length_pos_iff.mp h1
  rw [recvBlock, if_neg hne]
  exact decodeBlock2_reads h1 h3

theorem State.ackEffect (hs : s.Sound) (h : s.InOrder) {addr : ℕ} {d after : List UInt8}
    {complete : Bool} (hack : BlockAck d messageId value) (h1 : 1 ≤ value.length)
    (h3 : value.length ≤ 3) (hnum : blockMore value → blockNumber value + 1 < 2 ^ 20)
    (hstep : s.readCb addr d after complete = .ok t) : s.AckEffect messageId value t := by
  rw [State.readCb_blockAck s hack h3] at hstep
  cases hfound : getByMsgId s.coaps messageId with
  | none =>
    rw [hfound] at hstep
    obtain rfl := Except.ok.inj hstep
    exact .unmatched fun item hi => by simpa using List.find?_eq_none.mp hfound item hi
  | some item =>
    obtain ⟨hmem, hid⟩ := mem_of_getByMsgId hfound
    obtain ⟨block, hblock, hreads⟩ := recvBlock_reads h1 h3
    rw [hfound, hblock] at hstep
    dsimp only at hstep
    split_ifs at hstep with hmore
    · have hmore := hreads.more.mp hmore
      have hlt := hnum hmore
      obtain ⟨first, uri, hreg, hstarts⟩ := h.originals item hmem
      obtain ⟨q, -, hcont⟩ := State.continueBlock_eq hs.idle hreg block complete
      rw [hcont] at hstep
      obtain rfl := Except.ok.inj hstep
      refine .continued hid hmore ⟨hmem, Item.serial_counted _ complete,
        Item.messageId_counted _ complete, Item.code_counted _ complete,
        Item.playload_counted _ complete, ?_⟩
      refine ⟨_, uri, Item.regular_counted (regular_next hreg s.messageId block) complete, ?_, rfl,
        ?_, hstarts⟩
      · rw [UInt32.toNat_add, hreads.number]
        exact Nat.mod_eq_of_lt (by change _ + 1 < _; omega)
      · rw [UInt8.toNat_toUInt32, hreads.size]
    · obtain rfl := State.eq_deleted hfound hstep
      exact .deleted hmem hid fun hm => hmore (hreads.more.mpr hm)

theorem State.InOrder.renewed (h : s.InOrder) (hs : s.Sound) (hids : s.ids < 65535)
    (hnew : s.Renews item new value) (q : CoapPDU) :
    State.InOrder { s.nextId with coaps := store s.coaps new } where
  counter := h.counter_succ
  sentIds sent hsent := exists_lt_succ (h.sentIds sent hsent)
  pendingIds other ho := by
    obtain rfl | ⟨ho, -⟩ := mem_store_iff ho
    · exact ⟨s.ids, Nat.lt_succ_self _, hnew.messageId.trans h.counter⟩
    · exact exists_lt_succ (h.pendingIds other ho)
  nodup := h.nodup
  distinct := (State.distinctIds_continued_iff hs h.distinct hnew.mem hnew.serial.symm
    hnew.messageId q).mpr fun other ho _ => h.pending_ne hids ho
  origins := h.origins
  asks := h.asks
  last other ho sent hsent heq := by
    obtain rfl | ⟨ho, -⟩ := mem_store_iff ho
    · exact absurd (heq.trans hnew.messageId) (h.sent_ne hids hsent)
    · exact h.last other ho sent hsent heq
  originals other ho := by
    obtain rfl | ⟨ho, -⟩ := mem_store_iff ho
    · obtain ⟨block, uri, hreg, -, -, -, hstarts⟩ := hnew.block
      refine ⟨some block, uri, hreg, ?_⟩
      change StartsWith (datagramsFor s.sent other.serial) other.package.code uri
        other.package.playload
      rw [hnew.serial, hnew.code, hnew.playload]
      exact hstarts
    · exact h.originals other ho

theorem State.InOrder.continued (h : s.InOrder) (hs : s.Sound) (hids : s.ids < 65535)
    (hnew : s.Renews item new value) (hnum : blockNumber value + 1 < 2 ^ 20)
    (hlen : (datagramsFor s.sent item.serial).length = blockNumber value + 1) (q : CoapPDU) :
    (s.continued new q).InOrder := by
  obtain ⟨block, uri, hreg, hnumber, hmore, -, -⟩ := hnew.block
  refine (h.renewed hs hids hnew q).sends (.created q) uri ?_ ?_ ?_
    (messageIdOf_message new.package) ?_ ?_ ?_
  · rw [map_serial_store]
    exact hs.serials
  · rw [hnew.serial]
    exact hs.allocated item hnew.mem
  · exact List.mem_map.mpr ⟨item, hnew.mem, if_pos hnew.serial.symm⟩
  · intro sent hsent
    rw [hnew.messageId]
    exact h.sent_ne hids hsent
  · change AsksBlock _ (datagramsFor s.sent new.serial).length
    rw [hnew.serial, hlen, ← hnumber]
    exact hreg.asksBlock hmore (by omega)
  · intro hnil
    change datagramsFor s.sent new.serial = [] at hnil
    rw [hnew.serial] at hnil
    rw [hnil] at hlen
    simp at hlen

theorem State.InOrder.deleted (h : s.InOrder) (messageId : UInt16) :
    (s.deleted messageId).InOrder := by
  have hsub : (s.deleted messageId).coaps.Sublist s.coaps := List.eraseP_sublist
  exact ⟨h.counter, h.sentIds, fun item hi => h.pendingIds item (hsub.subset hi), h.nodup,
    h.distinct.sublist (hsub.map _), h.origins, h.asks,
    fun item hi => h.last item (hsub.subset hi), fun item hi => h.originals item (hsub.subset hi)⟩

theorem State.InOrder.requested (h : s.InOrder) (hs : s.Sound) (hids : s.ids < 65535)
    {uri : Option (Bytes 128)} (hserial : item.serial = s.serials)
    (hid : item.package.messageId = s.messageId) (hreg : item.package.Regular none uri)
    (q : CoapPDU) : (s.requested item q).InOrder := by
  have hnil : datagramsFor s.sent item.serial = [] := by rw [hserial, h.datagramsFor_serials]
  obtain ⟨hm, htype, hcode, htoken⟩ := hreg.message_parts
  rw [hreg.sentOptions_none] at hm
  refine (h.added hids hserial hid hreg).sends (.created q) uri ?_ ?_ ?_
    (messageIdOf_message item.package) ?_ ?_ fun _ => ⟨hreg, htype, hcode, htoken, hm⟩
  · exact (hs.added hserial ⟨_, _, hreg⟩).serials
  · rw [hserial]
    exact Nat.lt_succ_self _
  · exact List.mem_append_right _ (List.mem_singleton_self _)
  · intro sent hsent
    rw [hid]
    exact h.sent_ne hids hsent
  · change AsksBlock _ (datagramsFor s.sent item.serial).length
    rw [hnil]
    exact hreg.asksBlock_zero

theorem State.InOrder.length_datagramsFor (h : s.InOrder) (hmem : item ∈ s.coaps) {sent : Sent}
    (hsent : sent ∈ s.sent) (hid : messageIdOf sent.datagram = item.package.messageId) {n : ℕ}
    (hasks : AsksBlock sent.datagram n) : (datagramsFor s.sent item.serial).length = n + 1 := by
  obtain ⟨before, hbefore⟩ := h.last item hmem sent hsent hid
  have hn := h.asks item.serial before.length sent.datagram (by simp [hbefore])
  rw [hbefore, List.length_append, List.length_singleton, hn.unique hasks]

end Steps

section Line

variable {s t : State} {text : List UInt8} {complete : Bool}

theorem State.LineEffect.inOrder (h : s.InOrder) (hs : s.Sound) (heffect : s.LineEffect text t)
    (hids : t.ids < 65536) : t.InOrder := by
  cases heffect with
  | none => exact h
  | refused =>
    exact h.added (Nat.lt_of_succ_lt_succ hids) rfl rfl (regular_listItemInit s.messageId)
  | requested _ _ hserial hid _ hreg =>
    exact h.requested hs (Nat.lt_of_succ_lt_succ hids) hserial hid hreg _

theorem State.transfers_of_line (hcoaps : s.coaps ⊆ t.coaps)
    (hsent : ∀ item ∈ s.coaps,
      datagramsFor t.sent item.serial = datagramsFor s.sent item.serial)
    (hnew : ∃ new, t.sent = s.sent ++ new ∧ new.length ≤ 1 ∧ ∀ sent ∈ new,
      (∀ old ∈ s.sent, messageIdOf old.datagram ≠ messageIdOf sent.datagram) ∧
      (∀ item ∈ s.coaps, item.package.messageId ≠ messageIdOf sent.datagram) ∧
      ∃ serial, sent.origin = some serial ∧ datagramsFor s.sent serial = []) :
    s.Transfers (.line text complete) t where
  sent := by
    obtain ⟨new, heq, hlen, hall⟩ := hnew
    refine ⟨new, heq, hlen, fun sent hmem => ?_⟩
    obtain ⟨hold, hpending, serial, horigin, hnil⟩ := hall sent hmem
    exact ⟨hold, hpending, serial, horigin, .inl hnil⟩
  continues _ _ _ hack := hack.elim
  leaves item hi := iff_of_false (fun hno => hno item (hcoaps hi) rfl) fun ⟨_, hack, _⟩ => hack.elim
  others item hi _ := ⟨hcoaps hi, hsent item hi⟩

theorem State.LineEffect.transfers (h : s.InOrder) (hs : s.Sound) (heffect : s.LineEffect text t)
    (hids : t.ids < 65536) : s.Transfers (.line text complete) t := by
  cases heffect with
  | none =>
    exact State.transfers_of_line (List.Subset.refl _) (fun _ _ => rfl)
      ⟨[], by simp, by simp, by simp⟩
  | refused =>
    exact State.transfers_of_line (List.subset_append_left _ _) (fun _ _ => rfl)
      ⟨[], (List.append_nil _).symm, by simp, by simp⟩
  | @requested _ _ _ item _ _ _ hserial hid =>
    have hids := Nat.lt_of_succ_lt_succ hids
    refine State.transfers_of_line (List.subset_append_left _ _) (fun other ho => ?_)
      ⟨[⟨some item.serial, item.package.message⟩], rfl, by simp, fun sent hsent => ?_⟩
    · have := hs.allocated other ho
      exact datagramsFor_snoc_of_ne (by omega)
    · obtain rfl := List.mem_singleton.mp hsent
      rw [messageIdOf_message, hid]
      exact ⟨fun old ho => h.sent_ne hids ho, fun other ho => h.pending_ne hids ho,
        item.serial, rfl,
        by rw [hserial, h.datagramsFor_serials]⟩

end Line

section Ack

variable {s t : State} {item new : Item} {messageId : UInt16} {value : List UInt8} {addr : ℕ}
  {d after : List UInt8} {complete : Bool}

theorem acks_iff (hack : BlockAck d messageId value) (addr : ℕ) (after : List UInt8)
    (complete : Bool) (id : UInt16) (v : List UInt8) :
    (Event.datagram addr d after complete).Acks id v ↔ id = messageId ∧ v = value := by
  constructor
  · exact fun h => BlockAck.unique h hack
  · rintro ⟨rfl, rfl⟩
    exact hack

theorem State.AckEffect.inOrder (h : s.InOrder) (hs : s.Sound)
    (heffect : s.AckEffect messageId value t) (hids : t.ids < 65536)
    (hnum : blockMore value → blockNumber value + 1 < 2 ^ 20)
    (hlen : ∀ item ∈ s.coaps, item.package.messageId = messageId →
      (datagramsFor s.sent item.serial).length = blockNumber value + 1) : t.InOrder := by
  cases heffect with
  | unmatched => exact h
  | deleted => exact h.deleted messageId
  | continued hid hmore hnew =>
    exact h.continued hs (Nat.lt_of_succ_lt_succ hids) hnew (hnum hmore) (hlen _ hnew.mem hid) _

theorem State.Renews.followsUp (hnew : s.Renews item new value)
    (hnum : blockNumber value + 1 < 2 ^ 20) {first : List UInt8}
    (hfirst : first ∈ (datagramsFor s.sent item.serial).head?) :
    FollowsUp first new.package.message value := by
  obtain ⟨block, uri, hreg, hnumber, hmore, hsize, hstarts⟩ := hnew.block
  obtain ⟨htype, hcode, htoken, hmessage⟩ := hstarts first hfirst
  obtain ⟨hmessage', htype', hcode', htoken'⟩ := hreg.message_parts
  obtain ⟨hblock, hrest⟩ := hreg.filter_sentOptions
  obtain ⟨hasked, hnomore, hexp⟩ := blockFields_blockValue hmore (by omega)
  have hlt : blockSize value < 8 := Nat.mod_lt _ (by omega)
  refine ⟨htype'.trans htype.symm, hcode'.trans (hnew.code.trans hcode.symm),
    htoken'.trans htoken.symm, _, _, _, _, hmessage, ?_, (filter_requestPairs uri).1, hblock, hrest,
    hasked.trans hnumber, hnomore, by omega⟩
  rw [← hnew.playload]
  exact hmessage'

theorem State.InOrder.eq_of_acks {other : Item} {v : List UInt8} (h : s.InOrder)
    (hack : BlockAck d messageId value) (hmem : item ∈ s.coaps)
    (hid : item.package.messageId = messageId) (ho : other ∈ s.coaps)
    (ha : (Event.datagram addr d after complete).Acks other.package.messageId v) :
    item = other :=
  have hother := ((acks_iff hack addr after complete _ v).mp ha).1
  List.inj_on_of_nodup_map h.distinct hmem ho (hid.trans hother.symm)

theorem State.transfers_unmatched (hack : BlockAck d messageId value)
    (hno : ∀ item ∈ s.coaps, item.package.messageId ≠ messageId) :
    s.Transfers (.datagram addr d after complete) s :=
  have hnone (item : Item) (hi : item ∈ s.coaps) (v : List UInt8) :
      ¬ (Event.datagram addr d after complete).Acks item.package.messageId v :=
    fun ha => hno item hi ((acks_iff hack addr after complete _ v).mp ha).1
  { sent := ⟨[], by simp, by simp, by simp⟩
    continues := fun item hi v ha => absurd ha (hnone item hi v)
    leaves := fun item hi => by
      refine iff_of_false (fun hgone => hgone item hi rfl) ?_
      rintro ⟨v, ha, -⟩
      exact hnone item hi v ha
    others := fun _ hi _ => ⟨hi, rfl⟩ }

theorem State.transfers_deleted (h : s.InOrder) (hs : s.Sound)
    (hack : BlockAck d messageId value) (hmem : item ∈ s.coaps)
    (hid : item.package.messageId = messageId) (hmore : ¬ blockMore value) :
    s.Transfers (.datagram addr d after complete) (s.deleted messageId) := by
  have hacks := acks_iff hack addr after complete
  obtain ⟨A, B, hcoaps⟩ := List.append_of_mem hmem
  have hserials := hs.serials
  have hdistinct := h.distinct
  rw [State.DistinctIds, hcoaps] at hdistinct
  have hdel : (s.deleted messageId).coaps = A ++ B := by
    rw [State.deleted, ← hid]
    dsimp only
    rw [hcoaps, eraseP_split hdistinct]
  rw [hcoaps] at hserials
  have hother (other : Item) (ho : other ∈ s.coaps) : other = item ∨ other ∈ A ++ B := by
    rw [hcoaps] at ho
    simpa [or_left_comm, or_comm] using ho
  exact {
    sent := ⟨[], (List.append_nil _).symm, by simp, by simp⟩
    continues := fun other _ v ha hm => absurd (((hacks _ v).mp ha).2 ▸ hm) hmore
    leaves := fun other ho => by
      rw [hdel]
      constructor
      · intro hgone
        obtain rfl | ho := hother other ho
        · exact ⟨value, (hacks _ _).mpr ⟨hid, rfl⟩, hmore⟩
        · exact absurd rfl (hgone other ho)
      · rintro ⟨v, ha, -⟩ other' ho'
        obtain rfl := h.eq_of_acks hack hmem hid ho ha
        exact serial_ne_of_split hserials ho'
    others := fun other ho hno => by
      refine ⟨?_, rfl⟩
      rw [hdel]
      obtain rfl | ho := hother other ho
      · exact absurd ((hacks _ _).mpr ⟨hid, rfl⟩) (hno value)
      · exact ho }

theorem State.transfers_continued {q : CoapPDU} (h : s.InOrder) (hs : s.Sound)
    (hack : BlockAck d messageId value) (hid : item.package.messageId = messageId)
    (hmore : blockMore value) (hnew : s.Renews item new value) (hids : s.ids < 65535)
    (hnum : blockNumber value + 1 < 2 ^ 20)
    (hlen : (datagramsFor s.sent item.serial).length = blockNumber value + 1) :
    s.Transfers (.datagram addr d after complete) (s.continued new q) := by
  have hacks := acks_iff hack addr after complete
  exact {
    sent := by
      refine ⟨[⟨some new.serial, new.package.message⟩], rfl, by simp, fun sent hsent => ?_⟩
      obtain rfl := List.mem_singleton.mp hsent
      rw [messageIdOf_message, hnew.messageId]
      refine ⟨fun old ho => h.sent_ne hids ho, fun other ho => h.pending_ne hids ho, item.serial,
        congrArg some hnew.serial, .inr ?_⟩
      cases hall : datagramsFor s.sent item.serial with
      | nil => simp [hall] at hlen
      | cons first rest =>
        have hfirst : first ∈ (datagramsFor s.sent item.serial).head? := by simp [hall]
        exact ⟨first, rfl, messageId, value, (hacks _ _).mpr ⟨rfl, rfl⟩, hmore,
          hnew.followsUp hnum hfirst⟩
    continues := fun other ho v ha _ => by
      obtain rfl := h.eq_of_acks hack hnew.mem hid ho ha
      refine ⟨new.package.message, ?_⟩
      rw [State.continued, hnew.serial]
      exact datagramsFor_snoc_self _ _ _
    leaves := fun other ho => by
      refine iff_of_false (fun hgone => ?_) ?_
      · by_cases heq : other.serial = new.serial
        · exact hgone new (List.mem_map.mpr ⟨other, ho, if_pos heq⟩) heq.symm
        · exact hgone other (mem_store_of_ne ho heq) rfl
      · rintro ⟨v, ha, hno⟩
        exact hno (((hacks _ v).mp ha).2 ▸ hmore)
    others := fun other ho hno => by
      have hne : other.serial ≠ new.serial := by
        intro heq
        obtain rfl := List.inj_on_of_nodup_map hs.serials ho hnew.mem (heq.trans hnew.serial)
        exact hno value ((hacks _ _).mpr ⟨hid, rfl⟩)
      exact ⟨mem_store_of_ne ho hne, datagramsFor_snoc_of_ne hne.symm⟩ }

theorem State.AckEffect.transfers (h : s.InOrder) (hs : s.Sound)
    (hack : BlockAck d messageId value) (heffect : s.AckEffect messageId value t)
    (hids : t.ids < 65536) (hnum : blockMore value → blockNumber value + 1 < 2 ^ 20)
    (hlen : ∀ item ∈ s.coaps, item.package.messageId = messageId →
      (datagramsFor s.sent item.serial).length = blockNumber value + 1) :
    s.Transfers (.datagram addr d after complete) t := by
  cases heffect with
  | unmatched hno => exact State.transfers_unmatched hack hno
  | deleted hmem hid hmore => exact State.transfers_deleted h hs hack hmem hid hmore
  | continued hid hmore hnew =>
    have hids := Nat.lt_of_succ_lt_succ hids
    exact State.transfers_continued h hs hack hid hmore hnew hids (hnum hmore)
      (hlen _ hnew.mem hid)

end Ack

section Run

variable {s t : State} {e : Event}

theorem State.inOrder_step (hs : s.Sound) (h : s.InOrder) (hans : s.Answers e)
    (hstep : s.react e = .ok t) (hids : t.ids < 65536) : t.InOrder ∧ s.Transfers e t := by
  cases e with
  | line text complete =>
    have heffect := State.commandLine_effect hs hstep
    exact ⟨heffect.inOrder h hs hids, heffect.transfers h hs hids⟩
  | datagram addr d after complete =>
    obtain ⟨sent, hsent, value, hack, h1, h3, hasks, hnum⟩ := hans
    have hlen (item : Item) (hi : item ∈ s.coaps)
        (hid : item.package.messageId = messageIdOf sent.datagram) :=
      h.length_datagramsFor hi hsent hid.symm hasks
    have heffect := State.ackEffect hs h hack h1 h3 hnum hstep
    exact ⟨heffect.inOrder h hs hids hnum hlen, heffect.transfers h hs hack hids hnum hlen⟩

theorem State.ids_le (hs : s.Sound) (hstep : s.react e = .ok t) : s.ids ≤ t.ids := by
  cases e with
  | line text complete =>
    cases State.commandLine_effect hs hstep with
    | none => exact le_rfl
    | refused => exact Nat.le_succ _
    | requested => exact Nat.le_succ _
  | datagram addr d after complete =>
    cases State.readCb_effect hs hstep with
    | none => exact le_rfl
    | acked => exact le_rfl
    | continued => exact Nat.le_succ _
    | deleted => exact le_rfl

theorem State.inOrder_of_reachable (hs : (State.system.restrict State.Answers).Reachable s)
    (hids : s.ids < 65536) : s.InOrder := by
  revert hids
  refine hs.invariant_of (P := State.Sound) (Q := fun s => s.ids < 65536 → s.InOrder)
    (fun s hs => State.sound_of_reachable hs.of_restrict) ?_ ?_
  · rintro s ⟨keepsFreed, addr, heap, -, rfl⟩ -
    exact State.inOrder_start
  · rintro s e t hsound h ⟨hans, hstep⟩ - hids
    have hle := State.ids_le hsound hstep
    exact (State.inOrder_step hsound (h (by omega)) hans hstep hids).1

end Run

section Works

variable {s t : State} {item : Item} {messageId : UInt16} {value d after : List UInt8} {addr : ℕ}
  {complete : Bool}

theorem State.listDel_ok_iff {messageId : UInt16}
    (h : getByMsgId s.coaps messageId = some item) :
    (∃ t, s.listDel messageId = .ok t) ↔ item.package.options = [] ∨ s.keepsFreed = true := by
  rw [s.listDel_found h, coapFree_eq]
  split_ifs with hfree
  · exact iff_of_true ⟨_, rfl⟩ hfree
  · refine iff_of_false ?_ hfree
    rintro ⟨t, ht⟩
    cases ht

/-- An ACK of a block is dealt with unless freed options are read. -/
theorem State.readCb_ok_iff (hs : s.Sound) (hdistinct : s.DistinctIds)
    (hack : BlockAck d messageId value) (h1 : 1 ≤ value.length) (h3 : value.length ≤ 3) :
    (∃ t, s.readCb addr d after complete = .ok t) ↔
      s.keepsFreed = true ∨ ∀ item ∈ s.coaps, ∀ value, BlockAck d item.package.messageId value →
        ¬ blockMore value → item.package.options = [] := by
  rw [State.readCb_blockAck s hack h3]
  cases hfound : getByMsgId s.coaps messageId with
  | none =>
    refine iff_of_true ⟨s, rfl⟩ (.inr fun item hi v hack' => absurd (hack'.unique hack).1 ?_)
    simpa using List.find?_eq_none.mp hfound item hi
  | some item =>
    obtain ⟨hmem, hid⟩ := mem_of_getByMsgId hfound
    obtain ⟨block, hblock, hreads⟩ := recvBlock_reads h1 h3
    rw [hblock]
    dsimp only
    split_ifs with hmore
    · obtain ⟨first, uri, hreg⟩ := hs.regular item hmem
      obtain ⟨q, -, hcont⟩ := State.continueBlock_eq hs.idle hreg block complete
      refine iff_of_true ⟨_, hcont⟩ (.inr fun other _ v hack' hlast => ?_)
      obtain rfl := (hack'.unique hack).2
      exact absurd (hreads.more.mp hmore) hlast
    · rw [State.listDel_ok_iff hfound, or_comm]
      refine or_congr_right ⟨fun hnil other ho v hack' _ => ?_, fun hall => ?_⟩
      · have hother : other.package.messageId = item.package.messageId :=
          (hack'.unique hack).1.trans hid.symm
        obtain rfl := List.inj_on_of_nodup_map hdistinct ho hmem hother
        exact hnil
      · exact hall item hmem value (hid ▸ hack) fun hm => hmore (hreads.more.mpr hm)

theorem State.react_ok_iff {e : Event} (hs : s.Sound) (h : s.InOrder) (hans : s.Answers e) :
    (∃ t, s.react e = .ok t) ↔ s.Works e := by
  cases e with
  | line text complete => exact State.commandLine_ok_iff hs complete
  | datagram addr d after complete =>
    obtain ⟨sent, -, value, hack, h1, h3, -, -⟩ := hans
    exact State.readCb_ok_iff hs h.distinct hack h1 h3

end Works

/-- As long as fewer than 65536 message IDs are taken, the requests for a package ask for the
blocks 0, 1, 2, ..., all requests have different IDs, and an event has an outcome, which treats the
packages as a block-wise transfer should, exactly if the memory holds what it needs. -/
theorem State.blockwise_iff {s : State}
    (hs : (State.system.restrict State.Answers).Reachable s)
    (hids : s.ids < 65536) :
    (∀ serial k d, (datagramsFor s.sent serial)[k]? = some d → AsksBlock d k) ∧
      (s.sent.map fun sent => messageIdOf sent.datagram).Nodup ∧
      ∀ e, s.Answers e →
        ((∃ t, s.react e = .ok t ∧ (t.ids < 65536 → s.Transfers e t)) ↔ s.Works e) := by
  have hsound := State.sound_of_reachable hs.of_restrict
  have h := State.inOrder_of_reachable hs hids
  refine ⟨h.asks, h.nodup, fun e hans => ?_⟩
  rw [← State.react_ok_iff hsound h hans]
  constructor
  · rintro ⟨t, hstep, -⟩
    exact ⟨t, hstep⟩
  · rintro ⟨t, hstep⟩
    exact ⟨t, hstep, fun hids' => (State.inOrder_step hsound h hans hstep hids').2⟩

section Samples

structure State.Asked (keepsFreed : Bool) (s : State) (item : Item) : Prop where
  reachable : (State.system.restrict State.Answers).Reachable s
  keepsFreed : s.keepsFreed = keepsFreed
  coaps : s.coaps = [item]
  sent : s.sent = [⟨some 0, item.package.message⟩]
  messageId : s.messageId = 2
  ids : s.ids = 1
  serial : item.serial = 0
  id : item.package.messageId = 1
  regular : ∃ uri, item.package.Regular none (some uri)

theorem State.exists_asked (keepsFreed : Bool) : ∃ s item, State.Asked keepsFreed s item := by
  obtain ⟨s, hs⟩ : ∃ s, s = State.start keepsFreed 0 fun _ => some ⟨0, fun _ => 0⟩ := ⟨_, rfl⟩
  have hinit : State.system.init s := ⟨keepsFreed, 0, _, fun _ => rfl, hs⟩
  have hsound : s.Sound := State.sound_of_reachable (.init hinit)
  have htakes := takes_sampleLine s (by simp [hs, State.start])
  obtain ⟨item, q, hline, hserial, hid, hreg⟩ := State.commandLine_ok hsound (by decide) htakes
    (show _ = some COAP_GET from rfl) (by decide) true
  subst hs
  exact ⟨_, item, .step (e := .line sampleLine true) (.init hinit) ⟨trivial, hline⟩, rfl, rfl,
    by rw [State.requested, hserial]; rfl, rfl, rfl, hserial, hid, hreg⟩

theorem State.Asked.answers {keepsFreed : Bool} {s : State} {item : Item}
    (h : State.Asked keepsFreed s item) {value : List UInt8} (h1 : 1 ≤ value.length)
    (h3 : value.length ≤ 3) (hnum : blockNumber value = 0) :
    s.Answers (.datagram 0 (blockAck 1 value) [] true) := by
  have hids := h.ids
  have hasks := (State.inOrder_of_reachable h.reachable (by omega)).asks
  have hmessage : messageIdOf item.package.message = 1 := (messageIdOf_message _).trans h.id
  refine ⟨⟨some 0, item.package.message⟩, by simp [h.sent], value, ?_, h1, h3, ?_, ?_⟩
  · rw [hmessage]
    exact blockAck_encode 1 h3
  · rw [hnum]
    exact hasks 0 0 _ (by simp [h.sent, datagramsFor])
  · rw [hnum]
    exact fun _ => by norm_num

theorem State.blockwise_sample :
    ∃ s t u : State, (State.system.restrict State.Answers).Reachable s ∧
      s.Transfers (.datagram 0 (blockAck 1 [0x08]) [] true) t ∧
      t.Transfers (.datagram 0 (blockAck 2 [0x10]) [] true) u ∧
      (∃ first follow, datagramsFor u.sent 0 = [first, follow]) ∧ u.coaps = [] := by
  obtain ⟨s, item, h⟩ := State.exists_asked true
  have hids := h.ids
  have hans : s.Answers (.datagram 0 (blockAck 1 [0x08]) [] true) :=
    h.answers (by decide) (by decide) (by decide)
  obtain ⟨t, hstep, htrans⟩ := ((State.blockwise_iff h.reachable (by omega)).2.2 _ hans).mpr
    (.inl h.keepsFreed)
  -- the first block
  obtain ⟨uri, hreg⟩ := h.regular
  have hsound := State.sound_of_reachable h.reachable.of_restrict
  obtain ⟨q, -, hcont⟩ := State.continueBlock_eq hsound.idle hreg ⟨0, 1, 0⟩ true
  have hfound : getByMsgId s.coaps 1 = some item := by simp [h.coaps, getByMsgId, h.id]
  have hblock : recvBlock [0x08] = some ⟨0, 1, 0⟩ := by decide
  have hread : s.readCb 0 (blockAck 1 [0x08]) [] true = _ :=
    (State.readCb_more (blockAck_encode 1 (by decide)) (by decide) hfound hblock
      (by decide)).trans hcont
  obtain ⟨new, hnew⟩ : ∃ new, new = (item.next s.messageId ⟨0, 1, 0⟩ (some uri)).counted true :=
    ⟨_, rfl⟩
  rw [← hnew] at hread
  obtain rfl := Except.ok.inj (hstep.symm.trans hread)
  have hserial : new.serial = 0 := by rw [hnew]; exact h.serial
  have hid : new.package.messageId = 2 := by rw [hnew]; exact h.messageId
  have hcoaps : (s.continued new q).coaps = [new] := by
    simp [State.continued, store, h.coaps, h.serial, hserial]
  have hsent : datagramsFor (s.continued new q).sent 0 =
      [item.package.message, new.package.message] := by
    simp [State.continued, datagramsFor, h.sent, hserial]
  have hreach : (State.system.restrict State.Answers).Reachable (s.continued new q) :=
    h.reachable.step ⟨hans, hstep⟩
  -- the second one
  obtain ⟨hasks, -, hsteps⟩ := State.blockwise_iff hreach (by change s.ids + 1 < _; omega)
  have hans' : (s.continued new q).Answers (.datagram 0 (blockAck 2 [0x10]) [] true) := by
    refine ⟨⟨some new.serial, new.package.message⟩, ?_, [0x10], ?_, by decide, by decide, ?_, ?_⟩
    · exact List.mem_append_right _ (List.mem_singleton_self _)
    · change BlockAck _ (messageIdOf new.package.message) _
      rw [messageIdOf_message, hid]
      exact blockAck_encode 2 (by decide)
    · exact hasks 0 1 _ (by rw [hsent]; rfl)
    · exact fun _ => by decide
  obtain ⟨u, hstep', htrans'⟩ := (hsteps _ hans').mpr (.inl h.keepsFreed)
  have hfound' : getByMsgId (s.continued new q).coaps 2 = some new := by
    simp [hcoaps, getByMsgId, hid]
  have hread' : (s.continued new q).readCb 0 (blockAck 2 [0x10]) [] true = _ :=
    State.readCb_last (blockAck_encode 2 (by decide)) (by decide) hfound'
      (show recvBlock [0x10] = some ⟨1, 0, 0⟩ by decide) rfl
  obtain rfl := State.eq_deleted hfound' (hread'.symm.trans hstep')
  refine ⟨s, _, _, h.reachable, htrans ?_, htrans' ?_, ⟨_, _, hsent⟩, ?_⟩
  · change s.ids + 1 < _
    omega
  · change s.ids + 1 < _
    omega
  · rw [State.deleted, hcoaps]
    simp [hid]

/-- The ACK of the only block makes the client read the options of the package that it frees. -/
theorem State.not_blockwise_freed :
    ∃ s : State, (State.system.restrict State.Answers).Reachable s ∧ s.ids < 65536 ∧
      s.Answers (.datagram 0 (blockAck 1 [0x00]) [] true) ∧
      s.react (.datagram 0 (blockAck 1 [0x00]) [] true) = .error .freed := by
  obtain ⟨s, item, h⟩ := State.exists_asked false
  have hids := h.ids
  refine ⟨s, h.reachable, by omega, h.answers (by decide) (by decide) (by decide), ?_⟩
  have hfound : getByMsgId s.coaps 1 = some item := by simp [h.coaps, getByMsgId, h.id]
  have hblock : recvBlock [0x00] = some ⟨0, 0, 0⟩ := by decide
  obtain ⟨uri, hreg⟩ := h.regular
  have hoptions : item.package.options ≠ [] := by
    rw [hreg.options]
    simp [packageOptions, requestOptions]
  refine (State.readCb_last (blockAck_encode 1 (by decide)) (by decide) hfound hblock rfl).trans ?_
  rw [s.listDel_found hfound, coapFree_eq, h.keepsFreed, if_neg (by simp [hoptions])]
  rfl

end Samples

end Mbtk.Client
